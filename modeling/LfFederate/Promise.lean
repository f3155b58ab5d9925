import LfFederate.Coordinator

/-!
What a NET promises, and what `__next_event_time` returns, when the main loop keeps to its
contract: it asks for the time of the earliest event, or the stop time if that is earlier, and
asks again whenever the answer differs from the question.

The RTI reads `NEXT_EVENT_TIME(t)` as a promise that, unless another federate sends it
something, the federate produces nothing earlier than `t`. The code keeps a weaker promise: a
later NET drops below `t` only after an event earlier than `t` has been scheduled, but that
event may come from the federate itself, from a physical action that fires while
`__next_event_time` waits. And a TAG answering an older, larger NET that arrives while a later,
smaller request waits is returned as it is, above the request.
-/

namespace LfFederate.Promise

open LfFederate.Coordinator

/-- The NET `NEXT_EVENT_TIME(t₁)` stands at position `i` of the log, and nothing after it breaks
its promise; `breaks t₁ o` says that `o` does. -/
def Unbroken (breaks : ℤ → Obs → Prop) (l : List Obs) (i : ℕ) (t₁ : ℤ) : Prop :=
  l[i]? = some (.sent (.nextEventTime t₁)) ∧ ∀ k o, i < k → l[k]? = some o → ¬ breaks t₁ o

/-- Every NET of the log is at least each earlier NET whose promise nothing in between broke. -/
def NetsKept (breaks : ℤ → Obs → Prop) (l : List Obs) : Prop :=
  ∀ j t₂, l[j]? = some (.sent (.nextEventTime t₂)) →
    ∀ i t₁, i < j → Unbroken breaks (l.take j) i t₁ → t₁ ≤ t₂

/-- A message from another federate is scheduled. -/
def fromOtherFederate (_ : ℤ) : Obs → Prop
  | .scheduled _ .remote => True
  | _ => False

/-- An event earlier than the promised time is scheduled, by whatever thread. -/
def scheduledEarlier (t₁ : ℤ) : Obs → Prop
  | .scheduled e _ => e < t₁
  | _ => False

lemma getElem?_snoc {α : Type} (l : List α) (o : α) (i : ℕ) :
    (l ++ [o])[i]? = if i < l.length then l[i]? else if i = l.length then some o else none := by
  split_ifs with h1 h2
  · exact List.getElem?_append_left h1
  · subst h2; exact List.getElem?_concat_length l o
  · exact List.getElem?_eq_none (by simp; omega)

variable {breaks : ℤ → Obs → Prop}

lemma unbroken_of_snoc {l : List Obs} {o : Obs} {i : ℕ} {t₁ : ℤ}
    (h : Unbroken breaks (l ++ [o]) i t₁) (hi : i < l.length) :
    Unbroken breaks l i t₁ ∧ ¬ breaks t₁ o := by
  obtain ⟨h₁, hk⟩ := h
  rw [getElem?_snoc, if_pos hi] at h₁
  refine ⟨⟨h₁, fun k o' hik hk' => hk k o' hik ?_⟩, hk l.length o hi (by simp)⟩
  rw [getElem?_snoc, if_pos (List.getElem?_eq_some_iff.mp hk').1]
  exact hk'

lemma unbroken_snoc_cases {l : List Obs} {o : Obs} {i : ℕ} {t₁ : ℤ}
    (h : Unbroken breaks (l ++ [o]) i t₁) :
    (i = l.length ∧ o = .sent (.nextEventTime t₁)) ∨
      (Unbroken breaks l i t₁ ∧ ¬ breaks t₁ o) := by
  have h₁ := h.1
  rw [getElem?_snoc] at h₁
  split_ifs at h₁ with hi hl
  · exact .inr (unbroken_of_snoc h hi)
  · exact .inl ⟨hl, Option.some.inj h₁⟩

lemma netsKept_snoc {l : List Obs} {o : Obs} (h : NetsKept breaks l)
    (ho : ∀ t₂, o = .sent (.nextEventTime t₂) → ∀ i t₁, Unbroken breaks l i t₁ → t₁ ≤ t₂) :
    NetsKept breaks (l ++ [o]) := by
  intro j t₂ hj i t₁ hij hu
  rw [getElem?_snoc] at hj
  split_ifs at hj with h₁ h₂
  · rw [List.take_append_of_le_length h₁.le] at hu
    exact h j t₂ hj i t₁ hij hu
  · subst h₂
    rw [List.take_left' rfl] at hu
    exact ho t₂ (Option.some.inj hj) i t₁ hu

/-! ### The promise the code keeps -/

variable {up down : Bool} {stopTime : ℤ}

lemma nextTime_le (s : St) :
    nextTime stopTime s ≤ stopTime ∧ ∀ e ∈ s.eventQ, nextTime stopTime s ≤ e := by
  unfold nextTime
  cases hp : pqueuePeek s.eventQ with
  | none => simp [pqueuePeek_none hp]
  | some h =>
    exact ⟨min_le_right _ _, fun e he => le_trans (min_le_left _ _) ((pqueuePeek_some hp).2 e he)⟩

lemma le_nextTime {s : St} {t : ℤ} (hs : t ≤ stopTime) (hq : ∀ e ∈ s.eventQ, t ≤ e) :
    t ≤ nextTime stopTime s := by
  unfold nextTime
  cases hp : pqueuePeek s.eventQ with
  | none => simpa using hs
  | some h => exact le_min (hq h (pqueuePeek_some hp).1) hs

/-- What the log and the queue keep under the caller contract: the NETs keep their promises, and
every promise still unbroken is at most the stop time and every queued event. -/
structure Promised (stopTime : ℤ) (s : St) : Prop where
  kept : NetsKept scheduledEarlier s.log
  alive : ∀ i t₁, Unbroken scheduledEarlier s.log i t₁ → t₁ ≤ stopTime ∧ ∀ e ∈ s.eventQ, t₁ ≤ e

lemma promised_init (t : ℤ) : Promised stopTime (init t) :=
  ⟨fun _ _ h => by simp [init] at h, fun _ _ h => by simp [init, Unbroken] at h⟩

lemma promised_step {s s' : St} {a : Act} (hs : Promised stopTime s)
    (ha : planner stopTime s a = true) (h : next up down s a = some s') : Promised stopTime s' := by
  rcases log_of_next h with ⟨hl, hq⟩ | ⟨o, hl, hq, hnet, -⟩ | ⟨e, src, rfl, hl, hq⟩ |
    ⟨t, rfl, hl, hq⟩
  · -- the log stays and the queue keeps some of its events
    refine ⟨hl ▸ hs.kept, fun i t₁ hu => ?_⟩
    obtain ⟨h₁, h₂⟩ := hs.alive i t₁ (hl ▸ hu)
    exact ⟨h₁, fun e he => h₂ e (hq e he)⟩
  · -- a message that neither promises nor schedules
    refine ⟨hl ▸ netsKept_snoc hs.kept fun t₂ ho => absurd ho (hnet t₂), fun i t₁ hu => ?_⟩
    rw [hl] at hu
    rw [hq]
    rcases unbroken_snoc_cases hu with ⟨-, ho⟩ | ⟨hu, -⟩
    · exact absurd ho (hnet t₁)
    · exact hs.alive i t₁ hu
  · -- an event is scheduled, and breaks the promises above it
    refine ⟨hl ▸ netsKept_snoc hs.kept fun t₂ ho => (by cases ho), fun i t₁ hu => ?_⟩
    rw [hl] at hu
    rw [hq]
    rcases unbroken_snoc_cases hu with ⟨-, ho⟩ | ⟨hu, hb⟩
    · cases ho
    · obtain ⟨h₁, h₂⟩ := hs.alive i t₁ hu
      refine ⟨h₁, fun e' he' => ?_⟩
      rcases List.mem_cons.mp he' with rfl | he'
      · simpa [scheduledEarlier] using hb
      · exact h₂ e' he'
  · -- a call sends the NET the caller asks for
    have ht : t = nextTime stopTime s := by simpa [planner] using ha
    refine ⟨hl ▸ netsKept_snoc hs.kept fun t₂ ho i t₁ hu => ?_, fun i t₁ hu => ?_⟩
    · cases ho
      obtain ⟨h₁, h₂⟩ := hs.alive i t₁ hu
      exact ht ▸ le_nextTime h₁ h₂
    · rw [hl] at hu
      rw [hq]
      rcases unbroken_snoc_cases hu with ⟨-, ho⟩ | ⟨hu, -⟩
      · cases ho
        exact ht ▸ nextTime_le s
      · exact hs.alive i t₁ hu

lemma promised_of_reachable {s : St} (h : Reachable up down (planner stopTime) s) :
    Promised stopTime s :=
  Reachable.invariant up down _ promised_init (fun _ _ _ hs ha hn => promised_step hs ha hn) h

/-- **What a NET promises.** Under the caller contract, whatever TAGs arrive and whenever events
are scheduled, a NET below an earlier NET `t₁` is sent only after an event earlier than `t₁` has
been scheduled in between, by a message from another federate or by the federate itself. -/
theorem nets_drop_only_after_earlier_events {s : St} (h : Reachable up down (planner stopTime) s) :
    NetsKept scheduledEarlier s.log :=
  (promised_of_reachable h).kept

theorem nets_drop_only_after_earlier_events_first_net :
    ∃ s, Reachable true true (planner 100) s ∧
      s.log = [.scheduled 10 .local, .sent (.nextEventTime 10)] ∧ NetsKept scheduledEarlier s.log :=
  have h : Reachable true true (planner 100) _ := ⟨0, [.schedule 10 .local, .lock, .call 10], rfl⟩
  ⟨_, h, rfl, nets_drop_only_after_earlier_events h⟩

/-- A physical action at 5 fires while `__next_event_time(10)` waits: the main loop asks again
with 5, and the NET drops from 10 to 5 with no message from another federate in between. -/
theorem net_drops_after_physical_action :
    ∃ s, Reachable true true (planner 100) s ∧ ¬ NetsKept fromOtherFederate s.log := by
  refine ⟨_, ⟨0, [.schedule 10 .local, .lock, .call 10, .schedule 5 .local, .reacquire, .replan,
    .call 5], rfl⟩, ?_⟩
  show ¬ NetsKept fromOtherFederate
    [.scheduled 10 .local, .sent (.nextEventTime 10), .scheduled 5 .local, .sent (.nextEventTime 5)]
  intro hk
  have h := hk 3 5 rfl 1 10 (by decide) ⟨rfl, fun k o hk ho => ?_⟩
  · omega
  · rcases k with _ | _ | _ | k <;> simp at hk ho
    subst ho
    simp [fromOtherFederate]

/-! ### What `__next_event_time` returns -/

/-- A physical action at 5 fires while `__next_event_time(10)` waits, so the call returns 5; the
next call, `__next_event_time(5)`, sends a NET for 5 and waits, and the RTI's TAG for the first
NET, 10, arrives: the call returns 10, above its argument. -/
theorem next_event_time_returns_past_request :
    ∃ s, Reachable true true (fun s a => planner 100 s a && conforming s a) s ∧
      s.main = .returned 5 10 :=
  ⟨_, ⟨0, [.schedule 10 .local, .lock, .call 10, .schedule 5 .local, .reacquire, .replan, .call 5,
    .timeAdvanceGrant 10, .reacquire], rfl⟩, rfl⟩

end LfFederate.Promise
