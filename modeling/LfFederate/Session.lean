import LfFederate.TimeAdvance
import LfFederate.RtiReader

/-!
The coordinator of a federate as its `listen_to_rti` thread feeds it from the bytes of the RTI
socket.

`listen_to_rti` reads one message at a time without the mutex, then runs its handler, one
critical section of the coordinator: a TAG goes to `handle_time_advance_grant`, a STOP to
`handle_incoming_stop_message`, and a `TIMED_MESSAGE` to `schedule_value_already_locked`, which
puts an event on the queue at the time `__schedule` gives it (`__schedule` is not part of the
source, so any time). Between these passes the main thread and the threads that schedule other
events take their steps; only `listen_to_rti` handles TAGs and STOPs. Where the stream does not
hold a whole message the process exits: the model takes no pass of `listen_to_rti` there, and lets
the other threads go on, which only adds runs.
-/

namespace LfFederate.Session

open Wire Coordinator RtiReader

/-- The coordinator step by which `listen_to_rti` handles `msg`; `e` is the time `__schedule`
gives the event of a timed message. -/
def handle (msg : FromRti) (e : ℤ) : Coordinator.Act :=
  match msg with
  | .timedMessage _ => .schedule e .remote
  | .timeAdvanceGrant g => .timeAdvanceGrant g
  | .stop stopTime => .stopMessage stopTime

/-- The coordinator steps only `listen_to_rti` takes. -/
def rtiHandler : Coordinator.Act → Bool
  | .timeAdvanceGrant _ | .stopMessage _ => true
  | _ => false

/-- The TAGs among messages of the RTI, in order. -/
def tagsOf (msgs : List FromRti) : List ℤ :=
  msgs.filterMap fun
    | .timeAdvanceGrant g => some g
    | _ => none

/-- The coordinator, the bytes of the RTI socket not yet read, and, written by the model and not by
the code, the messages `listen_to_rti` has handed on, oldest first. -/
structure St where
  coordinator : Coordinator.St
  bytes : Bytes
  handed : List FromRti

def init (startTime : ℤ) (stream : Bytes) : St := ⟨Coordinator.init startTime, stream, []⟩

/-- A step of the main thread or of a thread other than `listen_to_rti` that schedules an event,
or a pass of `listen_to_rti`, which reads the next message and runs its handler; `e` is the time
`__schedule` gives the event of a timed message. -/
inductive Act
  | other (a : Coordinator.Act)
  | listen (e : ℤ)

variable (up down : Bool) (c : Codes) (myFedId : ℕ)

def next (s : St) : Act → Option St
  | .other a =>
    if rtiHandler a then none
    else (Coordinator.next up down s.coordinator a).map fun co => { s with coordinator := co }
  | .listen e =>
    match listenToRtiTurn c myFedId s.bytes with
    | some (msg, rest) =>
      (Coordinator.next up down s.coordinator (handle msg e)).map fun co =>
        ⟨co, rest, s.handed ++ [msg]⟩
    | none => none

/-- A state some interleaving reaches from the start, the RTI writing `stream`. -/
def Reachable (stream : Bytes) (s : St) : Prop :=
  ∃ startTime as, runSteps (next up down c myFedId) (fun _ _ => true) (init startTime stream) as =
    some s

/-! ### What a coordinator step does to the TAGs -/

section Coordinator

variable {up down}

lemma grants_next_of_ne {s s' : Coordinator.St} {a : Coordinator.Act}
    (h : Coordinator.next up down s a = some s') (ha : ∀ g, a ≠ .timeAdvanceGrant g) :
    grants s'.log = grants s.log ∧ s'.tag = s.tag := by
  cases a with
  | call t =>
    simp only [Coordinator.next] at h
    split_ifs at h
    cases h
    refine ⟨?_, nextEventTime_tag s t⟩
    rcases @nextEventTime_log up down s t with hl | hl <;> simp [hl, grants]
  | logicalTimeComplete t =>
    simp only [Coordinator.next] at h
    split_ifs at h
    cases h
    unfold logicalTimeComplete
    split <;> simp [grants]
  | timeAdvanceGrant g => exact absurd rfl (ha g)
  | broadcastStop | schedule _ _ =>
    simp only [Coordinator.next] at h
    split_ifs at h
    cases h
    simp [grants, broadcast, broadcastStop, scheduleValueAlreadyLocked]
    -- the other steps of the main thread and the STOP handler leave the log as it is
  | _ =>
    simp only [Coordinator.next] at h
    split at h <;> (try split_ifs at h) <;> cases h
    all_goals exact ⟨rfl, rfl⟩

lemma grants_next_tag {s s' : Coordinator.St} {g : ℤ}
    (h : Coordinator.next up down s (.timeAdvanceGrant g) = some s') :
    grants s'.log = grants s.log ++ [g] ∧ s'.tag = g := by
  simp only [Coordinator.next] at h
  split_ifs at h
  cases h
  simp [grants, handleTimeAdvanceGrant, broadcast]

lemma advance_le_tag {s s' : Coordinator.St} (hs : TimeAdvance.Safe up s) (hup : up = true)
    (ha : Coordinator.next up down s .advance = some s') : s'.currentTime ≤ s'.tag := by
  simp only [Coordinator.next] at ha
  split at ha <;> (try split_ifs at ha) <;> cases ha
  rename_i t r hm hr
  subst hr
  exact hs.granted r hm hup

end Coordinator

/-! ### What every run keeps -/

/-- What holds in every reachable state: the bytes read are those of the messages handed on,
each well formed; the coordinator has recorded exactly their TAGs and holds the last in `__tag`;
and it is in a safe state. -/
structure Faithful (stream : Bytes) (s : St) : Prop where
  bytes : stream = s.handed.flatMap (encode c) ++ s.bytes
  wellFormed : ∀ msg ∈ s.handed, WellFormed myFedId msg
  grants : grants s.coordinator.log = tagsOf s.handed
  tag : s.coordinator.tag = (tagsOf s.handed).getLast?.getD NEVER
  safe : TimeAdvance.Safe up s.coordinator

variable {up down c myFedId}

lemma tagsOf_append (l l' : List FromRti) : tagsOf (l ++ l') = tagsOf l ++ tagsOf l' :=
  List.filterMap_append _ _ _

lemma Faithful.step {stream : Bytes} {s s' : St} {a : Act}
    (hs : Faithful up c myFedId stream s) (h : next up down c myFedId s a = some s') :
    Faithful up c myFedId stream s' := by
  cases a with
  | other a =>
    simp only [next] at h
    split_ifs at h with hr
    obtain ⟨co, hco, rfl⟩ := Option.map_eq_some'.mp h
    -- the other threads handle no TAG
    obtain ⟨hg, ht⟩ := grants_next_of_ne hco (by rintro g rfl; simp [rtiHandler] at hr)
    exact ⟨hs.bytes, hs.wellFormed, hg.trans hs.grants, ht.trans hs.tag,
      TimeAdvance.safe_step hco⟩
  | listen e =>
    simp only [next] at h
    split at h
    · rename_i msg rest hturn
      obtain ⟨co, hco, rfl⟩ := Option.map_eq_some'.mp h
      obtain ⟨hw, hbytes⟩ := listenToRtiTurn_sound c myFedId hturn
      have htags : Coordinator.grants co.log = tagsOf (s.handed ++ [msg]) ∧
          co.tag = (tagsOf (s.handed ++ [msg])).getLast?.getD NEVER := by
        rw [tagsOf_append]
        cases msg with
        | timeAdvanceGrant g =>
          obtain ⟨hg, ht⟩ := grants_next_tag hco
          simp [hg, ht, hs.grants, tagsOf]
        | timedMessage m =>
          obtain ⟨hg, ht⟩ := grants_next_of_ne hco (by simp [handle])
          simp [hg, ht, hs.grants, hs.tag, tagsOf]
        | stop t =>
          obtain ⟨hg, ht⟩ := grants_next_of_ne hco (by simp [handle])
          simp [hg, ht, hs.grants, hs.tag, tagsOf]
      refine ⟨?_, List.forall_mem_append.mpr ⟨hs.wellFormed, by simpa using hw⟩, htags.1,
        htags.2, TimeAdvance.safe_step hco⟩
      rw [hs.bytes, hbytes, List.flatMap_append, List.flatMap_singleton, List.append_assoc]
    · cases h

lemma faithful_of_reachable {stream : Bytes} {s : St} (h : Reachable up down c myFedId stream s) :
    Faithful up c myFedId stream s := by
  obtain ⟨startTime, as, h⟩ := h
  have hinit : Faithful up c myFedId stream (init startTime stream) :=
    ⟨by simp [init], nofun, rfl, rfl, TimeAdvance.safe_init startTime⟩
  exact runSteps_invariant _ _ (fun _ _ _ hs _ hn => hs.step hn) hinit h

/-! ### From the RTI's bytes to the coordinator -/

/-- **The RTI's TAGs reach the coordinator whole, once each, in order.** In every interleaving of
`listen_to_rti` with the main thread and the threads that schedule events, whatever the RTI
writes: the bytes read so far are those of well-formed messages, and the TAGs the coordinator has
handled are exactly the `TIME_ADVANCE_GRANT`s among them, in the order the RTI sent them. -/
theorem rti_tags_reach_coordinator_in_order {stream : Bytes} {s : St}
    (h : Reachable up down c myFedId stream s) :
    ∃ msgs, stream = msgs.flatMap (encode c) ++ s.bytes ∧
      (∀ msg ∈ msgs, WellFormed myFedId msg) ∧ grants s.coordinator.log = tagsOf msgs :=
  ⟨_, (faithful_of_reachable h).bytes, (faithful_of_reachable h).wellFormed,
    (faithful_of_reachable h).grants⟩

theorem rti_tags_reach_coordinator_in_order_one_tag :
    ∃ s, Reachable true true someCodes 2 (encode someCodes (.timeAdvanceGrant 10)) s ∧
      ∃ msgs, encode someCodes (.timeAdvanceGrant 10) = msgs.flatMap (encode someCodes) ++ s.bytes ∧
        (∀ msg ∈ msgs, WellFormed 2 msg) ∧ grants s.coordinator.log = tagsOf msgs :=
  have h : Reachable true true someCodes 2 (encode someCodes (.timeAdvanceGrant 10)) _ :=
    ⟨0, [.listen 0], rfl⟩
  ⟨_, h, rti_tags_reach_coordinator_in_order h⟩

/-- **Logical time advances only to what the RTI's bytes granted.** With upstream federates, in
every interleaving of `listen_to_rti` with the main thread and the threads that schedule events,
whatever the RTI writes: when the main thread advances logical time, the bytes read so far are
those of well-formed messages, and the new time is at most the last `TIME_ADVANCE_GRANT` among
them (`NEVER` where there is none). -/
theorem advance_only_to_rti_granted_time {stream : Bytes} {s s' : St}
    (h : Reachable up down c myFedId stream s) (hup : up = true)
    (ha : next up down c myFedId s (.other .advance) = some s') :
    ∃ msgs, stream = msgs.flatMap (encode c) ++ s'.bytes ∧
      (∀ msg ∈ msgs, WellFormed myFedId msg) ∧
      s'.coordinator.currentTime ≤ (tagsOf msgs).getLast?.getD NEVER := by
  have hs := faithful_of_reachable h
  have hs' := hs.step ha
  simp only [next, rtiHandler, Bool.false_eq_true, if_false] at ha
  obtain ⟨co, hco, rfl⟩ := Option.map_eq_some'.mp ha
  refine ⟨_, hs'.bytes, hs'.wellFormed, ?_⟩
  rw [← hs'.tag]
  exact advance_le_tag hs.safe hup hco

theorem advance_only_to_rti_granted_time_after_tag :
    ∃ s s', Reachable true true someCodes 2 (encode someCodes (.timeAdvanceGrant 10)) s ∧
      true = true ∧ next true true someCodes 2 s (.other .advance) = some s' ∧
      ∃ msgs,
        encode someCodes (.timeAdvanceGrant 10) = msgs.flatMap (encode someCodes) ++ s'.bytes ∧
        (∀ msg ∈ msgs, WellFormed 2 msg) ∧
        s'.coordinator.currentTime ≤ (tagsOf msgs).getLast?.getD NEVER :=
  have h : Reachable true true someCodes 2 (encode someCodes (.timeAdvanceGrant 10)) _ :=
    ⟨0, [.other .lock, .other (.call 10), .listen 0, .other .reacquire], rfl⟩
  ⟨_, _, h, rfl, rfl, advance_only_to_rti_granted_time h rfl rfl⟩

end LfFederate.Session
