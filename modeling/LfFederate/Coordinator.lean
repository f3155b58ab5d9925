import LfFederate.Run
import Mathlib.Order.MinMax
import Mathlib.Data.List.Basic

/-!
The time-advance coordinator of a federate (`federate.c`), as threads sharing one mutex.

The main thread calls `__next_event_time(t)` holding the mutex. The call returns at once when the
federate has no upstream and no downstream federates, when a TAG of at least `t` is already
recorded, or, after sending `NEXT_EVENT_TIME(t)`, when there are no upstream federates.
Otherwise it sets `__tag_pending` and waits on `event_q_changed`; `pthread_cond_wait` releases
the mutex and blocks in one step. Woken, by a broadcast or spuriously, the call takes the mutex
back and returns the TAG if one has arrived, the head of the event queue if that is now earlier
than `t`, and waits again otherwise.

The other threads read their input without the mutex and then hold it for one critical section
that changes the shared state and broadcasts: `listen_to_rti` in `handle_time_advance_grant`,
`handle_incoming_stop_message` and `handle_timed_message`, the readers of peer sockets in
`handle_timed_message`, and any other thread that schedules an event. Such a critical section
is one step of the model, taken while the main thread does not hold the mutex.

A run also keeps a log of what it shows to the outside: the messages sent to the RTI, the TAGs
handled and the events scheduled.
-/

namespace LfFederate.Coordinator

/-- Modelled from the spec: `NEVER`, below every valid time (`LLONG_MIN`). -/
def NEVER : ℤ := -9223372036854775808

/-- Where the main thread is: outside `__next_event_time` without or with the mutex, blocked in
the `pthread_cond_wait` of `__next_event_time(t)`, woken from it and not yet holding the mutex
again, or returned from `__next_event_time(t)` with `r`, holding the mutex. -/
inductive Main
  | idle
  | locked
  | waiting (t : ℤ)
  | woken (t : ℤ)
  | returned (t r : ℤ)
  deriving DecidableEq, Repr

def Main.holdsMutex : Main → Bool
  | .locked | .returned _ _ => true
  | _ => false

inductive ToRti
  | nextEventTime (t : ℤ)
  | logicalTimeComplete (t : ℤ)
  | stop (t : ℤ)
  deriving DecidableEq, Repr

inductive Source
  | remote
  | local
  deriving DecidableEq, Repr

/-- What a run shows to the outside: a message sent to the RTI, a TAG handled, and an event
scheduled at `e`, by `handle_timed_message` for a message from another federate or by the
federate itself. -/
inductive Obs
  | sent (m : ToRti)
  | granted (g : ℤ)
  | scheduled (e : ℤ) (src : Source)
  deriving DecidableEq, Repr

/-- `__tag`, `__tag_pending`, `stop_requested`, the times of the events on the queue, the current
logical time, the main thread, the log, oldest first, and, written by the model and not by the
code, whether the queue held no event earlier than its argument when the current call of
`__next_event_time` began. -/
structure St where
  tag : ℤ
  tagPending : Bool
  stopRequested : Bool
  eventQ : List ℤ
  currentTime : ℤ
  main : Main
  log : List Obs
  clearAtCall : Bool
  deriving DecidableEq, Repr

def init (startTime : ℤ) : St := ⟨NEVER, false, false, [], startTime, .idle, [], true⟩

/-- Modelled from the spec: `pqueue_peek(event_q)`, the time of the earliest event. -/
def pqueuePeek (q : List ℤ) : Option ℤ := q.min?

lemma pqueuePeek_some {q : List ℤ} {h : ℤ} (hp : pqueuePeek q = some h) :
    h ∈ q ∧ ∀ e ∈ q, h ≤ e :=
  ⟨List.min?_mem min_choice hp,
    fun e he => (List.le_min?_iff (fun _ _ _ => le_min_iff) hp).1 le_rfl e he⟩

lemma pqueuePeek_none {q : List ℤ} (hp : pqueuePeek q = none) : q = [] :=
  List.min?_eq_none_iff.mp hp

/-- `pthread_cond_broadcast(&event_q_changed)`. -/
def broadcast (s : St) : St :=
  { s with
    main :=
      match s.main with
      | .waiting t => .woken t
      | m => m }

variable (up down : Bool)

/-- `__next_event_time(t)` up to its return or its first wait; `up` and `down` are
`__fed_has_upstream` and `__fed_has_downstream`. -/
def nextEventTime (s : St) (t : ℤ) : St :=
  if !down && !up then { s with main := .returned t t }
  else if t ≤ s.tag then { s with main := .returned t t }
  else if !up then { s with main := .returned t t, log := s.log ++ [.sent (.nextEventTime t)] }
  else
    { s with
      tagPending := true
      main := .waiting t
      log := s.log ++ [.sent (.nextEventTime t)]
      clearAtCall := decide (∀ e ∈ s.eventQ, t ≤ e) }

/-- The loop of `__next_event_time(t)` once the woken call holds the mutex again. -/
def nextEventTimeResume (s : St) (t : ℤ) : St :=
  { s with
    main :=
      if s.tagPending then
        match pqueuePeek s.eventQ with
        | some h => if h < t then .returned t h else .waiting t
        | none => .waiting t
      else .returned t s.tag }

def logicalTimeComplete (s : St) (t : ℤ) : St :=
  if down then { s with log := s.log ++ [.sent (.logicalTimeComplete t)] } else s

def broadcastStop (s : St) : St := { s with log := s.log ++ [.sent (.stop s.currentTime)] }

def handleTimeAdvanceGrant (s : St) (g : ℤ) : St :=
  broadcast { s with tag := g, tagPending := false, log := s.log ++ [.granted g] }

/-- The critical section of `handle_incoming_stop_message`; the stop time is ignored. -/
def handleIncomingStopMessage (s : St) : St := broadcast { s with stopRequested := true }

/-- `schedule_value_already_locked`, or any other insertion of an event at time `e` followed by a
broadcast. -/
def scheduleValueAlreadyLocked (s : St) (e : ℤ) (src : Source) : St :=
  broadcast { s with eventQ := e :: s.eventQ, log := s.log ++ [.scheduled e src] }

/-- A step of some thread: the main thread's own steps (a spurious wakeup, the woken thread's
retaking of the mutex with a pass of the loop of `__next_event_time`, an advance of logical time to
a returned `t`, a new plan without advancing, taking an event at or before the current time off
the queue), `listen_to_rti`'s handling of a TAG or a STOP, and an event scheduled by any
thread. -/
inductive Act
  | lock
  | unlock
  | call (t : ℤ)
  | wake
  | reacquire
  | advance
  | replan
  | pop (e : ℤ)
  | logicalTimeComplete (t : ℤ)
  | broadcastStop
  | timeAdvanceGrant (g : ℤ)
  | stopMessage (stopTime : ℤ)
  | schedule (e : ℤ) (src : Source)
  deriving DecidableEq, Repr

/-- The state after the step `a`, or `none` where `a` cannot be taken. -/
def next (s : St) : Act → Option St
  | .lock => if s.main = .idle then some { s with main := .locked } else none
  | .unlock => if s.main = .locked then some { s with main := .idle } else none
  | .call t => if s.main = .locked then some (nextEventTime up down s t) else none
  | .wake =>
    match s.main with
    | .waiting t => some { s with main := .woken t }
    | _ => none
  | .reacquire =>
    match s.main with
    | .woken t => some (nextEventTimeResume s t)
    | _ => none
  | .advance =>
    match s.main with
    | .returned t r => if r = t then some { s with main := .locked, currentTime := t } else none
    | _ => none
  | .replan =>
    match s.main with
    | .returned _ _ => some { s with main := .locked }
    | _ => none
  | .pop e =>
    if s.main = .locked ∧ e ∈ s.eventQ ∧ e ≤ s.currentTime then
      some { s with eventQ := s.eventQ.erase e }
    else none
  | .logicalTimeComplete t => if s.main = .locked then some (logicalTimeComplete down s t) else none
  | .broadcastStop => if s.main = .locked then some (broadcastStop s) else none
  | .timeAdvanceGrant g => if s.main.holdsMutex then none else some (handleTimeAdvanceGrant s g)
  | .stopMessage _ => if s.main.holdsMutex then none else some (handleIncomingStopMessage s)
  | .schedule e src => if s.main.holdsMutex then none else some (scheduleValueAlreadyLocked s e src)

/-! ### What one step does -/

variable {up down}

lemma broadcast_main_of_free {s : St} (h : s.main.holdsMutex = false) :
    (broadcast s).main = .idle ∨ ∃ t, (broadcast s).main = .woken t := by
  unfold broadcast
  cases hm : s.main <;> simp_all [Main.holdsMutex]

@[simp] lemma logicalTimeComplete_main (s : St) (t : ℤ) :
    (logicalTimeComplete down s t).main = s.main := by
  unfold logicalTimeComplete; split <;> rfl

@[simp] lemma broadcastStop_main (s : St) : (broadcastStop s).main = s.main := rfl
@[simp] lemma handleTimeAdvanceGrant_main (s : St) (g : ℤ) :
    (handleTimeAdvanceGrant s g).main = (broadcast s).main := rfl
@[simp] lemma handleIncomingStopMessage_main (s : St) :
    (handleIncomingStopMessage s).main = (broadcast s).main := rfl
@[simp] lemma scheduleValueAlreadyLocked_main (s : St) (e : ℤ) (src : Source) :
    (scheduleValueAlreadyLocked s e src).main = (broadcast s).main := rfl

@[simp] lemma nextEventTime_tag (s : St) (t : ℤ) : (nextEventTime up down s t).tag = s.tag := by
  unfold nextEventTime; split_ifs <;> rfl

@[simp] lemma nextEventTime_eventQ (s : St) (t : ℤ) :
    (nextEventTime up down s t).eventQ = s.eventQ := by
  unfold nextEventTime; split_ifs <;> rfl

lemma nextEventTime_cases (s : St) (t : ℤ) :
    ((nextEventTime up down s t).main = .returned t t ∧ (up = false ∨ t ≤ s.tag)) ∨
    ((nextEventTime up down s t).main = .waiting t ∧ (nextEventTime up down s t).tagPending ∧
      ((nextEventTime up down s t).clearAtCall ↔ ∀ e ∈ s.eventQ, t ≤ e)) := by
  unfold nextEventTime
  split_ifs with h1 h2 h3
  · exact .inl ⟨rfl, by cases up <;> simp_all⟩
  · exact .inl ⟨rfl, .inr h2⟩
  · exact .inl ⟨rfl, .inl (by simpa using h3)⟩
  · exact .inr ⟨rfl, rfl, by simp⟩

lemma nextEventTimeResume_cases (s : St) (t : ℤ) :
    ((nextEventTimeResume s t).main = .waiting t ∧ s.tagPending ∧ ∀ e ∈ s.eventQ, t ≤ e) ∨
    (∃ h, (nextEventTimeResume s t).main = .returned t h ∧ s.tagPending ∧ h < t ∧
      h ∈ s.eventQ ∧ ∀ e ∈ s.eventQ, h ≤ e) ∨
    ((nextEventTimeResume s t).main = .returned t s.tag ∧ s.tagPending = false) := by
  simp only [nextEventTimeResume]
  cases hp : s.tagPending
  · exact .inr (.inr ⟨rfl, rfl⟩)
  · cases hq : pqueuePeek s.eventQ with
    | none => exact .inl ⟨rfl, rfl, by simp [pqueuePeek_none hq]⟩
    | some h =>
      obtain ⟨hmem, hmin⟩ := pqueuePeek_some hq
      by_cases ht : h < t
      · exact .inr (.inl ⟨h, by simp [ht], rfl, ht, hmem, hmin⟩)
      · exact .inl ⟨by simp [ht], rfl, fun e he => le_trans (not_lt.mp ht) (hmin e he)⟩

lemma main_settled_of_next {s s' : St} {a : Act} (h : next up down s a = some s')
    (hcall : ∀ t, a ≠ .call t) (hre : a ≠ .reacquire) :
    s'.main = .idle ∨ s'.main = .locked ∨ ∃ t, s'.main = .woken t := by
  cases a with
  | call t => exact absurd rfl (hcall t)
  | reacquire => exact absurd rfl hre
  | timeAdvanceGrant | stopMessage | schedule =>
    simp only [next] at h
    split_ifs at h with hm
    cases h
    rcases broadcast_main_of_free (Bool.not_eq_true _ ▸ hm) with h | h <;> simp [h]
  | _ =>
    simp only [next] at h
    split at h <;> (try split_ifs at h) <;> cases h
    all_goals simp_all

lemma nextEventTime_log (s : St) (t : ℤ) :
    (nextEventTime up down s t).log = s.log ∨
      (nextEventTime up down s t).log = s.log ++ [.sent (.nextEventTime t)] := by
  unfold nextEventTime; split_ifs <;> simp

lemma log_of_next {s s' : St} {a : Act} (h : next up down s a = some s') :
    (s'.log = s.log ∧ ∀ e ∈ s'.eventQ, e ∈ s.eventQ) ∨
    (∃ o, s'.log = s.log ++ [o] ∧ s'.eventQ = s.eventQ ∧
      (∀ t, o ≠ .sent (.nextEventTime t)) ∧ ∀ e src, o ≠ .scheduled e src) ∨
    (∃ e src, a = .schedule e src ∧ s'.log = s.log ++ [.scheduled e src] ∧
      s'.eventQ = e :: s.eventQ) ∨
    (∃ t, a = .call t ∧ s'.log = s.log ++ [.sent (.nextEventTime t)] ∧ s'.eventQ = s.eventQ) := by
  cases a with
  | call t =>
    simp only [next] at h
    split_ifs at h
    cases h
    rcases @nextEventTime_log up down s t with hl | hl
    · exact .inl ⟨hl, by simp⟩
    · exact .inr (.inr (.inr ⟨t, rfl, hl, by simp⟩))
  | pop e =>
    simp only [next] at h
    split_ifs at h
    cases h
    exact .inl ⟨rfl, fun _ he => List.mem_of_mem_erase he⟩
  | logicalTimeComplete t =>
    simp only [next] at h
    split_ifs at h
    cases h
    unfold logicalTimeComplete
    split
    · exact .inr (.inl ⟨_, rfl, rfl, by simp, by simp⟩)
    · exact .inl ⟨rfl, fun _ he => he⟩
  | broadcastStop | timeAdvanceGrant _ =>
    simp only [next] at h
    split_ifs at h
    cases h
    exact .inr (.inl ⟨_, rfl, rfl, by simp, by simp⟩)
  | schedule e src =>
    simp only [next] at h
    split_ifs at h
    cases h
    exact .inr (.inr (.inl ⟨e, src, rfl, rfl, rfl⟩))
  | lock | unlock | stopMessage _ | wake | reacquire | advance | replan =>
    simp only [next] at h
    split at h <;> (try split_ifs at h) <;> cases h
    all_goals exact .inl ⟨rfl, fun _ he => he⟩

variable (up down) (allowed : St → Act → Bool)

/-- A state some run from the start reaches, each of its steps allowed by `allowed` (what the
caller of `__next_event_time` and the RTI are assumed to do). -/
def Reachable (s : St) : Prop :=
  ∃ startTime as, runSteps (next up down) allowed (init startTime) as = some s

lemma Reachable.invariant {P : St → Prop} (h₀ : ∀ t, P (init t))
    (hstep : ∀ s a s', P s → allowed s a = true → next up down s a = some s' → P s') {s : St}
    (h : Reachable up down allowed s) : P s := by
  obtain ⟨t, as, h⟩ := h
  exact runSteps_invariant _ allowed hstep (h₀ t) h

def anyStep : St → Act → Bool := fun _ _ => true

/-! ### The caller contract and a conforming RTI -/

def nextTime (stopTime : ℤ) (s : St) : ℤ := min ((pqueuePeek s.eventQ).getD stopTime) stopTime

/-- The caller contract: the main loop calls `__next_event_time` only with the time of the
earliest event, or `stopTime` if that is earlier. -/
def planner (stopTime : ℤ) (s : St) : Act → Bool
  | .call t => t = nextTime stopTime s
  | _ => true

def nets (l : List Obs) : List ℤ := l.filterMap fun | .sent (.nextEventTime t) => some t | _ => none
def grants (l : List Obs) : List ℤ := l.filterMap fun | .granted g => some g | _ => none

/-- A conforming RTI: its TAGs never decrease and each is at most some NET sent before. -/
def conforming (s : St) : Act → Bool
  | .timeAdvanceGrant g => (grants s.log).all (· ≤ g) && (nets s.log).any (g ≤ ·)
  | _ => true

end LfFederate.Coordinator
