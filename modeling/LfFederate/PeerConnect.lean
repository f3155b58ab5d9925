import LfFederate.Run
import LfFederate.Wire

/-!
`connect_to_federate(id)`, the outbound connection to a peer for physical connections.

The function asks the RTI for the peer's port (`ADDRESS_QUERY`) until the RTI knows it, and exits
the process after the `CONNECT_NUM_RETRIES + 1`-th answer of `-1`. It then connects to the peer
and sends the `P2P_SENDING_FED_ID` handshake until the peer answers `ACK`. A failed `connect` is
counted, and after `CONNECT_NUM_RETRIES + 1` of them the function gives up and returns; a
handshake the peer rejects is not counted, and the loop goes on as long as the peer rejects.
Each pass stores its new socket in `_lf_federate_sockets_for_outbound_physical_connections[id]`
before it connects, and nothing puts `-1` back: the return that gives up leaves there the socket
whose `connect` failed.

An interrupted sleep (`nanosleep` returning nonzero) and a completed one both go back to the head
of the loop, so the model does not tell them apart. The outcome of each query, `socket`,
`connect` and handshake is a step of the environment; the state counts the queries sent, the
connections attempted and the handshakes rejected.
-/

namespace LfFederate.PeerConnect

open Wire

/-- Where `connect_to_federate` is: at the head of the address loop (`port == -1`), at the head
of the connection loop (`result < 0`) with the port the RTI gave, returned, or exited with the
process. -/
inductive Pc
  | querying
  | connecting (port : ℤ)
  | returned
  | exited
  deriving DecidableEq, Repr

def Pc.running : Pc → Bool
  | .querying | .connecting _ => true
  | .returned | .exited => false

/-- `count_tries`, `count_retries` and `_lf_federate_sockets_for_outbound_physical_connections[id]`,
and, written by the model, the address queries sent, the calls of `connect`, the handshakes the
peer answered with something other than `ACK`, and the sockets whose `connect` failed or whose
handshake the peer rejected. -/
structure St where
  pc : Pc
  countTries : ℕ
  countRetries : ℕ
  slot : ℤ
  queries : ℕ
  attempts : ℕ
  rejections : ℕ
  failed : List ℕ
  deriving DecidableEq, Repr

def init : St := ⟨.querying, 0, 0, -1, 0, 0, 0, []⟩

/-- What the environment does in one pass: the RTI answers the query with `port` (and an
address); `socket` gives `fd` and `connect` on it fails; `socket` gives `fd`, `connect` succeeds
and the peer answers the handshake with `answer`, `none` where a write of the handshake or the
read of the answer or of the cause fails; or the write or a read of the query, or `socket`,
fails. -/
inductive Act
  | reply (port : ℤ)
  | connectFails (fd : ℕ)
  | connected (fd : ℕ) (answer : Option UInt8)
  | failure
  deriving DecidableEq, Repr

variable (c : Codes) (CONNECT_NUM_RETRIES : ℕ)

/-- One pass of either loop of `connect_to_federate`, as the environment answers it. -/
def next (s : St) : Act → Option St
  | .reply port =>
    if s.pc = .querying then
      some <| if port = -1 then
        if s.countTries ≥ CONNECT_NUM_RETRIES then
          { s with pc := .exited, queries := s.queries + 1 }
        else { s with countTries := s.countTries + 1, queries := s.queries + 1 }
      else if port < 65536 then { s with pc := .connecting port, queries := s.queries + 1 }
      else { s with pc := .exited, queries := s.queries + 1 }
    else none
  | .connectFails fd =>
    match s.pc with
    | .connecting _ =>
      some <| if s.countRetries + 1 > CONNECT_NUM_RETRIES then
        { s with
          pc := .returned, countRetries := s.countRetries + 1, slot := fd,
          attempts := s.attempts + 1, failed := s.failed ++ [fd] }
      else
        { s with
          countRetries := s.countRetries + 1, slot := fd, attempts := s.attempts + 1,
          failed := s.failed ++ [fd] }
    | _ => none
  | .connected fd answer =>
    match s.pc with
    | .connecting _ =>
      some <| match answer with
      | none => { s with pc := .exited, slot := fd, attempts := s.attempts + 1 }
      | some b =>
        if b = c.ACK then { s with pc := .returned, slot := fd, attempts := s.attempts + 1 }
        else
          { s with
            slot := fd, attempts := s.attempts + 1, rejections := s.rejections + 1,
            failed := s.failed ++ [fd] }
    | _ => none
  | .failure => if s.pc.running then some { s with pc := .exited } else none

def Reachable (s : St) : Prop :=
  ∃ as, runSteps (next c CONNECT_NUM_RETRIES) (fun _ _ => true) init as = some s

/-! ### Bounds -/

/-- What every state of `connect_to_federate` satisfies, phase by phase. -/
def Bounded (s : St) : Prop :=
  match s.pc with
  | .querying => s.queries = s.countTries ∧ s.countTries ≤ CONNECT_NUM_RETRIES ∧
      s.attempts = 0 ∧ s.countRetries = 0 ∧ s.rejections = 0
  | .connecting _ => s.queries ≤ CONNECT_NUM_RETRIES + 1 ∧
      s.attempts = s.countRetries + s.rejections ∧ s.countRetries ≤ CONNECT_NUM_RETRIES
  | .returned | .exited => s.queries ≤ CONNECT_NUM_RETRIES + 1 ∧
      s.attempts ≤ CONNECT_NUM_RETRIES + 1 + s.rejections

lemma Bounded.counts {s : St} (h : Bounded CONNECT_NUM_RETRIES s) :
    s.queries ≤ CONNECT_NUM_RETRIES + 1 ∧
      s.attempts ≤ CONNECT_NUM_RETRIES + 1 + s.rejections := by
  unfold Bounded at h
  split at h <;> omega

def progress (s : St) : ℕ :=
  s.queries + s.attempts + match s.pc with
  | .querying | .connecting _ => 0
  | .returned | .exited => 1

lemma Bounded.step {s s' : St} {a : Act} (hs : Bounded CONNECT_NUM_RETRIES s)
    (h : next c CONNECT_NUM_RETRIES s a = some s') :
    Bounded CONNECT_NUM_RETRIES s' ∧ progress s + 1 ≤ progress s' := by
  cases a with
  | reply port =>
    simp only [next, Option.ite_none_right_eq_some, Option.some.injEq] at h
    obtain ⟨hpc, rfl⟩ := h
    simp only [Bounded, hpc] at hs
    split_ifs <;> simp only [Bounded, progress, hpc] <;> omega
  | connectFails fd =>
    simp only [next] at h
    split at h
    · rename_i port hpc
      cases h
      simp only [Bounded, hpc] at hs
      split_ifs <;> simp only [Bounded, progress, hpc] <;> omega
    · cases h
  | connected fd answer =>
    simp only [next] at h
    split at h
    · rename_i port hpc
      cases h
      simp only [Bounded, hpc] at hs
      rcases answer with _ | b
      · simp only [Bounded, progress, hpc]; omega
      · dsimp only
        split_ifs <;> simp only [Bounded, progress, hpc] <;> omega
    · cases h
  | failure =>
    simp only [next, Option.ite_none_right_eq_some, Option.some.injEq] at h
    obtain ⟨hr, rfl⟩ := h
    refine ⟨hs.counts, ?_⟩
    simp only [progress]
    revert hr
    cases s.pc <;> simp [Pc.running]

/-- **`connect_to_federate` is bounded by its retry budget and the rejections.** Every run sends
at most `CONNECT_NUM_RETRIES + 1` address queries and makes at most `CONNECT_NUM_RETRIES + 1`
connection attempts besides one for each handshake the peer rejects, and it is at most
`2 * CONNECT_NUM_RETRIES + 3` steps long besides one for each rejection: the function returns or
exits unless the peer keeps rejecting. -/
theorem connect_to_federate_bounded {as : List Act} {s : St}
    (h : runSteps (next c CONNECT_NUM_RETRIES) (fun _ _ => true) init as = some s) :
    s.queries ≤ CONNECT_NUM_RETRIES + 1 ∧
      s.attempts ≤ CONNECT_NUM_RETRIES + 1 + s.rejections ∧
      as.length ≤ 2 * CONNECT_NUM_RETRIES + 3 + s.rejections := by
  obtain ⟨hb, hp⟩ := runSteps_measure _ _ (fun _ _ _ hs _ => hs.step c)
    (show Bounded CONNECT_NUM_RETRIES init from ⟨rfl, Nat.zero_le _, rfl, rfl, rfl⟩) h
  obtain ⟨hq, ha⟩ := hb.counts
  have hdone : progress s ≤ s.queries + s.attempts + 1 := by
    unfold progress
    split <;> omega
  have h0 : progress init = 0 := rfl
  rw [h0, Nat.zero_add] at hp
  exact ⟨hq, ha, by omega⟩

theorem connect_to_federate_bounded_first_try :
    runSteps (next someCodes 2) (fun _ _ => true) init
        [.reply 5000, .connected 7 (some someCodes.ACK)] =
      some ⟨.returned, 0, 0, 7, 1, 1, 0, []⟩ ∧
    (1 ≤ 2 + 1 ∧ 1 ≤ 2 + 1 + 0 ∧
      [Act.reply 5000, .connected 7 (some someCodes.ACK)].length ≤ 2 * 2 + 3 + 0) :=
  have h : runSteps (next someCodes 2) (fun _ _ => true) init
      [.reply 5000, .connected 7 (some someCodes.ACK)] =
        some ⟨.returned, 0, 0, 7, 1, 1, 0, []⟩ :=
    by decide
  ⟨h, connect_to_federate_bounded someCodes 2 h⟩

/-! ### Runs past the retry budget -/

lemma run_rejected {s : St} {port : ℤ} (hpc : s.pc = .connecting port) (fds : List ℕ) :
    ∃ s', runSteps (next c CONNECT_NUM_RETRIES) (fun _ _ => true) s
        (fds.map fun fd => .connected fd (some c.REJECT)) = some s' ∧
      s'.pc = .connecting port ∧ s'.attempts = s.attempts + fds.length := by
  induction fds generalizing s with
  | nil => exact ⟨s, rfl, hpc, rfl⟩
  | cons fd fds ih =>
    obtain ⟨s', h, hpc', hat⟩ := ih (s := { s with
      slot := fd, attempts := s.attempts + 1,
      rejections := s.rejections + 1, failed := s.failed ++ [fd] }) hpc
    refine ⟨s', ?_, hpc', by dsimp only at hat; rw [hat, List.length_cons]; omega⟩
    simpa [runSteps, next, hpc, c.ack_ne_reject.symm] using h

lemma run_connect_fails {s : St} {port : ℤ} (hpc : s.pc = .connecting port) (fds : List ℕ)
    (hk : s.countRetries + fds.length ≤ CONNECT_NUM_RETRIES) :
    ∃ s', runSteps (next c CONNECT_NUM_RETRIES) (fun _ _ => true) s (fds.map .connectFails) =
        some s' ∧ s'.pc = .connecting port ∧ s'.countRetries = s.countRetries + fds.length := by
  induction fds generalizing s with
  | nil => exact ⟨s, rfl, hpc, rfl⟩
  | cons fd fds ih =>
    obtain ⟨s', h, hpc', hcr⟩ := ih (s := { s with
      countRetries := s.countRetries + 1, slot := fd,
      attempts := s.attempts + 1, failed := s.failed ++ [fd] }) hpc
      (by simp only [List.length_cons] at hk ⊢; omega)
    refine ⟨s', ?_, hpc', by dsimp only at hcr; rw [hcr, List.length_cons]; omega⟩
    have hle : ¬ s.countRetries + 1 > CONNECT_NUM_RETRIES := by
      simp only [List.length_cons] at hk; omega
    simpa [runSteps, next, hpc, hle] using h

lemma reply_port :
    runSteps (next c CONNECT_NUM_RETRIES) (fun _ _ => true) init [.reply 5000] =
      some { init with pc := .connecting 5000, queries := 1 } := by
  simp [runSteps, next, init]

lemma rejected_runs_exceed_budget :
    ∃ s, Reachable c CONNECT_NUM_RETRIES s ∧ s.pc.running ∧
      CONNECT_NUM_RETRIES + 1 < s.attempts := by
  obtain ⟨s, h, hpc, hat⟩ := run_rejected c CONNECT_NUM_RETRIES
    (s := { init with pc := .connecting 5000, queries := 1 }) rfl
    (List.range' 7 (CONNECT_NUM_RETRIES + 2))
  refine ⟨s, ⟨_, by rw [runSteps_append, reply_port, Option.some_bind]; exact h⟩, ?_, ?_⟩
  · simp [hpc, Pc.running]
  · simp [hat, init]

/-- **Rejections are not counted.** With a budget of three retries, a peer that rejects every
handshake keeps `connect_to_federate` running past four connection attempts. -/
theorem rejections_exceed_budget :
    ∃ s, Reachable someCodes 3 s ∧ s.pc.running ∧ 3 + 1 < s.attempts :=
  rejected_runs_exceed_budget someCodes 3

/-- **Giving up leaves the failed socket in the table.** Whatever the budget, when every
`connect` fails `connect_to_federate` returns with the slot of `id` holding the socket of its
last failed `connect`, not `-1`. -/
theorem give_up_leaves_failed_socket :
    ∃ s, ∃ fd : ℕ, Reachable c CONNECT_NUM_RETRIES s ∧ s.pc = .returned ∧ s.slot = fd ∧
      fd ∈ s.failed := by
  obtain ⟨s, h, hpc, hcr⟩ := run_connect_fails c CONNECT_NUM_RETRIES
    (s := { init with pc := .connecting 5000, queries := 1 }) rfl
    (List.range' 7 CONNECT_NUM_RETRIES)
    (by simp [init])
  simp only [init, List.length_range', Nat.zero_add] at hcr
  refine ⟨{ s with
      pc := .returned, countRetries := s.countRetries + 1,
      slot := ↑(7 + CONNECT_NUM_RETRIES), attempts := s.attempts + 1,
      failed := s.failed ++ [7 + CONNECT_NUM_RETRIES] }, 7 + CONNECT_NUM_RETRIES,
    ⟨[.reply 5000] ++ (List.range' 7 CONNECT_NUM_RETRIES).map .connectFails ++
      [.connectFails (7 + CONNECT_NUM_RETRIES)], ?_⟩, rfl, rfl, by simp⟩
  rw [runSteps_append, runSteps_append, reply_port, Option.some_bind, h, Option.some_bind]
  simp [runSteps, next, hpc, hcr]

end LfFederate.PeerConnect
