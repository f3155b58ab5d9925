import LfFederate.Wire

/-!
The loop of one `listen_to_federates` thread over the bytes of its socket.

Each pass reads a type byte with `read_from_socket2`. At EOF or on an error (the two take the
same branch) the thread closes the socket, clears its slot and leaves the loop. A
`P2P_TIMED_MESSAGE` goes to `handle_timed_message`, which reads the rest of the frame with
`read_from_socket`: where the stream ends inside the frame, or the header names another federate,
the process exits. On any other type byte the thread closes the socket and clears the slot too,
but its `break` leaves only the `switch`, and the next pass reads `socket_id` again. What that
read finds is up to the environment: where nothing has reused the descriptor the read fails and
the thread closes and clears a second time before it leaves; where `accept` has meanwhile given
the descriptor to another connection, the thread reads that connection's bytes as its peer's.
-/

namespace LfFederate.PeerReader

open Wire

/-- What `listen_to_federates` does, in order: a `read_from_socket2` of a type byte, a message
`handle_timed_message` read and scheduled, `close(socket_id)` with the slot set to `-1`, and the
end of the process by a read or the assertion of `handle_timed_message`. -/
inductive Effect
  | readType
  | handled (m : TimedMessage)
  | closeAndClear
  | processExit
  deriving DecidableEq, Repr

variable (c : Codes) (myFedId : ℕ)

/-- `fuel` passes of the loop of `listen_to_federates` on a socket whose remaining bytes are
`bytes`. `later` holds, for each close on an unknown type byte, what the descriptor yields after
it: the bytes of the connection `accept` has since given the descriptor, or none, where the read
fails, as it does once `later` has run out. -/
def listenToFederates : ℕ → Bytes → List Bytes → List Effect
  | 0, _, _ => []
  | fuel + 1, bytes, later =>
    .readType :: match listenToFederatesTurn c myFedId bytes with
    | .message m rest => .handled m :: listenToFederates fuel rest later
    | .closed => [.closeAndClear]
    | .unknownType => .closeAndClear :: listenToFederates fuel (later.headD []) later.tail
    | .exit => [.processExit]

/-- The thread on a socket whose bytes are `bytes` and whose descriptor nothing reuses, given
enough passes to meet their end. -/
def run (bytes : Bytes) : List Effect := listenToFederates c myFedId (bytes.length + 1) bytes []

/-! ### Every stream ends the loop -/

lemma readFromSocket_rest {n : ℕ} {s a b : Bytes} (h : readFromSocket n s = some (a, b)) :
    b.length ≤ s.length := by
  obtain ⟨rfl, -⟩ := readFromSocket_eq_some h
  simp

lemma handleTimedMessage_shorter {s rest : Bytes} {m : TimedMessage}
    (h : handleTimedMessage myFedId s = some (m, rest)) : rest.length ≤ s.length := by
  rw [(handleTimedMessage_sound h).2]
  simp only [List.length_append]
  omega

lemma listenToFederatesTurn_shorter {bytes rest : Bytes} {m : TimedMessage}
    (h : listenToFederatesTurn c myFedId bytes = .message m rest) :
    rest.length < bytes.length := by
  match bytes, h with
  | b :: s, h =>
    simp only [listenToFederatesTurn] at h
    split_ifs at h
    split at h
    · cases h
    · cases h
      exact Nat.lt_succ_of_le (handleTimedMessage_shorter myFedId ‹_›)

lemma listenToFederatesTurn_unknownType {bytes : Bytes}
    (h : listenToFederatesTurn c myFedId bytes = .unknownType) : 0 < bytes.length := by
  cases bytes with
  | nil => cases h
  | cons b s => exact Nat.succ_pos _

/-- The bytes of the streams the descriptor yields after closes, and one more for each close. -/
def backlog : List Bytes → ℕ
  | [] => 0
  | s :: later => s.length + 1 + backlog later

lemma length_headD_add_backlog_le (later : List Bytes) :
    (later.headD []).length + backlog later.tail ≤ backlog later := by
  cases later with
  | nil => exact le_rfl
  | cons x xs => simp only [List.headD_cons, List.tail_cons, backlog]; omega

/-- How the loop ends: closing the socket and clearing the slot, or ending the process. -/
def Stopped (effects : List Effect) : Prop :=
  effects.getLast? = some .closeAndClear ∨ effects.getLast? = some .processExit

lemma Stopped.cons {effects : List Effect} (e : Effect) (h : Stopped effects) :
    Stopped (e :: effects) := by
  unfold Stopped at *
  rw [List.getLast?_cons]
  rcases h with h | h <;> simp [h]

/-- **The loop always stops.** Given more passes than the streams the thread reads have bytes,
with one more for each close on an unknown type byte, the thread has left its loop: any more
passes give the same trace, which ends by closing the socket or by ending the process, whatever
the bytes and whatever reuses the descriptor. -/
theorem listenToFederates_terminates {fuel : ℕ} {bytes : Bytes} {later : List Bytes}
    (h : bytes.length + backlog later < fuel) {fuel' : ℕ}
    (hf : fuel ≤ fuel') :
    listenToFederates c myFedId fuel' bytes later = listenToFederates c myFedId fuel bytes later ∧
      Stopped (listenToFederates c myFedId fuel bytes later) := by
  induction fuel generalizing fuel' bytes later with
  | zero => omega
  | succ fuel ih =>
    obtain ⟨f, rfl⟩ : ∃ f, fuel' = f + 1 := ⟨fuel' - 1, by omega⟩
    simp only [listenToFederates]
    split
    · rename_i m rest hturn
      have := listenToFederatesTurn_shorter c myFedId hturn
      obtain ⟨he, hs⟩ := ih
        (show rest.length + backlog later < fuel by omega)
        (show fuel ≤ f by omega)
      exact ⟨by rw [he], (hs.cons _).cons _⟩
    · exact ⟨rfl, Stopped.cons _ (.inl rfl)⟩
    · rename_i hturn
      have := listenToFederatesTurn_unknownType c myFedId hturn
      have := length_headD_add_backlog_le later
      obtain ⟨he, hs⟩ := ih
        (show (later.headD []).length + backlog later.tail < fuel by omega)
        (show fuel ≤ f by omega)
      exact ⟨by rw [he], (hs.cons _).cons _⟩
    · exact ⟨rfl, Stopped.cons _ (.inr rfl)⟩

theorem listenToFederates_terminates_unknown :
    [someCodes.TIMED_MESSAGE].length + backlog [] < 2 ∧ 2 ≤ 5 ∧
      listenToFederates someCodes 2 5 [someCodes.TIMED_MESSAGE] [] =
        listenToFederates someCodes 2 2 [someCodes.TIMED_MESSAGE] [] ∧
      Stopped (listenToFederates someCodes 2 2 [someCodes.TIMED_MESSAGE] []) :=
  have h : [someCodes.TIMED_MESSAGE].length + backlog [] < 2 := by decide
  ⟨h, by decide, listenToFederates_terminates someCodes 2 h (by decide : 2 ≤ 5)⟩

/-! ### Complete frames -/

/-- The bytes `send_message_timed` writes for the `P2P_TIMED_MESSAGE` `m`. -/
def frame (m : TimedMessage) : Bytes :=
  (c.P2P_TIMED_MESSAGE :: timedHeader m.port m.federate m.payload.length m.timestamp) ++ m.payload

lemma sendMessageTimed_frame {m : TimedMessage} (h : Sendable myFedId m) :
    sendMessageTimed c.P2P_TIMED_MESSAGE m.port m.federate m.payload m.timestamp =
      some (frame c m) :=
  if_pos ⟨h.port, h.federate ▸ h.fedId⟩

lemma listenToFederatesTurn_frame_append {m : TimedMessage} (h : Sendable myFedId m)
    (rest : Bytes) : listenToFederatesTurn c myFedId (frame c m ++ rest) = .message m rest := by
  obtain ⟨port, federate, length, timestamp, payload⟩ := m
  obtain ⟨hp, hfed, hf, hlen, hl, ht⟩ := h
  dsimp only at hp hfed hf hlen hl ht
  subst hfed hlen
  obtain ⟨bytes, hb, -, hturn⟩ :=
    listenToFederatesTurn_frame port federate payload rest timestamp hp hf ht c
  rw [sendMessageTimed_frame c federate
    (m := ⟨port, federate, payload.length, timestamp, payload⟩)
    ⟨hp, rfl, hf, rfl, hl, ht⟩] at hb
  cases hb
  rwa [Nat.mod_eq_of_lt hl, List.take_left, List.drop_left] at hturn

/-- **Complete frames are handled in order.** On a stream of whole `P2P_TIMED_MESSAGE` frames
for this federate, then EOF or an error, the thread handles every message in turn, then closes
the socket and clears the slot once, and stops. -/
theorem listenToFederates_frames {ms : List TimedMessage} (hms : ∀ m ∈ ms, Sendable myFedId m)
    {fuel : ℕ} (hf : ms.length < fuel) (later : List Bytes) :
    listenToFederates c myFedId fuel (ms.flatMap (frame c)) later =
      ms.flatMap (fun m => [.readType, .handled m]) ++ [.readType, .closeAndClear] := by
  induction ms generalizing fuel with
  | nil =>
    obtain ⟨f, rfl⟩ : ∃ f, fuel = f + 1 := ⟨fuel - 1, by simp only [List.length_nil] at hf; omega⟩
    rfl
  | cons m ms ih =>
    obtain ⟨f, rfl⟩ : ∃ f, fuel = f + 1 := ⟨fuel - 1, by omega⟩
    simp only [List.flatMap_cons, listenToFederates, List.append_assoc,
      listenToFederatesTurn_frame_append c myFedId (hms m (.head _)),
      ih (fun m hm => hms m (.tail _ hm)) (by simpa using hf)]
    rfl

/-! ### What the reader schedules was sent whole -/

lemma listenToFederatesTurn_sound {bytes rest : Bytes} {m : TimedMessage}
    (h : listenToFederatesTurn c myFedId bytes = .message m rest) :
    Sendable myFedId m ∧ bytes = frame c m ++ rest := by
  match bytes, h with
  | b :: s, h =>
    simp only [listenToFederatesTurn] at h
    split_ifs at h with hb
    split at h
    · cases h
    · rename_i hm
      cases h
      obtain ⟨hsend, rfl⟩ := handleTimedMessage_sound hm
      exact ⟨hsend, by rw [hb]; simp [frame]⟩

/-- The messages the thread scheduled, in order. -/
def handled (effects : List Effect) : List TimedMessage :=
  effects.filterMap fun
    | .handled m => some m
    | _ => none

@[simp] lemma handled_cons_handled (m : TimedMessage) (effects : List Effect) :
    handled (.handled m :: effects) = m :: handled effects := rfl

@[simp] lemma handled_cons_readType (effects : List Effect) :
    handled (.readType :: effects) = handled effects := rfl

@[simp] lemma handled_cons_closeAndClear (effects : List Effect) :
    handled (.closeAndClear :: effects) = handled effects := rfl

lemma handled_closed (fuel : ℕ) :
    handled (listenToFederates c myFedId fuel [] []) = [] := by
  cases fuel <;> rfl

/-- `bytes` begins with the frames of `ms`, in order. -/
def Leads (ms : List TimedMessage) (bytes : Bytes) : Prop :=
  ∃ tail, bytes = ms.flatMap (frame c) ++ tail

/-- **Soundness: every message scheduled was sent whole.** Whatever bytes reach the thread, its
own connection's and, after each close on an unknown type byte, those of a connection that
reused the descriptor: every message `listen_to_federates` hands to `schedule` is for this
federate and has fields that fit their places, and the messages it schedules from each stream
are the `P2P_TIMED_MESSAGE` frames that stream begins with, in the order they were scheduled. -/
theorem listen_to_federates_reads_whole_frames (fuel : ℕ) (bytes : Bytes) (later : List Bytes) :
    (∀ m ∈ handled (listenToFederates c myFedId fuel bytes later), Sendable myFedId m) ∧
      ∃ ms mss, handled (listenToFederates c myFedId fuel bytes later) = ms ++ mss.flatten ∧
        Leads c ms bytes ∧ List.Forall₂ (Leads c) mss (later.take mss.length) := by
  induction fuel generalizing bytes later with
  | zero => exact ⟨nofun, [], [], rfl, ⟨bytes, rfl⟩, .nil⟩
  | succ fuel ih =>
    simp only [listenToFederates]
    split
    · rename_i m rest hturn
      obtain ⟨hm, rfl⟩ := listenToFederatesTurn_sound c myFedId hturn
      obtain ⟨hw, ms, mss, he, ⟨tail, rfl⟩, hf⟩ := ih rest later
      refine ⟨by simpa [hm] using hw, m :: ms, mss, by simp [he], ⟨tail, ?_⟩, hf⟩
      simp [List.append_assoc]
    · exact ⟨nofun, [], [], rfl, ⟨bytes, rfl⟩, .nil⟩
    · cases later with
      | nil =>
        rw [handled_cons_readType, handled_cons_closeAndClear]
        exact ⟨by simp [handled_closed], [], [], by simp [handled_closed], ⟨bytes, rfl⟩, .nil⟩
      | cons x xs =>
        obtain ⟨hw, ms, mss, he, hl, hf⟩ := ih x xs
        exact ⟨by simpa using hw, [], ms :: mss, by simpa using he, ⟨bytes, rfl⟩, .cons hl hf⟩
    · exact ⟨nofun, [], [], rfl, ⟨bytes, rfl⟩, .nil⟩

/-! ### Where the loop does not stop cleanly -/

/-- **The reader closes twice, or ends the process.** On a type byte it does not handle, such as
the `TIMED_MESSAGE` of the RTI, `listen_to_federates` closes the socket and clears the slot, then
reads the closed socket and closes and clears a second time; on a stream that ends inside a
`P2P_TIMED_MESSAGE` frame it ends the whole process. -/
theorem reader_does_not_stop_cleanly (rest : Bytes) :
    run c myFedId (c.TIMED_MESSAGE :: rest) =
      [.readType, .closeAndClear, .readType, .closeAndClear] ∧
    run c myFedId [c.P2P_TIMED_MESSAGE, 0, 0] = [.readType, .processExit] := by
  have hne : c.TIMED_MESSAGE ≠ c.P2P_TIMED_MESSAGE := by
    intro h
    have := c.distinct
    simp [h, List.nodup_cons] at this
  constructor
  · simp [run, listenToFederates, listenToFederatesTurn, hne]
  · simp [run, listenToFederates, listenToFederatesTurn, handleTimedMessage, readFromSocket]

end LfFederate.PeerReader
