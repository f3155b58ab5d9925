import Mathlib.Data.List.Basic
import Mathlib.Data.UInt
import Mathlib.Tactic.NormNum.Basic

/-!
The bytes of a timed message on the wire.

`send_message_timed` writes a type byte, a 16-byte header (destination port, destination
federate, payload length, the sender's logical time) and the payload. The reader of the socket,
`listen_to_rti` or `listen_to_federates`, takes the type byte, and `handle_timed_message` reads
the header and then as many payload bytes as the header announces. All integers on the wire are
little-endian. The helpers that encode and decode them, and the message type bytes, live in
`util.c` and `rti.h`, which are not part of the source: the helpers are modelled from the spec
and the type bytes are a parameter.
-/

namespace LfFederate.Wire

abbrev Bytes := List UInt8

/-- Modelled from the spec: the message type bytes of `rti.h`. The spec fixes the set of types
and leaves their values to the implementation; distinct types have distinct bytes. -/
structure Codes where
  FED_ID : UInt8
  ACK : UInt8
  REJECT : UInt8
  ADDRESS_QUERY : UInt8
  ADDRESS_AD : UInt8
  TIMESTAMP : UInt8
  NEXT_EVENT_TIME : UInt8
  TIME_ADVANCE_GRANT : UInt8
  LOGICAL_TIME_COMPLETE : UInt8
  STOP : UInt8
  TIMED_MESSAGE : UInt8
  P2P_TIMED_MESSAGE : UInt8
  P2P_SENDING_FED_ID : UInt8
  distinct : [FED_ID, ACK, REJECT, ADDRESS_QUERY, ADDRESS_AD, TIMESTAMP, NEXT_EVENT_TIME,
    TIME_ADVANCE_GRANT, LOGICAL_TIME_COMPLETE, STOP, TIMED_MESSAGE, P2P_TIMED_MESSAGE,
    P2P_SENDING_FED_ID].Nodup

lemma Codes.ack_ne_reject (c : Codes) : c.ACK ≠ c.REJECT :=
  List.ne_of_not_mem_cons (List.nodup_cons.mp (List.nodup_cons.mp c.distinct).2).1

/-! ### Little-endian integers -/

def bytesLE : ℕ → ℕ → Bytes
  | 0, _ => []
  | w + 1, n => UInt8.ofNat n :: bytesLE w (n / 256)

def ofBytesLE : Bytes → ℕ
  | [] => 0
  | b :: bs => b.toNat + 256 * ofBytesLE bs

@[simp] lemma length_bytesLE (w n : ℕ) : (bytesLE w n).length = w := by
  induction w generalizing n <;> simp [bytesLE, *]

lemma toNat_ofNat8 (n : ℕ) : (UInt8.ofNat n).toNat = n % 256 := BitVec.toNat_ofNat n 8

lemma ofBytesLE_bytesLE (w n : ℕ) : ofBytesLE (bytesLE w n) = n % 256 ^ w := by
  induction w generalizing n with
  | zero => simp [bytesLE, ofBytesLE, Nat.mod_one]
  | succ w ih => rw [bytesLE, ofBytesLE, ih, toNat_ofNat8, Nat.pow_succ', Nat.mod_mul]

/-- Modelled from the spec: `encode_ushort` of `util.c`. -/
def encodeUshort (v : ℕ) : Bytes := bytesLE 2 v

/-- Modelled from the spec: `encode_int` of `util.c`, on a value converted to a 32-bit `int`. -/
def encodeInt (v : ℕ) : Bytes := bytesLE 4 v

/-- Modelled from the spec: `encode_ll` of `util.c`, two's complement on eight bytes. -/
def encodeLl (v : ℤ) : Bytes := bytesLE 8 (v % 2 ^ 64).toNat

@[simp] lemma length_encodeUshort (v : ℕ) : (encodeUshort v).length = 2 := length_bytesLE _ _
@[simp] lemma length_encodeInt (v : ℕ) : (encodeInt v).length = 4 := length_bytesLE _ _
@[simp] lemma length_encodeLl (v : ℤ) : (encodeLl v).length = 8 := length_bytesLE _ _

/-- Modelled from the spec: `extract_ushort` of `util.c`. -/
def extractUshort (bs : Bytes) : ℕ := ofBytesLE (bs.take 2)

/-- Modelled from the spec: `extract_int` of `util.c`, read into an `unsigned int`. -/
def extractInt (bs : Bytes) : ℕ := ofBytesLE (bs.take 4)

/-- Modelled from the spec: `extract_ll` of `util.c`. -/
def extractLl (bs : Bytes) : ℤ :=
  if ofBytesLE (bs.take 8) < 2 ^ 63 then ofBytesLE (bs.take 8) else ofBytesLE (bs.take 8) - 2 ^ 64

/-- Modelled from the spec: `extract_header` of `util.c`: destination port, destination federate
and payload length. -/
def extractHeader (buffer : Bytes) : ℕ × ℕ × ℕ :=
  (extractUshort buffer, extractUshort (buffer.drop 2), extractInt (buffer.drop 4))

lemma extractUshort_encode (v : ℕ) (rest : Bytes) (h : v < 2 ^ 16) :
    extractUshort (encodeUshort v ++ rest) = v := by
  rw [extractUshort, encodeUshort, List.take_left' (length_bytesLE 2 v), ofBytesLE_bytesLE,
    Nat.mod_eq_of_lt (by simpa using h)]

lemma extractInt_encode (v : ℕ) (rest : Bytes) : extractInt (encodeInt v ++ rest) = v % 2 ^ 32 := by
  rw [extractInt, encodeInt, List.take_left' (length_bytesLE 4 v), ofBytesLE_bytesLE]
  rfl

lemma extractLl_encode (v : ℤ) (rest : Bytes) (h : -2 ^ 63 ≤ v ∧ v < 2 ^ 63) :
    extractLl (encodeLl v ++ rest) = v := by
  have hm : ((v % 2 ^ 64).toNat : ℤ) = v % 2 ^ 64 :=
    Int.toNat_of_nonneg (Int.emod_nonneg _ (by norm_num))
  have hlt : (v % 2 ^ 64).toNat < 256 ^ 8 := by omega
  rw [extractLl, encodeLl, List.take_left' (length_bytesLE 8 _), ofBytesLE_bytesLE,
    Nat.mod_eq_of_lt hlt]
  split_ifs <;> omega

/-! ### Frames and their readers -/

def sendTime (type : UInt8) (time : ℤ) : Bytes := type :: encodeLl time

/-- The header `send_message_timed` fills after its type byte. -/
def timedHeader (port federate length : ℕ) (currentTime : ℤ) : Bytes :=
  encodeUshort port ++ encodeUshort federate ++ encodeInt length ++ encodeLl currentTime

@[simp] lemma length_timedHeader (port federate length : ℕ) (currentTime : ℤ) :
    (timedHeader port federate length currentTime).length = 16 := by
  simp [timedHeader]

/-- The bytes `send_message_timed` writes: the type byte and the header, then the payload
`message` (its `length` argument is the length of `message`), with `currentTime` the sender's
logical time; `none` where an assertion fails. -/
def sendMessageTimed (messageType : UInt8) (port federate : ℕ) (message : Bytes)
    (currentTime : ℤ) : Option Bytes :=
  if port < 65536 ∧ federate < 65536 then
    some ((messageType :: timedHeader port federate message.length currentTime) ++ message)
  else none

/-- Modelled from the spec: `read_from_socket` of `util.c`, exactly `n` bytes, or `none` where
the input has fewer: the process exits. -/
def readFromSocket (n : ℕ) (s : Bytes) : Option (Bytes × Bytes) :=
  if n ≤ s.length then some (s.take n, s.drop n) else none

lemma readFromSocket_append {n : ℕ} {a : Bytes} (b : Bytes) (h : a.length = n) :
    readFromSocket n (a ++ b) = some (a, b) := by
  subst h
  simp [readFromSocket]

structure TimedMessage where
  port : ℕ
  federate : ℕ
  length : ℕ
  timestamp : ℤ
  payload : Bytes
  deriving DecidableEq, Repr

/-- A message for federate `myFedId` that its frame carries whole: every field fits its place in
the header. -/
structure Sendable (myFedId : ℕ) (m : TimedMessage) : Prop where
  port : m.port < 2 ^ 16
  federate : m.federate = myFedId
  fedId : myFedId < 2 ^ 16
  length : m.length = m.payload.length
  fits : m.payload.length < 2 ^ 32
  timestamp : -2 ^ 63 ≤ m.timestamp ∧ m.timestamp < 2 ^ 63

/-- What `handle_timed_message` reads for the federate `myFedId`: the 16-byte header, then, past
the assertion that the message is for this federate, the payload; `none` where the process
exits. -/
def handleTimedMessage (myFedId : ℕ) (s : Bytes) : Option (TimedMessage × Bytes) :=
  match readFromSocket 16 s with
  | none => none
  | some (buffer, s) =>
    if myFedId = (extractHeader buffer).2.1 then
      match readFromSocket (extractHeader buffer).2.2 s with
      | none => none
      | some (message, s) =>
        some (⟨(extractHeader buffer).1, (extractHeader buffer).2.1, (extractHeader buffer).2.2,
          extractLl (buffer.drop 8), message⟩, s)
    else none

inductive FromRti
  | timedMessage (m : TimedMessage)
  | timeAdvanceGrant (tag : ℤ)
  | stop (stopTime : ℤ)
  deriving DecidableEq, Repr

/-- One turn of the loop of `listen_to_rti`: the message read and the bytes after it, or `none`
where the process exits (a failed read, an unrecognized type). The type byte is read with
`read_from_socket`, which fails only on an empty input. -/
def listenToRtiTurn (c : Codes) (myFedId : ℕ) : Bytes → Option (FromRti × Bytes)
  | [] => none
  | b :: s =>
    if b = c.TIMED_MESSAGE then (handleTimedMessage myFedId s).map fun r => (.timedMessage r.1, r.2)
    else if b = c.TIME_ADVANCE_GRANT then
      (readFromSocket 8 s).map fun r => (.timeAdvanceGrant (extractLl r.1), r.2)
    else if b = c.STOP then (readFromSocket 8 s).map fun r => (.stop (extractLl r.1), r.2)
    else none

/-- How one turn of the loop of `listen_to_federates` ends: a `P2P_TIMED_MESSAGE` handled, with
the bytes after it; EOF or a transport error on the type byte, where the socket is closed, the slot
cleared and the loop left; an unrecognized type byte, where the socket is closed and the slot
cleared but the `break` leaves only the `switch`; or the end of the process by a read or the
assertion inside `handle_timed_message`. -/
inductive PeerTurn
  | message (m : TimedMessage) (rest : Bytes)
  | closed
  | unknownType
  | exit
  deriving DecidableEq, Repr

/-- One turn of the loop of `listen_to_federates`. The type byte is read with
`read_from_socket2`, which reports EOF and transport errors instead of exiting. -/
def listenToFederatesTurn (c : Codes) (myFedId : ℕ) : Bytes → PeerTurn
  | [] => .closed
  | b :: s =>
    if b = c.P2P_TIMED_MESSAGE then
      match handleTimedMessage myFedId s with
      | none => .exit
      | some (m, rest) => .message m rest
    else .unknownType

section RoundTrip

variable (port federate : ℕ) (message rest : Bytes) (tau : ℤ)
  (hp : port < 2 ^ 16) (hf : federate < 2 ^ 16) (ht : -2 ^ 63 ≤ tau ∧ tau < 2 ^ 63)
include hp hf ht

omit ht in
lemma extractHeader_timedHeader (length : ℕ) :
    extractHeader (timedHeader port federate length tau) = (port, federate, length % 2 ^ 32) := by
  simp only [extractHeader, timedHeader, List.append_assoc]
  rw [extractUshort_encode _ _ hp, List.drop_left' (length_encodeUshort port),
    extractUshort_encode _ _ hf, ← List.append_assoc, List.drop_left' (by simp),
    extractInt_encode]

lemma handleTimedMessage_frame :
    handleTimedMessage federate
        (timedHeader port federate message.length tau ++ (message ++ rest)) =
      some (⟨port, federate, message.length % 2 ^ 32, tau,
        (message ++ rest).take (message.length % 2 ^ 32)⟩,
        (message ++ rest).drop (message.length % 2 ^ 32)) := by
  have hts : extractLl ((timedHeader port federate message.length tau).drop 8) = tau := by
    rw [timedHeader, List.drop_left' (by simp)]
    simpa using extractLl_encode tau [] ht
  have hlen : message.length % 2 ^ 32 ≤ (message ++ rest).length := by
    simp only [List.length_append]
    exact le_trans (Nat.mod_le _ _) (Nat.le_add_right _ _)
  have hread : readFromSocket (message.length % 2 ^ 32) (message ++ rest) =
      some ((message ++ rest).take (message.length % 2 ^ 32),
        (message ++ rest).drop (message.length % 2 ^ 32)) := if_pos hlen
  simp only [handleTimedMessage, readFromSocket_append _ (length_timedHeader _ _ _ _),
    extractHeader_timedHeader port federate tau hp hf, hts, hread, if_pos]

lemma listenToRtiTurn_frame (c : Codes) :
    ∃ bytes, sendMessageTimed c.TIMED_MESSAGE port federate message tau = some bytes ∧
      bytes.length = 17 + message.length ∧
      listenToRtiTurn c federate (bytes ++ rest) =
        some (.timedMessage ⟨port, federate, message.length % 2 ^ 32, tau,
          (message ++ rest).take (message.length % 2 ^ 32)⟩,
          (message ++ rest).drop (message.length % 2 ^ 32)) := by
  refine ⟨_, if_pos ⟨hp, hf⟩, by simp; omega, ?_⟩
  simp [listenToRtiTurn, handleTimedMessage_frame port federate message rest tau hp hf ht]

lemma listenToFederatesTurn_frame (c : Codes) :
    ∃ bytes, sendMessageTimed c.P2P_TIMED_MESSAGE port federate message tau = some bytes ∧
      bytes.length = 17 + message.length ∧
      listenToFederatesTurn c federate (bytes ++ rest) =
        .message ⟨port, federate, message.length % 2 ^ 32, tau,
          (message ++ rest).take (message.length % 2 ^ 32)⟩
          ((message ++ rest).drop (message.length % 2 ^ 32)) := by
  refine ⟨_, if_pos ⟨hp, hf⟩, by simp; omega, ?_⟩
  simp [listenToFederatesTurn, handleTimedMessage_frame port federate message rest tau hp hf ht]

/-- **Round trip.** A timed message whose payload fits the 32-bit length field is read back by
the reader of its socket with the same port, federate, length, timestamp and payload, and the
reader stops exactly at the end of its frame, which is 17 bytes longer than the payload. -/
theorem timed_message_round_trip (c : Codes) (hl : message.length < 2 ^ 32) :
    (∃ bytes, sendMessageTimed c.TIMED_MESSAGE port federate message tau = some bytes ∧
      bytes.length = 17 + message.length ∧
      listenToRtiTurn c federate (bytes ++ rest) =
        some (.timedMessage ⟨port, federate, message.length, tau, message⟩, rest)) ∧
    (∃ bytes, sendMessageTimed c.P2P_TIMED_MESSAGE port federate message tau = some bytes ∧
      bytes.length = 17 + message.length ∧
      listenToFederatesTurn c federate (bytes ++ rest) =
        .message ⟨port, federate, message.length, tau, message⟩ rest) := by
  obtain ⟨b, hb, hlen, hr⟩ := listenToRtiTurn_frame port federate message rest tau hp hf ht c
  obtain ⟨b', hb', hlen', hr'⟩ :=
    listenToFederatesTurn_frame port federate message rest tau hp hf ht c
  rw [Nat.mod_eq_of_lt hl, List.take_left, List.drop_left] at hr hr'
  exact ⟨⟨b, hb, hlen, hr⟩, ⟨b', hb', hlen', hr'⟩⟩

end RoundTrip

/-! ### What a reader reads was written whole -/

lemma ofBytesLE_lt (bs : Bytes) : ofBytesLE bs < 256 ^ bs.length := by
  induction bs with
  | nil => exact Nat.one_pos
  | cons b bs ih =>
    have hb : b.toNat < 256 := b.toNat_lt_size
    rw [ofBytesLE, List.length_cons, Nat.pow_succ]
    omega

lemma bytesLE_ofBytesLE (bs : Bytes) : bytesLE bs.length (ofBytesLE bs) = bs := by
  induction bs with
  | nil => rfl
  | cons b bs ih =>
    have hb : b.toNat < 256 := b.toNat_lt_size
    have hdiv : (b.toNat + 256 * ofBytesLE bs) / 256 = ofBytesLE bs := by omega
    rw [List.length_cons, bytesLE, ofBytesLE, hdiv, ih]
    exact congrArg (· :: bs) (UInt8.toNat.inj (by rw [toNat_ofNat8]; omega))

lemma bytesLE_ofBytesLE_take {w : ℕ} {bs : Bytes} (h : w ≤ bs.length) :
    bytesLE w (ofBytesLE (bs.take w)) = bs.take w := by
  have := bytesLE_ofBytesLE (bs.take w)
  rwa [List.length_take_of_le h] at this

lemma ofBytesLE_take_lt (w : ℕ) (bs : Bytes) : ofBytesLE (bs.take w) < 256 ^ w :=
  lt_of_lt_of_le (ofBytesLE_lt _) (Nat.pow_le_pow_right (by norm_num) (List.length_take_le w bs))

lemma extractUshort_lt (bs : Bytes) : extractUshort bs < 2 ^ 16 := by
  have := ofBytesLE_take_lt 2 bs; unfold extractUshort; omega

lemma extractInt_lt (bs : Bytes) : extractInt bs < 2 ^ 32 := by
  have := ofBytesLE_take_lt 4 bs; unfold extractInt; omega

lemma extractLl_range (bs : Bytes) : -2 ^ 63 ≤ extractLl bs ∧ extractLl bs < 2 ^ 63 := by
  have := ofBytesLE_take_lt 8 bs
  unfold extractLl
  split_ifs <;> omega

lemma encodeUshort_extractUshort {bs : Bytes} (h : 2 ≤ bs.length) :
    encodeUshort (extractUshort bs) = bs.take 2 := bytesLE_ofBytesLE_take h

lemma encodeInt_extractInt {bs : Bytes} (h : 4 ≤ bs.length) :
    encodeInt (extractInt bs) = bs.take 4 := bytesLE_ofBytesLE_take h

lemma encodeLl_extractLl {bs : Bytes} (h : 8 ≤ bs.length) :
    encodeLl (extractLl bs) = bs.take 8 := by
  have hlt := ofBytesLE_take_lt 8 bs
  have hv : extractLl bs % 2 ^ 64 = (ofBytesLE (bs.take 8) : ℤ) := by
    unfold extractLl
    split_ifs <;> omega
  rw [encodeLl, hv, Int.toNat_ofNat, bytesLE_ofBytesLE_take h]

lemma timedHeader_extractHeader {buffer : Bytes} (h : buffer.length = 16) :
    timedHeader (extractHeader buffer).1 (extractHeader buffer).2.1 (extractHeader buffer).2.2
      (extractLl (buffer.drop 8)) = buffer := by
  simp only [timedHeader, extractHeader]
  rw [encodeUshort_extractUshort (by omega), encodeUshort_extractUshort (by simp; omega),
    encodeInt_extractInt (by simp; omega), encodeLl_extractLl (by simp; omega)]
  rw [← List.take_add, ← List.take_add, ← List.take_add, List.take_of_length_le (by omega)]

lemma readFromSocket_eq_some {n : ℕ} {s a b : Bytes} (h : readFromSocket n s = some (a, b)) :
    s = a ++ b ∧ a.length = n := by
  unfold readFromSocket at h
  split_ifs at h with hn
  cases h
  exact ⟨(List.take_append_drop n s).symm, List.length_take_of_le hn⟩

lemma handleTimedMessage_sound {myFedId : ℕ} {s rest : Bytes} {m : TimedMessage}
    (h : handleTimedMessage myFedId s = some (m, rest)) :
    Sendable myFedId m ∧
      s = timedHeader m.port m.federate m.payload.length m.timestamp ++ m.payload ++ rest := by
  unfold handleTimedMessage at h
  split at h
  · cases h
  · rename_i buffer s' h1
    split_ifs at h with hfed
    split at h
    · cases h
    · rename_i message s'' h2
      cases h
      obtain ⟨rfl, hlen⟩ := readFromSocket_eq_some h1
      obtain ⟨rfl, hlen'⟩ := readFromSocket_eq_some h2
      refine ⟨⟨extractUshort_lt _, hfed.symm, lt_of_eq_of_lt hfed (extractUshort_lt _),
        hlen'.symm, lt_of_eq_of_lt hlen' (extractInt_lt _), extractLl_range _⟩, ?_⟩
      rw [hlen', timedHeader_extractHeader hlen, List.append_assoc]

def someCodes : Codes := ⟨1, 255, 0, 10, 11, 2, 6, 7, 8, 9, 5, 13, 12, by decide⟩

theorem timed_message_round_trip_short :
    (1 < 2 ^ 16 ∧ 2 < 2 ^ 16 ∧ (-2 ^ 63 ≤ (-5 : ℤ) ∧ (-5 : ℤ) < 2 ^ 63) ∧
      [(42 : UInt8)].length < 2 ^ 32) ∧
    (∃ bytes, sendMessageTimed someCodes.TIMED_MESSAGE 1 2 [42] (-5) = some bytes ∧
      bytes.length = 17 + [(42 : UInt8)].length ∧
      listenToRtiTurn someCodes 2 (bytes ++ []) =
        some (.timedMessage ⟨1, 2, [(42 : UInt8)].length, -5, [42]⟩, [])) ∧
    (∃ bytes, sendMessageTimed someCodes.P2P_TIMED_MESSAGE 1 2 [42] (-5) = some bytes ∧
      bytes.length = 17 + [(42 : UInt8)].length ∧
      listenToFederatesTurn someCodes 2 (bytes ++ []) =
        .message ⟨1, 2, [(42 : UInt8)].length, -5, [42]⟩ []) :=
  ⟨by simp, timed_message_round_trip 1 2 [42] [] (-5) (by omega) (by omega) (by omega)
    someCodes (by simp)⟩

/-- A payload of `2 ^ 32` bytes: the length field holds `0`, so the reader takes no payload and
goes on to read the payload as the next frames. -/
theorem timed_message_long_payload :
    ¬ ∀ (c : Codes) (port federate : ℕ) (message rest : Bytes) (tau : ℤ),
      port < 2 ^ 16 → federate < 2 ^ 16 → -2 ^ 63 ≤ tau ∧ tau < 2 ^ 63 →
      ∃ bytes, sendMessageTimed c.TIMED_MESSAGE port federate message tau = some bytes ∧
        listenToRtiTurn c federate (bytes ++ rest) =
          some (.timedMessage ⟨port, federate, message.length, tau, message⟩, rest) := by
  intro h
  obtain ⟨b, hb, hr⟩ := h someCodes 0 0 (List.replicate (2 ^ 32) 0) [] 0
    (by omega) (by omega) (by omega)
  obtain ⟨b', hb', -, hr'⟩ := listenToRtiTurn_frame 0 0 (List.replicate (2 ^ 32) 0) [] 0
    (by omega) (by omega) (by omega) someCodes
  rw [hb] at hb'
  cases hb'
  rw [hr] at hr'
  simp only [List.length_replicate, Nat.mod_self, Option.some.injEq, Prod.mk.injEq,
    FromRti.timedMessage.injEq, TimedMessage.mk.injEq] at hr'
  exact absurd hr'.1.2.2.1 (by omega)

end LfFederate.Wire
