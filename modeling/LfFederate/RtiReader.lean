import LfFederate.Wire

/-!
The whole loop of `listen_to_rti` over the bytes of the socket to the RTI.

Each pass reads a type byte with `read_from_socket` and hands the message to its handler:
`handle_timed_message` for a `TIMED_MESSAGE`, which reads the 16-byte header and the payload, and
`handle_time_advance_grant` or `handle_incoming_stop_message` for a `TIME_ADVANCE_GRANT` or a
`STOP`, which read eight bytes of time. A read that finds EOF or an error, the assertion of
`handle_timed_message` and any other type byte end the process, and the loop has no other way
out. So the thread hands on the messages the stream begins with, in order, and the process exits
where the stream stops being a message, at the latest where the RTI closes the socket.

The RTI is not part of the source. The bytes it writes for a message are the ones the loop reads:
a `TIMED_MESSAGE` frame as `send_message_timed` builds it, and a type byte and eight bytes of
time as `send_time` builds them.
-/

namespace LfFederate.RtiReader

open Wire

variable (c : Codes) (myFedId : ℕ)

/-- `fuel` passes of the loop of `listen_to_rti` on the bytes `bytes`: the messages handed to
their handlers, in order, and the bytes left where the process exits. -/
def listenToRti : ℕ → Bytes → List FromRti × Bytes
  | 0, bytes => ([], bytes)
  | fuel + 1, bytes =>
    match listenToRtiTurn c myFedId bytes with
    | some (m, rest) => (m :: (listenToRti fuel rest).1, (listenToRti fuel rest).2)
    | none => ([], bytes)

/-- The thread on a socket whose bytes are `bytes`, given a pass more than they have bytes. -/
def run (bytes : Bytes) : List FromRti × Bytes := listenToRti c myFedId (bytes.length + 1) bytes

/-- The bytes of a message of the RTI, as `listen_to_rti` reads them. -/
def encode : FromRti → Bytes
  | .timedMessage m =>
    (c.TIMED_MESSAGE :: timedHeader m.port m.federate m.payload.length m.timestamp) ++ m.payload
  | .timeAdvanceGrant tag => sendTime c.TIME_ADVANCE_GRANT tag
  | .stop stopTime => sendTime c.STOP stopTime

/-- A message of the RTI for federate `myFedId` whose fields fit their places on the wire. -/
def WellFormed : FromRti → Prop
  | .timedMessage m => Sendable myFedId m
  | .timeAdvanceGrant t | .stop t => -2 ^ 63 ≤ t ∧ t < 2 ^ 63

/-! ### One pass -/

lemma types_ne : c.TIME_ADVANCE_GRANT ≠ c.TIMED_MESSAGE ∧ c.STOP ≠ c.TIMED_MESSAGE ∧
    c.STOP ≠ c.TIME_ADVANCE_GRANT := by
  -- the three bytes stand in this order among the distinct type bytes
  have h : [c.TIME_ADVANCE_GRANT, c.STOP, c.TIMED_MESSAGE].Nodup :=
    c.distinct.sublist <| .cons _ <| .cons _ <| .cons _ <| .cons _ <| .cons _ <| .cons _ <|
      .cons _ <| .cons₂ _ <| .cons _ <| .cons₂ _ <| .cons₂ _ <| List.nil_sublist _
  simp only [List.nodup_cons, List.mem_cons, List.mem_singleton, not_or, List.not_mem_nil,
    not_false_eq_true, List.nodup_nil, and_true] at h
  exact ⟨h.1.2, h.2, fun e => h.1.1 e.symm⟩

lemma length_encode_pos (msg : FromRti) : 0 < (encode c msg).length := by
  cases msg <;> simp [encode, sendTime]

lemma length_le_flatMap_encode (msgs : List FromRti) :
    msgs.length ≤ (msgs.flatMap (encode c)).length := by
  induction msgs with
  | nil => exact le_rfl
  | cons msg msgs ih =>
    have := length_encode_pos c msg
    simp only [List.flatMap_cons, List.length_append, List.length_cons]
    omega

lemma readTime_sound {s a rest : Bytes} (h : readFromSocket 8 s = some (a, rest)) :
    (-2 ^ 63 ≤ extractLl a ∧ extractLl a < 2 ^ 63) ∧ s = encodeLl (extractLl a) ++ rest := by
  obtain ⟨rfl, hlen⟩ := readFromSocket_eq_some h
  rw [encodeLl_extractLl (by omega), List.take_of_length_le (by omega)]
  exact ⟨extractLl_range a, rfl⟩

lemma listenToRtiTurn_encode {msg : FromRti} (h : WellFormed myFedId msg) (rest : Bytes) :
    listenToRtiTurn c myFedId (encode c msg ++ rest) = some (msg, rest) := by
  obtain ⟨h1, h2, h3⟩ := types_ne c
  cases msg with
  | timedMessage m =>
    obtain ⟨port, federate, length, timestamp, payload⟩ := m
    obtain ⟨hp, hfed, hf, hlen, hl, ht⟩ := h
    dsimp only at hp hfed hf hlen hl ht
    subst hfed hlen
    simp only [encode, List.cons_append, listenToRtiTurn, if_pos, List.append_assoc,
      handleTimedMessage_frame port federate payload rest timestamp hp hf ht, Nat.mod_eq_of_lt hl,
      List.take_left, List.drop_left, Option.map_some']
  | timeAdvanceGrant t =>
    have ht : extractLl (encodeLl t) = t := by simpa using extractLl_encode t [] h
    simp only [encode, sendTime, List.cons_append, listenToRtiTurn, if_neg h1, if_pos,
      readFromSocket_append _ (length_encodeLl t), Option.map_some', ht]
  | stop t =>
    have ht : extractLl (encodeLl t) = t := by simpa using extractLl_encode t [] h
    simp only [encode, sendTime, List.cons_append, listenToRtiTurn, if_neg h2, if_neg h3, if_pos,
      readFromSocket_append _ (length_encodeLl t), Option.map_some', ht]

lemma listenToRtiTurn_sound {bytes rest : Bytes} {msg : FromRti}
    (h : listenToRtiTurn c myFedId bytes = some (msg, rest)) :
    WellFormed myFedId msg ∧ bytes = encode c msg ++ rest := by
  match bytes, h with
  | b :: s, h =>
    simp only [listenToRtiTurn] at h
    split_ifs at h with h1 h2 h3
    · obtain ⟨⟨m, rest'⟩, hm, he⟩ := Option.map_eq_some'.mp h
      cases he
      obtain ⟨hsend, rfl⟩ := handleTimedMessage_sound hm
      exact ⟨hsend, by rw [h1]; simp [encode]⟩
    · obtain ⟨⟨a, rest'⟩, ha, he⟩ := Option.map_eq_some'.mp h
      cases he
      obtain ⟨hrange, rfl⟩ := readTime_sound ha
      exact ⟨hrange, by rw [h2]; rfl⟩
    · obtain ⟨⟨a, rest'⟩, ha, he⟩ := Option.map_eq_some'.mp h
      cases he
      obtain ⟨hrange, rfl⟩ := readTime_sound ha
      exact ⟨hrange, by rw [h3]; rfl⟩

/-! ### The whole loop -/

lemma listenToRti_encode {msgs : List FromRti} (hw : ∀ msg ∈ msgs, WellFormed myFedId msg)
    {tail : Bytes} (ht : listenToRtiTurn c myFedId tail = none) {fuel : ℕ}
    (hf : msgs.length < fuel) :
    listenToRti c myFedId fuel (msgs.flatMap (encode c) ++ tail) = (msgs, tail) := by
  induction msgs generalizing fuel with
  | nil =>
    obtain ⟨f, rfl⟩ : ∃ f, fuel = f + 1 := ⟨fuel - 1, by simp only [List.length_nil] at hf; omega⟩
    simp only [List.flatMap_nil, List.nil_append, listenToRti, ht]
  | cons msg msgs ih =>
    obtain ⟨f, rfl⟩ : ∃ f, fuel = f + 1 := ⟨fuel - 1, by omega⟩
    simp only [List.flatMap_cons, List.append_assoc, listenToRti,
      listenToRtiTurn_encode c myFedId (hw msg (.head _)),
      ih (fun m hm => hw m (.tail _ hm)) (by simpa using hf)]

lemma listenToRti_sound (fuel : ℕ) (bytes : Bytes) :
    (∀ msg ∈ (listenToRti c myFedId fuel bytes).1, WellFormed myFedId msg) ∧
      bytes = (listenToRti c myFedId fuel bytes).1.flatMap (encode c) ++
        (listenToRti c myFedId fuel bytes).2 := by
  induction fuel generalizing bytes with
  | zero => exact ⟨nofun, rfl⟩
  | succ fuel ih =>
    rw [listenToRti]
    split
    · rename_i m rest hturn
      obtain ⟨hw, rfl⟩ := listenToRtiTurn_sound c myFedId hturn
      obtain ⟨hw', hrest⟩ := ih rest
      refine ⟨List.forall_mem_cons.mpr ⟨hw, hw'⟩, ?_⟩
      rw [List.flatMap_cons, List.append_assoc, ← hrest]
    · exact ⟨nofun, rfl⟩

lemma listenToRti_exits {fuel : ℕ} {bytes : Bytes} (h : bytes.length < fuel) :
    listenToRtiTurn c myFedId (listenToRti c myFedId fuel bytes).2 = none := by
  induction fuel generalizing bytes with
  | zero => omega
  | succ fuel ih =>
    rw [listenToRti]
    split
    · rename_i m rest hturn
      obtain ⟨-, rfl⟩ := listenToRtiTurn_sound c myFedId hturn
      have := length_encode_pos c m
      exact ih (by simp only [List.length_append] at h; omega)
    · assumption

/-- **Soundness: the thread hands on whole messages, then the process exits.** Whatever the RTI
writes, `listen_to_rti` hands on messages whose fields fit their places and which are for this
federate; the stream begins with exactly their bytes, in order; and the process exits where the
rest of the stream does not begin with a message. -/
theorem listen_to_rti_reads_whole_messages (bytes : Bytes) :
    (∀ msg ∈ (run c myFedId bytes).1, WellFormed myFedId msg) ∧
      bytes = (run c myFedId bytes).1.flatMap (encode c) ++ (run c myFedId bytes).2 ∧
      listenToRtiTurn c myFedId (run c myFedId bytes).2 = none :=
  ⟨(listenToRti_sound c myFedId _ bytes).1, (listenToRti_sound c myFedId _ bytes).2,
    listenToRti_exits c myFedId (Nat.lt_succ_self _)⟩

/-- **Completeness: every message of the RTI is handed on, in order.** On the bytes of any list
of well-formed messages, followed by anything a message cannot begin with, EOF among it,
`listen_to_rti` hands on exactly these messages, in order, and the process exits at their end. -/
theorem listen_to_rti_hands_on_in_order {msgs : List FromRti}
    (hw : ∀ msg ∈ msgs, WellFormed myFedId msg) {tail : Bytes}
    (ht : listenToRtiTurn c myFedId tail = none) :
    run c myFedId (msgs.flatMap (encode c) ++ tail) = (msgs, tail) :=
  listenToRti_encode c myFedId hw ht (by
    have := length_le_flatMap_encode c msgs
    simp only [List.length_append]
    omega)

theorem listen_to_rti_hands_on_in_order_three :
    (∀ msg ∈ [FromRti.timedMessage ⟨1, 2, 1, 0, [42]⟩, .timeAdvanceGrant 5, .stop 7],
      WellFormed 2 msg) ∧
    listenToRtiTurn someCodes 2 [] = none ∧
    run someCodes 2
        ([FromRti.timedMessage ⟨1, 2, 1, 0, [42]⟩, .timeAdvanceGrant 5, .stop 7].flatMap
          (encode someCodes) ++ []) =
      ([.timedMessage ⟨1, 2, 1, 0, [42]⟩, .timeAdvanceGrant 5, .stop 7], []) :=
  have hw : ∀ msg ∈ [FromRti.timedMessage ⟨1, 2, 1, 0, [42]⟩, .timeAdvanceGrant 5, .stop 7],
      WellFormed 2 msg := by
    simp only [List.mem_cons, List.mem_singleton, forall_eq_or_imp, forall_eq,
      List.not_mem_nil, false_imp_iff, implies_true, and_true]
    exact ⟨⟨by decide, rfl, by decide, rfl, by decide, by decide⟩, ⟨by decide, by decide⟩,
      ⟨by decide, by decide⟩⟩
  ⟨hw, rfl, listen_to_rti_hands_on_in_order someCodes 2 hw rfl⟩

end LfFederate.RtiReader
