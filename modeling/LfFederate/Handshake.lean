import LfFederate.Wire
import LfFederate.P2P

/-!
The handshake of a peer-to-peer connection: what `connect_to_federate` writes once it has
connected, and the decision `handle_p2p_connections_from_federates` makes on the socket it
accepted.

The sender writes the type byte `P2P_SENDING_FED_ID`, its federate id in two bytes, the length
of its federation id, `strnlen(federation_id, 255)`, in one byte, and that many bytes of the
federation id. The receiver reads four bytes with `read_from_socket2` and checks the type byte,
then reads as many bytes as the fourth byte announces and compares them with its own federation
id by `strncmp(federation_id, remote_federation_id, strnlen(federation_id, 255))`. The comparison
runs over the length of the local id only: an announced id of which the local id is a prefix
passes, and a shorter one makes `strncmp` read the memory past the bytes read. The sender's id
becomes the index of the slot the socket is stored in, with no bound against
`NUMBER_OF_FEDERATES`.
-/

namespace LfFederate.Handshake

open Wire P2P

/-- How the bytes arriving on a socket end: the peer closes it, or the connection breaks. -/
inductive Ending
  | eof
  | error
  deriving DecidableEq, Repr

/-- Modelled from the spec: `read_from_socket2` of `util.c`, on a socket whose bytes are
`bytes`, then `e`. It fills `n` bytes and returns `n`, or returns `0` at EOF and `-1` on an error
that comes before it has them; with the bytes read and the bytes after them. -/
def readFromSocket2 (n : ℕ) (bytes : Bytes) (e : Ending) : ℤ × Bytes × Bytes :=
  if n ≤ bytes.length then (n, bytes.take n, bytes.drop n)
  else ((match e with | .eof => 0 | .error => -1), bytes, [])

/-- `strnlen(s, maxlen)` of the C string whose characters, up to the first `0`, are those of
`s`. -/
def strnlen (s : Bytes) (maxlen : ℕ) : ℕ := min (s.takeWhile (· != 0)).length maxlen

/-- `strncmp(a, b, n) == 0`, with a `0` past the end of each list: the first `n` characters
agree, or agree up to a `0` in both. -/
def strncmpEq : ℕ → Bytes → Bytes → Bool
  | 0, _, _ => true
  | n + 1, a, b => a.headD 0 == b.headD 0 && (a.headD 0 == 0 || strncmpEq n a.tail b.tail)

variable (c : Codes)

/-- What `handle_p2p_connections_from_federates` makes of an accepted socket whose bytes are
`bytes`, then `e`. `federationId` holds the characters of the local `federation_id`; `beyond` is
what the memory past `remote_federation_id` holds, which `strncmp` reads where the announced id
is shorter than the local one. -/
def handshake (federationId beyond bytes : Bytes) (e : Ending) : Handshake :=
  match readFromSocket2 4 bytes e with
  | (bytesRead, buffer, rest) =>
    if bytesRead ≠ 4 ∨ buffer.headD 0 ≠ c.P2P_SENDING_FED_ID then
      if 0 ≤ bytesRead then .rejected else .readFailed
    else
      match readFromSocket2 (buffer.getD 3 0).toNat rest e with
      | (bytesRead, remoteFederationId, _) =>
        if bytesRead ≠ (buffer.getD 3 0).toNat ∨ strncmpEq (strnlen federationId 255)
            federationId (remoteFederationId ++ beyond) = false then
          if 0 ≤ bytesRead then .rejected else .readFailed
        else .accepted (extractUshort (buffer.drop 1))

/-- The bytes `connect_to_federate` writes once it has connected: the `P2P_SENDING_FED_ID`
header naming `myFedId` with the length of the federation id, then that many of its
characters. -/
def p2pSendingFedId (myFedId : ℕ) (federationId : Bytes) : Bytes :=
  (c.P2P_SENDING_FED_ID :: encodeUshort myFedId) ++ [UInt8.ofNat (strnlen federationId 255)] ++
    federationId.take (strnlen federationId 255)

/-! ### Reading and comparing -/

lemma readFromSocket2_append {n : ℕ} {a : Bytes} (b : Bytes) (e : Ending) (h : a.length = n) :
    readFromSocket2 n (a ++ b) e = ((n : ℤ), a, b) := by
  subst h
  simp [readFromSocket2]

lemma strnlen_le_length (s : Bytes) (maxlen : ℕ) : strnlen s maxlen ≤ s.length :=
  le_trans (min_le_left _ _) (List.takeWhile_prefix _).length_le

lemma strncmpEq_take {n : ℕ} {a : Bytes} (b : Bytes) (h : n ≤ a.length) :
    strncmpEq n a (a.take n ++ b) = true := by
  induction n generalizing a with
  | zero => rfl
  | succ n ih =>
    obtain _ | ⟨x, a⟩ := a
    · simp at h
    · simp [strncmpEq, ih (a := a) (by simpa using h)]

/-! ### What passes -/

lemma readFromSocket2_eq_length {n : ℕ} {bytes a b : Bytes} {e : Ending}
    (h : readFromSocket2 n bytes e = ((n : ℤ), a, b)) : bytes = a ++ b ∧ a.length = n := by
  unfold readFromSocket2 at h
  split_ifs at h with hn
  · simp only [Prod.mk.injEq] at h
    obtain ⟨-, rfl, rfl⟩ := h
    exact ⟨(List.take_append_drop _ _).symm, List.length_take_of_le hn⟩
  · cases e <;> simp only [Prod.mk.injEq] at h <;> omega

theorem handshake_eq_accepted_iff (federationId beyond bytes : Bytes) (e : Ending) (p : ℕ) :
    handshake c federationId beyond bytes e = .accepted p ↔
      ∃ b₁ b₂ len remote rest,
        bytes = [c.P2P_SENDING_FED_ID, b₁, b₂, len] ++ remote ++ rest ∧
        remote.length = len.toNat ∧
        strncmpEq (strnlen federationId 255) federationId (remote ++ beyond) = true ∧
        p = extractUshort [b₁, b₂] := by
  constructor
  · intro h
    unfold handshake at h
    rcases h4 : readFromSocket2 4 bytes e with ⟨r, buffer, rest⟩
    rw [h4] at h
    dsimp only at h
    split_ifs at h with hhead
    rename_i hid
    rcases hm : readFromSocket2 (buffer.getD 3 0).toNat rest e with ⟨r', remote, rest'⟩
    rw [hm] at hid
    cases h
    simp only [ne_eq, not_or, not_not, Bool.not_eq_false] at hhead hid
    obtain ⟨rfl, hP⟩ := hhead
    obtain ⟨rfl, hcmp⟩ := hid
    obtain ⟨hbytes, hlen⟩ := readFromSocket2_eq_length h4
    obtain ⟨hrest, hlen'⟩ := readFromSocket2_eq_length hm
    match buffer, hlen, hP with
    | [_, b₁, b₂, len], _, rfl =>
      exact ⟨b₁, b₂, len, remote, rest', by rw [hbytes, hrest, List.append_assoc], hlen',
        hcmp, rfl⟩
  · rintro ⟨b₁, b₂, len, remote, rest, rfl, hlen, hcmp, rfl⟩
    unfold handshake
    rw [List.append_assoc,
      readFromSocket2_append (n := 4) (a := [c.P2P_SENDING_FED_ID, b₁, b₂, len]) _ e rfl]
    simp only [List.headD_cons, ne_eq, not_true_eq_false, or_false, ↓reduceIte,
      List.getD_cons_succ, List.getD_cons_zero, readFromSocket2_append _ e hlen, hcmp]
    rfl

/-- **The handshake `connect_to_federate` sends passes.** Whatever follows it on the socket, a
federate of the same federation accepts it and takes the sender's id from it. -/
theorem p2pSendingFedId_accepted (myFedId : ℕ) (federationId beyond more : Bytes) (e : Ending)
    (h : myFedId < 2 ^ 16) :
    handshake c federationId beyond (p2pSendingFedId c myFedId federationId ++ more) e =
      .accepted myFedId := by
  have hL : strnlen federationId 255 < 256 := lt_of_le_of_lt (min_le_right _ _) (by decide)
  refine (handshake_eq_accepted_iff c _ _ _ e _).mpr
    ⟨_, _, UInt8.ofNat (strnlen federationId 255), federationId.take (strnlen federationId 255),
      more, rfl, ?_,
    strncmpEq_take _ (strnlen_le_length _ _), (extractUshort_encode myFedId [] h).symm⟩
  rw [List.length_take_of_le (strnlen_le_length _ _), toNat_ofNat8, Nat.mod_eq_of_lt hL]

theorem p2pSendingFedId_accepted_abc :
    7 < 2 ^ 16 ∧
      handshake someCodes [97, 98, 99] [] (p2pSendingFedId someCodes 7 [97, 98, 99] ++ []) .eof =
        .accepted 7 :=
  ⟨by decide, p2pSendingFedId_accepted someCodes 7 [97, 98, 99] [] [] .eof (by decide)⟩

/-! ### What else passes -/

/-- **A longer federation id passes, and so does any sender id.** A federate of federation
`abc` accepts the handshake of a peer that announces federation `abcd`, whatever the memory past
the bytes it read, and it accepts the sender id `65535`, which it then uses as an index into its
table of `NUMBER_OF_FEDERATES` slots. -/
theorem handshake_accepts_other_federation (beyond : Bytes) (e : Ending) :
    handshake c [97, 98, 99] beyond [c.P2P_SENDING_FED_ID, 1, 0, 4, 97, 98, 99, 100] e =
      .accepted 1 ∧
    handshake c [97, 98, 99] beyond [c.P2P_SENDING_FED_ID, 255, 255, 3, 97, 98, 99] e =
      .accepted 65535 :=
  ⟨(handshake_eq_accepted_iff c _ _ _ e 1).mpr
      ⟨1, 0, 4, [97, 98, 99, 100], [], rfl, by decide, rfl, rfl⟩,
    (handshake_eq_accepted_iff c _ _ _ e 65535).mpr
      ⟨255, 255, 3, [97, 98, 99], [], rfl, by decide, rfl, rfl⟩⟩

end LfFederate.Handshake
