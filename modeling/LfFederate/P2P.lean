import LfFederate.Run
import Mathlib.Logic.Function.Basic

/-!
The inbound peer-to-peer connections: the accept thread `handle_p2p_connections_from_federates`
and the reader threads `listen_to_federates` it starts.

For each handshake it accepts, the accept thread stores the socket in
`_lf_federate_sockets_for_inbound_physical_connections[p]`, `p` the id the handshake names, and
starts a reader for `p`. The array has `NUMBER_OF_FEDERATES` slots and `p` is not checked against
it: a handshake naming an id at or above it makes the accept thread write past the end of the
array, undefined behaviour, where the model takes no step. A handshake it rejects gets `REJECT`
and its socket is closed; one whose read failed leaves the socket open and unanswered.

The reader reads the slot when it starts and then reads that socket until EOF or an error, when
it closes it, clears the slot and exits. On a type byte it does not know it also closes the
socket and clears the slot, but its `break` leaves only the `switch`, and it reads on.

Nothing stops two handshakes from naming the same peer: the second overwrites the slot, and two
readers for `p` run, both on the second socket. When the handshakes name distinct peers and no
reader meets an unknown type byte, each peer has one reader, which owns its slot and its socket.
-/

namespace LfFederate.P2P

/-- What the accept thread makes of the first frame on a socket it accepted. -/
inductive Handshake
  | accepted (remoteFedId : ℕ)
  | rejected
  | readFailed
  deriving DecidableEq, Repr

/-- What a reader finds when it reads a type byte. -/
inductive Input
  | eof
  | error
  | p2pTimedMessage
  | unrecognized
  deriving DecidableEq, Repr

inductive Pc
  | start
  | listening (socketId : ℤ)
  | exited
  deriving DecidableEq, Repr

/-- What the accept thread gives a reader: the peer `*fed_id_ptr` and the socket its handshake
was accepted on. -/
structure Reader where
  fedId : ℕ
  accepted : ℕ
  deriving DecidableEq, Repr

/-- The slots `_lf_federate_sockets_for_inbound_physical_connections` (`-1` where unset), the
accepted sockets that are open, `received_federates`, the reader started for the `i`-th accepted
handshake (`thread_ids[i]`) and where each reader is. -/
structure St where
  slots : ℕ → ℤ
  isOpen : ℕ → Bool
  receivedFederates : ℕ
  readers : ℕ → Option Reader
  pcs : ℕ → Pc

def init : St := ⟨fun _ => -1, fun _ => false, 0, fun _ => none, fun _ => .start⟩

def close (isOpen : ℕ → Bool) (socketId : ℤ) : ℕ → Bool :=
  if 0 ≤ socketId then Function.update isOpen socketId.toNat false else isOpen

@[simp] lemma close_natCast (isOpen : ℕ → Bool) (fd : ℕ) :
    close isOpen fd = Function.update isOpen fd false := by
  rw [close, if_pos (Int.ofNat_nonneg fd), Int.toNat_ofNat]

def St.opened (s : St) (socketId : ℤ) : Bool := 0 ≤ socketId && s.isOpen socketId.toNat

def closeAndClear (s : St) (p : ℕ) (socketId : ℤ) : St :=
  { s with slots := Function.update s.slots p (-1), isOpen := close s.isOpen socketId }

/-- One pass of the loop of `handle_p2p_connections_from_federates`, on the accepted socket
`fd`; `next` takes it only where the slot it stores lies in the array. -/
def acceptTurn (s : St) (fd : ℕ) : Handshake → St
  | .accepted p =>
    ⟨Function.update s.slots p fd, Function.update s.isOpen fd true, s.receivedFederates + 1,
      Function.update s.readers s.receivedFederates (some ⟨p, fd⟩),
      Function.update s.pcs s.receivedFederates .start⟩
  | .rejected => s
  | .readFailed => { s with isOpen := Function.update s.isOpen fd true }

/-- One pass of the loop of `listen_to_federates(p)` on `socketId`, finding `x`: the state after
it, and whether the thread leaves the loop; `none` where the read cannot find `x`, as on a socket
that is not open, where `read_from_socket2` fails. -/
def listenTurn (s : St) (p : ℕ) (socketId : ℤ) (x : Input) : Option (St × Bool) :=
  if s.opened socketId ∨ x = .error then
    match x with
    | .p2pTimedMessage => some (s, false)
    | .unrecognized => some (closeAndClear s p socketId, false)
    | .eof | .error => some (closeAndClear s p socketId, true)
  else none

inductive Act
  | accept (fd : ℕ) (h : Handshake)
  | start (i : ℕ)
  | read (i : ℕ) (x : Input)

variable (NUMBER_OF_FEDERATES numberOfInboundPhysicalConnections : ℕ)

/-- Whether the accept thread's store for `h` stays inside the array of slots. -/
def inTable : Handshake → Bool
  | .accepted p => p < NUMBER_OF_FEDERATES
  | _ => true

/-- A step of the accept thread on a socket `fd` that is not open, or of reader `i`: its start,
which reads its slot, or one pass of its loop. -/
def next (s : St) : Act → Option St
  | .accept fd h =>
    if s.receivedFederates < numberOfInboundPhysicalConnections ∧ s.isOpen fd = false ∧
        inTable NUMBER_OF_FEDERATES h then
      some (acceptTurn s fd h)
    else none
  | .start i =>
    match s.readers i, s.pcs i with
    | some r, .start =>
      some { s with pcs := Function.update s.pcs i (.listening (s.slots r.fedId)) }
    | _, _ => none
  | .read i x =>
    match s.readers i, s.pcs i with
    | some r, .listening socketId =>
      (listenTurn s r.fedId socketId x).map fun (s', exit) =>
        { s' with pcs := Function.update s'.pcs i (if exit then .exited else .listening socketId) }
    | _, _ => none

def Reachable (allowed : St → Act → Bool) (s : St) : Prop :=
  ∃ as, runSteps (next NUMBER_OF_FEDERATES numberOfInboundPhysicalConnections) allowed init as =
    some s

/-- Two handshakes name peer 0, on sockets 3 and 4: two readers for peer 0 run, and both read
socket 4, which was accepted for the second. -/
theorem two_readers_for_one_peer :
    ∃ s, Reachable 1 2 (fun _ _ => true) s ∧ s.readers 0 = some ⟨0, 3⟩ ∧
      s.pcs 0 = .listening 4 ∧ s.readers 1 = some ⟨0, 4⟩ ∧ s.pcs 1 = .listening 4 :=
  ⟨_, ⟨[.accept 3 (.accepted 0), .accept 4 (.accepted 0), .start 0, .start 1], rfl⟩,
    rfl, rfl, rfl, rfl⟩

/-! ### Distinct peers -/

/-- The runs in which the accepted handshakes name distinct peers and no reader meets an unknown
type byte. -/
def distinctPeers (s : St) : Act → Bool
  | .accept _ (.accepted p) =>
    (List.range s.receivedFederates).all fun i => (s.readers i).all (·.fedId != p)
  | .read _ .unrecognized => false
  | _ => true

/-- What holds in every state of such a run: readers exist only for the handshakes accepted, one
per peer, each for a peer with a slot in the array; each reads only the socket accepted for it;
one that has not exited has that socket open and in its slot, and no other such reader has the
same socket; and a slot that is set belongs to a reader that has not exited. -/
structure Inv (s : St) : Prop where
  fresh : ∀ i r, s.readers i = some r → i < s.receivedFederates
  onePerPeer : ∀ i j r r', s.readers i = some r → s.readers j = some r' → r.fedId = r'.fedId →
    i = j
  readsOwn : ∀ i r, s.readers i = some r →
    s.pcs i = .start ∨ s.pcs i = .listening r.accepted ∨ s.pcs i = .exited
  live : ∀ i r, s.readers i = some r → s.pcs i ≠ .exited →
    s.isOpen r.accepted ∧ s.slots r.fedId = r.accepted
  ownSocket : ∀ i j r r', s.readers i = some r → s.readers j = some r' → s.pcs i ≠ .exited →
    s.pcs j ≠ .exited → r.accepted = r'.accepted → i = j
  slot : ∀ p, s.slots p ≠ -1 → ∃ i r, s.readers i = some r ∧ r.fedId = p ∧ s.pcs i ≠ .exited
  inTable : ∀ i r, s.readers i = some r → r.fedId < NUMBER_OF_FEDERATES

section Step

variable {NUMBER_OF_FEDERATES} {s : St}

lemma update_eq_some {f : ℕ → Option Reader} {i j : ℕ} {r r' : Reader} :
    Function.update f i (some r) j = some r' ↔ (j = i ∧ r = r') ∨ (j ≠ i ∧ f j = some r') := by
  by_cases h : j = i <;> simp [Function.update_apply, h]

lemma inv_init : Inv NUMBER_OF_FEDERATES init := by
  constructor <;> simp [init]

lemma Inv.accept {fd p : ℕ} (hs : Inv NUMBER_OF_FEDERATES s) (hfd : s.isOpen fd = false)
    (hp : ∀ i r, s.readers i = some r → r.fedId ≠ p) (hpN : p < NUMBER_OF_FEDERATES) :
    Inv NUMBER_OF_FEDERATES (acceptTurn s fd (.accepted p)) := by
  have hr : ∀ i r, (acceptTurn s fd (.accepted p)).readers i = some r →
      (i = s.receivedFederates ∧ ⟨p, fd⟩ = r) ∨
        (i ≠ s.receivedFederates ∧ s.readers i = some r) :=
    fun i r h => update_eq_some.mp h
  have hpc : ∀ i r, s.readers i = some r → (acceptTurn s fd (.accepted p)).pcs i = s.pcs i :=
    fun i r h => Function.update_noteq (Nat.ne_of_lt (hs.fresh i r h)) _ _
  have hfd' : ∀ i r, s.readers i = some r → s.pcs i ≠ .exited → r.accepted ≠ fd :=
    fun i r h hl e => by simpa [e, hfd] using (hs.live i r h hl).1
  refine ⟨fun i r h => ?_, fun i j r r' hi hj he => ?_, fun i r h => ?_, fun i r h hl => ?_,
    fun i j r r' hi hj hl hl' he => ?_, fun q hq => ?_, fun i r h => ?_⟩
  · rcases hr i r h with ⟨rfl, -⟩ | ⟨-, h⟩
    · exact Nat.lt_succ_self _
    · exact Nat.lt_succ_of_lt (hs.fresh i r h)
  · rcases hr i r hi with ⟨rfl, rfl⟩ | ⟨-, hi⟩ <;> rcases hr j r' hj with ⟨rfl, rfl⟩ | ⟨-, hj⟩
    · rfl
    · exact absurd he.symm (hp j r' hj)
    · exact absurd he (hp i r hi)
    · exact hs.onePerPeer i j r r' hi hj he
  · rcases hr i r h with ⟨rfl, -⟩ | ⟨-, h⟩
    · exact .inl (Function.update_same _ _ _)
    · rw [hpc i r h]; exact hs.readsOwn i r h
  · rcases hr i r h with ⟨rfl, rfl⟩ | ⟨-, h⟩
    · simp [acceptTurn]
    · rw [hpc i r h] at hl
      have := hs.live i r h hl
      simp [acceptTurn, Function.update_apply, hp i r h, this]
  · rcases hr i r hi with ⟨rfl, rfl⟩ | ⟨-, hi⟩ <;> rcases hr j r' hj with ⟨rfl, rfl⟩ | ⟨-, hj⟩
    · rfl
    · exact absurd he.symm (hfd' j r' hj (hpc j r' hj ▸ hl'))
    · exact absurd he (hfd' i r hi (hpc i r hi ▸ hl))
    · exact hs.ownSocket i j r r' hi hj (hpc i r hi ▸ hl) (hpc j r' hj ▸ hl') he
  · by_cases hqp : q = p
    · exact ⟨s.receivedFederates, ⟨p, fd⟩, by simp [acceptTurn], hqp.symm, by simp [acceptTurn]⟩
    · obtain ⟨i, r, h, hf, hl⟩ := hs.slot q (by simpa [acceptTurn, hqp] using hq)
      have hi : i ≠ s.receivedFederates := Nat.ne_of_lt (hs.fresh i r h)
      exact ⟨i, r, by simpa [acceptTurn, hi] using h, hf, hpc i r h ▸ hl⟩
  · rcases hr i r h with ⟨rfl, rfl⟩ | ⟨-, h⟩
    · exact hpN
    · exact hs.inTable i r h

lemma Inv.readFailed {fd : ℕ} (hs : Inv NUMBER_OF_FEDERATES s) :
    Inv NUMBER_OF_FEDERATES (acceptTurn s fd .readFailed) :=
  { hs with
    live := fun i r h hl =>
      ⟨by simp [acceptTurn, Function.update_apply, (hs.live i r h hl).1], (hs.live i r h hl).2⟩ }

lemma Inv.start {i : ℕ} {r : Reader} (hs : Inv NUMBER_OF_FEDERATES s)
    (hr : s.readers i = some r) (hpc : s.pcs i = .start) :
    Inv NUMBER_OF_FEDERATES
      { s with pcs := Function.update s.pcs i (.listening (s.slots r.fedId)) } := by
  have hslot := (hs.live i r hr (by simp [hpc])).2
  have hlive : ∀ j, Function.update s.pcs i (.listening (s.slots r.fedId)) j ≠ .exited ↔
      s.pcs j ≠ .exited := by
    intro j
    by_cases hj : j = i
    · subst hj; simp [hpc]
    · simp [Function.update_noteq hj]
  refine ⟨hs.fresh, hs.onePerPeer, fun j r' h => ?_,
    fun j r' h hl => hs.live j r' h ((hlive j).1 hl),
    fun j k r₁ r₂ h₁ h₂ hl₁ hl₂ =>
      hs.ownSocket j k r₁ r₂ h₁ h₂ ((hlive j).1 hl₁) ((hlive k).1 hl₂),
    fun q hq => ?_, hs.inTable⟩
  · by_cases hj : j = i
    · subst hj; cases hr.symm.trans h; simp [hslot]
    · simpa [Function.update_noteq hj] using hs.readsOwn j r' h
  · obtain ⟨j, r', h, hf, hl⟩ := hs.slot q hq
    exact ⟨j, r', h, hf, (hlive j).2 hl⟩

lemma Inv.exit {i : ℕ} {r : Reader} (hs : Inv NUMBER_OF_FEDERATES s)
    (hr : s.readers i = some r) (hpc : s.pcs i ≠ .exited) :
    Inv NUMBER_OF_FEDERATES
      { closeAndClear s r.fedId r.accepted with pcs := Function.update s.pcs i .exited } := by
  have hlive : ∀ j, Function.update s.pcs i .exited j ≠ .exited → j ≠ i ∧ s.pcs j ≠ .exited := by
    intro j hj
    by_cases hji : j = i
    · subst hji; simp at hj
    · exact ⟨hji, by simpa [Function.update_noteq hji] using hj⟩
  refine ⟨hs.fresh, hs.onePerPeer, fun j r' h => ?_, fun j r' h hl => ?_,
    fun j k r₁ r₂ h₁ h₂ hl₁ hl₂ => hs.ownSocket j k r₁ r₂ h₁ h₂ (hlive j hl₁).2 (hlive k hl₂).2,
    fun q hq => ?_, hs.inTable⟩
  · by_cases hj : j = i
    · subst hj; simp
    · simpa [Function.update_noteq hj] using hs.readsOwn j r' h
  · obtain ⟨hji, hl⟩ := hlive j hl
    have hf : r'.fedId ≠ r.fedId := fun e => hji (hs.onePerPeer j i r' r h hr e)
    have ha : r'.accepted ≠ r.accepted := fun e => hji (hs.ownSocket j i r' r h hr hl hpc e)
    have := hs.live j r' h hl
    simp [closeAndClear, Function.update_apply, hf, ha, this]
  · have hqr : q ≠ r.fedId := by rintro rfl; simp [closeAndClear] at hq
    obtain ⟨j, r', h, hf, hl⟩ := hs.slot q (by simpa [closeAndClear, hqr] using hq)
    have hji : j ≠ i := by
      rintro rfl
      cases hr.symm.trans h
      exact hqr hf.symm
    exact ⟨j, r', h, hf, by simpa [Function.update_noteq hji] using hl⟩

lemma Inv.listening {i : ℕ} {r : Reader} {socketId : ℤ} (hs : Inv NUMBER_OF_FEDERATES s)
    (hr : s.readers i = some r)
    (hpc : s.pcs i = .listening socketId) : socketId = r.accepted := by
  rcases hs.readsOwn i r hr with h' | h' | h' <;> rw [hpc] at h' <;> cases h'
  rfl

lemma listenTurn_cases {p : ℕ} {socketId : ℤ} {x : Input} {s₁ : St} {e : Bool}
    (h : listenTurn s p socketId x = some (s₁, e)) :
    (x = .p2pTimedMessage ∧ s₁ = s ∧ e = false) ∨
      (x = .unrecognized ∧ s₁ = closeAndClear s p socketId ∧ e = false) ∨
      ((x = .eof ∨ x = .error) ∧ s₁ = closeAndClear s p socketId ∧ e = true) := by
  unfold listenTurn at h
  split_ifs at h
  cases x <;> obtain ⟨rfl, rfl⟩ := Prod.mk.inj (Option.some.inj h) <;> simp

lemma next_read {n i : ℕ} {x : Input} {s' : St}
    (h : next NUMBER_OF_FEDERATES n s (.read i x) = some s') :
    ∃ r socketId s₁ e, s.readers i = some r ∧ s.pcs i = .listening socketId ∧
      listenTurn s r.fedId socketId x = some (s₁, e) ∧
      s' = { s₁ with
        pcs := Function.update s₁.pcs i (if e then .exited else .listening socketId) } := by
  simp only [next] at h
  split at h
  · obtain ⟨⟨s₁, e⟩, h₁, rfl⟩ := Option.map_eq_some'.mp h
    exact ⟨_, _, s₁, e, ‹_›, ‹_›, h₁, rfl⟩
  · cases h

lemma Inv.step {n : ℕ} {s' : St} {a : Act} (hs : Inv NUMBER_OF_FEDERATES s)
    (ha : distinctPeers s a = true) (h : next NUMBER_OF_FEDERATES n s a = some s') :
    Inv NUMBER_OF_FEDERATES s' := by
  cases a with
  | accept fd hand =>
    simp only [next] at h
    split_ifs at h with hc
    cases h
    cases hand with
    | accepted p =>
      refine hs.accept hc.2.1 (fun i r hi he => ?_) (of_decide_eq_true hc.2.2)
      simp only [distinctPeers, List.all_eq_true, List.mem_range] at ha
      simpa [hi, he] using ha i (hs.fresh i r hi)
    | rejected => exact hs
    | readFailed => exact hs.readFailed
  | start i =>
    simp only [next] at h
    split at h
    · cases h; exact hs.start ‹_› ‹_›
    · cases h
  | read i x =>
    obtain ⟨r, socketId, s₁, e, hr, hpc, ht, rfl⟩ := next_read h
    obtain rfl := hs.listening hr hpc
    rcases listenTurn_cases ht with ⟨-, rfl, rfl⟩ | ⟨rfl, -, -⟩ | ⟨-, rfl, rfl⟩
    · simp only [Bool.false_eq_true, if_false, ← hpc, Function.update_eq_self]
      exact hs
    · simp [distinctPeers] at ha
    · exact hs.exit hr (by simp [hpc])

end Step

lemma inv_of_reachable {N n : ℕ} {s : St} (h : Reachable N n distinctPeers s) : Inv N s :=
  runSteps_invariant _ _ (fun _ _ _ hs ha hn => hs.step ha hn) inv_init h.choose_spec

/-- Each peer has at most one reader, for a peer with a slot in the array; a slot that is set
holds the socket of the reader of its peer, which has not exited; a reader reads only the socket
accepted for it; readers that have not exited have distinct sockets; and a reader's next read
closes no socket and clears no slot but its own. -/
structure Owned (N n : ℕ) (s : St) : Prop where
  onePerPeer : ∀ i j r r', s.readers i = some r → s.readers j = some r' → r.fedId = r'.fedId →
    i = j
  inTable : ∀ i r, s.readers i = some r → r.fedId < N
  slot : ∀ p, s.slots p ≠ -1 →
    ∃ i r, s.readers i = some r ∧ r.fedId = p ∧ s.pcs i ≠ .exited ∧ s.slots p = r.accepted
  readsOwn : ∀ i r socketId, s.readers i = some r → s.pcs i = .listening socketId →
    socketId = r.accepted
  ownSocket : ∀ i j r r', s.readers i = some r → s.readers j = some r' → s.pcs i ≠ .exited →
    s.pcs j ≠ .exited → r.accepted = r'.accepted → i = j
  touchesOwn : ∀ i r x s', s.readers i = some r → next N n s (.read i x) = some s' →
    (∀ q, q ≠ r.fedId → s'.slots q = s.slots q) ∧ ∀ fd, fd ≠ r.accepted → s'.isOpen fd = s.isOpen fd

/-- **Each peer has one reader, which owns its slot and its socket.** In every run in which the
accepted handshakes name distinct peers below `NUMBER_OF_FEDERATES` and no reader meets an
unknown type byte, whatever the order of accepts, starts, messages, EOFs and errors. -/
theorem one_reader_owns_each_peer {N n : ℕ} {s : St} (h : Reachable N n distinctPeers s) :
    Owned N n s := by
  have hs := inv_of_reachable h
  refine ⟨hs.onePerPeer, hs.inTable, fun p hp => ?_, fun i r _ hr hpc => hs.listening hr hpc, hs.ownSocket,
    fun i r x s' hr hn => ?_⟩
  · obtain ⟨i, r, hr, hf, hl⟩ := hs.slot p hp
    exact ⟨i, r, hr, hf, hl, hf ▸ (hs.live i r hr hl).2⟩
  · obtain ⟨r', socketId, s₁, e, hr', hpc, ht, rfl⟩ := next_read hn
    cases hr.symm.trans hr'
    obtain rfl := hs.listening hr hpc
    rcases listenTurn_cases ht with ⟨-, rfl, -⟩ | ⟨-, rfl, -⟩ | ⟨-, rfl, -⟩
    · exact ⟨fun _ _ => rfl, fun _ _ => rfl⟩
    all_goals exact ⟨fun q hq => Function.update_noteq hq _ _,
      fun fd hfd => by simp [closeAndClear, Function.update_noteq hfd]⟩

theorem one_reader_owns_each_peer_two_peers :
    ∃ s, Reachable 2 2 distinctPeers s ∧ s.slots 0 = 3 ∧ s.slots 1 = -1 ∧ s.pcs 1 = .exited ∧
      Owned 2 2 s :=
  have h : Reachable 2 2 distinctPeers _ := ⟨[.accept 3 (.accepted 0), .accept 4 (.accepted 1),
    .start 0, .start 1, .read 0 .p2pTimedMessage, .read 1 .eof], rfl⟩
  ⟨_, h, rfl, rfl, rfl, one_reader_owns_each_peer h⟩

end LfFederate.P2P
