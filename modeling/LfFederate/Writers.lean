import LfFederate.Run
import LfFederate.Wire
import Mathlib.Logic.Function.Basic

/-!
The writes of the federate's threads to its sockets once `synchronize_with_other_federates` has
returned.

`write_to_socket` loops over `write`, which may put any nonempty part of what is left on the
socket, so a frame reaches its socket in several chunks and other threads run in between. The
main thread sends its NET, LTC and STOP frames with `send_time` while it holds the mutex, as the
callers of `__next_event_time`, `__logical_time_complete` and `__broadcast_stop` must;
`send_message_timed` takes the mutex itself around the writes of its header and its payload; the
threads that handle the messages of the RTI and of the peers only lock and unlock it; and the
accept thread answers, without the mutex, on the sockets it accepted. So every byte written to the
RTI socket or to an outbound socket is written by the thread holding the mutex, and the frames on
each of them follow one another whole.
-/

namespace LfFederate.Writers

open LfFederate.Wire

/-- The sockets of a federate: the one to the RTI, the outbound ones it opened to its peers, and
the inbound ones the accept thread accepted. Only the inbound ones are written without the
mutex. -/
inductive Socket
  | rti
  | outbound (federate : ℕ)
  | inbound (fd : ℕ)
  deriving DecidableEq, Repr

def Socket.guarded : Socket → Bool
  | .inbound _ => false
  | _ => true

/-- What is left of a call: a `write_to_socket` of the rest of a buffer, or the
`pthread_mutex_unlock` that ends `send_message_timed`. -/
inductive Instr
  | writeToSocket (socket : Socket) (buffer : Bytes)
  | unlock
  deriving DecidableEq, Repr

/-- The calls by which a thread writes to a socket or takes or leaves the mutex:
`send_message_timed` with the logical time it reads, `send_time` (from `__next_event_time`,
`__logical_time_complete` or `__broadcast_stop`), the accept thread's `ACK` or `REJECT` on a
socket it accepted, and `pthread_mutex_lock` and `pthread_mutex_unlock`, also around
`pthread_cond_wait`. -/
inductive Call
  | sendMessageTimed (socket : Socket) (messageType : UInt8) (port federate : ℕ)
      (message : Bytes) (currentTime : ℤ)
  | sendTime (type : UInt8) (time : ℤ)
  | answer (fd : ℕ) (response : Bytes)
  | lock
  | unlock
  deriving DecidableEq, Repr

/-- What the call leaves its thread to do once started; `send_message_timed` has then taken the
mutex. -/
def Call.program : Call → List Instr
  | .sendMessageTimed socket messageType port federate message currentTime =>
    [.writeToSocket socket (messageType :: timedHeader port federate message.length currentTime),
      .writeToSocket socket message, .unlock]
  | .sendTime type time => [.writeToSocket .rti (Wire.sendTime type time)]
  | .answer fd response => [.writeToSocket (.inbound fd) response]
  | .lock | .unlock => []

def Call.socket : Call → Option Socket
  | .sendMessageTimed socket .. => some socket
  | .sendTime .. => some .rti
  | .answer fd _ => some (.inbound fd)
  | .lock | .unlock => none

/-- Whether thread `t` can start the call when `mutex` is the holder of the mutex: the lock of
`send_message_timed` and `pthread_mutex_lock` wait for a free mutex, `send_time` and the unlock
are called by the holder, and the assertions of `send_message_timed` hold. -/
def Call.enabled (t : ℕ) (mutex : Option ℕ) : Call → Bool
  | .sendMessageTimed _ _ port federate _ _ => mutex == none && port < 65536 && federate < 65536
  | .sendTime .. => mutex == some t
  | .answer .. => true
  | .lock => mutex == none
  | .unlock => mutex == some t

def Call.holder (t : ℕ) (mutex : Option ℕ) : Call → Option ℕ
  | .sendMessageTimed .. | .lock => some t
  | .unlock => none
  | _ => mutex

def writesTo (k : Socket) : List Instr → Bytes
  | [] => []
  | .writeToSocket socket buffer :: is => (if socket = k then buffer else []) ++ writesTo k is
  | .unlock :: is => writesTo k is

/-- The holder of `mutex`, what each thread has left of its call, the bytes written to each
socket, and the frames begun on each socket, in order, the bytes of one call each. -/
structure St where
  mutex : Option ℕ
  threads : ℕ → List Instr
  out : Socket → Bytes
  frames : Socket → List Bytes

def init : St := ⟨none, fun _ => [], fun _ => [], fun _ => []⟩

def Call.begin (c : Call) (frames : Socket → List Bytes) : Socket → List Bytes :=
  match c.socket with
  | some k => Function.update frames k (frames k ++ [writesTo k c.program])
  | none => frames

/-- A step of thread `t`: it starts a call, one `write` puts `n` more bytes of its buffer on the
socket, its `write_to_socket` returns, or `send_message_timed` unlocks the mutex. -/
inductive Act
  | call (t : ℕ) (c : Call)
  | write (t n : ℕ)
  | written (t : ℕ)
  | unlock (t : ℕ)

def next (s : St) : Act → Option St
  | .call t c =>
    if s.threads t = [] ∧ c.enabled t s.mutex then
      some ⟨c.holder t s.mutex, Function.update s.threads t c.program, s.out, c.begin s.frames⟩
    else none
  | .write t n =>
    match s.threads t with
    | .writeToSocket k b :: is =>
      if 0 < n ∧ n ≤ b.length then
        some ⟨s.mutex, Function.update s.threads t (.writeToSocket k (b.drop n) :: is),
          Function.update s.out k (s.out k ++ b.take n), s.frames⟩
      else none
    | _ => none
  | .written t =>
    match s.threads t with
    | .writeToSocket _ [] :: is => some { s with threads := Function.update s.threads t is }
    | _ => none
  | .unlock t =>
    match s.threads t with
    | .unlock :: is => some ⟨none, Function.update s.threads t is, s.out, s.frames⟩
    | _ => none

/-- A state some run from the start reaches; any thread may take any step. -/
def Reachable (s : St) : Prop := ∃ as, runSteps next (fun _ _ => true) init as = some s

lemma Reachable.invariant {P : St → Prop} (h₀ : P init)
    (hstep : ∀ s a s', P s → next s a = some s' → P s') {s : St} (h : Reachable s) : P s :=
  runSteps_invariant next _ (fun s a s' hs _ => hstep s a s' hs) h₀ h.choose_spec

/-! ### What is left to write -/

@[simp] lemma writesTo_nil (k : Socket) : writesTo k [] = [] := rfl

@[simp] lemma writesTo_writeToSocket (k socket : Socket) (buffer : Bytes) (is : List Instr) :
    writesTo k (.writeToSocket socket buffer :: is) =
      (if socket = k then buffer else []) ++ writesTo k is := rfl

@[simp] lemma writesTo_unlock (k : Socket) (is : List Instr) :
    writesTo k (.unlock :: is) = writesTo k is := rfl

def Instr.needsMutex : Instr → Bool
  | .writeToSocket k _ => k.guarded
  | .unlock => true

def pendingOn (s : St) (k : Socket) : Bytes :=
  match s.mutex with
  | some t => writesTo k (s.threads t)
  | none => []

/-- The bytes on socket `k` are the frames begun on it, in order, all written whole but the last,
whose rest the holder of the mutex has left to write. -/
def Framed (s : St) (k : Socket) : Prop :=
  (s.frames k = [] ∧ s.out k = [] ∧ pendingOn s k = []) ∨
    ∃ done p, s.frames k = done ++ [p ++ pendingOn s k] ∧ s.out k = done.flatten ++ p

/-- What holds in every reachable state: only the holder of the mutex has a guarded write or the
unlock left, the unlock comes last, and every guarded socket is framed. -/
structure Inv (s : St) : Prop where
  owner : ∀ t, ∀ i ∈ s.threads t, i.needsMutex → s.mutex = some t
  lastUnlock : ∀ t is, Instr.unlock :: is <:+ s.threads t → is = []
  framed : ∀ k, k.guarded → Framed s k

section Framed

variable {s s' : St} {k : Socket}

lemma Framed.out_eq (h : Framed s k) (hp : pendingOn s k = []) :
    s.out k = (s.frames k).flatten := by
  rcases h with ⟨hf, ho, -⟩ | ⟨done, p, hf, ho⟩
  · rw [hf, ho]; rfl
  · rw [hf, ho, hp]; simp

lemma Framed.congr (h : Framed s k) (ho : s'.out k = s.out k) (hf : s'.frames k = s.frames k)
    (hp : pendingOn s' k = pendingOn s k) : Framed s' k := by
  unfold Framed; rw [ho, hf, hp]; exact h

lemma Framed.begin (h : Framed s k) (hp : pendingOn s k = []) (ho : s'.out k = s.out k)
    (hf : s'.frames k = s.frames k ++ [pendingOn s' k]) : Framed s' k :=
  .inr ⟨s.frames k, [], hf, by rw [ho, h.out_eq hp, List.append_nil]⟩

lemma Framed.write (h : Framed s k) {b r : Bytes} {n : ℕ} (hp : pendingOn s k = b ++ r)
    (hp' : pendingOn s' k = b.drop n ++ r) (ho : s'.out k = s.out k ++ b.take n)
    (hf : s'.frames k = s.frames k) : Framed s' k := by
  rcases h with ⟨hfr, hout, hnil⟩ | ⟨done, p, hfr, hout⟩
  · obtain ⟨rfl, rfl⟩ := List.append_eq_nil.mp (hp.symm.trans hnil)
    exact .inl ⟨hf.trans hfr, by simp [ho, hout], by simp [hp']⟩
  · refine .inr ⟨done, p ++ b.take n, ?_, by rw [ho, hout, List.append_assoc]⟩
    rw [hf, hfr, hp, hp', List.append_assoc, ← List.append_assoc (b.take n),
      List.take_append_drop]

end Framed

/-! ### One step keeps the invariant -/

section Step

variable {s : St} {t : ℕ} {k : Socket}

lemma pendingOn_update {m : Option ℕ} {th : ℕ → List Instr} {out out' : Socket → Bytes}
    {frames frames' : Socket → List Bytes} {is : List Instr}
    (h : writesTo k is = writesTo k (th t)) :
    pendingOn ⟨m, Function.update th t is, out, frames⟩ k = pendingOn ⟨m, th, out', frames'⟩ k := by
  cases m with
  | none => rfl
  | some u =>
    by_cases hu : u = t
    · subst hu; simp [pendingOn, h]
    · simp [pendingOn, Function.update_noteq hu]

lemma owner_update {m : Option ℕ} {th : ℕ → List Instr} {l : List Instr}
    (h : ∀ u, u ≠ t → ∀ i ∈ th u, i.needsMutex → m = some u)
    (hl : ∀ i ∈ l, i.needsMutex → m = some t) :
    ∀ u, ∀ i ∈ Function.update th t l u, i.needsMutex → m = some u :=
  (Function.forall_update_iff th fun u l => ∀ i ∈ l, i.needsMutex → m = some u).2 ⟨hl, h⟩

lemma lastUnlock_update {th : ℕ → List Instr} {l : List Instr}
    (h : ∀ u is, Instr.unlock :: is <:+ th u → is = [])
    (hl : ∀ is, Instr.unlock :: is <:+ l → is = []) :
    ∀ u is, Instr.unlock :: is <:+ Function.update th t l u → is = [] :=
  (Function.forall_update_iff th fun _ l => ∀ is, Instr.unlock :: is <:+ l → is = []).2
    ⟨hl, fun u _ => h u⟩

lemma Call.holder_owns {c : Call} {m : Option ℕ} (he : c.enabled t m = true) :
    (∀ i ∈ c.program, i.needsMutex → c.holder t m = some t) ∧
      ∀ u, u ≠ t → m = some u → c.holder t m = some u := by
  cases c <;>
    simp_all [Call.enabled, Call.holder, Call.program, Instr.needsMutex, Socket.guarded]
  exact fun u hu e => hu e.symm

lemma Call.unlock_last (c : Call) : ∀ is, Instr.unlock :: is <:+ c.program → is = [] := by
  cases c <;> simp [Call.program, List.suffix_cons_iff]

lemma Call.begin_self {c : Call} {frames : Socket → List Bytes} (hc : c.socket = some k) :
    c.begin frames k = frames k ++ [writesTo k c.program] := by
  simp [Call.begin, hc]

lemma Call.begin_other {c : Call} {frames : Socket → List Bytes} (hc : c.socket ≠ some k) :
    c.begin frames k = frames k := by
  unfold Call.begin
  cases h : c.socket with
  | none => rfl
  | some k' => exact Function.update_noteq (fun e => hc (by rw [h, e])) _ _

lemma Call.writesTo_other {c : Call} (hk : k.guarded) (hc : c.socket ≠ some k) :
    writesTo k c.program = [] := by
  cases c <;> cases k <;> simp_all [Call.socket, Call.program, Socket.guarded]

lemma Call.pendingOn_begin {c : Call} (hk : k.guarded) (h0 : s.threads t = [])
    (he : c.enabled t s.mutex = true) (hc : c.socket = some k) : pendingOn s k = [] := by
  cases c <;> cases k <;>
    simp_all [Call.socket, Call.enabled, pendingOn, Socket.guarded]

lemma Call.pendingOn_call {c : Call} (hk : k.guarded) (h0 : s.threads t = [])
    (he : c.enabled t s.mutex = true) :
    pendingOn
        ⟨c.holder t s.mutex, Function.update s.threads t c.program, s.out, c.begin s.frames⟩ k =
      writesTo k c.program ++ pendingOn s k := by
  cases c with
  | answer fd response =>
    have hw : writesTo k (Call.answer fd response).program = [] :=
      Call.writesTo_other hk (by cases k <;> simp_all [Call.socket, Socket.guarded])
    rw [hw, List.nil_append]
    exact pendingOn_update (by rw [hw, h0]; rfl)
  | _ => simp_all [Call.enabled, Call.holder, Call.program, pendingOn]

lemma Inv.call {c : Call} (hs : Inv s) (h0 : s.threads t = []) (he : c.enabled t s.mutex = true) :
    Inv ⟨c.holder t s.mutex, Function.update s.threads t c.program, s.out, c.begin s.frames⟩ := by
  obtain ⟨hmine, hother⟩ := Call.holder_owns he
  refine ⟨owner_update (fun u hu i hi hn => hother u hu (hs.owner u i hi hn)) hmine,
    lastUnlock_update hs.lastUnlock c.unlock_last, fun k hk => ?_⟩
  have hp := Call.pendingOn_call hk h0 he
  by_cases hc : c.socket = some k
    -- the call begins a frame on `k`
  · have hnil := Call.pendingOn_begin hk h0 he hc
    rw [hnil, List.append_nil] at hp
    exact (hs.framed k hk).begin hnil rfl (by rw [hp]; exact Call.begin_self hc)
    -- the call leaves `k` alone
  · rw [Call.writesTo_other hk hc, List.nil_append] at hp
    exact (hs.framed k hk).congr rfl (Call.begin_other hc) hp

lemma Inv.write {k' : Socket} {b : Bytes} {is : List Instr} {n : ℕ} (hs : Inv s)
    (hth : s.threads t = .writeToSocket k' b :: is) :
    Inv ⟨s.mutex, Function.update s.threads t (.writeToSocket k' (b.drop n) :: is),
      Function.update s.out k' (s.out k' ++ b.take n), s.frames⟩ := by
  refine ⟨owner_update (fun u _ => hs.owner u) fun i hi hn => ?_,
    lastUnlock_update hs.lastUnlock fun js h => ?_, fun k hk => ?_⟩
  · rcases List.mem_cons.mp hi with rfl | hi
    · exact hs.owner t (.writeToSocket k' b) (hth ▸ List.mem_cons_self _ _) hn
    · exact hs.owner t i (hth ▸ List.mem_cons_of_mem _ hi) hn
  · rcases List.suffix_cons_iff.mp h with h | h
    · cases h
    · exact hs.lastUnlock t js (hth ▸ h.trans (List.suffix_cons _ _))
  by_cases hk' : k' = k
    -- the bytes go to `k`, whose writer is `t`
  · subst hk'
    have hm : s.mutex = some t := hs.owner t (.writeToSocket k' b) (hth ▸ List.mem_cons_self _ _) hk
    exact (hs.framed k' hk).write (b := b) (r := writesTo k' is) (n := n)
      (by simp [pendingOn, hm, hth]) (by simp [pendingOn, hm]) (by simp) rfl
    -- the bytes go elsewhere
  · exact (hs.framed k hk).congr (Function.update_noteq (Ne.symm hk') _ _) rfl
      (pendingOn_update (by simp [hth, hk']))

lemma Inv.written {k' : Socket} {is : List Instr} (hs : Inv s)
    (hth : s.threads t = .writeToSocket k' [] :: is) :
    Inv { s with threads := Function.update s.threads t is } :=
  ⟨owner_update (fun u _ => hs.owner u) fun i hi => hs.owner t i (hth ▸ List.mem_cons_of_mem _ hi),
    lastUnlock_update hs.lastUnlock fun js h =>
      hs.lastUnlock t js (hth ▸ h.trans (List.suffix_cons _ _)),
    fun k hk => (hs.framed k hk).congr rfl rfl (pendingOn_update (by simp [hth]))⟩

lemma Inv.unlock {is : List Instr} (hs : Inv s) (hth : s.threads t = .unlock :: is) :
    Inv ⟨none, Function.update s.threads t is, s.out, s.frames⟩ := by
  obtain rfl : is = [] := hs.lastUnlock t is (hth ▸ List.suffix_refl _)
  have hm : s.mutex = some t := hs.owner t .unlock (by simp [hth]) rfl
  refine ⟨owner_update (fun u hu i hi hn => ?_) (by simp),
    lastUnlock_update hs.lastUnlock (by simp),
    fun k hk => (hs.framed k hk).congr rfl rfl (by simp [pendingOn, hm, hth])⟩
  exact absurd (Option.some.inj ((hs.owner u i hi hn).symm.trans hm)) hu

lemma Inv.step {s' : St} {a : Act} (hs : Inv s) (h : next s a = some s') : Inv s' := by
  cases a with
  | call t c =>
    simp only [next] at h
    split_ifs at h with hc
    cases h
    exact hs.call hc.1 hc.2
  | write t n =>
    simp only [next] at h
    split at h
    · split_ifs at h
      cases h
      exact hs.write ‹_›
    · cases h
  | written t =>
    simp only [next] at h
    split at h
    · cases h
      exact hs.written ‹_›
    · cases h
  | unlock t =>
    simp only [next] at h
    split at h
    · cases h
      exact hs.unlock ‹_›
    · cases h

end Step

lemma inv_init : Inv init :=
  ⟨by simp [init], by simp [init], fun _ _ => .inl ⟨rfl, rfl, rfl⟩⟩

lemma inv_of_reachable {s : St} (h : Reachable s) : Inv s :=
  Reachable.invariant inv_init (fun _ _ _ hs hn => hs.step hn) h

/-! ### Frames follow one another whole -/

/-- **Frames are never interleaved.** In every reachable state, whatever the threads did and
however `write` cut their buffers, the bytes on the RTI socket or on an outbound socket are the
frames begun on it, in the order they were begun: all of them whole, or all but the last whole
and a first part of the last, whose rest the thread holding the mutex has left to write. -/
theorem frames_not_interleaved {s : St} {k : Socket} (h : Reachable s) (hk : k.guarded) :
    (s.frames k = [] ∧ s.out k = []) ∨
      ∃ done p q, s.frames k = done ++ [p ++ q] ∧ s.out k = done.flatten ++ p ∧
        (q = [] ∨ ∃ t, s.mutex = some t ∧ q = writesTo k (s.threads t)) := by
  rcases (inv_of_reachable h).framed k hk with ⟨hf, ho, -⟩ | ⟨done, p, hf, ho⟩
  · exact .inl ⟨hf, ho⟩
  · refine .inr ⟨done, p, pendingOn s k, hf, ho, ?_⟩
    unfold pendingOn
    cases s.mutex with
    | none => exact .inl rfl
    | some t => exact .inr ⟨t, rfl, rfl⟩

theorem frames_not_interleaved_first_write :
    ∃ s, Reachable s ∧ (s.out .rti).length = 10 ∧
      ((s.frames .rti = [] ∧ s.out .rti = []) ∨
        ∃ done p q, s.frames .rti = done ++ [p ++ q] ∧ s.out .rti = done.flatten ++ p ∧
          (q = [] ∨ ∃ t, s.mutex = some t ∧ q = writesTo .rti (s.threads t))) :=
  have h : Reachable _ := ⟨[.call 1 (.sendMessageTimed .rti 5 1 2 [7] 0), .write 1 10], rfl⟩
  ⟨_, h, rfl, frames_not_interleaved h rfl⟩

/-- **One writer at a time.** In every reachable state at most one thread has a write to the RTI
socket or an outbound socket in progress or ahead of it in its call. -/
theorem one_writer_at_a_time {s : St} {t u : ℕ} {i j : Instr} (h : Reachable s)
    (hi : i ∈ s.threads t) (hj : j ∈ s.threads u) (hni : i.needsMutex) (hnj : j.needsMutex) :
    t = u :=
  Option.some.inj (((inv_of_reachable h).owner t i hi hni).symm.trans
    ((inv_of_reachable h).owner u j hj hnj))

theorem one_writer_at_a_time_sending :
    ∃ s, Reachable s ∧ Instr.unlock ∈ s.threads 1 ∧ Instr.unlock.needsMutex = true ∧ 1 = 1 :=
  have h : Reachable _ := ⟨[.call 1 (.sendMessageTimed .rti 5 1 2 [7] 0)], rfl⟩
  have hi : Instr.unlock ∈ _ := List.mem_cons_of_mem _ (List.mem_cons_of_mem _ (.head _))
  ⟨_, h, hi, rfl, one_writer_at_a_time h hi hi rfl rfl⟩

end LfFederate.Writers
