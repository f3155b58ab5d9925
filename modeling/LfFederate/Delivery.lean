import LfFederate.Writers
import LfFederate.PeerReader

/-!
Timed messages from a federate to a peer over a physical connection, end to end.

The federate's threads call `send_message_timed` on the outbound socket to the peer in any
interleaving, and `write` cuts their frames as it likes; the peer's `listen_to_federates` thread
reads the bytes of that socket. Once every call has written all it has, the socket holds the
frames of the calls in the order they took the mutex, and the reader schedules exactly the
messages of these calls, in that order, before it meets EOF: none is lost, duplicated, reordered
or cut.
-/

namespace LfFederate.Delivery

open Wire Writers

/-- The calls begun on socket `k` by the steps `as`, in order. -/
def callsOn (k : Socket) (as : List Act) : List Call :=
  as.filterMap fun
    | .call _ c => if c.socket = some k then some c else none
    | _ => none

/-- `send_message_timed(socket, P2P_TIMED_MESSAGE, ...)` for the message `m`. -/
def p2pCall (c : Codes) (socket : Socket) (m : TimedMessage) : Call :=
  .sendMessageTimed socket c.P2P_TIMED_MESSAGE m.port m.federate m.payload m.timestamp

lemma callsOn_cons (k : Socket) (a : Act) (as : List Act) :
    callsOn k (a :: as) = callsOn k [a] ++ callsOn k as :=
  List.filterMap_append [a] as _

/-! ### The frames of a run -/

lemma frames_step {s s' : St} {a : Act} {k : Socket} (h : next s a = some s') :
    s'.frames k = s.frames k ++ (callsOn k [a]).map fun c => writesTo k c.program := by
  cases a with
  | call t c =>
    simp only [next] at h
    split_ifs at h
    cases h
    by_cases hc : c.socket = some k
    · simp [callsOn, hc, Call.begin_self hc]
    · simp [callsOn, hc, Call.begin_other hc]
  | write t n =>
    simp only [next] at h
    split at h
    · split_ifs at h
      cases h
      exact (List.append_nil _).symm
    · cases h
  | written t =>
    simp only [next] at h
    split at h
    · cases h
      exact (List.append_nil _).symm
    · cases h
  | unlock t =>
    simp only [next] at h
    split at h
    · cases h
      exact (List.append_nil _).symm
    · cases h

lemma frames_run {k : Socket} :
    ∀ {s s' : St} {as : List Act}, runSteps next (fun _ _ => true) s as = some s' →
      s'.frames k = s.frames k ++ (callsOn k as).map fun c => writesTo k c.program
  | _, _, [], h => by cases h; simp [callsOn]
  | s, _, a :: as, h => by
    obtain ⟨s₁, h₁, h₂⟩ := Option.bind_eq_some.mp h
    rw [frames_run h₂, frames_step h₁, callsOn_cons k a as, List.map_append, List.append_assoc]

lemma out_of_written {s : St} {k : Socket} (h : Reachable s) (hk : k.guarded)
    (hdone : ∀ t, writesTo k (s.threads t) = []) : s.out k = (s.frames k).flatten := by
  refine ((inv_of_reachable h).framed k hk).out_eq ?_
  unfold pendingOn
  split
  · exact hdone _
  · rfl

lemma writesTo_p2pCall (c : Codes) (k : Socket) (m : TimedMessage) :
    writesTo k (p2pCall c k m).program = PeerReader.frame c m := by
  simp [p2pCall, Call.program, PeerReader.frame]

lemma length_le_flatMap_frame (c : Codes) (ms : List TimedMessage) :
    ms.length ≤ (ms.flatMap (PeerReader.frame c)).length := by
  induction ms with
  | nil => exact le_rfl
  | cons m ms ih =>
    simp only [List.flatMap_cons, List.length_append, List.length_cons, PeerReader.frame]
    omega

/-- **Messages reach the peer whole, once each, in order.** Whatever the interleaving of the
federate's threads and however `write` cuts their frames: once every call has written all it has
on the outbound socket to federate `f`, and every call begun on that socket was a
`send_message_timed` of a `P2P_TIMED_MESSAGE` for `f`, the peer's `listen_to_federates`, reading
the socket to EOF, schedules exactly the messages of these calls, in the order the calls took
the mutex, and then closes the socket once. -/
theorem p2p_messages_delivered_in_order (c : Codes) {as : List Act} {s : St} {f : ℕ}
    {ms : List TimedMessage} (h : runSteps next (fun _ _ => true) init as = some s)
    (hcalls : callsOn (.outbound f) as = ms.map (p2pCall c (.outbound f)))
    (hms : ∀ m ∈ ms, Sendable f m) (hdone : ∀ t, writesTo (.outbound f) (s.threads t) = []) :
    PeerReader.run c f (s.out (.outbound f)) =
      ms.flatMap (fun m => [.readType, .handled m]) ++ [.readType, .closeAndClear] := by
  have hout : s.out (.outbound f) = ms.flatMap (PeerReader.frame c) := by
    rw [out_of_written ⟨as, h⟩ (by rfl) hdone, frames_run h, hcalls, List.map_map]
    simp only [init, List.nil_append, Function.comp_def, writesTo_p2pCall, List.flatMap]
  rw [PeerReader.run, hout]
  refine PeerReader.listenToFederates_frames c f hms ?_ []
  have := length_le_flatMap_frame c ms
  omega

def twoSends : List Act :=
  [.call 1 (p2pCall someCodes (.outbound 3) ⟨1, 3, 1, 10, [42]⟩), .write 1 9,
    .call 2 (.answer 5 [someCodes.ACK]), .write 1 8, .written 1, .write 2 1, .write 1 1,
    .written 1, .unlock 1, .written 2,
    .call 2 (p2pCall someCodes (.outbound 3) ⟨2, 3, 2, 11, [7, 8]⟩), .write 2 17, .written 2,
    .write 2 2, .written 2, .unlock 2]

theorem p2p_messages_delivered_in_order_two :
    ∃ s, runSteps next (fun _ _ => true) init twoSends = some s ∧
      callsOn (.outbound 3) twoSends =
        [⟨1, 3, 1, 10, [42]⟩, ⟨2, 3, 2, 11, [7, 8]⟩].map (p2pCall someCodes (.outbound 3)) ∧
      (∀ m ∈ [(⟨1, 3, 1, 10, [42]⟩ : TimedMessage), ⟨2, 3, 2, 11, [7, 8]⟩], Sendable 3 m) ∧
      (∀ t, writesTo (.outbound 3) (s.threads t) = []) ∧
      PeerReader.run someCodes 3 (s.out (.outbound 3)) =
        [(⟨1, 3, 1, 10, [42]⟩ : TimedMessage), ⟨2, 3, 2, 11, [7, 8]⟩].flatMap
          (fun m => [.readType, .handled m]) ++ [.readType, .closeAndClear] := by
  have hms : ∀ m ∈ [(⟨1, 3, 1, 10, [42]⟩ : TimedMessage), ⟨2, 3, 2, 11, [7, 8]⟩],
      Sendable 3 m := by
    simp only [List.mem_cons, List.mem_singleton, forall_eq_or_imp, forall_eq,
      List.not_mem_nil, false_imp_iff, implies_true, and_true]
    exact ⟨⟨by decide, rfl, by decide, rfl, by decide, by decide⟩,
      ⟨by decide, rfl, by decide, rfl, by decide, by decide⟩⟩
  refine (fun hdone => ⟨_, rfl, rfl, hms, hdone,
    @p2p_messages_delivered_in_order someCodes twoSends _ 3 _ rfl rfl hms hdone⟩) ?_
  intro t
  simp only [Function.update_apply]
  split_ifs <;> rfl

end LfFederate.Delivery
