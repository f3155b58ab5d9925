import LfFederate.Wire
import LfFederate.Arduino.Sleep

/-!
The start of a federate's run: `synchronize_with_other_federates` asks the RTI for the start
time with `get_start_time_from_rti`, sets the federate's times from the reply, and only then
starts the `listen_to_rti` thread on what follows the reply on the RTI socket.

The federate writes `TIMESTAMP` and its physical time; the RTI answers with `TIMESTAMP` and the
start time, nine bytes. A socket that closes before nine bytes, or a reply of another type, ends
the process. Where a duration is given, `stop_time` is `current_time + duration`, a sum of two
`instant_t`s that wraps past the largest one. The wait for physical time to reach the start time
and the reading of `physical_start_time` after it are left out.
-/

namespace LfFederate.Start

open Wire

/-- `get_start_time_from_rti(myPhysicalTime)` on an RTI socket that holds `reply`: the bytes it
writes to the RTI, and the start time with the bytes left on the socket, or `none` where the
process exits. -/
def getStartTimeFromRti (c : Codes) (myPhysicalTime : ℤ) (reply : Bytes) :
    Bytes × Option (ℤ × Bytes) :=
  (sendTime c.TIMESTAMP myPhysicalTime,
    match readFromSocket 9 reply with
    | some (buffer, rest) =>
      if buffer.headD 0 ≠ c.TIMESTAMP then none else some (extractLl (buffer.drop 1), rest)
    | none => none)

structure Times where
  currentTime : ℤ
  startTime : ℤ
  stopTime : ℤ
  deriving DecidableEq, Repr

/-- `synchronize_with_other_federates` with the globals `duration` and `stop_time`, the clock
reading `physicalTime` and the RTI socket holding `reply`: the bytes written to the RTI, and the
times it sets with the bytes the `listen_to_rti` thread it starts reads, or `none` where the
process exits. -/
def synchronizeWithOtherFederates (c : Codes) (duration stopTime physicalTime : ℤ)
    (reply : Bytes) : Bytes × Option (Times × Bytes) :=
  ((getStartTimeFromRti c physicalTime reply).1,
    (getStartTimeFromRti c physicalTime reply).2.map fun r =>
      (⟨r.1, r.1, if 0 ≤ duration then Sleep.addInstant r.1 duration else stopTime⟩, r.2))

/-! ### The reply -/

lemma getStartTimeFromRti_sendTime (c : Codes) (p : ℤ) {t : ℤ} (rest : Bytes)
    (ht : -2 ^ 63 ≤ t ∧ t < 2 ^ 63) :
    (getStartTimeFromRti c p (sendTime c.TIMESTAMP t ++ rest)).2 = some (t, rest) := by
  have hread := readFromSocket_append rest (show (sendTime c.TIMESTAMP t).length = 9 by
    simp [sendTime])
  simp only [getStartTimeFromRti, hread]
  simp only [sendTime, List.headD_cons, ne_eq, not_true_eq_false, if_false, List.drop_one,
    List.tail_cons]
  rw [← List.append_nil (encodeLl t), extractLl_encode t [] ht]

lemma getStartTimeFromRti_sound {c : Codes} {p t : ℤ} {reply rest : Bytes}
    (h : (getStartTimeFromRti c p reply).2 = some (t, rest)) :
    reply = sendTime c.TIMESTAMP t ++ rest ∧ -2 ^ 63 ≤ t ∧ t < 2 ^ 63 := by
  simp only [getStartTimeFromRti] at h
  split at h
  · rename_i buffer s h9
    obtain ⟨rfl, hlen⟩ := readFromSocket_eq_some h9
    split_ifs at h with hb
    cases h
    match buffer, hlen with
    | b :: tl, hlen =>
      simp only [List.headD_cons, not_not] at hb
      simp only [List.length_cons, add_left_inj] at hlen
      refine ⟨?_, extractLl_range _⟩
      rw [sendTime, List.drop_one, List.tail_cons, encodeLl_extractLl (by omega),
        List.take_of_length_le (by omega), hb, List.cons_append]
  · cases h

/-- **The start time is the one the RTI's reply carries.** `get_start_time_from_rti` returns a
start time, leaving `rest` on the socket, exactly where the socket begins with the nine bytes
`TIMESTAMP` and that time as `send_time` writes them: it adopts no time from a reply of
another type or a short one, and reads no byte past the reply. -/
theorem start_time_is_the_rti_reply (c : Codes) (p t : ℤ) (reply rest : Bytes) :
    (getStartTimeFromRti c p reply).2 = some (t, rest) ↔
      reply = sendTime c.TIMESTAMP t ++ rest ∧ -2 ^ 63 ≤ t ∧ t < 2 ^ 63 :=
  ⟨getStartTimeFromRti_sound, fun ⟨h, ht⟩ => h ▸ getStartTimeFromRti_sendTime c p rest ht⟩

/-- The times `synchronize_with_other_federates` sets: logical time starts at the start time, and
with a duration that is not negative `stop_time` is the start time plus the duration where the
sum fits in an `instant_t`, and an earlier time than the start where it does not. -/
lemma synchronizeWithOtherFederates_times {c : Codes} {duration stopTime physicalTime : ℤ}
    {reply rest : Bytes} {times : Times}
    (h : (synchronizeWithOtherFederates c duration stopTime physicalTime reply).2 =
      some (times, rest))
    (hd : 0 ≤ duration ∧ duration < 2 ^ 63) :
    times.currentTime = times.startTime ∧
      (times.startTime + duration < 2 ^ 63 → times.stopTime = times.startTime + duration) ∧
      (2 ^ 63 ≤ times.startTime + duration → times.stopTime < times.startTime) := by
  simp only [synchronizeWithOtherFederates, Option.map_eq_some'] at h
  obtain ⟨⟨t, rest'⟩, hr, he⟩ := h
  cases he
  obtain ⟨-, ht⟩ := getStartTimeFromRti_sound hr
  simp only [if_pos hd.1, Sleep.addInstant, Clock.toInstant, true_and]
  constructor <;> intro hs <;> split_ifs <;> omega

end LfFederate.Start
