import LfFederate.Arduino.Clock

/-!
Sleeping on the Arduino platform (`lf_sleep` and `lf_sleep_until_locked` in
`lf_arduino_support.c`).

`lf_sleep_until_locked(wakeup)` clears `_lf_async_event` and busy-waits, reading the clock with
`lf_clock_gettime`, until a reading is at or past `wakeup` or `lf_platform_notify_of_event` has
set the flag; it returns `-1` where the flag is set and `0` otherwise. `lf_sleep(d)` reads the
clock once and sleeps until `now + d`, a sum of two `instant_t`s: past the largest `instant_t`
it wraps to a negative wakeup time, which the first reading is already past.

The critical section the loop runs outside of is left out. The interrupts the loop sees are steps
of its environment, between its readings of the clock.
-/

namespace LfFederate.Sleep

open Clock

/-- What happens while `lf_sleep_until_locked` waits: `micros()` answers a reading of the clock,
or an interrupt runs `lf_platform_notify_of_event`. -/
inductive Event
  | micros (nowUsLow : UInt32)
  | notify
  deriving DecidableEq, Repr

/-- The `do`-`while` loop of `lf_sleep_until_locked(wakeup)` over `events`, `asyncEvent` the value
of `_lf_async_event`: the clock's globals, the last reading and the flag when the loop ends, or
`none` where the events run out first. -/
def busyWait (wakeup : ℤ) (clock : Globals) (asyncEvent : Bool) :
    List Event → Option (Globals × ℤ × Bool)
  | [] => none
  | .notify :: events => busyWait wakeup clock true events
  | .micros x :: events =>
    if (lfClockGettime clock x).2 < wakeup ∧ asyncEvent = false then
      busyWait wakeup (lfClockGettime clock x).1 asyncEvent events
    else some ((lfClockGettime clock x).1, (lfClockGettime clock x).2, asyncEvent)

/-- `lf_sleep_until_locked(wakeup)` while its loop sees `events`; `lateNotify` where an interrupt
runs `lf_platform_notify_of_event` after the loop and before the function reads the flag. The
clock's globals, the last reading and the value returned. -/
def lfSleepUntilLocked (wakeup : ℤ) (clock : Globals) (events : List Event) (lateNotify : Bool) :
    Option (Globals × ℤ × ℤ) :=
  (busyWait wakeup clock false events).map fun r =>
    (r.1, r.2.1, if r.2.2 || lateNotify then -1 else 0)

/-- `instant_t` addition, wrapping modulo `2 ^ 64` as the hardware adds; the overflow is
undefined in C. -/
def addInstant (a b : ℤ) : ℤ := toInstant ((a + b) % 2 ^ 64).toNat

/-- `lf_sleep(sleep_duration)` where `micros()` answers its own reading with `nowUsLow`. -/
def lfSleep (sleepDuration : ℤ) (clock : Globals) (nowUsLow : UInt32) (events : List Event)
    (lateNotify : Bool) : Option (Globals × ℤ × ℤ) :=
  lfSleepUntilLocked (addInstant (lfClockGettime clock nowUsLow).2 sleepDuration)
    (lfClockGettime clock nowUsLow).1 events lateNotify

/-! ### `lf_sleep_until_locked` -/

lemma busyWait_ends {wakeup : ℤ} {clock clock' : Globals} {asyncEvent asyncEvent' : Bool}
    {now : ℤ} {events : List Event}
    (h : busyWait wakeup clock asyncEvent events = some (clock', now, asyncEvent')) :
    (asyncEvent' = false → wakeup ≤ now) ∧
      (asyncEvent' = true → asyncEvent = true ∨ .notify ∈ events) := by
  induction events generalizing clock asyncEvent with
  | nil => cases h
  | cons e events ih =>
    cases e with
    | notify =>
      obtain ⟨h1, -⟩ := ih h
      exact ⟨h1, fun _ => .inr (List.mem_cons_self _ _)⟩
    | micros x =>
      simp only [busyWait] at h
      split_ifs at h with hlt
      · obtain ⟨h1, h2⟩ := ih h
        refine ⟨h1, fun ha => ?_⟩
        rcases h2 ha with h2 | h2
        · exact .inl h2
        · exact .inr (List.mem_cons_of_mem _ h2)
      · cases h
        exact ⟨fun ha => by simp only [ha, and_true, not_lt] at hlt; exact hlt, .inl⟩

lemma lfSleepUntilLocked_some {wakeup : ℤ} {clock clock' : Globals} {events : List Event}
    {lateNotify : Bool} {now r : ℤ}
    (h : lfSleepUntilLocked wakeup clock events lateNotify = some (clock', now, r)) :
    ∃ a, busyWait wakeup clock false events = some (clock', now, a) ∧
      r = if a || lateNotify then -1 else 0 := by
  obtain ⟨⟨c, n, a⟩, hb, he⟩ := Option.map_eq_some'.mp h
  simp only [Prod.mk.injEq] at he
  obtain ⟨rfl, rfl, rfl⟩ := he
  exact ⟨a, hb, rfl⟩

/-- **What `lf_sleep_until_locked` returns.** It returns `0` or `-1`; `0` only where its last
reading of the clock is at or past the wakeup time, and `-1` only where
`lf_platform_notify_of_event` ran during the sleep. -/
theorem lfSleepUntilLocked_returns {wakeup : ℤ} {clock clock' : Globals} {events : List Event}
    {lateNotify : Bool} {now r : ℤ}
    (h : lfSleepUntilLocked wakeup clock events lateNotify = some (clock', now, r)) :
    (r = 0 ∨ r = -1) ∧ (r = 0 → wakeup ≤ now) ∧
      (r = -1 → .notify ∈ events ∨ lateNotify) := by
  obtain ⟨a, hb, rfl⟩ := lfSleepUntilLocked_some h
  obtain ⟨h1, h2⟩ := busyWait_ends hb
  cases a <;> cases lateNotify <;> simp_all

theorem lfSleepUntilLocked_returns_second_reading :
    lfSleepUntilLocked 5000 init [.micros 1, .micros 6] false = some (init, 6000, 0) ∧
      ((0 : ℤ) = 0 ∨ (0 : ℤ) = -1) ∧ ((0 : ℤ) = 0 → (5000 : ℤ) ≤ 6000) ∧
      ((0 : ℤ) = -1 → Event.notify ∈ [Event.micros 1, .micros 6] ∨ false = true) :=
  have h : lfSleepUntilLocked 5000 init [.micros 1, .micros 6] false = some (init, 6000, 0) := rfl
  ⟨h, lfSleepUntilLocked_returns h⟩

/-! ### `lf_sleep` -/

lemma addInstant_eq {a b : ℤ} (h : -2 ^ 63 ≤ a + b ∧ a + b < 2 ^ 63) :
    addInstant a b = a + b := by
  unfold addInstant toInstant
  split_ifs <;> omega

/-- Where `now + d` fits in an `instant_t`, `lf_sleep(d)` returns `0` only after a reading of
the clock at or past `now + d`. -/
theorem lfSleep_returns_of_fits {d : ℤ} {clock clock' : Globals} {x : UInt32}
    {events : List Event} {lateNotify : Bool} {now : ℤ}
    (hd : -2 ^ 63 ≤ (lfClockGettime clock x).2 + d ∧ (lfClockGettime clock x).2 + d < 2 ^ 63)
    (h : lfSleep d clock x events lateNotify = some (clock', now, 0)) :
    (lfClockGettime clock x).2 + d ≤ now := by
  rw [lfSleep, addInstant_eq hd] at h
  obtain ⟨a, hb, h0⟩ := lfSleepUntilLocked_some h
  -- the value is `0` only where the loop saw no notification
  have ha : a = false := by
    cases a
    · rfl
    · simp only [Bool.true_or, if_true] at h0
      omega
  exact (busyWait_ends hb).1 ha

theorem lfSleep_returns_of_fits_two_readings :
    (-2 ^ 63 ≤ (lfClockGettime init 1).2 + 3000 ∧ (lfClockGettime init 1).2 + 3000 < 2 ^ 63) ∧
      lfSleep 3000 init 1 [.micros 2, .micros 5] false = some (init, 5000, 0) ∧
      (lfClockGettime init 1).2 + 3000 ≤ 5000 :=
  have hd : -2 ^ 63 ≤ (lfClockGettime init 1).2 + 3000 ∧
      (lfClockGettime init 1).2 + 3000 < 2 ^ 63 := by decide
  have h : lfSleep 3000 init 1 [.micros 2, .micros 5] false = some (init, 5000, 0) := rfl
  ⟨hd, h, lfSleep_returns_of_fits hd h⟩

/-- **A long sleep wraps.** From boot, where `micros()` reads `x`, a sleep whose end lies past
the largest `instant_t` returns `0` after one reading of the clock, which is `now` itself and
short of `now + d`. -/
theorem sleep_wakeup_wraps (x : UInt32) (d : ℤ)
    (hd : 2 ^ 63 - (x.toNat * 1000 : ℕ) ≤ d ∧ d < 2 ^ 63) :
    lfSleep d init x [.micros x] false = some (init, ((x.toNat * 1000 : ℕ) : ℤ), 0) ∧
      ((x.toNat * 1000 : ℕ) : ℤ) < (x.toNat * 1000 : ℕ) + d := by
  have hx : x.toNat < 2 ^ 32 := x.toNat_lt_size
  have hw : addInstant ((x.toNat * 1000 : ℕ) : ℤ) d < 0 := by
    have hs : (((x.toNat * 1000 : ℕ) : ℤ) + d) % 2 ^ 64 = (x.toNat * 1000 : ℕ) + d :=
      Int.emod_eq_of_lt (by omega) (by omega)
    rw [addInstant, hs, toInstant, if_neg (by omega)]
    omega
  refine ⟨?_, by omega⟩
  simp only [lfSleep, gettime_init, lfSleepUntilLocked, busyWait]
  rw [if_neg (by omega)]
  rfl

theorem sleep_wakeup_wraps_forever :
    (2 ^ 63 - ((1 : UInt32).toNat * 1000 : ℕ) ≤ (2 ^ 63 - 1 : ℤ) ∧
      (2 ^ 63 - 1 : ℤ) < 2 ^ 63) ∧
    lfSleep (2 ^ 63 - 1) init 1 [.micros 1] false =
      some (init, (((1 : UInt32).toNat * 1000 : ℕ) : ℤ), 0) ∧
    (((1 : UInt32).toNat * 1000 : ℕ) : ℤ) < ((1 : UInt32).toNat * 1000 : ℕ) + (2 ^ 63 - 1) :=
  ⟨⟨by decide, by decide⟩, sleep_wakeup_wraps 1 (2 ^ 63 - 1) ⟨by decide, by decide⟩⟩

end LfFederate.Sleep
