import Mathlib.Data.List.Basic
import Mathlib.Data.UInt

/-!
The 64-bit clock of the Arduino platform, rebuilt from the 32-bit microsecond counter
`micros()` (`lf_clock_gettime` in `lf_arduino_support.c`).

`_lf_time_us_high` is meant to count the wraps of the counter, detected when a reading is
below `_lf_time_us_low_last`, described as the last value read. Nothing ever writes
`_lf_time_us_low_last`, so it stays 0, no reading is below it, and the high word stays 0: the
clock reports the low word only and falls back to 0 at every wrap.
-/

namespace LfFederate.Clock

structure Globals where
  timeUsHigh : UInt32
  timeUsLowLast : UInt32
  deriving DecidableEq, Repr

def init : Globals := ⟨0, 0⟩

/-- `COMBINE_HI_LO(hi, lo)`, the `uint64_t` `(hi << 32) | lo`. -/
def combineHiLo (hi lo : UInt32) : ℕ := hi.toNat * 2 ^ 32 + lo.toNat

/-- A `uint64_t` stored into an `instant_t` (`int64_t`). -/
def toInstant (v : ℕ) : ℤ := if v < 2 ^ 63 then v else v - 2 ^ 64

/-- `lf_clock_gettime` when `micros()` returns `nowUsLow`: the globals after the call and the
time written into `*t`. -/
def lfClockGettime (s : Globals) (nowUsLow : UInt32) : Globals × ℤ :=
  let high := if nowUsLow < s.timeUsLowLast then s.timeUsHigh + 1 else s.timeUsHigh
  (⟨high, s.timeUsLowLast⟩, toInstant (combineHiLo high nowUsLow * 1000 % 2 ^ 64))

/-- The times reported by successive calls while the true microsecond count runs through `cs`;
`micros()` returns the count modulo `2 ^ 32`. -/
def times (s : Globals) : List ℕ → List ℤ
  | [] => []
  | c :: cs =>
    (lfClockGettime s (UInt32.ofNat c)).2 :: times (lfClockGettime s (UInt32.ofNat c)).1 cs

lemma toNat_ofNat (c : ℕ) : (UInt32.ofNat c).toNat = c % 2 ^ 32 := BitVec.toNat_ofNat c 32

lemma gettime_init (x : UInt32) :
    lfClockGettime init x = (init, ((x.toNat * 1000 : ℕ) : ℤ)) := by
  have hx : x.toNat < 2 ^ 32 := x.toNat_lt_size
  have hlt : ¬ x < 0 := by simp [UInt32.lt_def, BitVec.lt_def]
  simp only [lfClockGettime, init, hlt, if_false, combineHiLo, toInstant, UInt32.toNat_zero,
    zero_mul, zero_add, Prod.mk.injEq, true_and]
  rw [Nat.mod_eq_of_lt (by omega), if_pos (by omega)]

theorem times_init (cs : List ℕ) :
    times init cs = cs.map fun c => ((c % 2 ^ 32 * 1000 : ℕ) : ℤ) := by
  induction cs with
  | nil => rfl
  | cons c cs ih =>
    simp only [times, gettime_init, ih, List.map_cons, toNat_ofNat]

/-- The count crosses a wrap between two calls one microsecond apart: the second call reports
0 where `1000 * 2 ^ 32` is due. -/
theorem clock_gettime_wraps_back :
    times init [2 ^ 32 - 1, 2 ^ 32] = [(2 ^ 32 - 1) * 1000, 0] := by
  rw [times_init]
  decide

end LfFederate.Clock
