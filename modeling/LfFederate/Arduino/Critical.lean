import Mathlib.Data.List.Count
import Mathlib.Order.Basic

/-!
Nested critical sections on the Arduino platform (`lf_arduino_support.c`).

`lf_platform_enable_interrupts_nested` enters a critical section and
`lf_platform_disable_interrupts_nested` leaves one. The counter
`_lf_num_nested_critical_sections` holds the depth: interrupts go off when it leaves 0 and come
back on when it returns to 0, and leaving at depth 0 is refused with the return value 1. The
counter is a C `int` whose largest value is `intMax`; `x++` at `intMax` is undefined in C, and
the model wraps it to the least `int`, as the hardware does.
-/

namespace LfFederate.Critical

inductive Call
  | enter
  | exit
  deriving DecidableEq, Repr

structure St where
  numNestedCriticalSections : ℤ
  interruptsEnabled : Bool
  deriving DecidableEq, Repr

def init : St := ⟨0, true⟩

variable (intMax : ℤ)

/-- `x++` on an `int`. -/
def incr (x : ℤ) : ℤ := if x = intMax then -intMax - 1 else x + 1

def lfPlatformEnableInterruptsNested (s : St) : St × ℤ :=
  (⟨incr intMax s.numNestedCriticalSections,
    if s.numNestedCriticalSections = 0 then false else s.interruptsEnabled⟩, 0)

def lfPlatformDisableInterruptsNested (s : St) : St × ℤ :=
  if s.numNestedCriticalSections ≤ 0 then (s, 1)
  else
    let n := s.numNestedCriticalSections - 1
    (⟨n, if n = 0 then true else s.interruptsEnabled⟩, 0)

def call (s : St) : Call → St × ℤ
  | .enter => lfPlatformEnableInterruptsNested intMax s
  | .exit => lfPlatformDisableInterruptsNested s

/-- The state after the calls, and each call with the value it returned. -/
def run (s : St) : List Call → St × List (Call × ℤ)
  | [] => (s, [])
  | c :: cs =>
    ((run (call intMax s c).1 cs).1, (c, (call intMax s c).2) :: (run (call intMax s c).1 cs).2)

/-! ### The depth the calls should leave -/

/-- One more per enter, one less per exit; an exit at depth 0 changes nothing. -/
def depth : ℕ → List Call → ℕ
  | d, [] => d
  | d, .enter :: cs => depth (d + 1) cs
  | d, .exit :: cs => depth (d - 1) cs

/-- Every enter is made with fewer than `intMax` sections outstanding. -/
def NoOverflow : ℕ → List Call → Prop
  | _, [] => True
  | d, .enter :: cs => (d : ℤ) < intMax ∧ NoOverflow (d + 1) cs
  | d, .exit :: cs => NoOverflow (d - 1) cs

instance decNoOverflow : (d : ℕ) → (cs : List Call) → Decidable (NoOverflow intMax d cs)
  | _, [] => isTrue trivial
  | d, .enter :: cs =>
    have := decNoOverflow (d + 1) cs
    inferInstanceAs (Decidable ((d : ℤ) < intMax ∧ NoOverflow intMax (d + 1) cs))
  | d, .exit :: cs => decNoOverflow (d - 1) cs

def atDepth (d : ℕ) : St := ⟨d, decide (d = 0)⟩

@[simp] lemma atDepth_num (d : ℕ) : (atDepth d).numNestedCriticalSections = d := rfl
@[simp] lemma atDepth_irq (d : ℕ) : (atDepth d).interruptsEnabled = decide (d = 0) := rfl

lemma enter_atDepth {d : ℕ} (h : (d : ℤ) < intMax) :
    call intMax (atDepth d) .enter = (atDepth (d + 1), 0) := by
  have hne : (d : ℤ) ≠ intMax := by omega
  simp [call, lfPlatformEnableInterruptsNested, atDepth, incr, hne, Int.ofNat_eq_zero]

lemma exit_atDepth (d : ℕ) :
    call intMax (atDepth d) .exit = (atDepth (d - 1), if d = 0 then 1 else 0) := by
  rcases Nat.eq_zero_or_pos d with rfl | hd
  · simp [call, lfPlatformDisableInterruptsNested]
  · have hc : ((d - 1 : ℕ) : ℤ) = d - 1 := by omega
    have hz : ((d : ℤ) - 1 = 0 ↔ d - 1 = 0) := by omega
    have hp : ¬ (d : ℤ) ≤ 0 := by omega
    have hd0 : d ≠ 0 := by omega
    simp only [call, lfPlatformDisableInterruptsNested, atDepth_num, hp, if_false]
    simp [atDepth, hc, hz, hd0]

/-- **Refinement.** Without overflow the code tracks the depth exactly, interrupts are off
exactly when it is positive, and the refused exits are the exits made at depth 0. -/
theorem run_atDepth (d : ℕ) (cs : List Call) (h : NoOverflow intMax d cs) :
    (run intMax (atDepth d) cs).1 = atDepth (depth d cs) ∧
      depth d cs + (run intMax (atDepth d) cs).2.count (.exit, 0) = d + cs.count .enter := by
  induction cs generalizing d with
  | nil => simp [run, depth]
  | cons c cs ih =>
    cases c with
    | enter =>
      obtain ⟨ih1, ih2⟩ := ih (d + 1) h.2
      simp only [run, enter_atDepth intMax h.1, depth, ih1, List.count_cons, true_and]
      simp
      omega
    | exit =>
      obtain ⟨ih1, ih2⟩ := ih (d - 1) h
      simp only [run, exit_atDepth, depth, ih1, true_and]
      rcases Nat.eq_zero_or_pos d with rfl | hd
      · simpa using ih2
      · have hd0 : d ≠ 0 := by omega
        simp [hd0]
        omega

/-- What the counter should satisfy after the calls `ops` from boot, which returned `rets`. -/
structure Nested (s : St) (ops : List Call) (rets : List (Call × ℤ)) : Prop where
  nonneg : 0 ≤ s.numNestedCriticalSections
  count : s.numNestedCriticalSections = (ops.count .enter : ℤ) - (rets.count (.exit, 0) : ℤ)
  interrupts : s.interruptsEnabled = false ↔ 0 < s.numNestedCriticalSections
  refused : s.numNestedCriticalSections = 0 → lfPlatformDisableInterruptsNested s = (s, 1)

/-- **Nested critical sections.** From depth 0 with interrupts on, and with fewer than `intMax`
sections outstanding at each enter, the counter is never negative, equals the enters minus the
exits that returned 0, and is positive exactly when interrupts are off; an exit at depth 0
returns 1 and changes nothing. -/
theorem nested_critical_sections (ops : List Call) (h : NoOverflow intMax 0 ops) :
    Nested (run intMax init ops).1 ops (run intMax init ops).2 := by
  obtain ⟨h1, h2⟩ := run_atDepth intMax 0 ops h
  have hinit : init = atDepth 0 := rfl
  rw [hinit, h1]
  refine ⟨by simp only [atDepth_num]; omega, by simp; omega, by simp; omega, fun hz => ?_⟩
  simp only [atDepth_num] at hz
  simp [lfPlatformDisableInterruptsNested, hz]

theorem nested_critical_sections_extra_exit :
    NoOverflow 32767 0 [.enter, .enter, .exit, .exit, .exit] ∧
      Nested (run 32767 init [.enter, .enter, .exit, .exit, .exit]).1
        [.enter, .enter, .exit, .exit, .exit]
        (run 32767 init [.enter, .enter, .exit, .exit, .exit]).2 :=
  ⟨by decide, nested_critical_sections 32767 _ (by decide)⟩

end LfFederate.Critical
