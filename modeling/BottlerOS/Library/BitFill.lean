import Mathlib.Data.Nat.Log
import Mathlib.Algebra.Order.Ring.Nat

/-! The bits below the highest one, filled by doubling, and powers of two. -/

namespace BottlerOS.BitFill

/-- A bit of `y` is set if one of the `n` bits of `x` from it on is. -/
def Spread (n x y : Nat) : Prop :=
  ∀ i, y.testBit i = true ↔ ∃ k, k < n ∧ x.testBit (i + k) = true

section
variable {n x y : Nat}

theorem spread_one (x : Nat) : Spread 1 x x := by
  intro i
  constructor
  · intro bit
    exact ⟨0, by omega, bit⟩
  · rintro ⟨k, hk, bit⟩
    obtain rfl : k = 0 := by omega
    exact bit

theorem Spread.double (h : Spread n x y) : Spread (n + n) x (y ||| y >>> n) := by
  intro i
  rw [Nat.testBit_or, Nat.testBit_shiftRight, Bool.or_eq_true, h i, h (n + i)]
  constructor
  · rintro (⟨k, hk, bit⟩ | ⟨k, hk, bit⟩)
    · exact ⟨k, by omega, bit⟩
    · refine ⟨n + k, by omega, ?_⟩
      rwa [← Nat.add_assoc, Nat.add_comm i n]
  · rintro ⟨k, hk, bit⟩
    rcases Nat.lt_or_ge k n with near | far
    · exact .inl ⟨k, near, bit⟩
    · refine .inr ⟨k - n, by omega, ?_⟩
      rwa [show n + i + (k - n) = i + k by omega]

/-- All bits up to the highest one. -/
theorem Spread.all (h : Spread n x y) (small : x < 2 ^ n) (some : x ≠ 0) :
    y + 1 = 2 ^ (x.log2 + 1) := by
  have filled : y = 2 ^ (x.log2 + 1) - 1 := by
    refine Nat.eq_of_testBit_eq fun i => ?_
    rw [Nat.testBit_two_pow_sub_one, Bool.eq_iff_iff, h i, decide_eq_true_iff]
    constructor
    · rintro ⟨k, -, bit⟩
      have := Nat.le_log2 some |>.mpr (Nat.ge_two_pow_of_testBit bit)
      omega
    · intro low
      refine ⟨x.log2 - i, ?_, ?_⟩
      · have := (Nat.log2_lt some).mpr small
        omega
      · rw [show i + (x.log2 - i) = x.log2 by omega]
        exact Nat.testBit_log2 some
  have := Nat.two_pow_pos (x.log2 + 1)
  omega

/-- A number that is no power of two lies below the next one. -/
theorem clog_of_not_power (some : x ≠ 0) (other : ¬ x.isPowerOfTwo) :
    Nat.clog 2 x = x.log2 + 1 := by
  have low := Nat.log2_self_le some
  have high := Nat.lt_log2_self (n := x)
  have above : 2 ^ x.log2 ≠ x := fun same => other ⟨x.log2, same.symm⟩
  apply Nat.le_antisymm
  · rw [Nat.clog_le_iff_le_pow (by omega)]
    omega
  · rw [Nat.succ_le_iff, Nat.lt_clog_iff_pow_lt (by omega)]
    omega

end

end BottlerOS.BitFill
