import Mathlib.Data.Nat.Digits.Defs
import Mathlib.Data.Int.Basic

/-! Integers in decimal, as ASCII text. -/

namespace BottlerOS.Decimal

def digit (d : Nat) : UInt8 := UInt8.ofNat (48 + d)

def decimalNat (n : Nat) : List UInt8 :=
  if n = 0 then [digit 0] else ((Nat.digits 10 n).map digit).reverse

def decimal (n : Int) : List UInt8 :=
  if n < 0 then 45 :: decimalNat n.natAbs else decimalNat n.natAbs

/-- The last digits, `k` at most, the lowest first, by division of a signed number. -/
def lowDigits : (k : Nat) → Int → List UInt8
  | 0, _ => []
  | k + 1, n => if n = 0 then [] else UInt8.ofInt (48 + n.tmod 10) :: lowDigits k (n.tdiv 10)

theorem ofInt_toNat {x : Int} (lo : 0 ≤ x) (hi : x < 256) : (UInt8.ofInt x).toNat = x.toNat := by
  rw [UInt8.ofInt, UInt8.toNat_ofNat']
  omega

theorem lowDigits_nat (k n : Nat) : lowDigits k n = ((Nat.digits 10 n).take k).map digit := by
  induction k generalizing n with
  | zero => simp [lowDigits]
  | succ k ih =>
    rcases Nat.eq_zero_or_pos n with rfl | pos
    · simp [lowDigits]
    · rw [lowDigits, if_neg (by omega), Nat.digits_def' (by decide) pos, List.take_succ_cons,
        List.map_cons, ← ih]
      refine congrArg (· :: _) (UInt8.toNat_inj.mp ?_)
      have small : (n : Int).tmod 10 = (n % 10 : Nat) := rfl
      have := Nat.mod_lt n (show 10 > 0 by decide)
      rw [small, ofInt_toNat (by omega) (by omega), digit, UInt8.toNat_ofNat']
      omega

theorem lowDigits_length (k : Nat) (n : Int) :
    (lowDigits k n).length ≤ (Nat.digits 10 n.natAbs).length := by
  induction k generalizing n with
  | zero => simp [lowDigits]
  | succ k ih =>
    unfold lowDigits
    split <;> rename_i zero
    · simp
    · have := ih (n.tdiv 10)
      rw [Nat.digits_def' (by decide) (Int.natAbs_pos.mpr zero), List.length_cons, List.length_cons]
      rw [Int.natAbs_tdiv] at this
      exact Nat.succ_le_succ this

theorem lowDigits_length_le (k : Nat) (n : Int) : (lowDigits k n).length ≤ k := by
  induction k generalizing n with
  | zero => simp [lowDigits]
  | succ k ih =>
    unfold lowDigits
    split
    · exact Nat.zero_le _
    · exact Nat.succ_le_succ (ih _)

/-- A digit, or the character as far below `0` for a negative one. -/
theorem lowDigits_mem {k : Nat} {n : Int} {b : UInt8} (h : b ∈ lowDigits k n) :
    39 ≤ b.toNat ∧ b.toNat ≤ 57 := by
  induction k generalizing n with
  | zero => simp [lowDigits] at h
  | succ k ih =>
    unfold lowDigits at h
    split at h
    · cases h
    · rcases List.mem_cons.mp h with rfl | h
      · have := Int.tmod_lt_of_pos n (show (0 : Int) < 10 by decide)
        have := Int.lt_tmod_of_pos n (show (0 : Int) < 10 by decide)
        rw [ofInt_toNat (by omega) (by omega)]
        omega
      · exact ih h

end BottlerOS.Decimal
