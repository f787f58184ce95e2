import Mathlib.Data.List.TakeWhile
import Mathlib.Data.Nat.Digits.Defs

/-! Numbers as ASCII numerals to a base: what a number looks like, and what a numeral stands for. -/

namespace BottlerOS.Numeral

def digitChar (d : Nat) : Int8 := Int8.ofNat (if 10 ≤ d then 65 + (d - 10) else 48 + d)

/-- The numeral of a number, the highest digit first. -/
def numeral (base n : Nat) : List Int8 :=
  if n = 0 then [digitChar 0] else ((Nat.digits base n).map digitChar).reverse

def isDigit (c : Int8) : Bool := decide (48 ≤ c ∧ c ≤ 57)

/-- The number that the digits stand for, the highest first. -/
def number (base : Nat) (digits : List Nat) : Nat := digits.foldl (fun n d => n * base + d) 0

/-- What the decimal digits stand for that a text begins with; 0 without any. -/
def leading (l : List Int8) : Nat :=
  number 10 ((l.takeWhile isDigit).map fun c => (c.toInt - 48).toNat)

section
variable {base n d : Nat} {l : List Int8}

theorem number_digits (base n : Nat) : number base (Nat.digits base n).reverse = n := by
  have horner : (fun d m : Nat => m * base + d) = fun d m => d + base * m := by
    funext d m
    rw [Nat.mul_comm, Nat.add_comm]
  rw [number, List.foldl_reverse, horner]
  exact (Nat.ofDigits_eq_foldr base _).symm.trans (Nat.ofDigits_digits base n)

theorem digitChar_toInt (small : d < 32) :
    (digitChar d).toInt = if 10 ≤ d then (55 + d : Int) else 48 + d := by
  have all : ∀ d, d < 32 → (digitChar d).toInt = if 10 ≤ d then (55 + d : Int) else 48 + d := by
    decide
  exact all d small

theorem isDigit_iff {c : Int8} : isDigit c = true ↔ 48 ≤ c.toInt ∧ c.toInt ≤ 57 := by
  simp [isDigit, Int8.le_iff_toInt_le]

/-- The digits of a numeral, the highest first. -/
theorem numeral_eq (base n : Nat) : ∃ ds, numeral base n = ds.map digitChar ∧ ds ≠ [] ∧
    number base ds = n ∧ (1 < base → ∀ d ∈ ds, d < base) := by
  by_cases zero : n = 0
  · refine ⟨[0], by rw [numeral, if_pos zero]; rfl, by simp, by rw [zero]; simp [number], ?_⟩
    intro lt d hd
    rw [List.mem_singleton.mp hd]
    omega
  · refine ⟨(Nat.digits base n).reverse, ?_, ?_, number_digits base n, fun lt d hd => ?_⟩
    · rw [numeral, if_neg zero, List.map_reverse]
    · rw [ne_eq, List.reverse_eq_nil_iff]
      exact Nat.digits_ne_nil_iff_ne_zero.mpr zero
    · exact Nat.digits_lt_base lt (List.mem_reverse.mp hd)

theorem leading_numeral (n : Nat) : leading (numeral 10 n) = n := by
  obtain ⟨ds, text, -, value, small⟩ := numeral_eq 10 n
  have digits := small (by decide)
  have all : ∀ c ∈ ds.map digitChar, isDigit c = true := by
    intro c hc
    obtain ⟨d, hd, rfl⟩ := List.mem_map.mp hc
    have := digits d hd
    rw [isDigit_iff, digitChar_toInt (by omega), if_neg (by omega)]
    omega
  have back : (ds.map digitChar).map (fun c => (c.toInt - 48).toNat) = ds := by
    rw [List.map_map]
    refine (List.map_congr_left fun d hd => ?_).trans (List.map_id ds)
    have := digits d hd
    rw [Function.comp, digitChar_toInt (by omega), if_neg (by omega)]
    change (48 + (d : Int) - 48).toNat = d
    omega
  rw [leading, text, List.takeWhile_eq_self_iff.mpr all, back, value]

end

end BottlerOS.Numeral
