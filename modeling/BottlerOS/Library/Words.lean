import Mathlib.Data.Nat.Basic
import Mathlib.Algebra.Order.Ring.Nat

/-! Numbers in a memory of bytes, the lowest byte first. -/

namespace BottlerOS.Words

abbrev Bytes := Nat → UInt8

/-- The number in the `k` bytes at `a`. -/
def number (m : Bytes) : (k a : Nat) → Nat
  | 0, _ => 0
  | k + 1, a => (m a).toNat + 256 * number m k (a + 1)

def load64 (m : Bytes) (a : Nat) : Nat := number m 8 a

def store64 (a w : Nat) (m : Bytes) : Bytes := fun x =>
  if a ≤ x ∧ x < a + 8 then UInt8.ofNat (w / 256 ^ (x - a)) else m x

section
variable {m m' : Bytes} {a b k w : Nat}

theorem number_lt (m : Bytes) (k a : Nat) : number m k a < 256 ^ k := by
  induction k generalizing a with
  | zero => simp [number]
  | succ k ih =>
    have low := (m a).toNat_lt
    have high := ih (a + 1)
    rw [number, Nat.pow_succ]
    omega

theorem number_congr (same : ∀ x, a ≤ x → x < a + k → m' x = m x) :
    number m' k a = number m k a := by
  induction k generalizing a with
  | zero => rfl
  | succ k ih =>
    rw [number, number, same a (by omega) (by omega),
      ih fun x lo hi => same x (by omega) (by omega)]

theorem number_written (written : ∀ i, i < k → m (a + i) = UInt8.ofNat (w / 256 ^ i)) :
    number m k a = w % 256 ^ k := by
  induction k generalizing a w with
  | zero => simp [number, Nat.mod_one]
  | succ k ih =>
    have low : (m a).toNat = w % 256 := by
      have first := written 0 (by omega)
      simp only [Nat.add_zero, Nat.pow_zero, Nat.div_one] at first
      rw [first, UInt8.toNat_ofNat']
    have high : number m k (a + 1) = w / 256 % 256 ^ k := by
      refine ih fun i hi => ?_
      rw [Nat.add_assoc, Nat.add_comm 1, written (i + 1) (by omega), Nat.pow_succ, Nat.mul_comm,
        Nat.div_div_eq_div_mul]
    rw [number, low, high, Nat.pow_succ, Nat.mul_comm (256 ^ k), Nat.mod_mul]

theorem load64_lt (m : Bytes) (a : Nat) : load64 m a < 2 ^ 64 := number_lt m 8 a

theorem load64_congr (same : ∀ x, a ≤ x → x < a + 8 → m' x = m x) : load64 m' a = load64 m a :=
  number_congr same

@[simp] theorem load64_store64 (a w : Nat) (m : Bytes) :
    load64 (store64 a w m) a = w % 2 ^ 64 := by
  refine number_written fun i hi => ?_
  rw [store64, if_pos ⟨by omega, by omega⟩, Nat.add_sub_cancel_left]

theorem store64_of_outside {x : Nat} (out : ¬ (a ≤ x ∧ x < a + 8)) : store64 a w m x = m x :=
  if_neg out

theorem load64_store64_apart (apart : a + 8 ≤ b ∨ b + 8 ≤ a) :
    load64 (store64 a w m) b = load64 m b :=
  load64_congr fun _ lo hi => store64_of_outside (by omega)

end

end BottlerOS.Words
