import BottlerOS.BuddyHeap
import BottlerOS.Library.BitFill

/-! The number of pages that `buddy_alloc` looks for. -/

namespace BottlerOS.BuddyPages
open Machine BuddyHeap BitFill

/-- The pages for `s` bytes, as the code counts them. -/
def pagesFor (s : Int) : Int :=
  if s.tmod PAGE_SIZE ≠ 0 then s.tdiv PAGE_SIZE + 1 else s.tdiv PAGE_SIZE

/-- The least power of two from there on. -/
def order (s : Int) : Nat := Nat.clog 2 (pagesFor s).toNat

def rounded (s : Int) : Nat := 2 ^ order s

section
variable {x : Nat} {s : Int}

theorem isPowOf2_iff (some : x ≠ 0) (small : x < 2 ^ 32) : isPowOf2 x ↔ x.isPowerOfTwo := by
  have less : (x + (2 ^ 32 - 1)) % 2 ^ 32 = x - 1 := by omega
  rw [isPowOf2, less]
  exact Nat.and_sub_one_eq_zero_iff_isPowerOfTwo some

theorem nextPowOf2_eq (some : x ≠ 0) (small : x < 2 ^ 32) :
    nextPowOf2 x = 2 ^ Nat.clog 2 x % 2 ^ 32 := by
  rw [nextPowOf2]
  split <;> rename_i power
  · obtain ⟨k, rfl⟩ := (isPowOf2_iff some small).mp power
    rw [Nat.clog_pow 2 k (by omega), Nat.mod_eq_of_lt small]
  · have other : ¬ x.isPowerOfTwo := fun h => power ((isPowOf2_iff some small).mpr h)
    have filled := (spread_one x).double.double.double.double.double.all small some
    rw [clog_of_not_power some other, ← filled]

/-! The range of an `int`. -/

theorem pagesFor_nonneg (some : 0 ≤ s) : pagesFor s = (s + 4095) / 4096 := by
  unfold pagesFor PAGE_SIZE
  rw [Int.tmod_eq_emod_of_nonneg some, Int.tdiv_eq_ediv_of_nonneg some]
  split <;> omega

theorem pagesFor_neg (below : s < 0) :
    pagesFor s = -(-s / 4096) + if -s % 4096 = 0 then 0 else 1 := by
  unfold pagesFor PAGE_SIZE
  obtain ⟨t, rfl⟩ : ∃ t, s = -t := ⟨-s, by omega⟩
  rw [Int.neg_tmod, Int.neg_tdiv, Int.tmod_eq_emod_of_nonneg (by omega),
    Int.tdiv_eq_ediv_of_nonneg (by omega), Int.neg_neg]
  split <;> split <;> omega

theorem pagesFor_le (high : s ≤ INT_MAX) : pagesFor s ≤ 2 ^ 19 := by
  unfold INT_MAX at high
  rcases Int.lt_or_le s 0 with below | some
  · rw [pagesFor_neg below]
    split <;> omega
  · rw [pagesFor_nonneg some]
    omega

theorem pagesFor_ge (low : -2 ^ 31 ≤ s) : -2 ^ 19 ≤ pagesFor s := by
  rcases Int.lt_or_le s 0 with below | some
  · rw [pagesFor_neg below]
    split <;> omega
  · rw [pagesFor_nonneg some]
    omega

theorem clog_le {k : Nat} (le : x ≤ 2 ^ k) : Nat.clog 2 x ≤ k :=
  (Nat.clog_le_iff_le_pow (by omega)).mpr le

/-- A count of pages from 0 on. -/
theorem blockSize_pow (some : 0 ≤ pagesFor s) (high : s ≤ INT_MAX) :
    blockSize s = 2 ^ order s := by
  have le := pagesFor_le high
  rw [blockSize, order]
  change (if pagesFor s = 0 then 1 else int32 (nextPowOf2 (uint32 (pagesFor s)).toNat)) = _
  split <;> rename_i none
  · rw [none]
    rfl
  · have pages : uint32 (pagesFor s) = pagesFor s := uint32_of_range some (by omega)
    have low : Nat.clog 2 (pagesFor s).toNat ≤ 19 := clog_le (by omega)
    have small : 2 ^ Nat.clog 2 (pagesFor s).toNat ≤ 2 ^ 19 := Nat.pow_le_pow_right (by omega) low
    have := Nat.two_pow_pos (Nat.clog 2 (pagesFor s).toNat)
    rw [pages, nextPowOf2_eq (by omega) (by omega), Nat.mod_eq_of_lt (by omega),
      int32_of_range (by omega) (by unfold INT_MAX; omega)]
    push_cast
    rfl

/-- A negative count of pages. -/
theorem blockSize_zero (low : -2 ^ 31 ≤ s) (below : pagesFor s < 0) : blockSize s = 0 := by
  have ge := pagesFor_ge low
  have pages : (uint32 (pagesFor s)).toNat = (pagesFor s + 2 ^ 32).toNat := by
    unfold uint32
    omega
  generalize hx : (pagesFor s + 2 ^ 32).toNat = x at pages
  have log : Nat.clog 2 x = 32 := by
    apply Nat.le_antisymm
    · exact clog_le (by omega)
    · rw [Nat.succ_le_iff, Nat.lt_clog_iff_pow_lt (by omega)]
      omega
  rw [blockSize]
  change (if pagesFor s = 0 then 1 else int32 (nextPowOf2 (uint32 (pagesFor s)).toNat)) = 0
  rw [if_neg (by omega), pages, nextPowOf2_eq (by omega) (by omega), log]
  rfl

/-- The pages hold the bytes. -/
theorem le_rounded (some : 0 ≤ s) : s ≤ rounded s * PAGE_SIZE := by
  have pages := Nat.le_pow_clog (b := 2) (by omega) (pagesFor s).toNat
  have count := pagesFor_nonneg some
  unfold PAGE_SIZE
  rw [rounded, order]
  omega

end

end BottlerOS.BuddyPages
