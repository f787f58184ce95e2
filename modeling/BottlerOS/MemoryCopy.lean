import BottlerOS.PackedImage

/-! The two paths of `memcpy`. Addresses that are both multiples of four lie whole words apart, so
that copying a word never splits one that a byte at a time would have changed in between. -/

namespace BottlerOS.MemoryCopy
open ByteMemory PackedImage

/-- A word is stored byte by byte, the lowest first. -/
theorem store32_bytes (m : Memory) (a w : Nat) {b₀ b₁ b₂ b₃ : UInt8}
    (word : le32 w = [b₀, b₁, b₂, b₃]) :
    m.store32 a w = (((m.store a b₀).store (a + 1) b₁).store (a + 2) b₂).store (a + 3) b₃ := by
  unfold Memory.store32 Memory.store
  congr 1
  funext x
  rw [word]
  by_cases lo : a ≤ x
  · obtain ⟨k, rfl⟩ := Nat.exists_eq_add_of_le lo
    match k with
    | 0 => simp
    | 1 => simp
    | 2 => simp
    | 3 => simp
    | k + 4 => simp
  · have apart : x ≠ a ∧ x ≠ a + 1 ∧ x ≠ a + 2 ∧ x ≠ a + 3 := by omega
    simp [lo, apart]

/-- Four turns over bytes are one over words: none of the stores in front of a load has touched
the byte that it loads. -/
theorem copyBytes_word (d s n i : Nat) (m : Memory) (apart : d % 4 = s % 4) :
    copyBytes d s (n + 4) i m =
      copyBytes d s n (i + 4) ((m.load32 (s + i)).2.store32 (d + i) (m.load32 (s + i)).1) := by
  have second : s + (i + 1) ≠ d + i := by omega
  have third : s + (i + 2) ≠ d + i ∧ s + (i + 2) ≠ d + (i + 1) := by omega
  have fourth : s + (i + 3) ≠ d + i ∧ s + (i + 3) ≠ d + (i + 1) ∧ s + (i + 3) ≠ d + (i + 2) := by
    omega
  have word : le32 (m.load32 (s + i)).1 =
      [m.bytes (s + i), m.bytes (s + i + 1), m.bytes (s + i + 2), m.bytes (s + i + 3)] :=
    load32_bytes ⟨rfl, rfl, rfl, rfl, trivial⟩
  rw [store32_bytes _ _ _ word]
  change copyBytes d s n (i + 1 + 1 + 1 + 1) _ = _
  congr 1
  simp only [Memory.store, Memory.load32]
  congr 1
  · simp [Nat.add_assoc, second, third, fourth]
  · simp [List.range', Nat.add_assoc]

/-- By induction on the words left. -/
theorem copyWords_eq (d s n i : Nat) (m : Memory) (apart : d % 4 = s % 4) :
    copyWords d s n i m = copyBytes d s (4 * n) (4 * i) m := by
  induction n generalizing i m with
  | zero => rfl
  | succ n ih =>
    rw [show 4 * (n + 1) = 4 * n + 4 by omega, copyBytes_word d s (4 * n) (4 * i) m apart]
    change copyWords d s n (i + 1) _ = _
    rw [ih, show 4 * (i + 1) = 4 * i + 4 by omega]
    rfl

/-- Where the alignment test of `memcpy` passes, the path it takes leaves the memory that the
other path leaves, also where the ranges overlap. -/
theorem memcpy_bytewise (destination source length : Nat) (m : Memory)
    (aligned : destination % 4 = 0 ∧ source % 4 = 0 ∧ length % 4 = 0) :
    memcpy destination source length m = copyWords destination source (length / 4) 0 m ∧
      copyWords destination source (length / 4) 0 m = copyBytes destination source length 0 m := by
  constructor
  · rw [memcpy, if_pos aligned]
  · have whole : 4 * (length / 4) = length := by omega
    rw [copyWords_eq _ _ _ _ _ (aligned.1.trans aligned.2.1.symm), whole]

/-- Twelve bytes moved up by one word. -/
theorem memcpy_bytewise_overlap :
    memcpy 4 0 12 ⟨UInt8.ofNat, []⟩ = copyWords 4 0 3 0 ⟨UInt8.ofNat, []⟩ ∧
      copyWords 4 0 3 0 ⟨UInt8.ofNat, []⟩ = copyBytes 4 0 12 0 ⟨UInt8.ofNat, []⟩ :=
  memcpy_bytewise 4 0 12 _ (by decide)

end BottlerOS.MemoryCopy
