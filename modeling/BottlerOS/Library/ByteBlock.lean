import Mathlib.Data.List.TakeWhile

/-! A block of bytes of some size, what writing lists of bytes to it leaves, and the
NUL-terminated strings in it. -/

namespace BottlerOS.ByteBlock

structure Block where
  size : Nat
  bytes : Nat → UInt8

/-- The bytes from the offset on. -/
def Block.write (o : Nat) (bs : List UInt8) (m : Block) : Block :=
  { m with bytes := fun x => if o ≤ x then (bs[x - o]?).getD (m.bytes x) else m.bytes x }

/-- A string of non-zero bytes and its NUL. -/
structure Text (m : Block) (o : Nat) (l : List UInt8) : Prop where
  plain : 0 ∉ l
  inside : o + l.length < m.size
  stored : ∀ i, i < l.length → l[i]? = some (m.bytes (o + i))
  nul : m.bytes (o + l.length) = 0

section
variable {m : Block} {o : Nat} {xs ys zs l l' : List UInt8}

@[simp] theorem write_size (m : Block) (o : Nat) (bs : List UInt8) :
    (m.write o bs).size = m.size := rfl

@[simp] theorem write_nil (m : Block) (o : Nat) : m.write o [] = m := by
  simp [Block.write]

theorem write_bytes (m : Block) {i : Nat} (hi : i < xs.length) :
    some ((m.write o xs).bytes (o + i)) = xs[i]? := by
  have : o ≤ o + i := Nat.le_add_right ..
  simp [Block.write, List.getElem?_eq_getElem hi]

/-- What is written behind at least as many bytes as there are takes their place. -/
theorem write_over {p : Nat} (m : Block) (at_ : p = o + xs.length)
    (covers : zs.length ≤ ys.length) :
    (m.write o (xs ++ zs)).write p ys = m.write o (xs ++ ys) := by
  subst at_
  unfold Block.write
  congr 1
  funext x
  simp only
  by_cases far : o + xs.length ≤ x
  · have behind : xs.length ≤ x - o := by omega
    rw [if_pos far, if_pos (by omega), if_pos (by omega), List.getElem?_append_right behind,
      List.getElem?_append_right behind, show x - o - xs.length = x - (o + xs.length) by omega]
    by_cases inside : x - (o + xs.length) < ys.length
    · rw [List.getElem?_eq_getElem inside, Option.getD_some, Option.getD_some]
    · rw [List.getElem?_eq_none (by omega), List.getElem?_eq_none (by omega)]
      rfl
  · rw [if_neg far]
    by_cases near : o ≤ x
    · rw [if_pos near, if_pos near, List.getElem?_append_left (by omega),
        List.getElem?_append_left (by omega)]
    · rw [if_neg near, if_neg near]

theorem write_append {p : Nat} (m : Block) (at_ : p = o + xs.length) :
    (m.write o xs).write p ys = m.write o (xs ++ ys) := by
  have past : (m.write o (xs ++ [])).write p ys = m.write o (xs ++ ys) :=
    write_over m at_ (Nat.zero_le _)
  rwa [List.append_nil] at past

/-- The first of the bytes once more. -/
theorem write_head (m : Block) (o : Nat) (b c : UInt8) (bs : List UInt8) :
    (m.write o (b :: bs)).write o [c] = m.write o (c :: bs) := by
  unfold Block.write
  congr 1
  funext x
  simp only
  by_cases le : o ≤ x
  · rw [if_pos le, if_pos le, if_pos le]
    cases x - o <;> rfl
  · rw [if_neg le, if_neg le, if_neg le]

/-- One of the bytes once more. -/
theorem write_at {p : Nat} (m : Block) (b c : UInt8) (at_ : p = o + xs.length) :
    (m.write o (xs ++ b :: ys)).write p [c] = m.write o (xs ++ c :: ys) := by
  rw [← write_append m at_, write_head, write_append m at_]

theorem Text.unique (h : Text m o l) (h' : Text m o l') : l = l' := by
  have le : ∀ {l l' : List UInt8}, Text m o l → Text m o l' → l'.length ≤ l.length := by
    intro l l' h h'
    by_contra longer
    have here := h'.stored l.length (Nat.not_le.mp longer)
    rw [h.nul] at here
    exact h'.plain (List.mem_of_getElem? here)
  have same := Nat.le_antisymm (le h' h) (le h h')
  refine List.ext_getElem? fun i => ?_
  by_cases inside : i < l.length
  · rw [h.stored i inside, h'.stored i (same ▸ inside)]
  · rw [List.getElem?_eq_none (by omega), List.getElem?_eq_none (by omega)]

/-- The string in front of the first NUL of what has been written. -/
theorem text_write (m : Block) (fits : o + xs.length < m.size) (ys : List UInt8) :
    Text (m.write o (xs ++ 0 :: ys)) o (xs.takeWhile (· ≠ 0)) := by
  obtain ⟨rest, split⟩ : ∃ rest, xs ++ 0 :: ys = xs.takeWhile (· ≠ 0) ++ 0 :: rest := by
    have whole := List.takeWhile_append_dropWhile (p := fun b : UInt8 => decide (b ≠ 0)) (l := xs)
    cases hd : xs.dropWhile (fun b => decide (b ≠ 0)) with
    | nil =>
      rw [hd, List.append_nil] at whole
      exact ⟨ys, by rw [whole]⟩
    | cons b rest =>
      have first := List.head?_dropWhile_not (fun b : UInt8 => decide (b ≠ 0)) xs
      rw [hd] at first
      have zero : b = 0 := by simpa using first
      rw [hd, zero] at whole
      exact ⟨rest ++ 0 :: ys, (congrArg (· ++ 0 :: ys) whole.symm).trans (by simp)⟩
  have short : (xs.takeWhile (· ≠ 0)).length ≤ xs.length := (List.takeWhile_sublist _).length_le
  rw [split]
  refine ⟨fun zero => ?_, by rw [write_size]; omega, fun i hi => ?_, ?_⟩
  · have := List.mem_takeWhile_imp zero
    simp at this
  · rw [write_bytes m (by rw [List.length_append]; omega), List.getElem?_append_left hi]
  · have here : some ((m.write o (xs.takeWhile (· ≠ 0) ++ 0 :: rest)).bytes
        (o + (xs.takeWhile (· ≠ 0)).length)) =
        (xs.takeWhile (· ≠ 0) ++ 0 :: rest)[(xs.takeWhile (· ≠ 0)).length]? :=
      write_bytes m (by simp)
    rw [List.getElem?_append_right (Nat.le_refl _), Nat.sub_self] at here
    exact Option.some.inj here

end

end BottlerOS.ByteBlock
