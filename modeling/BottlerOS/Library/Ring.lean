import Mathlib.Data.List.Basic
import Mathlib.Logic.Function.Basic

/-! Ring buffers. A list `xs` of everything written so far is kept in `cap` cells,
the entry `j` in the cell `j % cap`; the entries from `r` on have not been read. -/

namespace BottlerOS.Ring

variable {α : Type*} {cap r i : Nat} {buf : Nat → α} {xs : List α} {a : α}

/-- No entry from `r` on has been overwritten. -/
def Holds (cap : Nat) (buf : Nat → α) (xs : List α) (r : Nat) : Prop :=
  ∀ j, r ≤ j → j < xs.length → xs[j]? = some (buf (j % cap))

theorem Holds.nil : Holds cap buf [] r := fun j _ h => by simp at h

/-- With room in the ring, one more entry overwrites none that is not read. -/
theorem Holds.push (h : Holds cap buf xs r) (room : xs.length < r + cap) :
    Holds cap (Function.update buf (xs.length % cap) a) (xs ++ [a]) r := by
  intro j hr hj
  rw [List.length_append, List.length_singleton] at hj
  by_cases he : j = xs.length
  · subst he
    simp
  · have hlt : j < xs.length := by omega
    -- two entries less than `cap` apart lie in different cells
    have apart : j % cap ≠ xs.length % cap := by
      intro e
      have hd : (xs.length - j) % cap = 0 := by
        have := Nat.sub_mod_eq_zero_of_mod_eq e.symm
        exact this
      rw [Nat.mod_eq_of_lt (by omega)] at hd
      omega
    rw [Function.update_of_ne apart, List.getElem?_append_left hlt]
    exact h j hr hlt

theorem Holds.pop (h : Holds cap buf xs r) : Holds cap buf xs (r + 1) :=
  fun j hr hj => h j (by omega) hj

/-- The entry that is read next is the first one not read. -/
theorem Holds.next (h : Holds cap buf xs r) (hr : r < xs.length) :
    xs[r]? = some (buf (r % cap)) := h r (Nat.le_refl r) hr

/-- Every cell that has been written holds something written. -/
def Written (cap : Nat) (buf : Nat → α) (xs : List α) : Prop :=
  ∀ i < cap, i < xs.length → buf i ∈ xs

theorem Written.nil : Written cap buf [] := fun i _ h => by simp at h

theorem Written.push (h : Written cap buf xs) :
    Written cap (Function.update buf (xs.length % cap) a) (xs ++ [a]) := by
  intro i hi hlen
  rw [List.length_append, List.length_singleton] at hlen
  by_cases he : i = xs.length % cap
  · simp [he]
  · rw [Function.update_of_ne he]
    refine List.mem_append_left _ (h i hi ?_)
    by_contra hn
    have hx : i = xs.length := by omega
    exact he (by rw [← hx, Nat.mod_eq_of_lt hi])

/-- What is read was written, also when writers have overtaken readers. -/
theorem Written.next (h : Written cap buf xs) (pos : 0 < cap) (hr : r < xs.length) :
    buf (r % cap) ∈ xs :=
  h _ (Nat.mod_lt _ pos) (Nat.lt_of_le_of_lt (Nat.mod_le _ _) hr)

end BottlerOS.Ring
