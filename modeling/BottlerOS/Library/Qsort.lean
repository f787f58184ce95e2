import Mathlib.Data.List.Pairwise
import Mathlib.Data.List.Perm.Basic

/-! What `qsort` is documented to do. A comparison need not be a linear order: what it puts in
front of neither is left in some order. -/

namespace BottlerOS.Qsort

variable {α : Type*} {cmp : α → α → Int} {sort : (α → α → Int) → List α → List α}
  {l xs : List α} {a b x y : α}

/-- The comparison puts `a` in front of `b`, whichever of the two it is given first. -/
def Before (cmp : α → α → Int) (a b : α) : Prop := cmp a b < 0 ∧ 0 < cmp b a

instance (cmp : α → α → Int) (a b : α) : Decidable (Before cmp a b) :=
  inferInstanceAs (Decidable (_ ∧ _))

/-- The comparison is consistent on the elements: what is in front of neither is alike. -/
def Orders (cmp : α → α → Int) (l : List α) : Prop :=
  ∀ a ∈ l, ∀ b ∈ l, ∀ c ∈ l, Before cmp a c → Before cmp a b ∨ Before cmp b c

/-- The elements in the order that the comparison gives. -/
structure Sorts (sort : (α → α → Int) → List α → List α) : Prop where
  perm : ∀ cmp l, Orders cmp l → (sort cmp l).Perm l
  order : ∀ cmp l, Orders cmp l → (sort cmp l).Pairwise fun a b => ¬ Before cmp b a

theorem Before.asymm (h : Before cmp a b) : ¬ Before cmp b a := fun h' => by
  have := h.1
  have := h'.2
  omega

theorem Orders.cons (orders : Orders cmp (x :: l)) : Orders cmp l :=
  fun a ha b hb c hc => orders a (by simp [ha]) b (by simp [hb]) c (by simp [hc])

/-- One element to its place. -/
def insert (cmp : α → α → Int) (x : α) : List α → List α
  | [] => [x]
  | y :: ys => if Before cmp y x then y :: insert cmp x ys else x :: y :: ys

/-- A sort that there is. -/
def insertionSort (cmp : α → α → Int) : List α → List α
  | [] => []
  | x :: xs => insert cmp x (insertionSort cmp xs)

theorem insert_perm : (insert cmp x l).Perm (x :: l) := by
  induction l with
  | nil => exact .refl _
  | cons y ys ih =>
    rw [insert]
    split
    · exact (ih.cons y).trans (.swap x y ys)
    · exact .refl _

theorem insertionSort_perm : (insertionSort cmp l).Perm l := by
  induction l with
  | nil => exact .refl _
  | cons x xs ih => exact insert_perm.trans (ih.cons x)

theorem insert_order (orders : Orders cmp (x :: l))
    (order : l.Pairwise fun a b => ¬ Before cmp b a) :
    (insert cmp x l).Pairwise fun a b => ¬ Before cmp b a := by
  induction l with
  | nil => exact List.pairwise_singleton _ _
  | cons y ys ih =>
    obtain ⟨first, rest⟩ := List.pairwise_cons.mp order
    rw [insert]
    split <;> rename_i before
    · have orders' : Orders cmp (x :: ys) := fun a ha b hb c hc =>
        orders a (by grind) b (by grind) c (by grind)
      refine List.pairwise_cons.mpr ⟨fun z hz => ?_, ih orders' rest⟩
      rcases List.mem_cons.mp (insert_perm.mem_iff.mp hz) with rfl | hz
      · exact before.asymm
      · exact first z hz
    · refine List.pairwise_cons.mpr ⟨fun z hz => ?_, order⟩
      rcases List.mem_cons.mp hz with rfl | hz'
      · exact before
      · intro front
        -- `y` would be in front of `x`, or `z` in front of `y`
        rcases orders z (by simp [hz']) y (by simp) x (by simp) front with h | h
        · exact first z hz' h
        · exact before h

theorem sorts_insertionSort : Sorts (α := α) insertionSort where
  perm _ _ _ := insertionSort_perm
  order cmp l orders := by
    induction l with
    | nil => exact .nil
    | cons x xs ih =>
      refine insert_order (fun a ha b hb c hc => ?_) (ih orders.cons)
      have same : ∀ z, z ∈ x :: insertionSort cmp xs → z ∈ x :: xs := fun z hz =>
        (insertionSort_perm.cons x).mem_iff.mp hz
      exact orders a (same a ha) b (same b hb) c (same c hc)

end BottlerOS.Qsort
