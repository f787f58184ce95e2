import Mathlib.Algebra.Order.Ring.Nat
import Mathlib.Data.List.Basic

/-! Regions of bytes, and lists of free regions in the order of their addresses. A region that
comes back is inserted in its place and melts with the regions it touches. -/

namespace BottlerOS.FreeList

/-- An address and a size. -/
abbrev Region := Nat × Nat

def Inside (a : Nat) (x : Region) : Prop := x.1 ≤ a ∧ a < x.1 + x.2

def Apart (x y : Region) : Prop := ∀ a, Inside a x → ¬ Inside a y

/-- Each byte from `lo` to `hi` is in exactly one of the regions, and no other byte is. -/
structure Tiling (lo hi : Nat) (xs : List Region) : Prop where
  covers : ∀ a, (∃ x ∈ xs, Inside a x) ↔ lo ≤ a ∧ a < hi
  apart : xs.Pairwise Apart

/-- In the order of their addresses, and none touches the next. -/
def Separate (xs : List Region) : Prop := xs.Pairwise fun x y => x.1 + x.2 < y.1

def total (xs : List Region) : Nat := (xs.map Prod.snd).sum

/-- A region before the list, and its first region if it touches it. -/
def join (b s : Nat) : List Region → List Region
  | [] => [(b, s)]
  | x :: xs => if b + s = x.1 then (b, s + x.2) :: xs else (b, s) :: x :: xs

/-- A region comes back. -/
def insert (b s : Nat) : List Region → List Region
  | [] => [(b, s)]
  | x :: xs =>
      if x.1 < b then
        if x.1 + x.2 = b then join x.1 (x.2 + s) xs else x :: insert b s xs
      else join b s (x :: xs)

section
variable {a b s lo hi : Nat} {x y : Region} {xs ys rest : List Region}

theorem Apart.symm (h : Apart x y) : Apart y x := fun a hy hx => h a hx hy

theorem apart_of_le (h : x.1 + x.2 ≤ y.1) : Apart x y :=
  fun _ hx hy => absurd hy.1 (by have := hx.2; omega)

/-- Two regions with a byte each lie on two sides. -/
theorem Apart.order (h : Apart x y) (hx : 0 < x.2) (hy : 0 < y.2) :
    x.1 + x.2 ≤ y.1 ∨ y.1 + y.2 ≤ x.1 := by
  by_contra n
  by_cases le : x.1 ≤ y.1
  · exact h y.1 ⟨le, by omega⟩ ⟨Nat.le_refl _, by omega⟩
  · exact h x.1 ⟨Nat.le_refl _, by omega⟩ ⟨by omega, by omega⟩

theorem inside_join (a b s : Nat) (xs : List Region) :
    (∃ y ∈ join b s xs, Inside a y) ↔ Inside a (b, s) ∨ ∃ y ∈ xs, Inside a y := by
  cases xs with
  | nil => simp [join]
  | cons x xs =>
    rw [join]
    split <;> rename_i touch
    · simp only [List.mem_cons, exists_eq_or_imp, ← or_assoc]
      refine or_congr_left ?_
      simp only [Inside]
      omega
    · simp

/-- The bytes of the region are added, and no others. -/
theorem inside_insert (a b s : Nat) (xs : List Region) :
    (∃ y ∈ insert b s xs, Inside a y) ↔ Inside a (b, s) ∨ ∃ y ∈ xs, Inside a y := by
  induction xs with
  | nil => simp [insert]
  | cons x xs ih =>
    rw [insert]
    split
    · split <;> rename_i touch
      · rw [inside_join]
        simp only [List.mem_cons, exists_eq_or_imp, ← or_assoc]
        refine or_congr_left ?_
        simp only [Inside]
        omega
      · simp only [List.mem_cons, exists_eq_or_imp, ih]
        exact or_left_comm
    · exact inside_join a b s (x :: xs)

theorem total_join (b s : Nat) (xs : List Region) : total (join b s xs) = s + total xs := by
  cases xs with
  | nil => simp [join, total]
  | cons x xs =>
    rw [join]
    split <;> simp [total, Nat.add_assoc]

theorem total_insert (b s : Nat) (xs : List Region) : total (insert b s xs) = s + total xs := by
  induction xs with
  | nil => simp [insert, total]
  | cons x xs ih =>
    rw [insert]
    split
    · split
      · rw [total_join]
        simp only [total, List.map_cons, List.sum_cons]
        omega
      · simp only [total, List.map_cons, List.sum_cons] at ih ⊢
        omega
    · exact total_join b s (x :: xs)

theorem total_append (xs ys : List Region) : total (xs ++ ys) = total xs + total ys := by
  simp [total]

theorem total_cons (x : Region) (xs : List Region) : total (x :: xs) = x.2 + total xs := by
  simp [total]

/-- Regions that do not overlap are no larger together than the area. -/
theorem total_le (sep : Separate xs) (low : ∀ x ∈ xs, lo ≤ x.1) (high : ∀ x ∈ xs, x.1 + x.2 ≤ hi) :
    total xs ≤ hi - lo := by
  induction xs generalizing lo with
  | nil => simp [total]
  | cons x xs ih =>
    obtain ⟨later, sep'⟩ := List.pairwise_cons.mp sep
    have rest := ih sep' (fun y hy => Nat.le_of_lt (later y hy))
      fun y hy => high y (List.mem_cons_of_mem x hy)
    have := low x List.mem_cons_self
    have := high x List.mem_cons_self
    rw [total_cons]
    omega

/-- What holds of the region and of the list, and of two such regions that touch, holds of the
list with the region inserted. -/
theorem forall_join {P : Region → Prop}
    (melt : ∀ x y, x.1 + x.2 = y.1 → P x → P y → P (x.1, x.2 + y.2))
    (hb : P (b, s)) (h : ∀ x ∈ xs, P x) : ∀ y ∈ join b s xs, P y := by
  cases xs with
  | nil => simpa [join] using hb
  | cons x xs =>
    have first := h x List.mem_cons_self
    have others := fun y hy => h y (List.mem_cons_of_mem x hy)
    rw [join]
    split <;> rename_i touch
    · intro y hy
      rcases List.mem_cons.mp hy with rfl | hy
      · exact melt (b, s) x touch hb first
      · exact others y hy
    · intro y hy
      rcases List.mem_cons.mp hy with rfl | hy
      · exact hb
      · exact h y hy

theorem forall_insert {P : Region → Prop}
    (melt : ∀ x y, x.1 + x.2 = y.1 → P x → P y → P (x.1, x.2 + y.2))
    (hb : P (b, s)) (h : ∀ x ∈ xs, P x) : ∀ y ∈ insert b s xs, P y := by
  induction xs with
  | nil => simpa [insert] using hb
  | cons x xs ih =>
    have first := h x List.mem_cons_self
    have others := fun y hy => h y (List.mem_cons_of_mem x hy)
    rw [insert]
    split
    · split <;> rename_i touch
      · exact forall_join melt (melt x (b, s) touch first hb) others
      · intro y hy
        rcases List.mem_cons.mp hy with rfl | hy
        · exact first
        · exact ih others y hy
    · exact forall_join melt hb h

theorem separate_join (apart : ∀ x ∈ xs, b + s ≤ x.1) (sep : Separate xs)
    (pos : ∀ x ∈ xs, 0 < x.2) : Separate (join b s xs) := by
  cases xs with
  | nil => simp [join, Separate]
  | cons x xs =>
    obtain ⟨later, sep'⟩ := List.pairwise_cons.mp sep
    have first := apart x List.mem_cons_self
    rw [join]
    split <;> rename_i touch
    · refine List.pairwise_cons.mpr ⟨fun y hy => ?_, sep'⟩
      have := later y hy
      dsimp only
      omega
    · refine List.pairwise_cons.mpr ⟨fun y hy => ?_, sep⟩
      dsimp only
      rcases List.mem_cons.mp hy with rfl | hy
      · omega
      · have := later y hy
        have := pos x List.mem_cons_self
        omega

/-- The list stays in order and without neighbours that touch. -/
theorem separate_insert (apart : ∀ x ∈ xs, x.1 + x.2 ≤ b ∨ b + s ≤ x.1) (sep : Separate xs)
    (pos : ∀ x ∈ xs, 0 < x.2) (hs : 0 < s) : Separate (insert b s xs) := by
  induction xs with
  | nil => simp [insert, Separate]
  | cons x xs ih =>
    obtain ⟨later, sep'⟩ := List.pairwise_cons.mp sep
    have first := apart x List.mem_cons_self
    have hx := pos x List.mem_cons_self
    have pos' : ∀ y ∈ xs, 0 < y.2 := fun y hy => pos y (List.mem_cons_of_mem x hy)
    rw [insert]
    split <;> rename_i before
    · split <;> rename_i touch
      · refine separate_join (fun y hy => ?_) sep' pos'
        have := apart y (List.mem_cons_of_mem x hy)
        have := later y hy
        omega
      · refine List.pairwise_cons.mpr ⟨?_, ih (fun y hy => apart y (List.mem_cons_of_mem x hy))
          sep' pos'⟩
        -- the first byte of a region of the new list is in the region or in the old list
        intro y hy
        by_contra n
        have whole : ∀ z ∈ insert b s xs, 0 < z.2 :=
          forall_insert (P := fun z => 0 < z.2) (fun u v _ hu hv => by dsimp only; omega) hs pos'
        have inside := (inside_insert y.1 b s xs).mp
          ⟨y, hy, Nat.le_refl _, by have := whole y hy; omega⟩
        rcases inside with inside | ⟨z, hz, inside⟩
        · have := inside.1
          dsimp only at this
          omega
        · have := later z hz
          have := inside.1
          omega
    · refine separate_join (fun y hy => ?_) sep pos
      rcases List.mem_cons.mp hy with rfl | hy
      · omega
      · have := later y hy
        omega

/-- Regions that lie before and touch nothing are passed. -/
theorem insert_append (pass : ∀ x ∈ xs, x.1 + x.2 < b) :
    insert b s (xs ++ ys) = xs ++ insert b s ys := by
  induction xs with
  | nil => rfl
  | cons x xs ih =>
    have := pass x List.mem_cons_self
    rw [List.cons_append, insert, if_pos (by omega), if_neg (by omega),
      ih fun y hy => pass y (List.mem_cons_of_mem x hy), List.cons_append]

theorem insert_of_le (behind : ∀ y ∈ ys, b ≤ y.1) : insert b s ys = join b s ys := by
  cases ys with
  | nil => rfl
  | cons y ys =>
    have := behind y List.mem_cons_self
    rw [insert, if_neg (by omega)]

/-- A region that touches none comes in between. -/
theorem insert_between (before : ∀ x ∈ xs, x.1 + x.2 < b) (behind : ∀ y ∈ ys, b + s < y.1) :
    insert b s (xs ++ ys) = xs ++ (b, s) :: ys := by
  have alone : join b s ys = (b, s) :: ys := by
    cases ys with
    | nil => rfl
    | cons y ys =>
      have := behind y List.mem_cons_self
      rw [join, if_neg (by omega)]
  have later : ∀ y ∈ ys, b ≤ y.1 := fun y hy => by
    have := behind y hy
    omega
  rw [insert_append before, insert_of_le later, alone]

/-- The regions before an address, and the others. -/
theorem Separate.split (sep : Separate xs) (b : Nat) :
    ∃ before behind, xs = before ++ behind ∧ (∀ x ∈ before, x.1 < b) ∧ ∀ y ∈ behind, b ≤ y.1 := by
  induction xs with
  | nil => exact ⟨[], [], rfl, by simp, by simp⟩
  | cons x xs ih =>
    obtain ⟨later, sep'⟩ := List.pairwise_cons.mp sep
    by_cases lt : x.1 < b
    · obtain ⟨before, behind, rfl, lo, hi⟩ := ih sep'
      exact ⟨x :: before, behind, rfl, List.forall_mem_cons.mpr ⟨lt, lo⟩, hi⟩
    · refine ⟨[], x :: xs, rfl, by simp, List.forall_mem_cons.mpr ⟨by omega, fun y hy => ?_⟩⟩
      have := later y hy
      omega

/-- The list without one of its regions. -/
theorem Separate.remove (sep : Separate (xs ++ x :: ys)) : Separate (xs ++ ys) :=
  sep.sublist (List.Sublist.append (List.Sublist.refl xs) (List.sublist_cons_self x ys))

theorem Separate.pairwise (sep : Separate xs) : xs.Pairwise Apart :=
  List.Pairwise.imp (fun h => apart_of_le (Nat.le_of_lt h)) sep

theorem Tiling.perm (tiles : Tiling lo hi xs) (perm : xs.Perm ys) : Tiling lo hi ys where
  covers a := by
    rw [← tiles.covers a]
    exact exists_congr fun x => and_congr_left fun _ => perm.mem_iff.symm
  apart := tiles.apart.perm perm fun h => h.symm

/-- A region in two. -/
theorem Tiling.cut {w : Nat} (tiles : Tiling lo hi (x :: xs)) (le : w ≤ x.2) :
    Tiling lo hi ((x.1, w) :: (x.1 + w, x.2 - w) :: xs) := by
  obtain ⟨others, rest⟩ := List.pairwise_cons.mp tiles.apart
  have parts : ∀ a, Inside a x ↔ Inside a (x.1, w) ∨ Inside a (x.1 + w, x.2 - w) := fun a => by
    simp only [Inside]
    omega
  refine ⟨fun a => ?_, List.pairwise_cons.mpr ⟨List.forall_mem_cons.mpr ⟨?_, fun y hy a ha => ?_⟩,
    List.pairwise_cons.mpr ⟨fun y hy a ha => ?_, rest⟩⟩⟩
  · rw [← tiles.covers a]
    simp only [List.mem_cons, exists_eq_or_imp, parts, or_assoc]
  · exact apart_of_le (Nat.le_refl _)
  · exact others y hy a ((parts a).mpr (Or.inl ha))
  · exact others y hy a ((parts a).mpr (Or.inr ha))

/-- A region that comes back to the list keeps the tiling. -/
theorem Tiling.insert (tiles : Tiling lo hi ((b, s) :: (xs ++ ys)))
    (sep : Separate (insert b s xs)) : Tiling lo hi (FreeList.insert b s xs ++ ys) := by
  obtain ⟨first, apart⟩ := List.pairwise_cons.mp tiles.apart
  obtain ⟨-, rest, cross⟩ := List.pairwise_append.mp apart
  refine ⟨fun a => ?_, List.pairwise_append.mpr ⟨sep.pairwise, rest, fun x hx y hy a ha => ?_⟩⟩
  · rw [← tiles.covers a]
    simp only [List.mem_append, or_and_right, exists_or, inside_insert, List.mem_cons,
      exists_eq_left, or_assoc]
  · rcases (inside_insert a b s xs).mp ⟨x, hx, ha⟩ with ha | ⟨z, hz, ha⟩
    · exact first y (List.mem_append_right xs hy) a ha
    · exact cross z hz y hy a ha

/-- Free regions that are a whole tiling are one region. -/
theorem Tiling.single (tiles : Tiling lo hi xs) (sep : Separate xs) (pos : ∀ x ∈ xs, 0 < x.2)
    (le : lo < hi) : xs = [(lo, hi - lo)] := by
  obtain ⟨x, hx, first⟩ := (tiles.covers lo).mpr ⟨Nat.le_refl _, le⟩
  cases xs with
  | nil => simp at hx
  | cons x xs =>
    have hpos := pos x List.mem_cons_self
    obtain ⟨later, -⟩ := List.pairwise_cons.mp sep
    have low := (tiles.covers x.1).mp ⟨x, List.mem_cons_self, Nat.le_refl _, by omega⟩
    have high := (tiles.covers (x.1 + x.2 - 1)).mp ⟨x, List.mem_cons_self, by omega, by omega⟩
    have start : x.1 = lo := by
      rcases List.mem_cons.mp hx with rfl | hx
      · have := first.1
        omega
      · have := later _ hx
        have := first.1
        omega
    -- the byte behind the first region is in no region
    have stop : x.1 + x.2 = hi := by
      by_contra n
      obtain ⟨y, hy, inside⟩ := (tiles.covers (x.1 + x.2)).mpr ⟨by omega, by omega⟩
      rcases List.mem_cons.mp hy with rfl | hy
      · have := inside.2
        omega
      · have := later y hy
        have := inside.1
        omega
    have alone : xs = [] := by
      cases xs with
      | nil => rfl
      | cons y ys =>
        have := later y List.mem_cons_self
        have := pos y (by simp)
        have := (tiles.covers y.1).mp ⟨y, by simp, Nat.le_refl _, by omega⟩
        omega
    rw [alone]
    exact congrArg (· :: []) (Prod.ext start (by dsimp only; omega))

end

end BottlerOS.FreeList
