import Mathlib.Data.List.Basic
import Mathlib.Data.List.Nodup

/-! Singly linked lists in a memory of cells. `nx a` is the link stored in the
cell at `a`: `none` when there is no such cell, `some none` when the link is
NULL. The edits of a list (unlink, insert, append) are all one fact: the cells
before the edited one keep their links, and the edited one leads to the new rest. -/

namespace BottlerOS.LinkedList

variable {α : Type*} {nx nx' : α → Option (Option α)}

/-- The cells `xs`, in order, lead from the link `p` to the link `q`. -/
def Linked (nx : α → Option (Option α)) : Option α → List α → Option α → Prop
  | p, [], q => p = q
  | p, x :: xs, q => p = some x ∧ ∃ r, nx x = some r ∧ Linked nx r xs q

@[simp] theorem linked_nil {p q : Option α} : Linked nx p [] q ↔ p = q := Iff.rfl

theorem linked_cons {p q : Option α} {x : α} {xs : List α} :
    Linked nx p (x :: xs) q ↔ p = some x ∧ ∃ r, nx x = some r ∧ Linked nx r xs q := Iff.rfl

theorem linked_append {p q : Option α} {xs ys : List α} :
    Linked nx p (xs ++ ys) q ↔ ∃ r, Linked nx p xs r ∧ Linked nx r ys q := by
  induction xs generalizing p with
  | nil => simp
  | cons x xs ih =>
    simp only [List.cons_append, linked_cons, ih]
    constructor
    · rintro ⟨hp, r, hr, m, h1, h2⟩
      exact ⟨m, ⟨hp, r, hr, h1⟩, h2⟩
    · rintro ⟨m, ⟨hp, r, hr, h1⟩, h2⟩
      exact ⟨hp, r, hr, m, h1, h2⟩

/-- A list split at a cell: the cells before it lead to it. -/
theorem linked_split {p q : Option α} {pre post : List α} {x : α} :
    Linked nx p (pre ++ x :: post) q ↔
      Linked nx p pre (some x) ∧ ∃ r, nx x = some r ∧ Linked nx r post q := by
  rw [linked_append]
  constructor
  · rintro ⟨m, h1, rfl, h2⟩
    exact ⟨h1, h2⟩
  · rintro ⟨h1, h2⟩
    exact ⟨some x, h1, rfl, h2⟩

/-- Only the links of the listed cells matter. -/
theorem linked_congr {p q : Option α} {xs : List α} (same : ∀ x ∈ xs, nx' x = nx x)
    (h : Linked nx p xs q) : Linked nx' p xs q := by
  induction xs generalizing p with
  | nil => exact h
  | cons x xs ih =>
    obtain ⟨hp, r, hr, h⟩ := h
    refine ⟨hp, r, ?_, ih (fun y hy => same y (List.mem_cons_of_mem _ hy)) h⟩
    rw [same x List.mem_cons_self, hr]

theorem linked_allocated {p q : Option α} {xs : List α} (h : Linked nx p xs q) :
    ∀ x ∈ xs, ∃ r, nx x = some r := by
  induction xs generalizing p with
  | nil => simp
  | cons x xs ih =>
    obtain ⟨-, r, hr, h⟩ := h
    intro y hy
    rcases List.mem_cons.mp hy with rfl | hy
    · exact ⟨r, hr⟩
    · exact ih h y hy

theorem linked_head {p q : Option α} {xs : List α} (h : Linked nx p xs q) :
    p = (xs.head?).or q := by
  cases xs with
  | nil => exact h
  | cons x xs => exact h.1

/-- The cells are determined by the first link: two lists from one link to NULL are equal. -/
theorem linked_unique {p : Option α} {xs ys : List α}
    (hx : Linked nx p xs none) (hy : Linked nx p ys none) : xs = ys := by
  induction xs generalizing p ys with
  | nil =>
    cases ys with
    | nil => rfl
    | cons y ys => rw [linked_nil.mp hx] at hy; exact absurd hy.1 (by simp)
  | cons x xs ih =>
    obtain ⟨rfl, r, hr, hx⟩ := hx
    cases ys with
    | nil => exact absurd hy (by simp)
    | cons y ys =>
      obtain ⟨he, s, hs, hy⟩ := hy
      obtain rfl := Option.some.inj he
      obtain rfl := Option.some.inj (hr.symm.trans hs)
      rw [ih hx hy]

/-- Changing the link of one cell of a list changes what follows it and nothing before it. -/
theorem linked_relink {p q q' : Option α} {pre post post' : List α} {a : α} {r : Option α}
    (h : Linked nx p (pre ++ a :: post) q) (keep : ∀ x ∈ pre, nx' x = nx x)
    (link : nx' a = some r) (rest : Linked nx' r post' q') :
    Linked nx' p (pre ++ a :: post') q' := by
  obtain ⟨h, -⟩ := linked_split.mp h
  exact linked_split.mpr ⟨linked_congr keep h, r, link, rest⟩

/-- The cell behind `a` leaves the list when `a` takes over its link. -/
theorem linked_unlink {p q r : Option α} {pre post : List α} {a d : α}
    (h : Linked nx p (pre ++ a :: d :: post) q) (once : (pre ++ a :: d :: post).Nodup)
    (behind : nx d = some r) (keep : ∀ x, x ≠ a → nx' x = nx x) (link : nx' a = some r) :
    Linked nx' p (pre ++ a :: post) q := by
  have apart := (List.nodup_cons.mp (List.nodup_middle.mp once)).1
  rw [List.mem_append, not_or] at apart
  obtain ⟨-, n, -, -, s, hs, rest⟩ := linked_split.mp h
  obtain rfl := Option.some.inj (behind.symm.trans hs)
  refine linked_relink h (fun x hx => keep x ?_) link (linked_congr (fun x hx => keep x ?_) rest)
  · exact fun e => apart.1 (e ▸ hx)
  · exact fun e => apart.2 (List.mem_cons_of_mem _ (e ▸ hx))

/-- The link of a listed cell is the next listed cell, or where the list ends. -/
theorem linked_next {p q : Option α} {pre post : List α} {x : α} {r : Option α}
    (h : Linked nx p (pre ++ x :: post) q) (hr : nx x = some r) : r = post.head?.or q := by
  obtain ⟨-, s, hs, h⟩ := linked_split.mp h
  obtain rfl := Option.some.inj (hr.symm.trans hs)
  exact linked_head h

end BottlerOS.LinkedList
