import Mathlib.Data.List.Chain
import Mathlib.Data.List.Infix
import Mathlib.Data.List.Nodup
import Mathlib.Logic.Function.Basic

/-! Circular lists whose members know their neighbours on both sides. -/

namespace BottlerOS.CircularList

variable {α : Type*} {left right left' right' : α → α} {l : List α} {a b e f x : α}

/-- `b` is to the right of `a`, and `a` to the left of `b`. -/
def Joined (left right : α → α) (a b : α) : Prop := right a = b ∧ left b = a

/-- The members of `l`, from `f` to `e`, form one circle. -/
structure Round (left right : α → α) (l : List α) (f e : α) : Prop where
  nodup : l.Nodup
  first : l.head? = some f
  last : l.getLast? = some e
  chain : l.IsChain (Joined left right)
  closed : Joined left right e f

/-- A chain reads the right links of all members but the last, and the left links of all but the
first. -/
theorem chain_congr (chain : l.IsChain (Joined left right))
    (rights : ∀ a ∈ l.dropLast, right' a = right a) (lefts : ∀ b ∈ l.tail, left' b = left b) :
    l.IsChain (Joined left' right') := by
  induction l with
  | nil => exact .nil
  | cons a l ih =>
    cases l with
    | nil => exact .singleton a
    | cons b l =>
      rw [List.isChain_cons_cons] at chain ⊢
      obtain ⟨⟨forth, back⟩, chain⟩ := chain
      refine ⟨⟨(rights a List.mem_cons_self).trans forth,
        (lefts b List.mem_cons_self).trans back⟩, ?_⟩
      exact ih chain (fun a ha => rights a (List.mem_cons_of_mem _ ha))
        fun b hb => lefts b (List.mem_cons_of_mem _ hb)

theorem ne_of_dropLast (nodup : l.Nodup) (last : l.getLast? = some e) (ha : a ∈ l.dropLast) :
    a ≠ e := by
  rw [← List.dropLast_append_getLast? e last, List.nodup_append] at nodup
  exact nodup.2.2 a ha e List.mem_cons_self

theorem ne_of_tail (nodup : l.Nodup) (first : l.head? = some f) (ha : a ∈ l.tail) : a ≠ f := by
  rw [← List.cons_head?_tail first, List.nodup_cons] at nodup
  rintro rfl
  exact nodup.1 ha

/-- One more member at the end of a chain. -/
theorem chain_snoc [DecidableEq α] (nodup : l.Nodup) (chain : l.IsChain (Joined left right))
    (last : l.getLast? = some e) (fresh : x ∉ l) :
    (l ++ [x]).IsChain (Joined (Function.update left x e) (Function.update right e x)) := by
  refine List.IsChain.append (chain_congr chain ?_ ?_) (.singleton x) ?_
  · exact fun a ha => Function.update_of_ne (ne_of_dropLast nodup last ha) _ _
  · intro b hb
    refine Function.update_of_ne ?_ _ _
    rintro rfl
    exact fresh (List.mem_of_mem_tail hb)
  · intro a ha b hb
    rw [last] at ha
    obtain rfl := Option.some.inj ha
    obtain rfl := Option.some.inj hb
    exact ⟨Function.update_self _ _ _, Function.update_self _ _ _⟩

/-- A chain whose ends are joined. -/
theorem Round.close [DecidableEq α] (nodup : l.Nodup) (chain : l.IsChain (Joined left right))
    (first : l.head? = some f) (last : l.getLast? = some e) :
    Round (Function.update left f e) (Function.update right e f) l f e where
  nodup := nodup
  first := first
  last := last
  chain := by
    refine chain_congr chain ?_ ?_
    · exact fun a ha => Function.update_of_ne (ne_of_dropLast nodup last ha) _ _
    · exact fun b hb => Function.update_of_ne (ne_of_tail nodup first hb) _ _
  closed := ⟨Function.update_self _ _ _, Function.update_self _ _ _⟩

theorem Round.mem_first (round : Round left right l f e) : f ∈ l :=
  List.mem_of_mem_head? round.first

theorem Round.mem_last (round : Round left right l f e) : e ∈ l :=
  List.mem_of_mem_getLast? round.last

/-- A new member between the last one and the first. -/
theorem Round.insert [DecidableEq α] (round : Round left right l f e) (fresh : x ∉ l) :
    Round (Function.update (Function.update left x e) f x)
      (Function.update (Function.update right x f) e x) (l ++ [x]) f x := by
  have apart : x ≠ e := fun eq => fresh (eq ▸ round.mem_last)
  rw [Function.update_comm apart]
  apply Round.close
  · rw [List.nodup_append]
    refine ⟨round.nodup, List.nodup_singleton x, fun a ha b hb => ?_⟩
    obtain rfl := List.mem_singleton.mp hb
    exact fun eq => fresh (eq ▸ ha)
  · exact chain_snoc round.nodup round.chain round.last fresh
  · rw [List.head?_append, round.first, Option.some_or]
  · exact List.getLast?_concat

/-- The last of several members is taken out. -/
theorem Round.remove [DecidableEq α] (round : Round left right (l ++ [x]) f x) (more : l ≠ []) :
    Round (Function.update left f (left x)) (Function.update right (left x) f) l f (left x) := by
  obtain ⟨e, last⟩ : ∃ e, l.getLast? = some e := Option.isSome_iff_exists.mp (by simpa using more)
  obtain ⟨nodup, first, -, chain, -⟩ := round
  rw [List.isChain_append] at chain
  obtain ⟨chain, -, seam⟩ := chain
  obtain ⟨-, rfl⟩ := seam e last x rfl
  apply Round.close (List.nodup_append.mp nodup).1 chain _ last
  rwa [List.head?_append_of_ne_nil l more] at first

/-- To the right of a member is a member. -/
theorem Round.right_mem (round : Round left right l f e) (ha : a ∈ l) :
    right a ∈ l ∧ left (right a) = a := by
  obtain ⟨s, t, rfl⟩ := List.append_of_mem ha
  cases t with
  | nil =>
    have last := round.last
    rw [List.getLast?_concat] at last
    obtain rfl := Option.some.inj last
    obtain ⟨forth, back⟩ := round.closed
    rw [forth]
    exact ⟨round.mem_first, back⟩
  | cons b t =>
    have chain := round.chain
    rw [List.isChain_append_cons_cons] at chain
    obtain ⟨-, ⟨forth, back⟩, -⟩ := chain
    rw [forth]
    exact ⟨by simp, back⟩

/-- To the left of a member is a member. -/
theorem Round.left_mem (round : Round left right l f e) (ha : a ∈ l) :
    left a ∈ l ∧ right (left a) = a := by
  obtain ⟨s, t, rfl⟩ := List.append_of_mem ha
  rcases List.eq_nil_or_concat s with rfl | ⟨s, c, rfl⟩
  · obtain rfl := Option.some.inj round.first
    obtain ⟨forth, back⟩ := round.closed
    rw [back]
    exact ⟨round.mem_last, forth⟩
  · have chain := round.chain
    rw [List.concat_eq_append, List.append_assoc, List.singleton_append,
      List.isChain_append_cons_cons] at chain
    obtain ⟨-, ⟨forth, back⟩, -⟩ := chain
    rw [back]
    exact ⟨by simp, forth⟩

end BottlerOS.CircularList
