import BottlerOS.Scheduler

/-! Fuel only decides whether a function comes back: with more of it every result stays. -/

namespace BottlerOS.Fuel
open Machine Scheduler

/-- Where the first computation comes back the second one does, with the same result. -/
def Within {α : Type} (x y : C α) : Prop := ∀ a, x = .ok a → y = .ok a

section
variable {α β : Type} {x y : C α} {f g : α → C β}

theorem Within.refl (x : C α) : Within x x := fun _ h => h

theorem Within.bind (h : Within x y) (k : ∀ a, Within (f a) (g a)) :
    Within (x >>= f) (y >>= g) := by
  intro b hb
  obtain ⟨a, ha, hb⟩ := bind_ok.mp hb
  exact bind_ok.mpr ⟨a, h a ha, k a b hb⟩

/-- The first step is the same. -/
theorem Within.seq (k : ∀ a, Within (f a) (g a)) : Within (x >>= f) (x >>= g) :=
  Within.bind (.refl x) k

theorem Within.ite {p : Prop} [Decidable p] {x' y' : C α} (h : Within x y) (h' : Within x' y') :
    Within (if p then x else x') (if p then y else y') := by
  split
  · exact h
  · exact h'

end

section
variable {fuel fuel' steps steps' : Nat} {procs : Ptr → Option ProcessCDT} {pid : Int}
  {previous curr : Option Ptr} {s : Sched} {d : Ptr}

theorem searchProcess_within (le : fuel ≤ fuel') :
    Within (searchProcess procs pid fuel previous curr)
      (searchProcess procs pid fuel' previous curr) := by
  induction fuel generalizing fuel' previous curr with
  | zero =>
    intro a h
    cases h
  | succ fuel ih =>
    obtain ⟨fuel', rfl⟩ : ∃ n, fuel' = n + 1 := ⟨fuel' - 1, by omega⟩
    cases curr with
    | none => exact .refl _
    | some p => exact .seq fun r => .ite (.refl _) (ih (by omega))

theorem search_within (le : fuel ≤ fuel') : Within (search fuel pid s) (search fuel' pid s) :=
  searchProcess_within le

theorem removeProcess_within (le : fuel ≤ fuel') :
    Within (removeProcess fuel d s) (removeProcess fuel' d s) :=
  .seq fun _ => .bind (search_within le) fun _ => .refl _

theorem block_within (le : fuel ≤ fuel') : Within (block fuel pid s) (block fuel' pid s) := by
  refine .bind (search_within le) fun ⟨del, prev⟩ => ?_
  cases del with
  | none => exact .refl _
  | some d =>
    exact .seq fun r => .ite (.refl _) (.bind (search_within le) fun _ => .refl _)

theorem unblock_within (le : fuel ≤ fuel') : Within (unblock fuel pid s) (unblock fuel' pid s) := by
  refine .bind (search_within le) fun ⟨del, prev⟩ => ?_
  cases del with
  | none => exact .refl _
  | some d =>
    exact .seq fun r => .ite (.refl _) (.bind (search_within le) fun _ => .refl _)

theorem nextProcessLoop_within (le : fuel ≤ fuel') (less : steps ≤ steps') :
    Within (nextProcessLoop steps fuel s) (nextProcessLoop steps' fuel' s) := by
  induction fuel generalizing fuel' s with
  | zero =>
    intro a h
    cases h
  | succ fuel ih =>
    obtain ⟨fuel', rfl⟩ : ∃ n, fuel' = n + 1 := ⟨fuel' - 1, by omega⟩
    have rest : ∀ s, Within (nextProcessLoop steps fuel s) (nextProcessLoop steps' fuel' s) :=
      fun s => ih (by omega)
    unfold nextProcessLoop
    split
    · exact rest _
    · refine .seq fun r => .ite (.refl _) (.ite ?_ (.ite ?_ (rest _)))
      · exact .bind (unblock_within less) fun _ => rest _
      · exact .bind (removeProcess_within less) fun _ => rest _

theorem blockIdle_within {cond : Bool} (le : fuel ≤ fuel') :
    Within (blockIdle fuel cond s) (blockIdle fuel' cond s) :=
  .ite (.bind (block_within le) fun _ => .refl _) (.refl _)

/-- `nextProcess` with more fuel. -/
theorem nextProcess_within {rsp : Nat} (le : fuel ≤ fuel') :
    Within (nextProcess fuel rsp s) (nextProcess fuel' rsp s) :=
  .seq fun _ => .bind (nextProcessLoop_within le le) fun _ =>
    .seq fun _ => .bind (blockIdle_within le) fun _ => .refl _

end

end BottlerOS.Fuel
