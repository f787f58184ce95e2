import Mathlib.Logic.Function.Basic

/-! Files under names, each with the room that was reserved for it. A file is written as a
whole, and only if it fits. -/

namespace BottlerOS.FileStore

variable {κ β : Type*} [DecidableEq κ]

structure File (β : Type*) where
  capacity : Nat
  contents : List β

abbrev Store (κ β : Type*) := κ → Option (File β)

inductive Op (κ β : Type*) where
  | create (name : κ) (capacity : Nat)
  | write (name : κ) (contents : List β)
  | delete (name : κ)
  | clear
  | look

/-- The operation may change the file of that name. -/
def Op.Names (name : κ) : Op κ β → Prop
  | .create n _ => n = name
  | .write n _ => n = name
  | .delete n => n = name
  | .clear => True
  | .look => False

inductive Step : Store κ β → Op κ β → Store κ β → Prop where
  | created {s : Store κ β} {name : κ} {capacity : Nat} (new : s name = none) :
      Step s (.create name capacity) (Function.update s name (some ⟨capacity, []⟩))
  | refused {s : Store κ β} {name : κ} {capacity : Nat} : Step s (.create name capacity) s
  | written {s : Store κ β} {name : κ} {f : File β} {contents : List β}
      (found : s name = some f) (room : contents.length ≤ f.capacity) :
      Step s (.write name contents) (Function.update s name (some ⟨f.capacity, contents⟩))
  /-- There is no such file, or it has not the room. -/
  | unwritten {s : Store κ β} {name : κ} {contents : List β}
      (small : ∀ f, s name = some f → f.capacity < contents.length) :
      Step s (.write name contents) s
  | deleted {s : Store κ β} {name : κ} :
      Step s (.delete name) (Function.update s name none)
  | cleared {s : Store κ β} : Step s .clear fun _ => none
  | looked {s : Store κ β} : Step s .look s

/-- The operations of a run, the last one at the end. -/
inductive Run (s : Store κ β) : List (Op κ β) → Store κ β → Prop where
  | refl : Run s [] s
  | step {ops : List (Op κ β)} {op : Op κ β} {t u : Store κ β} (run : Run s ops t)
      (step : Step t op u) : Run s (ops ++ [op]) u

section
variable {s t : Store κ β} {op : Op κ β} {ops : List (Op κ β)} {name : κ}

theorem Step.other (step : Step s op t) (other : ¬ op.Names name) : t name = s name := by
  cases step with
  | created new => exact Function.update_of_ne (Ne.symm other) _ _
  | refused => rfl
  | written found room => exact Function.update_of_ne (Ne.symm other) _ _
  | unwritten small => rfl
  | deleted => exact Function.update_of_ne (Ne.symm other) _ _
  | cleared => exact absurd trivial other
  | looked => rfl

/-- A file stays as it is until an operation names it. -/
theorem Run.other (run : Run s ops t) (other : ∀ op ∈ ops, ¬ op.Names name) :
    t name = s name := by
  induction run with
  | refl => rfl
  | step run step ih =>
    rw [step.other (other _ (by simp)), ih fun op hop => other op (by simp [hop])]

end

end BottlerOS.FileStore
