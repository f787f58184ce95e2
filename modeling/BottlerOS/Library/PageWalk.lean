import BottlerOS.Library.Words

/-! The walk of a processor through four levels of page tables in memory. -/

namespace BottlerOS.PageWalk
open Words

/-- Bit 0 of an entry. -/
def Present (entry : Nat) : Prop := entry % 2 = 1

/-- Bit 7 of an entry: a page, and no further table. -/
def Large (entry : Nat) : Prop := entry / 128 % 2 = 1

instance (entry : Nat) : Decidable (Present entry) := inferInstanceAs (Decidable (_ = _))

instance (entry : Nat) : Decidable (Large entry) := inferInstanceAs (Decidable (_ = _))

/-- The bits 51 to `k` of an entry. -/
def frame (k entry : Nat) : Nat := entry / 2 ^ k % 2 ^ (52 - k) * 2 ^ k

/-- The entry of a table for an address, `k` bits of which are below it. -/
def entryOf (m : Bytes) (table k v : Nat) : Nat := load64 m (table + 8 * (v / 2 ^ k % 512))

/-- The bits 63 to 47 of an address are alike. -/
def Canonical (v : Nat) : Prop := v < 2 ^ 47 ∨ 2 ^ 64 - 2 ^ 47 ≤ v ∧ v < 2 ^ 64

instance (v : Nat) : Decidable (Canonical v) := inferInstanceAs (Decidable (_ ∨ _))

/-- A present entry. -/
def present (entry : Nat) : Option Nat := if Present entry then some entry else none

/-- The physical address behind a virtual one. -/
def walk (m : Bytes) (cr3 v : Nat) : Option Nat :=
  if Canonical v then do
    let pml4e ← present (entryOf m (frame 12 cr3) 39 v)
    let pdpe ← present (entryOf m (frame 12 pml4e) 30 v)
    if Large pdpe then pure (frame 30 pdpe + v % 2 ^ 30) else do
      let pde ← present (entryOf m (frame 12 pdpe) 21 v)
      if Large pde then pure (frame 21 pde + v % 2 ^ 21) else do
        let pte ← present (entryOf m (frame 12 pde) 12 v)
        pure (frame 12 pte + v % 2 ^ 12)
  else none

section
variable {m : Bytes} {cr3 v pml4e pdpe pde : Nat}

theorem present_some {entry : Nat} (h : Present entry) : present entry = some entry := if_pos h

/-- The walk to a page of 2 MiB. -/
theorem walk_large (canonical : Canonical v) (first : entryOf m (frame 12 cr3) 39 v = pml4e)
    (second : entryOf m (frame 12 pml4e) 30 v = pdpe) (third : entryOf m (frame 12 pdpe) 21 v = pde)
    (present₁ : Present pml4e) (present₂ : Present pdpe) (present₃ : Present pde)
    (table : ¬ Large pdpe) (large : Large pde) :
    walk m cr3 v = some (frame 21 pde + v % 2 ^ 21) := by
  rw [walk, if_pos canonical, first, present_some present₁, Option.bind_eq_bind, Option.bind_some,
    second, present_some present₂, Option.bind_some, if_neg table, third, present_some present₃,
    Option.bind_some, if_pos large]
  rfl

end

end BottlerOS.PageWalk
