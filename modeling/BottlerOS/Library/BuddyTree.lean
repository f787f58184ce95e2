import Mathlib.Algebra.Order.Ring.Nat
import Mathlib.Data.List.Perm.Basic
import Mathlib.Data.Nat.Log
import Mathlib.Tactic.Common

/-! Buddy trees. A tree of height `h` divides `2 ^ h` cells by halving, and its used leaves are
the blocks that have been handed out. -/

namespace BottlerOS.BuddyTree

inductive Arena : Nat → Type
  | unused {h : Nat} : Arena h
  | used {h : Nat} : Arena h
  | split {h : Nat} (l r : Arena h) : Arena (h + 1)

/-- The cells from `start` on, `2 ^ height` of them. -/
structure Block where
  start : Nat
  height : Nat
  deriving DecidableEq

/-- `2 ^ j` cells on a boundary of their own length, among `2 ^ h` from `s` on, that no block
meets. -/
structure Room (bs : List Block) (h s j o : Nat) : Prop where
  aligned : 2 ^ j ∣ o
  above : s ≤ o
  below : o + 2 ^ j ≤ s + 2 ^ h
  free : ∀ b ∈ bs, b.start + 2 ^ b.height ≤ o ∨ o + 2 ^ j ≤ b.start

namespace Arena

def isUnused : {h : Nat} → Arena h → Bool
  | _, unused => true
  | _, _ => false

/-- No cell is left. -/
def isFull : {h : Nat} → Arena h → Bool
  | _, unused => false
  | _, used => true
  | _, split l r => l.isFull && r.isFull
termination_by structural _ t => t

/-- No tree is split into two unused halves. -/
def Compact : {h : Nat} → Arena h → Prop
  | _, unused => True
  | _, used => True
  | _, split l r => ¬ (l.isUnused = true ∧ r.isUnused = true) ∧ l.Compact ∧ r.Compact
termination_by structural _ t => t

/-- The blocks of a tree whose first cell is `s`, from left to right. -/
def blocks : {h : Nat} → Nat → Arena h → List Block
  | _, _, unused => []
  | h, s, used => [⟨s, h⟩]
  | _, s, @split h l r => l.blocks s ++ r.blocks (s + 2 ^ h)
termination_by structural _ _ t => t

/-- How many cells have been handed out. -/
def cells {h : Nat} (s : Nat) (t : Arena h) : Nat := ((t.blocks s).map fun b => 2 ^ b.height).sum

/-- An unused tree whose first `2 ^ j` cells have been handed out. -/
def carve (j : Nat) : (h : Nat) → Arena h
  | 0 => used
  | h + 1 => if j = h + 1 then used else split (carve j h) unused

/-- The leftmost room for `2 ^ j` cells. -/
def alloc (j : Nat) : {h : Nat} → Nat → Arena h → Option (Nat × Arena h)
  | h, s, unused => some (s, carve j h)
  | _, _, used => none
  | _, s, @split h l r =>
      if j = h + 1 then none
      else match l.alloc j s with
        | some (o, l') => some (o, split l' r)
        | none => match r.alloc j (s + 2 ^ h) with
          | some (o, r') => some (o, split l r')
          | none => none
termination_by structural _ _ t => t

def join {h : Nat} (l r : Arena h) : Arena (h + 1) :=
  if l.isUnused = true ∧ r.isUnused = true then unused else split l r

/-- The block that starts at `o` is given back. -/
def free (o : Int) : {h : Nat} → Nat → Arena h → Option (Arena h)
  | _, _, unused => none
  | _, s, used => if o = s then some unused else none
  | _, s, @split h l r =>
      if o < (s + 2 ^ h : Nat) then (l.free o s).map (join · r)
      else (r.free o (s + 2 ^ h)).map (join l)
termination_by structural _ _ t => t

end Arena

section
variable {h s j o : Nat} {t t' l r : Arena h} {b : Block} {bs : List Block}
open Arena

theorem Arena.isUnused_iff : t.isUnused = true ↔ t = unused := by
  cases t <;> simp [isUnused]

theorem Arena.blocks_within (hb : b ∈ t.blocks s) :
    s ≤ b.start ∧ b.start + 2 ^ b.height ≤ s + 2 ^ h := by
  induction t generalizing s with
  | unused => cases hb
  | used =>
    obtain rfl := List.mem_singleton.mp hb
    exact ⟨le_rfl, le_rfl⟩
  | @split h l r ihl ihr =>
    have twice : 2 ^ (h + 1) = 2 ^ h + 2 ^ h := by rw [Nat.pow_succ]; omega
    have := Nat.two_pow_pos h
    rw [blocks] at hb
    cases List.mem_append.mp hb with
    | inl hb =>
      have := ihl hb
      omega
    | inr hb =>
      have := ihr hb
      omega

theorem Arena.cells_split (s : Nat) (l r : Arena h) :
    (split l r).cells s = l.cells s + r.cells (s + 2 ^ h) := by
  rw [cells, blocks, List.map_append, List.sum_append]
  rfl

theorem Arena.cells_le (s : Nat) (t : Arena h) : t.cells s ≤ 2 ^ h := by
  induction t generalizing s with
  | unused => exact Nat.zero_le _
  | used => exact le_rfl
  | @split h l r ihl ihr =>
    have left := ihl s
    have right := ihr (s + 2 ^ h)
    rw [cells_split, Nat.pow_succ]
    omega

theorem dvd_half (base : 2 ^ (h + 1) ∣ s) : 2 ^ h ∣ s ∧ 2 ^ h ∣ s + 2 ^ h := by
  have low : 2 ^ h ∣ s := dvd_trans (pow_dvd_pow 2 (Nat.le_succ h)) base
  exact ⟨low, Nat.dvd_add low dvd_rfl⟩

theorem Arena.blocks_aligned (base : 2 ^ h ∣ s) (hb : b ∈ t.blocks s) : 2 ^ b.height ∣ b.start := by
  induction t generalizing s with
  | unused => cases hb
  | used =>
    obtain rfl := List.mem_singleton.mp hb
    exact base
  | @split h l r ihl ihr =>
    obtain ⟨low, high⟩ := dvd_half base
    rw [blocks] at hb
    cases List.mem_append.mp hb with
    | inl hb => exact ihl low hb
    | inr hb => exact ihr high hb

/-- The blocks lie apart, from left to right. -/
theorem Arena.blocks_apart (t : Arena h) (s : Nat) :
    (t.blocks s).Pairwise fun a b => a.start + 2 ^ a.height ≤ b.start := by
  induction t generalizing s with
  | unused => exact List.Pairwise.nil
  | used => exact List.pairwise_singleton _ _
  | @split h l r ihl ihr =>
    rw [blocks, List.pairwise_append]
    refine ⟨ihl s, ihr _, fun a ha b hb => ?_⟩
    exact (blocks_within ha).2.trans (blocks_within hb).1

theorem Arena.Compact.eq_unused (compact : t.Compact) (none : t.blocks s = []) : t = unused := by
  induction t generalizing s with
  | unused => rfl
  | used => cases none
  | split l r ihl ihr =>
    obtain ⟨apart, cl, cr⟩ := compact
    obtain ⟨hl, hr⟩ := List.append_eq_nil_iff.mp none
    exact absurd ⟨isUnused_iff.mpr (ihl cl hl), isUnused_iff.mpr (ihr cr hr)⟩ apart

/-! `join` and `carve`. -/

@[simp] theorem Arena.join_blocks (l r : Arena h) (s : Nat) :
    (join l r).blocks s = l.blocks s ++ r.blocks (s + 2 ^ h) := by
  rw [join]
  split <;> rename_i both
  · rw [isUnused_iff.mp both.1, isUnused_iff.mp both.2]
    rfl
  · rfl

theorem Arena.Compact.join (hl : l.Compact) (hr : r.Compact) : (join l r).Compact := by
  rw [Arena.join]
  split <;> rename_i both
  · trivial
  · exact ⟨both, hl, hr⟩

theorem Arena.carve_blocks (fits : j ≤ h) (s : Nat) : (carve j h).blocks s = [⟨s, j⟩] := by
  induction h with
  | zero =>
    obtain rfl : j = 0 := by omega
    rfl
  | succ h ih =>
    rw [carve]
    split <;> rename_i whole
    · rw [whole]
      rfl
    · rw [blocks, ih (by omega)]
      rfl

theorem Arena.carve_unused (j h : Nat) : (carve j h).isUnused = false := by
  cases h with
  | zero => rfl
  | succ h =>
    rw [carve]
    split <;> rfl

theorem Arena.carve_compact (j h : Nat) : (carve j h).Compact := by
  induction h with
  | zero => trivial
  | succ h ih =>
    rw [carve]
    split
    · trivial
    · exact ⟨fun both => by simp [carve_unused] at both, ih, trivial⟩

/-! `alloc` -/

theorem Arena.alloc_left {a : Nat × Arena h} (part : j ≠ h + 1) (here : l.alloc j s = some a)
    (r : Arena h) : (split l r).alloc j s = some (a.1, split a.2 r) := by
  rw [alloc, if_neg part, here]

theorem Arena.alloc_right (part : j ≠ h + 1) (none : l.alloc j s = none) (r : Arena h) :
    (split l r).alloc j s = (r.alloc j (s + 2 ^ h)).map fun a => (a.1, split l a.2) := by
  rw [alloc, if_neg part, none]
  cases r.alloc j (s + 2 ^ h) <;> rfl

theorem Arena.alloc_unused (run : t.alloc j s = some (o, t')) : t'.isUnused = false := by
  cases t with
  | unused =>
    obtain ⟨-, rfl⟩ := Prod.mk.inj (Option.some.inj run)
    exact carve_unused j h
  | used => cases run
  | split l r =>
    rw [alloc] at run
    split at run
    · cases run
    · split at run
      · obtain ⟨-, rfl⟩ := Prod.mk.inj (Option.some.inj run)
        rfl
      · split at run
        · obtain ⟨-, rfl⟩ := Prod.mk.inj (Option.some.inj run)
          rfl
        · cases run

/-- The cases of an allocation in a split tree. -/
theorem Arena.alloc_split {t' : Arena (h + 1)} (run : (split l r).alloc j s = some (o, t')) :
    j ≠ h + 1 ∧ ((∃ l', l.alloc j s = some (o, l') ∧ t' = split l' r) ∨
      l.alloc j s = none ∧ ∃ r', r.alloc j (s + 2 ^ h) = some (o, r') ∧ t' = split l r') := by
  have part : j ≠ h + 1 := by
    intro whole
    rw [alloc, if_pos whole] at run
    cases run
  refine ⟨part, ?_⟩
  cases left : l.alloc j s with
  | some a =>
    rw [alloc_left part left] at run
    obtain ⟨rfl, rfl⟩ := Prod.mk.inj (Option.some.inj run)
    exact .inl ⟨a.2, rfl, rfl⟩
  | none =>
    rw [alloc_right part left] at run
    obtain ⟨a, right, run⟩ := Option.map_eq_some_iff.mp run
    obtain ⟨rfl, rfl⟩ := Prod.mk.inj run
    exact .inr ⟨rfl, a.2, right, rfl⟩

theorem Arena.alloc_compact (compact : t.Compact) (run : t.alloc j s = some (o, t')) :
    t'.Compact := by
  induction t generalizing s with
  | unused =>
    obtain ⟨-, rfl⟩ := Prod.mk.inj (Option.some.inj run)
    exact carve_compact j _
  | used => cases run
  | split l r ihl ihr =>
    obtain ⟨-, cl, cr⟩ := compact
    obtain ⟨-, ⟨l', left, rfl⟩ | ⟨-, r', right, rfl⟩⟩ := alloc_split run
    · exact ⟨fun both => by simp [alloc_unused left] at both, ihl cl left, cr⟩
    · exact ⟨fun both => by simp [alloc_unused right] at both, cl, ihr cr right⟩

theorem Arena.alloc_blocks (fits : j ≤ h) (run : t.alloc j s = some (o, t')) :
    (t'.blocks s).Perm (⟨o, j⟩ :: t.blocks s) := by
  induction t generalizing s with
  | unused =>
    obtain ⟨rfl, rfl⟩ := Prod.mk.inj (Option.some.inj run)
    rw [carve_blocks fits]
    exact List.Perm.refl _
  | used => cases run
  | split l r ihl ihr =>
    obtain ⟨part, ⟨l', left, rfl⟩ | ⟨-, r', right, rfl⟩⟩ := alloc_split run
    · rw [blocks, blocks]
      exact (ihl (by omega) left).append_right _
    · rw [blocks, blocks]
      exact ((ihr (by omega) right).append_left _).trans List.perm_middle

/-! Room. -/

/-- Room in a half of a tree is room in the tree, and the other way round. -/
theorem Room.left (room : Room (l.blocks s) h s j o) (r : Arena h) :
    Room ((split l r).blocks s) (h + 1) s j o := by
  have below := room.below
  refine ⟨room.aligned, room.above, by rw [Nat.pow_succ]; omega, ?_⟩
  intro b hb
  rw [blocks] at hb
  cases List.mem_append.mp hb with
  | inl hb => exact room.free b hb
  | inr hb => exact .inr (below.trans (blocks_within hb).1)

theorem Room.right (room : Room (r.blocks (s + 2 ^ h)) h (s + 2 ^ h) j o) (l : Arena h) :
    Room ((split l r).blocks s) (h + 1) s j o := by
  have below := room.below
  have above := room.above
  have := Nat.two_pow_pos h
  refine ⟨room.aligned, by omega, by rw [Nat.pow_succ]; omega, ?_⟩
  intro b hb
  rw [blocks] at hb
  cases List.mem_append.mp hb with
  | inl hb => exact .inl ((blocks_within hb).2.trans above)
  | inr hb => exact room.free b hb

theorem Room.half (base : 2 ^ (h + 1) ∣ s) (part : j ≤ h)
    (room : Room ((split l r).blocks s) (h + 1) s j o) :
    Room (l.blocks s) h s j o ∨ Room (r.blocks (s + 2 ^ h)) h (s + 2 ^ h) j o := by
  obtain ⟨aligned, above, below, free⟩ := room
  rw [blocks] at free
  have middle : 2 ^ j ∣ s + 2 ^ h := dvd_trans (pow_dvd_pow 2 part) (dvd_half base).2
  rcases Nat.lt_or_ge o (s + 2 ^ h) with low | high
  · have inside : o + 2 ^ j ≤ s + 2 ^ h := by
      obtain ⟨a, rfl⟩ := aligned
      obtain ⟨c, hc⟩ := middle
      rw [hc] at low ⊢
      have := Nat.lt_of_mul_lt_mul_left low
      calc 2 ^ j * a + 2 ^ j = 2 ^ j * (a + 1) := by rw [Nat.mul_add, Nat.mul_one]
        _ ≤ 2 ^ j * c := Nat.mul_le_mul_left _ this
    exact .inl ⟨aligned, above, inside, fun b hb => free b (List.mem_append_left _ hb)⟩
  · refine .inr ⟨aligned, high, by rw [Nat.pow_succ] at below; omega, fun b hb => ?_⟩
    exact free b (List.mem_append_right _ hb)

theorem Arena.not_room_used (s j o : Nat) : ¬ Room ((used : Arena h).blocks s) h s j o := by
  rintro ⟨-, above, below, free⟩
  have := free ⟨s, h⟩ List.mem_cons_self
  have := Nat.two_pow_pos j
  simp only at *
  omega

/-- Room for the whole tree means that nothing has been handed out. -/
theorem Room.whole (compact : t.Compact) (room : Room (t.blocks s) h s h o) : t = unused := by
  refine compact.eq_unused (s := s) (List.eq_nil_iff_forall_not_mem.mpr fun b hb => ?_)
  obtain ⟨-, above, below, free⟩ := room
  have within := blocks_within hb
  have := Nat.two_pow_pos b.height
  have := free b hb
  omega

/-- Without a block there is no room for it. -/
theorem Arena.alloc_none (base : 2 ^ h ∣ s) (fits : j ≤ h) (compact : t.Compact)
    (run : t.alloc j s = none) (o : Nat) : ¬ Room (t.blocks s) h s j o := by
  induction t generalizing s with
  | unused => cases run
  | used => exact not_room_used s j o
  | @split h l r ihl ihr =>
    intro room
    by_cases whole : j = h + 1
    · subst whole
      cases room.whole compact
    · obtain ⟨low, high⟩ := dvd_half base
      cases left : l.alloc j s with
      | some a =>
        rw [alloc_left whole left] at run
        cases run
      | none =>
        rw [alloc_right whole left] at run
        have right := Option.map_eq_none_iff.mp run
        cases room.half base (by omega) with
        | inl room => exact ihl low (by omega) compact.2.1 left room
        | inr room => exact ihr high (by omega) compact.2.2 right room

/-- The block that is handed out is the leftmost room. -/
theorem Arena.alloc_room (base : 2 ^ h ∣ s) (fits : j ≤ h) (compact : t.Compact)
    (run : t.alloc j s = some (o, t')) :
    Room (t.blocks s) h s j o ∧ ∀ o', Room (t.blocks s) h s j o' → o ≤ o' := by
  induction t generalizing s with
  | @unused h =>
    obtain ⟨rfl, -⟩ := Prod.mk.inj (Option.some.inj run)
    refine ⟨⟨dvd_trans (pow_dvd_pow 2 fits) base, le_rfl, ?_, by simp [blocks]⟩,
      fun _ => Room.above⟩
    exact Nat.add_le_add_left (Nat.pow_le_pow_right (by omega) fits) _
  | used => cases run
  | @split h l r ihl ihr =>
    obtain ⟨low, high⟩ := dvd_half base
    obtain ⟨part, ⟨l', left, -⟩ | ⟨none, r', right, -⟩⟩ := alloc_split run
    · obtain ⟨room, least⟩ := ihl low (by omega) compact.2.1 left
      refine ⟨room.left r, fun o' other => ?_⟩
      cases other.half base (by omega) with
      | inl other => exact least o' other
      | inr other =>
        have := Nat.two_pow_pos j
        have := room.below
        have := other.above
        omega
    · obtain ⟨room, least⟩ := ihr high (by omega) compact.2.2 right
      refine ⟨room.right l, fun o' other => ?_⟩
      cases other.half base (by omega) with
      | inl other => exact absurd other (alloc_none low (by omega) compact.2.1 none o')
      | inr other => exact least o' other

/-- A full tree has no block to hand out. -/
theorem Arena.alloc_full (full : t.isFull = true) (j s : Nat) : t.alloc j s = none := by
  induction t generalizing s with
  | unused => cases full
  | used => rfl
  | split l r ihl ihr =>
    obtain ⟨fl, fr⟩ := Bool.and_eq_true_iff.mp full
    rw [alloc, ihl fl, ihr fr]
    split <;> rfl

/-- A tree that is not full has one cell to hand out. -/
theorem Arena.alloc_cell (some : t.isFull = false) (s : Nat) : (t.alloc 0 s).isSome = true := by
  induction t generalizing s with
  | unused => rfl
  | used => cases some
  | @split h l r ihl ihr =>
    have part : 0 ≠ h + 1 := by omega
    cases left : l.alloc 0 s with
    | some a =>
      rw [alloc_left part left]
      rfl
    | none =>
      rw [alloc_right part left, Option.isSome_map]
      cases fl : l.isFull with
      | true => exact ihr (by simpa [isFull, fl] using some) _
      | false =>
        have cell := ihl fl s
        rw [left] at cell
        cases cell

/-! `free` -/

theorem Arena.free_blocks {o : Int} (run : t.free o s = some t') :
    ∃ b : Block, (b.start : Int) = o ∧ (t.blocks s).Perm (b :: t'.blocks s) := by
  induction t generalizing s with
  | unused => cases run
  | @used h =>
    rw [free] at run
    split at run <;> rename_i here
    · obtain rfl := Option.some.inj run
      exact ⟨⟨s, h⟩, here.symm, List.Perm.refl _⟩
    · cases run
  | split l r ihl ihr =>
    rw [free] at run
    split at run
    · obtain ⟨l', left, rfl⟩ := Option.map_eq_some_iff.mp run
      obtain ⟨b, start, perm⟩ := ihl left
      rw [join_blocks, blocks]
      exact ⟨b, start, perm.append_right _⟩
    · obtain ⟨r', right, rfl⟩ := Option.map_eq_some_iff.mp run
      obtain ⟨b, start, perm⟩ := ihr right
      rw [join_blocks, blocks]
      exact ⟨b, start, (perm.append_left _).trans List.perm_middle⟩

theorem Arena.free_compact {o : Int} (compact : t.Compact) (run : t.free o s = some t') :
    t'.Compact := by
  induction t generalizing s with
  | unused => cases run
  | used =>
    rw [free] at run
    split at run
    · obtain rfl := Option.some.inj run
      trivial
    · cases run
  | split l r ihl ihr =>
    obtain ⟨-, cl, cr⟩ := compact
    rw [free] at run
    split at run
    · obtain ⟨l', left, rfl⟩ := Option.map_eq_some_iff.mp run
      exact (ihl cl left).join cr
    · obtain ⟨r', right, rfl⟩ := Option.map_eq_some_iff.mp run
      exact cl.join (ihr cr right)

theorem Arena.join_full (l r : Arena h) : (join l r).isFull = (l.isFull && r.isFull) := by
  rw [join]
  split <;> rename_i both
  · rw [isUnused_iff.mp both.1]
    rfl
  · rfl

theorem Arena.free_full {o : Int} (run : t.free o s = some t') : t'.isFull = false := by
  induction t generalizing s with
  | unused => cases run
  | used =>
    rw [free] at run
    split at run
    · obtain rfl := Option.some.inj run
      rfl
    · cases run
  | split l r ihl ihr =>
    rw [free] at run
    split at run
    · obtain ⟨l', left, rfl⟩ := Option.map_eq_some_iff.mp run
      rw [join_full, ihl left, Bool.false_and]
    · obtain ⟨r', right, rfl⟩ := Option.map_eq_some_iff.mp run
      rw [join_full, ihr right, Bool.and_false]

/-- What is not given back is no block's start. -/
theorem Arena.free_none {o : Int} (run : t.free o s = none) (hb : b ∈ t.blocks s) :
    (b.start : Int) ≠ o := by
  induction t generalizing s with
  | unused => cases hb
  | used =>
    obtain rfl := List.mem_singleton.mp hb
    rw [free] at run
    split at run <;> rename_i here
    · cases run
    · exact fun same => here same.symm
  | @split h l r ihl ihr =>
    intro start
    have within : b.start < s + 2 ^ h ∧ b ∈ l.blocks s ∨
        s + 2 ^ h ≤ b.start ∧ b ∈ r.blocks (s + 2 ^ h) := by
      rw [blocks] at hb
      cases List.mem_append.mp hb with
      | inl hb =>
        have := Nat.two_pow_pos b.height
        have := (blocks_within hb).2
        exact .inl ⟨by omega, hb⟩
      | inr hb => exact .inr ⟨(blocks_within hb).1, hb⟩
    rw [free] at run
    split at run <;> rename_i low
    · obtain ⟨-, hb⟩ := within.resolve_right fun far => by omega
      exact ihl (Option.map_eq_none_iff.mp run) hb start
    · obtain ⟨-, hb⟩ := within.resolve_left fun near => by omega
      exact ihr (Option.map_eq_none_iff.mp run) hb start

end

end BottlerOS.BuddyTree
