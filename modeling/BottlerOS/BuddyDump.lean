import Mathlib.Algebra.BigOperators.Group.List.Basic
import BottlerOS.BuddySound

/-! `buddy_dumpMM` of `memManagerBuddy.c`: the totals that `dumpMM` prints. -/

namespace BottlerOS.BuddyRuns
open Machine BuddyHeap BuddyTree BuddyNodes Yields

/-- `(uint64_t) x` -/
def uint64 (x : Int) : Int := x % 2 ^ 64

/-- `1 << n` and its product are `int`s. -/
def getSize (level maxLevel : Int) : Int :=
  uint64 (int32 (int32 (2 ^ (maxLevel - level).toNat) * PAGE_SIZE))

/-- What `size` and `used` point to. -/
structure Totals where
  size : Int
  used : Int

def buddyDumpMM (b : Heap) : (fuel : Nat) → (index level : Int) → Totals → C Totals
  | 0, _, _, _ => .error .hang
  | fuel + 1, index, level, totals => do
      match ← b.read index with
      | .unused =>
          pure { totals with size := uint64 (totals.size + getSize level b.level) }
      | .used =>
          pure {
            size := uint64 (totals.size + getSize level b.level)
            used := uint64 (totals.used + getSize level b.level) }
      | .full => do
          let totals ← buddyDumpMM b fuel (index * 2 + 1) (level + 1) totals
          buddyDumpMM b fuel (index * 2 + 2) (level + 1) totals
      | _ => do
          let totals ← buddyDumpMM b fuel (index * 2 + 1) (level + 1) totals
          buddyDumpMM b fuel (index * 2 + 2) (level + 1) totals

section
variable {b : Heap} {live : List Given} {t : Arena 17} {i d h s n : Nat} {u : Arena h} {z y : Int}

theorem uint64_of_range (low : 0 ≤ z) (high : z < 2 ^ 64) : uint64 z = z :=
  Int.emod_eq_of_lt low high

theorem pow_le_size (small : n ≤ 17) : (2 ^ n : Int) ≤ 2 ^ 17 := by
  exact_mod_cast Nat.pow_le_pow_right (by decide) small

theorem getSize_at (here : At i d h s) : getSize d LEVEL = 2 ^ h * PAGE_SIZE := by
  have height := here.height
  have levels : (LEVEL - d).toNat = h := by
    unfold LEVEL
    omega
  have high := pow_le_size (n := h) (by omega)
  have low : (0 : Int) < 2 ^ h := Int.pow_pos (by decide)
  have shifted : int32 (2 ^ h) = 2 ^ h :=
    int32_of_range (by omega) (by unfold INT_MAX; omega)
  rw [getSize, levels, shifted]
  unfold PAGE_SIZE
  rw [int32_of_range (by omega) (by unfold INT_MAX; omega), uint64_of_range (by omega) (by omega)]

theorem uint64_add (low : 0 ≤ z) (here : At i d h s) (room : z + 2 ^ h * PAGE_SIZE < 2 ^ 64) :
    uint64 (z + getSize d LEVEL) = z + 2 ^ h * PAGE_SIZE := by
  have pages : (0 : Int) < 2 ^ h := Int.pow_pos (by decide)
  rw [getSize_at here]
  apply uint64_of_range _ room
  unfold PAGE_SIZE
  omega

/-- The totals of the two halves of a split node, one after the other. -/
theorem Yields.halves {x y z : Totals} (run : b.tree i = .split ∨ b.tree i = .full)
    (inside : i < 2 * SIZE - 1)
    (left : Yields (fun f => buddyDumpMM b f (2 * i + 1 : Nat) (d + 1 : Nat) x) y)
    (right : Yields (fun f => buddyDumpMM b f (2 * i + 2 : Nat) (d + 1 : Nat) y) z) :
    Yields (fun f => buddyDumpMM b f i d x) z := by
  have leftIndex : (i : Int) * 2 + 1 = (2 * i + 1 : Nat) := by omega
  have rightIndex : (i : Int) * 2 + 2 = (2 * i + 2 : Nat) := by omega
  have below : (d : Int) + 1 = (d + 1 : Nat) := by omega
  apply (left.bind right).step
  · intro a h
    cases h
  · intro f
    rw [buddyDumpMM, read_ok inside, leftIndex, rightIndex, below]
    cases run with
    | inl split => rw [split]; rfl
    | inr full => rw [full]; rfl

/-- A node of the tree adds its pages to `size`, and those in use to `used`. -/
theorem buddyDumpMM_node (level : b.level = LEVEL) (rep : Rep b.tree i u) (here : At i d h s)
    (low : 0 ≤ y) (below : y ≤ z) (room : z + 2 ^ h * PAGE_SIZE < 2 ^ 64) :
    Yields (fun f => buddyDumpMM b f i d ⟨z, y⟩)
      ⟨z + 2 ^ h * PAGE_SIZE, y + u.cells s * PAGE_SIZE⟩ := by
  induction u generalizing i d s z y with
  | @unused h =>
    have none : (Arena.unused : Arena h).cells s = 0 := rfl
    apply Yields.step (.of_ok rfl)
    · intro a h
      cases h
    · intro f
      rw [buddyDumpMM, read_ok here.lt, rep.1, level, none, Nat.cast_zero, Int.zero_mul,
        Int.add_zero, ← uint64_add (low.trans below) here room]
      rfl
  | @used h =>
    have all : (Arena.used : Arena h).cells s = 2 ^ h := rfl
    apply Yields.step (.of_ok rfl)
    · intro a h
      cases h
    · intro f
      rw [buddyDumpMM, read_ok here.lt, rep.1, level, all, Nat.cast_pow, Nat.cast_two,
        ← uint64_add (low.trans below) here room, ← uint64_add low here (by omega)]
      rfl
  | @split h l r ihl ihr =>
    have twice : (2 : Int) ^ (h + 1) = 2 ^ h + 2 ^ h := by
      rw [Int.pow_succ]
      omega
    have half : (0 : Int) < 2 ^ h := Int.pow_pos (by decide)
    have least : (l.cells s : Int) ≤ 2 ^ h := by exact_mod_cast l.cells_le s
    unfold PAGE_SIZE at *
    have left := ihl rep.2.1 here.left low below (by omega)
    have right := ihr rep.2.2 here.right (y := y + l.cells s * 4096) (z := z + 2 ^ h * 4096)
      (by omega) (by omega) (by omega)
    have whole := Yields.halves (rep.1 ▸ mark_split l r) here.lt left right
    have size : z + 2 ^ h * 4096 + 2 ^ h * 4096 = z + 2 ^ (h + 1) * 4096 := by omega
    have used : y + l.cells s * 4096 + r.cells (s + 2 ^ h) * 4096 =
        y + ((Arena.split l r).cells s : Nat) * 4096 := by
      rw [Arena.cells_split]
      omega
    rwa [size, used] at whole

theorem given_sum (bs : List Block) :
    ((bs.map given).map fun g => (g.pages : Int) * PAGE_SIZE).sum =
      ((bs.map fun x => 2 ^ x.height).sum : Nat) * PAGE_SIZE := by
  induction bs with
  | nil => rfl
  | cons x bs ih =>
    rw [List.map_cons, List.map_cons, List.map_cons, List.sum_cons, List.sum_cons, ih,
      Nat.cast_add, Int.add_mul]
    rfl

theorem Inv.used_sum (inv : Inv b live t) :
    (live.map fun g => (g.pages : Int) * PAGE_SIZE).sum = t.cells 0 * PAGE_SIZE := by
  rw [(inv.blocks.map _).sum_eq, given_sum, Arena.cells]

end

/-- From the root `size` is the whole memory, and `used` the blocks that are live. -/
theorem buddyDumpMM_totals {b : Heap} {live : List Given} (reached : Reached b live) :
    Yields (fun f => buddyDumpMM b f 0 0 ⟨0, 0⟩)
      ⟨2 ^ LEVEL.toNat * PAGE_SIZE, (live.map fun g => (g.pages : Int) * PAGE_SIZE).sum⟩ := by
  obtain ⟨t, inv⟩ := reached_inv reached
  have totals := buddyDumpMM_node inv.level inv.rep at_root le_rfl le_rfl (by decide)
  rw [Int.zero_add, Int.zero_add, ← inv.used_sum] at totals
  exact totals

theorem buddyDumpMM_totals_one : ∃ b, Reached b [⟨pagePtr 0, 2⟩] ∧
    Yields (fun f => buddyDumpMM b f 0 0 ⟨0, 0⟩) ⟨536870912, 8192⟩ := by
  obtain ⟨fuel, b, -, run, -⟩ := first_alloc (s := 5000) (by decide) (by decide) (by decide)
  have reached := Reached.init.alloc (by decide) (by decide) run
  rw [if_neg (pagePtr_ne_null 0), rounded_5000] at reached
  exact ⟨b, reached, buddyDumpMM_totals reached⟩

end BottlerOS.BuddyRuns
