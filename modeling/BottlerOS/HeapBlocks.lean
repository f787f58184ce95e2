import BottlerOS.HeapNodes

/-! Blocks of the heap of `memManagerFRT4.c`: first fit, and what `pvPortMalloc` and `vPortFree`
make of the free list and of the blocks that are allocated. -/

namespace BottlerOS.HeapBlocks
open Machine Words DefaultHeap FreeList Yields HeapNodes

section
variable {h : Heap} {lo w : Nat} {x : Region} {before behind rest : List Region}

/-- First fit: the loop passes the blocks that are too small. -/
theorem findBlock_yields (x : Region) (nodes : Nodes h.mem h.pxEnd (x :: before ++ rest))
    (nz : ∀ y ∈ before ++ rest, y.1 ≠ 0) (end_pos : h.pxEnd ≠ 0) (small : ∀ y ∈ before, y.2 < w)
    (stop : ∀ n p, findBlock h w (n + 1) p (first h.pxEnd rest) = .ok (p, first h.pxEnd rest)) :
    ∃ init it, x :: before = init ++ [it] ∧
      Yields (fun fuel => findBlock h w fuel x.1 (first h.pxEnd (before ++ rest)))
        (it.1, first h.pxEnd rest) := by
  induction before generalizing x with
  | nil => exact ⟨[], x, rfl, Yields.step (Yields.of_ok rfl) nofun fun n => stop n x.1⟩
  | cons y before ih =>
    obtain ⟨init, it, list, loop⟩ := ih y nodes.2.2
      (fun z hz => nz z (List.mem_cons_of_mem y hz)) fun z hz => small z (List.mem_cons_of_mem y hz)
    refine ⟨x :: init, it, by rw [list, List.cons_append], Yields.step loop nofun fun n => ?_⟩
    have hy : y.1 ≠ 0 := nz y List.mem_cons_self
    have size : sizeAt h.mem y.1 = y.2 := nodes.2.2.2.1
    have next : nextAt h.mem y.1 = first h.pxEnd (before ++ rest) := nodes.2.2.1
    have inner : first h.pxEnd (before ++ rest) ≠ 0 := by
      have others : ∀ z ∈ before ++ rest, z.1 ≠ 0 := fun z hz => nz z (List.mem_cons_of_mem y hz)
      cases list : before ++ rest with
      | nil => exact end_pos
      | cons z zs => exact others z (by rw [list]; exact List.mem_cons_self)
    show findBlock h w (n + 1) x.1 y.1 = _
    rw [findBlock, size_ok hy, size, ok_bind, if_pos (small y List.mem_cons_self), next_ok hy, next,
      ok_bind, if_pos inner]

/-- The size of the block that a request of `w` bytes takes from a free block. -/
def taken (w : Nat) (x : Region) : Nat := if x.2 - w > 32 then w else x.2

/-- What a request of `w` bytes gives back of a free block. -/
def remainder (w : Nat) (x : Region) : List Region :=
  if x.2 - w > 32 then [(x.1 + w, x.2 - w)] else []

theorem splitBlock_spec (arena : Arena h.xStart h.pxEnd lo)
    (listed : Listed h.mem h.xStart h.pxEnd lo (before ++ behind))
    (fits : Fits lo h.pxEnd x) (size : sizeAt h.mem x.1 = x.2)
    (low : ∀ y ∈ before, y.1 + y.2 < x.1) (high : ∀ y ∈ behind, x.1 + x.2 < y.1)
    (header : 16 ≤ w) (le : w ≤ x.2) :
    ∃ m', Yields (fun fuel => splitBlock fuel x.1 w h) { h with mem := m' } ∧
      Listed m' h.xStart h.pxEnd lo (before ++ (remainder w x ++ behind)) ∧
      sizeAt m' x.1 = taken w x ∧ Kept h.xStart (x :: (before ++ behind)) h.mem m' := by
  have nz := fits.ne_zero arena
  have clear := fits.clear_start arena
  have stop := fits.high
  have end_lt := arena.end_lt
  have rest : size_t ((x.2 : Int) - w) = x.2 - w := size_t_sub le (by omega)
  by_cases big : x.2 - w > 32
  · have middle : size_t ((x.1 : Int) + w) = x.1 + w := size_t_add (by omega)
    rw [remainder, if_pos big, taken, if_pos big]
    -- both headers are written inside the block
    let m₁ := store64 (x.1 + 8) w (store64 (x.1 + w + 8) (x.2 - w) h.mem)
    have within : ∀ a, (∀ y ∈ [x], ¬ Inside a y) → m₁ a = h.mem a := fun a out => by
      have := out x List.mem_cons_self
      unfold Inside at this
      exact (store64_of_outside (by omega)).trans (store64_of_outside (by omega))
    have apart : ∀ y ∈ (h.xStart, 16) :: (before ++ behind), ∀ z ∈ [x], Apart y z := by
      intro y hy z hz
      obtain rfl := List.mem_singleton.mp hz
      rcases List.mem_cons.mp hy with rfl | hy
      · exact fits.start_apart arena
      · rcases List.mem_append.mp hy with hy | hy
        · exact apart_of_le (Nat.le_of_lt (low y hy))
        · exact (apart_of_le (Nat.le_of_lt (high y hy))).symm
    have listed₁ : Listed m₁ h.xStart h.pxEnd lo (before ++ behind) := listed.kept [x] within apart
    have size₁ : sizeAt m₁ (x.1 + w) = x.2 - w := by
      rw [show sizeAt m₁ (x.1 + w) = sizeAt (store64 (x.1 + w + 8) (x.2 - w) h.mem) (x.1 + w) from
        load64_store64_apart (by omega), sizeAt_size, Nat.mod_eq_of_lt (by omega)]
    obtain ⟨m', run, listed', kept⟩ := insert_spec (h := { h with mem := m₁ }) (b := x.1 + w)
      (s := x.2 - w) arena
      listed₁ ⟨by have := fits.low; dsimp only; omega, by dsimp only; omega,
        by dsimp only; omega⟩ size₁ (fun y hy => by
        rcases List.mem_append.mp hy with hy | hy
        · have := low y hy
          omega
        · have := high y hy
          omega)
    rw [insert_between (fun y hy => by have := low y hy; omega)
      fun y hy => by have := high y hy; omega] at listed'
    have keptW : Kept h.xStart (x :: (before ++ behind)) h.mem m₁ := fun a _ out =>
      within a fun y hy => out y (List.mem_cons.mpr (Or.inl (List.mem_singleton.mp hy)))
    refine ⟨m', Yields.congr run fun fuel => ?_, listed', ?_, keptW.trans
      (kept.mono fun y hy a inside => ?_)⟩
    · rw [splitBlock, size_ok nz, size, ok_bind, rest, middle, heapMINIMUM_BLOCK_SIZE_eq,
        if_pos big]
      dsimp only
      rw [setSize_ok (by omega), ok_bind, setSize_ok nz, ok_bind]
    · have same : SameHeader m₁ m' x.1 := by
        refine kept.same clear fun y hy => ?_
        rcases List.mem_cons.mp hy with rfl | hy
        · exact apart_of_le (by dsimp only; omega)
        · exact fits.headerApart (apart y (List.mem_cons_of_mem _ hy) x (by simp)).symm
      rw [same.size, sizeAt_size, Nat.mod_eq_of_lt (by omega)]
    · rcases List.mem_cons.mp hy with rfl | hy
      · have := inside.1
        have := inside.2
        dsimp only at *
        exact ⟨x, List.mem_cons_self, by omega, by omega⟩
      · exact ⟨y, List.mem_cons_of_mem _ hy, inside⟩
  · rw [remainder, if_neg big, taken, if_neg big, List.nil_append]
    refine ⟨h.mem, Yields.congr (Yields.of_ok rfl) fun fuel => ?_, listed, size, fun a _ _ => rfl⟩
    rw [splitBlock, size_ok nz, size, ok_bind, rest, heapMINIMUM_BLOCK_SIZE_eq, if_neg big]
    rfl

theorem taken_le (le : w ≤ x.2) : taken w x ≤ x.2 := by
  unfold taken
  split <;> omega

theorem le_taken (le : w ≤ x.2) : w ≤ taken w x := by
  unfold taken
  split <;> omega

/-- What is given back lies behind what is taken. -/
theorem taken_apart (y : Region) (hy : y ∈ remainder w x) : Apart (x.1, taken w x) y := by
  unfold remainder at hy
  unfold taken
  split at hy <;> rename_i big
  · obtain rfl := List.mem_singleton.mp hy
    rw [if_pos big]
    exact apart_of_le (Nat.le_refl _)
  · simp at hy

theorem total_remainder (le : w ≤ x.2) : total (remainder w x) + taken w x = x.2 := by
  unfold remainder taken
  split
  · rw [total_cons]
    simp only [total, List.map_nil, List.sum_nil]
    omega
  · simp [total]

/-- The heap is tiled by what is left and what is taken. -/
theorem tiling_taken {hi : Nat} {others : List Region}
    (tiles : Tiling lo hi ((before ++ x :: behind) ++ others)) (le : w ≤ x.2) :
    Tiling lo hi ((before ++ (remainder w x ++ behind)) ++ (x.1, taken w x) :: others) := by
  have front : ((before ++ x :: behind) ++ others).Perm (x :: (before ++ behind ++ others)) := by
    rw [List.append_assoc, List.cons_append, List.append_assoc before]
    exact List.perm_middle
  have tilesX := tiles.perm front
  have pieces : Tiling lo hi
      ((x.1, taken w x) :: (remainder w x ++ (before ++ behind ++ others))) := by
    unfold taken remainder
    split
    · exact tilesX.cut le
    · exact tilesX
  refine pieces.perm ?_
  have back : ((before ++ (remainder w x ++ behind)) ++ (x.1, taken w x) :: others).Perm
      ((x.1, taken w x) :: ((before ++ (remainder w x ++ behind)) ++ others)) := List.perm_middle
  refine (List.Perm.cons _ ?_).trans back.symm
  rw [← List.append_assoc, ← List.append_assoc, ← List.append_assoc]
  exact (List.perm_append_comm.append_right behind).append_right others

/-- A block is taken out of the list behind the region before it. -/
theorem unlink_spec {init : List Region} {it : Region} (arena : Arena h.xStart h.pxEnd lo)
    (listed : Listed h.mem h.xStart h.pxEnd lo (before ++ x :: behind))
    (list : (h.xStart, 0) :: before = init ++ [it]) :
    Listed (store64 it.1 (first h.pxEnd behind) h.mem) h.xStart h.pxEnd lo (before ++ behind) ∧
      Kept h.xStart before h.mem (store64 it.1 (first h.pxEnd behind) h.mem) := by
  have shape : ∀ zs, (h.xStart, 0) :: (before ++ zs) = init ++ it :: zs := fun zs => by
    rw [← List.cons_append, list, List.append_assoc, List.cons_append, List.nil_append]
  have nodes := listed.nodes
  have clear := listed.clear arena
  rw [shape] at nodes clear
  obtain ⟨nodesInit, -, sizeIt, nodesX⟩ := nodes_append.mp nodes
  obtain ⟨-, clearIt, clearInit⟩ := List.pairwise_append.mp clear
  obtain ⟨clearRest, -⟩ := List.pairwise_cons.mp clearIt
  have within := within_next it.1 (first h.pxEnd behind) h.mem
  have lt : first h.pxEnd behind < 2 ^ 64 := by
    rw [← nodesX.1]
    exact nextAt_lt h.mem x.1
  refine ⟨⟨?_, listed.sep.remove, fun y hy => listed.fits y ?_⟩, fun a start out => within a ?_⟩
  · show Nodes _ h.pxEnd ((h.xStart, 0) :: (before ++ behind))
    rw [shape, nodes_append]
    refine ⟨nodesInit.congr fun y hy => within.same
      (clearInit y hy it List.mem_cons_self).symm, ?_, ?_, nodesX.2.2.congr fun y hy =>
        within.same (clearRest y (List.mem_cons_of_mem x hy))⟩
    · rw [nextAt_next, Nat.mod_eq_of_lt lt]
    · rw [sizeAt_next, sizeIt]
  · exact List.mem_append.mpr ((List.mem_append.mp hy).imp_right (List.mem_cons_of_mem x))
  · have hit : it ∈ (h.xStart, 0) :: before := by
      rw [list]
      simp
    rcases List.mem_cons.mp hit with rfl | hit
    · exact start
    · have := (listed.fits it (List.mem_append_left _ hit)).header
      have := out it hit
      unfold Inside at this
      omega

/-- The counters after an allocation of `t` bytes. -/
def charge (h : Heap) (t : Nat) : Heap :=
  { h with
    xFreeBytesRemaining := h.xFreeBytesRemaining - t
    xMinimumEverFreeBytesRemaining :=
      if h.xFreeBytesRemaining - t < h.xMinimumEverFreeBytesRemaining
      then h.xFreeBytesRemaining - t else h.xMinimumEverFreeBytesRemaining
    xNumberOfSuccessfulAllocations := size_t (h.xNumberOfSuccessfulAllocations + 1) }

theorem ownBlock_spec {t : Nat} (nz : x.1 ≠ 0) (size : sizeAt h.mem x.1 = t)
    (bit : h.xBlockAllocatedBit = 2 ^ 63) (small : t < 2 ^ 63)
    (count : t ≤ h.xFreeBytesRemaining) (lt : h.xFreeBytesRemaining < 2 ^ 64) :
    ∃ m', ownBlock x.1 h = .ok { charge h t with mem := m' } ∧
      sizeAt m' x.1 = t + 2 ^ 63 ∧ nextAt m' x.1 = 0 ∧ Within x.1 h.mem m' := by
  refine ⟨store64 x.1 0 (store64 (x.1 + 8) (t + 2 ^ 63) h.mem), ?_, ?_, ?_,
    (within_size x.1 _ _).trans (within_next x.1 0 _)⟩
  · have owned : t ||| h.xBlockAllocatedBit = t + 2 ^ 63 := by rw [bit, or_top small]
    rw [ownBlock, size_ok nz, size, ok_bind]
    dsimp only
    rw [size_t_sub count lt]
    split <;> rename_i less
    · rw [setSize_ok nz, ok_bind, setNext_ok nz, ok_bind]
      dsimp only
      rw [owned, charge, if_pos less]
      rfl
    · rw [setSize_ok nz, ok_bind, setNext_ok nz, ok_bind]
      dsimp only
      rw [owned, charge, if_neg less]
      rfl
  · rw [sizeAt_next, sizeAt_size, Nat.mod_eq_of_lt (by omega)]
  · rw [nextAt_next, Nat.zero_mod]

theorem takeBlock_spec {init : List Region} {it : Region} (arena : Arena h.xStart h.pxEnd lo)
    (listed : Listed h.mem h.xStart h.pxEnd lo (before ++ x :: behind))
    (list : (h.xStart, 0) :: before = init ++ [it]) (header : 16 ≤ w) (le : w ≤ x.2)
    (bit : h.xBlockAllocatedBit = 2 ^ 63) (small : x.2 < 2 ^ 63)
    (count : x.2 ≤ h.xFreeBytesRemaining) (lt : h.xFreeBytesRemaining < 2 ^ 64) :
    ∃ m', Yields (fun fuel => takeBlock fuel it.1 x.1 w h)
        (x.1 + 16, { charge h (taken w x) with mem := m' }) ∧
      Listed m' h.xStart h.pxEnd lo (before ++ (remainder w x ++ behind)) ∧
      sizeAt m' x.1 = taken w x + 2 ^ 63 ∧ nextAt m' x.1 = 0 ∧
      Kept h.xStart (before ++ x :: behind) h.mem m' := by
  have fits := listed.fits x (by simp)
  have nz := fits.ne_zero arena
  have clear := fits.clear_start arena
  have stop := fits.high
  have headerX := fits.header
  have end_lt := arena.end_lt
  have most := taken_le le
  have least := le_taken le
  obtain ⟨listed₁, kept₁⟩ := unlink_spec arena listed list
  have hit : it ∈ (h.xStart, 0) :: before := by
    rw [list]
    simp
  have nzIt : it.1 ≠ 0 := by
    rcases List.mem_cons.mp hit with rfl | hit
    · exact Nat.pos_iff_ne_zero.mp arena.start_pos
    · exact (listed.fits it (List.mem_append_left _ hit)).ne_zero arena
  have shape : (h.xStart, 0) :: (before ++ x :: behind) = init ++ it :: x :: behind := by
    rw [← List.cons_append, list, List.append_assoc, List.cons_append, List.nil_append]
  have nodes := listed.nodes
  have clears := listed.clear arena
  rw [shape] at nodes clears
  obtain ⟨-, nextIt, -, nextX, sizeX, -⟩ := nodes_append.mp nodes
  have clearIt : Clear it.1 x.1 := (List.pairwise_cons.mp
    (List.pairwise_append.mp clears).2.1).1 x List.mem_cons_self
  obtain ⟨-, sepX, lowX⟩ := List.pairwise_append.mp listed.sep
  have low : ∀ y ∈ before, y.1 + y.2 < x.1 := fun y hy => lowX y hy x List.mem_cons_self
  have high : ∀ y ∈ behind, x.1 + x.2 < y.1 := (List.pairwise_cons.mp sepX).1
  obtain ⟨m₂, run₂, listed₂, size₂, kept₂⟩ := splitBlock_spec
    (h := { h with mem := store64 it.1 (first h.pxEnd behind) h.mem })
    arena listed₁ fits
    (by rw [((within_next it.1 _ h.mem).same clearIt).size, sizeX]) low high header le
  obtain ⟨m₃, run₃, size₃, next₃, within₃⟩ := ownBlock_spec (h := { h with mem := m₂ }) nz size₂ bit
    (by omega) (Nat.le_trans most count) lt
  have kept₃ : Kept h.xStart (before ++ x :: behind) m₂ m₃ := fun a _ out =>
    within₃ a fun inside => by
    have := out x (by simp)
    unfold Inside at this
    omega
  refine ⟨m₃, Yields.congr (run₂.bind (k := fun _ h => do
    let h ← ownBlock x.1 h
    pure (x.1 + 16, h)) (Yields.of_ok ?_)) fun fuel => ?_, ?_, size₃, next₃, ?_⟩
  · rw [run₃, ok_bind]
    rfl
  · rw [takeBlock, next_ok nzIt, nextIt, ok_bind, next_ok nz, nextX, ok_bind, setNext_ok nzIt,
      ok_bind]
    have ret : size_t ((x.1 : Int) + (xHeapStructSize : Nat)) = x.1 + 16 := by
      rw [xHeapStructSize_eq]
      exact size_t_add (by omega)
    show (splitBlock fuel x.1 w _ >>= fun h => ownBlock x.1 h >>= fun h =>
      pure (size_t ((x.1 : Int) + (xHeapStructSize : Nat)), h)) = _
    rw [ret]
  · refine listed₂.kept [(x.1, taken w x)] (fun a out => within₃ a fun inside => ?_)
      fun y hy z hz => ?_
    · have := out _ List.mem_cons_self
      unfold Inside at this
      dsimp only at this
      omega
    · obtain rfl := List.mem_singleton.mp hz
      have part : ∀ a, Inside a (x.1, taken w x) → Inside a x := fun a inside => by
        have := inside.1
        have := inside.2
        dsimp only at *
        exact ⟨by omega, by omega⟩
      rcases List.mem_cons.mp hy with rfl | hy
      · exact fun a ha inside => fits.start_apart arena a ha (part a inside)
      · rcases List.mem_append.mp hy with hy | hy
        · exact apart_of_le (Nat.le_of_lt (low y hy))
        · rcases List.mem_append.mp hy with hy | hy
          · exact (taken_apart y hy).symm
          · exact (apart_of_le (by have := high y hy; dsimp only; omega)).symm
  · refine (kept₁.mono fun y hy a inside => ⟨y, List.mem_append_left _ hy, inside⟩).trans
      ((kept₂.mono fun y hy a inside => ⟨y, ?_, inside⟩).trans kept₃)
    simp only [List.mem_cons, List.mem_append] at hy ⊢
    grind

end

end BottlerOS.HeapBlocks
