import BottlerOS.HeapBlocks

/-! The calls of `memManagerFRT4.c`: `prvHeapInit` makes one free block of the heap, and
`pvPortMalloc` and `vPortFree` return and keep the heap tiled by the free list and by the blocks
of the callers. -/

namespace BottlerOS.HeapCalls
open Machine Words DefaultHeap FreeList Yields HeapNodes HeapBlocks

/-- Where the heap and `xStart` lie, in a memory. -/
structure Layout where
  mem : Bytes
  ucHeap : Nat
  xStart : Nat
  heap_pos : 0 < ucHeap
  heap_le : ucHeap + configTOTAL_HEAP_SIZE ≤ 2 ^ 64
  start_pos : 0 < xStart
  start_le : xStart + 16 ≤ 2 ^ 64
  apart : xStart + 16 ≤ ucHeap ∨ ucHeap + configTOTAL_HEAP_SIZE ≤ xStart

namespace Layout

/-- The heap before the first call. -/
def boot (L : Layout) : Heap := initMemoryManager L.mem L.xStart L.ucHeap

/-- The aligned heap start. -/
def lo (L : Layout) : Nat := (L.ucHeap + 7) / 8 * 8

/-- `pxEnd`, once it is set. -/
def hi (L : Layout) : Nat := (L.ucHeap + configTOTAL_HEAP_SIZE - 16) / 8 * 8

/-- `kernel.c` gives the heap its address; `xStart` lies in the kernel below it. -/
def kernel : Layout where
  mem := fun _ => 0
  ucHeap := 0x600000
  xStart := 0x110000
  heap_pos := by decide
  heap_le := by decide
  start_pos := by decide
  start_le := by decide
  apart := by decide

end Layout

section
variable {L : Layout} {h : Heap}

theorem Layout.bounds (L : Layout) : L.ucHeap ≤ L.lo ∧ L.lo < L.ucHeap + 8 ∧ L.lo % 8 = 0 ∧
    L.lo + 32 ≤ L.hi ∧ L.hi + 16 ≤ L.ucHeap + configTOTAL_HEAP_SIZE ∧ L.hi % 8 = 0 ∧
    L.ucHeap + configTOTAL_HEAP_SIZE < L.hi + 24 := by
  unfold Layout.lo Layout.hi configTOTAL_HEAP_SIZE
  omega

theorem Layout.arena (L : Layout) : Arena L.xStart L.hi L.lo where
  lo_pos := by
    have := L.bounds
    have := L.heap_pos
    omega
  start_pos := L.start_pos
  start_lt := by
    have := L.start_le
    omega
  end_lt := by
    have := L.bounds
    have := L.heap_le
    omega
  start_apart := by
    have := L.bounds
    have := L.apart
    omega

theorem alignHeap_eq (L : Layout) :
    alignHeap L.ucHeap = (L.lo, L.ucHeap + configTOTAL_HEAP_SIZE - L.lo) := by
  have le := L.heap_le
  have bounds := L.bounds
  unfold alignHeap
  simp only [and_mask]
  split <;> rename_i odd
  · have up : size_t ((L.ucHeap : Int) + (portBYTE_ALIGNMENT - 1 : Nat)) = L.ucHeap + 7 :=
      size_t_add (by unfold configTOTAL_HEAP_SIZE at le; unfold portBYTE_ALIGNMENT; omega)
    have down : (L.ucHeap + 7) &&& complement portBYTE_ALIGNMENT_MASK = L.lo := by
      rw [and_complement_mask (by unfold configTOTAL_HEAP_SIZE at le; omega)]
      unfold Layout.lo
      omega
    rw [up, down, size_t_sub bounds.1 (by omega), size_t_sub (by omega) (by omega)]
    exact Prod.ext rfl (by dsimp only; omega)
  · have same : L.lo = L.ucHeap := by
      unfold Layout.lo
      omega
    rw [same, Nat.add_sub_cancel_left]

/-- The heap as `prvHeapInit` leaves it. -/
def initial (L : Layout) (h : Heap) (m : Bytes) : Heap :=
  { h with
    mem := m
    pxEnd := L.hi
    xMinimumEverFreeBytesRemaining := L.hi - L.lo
    xFreeBytesRemaining := L.hi - L.lo
    xBlockAllocatedBit := 2 ^ 63 }

theorem end_eq (L : Layout) :
    size_t (size_t ((L.lo : Int) + (L.ucHeap + configTOTAL_HEAP_SIZE - L.lo : Nat)) -
      (xHeapStructSize : Nat)) &&& complement portBYTE_ALIGNMENT_MASK = L.hi := by
  have le := L.heap_le
  have bounds := L.bounds
  have down : size_t (size_t ((L.lo : Int) + (L.ucHeap + configTOTAL_HEAP_SIZE - L.lo : Nat)) -
      (xHeapStructSize : Nat)) = L.ucHeap + configTOTAL_HEAP_SIZE - 16 := by
    rw [xHeapStructSize_eq]
    unfold size_t
    omega
  rw [down, and_complement_mask (by omega)]
  unfold Layout.hi
  omega

/-- The headers of `xStart`, `pxEnd` and the first block, in the order in which they are
written. -/
def headers (xStart lo hi : Nat) (m : Bytes) : Bytes :=
  store64 lo hi (store64 (lo + 8) (hi - lo) (store64 hi 0 (store64 (hi + 8) 0
    (store64 (xStart + 8) 0 (store64 xStart lo m)))))

theorem prvHeapInit_eq (p lo hi : Nat) {total : Nat} (start : h.xStart = p) (hp : p ≠ 0)
    (hlo : lo ≠ 0) (hhi : hi ≠ 0) (align : alignHeap h.ucHeap = (lo, total))
    (stop : size_t (size_t ((lo : Int) + total) - (xHeapStructSize : Nat)) &&&
      complement portBYTE_ALIGNMENT_MASK = hi) (size : size_t ((hi : Int) - lo) = hi - lo)
    (written : sizeAt (headers p lo hi h.mem) lo = hi - lo) :
    prvHeapInit h = .ok { h with
      mem := headers p lo hi h.mem
      pxEnd := hi
      xMinimumEverFreeBytesRemaining := hi - lo
      xFreeBytesRemaining := hi - lo
      xBlockAllocatedBit := 2 ^ 63 } := by
  subst start
  simp only [prvHeapInit, align, stop, size, setNext_ok hp, setSize_ok hp, setNext_ok hhi,
    setSize_ok hhi, setNext_ok hlo, setSize_ok hlo, size_ok hlo, ok_bind, top_bit]
  unfold headers at written ⊢
  rw [written]
  rfl

/-- One free block, and the end. -/
theorem headers_spec {p lo hi : Nat} {m : Bytes} (hlo : lo < 2 ^ 64) (hhi : hi < 2 ^ 64)
    (clearLo : Clear lo p) (clearHi : Clear hi p) (clear : Clear lo hi) :
    Nodes (headers p lo hi m) hi [(p, 0), (lo, hi - lo)] ∧
      sizeAt (headers p lo hi m) hi = 0 ∧ nextAt (headers p lo hi m) hi = 0 := by
  let m₁ := store64 (p + 8) 0 (store64 p lo m)
  let m₂ := store64 hi 0 (store64 (hi + 8) 0 m₁)
  have within₂ : Within hi m₁ m₂ := (within_size hi 0 m₁).trans (within_next hi 0 _)
  have within₃ : Within lo m₂ (headers p lo hi m) :=
    (within_size lo _ m₂).trans (within_next lo hi _)
  have startSame := (within₂.same clearHi).trans (within₃.same clearLo)
  have endSame := within₃.same clear
  refine ⟨⟨?_, ?_, ?_, ?_, trivial⟩, ?_, ?_⟩
  · rw [startSame.next, nextAt_size, nextAt_next, Nat.mod_eq_of_lt hlo]
    rfl
  · rw [startSame.size, sizeAt_size, Nat.zero_mod]
  · rw [headers, nextAt_next, Nat.mod_eq_of_lt hhi]
    rfl
  · rw [headers, sizeAt_next, sizeAt_size, Nat.mod_eq_of_lt (by omega)]
  · rw [endSame.size, sizeAt_next, sizeAt_size, Nat.zero_mod]
  · rw [endSame.next, nextAt_next, Nat.zero_mod]

theorem prvHeapInit_spec (heap : h.ucHeap = L.ucHeap) (start : h.xStart = L.xStart) :
    ∃ m', prvHeapInit h = .ok (initial L h m') ∧
      Listed m' L.xStart L.hi L.lo [(L.lo, L.hi - L.lo)] ∧
      sizeAt m' L.hi = 0 ∧ nextAt m' L.hi = 0 := by
  have bounds := L.bounds
  have arena := L.arena
  have end_lt := arena.end_lt
  have fits : Fits L.lo L.hi (L.lo, L.hi - L.lo) :=
    ⟨Nat.le_refl _, by dsimp only; omega, by dsimp only; omega⟩
  have clearHi : Clear L.hi L.xStart := by
    have := arena.start_apart
    unfold Clear
    omega
  obtain ⟨nodes, size, next⟩ := headers_spec (m := h.mem) (by omega) end_lt
    (fits.clear_start arena).symm clearHi (Or.inl (by omega))
  refine ⟨headers L.xStart L.lo L.hi h.mem, ?_, ⟨nodes, List.pairwise_singleton _ _, ?_⟩,
    size, next⟩
  · exact prvHeapInit_eq L.xStart L.lo L.hi start (Nat.pos_iff_ne_zero.mp L.start_pos)
      (fits.ne_zero arena) (by omega) (by rw [heap]; exact alignHeap_eq L) (end_eq L)
      (size_t_sub (by omega) end_lt) nodes.2.2.2.1
  · rintro x hx
    obtain rfl := List.mem_singleton.mp hx
    exact fits

end

/-- The block of what has been given to a caller, with its header; the size is the one in the
header without the bit. -/
def blockOf (m : Bytes) (a : Region) : Region := (a.1 - 16, sizeAt m (a.1 - 16) % 2 ^ 63)

/-- The caller has `a`. -/
structure Owned (m : Bytes) (lo hi : Nat) (a : Region) : Prop where
  behind : 16 ≤ a.1
  next : nextAt m (a.1 - 16) = 0
  size : sizeAt m (a.1 - 16) = (blockOf m a).2 + 2 ^ 63
  pos : 0 < a.2
  room : a.2 + 16 ≤ (blockOf m a).2
  fits : Fits lo hi (blockOf m a)

/-- The free list, and what the callers have, make up the heap. -/
structure Good (L : Layout) (h : Heap) (frees live : List Region) : Prop where
  heap : h.ucHeap = L.ucHeap
  start : h.xStart = L.xStart
  stop : h.pxEnd = L.hi
  bit : h.xBlockAllocatedBit = 2 ^ 63
  listed : Listed h.mem h.xStart h.pxEnd L.lo frees
  size_end : sizeAt h.mem h.pxEnd = 0
  next_end : nextAt h.mem h.pxEnd = 0
  owned : ∀ a ∈ live, Owned h.mem L.lo h.pxEnd a
  tiles : Tiling L.lo h.pxEnd (frees ++ live.map (blockOf h.mem))
  count : h.xFreeBytesRemaining = total frees

section
variable {L : Layout} {h : Heap} {frees live regions : List Region} {m m' : Bytes} {a x : Region}
  {lo hi n : Nat}

theorem blockOf_congr (same : SameHeader m m' (a.1 - 16)) : blockOf m' a = blockOf m a := by
  rw [blockOf, blockOf, same.size]

theorem Owned.congr (owned : Owned m lo hi a) (same : SameHeader m m' (a.1 - 16)) :
    Owned m' lo hi a where
  behind := owned.behind
  next := same.next.trans owned.next
  size := by rw [same.size, owned.size, blockOf_congr same]
  pos := owned.pos
  room := by
    rw [blockOf_congr same]
    exact owned.room
  fits := by
    rw [blockOf_congr same]
    exact owned.fits

theorem blocks_congr (same : ∀ a ∈ live, SameHeader m m' (a.1 - 16)) :
    live.map (blockOf m') = live.map (blockOf m) :=
  List.map_congr_left fun a ha => blockOf_congr (same a ha)

theorem Good.arena (good : Good L h frees live) : Arena h.xStart h.pxEnd L.lo := by
  rw [good.start, good.stop]
  exact L.arena

/-- A change in regions apart from the block leaves its header as it is. -/
theorem Good.same (good : Good L h frees live) (ha : a ∈ live)
    (kept : Kept h.xStart regions h.mem m') (apart : ∀ x ∈ regions, Apart (blockOf h.mem a) x) :
    SameHeader h.mem m' (a.1 - 16) := by
  have fits := (good.owned a ha).fits
  exact kept.same (fits.clear_start good.arena) fun x hx => fits.headerApart (apart x hx)

/-- `pxEnd` is behind the regions. -/
theorem Good.sameEnd (good : Good L h frees live) (kept : Kept h.xStart regions h.mem m')
    (fits : ∀ x ∈ regions, x.1 + x.2 ≤ h.pxEnd) : SameHeader h.mem m' h.pxEnd := by
  refine kept.same ?_ fun x hx => (apart_of_le (fits x hx)).symm
  have := good.arena.start_apart
  have := L.bounds
  have := good.stop
  unfold Clear
  omega

theorem Good.free_lt (good : Good L h frees live) : h.xFreeBytesRemaining < 2 ^ 63 ∧
    ∀ x ∈ frees, x.2 < 2 ^ 63 := by
  have most := total_le good.listed.sep (fun x hx => (good.listed.fits x hx).low)
    fun x hx => (good.listed.fits x hx).high
  have := L.bounds
  have := good.stop
  have := good.count
  unfold configTOTAL_HEAP_SIZE at *
  refine ⟨by omega, fun x hx => ?_⟩
  have := (good.listed.fits x hx).high
  have := (good.listed.fits x hx).low
  omega

end

/-- The size of the block for a request of `n` bytes: with the header, rounded up. -/
def request (n : Nat) : Nat := (n + 16 + 7) / 8 * 8

section
variable {L : Layout} {h : Heap} {frees before behind live : List Region} {x : Region} {n : Nat}

theorem Good.positive (good : Good L h frees live) : h.pxEnd ≠ 0 := by
  have := L.bounds
  have := good.stop
  omega

/-- The early tests. -/
theorem malloc_eq (good : Good L h frees live) (lt : n < 2 ^ 64) (fuel : Nat) :
    pvPortMalloc fuel n h =
      if 0 < n ∧ n < 2 ^ 63 ∧ request n ≤ h.xFreeBytesRemaining then (do
        let (pxPreviousBlock, pxBlock) ←
          findBlock h (request n) fuel h.xStart (first h.pxEnd frees)
        if pxBlock ≠ h.pxEnd then takeBlock fuel pxPreviousBlock pxBlock (request n) h
        else pure (0, h))
      else pure (0, h) := by
  have start : h.pxNextFreeBlock h.xStart = .ok (first h.pxEnd frees) := by
    rw [next_ok (Nat.pos_iff_ne_zero.mp good.arena.start_pos), good.listed.nodes.1]
  rw [pvPortMalloc, if_neg good.positive, pure_bind]
  dsimp only
  rw [good.bit, and_top lt]
  by_cases small : n < 2 ^ 63
  · rw [if_pos small, if_pos rfl, adjust_eq small, start]
    by_cases zero : n = 0
    · rw [if_pos zero, if_neg (by omega), if_neg (by omega)]
    · rw [if_neg zero, ← request]
      refine if_congr ⟨fun wanted => ⟨by omega, small, wanted.2⟩, fun wanted => ⟨?_, wanted.2.2⟩⟩
        rfl rfl
      unfold request
      omega
  · rw [if_neg small, if_neg (by decide), if_neg (by omega)]

theorem Good.ne_zero (good : Good L h frees live) : ∀ y ∈ frees, y.1 ≠ 0 :=
  fun y hy => (good.listed.fits y hy).ne_zero good.arena

/-- No block is large enough: the heap is as it was. -/
theorem malloc_refused (good : Good L h frees live) (lt : n < 2 ^ 64)
    (none : ¬ (0 < n ∧ n < 2 ^ 63 ∧ ∃ x ∈ frees, request n ≤ x.2)) :
    Yields (fun fuel => pvPortMalloc fuel n h) (0, h) := by
  by_cases tests : 0 < n ∧ n < 2 ^ 63 ∧ request n ≤ h.xFreeBytesRemaining
  · -- the search ends at `pxEnd`
    have tight : ∀ y ∈ frees, y.2 < request n := fun y hy => by
      by_contra le
      exact none ⟨tests.1, tests.2.1, y, hy, by omega⟩
    have stop : ∀ k p, findBlock h (request n) (k + 1) p (first h.pxEnd []) =
        .ok (p, first h.pxEnd []) := fun k p => by
      show findBlock h (request n) (k + 1) p h.pxEnd = .ok (p, h.pxEnd)
      rw [findBlock, size_ok good.positive, good.size_end, ok_bind,
        if_pos (by unfold request; omega), next_ok good.positive, good.next_end]
      rfl
    have nodes : Nodes h.mem h.pxEnd ((h.xStart, 0) :: frees ++ []) := by
      rw [List.append_nil]
      exact good.listed.nodes
    obtain ⟨init, it, -, loop⟩ := findBlock_yields (h.xStart, 0) nodes
      (by rw [List.append_nil]; exact good.ne_zero) good.positive tight stop
    rw [List.append_nil] at loop
    refine Yields.congr (loop.bind (k := fun fuel r =>
      if r.2 ≠ h.pxEnd then takeBlock fuel r.1 r.2 (request n) h else pure (0, h))
      (Yields.congr (Yields.of_ok rfl) fun fuel => if_neg fun ne => ne rfl)) fun fuel => ?_
    rw [malloc_eq good lt, if_pos tests]
  · refine Yields.congr (Yields.of_ok rfl) fun fuel => ?_
    rw [malloc_eq good lt, if_neg tests]
    rfl

/-- The first block that is large enough is taken. -/
theorem malloc_served (good : Good L h (before ++ x :: behind) live) (pos : 0 < n)
    (small : n < 2 ^ 63) (tight : ∀ y ∈ before, y.2 < request n) (enough : request n ≤ x.2) :
    ∃ m', Yields (fun fuel => pvPortMalloc fuel n h)
        (x.1 + 16, { charge h (taken (request n) x) with mem := m' }) ∧
      Good L { charge h (taken (request n) x) with mem := m' }
        (before ++ (remainder (request n) x ++ behind)) ((x.1 + 16, n) :: live) := by
  have arena := good.arena
  have fits := good.listed.fits x (by simp)
  have stopX := fits.high
  obtain ⟨freeLt, sizesLt⟩ := good.free_lt
  have smallX := sizesLt x (by simp)
  have count := good.count
  rw [total_append, total_cons] at count
  have inner : x.1 ≠ h.pxEnd := by
    have := fits.header
    omega
  have stop : ∀ k p, findBlock h (request n) (k + 1) p (first h.pxEnd (x :: behind)) =
      .ok (p, first h.pxEnd (x :: behind)) := fun k p => by
    have nodes : Nodes h.mem h.pxEnd ((h.xStart, 0) :: before ++ x :: behind) := good.listed.nodes
    obtain ⟨-, -, size, -⟩ := nodes_append.mp nodes
    show findBlock h (request n) (k + 1) p x.1 = .ok (p, x.1)
    rw [findBlock, size_ok (fits.ne_zero arena), size, ok_bind, if_neg (by omega)]
    rfl
  obtain ⟨init, it, list, loop⟩ := findBlock_yields (h.xStart, 0) good.listed.nodes good.ne_zero
    good.positive tight stop
  obtain ⟨m', run, listed, size, next, kept⟩ := takeBlock_spec arena good.listed list
    (show 16 ≤ request n by unfold request; omega) enough good.bit smallX (by omega) (by omega)
  refine ⟨m', Yields.congr (loop.bind (k := fun fuel r =>
      if r.2 ≠ h.pxEnd then takeBlock fuel r.1 r.2 (request n) h else pure (0, h))
      (Yields.congr run fun fuel => if_pos inner)) fun fuel => ?_, ?_⟩
  · rw [malloc_eq good (by omega), if_pos ⟨pos, small, by omega⟩]
  · have cross := (List.pairwise_append.mp good.tiles.apart).2.2
    have same : ∀ a ∈ live, SameHeader h.mem m' (a.1 - 16) := fun a ha =>
      good.same ha kept fun y hy => (cross y hy _ (List.mem_map_of_mem ha)).symm
    have sameEnd := good.sameEnd kept fun y hy => (good.listed.fits y hy).high
    have most := taken_le enough
    have least := le_taken enough
    have parts := total_remainder enough
    have block : blockOf m' (x.1 + 16, n) = (x.1, taken (request n) x) := by
      rw [blockOf, Nat.add_sub_cancel, size]
      exact Prod.ext rfl (by dsimp only; omega)
    refine ⟨good.heap, good.start, good.stop, good.bit, listed, sameEnd.size.trans good.size_end,
      sameEnd.next.trans good.next_end, List.forall_mem_cons.mpr ⟨⟨Nat.le_add_left 16 _, ?_, ?_,
        pos, ?_, ?_⟩, fun a ha => (good.owned a ha).congr (same a ha)⟩, ?_, ?_⟩
    · rw [Nat.add_sub_cancel, next]
    · rw [block, Nat.add_sub_cancel, size]
    · rw [block]
      unfold request at *
      dsimp only
      omega
    · rw [block]
      exact ⟨fits.low, by unfold request at *; dsimp only; omega, by
        have := fits.high
        dsimp only [charge]
        omega⟩
    · rw [List.map_cons, block, blocks_congr same]
      exact tiling_taken good.tiles enough
    · show h.xFreeBytesRemaining - taken (request n) x = _
      rw [total_append, total_append, count]
      omega

end

/-- The counters after a block of `s` bytes has come back. -/
def release (h : Heap) (s : Nat) : Heap :=
  { h with
    xFreeBytesRemaining := h.xFreeBytesRemaining + s
    xNumberOfSuccessfulFrees := size_t (h.xNumberOfSuccessfulFrees + 1) }

theorem release_free (h : Heap) (s : Nat) (m : Bytes) :
    { release h s with mem := m }.xFreeBytesRemaining = h.xFreeBytesRemaining + s := rfl

theorem release_minimum (h : Heap) (s : Nat) (m : Bytes) :
    { release h s with mem := m }.xMinimumEverFreeBytesRemaining =
      h.xMinimumEverFreeBytesRemaining := rfl

section
variable {L : Layout} {h : Heap} {frees xs ys : List Region} {a : Region}

theorem free_null (fuel : Nat) (h : Heap) : vPortFree fuel 0 h = .ok h := rfl

/-- The block of a caller comes back to the free list. -/
theorem free_served (good : Good L h frees (xs ++ a :: ys)) :
    ∃ m', Yields (fun fuel => vPortFree fuel a.1 h)
        { release h (blockOf h.mem a).2 with mem := m' } ∧
      Good L { release h (blockOf h.mem a).2 with mem := m' }
        (insert (a.1 - 16) (blockOf h.mem a).2 frees) (xs ++ ys) := by
  have arena := good.arena
  have owned := good.owned a (by simp)
  have fits := owned.fits
  have nz : a.1 - 16 ≠ 0 := fits.ne_zero arena
  have stopB : a.1 - 16 + (blockOf h.mem a).2 ≤ h.pxEnd := fits.high
  have header := fits.header
  have end_lt := arena.end_lt
  have behind := owned.behind
  obtain ⟨freeLt, -⟩ := good.free_lt
  have small : (blockOf h.mem a).2 < 2 ^ 63 := Nat.mod_lt _ (by decide)
  have tiles : Tiling L.lo h.pxEnd
      (blockOf h.mem a :: (frees ++ (xs ++ ys).map (blockOf h.mem))) := by
    refine good.tiles.perm ?_
    rw [List.map_append, List.map_cons, List.map_append, ← List.append_assoc, ← List.append_assoc]
    exact List.perm_middle
  obtain ⟨alone, others⟩ := List.pairwise_cons.mp tiles.apart
  have cross := (List.pairwise_append.mp others).2.2
  generalize hs : (blockOf h.mem a).2 = s at *
  have block : blockOf h.mem a = (a.1 - 16, s) := Prod.ext rfl hs
  rw [block] at tiles alone fits
  -- the bit is taken away
  let m₁ := store64 (a.1 - 16 + 8) s h.mem
  have within : ∀ x, (∀ y ∈ [(a.1 - 16, s)], ¬ Inside x y) → m₁ x = h.mem x := fun x out => by
    have := out _ List.mem_cons_self
    unfold Inside at this
    dsimp only at this
    exact store64_of_outside (by omega)
  have listed₁ : Listed m₁ h.xStart h.pxEnd L.lo frees :=
    good.listed.kept [(a.1 - 16, s)] within fun x hx y hy => by
      obtain rfl := List.mem_singleton.mp hy
      rcases List.mem_cons.mp hx with rfl | hx
      · exact fits.start_apart arena
      · exact (alone x (List.mem_append_left _ hx)).symm
  obtain ⟨m', run, listed, kept⟩ := insert_spec
    (h := { h with mem := m₁, xFreeBytesRemaining := h.xFreeBytesRemaining + s }) arena listed₁ fits
    (by rw [sizeAt_size, Nat.mod_eq_of_lt (by omega)]) fun x hx => by
      have := (good.listed.fits x hx).header
      exact ((alone x (List.mem_append_left _ hx)).symm).order (by omega) (by dsimp only; omega)
  have keptAll : Kept h.xStart ((a.1 - 16, s) :: frees) h.mem m' := Kept.trans (fun x _ out =>
    within x fun y hy => out y (by
      rw [List.mem_singleton.mp hy]
      exact List.mem_cons_self)) kept
  have same : ∀ c ∈ xs ++ ys, SameHeader h.mem m' (c.1 - 16) := fun c hc => by
    have mem : c ∈ xs ++ a :: ys := by
      rcases List.mem_append.mp hc with hc | hc
      · exact List.mem_append_left _ hc
      · exact List.mem_append_right _ (List.mem_cons_of_mem a hc)
    have block : blockOf h.mem c ∈ (xs ++ ys).map (blockOf h.mem) := List.mem_map_of_mem hc
    refine good.same mem keptAll fun x hx => ?_
    rcases List.mem_cons.mp hx with rfl | hx
    · exact (alone _ (List.mem_append_right _ block)).symm
    · exact (cross x hx _ block).symm
  have sameEnd := good.sameEnd keptAll (List.forall_mem_cons.mpr
    ⟨fits.high, fun x hx => (good.listed.fits x hx).high⟩)
  refine ⟨m', Yields.congr (run.bind (k := fun _ h => pure { h with
    xNumberOfSuccessfulFrees := size_t (h.xNumberOfSuccessfulFrees + 1) }) (Yields.of_ok rfl))
      fun fuel => ?_, ⟨good.heap, good.start, good.stop, good.bit, listed,
        sameEnd.size.trans good.size_end, sameEnd.next.trans good.next_end, fun c hc => ?_, ?_, ?_⟩⟩
  · have link : size_t ((a.1 : Int) - (xHeapStructSize : Nat)) = a.1 - 16 := by
      rw [xHeapStructSize_eq]
      exact size_t_sub behind (by omega)
    have top : ¬ (s + 2 ^ 63) &&& h.xBlockAllocatedBit = 0 := by
      rw [good.bit, and_top (by omega), if_neg (by omega)]
      decide
    have cut : (s + 2 ^ 63) &&& complement h.xBlockAllocatedBit = s := by
      rw [good.bit, and_complement_top]
      omega
    have size : sizeAt h.mem (a.1 - 16) = s + 2 ^ 63 := by rw [owned.size, hs]
    have sum : size_t ((h.xFreeBytesRemaining : Int) + s) = h.xFreeBytesRemaining + s :=
      size_t_add (by omega)
    rw [vPortFree, if_pos (by omega)]
    dsimp only
    rw [link, size_ok nz, size, ok_bind, if_pos top, next_ok nz, owned.next, ok_bind,
      if_pos rfl, cut, setSize_ok nz, ok_bind]
    dsimp only
    rw [sum]
  · have mem : c ∈ xs ++ a :: ys := by
      rcases List.mem_append.mp hc with hc | hc
      · exact List.mem_append_left _ hc
      · exact List.mem_append_right _ (List.mem_cons_of_mem a hc)
    exact (good.owned c mem).congr (same c hc)
  · rw [blocks_congr same]
    exact tiles.insert listed.sep
  · rw [total_insert, Nat.add_comm, ← good.count]
    rfl

end

end BottlerOS.HeapCalls
