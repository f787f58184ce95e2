import BottlerOS.HeapRuns

/-! `pvPortMalloc` of `memManagerFRT4.c` against first fit on the list of free blocks. -/

namespace BottlerOS.HeapRequests
open Machine Words DefaultHeap FreeList Yields HeapNodes HeapBlocks HeapCalls HeapRuns

/-- Some free block is large enough for a request of `n` bytes. -/
def Fulfillable (frees : List Region) (n : Nat) : Prop :=
  0 < n ∧ n < 2 ^ 63 ∧ ∃ x ∈ frees, request n ≤ x.2

/-- First fit for a request of `n` bytes: `pvPortMalloc` returns `p` and leaves `h'`. -/
structure FirstFit (h : Heap) (frees : List Region) (n p : Nat) (h' : Heap) : Prop where
  unwrapped : n < 2 ^ 63 → adjust n = if n = 0 then 0 else request n
  bounded : n < 2 ^ 63 → request n < 2 ^ 64
  success : p ≠ 0 ↔ Fulfillable frees n
  failure : p = 0 → h' = h
  taken : p ≠ 0 → ∃ before x behind, frees = before ++ x :: behind ∧ p = x.1 + xHeapStructSize ∧
    request n ≤ x.2 ∧ (∀ y ∈ frees, request n ≤ y.2 → x.1 ≤ y.1) ∧
    (x.2 - request n > heapMINIMUM_BLOCK_SIZE →
      FreeBlocks h' (before ++ (x.1 + request n, x.2 - request n) :: behind) ∧
      h'.xFreeBytesRemaining + request n = h.xFreeBytesRemaining) ∧
    (x.2 - request n ≤ heapMINIMUM_BLOCK_SIZE → FreeBlocks h' (before ++ behind) ∧
      h'.xFreeBytesRemaining + x.2 = h.xFreeBytesRemaining)

section
variable {L : Layout} {h h' : Heap} {frees before behind live live' : List Region} {x : Region}
  {n : Nat}

theorem good_free (good : Good L h frees live) : FreeBlocks h frees where
  nodes := good.listed.nodes
  inner x hx := by
    have := (good.listed.fits x hx).high
    have := (good.listed.fits x hx).header
    omega

/-- The first block in the list is the lowest. -/
theorem lowest (sep : Separate (before ++ x :: behind)) {w : Nat}
    (small : ∀ y ∈ before, y.2 < w) :
    ∀ y ∈ before ++ x :: behind, w ≤ y.2 → x.1 ≤ y.1 := by
  intro y hy le
  rcases List.mem_append.mp hy with hy | hy
  · exact absurd le (Nat.not_le_of_lt (small y hy))
  · rcases List.mem_cons.mp hy with rfl | hy
    · exact Nat.le_refl _
    · have := (List.pairwise_cons.mp (List.pairwise_append.mp sep).2.1).1 y hy
      omega

theorem good_firstFit (good : Good L h frees live) (lt : n < 2 ^ 64) :
    ∃ p h', Yields (fun fuel => pvPortMalloc fuel n h) (p, h') ∧ FirstFit h frees n p h' := by
  have unwrapped : n < 2 ^ 63 → adjust n = if n = 0 then 0 else request n := fun small =>
    adjust_eq small
  have bounded : n < 2 ^ 63 → request n < 2 ^ 64 := fun small => by
    unfold request
    omega
  rcases malloc_cases good lt with ⟨refused, result⟩ |
    ⟨before, x, behind, m', rfl, pos, small, tight, enough, result, good'⟩
  · exact ⟨0, h, result, unwrapped, bounded, iff_of_false (fun ne => ne rfl) refused,
      fun _ => rfl, fun ne => absurd rfl ne⟩
  · have count := good.count
    have most := taken_le enough
    rw [total_append, total_cons] at count
    have free := good_free good'
    refine ⟨x.1 + 16, _, result, unwrapped, bounded, iff_of_true (by omega)
      ⟨pos, small, x, by simp, enough⟩, fun zero => by omega, fun _ => ⟨before, x, behind, rfl,
        by rw [xHeapStructSize_eq], enough, lowest good.listed.sep tight, ?_, ?_⟩⟩
    · rw [heapMINIMUM_BLOCK_SIZE_eq]
      intro big
      rw [remainder, if_pos big] at free
      refine ⟨free, ?_⟩
      have same : taken (request n) x = request n := if_pos big
      rw [same] at most ⊢
      dsimp only [charge]
      omega
    · rw [heapMINIMUM_BLOCK_SIZE_eq]
      intro small
      rw [remainder, if_neg (by omega), List.nil_append] at free
      refine ⟨free, ?_⟩
      have same : taken (request n) x = x.2 := if_neg (by omega)
      rw [same]
      dsimp only [charge]
      omega

end

/-- In every heap that calls and writes can lead to, `pvPortMalloc` is first fit. -/
theorem malloc_firstFit (L : Layout) (h : Heap) (s : State) (frees : List Region) (n : Nat)
    (init : prvHeapInit L.boot = .ok h) (runs : Runs L ⟨h, [], [h.xFreeBytesRemaining]⟩ s)
    (free : FreeBlocks s.heap frees) (lt : n < 2 ^ 64) :
    ∃ p h', Yields (fun fuel => pvPortMalloc fuel n s.heap) (p, h') ∧
      FirstFit s.heap frees n p h' := by
  obtain ⟨frees', good⟩ := runs_good init runs
  obtain rfl := free.unique (good_free good)
  exact good_firstFit good lt

theorem malloc_firstFit_kernel : ∃ h p h', prvHeapInit Layout.kernel.boot = .ok h ∧
    Yields (fun fuel => pvPortMalloc fuel 100 h) (p, h') ∧
    FirstFit h [(Layout.kernel.lo, Layout.kernel.hi - Layout.kernel.lo)] 100 p h' := by
  obtain ⟨m, init, -⟩ := prvHeapInit_spec (h := Layout.kernel.boot) (L := Layout.kernel) rfl rfl
  have good := init_good (L := Layout.kernel) rfl rfl init
  obtain ⟨p, h', result, fit⟩ := malloc_firstFit Layout.kernel _ _ _ 100 init .refl
    (good_free good) (by decide)
  exact ⟨_, p, h', init, result, fit⟩

end BottlerOS.HeapRequests
