import BottlerOS.HeapRequests

/-! `vPortGetHeapStats` of `memManagerFRT4.c` against the list of free blocks. Its walk looks for
`pxEnd` only behind a block, so a list without blocks takes it past `pxEnd`. -/

namespace BottlerOS.HeapReport
open Machine Words DefaultHeap FreeList Yields HeapNodes HeapBlocks HeapCalls HeapRuns HeapRequests

/-- The number of the free blocks, and their largest and smallest sizes. -/
structure Exact (stats : HeapStats) (frees : List Region) : Prop where
  number : stats.xNumberOfFreeBlocks = frees.length
  atMost : ∀ x ∈ frees, x.2 ≤ stats.xSizeOfLargestFreeBlockInBytes
  atLeast : ∀ x ∈ frees, stats.xSizeOfSmallestFreeBlockInBytes ≤ x.2
  largest : frees ≠ [] → ∃ x ∈ frees, x.2 = stats.xSizeOfLargestFreeBlockInBytes
  smallest : frees ≠ [] → ∃ x ∈ frees, x.2 = stats.xSizeOfSmallestFreeBlockInBytes

/-- `vPortGetHeapStats` returns, and reports what is there. -/
def Reports (h : Heap) (frees : List Region) : Prop :=
  ∃ stats, Yields (fun fuel => vPortGetHeapStats fuel h) stats ∧ Exact stats frees

section
variable {L : Layout} {h h' : Heap} {s t : State} {frees live xs : List Region} {x : Region}
  {k mx mn n : Nat}

/-- `xMaxSize` and `xMinSize` after the blocks. -/
structure Extremes (xs : List Region) (mx mn most least : Nat) : Prop where
  most_ge : mx ≤ most
  atMost : ∀ y ∈ xs, y.2 ≤ most
  most_eq : most = mx ∨ ∃ y ∈ xs, y.2 = most
  least_le : least ≤ mn
  atLeast : ∀ y ∈ xs, least ≤ y.2
  least_eq : least = mn ∨ ∃ y ∈ xs, y.2 = least

theorem Extremes.cons {most least : Nat}
    (rest : Extremes xs (if x.2 > mx then x.2 else mx) (if x.2 < mn then x.2 else mn) most least) :
    Extremes (x :: xs) mx mn most least where
  most_ge := by
    have := rest.most_ge
    split at this <;> omega
  atMost := by
    refine List.forall_mem_cons.mpr ⟨?_, rest.atMost⟩
    have := rest.most_ge
    split at this <;> omega
  most_eq := by
    rcases rest.most_eq with eq | ⟨y, hy, eq⟩
    · split at eq
      · exact Or.inr ⟨x, List.mem_cons_self, eq.symm⟩
      · exact Or.inl eq
    · exact Or.inr ⟨y, List.mem_cons_of_mem x hy, eq⟩
  least_le := by
    have := rest.least_le
    split at this <;> omega
  atLeast := by
    refine List.forall_mem_cons.mpr ⟨?_, rest.atLeast⟩
    have := rest.least_le
    split at this <;> omega
  least_eq := by
    rcases rest.least_eq with eq | ⟨y, hy, eq⟩
    · split at eq
      · exact Or.inr ⟨x, List.mem_cons_self, eq.symm⟩
      · exact Or.inl eq
    · exact Or.inr ⟨y, List.mem_cons_of_mem x hy, eq⟩

end

end BottlerOS.HeapReport
