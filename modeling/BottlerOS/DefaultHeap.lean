import BottlerOS.Machine
import BottlerOS.Library.Words
import Mathlib.Data.Nat.Bitwise

/-! `Kernel/utils/memManagerFRT4.c` over a memory of bytes. A block begins with its
`BlockLink_t`, the address of the next free block and a size; an address of 0 is NULL. -/

namespace BottlerOS.DefaultHeap
open Machine Words

/-- Conversion to `size_t`. -/
def size_t (x : Int) : Nat := (x % 18446744073709551616).toNat

def configTOTAL_HEAP_SIZE : Nat := 1024 * 1024 * 512
def portBYTE_ALIGNMENT : Nat := 8
def portBYTE_ALIGNMENT_MASK : Nat := 0x0007
def sizeofBlockLink : Nat := 16
def heapBITS_PER_BYTE : Nat := 8
def sizeofSize : Nat := 8

/-- `~x` of a `size_t`. -/
def complement (x : Nat) : Nat := size_t (-1 - x)

def xHeapStructSize : Nat :=
  size_t (sizeofBlockLink + (portBYTE_ALIGNMENT - 1)) &&& complement portBYTE_ALIGNMENT_MASK

def heapMINIMUM_BLOCK_SIZE : Nat := size_t ((xHeapStructSize * 2 : Nat))

/-- The statics of the file, with the address of `xStart`, and the memory. -/
structure Heap where
  mem : Bytes
  ucHeap : Nat
  xStart : Nat
  pxEnd : Nat
  xFreeBytesRemaining : Nat
  xMinimumEverFreeBytesRemaining : Nat
  xNumberOfSuccessfulAllocations : Nat
  xNumberOfSuccessfulFrees : Nat
  xBlockAllocatedBit : Nat

/-- `initMemoryManager`, before the first call; `xStart` is zeroed. -/
def initMemoryManager (mem : Bytes) (xStart managedMemory : Nat) : Heap where
  mem := store64 (xStart + 8) 0 (store64 xStart 0 mem)
  ucHeap := managedMemory
  xStart := xStart
  pxEnd := 0
  xFreeBytesRemaining := 0
  xMinimumEverFreeBytesRemaining := 0
  xNumberOfSuccessfulAllocations := 0
  xNumberOfSuccessfulFrees := 0
  xBlockAllocatedBit := 0

namespace Heap

/-- `p->pxNextFreeBlock`. -/
def pxNextFreeBlock (h : Heap) (p : Nat) : C Nat :=
  if p = 0 then .error .nullDeref else .ok (load64 h.mem p)

/-- `p->xBlockSize`. -/
def xBlockSize (h : Heap) (p : Nat) : C Nat :=
  if p = 0 then .error .nullDeref else .ok (load64 h.mem (p + 8))

/-- `p->pxNextFreeBlock = q`. -/
def setNext (h : Heap) (p q : Nat) : C Heap :=
  if p = 0 then .error .nullDeref else .ok { h with mem := store64 p q h.mem }

/-- `p->xBlockSize = n`. -/
def setSize (h : Heap) (p n : Nat) : C Heap :=
  if p = 0 then .error .nullDeref else .ok { h with mem := store64 (p + 8) n h.mem }

end Heap

/-- The beginning of `prvHeapInit`: `uxAddress` on an aligned boundary, and `xTotalHeapSize`. -/
def alignHeap (ucHeap : Nat) : Nat × Nat :=
  let uxAddress := ucHeap
  let xTotalHeapSize := configTOTAL_HEAP_SIZE
  if uxAddress &&& portBYTE_ALIGNMENT_MASK ≠ 0 then
    let uxAddress := size_t (uxAddress + (portBYTE_ALIGNMENT - 1 : Nat))
    let uxAddress := uxAddress &&& complement portBYTE_ALIGNMENT_MASK
    (uxAddress, size_t (xTotalHeapSize - size_t (uxAddress - ucHeap)))
  else (uxAddress, xTotalHeapSize)

def prvHeapInit (h : Heap) : C Heap := do
  let (uxAddress, xTotalHeapSize) := alignHeap h.ucHeap
  let pucAlignedHeap := uxAddress
  let h ← h.setNext h.xStart pucAlignedHeap
  let h ← h.setSize h.xStart 0
  let uxAddress := size_t (pucAlignedHeap + xTotalHeapSize)
  let uxAddress := size_t (uxAddress - xHeapStructSize)
  let uxAddress := uxAddress &&& complement portBYTE_ALIGNMENT_MASK
  let h := { h with pxEnd := uxAddress }
  let h ← h.setSize h.pxEnd 0
  let h ← h.setNext h.pxEnd 0
  let pxFirstFreeBlock := pucAlignedHeap
  let h ← h.setSize pxFirstFreeBlock (size_t (uxAddress - pxFirstFreeBlock))
  let h ← h.setNext pxFirstFreeBlock h.pxEnd
  let size ← h.xBlockSize pxFirstFreeBlock
  pure { h with
    xMinimumEverFreeBytesRemaining := size
    xFreeBytesRemaining := size
    xBlockAllocatedBit := size_t (2 ^ (sizeofSize * heapBITS_PER_BYTE - 1)) }

/-- The first loop of `prvInsertBlockIntoFreeList`, from `pxIterator`. -/
def findPlace (h : Heap) (pxBlockToInsert : Nat) : (fuel : Nat) → (pxIterator : Nat) → C Nat
  | 0, _ => .error .hang
  | fuel + 1, pxIterator => do
      let next ← h.pxNextFreeBlock pxIterator
      if next < pxBlockToInsert then findPlace h pxBlockToInsert fuel next
      else pure pxIterator

/-- The block being inserted and the block it is inserted after. -/
def mergeBefore (pxIterator pxBlockToInsert : Nat) (h : Heap) : C (Nat × Heap) := do
  let size ← h.xBlockSize pxIterator
  if size_t (pxIterator + size) = pxBlockToInsert then
    let h ← h.setSize pxIterator (size_t (size + (← h.xBlockSize pxBlockToInsert)))
    pure (pxIterator, h)
  else pure (pxBlockToInsert, h)

/-- The block being inserted and the block it is inserted before. -/
def mergeBehind (pxIterator pxBlockToInsert : Nat) (h : Heap) : C Heap := do
  let size ← h.xBlockSize pxBlockToInsert
  let next ← h.pxNextFreeBlock pxIterator
  if size_t (pxBlockToInsert + size) = next then
    if next ≠ h.pxEnd then
      let h ← h.setSize pxBlockToInsert (size_t (size + (← h.xBlockSize next)))
      h.setNext pxBlockToInsert (← h.pxNextFreeBlock (← h.pxNextFreeBlock pxIterator))
    else h.setNext pxBlockToInsert h.pxEnd
  else h.setNext pxBlockToInsert next

def prvInsertBlockIntoFreeList (fuel : Nat) (pxBlockToInsert : Nat) (h : Heap) : C Heap := do
  let pxIterator ← findPlace h pxBlockToInsert fuel h.xStart
  let (pxBlockToInsert, h) ← mergeBefore pxIterator pxBlockToInsert h
  let h ← mergeBehind pxIterator pxBlockToInsert h
  if pxIterator ≠ pxBlockToInsert then h.setNext pxIterator pxBlockToInsert else pure h

/-- The size of the block for a request: with the header, and a multiple of the alignment. -/
def adjust (xWantedSize : Nat) : Nat :=
  if xWantedSize > 0 then
    let xWantedSize := size_t (xWantedSize + xHeapStructSize)
    if xWantedSize &&& portBYTE_ALIGNMENT_MASK ≠ 0x00 then
      size_t (xWantedSize +
        size_t (portBYTE_ALIGNMENT - (xWantedSize &&& portBYTE_ALIGNMENT_MASK : Nat)))
    else xWantedSize
  else xWantedSize

/-- The loop of `pvPortMalloc`: `pxPreviousBlock` and `pxBlock` where it ends. -/
def findBlock (h : Heap) (xWantedSize : Nat) :
    (fuel : Nat) → (pxPreviousBlock pxBlock : Nat) → C (Nat × Nat)
  | 0, _, _ => .error .hang
  | fuel + 1, pxPreviousBlock, pxBlock => do
      let size ← h.xBlockSize pxBlock
      if size < xWantedSize then
        let next ← h.pxNextFreeBlock pxBlock
        if next ≠ 0 then findBlock h xWantedSize fuel pxBlock next
        else pure (pxPreviousBlock, pxBlock)
      else pure (pxPreviousBlock, pxBlock)

/-- A block larger than required is split into two. -/
def splitBlock (fuel : Nat) (pxBlock xWantedSize : Nat) (h : Heap) : C Heap := do
  let size ← h.xBlockSize pxBlock
  if size_t (size - xWantedSize) > heapMINIMUM_BLOCK_SIZE then
    let pxNewBlockLink := size_t (pxBlock + xWantedSize)
    let h ← h.setSize pxNewBlockLink (size_t (size - xWantedSize))
    let h ← h.setSize pxBlock xWantedSize
    prvInsertBlockIntoFreeList fuel pxNewBlockLink h
  else pure h

/-- The block is counted, and is owned by the application. -/
def ownBlock (pxBlock : Nat) (h : Heap) : C Heap := do
  let size ← h.xBlockSize pxBlock
  let h := { h with xFreeBytesRemaining := size_t (h.xFreeBytesRemaining - size) }
  let h :=
    if h.xFreeBytesRemaining < h.xMinimumEverFreeBytesRemaining then
      { h with xMinimumEverFreeBytesRemaining := h.xFreeBytesRemaining }
    else h
  let h ← h.setSize pxBlock (size ||| h.xBlockAllocatedBit)
  let h ← h.setNext pxBlock 0
  pure { h with xNumberOfSuccessfulAllocations := size_t (h.xNumberOfSuccessfulAllocations + 1) }

/-- `pxBlock` is taken out of the list behind `pxPreviousBlock`. -/
def takeBlock (fuel : Nat) (pxPreviousBlock pxBlock xWantedSize : Nat) (h : Heap) :
    C (Nat × Heap) := do
  let pvReturn := size_t ((← h.pxNextFreeBlock pxPreviousBlock) + xHeapStructSize)
  let h ← h.setNext pxPreviousBlock (← h.pxNextFreeBlock pxBlock)
  let h ← splitBlock fuel pxBlock xWantedSize h
  let h ← ownBlock pxBlock h
  pure (pvReturn, h)

/-- What it returns, NULL or an address, and the heap. -/
def pvPortMalloc (fuel : Nat) (xWantedSize : Nat) (h : Heap) : C (Nat × Heap) := do
  let h ← if h.pxEnd = 0 then prvHeapInit h else pure h
  if xWantedSize &&& h.xBlockAllocatedBit = 0 then
    let xWantedSize := adjust xWantedSize
    if xWantedSize > 0 ∧ xWantedSize ≤ h.xFreeBytesRemaining then
      let first ← h.pxNextFreeBlock h.xStart
      let (pxPreviousBlock, pxBlock) ← findBlock h xWantedSize fuel h.xStart first
      if pxBlock ≠ h.pxEnd then takeBlock fuel pxPreviousBlock pxBlock xWantedSize h
      else pure (0, h)
    else pure (0, h)
  else pure (0, h)

def vPortFree (fuel : Nat) (pv : Nat) (h : Heap) : C Heap := do
  if pv ≠ 0 then
    let pxLink := size_t (pv - xHeapStructSize)
    let size ← h.xBlockSize pxLink
    if size &&& h.xBlockAllocatedBit ≠ 0 then
      if (← h.pxNextFreeBlock pxLink) = 0 then
        let size := size &&& complement h.xBlockAllocatedBit
        let h ← h.setSize pxLink size
        let h := { h with xFreeBytesRemaining := size_t (h.xFreeBytesRemaining + size) }
        let h ← prvInsertBlockIntoFreeList fuel pxLink h
        pure { h with xNumberOfSuccessfulFrees := size_t (h.xNumberOfSuccessfulFrees + 1) }
      else pure h
    else pure h
  else pure h

/-- `HeapStats_t`. -/
structure HeapStats where
  xAvailableHeapSpaceInBytes : Nat
  xSizeOfLargestFreeBlockInBytes : Nat
  xSizeOfSmallestFreeBlockInBytes : Nat
  xNumberOfFreeBlocks : Nat
  xMinimumEverFreeBytesRemaining : Nat
  xNumberOfSuccessfulAllocations : Nat
  xNumberOfSuccessfulFrees : Nat

/-- The loop of `vPortGetHeapStats`: `xBlocks`, `xMaxSize` and `xMinSize` at its end. -/
def countBlocks (h : Heap) :
    (fuel : Nat) → (pxBlock xBlocks xMaxSize xMinSize : Nat) → C (Nat × Nat × Nat)
  | 0, _, _, _, _ => .error .hang
  | fuel + 1, pxBlock, xBlocks, xMaxSize, xMinSize => do
      let xBlocks := size_t (xBlocks + 1)
      let size ← h.xBlockSize pxBlock
      let xMaxSize := if size > xMaxSize then size else xMaxSize
      let xMinSize := if size < xMinSize then size else xMinSize
      let next ← h.pxNextFreeBlock pxBlock
      if next ≠ h.pxEnd then countBlocks h fuel next xBlocks xMaxSize xMinSize
      else pure (xBlocks, xMaxSize, xMinSize)

def vPortGetHeapStats (fuel : Nat) (h : Heap) : C HeapStats := do
  let first ← h.pxNextFreeBlock h.xStart
  let (xBlocks, xMaxSize, xMinSize) ←
    if first ≠ 0 then countBlocks h fuel first 0 0 configTOTAL_HEAP_SIZE
    else pure (0, 0, configTOTAL_HEAP_SIZE)
  pure {
    xAvailableHeapSpaceInBytes := h.xFreeBytesRemaining
    xSizeOfLargestFreeBlockInBytes := xMaxSize
    xSizeOfSmallestFreeBlockInBytes := xMinSize
    xNumberOfFreeBlocks := xBlocks
    xMinimumEverFreeBytesRemaining := h.xMinimumEverFreeBytesRemaining
    xNumberOfSuccessfulAllocations := h.xNumberOfSuccessfulAllocations
    xNumberOfSuccessfulFrees := h.xNumberOfSuccessfulFrees }

section
variable {x n : Nat} {a b : Nat}

theorem size_t_add (h : a + b < 2 ^ 64) : size_t (a + b) = a + b := by
  unfold size_t
  omega

theorem size_t_sub (le : b ≤ a) (h : a < 2 ^ 64) : size_t (a - b) = a - b := by
  unfold size_t
  omega

theorem and_mask (x : Nat) : x &&& portBYTE_ALIGNMENT_MASK = x % 8 :=
  Nat.and_two_pow_sub_one_eq_mod x 3

theorem complement_mask : complement portBYTE_ALIGNMENT_MASK = (2 ^ 61 - 1) <<< 3 := by decide

theorem and_complement_mask (h : x < 2 ^ 64) :
    x &&& complement portBYTE_ALIGNMENT_MASK = x - x % 8 := by
  have down : x - x % 8 = (x >>> 3) <<< 3 := by
    rw [Nat.shiftLeft_eq, Nat.shiftRight_eq_div_pow]
    omega
  rw [down, complement_mask]
  refine Nat.eq_of_testBit_eq fun i => ?_
  rw [Nat.testBit_and, Nat.testBit_shiftLeft, Nat.testBit_shiftLeft, Nat.testBit_two_pow_sub_one,
    Nat.testBit_shiftRight]
  by_cases low : 3 ≤ i
  · rw [Nat.add_sub_cancel' low]
    by_cases high : i < 64
    · simp [low, show i - 3 < 61 by omega]
    · have zero : x.testBit i = false :=
        Nat.testBit_lt_two_pow (Nat.lt_of_lt_of_le h (Nat.pow_le_pow_right (by omega) (by omega)))
      simp [zero]
  · simp [low]

theorem xHeapStructSize_eq : xHeapStructSize = 16 := by decide
theorem heapMINIMUM_BLOCK_SIZE_eq : heapMINIMUM_BLOCK_SIZE = 32 := by decide

theorem top_bit : size_t (2 ^ (sizeofSize * heapBITS_PER_BYTE - 1)) = 2 ^ 63 := by decide

theorem and_top (h : x < 2 ^ 64) : x &&& 2 ^ 63 = if x < 2 ^ 63 then 0 else 2 ^ 63 := by
  rw [Nat.and_two_pow]
  split <;> rename_i small
  · rw [Nat.testBit_lt_two_pow small]
    simp
  · have bit : x.testBit 63 = true := by
      rw [Nat.testBit_eq_decide_div_mod_eq]
      exact decide_eq_true (by omega)
    rw [bit]
    simp

theorem or_top (h : x < 2 ^ 63) : x ||| 2 ^ 63 = x + 2 ^ 63 := by
  have apart := Nat.two_pow_add_eq_or_of_lt h 1
  rw [Nat.mul_one] at apart
  rw [Nat.or_comm, ← apart, Nat.add_comm]

/-- The size of an allocated block, without the bit. -/
theorem and_complement_top (x : Nat) : x &&& complement (2 ^ 63) = x % 2 ^ 63 := by
  rw [show complement (2 ^ 63) = 2 ^ 63 - 1 by decide]
  exact Nat.and_two_pow_sub_one_eq_mod x 63

/-- The size of the block for a request, in unbounded arithmetic. -/
theorem adjust_eq (h : n < 2 ^ 63) :
    adjust n = if n = 0 then 0 else (n + 16 + 7) / 8 * 8 := by
  by_cases zero : n = 0
  · rw [adjust, if_neg (by omega), if_pos zero, zero]
  · have whole : size_t (n + xHeapStructSize) = n + 16 := by
      rw [xHeapStructSize_eq]
      exact size_t_add (by omega)
    have pad : size_t ((portBYTE_ALIGNMENT : Int) - ((n + 16) % 8 : Nat)) = 8 - (n + 16) % 8 :=
      size_t_sub (by unfold portBYTE_ALIGNMENT; omega) (by decide)
    rw [adjust, if_pos (by omega), if_neg zero]
    simp only [whole, and_mask, pad]
    split
    · rw [size_t_add (by omega)]
      omega
    · omega

end

end BottlerOS.DefaultHeap
