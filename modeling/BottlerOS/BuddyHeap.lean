import Mathlib.Algebra.Order.Ring.Int
import BottlerOS.Machine

/-! `Kernel/utils/memManagerBuddy.c`. An `int` that is returned as a `void *` is extended to 64
bits. -/

namespace BottlerOS.BuddyHeap
open Machine

def LEVEL : Int := 17
def SIZE : Nat := 2 ^ 17
def PAGE_SIZE : Int := 0x1000
def NULL : Int := 0

/-- What `kernel.c` gives `initMemoryManager`. -/
def memoryModuleAddress : Int := 0x600000

inductive Node where
  | unused
  | used
  | split
  | full
  deriving DecidableEq, Repr

/-- `heapAddress` and `self`. -/
structure Heap where
  heapAddress : Int
  level : Int
  tree : Nat → Node

/-- `(void *) x` -/
def voidPtr (x : Int) : Int := x % 2 ^ 64

def initMemoryManager (managedMemSize : Int) : Heap where
  heapAddress := int32 managedMemSize
  level := LEVEL
  tree := fun _ => .unused

namespace Heap

/-- `self.tree[index]` -/
def read (b : Heap) (index : Int) : C Node :=
  if 0 ≤ index ∧ index < 2 * SIZE - 1 then pure (b.tree index.toNat) else .error .outOfBounds

/-- `self.tree[index] = x` -/
def write (b : Heap) (index : Int) (x : Node) : C Heap :=
  if 0 ≤ index ∧ index < 2 * SIZE - 1 then
    pure { b with tree := Function.update b.tree index.toNat x }
  else .error .outOfBounds

end Heap

/-- `!(x & (x-1))` of a `uint32_t` -/
def isPowOf2 (x : Nat) : Prop := x &&& (x + (2 ^ 32 - 1)) % 2 ^ 32 = 0

instance (x : Nat) : Decidable (isPowOf2 x) := inferInstanceAs (Decidable (_ = _))

def nextPowOf2 (x : Nat) : Nat :=
  if isPowOf2 x then x
  else
    let x := x ||| x >>> 1
    let x := x ||| x >>> 2
    let x := x ||| x >>> 4
    let x := x ||| x >>> 8
    let x := x ||| x >>> 16
    (x + 1) % 2 ^ 32

def indexOffset (index level maxLevel heapAddress : Int) : Int :=
  int32 ((index + 1 - 2 ^ level.toNat) * 2 ^ (maxLevel - level).toNat * PAGE_SIZE + heapAddress)

/-- `index - 1 + (index & 1) * 2` -/
def buddyOf (index : Int) : Int := index - 1 + index % 2 * 2

/-- `(index + 1) / 2 - 1` -/
def parentOf (index : Int) : Int := (index + 1).tdiv 2 - 1

def markParent : (fuel : Nat) → (index : Int) → Heap → C Heap
  | 0, _, _ => .error .hang
  | fuel + 1, index, b =>
      let buddy := buddyOf index
      if buddy > 0 then do
        let n ← b.read buddy
        if n = .used ∨ n = .full then do
          let index := parentOf index
          let b ← b.write index .full
          markParent fuel index b
        else pure b
      else pure b

/-- The number of pages that `buddy_alloc(s)` looks for. -/
def blockSize (s : Int) : Int :=
  let s := if s.tmod PAGE_SIZE ≠ 0 then s.tdiv PAGE_SIZE + 1 else s.tdiv PAGE_SIZE
  if s = 0 then 1 else int32 (nextPowOf2 (uint32 s).toNat)

/-- The loop on `cont`; `none` where it returns NULL. -/
def climb : (fuel : Nat) → (index level length : Int) → C (Option (Int × Int × Int))
  | 0, _, _, _ => .error .hang
  | fuel + 1, index, level, length =>
      let level := level - 1
      let length := length * 2
      let index := parentOf index
      if index < 0 then pure none
      else if index % 2 = 1 then pure (some (index + 1, level, length))
      else climb fuel index level length

/-- A turn's `nextStep`; `search` is the turns that follow. -/
def nextStep (search : (index level length : Int) → Heap → C (Int × Heap)) (fuel : Nat)
    (index level length : Int) (b : Heap) : C (Int × Heap) :=
  if index % 2 = 1 then search (index + 1) level length b
  else do
    match ← climb fuel index level length with
    | none => pure (NULL, b)
    | some (index, level, length) => search index level length b

/-- `buddy_alloc`'s loop. -/
def search (size : Int) : (fuel : Nat) → (index level length : Int) → Heap → C (Int × Heap)
  | 0, _, _, _, _ => .error .hang
  | fuel + 1, index, level, length, b =>
      if index < 0 then pure (NULL, b)
      else if size = length then do
        if (← b.read index) = .unused then
          let b ← b.write index .used
          let b ← markParent fuel index b
          pure (voidPtr (indexOffset index level b.level b.heapAddress), b)
        else nextStep (search size fuel) fuel index level length b
      else do
        match ← b.read index with
        | .used => nextStep (search size fuel) fuel index level length b
        | .full => nextStep (search size fuel) fuel index level length b
        | .unused => do
            let b ← b.write index .split
            let b ← b.write (index * 2 + 1) .unused
            let b ← b.write (index * 2 + 2) .unused
            search size fuel (index * 2 + 1) (level + 1) (length.tdiv 2) b
        | .split => search size fuel (index * 2 + 1) (level + 1) (length.tdiv 2) b

def buddyAlloc (fuel : Nat) (s : Int) (b : Heap) : C (Int × Heap) :=
  let size := blockSize s
  let length := 2 ^ b.level.toNat
  if size > length then pure (NULL, b) else search size fuel 0 0 length b

/-- `size` is a `size_t`. -/
def pvPortMalloc (fuel : Nat) (size : Int) (b : Heap) : C (Int × Heap) :=
  buddyAlloc fuel (int32 size) b

/-- `_combine`'s inner loop. -/
def unfull : (fuel : Nat) → (index : Int) → Heap → C Heap
  | 0, _, _ => .error .hang
  | fuel + 1, index, b =>
      let index := parentOf index
      if index ≥ 0 then do
        if (← b.read index) = .full then
          let b ← b.write index .split
          unfull fuel index b
        else pure b
      else pure b

def combine : (fuel : Nat) → (index : Int) → Heap → C Heap
  | 0, _, _ => .error .hang
  | fuel + 1, index, b =>
      let buddy := buddyOf index
      if buddy < 0 then do
        let b ← b.write index .unused
        unfull fuel index b
      else do
        if (← b.read buddy) ≠ .unused then
          let b ← b.write index .unused
          unfull fuel index b
        else combine fuel (parentOf index) b

/-- `buddy_free`'s loop. -/
def release (offset : Int) :
    (fuel : Nat) → (left length index : Int) → Heap → C (Int × Heap)
  | 0, _, _, _, _ => .error .hang
  | fuel + 1, left, length, index, b => do
      match ← b.read index with
      | .used =>
          if offset ≠ left then pure (-1, b)
          else do
            let b ← combine fuel index b
            pure (0, b)
      | .unused => pure (-1, b)
      | _ =>
          let length := length.tdiv 2
          if offset < left + length then release offset fuel left length (index * 2 + 1) b
          else release offset fuel (left + length) length (index * 2 + 2) b

/-- The page that `buddy_free` looks for. -/
def pageOf (pointer : Int) (b : Heap) : Int :=
  (int32 (int32 pointer - b.heapAddress)).tdiv PAGE_SIZE

def buddyFree (fuel : Nat) (pointer : Int) (b : Heap) : C (Int × Heap) :=
  let offset := pageOf pointer b
  let length := 2 ^ b.level.toNat
  if offset ≥ length then pure (-1, b) else release offset fuel 0 length 0 b

def vPortFree (fuel : Nat) (pointer : Int) (b : Heap) : C Heap := do
  let (_, b) ← buddyFree fuel pointer b
  pure b

end BottlerOS.BuddyHeap
