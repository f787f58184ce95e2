import BottlerOS.Semaphore

/-! `Kernel/utils/pipe.c`. A pipe and the `node_t` that registers it live and die
together and are one record here. -/

namespace BottlerOS.Pipe
open Machine Scheduler Semaphore

def SEM_NAME : String := "Pipes"
def FULL_SEM_NAME : String := "FullSem"
def PIPE_MAX_SIZE : Int := 1024

/-- What `pvPortMalloc` returns inside `openPipe`, call by call; `bytes` is what lies in the
buffer it returns. -/
structure PipeMallocs where
  pipe : Option Ptr
  name : Option Ptr
  buffer : Option Ptr
  bytes : Nat → Int
  sem : SemMallocs
  fullSem : SemMallocs
  node : Option Ptr

/-- `openPipe`; its `fds` are the result. -/
def openPipe (name : String) (m : PipeMallocs) (k : Kernel) : C ((Int × Int) × Kernel) := do
  let pipe ← malloc k.pipes m.pipe
  let _ ← deref m.name
  let _ ← deref m.buffer
  let name ← copyName name
  -- `semOpen` does not return NULL
  let (sem, k) ← semOpen SEM_NAME 1 m.sem k
  let (fullSem, k) ← semOpen FULL_SEM_NAME 0 m.fullSem k
  let _ ← deref m.node
  let fd0 := k.fdIndex
  let fd1 := int32 (fd0 + 1)
  let k := k.putPipe pipe
    { fd0 := fd0, fd1 := fd1, buffer := m.bytes, currentR := 0, currentW := 0, name := name
      sem := sem, fullSem := fullSem }
  let k := { k with firstPipe := pipe :: k.firstPipe, fdIndex := int32 (fd1 + 1) }
  pure ((fd0, fd1), k.log (.opened pipe))

/-- The loop of the three searches: the first node whose pipe passes the test, and the one
before it. -/
def searchBy (pipes : Ptr → Option PipeT) (test : PipeT → Bool) :
    (previous : Option Ptr) → List Ptr → C (Option Ptr × Option Ptr)
  | _, [] => pure (none, none)
  | previous, p :: rest => do
      let pipe ← load pipes p
      if test pipe then pure (some p, previous) else searchBy pipes test (some p) rest

def searchPipe (fd : Int) (k : Kernel) : C (Option Ptr × Option Ptr) :=
  searchBy k.pipes (fun p => p.fd0 = fd ∨ p.fd1 = fd) none k.firstPipe

def searchWPipe (fd : Int) (k : Kernel) : C (Option Ptr × Option Ptr) :=
  searchBy k.pipes (fun p => p.fd1 = fd) none k.firstPipe

def searchRPipe (fd : Int) (k : Kernel) : C (Option Ptr × Option Ptr) :=
  searchBy k.pipes (fun p => p.fd0 = fd) none k.firstPipe

/-- `buffer[i % PIPE_MAX_SIZE]`: the C remainder has the sign of `i`. -/
def slot (i : Int) : C Nat :=
  if 0 ≤ i.tmod PIPE_MAX_SIZE then pure (i.tmod PIPE_MAX_SIZE).toNat else .error .outOfBounds

/-- `writePipe` behind `semPost(sem)`. -/
def writePosted (fuel : Nat) (node : Ptr) (k : Kernel) : C (Flow × Kernel) := do
  let p ← load k.pipes node
  semPost fuel p.fullSem k

/-- `writePipe` behind its `semWait`. -/
def writeWaited (fuel : Nat) (node : Ptr) (c : Int) (k : Kernel) : C (Flow × Kernel) := do
  let p ← load k.pipes node
  let i ← slot p.currentW
  let k := (k.putPipe node { p with
    buffer := Function.update p.buffer i c
    currentW := int32 (p.currentW + 1) }).log (.wrote node c)
  andThen (semPost fuel p.sem k) (.writePosted node) (writePosted fuel node)

def writePipe (fuel : Nat) (m : Option Ptr) (fd c : Int) (k : Kernel) : C (Flow × Kernel) := do
  let (found, _) ← searchWPipe fd k
  let node ← deref found
  let p ← load k.pipes node
  andThen (semWait fuel m p.sem k) (.writeWaited node c) (writeWaited fuel node c)

/-- `readPipe` behind its `semWait(sem)`. -/
def readWaited (fuel : Nat) (node : Ptr) (k : Kernel) : C (Flow × Kernel) := do
  let p ← load k.pipes node
  let i ← slot p.currentR
  let c := p.buffer i
  let pid ← getPid k.sched
  let k := (k.putPipe node { p with currentR := int32 (p.currentR + 1) }).log
    (.fetched node pid c)
  andThen (semPost fuel p.sem k) (.readPosted c) (fun k => pure (.ret, k))

/-- `readPipe` behind its `semWait(fullSem)`. -/
def readFull (fuel : Nat) (node : Ptr) (m : Option Ptr) (k : Kernel) : C (Flow × Kernel) := do
  let p ← load k.pipes node
  andThen (semWait fuel m p.sem k) (.readWaited node) (readWaited fuel node)

def readPipe (fuel : Nat) (m m' : Option Ptr) (fd : Int) (k : Kernel) : C (Flow × Kernel) := do
  let (found, _) ← searchRPipe fd k
  let node ← deref found
  let p ← load k.pipes node
  andThen (semWait fuel m p.fullSem k) (.readFull node m') (readFull fuel node m')

/-- `closePipe` behind its `semWait`: `prev->next = del->next` or `firstPipe = del->next`. The
blocks are freed in one go: the heap leaves the contents of a freed block alone until it is
handed out again. -/
def closeWaited (del : Ptr) (prev : Option Ptr) (k : Kernel) : C (Flow × Kernel) := do
  let p ← load k.pipes del
  let next := (k.firstPipe.dropWhile (· ≠ del)).tail
  let firstPipe ← match prev with
    | none => pure next
    | some q => do
        let _ ← load k.pipes q
        pure (k.firstPipe.takeWhile (· ≠ q) ++ q :: next)
  let (_, k) ← semClose (some p.sem) { k with firstPipe := firstPipe }
  let (_, k) ← semClose (some p.fullSem) k
  pure (.ret, { k with pipes := Function.update k.pipes del none })

def closePipe (fuel : Nat) (m : Option Ptr) (fd : Int) (k : Kernel) : C (Flow × Kernel) := do
  let (found, prev) ← searchPipe fd k
  match found with
  | none => pure (.ret, k)
  | some del => do
      let p ← load k.pipes del
      andThen (semWait fuel m p.sem k) (.closeWaited del prev) (closeWaited del prev)

end BottlerOS.Pipe
