import BottlerOS.Scheduler

/-! `Kernel/utils/sem.c`, over the kernel's whole state. A system call runs with
interrupts off and loses the processor only where it calls `forceTimer()`; what
is left of it is then a list of `Frame`s on the process's kernel stack, innermost
first. The `trace` is not in the code: it lists what the calls did. -/

namespace BottlerOS.Semaphore
open Machine Scheduler

structure SemT where
  value : Int
  name : String
  entering : List Int
  deriving DecidableEq, Repr

structure PipeT where
  fd0 : Int
  fd1 : Int
  buffer : Nat → Int
  currentR : Int
  currentW : Int
  name : String
  sem : Ptr
  fullSem : Ptr

/-- The rest of a kernel function behind a call that has lost the processor. -/
inductive Frame where
  | semWait (sem : Ptr)
  | semPost
  | writeWaited (node : Ptr) (c : Int)
  | writePosted (node : Ptr)
  | readFull (node : Ptr) (m : Option Ptr)
  | readWaited (node : Ptr)
  | readPosted (c : Int)
  | closeWaited (del : Ptr) (prev : Option Ptr)
  deriving DecidableEq, Repr

inductive Event where
  /-- `semPost` has begun. -/
  | posted (sem : Ptr)
  /-- `semWait` has taken a unit, and the value it found; `waited` if it was queued for it. -/
  | taken (sem : Ptr) (pid value : Int) (waited : Bool)
  /-- `semWait` has queued its caller. -/
  | queued (sem : Ptr) (pid : Int)
  /-- `openPipe` has made the pipe. -/
  | opened (node : Ptr)
  /-- `writePipe` has stored a byte. -/
  | wrote (node : Ptr) (c : Int)
  /-- `readPipe` has fetched the byte it returns. -/
  | fetched (node : Ptr) (pid c : Int)
  deriving DecidableEq, Repr

structure Kernel where
  sched : Sched
  semLock : Int
  sems : Ptr → Option SemT
  /-- The semaphores of the `node_t` list at `firstSem`, in order. -/
  firstSem : List Ptr
  pipes : Ptr → Option PipeT
  firstPipe : List Ptr
  fdIndex : Int
  /-- The kernel stack of the process whose record is at the address. -/
  frames : Ptr → List Frame
  trace : List Event

/-- How a kernel function comes to an end: it returns, or `forceTimer()` takes the processor
and the given frames are left. -/
inductive Flow where
  | ret
  | timer (rest : List Frame)
  deriving DecidableEq, Repr

/-- A call, the rest of the caller behind it as a frame, and that rest. -/
def andThen (call : C (Flow × Kernel)) (f : Frame) (rest : Kernel → C (Flow × Kernel)) :
    C (Flow × Kernel) := do
  let (flow, k) ← call
  match flow with
  | .ret => rest k
  | .timer frames => pure (.timer (frames ++ [f]), k)

def MAX_NAME : Nat := 100

namespace Kernel

def putSem (k : Kernel) (sem : Ptr) (x : SemT) : Kernel :=
  { k with sems := Function.update k.sems sem (some x) }

def putPipe (k : Kernel) (node : Ptr) (x : PipeT) : Kernel :=
  { k with pipes := Function.update k.pipes node (some x) }

def log (k : Kernel) (e : Event) : Kernel := { k with trace := k.trace ++ [e] }

end Kernel

/-- `enter_region(&semLock)`: with interrupts off nobody can release a lock that is taken. -/
def enter_region (k : Kernel) : C Kernel :=
  if k.semLock = 0 then pure { k with semLock := 1 } else .error .hang

def leave_region (k : Kernel) : Kernel := { k with semLock := 0 }

/-- `strcpy` into a block of `MAX_NAME` bytes. -/
def copyName (name : String) : C String :=
  if name.length < MAX_NAME then pure name else .error .outOfBounds

/-- `searchSem`. -/
def searchSem (sems : Ptr → Option SemT) (name : String) : List Ptr → C (Option Ptr)
  | [] => pure none
  | p :: rest => do
      let sem ← load sems p
      if sem.name = name then pure (some p) else searchSem sems name rest

/-- What `pvPortMalloc` returns inside `semOpen`, call by call. -/
structure SemMallocs where
  sem : Option Ptr
  node : Option Ptr
  name : Option Ptr

def semOpen (name : String) (value : Int) (m : SemMallocs) (k : Kernel) : C (Ptr × Kernel) := do
  let k ← enter_region k
  match ← searchSem k.sems name k.firstSem with
  | some p => pure (p, leave_region k)
  | none => do
      let sem ← malloc k.sems m.sem
      let _ ← deref m.node
      let _ ← deref m.name
      let name ← copyName name
      let k := k.putSem sem { value := uint32 value, name := name, entering := [] }
      pure (sem, leave_region { k with firstSem := sem :: k.firstSem })

def semClose (sem : Option Ptr) (k : Kernel) : C (Int × Kernel) :=
  match sem with
  | none => pure (EXIT_FAILURE, k)
  | some sem => do
      let k ← enter_region k
      let _ ← deref k.firstSem.head?
      if sem ∉ k.firstSem then pure (EXIT_FAILURE, leave_region k) else do
      let _ ← load k.sems sem
      let k := { k with
        firstSem := k.firstSem.erase sem
        sems := Function.update k.sems sem none }
      pure (EXIT_SUCCESS, leave_region k)

/-- `semWait` behind its `block`. -/
def semWaitBlocked (sem : Ptr) (k : Kernel) : C (Flow × Kernel) := do
  let k ← enter_region k
  let x ← load k.sems sem
  let pid ← getPid k.sched
  let k := (k.putSem sem { x with value := uint32 (x.value - 1) }).log
    (.taken sem pid x.value true)
  pure (.ret, leave_region k)

/-- `semWait`; `m` is what `pvPortMalloc` returns for the queue entry. -/
def semWait (fuel : Nat) (m : Option Ptr) (sem : Ptr) (k : Kernel) : C (Flow × Kernel) := do
  let k ← enter_region k
  let x ← load k.sems sem
  let pid ← getPid k.sched
  if x.value > 0 then
    let k := (k.putSem sem { x with value := uint32 (x.value - 1) }).log
      (.taken sem pid x.value false)
    pure (.ret, leave_region k)
  else do
    let k := leave_region k
    let _ ← deref m
    let k := (k.putSem sem { x with entering := x.entering ++ [pid] }).log (.queued sem pid)
    let (e, s) ← block fuel pid k.sched
    match e with
    | .ret _ => semWaitBlocked sem { k with sched := s }
    | .forceTimer => pure (.timer [.semWait sem], { k with sched := s })

/-- `semPost` behind its `unblockFirst`. -/
def semPostUnblocked (k : Kernel) : C (Flow × Kernel) := do
  let k ← enter_region k
  pure (.ret, leave_region k)

def semPost (fuel : Nat) (sem : Ptr) (k : Kernel) : C (Flow × Kernel) := do
  let k ← enter_region k
  let x ← load k.sems sem
  let x := { x with value := uint32 (x.value + 1) }
  let k := k.log (.posted sem)
  match x.entering with
  | [] => pure (.ret, leave_region (k.putSem sem x))
  | pid :: rest => do
      let k := leave_region (k.putSem sem { x with entering := rest })
      let (e, s) ← unblockFirst fuel pid k.sched
      match e with
      | .ret _ => semPostUnblocked { k with sched := s }
      | .forceTimer => pure (.timer [.semPost], { k with sched := s })

end BottlerOS.Semaphore
