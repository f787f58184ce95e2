import BottlerOS.Machine

/-! `Kernel/utils/scheduler.c`, function by function. The process list is the
code's own: records at addresses, linked by `next`, with `firstProcess`,
`lastProcess` and `currentProcess` pointing into it. Loops over links carry
fuel, and running out of it is `Fault.hang`, so a loop returns exactly when
some amount of fuel lets it return. `forceTimer()` is always the last thing a
function here does; `Exit.forceTimer` says that it is called. -/

namespace BottlerOS.Scheduler
open Machine

def IDLE_PID : Int := 1
def MAX_PRIORITY : Int := 40
def DEF_PRIORITY : Int := 0
def STACK_SIZE : Nat := 1024 * 512

inductive States where
  | ready
  | dead
  | blocked
  | waiting
  | blockedIo
  deriving DecidableEq, Repr

structure ProcessCDT where
  next : Option Ptr
  name : Ptr
  pid : Int
  ppid : Int
  rsp : Nat
  rbp : Nat
  priority : Int
  executions : Int
  foreground : Int
  state : States
  fd : Ptr
  children : Int
  backWait : Int
  bPointer : Ptr
  deriving DecidableEq, Repr

structure SleepCDT where
  pid : Int
  time : Int
  secs : Int
  deriving DecidableEq, Repr

/-- The scheduler's globals, its records, and the blocks it has passed to
`vPortFree`, latest first. -/
structure Sched where
  procs : Ptr → Option ProcessCDT
  firstBlockedIteration : Option Ptr
  firstProcess : Option Ptr
  lastProcess : Option Ptr
  firstSleep : List SleepCDT
  currentProcess : Option Ptr
  pids : Int
  idleFlag : Int
  freed : List Ptr

/-- How a function comes back to its caller: with a value, or with one after
`forceTimer()` has switched away and the process is dispatched again. -/
inductive Exit where
  | ret (code : Int)
  | forceTimer
  deriving DecidableEq, Repr

namespace Sched

def put (s : Sched) (p : Ptr) (r : ProcessCDT) : Sched :=
  { s with procs := Function.update s.procs p (some r) }

def free (s : Sched) (p : Ptr) : Sched :=
  { s with procs := Function.update s.procs p none, freed := p :: s.freed }

/-- `currentProcess->`: its address and its record. -/
def current (s : Sched) : C (Ptr × ProcessCDT) := do
  let c ← deref s.currentProcess
  let r ← load s.procs c
  pure (c, r)

end Sched

/-- `searchProcess`: the record with this pid, and the one before it. -/
def searchProcess (procs : Ptr → Option ProcessCDT) (pid : Int) :
    (fuel : Nat) → (previous curr : Option Ptr) → C (Option Ptr × Option Ptr)
  | 0, _, _ => .error .hang
  | _ + 1, _, none => .ok (none, none)
  | fuel + 1, previous, some p => do
      let r ← load procs p
      if r.pid = pid then .ok (some p, previous)
      else searchProcess procs pid fuel (some p) r.next

def search (fuel : Nat) (pid : Int) (s : Sched) : C (Option Ptr × Option Ptr) :=
  searchProcess s.procs pid fuel none s.firstProcess

/-- `removeProcess(del, &firstProcess, &lastProcess)`. -/
def removeProcess (fuel : Nat) (del : Ptr) (s : Sched) : C Sched := do
  let r ← load s.procs del
  let (found, prev) ← search fuel r.pid s
  let del ← deref found
  let d ← load s.procs del
  match prev with
  | none =>
      pure { s with
        firstProcess := d.next
        lastProcess := if s.lastProcess = some del then none else s.lastProcess }
  | some q => do
      let pr ← load s.procs q
      let s := s.put q { pr with next := d.next }
      pure { s with
        lastProcess := if s.lastProcess = some del then some q else s.lastProcess }

/-- A parent that waits in the background takes the foreground back from `del`. -/
def giveForeground (parent : Option Ptr) (s : Sched) : C Sched := do
  let q ← deref parent
  let r ← load s.procs q
  if r.backWait ≠ 0 then pure (s.put q { r with backWait := 0, foreground := 1 }) else pure s

/-- A parent in the foreground hands it to `del` and waits in the background. -/
def takeForeground (parent : Option Ptr) (s : Sched) : C Sched := do
  let q ← deref parent
  let r ← load s.procs q
  if r.foreground ≠ 0 then pure (s.put q { r with backWait := 1, foreground := 0 }) else pure s

/-- `if (del->foreground) { .. }`. -/
def ifForeground (foreground : Int) (act : Sched → C Sched) (s : Sched) : C Sched :=
  if foreground ≠ 0 then act s else pure s

def block (fuel : Nat) (pid : Int) (s : Sched) : C (Exit × Sched) := do
  let (del, _) ← search fuel pid s
  match del with
  | none => pure (.ret EXIT_FAILURE, s)
  | some del =>
      let d ← load s.procs del
      if d.state = .dead then pure (.ret EXIT_FAILURE, s) else do
      let s := s.put del { d with state := .blocked }
      let (parent, _) ← search fuel d.ppid s
      let s ← ifForeground d.foreground (giveForeground parent) s
      let (c, r) ← s.current
      if pid = r.pid then pure (.forceTimer, s.put c { r with executions := 0 })
      else pure (.ret EXIT_SUCCESS, s)

def unblock (fuel : Nat) (pid : Int) (s : Sched) : C (Exit × Sched) := do
  let (del, _) ← search fuel pid s
  match del with
  | none => pure (.ret EXIT_FAILURE, s)
  | some del =>
      let d ← load s.procs del
      if d.state = .dead then pure (.ret EXIT_FAILURE, s) else do
      let s := s.put del { d with state := .ready }
      let (parent, _) ← search fuel d.ppid s
      let s ← ifForeground d.foreground (takeForeground parent) s
      pure (.ret EXIT_SUCCESS, s)

/-- The relinking of `unblockFirst`: `del` leaves the list and comes back after
the current process (after nothing when there is none). -/
def moveAfterCurrent (fuel : Nat) (del : Ptr) (s : Sched) : C Sched := do
  let s ← removeProcess fuel del s
  match s.currentProcess with
  | some c => do
      let r ← load s.procs c
      let s := s.put c { r with executions := char (MAX_PRIORITY - r.priority) }
      let r ← load s.procs c
      let d ← load s.procs del
      let s := s.put del { d with next := r.next }
      let r ← load s.procs c
      let s := s.put c { r with next := some del }
      pure { s with
        lastProcess := if some c = s.lastProcess then some del else s.lastProcess }
  | none => do
      let d ← load s.procs del
      match s.firstProcess with
      | none =>
          let s := s.put del { d with next := none }
          pure { s with firstProcess := some del, lastProcess := some del }
      | some f => do
          let r ← load s.procs f
          let s := s.put del { d with next := r.next }
          pure { s with firstProcess := some del }

def unblockFirst (fuel : Nat) (pid : Int) (s : Sched) : C (Exit × Sched) := do
  let (del, _) ← search fuel pid s
  match del with
  | none => pure (.ret EXIT_FAILURE, s)
  | some del =>
      let d ← load s.procs del
      if d.state = .dead then pure (.ret EXIT_FAILURE, s) else do
      let s ← moveAfterCurrent fuel del s
      let d ← load s.procs del
      let s := s.put del { d with state := .ready }
      let (parent, _) ← search fuel d.ppid s
      let s ← ifForeground d.foreground (takeForeground parent) s
      pure (.forceTimer, s)

/-- What `kill` does to the parent of a process with the given `foreground`. -/
def orphan (foreground : Int) (r : ProcessCDT) : ProcessCDT :=
  let r := { r with children := int32 (r.children - 1) }
  let r := if r.children = 0 ∧ r.state = .waiting then { r with state := .ready } else r
  if r.backWait ≠ 0 ∧ foreground ≠ 0 then { r with backWait := 0, foreground := 1 } else r

def orphanParent (foreground : Int) (parent : Option Ptr) (s : Sched) : C Sched :=
  match parent with
  | none => pure s
  | some q => do
      let r ← load s.procs q
      pure (s.put q (orphan foreground r))

def kill (fuel : Nat) (pid : Int) (s : Sched) : C (Exit × Sched) := do
  let (del, _) ← search fuel pid s
  match del with
  | none => pure (.ret EXIT_FAILURE, s)
  | some del =>
      let d ← load s.procs del
      let (parent, _) ← search fuel d.ppid s
      let s ← orphanParent d.foreground parent s
      let d ← load s.procs del
      let s := { s with freed := d.bPointer :: d.name :: d.fd :: s.freed }
      let s := s.put del { d with state := .dead }
      let (_, r) ← s.current
      if pid = r.pid then pure (.forceTimer, s) else pure (.ret EXIT_SUCCESS, s)

def exitProcess (fuel : Nat) (s : Sched) : C (Exit × Sched) := do
  let (_, r) ← s.current
  kill fuel r.pid s

def nice (fuel : Nat) (pid offset : Int) (s : Sched) : C (Exit × Sched) := do
  if offset ≥ 20 ∨ offset < -20 then pure (.ret EXIT_FAILURE, s) else do
  let (del, _) ← search fuel pid s
  match del with
  | none => pure (.ret EXIT_FAILURE, s)
  | some del => do
      let d ← load s.procs del
      pure (.ret EXIT_SUCCESS, s.put del { d with priority := char (offset + 20) })

def wait (s : Sched) : C (Exit × Sched) :=
  match s.currentProcess with
  | none => pure (.ret EXIT_SUCCESS, s)
  | some c => do
      let r ← load s.procs c
      if r.children ≠ 0 then pure (.forceTimer, s.put c { r with state := .waiting })
      else pure (.ret EXIT_SUCCESS, s)

def blockIo (s : Sched) : C (Exit × Sched) :=
  match s.currentProcess with
  | none => pure (.ret EXIT_FAILURE, s)
  | some c => do
      let r ← load s.procs c
      if r.state = .dead then pure (.ret EXIT_FAILURE, s)
      else pure (.forceTimer, s.put c { r with state := .blockedIo, executions := 0 })

/-- `unblockIo`: the loop from one link of the list on. -/
def unblockIoFrom : (fuel : Nat) → (aux : Option Ptr) → Sched → C Sched
  | 0, _, _ => .error .hang
  | _ + 1, none, s => .ok s
  | fuel + 1, some p, s => do
      let r ← load s.procs p
      let s := if r.state = .blockedIo then s.put p { r with state := .ready } else s
      unblockIoFrom fuel r.next s

def unblockIo (fuel : Nat) (s : Sched) : C Sched := unblockIoFrom fuel s.firstProcess s

def getPid (s : Sched) : C Int :=
  match s.currentProcess with
  | none => pure (-1)
  | some c => do
      let r ← load s.procs c
      pure r.pid

def quitCPU (s : Sched) : C (Exit × Sched) := do
  let pid ← getPid s
  if pid = -1 then pure (.ret EXIT_FAILURE, s) else do
  let (c, r) ← s.current
  pure (.forceTimer, s.put c { r with executions := char (MAX_PRIORITY - r.priority) })

/-- `sleep`; `m` is what `pvPortMalloc` returns for the entry. -/
def sleep (fuel : Nat) (now secs : Int) (m : Option Ptr) (s : Sched) : C (Exit × Sched) :=
  match s.currentProcess with
  | none => pure (.ret EXIT_SUCCESS, s)
  | some c => do
      let _ ← deref m
      let r ← load s.procs c
      block fuel r.pid { s with firstSleep := ⟨r.pid, now, secs⟩ :: s.firstSleep }

/-- The loop of `checkSleeping`; `kept` are the entries it has passed over, so
`prev` is the last of them and NULL when there is none. -/
def checkSleepingFrom (fuel : Nat) (now : Int) :
    (kept aux : List SleepCDT) → Sched → C Sched
  | kept, [], s => .ok { s with firstSleep := kept }
  | kept, e :: aux, s =>
      if now ≥ e.time + e.secs then do
        let (_, s) ← unblock fuel e.pid s
        -- `aux = prev->next` after `wakeUp(aux, prev)`
        let _ ← deref kept.getLast?
        checkSleepingFrom fuel now kept aux s
      else checkSleepingFrom fuel now (kept ++ [e]) aux s

def checkSleeping (fuel : Nat) (now : Int) (s : Sched) : C Sched :=
  checkSleepingFrom fuel now [] s.firstSleep s

/-- The loop of `nextProcess`; `fuel` bounds its passes, `steps` the searches inside. -/
def nextProcessLoop (steps : Nat) : (fuel : Nat) → Sched → C Sched
  | 0, _ => .error .hang
  | fuel + 1, s =>
      match s.currentProcess with
      | none => nextProcessLoop steps fuel { s with currentProcess := s.firstProcess }
      | some c => do
          let r ← load s.procs c
          if r.state = .ready then .ok s
          else if some c = s.firstBlockedIteration then do
            let (_, s) ← unblock steps IDLE_PID { s with idleFlag := 1 }
            nextProcessLoop steps fuel { s with currentProcess := r.next }
          else if r.state = .dead then do
            let s ← removeProcess steps c { s with currentProcess := r.next }
            nextProcessLoop steps fuel (s.free c)
          else
            nextProcessLoop steps fuel { s with
              firstBlockedIteration := s.firstBlockedIteration.or (some c)
              currentProcess := r.next }

/-- The saving of `currentRSP` and the end of a used-up turn. -/
def endTurn (currentRSP : Nat) (s : Sched) : C Sched :=
  match s.currentProcess with
  | none => pure s
  | some c => do
      let r ← load s.procs c
      let r := { r with rsp := currentRSP }
      if r.state = .ready ∧ r.executions = MAX_PRIORITY - r.priority then
        pure { s.put c { r with executions := 0 } with currentProcess := r.next }
      else pure (s.put c r)

/-- `block(IDLE_PID)` under a condition, where the current process is another one. -/
def blockIdle (fuel : Nat) (cond : Bool) (s : Sched) : C Sched :=
  if cond then do
    let (_, s) ← block fuel IDLE_PID s
    pure s
  else pure s

/-- What `nextProcess` does with the process it has found. -/
def startTurn (fuel : Nat) (s : Sched) : C (Nat × Sched) := do
  let (_, r) ← s.current
  let leave : Bool := r.pid ≠ IDLE_PID ∧ s.idleFlag ≠ 0
  let s ← blockIdle fuel leave { s with idleFlag := if leave then 0 else s.idleFlag }
  let s := { s with firstBlockedIteration := none }
  let (c, r) ← s.current
  pure (r.rsp, s.put c { r with executions := char (r.executions + 1) })

def nextProcess (fuel : Nat) (currentRSP : Nat) (s : Sched) : C (Nat × Sched) := do
  let s ← endTurn currentRSP s
  let s ← nextProcessLoop fuel fuel s
  startTurn fuel s

/-- The stack pointer `_initialize_stack_frame` returns for a stack that ends at `rbp`. -/
def initialize_stack_frame (rbp : Nat) : Nat :=
  let rsi := rbp - 20 * 8
  let fpu := rsi / 16 * 16 - 108
  let sse := fpu / 16 * 16 - 512
  sse - 8

/-- What `pvPortMalloc` returns inside `enqueueProcess`, call by call. -/
structure Mallocs where
  fd : Option Ptr
  process : Option Ptr
  stack : Option Ptr
  name : Option Ptr

/-- The child is counted, and takes the foreground from a foreground parent. -/
def adopt (foreground : Int) (r : ProcessCDT) : ProcessCDT :=
  let r := { r with children := int32 (r.children + 1) }
  if r.foreground ≠ 0 ∧ foreground ≠ 0 then { r with foreground := 0, backWait := 1 } else r

/-- The pid of the parent, and its bookkeeping. During boot `currentProcess` is NULL and
`currentProcess->pid` reads low memory: `nullPid` is the `int` that lies there. -/
def adoptCurrent (nullPid foreground : Int) (s : Sched) : C (Int × Sched) :=
  match s.currentProcess with
  | none => pure (nullPid, s)
  | some c => do
      let r ← load s.procs c
      pure (r.pid, s.put c (adopt foreground r))

/-- `firstProcess = process` or `lastProcess->next = process`, then `lastProcess`. -/
def appendProcess (process : Ptr) (s : Sched) : C Sched :=
  match s.firstProcess with
  | none => pure { s with firstProcess := some process, lastProcess := some process }
  | some _ => do
      let l ← deref s.lastProcess
      let r ← load s.procs l
      pure { s.put l { r with next := some process } with lastProcess := some process }

def enqueueProcess (fuel : Nat) (nullPid foreground : Int) (fd : Option Ptr) (m : Mallocs)
    (s : Sched) : C (Int × Sched) := do
  let fd ← deref (fd.or m.fd)
  let s ← blockIdle fuel (s.idleFlag = 0) s
  let (ppid, s) ← adoptCurrent nullPid foreground s
  let process ← malloc s.procs m.process
  let auxi ← deref m.stack
  let aux ← deref m.name
  -- `uint64_t *rbp = STACK_SIZE + auxi` counts in words of 8 bytes
  let rbp := auxi + 8 * STACK_SIZE
  let pid := s.pids
  let s := { s with pids := int32 (s.pids + 1) }
  let s := s.put process
    { next := none, name := aux, pid := pid, ppid := ppid
      rsp := initialize_stack_frame rbp, rbp := rbp
      priority := if foreground = 1 then DEF_PRIORITY else MAX_PRIORITY / 2
      executions := 0, foreground := foreground, state := .ready, fd := fd
      children := 0, backWait := 0, bPointer := auxi }
  let s ← appendProcess process s
  pure (pid, s)

/-- The globals before `main`. -/
def reset : Sched where
  procs := fun _ => none
  firstBlockedIteration := none
  firstProcess := none
  lastProcess := none
  firstSleep := []
  currentProcess := none
  pids := IDLE_PID
  idleFlag := 2
  freed := []

def initScheduler (fuel : Nat) (nullPid : Int) (m : Mallocs) (s : Sched) : C Sched := do
  let (pid, s) ← enqueueProcess fuel nullPid 0 none m s
  let (_, s) ← nice fuel pid 19 s
  pure s

/-- `int 20h`, the timer interrupt: `_irq00Handler` on the stack `rsp` at time `now`. -/
def irq00Handler (fuel : Nat) (now : Int) (rsp : Nat) (s : Sched) : C Sched := do
  let s ← checkSleeping fuel now s
  let (_, s) ← nextProcess fuel rsp s
  pure s

/-- The scheduler part of the kernel's `main`, up to and with its `forceTimer()`. -/
def main (fuel : Nat) (nullPid now : Int) (rsp : Nat) (mIdle mSample : Mallocs) : C Sched := do
  let s ← initScheduler fuel nullPid mIdle reset
  let (_, s) ← enqueueProcess fuel nullPid 1 none mSample s
  irq00Handler fuel now rsp s

end BottlerOS.Scheduler
