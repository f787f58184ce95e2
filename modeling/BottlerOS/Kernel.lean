import BottlerOS.Pipe

/-! The kernel as a transition system. Between two steps the current process is in
user mode, or it has just been dispatched inside a system call (its kernel stack
is not empty) and goes on with it. A process other than idle makes system calls;
idle only halts. -/

namespace BottlerOS.Kernel
open Machine Scheduler Semaphore Pipe

inductive Call where
  | quitCPU
  | enqueueProcess (foreground : Int) (fd : Option Ptr) (m : Mallocs)
  | block (pid : Int)
  | unblock (pid : Int)
  | kill (pid : Int)
  | nice (pid offset : Int)
  | wait
  | blockIo
  | sleep (now secs : Int) (m : Option Ptr)
  | semOpen (name : String) (value : Int) (m : SemMallocs)
  | semWait (m : Option Ptr) (sem : Ptr)
  | semPost (sem : Ptr)
  | semClose (sem : Option Ptr)
  | openPipe (name : String) (m : PipeMallocs)
  | writePipe (m : Option Ptr) (fd c : Int)
  | readPipe (m m' : Option Ptr) (fd : Int)
  | closePipe (m : Option Ptr) (fd : Int)

/-- A step: a timer interrupt, a key, a system call of the current process or the rest of one.
`now` and `rsp` are the clock and the stack pointer if the timer handler runs in it. -/
inductive Action where
  | tick (now : Int) (rsp : Nat)
  | key
  | call (c : Call) (now : Int) (rsp : Nat)
  | resume (now : Int) (rsp : Nat)

/-- A scheduler function as a system call. -/
def ofExit (k : Kernel) : C (Exit × Sched) → C (Flow × Kernel)
  | .error e => .error e
  | .ok (.ret _, s) => pure (.ret, { k with sched := s })
  | .ok (.forceTimer, s) => pure (.timer [], { k with sched := s })

def invoke (fuel : Nat) (k : Kernel) : Call → C (Flow × Kernel)
  | .quitCPU => ofExit k (quitCPU k.sched)
  | .enqueueProcess foreground fd m => do
      let (_, s) ← enqueueProcess fuel 0 foreground fd m k.sched
      let process ← deref m.process
      pure (.ret, { k with sched := s, frames := Function.update k.frames process [] })
  | .block pid => ofExit k (block fuel pid k.sched)
  | .unblock pid => ofExit k (unblock fuel pid k.sched)
  | .kill pid => ofExit k (kill fuel pid k.sched)
  | .nice pid offset => ofExit k (nice fuel pid offset k.sched)
  | .wait => ofExit k (wait k.sched)
  | .blockIo => ofExit k (blockIo k.sched)
  | .sleep now secs m => ofExit k (sleep fuel now secs m k.sched)
  | .semOpen name value m => do
      let (_, k) ← Semaphore.semOpen name value m k
      pure (.ret, k)
  | .semWait m sem => Semaphore.semWait fuel m sem k
  | .semPost sem => Semaphore.semPost fuel sem k
  | .semClose sem => do
      let (_, k) ← Semaphore.semClose sem k
      pure (.ret, k)
  | .openPipe name m => do
      let (_, k) ← Pipe.openPipe name m k
      pure (.ret, k)
  | .writePipe m fd c => Pipe.writePipe fuel m fd c k
  | .readPipe m m' fd => Pipe.readPipe fuel m m' fd k
  | .closePipe m fd => Pipe.closePipe fuel m fd k

def runFrame (fuel : Nat) (k : Kernel) : Frame → C (Flow × Kernel)
  | .semWait sem => semWaitBlocked sem k
  | .semPost => semPostUnblocked k
  | .writeWaited node c => writeWaited fuel node c k
  | .writePosted node => writePosted fuel node k
  | .readFull node m => readFull fuel node m k
  | .readWaited node => readWaited fuel node k
  | .readPosted _ => pure (.ret, k)
  | .closeWaited del prev => closeWaited del prev k

/-- The frames of a stack, innermost first, until one of them loses the processor. -/
def runFrames (fuel : Nat) : List Frame → Kernel → C (Flow × Kernel)
  | [], k => pure (.ret, k)
  | f :: rest, k => do
      let (flow, k) ← runFrame fuel k f
      match flow with
      | .ret => runFrames fuel rest k
      | .timer frames => pure (.timer (frames ++ rest), k)

/-- The timer interrupt. -/
def timer (fuel : Nat) (now : Int) (rsp : Nat) (k : Kernel) : C Kernel := do
  let s ← irq00Handler fuel now rsp k.sched
  pure { k with sched := s }

/-- The end of kernel code of the process at `c`: back to user mode, or its stack is kept and
the processor goes on. -/
def leave (fuel : Nat) (now : Int) (rsp : Nat) (c : Ptr) : Flow × Kernel → C Kernel
  | (.ret, k) => pure k
  | (.timer rest, k) => timer fuel now rsp { k with frames := Function.update k.frames c rest }

def exec (fuel : Nat) (k : Kernel) : Action → C Kernel
  | .tick now rsp => timer fuel now rsp k
  | .key => do
      let s ← unblockIo fuel k.sched
      pure { k with sched := s }
  | .call call now rsp => do
      let c ← deref k.sched.currentProcess
      let x ← invoke fuel k call
      leave fuel now rsp c x
  | .resume now rsp => do
      let c ← deref k.sched.currentProcess
      let x ← runFrames fuel (k.frames c) { k with frames := Function.update k.frames c [] }
      leave fuel now rsp c x

/-- What may happen next: inside a system call only its rest; system calls are not idle's. -/
def Enabled (k : Kernel) (a : Action) : Prop :=
  match k.sched.current, a with
  | .error _, _ => False
  | .ok (c, _), .tick _ _ => k.frames c = []
  | .ok (c, _), .key => k.frames c = []
  | .ok (c, r), .call _ _ _ => k.frames c = [] ∧ r.pid ≠ IDLE_PID
  | .ok (c, _), .resume _ _ => k.frames c ≠ []

instance (k : Kernel) (a : Action) : Decidable (Enabled k a) :=
  match h : k.sched.current, a with
  | .error _, _ => .isFalse (by simp [Enabled, h])
  | .ok (c, _), .tick _ _ => decidable_of_iff (k.frames c = []) (by simp [Enabled, h])
  | .ok (c, _), .key => decidable_of_iff (k.frames c = []) (by simp [Enabled, h])
  | .ok (c, r), .call _ _ _ =>
      decidable_of_iff (k.frames c = [] ∧ r.pid ≠ IDLE_PID) (by simp [Enabled, h])
  | .ok (c, _), .resume _ _ => decidable_of_iff (k.frames c ≠ []) (by simp [Enabled, h])

def Step (k : Kernel) (a : Action) (k' : Kernel) : Prop :=
  Enabled k a ∧ ∃ fuel, exec fuel k a = .ok k'

/-- Runs whose steps are allowed. -/
inductive Run (Allowed : Kernel → Action → Prop) (k₀ : Kernel) : Kernel → Prop where
  | refl : Run Allowed k₀ k₀
  | step {k k' : Kernel} {a : Action} (run : Run Allowed k₀ k) (allowed : Allowed k a)
      (step : Step k a k') : Run Allowed k₀ k'

/-- Actions one after the other, as long as they are enabled and come back. -/
def play (fuel : Nat) : List Action → Kernel → Option Kernel
  | [], k => some k
  | a :: rest, k =>
      if Enabled k a then
        match exec fuel k a with
        | .error _ => none
        | .ok k' => play fuel rest k'
      else none

theorem play_step {fuel : Nat} {a : Action} {k k' : Kernel} (h : play fuel [a] k = some k') :
    Step k a k' := by
  unfold play at h
  split at h <;> rename_i en
  · split at h <;> rename_i ex
    · cases h
    · obtain rfl := Option.some.inj h
      exact ⟨en, fuel, ex⟩
  · cases h

/-- What is played is a run. -/
theorem play_run {fuel : Nat} {acts : List Action} {k₀ k k' : Kernel}
    {Allowed : Kernel → Action → Prop} (allowed : ∀ k, ∀ a ∈ acts, Allowed k a)
    (run : Run Allowed k₀ k) (h : play fuel acts k = some k') : Run Allowed k₀ k' := by
  induction acts generalizing k with
  | nil =>
    obtain rfl := Option.some.inj h
    exact run
  | cons a rest ih =>
    unfold play at h
    split at h <;> rename_i en
    · split at h <;> rename_i ex
      · cases h
      · exact ih (fun k b hb => allowed k b (List.mem_cons_of_mem _ hb))
          (run.step (allowed k a List.mem_cons_self) ⟨en, fuel, ex⟩) h
    · cases h

/-- The kernel when `main` has set it going. -/
def boot (fuel : Nat) (nullPid now : Int) (rsp : Nat) (mIdle mSample : Mallocs) : C Kernel := do
  let s ← main fuel nullPid now rsp mIdle mSample
  pure { sched := s, semLock := 0, sems := fun _ => none, firstSem := [], pipes := fun _ => none
         firstPipe := [], fdIndex := 2, frames := fun _ => [], trace := [] }

/-- A run from boot whose end has been evaluated. -/
theorem boot_play {α : Type} {fuel steps : Nat} {nullPid now : Int} {rsp : Nat}
    {mIdle mSample : Mallocs} {acts : List Action} {view : Kernel → α} {v : α}
    (h : ((boot fuel nullPid now rsp mIdle mSample).toOption.bind (play steps acts)).map view =
      some v) :
    ∃ k₀ k, boot fuel nullPid now rsp mIdle mSample = .ok k₀ ∧ play steps acts k₀ = some k ∧
      view k = v := by
  obtain ⟨k, hk, hv⟩ := Option.map_eq_some_iff.mp h
  obtain ⟨k₀, h₀, hk⟩ := Option.bind_eq_some_iff.mp hk
  refine ⟨k₀, k, ?_, hk, hv⟩
  generalize boot fuel nullPid now rsp mIdle mSample = x at h₀
  cases x with
  | error e => cases h₀
  | ok k => exact congrArg Except.ok (Option.some.inj h₀)

/-- Blocks for the `i`-th process. -/
def blocks (i : Nat) : Mallocs :=
  ⟨some (1000 + 100 * i), some (1001 + 100 * i), some (1002 + 100 * i), some (1003 + 100 * i)⟩

/-- Blocks for a semaphore. -/
def semBlocks : SemMallocs := ⟨some 5000, some 5001, some 5002⟩

/-- Blocks for the `i`-th pipe. -/
def pipeBlocks (i : Nat) : PipeMallocs :=
  ⟨some (7000 + 100 * i), some (7001 + 100 * i), some (7002 + 100 * i), fun _ => 0,
    ⟨some (7003 + 100 * i), some (7004 + 100 * i), some (7005 + 100 * i)⟩,
    ⟨some (7006 + 100 * i), some (7007 + 100 * i), some (7008 + 100 * i)⟩, some (7009 + 100 * i)⟩

end BottlerOS.Kernel
