import BottlerOS.SemSteps

/-! Where the waiters of a semaphore are when semaphores are closed and processes
killed. `semClose` frees a queue without looking at it, and `semPost` drops the
head of a queue even if it is DEAD: both can leave a waiter behind. -/

namespace BottlerOS.SemWaiters
open Machine Scheduler LinkedList ProcessList ProcessFields ProcessLinks Dispatch
open Semaphore SemCalls SemBooks SemRuns SemSteps Kernel

/-- What holds between two steps, and of kernel code that is about to switch. -/
structure Tracked (k : Kernel) (nodes : List Ptr) (pending : Option (Ptr × Ptr)) : Prop where
  plain : Plain k nodes
  registry : ∀ sem, k.sems sem ≠ none → sem ∈ k.firstSem
  registered : ∀ p ∈ nodes, ∀ sem, stateOf k.sched p ≠ some .dead → waitsOn k p = some sem →
    (∃ pid ∈ queue k sem, pidOf k.sched p = some pid) ∨ pending = some (p, sem)
  asleep : k.sched.firstSleep = []

section
variable {k₀ k k' k₁ : Kernel} {nodes nodes' nodes₁ : List Ptr} {pending : Option (Ptr × Ptr)}
  {sem c d p : Ptr} {x : SemT} {pid : Int} {s s' : Sched} {fuel : Nat} {flow : Flow}

theorem Tracked.landed (h : Tracked k nodes pending) (l : Landed k nodes k' nodes') :
    Tracked k' nodes' pending := by
  obtain ⟨hs, -, hf, hfirst⟩ := Landed.tables l
  have same : queue k' = queue k := funext fun q => by rw [queue, hs, queue]
  refine ⟨h.plain.of_frames fun p hp => .inl ⟨l.sublist.subset hp, by rw [hf]⟩,
    by rw [hs, hfirst]; exact h.registry, fun p hp sem hlive hw => ?_, ?_⟩
  · have hw' : waitsOn k p = some sem := (waitsOn_frames (by rw [hf])).symm.trans hw
    rw [same, l.pidOf p hp]
    exact h.registered p (l.sublist.subset hp) sem (fun e => hlive (l.dead p hp e)) hw'
  · have hsl := l.sleep
    rw [h.asleep] at hsl
    exact List.sublist_nil.mp hsl

/-- Frames of other processes, queues, states and pids are what they were. -/
theorem Tracked.still (h : Tracked k nodes none) (sub : ∀ p ∈ nodes', p ∈ nodes)
    (registry : ∀ sem, k'.sems sem ≠ none → sem ∈ k'.firstSem)
    (frames : ∀ p ∈ nodes', k'.frames p = k.frames p ∨ k'.frames p = [] ∨ k'.frames p = [.semPost])
    (asleep : k'.sched.firstSleep = [])
    (moved : ∀ p ∈ nodes', ∀ sem pid, stateOf k'.sched p ≠ some .dead → waitsOn k p = some sem →
      pid ∈ queue k sem → pidOf k.sched p = some pid → stateOf k.sched p ≠ some .dead →
      (pid ∈ queue k' sem ∧ pidOf k'.sched p = some pid) ∨ pending = some (p, sem))
    (dead : ∀ p ∈ nodes', stateOf k.sched p = some .dead → stateOf k'.sched p = some .dead) :
    Tracked k' nodes' pending := by
  refine ⟨h.plain.of_frames fun p hp => ?_, registry, fun p hp sem hlive hw => ?_, asleep⟩
  · rcases frames p hp with e | e | e
    · exact .inl ⟨sub p hp, e⟩
    · exact .inr (.inl e)
    · exact .inr (.inr ⟨_, e, fun h => h⟩)
  · have hw' : waitsOn k p = some sem := by
      rcases frames p hp with e | e | e
      · exact (waitsOn_frames e).symm.trans hw
      · simp [waitsOn, e] at hw
      · simp [waitsOn, e] at hw
    have hlive' : stateOf k.sched p ≠ some .dead := fun e => hlive (dead p hp e)
    obtain ⟨pid, hq, hpid⟩ := (h.registered p (sub p hp) sem hlive' hw').resolve_right (by simp)
    exact (moved p hp sem pid hlive hw' hq hpid hlive').imp (fun e => ⟨pid, e.1, e.2⟩) id

theorem sleepersOut (h : Tracked k nodes pending) (now : Int) :
    SleepersOut k nodes pending now := by
  intro e he
  rw [h.asleep] at he
  cases he

end

/-- Process 2 waits for the semaphore, and 3 closes it. -/
def closed : List Action :=
  [.call (.semWait (some 6000) 5000) 0 0, .call (.semClose (some 5000)) 0 0]

end BottlerOS.SemWaiters
