import BottlerOS.RoundRobin
import BottlerOS.SemSteps

/-! Semaphores among processes that only compute, make processes and use
semaphores. Each semaphore is then a counting semaphore with direct hand-off, and
the calls and the hand-over itself come to their end. -/

namespace BottlerOS.SemHandoff
open Machine Scheduler LinkedList ProcessList ProcessFields ProcessLinks Dispatch RoundRobin
open Semaphore SemCalls SemBooks SemRuns SemSteps Kernel

/-- Timer ticks, `quitCPU`, `enqueueProcess`, `semWait`, `semPost`, and what is left of them. -/
def Handing (_ : Kernel) : Action → Prop
  | .tick _ _ => True
  | .resume _ _ => True
  | .call .quitCPU _ _ => True
  | .call (.enqueueProcess _ _ _) _ _ => True
  | .call (.semWait _ _) _ _ => True
  | .call (.semPost _) _ _ => True
  | _ => False

/-- The pids given out are below the counter, and it does not overflow before the heap is full:
every process has a block of its own there. -/
structure Counter (k : Kernel) (nodes : List Ptr) : Prop where
  below : ∀ p ∈ nodes, ∀ pid, pidOf k.sched p = some pid → pid < k.sched.pids
  heap : ∀ p ∈ nodes, p < heapEnd
  nonneg : 0 ≤ k.sched.pids
  room : k.sched.pids + heapEnd ≤ INT_MAX + nodes.length

/-- Idle is in the list, and in the background for good. -/
def Idling (k : Kernel) (nodes : List Ptr) : Prop :=
  ∃ i ∈ nodes, IsIdle k.sched i ∧ Resting k.sched i

/-- What holds between two steps. -/
structure Inv (k₀ k : Kernel) (nodes : List Ptr) (c : Ptr) (pending : Option (Ptr × Ptr)) :
    Prop where
  calm : Calm k nodes c pending
  counter : Counter k nodes
  sleepers : k.sched.firstSleep = []
  idling : Idling k nodes
  refines : Refines k₀ k
  taken : ∀ e ∈ k.trace, Taken e

section
variable {k₀ k k' k₁ : Kernel} {nodes nodes' : List Ptr} {pending pending' : Option (Ptr × Ptr)}
  {sem c c' d p : Ptr} {x : SemT} {pid : Int} {s s' : Sched} {fuel : Nat} {flow : Flow}

theorem rested (h : k.sched.firstSleep = []) (a : Action) (now : Int) : Rested k a now := by
  intro e he
  rw [h] at he
  cases he

theorem sleepersOut (h : k.sched.firstSleep = []) (now : Int) :
    SleepersOut k nodes pending now := by
  intro e he
  rw [h] at he
  cases he

theorem length_of_mem (h : nodes.Nodup) (h' : nodes'.Nodup) (mem : ∀ p, p ∈ nodes' ↔ p ∈ nodes) :
    nodes'.length = nodes.length :=
  le_antisymm (h'.subperm fun p hp => (mem p).mp hp).length_le
    (h.subperm fun p hp => (mem p).mpr hp).length_le

theorem Inv.follows (h : Inv k₀ k nodes c pending) (calm : Calm k' nodes' c' pending')
    (adv : Advances k k') (follows : Follows k nodes k' nodes') :
    Inv k₀ k' nodes' c' pending' := by
  have length := length_of_mem h.calm.steady.books.listed.nodup calm.steady.books.listed.nodup
    follows.mem
  refine ⟨calm,
    ⟨fun p hp pid hpid => ?_, fun p hp => h.counter.heap p ((follows.mem p).mp hp), ?_, ?_⟩,
    ?_, ?_, adv.refines h.refines, adv.taken h.taken⟩
  · rw [follows.pids]
    have hp' := (follows.mem p).mp hp
    exact h.counter.below p hp' pid ((follows.pidOf p hp').symm.trans hpid)
  · rw [follows.pids]
    exact h.counter.nonneg
  · rw [follows.pids, length]
    exact h.counter.room
  · have hs := follows.sleep
    rw [h.sleepers] at hs
    exact List.subset_nil.mp hs
  · obtain ⟨i, hi, hidle, hrest⟩ := h.idling
    exact ⟨i, (follows.mem i).mpr hi, (follows.pidOf i hi).trans hidle, follows.resting i hi hrest⟩

theorem Inv.running (h : Inv k₀ k nodes c pending) (user : k.frames c = []) :
    Running k nodes c := h.calm.steady.running user

theorem quitCPU_inv {now : Int} {rsp : Nat} (h : Inv k₀ k nodes c pending)
    (user : k.frames c = []) (run : ofExit k (quitCPU k.sched) = .ok (flow, k₁))
    (run' : leave fuel now rsp c (flow, k₁) = .ok k') :
    ∃ nodes' c' pending', Inv k₀ k' nodes' c' pending' := by
  have r := h.running user
  obtain ⟨e, s, hq, ends, rfl⟩ := ofExit_cases run
  obtain ⟨res, sleep⟩ := quitCPU_running r hq ends
  obtain ⟨nodes', c', calm, adv, landed⟩ := Result.calm h.calm user res rfl rfl
    (fun p hp => .inl ⟨hp, rfl⟩) (sleepersOut (sleep.trans h.sleepers) now) run'
  have first : Follows k nodes { k with sched := s } nodes := by
    rcases quitCPU_cases hq with ⟨-, rfl⟩ | ⟨c', rc, hc, -, rfl⟩
    · exact .of_shuffled (fun _ => Iff.rfl) (.of_touched (Touched.refl (A := fun _ => False)
        (B := fun _ => False) _))
    · refine .of_shuffled (A := fun _ => False) (B := fun p => p = c') (fun _ => Iff.rfl)
        (.of_touched (touched_put (current_ok.mp hc).2 ⟨?_, fun _ => rfl, fun n => absurd rfl n,
          fun _ => rfl⟩))
      exact ⟨rfl, rfl, rfl, rfl, rfl, rfl, rfl, rfl, fun h h' => ⟨h, h'⟩⟩
  exact ⟨nodes', c', none, h.follows calm adv
    (first.trans (.of_landed landed (res.healthy h.calm.healthy)))⟩

theorem enqueueProcess_inv {now : Int} {rsp : Nat} {foreground : Int} {fd : Option Ptr}
    {m : Mallocs} (h : Inv k₀ k nodes c pending) (user : k.frames c = [])
    (busy : ¬ IsIdle k.sched c)
    (run : invoke fuel k (.enqueueProcess foreground fd m) = .ok (flow, k₁))
    (run' : leave fuel now rsp c (flow, k₁) = .ok k') :
    ∃ nodes' c' pending', Inv k₀ k' nodes' c' pending' := by
  have r := h.running user
  obtain ⟨⟨pid, s⟩, he, run₁⟩ := bind_ok.mp run
  obtain ⟨process, hm, run₂⟩ := bind_ok.mp run₁
  obtain ⟨rfl, rfl⟩ := Prod.mk.inj (Except.ok.inj run₂)
  have fresh : ∀ p ∈ nodes, pidOf k.sched p ≠ some k.sched.pids := fun p hp he =>
    absurd (h.counter.below p hp _ he) (lt_irrefl _)
  have unqueued : ∀ q, k.sched.pids ∉ queue k q := by
    intro q hq
    obtain ⟨p, hp, he⟩ := h.calm.healthy.entries q _ hq
    exact fresh p hp he
  obtain ⟨res, heap, hn, pids, sleep, hpid, rest⟩ :=
    enqueue_running r busy fresh unqueued he (deref_ok.mp hm)
  have apart : ∀ p ∈ nodes, p ≠ process := fun p hp e => hn (e ▸ hp)
  obtain ⟨nodes', c', calm, adv, landed⟩ := Result.calm h.calm user res rfl rfl
    (fun p hp => by
      rcases List.mem_append.mp hp with hp | hp
      · exact .inl ⟨hp, Function.update_of_ne (apart p hp) _ _⟩
      · exact .inr (by rw [List.mem_singleton.mp hp]; simp))
    (sleepersOut (sleep.trans h.sleepers) now) run'
  obtain ⟨-, rfl⟩ := landed.healthy (res.healthy h.calm.healthy)
  have hnodup := calm.steady.books.listed.nodup
  have heaps : ∀ p ∈ nodes ++ [process], p < heapEnd := by
    intro p hp
    rcases List.mem_append.mp hp with hp | hp
    · exact h.counter.heap p hp
    · rw [List.mem_singleton.mp hp]
      exact heap
  -- each process has its own block, so there are fewer than the heap has bytes
  have short : (nodes ++ [process]).length ≤ heapEnd := by
    have sub : (nodes ++ [process]).Subperm (List.range heapEnd) :=
      hnodup.subperm fun p hp => List.mem_range.mpr (heaps p hp)
    simpa using sub.length_le
  have room := h.counter.room
  have nonneg := h.counter.nonneg
  simp only [List.length_append, List.length_singleton] at short
  have next : k'.sched.pids = k.sched.pids + 1 := by
    rw [landed.pids]
    refine pids.trans (int32_of_range (by omega) ?_)
    simp only [INT_MAX] at room ⊢
    omega
  refine ⟨_, c', none, calm, ⟨fun p hp i hi => ?_, heaps, by omega, ?_⟩, ?_, ?_,
    adv.refines h.refines, adv.taken h.taken⟩
  · have hi' := (landed.pidOf p hp).symm.trans hi
    rw [next]
    rcases List.mem_append.mp hp with hp | hp
    · have := h.counter.below p hp i ((res.pidOf p hp).symm.trans hi')
      omega
    · rw [List.mem_singleton.mp hp] at hi'
      have : i = k.sched.pids := Option.some.inj (hi'.symm.trans hpid)
      omega
  · simp only [List.length_append, List.length_singleton, next]
    push_cast
    omega
  · have empty : s.firstSleep = [] := sleep.trans h.sleepers
    exact List.sublist_nil.mp (empty ▸ landed.sleep)
  · obtain ⟨i, hi, hidle, hrest⟩ := h.idling
    have hi' : i ∈ nodes ++ [process] := by simp [hi]
    exact ⟨i, hi', (landed.pidOf i hi').trans ((res.pidOf i hi).trans hidle),
      landed.resting i hi' (rest i hi hrest)⟩

/-- One step. -/
theorem step_inv {a : Action} (h : Inv k₀ k nodes c pending) (allowed : Handing k a)
    (step : Step k a k') : ∃ nodes' c' pending', Inv k₀ k' nodes' c' pending' := by
  cases a with
  | tick now rsp =>
    obtain ⟨nodes', c', calm, adv, landed⟩ := tick_calm h.calm (sleepersOut h.sleepers now) step
    exact ⟨nodes', c', none, h.follows calm adv (.of_landed landed h.calm.healthy)⟩
  | key => exact allowed.elim
  | resume now rsp =>
    obtain ⟨f, -, calm, adv, follows, -⟩ := resume_calm h.calm step
    exact ⟨nodes, c, none, h.follows calm adv follows⟩
  | call call now rsp =>
    obtain ⟨busy, user, fuel, flow, k₁, run, run'⟩ := call_cases h.calm.steady step
    cases call with
    | quitCPU => exact quitCPU_inv h user run run'
    | enqueueProcess foreground fd m => exact enqueueProcess_inv h user busy run run'
    | semWait m sem =>
      obtain ⟨nodes', c', calm, adv, follows, -⟩ :=
        semWait_calm h.calm user busy (rested h.sleepers _ now) run run'
      exact ⟨nodes', c', none, h.follows calm adv follows⟩
    | semPost sem =>
      obtain ⟨nodes', c', pending', calm, adv, follows, -⟩ :=
        semPost_calm h.calm user busy (rested h.sleepers _ now) run run'
      exact ⟨nodes', c', pending', h.follows calm adv follows⟩
    | block pid => exact allowed.elim
    | unblock pid => exact allowed.elim
    | kill pid => exact allowed.elim
    | nice pid offset => exact allowed.elim
    | wait => exact allowed.elim
    | blockIo => exact allowed.elim
    | sleep now secs m => exact allowed.elim
    | semOpen name value m => exact allowed.elim
    | semClose sem => exact allowed.elim
    | openPipe name m => exact allowed.elim
    | writePipe m fd c => exact allowed.elim
    | readPipe m m' fd => exact allowed.elim
    | closePipe m fd => exact allowed.elim

/-! The calls return, and so does the timer handler. -/

/-- Enough for the loops over the list. -/
def enough (nodes : List Ptr) : Nat := 3 * nodes.length + 5

theorem timer_returns (now : Int) (rsp : Nat) (h : Switching k nodes c pending)
    (live : ∀ p ∈ nodes, stateOf k.sched p ≠ some .dead) (asleep : k.sched.firstSleep = [])
    (idling : Idling k nodes) : ∃ k', timer (enough nodes) now rsp k = .ok k' := by
  obtain ⟨i, hi, hidle, r, hr, hf, -⟩ := idling
  have background : Background k.sched i := by
    have hlive := live i hi
    rw [IsIdle, pidOf_of hr] at hidle
    rw [stateOf_of hr] at hlive
    exact ⟨r, hr, Option.some.inj hidle, by simpa using hlive, hf⟩
  have cursor : Cursor k.sched nodes := fun x hx => by
    obtain rfl := Option.some.inj (h.current.symm.trans hx)
    exact h.mem
  obtain ⟨s', -, -, -, r', h', -⟩ := nextProcess_returns (enough nodes) rsp
    h.books.listed cursor h.books.cursor hi background le_rfl
  refine ⟨{ k with sched := s' }, ?_⟩
  simp only [timer, irq00Handler, checkSleeping_nil asleep, ok_bind, h']
  rfl

theorem Idling.follows (h : Idling k nodes) (f : Follows k nodes k' nodes') : Idling k' nodes' := by
  obtain ⟨i, hi, hidle, hrest⟩ := h
  exact ⟨i, (f.mem i).mpr hi, (f.pidOf i hi).trans hidle, f.resting i hi hrest⟩

theorem semWait_returns (fuel : Nat) {m : Option Ptr} (r : Running k nodes c)
    (hx : k.sems sem = some x)
    (home : Homed k.sched nodes) (hm : m ≠ none) (hf : nodes.length < fuel) :
    ∃ flow k₁, Semaphore.semWait fuel m sem k = .ok (flow, k₁) := by
  obtain ⟨rc, -, hrc, -⟩ := r.record
  obtain ⟨p, rfl⟩ := Option.ne_none_iff_exists'.mp hm
  have hpid : getPid k.sched = .ok rc.pid := by
    simp [getPid, r.current, load_of hrc]
  have hl := enter_ok.mpr ⟨r.books.lock, rfl⟩
  obtain ⟨⟨e, s⟩, hb⟩ := block_total rc.pid r.books.listed hf
    (current_ok.mpr ⟨r.current, hrc⟩) fun q hq rq hrq _ _ hfg => home q hq rq hrq hfg
  obtain ⟨rfl, -⟩ := block_self r (pidOf_of hrc) hb
  unfold Semaphore.semWait
  simp only [hl, ok_bind, load_of hx, hpid]
  split
  · exact ⟨_, _, rfl⟩
  · have hb' : block fuel rc.pid ((leave_region { k with semLock := 1 }).putSem sem
        { x with entering := x.entering ++ [rc.pid] }).sched = .ok (.forceTimer, s) := hb
    simp only [deref_some, ok_bind, Kernel.log, hb']
    exact ⟨_, _, rfl⟩

theorem semPost_returns (fuel : Nat) (r : Running k nodes c) (hx : k.sems sem = some x)
    (home : Homed k.sched nodes) (hf : nodes.length < fuel) :
    ∃ flow k₁, Semaphore.semPost fuel sem k = .ok (flow, k₁) := by
  have hl := enter_ok.mpr ⟨r.books.lock, rfl⟩
  unfold Semaphore.semPost
  simp only [hl, ok_bind, load_of hx]
  cases hq : x.entering with
  | nil => exact ⟨_, _, rfl⟩
  | cons pid rest =>
    have head : pid ∈ queue k sem := by simp [queue_of hx, hq]
    have other : pidOf k.sched c ≠ some pid := fun hpid =>
      r.books.not_queued r.mem r.ready hpid head
    obtain ⟨⟨e, s⟩, hu⟩ := unblockFirst_total r.books.listed hf r.current r.mem other home
    have hu' : unblockFirst fuel pid (leave_region ((Kernel.log { k with semLock := 1 }
        (.posted sem)).putSem sem { x with
          value := uint32 (x.value + 1), entering := rest })).sched = .ok (e, s) := hu
    simp only [hu', ok_bind]
    cases e with
    | ret code =>
      simp only [semPostUnblocked, enter_region, leave_region, if_true, pure_ok, ok_bind]
      exact ⟨_, _, rfl⟩
    | forceTimer => exact ⟨_, _, rfl⟩

/-- A step that consists of a call that returns, and of the timer handler it forces. -/
theorem call_step {call : Call} {now : Int} {rsp : Nat} (en : Enabled k (.call call now rsp))
    (hc : k.sched.currentProcess = some c) (h : invoke fuel k call = .ok (flow, k₁))
    (run : leave fuel now rsp c (flow, k₁) = .ok k') : Step k (.call call now rsp) k' :=
  ⟨en, fuel, by simp only [exec, hc, deref_some, ok_bind, h, run]⟩

theorem semWait_steps {m : Option Ptr} {now : Int} {rsp : Nat} (h : Inv k₀ k nodes c pending)
    (en : Enabled k (.call (.semWait m sem) now rsp)) (hx : k.sems sem = some x)
    (home : Homed k.sched nodes) (hm : m ≠ none) :
    ∃ k', Step k (.call (.semWait m sem) now rsp) k' := by
  obtain ⟨rc, hrc⟩ := h.calm.steady.record
  have en' := en
  unfold Enabled at en'
  rw [hrc] at en'
  have r := h.running en'.1
  obtain ⟨flow, k₁, hw⟩ := semWait_returns (enough nodes) r hx home hm
    (by unfold enough; omega)
  obtain ⟨x, pid, -, -, ⟨-, rfl, -⟩ | ⟨-, rfl, s, rfl, -, t, sw⟩⟩ :=
    semWait_running r (not_idle hrc en'.2) hw
  · exact ⟨_, call_step en r.current hw rfl⟩
  · obtain ⟨sw, healthy⟩ := sw [] (by simp)
    have first : Follows k nodes (saved { joining sem x pid k with sched := s } c [.semWait sem])
        nodes := .of_shuffled (fun _ => Iff.rfl) (.of_touched t)
    obtain ⟨k', hk⟩ := timer_returns now rsp sw (healthy h.calm.healthy).live
      (t.sleep.trans h.sleepers) (h.idling.follows first)
    exact ⟨k', call_step en r.current hw hk⟩

theorem semPost_steps {now : Int} {rsp : Nat} (h : Inv k₀ k nodes c pending)
    (en : Enabled k (.call (.semPost sem) now rsp)) (hx : k.sems sem = some x)
    (home : Homed k.sched nodes) : ∃ k', Step k (.call (.semPost sem) now rsp) k' := by
  obtain ⟨rc, hrc⟩ := h.calm.steady.record
  have en' := en
  unfold Enabled at en'
  rw [hrc] at en'
  have r := h.running en'.1
  obtain ⟨flow, k₁, hw⟩ := semPost_returns (enough nodes) r hx home
    (by unfold enough; omega)
  obtain ⟨x, -, ⟨-, -, rfl, -⟩ | ⟨pid, rest, d, s, -, -, rfl, -, -, -, -, rfl, t, -, sw⟩⟩ :=
    semPost_running r (not_idle hrc en'.2) h.calm.healthy.headLive hw
  · exact ⟨_, call_step en r.current hw rfl⟩
  · obtain ⟨nodes₁, mem, sw, healthy⟩ := sw [] (by simp)
    have first : Follows k nodes (saved { giving sem x rest k with sched := s } c [.semPost])
        nodes₁ := .of_shuffled mem t
    have length := length_of_mem r.books.listed.nodup sw.books.listed.nodup mem
    obtain ⟨k', hk⟩ := timer_returns now rsp sw (healthy h.calm.healthy).live
      (t.sleep.trans h.sleepers) (h.idling.follows first)
    rw [enough, length] at hk
    exact ⟨k', call_step en r.current hw hk⟩

end

/-- `semWait` at 0 queues its caller last. -/
def WaitQueues (k : Kernel) (nodes : List Ptr) : Prop :=
  ∀ sem x m now rsp c r, k.sems sem = some x → x.value = 0 → k.sched.current = .ok (c, r) →
    Enabled k (.call (.semWait m sem) now rsp) →
    (∀ k', Step k (.call (.semWait m sem) now rsp) k' → queue k' sem = queue k sem ++ [r.pid] ∧
      stateOf k'.sched c = some .blocked ∧ k'.frames c = [.semWait sem]) ∧
    (m ≠ none → Homed k.sched nodes → ∃ k', Step k (.call (.semWait m sem) now rsp) k')

/-- `semPost` with a queue makes its head the next process dispatched, and the only thing that
can happen then, and can, is that it finishes its `semWait`. -/
def PostHandsOff (k : Kernel) (nodes : List Ptr) : Prop :=
  ∀ sem x pid rest now rsp, k.sems sem = some x → x.entering = pid :: rest →
    Enabled k (.call (.semPost sem) now rsp) →
    (∀ k', Step k (.call (.semPost sem) now rsp) k' →
      ∃ d r, k'.sched.current = .ok (d, r) ∧ r.pid = pid ∧ queue k' sem = rest ∧
        (∀ a k'', Step k' a k'' → (∃ now rsp, a = .resume now rsp) ∧ k''.sched = k'.sched ∧
          k''.frames d = [] ∧ k''.trace = k'.trace ++ [.taken sem pid 1 true]) ∧
        ∀ now rsp, ∃ k'', Step k' (.resume now rsp) k'') ∧
    (Homed k.sched nodes → ∃ k', Step k (.call (.semPost sem) now rsp) k')

/-- The semaphores since `k₀`. -/
structure HandsOff (k₀ k : Kernel) : Prop where
  lock : k.semLock = 0
  refines : Refines k₀ k
  counts : ∀ sem x, k.sems sem = some x → ∃ x₀, k₀.sems sem = some x₀ ∧
    x.value = uint32 (x₀.value + Handoff.posts (history k sem) - Handoff.finished (history k sem))
  units : ∀ sem pid value waited, .taken sem pid value waited ∈ k.trace → 0 < value
  calls : ∃ nodes, Listed k.sched nodes ∧ WaitQueues k nodes ∧ PostHandsOff k nodes

section
variable {k₀ k k' : Kernel} {nodes : List Ptr} {pending : Option (Ptr × Ptr)} {sem c d : Ptr}
  {x : SemT} {pid : Int}

theorem waitQueues (h : Inv k₀ k nodes c pending) : WaitQueues k nodes := by
  intro sem x m now rsp c' r hx hv hc en
  obtain rfl := Option.some.inj (h.calm.steady.current.symm.trans (current_ok.mp hc).1)
  refine ⟨fun k' step => ?_, fun hm home => semWait_steps h en hx home hm⟩
  obtain ⟨busy, user, fuel, flow, k₁, run, run'⟩ := call_cases h.calm.steady step
  obtain ⟨nodes', c', -, -, -, y, pid, hy, hpid, ⟨hpos, -⟩ | ⟨-, hst, hk⟩⟩ :=
    semWait_calm h.calm user busy (rested h.sleepers _ now) run run'
  · obtain rfl := Option.some.inj (hx.symm.trans hy)
    omega
  · obtain rfl := Option.some.inj (hx.symm.trans hy)
    rw [pidOf_of (current_ok.mp hc).2] at hpid
    obtain rfl := Option.some.inj hpid
    refine ⟨?_, hst, ?_⟩
    · rw [hk]
      exact (queue_joining hx sem).trans (if_pos rfl)
    · rw [hk]
      exact Function.update_self _ _ _

/-- Just dispatched with a unit pending, a process can only go on, and takes the unit. -/
theorem handed_steps (h : Calm k nodes d (some (d, sem))) (frames : k.frames d = [.semWait sem])
    (hpid : pidOf k.sched d = some pid) :
    (∀ a k', Step k a k' → (∃ now rsp, a = .resume now rsp) ∧ k'.sched = k.sched ∧
      k'.frames d = [] ∧ k'.trace = k.trace ++ [.taken sem pid 1 true]) ∧
    ∀ now rsp, ∃ k', Step k (.resume now rsp) k' := by
  obtain ⟨r, hr⟩ := h.steady.record
  refine ⟨fun a k' step => ?_, fun now rsp => ?_⟩
  · have en := step.1
    unfold Enabled at en
    rw [hr] at en
    cases a with
    | tick now rsp => exact absurd (frames.symm.trans en) (by simp)
    | key => exact absurd (frames.symm.trans en) (by simp)
    | call call now rsp => exact absurd (frames.symm.trans en.1) (by simp)
    | resume now rsp =>
      obtain ⟨f, hf, r', -, ⟨rfl, -⟩ | ⟨q, x, i, rfl, -, -, hone, hi, hk⟩⟩ :=
        resume_cases h.steady h.plain step
      · rw [frames] at hf
        cases hf
      obtain rfl : q = sem := by
        rw [frames] at hf
        simpa [eq_comm] using hf
      obtain rfl := Option.some.inj (hpid.symm.trans hi)
      exact ⟨⟨now, rsp, rfl⟩, by rw [hk]; rfl, r'.user,
        by simp [hk, taking, hone, Kernel.log, Kernel.putSem]⟩
  · obtain ⟨-, -, -, x, hx, -⟩ := h.steady.books.handed d sem rfl
    have en : Enabled k (.resume now rsp) := by
      unfold Enabled
      rw [hr]
      exact fun e => absurd (frames.symm.trans e) (by simp)
    have lock : enter_region (saved k d []) = .ok { saved k d [] with semLock := 1 } :=
      enter_ok.mpr ⟨h.steady.books.lock, rfl⟩
    have run : ∃ k', exec 0 k (.resume now rsp) = .ok k' := by
      simp only [exec, h.steady.current, deref_some, ok_bind, frames, runFrames, runFrame,
        semWaitBlocked, lock, load_of hx, getPid, load_of (current_ok.mp hr).2, pure_ok, leave]
      exact ⟨_, rfl⟩
    obtain ⟨k', hk⟩ := run
    exact ⟨k', en, 0, hk⟩

theorem postHandsOff (h : Inv k₀ k nodes c pending) : PostHandsOff k nodes := by
  intro sem x pid rest now rsp hx hq en
  refine ⟨fun k' step => ?_, semPost_steps h en hx⟩
  obtain ⟨busy, user, fuel, flow, k₁, run, run'⟩ := call_cases h.calm.steady step
  obtain ⟨nodes', d, pending', calm, -, follows, y, hy, ⟨empty, -⟩ |
      ⟨i, left, hleft, -, rfl, hpid, frames, hk⟩⟩ :=
    semPost_calm h.calm user busy (rested h.sleepers _ now) run run'
  · obtain rfl := Option.some.inj (hx.symm.trans hy)
    rw [hq] at empty
    cases empty
  obtain rfl := Option.some.inj (hx.symm.trans hy)
  obtain ⟨rfl, rfl⟩ := List.cons.inj (hq.symm.trans hleft)
  have hdc : d ≠ c := by
    rintro rfl
    rw [user] at frames
    cases frames
  have frames' : k'.frames d = [.semWait sem] := by
    rw [hk]
    exact (Function.update_of_ne hdc _ _).trans frames
  have hpid' : pidOf k'.sched d = some pid :=
    (follows.pidOf d ((follows.mem d).mp calm.steady.mem)).trans hpid
  obtain ⟨r, hr⟩ := calm.steady.record
  refine ⟨d, r, hr, ?_, ?_, handed_steps calm frames' hpid'⟩
  · rw [pidOf_of (current_ok.mp hr).2] at hpid'
    exact Option.some.inj hpid'
  · rw [hk]
    exact (queue_giving sem).trans (if_pos rfl)

theorem start_inv (start : Quiet k nodes c) (counter : Counter k nodes)
    (idling : Idling k nodes) : Inv k k nodes c none :=
  ⟨start.calm, counter, start.sleepers, idling, .refl start, by simp [start.trace]⟩

theorem run_inv (start : Quiet k₀ nodes c) (counter : Counter k₀ nodes)
    (idling : Idling k₀ nodes) (run : Run Handing k₀ k) :
    ∃ nodes c pending, Inv k₀ k nodes c pending := by
  induction run with
  | refl => exact ⟨nodes, c, none, start_inv start counter idling⟩
  | step _ allowed step ih =>
    obtain ⟨nodes, c, pending, h⟩ := ih
    exact step_inv h allowed step

/-- In every state of a run the semaphores hand units off in the order of arrival, and count
them in a word. -/
theorem run_handsOff (start : Quiet k₀ nodes c) (counter : Counter k₀ nodes)
    (idling : Idling k₀ nodes) (run : Run Handing k₀ k) : HandsOff k₀ k := by
  obtain ⟨nodes', c', pending, h⟩ := run_inv start counter idling run
  refine ⟨h.calm.steady.books.lock, h.refines, fun sem x hx => ?_, fun sem pid value waited he =>
    h.taken _ he, nodes', h.calm.steady.books.listed, waitQueues h, postHandsOff h⟩
  obtain ⟨v, hv⟩ : ∃ v, view k sem = some v := ⟨_, by rw [view, hx]; rfl⟩
  obtain ⟨v₀, hv₀, ops⟩ := h.refines sem v hv
  obtain ⟨x₀, hx₀, e₀⟩ := view_value hv₀
  obtain ⟨y, hy, e⟩ := view_value hv
  obtain rfl := Option.some.inj (hx.symm.trans hy)
  refine ⟨x₀, hx₀, ?_⟩
  have count := ops.value
  rw [e, e₀] at count
  have low := h.calm.steady.books.units sem x hx
  have high := h.calm.words sem x hx
  rw [← uint32_of_range low high]
  exact count

end

theorem run_handsOff_parlour : ∃ k, play 20 [.call (.semWait (some 80) 64) 0 0,
      .call (.semPost 64) 0 0, .resume 0 0] parlour = some k ∧
    k.trace = [.queued 64 2, .posted 64, .taken 64 2 1 true] ∧ HandsOff parlour k := by
  have h : (play 20 [.call (.semWait (some 80) 64) 0 0, .call (.semPost 64) 0 0, .resume 0 0]
      parlour).map (·.trace) = some [.queued 64 2, .posted 64, .taken 64 2 1 true] := by
    decide +kernel
  obtain ⟨k, hk, trace⟩ := Option.map_eq_some_iff.mp h
  refine ⟨k, hk, trace, run_handsOff parlour_quiet ⟨?_, by decide, by decide, by decide⟩
    ⟨16, by decide, rfl, _, rfl, rfl, rfl⟩ (play_run (fun k a ha => ?_) .refl hk)⟩
  · intro p hp pid hpid
    simp only [List.mem_cons, List.not_mem_nil, or_false] at hp
    rcases hp with rfl | rfl | rfl <;> obtain rfl := Option.some.inj hpid <;> decide
  · simp only [List.mem_cons, List.not_mem_nil, or_false] at ha
    rcases ha with rfl | rfl | rfl <;> trivial

/-- One unit more than a word can count: they are all lost. -/
theorem semPost_wraps : ∃ b k₀ k x₀ x, boot 20 0 0 777 (blocks 0) (blocks 1) = .ok b ∧
    play 20 [.tick 0 0, .call (.semOpen "s" 4294967295 semBlocks) 0 0] b = some k₀ ∧
    Run Handing k₀ k ∧ k₀.sems 5000 = some x₀ ∧ k.sems 5000 = some x ∧
    x.value ≠ x₀.value + Handoff.posts (history k 5000) - Handoff.finished (history k 5000) := by
  have h : ((boot 20 0 0 777 (blocks 0) (blocks 1)).toOption.bind (play 20 [.tick 0 0,
      .call (.semOpen "s" 4294967295 semBlocks) 0 0])).bind (fun k₀ =>
        (play 20 [.call (.semPost 5000) 0 0] k₀).map fun k =>
          (k₀.sems 5000, k.sems 5000, k.trace)) =
      some (some ⟨4294967295, "s", []⟩, some ⟨0, "s", []⟩, [.posted 5000]) := by decide +kernel
  obtain ⟨k₀, hb, hk⟩ := Option.bind_eq_some_iff.mp h
  obtain ⟨k, hk, hv⟩ := Option.map_eq_some_iff.mp hk
  obtain ⟨b, k₁, h₀, hs, rfl⟩ := boot_play (Option.map_id'.trans hb)
  simp only [Prod.mk.injEq] at hv
  obtain ⟨hx₀, hx, trace⟩ := hv
  refine ⟨b, k₁, k, _, _, h₀, hs, play_run (fun k a ha => ?_) .refl hk, hx₀, hx, ?_⟩
  · rw [List.mem_singleton.mp ha]
    trivial
  · rw [history, trace]
    decide

end BottlerOS.SemHandoff
