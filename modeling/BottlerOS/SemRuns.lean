import Mathlib.Data.List.Perm.Subperm
import BottlerOS.SemBooks

/-! Kernel code that runs with the books in order: the system calls of the running
process, up to their return or to the timer handler they force, and the steps of
the kernel made of them. -/

namespace BottlerOS.SemRuns
open Machine Scheduler LinkedList ProcessList ProcessFields ProcessLinks Dispatch
open Semaphore SemCalls SemBooks Kernel

/-- The process at `c` runs, and nothing of a system call is on its stack. -/
structure Running (k : Kernel) (nodes : List Ptr) (c : Ptr) : Prop where
  books : Books k nodes none
  current : k.sched.currentProcess = some c
  mem : c ∈ nodes
  ready : stateOf k.sched c = some .ready
  user : k.frames c = []

/-- Nobody is DEAD, and every queue entry is the pid of a process of the list. -/
structure Healthy (k : Kernel) (nodes : List Ptr) : Prop where
  live : ∀ p ∈ nodes, stateOf k.sched p ≠ some .dead
  entries : ∀ sem, ∀ pid ∈ queue k sem, ∃ p ∈ nodes, pidOf k.sched p = some pid

/-- The process at `c` has just made the next one in the list READY to take a unit. -/
def NextIs (k : Kernel) (nodes : List Ptr) (c d : Ptr) : Prop :=
  ∃ P Q r, nodes = P ++ c :: d :: Q ∧ k.sched.current = .ok (c, r) ∧ r.state = .ready ∧
    r.executions = MAX_PRIORITY - r.priority

/-- What kernel code that forces the timer hands over to it, its frames saved. -/
structure Switching (k : Kernel) (nodes : List Ptr) (c : Ptr) (pending : Option (Ptr × Ptr)) :
    Prop where
  books : Books k nodes pending
  current : k.sched.currentProcess = some c
  mem : c ∈ nodes
  next : ∀ d sem, pending = some (d, sem) → NextIs k nodes c d

/-- Between two steps. -/
structure Steady (k : Kernel) (nodes : List Ptr) (c : Ptr) (pending : Option (Ptr × Ptr)) :
    Prop where
  books : Books k nodes pending
  current : k.sched.currentProcess = some c
  mem : c ∈ nodes
  ready : stateOf k.sched c = some .ready
  own : ∀ d sem, pending = some (d, sem) → d = c

section
variable {k k' : Kernel} {nodes nodes' : List Ptr} {pending : Option (Ptr × Ptr)}
  {sem c d p : Ptr} {x : SemT} {pid : Int} {s s' : Sched} {fuel : Nat} {flow : Flow}

theorem Running.steady (h : Running k nodes c) : Steady k nodes c none :=
  ⟨h.books, h.current, h.mem, h.ready, fun d sem hd => by cases hd⟩

theorem Steady.record (h : Steady k nodes c pending) : ∃ r, k.sched.current = .ok (c, r) := by
  obtain ⟨r, hr⟩ := h.books.listed.record h.mem
  exact ⟨r, current_ok.mpr ⟨h.current, hr⟩⟩

/-- A process in user mode has nothing pending. -/
theorem Steady.nothing (h : Steady k nodes c pending) (user : k.frames c = []) :
    pending = none := by
  cases pending with
  | none => rfl
  | some q =>
    obtain ⟨d, sem⟩ := q
    obtain rfl := h.own d sem rfl
    obtain ⟨-, hw, -⟩ := h.books.handed d sem rfl
    rw [waitsOn, user] at hw
    cases hw

theorem Steady.running (h : Steady k nodes c pending) (user : k.frames c = []) :
    Running k nodes c := by
  obtain rfl := h.nothing user
  exact ⟨h.books, h.current, h.mem, h.ready, user⟩

theorem Running.record (h : Running k nodes c) : ∃ r, k.sched.current = .ok (c, r) ∧
    k.sched.procs c = some r ∧ r.state = .ready := by
  obtain ⟨r, hr⟩ := h.books.listed.record h.mem
  have hst := h.ready
  rw [stateOf_of hr] at hst
  exact ⟨r, current_ok.mpr ⟨h.current, hr⟩, hr, Option.some.inj hst⟩

/-- Pipes and the trace have nothing to do with the books. -/
theorem Running.same (h : Running k nodes c) (sched : k'.sched = k.sched)
    (lock : k'.semLock = k.semLock) (sems : k'.sems = k.sems) (frames : k'.frames = k.frames) :
    Running k' nodes c := by
  obtain ⟨b, current, mem, ready, user⟩ := h
  cases k
  cases k'
  simp only at sched lock sems frames
  subst sched lock sems frames
  exact ⟨⟨b.listed, b.lock, b.cursor, b.turns, b.stacked, b.idle, b.waiting, b.units, b.nodup,
    fun q p hq => b.queued q p ⟨hq.listed, hq.live, hq.entry⟩,
    fun q x p hx hq => b.empty q x p hx ⟨hq.listed, hq.live, hq.entry⟩, b.handed⟩,
    current, mem, ready, user⟩

theorem Healthy.same (h : Healthy k nodes) (sched : k'.sched = k.sched)
    (queues : ∀ q, List.Sublist (queue k' q) (queue k q)) : Healthy k' nodes where
  live := by
    rw [sched]
    exact h.live
  entries q i hi := by
    rw [sched]
    exact h.entries q i ((queues q).subset hi)

theorem Running.not_waiting (h : Running k nodes c) : waitsOn k c = none := by
  rw [waitsOn, h.user]

/-- What else the timer handler does: it reaps, it drops sleepers, and the rest stays. -/
structure Landed (k : Kernel) (nodes : List Ptr) (k' : Kernel) (nodes' : List Ptr) : Prop where
  kernel : k' = { k with sched := k'.sched }
  sublist : nodes'.Sublist nodes
  pidOf : ∀ p ∈ nodes', pidOf k'.sched p = pidOf k.sched p
  dead : ∀ p ∈ nodes', stateOf k.sched p = some .dead → stateOf k'.sched p = some .dead
  sleep : k'.sched.firstSleep.Sublist k.sched.firstSleep
  pids : k'.sched.pids = k.sched.pids
  resting : ∀ p ∈ nodes', Resting k.sched p → Resting k'.sched p
  healthy : Healthy k nodes → Healthy k' nodes' ∧ nodes' = nodes

theorem Landed.refl : Landed k nodes k nodes :=
  ⟨rfl, List.Sublist.refl _, fun _ _ => rfl, fun _ _ h => h, List.Sublist.refl _, rfl,
    fun _ _ h => h, fun h => ⟨h, rfl⟩⟩

/-- The timer handler leads from one running process to the next. -/
theorem Switching.timer {now : Int} {rsp : Nat} (h : Switching k nodes c pending)
    (out : SleepersOut k nodes pending now) (run : Kernel.timer fuel now rsp k = .ok k') :
    ∃ nodes' c', Steady k' nodes' c' pending ∧ Landed k nodes k' nodes' ∧
      ∀ d sem, pending = some (d, sem) → c' = d := by
  obtain ⟨s, nodes', rfl, b, sub, gone, ⟨c', hn', hcur, hready⟩, pids, sleep, hpids, live, dead,
    rest⟩ := timer_books h.books h.current h.mem out run
  have next : ∀ d sem, pending = some (d, sem) → c' = d := by
    rintro d sem rfl
    obtain ⟨P, Q, r, rfl, hc, hr, turn⟩ := h.next d sem rfl
    have hcur' := timer_handOff h.books hc hr turn out run
    exact Option.some.inj (hcur.symm.trans hcur')
  refine ⟨nodes', c', ⟨b, hcur, hn', hready, fun d sem hd => (next d sem hd).symm⟩,
    ⟨rfl, sub, pids, dead, sleep ▸ List.filter_sublist, hpids, rest, fun healthy => ?_⟩, next⟩
  have same : nodes' = nodes := by
    refine sub.eq_of_length_le ?_
    exact (h.books.listed.nodup.subperm
      fun p hp => (live p hp (healthy.live p hp)).1).length_le
  refine ⟨⟨fun p hp => (live p (sub.subset hp) (healthy.live p (sub.subset hp))).2,
    fun sem pid hpid => ?_⟩, same⟩
  obtain ⟨p, hp, he⟩ := healthy.entries sem pid hpid
  exact ⟨p, same ▸ hp, (pids p (same ▸ hp)).trans he⟩

theorem getPid_current (hc : k.sched.currentProcess = some c) (run : getPid k.sched = .ok pid) :
    pidOf k.sched c = some pid := by
  unfold getPid at run
  rw [hc] at run
  obtain ⟨r, hr, run1⟩ := bind_ok.mp run
  obtain rfl := Except.ok.inj run1
  exact pidOf_of (load_ok.mp hr)

/-- The frames of `left` behind those that kernel code has left. -/
abbrev saved (k : Kernel) (c : Ptr) (frames : List Frame) : Kernel :=
  { k with frames := Function.update k.frames c frames }

theorem waitsOn_saved {frames : List Frame} (hpc : p ≠ c) :
    waitsOn (saved k c frames) p = waitsOn k p :=
  waitsOn_frames (Function.update_of_ne hpc _ _)

/-- Other frames, of a process that is not inside `semWait`. -/
theorem books_saved {frames : List Frame} (h : Books k nodes none) (hw : waitsOn k c = none)
    (stack : Stack frames) (hw' : waitsOn (saved k c frames) c = none)
    (idle : IsIdle k.sched c → frames = []) : Books (saved k c frames) nodes none := by
  have waits : ∀ p, waitsOn (saved k c frames) p = waitsOn k p := fun p => by
    by_cases hpc : p = c
    · rw [hpc, hw, hw']
    · exact waitsOn_saved hpc
  refine ⟨h.listed, h.lock, h.cursor, h.turns, fun p hp => ?_, fun p hp hi => ?_,
    fun p hp q hq => h.waiting p hp q ((waits p).symm.trans hq), h.units, h.nodup,
    fun q p hq => ?_, fun q y p hy hq => h.empty q y p hy ⟨hq.listed, hq.live, hq.entry⟩,
    fun d q hd => by cases hd⟩
  · by_cases hpc : p = c
    · simpa [hpc] using stack
    · simpa [Function.update_of_ne hpc] using h.stacked p hp
  · by_cases hpc : p = c
    · subst hpc
      simpa using idle hi
    · simpa [Function.update_of_ne hpc] using h.idle p hp hi
  · rw [waits]
    exact h.queued q p ⟨hq.listed, hq.live, hq.entry⟩

/-- A process that blocks itself loses the processor. -/
theorem block_self {e : Exit} (h : Running k nodes c) (hpid : pidOf k.sched c = some pid)
    (run : block fuel pid k.sched = .ok (e, s)) :
    e = .forceTimer ∧ stateOf s c = some .blocked ∧ Touched (· = c) (· = c) k.sched s := by
  obtain ⟨r, hcr, hr, -⟩ := h.record
  -- `block` finds its caller, which is not DEAD
  rcases block_cases h.books.listed run with
    ⟨-, -, dead⟩ | ⟨d, hd, rd, hrd, hdp, -, hblocked, c', rc, hc', hself⟩
  · have hdead := dead c h.mem hpid
    rw [h.ready] at hdead
    simp at hdead
  obtain rfl := h.books.listed.pid_inj hd h.mem (by rw [pidOf_of hrd, hdp, hpid])
  obtain ⟨rfl, rfl⟩ := Prod.mk.inj (Except.ok.inj (hcr.symm.trans hc'))
  obtain rfl := Option.some.inj (hr.symm.trans hrd)
  rcases hself with ⟨-, rfl, t⟩ | ⟨hne, -, -⟩
  · exact ⟨rfl, hblocked, t⟩
  · exact absurd hdp.symm hne

/-- `semWait` by the running process: it takes a free unit and returns, or it queues itself last
and is BLOCKED. -/
theorem semWait_running {m : Option Ptr} (h : Running k nodes c) (busy : ¬ IsIdle k.sched c)
    (run : Semaphore.semWait fuel m sem k = .ok (flow, k')) :
    ∃ x pid, k.sems sem = some x ∧ pidOf k.sched c = some pid ∧
      ((x.value > 0 ∧ flow = .ret ∧ k' = taking sem x pid false k ∧ Running k' nodes c) ∨
      (x.value = 0 ∧ flow = .timer [.semWait sem] ∧
        ∃ s, k' = { joining sem x pid k with sched := s } ∧
        stateOf s c = some .blocked ∧ Touched (· = c) (· = c) k.sched s ∧
        ∀ left, (∀ f ∈ left, PipeFrame f) →
          Switching (saved k' c (.semWait sem :: left)) nodes c none ∧
          (Healthy k nodes → Healthy (saved k' c (.semWait sem :: left)) nodes))) := by
  obtain ⟨-, x, pid, hx, hp, hcase⟩ := semWait_cases run
  have hpid := getPid_current h.current hp
  refine ⟨x, pid, hx, hpid, ?_⟩
  rcases hcase with ⟨hv, rfl, rfl⟩ | ⟨hv, e, s, hb, hcase⟩
  · exact .inl ⟨hv, rfl, rfl, h.books.take hx hv false, h.current, h.mem, h.ready, h.user⟩
  right
  have zero : x.value = 0 := by
    have := h.books.units sem x hx
    omega
  obtain ⟨rfl, hblocked, t⟩ := block_self h hpid hb
  rcases hcase with ⟨-, rfl, rfl⟩ | ⟨hne, -⟩
  swap
  · exact absurd rfl hne
  refine ⟨zero, rfl, s, rfl, hblocked, t, fun left pipe => ⟨⟨?_, t.current.trans h.current,
    h.mem, fun d sem hd => by cases hd⟩, fun healthy => ⟨fun p hp => ?_, fun q i hi => ?_⟩⟩⟩
  · exact h.books.join h.mem h.ready hpid busy hx (by omega) t hblocked pipe
  · change stateOf s p ≠ _
    by_cases hpc : p = c
    · rw [hpc, hblocked]
      simp
    · rw [t.stateOf_eq hpc]
      exact healthy.live p hp
  · have hi' : i ∈ queue (joining sem x pid k) q := hi
    rw [queue_joining hx] at hi'
    have found : (∃ p ∈ nodes, pidOf k.sched p = some i) → ∃ p ∈ nodes, pidOf s p = some i := by
      rintro ⟨p, hp, he⟩
      exact ⟨p, hp, t.pidOf_eq.trans he⟩
    apply found
    split at hi'
    · rcases List.mem_append.mp hi' with hi' | hi'
      · exact healthy.entries sem i hi'
      · exact ⟨c, h.mem, by rw [hpid, List.mem_singleton.mp hi']⟩
    · exact healthy.entries q i hi'

/-- The head of a queue is a process of the list that is not DEAD, or nobody there is queued. -/
def HeadLive (k : Kernel) (nodes : List Ptr) (sem : Ptr) : Prop :=
  ∀ pid rest, queue k sem = pid :: rest →
    (∃ d ∈ nodes, pidOf k.sched d = some pid ∧ stateOf k.sched d ≠ some .dead) ∨
      ∀ p, ¬ Queued k nodes sem p

theorem Healthy.headLive (h : Healthy k nodes) : HeadLive k nodes sem := by
  intro pid rest hq
  obtain ⟨d, hd, he⟩ := h.entries sem pid (by rw [hq]; simp)
  exact .inl ⟨d, hd, he, h.live d hd⟩

theorem Healthy.giving {rest : List Int} (h : Healthy k nodes) (hx : k.sems sem = some x)
    (sub : List.Sublist rest x.entering) : Healthy (giving sem x rest k) nodes where
  live := h.live
  entries q i hi := by
    rw [queue_giving] at hi
    split at hi
    · exact h.entries sem i (by rw [queue_of hx]; exact sub.subset hi)
    · exact h.entries q i hi

/-- `semPost` by the running process: with nobody to wake it returns, otherwise the head of the
queue is next and has the unit pending. -/
theorem semPost_running (h : Running k nodes c) (busy : ¬ IsIdle k.sched c)
    (head : HeadLive k nodes sem) (run : Semaphore.semPost fuel sem k = .ok (flow, k')) :
    ∃ x, k.sems sem = some x ∧
      ((∃ rest, (x.entering = [] ∨ ∃ pid, x.entering = pid :: rest) ∧ flow = .ret ∧
          k' = giving sem x rest k ∧ (∀ p, ¬ Queued k nodes sem p) ∧ rest = x.entering.tail ∧
          Running k' nodes c) ∨
      (∃ pid rest d s, x.entering = pid :: rest ∧ x.value = 0 ∧ flow = .timer [.semPost] ∧
          d ∈ nodes ∧ pidOf k.sched d = some pid ∧ waitsOn k d = some sem ∧
          stateOf k.sched d = some .blocked ∧ k' = { giving sem x rest k with sched := s } ∧
          Shuffled (· = d) (· = c) k.sched s ∧ stateOf s d = some .ready ∧
          ∀ left, (∀ f ∈ left, PipeFrame f) → ∃ nodes', (∀ p, p ∈ nodes' ↔ p ∈ nodes) ∧
            Switching (saved k' c (.semPost :: left)) nodes' c (some (d, sem)) ∧
            (Healthy k nodes → Healthy (saved k' c (.semPost :: left)) nodes'))) := by
  obtain ⟨-, x, hx, hcase⟩ := semPost_cases run
  refine ⟨x, hx, ?_⟩
  rcases hcase with ⟨hq, rfl, rfl⟩ | ⟨pid, rest, e, s, hq, hu, rfl, hcase⟩
  · have alone : ∀ p, ¬ Queued k nodes sem p := by
      rintro p ⟨-, -, i, hi, -⟩
      rw [queue_of hx, hq] at hi
      simp at hi
    exact .inl ⟨[], .inl hq, rfl, rfl, alone, by simp [hq],
      h.books.give hx alone (List.nil_sublist _), h.current, h.mem, h.ready, h.user⟩
  have hqueue : queue k sem = pid :: rest := by rw [queue_of hx, hq]
  rcases unblockFirst_cases h.books.listed h.current h.mem hu with
    ⟨rfl, rfl, dead⟩ | ⟨d, hd, rd, hrd, hdp, hdead, rfl, up⟩
  · -- the head is gone or DEAD: nothing but the unit and the queue changes
    rcases hcase with ⟨hne, -⟩ | ⟨-, rfl⟩
    · cases hne
    have alone : ∀ p, ¬ Queued k nodes sem p := by
      rcases head pid rest hqueue with ⟨d, hd, he, hlive⟩ | alone
      · exact absurd (dead d hd he) hlive
      · exact alone
    have sub : List.Sublist rest x.entering := by
      rw [hq]
      exact List.sublist_cons_self pid rest
    exact .inl ⟨rest, .inr ⟨pid, hq⟩, rfl, rfl, alone, by simp [hq],
      h.books.give hx alone sub, h.current, h.mem, h.ready, h.user⟩
  rcases hcase with ⟨-, rfl⟩ | ⟨hne, -⟩
  swap
  · exact absurd rfl hne
  right
  have hpid : pidOf k.sched d = some pid := by rw [pidOf_of hrd, hdp]
  have hlive : stateOf k.sched d ≠ some .dead := by
    rw [stateOf_of hrd]
    simpa using hdead
  have qd : Queued k nodes sem d := ⟨hd, hlive, pid, by rw [hqueue]; simp, hpid⟩
  obtain ⟨hwd, hbd⟩ := h.books.queued sem d qd
  have hdc : d ≠ c := by
    rintro rfl
    rw [h.ready] at hbd
    simp at hbd
  have zero : x.value = 0 := by simpa using h.books.empty sem x d hx qd
  refine ⟨pid, rest, d, s, hq, zero, rfl, hd, hpid, hwd, hbd, rfl, (up hdc).shuffled,
    (up hdc).ready,
    fun left pipe => ?_⟩
  obtain ⟨nodes', mem, ⟨P, Q, hsplit⟩, b⟩ := h.books.give_handed h.mem h.ready busy hx hq hd hpid
    hlive (up hdc) pipe
  refine ⟨nodes', mem, ⟨b, (up hdc).shuffled.current.trans h.current, (mem c).mpr h.mem, ?_⟩,
    fun healthy => ⟨fun p hp => ?_, fun q i hi => ?_⟩⟩
  · -- the turn of the poster is used up
    rintro d' q hd'
    simp only [Option.some.injEq, Prod.mk.injEq] at hd'
    obtain ⟨rfl, rfl⟩ := hd'
    obtain ⟨rc, hrc, turn⟩ := (up hdc).turn
    refine ⟨P, Q, rc, hsplit, current_ok.mpr ⟨(up hdc).shuffled.current.trans h.current, hrc⟩,
      ?_, ?_⟩
    · have hst : stateOf s c = stateOf k.sched c :=
        (up hdc).shuffled.stateOf_eq (fun e => hdc e.symm)
      rw [stateOf_of hrc, h.ready] at hst
      exact Option.some.inj hst
    · have hb := b.turns c ((mem c).mpr h.mem) rc hrc
      rw [turn]
      exact char_of_range (by simp only [MAX_PRIORITY] at hb ⊢; omega)
        (by simp only [MAX_PRIORITY] at hb ⊢; omega)
  · change stateOf s p ≠ _
    by_cases hpd : p = d
    · rw [hpd, (up hdc).ready]
      simp
    · rw [(up hdc).shuffled.stateOf_eq hpd]
      exact healthy.live p ((mem p).mp hp)
  · have hi' : i ∈ queue (giving sem x rest k) q := hi
    have sub : List.Sublist rest x.entering := by
      rw [hq]
      exact List.sublist_cons_self pid rest
    obtain ⟨p, hp, he⟩ := (healthy.giving hx sub).entries q i hi'
    exact ⟨p, (mem p).mpr hp, (up hdc).shuffled.pidOf_eq.trans he⟩

/-- The rest of a `semWait` whose caller has been handed the unit. -/
theorem semWaitBlocked_running {left : List Frame} (h : Steady k nodes c pending)
    (frames : k.frames c = .semWait sem :: left)
    (run : semWaitBlocked sem (saved k c []) = .ok (flow, k')) :
    ∃ x pid, flow = .ret ∧ k.sems sem = some x ∧ pidOf k.sched c = some pid ∧ x.value = 1 ∧
      pending = some (c, sem) ∧ k' = saved (taking sem x pid true k) c [] ∧ Running k' nodes c ∧
      (Healthy k nodes → Healthy k' nodes) := by
  obtain ⟨rfl, -, x, pid, hx, hp, rfl⟩ := semWaitBlocked_cases run
  have hw : waitsOn k c = some sem := by simp [waitsOn, frames]
  have hpend : pending = some (c, sem) := by
    rcases h.books.waiting c h.mem sem hw (by simp [h.ready]) with hb | hb
    · rw [h.ready] at hb
      simp at hb
    · exact hb
  subst hpend
  obtain ⟨hone, b⟩ := h.books.take_handed pid hx
  refine ⟨x, pid, rfl, hx, getPid_current h.current hp, hone, rfl, rfl,
    ⟨b, h.current, h.mem, h.ready, by simp [taking, Kernel.putSem, Kernel.log]⟩,
    fun healthy => ⟨healthy.live, fun q i hi => healthy.entries q i ?_⟩⟩
  have hi' : i ∈ queue (taking sem x pid true k) q := hi
  have hx' : k.sems sem = some x := hx
  rwa [queue_taking true hx'] at hi'

/-- Kernel code of the process at `c` returns, or forces the timer as the last thing it does. -/
def Outcome (k : Kernel) (nodes : List Ptr) (c : Ptr) (flow : Flow) : Prop :=
  (flow = .ret ∧ Running k nodes c) ∨
    (flow = .timer [] ∧ k.frames c = [] ∧ Switching k nodes c none)

structure Result (k : Kernel) (nodes : List Ptr) (k' : Kernel) (nodes' : List Ptr) (c : Ptr)
    (flow : Flow) : Prop where
  outcome : Outcome k' nodes' c flow
  pidOf : ∀ p ∈ nodes, pidOf k'.sched p = pidOf k.sched p
  healthy : Healthy k nodes → Healthy k' nodes'

theorem saved_nil (h : k.frames c = []) : saved k c [] = k := by
  have same : Function.update k.frames c [] = k.frames := by rw [← h, Function.update_eq_self]
  rw [saved, same]

/-- Back to user mode, of the caller or of whom the timer handler dispatches. -/
theorem Outcome.leave {now : Int} {rsp : Nat} (h : Outcome k nodes c flow)
    (out : SleepersOut k nodes none now) (run : leave fuel now rsp c (flow, k) = .ok k') :
    ∃ nodes' c', Steady k' nodes' c' none ∧ Landed k nodes k' nodes' := by
  rcases h with ⟨rfl, h⟩ | ⟨rfl, user, h⟩
  · obtain rfl := Except.ok.inj run
    exact ⟨nodes, c, h.steady, .refl⟩
  · have run1 : Kernel.timer fuel now rsp (saved k c []) = .ok k' := run
    rw [saved_nil user] at run1
    obtain ⟨nodes', c', st, landed, -⟩ := h.timer out run1
    exact ⟨nodes', c', st, landed⟩

/-- Field updates by the running process that leave the waiters BLOCKED. -/
theorem Result.touched {A B : Ptr → Prop} (h : Running k nodes c) (t : Touched A B k.sched s)
    (state : ∀ p ∈ nodes, A p → stateOf s p = stateOf k.sched p ∨
      (waitsOn k p = none ∧ stateOf k.sched p ≠ some .dead ∧ stateOf s p ≠ some .dead))
    (outcome : (flow = .ret ∧ stateOf s c = some .ready) ∨ flow = .timer []) :
    Result k nodes { k with sched := s } nodes c flow := by
  have b : Books { k with sched := s } nodes none :=
    h.books.touched t fun p hp hA => (state p hp hA).imp id fun e => ⟨e.1, e.2.1⟩
  refine ⟨?_, fun p _ => t.pidOf_eq, fun healthy => ⟨fun p hp => ?_, fun q i hi => ?_⟩⟩
  · rcases outcome with ⟨rfl, hready⟩ | rfl
    · exact .inl ⟨rfl, b, t.current.trans h.current, h.mem, hready, h.user⟩
    · exact .inr ⟨rfl, h.user, b, t.current.trans h.current, h.mem, fun d sem hd => by cases hd⟩
  · change stateOf s p ≠ _
    by_cases hA : A p
    · rcases state p hp hA with e | e
      · rw [e]
        exact healthy.live p hp
      · exact e.2.2
    · rw [t.stateOf_eq hA]
      exact healthy.live p hp
  · obtain ⟨p, hp, he⟩ := healthy.entries q i hi
    exact ⟨p, hp, t.pidOf_eq.trans he⟩

/-- A live process that is inside `semWait` while another one runs is BLOCKED. -/
theorem Running.blocked (h : Running k nodes c) (hp : p ∈ nodes)
    (live : stateOf k.sched p ≠ some .dead) (hw : waitsOn k p ≠ none) :
    stateOf k.sched p = some .blocked := by
  obtain ⟨sem, hw⟩ := Option.ne_none_iff_exists'.mp hw
  exact (h.books.waiting p hp sem hw live).resolve_right (by simp)

/-- How a scheduler function ends as a system call. -/
def Ends (e : Exit) (flow : Flow) : Prop :=
  (e ≠ .forceTimer ∧ flow = .ret) ∨ (e = .forceTimer ∧ flow = .timer [])

theorem ofExit_cases {y : C (Exit × Sched)} (run : ofExit k y = .ok (flow, k')) :
    ∃ e s, y = .ok (e, s) ∧ Ends e flow ∧ k' = { k with sched := s } := by
  match y with
  | .error e => cases run
  | .ok (.ret code, s) =>
    obtain ⟨rfl, rfl⟩ := Prod.mk.inj (Except.ok.inj run)
    exact ⟨_, s, rfl, .inl ⟨by simp, rfl⟩, rfl⟩
  | .ok (.forceTimer, s) =>
    obtain ⟨rfl, rfl⟩ := Prod.mk.inj (Except.ok.inj run)
    exact ⟨_, s, rfl, .inr ⟨rfl, rfl⟩, rfl⟩

theorem Result.refl (h : Running k nodes c) : Result k nodes k nodes c .ret :=
  ⟨.inl ⟨rfl, h⟩, fun _ _ => rfl, fun healthy => healthy⟩

theorem block_running {e : Exit} (h : Running k nodes c)
    (run : block fuel pid k.sched = .ok (e, s)) (ends : Ends e flow) :
    Result k nodes { k with sched := s } nodes c flow ∧ s.firstSleep = k.sched.firstSleep := by
  rcases block_cases h.books.listed run with
    ⟨rfl, rfl, -⟩ | ⟨d, hd, rd, hrd, hdp, hdead, hst, c', rc, hc', hself⟩
  · obtain ⟨-, rfl⟩ := ends.resolve_right (by simp)
    exact ⟨.refl h, rfl⟩
  obtain ⟨hcur, hrc⟩ := current_ok.mp hc'
  obtain rfl := Option.some.inj (h.current.symm.trans hcur)
  have live : stateOf k.sched d ≠ some .dead := by
    rw [stateOf_of hrd]
    simpa using hdead
  have state : ∀ p ∈ nodes, p = d → stateOf s p = stateOf k.sched p ∨
      (waitsOn k p = none ∧ stateOf k.sched p ≠ some .dead ∧ stateOf s p ≠ some .dead) := by
    rintro p hp rfl
    by_cases hw : waitsOn k p = none
    · exact .inr ⟨hw, live, by rw [hst]; simp⟩
    · exact .inl (hst.trans (h.blocked hp live hw).symm)
  rcases hself with ⟨-, rfl, t⟩ | ⟨hne, rfl, t⟩
  · obtain ⟨-, rfl⟩ := ends.resolve_left (by simp)
    exact ⟨.touched h t state (.inr rfl), t.sleep⟩
  · obtain ⟨-, rfl⟩ := ends.resolve_right (by simp)
    refine ⟨.touched h t state (.inl ⟨rfl, ?_⟩), t.sleep⟩
    have hcd : c ≠ d := by
      rintro rfl
      obtain rfl := Option.some.inj (hrc.symm.trans hrd)
      exact hne hdp.symm
    rw [t.stateOf_eq hcd]
    exact h.ready

theorem unblock_ret {e : Exit} (run : unblock fuel pid s = .ok (e, s')) : e ≠ .forceTimer := by
  rintro rfl
  unfold unblock at run
  obtain ⟨⟨del, prev⟩, -, run1⟩ := bind_ok.mp run
  cases del with
  | none => cases run1
  | some del =>
    obtain ⟨rd, -, run2⟩ := bind_ok.mp run1
    split at run2
    · cases run2
    · obtain ⟨y, -, run3⟩ := bind_ok.mp run2
      obtain ⟨z, -, run4⟩ := bind_ok.mp run3
      cases run4

theorem unblock_running {e : Exit} (h : Running k nodes c)
    (out : ∀ p ∈ nodes, pidOf k.sched p = some pid → waitsOn k p = none)
    (run : unblock fuel pid k.sched = .ok (e, s)) (ends : Ends e flow) :
    Result k nodes { k with sched := s } nodes c flow ∧ s.firstSleep = k.sched.firstSleep := by
  obtain ⟨-, rfl⟩ := ends.resolve_right fun hf => unblock_ret run hf.1
  rcases unblock_cases h.books.listed run with ⟨rfl, -⟩ | ⟨d, hd, rd, hrd, hpid, hdead, hst, t, -⟩
  · exact ⟨.refl h, rfl⟩
  refine ⟨.touched h t (fun p hp hpd => .inr ⟨out p hp ?_, ?_, ?_⟩) (.inl ⟨rfl, ?_⟩), t.sleep⟩
  · rw [hpd, pidOf_of hrd, hpid]
  · rw [hpd, stateOf_of hrd]
    simpa using hdead
  · rw [hpd, hst]
    simp
  · by_cases hcd : c = d
    · rw [hcd]
      exact hst
    · rw [t.stateOf_eq hcd]
      exact h.ready

theorem quitCPU_running {e : Exit} (h : Running k nodes c) (run : quitCPU k.sched = .ok (e, s))
    (ends : Ends e flow) :
    Result k nodes { k with sched := s } nodes c flow ∧ s.firstSleep = k.sched.firstSleep := by
  rcases quitCPU_cases run with ⟨rfl, rfl⟩ | ⟨c', r, hc', rfl, rfl⟩
  · obtain ⟨-, rfl⟩ := ends.resolve_right (by simp)
    exact ⟨.refl h, rfl⟩
  · obtain ⟨-, rfl⟩ := ends.resolve_left (by simp)
    have t : Touched (fun _ => False) (· = c') k.sched (k.sched.put c' { r with
        executions := char (MAX_PRIORITY - r.priority) }) := by
      refine touched_put (current_ok.mp hc').2 ⟨?_, fun _ => rfl, fun n => absurd rfl n,
        fun _ => rfl⟩
      exact ⟨rfl, rfl, rfl, rfl, rfl, rfl, rfl, rfl, fun h h' => ⟨h, h'⟩⟩
    exact ⟨.touched h t (fun _ _ h => h.elim) (.inr rfl), rfl⟩

theorem sleep_running {now secs : Int} {m : Option Ptr} {e : Exit} (h : Running k nodes c)
    (run : sleep fuel now secs m k.sched = .ok (e, s)) (ends : Ends e flow) :
    Result k nodes { k with sched := s } nodes c flow ∧
      ∃ pid, pidOf k.sched c = some pid ∧
        s.firstSleep = ⟨pid, now, secs⟩ :: k.sched.firstSleep := by
  rcases sleep_cases run with ⟨-, none⟩ | ⟨c', r, hc, blocks⟩
  · rw [h.current] at none
    cases none
  obtain ⟨hcur, hr⟩ := current_ok.mp hc
  obtain rfl := Option.some.inj (h.current.symm.trans hcur)
  have h' : Running { k with sched := { k.sched with
      firstSleep := ⟨r.pid, now, secs⟩ :: k.sched.firstSleep } } nodes c := by
    refine ⟨h.books.evolve ⟨h.books.listed.linked, h.books.listed.pids, h.books.listed.last⟩
      h.books.cursor h.books.turns (fun _ hp => hp) (fun _ _ => rfl) (fun _ _ => .inl rfl)
      (fun d sem hd => by cases hd), h.current, h.mem, h.ready, h.user⟩
  obtain ⟨res, sleep⟩ := block_running h' blocks ends
  exact ⟨⟨res.outcome, res.pidOf, fun healthy => res.healthy ⟨healthy.live, healthy.entries⟩⟩,
    r.pid, pidOf_of hr, sleep⟩

/-- `enqueueProcess`, when the pid it gives out is neither in the list nor in a queue. -/
theorem enqueue_running {foreground pid : Int} {fd : Option Ptr} {m : Mallocs} {process : Ptr}
    (h : Running k nodes c) (busy : ¬ IsIdle k.sched c)
    (fresh : ∀ p ∈ nodes, pidOf k.sched p ≠ some k.sched.pids)
    (unqueued : ∀ q, k.sched.pids ∉ queue k q)
    (run : enqueueProcess fuel 0 foreground fd m k.sched = .ok (pid, s))
    (block : m.process = some process) :
    Result k nodes { k with sched := s, frames := Function.update k.frames process [] }
      (nodes ++ [process]) c .ret ∧ process < heapEnd ∧ process ∉ nodes ∧
      s.pids = int32 (k.sched.pids + 1) ∧ s.firstSleep = k.sched.firstSleep ∧
      pidOf s process = some k.sched.pids ∧ ∀ p ∈ nodes, Resting k.sched p → Resting s p := by
  obtain ⟨-, p, hm, hl, e⟩ := enqueueProcess_cases h.books.listed fresh run
  obtain rfl := Option.some.inj (block.symm.trans hm)
  have b := h.books.enqueue hl e unqueued
  have hnp : process ∉ nodes := by
    intro hp
    obtain ⟨r, hr⟩ := h.books.listed.record hp
    rw [e.free] at hr
    cases hr
  have hcp : c ≠ process := fun he => hnp (he ▸ h.mem)
  have states : ∀ x ∈ nodes, stateOf s x = stateOf k.sched x ∨
      (IsIdle k.sched x ∧ stateOf s x = some .blocked) := fun x hx =>
    (e.state x fun he => hnp (he ▸ hx)).imp id fun w => ⟨w.1, w.2.2⟩
  have pids : ∀ x ∈ nodes, pidOf s x = pidOf k.sched x := by
    intro x hx
    have hp := e.procs x fun he => hnp (he ▸ hx)
    simp only [pidOf]
    generalize k.sched.procs x = a at *
    generalize s.procs x = y at *
    cases hp with
    | none => rfl
    | some hp => exact congrArg some hp.kept.pid
  obtain ⟨rp, hrp, hpid, hst, -⟩ := e.made
  refine ⟨⟨.inl ⟨rfl, b, e.current.trans h.current, by simp [h.mem], ?_, ?_⟩, pids, fun healthy =>
    ⟨fun x hx => ?_, fun q i hi => ?_⟩⟩, e.heap, hnp, e.pids, e.sleep,
    by rw [pidOf_of hrp, hpid], fun x hx hr => hr.of_rel (e.procs x fun he => hnp (he ▸ hx))⟩
  · rcases states c h.mem with he | ⟨hi, -⟩
    · exact he.trans h.ready
    · exact absurd hi busy
  · change Function.update k.frames process [] c = []
    rw [Function.update_of_ne hcp]
    exact h.user
  · change stateOf s x ≠ _
    rcases List.mem_append.mp hx with hx | hx
    · rcases states x hx with he | ⟨-, he⟩
      · rw [he]
        exact healthy.live x hx
      · rw [he]
        simp
    · rw [List.mem_singleton.mp hx, stateOf_of hrp, hst]
      simp
  · obtain ⟨x, hx, he⟩ := healthy.entries q i hi
    exact ⟨x, by simp [hx], (pids x hx).trans he⟩

theorem semOpen_running {name : String} {value : Int} {m : SemMallocs} {q : Ptr}
    (h : Running k nodes c) (run : Semaphore.semOpen name value m k = .ok (q, k')) :
    Result k nodes k' nodes c .ret ∧ k'.sched = k.sched ∧ k'.frames = k.frames := by
  obtain ⟨lock, ⟨-, rfl⟩ | ⟨-, hfree, rfl⟩⟩ := semOpen_cases run
  · exact ⟨.refl h, rfl, rfl⟩
  have same : ∀ y, queue { k.putSem q { value := uint32 value, name := name, entering := [] } with
      firstSem := q :: k.firstSem } y = queue k y := by
    intro y
    by_cases hy : y = q
    · simp [queue, hy, hfree, Kernel.putSem]
    · simp [queue, hy, Kernel.putSem]
  refine ⟨⟨.inl ⟨rfl, h.books.table rfl lock rfl (fun y => by rw [same y]) (fun y z hz => ?_)
    (fun y z hz hne => ?_), h.current, h.mem, h.ready, h.user⟩, fun _ _ => rfl, fun healthy =>
    ⟨healthy.live, fun y i hi => healthy.entries y i (same y ▸ hi)⟩⟩, rfl, rfl⟩
  · by_cases hy : y = q
    · simp only [putSem_sems, hy, if_true, Option.some.injEq] at hz
      rw [← hz]
      exact uint32_nonneg _
    · simp only [putSem_sems, hy, if_false] at hz
      exact h.books.units y z hz
  · by_cases hy : y = q
    · rw [same y, hy] at hne
      simp [queue, hfree] at hne
    · simpa only [putSem_sems, hy, if_false] using hz

theorem semClose_running {q : Option Ptr} {code : Int} (h : Running k nodes c)
    (run : Semaphore.semClose q k = .ok (code, k')) :
    Result k nodes k' nodes c .ret ∧ k'.sched = k.sched ∧ k'.frames = k.frames := by
  obtain ⟨rfl, -⟩ | ⟨q, rfl, lock, -, rfl⟩ := semClose_cases run
  · exact ⟨.refl h, rfl, rfl⟩
  have sub : ∀ y, List.Sublist (queue { k with
      firstSem := k.firstSem.erase q, sems := Function.update k.sems q none } y) (queue k y) := by
    intro y
    by_cases hy : y = q
    · simp [queue, hy]
    · simp [queue, Function.update_of_ne hy]
  have table : ∀ y z, Function.update k.sems q none y = some z → k.sems y = some z := by
    intro y z hz
    by_cases hy : y = q
    · simp [hy] at hz
    · simpa [Function.update_of_ne hy] using hz
  exact ⟨⟨.inl ⟨rfl, h.books.table rfl lock rfl sub (fun y z hz => h.books.units y z (table y z hz))
    (fun y z hz _ => table y z hz), h.current, h.mem, h.ready, h.user⟩, fun _ _ => rfl,
    fun healthy => ⟨healthy.live, fun y i hi => healthy.entries y i ((sub y).subset hi)⟩⟩, rfl, rfl⟩

end

end BottlerOS.SemRuns
