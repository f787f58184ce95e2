import BottlerOS.SemCalls
import BottlerOS.Dispatch

/-! The books of the semaphores. A process inside `semWait` is BLOCKED until a
`semPost` hands it the unit it waits for; a semaphore somebody waits on has no
unit, but for the one that is being handed over. Each operation of the kernel is
shown to keep these books. -/

namespace BottlerOS.SemBooks
open Machine Scheduler LinkedList ProcessList ProcessFields ProcessLinks Dispatch
open Semaphore SemCalls

/-- The semaphore whose `semWait` has left a frame on the process's stack. -/
def waitsOn (k : Kernel) (p : Ptr) : Option Ptr :=
  match k.frames p with
  | .semWait sem :: _ => some sem
  | _ => none

def queue (k : Kernel) (sem : Ptr) : List Int := ((k.sems sem).map (·.entering)).getD []

/-- A process of the list that is not DEAD and whose pid is in the queue. -/
structure Queued (k : Kernel) (nodes : List Ptr) (sem p : Ptr) : Prop where
  listed : p ∈ nodes
  live : stateOf k.sched p ≠ some .dead
  entry : ∃ pid ∈ queue k sem, pidOf k.sched p = some pid

/-- A frame behind a semaphore call of a pipe. -/
def PipeFrame : Frame → Prop
  | .semWait _ => False
  | .semPost => False
  | _ => True

/-- A kernel stack: only its innermost frame is one of the semaphore calls. -/
def Stack (frames : List Frame) : Prop :=
  frames = [] ∨ ∃ f rest, frames = f :: rest ∧ ¬ PipeFrame f ∧ ∀ g ∈ rest, PipeFrame g

/-- The books; `pending` is a process that a `semPost` hands a unit, and the semaphore. -/
structure Books (k : Kernel) (nodes : List Ptr) (pending : Option (Ptr × Ptr)) : Prop where
  listed : Listed k.sched nodes
  lock : k.semLock = 0
  cursor : k.sched.firstBlockedIteration = none
  turns : ∀ p ∈ nodes, ∀ r, k.sched.procs p = some r → 0 ≤ r.priority ∧ r.priority ≤ MAX_PRIORITY
  stacked : ∀ p ∈ nodes, Stack (k.frames p)
  idle : ∀ p ∈ nodes, IsIdle k.sched p → k.frames p = []
  waiting : ∀ p ∈ nodes, ∀ sem, waitsOn k p = some sem → stateOf k.sched p ≠ some .dead →
    stateOf k.sched p = some .blocked ∨ pending = some (p, sem)
  units : ∀ sem x, k.sems sem = some x → 0 ≤ x.value
  nodup : ∀ sem, (queue k sem).Nodup
  queued : ∀ sem p, Queued k nodes sem p →
    waitsOn k p = some sem ∧ stateOf k.sched p = some .blocked
  empty : ∀ sem x p, k.sems sem = some x → Queued k nodes sem p →
    x.value = if pending.map Prod.snd = some sem then 1 else 0
  handed : ∀ d sem, pending = some (d, sem) → d ∈ nodes ∧ waitsOn k d = some sem ∧
    stateOf k.sched d = some .ready ∧ ∃ x, k.sems sem = some x ∧ x.value = 1

section
variable {k k' : Kernel} {nodes nodes' : List Ptr} {pending : Option (Ptr × Ptr)}
  {sem c d p : Ptr} {x : SemT} {pid : Int} {s s' : Sched}

theorem waitsOn_frames (h : k'.frames p = k.frames p) : waitsOn k' p = waitsOn k p := by
  rw [waitsOn, h, waitsOn]

theorem queue_of (h : k.sems sem = some x) : queue k sem = x.entering := by simp [queue, h]

/-- Its own pid in a queue makes a process BLOCKED, and a waiter of that semaphore only. -/
theorem Books.not_queued (h : Books k nodes pending) (hp : p ∈ nodes)
    (ready : stateOf k.sched p = some .ready) (hpid : pidOf k.sched p = some pid) :
    pid ∉ queue k sem := by
  intro hq
  have hb := (h.queued sem p ⟨hp, by simp [ready], pid, hq, hpid⟩).2
  rw [ready] at hb
  simp at hb

/-- How a process may change while the semaphores stay: not at all, or it dies, or it is not
inside `semWait`. -/
def Evolves (k : Kernel) (s' : Sched) (p : Ptr) : Prop :=
  stateOf s' p = stateOf k.sched p ∨ stateOf s' p = some .dead ∨
    (waitsOn k p = none ∧ stateOf k.sched p ≠ some .dead)

/-- The scheduler moves on, and the books stay as they are. -/
theorem Books.evolve (h : Books k nodes pending) (hl : Listed s' nodes')
    (cursor : s'.firstBlockedIteration = none)
    (turns : ∀ p ∈ nodes', ∀ r, s'.procs p = some r → 0 ≤ r.priority ∧ r.priority ≤ MAX_PRIORITY)
    (sub : ∀ p ∈ nodes', p ∈ nodes) (pids : ∀ p ∈ nodes', pidOf s' p = pidOf k.sched p)
    (state : ∀ p ∈ nodes', Evolves k s' p)
    (kept : ∀ d sem, pending = some (d, sem) → d ∈ nodes' ∧ stateOf s' d = some .ready) :
    Books { k with sched := s' } nodes' pending := by
  have old : ∀ {sem p}, Queued { k with sched := s' } nodes' sem p →
      Queued k nodes sem p ∧ stateOf s' p = stateOf k.sched p := by
    rintro sem p ⟨hp, hlive, pid, hq, hpid⟩
    have hpid' : pidOf k.sched p = some pid := (pids p hp).symm.trans hpid
    rcases state p hp with e | e | ⟨e, e'⟩
    · exact ⟨⟨sub p hp, e ▸ hlive, pid, hq, hpid'⟩, e⟩
    · exact absurd e hlive
    · have q : Queued k nodes sem p := ⟨sub p hp, e', pid, hq, hpid'⟩
      rw [(h.queued sem p q).1] at e
      cases e
  refine ⟨hl, h.lock, cursor, turns, fun p hp => h.stacked p (sub p hp), fun p hp hi =>
    h.idle p (sub p hp) ((pids p hp).symm.trans hi), fun p hp sem hw hlive => ?_, h.units, h.nodup,
    fun sem p q => ?_, fun sem x p hx q => h.empty sem x p hx (old q).1, fun d sem hd => ?_⟩
  · have hw' : waitsOn k p = some sem := hw
    rcases state p hp with e | e | ⟨e, -⟩
    · have hb := h.waiting p (sub p hp) sem hw' (e ▸ hlive)
      exact hb.imp (e.trans ·) id
    · exact absurd e hlive
    · rw [hw'] at e
      cases e
  · obtain ⟨q', e⟩ := old q
    exact ⟨(h.queued sem p q').1, e.trans (h.queued sem p q').2⟩
  · obtain ⟨hn, hst⟩ := kept d sem hd
    obtain ⟨-, hw, -, hx⟩ := h.handed d sem hd
    exact ⟨hn, hw, hst, hx⟩

theorem Touched.turns {A B : Ptr → Prop} (t : Touched A B s s')
    (h : ∀ p ∈ nodes, ∀ r, s.procs p = some r → 0 ≤ r.priority ∧ r.priority ≤ MAX_PRIORITY) :
    ∀ p ∈ nodes, ∀ r, s'.procs p = some r → 0 ≤ r.priority ∧ r.priority ≤ MAX_PRIORITY := by
  intro p hp r' hr'
  cases hr : s.procs p with
  | none => rw [t.none.mpr hr] at hr'; cases hr'
  | some r =>
    obtain ⟨r1, hr1, t1⟩ := t.some hr
    obtain rfl := Option.some.inj (hr1.symm.trans hr')
    rw [t1.kept.priority]
    exact h p hp r hr

/-- The states of some processes outside `semWait` are set. -/
theorem Books.touched {A B : Ptr → Prop} (h : Books k nodes none) (t : Touched A B k.sched s')
    (state : ∀ p ∈ nodes, A p → stateOf s' p = stateOf k.sched p ∨
      (waitsOn k p = none ∧ stateOf k.sched p ≠ some .dead)) :
    Books { k with sched := s' } nodes none := by
  refine h.evolve (t.listed h.listed) (t.blocked.trans h.cursor) (Touched.turns t h.turns)
    (fun _ hp => hp) (fun p _ => t.pidOf_eq) (fun p hp => ?_) (fun d sem hd => by cases hd)
  by_cases hA : A p
  · exact (state p hp hA).imp id .inr
  · exact .inl (t.stateOf_eq hA)

/-- A unit that is free is taken: nobody waits for it. -/
theorem Books.take (h : Books k nodes none) (hx : k.sems sem = some x) (free : x.value > 0)
    (waited : Bool) : Books (taking sem x pid waited k) nodes none := by
  have hqueue : queue (taking sem x pid waited k) = queue k := by
    funext q
    by_cases hq : q = sem
    · simp [queue, taking, hq, hx]
    · simp [queue, taking, hq]
  have same : ∀ {q p}, Queued (taking sem x pid waited k) nodes q p → Queued k nodes q p :=
    fun hq => ⟨hq.listed, hq.live, hqueue ▸ hq.entry⟩
  refine ⟨h.listed, h.lock, h.cursor, h.turns, h.stacked, h.idle, h.waiting, fun q y hy => ?_,
    fun q => by rw [hqueue]; exact h.nodup q, fun q p hq => h.queued q p (same hq),
    fun q y p hy hq => ?_, fun d q hd => by cases hd⟩
  · by_cases hqs : q = sem
    · simp only [taking, log_sems, putSem_sems, hqs, if_true, Option.some.injEq] at hy
      rw [← hy]
      exact uint32_nonneg _
    · simp only [taking, log_sems, putSem_sems, hqs, if_false] at hy
      exact h.units q y hy
  · by_cases hqs : q = sem
    · subst hqs
      have hzero := h.empty q x p hx (same hq)
      simp only [Option.map_none, reduceCtorEq, if_false] at hzero
      omega
    · simp only [taking, log_sems, putSem_sems, hqs, if_false] at hy
      exact h.empty q y p hy (same hq)

theorem queue_taking (waited : Bool) (hx : k.sems sem = some x) :
    queue (taking sem x pid waited k) = queue k := by
  funext q
  by_cases hq : q = sem
  · simp [queue, taking, hq, hx]
  · simp [queue, taking, hq]

theorem queue_giving {rest : List Int} (q : Ptr) :
    queue (giving sem x rest k) q = if q = sem then rest else queue k q := by
  by_cases hq : q = sem
  · simp [queue, giving, hq]
  · simp [queue, giving, hq]

theorem queue_joining (hx : k.sems sem = some x) (q : Ptr) :
    queue (joining sem x pid k) q = if q = sem then queue k sem ++ [pid] else queue k q := by
  by_cases hq : q = sem
  · simp [queue, joining, hq, hx]
  · simp [queue, joining, hq]

/-- The unit that was handed over is taken by the process it was meant for. -/
theorem Books.take_handed (pid : Int) (h : Books k nodes (some (c, sem)))
    (hx : k.sems sem = some x) :
    x.value = 1 ∧ Books { taking sem x pid true k with
      frames := Function.update k.frames c [] } nodes none := by
  obtain ⟨hn, hw, hready, y, hy, hone⟩ := h.handed c sem rfl
  obtain rfl := Option.some.inj (hx.symm.trans hy)
  have old : ∀ {q p}, Queued { taking sem x pid true k with
      frames := Function.update k.frames c [] } nodes q p → Queued k nodes q p ∧ p ≠ c := by
    intro q p hq
    have hq' : Queued k nodes q p := ⟨hq.listed, hq.live, by
      obtain ⟨i, hi, hp⟩ := hq.entry
      have same : queue (taking sem x pid true k) = queue k := queue_taking true hx
      exact ⟨i, same ▸ hi, hp⟩⟩
    refine ⟨hq', fun e => ?_⟩
    have hb := (h.queued q p hq').2
    rw [e, hready] at hb
    simp at hb
  have other : ∀ p, p ≠ c → waitsOn { taking sem x pid true k with
      frames := Function.update k.frames c [] } p = waitsOn k p := fun p hp =>
    waitsOn_frames (Function.update_of_ne hp _ _)
  refine ⟨hone, h.listed, h.lock, h.cursor, h.turns, fun p hp => ?_, fun p hp hi => ?_,
    fun p hp q hwq hlive => ?_, fun q z hz => ?_, fun q => ?_, fun q p hq => ?_,
    fun q z p hz hq => ?_, fun d q hd => by cases hd⟩
  · by_cases hpc : p = c
    · exact .inl (by simp [hpc])
    · simpa [Function.update_of_ne hpc] using h.stacked p hp
  · by_cases hpc : p = c
    · simp [hpc]
    · simpa [Function.update_of_ne hpc] using h.idle p hp hi
  · by_cases hpc : p = c
    · subst hpc
      simp [waitsOn] at hwq
    · rw [other p hpc] at hwq
      rcases h.waiting p hp q hwq hlive with hb | hb
      · exact .inl hb
      · simp only [Option.some.injEq, Prod.mk.injEq] at hb
        exact absurd hb.1.symm hpc
  · by_cases hqs : q = sem
    · simp only [taking, log_sems, putSem_sems, hqs, if_true, Option.some.injEq] at hz
      rw [← hz]
      exact uint32_nonneg _
    · simp only [taking, log_sems, putSem_sems, hqs, if_false] at hz
      exact h.units q z hz
  · change (queue (taking sem x pid true k) q).Nodup
    rw [queue_taking true hx]
    exact h.nodup q
  · obtain ⟨hq', hpc⟩ := old hq
    rw [other p hpc]
    exact h.queued q p hq'
  · obtain ⟨hq', hpc⟩ := old hq
    rw [Option.map_none, if_neg (by simp)]
    by_cases hqs : q = sem
    · simp only [taking, log_sems, putSem_sems, hqs, if_true, Option.some.injEq] at hz
      rw [← hz]
      simp [hone, uint32]
    · simp only [taking, log_sems, putSem_sems, hqs, if_false] at hz
      have hzero := h.empty q z p hz hq'
      rw [if_neg (by simpa using fun e : sem = q => hqs e.symm)] at hzero
      exact hzero

/-- A process in user mode joins the queue of a semaphore without units, and is BLOCKED. -/
theorem Books.join {rest : List Frame} {B : Ptr → Prop} (h : Books k nodes none) (hn : c ∈ nodes)
    (ready : stateOf k.sched c = some .ready) (hpid : pidOf k.sched c = some pid)
    (busy : ¬ IsIdle k.sched c) (hx : k.sems sem = some x) (hv : ¬ x.value > 0)
    (t : Touched (· = c) B k.sched s) (blocked : stateOf s c = some .blocked)
    (pipe : ∀ f ∈ rest, PipeFrame f) :
    Books { joining sem x pid k with
      sched := s, frames := Function.update k.frames c (.semWait sem :: rest) } nodes none := by
  have zero : x.value = 0 := by
    have := h.units sem x hx
    omega
  have other : ∀ p, p ≠ c → waitsOn { joining sem x pid k with
      sched := s, frames := Function.update k.frames c (.semWait sem :: rest) } p = waitsOn k p :=
    fun p hp => waitsOn_frames (Function.update_of_ne hp _ _)
  have states : ∀ p, p ≠ c → stateOf s p = stateOf k.sched p := fun p hp => t.stateOf_eq hp
  -- who is queued now: the joining process, and those who were
  have old : ∀ {q p}, Queued { joining sem x pid k with
      sched := s, frames := Function.update k.frames c (.semWait sem :: rest) } nodes q p →
      (p = c ∧ q = sem) ∨ (p ≠ c ∧ Queued k nodes q p) := by
    rintro q p ⟨hp, hlive, i, hi, hip⟩
    have hip' : pidOf k.sched p = some i := t.pidOf_eq.symm.trans hip
    have hi' : i ∈ queue (joining sem x pid k) q := hi
    rw [queue_joining hx] at hi'
    by_cases hpc : p = c
    · left
      refine ⟨hpc, ?_⟩
      by_contra hqs
      rw [if_neg hqs] at hi'
      exact h.not_queued hn ready (hpc ▸ hip') hi'
    · refine .inr ⟨hpc, hp, states p hpc ▸ hlive, i, ?_, hip'⟩
      split at hi' <;> rename_i hqs
      · rw [hqs]
        refine (List.mem_append.mp hi').resolve_right fun h' => ?_
        rw [List.mem_singleton] at h'
        exact hpc (h.listed.pid_inj hp hn (by rw [hip', hpid, h']))
      · exact hi'
  refine ⟨t.listed h.listed, h.lock, t.blocked.trans h.cursor, Touched.turns t h.turns,
    fun p hp => ?_, fun p hp hi => ?_, fun p hp q hwq hlive => ?_, fun q y hy => ?_, fun q => ?_,
    fun q p hq => ?_, fun q y p hy hq => ?_, fun d q hd => by cases hd⟩
  · by_cases hpc : p = c
    · rw [hpc]
      exact .inr ⟨.semWait sem, rest, by simp, fun h => h, pipe⟩
    · simpa [Function.update_of_ne hpc] using h.stacked p hp
  · have hi' : IsIdle k.sched p := t.pidOf_eq.symm.trans hi
    have hpc : p ≠ c := fun e => busy (e ▸ hi')
    simpa [Function.update_of_ne hpc] using h.idle p hp hi'
  · by_cases hpc : p = c
    · exact .inl (hpc ▸ blocked)
    · rw [other p hpc] at hwq
      exact .inl ((states p hpc).trans ((h.waiting p hp q hwq (states p hpc ▸ hlive)).resolve_right
        (by simp)))
  · by_cases hqs : q = sem
    · simp only [joining, log_sems, putSem_sems, hqs, if_true, Option.some.injEq] at hy
      rw [← hy]
      exact h.units sem x hx
    · simp only [joining, log_sems, putSem_sems, hqs, if_false] at hy
      exact h.units q y hy
  · change (queue (joining sem x pid k) q).Nodup
    rw [queue_joining hx]
    split
    · rw [List.nodup_append_comm, List.singleton_append, List.nodup_cons]
      exact ⟨h.not_queued hn ready hpid, h.nodup sem⟩
    · exact h.nodup q
  · rcases old hq with ⟨rfl, rfl⟩ | ⟨hpc, hq'⟩
    · exact ⟨by simp [waitsOn], blocked⟩
    · rw [other p hpc]
      exact ⟨(h.queued q p hq').1, (states p hpc).trans (h.queued q p hq').2⟩
  · rw [Option.map_none, if_neg (by simp)]
    by_cases hqs : q = sem
    · simp only [joining, log_sems, putSem_sems, hqs, if_true, Option.some.injEq] at hy
      rw [← hy]
      exact zero
    · simp only [joining, log_sems, putSem_sems, hqs, if_false] at hy
      rcases old hq with ⟨-, rfl⟩ | ⟨-, hq'⟩
      · exact absurd rfl hqs
      · simpa using h.empty q y p hy hq'

/-- A unit is given and nobody of the list waits for it. -/
theorem Books.give {rest : List Int} (h : Books k nodes none) (hx : k.sems sem = some x)
    (alone : ∀ p, ¬ Queued k nodes sem p) (sub : List.Sublist rest x.entering) :
    Books (giving sem x rest k) nodes none := by
  have old : ∀ {q p}, Queued (giving sem x rest k) nodes q p → q ≠ sem ∧ Queued k nodes q p := by
    rintro q p ⟨hp, hlive, i, hi, hip⟩
    rw [queue_giving] at hi
    split at hi <;> rename_i hqs
    · refine absurd ⟨hp, hlive, i, ?_, hip⟩ (alone p)
      rw [queue_of hx]
      exact sub.subset hi
    · exact ⟨hqs, hp, hlive, i, hi, hip⟩
  refine ⟨h.listed, h.lock, h.cursor, h.turns, h.stacked, h.idle, h.waiting, fun q y hy => ?_,
    fun q => ?_, fun q p hq => h.queued q p (old hq).2, fun q y p hy hq => ?_,
    fun d q hd => by cases hd⟩
  · by_cases hqs : q = sem
    · simp only [giving, log_sems, putSem_sems, hqs, if_true, Option.some.injEq] at hy
      rw [← hy]
      exact uint32_nonneg _
    · simp only [giving, log_sems, putSem_sems, hqs, if_false] at hy
      exact h.units q y hy
  · rw [queue_giving]
    split
    · have hnd := h.nodup sem
      rw [queue_of hx] at hnd
      exact hnd.sublist sub
    · exact h.nodup q
  · obtain ⟨hqs, hq'⟩ := old hq
    simp only [giving, log_sems, putSem_sems, hqs, if_false] at hy
    exact h.empty q y p hy hq'

theorem Promoted.mem_iff (h : Promoted nodes c d s s') : ∃ nodes', Listed s' nodes' ∧
    (∀ p, p ∈ nodes' ↔ p ∈ nodes) ∧ ∃ P Q, nodes' = P ++ c :: d :: Q := by
  obtain ⟨pre, post, P, Q, rfl, place, hl⟩ := h.place
  refine ⟨_, hl, fun p => ?_, P, Q, rfl⟩
  have mem : p ∈ pre ++ post ↔ p ∈ P ++ c :: Q := by rw [place]
  simp only [List.mem_append, List.mem_cons] at mem ⊢
  tauto

theorem Shuffled.turns {A B : Ptr → Prop} (sh : Shuffled A B s s')
    (h : ∀ p ∈ nodes, ∀ r, s.procs p = some r → 0 ≤ r.priority ∧ r.priority ≤ MAX_PRIORITY) :
    ∀ p ∈ nodes, ∀ r, s'.procs p = some r → 0 ≤ r.priority ∧ r.priority ≤ MAX_PRIORITY := by
  intro p hp r' hr'
  cases hr : s.procs p with
  | none => rw [sh.none.mpr hr] at hr'; cases hr'
  | some r =>
    obtain ⟨r1, hr1, t1⟩ := sh.some hr
    obtain rfl := Option.some.inj (hr1.symm.trans hr')
    have same : r1.priority = r.priority := t1.kept.priority
    rw [same]
    exact h p hp r hr

/-- A unit is given to the process at the head of the queue: it is READY and next in the list,
and the unit is pending for it. -/
theorem Books.give_handed {rest : List Int} {left : List Frame} (h : Books k nodes none)
    (hn : c ∈ nodes) (ready : stateOf k.sched c = some .ready) (busy : ¬ IsIdle k.sched c)
    (hx : k.sems sem = some x) (hq : x.entering = pid :: rest) (hd : d ∈ nodes)
    (hpid : pidOf k.sched d = some pid) (live : stateOf k.sched d ≠ some .dead)
    (up : Promoted nodes c d k.sched s) (pipe : ∀ f ∈ left, PipeFrame f) :
    ∃ nodes', (∀ p, p ∈ nodes' ↔ p ∈ nodes) ∧ (∃ P Q, nodes' = P ++ c :: d :: Q) ∧
      Books { giving sem x rest k with
        sched := s, frames := Function.update k.frames c (.semPost :: left) } nodes'
        (some (d, sem)) := by
  obtain ⟨nodes', hl, mem, P, Q, hsplit⟩ := Promoted.mem_iff up
  have qd : Queued k nodes sem d := ⟨hd, live, pid, by rw [queue_of hx, hq]; simp, hpid⟩
  obtain ⟨hwd, hbd⟩ := h.queued sem d qd
  have zero : x.value = 0 := by simpa using h.empty sem x d hx qd
  have hdc : d ≠ c := by
    rintro rfl
    rw [hbd] at ready
    simp at ready
  have hwc : waitsOn k c = none := by
    cases hw : waitsOn k c with
    | none => rfl
    | some q =>
      rcases h.waiting c hn q hw (by simp [ready]) with hb | hb
      · rw [hb] at ready
        simp at ready
      · cases hb
  have waits : ∀ p, waitsOn { giving sem x rest k with
      sched := s, frames := Function.update k.frames c (.semPost :: left) } p = waitsOn k p := by
    intro p
    by_cases hpc : p = c
    · rw [hpc, hwc]
      simp [waitsOn]
    · exact waitsOn_frames (Function.update_of_ne hpc _ _)
  have pids : ∀ p, pidOf s p = pidOf k.sched p := fun p => up.shuffled.pidOf_eq
  have states : ∀ p, p ≠ d → stateOf s p = stateOf k.sched p := fun p hp =>
    up.shuffled.stateOf_eq hp
  have fresh : pid ∉ rest := by
    have hnd := h.nodup sem
    rw [queue_of hx, hq] at hnd
    exact (List.nodup_cons.mp hnd).1
  -- the head has left the queue, and was in no other
  have old : ∀ {q p}, Queued { giving sem x rest k with
      sched := s, frames := Function.update k.frames c (.semPost :: left) } nodes' q p →
      p ≠ d ∧ Queued k nodes q p := by
    rintro q p ⟨hp, hlive, i, hi, hip⟩
    have hi' : i ∈ queue (giving sem x rest k) q := hi
    rw [queue_giving] at hi'
    have hip' : pidOf k.sched p = some i := (pids p).symm.trans hip
    have hpd : p ≠ d := by
      rintro rfl
      obtain rfl := Option.some.inj (hip'.symm.trans hpid)
      split at hi' <;> rename_i hqs
      · exact fresh hi'
      · have hw := (h.queued q p ⟨hd, live, i, hi', hpid⟩).1
        rw [hwd] at hw
        exact hqs (Option.some.inj hw).symm
    refine ⟨hpd, (mem p).mp hp, states p hpd ▸ hlive, i, ?_, hip'⟩
    split at hi' <;> rename_i hqs
    · rw [hqs, queue_of hx, hq]
      exact List.mem_cons_of_mem _ hi'
    · exact hi'
  refine ⟨nodes', mem, ⟨P, Q, hsplit⟩, hl, h.lock, up.shuffled.blocked.trans h.cursor,
    fun p hp => Shuffled.turns up.shuffled h.turns p ((mem p).mp hp), fun p hp => ?_,
    fun p hp hi => ?_, fun p hp q hwq hlive => ?_, fun q y hy => ?_, fun q => ?_,
    fun q p hq' => ?_, fun q y p hy hq' => ?_, fun d' q hd' => ?_⟩
  · by_cases hpc : p = c
    · rw [hpc]
      exact .inr ⟨.semPost, left, by simp, fun h => h, pipe⟩
    · simpa [Function.update_of_ne hpc] using h.stacked p ((mem p).mp hp)
  · have hi' : IsIdle k.sched p := (pids p).symm.trans hi
    have hpc : p ≠ c := fun e => busy (e ▸ hi')
    simpa [Function.update_of_ne hpc] using h.idle p ((mem p).mp hp) hi'
  · rw [waits p] at hwq
    by_cases hpd : p = d
    · right
      rw [hpd, hwd] at hwq
      rw [hpd, Option.some.inj hwq]
    · exact .inl ((states p hpd).trans ((h.waiting p ((mem p).mp hp) q hwq
        (states p hpd ▸ hlive)).resolve_right (by simp)))
  · by_cases hqs : q = sem
    · simp only [giving, log_sems, putSem_sems, hqs, if_true, Option.some.injEq] at hy
      rw [← hy]
      exact uint32_nonneg _
    · simp only [giving, log_sems, putSem_sems, hqs, if_false] at hy
      exact h.units q y hy
  · change (queue (giving sem x rest k) q).Nodup
    rw [queue_giving]
    split
    · have hnd := h.nodup sem
      rw [queue_of hx, hq] at hnd
      exact (List.nodup_cons.mp hnd).2
    · exact h.nodup q
  · obtain ⟨hpd, hq1⟩ := old hq'
    rw [waits p]
    exact ⟨(h.queued q p hq1).1, (states p hpd).trans (h.queued q p hq1).2⟩
  · obtain ⟨-, hq1⟩ := old hq'
    by_cases hqs : q = sem
    · simp only [giving, log_sems, putSem_sems, hqs, if_true, Option.some.injEq] at hy
      rw [← hy]
      simp [zero, uint32, hqs]
    · simp only [giving, log_sems, putSem_sems, hqs, if_false] at hy
      have hz := h.empty q y p hy hq1
      rw [Option.map_none, if_neg (by simp)] at hz
      rw [hz, if_neg (by simpa using fun e : sem = q => hqs e.symm)]
  · simp only [Option.some.injEq, Prod.mk.injEq] at hd'
    obtain ⟨rfl, rfl⟩ := hd'
    refine ⟨(mem _).mpr hd, (waits _).trans hwd, up.ready, _, by simp [giving]; rfl, ?_⟩
    simp [zero, uint32]

/-- No sleeper whose time has come is inside `semWait`, unless it is handed a unit just now. -/
def SleepersOut (k : Kernel) (nodes : List Ptr) (pending : Option (Ptr × Ptr)) (now : Int) : Prop :=
  ∀ e ∈ k.sched.firstSleep, expired now e → ∀ p ∈ nodes, pidOf k.sched p = some e.pid →
    waitsOn k p = none ∨ ∃ sem, pending = some (p, sem)

theorem Books.sleepers {fuel : Nat} {now : Int} (h : Books k nodes pending)
    (out : SleepersOut k nodes pending now) (run : checkSleeping fuel now k.sched = .ok s) :
    Books { k with sched := s } nodes pending ∧ s.currentProcess = k.sched.currentProcess ∧
      s.firstSleep = k.sched.firstSleep.filter (fun e => !expired now e) ∧
      (∀ p, stateOf s p = stateOf k.sched p ∨ stateOf s p = some .ready) ∧
      (∀ p, pidOf s p = pidOf k.sched p) ∧
      (∀ p r, s.procs p = some r → ∃ r', k.sched.procs p = some r' ∧
        r.executions = r'.executions ∧ r.priority = r'.priority) := by
  obtain ⟨t, states⟩ := checkSleepingFrom_touched h.listed run
  simp only [List.nil_append] at t
  have hl0 : Listed { k.sched with
      firstSleep := k.sched.firstSleep.filter (fun e => !expired now e) } nodes :=
    ⟨h.listed.linked, h.listed.pids, h.listed.last⟩
  refine ⟨h.evolve (t.listed hl0) (t.blocked.trans h.cursor) (Touched.turns t h.turns)
    (fun _ hp => hp) (fun p _ => t.pidOf_eq) (fun p hp => ?_) (fun d sem hd => ?_), t.current,
    t.sleep, states, fun p => t.pidOf_eq, fun p r hr => ?_⟩
  · by_cases hA : ∃ e ∈ k.sched.firstSleep, expired now e ∧ pidOf k.sched p = some e.pid ∧
        stateOf k.sched p ≠ some .dead
    · obtain ⟨e, he, hx, hpid, hlive⟩ := hA
      rcases out e he hx p hp hpid with hw | ⟨sem, hpend⟩
      · exact .inr (.inr ⟨hw, hlive⟩)
      · obtain ⟨-, -, hst, -⟩ := h.handed p sem hpend
        left
        rcases states p with e' | e'
        · exact e'
        · exact e'.trans hst.symm
    · exact .inl (t.stateOf_eq hA)
  · obtain ⟨hn, -, hst, -⟩ := h.handed d sem hd
    refine ⟨hn, ?_⟩
    rcases states d with e | e
    · exact e.trans hst
    · exact e
  · cases hr' : k.sched.procs p with
    | none => rw [t.none.mpr hr'] at hr; cases hr
    | some r' =>
      obtain ⟨r1, hr1, t1⟩ := t.some hr'
      obtain rfl := Option.some.inj (hr1.symm.trans hr)
      exact ⟨r', rfl, t1.executions (fun h => h), t1.kept.priority⟩

theorem Reaped.turns {B : Ptr → Prop} (e : Reaped B nodes nodes' s s')
    (h : ∀ p ∈ nodes, ∀ r, s.procs p = some r → 0 ≤ r.priority ∧ r.priority ≤ MAX_PRIORITY) :
    ∀ p ∈ nodes', ∀ r, s'.procs p = some r → 0 ≤ r.priority ∧ r.priority ≤ MAX_PRIORITY := by
  intro p hp r' hr'
  have h1 := e.procs p (.inr hp)
  rw [hr'] at h1
  cases hr : s.procs p with
  | none => rw [hr] at h1; cases h1
  | some r =>
    rw [hr] at h1
    cases h1 with
    | some h1 =>
      have same : r'.priority = r.priority := h1.kept.priority
      rw [same]
      exact h p (e.sublist.subset hp) r hr

/-- `nextProcess` keeps the books: it reaps the DEAD and touches the state of idle only. -/
theorem Books.reaped {B : Ptr → Prop} (h : Books k nodes pending)
    (e : Reaped B nodes nodes' k.sched s) (cursor : s.firstBlockedIteration = none) :
    Books { k with sched := s } nodes' pending := by
  refine h.evolve e.listed cursor (Reaped.turns e h.turns) (fun p hp => e.sublist.subset hp)
    (fun p hp => e.pidOf_eq (.inr hp)) (fun p hp => ?_) (fun d sem hd => ?_)
  · rcases e.state p (.inr hp) with he | ⟨hi, hlive, -⟩
    · exact .inl he
    · refine .inr (.inr ⟨?_, hlive⟩)
      rw [waitsOn, h.idle p (e.sublist.subset hp) hi]
  · obtain ⟨hn, hw, hst, -⟩ := h.handed d sem hd
    have hn' : d ∈ nodes' := by
      by_contra hgone
      have hdead := (e.dead d hn hgone).1
      rw [hst] at hdead
      simp at hdead
    refine ⟨hn', ?_⟩
    rcases e.state d (.inr hn') with he | ⟨hi, -, -⟩
    · exact he.trans hst
    · rw [waitsOn, h.idle d hn hi] at hw
      cases hw

/-- The timer handler keeps the books and dispatches a READY process. -/
theorem timer_books {fuel : Nat} {now : Int} {rsp : Nat} (h : Books k nodes pending)
    (hc : k.sched.currentProcess = some c) (hn : c ∈ nodes) (out : SleepersOut k nodes pending now)
    (run : Kernel.timer fuel now rsp k = .ok k') :
    ∃ s nodes', k' = { k with sched := s } ∧ Books k' nodes' pending ∧
      nodes'.Sublist nodes ∧ (∀ p ∈ nodes, p ∉ nodes' → stateOf s p = none) ∧
      (∃ c' ∈ nodes', s.currentProcess = some c' ∧ stateOf s c' = some .ready) ∧
      (∀ p ∈ nodes', pidOf s p = pidOf k.sched p) ∧
      s.firstSleep = k.sched.firstSleep.filter (fun e => !expired now e) ∧
      s.pids = k.sched.pids ∧
      (∀ p ∈ nodes, stateOf k.sched p ≠ some .dead → p ∈ nodes' ∧ stateOf s p ≠ some .dead) ∧
      (∀ p ∈ nodes', stateOf k.sched p = some .dead → stateOf s p = some .dead) ∧
      ∀ p ∈ nodes', Resting k.sched p → Resting s p := by
  obtain ⟨s, h1, run1⟩ := bind_ok.mp run
  obtain rfl := Except.ok.inj run1
  obtain ⟨s1, h2, run2⟩ := bind_ok.mp h1
  obtain ⟨⟨v, s2⟩, h3, run3⟩ := bind_ok.mp run2
  obtain rfl := Except.ok.inj run3
  obtain ⟨b1, c1, sl1, st1, pid1, -⟩ := h.sleepers out h2
  have cursor1 : Cursor s1 nodes := fun x hx => by
    rw [c1, hc] at hx
    obtain rfl := Option.some.inj hx
    exact hn
  obtain ⟨nodes', e, hfb, c', hn', r, hcur, hready, -⟩ := nextProcess_reaped b1.listed cursor1 h3
  obtain ⟨hcur', hr⟩ := current_ok.mp hcur
  have t1 := (checkSleepingFrom_touched h.listed h2).1
  have pids1 : s1.pids = k.sched.pids := t1.pids
  refine ⟨s2, nodes', rfl, b1.reaped e hfb, e.sublist, fun p hp hgone => ?_,
    ⟨c', hn', hcur', by rw [stateOf_of hr, hready]⟩,
    fun p hp => (e.pidOf_eq (.inr hp)).trans (pid1 p), e.sleep.trans sl1, e.pids.trans pids1,
    fun p hp hlive => ?_, fun p hp hdead => ?_, fun p hp hrest => ?_⟩
  · rw [stateOf, (e.dead p hp hgone).2]
    rfl
  · have live1 : stateOf s1 p ≠ some .dead := by
      rcases st1 p with he | he
      · rw [he]
        exact hlive
      · rw [he]
        simp
    have hp' : p ∈ nodes' := by
      by_contra hgone
      exact live1 (e.dead p hp hgone).1
    refine ⟨hp', ?_⟩
    rcases e.state p (.inr hp') with he | ⟨-, -, he⟩
    · rw [he]
      exact live1
    · exact he
  · have dead1 : stateOf s1 p = some .dead := by
      refine (t1.stateOf_eq fun hA => ?_).trans hdead
      obtain ⟨-, -, -, -, hlive⟩ := hA
      exact hlive hdead
    rcases e.state p (.inr hp) with he | ⟨-, hlive, -⟩
    · exact he.trans dead1
    · exact absurd dead1 hlive
  · have rest1 : Resting s1 p := hrest.of_rel ((Shuffled.of_touched t1).procs p)
    exact rest1.of_rel (e.procs p (.inr hp))

/-- When the running process has just handed a unit over, the timer dispatches the receiver. -/
theorem timer_handOff {fuel : Nat} {now : Int} {rsp : Nat} {P Q : List Ptr} {r : ProcessCDT}
    (h : Books k (P ++ c :: d :: Q) (some (d, sem))) (hc : k.sched.current = .ok (c, r))
    (ready : r.state = .ready) (turn : r.executions = MAX_PRIORITY - r.priority)
    (out : SleepersOut k (P ++ c :: d :: Q) (some (d, sem)) now)
    (run : Kernel.timer fuel now rsp k = .ok k') :
    k'.sched.currentProcess = some d := by
  obtain ⟨s, h1, run1⟩ := bind_ok.mp run
  obtain rfl := Except.ok.inj run1
  obtain ⟨s1, h2, run2⟩ := bind_ok.mp h1
  obtain ⟨⟨v, s2⟩, h3, run3⟩ := bind_ok.mp run2
  obtain rfl := Except.ok.inj run3
  obtain ⟨b1, c1, -, st1, -, rec1⟩ := h.sleepers out h2
  obtain ⟨hcur, hr⟩ := current_ok.mp hc
  obtain ⟨r1, hr1⟩ := b1.listed.record (p := c) (by simp)
  obtain ⟨r0, hr0, hex, hpr⟩ := rec1 c r1 hr1
  obtain rfl := Option.some.inj (hr.symm.trans hr0)
  have ready1 : r1.state = .ready := by
    have hst := st1 c
    rw [stateOf_of hr, stateOf_of hr1, ready] at hst
    simpa using hst
  obtain ⟨-, -, hd1, -⟩ := b1.handed d sem rfl
  exact nextProcess_handOff b1.listed (current_ok.mpr ⟨c1.trans hcur, hr1⟩) ready1
    (by rw [hex, hpr]; exact turn) hd1 h3

/-- The table of semaphores changes, and no queue gets longer. -/
theorem Books.table (h : Books k nodes none) (sched : k'.sched = k.sched)
    (lock : k'.semLock = 0) (frames : k'.frames = k.frames)
    (sub : ∀ q, List.Sublist (queue k' q) (queue k q))
    (units : ∀ q y, k'.sems q = some y → 0 ≤ y.value)
    (same : ∀ q y, k'.sems q = some y → queue k' q ≠ [] → k.sems q = some y) :
    Books k' nodes none := by
  have old : ∀ {q p}, Queued k' nodes q p → Queued k nodes q p := by
    rintro q p ⟨hp, hlive, i, hi, hip⟩
    rw [sched] at hlive hip
    exact ⟨hp, hlive, i, (sub q).subset hi, hip⟩
  have waits : ∀ p, waitsOn k' p = waitsOn k p := fun p => waitsOn_frames (by rw [frames])
  refine ⟨sched ▸ h.listed, lock, by rw [sched]; exact h.cursor, by rw [sched]; exact h.turns,
    by rw [frames]; exact h.stacked, by rw [sched, frames]; exact h.idle,
    fun p hp q hw hlive => ?_, units, fun q => (h.nodup q).sublist (sub q), fun q p hq => ?_,
    fun q y p hy hq => ?_, fun d q hd => by cases hd⟩
  · rw [sched] at hlive ⊢
    exact h.waiting p hp q ((waits p).symm.trans hw) hlive
  · rw [waits, sched]
    exact h.queued q p (old hq)
  · obtain ⟨i, hi, -⟩ := hq.entry
    exact h.empty q y p (same q y hy (List.ne_nil_of_mem hi)) (old hq)

/-- A new process: in user mode, with a pid that is in no queue. -/
theorem Books.enqueue {foreground : Int} (h : Books k nodes none) (hl : Listed s (nodes ++ [p]))
    (e : Enqueued foreground p k.sched s) (unqueued : ∀ q, k.sched.pids ∉ queue k q) :
    Books { k with sched := s, frames := Function.update k.frames p [] } (nodes ++ [p]) none := by
  have apart : ∀ x ∈ nodes, x ≠ p := by
    rintro x hx rfl
    obtain ⟨r, hr⟩ := h.listed.record hx
    rw [e.free] at hr
    cases hr
  have mem : ∀ x ∈ nodes ++ [p], x = p ∨ (x ≠ p ∧ x ∈ nodes) := fun x hx => by
    rcases List.mem_append.mp hx with hx | hx
    · exact .inr ⟨apart x hx, hx⟩
    · exact .inl (List.mem_singleton.mp hx)
  have pids : ∀ x, x ≠ p → pidOf s x = pidOf k.sched x := by
    intro x hx
    have hp := e.procs x hx
    simp only [pidOf]
    generalize k.sched.procs x = a at *
    generalize s.procs x = b at *
    cases hp with
    | none => rfl
    | some hp => exact congrArg some hp.kept.pid
  obtain ⟨rp, hrp, hpid, hst, -, hprio, -⟩ := e.made
  have waitsp :
      waitsOn { k with sched := s, frames := Function.update k.frames p [] } p = none := by
    simp [waitsOn]
  have waits : ∀ x, x ≠ p → waitsOn { k with
      sched := s, frames := Function.update k.frames p [] } x = waitsOn k x := fun x hx =>
    waitsOn_frames (Function.update_of_ne hx _ _)
  -- outside `semWait` only idle changes its state
  have states : ∀ x ∈ nodes, waitsOn k x ≠ none → stateOf s x = stateOf k.sched x := by
    intro x hx hw
    rcases e.state x (apart x hx) with he | ⟨hi, -⟩
    · exact he
    · exact absurd (by rw [waitsOn, h.idle x hx hi]) hw
  have old : ∀ {q x}, Queued { k with
      sched := s, frames := Function.update k.frames p [] } (nodes ++ [p]) q x →
      x ≠ p ∧ Queued k nodes q x := by
    rintro q x ⟨hx, hlive, i, hi, hip⟩
    have hi' : i ∈ queue k q := hi
    rcases mem x hx with rfl | ⟨hxp, hx⟩
    · have hip' : some rp.pid = some i := (pidOf_of hrp).symm.trans hip
      rw [hpid] at hip'
      obtain rfl := Option.some.inj hip'
      exact absurd hi' (unqueued q)
    · refine ⟨hxp, hx, ?_, i, hi', (pids x hxp).symm.trans hip⟩
      rcases e.state x hxp with he | ⟨-, hlive', -⟩
      · exact he ▸ hlive
      · exact hlive'
  refine ⟨hl, h.lock, e.blocked.trans h.cursor, fun x hx r hr => ?_, fun x hx => ?_,
    fun x hx hi => ?_, fun x hx q hw hlive => ?_, h.units, h.nodup, fun q x hq => ?_,
    fun q y x hy hq => h.empty q y x hy (old hq).2, fun d q hd => by cases hd⟩
  · rcases mem x hx with rfl | ⟨hxp, hx⟩
    · obtain rfl := Option.some.inj (hrp.symm.trans hr)
      rcases hprio with hpr | hpr <;> rw [hpr] <;> decide
    · have hp := e.procs x hxp
      obtain ⟨r0, hr0⟩ := h.listed.record hx
      have hr' : s.procs x = some r := hr
      rw [hr0, hr'] at hp
      cases hp with
      | some hp =>
        have same : r.priority = r0.priority := hp.kept.priority
        rw [same]
        exact h.turns x hx r0 hr0
  · rcases mem x hx with rfl | ⟨hxp, hx⟩
    · exact .inl (by simp)
    · simpa [Function.update_of_ne hxp] using h.stacked x hx
  · rcases mem x hx with rfl | ⟨hxp, hx⟩
    · simp
    · simpa [Function.update_of_ne hxp] using h.idle x hx ((pids x hxp).symm.trans hi)
  · rcases mem x hx with rfl | ⟨hxp, hx⟩
    · rw [waitsp] at hw
      cases hw
    · rw [waits x hxp] at hw
      have same := states x hx (by simp [hw])
      change stateOf s x ≠ _ at hlive
      rw [same] at hlive
      exact (h.waiting x hx q hw hlive).imp same.trans id
  · obtain ⟨hxp, hq'⟩ := old hq
    obtain ⟨hw, hb⟩ := h.queued q x hq'
    exact ⟨(waits x hxp).trans hw, (states x hq'.listed (by simp [hw])).trans hb⟩

end

end BottlerOS.SemBooks
