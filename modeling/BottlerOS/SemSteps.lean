import BottlerOS.Library.Handoff
import BottlerOS.SemRuns

/-! The steps of a kernel whose processes all live. What a step does at a
semaphore is nothing, or one operation of a counting semaphore with direct
hand-off: the kernel refines it, with the events of the trace as operations. -/

namespace BottlerOS.SemSteps
open Machine Scheduler LinkedList ProcessList ProcessFields ProcessLinks Dispatch
open Semaphore SemCalls SemBooks SemRuns Kernel

/-- The values of an `unsigned int`. -/
def UINT_RANGE : Int := 4294967296

/-- The pid of the running process, if it has yet to take the unit it was handed. -/
def handedOver (k : Kernel) (sem : Ptr) : Option Int :=
  match k.sched.current with
  | .error _ => none
  | .ok (c, r) => if waitsOn k c = some sem then some r.pid else none

/-- A semaphore of the kernel as one with direct hand-off. -/
def view (k : Kernel) (sem : Ptr) : Option (Handoff.Sem Int) :=
  (k.sems sem).map fun x =>
    { units := x.value - if (handedOver k sem).isSome then 1 else 0
      waiting := x.entering
      handed := handedOver k sem }

/-- What an event is to a semaphore. -/
def opOf (sem : Ptr) : Event → Option (Handoff.Op Int)
  | .posted q => if q = sem then some .post else none
  | .taken q pid _ false => if q = sem then some (.take pid) else none
  | .taken q pid _ true => if q = sem then some (.finish pid) else none
  | .queued q pid => if q = sem then some (.join pid) else none
  | .opened _ => none
  | .wrote _ _ => none
  | .fetched _ _ _ => none

def history (k : Kernel) (sem : Ptr) : List (Handoff.Op Int) := k.trace.filterMap (opOf sem)

/-- The unit a `taken` event takes is there. -/
def Taken : Event → Prop
  | .taken _ _ value _ => 0 < value
  | _ => True

/-- Nothing happens at the semaphores, or one operation of one of them. -/
def Advances (k k' : Kernel) : Prop :=
  (k'.trace = k.trace ∧ ∀ sem, view k' sem = view k sem) ∨
    ∃ sem e op v v', k'.trace = k.trace ++ [e] ∧ Taken e ∧ opOf sem e = some op ∧
      view k sem = some v ∧ view k' sem = some v' ∧ Handoff.Step UINT_RANGE v op v' ∧
      ∀ q, q ≠ sem → opOf q e = none ∧ view k' q = view k q

/-- Kernel stacks without pipes: at most one call. -/
def Plain (k : Kernel) (nodes : List Ptr) : Prop :=
  ∀ p ∈ nodes, ∀ f rest, k.frames p = f :: rest → rest = [] ∧ ¬ PipeFrame f

/-- The processes inside `semWait` at a step, with the one that joins the queue and without the
one that is popped. -/
def Inside (k : Kernel) : Action → Ptr → Prop
  | .call (.semWait _ sem) _ _, p => waitsOn k p ≠ none ∨
      (k.sched.currentProcess = some p ∧ ∀ x, k.sems sem = some x → ¬ 0 < x.value)
  | .call (.semPost sem) _ _, p => waitsOn k p ≠ none ∧ pidOf k.sched p ≠ (queue k sem).head?
  | _, p => waitsOn k p ≠ none

/-- No sleep entry that ends at the clock `now` is of a process inside `semWait`. -/
def Rested (k : Kernel) (a : Action) (now : Int) : Prop :=
  ∀ e ∈ k.sched.firstSleep, expired now e → ∀ p, pidOf k.sched p = some e.pid → ¬ Inside k a p

/-- Across a step that neither makes nor reaps a process. -/
structure Follows (k : Kernel) (nodes : List Ptr) (k' : Kernel) (nodes' : List Ptr) : Prop where
  mem : ∀ p, p ∈ nodes' ↔ p ∈ nodes
  pidOf : ∀ p ∈ nodes, pidOf k'.sched p = pidOf k.sched p
  sleep : k'.sched.firstSleep ⊆ k.sched.firstSleep
  pids : k'.sched.pids = k.sched.pids
  resting : ∀ p ∈ nodes, Resting k.sched p → Resting k'.sched p

/-- Nobody is inside a system call, nobody sleeps, and nobody waits for a semaphore. -/
structure Quiet (k : Kernel) (nodes : List Ptr) (c : Ptr) : Prop where
  listed : Listed k.sched nodes
  lock : k.semLock = 0
  cursor : k.sched.firstBlockedIteration = none
  turns : ∀ p ∈ nodes, ∀ r, k.sched.procs p = some r → 0 ≤ r.priority ∧ r.priority ≤ MAX_PRIORITY
  live : ∀ p ∈ nodes, stateOf k.sched p ≠ some .dead
  current : k.sched.currentProcess = some c
  mem : c ∈ nodes
  ready : stateOf k.sched c = some .ready
  user : ∀ p, k.frames p = []
  values : ∀ sem x, k.sems sem = some x → 0 ≤ x.value ∧ x.value < UINT_RANGE ∧ x.entering = []
  sleepers : k.sched.firstSleep = []
  trace : k.trace = []

/-- Between two steps of processes that all live. -/
structure Calm (k : Kernel) (nodes : List Ptr) (c : Ptr) (pending : Option (Ptr × Ptr)) :
    Prop where
  steady : Steady k nodes c pending
  healthy : Healthy k nodes
  plain : Plain k nodes
  words : ∀ sem x, k.sems sem = some x → x.value < UINT_RANGE

section
variable {k k' k₁ : Kernel} {nodes nodes' : List Ptr} {pending : Option (Ptr × Ptr)}
  {sem q c d p : Ptr} {x : SemT} {pid : Int} {s s' : Sched} {fuel : Nat} {flow : Flow}

theorem handedOver_none (h : Steady k nodes c none) : handedOver k sem = none := by
  obtain ⟨r, hr⟩ := h.record
  simp only [handedOver, hr]
  refine if_neg fun hw => ?_
  have hb := (h.books.waiting c h.mem sem hw (by simp [h.ready])).resolve_right (by simp)
  rw [h.ready] at hb
  simp at hb

theorem handedOver_some (h : Steady k nodes c (some (d, q))) (hpid : pidOf k.sched d = some pid) :
    handedOver k sem = if sem = q then some pid else none := by
  obtain rfl := h.own d q rfl
  obtain ⟨r, hr⟩ := h.record
  obtain ⟨-, hw, -⟩ := h.books.handed d q rfl
  have hrp : r.pid = pid := by
    rw [pidOf_of (current_ok.mp hr).2] at hpid
    exact Option.some.inj hpid
  simp only [handedOver, hr, hw, hrp, Option.some.injEq, eq_comm]

theorem view_none (h : Steady k nodes c none) :
    view k sem = (k.sems sem).map fun x => ⟨x.value, x.entering, none⟩ := by
  simp [view, handedOver_none h]

theorem view_some (h : Steady k nodes c (some (d, q))) (hpid : pidOf k.sched d = some pid) :
    view k sem = (k.sems sem).map fun x =>
      if sem = q then ⟨x.value - 1, x.entering, some pid⟩ else ⟨x.value, x.entering, none⟩ := by
  by_cases hq : sem = q <;> simp [view, handedOver_some h hpid, hq]

theorem view_value {v : Handoff.Sem Int} (h : view k sem = some v) :
    ∃ x, k.sems sem = some x ∧ v.value = x.value := by
  obtain ⟨x, hx, rfl⟩ := Option.map_eq_some_iff.mp h
  exact ⟨x, hx, by simp only [Handoff.Sem.value]; omega⟩

/-- Steps outside the semaphores. -/
theorem Advances.silent (h : Steady k nodes c none) (h' : Steady k' nodes' d none)
    (sems : k'.sems = k.sems) (trace : k'.trace = k.trace) : Advances k k' :=
  .inl ⟨trace, fun sem => by rw [view_none h, view_none h', sems]⟩

/-- A semaphore is written, and one event is logged. -/
theorem Advances.one {op : Handoff.Op Int} {y : SemT} (sem : Ptr) (e : Event)
    (v v' : Handoff.Sem Int) (sems : k'.sems = Function.update k.sems sem (some y))
    (trace : k'.trace = k.trace ++ [e])
    (taken : Taken e) (own : opOf sem e = some op) (other : ∀ q, q ≠ sem → opOf q e = none)
    (hv : view k sem = some v) (hv' : view k' sem = some v')
    (step : Handoff.Step UINT_RANGE v op v')
    (handed : ∀ q, q ≠ sem → handedOver k' q = handedOver k q) : Advances k k' := by
  refine .inr ⟨sem, e, op, v, v', trace, taken, own, hv, hv', step, fun q hq =>
    ⟨other q hq, ?_⟩⟩
  rw [view, view, sems, Function.update_of_ne hq, handed q hq]

theorem Quiet.calm (h : Quiet k nodes c) : Calm k nodes c none := by
  have empty : ∀ sem, queue k sem = [] := by
    intro sem
    cases hx : k.sems sem with
    | none => simp [queue, hx]
    | some x => rw [queue_of hx, (h.values sem x hx).2.2]
  have unqueued : ∀ sem p, ¬ Queued k nodes sem p := by
    rintro sem p ⟨-, -, i, hi, -⟩
    rw [empty] at hi
    cases hi
  refine ⟨⟨⟨h.listed, h.lock, h.cursor, h.turns, fun p _ => .inl (h.user p), fun p _ _ => h.user p,
    fun p _ sem hw => ?_, fun sem x hx => (h.values sem x hx).1, fun sem => ?_,
    fun sem p hq => absurd hq (unqueued sem p), fun sem x p _ hq => absurd hq (unqueued sem p),
    fun d sem hd => by cases hd⟩, h.current, h.mem, h.ready, fun d sem hd => by cases hd⟩,
    ⟨h.live, fun sem i hi => ?_⟩, fun p _ f rest hf => ?_, fun sem x hx => (h.values sem x hx).2.1⟩
  · simp [waitsOn, h.user] at hw
  · rw [empty]
    exact List.nodup_nil
  · rw [empty] at hi
    cases hi
  · rw [h.user] at hf
    cases hf

/-- What has happened at each semaphore since `k₀` is a run of a semaphore with hand-off. -/
def Refines (k₀ k : Kernel) : Prop :=
  ∀ sem v, view k sem = some v → ∃ v₀, view k₀ sem = some v₀ ∧
    Handoff.Run UINT_RANGE v₀ (history k sem) v

theorem Refines.refl (h : Quiet k nodes c) : Refines k k := by
  intro sem v hv
  refine ⟨v, hv, ?_⟩
  rw [history, h.trace]
  exact .refl

theorem Advances.refines {k₀ : Kernel} (h : Advances k k') (r : Refines k₀ k) : Refines k₀ k' := by
  intro sem v hv
  rcases h with ⟨trace, views⟩ | ⟨q, e, op, u, u', trace, -, own, hu, hu', step, other⟩
  · rw [views] at hv
    rw [history, trace]
    exact r sem v hv
  · by_cases hq : sem = q
    · subst hq
      obtain ⟨v₀, hv₀, run⟩ := r sem u hu
      obtain rfl := Option.some.inj (hu'.symm.trans hv)
      refine ⟨v₀, hv₀, ?_⟩
      rw [history, trace, List.filterMap_append]
      simpa [own, history] using run.step step
    · obtain ⟨none, same⟩ := other sem hq
      rw [same] at hv
      rw [history, trace, List.filterMap_append]
      simpa [none, history] using r sem v hv

theorem Advances.taken (h : Advances k k') (r : ∀ e ∈ k.trace, Taken e) :
    ∀ e ∈ k'.trace, Taken e := by
  rcases h with ⟨trace, -⟩ | ⟨q, e, op, u, u', trace, taken, -⟩
  · rw [trace]
    exact r
  · rw [trace]
    intro e' he
    rcases List.mem_append.mp he with he | he
    · exact r e' he
    · rw [List.mem_singleton.mp he]
      exact taken

theorem Plain.of_frames (h : Plain k nodes)
    (frames : ∀ p ∈ nodes', (p ∈ nodes ∧ k'.frames p = k.frames p) ∨ k'.frames p = [] ∨
      ∃ f, k'.frames p = [f] ∧ ¬ PipeFrame f) : Plain k' nodes' := by
  intro p hp f rest hf
  rcases frames p hp with ⟨hn, e⟩ | e | ⟨g, e, hg⟩
  · exact h p hn f rest (e ▸ hf)
  · rw [e] at hf
    cases hf
  · rw [e] at hf
    obtain ⟨rfl, rfl⟩ := List.cons.inj hf
    exact ⟨rfl, hg⟩

/-- The timer handler has nothing to do with the semaphores. -/
theorem Landed.tables (h : Landed k nodes k' nodes') :
    k'.sems = k.sems ∧ k'.trace = k.trace ∧ k'.frames = k.frames ∧ k'.firstSem = k.firstSem := by
  rw [h.kernel]
  exact ⟨rfl, rfl, rfl, rfl⟩

/-- The end of a call that leaves the semaphores alone. -/
theorem Result.calm {now : Int} {rsp : Nat} (h : Calm k nodes c pending) (user : k.frames c = [])
    (res : Result k nodes k₁ nodes' c flow) (sems : k₁.sems = k.sems) (trace : k₁.trace = k.trace)
    (frames : ∀ p ∈ nodes', (p ∈ nodes ∧ k₁.frames p = k.frames p) ∨ k₁.frames p = [])
    (out : SleepersOut k₁ nodes' none now) (run : leave fuel now rsp c (flow, k₁) = .ok k') :
    ∃ nodes'' c', Calm k' nodes'' c' none ∧ Advances k k' ∧ Landed k₁ nodes' k' nodes'' := by
  obtain ⟨nodes'', c', st, landed⟩ := res.outcome.leave out run
  obtain ⟨hs, ht, hf, -⟩ := Landed.tables landed
  refine ⟨nodes'', c', ⟨st, (landed.healthy (res.healthy h.healthy)).1, ?_,
    by rw [hs, sems]; exact h.words⟩,
    .silent (h.steady.running user).steady st (hs.trans sems) (ht.trans trace), landed⟩
  refine h.plain.of_frames fun p hp => ?_
  rw [hf]
  exact (frames p (landed.sublist.subset hp)).imp_right .inl

theorem Follows.trans {nodes₁ : List Ptr} (h : Follows k nodes k₁ nodes₁)
    (h' : Follows k₁ nodes₁ k' nodes') : Follows k nodes k' nodes' where
  mem p := (h'.mem p).trans (h.mem p)
  pidOf p hp := (h'.pidOf p ((h.mem p).mpr hp)).trans (h.pidOf p hp)
  sleep := List.Subset.trans h'.sleep h.sleep
  pids := h'.pids.trans h.pids
  resting p hp hr := h'.resting p ((h.mem p).mpr hp) (h.resting p hp hr)

theorem Follows.of_shuffled {A B : Ptr → Prop} (mem : ∀ p, p ∈ nodes' ↔ p ∈ nodes)
    (t : Shuffled A B k.sched k'.sched) : Follows k nodes k' nodes' where
  mem := mem
  pidOf _ _ := t.pidOf_eq
  sleep := by rw [t.sleep]; exact List.Subset.refl _
  pids := t.pids
  resting p _ hr := hr.of_rel (by
    have h := t.procs p
    generalize k.sched.procs p = a at *
    generalize k'.sched.procs p = b at *
    cases h with
    | none => exact .none
    | some h => exact .some h)

theorem Follows.of_landed (h : Landed k nodes k' nodes') (healthy : Healthy k nodes) :
    Follows k nodes k' nodes' where
  mem p := by rw [(h.healthy healthy).2]
  pidOf p hp := h.pidOf p ((h.healthy healthy).2 ▸ hp)
  sleep := h.sleep.subset
  pids := h.pids
  resting p hp := h.resting p ((h.healthy healthy).2 ▸ hp)

theorem words_update {y : SemT} (h : ∀ q x, k.sems q = some x → x.value < UINT_RANGE)
    (sems : k'.sems = Function.update k.sems sem (some y)) (hy : y.value < UINT_RANGE) :
    ∀ q x, k'.sems q = some x → x.value < UINT_RANGE := by
  intro q z hz
  rw [sems, Function.update_apply] at hz
  split at hz
  · obtain rfl := Option.some.inj hz
    exact hy
  · exact h q z hz

/-- Everybody who is queued lives: a semaphore without waiters has an empty queue. -/
theorem Healthy.alone (h : Healthy k nodes) (hx : k.sems sem = some x)
    (alone : ∀ p, ¬ Queued k nodes sem p) : x.entering = [] := by
  cases hq : x.entering with
  | nil => rfl
  | cons pid rest =>
    have hi : pid ∈ queue k sem := by simp [queue_of hx, hq]
    obtain ⟨p, hp, he⟩ := h.entries sem pid hi
    exact absurd ⟨hp, h.live p hp, pid, hi, he⟩ (alone p)

/-- `semWait` takes a free unit, or it queues its caller last and leaves it BLOCKED. -/
theorem semWait_calm {m : Option Ptr} {now : Int} {rsp : Nat} (h : Calm k nodes c pending)
    (user : k.frames c = []) (busy : ¬ IsIdle k.sched c)
    (out : Rested k (.call (.semWait m sem) now rsp) now)
    (run : Semaphore.semWait fuel m sem k = .ok (flow, k₁))
    (run' : leave fuel now rsp c (flow, k₁) = .ok k') :
    ∃ nodes' c', Calm k' nodes' c' none ∧ Advances k k' ∧ Follows k nodes k' nodes' ∧
      ∃ x pid, k.sems sem = some x ∧ pidOf k.sched c = some pid ∧
        ((0 < x.value ∧ k' = taking sem x pid false k) ∨
        (x.value = 0 ∧ stateOf k'.sched c = some .blocked ∧
          k' = { joining sem x pid k with
            sched := k'.sched, frames := Function.update k.frames c [.semWait sem] })) := by
  have r := h.steady.running user
  obtain ⟨x, pid, hx, hpid, ⟨hv, rfl, rfl, r₁⟩ | ⟨hv, rfl, s, rfl, -, t, sw⟩⟩ :=
    semWait_running r busy run
  · obtain rfl := Except.ok.inj run'
    have bound : uint32 (x.value - 1) = x.value - 1 := by
      have hw := h.words sem x hx
      exact uint32_of_range (by omega) (by simp only [UINT_RANGE] at hw; omega)
    have still : Follows k nodes (taking sem x pid false k) nodes :=
      .of_shuffled (fun _ => Iff.rfl) (.of_touched (Touched.refl (A := fun _ => False)
        (B := fun _ => False) k.sched))
    refine ⟨nodes, c, ⟨r₁.steady, ⟨h.healthy.live, fun q i hi => ?_⟩, h.plain,
      words_update h.words rfl (uint32_lt _)⟩, ?_, still, x, pid, hx, hpid, .inl ⟨hv, rfl⟩⟩
    · rw [queue_taking false hx] at hi
      exact h.healthy.entries q i hi
    · refine .one sem _ ⟨x.value, x.entering, none⟩ ⟨x.value - 1, x.entering, none⟩ rfl rfl hv
        (if_pos rfl) (fun q hq => if_neg (Ne.symm hq)) ?_ ?_ (.take hv) (fun q hq => rfl)
      · simp [view_none r.steady, hx]
      · rw [view_none r₁.steady]
        simp [taking, bound]
  · obtain ⟨sw, healthy⟩ := sw [] (by simp)
    have healthy₁ := healthy h.healthy
    -- the joining process is inside, and so are those who were
    have out' : SleepersOut (saved { joining sem x pid k with sched := s } c [.semWait sem]) nodes
        none now := by
      intro e he hx' p hp hip
      have hin := out e (t.sleep ▸ he) hx' p (t.pidOf_eq.symm.trans hip)
      simp only [Inside, not_or, not_not] at hin
      have hpc : p ≠ c := by
        rintro rfl
        refine hin.2 ⟨h.steady.current, fun y hy => ?_⟩
        obtain rfl := Option.some.inj (hx.symm.trans hy)
        omega
      exact .inl ((waitsOn_saved hpc).trans hin.1)
    obtain ⟨nodes', c', st, landed, -⟩ := sw.timer out' run'
    obtain ⟨hs, htr, hf, -⟩ := Landed.tables landed
    obtain ⟨hh, same⟩ := landed.healthy healthy₁
    have first : Follows k nodes (saved { joining sem x pid k with sched := s } c [.semWait sem])
        nodes := .of_shuffled (fun _ => Iff.rfl) (.of_touched t)
    have waits : waitsOn k' c = some sem := by simp [waitsOn, hf]
    refine ⟨nodes', c', ⟨st, hh, ?_, words_update h.words hs (h.words sem x hx)⟩, ?_,
      first.trans (.of_landed landed healthy₁), x, pid, hx, hpid, .inr ⟨hv, ?_, landed.kernel⟩⟩
    · refine h.plain.of_frames fun p hp => ?_
      rw [hf]
      by_cases hpc : p = c
      · exact .inr (.inr ⟨.semWait sem, by simp [hpc], fun h => h⟩)
      · exact .inl ⟨same ▸ hp, Function.update_of_ne hpc _ _⟩
    · refine .one sem (.queued sem pid) ⟨0, x.entering, none⟩ ⟨0, x.entering ++ [pid], none⟩ hs htr
        trivial (if_pos rfl) (fun q hq => if_neg (Ne.symm hq)) ?_ ?_ .join fun q hq => ?_
      · simp [view_none r.steady, hx, hv]
      · rw [view_none st, hs]
        simp [joining, hv]
      · rw [handedOver_none st, handedOver_none r.steady]
    · have hn : c ∈ nodes' := same ▸ h.steady.mem
      exact (st.books.waiting c hn sem waits (hh.live c hn)).resolve_right (by simp)

/-- `semPost` gives a unit nobody waits for, or the head of the queue runs next to take it. -/
theorem semPost_calm {now : Int} {rsp : Nat} (h : Calm k nodes c pending)
    (user : k.frames c = []) (busy : ¬ IsIdle k.sched c)
    (out : Rested k (.call (.semPost sem) now rsp) now)
    (run : Semaphore.semPost fuel sem k = .ok (flow, k₁))
    (run' : leave fuel now rsp c (flow, k₁) = .ok k') :
    ∃ nodes' c' pending', Calm k' nodes' c' pending' ∧ Advances k k' ∧
      Follows k nodes k' nodes' ∧ ∃ x, k.sems sem = some x ∧
        ((x.entering = [] ∧ k' = giving sem x [] k) ∨
        ∃ pid rest, x.entering = pid :: rest ∧ x.value = 0 ∧ pending' = some (c', sem) ∧
          pidOf k.sched c' = some pid ∧ k.frames c' = [.semWait sem] ∧
          k' = { giving sem x rest k with
            sched := k'.sched, frames := Function.update k.frames c [.semPost] }) := by
  have r := h.steady.running user
  obtain ⟨x, hx, ⟨rest, -, rfl, rfl, alone, hrest, r₁⟩ |
      ⟨pid, rest, d, s, hq, hv, rfl, hd, hpid, hwd, -, rfl, t, -, sw⟩⟩ :=
    semPost_running r busy h.healthy.headLive run
  · obtain rfl := Except.ok.inj run'
    have empty := Healthy.alone h.healthy hx alone
    obtain rfl : rest = [] := by rw [hrest, empty, List.tail_nil]
    have still : Follows k nodes (giving sem x [] k) nodes :=
      .of_shuffled (fun _ => Iff.rfl) (.of_touched (Touched.refl (A := fun _ => False)
        (B := fun _ => False) k.sched))
    refine ⟨nodes, c, none, ⟨r₁.steady, h.healthy.giving hx (List.nil_sublist _), h.plain,
      words_update h.words rfl (uint32_lt _)⟩, ?_, still, x, hx, .inl ⟨empty, rfl⟩⟩
    refine .one sem (.posted sem) ⟨x.value, [], none⟩ ⟨uint32 (x.value + 1), [], none⟩ rfl rfl
      trivial (if_pos rfl) (fun q hq => if_neg (Ne.symm hq)) ?_ ?_ .post (fun q hq => rfl)
    · simp [view_none r.steady, hx, empty]
    · rw [view_none r₁.steady]
      simp [giving]
  · obtain ⟨nodes₁, mem, sw, healthy⟩ := sw [] (by simp)
    have healthy₁ := healthy h.healthy
    have hdc : d ≠ c := by
      rintro rfl
      rw [r.not_waiting] at hwd
      cases hwd
    have out' : SleepersOut (saved { giving sem x rest k with sched := s } c [.semPost]) nodes₁
        (some (d, sem)) now := by
      intro e he hx' p hp hip
      have hip' : pidOf k.sched p = some e.pid := t.pidOf_eq.symm.trans hip
      have hin := out e (t.sleep ▸ he) hx' p hip'
      simp only [Inside, not_and, not_not] at hin
      by_cases hpc : p = c
      · left
        simp [waitsOn, hpc]
      · by_cases hw : waitsOn k p = none
        · exact .inl ((waitsOn_saved hpc).trans hw)
        · right
          have head : pidOf k.sched p = some pid := by
            rw [hin hw, queue_of hx, hq]
            rfl
          rw [h.steady.books.listed.pid_inj ((mem p).mp hp) hd (head.trans hpid.symm)]
          exact ⟨sem, rfl⟩
    obtain ⟨nodes', c', st, landed, next⟩ := sw.timer out' run'
    obtain rfl := (next d sem rfl).symm
    obtain ⟨hs, htr, hf, -⟩ := Landed.tables landed
    obtain ⟨hh, same⟩ := landed.healthy healthy₁
    have first : Follows k nodes (saved { giving sem x rest k with sched := s } c [.semPost])
        nodes₁ := .of_shuffled mem t
    have hfd : k.frames d = [.semWait sem] := by
      unfold waitsOn at hwd
      split at hwd <;> rename_i hfd
      · obtain rfl := Option.some.inj hwd
        rw [hfd, (h.plain d hd _ _ hfd).1]
      · cases hwd
    have follows := first.trans (.of_landed landed healthy₁)
    refine ⟨nodes', d, some (d, sem), ⟨st, hh, ?_, words_update h.words hs (uint32_lt _)⟩, ?_,
      follows, x, hx, .inr ⟨pid, rest, hq, hv, rfl, hpid, hfd, landed.kernel⟩⟩
    · refine h.plain.of_frames fun p hp => ?_
      rw [hf]
      by_cases hpc : p = c
      · exact .inr (.inr ⟨.semPost, by simp [hpc], fun h => h⟩)
      · exact .inl ⟨(follows.mem p).mp hp, Function.update_of_ne hpc _ _⟩
    · have hpid' : pidOf k'.sched d = some pid := (follows.pidOf d hd).trans hpid
      refine .one sem (.posted sem) ⟨0, pid :: rest, none⟩ ⟨0, rest, some pid⟩ hs htr
        trivial (if_pos rfl) (fun q hq => if_neg (Ne.symm hq)) ?_ ?_ .hand fun q hq => ?_
      · simp [view_none r.steady, hx, hv, hq]
      · rw [view_some st hpid', hs]
        simp [giving, hv, uint32]
      · rw [handedOver_some st hpid', handedOver_none r.steady, if_neg hq]

/-- How the rest of a call ends: `semWait` takes the unit that was handed over, `semPost`
returns. -/
def Resumed (k : Kernel) (c : Ptr) (pending : Option (Ptr × Ptr)) (f : Frame) (k' : Kernel) :
    Prop :=
  (f = .semPost ∧ pending = none ∧ k' = saved k c []) ∨
    ∃ sem x pid, f = .semWait sem ∧ pending = some (c, sem) ∧ k.sems sem = some x ∧
      x.value = 1 ∧ pidOf k.sched c = some pid ∧ k' = saved (taking sem x pid true k) c []

theorem runFrame_cases (h : Steady k nodes c pending) {f : Frame} (simple : ¬ PipeFrame f)
    (frames : k.frames c = [f]) (run : runFrames fuel [f] (saved k c []) = .ok (flow, k₁)) :
    flow = .ret ∧ Running k₁ nodes c ∧ (Healthy k nodes → Healthy k₁ nodes) ∧
      Resumed k c pending f k₁ := by
  obtain ⟨⟨flow₁, k₂⟩, h₁, run₁⟩ := bind_ok.mp run
  cases f with
  | semWait sem =>
    obtain ⟨x, pid, rfl, hx, hpid, hone, rfl, rfl, r, healthy⟩ :=
      semWaitBlocked_running h frames h₁
    obtain ⟨rfl, rfl⟩ := Prod.mk.inj (Except.ok.inj run₁)
    exact ⟨rfl, r, healthy, .inr ⟨sem, x, pid, rfl, rfl, hx, hone, hpid, rfl⟩⟩
  | semPost =>
    obtain ⟨rfl, -, rfl⟩ := semPostUnblocked_cases h₁
    obtain ⟨rfl, rfl⟩ := Prod.mk.inj (Except.ok.inj run₁)
    have hw : waitsOn k c = none := by simp [waitsOn, frames]
    have hnone : pending = none := by
      cases pending with
      | none => rfl
      | some q =>
        obtain ⟨d, sem⟩ := q
        obtain rfl := h.own d sem rfl
        obtain ⟨-, hwd, -⟩ := h.books.handed d sem rfl
        rw [hw] at hwd
        cases hwd
    subst hnone
    exact ⟨rfl, ⟨books_saved h.books hw (.inl rfl) (by simp [waitsOn]) (fun _ => rfl), h.current,
      h.mem, h.ready, Function.update_self _ _ _⟩,
      fun healthy => ⟨healthy.live, healthy.entries⟩, .inl ⟨rfl, rfl, rfl⟩⟩
  | writeWaited node c => exact absurd trivial simple
  | writePosted node => exact absurd trivial simple
  | readFull node m => exact absurd trivial simple
  | readWaited node => exact absurd trivial simple
  | readPosted c => exact absurd trivial simple
  | closeWaited del prev => exact absurd trivial simple

theorem not_idle {r : ProcessCDT} (hr : k.sched.current = .ok (c, r)) (other : r.pid ≠ IDLE_PID) :
    ¬ IsIdle k.sched c := by
  intro hi
  rw [IsIdle, pidOf_of (current_ok.mp hr).2] at hi
  exact other (Option.some.inj hi)

/-- A system call: of a process in user mode that is not idle. -/
theorem call_cases {call : Call} {now : Int} {rsp : Nat} (st : Steady k nodes c pending)
    (step : Step k (.call call now rsp) k') : ¬ IsIdle k.sched c ∧ k.frames c = [] ∧
      ∃ fuel flow k₁, invoke fuel k call = .ok (flow, k₁) ∧
        leave fuel now rsp c (flow, k₁) = .ok k' := by
  obtain ⟨en, fuel, run⟩ := step
  obtain ⟨r, hr⟩ := st.record
  unfold Enabled at en
  rw [hr] at en
  obtain ⟨c', hc', run₁⟩ := bind_ok.mp run
  obtain rfl := Option.some.inj (st.current.symm.trans (deref_ok.mp hc'))
  obtain ⟨⟨flow, k₁⟩, h₁, run₂⟩ := bind_ok.mp run₁
  exact ⟨not_idle hr en.2, en.1, fuel, flow, k₁, h₁, run₂⟩

/-- A timer interrupt. -/
theorem tick_cases {now : Int} {rsp : Nat} (h : Steady k nodes c pending)
    (out : SleepersOut k nodes none now) (step : Step k (.tick now rsp) k') :
    k.frames c = [] ∧ ∃ nodes' c', Steady k' nodes' c' none ∧ Landed k nodes k' nodes' := by
  obtain ⟨en, fuel, run⟩ := step
  obtain ⟨r, hr⟩ := h.record
  unfold Enabled at en
  rw [hr] at en
  have r := h.running en
  have sw : Switching k nodes c none :=
    ⟨r.books, r.current, r.mem, fun d sem hd => by cases hd⟩
  obtain ⟨nodes', c', st, landed, -⟩ := sw.timer out run
  exact ⟨en, nodes', c', st, landed⟩

theorem tick_calm {now : Int} {rsp : Nat} (h : Calm k nodes c pending)
    (out : SleepersOut k nodes none now) (step : Step k (.tick now rsp) k') :
    ∃ nodes' c', Calm k' nodes' c' none ∧ Advances k k' ∧ Landed k nodes k' nodes' := by
  obtain ⟨user, nodes', c', st, landed⟩ := tick_cases h.steady out step
  obtain ⟨hs, ht, hf, -⟩ := Landed.tables landed
  refine ⟨nodes', c', ⟨st, (landed.healthy h.healthy).1, ?_, ?_⟩,
    .silent (h.steady.running user).steady st hs ht, landed⟩
  · exact h.plain.of_frames fun p hp => .inl ⟨landed.sublist.subset hp, by rw [hf]⟩
  · rw [hs]
    exact h.words

/-- The rest of a call. -/
theorem resume_cases {now : Int} {rsp : Nat} (h : Steady k nodes c pending) (plain : Plain k nodes)
    (step : Step k (.resume now rsp) k') :
    ∃ f, k.frames c = [f] ∧ Running k' nodes c ∧ (Healthy k nodes → Healthy k' nodes) ∧
      Resumed k c pending f k' := by
  obtain ⟨en, fuel, run⟩ := step
  obtain ⟨r, hr⟩ := h.record
  unfold Enabled at en
  rw [hr] at en
  obtain ⟨c', hc', run⟩ := bind_ok.mp run
  obtain rfl := Option.some.inj (h.current.symm.trans (deref_ok.mp hc'))
  obtain ⟨⟨flow, k₁⟩, run, run'⟩ := bind_ok.mp run
  cases hf : k.frames c with
  | nil => exact absurd hf en
  | cons f rest =>
  obtain ⟨rfl, simple⟩ := plain c h.mem f rest hf
  rw [hf] at run
  obtain ⟨rfl, res⟩ := runFrame_cases h simple hf run
  obtain rfl := Except.ok.inj run'
  exact ⟨f, rfl, res⟩

theorem Resumed.frames {f : Frame} (h : Resumed k c pending f k') :
    k'.frames = Function.update k.frames c [] := by
  rcases h with ⟨-, -, rfl⟩ | ⟨sem, x, pid, -, -, -, -, -, rfl⟩ <;> rfl

theorem resume_calm {now : Int} {rsp : Nat} (h : Calm k nodes c pending)
    (step : Step k (.resume now rsp) k') :
    ∃ f, k.frames c = [f] ∧ Calm k' nodes c none ∧ Advances k k' ∧ Follows k nodes k' nodes ∧
      Resumed k c pending f k' := by
  obtain ⟨f, frames, r, healthy, res⟩ := resume_cases h.steady h.plain step
  have plain : Plain k' nodes := by
    refine h.plain.of_frames fun p hp => ?_
    rw [res.frames]
    by_cases hpc : p = c
    · exact .inr (.inl (by simp [hpc]))
    · exact .inl ⟨hp, Function.update_of_ne hpc _ _⟩
  have still : k'.sched = k.sched → Follows k nodes k' nodes := fun hs =>
    .of_shuffled (A := fun _ => False) (B := fun _ => False) (fun _ => Iff.rfl)
      (by rw [hs]; exact .of_touched (Touched.refl _))
  refine ⟨f, frames, ?_⟩
  have res' := res
  rcases res with ⟨rfl, rfl, rfl⟩ | ⟨sem, x, pid, rfl, rfl, hx, hone, hpid, rfl⟩
  · exact ⟨⟨r.steady, healthy h.healthy, plain, h.words⟩, .silent h.steady r.steady rfl rfl,
      still rfl, res'⟩
  · refine ⟨⟨r.steady, healthy h.healthy, plain, words_update h.words rfl (uint32_lt _)⟩, ?_,
      still rfl, res'⟩
    refine .one sem (.taken sem pid x.value true) ⟨0, x.entering, some pid⟩ ⟨0, x.entering, none⟩
      rfl rfl (by simp [Taken, hone]) (if_pos rfl) (fun q hq => if_neg (Ne.symm hq)) ?_ ?_ .finish
      fun q hq => ?_
    · simp [view_some h.steady hpid, hx, hone]
    · rw [view_none r.steady]
      simp [taking, hone, uint32]
    · rw [handedOver_some h.steady hpid, handedOver_none r.steady, if_neg hq]

end

/-- Idle is asleep, 2 runs, 3 is READY, and there is a semaphore without units. -/
def parlour : Kernel :=
  let idle : ProcessCDT :=
    { next := some 32, name := 0, pid := IDLE_PID, ppid := 0, rsp := 4096, rbp := 8192
      priority := 39, executions := 0, foreground := 0, state := .blocked, fd := 0
      children := 0, backWait := 0, bPointer := 0 }
  let two : ProcessCDT :=
    { idle with next := some 48, pid := 2, rsp := 12288, priority := 20, state := .ready }
  let three : ProcessCDT := { two with next := none, pid := 3, ppid := 2 }
  { sched := { Scheduler.reset with
      procs := fun p => if p = 16 then some idle else if p = 32 then some two else
        if p = 48 then some three else none
      firstProcess := some 16, lastProcess := some 48, currentProcess := some 32
      idleFlag := 0, pids := 4 }
    semLock := 0, sems := fun p => if p = 64 then some ⟨0, "s", []⟩ else none, firstSem := [64]
    pipes := fun _ => none, firstPipe := [], fdIndex := 2, frames := fun _ => [], trace := [] }

theorem parlour_quiet : Quiet parlour [16, 32, 48] 32 where
  listed := ⟨⟨rfl, some 32, rfl, rfl, some 48, rfl, rfl, none, rfl, rfl⟩, by decide, rfl⟩
  lock := rfl
  cursor := rfl
  turns p hp r hr := by
    simp only [List.mem_cons, List.not_mem_nil, or_false] at hp
    rcases hp with rfl | rfl | rfl <;> obtain rfl := Option.some.inj hr <;> decide
  live := by decide
  current := rfl
  mem := by decide
  ready := rfl
  user _ := rfl
  values sem x hx := by
    simp only [parlour] at hx
    split at hx
    · obtain rfl := Option.some.inj hx
      decide
    · cases hx
  sleepers := rfl
  trace := rfl

end BottlerOS.SemSteps
