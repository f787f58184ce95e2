import BottlerOS.Effects
import BottlerOS.Fuel
import BottlerOS.RoundRobin

/-! How long a turn lasts. `executions` counts the dispatches of a turn, and the turn is over
when it equals `MAX_PRIORITY - priority`: a test for equality, so a count above the bound runs
on until the `char` wraps. -/

namespace BottlerOS.Quantum
open Machine Scheduler LinkedList ProcessList ProcessFields ProcessLinks Dispatch
open SchedCalls SchedRuns Turns Effects

/-- The count is within the turn; only who is `running` may have used it up. -/
structure Measured (running : Prop) (r : ProcessCDT) : Prop where
  low : 0 ≤ r.priority
  high : r.priority < MAX_PRIORITY
  started : 0 ≤ r.executions
  within : r.executions < MAX_PRIORITY - r.priority ∨
    (running ∧ r.state = .ready ∧ r.executions = MAX_PRIORITY - r.priority)

/-- Every record that is not DEAD. -/
def Paced (s : Sched) : Prop :=
  ∀ p r, s.procs p = some r → r.state ≠ .dead → Measured (s.currentProcess = some p) r

/-- The same when no turn is used up. -/
def Fresh (s : Sched) : Prop := ∀ p r, s.procs p = some r → r.state ≠ .dead → Measured False r

/-- The new bound is not below the count of a process that is not DEAD. -/
def NiceFits (s : Sched) (pid offset : Int) : Prop := -20 ≤ offset → offset < 20 →
  ∀ p r, s.procs p = some r → r.pid = pid → r.state ≠ .dead →
    r.executions < MAX_PRIORITY - (offset + 20) ∨
      (s.currentProcess = some p ∧ r.state = .ready ∧ r.executions = MAX_PRIORITY - (offset + 20))

/-- Who waits for a child has not used up its turn: a turn ends only when its process is READY. -/
def WaitFits (s : Sched) : Prop := ∀ c r, s.current = .ok (c, r) → r.children ≠ 0 →
  r.executions ≠ MAX_PRIORITY - r.priority

/-- Who is unblocked first is not the running process, which would leave the list. -/
def FirstFits (s : Sched) (pid : Int) : Prop := ∀ c r, s.current = .ok (c, r) → r.pid ≠ pid

def Fits (s : Sched) : Op → Prop
  | .nice pid offset => NiceFits s pid offset
  | .wait => WaitFits s
  | .unblockFirst pid => FirstFits s pid
  | _ => True

section
variable {s s' t : Sched} {nodes nodes' : List Ptr} {fuel steps rsp v : Nat} {c p : Ptr} {pid : Int}
  {a b r rc : ProcessCDT} {x : Exit} {f : Ptr → ProcessCDT → ProcessCDT} {running after : Prop}

theorem Measured.waits (h : Measured running r) (n : ¬ running) :
    r.executions < MAX_PRIORITY - r.priority := h.within.resolve_right fun m => n m.1

/-- A turn that is not used up may become anybody's. -/
theorem Measured.move (h : Measured running a) (room : a.executions < MAX_PRIORITY - a.priority)
    (priority : b.priority = a.priority) (executions : b.executions = a.executions) :
    Measured after b := by
  refine ⟨priority ▸ h.low, priority ▸ h.high, executions ▸ h.started, .inl ?_⟩
  rw [priority, executions]
  exact room

theorem Measured.like (h : Measured running a) (like : Like a b) : Measured running b := by
  refine ⟨like.2.1 ▸ h.low, like.2.1 ▸ h.high, like.2.2 ▸ h.started, ?_⟩
  rw [like.1, like.2.1, like.2.2]
  exact h.within

theorem Measured.reset (h : Measured running a) (priority : b.priority = a.priority)
    (zero : b.executions = 0) : Measured after b := by
  refine ⟨priority ▸ h.low, priority ▸ h.high, zero ▸ Int.le_refl 0, .inl ?_⟩
  have high := h.high
  rw [priority, zero]
  omega

/-- The turn of the running process is used up at once. -/
theorem Measured.used (h : Measured running a) (own : after) (state : b.state = .ready)
    (priority : b.priority = a.priority) (all : b.executions = char (MAX_PRIORITY - a.priority)) :
    Measured after b := by
  have low := h.low
  have high := h.high
  have count : b.executions = MAX_PRIORITY - a.priority := by
    rw [all]
    simp only [MAX_PRIORITY] at high ⊢
    exact char_of_range (by omega) (by omega)
  refine ⟨priority ▸ low, priority ▸ high, ?_, .inr ⟨own, state, ?_⟩⟩
  · rw [count]
    omega
  · rw [count, priority]

/-- Rewritten records, each of which stays within its turn. -/
theorem Edited.paced (k : Edited f s t) (h : Paced s)
    (current : t.currentProcess = s.currentProcess)
    (one : ∀ p a, s.procs p = some a → (f p a).state ≠ .dead → a.state ≠ .dead ∧
      (Measured (s.currentProcess = some p) a → Measured (s.currentProcess = some p) (f p a))) :
    Paced t := by
  intro p b hb alive
  obtain ⟨a, ha, same⟩ := k.old hb
  have like := Like.bare same
  rw [like.1] at alive
  obtain ⟨alive', keep⟩ := one p a ha alive
  rw [current]
  exact (keep (h p a ha alive')).like like

/-- One record is written. -/
theorem put_paced (h : Paced s) (one : a.state ≠ .dead → Measured (s.currentProcess = some p) a) :
    Paced (s.put p a) := by
  intro q b hb alive
  rw [put_procs] at hb
  split at hb <;> rename_i hq
  · obtain rfl := Option.some.inj hb
    rw [hq]
    exact one alive
  · exact h q b hb alive

/-- Who gets another state keeps its count. -/
theorem upon_setState (st : States) (d p : Ptr) (a : ProcessCDT) :
    (upon d (setState st) p a).priority = a.priority ∧
      (upon d (setState st) p a).executions = a.executions := by
  unfold upon
  split <;> exact ⟨rfl, rfl⟩

theorem block_paced (hs : Sound s nodes) (h : Paced s)
    (current : t.currentProcess = s.currentProcess)
    (run : block fuel pid s = .ok (x, t)) : Paced t := by
  rcases block_exact hs.listed run with ⟨-, rfl, -⟩ | ⟨d, rd, c, rc, hd, hrd, alive, hc, -, k⟩
  · exact h
  obtain ⟨hcur, hrc⟩ := current_ok.mp hc
  refine Edited.paced k.edited h current fun p a ha alive' => ?_
  have outer : ∀ b, (if pid = rc.pid then upon c (setExecutions 0) p else id) b =
      if pid = rc.pid ∧ p = c then setExecutions 0 b else b := by
    intro b
    unfold upon
    split_ifs <;> grind
  rw [outer] at alive' ⊢
  have like : Like (upon d (setState .blocked) p a)
      (onParent give s nodes rd p (upon d (setState .blocked) p a)) := like_onParent like_give p _
  obtain ⟨priority, executions⟩ := upon_setState .blocked d p a
  have alive₀ : a.state ≠ .dead := by
    by_cases hpd : p = d
    · rw [hpd, hrd] at ha
      exact Option.some.inj ha ▸ alive
    · rw [← ((like_upon a hpd).trans like).1]
      split at alive' <;> exact alive'
  refine ⟨alive₀, fun m => ?_⟩
  by_cases turn : pid = rc.pid ∧ p = c
  · rw [if_pos turn]
    exact m.reset (like.2.1.trans priority) rfl
  · rw [if_neg turn]
    by_cases hpd : p = d
    · -- the current process blocks itself in a turn of its own
      have waits : s.currentProcess ≠ some p := by
        intro e
        obtain rfl := Option.some.inj (hcur.symm.trans e)
        refine turn ⟨?_, rfl⟩
        have hp := hd.2
        rw [← hpd, pidOf_of hrc] at hp
        exact (Option.some.inj hp).symm
      exact m.move (m.waits waits) (like.2.1.trans priority) (like.2.2.trans executions)
    · exact m.like ((like_upon a hpd).trans like)

theorem unblock_paced (hs : Sound s nodes) (h : Paced s)
    (current : t.currentProcess = s.currentProcess) (run : unblock fuel pid s = .ok (x, t)) :
    Paced t := by
  rcases unblock_exact hs.listed run with ⟨rfl, -⟩ | ⟨d, rd, hd, hrd, alive, k⟩
  · exact h
  refine Edited.paced k.edited h current fun p a ha alive' => ?_
  have like : Like (upon d (setState .ready) p a)
      (onParent take s nodes rd p (upon d (setState .ready) p a)) := like_onParent like_take p _
  by_cases hpd : p = d
  · subst hpd
    obtain rfl := Option.some.inj (ha.symm.trans hrd)
    refine ⟨alive, fun m => Measured.like ?_ like⟩
    rw [upon, if_pos rfl]
    exact ⟨m.low, m.high, m.started, m.within.imp_right fun ⟨own, _, all⟩ => ⟨own, rfl, all⟩⟩
  · have like' := (like_upon a hpd).trans like
    exact ⟨by rw [← like'.1]; exact alive', fun m => m.like like'⟩

theorem unblockFirst_paced (hs : Sound s nodes) (h : Paced s) (hc : s.current = .ok (c, rc))
    (ready : rc.state = .ready) (current : t.currentProcess = s.currentProcess)
    (run : unblockFirst fuel pid s = .ok (x, t)) : Paced t := by
  rcases unblockFirst_edited hs hc run with
    ⟨-, rfl, -⟩ | ⟨d, rd, nodes₁, hd, hrd, alive, -, -, -, k⟩
  · exact h
  obtain ⟨hcur, hrc⟩ := current_ok.mp hc
  refine Edited.paced k h current fun p a ha alive' => ?_
  have like : Like (upon d (setState .ready) p (upon c useUp p a))
      (onParent take s nodes₁ rd p (upon d (setState .ready) p (upon c useUp p a))) :=
    like_onParent like_take p _
  -- the turn of the current process, which stays READY, is used up
  have used : p = c → Measured (s.currentProcess = some p) a → ∀ b : ProcessCDT,
      b.state = .ready → b.priority = a.priority →
      b.executions = char (MAX_PRIORITY - a.priority) → Measured (s.currentProcess = some p) b :=
    fun e m b => m.used (e ▸ hcur)
  by_cases hpd : p = d
  · subst hpd
    obtain rfl := Option.some.inj (ha.symm.trans hrd)
    refine ⟨alive, fun m => Measured.like ?_ like⟩
    rw [upon, if_pos rfl]
    by_cases hpc : p = c
    · rw [upon, if_pos hpc]
      exact used hpc m _ rfl rfl rfl
    · rw [upon, if_neg hpc]
      exact ⟨m.low, m.high, m.started, m.within.imp_right fun ⟨own, _, all⟩ => ⟨own, rfl, all⟩⟩
  · have like' := (like_upon (upon c useUp p a) hpd).trans like
    by_cases hpc : p = c
    · have ha' : a = rc := by
        rw [hpc, hrc] at ha
        exact (Option.some.inj ha).symm
      refine ⟨by rw [ha', ready]; simp, fun m => ?_⟩
      rw [show upon c useUp p a = useUp a from if_pos hpc] at like' ⊢
      have state : (useUp a).state = .ready := by
        rw [ha']
        exact ready
      exact (used hpc m (useUp a) state rfl rfl).like like'
    · have like'' := (like_upon a hpc).trans like'
      exact ⟨by rw [← like''.1]; exact alive', fun m => m.like like''⟩

/-- A parent that is counted down keeps its count, and wakes up at most. -/
theorem orphan_measured {foreground : Int} (m : Measured running a) :
    Measured running (orphan foreground a) := by
  have fields : (orphan foreground a).priority = a.priority ∧
      (orphan foreground a).executions = a.executions := by
    unfold orphan
    dsimp only
    split_ifs <;> exact ⟨rfl, rfl⟩
  rcases m.within with room | ⟨own, ready, all⟩
  · exact m.move room fields.1 fields.2
  · exact m.like (like_orphan (by rw [ready]; simp))

theorem kill_paced (hs : Sound s nodes) (h : Paced s)
    (current : t.currentProcess = s.currentProcess) (run : kill fuel pid s = .ok (x, t)) :
    Paced t := by
  rcases kill_exact hs.listed run with ⟨-, rfl, -⟩ | ⟨d, rd, c, rc, hd, hrd, -, -, -, k⟩
  · exact h
  refine Edited.paced k.edited h current fun p a ha alive' => ?_
  by_cases hpd : p = d
  · rw [upon, if_pos hpd] at alive'
    exact absurd rfl alive'
  rw [upon, if_neg hpd] at alive' ⊢
  split at alive' <;> rename_i parent
  · rw [if_pos parent]
    refine ⟨fun dead => alive' ?_, orphan_measured⟩
    rw [(like_orphan (by rw [dead]; simp)).1]
    exact dead
  · rw [if_neg parent]
    exact ⟨alive', id⟩

/-- A new process has its whole turn before it. -/
theorem made_measured (pid ppid foreground : Int) (fd auxi aux : Ptr) :
    Measured running (made pid ppid foreground fd auxi aux) := by
  have priority : 0 ≤ (made pid ppid foreground fd auxi aux).priority ∧
      (made pid ppid foreground fd auxi aux).priority < MAX_PRIORITY := by
    unfold made
    dsimp only
    split <;> decide
  refine ⟨priority.1, priority.2, Int.le_refl 0, .inl ?_⟩
  change 0 < _
  omega

theorem enqueueProcess_paced {foreground : Int} {fd : Option Ptr} {m : Mallocs}
    (hs : Sound s nodes) (h : Paced s) (hc : s.current = .ok (c, rc)) (busy : rc.pid ≠ IDLE_PID)
    (current : t.currentProcess = s.currentProcess)
    (run : enqueueProcess fuel 0 foreground fd m s = .ok (pid, t)) : Paced t := by
  obtain ⟨q, fd', auxi, aux, -, -, free, hq, k⟩ := enqueueProcess_edited hs hc busy run
  obtain ⟨hcur, hrc⟩ := current_ok.mp hc
  intro p b hb alive
  by_cases hpq : p = q
  · rw [hpq, hq] at hb
    obtain rfl := Option.some.inj hb
    exact made_measured s.pids rc.pid foreground fd' auxi aux
  · have kp := k p hpq
    rw [hb] at kp
    cases ha : s.procs p with
    | none =>
      rw [ha] at kp
      cases kp
    | some a =>
      rw [ha] at kp
      have same := Like.bare (Option.some.inj kp)
      have adopted :
          Like (quiet s nodes p a) (upon c (adopt foreground) p (quiet s nodes p a)) := by
        unfold upon adopt
        dsimp only
        split_ifs <;> exact ⟨rfl, rfl, rfl⟩
      have like := adopted.trans same
      rw [like.1] at alive
      rw [current]
      refine Measured.like ?_ like
      unfold quiet at alive ⊢
      split <;> rename_i idle
      · -- idle is not the current process
        have m := h p a ha idle.2.2
        refine m.move (m.waits fun e => busy ?_) rfl rfl
        obtain rfl := Option.some.inj (hcur.symm.trans e)
        exact Option.some.inj ((pidOf_of hrc).symm.trans idle.2.1.2)
      · rw [if_neg idle] at alive
        exact h p a ha alive

/-- A call that fits keeps every count within its turn. -/
theorem perform_paced {op : Op} (hs : Sound s nodes) (h : Paced s) (hc : s.current = .ok (c, rc))
    (ready : rc.state = .ready) (callable : Callable s op) (fits : Fits s op)
    (run : perform fuel s op = .ok (x, t)) : Paced t := by
  have current := (perform_called hs (cursor_of_current hc) callable run).current
  have alive : rc.state ≠ .dead := by simp [ready]
  obtain ⟨hcur, hrc⟩ := current_ok.mp hc
  have own {c' : Ptr} {r : ProcessCDT} (hc' : s.current = .ok (c', r)) :
      s.currentProcess = some c' ∧ r.state = .ready ∧ Measured (s.currentProcess = some c') r := by
    obtain ⟨rfl, rfl⟩ := Prod.mk.inj (Except.ok.inj (hc.symm.trans hc'))
    exact ⟨hcur, ready, h c rc hrc alive⟩
  cases op with
  | enqueueProcess foreground fd m =>
    obtain ⟨c', r', hc', busy⟩ := callable.1.current
    obtain ⟨rfl, rfl⟩ := Prod.mk.inj (Except.ok.inj (hc.symm.trans hc'))
    obtain ⟨⟨pid, s1⟩, h1, run1⟩ := bind_ok.mp run
    obtain ⟨-, rfl⟩ := Prod.mk.inj (Except.ok.inj run1)
    exact enqueueProcess_paced hs h hc busy current h1
  | block pid => exact block_paced hs h current run
  | unblock pid => exact unblock_paced hs h current run
  | unblockFirst pid => exact unblockFirst_paced hs h hc ready current run
  | kill pid => exact kill_paced hs h current run
  | exitProcess =>
    obtain ⟨⟨c', r'⟩, -, run1⟩ := bind_ok.mp run
    exact kill_paced hs h current run1
  | nice pid offset =>
    rcases nice_cases hs.listed run with rfl | ⟨d, -, r, hr, hpid, low, high, rfl⟩
    · exact h
    refine put_paced h fun alive' => ?_
    have m := h d r hr alive'
    have priority : char (offset + 20) = offset + 20 := char_of_range (by omega) (by omega)
    rw [priority]
    refine ⟨?_, ?_, m.started, fits low high d r hr hpid alive'⟩
    · change 0 ≤ offset + 20
      omega
    · change offset + 20 < 40
      omega
  | wait =>
    rcases wait_cases run with ⟨-, rfl⟩ | ⟨c', r, hc', children, -, rfl⟩
    · exact h
    obtain ⟨-, -, m⟩ := own hc'
    refine put_paced h fun _ => m.move ?_ rfl rfl
    exact m.within.resolve_right fun n => fits c' r hc' children n.2.2
  | blockIo =>
    rcases blockIo_cases run with ⟨-, rfl⟩ | ⟨c', r, hc', -, -, rfl⟩
    · exact h
    obtain ⟨-, -, m⟩ := own hc'
    exact put_paced h fun _ => m.reset rfl rfl
  | unblockIo =>
    obtain ⟨s1, h1, run1⟩ := bind_ok.mp run
    obtain ⟨-, rfl⟩ := Prod.mk.inj (Except.ok.inj run1)
    refine Edited.paced (unblockIo_exact hs.listed h1).edited h current fun p a ha alive' => ?_
    split at alive' <;> rename_i io
    · rw [if_pos io]
      refine ⟨by rw [io.2]; simp, fun m => m.move ?_ rfl rfl⟩
      exact m.within.resolve_right fun n => by simp [io.2] at n
    · rw [if_neg io]
      exact ⟨alive', id⟩
  | sleep now secs m =>
    rcases sleep_cases run with ⟨rfl, -⟩ | ⟨c', r, -, run1⟩
    · exact h
    have hs1 : Sound { s with firstSleep := ⟨r.pid, now, secs⟩ :: s.firstSleep } nodes :=
      hs.of_eq rfl rfl rfl rfl
    exact block_paced hs1 h current run1
  | quitCPU =>
    rcases quitCPU_cases run with ⟨-, rfl⟩ | ⟨c', r, hc', -, rfl⟩
    · exact h
    obtain ⟨hcur', ready', m⟩ := own hc'
    exact put_paced h fun _ => m.used hcur' ready' rfl rfl

/-- The end of a turn is where its count starts again. -/
theorem endTurn_fresh (h : Paced s) (hc : s.current = .ok (c, rc))
    (run : endTurn rsp s = .ok s') : Fresh s' := by
  rw [endTurn_value rsp hc] at run
  obtain rfl := Except.ok.inj run
  obtain ⟨hcur, hrc⟩ := current_ok.mp hc
  have others : ∀ p r, s.procs p = some r → r.state ≠ .dead → p ≠ c → Measured False r := by
    intro p r hr alive other
    have m := h p r hr alive
    exact m.move (m.waits fun e => other (Option.some.inj (e.symm.trans hcur))) rfl rfl
  split <;> rename_i spent <;> intro p r hr alive
  · change (s.put c _).procs p = some r at hr
    rw [put_procs] at hr
    split at hr <;> rename_i hp
    · obtain rfl := Option.some.inj hr
      exact (h c rc hrc alive).reset rfl rfl
    · exact others p r hr alive hp
  · rw [put_procs] at hr
    split at hr <;> rename_i hp
    · obtain rfl := Option.some.inj hr
      have m := h c rc hrc alive
      exact m.move (m.within.resolve_right fun n => spent n.2) rfl rfl
    · exact others p r hr alive hp

theorem Passed.fresh (k : Passed s s') (h : Fresh s) : Fresh s' := by
  intro p b hb alive
  obtain ⟨a, ha, same | ⟨-, alive', same⟩⟩ := k p b hb
  · have like := Like.bare same
    exact (h p a ha (by rw [← like.1]; exact alive)).like like
  · have like := Like.bare same
    have m := h p a ha alive'
    exact m.move (m.waits id) like.2.1 like.2.2

theorem startTurn_paced (hs : Sound s nodes) (h : Fresh s)
    (ready : ∀ c r, s.current = .ok (c, r) → r.state = .ready)
    (run : startTurn fuel s = .ok (v, s')) : Paced s' := by
  obtain ⟨c, rc, t, hc, -, ht, rfl, cases⟩ := startTurn_value hs run
  obtain ⟨hcur, hrc⟩ := current_ok.mp hc
  have fresh : Fresh t ∧ t.currentProcess = s.currentProcess := by
    rcases cases with ⟨-, -, ⟨rfl, -⟩ | ⟨d, -, rd, hrd, -, alive, rfl⟩⟩ | ⟨-, rfl⟩
    · exact ⟨h, rfl⟩
    · refine ⟨fun p r hr alive' => ?_, rfl⟩
      rw [put_procs] at hr
      split at hr
      · obtain rfl := Option.some.inj hr
        have m := h d rd hrd alive
        exact m.move (m.waits id) rfl rfl
      · exact h p r hr alive'
    · exact ⟨h, rfl⟩
  obtain ⟨fresh, cur⟩ := fresh
  intro p r hr alive
  rw [put_procs] at hr
  split at hr <;> rename_i hp
  · obtain rfl := Option.some.inj hr
    have m := fresh c rc ht alive
    have low := m.low
    have started := m.started
    have room := m.waits id
    have count : char (rc.executions + 1) = rc.executions + 1 := by
      simp only [MAX_PRIORITY] at room
      exact char_of_range (by omega) (by omega)
    rw [count]
    refine ⟨low, m.high, ?_, ?_⟩
    · change 0 ≤ rc.executions + 1
      omega
    · by_cases all : rc.executions + 1 = MAX_PRIORITY - rc.priority
      · exact .inr ⟨(cur.trans hcur).trans (congrArg some hp.symm), ready c rc hc, all⟩
      · left
        change rc.executions + 1 < MAX_PRIORITY - rc.priority
        omega
  · have m := fresh p r hr alive
    exact m.move (m.waits id) rfl rfl

/-- The turn that follows the end of another one. -/
theorem turn_paced {s₁ s₂ : Sched} (hs : Sound s₁ nodes) (live : SchedRuns.Cursor s₁)
    (h : Fresh s₁) (loop : nextProcessLoop fuel fuel s₁ = .ok s₂)
    (run : startTurn fuel s₂ = .ok (v, s')) : Paced s' := by
  obtain ⟨passes, c, r, hc, ready⟩ := nextProcessLoop_passes loop
  obtain ⟨nodes', k⟩ := passes_spun hs live passes
  refine startTurn_paced k.sound (Passed.fresh (passes_passed hs live passes) h)
    (fun c' r' hc' => ?_)
    run
  obtain ⟨rfl, rfl⟩ := Prod.mk.inj (Except.ok.inj (hc.symm.trans hc'))
  exact ready

theorem nextProcess_paced (hs : Sound s nodes) (h : Paced s) (hc : s.current = .ok (c, rc))
    (run : nextProcess fuel rsp s = .ok (v, s')) : Paced s' := by
  obtain ⟨s₁, h₁, run₁⟩ := bind_ok.mp run
  obtain ⟨s₂, h₂, run₂⟩ := bind_ok.mp run₁
  have k := endTurn_spun hs (cursor_of_current hc) h₁
  exact turn_paced k.sound k.cursor (endTurn_fresh h hc h₁) h₂ run₂

theorem loop_ready {q : Ptr} (hc : s.currentProcess = some q)
    (ready : RoundRobin.ready s q = true) (fuel : Nat) :
    nextProcessLoop steps (fuel + 1) s = .ok s := by
  have state : stateOf s q = some .ready := of_decide_eq_true ready
  obtain ⟨r, hr, state⟩ := Option.map_eq_some_iff.mp state
  simp [nextProcessLoop, hc, load, hr, state]

/-- The loop from the head of `S`, with `A` before it in the list, stops at the first READY
record it meets. -/
theorem loop_reaches {A S : List Ptr} {q : Ptr} (hl : Listed s (A ++ S))
    (enough : (A ++ S).length < steps) (hc : s.currentProcess = S.head?)
    (hb : s.firstBlockedIteration = none) (first : (S ++ A).find? (RoundRobin.ready s) = some q) :
    ∃ k, ∀ fuel, ∃ s',
      nextProcessLoop steps (fuel + k) s = .ok s' ∧ s'.currentProcess = some q := by
  rw [List.find?_append] at first
  cases hS : S.find? (RoundRobin.ready s) with
  | some q' =>
    rw [hS, Option.some_or] at first
    obtain rfl := Option.some.inj first
    obtain ⟨seg, Z, rfl, hq, wait⟩ := RoundRobin.split_first hS
    obtain ⟨s1, h1, -, hc1, -, same⟩ := RoundRobin.walk_segment (by simpa using hl)
      (by simpa using enough) hc wait (fun f hf => by rw [hb] at hf; cases hf)
    refine ⟨1 + seg.length, fun fuel => ⟨s1, ?_, by simpa using hc1⟩⟩
    rw [← Nat.add_assoc, h1]
    refine loop_ready (by simpa using hc1) ?_ fuel
    rw [RoundRobin.ready, RoundRobin.bare_stateOf (same q' (by simp))]
    exact hq
  | none =>
    rw [hS, Option.none_or] at first
    obtain ⟨seg, Z, rfl, hq, wait⟩ := RoundRobin.split_first first
    have waitS : ∀ x ∈ S, RoundRobin.ready s x = false := fun x hx => by
      simpa using List.find?_eq_none.mp hS x hx
    have nodup := hl.nodup
    -- to the end of the list, and from its start
    have hl' : Listed s (seg ++ q :: Z ++ S ++ []) := by simpa using hl
    obtain ⟨s1, h1, hl1, hc1, hb1, same1⟩ := RoundRobin.walk_segment hl' (by simpa using enough)
      (by simpa using hc) waitS (fun f hf => by rw [hb] at hf; cases hf)
    obtain ⟨s2, h2, hl2, hc2, hb2, procs2⟩ := RoundRobin.restart steps hl1 hc1
    have stay : ∀ x ∈ seg ++ q :: Z, RoundRobin.ready s2 x = RoundRobin.ready s x := by
      intro x hx
      rw [RoundRobin.ready, RoundRobin.ready, stateOf, procs2, ← stateOf,
        RoundRobin.bare_stateOf (same1 x (by simp only [List.mem_append] at hx ⊢; grind))]
    have short : (S.filter (RoundRobin.alive s)).length ≤ S.length := List.length_filter_le _ S
    have hl2' : Listed s2 ([] ++ seg ++ q :: (Z ++ S.filter (RoundRobin.alive s))) := by
      simpa using hl2
    have enough2 : ([] ++ seg ++ q :: (Z ++ S.filter (RoundRobin.alive s))).length < steps := by
      simp only [List.length_append, List.length_cons, List.length_nil] at enough ⊢
      omega
    obtain ⟨s3, h3, -, hc3, -, same3⟩ := RoundRobin.walk_segment hl2' enough2 (by rw [hc2]; simp)
      (fun x hx => by rw [stay x (by simp [hx])]; exact wait x hx)
      (fun f hf hseg => by
        rw [hb2, hb1, hb, Option.none_or] at hf
        have hfS := (List.mem_filter.mp (List.mem_of_mem_head? hf)).1
        exact (List.nodup_append.mp nodup).2.2 f (by simp [hseg]) f hfS rfl)
    refine ⟨1 + seg.length + 1 + S.length, fun fuel => ⟨s3, ?_, by simpa using hc3⟩⟩
    rw [show fuel + (1 + seg.length + 1 + S.length) = fuel + 1 + seg.length + 1 + S.length by omega,
      h1, h2, h3]
    refine loop_ready (by simpa using hc3) ?_ fuel
    rw [RoundRobin.ready, RoundRobin.bare_stateOf (same3 q (by simp)), ← RoundRobin.ready,
      stay q (by simp)]
    exact hq

/-- The turn of `c` goes on. -/
def Continues (r : ProcessCDT) : Prop :=
  r.state = .ready ∧ r.executions ≠ MAX_PRIORITY - r.priority

/-- Who cannot go on loses the processor when another listed process is READY. -/
theorem nextProcess_rival {q : Ptr} (hs : Sound s nodes) (hc : s.current = .ok (c, rc))
    (hn : c ∈ nodes) (spent : ¬ Continues rc) (hb : s.firstBlockedIteration = none)
    (hq : q ∈ nodes) (other : q ≠ c) (ready : stateOf s q = some .ready)
    (run : nextProcess fuel rsp s = .ok (v, s')) : s'.currentProcess ≠ some c := by
  obtain ⟨s₁, h₁, run₁⟩ := bind_ok.mp run
  obtain ⟨s₂, h₂, run₂⟩ := bind_ok.mp run₁
  have k₁ := endTurn_spun hs (cursor_of_current hc) h₁
  obtain ⟨hcur, hrc⟩ := current_ok.mp hc
  obtain ⟨pre, post, rfl⟩ := List.append_of_mem hn
  have nodup := hs.listed.nodup
  rw [List.nodup_middle] at nodup
  have apart : c ∉ post ++ pre := fun m => (List.nodup_cons.mp nodup).1 (by
    simp only [List.mem_append] at m ⊢
    exact m.symm)
  have value := endTurn_value rsp hc
  rw [h₁] at value
  have value := Except.ok.inj value
  have states : ∀ x, RoundRobin.ready s₁ x = RoundRobin.ready s x := by
    intro x
    rw [value, RoundRobin.ready, RoundRobin.ready]
    congr 2
    split
    · exact put_stateOf (a := { rc with rsp := rsp, executions := 0 }) hrc rfl x
    · exact put_stateOf (a := { rc with rsp := rsp }) hrc rfl x
  have hb₁ : s₁.firstBlockedIteration = none := by
    rw [value]
    split <;> exact hb
  -- somebody else comes first
  obtain ⟨d, hd⟩ : ∃ d, (post ++ pre).find? (RoundRobin.ready s₁) = some d := by
    refine Option.ne_none_iff_exists'.mp fun none => ?_
    refine List.find?_eq_none.mp none q ?_ ?_
    · simp only [List.mem_append, List.mem_cons] at hq ⊢
      grind
    · rw [states]
      exact decide_eq_true ready
  have hdc : d ≠ c := fun e => apart (e ▸ List.mem_of_find?_eq_some hd)
  have reaches : ∃ k, ∀ fuel', ∃ s', nextProcessLoop (max fuel (pre ++ c :: post).length.succ)
      (fuel' + k) s₁ = .ok s' ∧ s'.currentProcess = some d := by
    by_cases ended : rc.state = .ready
    · have all : rc.executions = MAX_PRIORITY - rc.priority := by
        by_contra n
        exact spent ⟨ended, n⟩
      rw [if_pos ⟨ended, all⟩] at value
      refine loop_reaches (A := pre ++ [c]) (S := post) (by simpa using k₁.sound.listed) (by grind)
        ?_ hb₁ ?_
      · rw [value]
        exact hs.listed.next hrc
      · rw [← List.append_assoc, List.find?_append, hd]
        rfl
    · rw [if_neg fun n => ended n.1] at value
      refine loop_reaches (A := pre) (S := c :: post) k₁.sound.listed (by omega) ?_ hb₁ ?_
      · rw [value]
        exact hcur
      · have waits : RoundRobin.ready s₁ c = false := by
          rw [states]
          simp [RoundRobin.ready, stateOf_of hrc, ended]
        rw [List.cons_append, List.find?_cons_of_neg (by simp [waits]), hd]
  obtain ⟨k, reaches⟩ := reaches
  obtain ⟨s₃, h₃, hd₃⟩ := reaches fuel
  have same := Fuel.nextProcessLoop_within (Nat.le_add_right fuel k)
    (Nat.le_max_left fuel (pre ++ c :: post).length.succ) s₂ h₂
  obtain rfl := Except.ok.inj (same.symm.trans h₃)
  obtain ⟨nodes₂, k₂⟩ := passes_spun k₁.sound k₁.cursor (nextProcessLoop_passes h₂).1
  obtain ⟨c', r', t, hc', -, -, rfl, cases⟩ := startTurn_value k₂.sound run₂
  have cur : t.currentProcess = some d := by
    rcases cases with ⟨-, -, ⟨rfl, -⟩ | ⟨d', -, rd, -, -, -, rfl⟩⟩ | ⟨-, rfl⟩ <;> exact hd₃
  exact fun e => hdc (Option.some.inj (cur.symm.trans e))

/-- A turn that goes on is one dispatch longer. -/
theorem nextProcess_counts (hs : Sound s nodes) (m : Measured (s.currentProcess = some c) rc)
    (hc : s.current = .ok (c, rc)) (more : Continues rc)
    (run : nextProcess fuel rsp s = .ok (v, s')) :
    ∃ r', s'.current = .ok (c, r') ∧ r'.priority = rc.priority ∧
      r'.executions = rc.executions + 1 := by
  obtain ⟨s₁, h₁, run₁⟩ := bind_ok.mp run
  obtain ⟨s₂, h₂, run₂⟩ := bind_ok.mp run₁
  have k₁ := endTurn_spun hs (cursor_of_current hc) h₁
  obtain ⟨hcur, hrc⟩ := current_ok.mp hc
  rw [endTurn_value rsp hc, if_neg fun n => more.2 n.2] at h₁
  obtain rfl := Except.ok.inj h₁
  obtain ⟨n, rfl⟩ : ∃ n, fuel = n + 1 := by
    cases fuel with
    | zero => cases h₂
    | succ n => exact ⟨n, rfl⟩
  have ready : RoundRobin.ready (s.put c { rc with rsp := rsp }) c = true := by
    simp [RoundRobin.ready, stateOf, more.1]
  rw [loop_ready (show (s.put c _).currentProcess = some c from hcur) ready] at h₂
  obtain rfl := Except.ok.inj h₂
  obtain ⟨c', r', t, hc', -, ht, rfl, cases⟩ := startTurn_value k₁.sound run₂
  obtain ⟨hcur', hr'⟩ := current_ok.mp hc'
  obtain rfl := Option.some.inj (hcur.symm.trans hcur')
  rw [put_procs, if_pos rfl] at hr'
  obtain rfl := Option.some.inj hr'
  have cur : t.currentProcess = some c := by
    rcases cases with ⟨-, -, ⟨rfl, -⟩ | ⟨d', -, rd, -, -, -, rfl⟩⟩ | ⟨-, rfl⟩ <;> exact hcur
  refine ⟨{ rc with rsp := rsp, executions := char (rc.executions + 1) },
    current_ok.mpr ⟨cur, by simp⟩, rfl, ?_⟩
  have low := m.low
  have started := m.started
  have room := m.within.resolve_right fun n => more.2 n.2.2
  simp only [MAX_PRIORITY] at room
  exact char_of_range (by omega) (by omega)

end

end BottlerOS.Quantum
