import BottlerOS.Quantum
import BottlerOS.Wakeful
import BottlerOS.SemRuns
import BottlerOS.ListRuns

/-! Turns in every run of the kernel. While another process is READY a process that keeps its
priority is dispatched at most `MAX_PRIORITY - priority` times in a row. -/

namespace BottlerOS.QuantumRuns
open Machine Scheduler LinkedList ProcessList ProcessFields ProcessLinks
open SchedCalls SchedRuns Turns Effects Wakeful Quantum

section
variable {s s' t : Sched} {nodes nodes' : List Ptr} {fuel rsp v : Nat} {c d p q : Ptr}
  {pid code now : Int}
  {a b r rc : ProcessCDT} {x : Exit} {op : Op} {e : Event} {f : Ptr → ProcessCDT → ProcessCDT}

theorem Edited.count (k : Edited f s t) (hp : s.procs p = some a)
    (same : (f p a).executions = a.executions) :
    ∃ b, t.procs p = some b ∧ b.executions = a.executions := by
  obtain ⟨b, hb, e⟩ := k.new hp
  have like := Like.bare e
  exact ⟨b, hb, like.2.2.trans same⟩

theorem Edited.stateOf (k : Edited f s t) (hp : s.procs p = some a) :
    stateOf t p = some (f p a).state := by
  obtain ⟨b, hb, e⟩ := k.new hp
  rw [stateOf_of hb, (Like.bare e).1]

theorem nice_ret {offset : Int} (run : nice fuel pid offset s = .ok (x, t)) : x ≠ .forceTimer := by
  unfold nice at run
  split at run
  · obtain ⟨rfl, -⟩ := Prod.mk.inj (Except.ok.inj run)
    simp
  obtain ⟨⟨del, prev⟩, -, run1⟩ := bind_ok.mp run
  cases del with
  | none =>
    obtain ⟨rfl, -⟩ := Prod.mk.inj (Except.ok.inj run1)
    simp
  | some d =>
    obtain ⟨r, -, run2⟩ := bind_ok.mp run1
    obtain ⟨rfl, -⟩ := Prod.mk.inj (Except.ok.inj run2)
    simp

theorem orphan_count (foreground : Int) (a : ProcessCDT) :
    (orphan foreground a).executions = a.executions := by
  unfold orphan
  dsimp only
  split_ifs <;> rfl

theorem kill_count (hs : Sound s nodes) (hp : s.procs p = some a)
    (run : kill fuel pid s = .ok (x, t)) :
    ∃ b, t.procs p = some b ∧ b.executions = a.executions := by
  rcases kill_exact hs.listed run with ⟨-, rfl, -⟩ | ⟨d, rd, c, rc, -, -, -, -, -, k⟩
  · exact ⟨a, hp, rfl⟩
  refine Edited.count k.edited hp ?_
  have parent : (if Found s nodes rd.ppid p then orphan rd.foreground a else a).executions =
      a.executions := by
    split
    · exact orphan_count _ a
    · rfl
  unfold upon
  split <;> exact parent

/-- A call that returns leaves the turn of its caller alone. -/
theorem perform_ret (hs : Sound s nodes) (hc : s.current = .ok (c, rc)) (callable : Callable s op)
    (waking : Waking (.call op now rsp)) (run : perform fuel s op = .ok (.ret code, t)) :
    ∃ r, t.procs c = some r ∧ r.executions = rc.executions := by
  obtain ⟨hcur, hrc⟩ := current_ok.mp hc
  have still : t = s → ∃ r, t.procs c = some r ∧ r.executions = rc.executions := by
    rintro rfl
    exact ⟨rc, hrc, rfl⟩
  cases op with
  | enqueueProcess foreground fd m =>
    obtain ⟨c', r', hc', busy⟩ := callable.1.current
    obtain ⟨rfl, rfl⟩ := Prod.mk.inj (Except.ok.inj (hc.symm.trans hc'))
    obtain ⟨⟨pid, s1⟩, h1, run1⟩ := bind_ok.mp run
    obtain ⟨-, rfl⟩ := Prod.mk.inj (Except.ok.inj run1)
    obtain ⟨q, fd', auxi, aux, -, -, free, -, k⟩ := enqueueProcess_edited hs hc busy h1
    have kc := k c (fun e => by rw [← e, hrc] at free; cases free)
    rw [hrc] at kc
    obtain ⟨b, hb, same⟩ := Option.map_eq_some_iff.mp kc
    refine ⟨b, hb, (Like.bare same).2.2.trans ?_⟩
    unfold upon adopt quiet
    dsimp only
    split_ifs <;> rfl
  | block pid =>
    rcases block_exact hs.listed run with ⟨-, rfl, -⟩ | ⟨d, rd, c', rc', -, -, -, hc', hx, k⟩
    · exact still rfl
    refine Edited.count k.edited hrc ?_
    obtain ⟨rfl, rfl⟩ := Prod.mk.inj (Except.ok.inj (hc.symm.trans hc'))
    have other : pid ≠ rc.pid := fun self => by
      rw [if_pos self] at hx
      cases hx
    rw [if_neg other]
    exact (like_onParent like_give c _).2.2.trans (upon_setState _ _ c rc).2
  | unblock pid =>
    rcases unblock_exact hs.listed run with ⟨rfl, -⟩ | ⟨d, rd, -, -, -, k⟩
    · exact still rfl
    · exact Edited.count k.edited hrc
        ((like_onParent like_take c _).2.2.trans (upon_setState _ _ c rc).2)
  | unblockFirst pid =>
    rcases unblockFirst_edited hs hc run with ⟨-, rfl, -⟩ | ⟨d, rd, nodes₁, -, -, -, hx, -⟩
    · exact still rfl
    · cases hx
  | kill pid => exact kill_count hs hrc run
  | exitProcess =>
    obtain ⟨⟨c', r'⟩, -, run1⟩ := bind_ok.mp run
    exact kill_count hs hrc run1
  | nice pid offset =>
    rcases nice_cases hs.listed run with rfl | ⟨d, -, r, hr, -, -, -, rfl⟩
    · exact still rfl
    · rw [put_procs]
      split <;> rename_i hcd
      · rw [hcd, hr] at hrc
        obtain rfl := Option.some.inj hrc
        exact ⟨_, rfl, rfl⟩
      · exact ⟨rc, hrc, rfl⟩
  | wait =>
    rcases wait_cases run with ⟨-, rfl⟩ | ⟨c', r, -, -, hx, -⟩
    · exact still rfl
    · cases hx
  | blockIo =>
    rcases blockIo_cases run with ⟨-, rfl⟩ | ⟨c', r, -, -, hx, -⟩
    · exact still rfl
    · cases hx
  | unblockIo =>
    obtain ⟨s1, h1, run1⟩ := bind_ok.mp run
    obtain ⟨-, rfl⟩ := Prod.mk.inj (Except.ok.inj run1)
    refine Edited.count (unblockIo_exact hs.listed h1).edited hrc ?_
    split <;> rfl
  | sleep now secs m => exact waking.elim
  | quitCPU =>
    rcases quitCPU_cases run with ⟨-, rfl⟩ | ⟨c', r, -, hx, -⟩
    · exact still rfl
    · cases hx

/-- A call that forces the timer leaves its caller unable to go on, the list's members as they
were, and whoever else was READY. -/
structure Forced (s t : Sched) (nodes : List Ptr) (c : Ptr) : Prop where
  spent : ∀ r, t.procs c = some r → ¬ Continues r
  listed : ∃ nodes', Listed t nodes' ∧ ∀ q ∈ nodes, q ∈ nodes'
  others : ∀ q, q ≠ c → stateOf s q = some .ready → stateOf t q = some .ready

theorem put_forced {a : ProcessCDT} (hs : Sound s nodes) (hc : s.procs c = some rc)
    (next : a.next = rc.next) (pid : a.pid = rc.pid) (spent : ¬ Continues a) :
    Forced s (s.put c a) nodes c where
  spent r hr := by
    simp only [put_procs, if_true] at hr
    obtain rfl := Option.some.inj hr
    exact spent
  listed := by
    have k : Rel (fun _ a b => b.next = a.next ∧ b.pid = a.pid) s (s.put c a) :=
      rel_put (fun _ _ => ⟨rfl, rfl⟩) hc ⟨next, pid⟩
    exact ⟨nodes, k.listed (fun _ _ _ k => k.1) (fun _ _ _ k => k.2) hs.listed, fun _ h => h⟩
  others q hq ready := by
    rw [stateOf, put_procs, if_neg hq]
    exact ready

theorem kill_forced (hs : Sound s nodes) (hc : s.current = .ok (c, rc)) (hn : c ∈ nodes)
    (run : kill fuel pid s = .ok (.forceTimer, t)) : Forced s t nodes c := by
  obtain ⟨-, hrc⟩ := current_ok.mp hc
  rcases kill_exact hs.listed run with ⟨hx, -⟩ | ⟨d, rd, c', rc', hd, hrd, hc', hx, -, k⟩
  · cases hx
  obtain ⟨rfl, rfl⟩ := Prod.mk.inj (Except.ok.inj (hc.symm.trans hc'))
  have self : pid = rc.pid := by
    by_contra other
    rw [if_neg other] at hx
    cases hx
  obtain rfl : d = c := Found.unique hs.listed hd ⟨hn, by rw [pidOf_of hrc, self]⟩
  refine ⟨fun r hr more => ?_, ⟨nodes, kill_listed hs.listed run, fun _ h => h⟩,
    fun q hq ready => ?_⟩
  · have st := Edited.stateOf k.edited hrc
    rw [stateOf_of hr, more.1, upon, if_pos rfl] at st
    cases st
  · obtain ⟨a, ha, ready⟩ := Option.map_eq_some_iff.mp ready
    rw [Edited.stateOf k.edited ha, upon, if_neg hq]
    split
    · rw [(like_orphan (by rw [ready]; simp)).1, ready]
    · rw [ready]

theorem perform_forced (hs : Sound s nodes) (paced : Paced s) (hc : s.current = .ok (c, rc))
    (ready : rc.state = .ready) (hn : c ∈ nodes) (fits : Fits s op)
    (waking : Waking (.call op now rsp)) (run : perform fuel s op = .ok (.forceTimer, t)) :
    Forced s t nodes c := by
  obtain ⟨hcur, hrc⟩ := current_ok.mp hc
  have m := paced c rc hrc (by rw [ready]; simp)
  have used : char (MAX_PRIORITY - rc.priority) = MAX_PRIORITY - rc.priority := by
    have low := m.low
    have high := m.high
    simp only [MAX_PRIORITY] at high ⊢
    exact char_of_range (by omega) (by omega)
  cases op with
  | enqueueProcess foreground fd m =>
    obtain ⟨⟨pid, s1⟩, h1, run1⟩ := bind_ok.mp run
    cases (Prod.mk.inj (Except.ok.inj run1)).1
  | block pid =>
    rcases block_exact hs.listed run with ⟨hx, -⟩ | ⟨d, rd, c', rc', hd, hrd, -, hc', hx, k⟩
    · cases hx
    obtain ⟨rfl, rfl⟩ := Prod.mk.inj (Except.ok.inj (hc.symm.trans hc'))
    have self : pid = rc.pid := by
      by_contra other
      rw [if_neg other] at hx
      cases hx
    obtain rfl : d = c := Found.unique hs.listed hd ⟨hn, by rw [pidOf_of hrc, self]⟩
    refine ⟨fun r hr more => ?_, ⟨nodes, block_listed hs.listed run, fun _ h => h⟩,
      fun q hq state => ?_⟩
    · have st := Edited.stateOf k.edited hrc
      have like : Like (upon d (setState .blocked) d rc)
          (onParent give s nodes rd d (upon d (setState .blocked) d rc)) :=
        like_onParent like_give d _
      rw [stateOf_of hr, more.1, if_pos self, upon, if_pos rfl] at st
      have blocked :
          (onParent give s nodes rd d (upon d (setState .blocked) d rc)).state = .blocked := by
        rw [like.1, upon, if_pos rfl]
        rfl
      cases (Option.some.inj st).trans blocked
    · obtain ⟨a, ha, state⟩ := Option.map_eq_some_iff.mp state
      rw [Edited.stateOf k.edited ha, if_pos self, upon, if_neg hq,
        ((like_upon a hq).trans (like_onParent like_give q _)).1, state]
  | unblock pid => exact absurd rfl (SemRuns.unblock_ret run)
  | unblockFirst pid =>
    rcases unblockFirst_edited hs hc run with
      ⟨hx, -⟩ | ⟨d, rd, nodes₁, hd, hrd, -, -, hl, members, k⟩
    · cases hx
    have other : c ≠ d := by
      rintro rfl
      exact fits c rc hc (Option.some.inj ((pidOf_of hrc).symm.trans hd.2))
    refine ⟨fun r hr more => ?_, ⟨nodes₁, hl, fun q hq => (members q).mpr ⟨hq, .inr ⟨hn, other⟩⟩⟩,
      fun q hq state => ?_⟩
    · obtain ⟨b, hb, same⟩ := k.new hrc
      obtain rfl := Option.some.inj (hr.symm.trans hb)
      rw [show upon c useUp c rc = useUp rc from if_pos rfl] at same
      have taken : Like (upon d (setState .ready) c (useUp rc))
          (onParent take s nodes₁ rd c (upon d (setState .ready) c (useUp rc))) :=
        like_onParent like_take c _
      have like := ((like_upon (useUp rc) other).trans taken).trans (.bare same)
      refine more.2 ?_
      rw [like.2.2, like.2.1]
      exact used
    · obtain ⟨a, ha, state⟩ := Option.map_eq_some_iff.mp state
      rw [Edited.stateOf k ha, (like_onParent like_take q _).1]
      have quiet : upon c useUp q a = a := if_neg hq
      rw [quiet]
      unfold upon
      split
      · rfl
      · rw [state]
  | kill pid => exact kill_forced hs hc hn run
  | exitProcess =>
    obtain ⟨⟨c', r'⟩, -, run1⟩ := bind_ok.mp run
    exact kill_forced hs hc hn run1
  | nice pid offset => exact absurd rfl (nice_ret run)
  | wait =>
    rcases wait_cases run with ⟨hx, -⟩ | ⟨c', r, hc', -, -, rfl⟩
    · cases hx
    obtain ⟨rfl, rfl⟩ := Prod.mk.inj (Except.ok.inj (hc.symm.trans hc'))
    exact put_forced hs hrc (by rfl) (by rfl) fun n => by cases n.1
  | blockIo =>
    rcases blockIo_cases run with ⟨hx, -⟩ | ⟨c', r, hc', -, -, rfl⟩
    · cases hx
    obtain ⟨rfl, rfl⟩ := Prod.mk.inj (Except.ok.inj (hc.symm.trans hc'))
    exact put_forced hs hrc (by rfl) (by rfl) fun n => by cases n.1
  | unblockIo =>
    obtain ⟨s1, h1, run1⟩ := bind_ok.mp run
    cases (Prod.mk.inj (Except.ok.inj run1)).1
  | sleep now secs m => exact waking.elim
  | quitCPU =>
    rcases quitCPU_cases run with ⟨hx, -⟩ | ⟨c', r, hc', -, rfl⟩
    · cases hx
    obtain ⟨rfl, rfl⟩ := Prod.mk.inj (Except.ok.inj (hc.symm.trans hc'))
    exact put_forced hs hrc (by rfl) (by rfl) fun n => n.2 used

/-- The conditions on a step. -/
def FitsStep (s : Sched) : Event → Prop
  | .tick _ _ => True
  | .call op _ _ => Fits s op

theorem current_of_cursor (live : SchedRuns.Cursor t) (hcur : t.currentProcess = some c) :
    ∃ r, t.current = .ok (c, r) := by
  obtain ⟨r, hr⟩ := Option.ne_none_iff_exists'.mp (live c hcur)
  exact ⟨r, current_ok.mpr ⟨hcur, hr⟩⟩

theorem turned_paced (hs : Sound s nodes) (h : Paced s) (hc : s.current = .ok (c, rc))
    (turned : Turned s s') : Paced s' := by
  obtain ⟨fuel, rsp, v, run⟩ := turned
  exact nextProcess_paced hs h hc run

theorem step_paced (settled : Settled s) (h : Paced s) (awake : s.firstSleep = [])
    (fits : FitsStep s e) (waking : Waking e) (step : SchedCalls.Step s e s') : Paced s' := by
  obtain ⟨⟨nodes, hs⟩, -, c, rc, hc, ready⟩ := settled
  have live := cursor_of_current hc
  obtain ⟨-, ⟨now, rsp, rfl, turned⟩ | ⟨op, now, rsp, fuel, x, t, nodes₁, rfl, callable, run,
    sound, live', last⟩⟩ := step_wakeful hs live awake waking step
  · exact turned_paced hs h hc turned
  have paced := perform_paced hs h hc ready callable fits run
  rcases last with ⟨code, rfl, rfl⟩ | ⟨rfl, turned⟩
  · exact paced
  · have called := perform_called hs live callable run
    obtain ⟨r, hr⟩ := current_of_cursor live' (called.current.trans (current_ok.mp hc).1)
    exact turned_paced sound paced hr turned

/-- Who keeps the processor while another process is READY is one tick further in its turn. -/
theorem step_counts (settled : Settled s) (h : Paced s) (awake : s.firstSleep = [])
    (hs : Sound s nodes) (hc : s.current = .ok (c, rc)) (hn : c ∈ nodes) (hq : q ∈ nodes)
    (other : q ≠ c) (rival : stateOf s q = some .ready) (fits : FitsStep s e) (waking : Waking e)
    (step : SchedCalls.Step s e s') (hc' : s'.current = .ok (c, r)) :
    rc.executions ≤ r.executions ∧
      ((∃ now rsp, e = .tick now rsp) → rc.executions + 1 ≤ r.executions) := by
  obtain ⟨-, blocked, c₀, rc₀, hc₀, ready⟩ := settled
  obtain ⟨rfl, rfl⟩ := Prod.mk.inj (Except.ok.inj (hc.symm.trans hc₀))
  obtain ⟨hcur, hrc⟩ := current_ok.mp hc
  have live := cursor_of_current hc
  obtain ⟨hcur', hr⟩ := current_ok.mp hc'
  obtain ⟨-, ⟨now, rsp, rfl, fuel, rsp', v, run⟩ | ⟨op, now, rsp, fuel, x, t, nodes₁, rfl,
    callable, run, sound, live', last⟩⟩ := step_wakeful hs live awake waking step
  · by_cases more : Continues rc
    · obtain ⟨r', hr', -, count⟩ :=
        nextProcess_counts hs (h c rc hrc (by rw [ready]; simp)) hc more run
      obtain ⟨-, rfl⟩ := Prod.mk.inj (Except.ok.inj (hc'.symm.trans hr'))
      exact ⟨by omega, fun _ => by omega⟩
    · exact absurd hcur' (nextProcess_rival hs hc hn more blocked hq other rival run)
  rcases last with ⟨code, rfl, rfl⟩ | ⟨rfl, fuel', rsp', v, run'⟩
  · obtain ⟨r', hr', count⟩ := perform_ret hs hc callable waking run
    obtain rfl := Option.some.inj (hr.symm.trans hr')
    refine ⟨by omega, ?_⟩
    rintro ⟨now', rsp', e⟩
    cases e
  · have called := perform_called hs live callable run
    obtain ⟨rt, hrt⟩ := current_of_cursor live' (called.current.trans hcur)
    obtain ⟨spent, ⟨nodes₂, listed, members⟩, others⟩ :=
      perform_forced hs h hc ready hn fits waking run
    obtain rfl := listed_unique sound.listed listed
    exact absurd hcur' (nextProcess_rival sound hrt (members c hn)
      (spent rt (current_ok.mp hrt).2) (called.blocked.trans blocked) (members q hq) other
      (others q other rival) run')

end

/-- `nextProcess` is entered in the state `t`, in a step from `k`. -/
inductive Enters (k : Semaphore.Kernel) : Kernel.Action → Sched → Prop where
  | tick {fuel : Nat} {now : Int} {rsp : Nat} {t : Sched}
      (asleep : checkSleeping fuel now k.sched = .ok t) : Enters k (.tick now rsp) t
  | call {fuel rsp : Nat} {now : Int} {call : Kernel.Call} {rest : List Semaphore.Frame}
      {k₁ : Semaphore.Kernel} {t : Sched} (enabled : Kernel.Enabled k (.call call now rsp))
      (run : Kernel.invoke fuel k call = .ok (.timer rest, k₁))
      (asleep : checkSleeping fuel now k₁.sched = .ok t) : Enters k (.call call now rsp) t
  | resume {fuel rsp : Nat} {now : Int} {c : Ptr} {rest : List Semaphore.Frame}
      {k₁ : Semaphore.Kernel} {t : Sched} (hc : k.sched.currentProcess = some c)
      (run : Kernel.runFrames fuel (k.frames c)
        { k with frames := Function.update k.frames c [] } = .ok (.timer rest, k₁))
      (asleep : checkSleeping fuel now k₁.sched = .ok t) : Enters k (.resume now rsp) t

/-- Ticks, keys and calls, under the conditions that keep every turn within its bound. No
process is made after the counter `pids` has overflowed, which C leaves undefined. -/
def Timely (k : Semaphore.Kernel) : Kernel.Action → Prop
  | .call (.nice pid offset) _ _ => NiceFits k.sched pid offset
  | .call .wait _ _ => WaitFits k.sched
  | .call (.semPost sem) _ _ => ∀ x pid rest, k.sems sem = some x → x.entering = pid :: rest →
      FirstFits k.sched pid
  | .call (.enqueueProcess _ _ _) _ _ => 0 < k.sched.pids
  | .call (.sleep _ _ _) _ _ => False
  | .call (.openPipe _ _) _ _ => False
  | .call (.writePipe _ _ _) _ _ => False
  | .call (.readPipe _ _ _) _ _ => False
  | .call (.closePipe _ _) _ _ => False
  | _ => True

/-- The current process, and its priority. -/
def Owns (p : Ptr) (prio : Int) (s : Sched) : Prop :=
  ∃ r, s.current = .ok (p, r) ∧ r.priority = prio

/-- Another process is READY. -/
def Rival (p : Ptr) (s : Sched) : Prop := ∃ q, q ≠ p ∧ stateOf s q = some .ready

/-- `p` keeps the processor for `n` ticks, and its priority, while another process is READY. -/
inductive Keeps (p : Ptr) (prio : Int) : Nat → Semaphore.Kernel → Semaphore.Kernel → Prop where
  | done {k : Semaphore.Kernel} (own : Owns p prio k.sched) : Keeps p prio 0 k k
  | tick {n rsp : Nat} {now : Int} {k k₁ k' : Semaphore.Kernel} (own : Owns p prio k.sched)
      (rival : Rival p k.sched) (step : Kernel.Step k (.tick now rsp) k₁)
      (rest : Keeps p prio n k₁ k') : Keeps p prio (n + 1) k k'
  | other {n : Nat} {a : Kernel.Action} {k k₁ k' : Semaphore.Kernel} (own : Owns p prio k.sched)
      (rival : Rival p k.sched) (timely : Timely k a) (step : Kernel.Step k a k₁)
      (rest : Keeps p prio n k₁ k') : Keeps p prio n k k'

/-- What holds between two steps. -/
structure Going (k : Semaphore.Kernel) : Prop where
  settled : Settled k.sched
  inv : ListRuns.Inv k
  paced : Paced k.sched
  awake : k.sched.firstSleep = []

section
open Semaphore (Flow Frame)
variable {k k' k₁ : Semaphore.Kernel} {fuel n : Nat} {flow : Flow} {call : Kernel.Call}
  {a : Kernel.Action} {now prio : Int} {rsp : Nat} {t : Sched} {c p : Ptr} {r : ProcessCDT}

/-- How a scheduler function ends inside a system call. -/
def Ended (x : Exit) (flow : Flow) : Prop :=
  (x ≠ .forceTimer ∧ flow = .ret) ∨ (x = .forceTimer ∧ ∃ rest, flow = .timer rest)

/-- A system call of the current process leaves the scheduler alone or calls one function of it. -/
theorem invoke_perform (hc : k.sched.current = .ok (c, r)) (busy : r.pid ≠ IDLE_PID)
    (timely : Timely k (.call call now rsp)) (run : Kernel.invoke fuel k call = .ok (flow, k')) :
    (flow = .ret ∧ k'.sched = k.sched) ∨ ∃ op x, Callable k.sched op ∧ Fits k.sched op ∧
      (∀ now rsp, Waking (.call op now rsp)) ∧ perform fuel k.sched op = .ok (x, k'.sched) ∧
      Ended x flow := by
  have called : Busy k.sched := by
    unfold Busy
    rw [hc]
    exact busy
  have plain (op : Op) {y : C (Exit × Sched)} (callable : Callable k.sched op)
      (fits : Fits k.sched op) (waking : ∀ now rsp, Waking (.call op now rsp))
      (same : perform fuel k.sched op = y) (run : Kernel.ofExit k y = .ok (flow, k')) :
      (flow = .ret ∧ k'.sched = k.sched) ∨ ∃ op x, Callable k.sched op ∧ Fits k.sched op ∧
        (∀ now rsp, Waking (.call op now rsp)) ∧ perform fuel k.sched op = .ok (x, k'.sched) ∧
        Ended x flow := by
    obtain ⟨x, s, hy, ends, rfl⟩ := SemRuns.ofExit_cases run
    exact .inr ⟨op, x, callable, fits, waking, same.trans hy,
      ends.imp_right fun ⟨force, rest⟩ => ⟨force, _, rest⟩⟩
  cases call with
  | quitCPU => exact plain .quitCPU called trivial (fun _ _ => trivial) rfl run
  | enqueueProcess foreground fd m =>
    obtain ⟨⟨pid, s⟩, h1, run1⟩ := bind_ok.mp run
    obtain ⟨q, -, run2⟩ := bind_ok.mp run1
    obtain ⟨rfl, rfl⟩ := Prod.mk.inj (Except.ok.inj run2)
    refine .inr ⟨.enqueueProcess foreground fd m, .ret pid, ⟨called, timely⟩, trivial,
      fun _ _ => trivial, ?_, .inl ⟨by simp, rfl⟩⟩
    exact bind_ok.mpr ⟨(pid, s), h1, rfl⟩
  | block pid => exact plain (.block pid) called trivial (fun _ _ => trivial) rfl run
  | unblock pid => exact plain (.unblock pid) called trivial (fun _ _ => trivial) rfl run
  | kill pid => exact plain (.kill pid) called trivial (fun _ _ => trivial) rfl run
  | nice pid offset => exact plain (.nice pid offset) called timely (fun _ _ => trivial) rfl run
  | wait => exact plain .wait called timely (fun _ _ => trivial) rfl run
  | blockIo => exact plain .blockIo called trivial (fun _ _ => trivial) rfl run
  | sleep now secs m => exact timely.elim
  | semOpen name value m =>
    obtain ⟨⟨p, k1⟩, h1, run1⟩ := bind_ok.mp run
    obtain ⟨rfl, rfl⟩ := Prod.mk.inj (Except.ok.inj run1)
    obtain ⟨-, ⟨-, rfl⟩ | ⟨-, -, rfl⟩⟩ := SemCalls.semOpen_cases h1 <;> exact .inl ⟨rfl, rfl⟩
  | semWait m sem =>
    obtain ⟨-, x, pid, -, -, ⟨-, rfl, rfl⟩ | ⟨-, e, s, hb, ⟨rfl, rfl, rfl⟩ | ⟨ret, run1⟩⟩⟩ :=
      SemCalls.semWait_cases run
    · exact .inl ⟨rfl, rfl⟩
    · exact .inr ⟨.block pid, .forceTimer, called, trivial, fun _ _ => trivial, hb,
        .inr ⟨rfl, _, rfl⟩⟩
    · obtain ⟨rfl, -, x', pid', -, -, rfl⟩ := SemCalls.semWaitBlocked_cases run1
      exact .inr ⟨.block pid, e, called, trivial, fun _ _ => trivial, hb, .inl ⟨ret, rfl⟩⟩
  | semPost sem =>
    obtain ⟨-, x, hx, ⟨-, rfl, rfl⟩ | ⟨pid, rest, e, s, hq, hu, rfl, ended⟩⟩ :=
      SemCalls.semPost_cases run
    · exact .inl ⟨rfl, rfl⟩
    · refine .inr ⟨.unblockFirst pid, e, called, timely x pid rest hx hq, fun _ _ => trivial,
        hu, ?_⟩
      rcases ended with ⟨force, rfl⟩ | ⟨ret, rfl⟩
      · exact .inr ⟨force, _, rfl⟩
      · exact .inl ⟨ret, rfl⟩
  | semClose sem =>
    obtain ⟨⟨code, k1⟩, h1, run1⟩ := bind_ok.mp run
    obtain ⟨rfl, rfl⟩ := Prod.mk.inj (Except.ok.inj run1)
    obtain ⟨rfl, -⟩ | ⟨q, -, -, -, rfl⟩ := SemCalls.semClose_cases h1 <;> exact .inl ⟨rfl, rfl⟩
  | openPipe name m => exact timely.elim
  | writePipe m fd c => exact timely.elim
  | readPipe m m' fd => exact timely.elim
  | closePipe m fd => exact timely.elim

/-- An action that the scheduler does not see, or a step of the scheduler. -/
theorem kernel_step (going : Going k) (timely : Timely k a) (step : Kernel.Step k a k') :
    (k'.sched = k.sched ∧ ∀ now rsp, a ≠ .tick now rsp) ∨
    ∃ e, FitsStep k.sched e ∧ Waking e ∧ SchedCalls.Step k.sched e k'.sched ∧
      ∀ now rsp, a = .tick now rsp → e = .tick now rsp := by
  obtain ⟨enabled, fuel, run⟩ := step
  obtain ⟨-, -, c, r, hc, -⟩ := going.settled
  cases a with
  | tick now rsp =>
    obtain ⟨s, h1, run1⟩ := bind_ok.mp run
    obtain rfl := Except.ok.inj run1
    exact .inr ⟨.tick now rsp, trivial, trivial, ⟨trivial, fuel, h1⟩, fun _ _ h => by cases h; rfl⟩
  | key =>
    obtain ⟨s, h1, run1⟩ := bind_ok.mp run
    obtain rfl := Except.ok.inj run1
    refine .inr ⟨.call .unblockIo 0 0, trivial, trivial, ⟨trivial, fuel, ?_⟩,
      fun _ _ h => by cases h⟩
    have performed : perform fuel k.sched .unblockIo = .ok (.ret EXIT_SUCCESS, s) :=
      bind_ok.mpr ⟨s, h1, rfl⟩
    exact bind_ok.mpr ⟨_, performed, rfl⟩
  | call call now rsp =>
    obtain ⟨c', -, run1⟩ := bind_ok.mp run
    obtain ⟨⟨flow, k₁⟩, h1, run2⟩ := bind_ok.mp run1
    simp only [Kernel.Enabled, hc] at enabled
    rcases invoke_perform hc enabled.2 timely h1 with ⟨rfl, same⟩ |
      ⟨op, x, callable, fits, waking, performed, ⟨ret, rfl⟩ | ⟨rfl, rest, rfl⟩⟩
    · obtain rfl := Except.ok.inj run2
      exact .inl ⟨same, fun _ _ h => by cases h⟩
    · obtain rfl := Except.ok.inj run2
      refine .inr ⟨.call op now rsp, fits, waking now rsp, ⟨callable, fuel, ?_⟩,
        fun _ _ h => by cases h⟩
      refine bind_ok.mpr ⟨_, performed, ?_⟩
      cases x with
      | ret code => rfl
      | forceTimer => exact absurd rfl ret
    · obtain ⟨s, h2, run3⟩ := bind_ok.mp run2
      obtain rfl := Except.ok.inj run3
      exact .inr ⟨.call op now rsp, fits, waking now rsp, ⟨callable, fuel,
        bind_ok.mpr ⟨_, performed, h2⟩⟩, fun _ _ h => by cases h⟩
  | resume now rsp =>
    obtain ⟨c', -, run1⟩ := bind_ok.mp run
    obtain ⟨⟨flow, k₁⟩, h1, run2⟩ := bind_ok.mp run1
    obtain ⟨rfl, same, -⟩ := ListRuns.runFrames_tidy (going.inv.2 c') h1
    obtain rfl := Except.ok.inj run2
    exact .inl ⟨same, fun _ _ h => by cases h⟩

theorem timely_proper (going : Going k) (timely : Timely k a) : ListRuns.Proper k a := by
  obtain ⟨⟨nodes, sound⟩, -⟩ := going.settled
  unfold ListRuns.Proper
  split
  · intro x pid rest c r hx hq hc
    exact timely x pid rest hx hq c r hc
  · intro p hp
    obtain ⟨r, hr, pid⟩ := Option.map_eq_some_iff.mp hp
    have below := (sound.counter timely).2 p r hr
    omega
  · exact timely.elim
  · exact timely.elim
  · exact timely.elim
  · exact timely.elim
  · trivial

theorem Going.step (going : Going k) (timely : Timely k a) (step : Kernel.Step k a k') :
    Going k' := by
  have inv := ListRuns.step_inv going.inv (timely_proper going timely) step
  rcases kernel_step going timely step with ⟨same, -⟩ | ⟨e, fits, waking, step, -⟩
  · exact ⟨same ▸ going.settled, inv, same ▸ going.paced, same ▸ going.awake⟩
  · obtain ⟨⟨nodes, sound⟩, -, c, r, hc, -⟩ := id going.settled
    exact ⟨step_settled going.settled step, inv,
      step_paced going.settled going.paced going.awake fits waking step,
      (step_wakeful sound (cursor_of_current hc) going.awake waking step).1⟩

/-- One step of a process that keeps the processor. -/
theorem own_step (going : Going k) (timely : Timely k a) (step : Kernel.Step k a k')
    (hc : k.sched.current = .ok (p, r)) {r' : ProcessCDT} (hc' : k'.sched.current = .ok (p, r'))
    (rival : Rival p k.sched) : r.executions ≤ r'.executions ∧
      ((∃ now rsp, a = .tick now rsp) → r.executions + 1 ≤ r'.executions) := by
  obtain ⟨nodes, wired⟩ := going.inv.1
  obtain ⟨⟨nodes', sound⟩, -⟩ := id going.settled
  obtain rfl := listed_unique sound.listed wired.listed
  rcases kernel_step going timely step with ⟨same, quiet⟩ | ⟨e, fits, waking, step, ticks⟩
  · rw [same, hc] at hc'
    obtain ⟨-, rfl⟩ := Prod.mk.inj (Except.ok.inj hc')
    exact ⟨Int.le_refl _, fun ⟨now, rsp, e⟩ => absurd e (quiet now rsp)⟩
  · obtain ⟨q, other, ready⟩ := rival
    have listed : ∀ {x st}, stateOf k.sched x = some st → x ∈ nodes' := by
      intro x st hx
      by_contra n
      rw [stateOf, (wired.records x).mpr n] at hx
      cases hx
    obtain ⟨hcur, hr⟩ := current_ok.mp hc
    obtain ⟨less, more⟩ := step_counts going.settled going.paced going.awake sound hc
      (listed (stateOf_of hr)) (listed ready) other ready fits waking step hc'
    exact ⟨less, fun ⟨now, rsp, e⟩ => more ⟨now, rsp, ticks now rsp e⟩⟩

theorem Going.measured (going : Going k) (hc : k.sched.current = .ok (c, r)) :
    Measured (k.sched.currentProcess = some c) r := by
  obtain ⟨-, -, c', r', hc', ready⟩ := going.settled
  obtain ⟨rfl, rfl⟩ := Prod.mk.inj (Except.ok.inj (hc.symm.trans hc'))
  exact going.paced c r (current_ok.mp hc).2 (by rw [ready]; simp)

/-- The ticks that are left of a turn. -/
theorem Keeps.count (going : Going k) (keeps : Keeps p prio n k k') :
    ∃ r, k.sched.current = .ok (p, r) ∧ 0 ≤ r.executions ∧
      r.executions + n ≤ MAX_PRIORITY - prio := by
  induction keeps with
  | done own =>
    obtain ⟨r, hc, rfl⟩ := own
    have m := going.measured hc
    refine ⟨r, hc, m.started, ?_⟩
    have bound : r.executions ≤ MAX_PRIORITY - r.priority := by
      rcases m.within with room | ⟨-, -, all⟩ <;> omega
    simpa using bound
  | tick own rival step rest ih =>
    obtain ⟨r, hc, -⟩ := own
    obtain ⟨r', hc', -, bound⟩ := ih (going.step (by trivial) step)
    have more := (own_step going (by trivial) step hc hc' rival).2 ⟨_, _, rfl⟩
    refine ⟨r, hc, (going.measured hc).started, ?_⟩
    push_cast
    omega
  | other own rival timely step rest ih =>
    obtain ⟨r, hc, -⟩ := own
    obtain ⟨r', hc', -, bound⟩ := ih (going.step timely step)
    have less := (own_step going timely step hc hc' rival).1
    exact ⟨r, hc, (going.measured hc).started, by omega⟩

end

end BottlerOS.QuantumRuns
