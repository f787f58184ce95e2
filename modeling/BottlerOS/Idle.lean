import BottlerOS.Wakeful

/-! When idle runs. Idle is first in the list and has turns of one tick. `idleFlag` says
that it is READY; it is made READY when a full round has found nobody else, and is
BLOCKED again when another process gets its turn. -/

namespace BottlerOS.Idle
open Machine Scheduler LinkedList ProcessList ProcessFields ProcessLinks
open SchedCalls SchedRuns Turns Effects Wakeful

/-- A call that names idle. -/
def Names : Op → Prop
  | .block pid | .unblock pid | .unblockFirst pid | .kill pid | .nice pid _ => pid = IDLE_PID
  | _ => False

/-- Nobody names idle. -/
def Apart : Event → Prop
  | .tick _ _ => True
  | .call op _ _ => ¬ Names op

/-- Idle is BLOCKED, the flag is down and another process is current. -/
def Away (s : Sched) (i : Ptr) : Prop :=
  stateOf s i = some .blocked ∧ s.idleFlag = 0 ∧ s.currentProcess ≠ some i

/-- Idle is READY, the flag is up and idle is current. -/
def OnTurn (s : Sched) (i : Ptr) : Prop :=
  stateOf s i = some .ready ∧ s.idleFlag ≠ 0 ∧ s.currentProcess = some i

/-- Idle `i`, first in the list, with what its turns rest on. -/
structure Keeper (s : Sched) (nodes : List Ptr) (i : Ptr) : Prop where
  head : nodes.head? = some i
  sole : ∀ p, pidOf s p = some IDLE_PID ↔ p = i
  record : ∃ r, s.procs i = some r ∧ r.priority = 39 ∧
    ((r.state = .blocked ∧ s.idleFlag = 0 ∧ s.currentProcess ≠ some i ∧ r.executions = 0) ∨
      (r.state = .ready ∧ s.idleFlag ≠ 0 ∧ s.currentProcess = some i ∧ r.executions = 1))

section
variable {s s' t : Sched} {nodes nodes' : List Ptr} {fuel steps : Nat} {c d i p q : Ptr}
  {pid : Int} {r rc a b : ProcessCDT} {x : Exit} {f : Ptr → ProcessCDT → ProcessCDT}

theorem Keeper.mem (h : Keeper s nodes i) : i ∈ nodes := List.mem_of_mem_head? h.head

theorem Keeper.first (h : Keeper s nodes i) (hl : Listed s nodes) : s.firstProcess = some i := by
  rw [linked_head hl.linked, h.head]
  rfl

theorem Keeper.relation (h : Keeper s nodes i) : Away s i ∨ OnTurn s i := by
  obtain ⟨r, hr, -, ⟨state, flag, cur, -⟩ | ⟨state, flag, cur, -⟩⟩ := h.record
  · exact .inl ⟨by rw [stateOf_of hr, state], flag, cur⟩
  · exact .inr ⟨by rw [stateOf_of hr, state], flag, cur⟩

theorem Keeper.still (h : Keeper s nodes i) (pids : ∀ p, pidOf t p = pidOf s p) (p : Ptr) :
    pidOf t p = some IDLE_PID ↔ p = i := by
  rw [pids p]
  exact h.sole p

/-- What a call leaves of idle while another process is current. -/
theorem Keeper.keep (h : Keeper s nodes i) (away : s.currentProcess ≠ some i)
    (head : nodes'.head? = some i) (sole : ∀ p, pidOf t p = some IDLE_PID ↔ p = i)
    (flag : t.idleFlag = s.idleFlag)
    (current : t.currentProcess = s.currentProcess)
    (like : ∀ r, s.procs i = some r → r.state = .blocked → ∃ r', t.procs i = some r' ∧ Like r r') :
    Keeper t nodes' i := by
  obtain ⟨r, hr, prio, ⟨state, low, cur, zero⟩ | ⟨-, -, cur, -⟩⟩ := h.record
  · obtain ⟨r', hr', st, pr, ex⟩ := like r hr state
    exact ⟨head, sole, r', hr', pr.trans prio,
      .inl ⟨st.trans state, flag.trans low, fun e => cur (current.symm.trans e), ex.trans zero⟩⟩
  · exact absurd cur away

theorem put_like (hp : s.procs p = some a) (hr : s.procs i = some r) (like : i = p → Like a b) :
    ∃ r', (s.put p b).procs i = some r' ∧ Like r r' := by
  rw [put_procs]
  split <;> rename_i hip
  · rw [hip, hp] at hr
    obtain rfl := Option.some.inj hr
    exact ⟨b, rfl, like hip⟩
  · exact ⟨r, hr, .refl r⟩

/-- A blocked idle is nobody that a search for another pid finds. -/
theorem Keeper.other (h : Keeper s nodes i) (hd : Found s nodes pid d) (apart : pid ≠ IDLE_PID) :
    i ≠ d := by
  rintro rfl
  exact apart (Option.some.inj (hd.2.symm.trans ((h.sole i).mpr rfl)))

theorem block_keeper (hs : Sound s nodes) (h : Keeper s nodes i)
    (away : s.currentProcess ≠ some i) (apart : pid ≠ IDLE_PID)
    (run : block fuel pid s = .ok (x, t)) : Keeper t nodes i := by
  rcases block_exact hs.listed run with ⟨-, rfl, -⟩ | ⟨d, rd, c, rc, hd, -, -, hc, -, k⟩
  · exact h
  have hic : i ≠ c := fun e => away (e ▸ (current_ok.mp hc).1)
  have cases := block_cases hs.listed run
  have rest : t.idleFlag = s.idleFlag ∧ t.currentProcess = s.currentProcess ∧
      ∀ p, pidOf t p = pidOf s p := by
    rcases cases with ⟨-, rfl, -⟩ | ⟨d, -, r, -, -, -, -, c, rc, -, hself⟩
    · exact ⟨rfl, rfl, fun _ => rfl⟩
    · rcases hself with ⟨-, -, k⟩ | ⟨-, -, k⟩ <;>
        exact ⟨k.idle, k.current, fun p => k.pidOf_eq⟩
  obtain ⟨flag, current, pids⟩ := rest
  refine h.keep away h.head (h.still pids) flag current fun r hr _ =>
    k.edited.like hr ?_
  have inner : Like r (onParent give s nodes rd i (upon d (setState .blocked) i r)) :=
    (like_upon r (h.other hd apart)).trans (like_onParent like_give i _)
  refine inner.trans ?_
  by_cases self : pid = rc.pid
  · rw [if_pos self]
    exact like_upon _ hic
  · rw [if_neg self]
    exact .refl _

theorem unblock_keeper (hs : Sound s nodes) (h : Keeper s nodes i) (apart : pid ≠ IDLE_PID)
    (run : unblock fuel pid s = .ok (x, t)) : Keeper t nodes i := by
  rcases unblock_exact hs.listed run with ⟨rfl, -⟩ | ⟨d, rd, hd, -, -, k⟩
  · exact h
  have rest : t.idleFlag = s.idleFlag ∧ t.currentProcess = s.currentProcess ∧
      ∀ p, pidOf t p = pidOf s p := by
    rcases unblock_cases hs.listed run with ⟨rfl, -⟩ | ⟨d, -, r, -, -, -, -, k, -⟩
    · exact ⟨rfl, rfl, fun _ => rfl⟩
    · exact ⟨k.idle, k.current, fun p => k.pidOf_eq⟩
  obtain ⟨flag, current, pids⟩ := rest
  obtain ⟨r, hr, prio, turn⟩ := h.record
  obtain ⟨r', hr', st, pr, ex⟩ := k.edited.like hr
    ((like_upon r (h.other hd apart)).trans (like_onParent like_take i _))
  exact ⟨h.head, h.still pids, r', hr',
    pr.trans prio, by rw [st, ex, flag, current]; exact turn⟩

theorem kill_keeper (hs : Sound s nodes) (h : Keeper s nodes i)
    (away : s.currentProcess ≠ some i) (apart : pid ≠ IDLE_PID)
    (run : kill fuel pid s = .ok (x, t)) : Keeper t nodes i := by
  rcases kill_exact hs.listed run with ⟨-, rfl, -⟩ | ⟨d, rd, c, rc, hd, -, hc, -, -, k⟩
  · exact h
  have rest : t.idleFlag = s.idleFlag ∧ t.currentProcess = s.currentProcess ∧
      ∀ p, pidOf t p = pidOf s p := by
    rcases kill_cases hs.listed run with ⟨-, rfl, -⟩ | ⟨d, -, r, -, -, k, -⟩
    · exact ⟨rfl, rfl, fun _ => rfl⟩
    · exact ⟨k.idle, k.current, fun p => k.map_eq _ fun _ _ k => k.kept.pid⟩
  obtain ⟨flag, current, pids⟩ := rest
  refine h.keep away h.head (h.still pids) flag current fun r hr blocked =>
    k.edited.like hr ?_
  have parent : Like r (if Found s nodes rd.ppid i then orphan rd.foreground r else r) := by
    split
    · exact like_orphan (by rw [blocked]; simp)
    · exact .refl r
  exact parent.trans (like_upon _ (h.other hd apart))

theorem unblockFirst_keeper (hs : Sound s nodes) (h : Keeper s nodes i)
    (hc : s.current = .ok (c, rc)) (away : s.currentProcess ≠ some i) (apart : pid ≠ IDLE_PID)
    (ht : Sound t nodes') (run : unblockFirst fuel pid s = .ok (x, t)) : Keeper t nodes' i := by
  have first : t.firstProcess = some i := by
    refine (unblockFirst_first hs.listed hc (fun d hd hp => ?_) run).trans (h.first hs.listed)
    rw [h.first hs.listed] at hd
    obtain rfl := Option.some.inj hd
    exact apart (Option.some.inj (hp.symm.trans ((h.sole i).mpr rfl)))
  have head : nodes'.head? = some i := by
    rw [linked_head ht.listed.linked] at first
    simpa using first
  have hic : i ≠ c := fun e => away (e ▸ (current_ok.mp hc).1)
  rcases unblockFirst_shape hs hc run with ⟨-, rfl, -⟩ | ⟨d, -, rd, -, -, -, -, u⟩
  · obtain rfl := listed_unique ht.listed hs.listed
    exact h
  refine h.keep away head (h.still fun p => u.shuffled.pidOf_eq) u.shuffled.idle
    u.shuffled.current fun r hr _ => ?_
  rcases unblockFirst_edited hs hc run with ⟨-, rfl, -⟩ | ⟨d, rd, nodes₁, hd, -, -, -, -, -, k⟩
  · exact ⟨r, hr, .refl r⟩
  · exact k.like hr ((like_upon r hic).trans
      ((like_upon _ (h.other hd apart)).trans (like_onParent like_take i _)))

theorem enqueueProcess_keeper {foreground : Int} {fd : Option Ptr} {m : Mallocs}
    (hs : Sound s nodes) (h : Keeper s nodes i) (hc : s.current = .ok (c, rc))
    (busy : rc.pid ≠ IDLE_PID) (away : s.currentProcess ≠ some i) (pos : 0 < s.pids)
    (ht : Sound t nodes') (run : enqueueProcess fuel 0 foreground fd m s = .ok (pid, t)) :
    Keeper t nodes' i := by
  obtain ⟨q, fd', auxi, aux, hm, -, free, hq, k⟩ := enqueueProcess_edited hs hc busy run
  obtain ⟨-, q', hm', sound, e⟩ := enqueueProcess_sound hs pos run
  obtain rfl := Option.some.inj (hm.symm.trans hm')
  obtain rfl := listed_unique ht.listed sound.listed
  have hic : i ≠ c := fun e => away (e ▸ (current_ok.mp hc).1)
  have hiq : i ≠ q := fun e => hs.live h.mem (e ▸ free)
  have head : (nodes ++ [q]).head? = some i := by
    rw [List.head?_append, h.head]
    rfl
  refine h.keep away head (fun p => ?_) e.idle e.current fun r hr blocked => ?_
  · by_cases hp : p = q
    · have above := (hs.counter pos).1
      rw [hp, pidOf_of hq]
      refine iff_of_false (fun n => ?_) fun n => hiq n.symm
      have : s.pids = IDLE_PID := Option.some.inj n
      omega
    · have same : pidOf t p = pidOf s p := by
        have kp := e.procs p hp
        unfold pidOf
        generalize s.procs p = u at kp ⊢
        generalize t.procs p = v at kp ⊢
        cases kp with
        | none => rfl
        | some kp => exact congrArg some kp.kept.pid
      rw [same]
      exact h.sole p
  · have ki := k i hiq
    rw [hr] at ki
    obtain ⟨b, hb, same⟩ := Option.map_eq_some_iff.mp ki
    have quieted : Like r (quiet s nodes i r) := by
      unfold quiet
      split
      · exact ⟨blocked.symm, rfl, rfl⟩
      · exact .refl r
    exact ⟨b, hb, (quieted.trans (like_upon _ hic)).trans (.bare same)⟩

/-- A call that names no idle leaves idle as it is. -/
theorem perform_keeper {op : Op} (hs : Sound s nodes) (h : Keeper s nodes i)
    (hc : s.current = .ok (c, rc)) (callable : Callable s op) (apart : ¬ Names op)
    (ht : Sound t nodes') (run : perform fuel s op = .ok (x, t)) : Keeper t nodes' i := by
  have busy (hb : Busy s) : rc.pid ≠ IDLE_PID ∧ s.currentProcess ≠ some i := by
    obtain ⟨c', r', hc', other⟩ := hb.current
    obtain ⟨rfl, rfl⟩ := Prod.mk.inj (Except.ok.inj (hc.symm.trans hc'))
    obtain ⟨hcur, hr⟩ := current_ok.mp hc
    refine ⟨other, fun e => other ?_⟩
    obtain rfl := Option.some.inj (hcur.symm.trans e)
    exact Option.some.inj ((pidOf_of hr).symm.trans ((h.sole c).mpr rfl))
  have same (k : Keeper t nodes i) (hl : Listed t nodes) : Keeper t nodes' i := by
    obtain rfl := listed_unique ht.listed hl
    exact k
  -- a call that writes one record, and not that of idle
  have written {p : Ptr} {r a : ProcessCDT} (eq : t = s.put p a) (away : s.currentProcess ≠ some i)
      (hp : s.procs p = some r) (other : i ≠ p) (next : a.next = r.next) (pid : a.pid = r.pid) :
      Keeper t nodes' i := by
    subst eq
    refine same (h.keep away h.head (h.still (put_pidOf hp pid)) rfl rfl
      fun r hr _ => put_like hp hr fun e => absurd e other) ?_
    have k : Rel (fun _ a b => b.next = a.next ∧ b.pid = a.pid) s (s.put p a) :=
      rel_put (fun _ _ => ⟨rfl, rfl⟩) hp ⟨next, pid⟩
    exact k.listed (fun _ _ _ k => k.1) (fun _ _ _ k => k.2) hs.listed
  have self {c' : Ptr} {r : ProcessCDT} (away : s.currentProcess ≠ some i)
      (hc' : s.current = .ok (c', r)) : i ≠ c' := fun e => away (e ▸ (current_ok.mp hc').1)
  cases op with
  | enqueueProcess foreground fd m =>
    obtain ⟨other, away⟩ := busy callable.1
    obtain ⟨⟨pid, s1⟩, h1, run1⟩ := bind_ok.mp run
    obtain ⟨-, rfl⟩ := Prod.mk.inj (Except.ok.inj run1)
    exact enqueueProcess_keeper hs h hc other away callable.2 ht h1
  | block pid =>
    exact same (block_keeper hs h (busy callable).2 apart run) (block_listed hs.listed run)
  | unblock pid => exact same (unblock_keeper hs h apart run) (unblock_listed hs.listed run)
  | unblockFirst pid => exact unblockFirst_keeper hs h hc (busy callable).2 apart ht run
  | kill pid =>
    exact same (kill_keeper hs h (busy callable).2 apart run) (kill_listed hs.listed run)
  | exitProcess =>
    obtain ⟨⟨c', r'⟩, hc', run1⟩ := bind_ok.mp run
    obtain ⟨rfl, rfl⟩ := Prod.mk.inj (Except.ok.inj (hc.symm.trans hc'))
    exact same (kill_keeper hs h (busy callable).2 (busy callable).1 run1)
      (kill_listed hs.listed run1)
  | nice pid offset =>
    rcases nice_cases hs.listed run with rfl | ⟨d, hd, r, hr, hpid, -, -, eq⟩
    · exact same h hs.listed
    · refine written eq (busy callable).2 hr (h.other ⟨hd, ?_⟩ apart) (by rfl) (by rfl)
      rw [pidOf_of hr, hpid]
  | wait =>
    rcases wait_cases run with ⟨-, rfl⟩ | ⟨c', r, hc', -, -, eq⟩
    · exact same h hs.listed
    · exact written eq (busy callable).2 (current_ok.mp hc').2 (self (busy callable).2 hc') (by rfl)
        (by rfl)
  | blockIo =>
    rcases blockIo_cases run with ⟨-, rfl⟩ | ⟨c', r, hc', -, -, eq⟩
    · exact same h hs.listed
    · exact written eq (busy callable).2 (current_ok.mp hc').2 (self (busy callable).2 hc') (by rfl)
        (by rfl)
  | unblockIo =>
    obtain ⟨s1, h1, run1⟩ := bind_ok.mp run
    obtain ⟨-, rfl⟩ := Prod.mk.inj (Except.ok.inj run1)
    have k := unblockIoFrom_awaken h1
    have kx := unblockIo_exact hs.listed h1
    obtain ⟨r, hr, prio, turn⟩ := h.record
    have awake : r.state ≠ .blockedIo := by
      rcases turn with ⟨e, -⟩ | ⟨e, -⟩ <;> simp [e]
    obtain ⟨r', hr', st, pr, ex⟩ := kx.edited.like hr (by
      rw [if_neg fun n => awake n.2]
      exact .refl r)
    refine same ⟨h.head, h.still fun p => Awaken.pidOf k p, r', hr',
      pr.trans prio, ?_⟩ (Awaken.listed k hs.listed)
    rw [st, ex, k.idle, k.current]
    exact turn
  | sleep now secs m =>
    obtain ⟨other, away⟩ := busy callable
    rcases sleep_cases run with ⟨rfl, -⟩ | ⟨c', r, hc', run1⟩
    · exact same h hs.listed
    · obtain ⟨rfl, rfl⟩ := Prod.mk.inj (Except.ok.inj (hc.symm.trans hc'))
      have hs1 : Sound { s with firstSleep := ⟨rc.pid, now, secs⟩ :: s.firstSleep } nodes :=
        hs.of_eq rfl rfl rfl rfl
      have h1 : Keeper { s with firstSleep := ⟨rc.pid, now, secs⟩ :: s.firstSleep } nodes i :=
        ⟨h.head, h.sole, h.record⟩
      exact same (block_keeper hs1 h1 away other run1) (block_listed hs1.listed run1)
  | quitCPU =>
    rcases quitCPU_cases run with ⟨-, rfl⟩ | ⟨c', r, hc', -, eq⟩
    · exact same h hs.listed
    · exact written eq (busy callable).2 (current_ok.mp hc').2 (self (busy callable).2 hc') (by rfl)
        (by rfl)

/-- Nobody who sleeps is idle. -/
def Sleepers (s : Sched) : Prop := ∀ e ∈ s.firstSleep, e.pid ≠ IDLE_PID

theorem perform_sleepers {op : Op} (hs : Sound s nodes) (asleep : Sleepers s)
    (callable : Callable s op) (run : perform fuel s op = .ok (x, t)) : Sleepers t := by
  by_cases waking : Waking (.call op 0 0)
  · unfold Sleepers
    rw [Wakeful.perform_sleepers hs callable waking run]
    exact asleep
  cases op with
  | sleep now secs m =>
    obtain ⟨c, r, hc, other⟩ := Busy.current callable
    rcases sleep_cases run with ⟨rfl, -⟩ | ⟨c', r', hc', run1⟩
    · exact asleep
    obtain ⟨rfl, rfl⟩ := Prod.mk.inj (Except.ok.inj (hc.symm.trans hc'))
    have hs1 : Sound { s with firstSleep := ⟨r.pid, now, secs⟩ :: s.firstSleep } nodes :=
      hs.of_eq rfl rfl rfl rfl
    intro e he
    rw [block_sleepers hs1.listed run1] at he
    rcases List.mem_cons.mp he with rfl | he
    · exact other
    · exact asleep e he
  | _ => exact absurd trivial waking

theorem checkSleeping_keeper {now : Int} (hs : Sound s nodes) (h : Keeper s nodes i)
    (asleep : Sleepers s) (run : checkSleeping fuel now s = .ok t) :
    Keeper t nodes i ∧ Sleepers t := by
  have held := checkSleeping_invariant (I := fun t => Sound t nodes ∧ Keeper t nodes i)
    (fun s l k => ⟨k.1.of_eq rfl rfl rfl rfl, k.2.head, k.2.sole, k.2.record⟩)
    (fun e he s x t k run => ?_) ⟨hs, h⟩ run
  · refine ⟨held.2, fun e he => ?_⟩
    rw [(checkSleepingFrom_touched hs.listed run).1.sleep] at he
    exact asleep e (List.mem_of_mem_filter he)
  · refine ⟨?_, unblock_keeper k.1 k.2 (asleep e he) run⟩
    rcases unblock_cases k.1.listed run with ⟨rfl, -⟩ | ⟨d, hd, r, -, -, -, -, u, -⟩
    · exact k.1
    · exact k.1.touched u fun p hp => hp ▸ hd

end

end BottlerOS.Idle
