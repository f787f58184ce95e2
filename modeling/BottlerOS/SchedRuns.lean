import BottlerOS.SchedCalls
import BottlerOS.Dispatch

/-! What every run of the scheduler keeps, without a condition on its calls. The list
from `firstProcess` is in order. `unblockFirst` of the running process takes that process
off the list and links it to itself: such strays lead only to strays, and none is DEAD. -/

namespace BottlerOS.SchedRuns
open Machine Scheduler LinkedList ProcessList ProcessFields ProcessLinks SchedCalls

structure Sound (s : Sched) (nodes : List Ptr) : Prop where
  listed : Listed s nodes
  stray : ∀ p r, s.procs p = some r → p ∉ nodes →
    r.state ≠ .dead ∧ ∃ q, r.next = some q ∧ q ∉ nodes ∧ s.procs q ≠ none
  small : s.pids ≤ INT_MAX
  counter : 0 < s.pids → IDLE_PID < s.pids ∧ ∀ p r, s.procs p = some r → r.pid < s.pids
  background : ∀ p r, s.procs p = some r → r.pid = IDLE_PID → r.foreground = 0 ∧ r.backWait = 0

/-- The current process, if there is one, has a record. -/
def Cursor (s : Sched) : Prop := ∀ c, s.currentProcess = some c → s.procs c ≠ none

section
variable {R : Ptr → ProcessCDT → ProcessCDT → Prop} {A B : Ptr → Prop} {s s' t : Sched}
  {nodes pre post : List Ptr} {fuel : Nat} {c d p : Ptr} {r rc : ProcessCDT}

theorem Sound.live (h : Sound s nodes) (hp : p ∈ nodes) : s.procs p ≠ none := by
  obtain ⟨r, hr⟩ := h.listed.record hp
  simp [hr]

/-- What waits to be reaped is in the list. -/
theorem Sound.split_dead (h : Sound s nodes) (hr : s.procs p = some r) (dead : r.state = .dead) :
    ∃ pre post, nodes = pre ++ p :: post := by
  apply List.append_of_mem
  by_contra off
  exact (h.stray p r hr off).1 dead

/-- Updates of fields that no list depends on. -/
theorem Sound.rel (h : Sound s nodes) (t : Rel R s s') (next : ∀ p a b, R p a b → b.next = a.next)
    (pid : ∀ p a b, R p a b → b.pid = a.pid)
    (dead : ∀ p a b, R p a b → p ∉ nodes → a.state ≠ .dead → b.state ≠ .dead)
    (rest : ∀ p a b, R p a b → a.foreground = 0 → a.backWait = 0 →
      b.foreground = 0 ∧ b.backWait = 0) : Sound s' nodes := by
  refine ⟨t.listed next pid h.listed, fun p b hb hp => ?_, t.pids ▸ h.small, fun hpos => ?_,
    fun p b hb hpid => ?_⟩
  · obtain ⟨a, ha, hR⟩ := t.old hb
    obtain ⟨alive, q, hq, hn, hlive⟩ := h.stray p a ha hp
    exact ⟨dead p a b hR hp alive, q, (next p a b hR).trans hq, hn,
      fun none => hlive (t.none.mp none)⟩
  · rw [t.pids] at hpos ⊢
    refine ⟨(h.counter hpos).1, fun p b hb => ?_⟩
    obtain ⟨a, ha, hR⟩ := t.old hb
    rw [pid p a b hR]
    exact (h.counter hpos).2 p a ha
  · obtain ⟨a, ha, hR⟩ := t.old hb
    obtain ⟨hf, hw⟩ := h.background p a ha ((pid p a b hR).symm.trans hpid)
    exact rest p a b hR hf hw

theorem Sound.touched (h : Sound s nodes) (t : Touched A B s s')
    (listed : ∀ p, A p → p ∈ nodes) : Sound s' nodes := by
  refine h.rel t (fun _ _ _ k => k.kept.next) (fun _ _ _ k => k.kept.pid) ?_
    (fun _ _ _ k => k.kept.background)
  intro p a b k hp alive
  rw [k.state fun hA => hp (listed p hA)]
  exact alive

/-- A record is written with its old link and pid, and is not made DEAD. -/
theorem Sound.put {a : ProcessCDT} (h : Sound s nodes) (hp : s.procs p = some r)
    (next : a.next = r.next) (pid : a.pid = r.pid) (alive : r.state ≠ .dead → a.state ≠ .dead)
    (foreground : a.foreground = r.foreground) (backWait : a.backWait = r.backWait) :
    Sound (s.put p a) nodes := by
  let R : Ptr → ProcessCDT → ProcessCDT → Prop := fun _ a b => b.next = a.next ∧ b.pid = a.pid ∧
    (a.state ≠ .dead → b.state ≠ .dead) ∧ b.foreground = a.foreground ∧ b.backWait = a.backWait
  have t : Rel R s (s.put p a) := rel_put (fun _ _ => ⟨rfl, rfl, id, rfl, rfl⟩) hp
    ⟨next, pid, alive, foreground, backWait⟩
  refine h.rel t (fun _ _ _ k => k.1) (fun _ _ _ k => k.2.1) (fun _ _ _ k _ => k.2.2.1) ?_
  intro p a b k hf hw
  exact ⟨k.2.2.2.1.trans hf, k.2.2.2.2.trans hw⟩

/-- The globals other than the list's ends and the counter are free. -/
theorem Sound.of_eq (h : Sound s nodes) (procs : s'.procs = s.procs)
    (first : s'.firstProcess = s.firstProcess) (last : s'.lastProcess = s.lastProcess)
    (pids : s'.pids = s.pids) : Sound s' nodes where
  listed := by
    refine ⟨?_, ?_, last.trans h.listed.last⟩
    · rw [first]
      exact linked_congr (fun x _ => by rw [link, procs, link]) h.listed.linked
    · have same : pidOf s' = pidOf s := funext fun x => by rw [pidOf, procs, pidOf]
      rw [same]
      exact h.listed.pids
  stray := by
    rw [procs]
    exact h.stray
  small := by
    rw [pids]
    exact h.small
  counter := by
    rw [procs, pids]
    exact h.counter
  background := by
    rw [procs]
    exact h.background

theorem Cursor.rel (h : Cursor s) (t : Rel R s s') : Cursor s' := by
  intro c hc none
  exact h c (t.current.symm.trans hc) (t.none.mp none)

theorem cursor_of_current (h : s.current = .ok (c, r)) : Cursor s := by
  obtain ⟨hc, hr⟩ := current_ok.mp h
  intro x hx
  obtain rfl := Option.some.inj (hc.symm.trans hx)
  simp [hr]

/-- What follows a record, in the list or among the strays, has a record. -/
theorem Sound.next_live (h : Sound s nodes) (hr : s.procs p = some r) :
    ∀ q, r.next = some q → s.procs q ≠ none := by
  intro q hq
  by_cases hp : p ∈ nodes
  · obtain ⟨pre, post, rfl⟩ := List.append_of_mem hp
    rw [h.listed.next hr] at hq
    have hm : q ∈ post := List.mem_of_mem_head? hq
    exact h.live (by simp [hm])
  · obtain ⟨-, q', hq', -, hlive⟩ := h.stray p r hr hp
    obtain rfl := Option.some.inj (hq.symm.trans hq')
    exact hlive

/-- What a call leaves, before the timer handler runs. -/
structure Called (s t : Sched) (x : Exit) : Prop where
  sound : ∃ nodes, Sound t nodes
  current : t.currentProcess = s.currentProcess
  blocked : t.firstBlockedIteration = s.firstBlockedIteration
  cursor : Cursor t
  ready : x ≠ .forceTimer → ∀ c r, s.current = .ok (c, r) → r.state = .ready →
    stateOf t c = some .ready

theorem Called.refl {x : Exit} (h : Sound s nodes) (live : Cursor s) : Called s s x :=
  ⟨⟨nodes, h⟩, rfl, rfl, live, fun _ c r hc hr => by
    rw [stateOf_of (current_ok.mp hc).2, hr]⟩

/-- A call that only writes fields. -/
theorem Called.rel {x : Exit} (t : Rel R s s') (live : Cursor s) (sound : Sound s' nodes)
    (ready : x ≠ .forceTimer → ∀ c r, s.current = .ok (c, r) → r.state = .ready →
      stateOf s' c = some .ready) : Called s s' x :=
  ⟨⟨nodes, sound⟩, t.current, t.blocked, live.rel t, ready⟩

/-- A call that writes the record of the current process and ends in `forceTimer()`. -/
theorem Called.put {a : ProcessCDT} (h : Sound s nodes) (hc : s.current = .ok (c, r))
    (next : a.next = r.next) (pid : a.pid = r.pid) (alive : r.state ≠ .dead → a.state ≠ .dead)
    (foreground : a.foreground = r.foreground) (backWait : a.backWait = r.backWait) :
    Called s (s.put c a) .forceTimer := by
  obtain ⟨hcur, hr⟩ := current_ok.mp hc
  refine ⟨⟨nodes, h.put hr next pid alive foreground backWait⟩, rfl, rfl, fun x hx => ?_,
    fun n => absurd rfl n⟩
  obtain rfl := Option.some.inj (hcur.symm.trans hx)
  simp

theorem block_called {pid : Int} {x : Exit} (h : Sound s nodes) (live : Cursor s)
    (run : block fuel pid s = .ok (x, t)) : Called s t x := by
  rcases block_cases h.listed run with ⟨-, rfl, -⟩ | ⟨d, hd, r, hr, hpid, -, -, c, rc, hc, hself⟩
  · exact .refl h live
  rcases hself with ⟨-, rfl, k⟩ | ⟨other, rfl, k⟩
  · exact .rel k live (h.touched k fun p hp => hp ▸ hd) fun n => absurd rfl n
  · refine .rel k live (h.touched k fun p hp => hp ▸ hd) fun _ c' r' hc' ready => ?_
    obtain ⟨rfl, rfl⟩ := Prod.mk.inj (Except.ok.inj (hc.symm.trans hc'))
    have hcd : c ≠ d := by
      rintro rfl
      obtain rfl := Option.some.inj (hr.symm.trans (current_ok.mp hc).2)
      exact other hpid.symm
    rw [k.stateOf_eq hcd, stateOf_of (current_ok.mp hc).2, ready]

theorem unblock_called {pid : Int} {x : Exit} (h : Sound s nodes) (live : Cursor s)
    (run : unblock fuel pid s = .ok (x, t)) : Called s t x := by
  rcases unblock_cases h.listed run with ⟨rfl, -⟩ | ⟨d, hd, r, -, -, -, hst, k, -⟩
  · exact .refl h live
  · refine .rel k live (h.touched k fun p hp => hp ▸ hd) fun _ c r hc ready => ?_
    by_cases hcd : c = d
    · rw [hcd, hst]
    · rw [k.stateOf_eq hcd, stateOf_of (current_ok.mp hc).2, ready]

theorem kill_called {pid : Int} {x : Exit} (h : Sound s nodes) (live : Cursor s)
    (run : kill fuel pid s = .ok (x, t)) : Called s t x := by
  rcases kill_cases h.listed run with ⟨-, rfl, -⟩ | ⟨d, hd, r, hr, hpid, k, c, rc, hc, hself⟩
  · exact .refl h live
  have sound : Sound t nodes := by
    refine h.rel k (fun _ _ _ k => k.kept.next) (fun _ _ _ k => k.kept.pid) ?_
      (fun _ _ _ k => k.kept.background)
    intro p a b k hp alive
    have hpd : p ≠ d := fun e => hp (e ▸ hd)
    have state := k.state
    rw [if_neg hpd] at state
    rcases state with e | ⟨-, e⟩
    · rw [e]
      exact alive
    · rw [e]
      simp
  refine .rel k live sound fun hx c' r' hc' ready => ?_
  obtain ⟨rfl, rfl⟩ := Prod.mk.inj (Except.ok.inj (hc.symm.trans hc'))
  rcases hself with ⟨-, hx'⟩ | ⟨other, -⟩
  · exact absurd hx' hx
  have hcd : c ≠ d := by
    rintro rfl
    obtain rfl := Option.some.inj (hr.symm.trans (current_ok.mp hc).2)
    exact other hpid.symm
  obtain ⟨b, hb, kc⟩ := k.some (current_ok.mp hc).2
  have state := kc.state
  rw [if_neg hcd, ready] at state
  rw [stateOf_of hb]
  rcases state with e | ⟨e, -⟩
  · rw [e]
  · cases e

theorem nice_called {pid offset : Int} {x : Exit} (h : Sound s nodes) (live : Cursor s)
    (run : nice fuel pid offset s = .ok (x, t)) : Called s t x := by
  rcases nice_cases h.listed run with rfl | ⟨d, -, r, hr, -, -, -, rfl⟩
  · exact .refl h live
  · refine ⟨⟨nodes, h.put hr rfl rfl id rfl rfl⟩, rfl, rfl, fun c hc => ?_,
      fun _ c rc hc ready => ?_⟩
    · rw [put_procs]
      split
      · simp
      · exact live c hc
    · exact (put_stateOf hr (by rfl) c).trans
        ((stateOf_of (current_ok.mp hc).2).trans (congrArg some ready))

theorem unblockIo_called {x : Exit} (h : Sound s nodes) (live : Cursor s)
    (run : unblockIo fuel s = .ok t) : Called s t x := by
  have k := unblockIoFrom_awaken run
  refine .rel k live (h.rel k (fun _ _ _ k => k.kept.next) (fun _ _ _ k => k.kept.pid) ?_
    (fun _ _ _ k => k.kept.background)) fun _ c r hc ready => ?_
  · intro p a b k _ alive
    rcases k.state with e | ⟨-, e⟩
    · rw [e]
      exact alive
    · rw [e]
      simp
  · rcases Awaken.stateOf k c with e | ⟨-, e⟩
    · rw [e, stateOf_of (current_ok.mp hc).2, ready]
    · exact e

theorem sleep_called {now secs : Int} {m : Option Ptr} {x : Exit} (h : Sound s nodes)
    (live : Cursor s) (run : sleep fuel now secs m s = .ok (x, t)) : Called s t x := by
  rcases sleep_cases run with ⟨rfl, -⟩ | ⟨c, r, -, run1⟩
  · exact .refl h live
  · have h1 : Sound { s with firstSleep := ⟨r.pid, now, secs⟩ :: s.firstSleep } nodes :=
      h.of_eq rfl rfl rfl rfl
    obtain ⟨sound, cur, blk, liv, ready⟩ := block_called h1 live run1
    exact ⟨sound, cur, blk, liv, ready⟩

/-- `removeProcess` writes no record outside the list. -/
theorem removeProcess_outside (hl : Listed s (pre ++ d :: post))
    (run : removeProcess fuel d s = .ok t) :
    ∀ p, p ∉ pre ++ d :: post → t.procs p = s.procs p := by
  intro p hp
  obtain ⟨r, -, ⟨-, rfl⟩ | ⟨pre, q, a, rfl, -, rfl⟩⟩ := removeProcess_cases hl run
  · rfl
  · have hpq : p ≠ q := by
      intro e
      exact hp (by simp [e])
    change (s.put q { a with next := r.next }).procs p = _
    rw [put_procs, if_neg hpq]

/-- The move of `unblockFirst` when the current process is the one moved, or a stray: the
process leaves the list and the current process leads to it. -/
theorem moveAfterCurrent_stray (hl : Listed s (pre ++ d :: post)) (hc : s.current = .ok (c, rc))
    (off : c = d ∨ c ∉ pre ++ d :: post) (run : moveAfterCurrent fuel d s = .ok t) :
    Listed t (pre ++ post) ∧ Shuffled A (· = c) s t ∧ link t c = some (some d) ∧
      (c ≠ d → link t d = some rc.next) ∧
      (∀ p, p ≠ c → p ≠ d → p ∉ pre ++ post → link t p = link s p) ∧
      ∃ r, t.procs c = some r ∧ r.executions = char (MAX_PRIORITY - rc.priority) := by
  obtain ⟨hcur, hrc⟩ := current_ok.mp hc
  unfold moveAfterCurrent at run
  obtain ⟨s1, h1, run1⟩ := bind_ok.mp run
  obtain ⟨hl1, re1, hd1, -⟩ := removeProcess_listed hl h1
  have links := removeProcess_outside hl h1
  have sh1 : Shuffled A (· = c) s s1 := .of_relinked re1
  have hd' : d ∉ pre ++ post := by
    have hn := hl.nodup
    rw [List.nodup_middle] at hn
    exact (List.nodup_cons.mp hn).1
  have hc' : c ∉ pre ++ post := by
    rcases off with rfl | off
    · exact hd'
    · exact fun h => off ((List.mem_append.mp h).elim (fun h => by simp [h]) fun h => by simp [h])
  -- `removeProcess` leaves the record of the current process as it was
  have hrc1 : s1.procs c = some rc := by
    rcases off with rfl | off
    · rw [hd1, hrc]
    · rw [links c off, hrc]
  have notLast : some c ≠ s1.lastProcess := by
    rw [hl1.last]
    exact fun e => hc' (List.mem_of_getLast? e.symm)
  obtain ⟨rd, hrd⟩ := hl.record (p := d) (by simp)
  rw [hrd] at hd1
  simp only [sh1.current, hcur, load_of hrc1, ok_bind] at run1
  by_cases hcd : c = d
  · subst hcd
    simp only [load, put_procs, if_true, ok_bind] at run1
    obtain rfl := Except.ok.inj run1
    refine ⟨⟨?_, ?_, ?_⟩, ?_, by simp [link], fun n => absurd rfl n, fun p hpc _ hp => ?_,
      _, by simp; rfl, rfl⟩
    · exact linked_congr (fun x hx => by simp [link, show x ≠ c from fun e => hc' (e ▸ hx)])
        hl1.linked
    · refine (congrArg List.Nodup (List.map_congr_left fun x hx => ?_)).mpr hl1.pids
      simp [pidOf, show x ≠ c from fun e => hc' (e ▸ hx)]
    · change (if some c = s1.lastProcess then some c else s1.lastProcess) = _
      rw [if_neg notLast, hl1.last]
    · refine sh1.trans ⟨rfl, rfl, rfl, rfl, rfl, fun x => ?_⟩
      simp only [put_procs]
      split <;> rename_i hx
      · rw [hx, hrc1]
        exact .some ⟨⟨rfl, rfl, rfl, rfl, rfl, rfl, rfl, rfl, fun h h' => ⟨h, h'⟩⟩, fun _ => rfl,
          fun n => absurd rfl n, fun _ => rfl⟩
      · cases s1.procs x with
        | none => exact .none
        | some r => exact .some (Touch.refl _ _)
    · have hpd : p ∉ pre ++ c :: post := by
        simp only [List.mem_append, List.mem_cons] at hp ⊢
        grind
      simp [link, hpc, links p hpd]
  · have hdc : d ≠ c := fun e => hcd e.symm
    simp only [load, put_procs, hdc, hcd, if_true, if_false, hd1, ok_bind] at run1
    obtain rfl := Except.ok.inj run1
    refine ⟨⟨?_, ?_, ?_⟩, ?_, by simp [link], fun _ => by simp [link, hdc],
      fun p hpc hpd hp => ?_, _, by simp; rfl, rfl⟩
    · exact linked_congr (fun x hx => by
        simp [link, show x ≠ c from fun e => hc' (e ▸ hx), show x ≠ d from fun e => hd' (e ▸ hx)])
        hl1.linked
    · refine (congrArg List.Nodup (List.map_congr_left fun x hx => ?_)).mpr hl1.pids
      simp [pidOf, show x ≠ c from fun e => hc' (e ▸ hx), show x ≠ d from fun e => hd' (e ▸ hx)]
    · change (if some c = s1.lastProcess then some d else s1.lastProcess) = _
      rw [if_neg notLast, hl1.last]
    · refine sh1.trans ⟨rfl, rfl, rfl, rfl, rfl, fun x => ?_⟩
      simp only [put_procs]
      by_cases hxc : x = c
      · rw [if_pos hxc, hxc, hrc1]
        exact .some ⟨⟨rfl, rfl, rfl, rfl, rfl, rfl, rfl, rfl, fun h h' => ⟨h, h'⟩⟩, fun _ => rfl,
          fun n => absurd rfl n, fun _ => rfl⟩
      · by_cases hxd : x = d
        · rw [if_neg hxc, if_pos hxd, hxd, hd1]
          exact .some (Touch.refl _ _)
        · rw [if_neg hxc, if_neg hxd, if_neg hxc]
          cases s1.procs x with
          | none => exact .none
          | some r => exact .some (Touch.refl _ _)
    · have hpn : p ∉ pre ++ d :: post := by
        simp only [List.mem_append, List.mem_cons] at hp ⊢
        grind
      simp [link, hpc, hpd, links p hpn]

/-- Links and the states and turns of some records change. -/
theorem Sound.shuffled {nodes' : List Ptr} (h : Sound s nodes) (sh : Shuffled A B s s')
    (listed : Listed s' nodes')
    (stray : ∀ p r, s'.procs p = some r → p ∉ nodes' →
      r.state ≠ .dead ∧ ∃ q, r.next = some q ∧ q ∉ nodes' ∧ s'.procs q ≠ none) :
    Sound s' nodes' := by
  refine ⟨listed, stray, sh.pids ▸ h.small, fun hpos => ?_, fun p b hb hpid => ?_⟩
  · rw [sh.pids] at hpos ⊢
    refine ⟨(h.counter hpos).1, fun p b hb => ?_⟩
    obtain ⟨a, ha, k⟩ := sh.old hb
    have same : b.pid = a.pid := k.kept.pid
    rw [same]
    exact (h.counter hpos).2 p a ha
  · obtain ⟨a, ha, k⟩ := sh.old hb
    have same : b.pid = a.pid := k.kept.pid
    obtain ⟨hf, hw⟩ := h.background p a ha (same.symm.trans hpid)
    exact k.kept.background hf hw

/-- A record without its link and its turn. -/
def core (r : ProcessCDT) : ProcessCDT := { r with next := none, executions := 0 }

theorem put_core {a : ProcessCDT} (hp : s.procs p = some r) (same : core a = core r) (q : Ptr) :
    ((s.put p a).procs q).map core = (s.procs q).map core := by
  rw [put_procs]
  split <;> rename_i hq
  · simp [hq, hp, same]
  · rfl

/-- The move writes links and turns. -/
theorem moveAfterCurrent_core (hl : Listed s (pre ++ d :: post)) (hc : s.current = .ok (c, rc))
    (run : moveAfterCurrent fuel d s = .ok t) (q : Ptr) :
    (t.procs q).map core = (s.procs q).map core := by
  obtain ⟨s1, s2, s3, r1, r2, r3, n, last, h1, h2, rfl, h3, rfl, h4, rfl⟩ :=
    moveAfterCurrent_writes hl (current_ok.mp hc).1 run
  obtain ⟨-, re, -, -⟩ := removeProcess_listed hl h1
  have relinked : (s1.procs q).map core = (s.procs q).map core := by
    have k := congrArg (Option.map core) (re.procs q)
    rw [Option.map_map, Option.map_map] at k
    exact k
  rw [← relinked]
  exact (put_core h4 (by rfl) q).trans
    ((put_core h3 (by rfl) q).trans (put_core h2 (by rfl) q))

/-- The move writes no record but those of the list and the current one. -/
theorem moveAfterCurrent_outside (hl : Listed s (pre ++ d :: post)) (hc : s.current = .ok (c, rc))
    (run : moveAfterCurrent fuel d s = .ok t) :
    ∀ p, p ∉ pre ++ d :: post → p ≠ c → t.procs p = s.procs p := by
  intro p hp hpc
  have hpd : p ≠ d := fun e => hp (by simp [e])
  obtain ⟨s1, s2, s3, r1, r2, r3, n, last, h1, -, rfl, -, rfl, -, rfl⟩ :=
    moveAfterCurrent_writes hl (current_ok.mp hc).1 run
  simp only [put_procs, hpc, hpd, if_false]
  exact removeProcess_outside hl h1 p hp

/-- The move, wherever the current process is. -/
theorem moveAfterCurrent_sound (h : Sound s nodes) (hc : s.current = .ok (c, rc)) (hd : d ∈ nodes)
    (alive : stateOf s d ≠ some .dead) (run : moveAfterCurrent fuel d s = .ok t) :
    (∃ nodes', Sound t nodes' ∧ ∀ p ∈ nodes', p ∈ nodes) ∧ Shuffled (fun _ => False) (· = c) s t ∧
      ∃ r, t.procs c = some r ∧ r.executions = char (MAX_PRIORITY - r.priority) := by
  obtain ⟨pre, post, rfl⟩ := List.append_of_mem hd
  have hl := h.listed
  obtain ⟨hcur, hrc⟩ := current_ok.mp hc
  have same : ∀ p, p ∉ pre ++ d :: post → p ≠ c → t.procs p = s.procs p :=
    moveAfterCurrent_outside hl hc run
  have turn : ∀ (sh : Shuffled (fun _ => False) (· = c) s t) (r : ProcessCDT),
      t.procs c = some r → r.priority = rc.priority := by
    intro sh r hr
    obtain ⟨r', hr', k⟩ := sh.some hrc
    obtain rfl := Option.some.inj (hr.symm.trans hr')
    exact k.kept.priority
  by_cases inside : c ∈ pre ++ d :: post ∧ c ≠ d
  · obtain ⟨P, Q, place⟩ := mem_split_of_ne inside.1 inside.2
    obtain ⟨hl', sh, -, -, r, hr, -, he⟩ :=
      moveAfterCurrent_listed (A := fun _ => False) hl hc place run
    have mem : ∀ p, p ∈ pre ++ d :: post ↔ p ∈ P ++ c :: d :: Q := by
      intro p
      have same : p ∈ pre ++ post ↔ p ∈ P ++ c :: Q := by rw [place]
      simp only [List.mem_append, List.mem_cons] at same ⊢
      grind
    refine ⟨⟨_, h.shuffled sh hl' fun p b hb hp => ?_, fun p hp => (mem p).mpr hp⟩, sh, r, hr,
      by rw [he, turn sh r hr]⟩
    rw [← mem] at hp
    rw [same p hp fun e => hp (e ▸ inside.1)] at hb
    obtain ⟨hdead, q, hq, hn, hlive⟩ := h.stray p b hb hp
    exact ⟨hdead, q, hq, fun hm => hn ((mem q).mpr hm), fun none => hlive (sh.none.mp none)⟩
  · -- the process becomes a stray
    have off : c = d ∨ c ∉ pre ++ d :: post := by grind
    obtain ⟨hl', sh, linkc, linkd, others, r, hr, he⟩ :=
      moveAfterCurrent_stray (A := fun _ => False) hl hc off run
    have hd' : d ∉ pre ++ post := by
      have hn := hl.nodup
      rw [List.nodup_middle] at hn
      exact (List.nodup_cons.mp hn).1
    have sub : ∀ p ∈ pre ++ post, p ∈ pre ++ d :: post := by
      intro p hp
      simp only [List.mem_append, List.mem_cons] at hp ⊢
      grind
    have live : ∀ p, s.procs p ≠ none → t.procs p ≠ none := fun p hp none => hp (sh.none.mp none)
    refine ⟨⟨_, h.shuffled sh hl' fun p b hb hp => ?_, sub⟩, sh, r, hr, by rw [he, turn sh r hr]⟩
    have dead : stateOf s p ≠ some .dead → b.state ≠ .dead := by
      intro n e
      rw [← sh.stateOf_eq (fun h => h), stateOf_of hb, e] at n
      exact n rfl
    by_cases hpc : p = c
    · subst hpc
      rw [link_of hb] at linkc
      refine ⟨dead ?_, d, Option.some.inj linkc, hd', live d (h.live hd)⟩
      rcases off with rfl | off
      · exact alive
      · rw [stateOf_of hrc]
        simpa using (h.stray p rc hrc off).1
    · by_cases hpd : p = d
      · subst hpd
        have hcp : c ≠ p := fun e => hpc e.symm
        obtain ⟨-, q, hq, hn, hlive⟩ := h.stray c rc hrc (off.resolve_left hcp)
        have hb' := linkd hcp
        rw [link_of hb, hq] at hb'
        exact ⟨dead alive, q, Option.some.inj hb', fun hm => hn (sub q hm), live q hlive⟩
      · have hpn : p ∉ pre ++ d :: post := by
          simp only [List.mem_append, List.mem_cons] at hp ⊢
          grind
        rw [same p hpn hpc] at hb
        obtain ⟨hdead, q, hq, hn, hlive⟩ := h.stray p b hb hpn
        exact ⟨hdead, q, hq, fun hm => hn (sub q hm), live q hlive⟩

/-- What `unblockFirst` does when its process is found and not DEAD. -/
structure Unblocked (nodes : List Ptr) (c d : Ptr) (s t : Sched) : Prop where
  sound : ∃ nodes', Sound t nodes' ∧ ∀ p ∈ nodes', p ∈ nodes
  shuffled : Shuffled (· = d) (· = c) s t
  ready : stateOf t d = some .ready
  turn : ∃ rc, t.procs c = some rc ∧ rc.executions = char (MAX_PRIORITY - rc.priority)

theorem unblockFirst_shape {pid : Int} {x : Exit} (h : Sound s nodes)
    (hc : s.current = .ok (c, rc)) (run : unblockFirst fuel pid s = .ok (x, t)) :
    (x = .ret EXIT_FAILURE ∧ t = s ∧
      ∀ p ∈ nodes, pidOf s p = some pid → stateOf s p = some .dead) ∨
    ∃ d ∈ nodes, ∃ r, s.procs d = some r ∧ r.pid = pid ∧ r.state ≠ .dead ∧ x = .forceTimer ∧
      Unblocked nodes c d s t := by
  rcases unblockFirst_steps h.listed run with missed | ⟨d, hd, r, s1, r1, parent, prev, hr, hpid,
    hdead, rfl, h1, hr1, -, h2⟩
  · exact .inl missed
  have alive : stateOf s d ≠ some .dead := by
    rw [stateOf_of hr]
    simpa using hdead
  obtain ⟨⟨nodes', sound1, sub⟩, sh1, rc', hrc', turn⟩ := moveAfterCurrent_sound h hc hd alive h1
  have taken : Touched (fun _ => False) (fun _ => False) (s1.put d { r1 with state := .ready }) t :=
    ifForeground_touched (fun _ => takeForeground_touched) h2
  have set := setState_touched hr1 .ready
  have ready : stateOf t d = some .ready := by
    rw [taken.stateOf_eq (fun h => h)]
    simp [stateOf]
  have sound2 : Sound t nodes' := by
    refine Sound.touched ?_ taken fun p h => h.elim
    refine sound1.put hr1 rfl rfl (fun _ => ?_) rfl rfl
    simp
  have t12 : Touched (· = d) (· = c) s1 t :=
    (set.mono (fun _ h => h) fun _ h => h.elim).trans
      (taken.mono (fun _ h => h.elim) fun _ h => h.elim)
  have sh1' : Shuffled (· = d) (· = c) s s1 :=
    ⟨sh1.current, sh1.blocked, sh1.sleep, sh1.pids, sh1.idle, fun p => by
      have h1 := sh1.procs p
      generalize s.procs p = a at h1 ⊢
      generalize s1.procs p = b at h1 ⊢
      cases h1 with
      | none => exact .none
      | some k => exact .some ⟨k.kept, fun _ => k.state (fun h => h), k.executions, k.rsp⟩⟩
  -- the turn set by the move is not touched afterwards
  have keep : Touched (· = d) (fun _ => False) s1 t :=
    set.trans (taken.mono (fun _ h => h.elim) fun _ h => h)
  obtain ⟨rc2, hrc2, k⟩ := keep.some hrc'
  refine .inr ⟨d, hd, r, hr, hpid, hdead, rfl, ⟨nodes', sound2, sub⟩,
    sh1'.trans (.of_touched t12), ready, rc2, hrc2, ?_⟩
  rw [k.executions (fun h => h), turn, k.kept.priority]

/-- `enqueueProcess` writes no link outside the list, but that of its new record. -/
theorem enqueueProcess_links {nullPid foreground pid : Int} {fd : Option Ptr} {m : Mallocs}
    (hl : Listed s nodes) (run : enqueueProcess fuel nullPid foreground fd m s = .ok (pid, t)) :
    ∀ q, q ∉ nodes → m.process ≠ some q → link t q = link s q := by
  intro q hq hm
  obtain ⟨fd', p, auxi, aux, s1, ppid, s2, -, hp, -, -, h1, h2, free, -, -, h4⟩ :=
    enqueueProcess_steps run
  have hqp : q ≠ p := fun e => hm (e ▸ hp)
  obtain ⟨t1, -⟩ := blockIdle_touched hl h1
  have t2 : Touched (fun _ => False) (fun _ => False) s1 s2 := adoptCurrent_touched h2
  have t12 := t1.trans (t2.mono (fun _ h => h.elim) fun _ h => h.elim)
  have same : link s2 q = link s q := t12.map_eq _ fun _ _ k => k.kept.next
  have hl2 : Listed { s2 with pids := int32 (s2.pids + 1) } nodes :=
    ⟨(t12.listed hl).linked, (t12.listed hl).pids, (t12.listed hl).last⟩
  rw [← same]
  rcases appendProcess_cases hl2 free h4 with ⟨-, rfl⟩ | ⟨init, l, a, rfl, -, -, rfl⟩
  · simp [link, hqp]
  · have hql : q ≠ l := fun e => hq (by simp [e])
    simp [link, hqp, hql]

theorem enqueueProcess_sound {nullPid foreground pid : Int} {fd : Option Ptr} {m : Mallocs}
    (h : Sound s nodes) (pos : 0 < s.pids)
    (run : enqueueProcess fuel nullPid foreground fd m s = .ok (pid, t)) :
    pid = s.pids ∧ ∃ p, m.process = some p ∧ Sound t (nodes ++ [p]) ∧
      Enqueued foreground p s t := by
  obtain ⟨lt, above⟩ := h.counter pos
  obtain ⟨hpid, p, hm, hl, e⟩ := enqueueProcess_cases h.listed (fun x hx he => by
    obtain ⟨r, hr⟩ := h.listed.record hx
    rw [pidOf_of hr] at he
    have := above x r hr
    have := Option.some.inj he
    omega) run
  have links := enqueueProcess_links h.listed run
  obtain ⟨r, hr, hrp, hst, -, -, hf, hw⟩ := e.made
  have old : ∀ q b, q ≠ p → t.procs q = some b → ∃ a, s.procs q = some a ∧
      Touch (IsIdle s) (fun x => IsIdle s x ∧ s.currentProcess = some x) q (bare a) (bare b) := by
    intro q b hq hb
    have h1 := e.procs q hq
    rw [hb] at h1
    generalize s.procs q = a at h1
    cases h1 with
    | some h1 => exact ⟨_, rfl, h1⟩
  have live : ∀ q, s.procs q ≠ none → t.procs q ≠ none := by
    intro q hq
    by_cases hqp : q = p
    · simp [hqp, hr]
    · have h1 := e.procs q hqp
      generalize s.procs q = a at h1 hq
      generalize t.procs q = b at h1 ⊢
      cases h1 with
      | none => exact hq
      | some h1 => simp
  have small : t.pids ≤ INT_MAX := by
    rw [e.pids]
    unfold int32 INT_MAX
    omega
  refine ⟨hpid, p, hm, ⟨hl, fun q b hb hq => ?_, small, fun hpos => ?_, fun q b hb hidle => ?_⟩, e⟩
  · rw [List.mem_append, List.mem_singleton, not_or] at hq
    obtain ⟨a, ha, k⟩ := old q b hq.2 hb
    obtain ⟨alive, n, hn, hnn, hlive⟩ := h.stray q a ha hq.1
    have hlink := links q hq.1 fun e' => hq.2 (Option.some.inj (e'.symm.trans hm))
    rw [link_of hb, link_of ha, hn] at hlink
    refine ⟨fun hd => ?_, n, Option.some.inj hlink, ?_, live n hlive⟩
    · rcases e.state q hq.2 with es | ⟨-, -, es⟩
      · rw [stateOf_of hb, stateOf_of ha, hd] at es
        exact alive (Option.some.inj es).symm
      · rw [stateOf_of hb, hd] at es
        cases Option.some.inj es
    · rw [List.mem_append, List.mem_singleton, not_or]
      exact ⟨hnn, fun en => hlive (en ▸ e.free)⟩
  · have hs := h.small
    have next : t.pids = s.pids + 1 := by
      rw [e.pids] at hpos ⊢
      unfold int32 at hpos ⊢
      unfold INT_MAX at hs
      omega
    rw [next]
    refine ⟨by omega, fun q b hb => ?_⟩
    by_cases hq : q = p
    · rw [hq] at hb
      obtain rfl := Option.some.inj (hb.symm.trans hr)
      omega
    · obtain ⟨a, ha, k⟩ := old q b hq hb
      have same : b.pid = a.pid := k.kept.pid
      have := above q a ha
      omega
  · by_cases hq : q = p
    · rw [hq] at hb
      obtain rfl := Option.some.inj (hb.symm.trans hr)
      omega
    · obtain ⟨a, ha, k⟩ := old q b hq hb
      have same : b.pid = a.pid := k.kept.pid
      obtain ⟨hf, hw⟩ := h.background q a ha (same.symm.trans hidle)
      exact k.kept.background hf hw

/-- The READY current process makes a call, or a key is pressed. -/
theorem perform_called {op : Op} {x : Exit} (h : Sound s nodes) (live : Cursor s)
    (callable : Callable s op) (run : perform fuel s op = .ok (x, t)) : Called s t x := by
  cases op with
  | enqueueProcess foreground fd m =>
    obtain ⟨busy, pos⟩ := callable
    obtain ⟨⟨pid, s1⟩, h1, run1⟩ := bind_ok.mp run
    obtain ⟨rfl, rfl⟩ := Prod.mk.inj (Except.ok.inj run1)
    obtain ⟨-, p, -, sound, e⟩ := enqueueProcess_sound h pos h1
    have keep : ∀ c, s.procs c ≠ none → s1.procs c ≠ none := by
      intro c hc
      have hcp : c ≠ p := fun h => hc (h ▸ e.free)
      have k := e.procs c hcp
      generalize s.procs c = a at k hc
      generalize s1.procs c = b at k ⊢
      cases k with
      | none => exact hc
      | some k => simp
    refine ⟨⟨_, sound⟩, e.current, e.blocked, fun c hc => keep c (live c (e.current.symm.trans hc)),
      fun _ c r hc ready => ?_⟩
    obtain ⟨c', r', hc', other⟩ := busy.current
    obtain ⟨rfl, rfl⟩ := Prod.mk.inj (Except.ok.inj (hc.symm.trans hc'))
    have hr := (current_ok.mp hc).2
    have hcp : c ≠ p := by
      rintro rfl
      exact absurd (hr.symm.trans e.free) (by simp)
    rcases e.state c hcp with es | ⟨idle, -, -⟩
    · rw [es, stateOf_of hr, ready]
    · rw [IsIdle, pidOf_of hr] at idle
      exact absurd (Option.some.inj idle) other
  | block pid => exact block_called h live run
  | unblock pid => exact unblock_called h live run
  | unblockFirst pid =>
    obtain ⟨c, r, hc, -⟩ := Busy.current callable
    rcases unblockFirst_shape h hc run with ⟨-, rfl, -⟩ | ⟨d, -, rd, -, -, -, rfl, u⟩
    · exact .refl h live
    · obtain ⟨nodes', sound, -⟩ := u.sound
      refine ⟨⟨nodes', sound⟩, u.shuffled.current, u.shuffled.blocked, fun c hc none => ?_,
        fun n => absurd rfl n⟩
      exact live c (u.shuffled.current.symm.trans hc) (u.shuffled.none.mp none)
  | kill pid => exact kill_called h live run
  | exitProcess =>
    obtain ⟨⟨c, r⟩, -, run1⟩ := bind_ok.mp run
    exact kill_called h live run1
  | nice pid offset => exact nice_called h live run
  | wait =>
    rcases wait_cases run with ⟨rfl, rfl⟩ | ⟨c, r, hc, -, rfl, rfl⟩
    · exact .refl h live
    · exact .put h hc rfl rfl (fun _ => by simp) rfl rfl
  | blockIo =>
    rcases blockIo_cases run with ⟨rfl, rfl⟩ | ⟨c, r, hc, -, rfl, rfl⟩
    · exact .refl h live
    · exact .put h hc rfl rfl (fun _ => by simp) rfl rfl
  | unblockIo =>
    obtain ⟨s1, h1, run1⟩ := bind_ok.mp run
    obtain ⟨rfl, rfl⟩ := Prod.mk.inj (Except.ok.inj run1)
    exact unblockIo_called h live h1
  | sleep now secs m => exact sleep_called h live run
  | quitCPU =>
    rcases quitCPU_cases run with ⟨rfl, rfl⟩ | ⟨c, r, hc, rfl, rfl⟩
    · exact .refl h live
    · exact .put h hc rfl rfl id rfl rfl

end

end BottlerOS.SchedRuns
