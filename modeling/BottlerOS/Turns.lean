import BottlerOS.SchedRuns

/-! The timer handler in any run of the scheduler. `nextProcess` is its loop's passes
between the end of a turn and the start of one. What it does to records is little:
links, saved stack pointers, turns and the state of idle; DEAD records go. -/

namespace BottlerOS.Turns
open Machine Scheduler LinkedList ProcessList ProcessFields ProcessLinks Dispatch
open SchedCalls SchedRuns

/-- One pass of the loop of `nextProcess`. -/
inductive Pass (steps : Nat) (s : Sched) : Sched → Prop where
  | rewind (hc : s.currentProcess = none) : Pass steps s { s with currentProcess := s.firstProcess }
  | wake {c : Ptr} {r : ProcessCDT} {x : Exit} {t : Sched} (hc : s.current = .ok (c, r))
      (asleep : r.state ≠ .ready) (back : some c = s.firstBlockedIteration)
      (run : unblock steps IDLE_PID { s with idleFlag := 1 } = .ok (x, t)) :
      Pass steps s { t with currentProcess := r.next }
  | reap {c : Ptr} {r : ProcessCDT} {t : Sched} (hc : s.current = .ok (c, r))
      (dead : r.state = .dead)
      (run : removeProcess steps c { s with currentProcess := r.next } = .ok t) :
      Pass steps s (t.free c)
  | skip {c : Ptr} {r : ProcessCDT} (hc : s.current = .ok (c, r)) (asleep : r.state ≠ .ready)
      (alive : r.state ≠ .dead) (fresh : some c ≠ s.firstBlockedIteration) :
      Pass steps s { s with
        firstBlockedIteration := s.firstBlockedIteration.or (some c), currentProcess := r.next }

abbrev Passes (steps : Nat) : Sched → Sched → Prop := Relation.ReflTransGen (Pass steps)

/-- What a record keeps in the timer handler. -/
structure Spin (a b : ProcessCDT) : Prop where
  same : b = { a with
    next := b.next, rsp := b.rsp, executions := b.executions, state := b.state }
  state : b.state = a.state ∨
    (a.pid = IDLE_PID ∧ a.state ≠ .dead ∧ (b.state = .ready ∨ b.state = .blocked))

/-- Some DEAD records of the list are unlinked and freed, the others spin. -/
structure Spun (nodes nodes' : List Ptr) (s s' : Sched) : Prop where
  sound : Sound s' nodes'
  cursor : SchedRuns.Cursor s'
  sublist : nodes'.Sublist nodes
  reaped : ∀ p ∈ nodes, p ∉ nodes' → stateOf s p = some .dead ∧ s'.procs p = none
  procs : ∀ p, p ∉ nodes ∨ p ∈ nodes' → Option.Rel Spin (s.procs p) (s'.procs p)
  sleep : s'.firstSleep = s.firstSleep
  pids : s'.pids = s.pids

section
variable {s s' s'' t : Sched} {nodes nodes' nodes'' pre post : List Ptr} {fuel steps : Nat}
  {c d p : Ptr} {r a b : ProcessCDT} {x : Exit}

theorem Spin.refl (a : ProcessCDT) : Spin a a := ⟨rfl, .inl rfl⟩

theorem Spin.pid (h : Spin a b) : b.pid = a.pid := by rw [h.same]

theorem Spin.dead (h : Spin a b) : b.state = .dead ↔ a.state = .dead := by
  rcases h.state with e | ⟨-, n, e | e⟩
  · rw [e]
  · simp [e, n]
  · simp [e, n]

theorem Spin.trans {a b c : ProcessCDT} (h : Spin a b) (h' : Spin b c) : Spin a c where
  same := by
    rw [h'.same, h.same]
  state := by
    rcases h'.state with e' | ⟨i, n, e'⟩
    · rw [e']
      exact h.state
    · exact .inr ⟨h.pid.symm.trans i, fun e => n (h.dead.mpr e), e'⟩

theorem Spun.refl (h : Sound s nodes) (live : SchedRuns.Cursor s) : Spun nodes nodes s s where
  sound := h
  cursor := live
  sublist := List.Sublist.refl _
  reaped _ hp hn := absurd hp hn
  procs p _ := by
    cases s.procs p with
    | none => exact .none
    | some r => exact .some (Spin.refl r)
  sleep := rfl
  pids := rfl

theorem Spun.trans (h : Spun nodes nodes' s s') (h' : Spun nodes' nodes'' s' s'') :
    Spun nodes nodes'' s s'' := by
  have rel : ∀ p, p ∉ nodes ∨ p ∈ nodes'' → Option.Rel Spin (s.procs p) (s''.procs p) := by
    intro p hp
    have h1 := h.procs p (hp.imp_right fun hm => h'.sublist.subset hm)
    have h2 := h'.procs p (hp.imp_left fun hn hm => hn (h.sublist.subset hm))
    generalize s.procs p = a at *
    generalize s'.procs p = b at *
    generalize s''.procs p = c at *
    cases h1 with
    | none => exact h2
    | some h1 => cases h2 with | some h2 => exact .some (h1.trans h2)
  refine ⟨h'.sound, h'.cursor, h'.sublist.trans h.sublist, fun p hp hn => ?_, rel,
    h'.sleep.trans h.sleep, h'.pids.trans h.pids⟩
  by_cases hp' : p ∈ nodes'
  · obtain ⟨dead, gone⟩ := h'.reaped p hp' hn
    have h1 := h.procs p (.inr hp')
    refine ⟨?_, gone⟩
    simp only [stateOf] at dead ⊢
    generalize s.procs p = a at *
    generalize s'.procs p = b at *
    cases h1 with
    | none => exact dead
    | some h1 => exact congrArg some (h1.dead.mp (Option.some.inj dead))
  · obtain ⟨dead, gone⟩ := h.reaped p hp hp'
    have h2 := h'.procs p (.inl hp')
    rw [gone] at h2
    generalize s''.procs p = c at *
    cases h2 with
    | none => exact ⟨dead, rfl⟩

/-- What has no record gets none. -/
theorem Spun.stays (h : Spun nodes nodes' s s') : ∀ p, s.procs p = none → s'.procs p = none := by
  intro p hp
  by_cases hn : p ∉ nodes ∨ p ∈ nodes'
  · have k := h.procs p hn
    rw [hp] at k
    generalize s'.procs p = b at k
    cases k with
    | none => rfl
  · rw [not_or, not_not] at hn
    exact (h.reaped p hn.1 hn.2).2

/-- The cursors of the list and the flags are free. -/
theorem Spun.of_eq (h : Sound s nodes) (procs : s'.procs = s.procs)
    (first : s'.firstProcess = s.firstProcess) (last : s'.lastProcess = s.lastProcess)
    (sleep : s'.firstSleep = s.firstSleep) (pids : s'.pids = s.pids)
    (live : SchedRuns.Cursor s') : Spun nodes nodes s s' where
  sound := h.of_eq procs first last pids
  cursor := live
  sublist := List.Sublist.refl _
  reaped _ hp hn := absurd hp hn
  procs p _ := by
    rw [procs]
    cases s.procs p with
    | none => exact .none
    | some r => exact .some (Spin.refl r)
  sleep := sleep
  pids := pids

/-- One record is written. -/
theorem Spun.put (h : Sound s nodes) (live : SchedRuns.Cursor s) (hp : s.procs p = some a)
    (next : b.next = a.next) (spin : Spin a b) : Spun nodes nodes s (s.put p b) where
  sound := by
    refine h.put hp next spin.pid (fun n e => n (spin.dead.mp e)) ?_ ?_
    · rw [spin.same]
    · rw [spin.same]
  cursor c hc := by
    rw [put_procs]
    split
    · simp
    · exact live c hc
  sublist := List.Sublist.refl _
  reaped _ hq hn := absurd hq hn
  procs q _ := by
    rw [put_procs]
    split <;> rename_i hq
    · rw [hq, hp]
      exact .some spin
    · cases s.procs q with
      | none => exact .none
      | some r => exact .some (Spin.refl r)
  sleep := rfl
  pids := rfl

/-- A DEAD record of the list is unlinked and freed. -/
theorem Spun.reap (h : Sound s (pre ++ d :: post)) (live : SchedRuns.Cursor s)
    (hd : stateOf s d = some .dead) (away : s.currentProcess ≠ some d)
    (run : removeProcess fuel d s = .ok t) :
    Spun (pre ++ d :: post) (pre ++ post) s (t.free d) := by
  obtain ⟨hl, re, -, -⟩ := removeProcess_listed h.listed run
  have outside := removeProcess_outside h.listed run
  have hd' : d ∉ pre ++ post := by
    have hn := h.listed.nodup
    rw [List.nodup_middle] at hn
    exact (List.nodup_cons.mp hn).1
  have spin : ∀ p, p ≠ d → Option.Rel Spin (s.procs p) ((t.free d).procs p) := by
    intro p hp
    rw [free_procs, if_neg hp]
    have k := re.procs p
    generalize s.procs p = a at k
    generalize t.procs p = b at k
    cases a with
    | none =>
      obtain rfl : b = none := by simpa using k
      exact .none
    | some a =>
      cases b with
      | none => simp at k
      | some b =>
        have k : bare b = bare a := by simpa using k
        have same : b = { a with next := b.next } := by
          calc b = { bare b with next := b.next } := rfl
            _ = { a with next := b.next } := by rw [k]; rfl
        have state : (bare b).state = (bare a).state := congrArg ProcessCDT.state k
        refine .some ⟨?_, .inl state⟩
        rw [same]
  have old : ∀ p b, (t.free d).procs p = some b → p ≠ d ∧ ∃ a, s.procs p = some a ∧ Spin a b := by
    intro p b hb
    have hp : p ≠ d := by
      rintro rfl
      simp at hb
    refine ⟨hp, ?_⟩
    have k := spin p hp
    rw [hb] at k
    generalize s.procs p = a at k
    cases k with
    | some k => exact ⟨_, rfl, k⟩
  have keep : ∀ p, p ≠ d → s.procs p ≠ none → (t.free d).procs p ≠ none := by
    intro p hp hlive
    have k := spin p hp
    generalize s.procs p = a at k hlive
    generalize (t.free d).procs p = b at k ⊢
    cases k with
    | none => exact hlive
    | some k => simp
  have listed : Listed (t.free d) (pre ++ post) := by
    have same : ∀ p ∈ pre ++ post, (t.free d).procs p = t.procs p := fun p hp => by
      rw [free_procs, if_neg fun e : p = d => hd' (e ▸ hp)]
    refine ⟨linked_congr (fun p hp => by rw [link, link, same p hp]) hl.linked, ?_, hl.last⟩
    refine (congrArg List.Nodup (List.map_congr_left fun p hp => ?_)).mpr hl.pids
    rw [pidOf, pidOf, same p hp]
  refine ⟨⟨listed, fun p b hb hp => ?_, re.pids ▸ h.small, fun hpos => ?_, fun p b hb hpid => ?_⟩,
    fun c hc => ?_, List.Sublist.append_left (List.sublist_cons_self d post) pre,
    fun p hp hn => ?_, fun p hp => ?_, re.sleep, re.pids⟩
  · obtain ⟨hpd, a, ha, k⟩ := old p b hb
    have hpn : p ∉ pre ++ d :: post := by
      simp only [List.mem_append, List.mem_cons, not_or] at hp ⊢
      exact ⟨hp.1, hpd, hp.2⟩
    obtain ⟨alive, q, hq, hn, hlive⟩ := h.stray p a ha hpn
    rw [free_procs, if_neg hpd, outside p hpn] at hb
    obtain rfl := Option.some.inj (ha.symm.trans hb)
    simp only [List.mem_append, List.mem_cons, not_or] at hn ⊢
    exact ⟨alive, q, hq, ⟨hn.1, hn.2.2⟩, keep q hn.2.1 hlive⟩
  · have hpos' : 0 < s.pids := re.pids ▸ hpos
    obtain ⟨lt, above⟩ := h.counter hpos'
    rw [show (t.free d).pids = s.pids from re.pids]
    refine ⟨lt, fun p b hb => ?_⟩
    obtain ⟨-, a, ha, k⟩ := old p b hb
    rw [k.pid]
    exact above p a ha
  · obtain ⟨-, a, ha, k⟩ := old p b hb
    obtain ⟨hf, hw⟩ := h.background p a ha (k.pid.symm.trans hpid)
    rw [k.same]
    exact ⟨hf, hw⟩
  · have hc' : s.currentProcess = some c := re.current.symm.trans hc
    refine keep c ?_ (live c hc')
    rintro rfl
    exact away hc'
  · have hpd : p = d := by
      simp only [List.mem_append, List.mem_cons, not_or] at hp hn
      grind
    rw [hpd]
    exact ⟨hd, by simp⟩
  · refine spin p ?_
    rintro rfl
    rcases hp with hp | hp
    · exact hp (by simp)
    · exact hd' hp

theorem nextProcessLoop_passes (run : nextProcessLoop steps fuel s = .ok s') :
    Passes steps s s' ∧ ∃ c r, s'.current = .ok (c, r) ∧ r.state = .ready := by
  induction fuel generalizing s with
  | zero => cases run
  | succ fuel ih =>
    unfold nextProcessLoop at run
    split at run <;> rename_i hcur
    · obtain ⟨passes, found⟩ := ih run
      exact ⟨.head (.rewind hcur) passes, found⟩
    rename_i c
    obtain ⟨r, hr, run1⟩ := bind_ok.mp run
    have hc : s.current = .ok (c, r) := current_ok.mpr ⟨hcur, load_ok.mp hr⟩
    split at run1 <;> rename_i hready
    · obtain rfl := Except.ok.inj run1
      exact ⟨.refl, c, r, hc, hready⟩
    split at run1 <;> rename_i hback
    · obtain ⟨⟨x, t⟩, h1, run2⟩ := bind_ok.mp run1
      obtain ⟨passes, found⟩ := ih run2
      exact ⟨.head (.wake hc hready hback h1) passes, found⟩
    split at run1 <;> rename_i hdead
    · obtain ⟨t, h1, run2⟩ := bind_ok.mp run1
      obtain ⟨passes, found⟩ := ih run2
      exact ⟨.head (.reap hc hdead h1) passes, found⟩
    · obtain ⟨passes, found⟩ := ih run1
      exact ⟨.head (.skip hc hready hdead hback) passes, found⟩

/-- `unblock` of a process in the background. -/
theorem unblock_background {pid : Int} (h : Sound s nodes)
    (rest : ∀ p r, s.procs p = some r → r.pid = pid → r.foreground = 0)
    (run : unblock fuel pid s = .ok (x, t)) :
    t = s ∨ ∃ d ∈ nodes, ∃ r, s.procs d = some r ∧ r.pid = pid ∧ r.state ≠ .dead ∧
      t = s.put d { r with state := .ready } := by
  rcases unblock_cases h.listed run with ⟨rfl, -⟩ | ⟨d, hd, r, hr, hpid, alive, -, -, value⟩
  · exact .inl rfl
  · exact .inr ⟨d, hd, r, hr, hpid, alive, value (rest d r hr hpid)⟩

/-- `block` of a process in the background by another one. -/
theorem block_background {pid : Int} (h : Sound s nodes)
    (rest : ∀ p r, s.procs p = some r → r.pid = pid → r.foreground = 0)
    (other : ∀ c r, s.current = .ok (c, r) → r.pid ≠ pid)
    (run : block fuel pid s = .ok (x, t)) :
    (t = s ∧ ∀ d ∈ nodes, pidOf s d = some pid → stateOf s d = some .dead) ∨
    ∃ d ∈ nodes, ∃ r, s.procs d = some r ∧ r.pid = pid ∧ r.state ≠ .dead ∧
      t = s.put d { r with state := .blocked } := by
  rcases block_steps h.listed run with ⟨-, missed⟩ | ⟨d, hd, r, parent, prev, s1, c, rc, hr, hpid,
    alive, -, hs1, hc, hself⟩
  · exact .inl missed
  rw [ifForeground, if_neg (not_not.mpr (rest d r hr hpid))] at hs1
  obtain rfl := Except.ok.inj hs1
  obtain ⟨hcur, hrc⟩ := current_ok.mp hc
  have hpid' : pid ≠ rc.pid := by
    rw [put_procs] at hrc
    split at hrc <;> rename_i hcd
    · obtain rfl := Option.some.inj hrc
      rw [← hcd] at hr
      exact fun _ => other c r (current_ok.mpr ⟨hcur, hr⟩) hpid
    · exact fun e => other c rc (current_ok.mpr ⟨hcur, hrc⟩) e.symm
  obtain ⟨-, -, rfl⟩ := hself.resolve_left fun same => hpid' same.1
  exact .inr ⟨d, hd, r, hr, hpid, alive, rfl⟩

theorem pass_spun (h : Sound s nodes) (live : SchedRuns.Cursor s) (pass : Pass steps s s') :
    ∃ nodes', Spun nodes nodes' s s' := by
  have next : ∀ {c : Ptr} {r : ProcessCDT}, s.current = .ok (c, r) →
      SchedRuns.Cursor { s with currentProcess := r.next } := fun hc =>
    h.next_live (current_ok.mp hc).2
  cases pass with
  | rewind hc =>
    refine ⟨nodes, .of_eq h rfl rfl rfl rfl rfl fun c hf => ?_⟩
    have head := linked_head h.listed.linked
    rw [show s.firstProcess = some c from hf] at head
    exact h.live (List.mem_of_mem_head? (by simpa using head.symm))
  | @wake c r x t hc asleep back run =>
    have h0 : Sound { s with idleFlag := 1 } nodes := h.of_eq rfl rfl rfl rfl
    have k0 : Spun nodes nodes s { s with idleFlag := 1 } := .of_eq h rfl rfl rfl rfl rfl live
    have rest : ∀ p r, s.procs p = some r → r.pid = IDLE_PID → r.foreground = 0 :=
      fun p r hr hp => (h.background p r hr hp).1
    have k1 : Spun nodes nodes { s with idleFlag := 1 } t := by
      rcases unblock_background h0 rest run with rfl | ⟨d, -, rd, hrd, hpid, alive, rfl⟩
      · exact .refl h0 live
      · exact .put h0 live hrd rfl ⟨rfl, .inr ⟨hpid, alive, .inl rfl⟩⟩
    refine ⟨nodes, (k0.trans k1).trans (.of_eq k1.sound rfl rfl rfl rfl rfl fun q hq none => ?_)⟩
    have hlive := next hc q hq
    have k := k1.procs q (by grind)
    rw [show t.procs q = Option.none from none] at k
    generalize hq' : ({ s with idleFlag := 1 } : Sched).procs q = a at k
    cases k with
    | none => exact hlive hq'
  | @reap c r t hc dead run =>
    have hr := (current_ok.mp hc).2
    obtain ⟨pre, post, rfl⟩ := h.split_dead hr dead
    have k0 : Spun (pre ++ c :: post) (pre ++ c :: post) s { s with currentProcess := r.next } :=
      .of_eq h rfl rfl rfl rfl rfl (next hc)
    refine ⟨_, k0.trans (.reap k0.sound (next hc) ?_ (fun e => ?_) run)⟩
    · rw [← dead]
      exact stateOf_of (s := { s with currentProcess := r.next }) hr
    · have hm : c ∈ post := mem_of_next h.listed hr c e
      exact (List.nodup_cons.mp (List.nodup_append.mp h.listed.nodup).2.1).1 hm
  | skip hc asleep alive fresh => exact ⟨nodes, .of_eq h rfl rfl rfl rfl rfl (next hc)⟩

theorem passes_spun (h : Sound s nodes) (live : SchedRuns.Cursor s) (passes : Passes steps s s') :
    ∃ nodes', Spun nodes nodes' s s' := by
  induction passes with
  | refl => exact ⟨nodes, .refl h live⟩
  | tail _ pass ih =>
    obtain ⟨nodes₁, k⟩ := ih
    obtain ⟨nodes₂, k'⟩ := pass_spun k.sound k.cursor pass
    exact ⟨nodes₂, k.trans k'⟩

theorem endTurn_spun {rsp : Nat} (h : Sound s nodes) (live : SchedRuns.Cursor s)
    (run : endTurn rsp s = .ok s') : Spun nodes nodes s s' := by
  cases hcur : s.currentProcess with
  | none =>
    unfold endTurn at run
    rw [hcur] at run
    obtain rfl := Except.ok.inj run
    exact .refl h live
  | some c =>
    obtain ⟨r, hr⟩ := Option.ne_none_iff_exists'.mp (live c hcur)
    rw [endTurn_value _ (current_ok.mpr ⟨hcur, hr⟩)] at run
    obtain rfl := Except.ok.inj run
    split
    · have k : Spun nodes nodes s (s.put c { r with rsp := rsp, executions := 0 }) :=
        .put h live hr rfl ⟨rfl, .inl rfl⟩
      refine k.trans (.of_eq k.sound rfl rfl rfl rfl rfl fun q hq => ?_)
      rw [put_procs]
      split
      · simp
      · exact h.next_live hr q hq
    · exact .put h live hr rfl ⟨rfl, .inl rfl⟩

/-- The start of a turn: idle is blocked if it was running, and the turn is counted. -/
theorem startTurn_value {v : Nat} (h : Sound s nodes) (run : startTurn fuel s = .ok (v, s')) :
    ∃ c r t, s.current = .ok (c, r) ∧ v = r.rsp ∧ t.procs c = some r ∧
      s' = Sched.put { t with firstBlockedIteration := none } c
        { r with executions := char (r.executions + 1) } ∧
      ((r.pid ≠ IDLE_PID ∧ s.idleFlag ≠ 0 ∧ ((t = { s with idleFlag := 0 } ∧
          ∀ d ∈ nodes, pidOf s d = some IDLE_PID → stateOf s d = some .dead) ∨
        ∃ d ∈ nodes, ∃ rd, s.procs d = some rd ∧ rd.pid = IDLE_PID ∧ rd.state ≠ .dead ∧
          t = Sched.put { s with idleFlag := 0 } d { rd with state := .blocked })) ∨
      ((r.pid = IDLE_PID ∨ s.idleFlag = 0) ∧ t = s)) := by
  unfold startTurn at run
  obtain ⟨⟨c, r⟩, hc, run1⟩ := bind_ok.mp run
  obtain ⟨t, h1, run2⟩ := bind_ok.mp run1
  obtain ⟨⟨c', r'⟩, hc', run3⟩ := bind_ok.mp run2
  obtain ⟨rfl, rfl⟩ := Prod.mk.inj (Except.ok.inj run3)
  obtain ⟨hcur, hr⟩ := current_ok.mp hc
  obtain ⟨hcur', hr'⟩ := current_ok.mp hc'
  refine ⟨c, r, t, hc, ?_⟩
  by_cases leave : r.pid ≠ IDLE_PID ∧ s.idleFlag ≠ 0
  · rw [decide_eq_true leave] at h1
    simp only [if_true] at h1
    have h0 : Sound { s with idleFlag := 0 } nodes := h.of_eq rfl rfl rfl rfl
    obtain ⟨⟨x, t'⟩, hb, h2⟩ := bind_ok.mp h1
    obtain rfl := Except.ok.inj h2
    rcases block_background h0 (fun p r hr hp => (h.background p r hr hp).1) (fun c1 r1 hc1 => by
      obtain ⟨rfl, rfl⟩ := Prod.mk.inj (Except.ok.inj (hc.symm.trans hc1))
      exact leave.1) hb with ⟨rfl, gone⟩ | ⟨d, hd, rd, hrd, hpid, alive, rfl⟩
    · obtain rfl := Option.some.inj (hcur.symm.trans hcur')
      obtain rfl := Option.some.inj (hr.symm.trans hr')
      exact ⟨rfl, hr, rfl, .inl ⟨leave.1, leave.2, .inl ⟨rfl, gone⟩⟩⟩
    · obtain rfl := Option.some.inj (hcur.symm.trans hcur')
      have hcd : c ≠ d := by
        rintro rfl
        obtain rfl := Option.some.inj (hr.symm.trans hrd)
        exact leave.1 hpid
      change (Sched.put { s with idleFlag := 0 } d { rd with state := .blocked }).procs c = _ at hr'
      rw [put_procs, if_neg hcd] at hr'
      obtain rfl := Option.some.inj (hr.symm.trans hr')
      refine ⟨rfl, ?_, rfl, .inl ⟨leave.1, leave.2, .inr ⟨d, hd, rd, hrd, hpid, alive, rfl⟩⟩⟩
      rw [put_procs, if_neg hcd]
      exact hr
  · rw [decide_eq_false leave] at h1
    obtain rfl := Except.ok.inj h1
    obtain rfl := Option.some.inj (hcur.symm.trans hcur')
    obtain rfl := Option.some.inj (hr.symm.trans hr')
    exact ⟨rfl, hr, rfl, .inr ⟨by grind, rfl⟩⟩

theorem startTurn_spun {v : Nat} (h : Sound s nodes) (live : SchedRuns.Cursor s)
    (run : startTurn fuel s = .ok (v, s')) : Spun nodes nodes s s' := by
  obtain ⟨c, r, t, hc, -, hr, rfl, cases⟩ := startTurn_value h run
  have k : Spun nodes nodes s t := by
    rcases cases with ⟨-, -, ⟨rfl, -⟩ | ⟨d, -, rd, hrd, hpid, alive, rfl⟩⟩ | ⟨-, rfl⟩
    · exact .of_eq h rfl rfl rfl rfl rfl live
    · have h0 : Sound { s with idleFlag := 0 } nodes := h.of_eq rfl rfl rfl rfl
      have k0 : Spun nodes nodes s { s with idleFlag := 0 } := .of_eq h rfl rfl rfl rfl rfl live
      exact k0.trans (.put h0 live hrd rfl ⟨rfl, .inr ⟨hpid, alive, .inr rfl⟩⟩)
    · exact .refl h live
  have k' : Spun nodes nodes s { t with firstBlockedIteration := none } :=
    k.trans (.of_eq k.sound rfl rfl rfl rfl rfl k.cursor)
  exact k'.trans (.put k'.sound k'.cursor hr rfl ⟨rfl, .inl rfl⟩)

/-- `nextProcess` in any run: a READY process is dispatched with its saved `rsp`. -/
theorem nextProcess_spun {rsp v : Nat} (h : Sound s nodes) (live : SchedRuns.Cursor s)
    (run : nextProcess fuel rsp s = .ok (v, s')) :
    ∃ nodes', Spun nodes nodes' s s' ∧ s'.firstBlockedIteration = none ∧
      ∃ c r, s'.current = .ok (c, r) ∧ r.state = .ready ∧ v = r.rsp := by
  obtain ⟨s1, h1, run1⟩ := bind_ok.mp run
  obtain ⟨s2, h2, run2⟩ := bind_ok.mp run1
  have k1 := endTurn_spun h live h1
  obtain ⟨passes, c, r, hc, ready⟩ := nextProcessLoop_passes h2
  obtain ⟨nodes', k2⟩ := passes_spun k1.sound k1.cursor passes
  have k3 := startTurn_spun k2.sound k2.cursor run2
  obtain ⟨c', r', t, hc', rfl, hr, rfl, cases⟩ := startTurn_value k2.sound run2
  obtain ⟨rfl, rfl⟩ := Prod.mk.inj (Except.ok.inj (hc.symm.trans hc'))
  refine ⟨nodes', (k1.trans k2).trans k3, rfl, c, { r with executions := char (r.executions + 1) },
    current_ok.mpr ⟨?_, by simp⟩, ready, rfl⟩
  have cur := (current_ok.mp hc).1
  rcases cases with ⟨-, -, ⟨rfl, -⟩ | ⟨d, -, rd, -, -, -, rfl⟩⟩ | ⟨-, rfl⟩ <;> exact cur

/-- What waking keeps, and does not depend on the list of sleepers, `checkSleeping` keeps. -/
theorem checkSleeping_invariant {now : Int} {I : Sched → Prop}
    (globals : ∀ s l, I s → I { s with firstSleep := l })
    (wake : ∀ e ∈ s.firstSleep, ∀ s x t, I s → unblock fuel e.pid s = .ok (x, t) → I t) (h : I s)
    (run : checkSleeping fuel now s = .ok t) : I t := by
  suffices from_ : ∀ kept aux, (∀ e ∈ aux, e ∈ s.firstSleep) → ∀ s', I s' →
      checkSleepingFrom fuel now kept aux s' = .ok t → I t from
    from_ [] s.firstSleep (fun _ h => h) s h run
  intro kept aux
  induction aux generalizing kept with
  | nil =>
    intro _ s' h run
    obtain rfl := Except.ok.inj run
    exact globals s' kept h
  | cons e aux ih =>
    intro sub s' h run
    have sub' : ∀ e ∈ aux, e ∈ s.firstSleep := fun e he => sub e (List.mem_cons_of_mem _ he)
    unfold checkSleepingFrom at run
    split at run
    · obtain ⟨⟨x, s1⟩, h1, run1⟩ := bind_ok.mp run
      obtain ⟨w, -, run2⟩ := bind_ok.mp run1
      exact ih kept sub' s1 (wake e (sub e List.mem_cons_self) s' x s1 h h1) run2
    · exact ih _ sub' s' h run

/-- The sleepers whose time has come are READY. -/
theorem checkSleeping_sound {now : Int} (h : Sound s nodes) (live : SchedRuns.Cursor s)
    (run : checkSleeping fuel now s = .ok t) : Sound t nodes ∧ SchedRuns.Cursor t ∧
      t.currentProcess = s.currentProcess ∧ t.firstBlockedIteration = s.firstBlockedIteration := by
  refine checkSleeping_invariant (I := fun t => Sound t nodes ∧ SchedRuns.Cursor t ∧
    t.currentProcess = s.currentProcess ∧ t.firstBlockedIteration = s.firstBlockedIteration)
    (fun s l h => ⟨h.1.of_eq rfl rfl rfl rfl, h.2⟩) ?_ ⟨h, live, rfl, rfl⟩ run
  rintro e - s1 x s2 ⟨h1, live1, cur, blocked⟩ run1
  rcases unblock_cases h1.listed run1 with ⟨rfl, -⟩ | ⟨d, hd, r, -, -, -, -, k, -⟩
  · exact ⟨h1, live1, cur, blocked⟩
  · exact ⟨h1.touched k fun p hp => hp ▸ hd, live1.rel k, k.current.trans cur,
      k.blocked.trans blocked⟩

/-- Between two steps the list is in order and a READY process is current. -/
def Settled (s : Sched) : Prop := (∃ nodes, Sound s nodes) ∧ s.firstBlockedIteration = none ∧
  ∃ c r, s.current = .ok (c, r) ∧ r.state = .ready

theorem irq00Handler_settled {now : Int} {rsp : Nat} (h : Sound s nodes)
    (live : SchedRuns.Cursor s) (run : irq00Handler fuel now rsp s = .ok s') : Settled s' := by
  obtain ⟨s1, h1, run1⟩ := bind_ok.mp run
  obtain ⟨⟨v, s2⟩, h2, run2⟩ := bind_ok.mp run1
  obtain rfl := Except.ok.inj run2
  obtain ⟨sound, live, -⟩ := checkSleeping_sound h live h1
  obtain ⟨nodes', k, blocked, c, r, hc, ready, -⟩ := nextProcess_spun sound live h2
  exact ⟨⟨nodes', k.sound⟩, blocked, c, r, hc, ready⟩

theorem step_settled {e : Event} (h : Settled s) (step : Step s e s') : Settled s' := by
  obtain ⟨⟨nodes, sound⟩, blocked, c, r, hc, ready⟩ := h
  have live := cursor_of_current hc
  rcases step_cases step with ⟨now, rsp, fuel, rfl, run⟩ |
    ⟨op, now, rsp, fuel, x, t, rfl, callable, run, ⟨code, rfl, rfl⟩ | ⟨rfl, run'⟩⟩
  · exact irq00Handler_settled sound live run
  · have called := perform_called sound live callable run
    obtain ⟨nodes', sound'⟩ := called.sound
    refine ⟨⟨nodes', sound'⟩, called.blocked.trans blocked, c, ?_⟩
    have state := called.ready (by simp) c r hc ready
    cases hr : s'.procs c with
    | none => simp [stateOf, hr] at state
    | some r' =>
      rw [stateOf_of hr] at state
      exact ⟨r', current_ok.mpr ⟨called.current.trans (current_ok.mp hc).1, hr⟩,
        Option.some.inj state⟩
  · have called := perform_called sound live callable run
    obtain ⟨nodes', sound'⟩ := called.sound
    exact irq00Handler_settled sound' called.cursor run'

/-- What `nextProcess` is entered with. -/
theorem enters_settled {e : Event} (h : Settled s) (enters : Enters s e t) :
    (∃ nodes, Sound t nodes) ∧ t.firstBlockedIteration = none ∧
      t.currentProcess = s.currentProcess ∧ ∃ c r, t.current = .ok (c, r) := by
  obtain ⟨⟨nodes, sound⟩, blocked, c, r, hc, -⟩ := h
  have hcur := (current_ok.mp hc).1
  have entered : ∀ {t : Sched}, (∃ nodes, Sound t nodes) → SchedRuns.Cursor t →
      t.currentProcess = s.currentProcess → t.firstBlockedIteration = s.firstBlockedIteration →
      (∃ nodes, Sound t nodes) ∧ t.firstBlockedIteration = none ∧
        t.currentProcess = s.currentProcess ∧ ∃ c r, t.current = .ok (c, r) := by
    intro t sound live cur blk
    obtain ⟨r', hr'⟩ := Option.ne_none_iff_exists'.mp (live c (cur.trans hcur))
    exact ⟨sound, blk.trans blocked, cur, c, r', current_ok.mpr ⟨cur.trans hcur, hr'⟩⟩
  have live := cursor_of_current hc
  cases enters with
  | tick asleep =>
    obtain ⟨sound', live', cur, blk⟩ := checkSleeping_sound sound live asleep
    exact entered ⟨nodes, sound'⟩ live' cur blk
  | call callable run asleep =>
    have called := perform_called sound live callable run
    obtain ⟨nodes₁, sound₁⟩ := called.sound
    obtain ⟨sound', live', cur, blk⟩ := checkSleeping_sound sound₁ called.cursor asleep
    exact entered ⟨nodes₁, sound'⟩ live' (cur.trans called.current) (blk.trans called.blocked)

/-- The record that `enqueueProcess` makes. -/
def made (pid ppid foreground : Int) (fd auxi aux : Ptr) : ProcessCDT :=
  { next := none, name := aux, pid := pid, ppid := ppid
    rsp := initialize_stack_frame (auxi + 8 * STACK_SIZE), rbp := auxi + 8 * STACK_SIZE
    priority := if foreground = 1 then DEF_PRIORITY else MAX_PRIORITY / 2
    executions := 0, foreground := foreground, state := .ready, fd := fd
    children := 0, backWait := 0, bPointer := auxi }

/-- The scheduler when `main` calls `forceTimer()`: idle and one process in the foreground. -/
structure Booted (nullPid : Int) (mIdle mSample : Mallocs) (s : Sched) (p q : Ptr) : Prop where
  current : s.currentProcess = none
  blocked : s.firstBlockedIteration = none
  first : s.firstProcess = some p
  last : s.lastProcess = some q
  flag : s.idleFlag = 2
  sleep : s.firstSleep = []
  pids : s.pids = 3
  addresses : mIdle.process = some p ∧ mSample.process = some q ∧ p ≠ q
  heap : p < heapEnd ∧ q < heapEnd
  idle : ∃ fd auxi aux, mIdle.stack = some auxi ∧ s.procs p = some
    { made 1 nullPid 0 fd auxi aux with next := some q, priority := 39 }
  sample : ∃ fd auxi aux, mSample.stack = some auxi ∧
    s.procs q = some (made 2 nullPid 1 fd auxi aux)
  others : ∀ x, x ≠ p → x ≠ q → s.procs x = none

theorem main_booted {nullPid now : Int} {rsp : Nat} {mIdle mSample : Mallocs}
    (run : main fuel nullPid now rsp mIdle mSample = .ok s) :
    ∃ s3 p q, Booted nullPid mIdle mSample s3 p q ∧ irq00Handler fuel now rsp s3 = .ok s := by
  obtain ⟨s2, h2, run1⟩ := bind_ok.mp run
  obtain ⟨⟨pid', s3⟩, h3, run2⟩ := bind_ok.mp run1
  obtain ⟨⟨pid, s1⟩, h1, run3⟩ := bind_ok.mp h2
  obtain ⟨⟨e, s1'⟩, hn, run4⟩ := bind_ok.mp run3
  obtain rfl := Except.ok.inj run4
  -- idle
  obtain ⟨fd, p, auxi, aux, t1, ppid, t2, -, hm, hst, -, hb, ha, -, low, rfl, happ⟩ :=
    enqueueProcess_steps h1
  obtain rfl := Except.ok.inj hb
  obtain ⟨rfl, rfl⟩ := Prod.mk.inj (Except.ok.inj ha)
  obtain rfl := Except.ok.inj happ
  have search : ∀ x, search fuel 1 (Sched.mk (Function.update reset.procs p (some
      (made 1 nullPid 0 fd auxi aux))) none (some p) (some p) [] none 2 2 []) = .ok x →
      x = (some p, none) := by
    intro x hx
    cases fuel with
    | zero => cases hx
    | succ fuel =>
      simp [Scheduler.search, searchProcess, load, made] at hx
      exact hx.symm
  -- its priority
  obtain ⟨⟨del, prev⟩, hs, run5⟩ := bind_ok.mp hn
  obtain ⟨rfl, rfl⟩ := Prod.mk.inj (search _ hs)
  obtain ⟨r, hr, run6⟩ := bind_ok.mp run5
  rw [load_ok] at hr
  change Function.update _ _ _ _ = _ at hr
  rw [Function.update_self] at hr
  obtain rfl := Option.some.inj hr
  obtain ⟨-, rfl⟩ := Prod.mk.inj (Except.ok.inj run6)
  -- the sample process
  obtain ⟨fd', q, auxi', aux', t1, ppid, t2, -, hm', hst', -, hb, ha, free, low', rfl, happ⟩ :=
    enqueueProcess_steps h3
  obtain rfl := Except.ok.inj hb
  obtain ⟨rfl, rfl⟩ := Prod.mk.inj (Except.ok.inj ha)
  have hpq : p ≠ q := by
    rintro rfl
    simp at free
  obtain ⟨l, hl, happ1⟩ := bind_ok.mp happ
  obtain rfl : p = l := Option.some.inj (deref_ok.mp hl)
  obtain ⟨r, hr, happ2⟩ := bind_ok.mp happ1
  rw [load_ok, put_procs, if_neg hpq] at hr
  change (Sched.put _ _ _).procs _ = _ at hr
  rw [put_procs, if_pos rfl] at hr
  obtain rfl := Option.some.inj hr
  obtain rfl := Except.ok.inj happ2
  refine ⟨_, p, q, ⟨rfl, rfl, rfl, rfl, rfl, rfl, rfl, ⟨hm, hm', hpq⟩, ⟨low, low'⟩,
    ⟨fd, auxi, aux, hst, ?_⟩, ⟨fd', auxi', aux', hst', ?_⟩, fun x hxp hxq => ?_⟩, run2⟩
  · change (Sched.put _ _ _).procs _ = _
    rw [put_procs, if_pos rfl]
    rfl
  · have hqp : q ≠ p := fun e => hpq e.symm
    change (Sched.put (Sched.put _ _ _) _ _).procs _ = _
    rw [put_procs, if_neg hqp, put_procs, if_pos rfl]
    rfl
  · change (Sched.put (Sched.put (Sched.put (Sched.put _ _ _) _ _) _ _) _ _).procs _ = _
    rw [put_procs, if_neg hxp, put_procs, if_neg hxq, put_procs, if_neg hxp, put_procs, if_neg hxp]
    rfl

theorem Booted.sound {nullPid : Int} {mIdle mSample : Mallocs} {q : Ptr}
    (h : Booted nullPid mIdle mSample s p q) : Sound s [p, q] := by
  obtain ⟨fd, auxi, aux, -, hp⟩ := h.idle
  obtain ⟨fd', auxi', aux', -, hq⟩ := h.sample
  have only_ : ∀ x r, s.procs x = some r → x = p ∨ x = q := by
    intro x r hr
    by_contra n
    rw [not_or] at n
    rw [h.others x n.1 n.2] at hr
    cases hr
  refine ⟨⟨?_, ?_, ?_⟩, fun x r hr hx => ?_, ?_, fun _ => ?_, fun x r hr hpid => ?_⟩
  · rw [h.first]
    exact ⟨rfl, some q, by rw [link_of hp], rfl, none, by rw [link_of hq]; rfl, rfl⟩
  · simp [pidOf_of hp, pidOf_of hq, made]
  · rw [h.last]
    rfl
  · rcases only_ x r hr with rfl | rfl <;> simp at hx
  · rw [h.pids]
    decide
  · rw [h.pids]
    refine ⟨by decide, fun x r hr => ?_⟩
    rcases only_ x r hr with rfl | rfl
    · obtain rfl := Option.some.inj (hp.symm.trans hr)
      change (1 : Int) < 3
      decide
    · obtain rfl := Option.some.inj (hq.symm.trans hr)
      change (2 : Int) < 3
      decide
  · rcases only_ x r hr with rfl | rfl
    · obtain rfl := Option.some.inj (hp.symm.trans hr)
      exact ⟨rfl, rfl⟩
    · obtain rfl := Option.some.inj (hq.symm.trans hr)
      cases (hpid : (2 : Int) = 1)

theorem Booted.cursor {nullPid : Int} {mIdle mSample : Mallocs} {q : Ptr}
    (h : Booted nullPid mIdle mSample s p q) : SchedRuns.Cursor s := by
  intro c hc
  rw [h.current] at hc
  cases hc

theorem main_settled {nullPid now : Int} {rsp : Nat} {mIdle mSample : Mallocs}
    (run : main fuel nullPid now rsp mIdle mSample = .ok s) : Settled s := by
  obtain ⟨s3, p, q, boot, irq⟩ := main_booted run
  exact irq00Handler_settled boot.sound boot.cursor irq

/-- Whatever is called in a run, the list stays in order between two steps. -/
theorem runs_settled {Allowed : Sched → Event → Prop} (h : Settled s)
    (run : Runs Allowed s s') : Settled s' :=
  runs_invariant (fun _ _ _ h _ step => step_settled h step) h run

end

end BottlerOS.Turns
