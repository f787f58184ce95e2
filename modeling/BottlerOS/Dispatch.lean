import BottlerOS.ProcessLinks

/-! `nextProcess`. Whatever it finds, the list it leaves is the old one without
some DEAD records, and the process it dispatches is READY and in it. -/

namespace BottlerOS.Dispatch
open Machine Scheduler LinkedList ProcessList ProcessFields ProcessLinks

/-- Some DEAD records of `nodes` are unlinked and freed; the others keep their fields, the
state of the idle process and the turns in `B` apart. -/
structure Reaped (B : Ptr → Prop) (nodes nodes' : List Ptr) (s s' : Sched) : Prop where
  listed : Listed s' nodes'
  sublist : nodes'.Sublist nodes
  dead : ∀ p ∈ nodes, p ∉ nodes' → stateOf s p = some .dead ∧ s'.procs p = none
  procs : ∀ p, p ∉ nodes ∨ p ∈ nodes' → Option.Rel
    (fun a b => Touch (IsIdle s) B p (bare a) (bare b)) (s.procs p) (s'.procs p)
  state : ∀ p, p ∉ nodes ∨ p ∈ nodes' → stateOf s' p = stateOf s p ∨
    (IsIdle s p ∧ stateOf s p ≠ some .dead ∧ stateOf s' p ≠ some .dead)
  sleep : s'.firstSleep = s.firstSleep
  pids : s'.pids = s.pids

section
variable {A B D : Ptr → Prop} {s s' s'' : Sched} {nodes nodes' nodes'' pre post : List Ptr}
  {p c d : Ptr} {r : ProcessCDT}

/-- The cursors of the list and the flags are free. -/
theorem Reaped.of_globals (hl : Listed s nodes) (procs : s'.procs = s.procs)
    (first : s'.firstProcess = s.firstProcess) (last : s'.lastProcess = s.lastProcess)
    (sleep : s'.firstSleep = s.firstSleep) (pids : s'.pids = s.pids) :
    Reaped B nodes nodes s s' where
  listed := by
    refine ⟨?_, ?_, last.trans hl.last⟩
    · rw [first]
      exact linked_congr (fun x _ => by simp [link, procs]) hl.linked
    · have same : pidOf s' = pidOf s := funext fun x => by simp [pidOf, procs]
      rw [same]
      exact hl.pids
  sublist := List.Sublist.refl _
  dead _ hp hn := absurd hp hn
  procs p _ := by
    rw [procs]
    cases s.procs p with
    | none => exact .none
    | some r => exact .some (Touch.refl _ _)
  state p _ := .inl (by simp [stateOf, procs])
  sleep := sleep
  pids := pids

theorem Reaped.of_touched (hl : Listed s nodes) (t : Touched (IsIdle s) B s s')
    (state : ∀ p, stateOf s' p = stateOf s p ∨
      (IsIdle s p ∧ stateOf s p ≠ some .dead ∧ stateOf s' p ≠ some .dead)) :
    Reaped B nodes nodes s s' where
  listed := t.listed hl
  sublist := List.Sublist.refl _
  dead _ hp hn := absurd hp hn
  procs p _ := (Shuffled.of_touched t).procs p
  state p _ := state p
  sleep := t.sleep
  pids := t.pids

theorem Reaped.pidOf_eq (h : Reaped B nodes nodes' s s') (hp : p ∉ nodes ∨ p ∈ nodes') :
    pidOf s' p = pidOf s p := by
  have h1 := h.procs p hp
  simp only [pidOf]
  generalize s.procs p = a at *
  generalize s'.procs p = b at *
  cases h1 with
  | none => rfl
  | some h1 => exact congrArg Option.some h1.kept.pid

theorem Reaped.trans (h : Reaped B nodes nodes' s s') (h' : Reaped B nodes' nodes'' s' s'') :
    Reaped B nodes nodes'' s s'' := by
  have both : ∀ p, p ∉ nodes ∨ p ∈ nodes'' →
      (p ∉ nodes ∨ p ∈ nodes') ∧ (p ∉ nodes' ∨ p ∈ nodes'') := by
    rintro p (hp | hp)
    · exact ⟨.inl hp, .inl fun h1 => hp (h.sublist.subset h1)⟩
    · exact ⟨.inr (h'.sublist.subset hp), .inr hp⟩
  have idle : ∀ p, p ∉ nodes ∨ p ∈ nodes' → IsIdle s' p → IsIdle s p := fun p hp hi =>
    (h.pidOf_eq hp).symm.trans hi
  have state : ∀ p, p ∉ nodes ∨ p ∈ nodes' → stateOf s' p = some .dead →
      stateOf s p = some .dead := by
    intro p hp hs
    rcases h.state p hp with e | ⟨-, -, e⟩
    · exact e ▸ hs
    · exact absurd hs e
  refine ⟨h'.listed, h'.sublist.trans h.sublist, fun p hp hn => ?_, fun p hp => ?_,
    fun p hp => ?_, h'.sleep.trans h.sleep, h'.pids.trans h.pids⟩
  · by_cases hp' : p ∈ nodes'
    · obtain ⟨hd, hnone⟩ := h'.dead p hp' hn
      exact ⟨state p (.inr hp') hd, hnone⟩
    · obtain ⟨hd, hnone⟩ := h.dead p hp hp'
      have h2 := h'.procs p (.inl hp')
      rw [hnone] at h2
      generalize s''.procs p = b at *
      cases h2 with
      | none => exact ⟨hd, rfl⟩
  · obtain ⟨m1, m2⟩ := both p hp
    have h1 := h.procs p m1
    have h2 := h'.procs p m2
    have hi := idle p m1
    generalize s.procs p = a at *
    generalize s'.procs p = b at *
    generalize s''.procs p = c at *
    cases h1 with
    | none => cases h2 with | none => exact .none
    | some h1 =>
      cases h2 with
      | some h2 =>
        exact .some (h1.trans _ _ _ _ ⟨h2.kept, fun n => h2.state fun a => n (hi a),
          h2.executions, h2.rsp⟩)
  · obtain ⟨m1, m2⟩ := both p hp
    rcases h'.state p m2 with e2 | ⟨i2, d2, e2⟩
    · rw [e2]
      exact h.state p m1
    · refine .inr ⟨idle p m1 i2, fun hd => ?_, e2⟩
      rcases h.state p m1 with e1 | ⟨-, d1, -⟩
      · exact d2 (e1.trans hd)
      · exact d1 hd

theorem Reaped.mono (h : Reaped B nodes nodes' s s') (hB : ∀ p, B p → D p) :
    Reaped D nodes nodes' s s' where
  listed := h.listed
  sublist := h.sublist
  dead := h.dead
  procs p hp := by
    have h1 := h.procs p hp
    generalize s.procs p = a at *
    generalize s'.procs p = b at *
    cases h1 with
    | none => exact .none
    | some h1 =>
      exact .some ⟨h1.kept, h1.state, fun n => h1.executions fun b => n (hB p b),
        fun n => h1.rsp fun b => n (hB p b)⟩
  state := h.state
  sleep := h.sleep
  pids := h.pids

/-- A DEAD record is unlinked and freed. -/
theorem removeProcess_reaped {fuel : Nat} (hl : Listed s (pre ++ d :: post))
    (hd : stateOf s d = some .dead) (run : removeProcess fuel d s = .ok s') :
    Reaped B (pre ++ d :: post) (pre ++ post) s (s'.free d) := by
  obtain ⟨hl', re, -, -⟩ := removeProcess_listed hl run
  have sh : Shuffled (fun _ => False) B s s' := .of_relinked re
  have hd' : d ∉ pre ++ post := by
    have h := hl.nodup
    rw [List.nodup_middle] at h
    exact (List.nodup_cons.mp h).1
  have other : ∀ x ∈ pre ++ post, (s'.free d).procs x = s'.procs x := by
    intro x hx
    rw [free_procs, if_neg fun e : x = d => hd' (e ▸ hx)]
  have apart : ∀ x, x ∉ pre ++ d :: post ∨ x ∈ pre ++ post → x ≠ d := by
    rintro x (hx | hx) rfl
    · exact hx (by simp)
    · exact hd' hx
  refine ⟨⟨?_, ?_, hl'.last⟩, ?_, fun p hp hn => ?_, fun p hp => ?_, fun p hp => ?_, sh.sleep,
    sh.pids⟩
  · exact linked_congr (fun x hx => by rw [link, link, other x hx]) hl'.linked
  · have same : ∀ x ∈ pre ++ post, pidOf (s'.free d) x = pidOf s' x := by
      intro x hx
      rw [pidOf, pidOf, other x hx]
    rw [List.map_congr_left same]
    exact hl'.pids
  · exact List.Sublist.append_left (List.sublist_cons_self d post) pre
  · have hpd : p = d := by
      rcases List.mem_append.mp hp with h | h
      · exact absurd (List.mem_append_left _ h) hn
      · rcases List.mem_cons.mp h with h | h
        · exact h
        · exact absurd (List.mem_append_right _ h) hn
    rw [hpd]
    exact ⟨hd, by simp⟩
  · rw [free_procs, if_neg (apart p hp)]
    exact (Shuffled.of_relinked re).procs p
  · left
    have keep : stateOf (s'.free d) p = stateOf s' p := by
      rw [stateOf, free_procs, if_neg (apart p hp)]
      rfl
    rw [keep]
    exact sh.stateOf_eq (fun h => h)

/-- The current process, or NULL, is what the list allows. -/
def Cursor (s : Sched) (nodes : List Ptr) : Prop := ∀ c, s.currentProcess = some c → c ∈ nodes

theorem mem_of_next (hl : Listed s (pre ++ c :: post)) (hr : s.procs c = some r) :
    ∀ x, r.next = some x → x ∈ post := by
  intro x hx
  rw [hl.next hr] at hx
  exact List.mem_of_mem_head? hx

theorem nextProcessLoop_reaped {steps fuel : Nat} (hl : Listed s nodes) (hc : Cursor s nodes)
    (run : nextProcessLoop steps fuel s = .ok s') :
    ∃ nodes', Reaped (fun _ => False) nodes nodes' s s' ∧ ∃ c ∈ nodes', ∃ r,
      s'.current = .ok (c, r) ∧ r.state = .ready := by
  induction fuel generalizing s nodes with
  | zero => cases run
  | succ fuel ih =>
    unfold nextProcessLoop at run
    split at run <;> rename_i hcur
    · -- from NULL to `firstProcess`
      have step : Reaped (fun _ => False) nodes nodes s
          { s with currentProcess := s.firstProcess } := .of_globals hl rfl rfl rfl rfl rfl
      obtain ⟨nodes', h, found⟩ := ih step.listed (fun c hc => by
        have head := linked_head hl.linked
        rw [show s.firstProcess = some c from hc] at head
        exact List.mem_of_mem_head? (by simpa using head.symm)) run
      exact ⟨nodes', step.trans h, found⟩
    rename_i c
    obtain ⟨r, hr, run1⟩ := bind_ok.mp run
    rw [load_ok] at hr
    have hn := hc c hcur
    obtain ⟨pre, post, rfl⟩ := List.append_of_mem hn
    have next := mem_of_next hl hr
    split at run1 <;> rename_i hready
    · obtain rfl := Except.ok.inj run1
      exact ⟨_, .of_globals hl rfl rfl rfl rfl rfl, c, hn, r, current_ok.mpr ⟨hcur, hr⟩, hready⟩
    split at run1
    · -- back at `firstBlockedIteration`: idle is made READY
      obtain ⟨⟨e, s1⟩, h1, run2⟩ := bind_ok.mp run1
      have hl0 : Listed { s with idleFlag := 1 } (pre ++ c :: post) :=
        ⟨hl.linked, hl.pids, hl.last⟩
      have step1 : Reaped (fun _ => False) (pre ++ c :: post) (pre ++ c :: post) s s1 := by
        rcases unblock_cases hl0 h1 with ⟨rfl, -⟩ | ⟨d, -, rd, hrd, hpid, hdead, hst, t, -⟩
        · exact .of_globals hl rfl rfl rfl rfl rfl
        have idle : ∀ p, p = d → IsIdle s p := by
          rintro p rfl
          exact (pidOf_of hrd).trans (congrArg some hpid)
        refine Reaped.trans
          (.of_globals hl rfl rfl rfl rfl rfl : Reaped _ _ _ s { s with idleFlag := 1 })
          (.of_touched hl0 (t.mono idle fun _ h => h) fun p => ?_)
        by_cases hp : p = d
        · refine .inr ⟨idle p hp, ?_, ?_⟩
          · rw [hp, stateOf_of hrd]
            simpa using hdead
          · rw [hp, hst]
            simp
        · exact .inl (t.stateOf_eq hp)
      have globals : Reaped (fun _ => False) (pre ++ c :: post) (pre ++ c :: post) s1
          { s1 with currentProcess := r.next } := .of_globals step1.listed rfl rfl rfl rfl rfl
      have step := step1.trans globals
      obtain ⟨nodes', h, found⟩ := ih step.listed (fun x hx => by
        have := next x hx
        simp [this]) run2
      exact ⟨nodes', step.trans h, found⟩
    split at run1 <;> rename_i hdead
    · -- a DEAD record
      obtain ⟨s1, h1, run2⟩ := bind_ok.mp run1
      have step0 : Reaped (fun _ => False) (pre ++ c :: post) (pre ++ c :: post) s
        { s with currentProcess := r.next } := .of_globals hl rfl rfl rfl rfl rfl
      have step1 : Reaped (fun _ => False) (pre ++ c :: post) (pre ++ post) _ (s1.free c) :=
        removeProcess_reaped step0.listed
          ((stateOf_of (s := { s with currentProcess := r.next }) hr).trans (by rw [hdead])) h1
      have cur : (s1.free c).currentProcess = r.next :=
        (removeProcess_listed step0.listed h1).2.1.current
      have step := step0.trans step1
      obtain ⟨nodes', h, found⟩ := ih step.listed (fun x hx => by
        have := next x (cur.symm.trans hx)
        simp [this]) run2
      exact ⟨nodes', step.trans h, found⟩
    · have step : Reaped (fun _ => False) (pre ++ c :: post) (pre ++ c :: post) s
          { s with
            firstBlockedIteration := s.firstBlockedIteration.or (some c)
            currentProcess := r.next } := .of_globals hl rfl rfl rfl rfl rfl
      obtain ⟨nodes', h, found⟩ := ih step.listed (fun x hx => by
        have := next x hx
        simp [this]) run1
      exact ⟨nodes', step.trans h, found⟩

theorem endTurn_value (rsp : Nat) (hc : s.current = .ok (c, r)) :
    endTurn rsp s = .ok (
      if r.state = .ready ∧ r.executions = MAX_PRIORITY - r.priority then
        { s.put c { r with rsp := rsp, executions := 0 } with currentProcess := r.next }
      else s.put c { r with rsp := rsp }) := by
  obtain ⟨hcur, hr⟩ := current_ok.mp hc
  simp only [endTurn, hcur, load_of hr, ok_bind, pure_ok]
  split <;> rfl

theorem endTurn_reaped {rsp : Nat} (hl : Listed s nodes) (hc : Cursor s nodes)
    (run : endTurn rsp s = .ok s') :
    Reaped (fun p => s.currentProcess = some p) nodes nodes s s' ∧ Cursor s' nodes := by
  cases hcur : s.currentProcess with
  | none =>
    unfold endTurn at run
    rw [hcur] at run
    obtain rfl := Except.ok.inj run
    exact ⟨.of_globals hl rfl rfl rfl rfl rfl, hc⟩
  | some c =>
    have hn := hc c hcur
    obtain ⟨r, hr⟩ := hl.record hn
    rw [endTurn_value _ (current_ok.mpr ⟨hcur, hr⟩)] at run
    obtain rfl := Except.ok.inj run
    obtain ⟨pre, post, rfl⟩ := List.append_of_mem hn
    split
    · have t : Touched (IsIdle s) (fun p => some c = some p) s
          (s.put c { r with rsp := rsp, executions := 0 }) := by
        refine touched_put hr ⟨?_, fun _ => rfl, fun n => absurd rfl n, fun n => absurd rfl n⟩
        exact ⟨rfl, rfl, rfl, rfl, rfl, rfl, rfl, rfl, fun h h' => ⟨h, h'⟩⟩
      have same := put_stateOf (a := { r with rsp := rsp, executions := 0 }) hr rfl
      have step := Reaped.of_touched hl t fun p => .inl (same p)
      refine ⟨step.trans (.of_globals step.listed rfl rfl rfl rfl rfl), fun x hx => ?_⟩
      have := mem_of_next hl hr x hx
      simp [this]
    · have t : Touched (IsIdle s) (fun p => some c = some p) s (s.put c { r with rsp := rsp }) := by
        refine touched_put hr ⟨?_, fun _ => rfl, fun _ => rfl, fun n => absurd rfl n⟩
        exact ⟨rfl, rfl, rfl, rfl, rfl, rfl, rfl, rfl, fun h h' => ⟨h, h'⟩⟩
      have same := put_stateOf (a := { r with rsp := rsp }) hr rfl
      refine ⟨.of_touched hl t fun p => .inl (same p), fun x hx => ?_⟩
      obtain rfl := Option.some.inj (hcur.symm.trans hx)
      exact hn

/-- The turn starts: idle may be blocked, the current record keeps its state and its `rsp`. -/
theorem startTurn_reaped {fuel v : Nat} (hl : Listed s nodes)
    (run : startTurn fuel s = .ok (v, s')) :
    Reaped (fun p => s.currentProcess = some p) nodes nodes s s' ∧
      s'.firstBlockedIteration = none ∧
      ∃ c r r', s.current = .ok (c, r) ∧ s'.current = .ok (c, r') ∧ r'.state = r.state ∧
        r'.rsp = r.rsp ∧ v = r.rsp := by
  unfold startTurn at run
  obtain ⟨⟨c, r⟩, hc, run1⟩ := bind_ok.mp run
  obtain ⟨s1, h1, run2⟩ := bind_ok.mp run1
  obtain ⟨⟨c', r1⟩, hc', run3⟩ := bind_ok.mp run2
  obtain ⟨rfl, rfl⟩ := Prod.mk.inj (Except.ok.inj run3)
  obtain ⟨hcur, hr⟩ := current_ok.mp hc
  obtain ⟨hcur', hr1⟩ := current_ok.mp hc'
  -- the current record through `block(IDLE_PID)`
  have step0 : Reaped (fun p => s.currentProcess = some p) nodes nodes s { s with
      idleFlag := if decide (r.pid ≠ IDLE_PID ∧ s.idleFlag ≠ 0) then 0 else s.idleFlag } :=
    .of_globals hl rfl rfl rfl rfl rfl
  have keep : Reaped (fun p => s.currentProcess = some p) nodes nodes s s1 ∧
      c' = c ∧ r1.state = r.state ∧ r1.rsp = r.rsp := by
    by_cases leave : r.pid ≠ IDLE_PID ∧ s.idleFlag ≠ 0
    · obtain ⟨t, st⟩ := blockIdle_touched step0.listed h1
      have other : ¬ IsIdle s c := fun hi => leave.1 (by
        rw [IsIdle, pidOf_of hr] at hi
        exact Option.some.inj hi)
      have t' : Touched (IsIdle s) (fun _ => False) { s with
          idleFlag := if decide (r.pid ≠ IDLE_PID ∧ s.idleFlag ≠ 0) then 0 else s.idleFlag } s1 :=
        t.mono (fun _ h => h) (fun p h => by
          obtain rfl := Option.some.inj (hcur.symm.trans h.2)
          exact other h.1)
      obtain rfl := Option.some.inj (hcur'.symm.trans (t.current.trans hcur))
      obtain ⟨rk, hrk, k⟩ := t'.some hr
      obtain rfl := Option.some.inj (hr1.symm.trans hrk)
      have step := step0.trans (Reaped.of_touched step0.listed
        (t.mono (fun _ h => h) (fun _ h => h.2)) fun p => by
          rcases st p with e | ⟨i, d, e⟩
          · exact .inl e
          · exact .inr ⟨i, d, by rw [e]; simp⟩)
      exact ⟨step, rfl, k.state other, k.rsp (fun h => h)⟩
    · rw [decide_eq_false leave] at h1
      obtain rfl := Except.ok.inj h1
      obtain rfl := Option.some.inj (hcur'.symm.trans hcur)
      obtain rfl := Option.some.inj (hr1.symm.trans hr)
      exact ⟨.of_globals hl rfl rfl rfl rfl rfl, rfl, rfl, rfl⟩
  obtain ⟨step, rfl, hst, hrsp⟩ := keep
  have globals : Reaped (fun p => s.currentProcess = some p) nodes nodes s1
      { s1 with firstBlockedIteration := none } := .of_globals step.listed rfl rfl rfl rfl rfl
  have step2 := step.trans globals
  have t : Touched (IsIdle { s1 with firstBlockedIteration := none })
      (fun p => s.currentProcess = some p) { s1 with firstBlockedIteration := none }
      (Sched.put { s1 with firstBlockedIteration := none } c'
        { r1 with executions := char (r1.executions + 1) }) := by
    refine touched_put hr1 ⟨?_, fun _ => rfl, fun n => absurd hcur n, fun _ => rfl⟩
    exact ⟨rfl, rfl, rfl, rfl, rfl, rfl, rfl, rfl, fun h h' => ⟨h, h'⟩⟩
  have same := put_stateOf (s := { s1 with firstBlockedIteration := none })
    (a := { r1 with executions := char (r1.executions + 1) }) hr1 rfl
  exact ⟨step2.trans (.of_touched step2.listed t fun p => .inl (same p)), rfl, c', r,
    { r1 with executions := char (r1.executions + 1) }, hc,
    current_ok.mpr ⟨hcur', by simp⟩, hst, hrsp, hrsp⟩

/-- Every return of `nextProcess`: only DEAD records leave the list, only the idle process
changes its state, and a READY listed process is dispatched with its saved `rsp`. -/
theorem nextProcess_reaped {fuel rsp v : Nat} (hl : Listed s nodes) (hc : Cursor s nodes)
    (run : nextProcess fuel rsp s = .ok (v, s')) :
    ∃ nodes', Reaped (fun _ => True) nodes nodes' s s' ∧ s'.firstBlockedIteration = none ∧
      ∃ c ∈ nodes', ∃ r, s'.current = .ok (c, r) ∧ r.state = .ready ∧ v = r.rsp := by
  unfold nextProcess at run
  obtain ⟨s1, h1, run1⟩ := bind_ok.mp run
  obtain ⟨s2, h2, run2⟩ := bind_ok.mp run1
  obtain ⟨e1, c1⟩ := endTurn_reaped hl hc h1
  obtain ⟨nodes', e2, c, hn, r, hcr, hready⟩ := nextProcessLoop_reaped e1.listed c1 h2
  obtain ⟨e3, hfb, c', r', r3, hc', hcur, hst, hrsp, hv⟩ := startTurn_reaped e2.listed run2
  obtain ⟨rfl, rfl⟩ := Prod.mk.inj (Except.ok.inj (hcr.symm.trans hc'))
  have e := ((e1.mono fun _ _ => trivial).trans (e2.mono fun _ _ => trivial)).trans
    (e3.mono (D := fun _ => True) fun _ _ => trivial)
  exact ⟨nodes', e, hfb, c, hn, r3, hcur, hst.trans hready, hv.trans hrsp.symm⟩

/-- When the turn of a READY process is used up and the next record is READY, that one is
dispatched. -/
theorem nextProcess_handOff {fuel rsp v : Nat} {P Q : List Ptr} (hl : Listed s (P ++ c :: d :: Q))
    (hc : s.current = .ok (c, r)) (ready : r.state = .ready)
    (turn : r.executions = MAX_PRIORITY - r.priority) (next : stateOf s d = some .ready)
    (run : nextProcess fuel rsp s = .ok (v, s')) : s'.currentProcess = some d := by
  unfold nextProcess at run
  obtain ⟨s1, h1, run1⟩ := bind_ok.mp run
  obtain ⟨s2, h2, run2⟩ := bind_ok.mp run1
  obtain ⟨hcur, hr⟩ := current_ok.mp hc
  have hn : r.next = some d := hl.next hr
  obtain ⟨e1, -⟩ := endTurn_reaped hl (fun x hx => by
    obtain rfl := Option.some.inj (hcur.symm.trans hx)
    simp) h1
  rw [endTurn_value _ hc, if_pos ⟨ready, turn⟩, hn] at h1
  obtain rfl := Except.ok.inj h1
  have hdc : d ≠ c := by
    have h := (List.nodup_cons.mp (List.nodup_append.mp hl.nodup).2.1).1
    rintro rfl
    simp at h
  obtain ⟨rd, hrd⟩ := hl.record (p := d) (by simp)
  have hready : rd.state = .ready := by simpa [stateOf, hrd] using next
  cases fuel with
  | zero => cases h2
  | succ fuel =>
    simp only [nextProcessLoop, load, put_procs, hdc, if_false, hrd, ok_bind, hready,
      if_true] at h2
    obtain rfl := Except.ok.inj h2
    obtain ⟨-, -, c1, r1, r2, hc1, hc2, -⟩ := startTurn_reaped e1.listed run2
    rw [(current_ok.mp hc2).1, ← (current_ok.mp hc1).1]

end

end BottlerOS.Dispatch
