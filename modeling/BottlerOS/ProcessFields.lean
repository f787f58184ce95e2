import BottlerOS.ProcessList

/-! What the functions that only write record fields do: `block`, `unblock`,
`kill`, `nice`, `wait`, `blockIo`, `unblockIo`, `quitCPU` and the sleepers'
`checkSleeping`. None of them touches a link or a pid. -/

namespace BottlerOS.ProcessFields
open Machine Scheduler LinkedList ProcessList

/-- The fields that only the making of a process and `nice` write; and a process that is in
the background for good stays there. -/
structure Kept (r r' : ProcessCDT) : Prop where
  next : r'.next = r.next
  name : r'.name = r.name
  pid : r'.pid = r.pid
  ppid : r'.ppid = r.ppid
  rbp : r'.rbp = r.rbp
  priority : r'.priority = r.priority
  fd : r'.fd = r.fd
  bPointer : r'.bPointer = r.bPointer
  background : r.foreground = 0 → r.backWait = 0 → r'.foreground = 0 ∧ r'.backWait = 0

theorem Kept.refl (r : ProcessCDT) : Kept r r :=
  ⟨rfl, rfl, rfl, rfl, rfl, rfl, rfl, rfl, fun h h' => ⟨h, h'⟩⟩

theorem Kept.trans {a b c : ProcessCDT} (h : Kept a b) (h' : Kept b c) : Kept a c where
  next := h'.next.trans h.next
  name := h'.name.trans h.name
  pid := h'.pid.trans h.pid
  ppid := h'.ppid.trans h.ppid
  rbp := h'.rbp.trans h.rbp
  priority := h'.priority.trans h.priority
  fd := h'.fd.trans h.fd
  bPointer := h'.bPointer.trans h.bPointer
  background hf hb := h'.background (h.background hf hb).1 (h.background hf hb).2

/-- A record is kept, its state changes only in `A`, its executions and `rsp` only in `B`. -/
structure Touch (A B : Ptr → Prop) (p : Ptr) (r r' : ProcessCDT) : Prop where
  kept : Kept r r'
  state : ¬ A p → r'.state = r.state
  executions : ¬ B p → r'.executions = r.executions
  rsp : ¬ B p → r'.rsp = r.rsp

section
variable {A A' B B' : Ptr → Prop} {s s' s'' : Sched} {nodes : List Ptr} {p : Ptr}

theorem Touch.refl (p : Ptr) (r : ProcessCDT) : Touch A B p r r :=
  ⟨Kept.refl r, fun _ => rfl, fun _ => rfl, fun _ => rfl⟩

theorem Touch.trans (p : Ptr) (a b c : ProcessCDT) (h : Touch A B p a b) (h' : Touch A B p b c) :
    Touch A B p a c where
  kept := h.kept.trans h'.kept
  state n := (h'.state n).trans (h.state n)
  executions n := (h'.executions n).trans (h.executions n)
  rsp n := (h'.rsp n).trans (h.rsp n)

/-- Fields of some records change: their states in `A`, their executions in `B`. -/
abbrev Touched (A B : Ptr → Prop) : Sched → Sched → Prop := Rel (Touch A B)

theorem Touched.refl (s : Sched) : Touched A B s s := Rel.refl Touch.refl

theorem Touched.trans (h : Touched A B s s') (h' : Touched A B s' s'') : Touched A B s s'' :=
  Rel.trans Touch.trans h h'

theorem Touched.mono (h : Touched A B s s') (hA : ∀ p, A p → A' p) (hB : ∀ p, B p → B' p) :
    Touched A' B' s s' :=
  Rel.mono (fun p _ _ t => ⟨t.kept, fun n => t.state fun a => n (hA p a),
    fun n => t.executions fun b => n (hB p b), fun n => t.rsp fun b => n (hB p b)⟩) h

theorem Touched.listed (h : Touched A B s s') (hl : Listed s nodes) : Listed s' nodes :=
  Rel.listed h (fun _ _ _ t => t.kept.next) (fun _ _ _ t => t.kept.pid) hl

theorem Touched.pidOf_eq (h : Touched A B s s') : pidOf s' p = pidOf s p :=
  h.map_eq _ fun _ _ t => t.kept.pid

theorem Touched.stateOf_eq (h : Touched A B s s') (hp : ¬ A p) : stateOf s' p = stateOf s p :=
  h.map_eq _ fun _ _ t => t.state hp

/-- One record is written. -/
theorem touched_put {r r' : ProcessCDT} (hp : s.procs p = some r) (h : Touch A B p r r') :
    Touched A B s (s.put p r') :=
  rel_put Touch.refl hp h

theorem giveForeground_touched {parent : Option Ptr} (run : giveForeground parent s = .ok s') :
    Touched A B s s' := by
  simp only [giveForeground, bind_ok, deref_ok, load_ok] at run
  obtain ⟨q, rfl, r, hr, run⟩ := run
  split at run <;> rename_i hb <;> obtain rfl := Except.ok.inj run
  · refine touched_put hr ⟨?_, fun _ => rfl, fun _ => rfl, fun _ => rfl⟩
    exact ⟨rfl, rfl, rfl, rfl, rfl, rfl, rfl, rfl, fun _ h => absurd h hb⟩
  · exact Touched.refl s

theorem takeForeground_touched {parent : Option Ptr} (run : takeForeground parent s = .ok s') :
    Touched A B s s' := by
  simp only [takeForeground, bind_ok, deref_ok, load_ok] at run
  obtain ⟨q, rfl, r, hr, run⟩ := run
  split at run <;> rename_i hf <;> obtain rfl := Except.ok.inj run
  · refine touched_put hr ⟨?_, fun _ => rfl, fun _ => rfl, fun _ => rfl⟩
    exact ⟨rfl, rfl, rfl, rfl, rfl, rfl, rfl, rfl, fun h _ => absurd h hf⟩
  · exact Touched.refl s

theorem giveForeground_total {q : Ptr} {r : ProcessCDT} (hq : s.procs q = some r) :
    ∃ s', giveForeground (some q) s = .ok s' := by
  simp only [giveForeground, deref_some, ok_bind, load, hq]
  split <;> exact ⟨_, rfl⟩

theorem takeForeground_total {q : Ptr} {r : ProcessCDT} (hq : s.procs q = some r) :
    ∃ s', takeForeground (some q) s = .ok s' := by
  simp only [takeForeground, deref_some, ok_bind, load, hq]
  split <;> exact ⟨_, rfl⟩

/-- The state of one record is set and nothing else. -/
theorem setState_touched {r : ProcessCDT} (hp : s.procs p = some r) (st : States) :
    Touched (· = p) (fun _ => False) s (s.put p { r with state := st }) := by
  refine touched_put hp ⟨?_, fun n => absurd rfl n, fun _ => rfl, fun _ => rfl⟩
  exact ⟨rfl, rfl, rfl, rfl, rfl, rfl, rfl, rfl, fun h h' => ⟨h, h'⟩⟩

theorem current_ok {c : Ptr} {r : ProcessCDT} :
    s.current = .ok (c, r) ↔ s.currentProcess = some c ∧ s.procs c = some r := by
  simp only [Sched.current, bind_ok, deref_ok, load_ok, pure_ok, Except.ok.injEq, Prod.mk.injEq]
  constructor
  · rintro ⟨a, ha, b, hb, rfl, rfl⟩
    exact ⟨ha, hb⟩
  · rintro ⟨ha, hb⟩
    exact ⟨c, ha, r, hb, rfl, rfl⟩

theorem ifForeground_touched {f : Int} {act : Sched → C Sched}
    (one : ∀ s', act s = .ok s' → Touched A B s s')
    (run : ifForeground f act s = .ok s') : Touched A B s s' := by
  unfold ifForeground at run
  split at run
  · exact one _ run
  · obtain rfl := Except.ok.inj run
    exact Touched.refl s

theorem search_pid {fuel : Nat} {pid : Int} {del prev : Option Ptr} (hl : Listed s nodes)
    (run : search fuel pid s = .ok (del, prev)) :
    (del = none ∧ ∀ x ∈ nodes, pidOf s x ≠ some pid) ∨
      ∃ d ∈ nodes, ∃ r, del = some d ∧ s.procs d = some r ∧ r.pid = pid := by
  rcases search_cases hl run with ⟨rfl, -, absent⟩ | ⟨pre, d, post, rfl, rfl, -, hd⟩
  · exact .inl ⟨rfl, absent⟩
  · obtain ⟨r, hr⟩ := hl.record (p := d) (by simp)
    exact .inr ⟨d, by simp, r, rfl, hr, by simpa [pidOf, hr] using hd⟩

/-- The steps of `block`: it has found no process that is not DEAD, or it blocks the one it has
found and gives the foreground back to its parent. -/
theorem block_steps {fuel : Nat} {pid : Int} {e : Exit} (hl : Listed s nodes)
    (run : block fuel pid s = .ok (e, s')) :
    (e = .ret EXIT_FAILURE ∧ s' = s ∧
      ∀ p ∈ nodes, pidOf s p = some pid → stateOf s p = some .dead) ∨
    ∃ d ∈ nodes, ∃ r parent prev s₁ c rc, s.procs d = some r ∧ r.pid = pid ∧ r.state ≠ .dead ∧
      search fuel r.ppid (s.put d { r with state := .blocked }) = .ok (parent, prev) ∧
      ifForeground r.foreground (giveForeground parent) (s.put d { r with state := .blocked }) =
        .ok s₁ ∧
      s₁.current = .ok (c, rc) ∧
      ((pid = rc.pid ∧ e = .forceTimer ∧ s' = s₁.put c { rc with executions := 0 }) ∨
        (pid ≠ rc.pid ∧ e = .ret EXIT_SUCCESS ∧ s' = s₁)) := by
  unfold block at run
  obtain ⟨⟨del, prev⟩, hs, run⟩ := bind_ok.mp run
  rcases search_pid hl hs with ⟨rfl, absent⟩ | ⟨d, hd, r, rfl, hr, hpid⟩
  · obtain ⟨rfl, rfl⟩ := Prod.mk.inj (Except.ok.inj run)
    exact .inl ⟨rfl, rfl, fun p hp he => absurd he (absent p hp)⟩
  simp only [load, hr, ok_bind] at run
  split at run <;> rename_i hdead
  · obtain ⟨rfl, rfl⟩ := Prod.mk.inj (Except.ok.inj run)
    refine .inl ⟨rfl, rfl, fun p hp he => ?_⟩
    have same := hl.pid_inj hp hd (he.trans (by simp [pidOf, hr, hpid]))
    rw [same, stateOf_of hr, hdead]
  obtain ⟨⟨parent, prev'⟩, found, run⟩ := bind_ok.mp run
  obtain ⟨s₁, given, run⟩ := bind_ok.mp run
  obtain ⟨⟨c, rc⟩, hc, run⟩ := bind_ok.mp run
  refine .inr ⟨d, hd, r, parent, prev', s₁, c, rc, hr, hpid, hdead, found, given, hc, ?_⟩
  split at run <;> rename_i self <;> obtain ⟨rfl, rfl⟩ := Prod.mk.inj (Except.ok.inj run)
  · exact .inl ⟨self, rfl, rfl⟩
  · exact .inr ⟨self, rfl, rfl⟩

/-- What `block` does when it returns. -/
theorem block_cases {fuel : Nat} {pid : Int} {e : Exit} (hl : Listed s nodes)
    (run : block fuel pid s = .ok (e, s')) :
    (e = .ret EXIT_FAILURE ∧ s' = s ∧
      ∀ p ∈ nodes, pidOf s p = some pid → stateOf s p = some .dead) ∨
    ∃ d ∈ nodes, ∃ r, s.procs d = some r ∧ r.pid = pid ∧ r.state ≠ .dead ∧
      stateOf s' d = some .blocked ∧
      ∃ c rc, s.current = .ok (c, rc) ∧
        ((pid = rc.pid ∧ e = .forceTimer ∧ Touched (· = d) (· = c) s s') ∨
          (pid ≠ rc.pid ∧ e = .ret EXIT_SUCCESS ∧ Touched (· = d) (fun _ => False) s s')) := by
  rcases block_steps hl run with missed | ⟨d, hd, r, parent, prev, s2, c, rc2, hr, hpid, hdead, -,
    hs2, hc, hself⟩
  · exact .inl missed
  right
  have t1 := setState_touched (s := s) hr .blocked
  have t2 : Touched (· = d) (fun _ => False) (s.put d { r with state := .blocked }) s2 :=
    ifForeground_touched (fun _ => giveForeground_touched) hs2
  have t2' : Touched (fun _ => False) (fun _ => False) (s.put d { r with state := .blocked }) s2 :=
    ifForeground_touched (fun _ => giveForeground_touched) hs2
  have t := t1.trans t2
  have hst : stateOf s2 d = some .blocked := by
    rw [t2'.stateOf_eq (p := d) (by simp)]
    simp [stateOf]
  obtain ⟨hcur, hrc2⟩ := current_ok.mp hc
  rw [t.current] at hcur
  cases hrc : s.procs c with
  | none => rw [t.none.mpr hrc] at hrc2; cases hrc2
  | some rc =>
  obtain ⟨rc', hrc', k⟩ := t.some hrc
  obtain rfl := Option.some.inj (hrc2.symm.trans hrc')
  have kp : rc2.pid = rc.pid := k.kept.pid
  refine ⟨d, hd, r, hr, hpid, hdead, ?_⟩
  rcases hself with ⟨hself, rfl, rfl⟩ | ⟨hself, rfl, rfl⟩
  · have t3 : Touched (· = d) (· = c) s2 (s2.put c { rc2 with executions := 0 }) := by
      refine touched_put hrc2 ⟨?_, fun _ => rfl, fun n => absurd rfl n, fun _ => rfl⟩
      exact ⟨rfl, rfl, rfl, rfl, rfl, rfl, rfl, rfl, fun h h' => ⟨h, h'⟩⟩
    refine ⟨?_, c, rc, current_ok.mpr ⟨hcur, hrc⟩, .inl ⟨hself.trans kp, rfl, ?_⟩⟩
    · simp only [stateOf, put_procs]
      split <;> rename_i hdc
      · rw [← hdc] at hrc2
        simpa [stateOf, hrc2] using hst
      · exact hst
    · exact (t.mono (fun _ h => h) (fun _ h => h.elim)).trans t3
  · exact ⟨hst, c, rc, current_ok.mpr ⟨hcur, hrc⟩, .inr ⟨fun h => hself (h.trans kp.symm), rfl, t⟩⟩

theorem sleep_cases {fuel : Nat} {now secs : Int} {m : Option Ptr} {e : Exit}
    (run : sleep fuel now secs m s = .ok (e, s')) : s' = s ∧ s.currentProcess = none ∨
      ∃ c r, s.current = .ok (c, r) ∧
        block fuel r.pid { s with firstSleep := ⟨r.pid, now, secs⟩ :: s.firstSleep } =
          .ok (e, s') := by
  unfold sleep at run
  split at run <;> rename_i hc
  · obtain ⟨-, rfl⟩ := Prod.mk.inj (Except.ok.inj run)
    exact .inl ⟨rfl, hc⟩
  · obtain ⟨w, -, run1⟩ := bind_ok.mp run
    obtain ⟨r, hr, run2⟩ := bind_ok.mp run1
    exact .inr ⟨_, r, current_ok.mpr ⟨hc, load_ok.mp hr⟩, run2⟩

/-- The steps of `unblock`. -/
theorem unblock_steps {fuel : Nat} {pid : Int} {e : Exit} (hl : Listed s nodes)
    (run : unblock fuel pid s = .ok (e, s')) :
    (e = .ret EXIT_FAILURE ∧ s' = s ∧
      ∀ p ∈ nodes, pidOf s p = some pid → stateOf s p = some .dead) ∨
    ∃ d ∈ nodes, ∃ r parent prev, s.procs d = some r ∧ r.pid = pid ∧ r.state ≠ .dead ∧
      e = .ret EXIT_SUCCESS ∧
      search fuel r.ppid (s.put d { r with state := .ready }) = .ok (parent, prev) ∧
      ifForeground r.foreground (takeForeground parent) (s.put d { r with state := .ready }) =
        .ok s' := by
  unfold unblock at run
  obtain ⟨⟨del, prev⟩, hs, run⟩ := bind_ok.mp run
  rcases search_pid hl hs with ⟨rfl, absent⟩ | ⟨d, hd, r, rfl, hr, hpid⟩
  · obtain ⟨rfl, rfl⟩ := Prod.mk.inj (Except.ok.inj run)
    exact .inl ⟨rfl, rfl, fun p hp he => absurd he (absent p hp)⟩
  simp only [load, hr, ok_bind] at run
  split at run <;> rename_i hdead
  · obtain ⟨rfl, rfl⟩ := Prod.mk.inj (Except.ok.inj run)
    refine .inl ⟨rfl, rfl, fun p hp he => ?_⟩
    have same := hl.pid_inj hp hd (he.trans (by simp [pidOf, hr, hpid]))
    rw [same, stateOf_of hr, hdead]
  obtain ⟨⟨parent, prev'⟩, found, run⟩ := bind_ok.mp run
  obtain ⟨s₁, given, run⟩ := bind_ok.mp run
  obtain ⟨rfl, rfl⟩ := Prod.mk.inj (Except.ok.inj run)
  exact .inr ⟨d, hd, r, parent, prev', hr, hpid, hdead, rfl, found, given⟩

/-- What `unblock` does when it returns. -/
theorem unblock_cases {fuel : Nat} {pid : Int} {e : Exit} (hl : Listed s nodes)
    (run : unblock fuel pid s = .ok (e, s')) :
    (s' = s ∧ ∀ p ∈ nodes, pidOf s p = some pid → stateOf s p = some .dead) ∨
    ∃ d ∈ nodes, ∃ r, s.procs d = some r ∧ r.pid = pid ∧ r.state ≠ .dead ∧
      stateOf s' d = some .ready ∧ Touched (· = d) (fun _ => False) s s' ∧
      (r.foreground = 0 → s' = s.put d { r with state := .ready }) := by
  rcases unblock_steps hl run with
    ⟨-, missed⟩ | ⟨d, hd, r, parent, prev, hr, hpid, hdead, -, -, hs2⟩
  · exact .inl missed
  have t : Touched (fun _ => False) (fun _ => False) (s.put d { r with state := .ready }) s' :=
    ifForeground_touched (fun _ => takeForeground_touched) hs2
  refine .inr ⟨d, hd, r, hr, hpid, hdead, ?_, ?_, fun hf => ?_⟩
  · rw [t.stateOf_eq (p := d) (by simp)]
    simp [stateOf]
  · exact (setState_touched hr .ready).trans (t.mono (fun _ h => h.elim) (fun _ h => h))
  · rw [ifForeground, if_neg (not_not.mpr hf)] at hs2
    exact (Except.ok.inj hs2).symm

/-- A record is kept, except that a process in state `st` may become READY. -/
structure Awaken (st : States) (p : Ptr) (r r' : ProcessCDT) : Prop where
  kept : Kept r r'
  executions : r'.executions = r.executions
  state : r'.state = r.state ∨ (r.state = st ∧ r'.state = .ready)

theorem Awaken.refl {st : States} (p : Ptr) (r : ProcessCDT) : Awaken st p r r :=
  ⟨Kept.refl r, rfl, .inl rfl⟩

theorem Awaken.trans {st : States} (p : Ptr) (a b c : ProcessCDT) (h : Awaken st p a b)
    (h' : Awaken st p b c) : Awaken st p a c where
  kept := h.kept.trans h'.kept
  executions := h'.executions.trans h.executions
  state := by
    rcases h'.state with e' | ⟨e', hr⟩
    · rw [e']
      exact h.state
    · rcases h.state with e | ⟨e, -⟩
      · exact .inr ⟨e ▸ e', hr⟩
      · exact .inr ⟨e, hr⟩

theorem unblockIoFrom_awaken {fuel : Nat} {aux : Option Ptr}
    (run : unblockIoFrom fuel aux s = .ok s') : Rel (Awaken .blockedIo) s s' := by
  induction fuel generalizing aux s with
  | zero => cases run
  | succ fuel ih =>
    cases aux with
    | none =>
      obtain rfl := Except.ok.inj run
      exact Rel.refl Awaken.refl
    | some p =>
      simp only [unblockIoFrom, bind_ok, load_ok] at run
      obtain ⟨r, hr, run⟩ := run
      refine Rel.trans Awaken.trans ?_ (ih run)
      split <;> rename_i hst
      · refine rel_put Awaken.refl hr ⟨?_, rfl, .inr ⟨hst, rfl⟩⟩
        exact ⟨rfl, rfl, rfl, rfl, rfl, rfl, rfl, rfl, fun h h' => ⟨h, h'⟩⟩
      · exact Rel.refl Awaken.refl

theorem orphan_awaken {f : Int} (p : Ptr) (r : ProcessCDT) : Awaken .waiting p r (orphan f r) := by
  refine ⟨⟨?_, ?_, ?_, ?_, ?_, ?_, ?_, ?_, ?_⟩, ?_, ?_⟩ <;> unfold orphan <;>
    (try intro h h') <;> simp only <;> split_ifs <;> simp_all

theorem orphanParent_awaken {f : Int} {parent : Option Ptr}
    (run : orphanParent f parent s = .ok s') : Rel (Awaken .waiting) s s' := by
  cases parent with
  | none =>
    obtain rfl := Except.ok.inj run
    exact Rel.refl Awaken.refl
  | some q =>
    simp only [orphanParent, bind_ok, load_ok] at run
    obtain ⟨r, hr, run⟩ := run
    obtain rfl := Except.ok.inj run
    exact rel_put Awaken.refl hr (orphan_awaken q r)

theorem Awaken.stateOf {st : States} (h : Rel (Awaken st) s s') (p : Ptr) :
    stateOf s' p = stateOf s p ∨ (stateOf s p = some st ∧ stateOf s' p = some .ready) := by
  cases hr : s.procs p with
  | none => simp [ProcessList.stateOf, hr, h.none.mpr hr]
  | some r =>
    obtain ⟨r', hr', k⟩ := h.some hr
    simpa [ProcessList.stateOf, hr, hr'] using k.state

theorem Awaken.pidOf {st : States} (h : Rel (Awaken st) s s') (p : Ptr) :
    pidOf s' p = pidOf s p := h.map_eq _ fun _ _ t => t.kept.pid

theorem Awaken.listed {st : States} (h : Rel (Awaken st) s s') (hl : Listed s nodes) :
    Listed s' nodes :=
  Rel.listed h (fun _ _ _ t => t.kept.next) (fun _ _ _ t => t.kept.pid) hl

/-- The process at `d` is DEAD, and a process that waits for its children may be READY. -/
structure Killing (d p : Ptr) (r r' : ProcessCDT) : Prop where
  kept : Kept r r'
  executions : r'.executions = r.executions
  state : if p = d then r'.state = .dead else
    r'.state = r.state ∨ (r.state = .waiting ∧ r'.state = .ready)

/-- The steps of `kill`. -/
theorem kill_steps {fuel : Nat} {pid : Int} {e : Exit} (hl : Listed s nodes)
    (run : kill fuel pid s = .ok (e, s')) :
    (e = .ret EXIT_FAILURE ∧ s' = s ∧ ∀ p ∈ nodes, pidOf s p ≠ some pid) ∨
    ∃ d ∈ nodes, ∃ r parent prev s₁ r₁ c rc, s.procs d = some r ∧ r.pid = pid ∧
      search fuel r.ppid s = .ok (parent, prev) ∧ orphanParent r.foreground parent s = .ok s₁ ∧
      s₁.procs d = some r₁ ∧
      s' = Sched.put { s₁ with freed := r₁.bPointer :: r₁.name :: r₁.fd :: s₁.freed } d
        { r₁ with state := .dead } ∧
      s'.current = .ok (c, rc) ∧
      ((pid = rc.pid ∧ e = .forceTimer) ∨ (pid ≠ rc.pid ∧ e = .ret EXIT_SUCCESS)) := by
  unfold kill at run
  obtain ⟨⟨del, prev⟩, hs, run⟩ := bind_ok.mp run
  rcases search_pid hl hs with ⟨rfl, absent⟩ | ⟨d, hd, r, rfl, hr, hpid⟩
  · obtain ⟨rfl, rfl⟩ := Prod.mk.inj (Except.ok.inj run)
    exact .inl ⟨rfl, rfl, absent⟩
  simp only [load, hr, ok_bind] at run
  obtain ⟨⟨parent, prev'⟩, found, run⟩ := bind_ok.mp run
  obtain ⟨s₁, orphaned, run⟩ := bind_ok.mp run
  obtain ⟨r₁, hr₁, run⟩ := bind_ok.mp run
  obtain ⟨⟨c, rc⟩, hc, run⟩ := bind_ok.mp run
  refine .inr ⟨d, hd, r, parent, prev', s₁, r₁, c, rc, hr, hpid, found, orphaned,
    load_ok.mp hr₁, ?_⟩
  split at run <;> rename_i self <;> obtain ⟨rfl, rfl⟩ := Prod.mk.inj (Except.ok.inj run)
  · exact ⟨rfl, hc, .inl ⟨self, rfl⟩⟩
  · exact ⟨rfl, hc, .inr ⟨self, rfl⟩⟩

/-- What `kill` does when it returns: the process dies and at most its parent wakes. -/
theorem kill_cases {fuel : Nat} {pid : Int} {e : Exit} (hl : Listed s nodes)
    (run : kill fuel pid s = .ok (e, s')) :
    (e = .ret EXIT_FAILURE ∧ s' = s ∧ ∀ p ∈ nodes, pidOf s p ≠ some pid) ∨
    ∃ d ∈ nodes, ∃ r, s.procs d = some r ∧ r.pid = pid ∧ Rel (Killing d) s s' ∧
      ∃ c rc, s.current = .ok (c, rc) ∧
        ((pid = rc.pid ∧ e = .forceTimer) ∨ (pid ≠ rc.pid ∧ e = .ret EXIT_SUCCESS)) := by
  rcases kill_steps hl run with missed | ⟨d, hd, r, parent, prev, s1, r1, c, rc2, hr, hpid, -, hs1,
    hr1, rfl, hc, hself⟩
  · exact .inl missed
  have t := orphanParent_awaken hs1
  obtain ⟨r1', hr1', k1⟩ := t.some hr
  obtain rfl := Option.some.inj (hr1.symm.trans hr1')
  obtain ⟨hcur, hrc2⟩ := current_ok.mp hc
  change s1.currentProcess = some c at hcur
  rw [t.current] at hcur
  have killing : Rel (Killing d) s (Sched.put { s1 with
      freed := r1.bPointer :: r1.name :: r1.fd :: s1.freed } d { r1 with state := .dead }) := by
    refine ⟨t.first, t.last, t.current, t.blocked, t.sleep, t.pids, t.idle, fun p => ?_⟩
    rw [put_procs]
    split <;> rename_i hpd
    · rw [hpd, hr]
      refine .some ⟨⟨k1.kept.next, k1.kept.name, k1.kept.pid, k1.kept.ppid, k1.kept.rbp,
        k1.kept.priority, k1.kept.fd, k1.kept.bPointer, k1.kept.background⟩, k1.executions, ?_⟩
      simp
    · change Option.Rel (Killing d p) (s.procs p) (s1.procs p)
      have h1 := t.procs p
      generalize s.procs p = a at *
      generalize s1.procs p = b at *
      cases h1 with
      | none => exact .none
      | some h1 => exact .some ⟨h1.kept, h1.executions, by rw [if_neg hpd]; exact h1.state⟩
  have hrc : ∃ rc, s.procs c = some rc ∧ rc2.pid = rc.pid := by
    cases hrc : s.procs c with
    | none => rw [killing.none.mpr hrc] at hrc2; cases hrc2
    | some rc =>
      obtain ⟨rc', hrc', k⟩ := killing.some hrc
      obtain rfl := Option.some.inj (hrc2.symm.trans hrc')
      exact ⟨rc, rfl, k.kept.pid⟩
  obtain ⟨rc, hrc, kp⟩ := hrc
  exact .inr ⟨d, hd, r, hr, hpid, killing, c, rc, current_ok.mpr ⟨hcur, hrc⟩, kp ▸ hself⟩

theorem nice_cases {fuel : Nat} {pid offset : Int} {e : Exit} (hl : Listed s nodes)
    (run : nice fuel pid offset s = .ok (e, s')) :
    s' = s ∨ ∃ d ∈ nodes, ∃ r, s.procs d = some r ∧ r.pid = pid ∧ -20 ≤ offset ∧ offset < 20 ∧
      s' = s.put d { r with priority := char (offset + 20) } := by
  unfold nice at run
  split at run <;> rename_i hr
  · obtain ⟨-, rfl⟩ := Prod.mk.inj (Except.ok.inj run)
    exact .inl rfl
  obtain ⟨⟨del, prev⟩, hs, run⟩ := bind_ok.mp run
  rcases search_pid hl hs with ⟨rfl, -⟩ | ⟨d, hd, r, rfl, hrec, hpid⟩
  · obtain ⟨-, rfl⟩ := Prod.mk.inj (Except.ok.inj run)
    exact .inl rfl
  · simp only [load, hrec, ok_bind] at run
    obtain ⟨-, rfl⟩ := Prod.mk.inj (Except.ok.inj run)
    exact .inr ⟨d, hd, r, hrec, hpid, by omega, by omega, rfl⟩

theorem wait_cases {e : Exit} (run : wait s = .ok (e, s')) :
    (e = .ret EXIT_SUCCESS ∧ s' = s) ∨
      ∃ c r, s.current = .ok (c, r) ∧ r.children ≠ 0 ∧ e = .forceTimer ∧
        s' = s.put c { r with state := .waiting } := by
  unfold wait at run
  split at run <;> rename_i hc
  · obtain ⟨rfl, rfl⟩ := Prod.mk.inj (Except.ok.inj run)
    exact .inl ⟨rfl, rfl⟩
  · rename_i c
    simp only [bind_ok, load_ok] at run
    obtain ⟨r, hr, run⟩ := run
    split at run <;> rename_i hch <;> obtain ⟨rfl, rfl⟩ := Prod.mk.inj (Except.ok.inj run)
    · exact .inr ⟨c, r, current_ok.mpr ⟨hc, hr⟩, hch, rfl, rfl⟩
    · exact .inl ⟨rfl, rfl⟩

theorem blockIo_cases {e : Exit} (run : blockIo s = .ok (e, s')) :
    (e = .ret EXIT_FAILURE ∧ s' = s) ∨
      ∃ c r, s.current = .ok (c, r) ∧ r.state ≠ .dead ∧ e = .forceTimer ∧
        s' = s.put c { r with state := .blockedIo, executions := 0 } := by
  unfold blockIo at run
  split at run <;> rename_i hc
  · obtain ⟨rfl, rfl⟩ := Prod.mk.inj (Except.ok.inj run)
    exact .inl ⟨rfl, rfl⟩
  · rename_i c
    simp only [bind_ok, load_ok] at run
    obtain ⟨r, hr, run⟩ := run
    split at run <;> rename_i hd <;> obtain ⟨rfl, rfl⟩ := Prod.mk.inj (Except.ok.inj run)
    · exact .inl ⟨rfl, rfl⟩
    · exact .inr ⟨c, r, current_ok.mpr ⟨hc, hr⟩, hd, rfl, rfl⟩

theorem quitCPU_cases {e : Exit} (run : quitCPU s = .ok (e, s')) :
    (e = .ret EXIT_FAILURE ∧ s' = s) ∨
      ∃ c r, s.current = .ok (c, r) ∧ e = .forceTimer ∧
        s' = s.put c { r with executions := char (MAX_PRIORITY - r.priority) } := by
  unfold quitCPU at run
  obtain ⟨pid, -, run⟩ := bind_ok.mp run
  split at run
  · obtain ⟨rfl, rfl⟩ := Prod.mk.inj (Except.ok.inj run)
    exact .inl ⟨rfl, rfl⟩
  · obtain ⟨⟨c, r⟩, hc, run⟩ := bind_ok.mp run
    obtain ⟨rfl, rfl⟩ := Prod.mk.inj (Except.ok.inj run)
    exact .inr ⟨c, r, hc, rfl, rfl⟩

/-- An entry whose time has come. -/
def expired (now : Int) (e : SleepCDT) : Bool := now ≥ e.time + e.secs

theorem checkSleepingFrom_touched {fuel : Nat} {now : Int} {kept aux : List SleepCDT}
    (hl : Listed s nodes) (run : checkSleepingFrom fuel now kept aux s = .ok s') :
    Touched (fun p => ∃ e ∈ aux, expired now e ∧ pidOf s p = some e.pid ∧
        stateOf s p ≠ some .dead) (fun _ => False)
      { s with firstSleep := kept ++ aux.filter (fun e => !expired now e) } s' ∧
    ∀ p, stateOf s' p = stateOf s p ∨ stateOf s' p = some .ready := by
  induction aux generalizing kept s with
  | nil =>
    obtain rfl := Except.ok.inj run
    simp only [List.filter_nil, List.append_nil]
    exact ⟨Touched.refl _, fun p => .inl rfl⟩
  | cons e aux ih =>
    unfold checkSleepingFrom at run
    split at run <;> rename_i hx
    · obtain ⟨⟨ex, s1⟩, h1, rest⟩ := bind_ok.mp run
      obtain ⟨w, -, rest⟩ := bind_ok.mp rest
      have he : expired now e = true := by simpa [expired] using hx
      rw [List.filter_cons_of_neg (by simp [he])]
      rcases unblock_cases hl h1 with ⟨rfl, -⟩ | ⟨d, hd, r, hr, hpid, hdead, hst, t, -⟩
      · obtain ⟨t2, h2⟩ := ih hl rest
        refine ⟨t2.mono ?_ (fun _ h => h), h2⟩
        rintro p ⟨e', he', h⟩
        exact ⟨e', List.mem_cons_of_mem _ he', h⟩
      · have hp : ∀ p, pidOf s1 p = pidOf s p := fun p => t.pidOf_eq
        have hs : ∀ p, stateOf s1 p = stateOf s p ∨ (p = d ∧ stateOf s1 p = some .ready) := by
          intro p
          by_cases hpd : p = d
          · exact .inr ⟨hpd, hpd ▸ hst⟩
          · exact .inl (t.stateOf_eq hpd)
        obtain ⟨t2, h2⟩ := ih (t.listed hl) rest
        constructor
        · have t' : Touched (· = d) (fun _ => False)
              { s with firstSleep := kept ++ aux.filter (fun e => !expired now e) }
              { s1 with firstSleep := kept ++ aux.filter (fun e => !expired now e) } :=
            ⟨t.first, t.last, t.current, t.blocked, rfl, t.pids, t.idle, t.procs⟩
          refine (t'.mono ?_ (fun _ h => h)).trans (t2.mono ?_ (fun _ h => h))
          · rintro p rfl
            exact ⟨e, List.mem_cons_self, he, by rw [pidOf_of hr, hpid],
              by rw [stateOf_of hr]; simpa using hdead⟩
          · rintro p ⟨e', he', hx', hpe, hsp⟩
            refine ⟨e', List.mem_cons_of_mem _ he', hx', hp p ▸ hpe, ?_⟩
            rcases hs p with h | ⟨rfl, -⟩
            · exact h ▸ hsp
            · rw [stateOf_of hr]
              simpa using hdead
        · intro p
          rcases h2 p with h | h
          · rw [h]
            rcases hs p with h' | ⟨-, h'⟩
            · exact .inl h'
            · exact .inr h'
          · exact .inr h
    · have he : expired now e = false := by simpa [expired] using hx
      obtain ⟨t, h⟩ := ih hl run
      rw [List.filter_cons_of_pos (by simp [he])]
      simp only [List.append_assoc, List.singleton_append] at t
      refine ⟨t.mono ?_ (fun _ h => h), h⟩
      rintro p ⟨e', he', h⟩
      exact ⟨e', List.mem_cons_of_mem _ he', h⟩

theorem checkSleeping_nil {fuel : Nat} {now : Int} (h : s.firstSleep = []) :
    checkSleeping fuel now s = .ok s := by
  unfold checkSleeping
  rw [h, checkSleepingFrom]
  cases s
  simp_all

/-- The record of the idle process. -/
def IsIdle (s : Sched) (p : Ptr) : Prop := pidOf s p = some IDLE_PID

/-- `block(IDLE_PID)` by another process, or by none. -/
theorem blockIdle_touched {fuel : Nat} {cond : Bool} (hl : Listed s nodes)
    (run : blockIdle fuel cond s = .ok s') :
    Touched (IsIdle s) (fun p => IsIdle s p ∧ s.currentProcess = some p) s s' ∧
      ∀ p, stateOf s' p = stateOf s p ∨
        (IsIdle s p ∧ stateOf s p ≠ some .dead ∧ stateOf s' p = some .blocked) := by
  unfold blockIdle at run
  split at run
  · obtain ⟨⟨e, s1⟩, h1, run1⟩ := bind_ok.mp run
    obtain rfl := Except.ok.inj run1
    rcases block_cases hl h1 with ⟨-, rfl, -⟩ | ⟨d, -, r, hr, hpid, hdead, hst, c, rc, hc, h⟩
    · exact ⟨Touched.refl _, fun p => .inl rfl⟩
    have idle : ∀ p, p = d → IsIdle s p := by
      rintro p rfl
      exact (pidOf_of hr).trans (congrArg some hpid)
    have state : ∀ p, Touched (· = d) (· = c) s s1 →
        (stateOf s1 p = stateOf s p ∨
          (IsIdle s p ∧ stateOf s p ≠ some .dead ∧ stateOf s1 p = some .blocked)) := by
      intro p t
      by_cases hp : p = d
      · exact .inr ⟨idle p hp, by rw [hp, stateOf_of hr]; simpa using hdead, hp ▸ hst⟩
      · exact .inl (t.stateOf_eq hp)
    rcases h with ⟨hself, -, t⟩ | ⟨-, -, t⟩
    · refine ⟨t.mono idle ?_, fun p => state p t⟩
      rintro p rfl
      obtain ⟨hcur, hrc⟩ := current_ok.mp hc
      exact ⟨(pidOf_of hrc).trans (congrArg some hself.symm), hcur⟩
    · exact ⟨t.mono idle (fun _ h => h.elim),
        fun p => state p (t.mono (fun _ h => h) (fun _ h => h.elim))⟩
  · obtain rfl := Except.ok.inj run
    exact ⟨Touched.refl _, fun p => .inl rfl⟩

theorem adoptCurrent_touched {nullPid foreground ppid : Int}
    (run : adoptCurrent nullPid foreground s = .ok (ppid, s')) : Touched A B s s' := by
  unfold adoptCurrent at run
  split at run
  · obtain ⟨-, rfl⟩ := Prod.mk.inj (Except.ok.inj run)
    exact Touched.refl _
  · obtain ⟨r, hr, run1⟩ := bind_ok.mp run
    obtain ⟨-, rfl⟩ := Prod.mk.inj (Except.ok.inj run1)
    refine touched_put (load_ok.mp hr) ?_
    simp only [adopt]
    split <;> rename_i hf <;> refine ⟨⟨rfl, rfl, rfl, rfl, rfl, rfl, rfl, rfl, fun h h' => ?_⟩,
      fun _ => rfl, fun _ => rfl, fun _ => rfl⟩
    · exact absurd h hf.1
    · exact ⟨h, h'⟩

/-! Calls that return. -/

/-- Each foreground process of the list has its parent in the list. -/
def Homed (s : Sched) (nodes : List Ptr) : Prop :=
  ∀ p ∈ nodes, ∀ r, s.procs p = some r → r.foreground ≠ 0 →
    ∃ q ∈ nodes, pidOf s q = some r.ppid

theorem ifForeground_total {fuel : Nat} {parent prev : Option Ptr} {f ppid : Int}
    {act : Option Ptr → Sched → C Sched} (hl : Listed s nodes)
    (act_total : ∀ q r, s.procs q = some r → ∃ s', act (some q) s = .ok s')
    (run : search fuel ppid s = .ok (parent, prev))
    (home : f ≠ 0 → ∃ q ∈ nodes, pidOf s q = some ppid) :
    ∃ s', ifForeground f (act parent) s = .ok s' := by
  unfold ifForeground
  split <;> rename_i hf
  · obtain ⟨q, hq, hpid⟩ := home hf
    rcases search_pid hl run with ⟨-, absent⟩ | ⟨q', -, r, rfl, hr, -⟩
    · exact absurd hpid (absent q hq)
    · exact act_total q' r hr
  · exact ⟨s, rfl⟩

theorem unblock_total {fuel : Nat} (pid : Int) (hl : Listed s nodes) (enough : nodes.length < fuel)
    (home : ∀ p ∈ nodes, ∀ r, s.procs p = some r → r.pid = pid → r.state ≠ .dead →
      r.foreground ≠ 0 → ∃ q ∈ nodes, pidOf s q = some r.ppid) :
    ∃ x, unblock fuel pid s = .ok x := by
  obtain ⟨del, prev, hs⟩ := search_total hl enough pid
  unfold unblock
  rw [hs, ok_bind]
  rcases search_pid hl hs with ⟨rfl, -⟩ | ⟨d, hd, r, rfl, hr, hpid⟩
  · exact ⟨_, rfl⟩
  simp only [load, hr, ok_bind]
  split <;> rename_i alive
  · exact ⟨_, rfl⟩
  have t := setState_touched (s := s) hr .ready
  obtain ⟨parent, prev', hp⟩ := search_total (t.listed hl) enough r.ppid
  obtain ⟨s', h'⟩ := ifForeground_total (f := r.foreground) (t.listed hl)
    (fun q r => takeForeground_total) hp (fun hf => by
      obtain ⟨q, hq, he⟩ := home d hd r hr hpid alive hf
      exact ⟨q, hq, t.pidOf_eq.trans he⟩)
  simp only [hp, ok_bind, h']
  exact ⟨_, rfl⟩

theorem block_total {fuel : Nat} (pid : Int) (hl : Listed s nodes) (enough : nodes.length < fuel)
    {c : Ptr} {rc : ProcessCDT} (hc : s.current = .ok (c, rc))
    (home : ∀ p ∈ nodes, ∀ r, s.procs p = some r → r.pid = pid → r.state ≠ .dead →
      r.foreground ≠ 0 → ∃ q ∈ nodes, pidOf s q = some r.ppid) :
    ∃ x, block fuel pid s = .ok x := by
  obtain ⟨del, prev, hs⟩ := search_total hl enough pid
  unfold block
  rw [hs, ok_bind]
  rcases search_pid hl hs with ⟨rfl, -⟩ | ⟨d, hd, r, rfl, hr, hpid⟩
  · exact ⟨_, rfl⟩
  simp only [load, hr, ok_bind]
  split <;> rename_i alive
  · exact ⟨_, rfl⟩
  have t := setState_touched (s := s) hr .blocked
  obtain ⟨parent, prev', hp⟩ := search_total (t.listed hl) enough r.ppid
  obtain ⟨s', h'⟩ := ifForeground_total (f := r.foreground) (t.listed hl)
    (fun q r => giveForeground_total) hp (fun hf => by
      obtain ⟨q, hq, he⟩ := home d hd r hr hpid alive hf
      exact ⟨q, hq, t.pidOf_eq.trans he⟩)
  have t' : Touched (· = d) (fun _ => False) s s' :=
    t.trans (ifForeground_touched (fun _ => giveForeground_touched) h')
  obtain ⟨hcur, hrc⟩ := current_ok.mp hc
  obtain ⟨rc', hrc', -⟩ := t'.some hrc
  have hcur : s'.current = .ok (c, rc') := current_ok.mpr ⟨t'.current.trans hcur, hrc'⟩
  simp only [hp, ok_bind, h', hcur]
  split <;> exact ⟨_, rfl⟩

theorem blockIdle_total {fuel : Nat} (cond : Bool) (hl : Listed s nodes)
    (enough : nodes.length < fuel) {c : Ptr} (hc : s.currentProcess = some c) (hn : c ∈ nodes)
    (home : ∀ p ∈ nodes, ∀ r, s.procs p = some r → r.pid = IDLE_PID → r.foreground ≠ 0 →
      ∃ q ∈ nodes, pidOf s q = some r.ppid) : ∃ s', blockIdle fuel cond s = .ok s' := by
  unfold blockIdle
  split
  · obtain ⟨rc, hrc⟩ := hl.record hn
    obtain ⟨⟨e, s1⟩, h⟩ := block_total IDLE_PID hl enough (current_ok.mpr ⟨hc, hrc⟩)
      fun p hp r hr hpid _ => home p hp r hr hpid
    exact ⟨s1, by simp [h]⟩
  · exact ⟨s, rfl⟩

end

end BottlerOS.ProcessFields
