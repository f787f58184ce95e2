import BottlerOS.Kernel
import BottlerOS.Turns

/-! A killed process stays dead. No call and no expired sleep gives a DEAD record another
state; `nextProcess` dispatches a READY one, and it alone frees records: DEAD ones, each
once, when nothing refers to them any more. -/

namespace BottlerOS.Dead
open Machine Scheduler LinkedList ProcessList ProcessFields ProcessLinks
open SchedCalls SchedRuns Turns

/-- DEAD records stay DEAD, and no record is freed. -/
def Keeps (s t : Sched) : Prop := ∀ p,
  (stateOf s p = some .dead → stateOf t p = some .dead) ∧ (s.procs p ≠ none → t.procs p ≠ none)

/-- Nothing of the scheduler points to the address. -/
structure Unreferenced (s : Sched) (p : Ptr) : Prop where
  current : s.currentProcess ≠ some p
  blocked : s.firstBlockedIteration ≠ some p
  first : s.firstProcess ≠ some p
  last : s.lastProcess ≠ some p
  next : ∀ q r, s.procs q = some r → r.next ≠ some p

/-- What `nextProcess` does to DEAD records between its entry in `t` and its return of `v`. -/
structure Reaping (t : Sched) (v : Nat) (s' : Sched) : Prop where
  dispatched : ∃ c r, s'.current = .ok (c, r) ∧ r.state = .ready ∧ v = r.rsp ∧
    stateOf t c ≠ some .dead
  dead : ∀ p, stateOf t p = some .dead → stateOf s' p = some .dead ∨ s'.procs p = none
  freed : ∃ gone : List Ptr, s'.freed = gone ++ t.freed ∧ gone.Nodup ∧
    ∀ p, p ∈ gone ↔ t.procs p ≠ none ∧ s'.procs p = none
  gone : ∀ p, t.procs p ≠ none → s'.procs p = none → stateOf t p = some .dead ∧ Unreferenced s' p

section
variable {s s' t : Sched} {nodes nodes' : List Ptr} {fuel steps : Nat} {c p : Ptr}
  {r : ProcessCDT} {x : Exit}

theorem Keeps.refl (s : Sched) : Keeps s s := fun _ => ⟨id, id⟩

theorem Keeps.trans {s₁ s₂ s₃ : Sched} (h : Keeps s₁ s₂) (h' : Keeps s₂ s₃) : Keeps s₁ s₃ :=
  fun p => ⟨fun hd => (h' p).1 ((h p).1 hd), fun hr => (h' p).2 ((h p).2 hr)⟩

theorem Keeps.rel {R : Ptr → ProcessCDT → ProcessCDT → Prop} (k : Rel R s t)
    (dead : ∀ p a b, R p a b → a.state = .dead → b.state = .dead) : Keeps s t := by
  refine fun p => ⟨fun hd => ?_, fun hr none => hr (k.none.mp none)⟩
  cases hs : s.procs p with
  | none => simp [stateOf, hs] at hd
  | some a =>
    obtain ⟨b, hb, hR⟩ := k.some hs
    rw [stateOf_of hs] at hd
    rw [stateOf_of hb, dead p a b hR (Option.some.inj hd)]

/-- Only one state changes, and that one was not DEAD. -/
theorem Keeps.touched {A B : Ptr → Prop} (k : Touched A B s t)
    (alive : ∀ p, A p → stateOf s p ≠ some .dead) : Keeps s t := by
  refine fun p => ⟨fun hd => ?_, fun hr none => hr (k.none.mp none)⟩
  rw [k.stateOf_eq fun hA => alive p hA hd, hd]

theorem Keeps.put {a : ProcessCDT} (hp : s.procs p = some r)
    (dead : r.state = .dead → a.state = .dead) : Keeps s (s.put p a) := by
  refine fun q => ⟨fun hd => ?_, fun hr => ?_⟩
  · simp only [stateOf, put_procs]
    split <;> rename_i hq
    · rw [hq, stateOf_of hp] at hd
      exact congrArg some (dead (Option.some.inj hd))
    · exact hd
  · rw [put_procs]
    split
    · simp
    · exact hr

theorem block_keeps {pid : Int} (h : Sound s nodes) (run : block fuel pid s = .ok (x, t)) :
    Keeps s t := by
  rcases block_cases h.listed run with ⟨-, rfl, -⟩ | ⟨d, -, r, hr, -, alive, -, c, rc, -, hself⟩
  · exact .refl _
  have hd : ∀ p, p = d → stateOf s p ≠ some .dead := by
    rintro p rfl
    rw [stateOf_of hr]
    simpa using alive
  rcases hself with ⟨-, -, k⟩ | ⟨-, -, k⟩
  · exact .touched k hd
  · exact .touched k hd

theorem unblock_keeps {pid : Int} (h : Sound s nodes) (run : unblock fuel pid s = .ok (x, t)) :
    Keeps s t := by
  rcases unblock_cases h.listed run with ⟨rfl, -⟩ | ⟨d, -, r, hr, -, alive, -, k, -⟩
  · exact .refl _
  · refine .touched k ?_
    rintro p rfl
    rw [stateOf_of hr]
    simpa using alive

theorem kill_keeps {pid : Int} (h : Sound s nodes) (run : kill fuel pid s = .ok (x, t)) :
    Keeps s t := by
  rcases kill_cases h.listed run with ⟨-, rfl, -⟩ | ⟨d, -, r, -, -, k, -⟩
  · exact .refl _
  · refine .rel k fun p a b kp hd => ?_
    have state := kp.state
    split at state
    · exact state
    · rcases state with e | ⟨e, -⟩
      · rw [e, hd]
      · rw [hd] at e
        cases e

/-- No call brings a DEAD process back. -/
theorem perform_keeps {op : Op} (h : Sound s nodes) (ready : ∃ c r, s.current = .ok (c, r) ∧
    r.state = .ready) (callable : Callable s op) (run : perform fuel s op = .ok (x, t)) :
    Keeps s t := by
  obtain ⟨c, rc, hc, ready⟩ := ready
  -- a call that writes the current record, which is READY
  have current : ∀ {c' : Ptr} {r a : ProcessCDT}, s.current = .ok (c', r) →
      Keeps s (s.put c' a) := by
    intro c' r a hc'
    obtain ⟨rfl, rfl⟩ := Prod.mk.inj (Except.ok.inj (hc.symm.trans hc'))
    refine .put (current_ok.mp hc).2 fun hd => ?_
    rw [ready] at hd
    cases hd
  cases op with
  | enqueueProcess foreground fd m =>
    obtain ⟨⟨pid, s1⟩, h1, run1⟩ := bind_ok.mp run
    obtain ⟨rfl, rfl⟩ := Prod.mk.inj (Except.ok.inj run1)
    obtain ⟨-, p, -, -, e⟩ := enqueueProcess_sound h callable.2 h1
    refine fun q => ⟨fun hd => ?_, fun hr none => ?_⟩
    · have hqp : q ≠ p := by
        rintro rfl
        simp [stateOf, e.free] at hd
      rcases e.state q hqp with es | ⟨-, alive, -⟩
      · rw [es, hd]
      · exact absurd hd alive
    · have hqp : q ≠ p := fun e' => hr (e' ▸ e.free)
      have k := e.procs q hqp
      rw [none] at k
      generalize hs : s.procs q = a at k
      cases k with
      | none => exact hr hs
  | block pid => exact block_keeps h run
  | unblock pid => exact unblock_keeps h run
  | unblockFirst pid =>
    rcases unblockFirst_shape h hc run with ⟨-, rfl, -⟩ | ⟨d, -, rd, hrd, -, alive, -, u⟩
    · exact .refl _
    · refine fun q => ⟨fun hd => ?_, fun hr none => hr (u.shuffled.none.mp none)⟩
      rw [u.shuffled.stateOf_eq, hd]
      rintro rfl
      rw [stateOf_of hrd] at hd
      exact alive (Option.some.inj hd)
  | kill pid => exact kill_keeps h run
  | exitProcess =>
    obtain ⟨⟨c', r'⟩, -, run1⟩ := bind_ok.mp run
    exact kill_keeps h run1
  | nice pid offset =>
    rcases nice_cases h.listed run with rfl | ⟨d, -, r, hr, -, -, -, rfl⟩
    · exact .refl _
    · exact .put hr id
  | wait =>
    rcases wait_cases run with ⟨-, rfl⟩ | ⟨c', r, hc', -, -, rfl⟩
    · exact .refl _
    · exact current hc'
  | blockIo =>
    rcases blockIo_cases run with ⟨-, rfl⟩ | ⟨c', r, hc', -, -, rfl⟩
    · exact .refl _
    · exact current hc'
  | unblockIo =>
    obtain ⟨s1, h1, run1⟩ := bind_ok.mp run
    obtain ⟨-, rfl⟩ := Prod.mk.inj (Except.ok.inj run1)
    refine .rel (unblockIoFrom_awaken h1) fun p a b k hd => ?_
    rcases k.state with e | ⟨e, -⟩
    · rw [e, hd]
    · rw [hd] at e
      cases e
  | sleep now secs m =>
    rcases sleep_cases run with ⟨rfl, -⟩ | ⟨c', r, -, run1⟩
    · exact .refl _
    · have h1 : Sound { s with firstSleep := ⟨r.pid, now, secs⟩ :: s.firstSleep } nodes :=
        h.of_eq rfl rfl rfl rfl
      have k := block_keeps h1 run1
      exact k
  | quitCPU =>
    rcases quitCPU_cases run with ⟨-, rfl⟩ | ⟨c', r, hc', -, rfl⟩
    · exact .refl _
    · exact current hc'

/-- Nor does a sleep that is over. -/
theorem checkSleeping_keeps {now : Int} (h : Sound s nodes)
    (run : checkSleeping fuel now s = .ok t) : Keeps s t := by
  refine (checkSleeping_invariant (I := fun t => Sound t nodes ∧ Keeps s t)
    (fun s l h => ⟨h.1.of_eq rfl rfl rfl rfl, h.2⟩) ?_ ⟨h, .refl s⟩ run).2
  rintro e - s1 x s2 ⟨h1, keeps⟩ run1
  refine ⟨?_, keeps.trans (unblock_keeps h1 run1)⟩
  rcases unblock_cases h1.listed run1 with ⟨rfl, -⟩ | ⟨d, hd, r, -, -, -, -, k, -⟩
  · exact h1
  · exact h1.touched k fun p hp => hp ▸ hd

theorem enters_keeps {e : Event} (h : Settled s) (enters : Enters s e t) :
    Keeps s t ∧ (∃ nodes, Sound t nodes) ∧ SchedRuns.Cursor t := by
  obtain ⟨⟨nodes, sound⟩, -, c, r, hc, ready⟩ := h
  have live := cursor_of_current hc
  cases enters with
  | tick asleep =>
    obtain ⟨sound', live', -⟩ := checkSleeping_sound sound live asleep
    exact ⟨checkSleeping_keeps sound asleep, ⟨nodes, sound'⟩, live'⟩
  | call callable run asleep =>
    have called := perform_called sound live callable run
    obtain ⟨nodes', sound'⟩ := called.sound
    obtain ⟨sound'', live'', -⟩ := checkSleeping_sound sound' called.cursor asleep
    exact ⟨(perform_keeps sound ⟨c, r, hc, ready⟩ callable run).trans
      (checkSleeping_keeps sound' asleep), ⟨nodes', sound''⟩, live''⟩

/-- What the scheduler points to has a record. -/
theorem unreferenced (h : Sound s nodes) (live : SchedRuns.Cursor s)
    (blocked : s.firstBlockedIteration = none) (gone : s.procs p = none) : Unreferenced s p := by
  have notIn : p ∉ nodes := fun hp => h.live hp gone
  refine ⟨fun hc => live p hc gone, fun hb => ?_, fun hf => notIn ?_, fun hl => notIn ?_,
    fun q r hr hn => h.next_live hr p hn gone⟩
  · rw [blocked] at hb
    cases hb
  · have head := linked_head h.listed.linked
    rw [hf] at head
    exact List.mem_of_mem_head? (by simpa using head.symm)
  · exact List.mem_of_getLast? (h.listed.last.symm.trans hl)

/-- The blocks freed since `s` are the records that have gone, each once. -/
def Ledger (s s' : Sched) : Prop := ∃ gone : List Ptr, s'.freed = gone ++ s.freed ∧ gone.Nodup ∧
  ∀ p, p ∈ gone ↔ s.procs p ≠ none ∧ s'.procs p = none

/-- Nothing is freed. -/
theorem Ledger.same (freed : s'.freed = s.freed)
    (procs : ∀ p, s'.procs p = none ↔ s.procs p = none) :
    Ledger s s' := by
  refine ⟨[], freed, List.nodup_nil, fun p => ?_⟩
  rw [procs p]
  simp

/-- A record that is gone does not come back. -/
theorem Ledger.trans (h : Ledger s t) (h' : Ledger t s')
    (stays : ∀ p, s.procs p = none → t.procs p = none) (stays' : ∀ p, t.procs p = none →
      s'.procs p = none) : Ledger s s' := by
  obtain ⟨gone, freed, nodup, mem⟩ := h
  obtain ⟨gone', freed', nodup', mem'⟩ := h'
  refine ⟨gone' ++ gone, by rw [freed', freed, List.append_assoc], ?_, fun p => ?_⟩
  · refine List.nodup_append.mpr ⟨nodup', nodup, ?_⟩
    rintro a ha b hb rfl
    exact ((mem' a).mp ha).1 ((mem a).mp hb).2
  · rw [List.mem_append, mem', mem]
    constructor
    · rintro (⟨h1, h2⟩ | ⟨h1, h2⟩)
      · exact ⟨fun h => h1 (stays p h), h2⟩
      · exact ⟨h1, stays' p h2⟩
    · rintro ⟨h1, h2⟩
      by_cases ht : t.procs p = none
      · exact .inr ⟨h1, ht⟩
      · exact .inl ⟨ht, h2⟩

theorem put_none {a : ProcessCDT} (hp : s.procs p = some r) (q : Ptr) :
    (s.put p a).procs q = none ↔ s.procs q = none := by
  rw [put_procs]
  split <;> rename_i hq
  · simp [hq, hp]
  · rfl

theorem pass_ledger (h : Sound s nodes) (pass : Pass steps s s') : Ledger s s' := by
  cases pass with
  | rewind hc => exact .same rfl fun p => Iff.rfl
  | @wake c r x t hc asleep back run =>
    have h0 : Sound { s with idleFlag := 1 } nodes := h.of_eq rfl rfl rfl rfl
    have rest : ∀ p r, s.procs p = some r → r.pid = IDLE_PID → r.foreground = 0 :=
      fun p r hr hp => (h.background p r hr hp).1
    rcases unblock_background h0 rest run with rfl | ⟨d, -, rd, hrd, -, -, rfl⟩
    · exact .same rfl fun p => Iff.rfl
    · exact .same rfl (put_none hrd)
  | @reap c r t hc dead run =>
    have hr := (current_ok.mp hc).2
    obtain ⟨pre, post, rfl⟩ := h.split_dead hr dead
    have h0 : Sound { s with currentProcess := r.next } (pre ++ c :: post) :=
      h.of_eq rfl rfl rfl rfl
    obtain ⟨-, re, -, freed⟩ := removeProcess_listed h0.listed run
    have same : ∀ p, t.procs p = none ↔ s.procs p = none := fun p => by
      have k := re.procs p
      rw [← Option.map_eq_none_iff (f := bare), k, Option.map_eq_none_iff]
    refine ⟨[c], congrArg (c :: ·) freed, List.nodup_singleton c, fun p => ?_⟩
    rw [free_procs, List.mem_singleton]
    split <;> rename_i hp
    · simp [hp, hr]
    · rw [same p]
      simp [hp]
  | skip hc asleep alive fresh => exact .same rfl fun p => Iff.rfl

theorem passes_ledger (h : Sound s nodes) (live : SchedRuns.Cursor s)
    (passes : Passes steps s s') : Ledger s s' := by
  induction passes with
  | refl => exact .same rfl fun p => Iff.rfl
  | tail before pass ih =>
    obtain ⟨nodes₁, k⟩ := passes_spun h live before
    obtain ⟨nodes₂, k'⟩ := pass_spun k.sound k.cursor pass
    exact ih.trans (pass_ledger k.sound pass) k.stays k'.stays

theorem endTurn_ledger {rsp : Nat} (live : SchedRuns.Cursor s) (run : endTurn rsp s = .ok s') :
    Ledger s s' := by
  cases hcur : s.currentProcess with
  | none =>
    unfold endTurn at run
    rw [hcur] at run
    obtain rfl := Except.ok.inj run
    exact .same rfl fun p => Iff.rfl
  | some c =>
    obtain ⟨r, hr⟩ := Option.ne_none_iff_exists'.mp (live c hcur)
    rw [Dispatch.endTurn_value _ (current_ok.mpr ⟨hcur, hr⟩)] at run
    obtain rfl := Except.ok.inj run
    split
    · exact .same rfl (put_none hr)
    · exact .same rfl (put_none hr)

theorem startTurn_ledger {v : Nat} (h : Sound s nodes) (run : startTurn fuel s = .ok (v, s')) :
    Ledger s s' := by
  obtain ⟨c, r, t, hc, -, hr, rfl, cases⟩ := startTurn_value h run
  have turn : ∀ p, (Sched.put { t with firstBlockedIteration := none } c
      { r with executions := char (r.executions + 1) }).procs p = none ↔ t.procs p = none :=
    put_none (s := { t with firstBlockedIteration := none }) hr
  rcases cases with ⟨-, -, ⟨rfl, -⟩ | ⟨d, -, rd, hrd, -, -, rfl⟩⟩ | ⟨-, rfl⟩
  · exact .same rfl turn
  · exact .same rfl fun p => (turn p).trans (put_none (s := { s with idleFlag := 0 }) hrd p)
  · exact .same rfl turn

theorem nextProcess_reaping {rsp v : Nat} (h : Sound s nodes) (live : SchedRuns.Cursor s)
    (run : nextProcess fuel rsp s = .ok (v, s')) : Reaping s v s' := by
  obtain ⟨nodes', k, blocked, c, r, hc, ready, hv⟩ := nextProcess_spun h live run
  have survives : ∀ p, s'.procs p ≠ none → p ∉ nodes ∨ p ∈ nodes' := by
    intro p hp
    by_contra n
    rw [not_or, not_not] at n
    exact hp (k.reaped p n.1 n.2).2
  have dead : ∀ p, s'.procs p ≠ none → (stateOf s' p = some .dead ↔ stateOf s p = some .dead) := by
    intro p hp
    have kp := k.procs p (survives p hp)
    simp only [stateOf]
    generalize s.procs p = a at kp ⊢
    generalize s'.procs p = b at kp ⊢
    cases kp with
    | none => rfl
    | some kp => simp [kp.dead]
  refine ⟨⟨c, r, hc, ready, hv, fun hd => ?_⟩, fun p hd => ?_, ?_, fun p hp gone => ?_⟩
  · have hr := (current_ok.mp hc).2
    rw [← dead c (by simp [hr]), stateOf_of hr, ready] at hd
    cases hd
  · by_cases gone : s'.procs p = none
    · exact .inr gone
    · exact .inl ((dead p gone).mpr hd)
  · obtain ⟨s1, h1, run1⟩ := bind_ok.mp run
    obtain ⟨s2, h2, run2⟩ := bind_ok.mp run1
    have k1 := endTurn_spun h live h1
    obtain ⟨passes, -⟩ := nextProcessLoop_passes h2
    obtain ⟨nodes₂, k2⟩ := passes_spun k1.sound k1.cursor passes
    have k3 := startTurn_spun k2.sound k2.cursor run2
    exact ((endTurn_ledger live h1).trans (passes_ledger k1.sound k1.cursor passes) k1.stays
      k2.stays).trans (startTurn_ledger k2.sound run2) (k1.trans k2).stays k3.stays
  · refine ⟨?_, unreferenced k.sound k.cursor blocked gone⟩
    by_cases hn : p ∉ nodes ∨ p ∈ nodes'
    · have kp := k.procs p hn
      rw [gone] at kp
      generalize hs : s.procs p = a at kp
      cases kp with
      | none => exact absurd hs hp
    · rw [not_or, not_not] at hn
      exact (k.reaped p hn.1 hn.2).1

/-- The current process between two steps is not DEAD. -/
theorem settled_away (h : Settled s) (hd : stateOf s p = some .dead) :
    s.currentProcess ≠ some p := by
  obtain ⟨-, -, c, r, hc, ready⟩ := h
  intro e
  obtain ⟨hcur, hr⟩ := current_ok.mp hc
  obtain rfl := Option.some.inj (hcur.symm.trans e)
  rw [stateOf_of hr, ready] at hd
  cases hd

theorem step_dead {e : Event} (h : Settled s) (step : Step s e s')
    (hd : stateOf s p = some .dead) : s'.procs p = none ∨ stateOf s' p = some .dead := by
  have timer : ∀ e t fuel now rsp t', Enters s e t → nextProcess fuel rsp t = .ok (now, t') →
      t'.procs p = none ∨ stateOf t' p = some .dead := by
    intro e t fuel v rsp t' enters run
    obtain ⟨keeps, ⟨nodes, sound⟩, live⟩ := enters_keeps h enters
    exact ((nextProcess_reaping sound live run).dead p ((keeps p).1 hd)).symm
  rcases step_cases step with ⟨now, rsp, fuel, rfl, run⟩ |
    ⟨op, now, rsp, fuel, x, t, rfl, callable, run, ⟨code, rfl, rfl⟩ | ⟨rfl, run'⟩⟩
  · obtain ⟨t, h1, run1⟩ := bind_ok.mp run
    obtain ⟨⟨v, s2⟩, h2, run2⟩ := bind_ok.mp run1
    obtain rfl := Except.ok.inj run2
    exact timer _ t fuel v rsp s2 (@Enters.tick s fuel now rsp t h1) h2
  · obtain ⟨⟨nodes, sound⟩, -, ready⟩ := h
    exact .inr ((perform_keeps sound ready callable run p).1 hd)
  · obtain ⟨t', h1, run1⟩ := bind_ok.mp run'
    obtain ⟨⟨v, s2⟩, h2, run2⟩ := bind_ok.mp run1
    obtain rfl := Except.ok.inj run2
    exact timer _ t' fuel v rsp s2 (@Enters.call s op fuel now rsp t t' callable run h1) h2

/-- In every run from boot: calls and expired sleeps leave DEAD processes DEAD and free no
record; `nextProcess` dispatches a process that was not DEAD, and frees DEAD records, each
once, with nothing left that points to them; an address without a record is pointed to by
nothing; and a DEAD process stays DEAD and is never current again until its record is freed. -/
theorem run_dead {nullPid now : Int} {rsp : Nat} {mIdle mSample : Mallocs} {s₀ : Sched}
    (start : main fuel nullPid now rsp mIdle mSample = .ok s₀)
    (run : Runs (fun _ _ => True) s₀ s) :
    (∀ op fuel x t, Callable s op → perform fuel s op = .ok (x, t) → Keeps s t) ∧
    (∀ e t, Enters s e t → Keeps s t ∧
      ∀ fuel rsp v s', nextProcess fuel rsp t = .ok (v, s') → Reaping t v s') ∧
    (∀ p, s.procs p = none → Unreferenced s p) ∧
    (∀ p s', stateOf s p = some .dead → Runs (fun s _ => s.procs p ≠ none) s s' →
      s'.procs p = none ∨ (stateOf s' p = some .dead ∧ s'.currentProcess ≠ some p)) := by
  have settled := runs_settled (main_settled start) run
  refine ⟨fun op fuel x t callable hrun => ?_, fun e t enters => ?_, fun p gone => ?_,
    fun p s' hd later => ?_⟩
  · obtain ⟨⟨nodes, sound⟩, -, ready⟩ := settled
    exact perform_keeps sound ready callable hrun
  · obtain ⟨keeps, ⟨nodes, sound⟩, live⟩ := enters_keeps settled enters
    exact ⟨keeps, fun fuel rsp v s' hrun => nextProcess_reaping sound live hrun⟩
  · obtain ⟨⟨nodes, sound⟩, blocked, c, r, hc, -⟩ := settled
    exact unreferenced sound (cursor_of_current hc) blocked gone
  · have held : Settled s' ∧ (s'.procs p = none ∨ stateOf s' p = some .dead) := by
      induction later with
      | refl => exact ⟨settled, .inr hd⟩
      | tail _ last ih =>
        obtain ⟨e, live, step⟩ := last
        obtain ⟨settled', hd'⟩ := ih
        exact ⟨step_settled settled' step, step_dead settled' step (hd'.resolve_left live)⟩
    exact held.2.imp_right fun hd' => ⟨hd', settled_away held.1 hd'⟩

end

/-- Process 3 is killed by process 2, and is not reaped yet. -/
theorem run_dead_killed : ∃ s₀ s,
    main 20 0 0 777 (Kernel.blocks 0) (Kernel.blocks 1) = .ok s₀ ∧
    play 20 [.tick 0 0, .call (.enqueueProcess 0 none (Kernel.blocks 2)) 0 0,
      .call (.kill 3) 0 0] s₀ = some s ∧ stateOf s 1201 = some .dead ∧
    ∀ s', Runs (fun s _ => s.procs 1201 ≠ none) s s' →
      s'.procs 1201 = none ∨ (stateOf s' 1201 = some .dead ∧ s'.currentProcess ≠ some 1201) := by
  have h : ((main 20 0 0 777 (Kernel.blocks 0) (Kernel.blocks 1)).toOption.bind (play 20
      [.tick 0 0, .call (.enqueueProcess 0 none (Kernel.blocks 2)) 0 0,
        .call (.kill 3) 0 0])).map (stateOf · 1201) = some (some .dead) := by decide +kernel
  obtain ⟨s₀, s, h₀, hs, hv⟩ := main_play h
  exact ⟨s₀, s, h₀, hs, hv, fun s' later =>
    (run_dead h₀ (play_runs (fun _ _ _ => trivial) hs)).2.2.2 1201 s' hv later⟩

end BottlerOS.Dead
