import BottlerOS.Effects
import Mathlib.Data.Set.BooleanAlgebra
import Mathlib.Order.CompletePartialOrder
import Mathlib.Order.Interval.Set.Basic

/-! Where the stacks lie. `uint64_t *rbp = STACK_SIZE + auxi` counts in words of 8 bytes:
each stack ends 8 * STACK_SIZE bytes behind the start of its block, and so outside it. -/

namespace BottlerOS.Stacks
open Machine Scheduler LinkedList ProcessList ProcessFields ProcessLinks
open SchedCalls SchedRuns Turns Effects

/-- The block that `pvPortMalloc` has returned for the stack. -/
def stackBlock (r : ProcessCDT) : Set Nat := Set.Ico r.bPointer (r.bPointer + STACK_SIZE)

/-- The bytes from `rbp - STACK_SIZE` up to `rbp`. -/
def stackRange (r : ProcessCDT) : Set Nat := Set.Ico (r.rbp - STACK_SIZE) r.rbp

/-- What `_initialize_stack_frame` fills. -/
def firstFrame (r : ProcessCDT) : Set Nat := Set.Ico (initialize_stack_frame r.rbp) r.rbp

/-- The first frame and the stack of each live process lie inside its block. -/
def Inside (s : Sched) : Prop := ∀ p r, s.procs p = some r → r.state ≠ .dead →
  firstFrame r ∪ stackRange r ⊆ stackBlock r

/-- Where the stack lies does not change. -/
def Same (a b : ProcessCDT) : Prop := b.rbp = a.rbp ∧ b.bPointer = a.bPointer

/-- No record comes up, and stacks stay where they are. -/
def Stays (s t : Sched) : Prop := ∀ p b, t.procs p = some b → ∃ a, s.procs p = some a ∧ Same a b

/-- `rbp` as `enqueueProcess` computes it. -/
def Laid (s : Sched) : Prop := ∀ p r, s.procs p = some r → r.rbp = r.bPointer + 8 * STACK_SIZE

section
variable {s s' t : Sched} {nodes nodes' : List Ptr} {fuel : Nat} {p : Ptr} {r a b : ProcessCDT}
  {x : Exit}

theorem Stays.refl (s : Sched) : Stays s s := fun _ b hb => ⟨b, hb, rfl, rfl⟩

theorem Stays.trans (h : Stays s s') (h' : Stays s' t) : Stays s t := by
  intro p c hc
  obtain ⟨b, hb, k'⟩ := h' p c hc
  obtain ⟨a, ha, k⟩ := h p b hb
  exact ⟨a, ha, k'.1.trans k.1, k'.2.trans k.2⟩

theorem Stays.rel {R : Ptr → ProcessCDT → ProcessCDT → Prop} (k : Rel R s t)
    (kept : ∀ p a b, R p a b → Kept a b) : Stays s t := by
  intro p b hb
  obtain ⟨a, ha, hR⟩ := k.old hb
  exact ⟨a, ha, (kept p a b hR).rbp, (kept p a b hR).bPointer⟩

theorem Stays.put (hp : s.procs p = some r) (same : Same r a) : Stays s (s.put p a) := by
  intro q b hb
  rw [put_procs] at hb
  split at hb <;> rename_i hq
  · obtain rfl := Option.some.inj hb
    exact ⟨r, hq ▸ hp, same⟩
  · exact ⟨b, hb, rfl, rfl⟩

theorem Stays.laid (h : Stays s t) (laid : Laid s) : Laid t := by
  intro p b hb
  obtain ⟨a, ha, rbp, start⟩ := h p b hb
  rw [rbp, start, laid p a ha]

theorem block_stays {pid : Int} (hl : Listed s nodes) (run : block fuel pid s = .ok (x, t)) :
    Stays s t := by
  rcases block_cases hl run with ⟨-, rfl, -⟩ | ⟨d, -, r, -, -, -, -, c, rc, -, hself⟩
  · exact .refl _
  · rcases hself with ⟨-, -, k⟩ | ⟨-, -, k⟩ <;> exact .rel k fun _ _ _ k => k.kept

theorem unblock_stays {pid : Int} (hl : Listed s nodes) (run : unblock fuel pid s = .ok (x, t)) :
    Stays s t := by
  rcases unblock_cases hl run with ⟨rfl, -⟩ | ⟨d, -, r, -, -, -, -, k, -⟩
  · exact .refl _
  · exact .rel k fun _ _ _ k => k.kept

theorem kill_stays {pid : Int} (hl : Listed s nodes) (run : kill fuel pid s = .ok (x, t)) :
    Stays s t := by
  rcases kill_cases hl run with ⟨-, rfl, -⟩ | ⟨d, -, r, -, -, k, -⟩
  · exact .refl _
  · exact .rel k fun _ _ _ k => k.kept

/-- A call leaves every stack where it is, or `enqueueProcess` makes one. -/
theorem perform_stays {op : Op} (h : Sound s nodes) (callable : Callable s op)
    (run : perform fuel s op = .ok (x, t)) : ∀ p b, t.procs p = some b →
      (∃ a, s.procs p = some a ∧ Same a b) ∨
      ∃ foreground fd m, op = .enqueueProcess foreground fd m ∧ m.process = some p ∧
        m.stack = some b.bPointer ∧ b.rbp = b.bPointer + 8 * STACK_SIZE := by
  have old (k : Stays s t) : ∀ p b, t.procs p = some b → (∃ a, s.procs p = some a ∧ Same a b) ∨
      ∃ foreground fd m, op = .enqueueProcess foreground fd m ∧ m.process = some p ∧
        m.stack = some b.bPointer ∧ b.rbp = b.bPointer + 8 * STACK_SIZE :=
    fun p b hb => .inl (k p b hb)
  cases op with
  | enqueueProcess foreground fd m =>
    obtain ⟨busy, pos⟩ := callable
    obtain ⟨c, rc, hc, other⟩ := busy.current
    obtain ⟨⟨pid, s1⟩, h1, run1⟩ := bind_ok.mp run
    obtain ⟨rfl, rfl⟩ := Prod.mk.inj (Except.ok.inj run1)
    obtain ⟨q, fd', auxi, aux, hm, hst, -, hq, -⟩ := enqueueProcess_edited h hc other h1
    obtain ⟨-, q', hm', -, e⟩ := enqueueProcess_sound h pos h1
    obtain rfl := Option.some.inj (hm.symm.trans hm')
    intro p b hb
    by_cases hp : p = q
    · rw [hp, hq] at hb
      obtain rfl := Option.some.inj hb
      exact .inr ⟨foreground, fd, m, rfl, hp ▸ hm, hst, rfl⟩
    · have k := e.procs p hp
      rw [hb] at k
      generalize s.procs p = u at k
      cases k with
      | some k => exact .inl ⟨_, rfl, k.kept.rbp, k.kept.bPointer⟩
  | block pid => exact old (block_stays h.listed run)
  | unblock pid => exact old (unblock_stays h.listed run)
  | unblockFirst pid =>
    obtain ⟨c, rc, hc, -⟩ := Busy.current callable
    rcases unblockFirst_shape h hc run with ⟨-, rfl, -⟩ | ⟨d, -, rd, -, -, -, -, u⟩
    · exact old (.refl _)
    · refine old fun p b hb => ?_
      obtain ⟨a, ha, k⟩ := u.shuffled.old hb
      exact ⟨a, ha, k.kept.rbp, k.kept.bPointer⟩
  | kill pid => exact old (kill_stays h.listed run)
  | exitProcess =>
    obtain ⟨⟨c, r⟩, -, run1⟩ := bind_ok.mp run
    exact old (kill_stays h.listed run1)
  | nice pid offset =>
    rcases nice_cases h.listed run with rfl | ⟨d, -, r, hr, -, -, -, rfl⟩
    · exact old (.refl _)
    · exact old (.put hr ⟨rfl, rfl⟩)
  | wait =>
    rcases wait_cases run with ⟨-, rfl⟩ | ⟨c, r, hc, -, -, rfl⟩
    · exact old (.refl _)
    · exact old (.put (current_ok.mp hc).2 ⟨rfl, rfl⟩)
  | blockIo =>
    rcases blockIo_cases run with ⟨-, rfl⟩ | ⟨c, r, hc, -, -, rfl⟩
    · exact old (.refl _)
    · exact old (.put (current_ok.mp hc).2 ⟨rfl, rfl⟩)
  | unblockIo =>
    obtain ⟨s1, h1, run1⟩ := bind_ok.mp run
    obtain ⟨-, rfl⟩ := Prod.mk.inj (Except.ok.inj run1)
    exact old (.rel (unblockIoFrom_awaken h1) fun _ _ _ k => k.kept)
  | sleep now secs m =>
    rcases sleep_cases run with ⟨rfl, -⟩ | ⟨c, r, -, run1⟩
    · exact old (.refl _)
    · have h1 : Sound { s with firstSleep := ⟨r.pid, now, secs⟩ :: s.firstSleep } nodes :=
        h.of_eq rfl rfl rfl rfl
      have k := block_stays h1.listed run1
      exact old k
  | quitCPU =>
    rcases quitCPU_cases run with ⟨-, rfl⟩ | ⟨c, r, hc, -, rfl⟩
    · exact old (.refl _)
    · exact old (.put (current_ok.mp hc).2 ⟨rfl, rfl⟩)

/-- Nor does the timer handler move a stack. -/
theorem irq00Handler_stays {now : Int} {rsp : Nat} (h : Sound s nodes) (live : SchedRuns.Cursor s)
    (run : irq00Handler fuel now rsp s = .ok t) : Stays s t := by
  obtain ⟨s1, h1, run1⟩ := bind_ok.mp run
  obtain ⟨⟨v, s2⟩, h2, run2⟩ := bind_ok.mp run1
  obtain rfl := Except.ok.inj run2
  obtain ⟨sound, live1, -⟩ := checkSleeping_sound h live h1
  obtain ⟨nodes', k, -⟩ := nextProcess_spun sound live1 h2
  have woken : Stays s s1 := by
    refine (checkSleeping_invariant (I := fun t => Sound t nodes ∧ Stays s t)
      (fun s l h => ⟨h.1.of_eq rfl rfl rfl rfl, h.2⟩) ?_ ⟨h, .refl s⟩ h1).2
    rintro e - t1 x t2 ⟨ht, k⟩ run
    refine ⟨?_, k.trans (unblock_stays ht.listed run)⟩
    rcases unblock_cases ht.listed run with ⟨rfl, -⟩ | ⟨d, hd, r, -, -, -, -, k, -⟩
    · exact ht
    · exact ht.touched k fun p hp => hp ▸ hd
  refine woken.trans fun p b hb => ?_
  by_cases hp : p ∉ nodes ∨ p ∈ nodes'
  · have kp := k.procs p hp
    rw [hb] at kp
    generalize s1.procs p = u at kp
    cases kp with
    | some kp => exact ⟨_, rfl, by rw [kp.same], by rw [kp.same]⟩
  · rw [not_or, not_not] at hp
    rw [(k.reaped p hp.1 hp.2).2] at hb
    cases hb

theorem step_laid {e : Event} (h : Settled s) (laid : Laid s) (step : Step s e s') : Laid s' := by
  obtain ⟨⟨nodes, sound⟩, -, c, r, hc, -⟩ := h
  have live := cursor_of_current hc
  have called : ∀ {op fuel x t}, Callable s op → perform fuel s op = .ok (x, t) → Laid t := by
    intro op fuel x t callable run p b hb
    rcases perform_stays sound callable run p b hb with ⟨a, ha, rbp, start⟩ | ⟨_, _, _, -, -, -, e⟩
    · rw [rbp, start, laid p a ha]
    · exact e
  rcases step_cases step with ⟨now, rsp, fuel, rfl, run⟩ |
    ⟨op, now, rsp, fuel, x, t, rfl, callable, run, ⟨code, rfl, rfl⟩ | ⟨rfl, run'⟩⟩
  · exact (irq00Handler_stays sound live run).laid laid
  · exact called callable run
  · have k := perform_called sound live callable run
    obtain ⟨nodes', sound'⟩ := k.sound
    exact (irq00Handler_stays sound' k.cursor run').laid (called callable run)

theorem main_laid {nullPid now : Int} {rsp : Nat} {mIdle mSample : Mallocs}
    (run : main fuel nullPid now rsp mIdle mSample = .ok s) : Laid s := by
  obtain ⟨s3, p, q, boot, irq⟩ := main_booted run
  refine (irq00Handler_stays boot.sound boot.cursor irq).laid fun x r hr => ?_
  obtain ⟨fd, auxi, aux, -, hp⟩ := boot.idle
  obtain ⟨fd', auxi', aux', -, hq⟩ := boot.sample
  by_cases hxp : x = p
  · rw [hxp, hp] at hr
    obtain rfl := Option.some.inj hr
    rfl
  · by_cases hxq : x = q
    · rw [hxq, hq] at hr
      obtain rfl := Option.some.inj hr
      rfl
    · rw [boot.others x hxp hxq] at hr
      cases hr

/-- The first frame is less than a stack long. -/
theorem firstFrame_short (rbp : Nat) : rbp ≤ initialize_stack_frame rbp + 1024 := by
  unfold initialize_stack_frame
  dsimp only
  omega

theorem outside (laid : r.rbp = r.bPointer + 8 * STACK_SIZE) :
    Disjoint (firstFrame r ∪ stackRange r) (stackBlock r) := by
  rw [Set.disjoint_left]
  intro y hy hb
  have short := firstFrame_short r.rbp
  simp only [firstFrame, stackRange, stackBlock, Set.mem_union, Set.mem_Ico] at hy hb
  unfold STACK_SIZE at *
  omega

theorem stackRange_nonempty (laid : r.rbp = r.bPointer + 8 * STACK_SIZE) :
    r.rbp - 1 ∈ stackRange r := by
  unfold stackRange STACK_SIZE at *
  rw [Set.mem_Ico]
  omega

/-- In every state of every run from boot there are live processes, and the first frame and
the stack of each process lie outside its block, from its `enqueueProcess` on. -/
theorem run_outside {nullPid now : Int} {rsp : Nat} {mIdle mSample : Mallocs} {s₀ : Sched}
    (start : main fuel nullPid now rsp mIdle mSample = .ok s₀)
    (run : Runs (fun _ _ => True) s₀ s) :
    ¬ Inside s ∧ (∃ p r, s.procs p = some r ∧ r.state ≠ .dead) ∧
    (∀ p r, s.procs p = some r → Disjoint (firstFrame r ∪ stackRange r) (stackBlock r)) ∧
    ∀ fuel foreground fd m pid t, Callable s (.enqueueProcess foreground fd m) →
      enqueueProcess fuel 0 foreground fd m s = .ok (pid, t) →
      ∃ p r, m.process = some p ∧ t.procs p = some r ∧ m.stack = some r.bPointer ∧
        Disjoint (firstFrame r ∪ stackRange r) (stackBlock r) := by
  have both : Settled s ∧ Laid s := runs_invariant
    (I := fun s => Settled s ∧ Laid s)
    (fun _ _ _ h _ step => ⟨step_settled h.1 step, step_laid h.1 h.2 step⟩)
    ⟨main_settled start, main_laid start⟩ run
  obtain ⟨⟨⟨nodes, sound⟩, -, c, r, hc, ready⟩, laid⟩ := both
  have hr := (current_ok.mp hc).2
  have alive : r.state ≠ .dead := by
    rw [ready]
    simp
  refine ⟨fun inside => ?_, ⟨c, r, hr, alive⟩, fun p r hr => outside (laid p r hr),
    fun fuel foreground fd m pid t callable made => ?_⟩
  · have top := stackRange_nonempty (laid c r hr)
    exact (outside (laid c r hr)).notMem_of_mem_left (.inr top) (inside c r hr alive (.inr top))
  · obtain ⟨c', rc, hc', other⟩ := Busy.current callable.1
    obtain ⟨q, fd', auxi, aux, hm, hst, -, hq, -⟩ := enqueueProcess_edited sound hc' other made
    exact ⟨q, _, hm, hq, hst, outside rfl⟩

end

/-- The stack of the first process after boot. -/
theorem sample_outside : ∃ s₀ r, main 20 0 0 777 (Kernel.blocks 0) (Kernel.blocks 1) = .ok s₀ ∧
    s₀.procs 1101 = some r ∧ (Kernel.blocks 1).stack = some r.bPointer ∧ r.state = .ready ∧
    ¬ stackRange r ⊆ stackBlock r := by
  have h : ((main 20 0 0 777 (Kernel.blocks 0) (Kernel.blocks 1)).toOption.bind (play 20 [])).map
      (fun s => ((s.procs 1101).map (·.rbp), (s.procs 1101).map (·.bPointer), stateOf s 1101)) =
      some (some (1102 + 8 * STACK_SIZE), some 1102, some .ready) := by decide +kernel
  obtain ⟨s₀, s, h₀, hs, hv⟩ := main_play h
  obtain rfl := Option.some.inj hs
  simp only [Prod.mk.injEq] at hv
  obtain ⟨h1, h2, h3⟩ := hv
  obtain ⟨r, hr, rbp⟩ := Option.map_eq_some_iff.mp h1
  rw [hr] at h2
  have start : r.bPointer = 1102 := Option.some.inj h2
  refine ⟨s₀, r, h₀, hr, ?_, Option.some.inj ((stateOf_of hr).symm.trans h3), fun sub => ?_⟩
  · rw [start]
    rfl
  · have top := sub (stackRange_nonempty (by rw [rbp, start]))
    rw [stackBlock, Set.mem_Ico, rbp, start] at top
    unfold STACK_SIZE at top
    omega

theorem run_outside_booted : ∃ s₀, main 20 0 0 777 (Kernel.blocks 0) (Kernel.blocks 1) = .ok s₀ ∧
    ¬ Inside s₀ := by
  have h : ((main 20 0 0 777 (Kernel.blocks 0) (Kernel.blocks 1)).toOption.bind (play 20 [])).map
      (fun _ => ()) = some () := by decide +kernel
  obtain ⟨s₀, s, h₀, -, -⟩ := main_play h
  exact ⟨s₀, h₀, (run_outside h₀ .refl).1⟩

end BottlerOS.Stacks
