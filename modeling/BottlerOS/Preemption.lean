import BottlerOS.ContextSwitch
import BottlerOS.SavedPointers
import BottlerOS.Library.TimeSharing

/-! The processes on the one processor, with the timer interrupt between their steps: each of them
computes as on a processor of its own, but for the x87 unit. -/

namespace BottlerOS.Preemption
open X86 Words Interrupts TimeSharing

/-- The processor, and the saved stack pointer of each process. -/
structure World (P X Y : Type) where
  current : P
  machine : Machine X Y
  rsp : P → Option Nat

section
variable {P X Y : Type} [DecidableEq P] {u : Units X Y} {w w' : World P X Y}
  {e : Event P (Context X Y)} {es : List (Event P (Context X Y))} {s : Processors P (Context X Y)}
  {f g : Bytes} {a b x : Nat} {c : Context X Y} {p q : P} {m m' : Machine X Y}

/-- A context waits in memory, for the stack pointer `a`. -/
def Waits (u : Units X Y) (f : Bytes) (a : Nat) (c : Context X Y) : Prop :=
  ∃ b, a = frameAt b ∧ Saved u f b c

/-- The memory that a context for the stack pointer `a` waits in. -/
def InFrame (f : Bytes) (a x : Nat) : Prop := a ≤ x ∧ x < load64 f a + 160

/-- The memory that the processes wait in that do not run. -/
def World.Others (w : World P X Y) (x : Nat) : Prop :=
  ∃ p a, p ≠ w.current ∧ w.rsp p = some a ∧ InFrame w.machine.mem a x

/-- `currentProcess->rsp = currentRSP`, and the `rsp` of the process that is chosen. -/
def World.switched (w : World P X Y) (chosen : P) (currentRSP : Nat) : Nat :=
  (Function.update w.rsp w.current (some currentRSP) chosen).getD 0

/-- The scheduler's own `nextProcess` returns that, in the world that its table describes. -/
theorem nextProcess_switched {w : World Machine.Ptr X Y} {s s' : Scheduler.Sched}
    {nodes : List Machine.Ptr} {fuel currentRSP v : Nat} (sound : SchedRuns.Sound s nodes)
    (live : SchedRuns.Cursor s) (current : s.currentProcess = some w.current)
    (table : ∀ p, w.rsp p = (s.procs p).map Scheduler.ProcessCDT.rsp)
    (run : Scheduler.nextProcess fuel currentRSP s = .ok (v, s')) :
    ∃ c, s'.currentProcess = some c ∧ v = w.switched c currentRSP := by
  obtain ⟨c, chosen, a, stored, rfl⟩ := SavedPointers.nextProcess_saved sound live run
  refine ⟨c, chosen, ?_⟩
  rw [current, World.switched]
  by_cases same : c = w.current
  · rw [if_pos (congrArg some same.symm), same, Function.update_self, Option.getD_some]
  · rw [if_neg fun eq => same (Option.some.inj eq).symm, Function.update_of_ne same, table, stored,
      Option.map_some, Option.getD_some]

/-- Where the timer interrupt puts the running process. -/
def World.bottom (w : World P X Y) : Nat := savedAt (w.machine.reg .rsp)

/-- A program writes to its own stack and to memory in which no other process waits; the functions
that the handler calls write to no frame at all. -/
inductive Step (u : Units X Y) (w : World P X Y) :
    Event P (Context X Y) → World P X Y → Prop where
  | own {m : Machine X Y} (apart : ∀ x, w.Others x → m.mem x = w.machine.mem x) :
      Step u w (.own m.toContext) { w with machine := m }
  | add {p : P} {a : Nat} {c : Context X Y} (other : p ≠ w.current)
      (first : Waits u w.machine.mem a c) :
      Step u w (.add p c) { w with rsp := Function.update w.rsp p (some a) }
  | remove {p : P} (other : p ≠ w.current) :
      Step u w (.remove p) { w with rsp := Function.update w.rsp p none }
  | tick {p : P} {callee : Function → Machine X Y → Machine X Y}
      (room : 2048 ≤ w.machine.reg .rsp)
      (apart : ∀ x, w.Others x → x < frameAt w.bottom ∨ w.machine.reg .rsp / 16 * 16 ≤ x)
      (known : p ≠ w.current → (w.rsp p).isSome)
      (serves : Serves callee (frameAt w.bottom)
        (fun x => w.Others x ∨ frameAt w.bottom ≤ x ∧ x < w.bottom + 160) (w.switched p)) :
      Step u w (.switch p)
        ⟨p, run u callee _irq00Handler w.machine.interrupt,
          Function.update w.rsp w.current (some (frameAt w.bottom))⟩

/-- Steps one after the other. -/
inductive Steps (u : Units X Y) :
    World P X Y → List (Event P (Context X Y)) → World P X Y → Prop where
  | refl (w : World P X Y) : Steps u w [] w
  | step {w w' w'' : World P X Y} {e : Event P (Context X Y)}
      {es : List (Event P (Context X Y))} (step : Step u w e w') (steps : Steps u w' es w'') :
      Steps u w (e :: es) w''

/-- The world as processes on processors of their own. -/
structure Shares (u : Units X Y) (w : World P X Y) (s : Processors P (Context X Y)) : Prop where
  current : s.current = w.current
  running : s.context w.current = some w.machine.toContext
  waiting : ∀ p a, p ≠ w.current → w.rsp p = some a →
    ∃ c, s.context p = some c ∧ Waits u w.machine.mem a c

theorem inFrame_iff (saved : Saved u f b c) :
    InFrame f (frameAt b) x ↔ frameAt b ≤ x ∧ x < b + 160 := by
  simp only [InFrame, saved.pointer]

theorem Waits.congr (waits : Waits u f a c) (same : ∀ x, InFrame f a x → g x = f x) :
    Waits u g a c := by
  obtain ⟨b, rfl, saved⟩ := waits
  exact ⟨b, rfl, saved.congr fun x lo hi => same x ((inFrame_iff saved).mpr ⟨lo, hi⟩)⟩

/-- The timer interrupt: what the running process was is on its stack, the frames stay as they are,
and the processor has the context of the chosen process. -/
theorem tick_runs {callee : Function → Machine X Y → Machine X Y} (shares : Shares u w s)
    (room : 2048 ≤ w.machine.reg .rsp)
    (apart : ∀ x, w.Others x → x < frameAt w.bottom ∨ w.machine.reg .rsp / 16 * 16 ≤ x)
    (known : p ≠ w.current → (w.rsp p).isSome)
    (serves : Serves callee (frameAt w.bottom)
      (fun x => w.Others x ∨ frameAt w.bottom ≤ x ∧ x < w.bottom + 160) (w.switched p)) :
    ∃ m₁, Suspended u w.machine m₁ ∧
      (TimeSharing.step (paused u) s (.switch p)).context p =
        some (run u callee _irq00Handler w.machine.interrupt).toContext ∧
      ∀ x, w.Others x ∨ frameAt w.bottom ≤ x ∧ x < w.bottom + 160 →
        (run u callee _irq00Handler w.machine.interrupt).mem x = m₁.mem x := by
  obtain ⟨current, running, waiting⟩ := shares
  by_cases same : p = w.current
  · -- the process goes on
    have chosen : w.switched p (frameAt w.bottom) = frameAt w.bottom := by
      rw [World.switched, same, Function.update_self, Option.getD_some]
    obtain ⟨m₁, suspended, context, mem⟩ := _irq00Handler_switches room serves chosen
      (fun x lo hi => .inr ⟨lo, hi⟩) fun m₁ suspended => suspended.saved
    refine ⟨m₁, suspended, ?_, mem⟩
    rw [context]
    simp only [TimeSharing.step, same, current, Function.update_self, running, Option.map_some]
  · obtain ⟨a, at_⟩ := Option.isSome_iff_exists.mp (known same)
    obtain ⟨c, context_, b, rfl, saved⟩ := waiting p a same at_
    have chosen : w.switched p (frameAt w.bottom) = frameAt b := by
      rw [World.switched, Function.update_of_ne same, at_, Option.getD_some]
    have frame (x : Nat) (lo : frameAt b ≤ x) (hi : x < b + 160) : w.Others x :=
      ⟨p, _, same, at_, (inFrame_iff saved).mpr ⟨lo, hi⟩⟩
    obtain ⟨m₁, suspended, context, mem⟩ := _irq00Handler_switches room serves chosen
      (fun x lo hi => .inl (frame x lo hi)) fun m₁ suspended =>
        saved.congr fun x lo hi => suspended.outside x (apart x (frame x lo hi))
    refine ⟨m₁, suspended, ?_, mem⟩
    rw [context]
    simp only [TimeSharing.step, current, Function.update_of_ne same, context_]

theorem step_shares (step : Step u w e w') (shares : Shares u w s) :
    Shares u w' (TimeSharing.step (paused u) s e) := by
  have ⟨current, running, waiting⟩ := shares
  cases step with
  | own apart =>
    refine ⟨current, ?_, fun p a other at_ => ?_⟩
    · simp only [TimeSharing.step, current, Function.update_self]
    · obtain ⟨c, context, waits⟩ := waiting p a other at_
      refine ⟨c, ?_, waits.congr fun x inside => apart x ⟨p, a, other, at_, inside⟩⟩
      simp only [TimeSharing.step, current, Function.update_of_ne other, context]
  | @add q b c ne first =>
    refine ⟨current, ?_, fun p a other at_ => ?_⟩
    · simp only [TimeSharing.step, Function.update_of_ne ne.symm, running]
    · simp only [TimeSharing.step, Function.update_apply] at at_ ⊢
      split
      · rename_i same
        rw [if_pos same] at at_
        cases at_
        exact ⟨c, rfl, first⟩
      · rename_i same
        rw [if_neg same] at at_
        exact waiting p a other at_
  | @remove q ne =>
    refine ⟨current, ?_, fun p a other at_ => ?_⟩
    · simp only [TimeSharing.step, Function.update_of_ne ne.symm, running]
    · simp only [TimeSharing.step, Function.update_apply] at at_ ⊢
      split
      · rename_i same
        rw [if_pos same] at at_
        cases at_
      · rename_i same
        rw [if_neg same] at at_
        exact waiting p a other at_
  | @tick q callee room apart known serves =>
    obtain ⟨m₁, suspended, context, mem⟩ := tick_runs shares room apart known serves
    refine ⟨rfl, context, fun p a other at_ => ?_⟩
    simp only [TimeSharing.step, current, Function.update_apply] at at_ ⊢
    split
    · rename_i same
      rw [if_pos same] at at_
      cases at_
      rw [running]
      exact ⟨_, rfl, _, rfl, suspended.saved.congr fun x lo hi => mem x (.inr ⟨lo, hi⟩)⟩
    · rename_i same
      rw [if_neg same] at at_
      obtain ⟨c, context', waits⟩ := waiting p a same at_
      refine ⟨c, context', waits.congr fun x inside => ?_⟩
      have kept : w.Others x := ⟨p, a, same, at_, inside⟩
      rw [mem x (.inl kept), suspended.outside x (apart x kept)]

/-- On the one processor the processes compute as on processors of their own. -/
theorem steps_share (steps : Steps u w es w') (shares : Shares u w s) :
    Shares u w' (TimeSharing.run (paused u) s es) := by
  induction steps generalizing s with
  | refl w => exact shares
  | step step _ ih => exact ih (step_shares step shares)

/-- A process that the timer interrupts comes back to all its registers and flags and its SSE unit,
with the x87 unit initialized. -/
theorem away_and_back (shares : Shares u w s) (other : q ≠ w.current)
    (untouched : ∀ e ∈ es, ¬ e.Touches w.current)
    (steps : Steps u w (.switch q :: (es ++ [.switch w.current])) w') :
    w'.current = w.current ∧ w'.machine.toContext = paused u w.machine.toContext ∧
      (w'.machine.toContext = w.machine.toContext ↔ u.init w.machine.x87 = w.machine.x87) := by
  have after := steps_share steps shares
  have here : s.context s.current = some w.machine.toContext := by
    rw [shares.current, shares.running]
  rw [← shares.current] at other untouched after
  obtain ⟨current, context⟩ := run_back (paused u) here other untouched
  have same : w'.current = s.current := after.current.symm.trans current
  have back : w'.machine.toContext = paused u w.machine.toContext := by
    have running := after.running
    rw [same, context] at running
    exact (Option.some.inj running).symm
  refine ⟨same.trans shares.current, back, ?_⟩
  rw [back]
  exact ⟨fun eq => congrArg Context.x87 eq, fun eq => Context.ext rfl eq rfl⟩

/-- The functions of a handler that does nothing but what it has to. -/
def obliging (next : Nat → Nat) : Function → Machine X Y → Machine X Y
  | .nextProcess, k => k.set .rax (next (k.reg .rdi))
  | _, k => k

theorem obliging_serves {next : Nat → Nat} (sp : Nat) (keep : Nat → Prop)
    (small : ∀ a < 2 ^ 64, next a < 2 ^ 64) :
    Serves (obliging next : Function → Machine X Y → Machine X Y) sp keep next where
  rsp f k here := by cases f <;> exact here
  mem f k _ x _ := by cases f <;> rfl
  next k _ := (set_sets k .rax _).here.trans (wrap_of_lt (small _ (k.small .rdi)))

theorem tick_step (shares : Shares u w s) (room : 2048 ≤ w.machine.reg .rsp)
    (apart : ∀ x, w.Others x → x < frameAt w.bottom ∨ w.machine.reg .rsp / 16 * 16 ≤ x)
    (known : p ≠ w.current → (w.rsp p).isSome) :
    Step u w (.switch p)
      ⟨p, run u (obliging (w.switched p)) _irq00Handler w.machine.interrupt,
        Function.update w.rsp w.current (some (frameAt w.bottom))⟩ := by
  refine .tick room apart known (obliging_serves _ _ fun a small => ?_)
  rw [World.switched]
  by_cases same : p = w.current
  · rw [same, Function.update_self]
    exact small
  · obtain ⟨a', at_⟩ := Option.isSome_iff_exists.mp (known same)
    obtain ⟨c, -, b, rfl, saved⟩ := shares.waiting p a' same at_
    obtain ⟨frame_le, sse_le, fpu_le⟩ := area_bounds saved.room
    have top := saved.top
    rw [Function.update_of_ne same, at_, Option.getD_some]
    omega

end

/-- The second process, on its stack. -/
def waiting : Machine Bool Unit :=
  run bitUnits (obliging id) (pushState ++ saveUnits)
    (program 4096 (by decide) fun _ => 0).interrupt

theorem waiting_suspended :
    Suspended bitUnits (program 4096 (by decide) fun _ => 0) waiting :=
  interrupt_suspends (show 2048 ≤ 4096 by decide)

/-- The first process runs. -/
def pair : World Bool Bool Unit where
  current := false
  machine := program 65536 (by decide) waiting.mem
  rsp p := if p then some (frameAt (savedAt 4096)) else none

theorem pair_shares : Shares bitUnits pair ⟨false, fun p =>
    some (if p then paused bitUnits (program 4096 (by decide) fun _ => 0).toContext
      else pair.machine.toContext)⟩ where
  current := rfl
  running := rfl
  waiting p a other at_ := by
    cases p with
    | false => exact absurd rfl other
    | true => exact ⟨_, rfl, _, (Option.some.inj at_).symm, waiting_suspended.saved⟩

theorem away_and_back_pair : ∃ w', Steps bitUnits pair [.switch true, .switch false] w' ∧
    w'.machine.toContext = paused bitUnits pair.machine.toContext ∧
    w'.machine.toContext ≠ pair.machine.toContext := by
  have high : savedAt 65536 + 160 = 65536 / 16 * 16 := savedAt_add (by decide)
  have low : savedAt 4096 + 160 = 4096 / 16 * 16 := savedAt_add (by decide)
  have short := frame_short (savedAt 65536)
  have out := tick_step (p := true) pair_shares (show 2048 ≤ 65536 by decide)
    (fun x ⟨p, a, other, at_, inside⟩ => by
      cases p with
      | false => exact absurd rfl other
      | true =>
        cases Option.some.inj at_
        obtain ⟨-, hi⟩ := (inFrame_iff waiting_suspended.saved).mp inside
        have bottom : pair.bottom = savedAt 65536 := rfl
        have hi' : x < savedAt 4096 + 160 := hi
        rw [bottom]
        omega)
    (fun _ => rfl)
  have shares := step_shares out pair_shares
  have context := Option.some.inj shares.running
  have rsp : (run bitUnits (obliging (pair.switched true)) _irq00Handler
      pair.machine.interrupt).reg .rsp = 4096 := congrArg (fun c => c.reg .rsp) context.symm
  have back := tick_step (p := false) shares (rsp.symm ▸ (show 2048 ≤ 4096 by decide))
    (fun x ⟨p, a, other, at_, inside⟩ => by
      cases p with
      | true => exact absurd rfl other
      | false =>
        cases Option.some.inj at_
        have lo : frameAt (savedAt 65536) ≤ x := inside.1
        have top : (run bitUnits (obliging (pair.switched true)) _irq00Handler
            pair.machine.interrupt).reg .rsp / 16 * 16 ≤ x := by
          rw [rsp]
          omega
        exact .inr top)
    (fun _ => rfl)
  have steps := Steps.step out (.step back (.refl _))
  have result := away_and_back pair_shares (q := true) (by decide)
    (fun e (none : e ∈ []) => absurd none List.not_mem_nil) steps
  refine ⟨_, steps, result.2.1, fun same => ?_⟩
  exact absurd (result.2.2.mp same) (by decide)

end BottlerOS.Preemption
