import BottlerOS.Scheduler
import Mathlib.Logic.Relation

/-! The scheduler as a transition system of its own. The current process calls the
scheduler's functions with any arguments; a call that ends in `forceTimer()` goes on
in the timer handler. Idle only halts: under it there are timer ticks and keys. -/

namespace BottlerOS.SchedCalls
open Machine Scheduler

inductive Op where
  | enqueueProcess (foreground : Int) (fd : Option Ptr) (m : Mallocs)
  | block (pid : Int)
  | unblock (pid : Int)
  | unblockFirst (pid : Int)
  | kill (pid : Int)
  | exitProcess
  | nice (pid offset : Int)
  | wait
  | blockIo
  | unblockIo
  | sleep (now secs : Int) (m : Option Ptr)
  | quitCPU

/-- A function called by the current process; `unblockIo` is the keyboard's. -/
def perform (fuel : Nat) (s : Sched) : Op → C (Exit × Sched)
  | .enqueueProcess foreground fd m => do
      let (pid, s) ← enqueueProcess fuel 0 foreground fd m s
      pure (.ret pid, s)
  | .block pid => block fuel pid s
  | .unblock pid => unblock fuel pid s
  | .unblockFirst pid => unblockFirst fuel pid s
  | .kill pid => kill fuel pid s
  | .exitProcess => exitProcess fuel s
  | .nice pid offset => nice fuel pid offset s
  | .wait => wait s
  | .blockIo => blockIo s
  | .unblockIo => do
      let s ← unblockIo fuel s
      pure (.ret EXIT_SUCCESS, s)
  | .sleep now secs m => sleep fuel now secs m s
  | .quitCPU => quitCPU s

/-- `now` and `rsp` are the clock and the stack pointer if the timer handler runs. -/
inductive Event where
  | tick (now : Int) (rsp : Nat)
  | call (op : Op) (now : Int) (rsp : Nat)

/-- The current process is not idle. -/
def Busy (s : Sched) : Prop :=
  match s.current with
  | .error _ => False
  | .ok (_, r) => r.pid ≠ IDLE_PID

instance (s : Sched) : Decidable (Busy s) :=
  match h : s.current with
  | .error _ => .isFalse (by simp [Busy, h])
  | .ok (_, r) => decidable_of_iff (r.pid ≠ IDLE_PID) (by simp [Busy, h])

/-- When a call may happen. `pids++` on `INT_MAX` overflows, which C leaves undefined: no
process is created after that. -/
def Callable (s : Sched) : Op → Prop
  | .unblockIo => True
  | .enqueueProcess _ _ _ => Busy s ∧ 0 < s.pids
  | _ => Busy s

instance (s : Sched) (op : Op) : Decidable (Callable s op) := by
  cases op <;> unfold Callable <;> infer_instance

def Enabled (s : Sched) : Event → Prop
  | .tick _ _ => True
  | .call op _ _ => Callable s op

instance (s : Sched) (e : Event) : Decidable (Enabled s e) := by
  cases e <;> unfold Enabled <;> infer_instance

def exec (fuel : Nat) (s : Sched) : Event → C Sched
  | .tick now rsp => irq00Handler fuel now rsp s
  | .call op now rsp => do
      match ← perform fuel s op with
      | (.ret _, s) => pure s
      | (.forceTimer, s) => irq00Handler fuel now rsp s

def Step (s : Sched) (e : Event) (s' : Sched) : Prop :=
  Enabled s e ∧ ∃ fuel, exec fuel s e = .ok s'

/-- Runs whose steps are allowed. -/
def Runs (Allowed : Sched → Event → Prop) : Sched → Sched → Prop :=
  Relation.ReflTransGen fun s s' => ∃ e, Allowed s e ∧ Step s e s'

/-- `nextProcess` is entered in the state `t`, in a step that begins in `s`. -/
inductive Enters (s : Sched) : Event → Sched → Prop where
  | tick {fuel : Nat} {now : Int} {rsp : Nat} {t : Sched}
      (asleep : checkSleeping fuel now s = .ok t) : Enters s (.tick now rsp) t
  | call {op : Op} {fuel : Nat} {now : Int} {rsp : Nat} {t₀ t : Sched}
      (callable : Callable s op) (run : perform fuel s op = .ok (.forceTimer, t₀))
      (asleep : checkSleeping fuel now t₀ = .ok t) : Enters s (.call op now rsp) t

section
variable {s s' : Sched} {e : Event}

theorem Busy.current (h : Busy s) : ∃ c r, s.current = .ok (c, r) ∧ r.pid ≠ IDLE_PID := by
  unfold Busy at h
  split at h
  · exact h.elim
  · rename_i c r hc
    exact ⟨c, r, hc, h⟩

theorem step_cases (h : Step s e s') :
    (∃ now rsp fuel, e = .tick now rsp ∧ irq00Handler fuel now rsp s = .ok s') ∨
    ∃ op now rsp fuel x t, e = .call op now rsp ∧ Callable s op ∧ perform fuel s op = .ok (x, t) ∧
      ((∃ code, x = .ret code ∧ s' = t) ∨
        (x = .forceTimer ∧ irq00Handler fuel now rsp t = .ok s')) := by
  obtain ⟨enabled, fuel, run⟩ := h
  cases e with
  | tick now rsp => exact .inl ⟨now, rsp, fuel, rfl, run⟩
  | call op now rsp =>
    obtain ⟨⟨x, t⟩, h1, run1⟩ := bind_ok.mp run
    refine .inr ⟨op, now, rsp, fuel, x, t, rfl, enabled, h1, ?_⟩
    cases x with
    | ret code => exact .inl ⟨code, rfl, (Except.ok.inj run1).symm⟩
    | forceTimer => exact .inr ⟨rfl, run1⟩

/-- A step that enters `nextProcess` goes on from where it does; the others are a call. -/
theorem step_enters (step : Step s e s') :
    (∃ t fuel rsp v, Enters s e t ∧ nextProcess fuel rsp t = .ok (v, s')) ∨
    ∃ op now rsp fuel code, e = .call op now rsp ∧ Callable s op ∧
      perform fuel s op = .ok (.ret code, s') := by
  have handler : ∀ {fuel now rsp s}, irq00Handler fuel now rsp s = .ok s' →
      ∃ t v, checkSleeping fuel now s = .ok t ∧ nextProcess fuel rsp t = .ok (v, s') := by
    intro fuel now rsp s run
    obtain ⟨t, h₁, run₁⟩ := bind_ok.mp run
    obtain ⟨⟨v, s₂⟩, h₂, run₂⟩ := bind_ok.mp run₁
    obtain rfl := Except.ok.inj run₂
    exact ⟨t, v, h₁, h₂⟩
  rcases step_cases step with ⟨now, rsp, fuel, rfl, run⟩ |
    ⟨op, now, rsp, fuel, x, t, rfl, callable, run, ⟨code, rfl, rfl⟩ | ⟨rfl, run'⟩⟩
  · obtain ⟨t, v, asleep, turn⟩ := handler run
    exact .inl ⟨t, fuel, rsp, v, .tick asleep, turn⟩
  · exact .inr ⟨op, now, rsp, fuel, code, rfl, callable, run⟩
  · obtain ⟨t', v, asleep, turn⟩ := handler run'
    exact .inl ⟨t', fuel, rsp, v, .call callable run asleep, turn⟩

/-- What every step keeps, every run keeps. -/
theorem runs_invariant {Allowed : Sched → Event → Prop} {I : Sched → Prop}
    (one : ∀ s e s', I s → Allowed s e → Step s e s' → I s') (h : I s)
    (run : Runs Allowed s s') : I s' := by
  induction run with
  | refl => exact h
  | tail _ last ih =>
    obtain ⟨e, allowed, step⟩ := last
    exact one _ e _ ih allowed step

end

/-- Events one after the other, as long as they are enabled and come back. -/
def play (fuel : Nat) : List Event → Sched → Option Sched
  | [], s => some s
  | e :: rest, s =>
      if Enabled s e then
        match exec fuel s e with
        | .error _ => none
        | .ok s' => play fuel rest s'
      else none

/-- What is played is a run. -/
theorem play_runs {fuel : Nat} {events : List Event} {s s' : Sched}
    {Allowed : Sched → Event → Prop} (allowed : ∀ s, ∀ e ∈ events, Allowed s e)
    (h : play fuel events s = some s') : Runs Allowed s s' := by
  induction events generalizing s with
  | nil =>
    obtain rfl := Option.some.inj h
    exact .refl
  | cons e rest ih =>
    unfold play at h
    split at h <;> rename_i en
    · split at h <;> rename_i ex
      · cases h
      · exact .head ⟨e, allowed s e List.mem_cons_self, en, fuel, ex⟩
          (ih (fun s b hb => allowed s b (List.mem_cons_of_mem _ hb)) h)
    · cases h

/-- A run from boot whose end has been evaluated. -/
theorem main_play {α : Type} {fuel steps : Nat} {nullPid now : Int} {rsp : Nat}
    {mIdle mSample : Mallocs} {events : List Event} {view : Sched → α} {v : α}
    (h : ((main fuel nullPid now rsp mIdle mSample).toOption.bind (play steps events)).map view =
      some v) :
    ∃ s₀ s, main fuel nullPid now rsp mIdle mSample = .ok s₀ ∧ play steps events s₀ = some s ∧
      view s = v := by
  obtain ⟨s, hs, hv⟩ := Option.map_eq_some_iff.mp h
  obtain ⟨s₀, h₀, hs⟩ := Option.bind_eq_some_iff.mp hs
  refine ⟨s₀, s, ?_, hs, hv⟩
  generalize main fuel nullPid now rsp mIdle mSample = x at h₀
  cases x with
  | error e => cases h₀
  | ok s => exact congrArg Except.ok (Option.some.inj h₀)

end BottlerOS.SchedCalls
