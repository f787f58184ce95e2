import Mathlib.Logic.Function.Basic
import Mathlib.Data.List.Basic

/-! Processes that each have a processor of their own, of which one at a time runs. A process that
is switched away from keeps its context but for what `pause` does to it. -/

namespace BottlerOS.TimeSharing

structure Processors (P C : Type*) where
  current : P
  context : P → Option C

inductive Event (P C : Type*) where
  /-- The running process goes on to the context. -/
  | own (c : C)
  | add (p : P) (first : C)
  | remove (p : P)
  | switch (p : P)

/-- The process gets a context, loses it or goes on. -/
def Event.Touches {P C : Type*} (p : P) : Event P C → Prop
  | .own _ => False
  | .add q _ => q = p
  | .remove q => q = p
  | .switch q => q = p

section
variable {P C : Type*} [DecidableEq P] {pause : C → C} {s : Processors P C} {e : Event P C}
  {es : List (Event P C)} {p q : P} {c : C}

def step (pause : C → C) (s : Processors P C) : Event P C → Processors P C
  | .own c => { s with context := Function.update s.context s.current (some c) }
  | .add p first => { s with context := Function.update s.context p (some first) }
  | .remove p => { s with context := Function.update s.context p none }
  | .switch p =>
      ⟨p, Function.update s.context s.current ((s.context s.current).map pause)⟩

def run (pause : C → C) (s : Processors P C) (es : List (Event P C)) : Processors P C :=
  es.foldl (step pause) s

theorem step_away (pause : C → C) (away : s.current ≠ p) (untouched : ¬ e.Touches p) :
    (step pause s e).current ≠ p ∧ (step pause s e).context p = s.context p := by
  cases e with
  | own c => exact ⟨away, Function.update_of_ne away.symm _ _⟩
  | add q first => exact ⟨away, Function.update_of_ne (Ne.symm untouched) _ _⟩
  | remove q => exact ⟨away, Function.update_of_ne (Ne.symm untouched) _ _⟩
  | switch q => exact ⟨untouched, Function.update_of_ne away.symm _ _⟩

/-- A process that does not run is not changed. -/
theorem run_away (pause : C → C) (away : s.current ≠ p) (untouched : ∀ e ∈ es, ¬ e.Touches p) :
    (run pause s es).current ≠ p ∧ (run pause s es).context p = s.context p := by
  induction es generalizing s with
  | nil => exact ⟨away, rfl⟩
  | cons e es ih =>
    obtain ⟨away', same⟩ := step_away pause away (untouched e (by simp))
    obtain ⟨away'', same'⟩ := ih away' fun e he => untouched e (by simp [he])
    exact ⟨away'', same'.trans same⟩

/-- A process starts with the context it was added with. -/
theorem run_first (pause : C → C) (away : s.current ≠ p) (known : s.context p = some c)
    (untouched : ∀ e ∈ es, ¬ e.Touches p) :
    let t := run pause s (es ++ [.switch p])
    t.current = p ∧ t.context p = some c := by
  obtain ⟨away', same⟩ := run_away pause away untouched
  have last : run pause s (es ++ [.switch p]) = step pause (run pause s es) (.switch p) := by
    rw [run, List.foldl_append]
    rfl
  refine ⟨by rw [last]; rfl, ?_⟩
  rw [last]
  exact (Function.update_of_ne away'.symm _ _).trans (same.trans known)

/-- Whatever runs in between, a process comes back to the context it had, paused once. -/
theorem run_back (pause : C → C) (here : s.context s.current = some c) (other : q ≠ s.current)
    (untouched : ∀ e ∈ es, ¬ e.Touches s.current) :
    let t := run pause s (.switch q :: (es ++ [.switch s.current]))
    t.current = s.current ∧ t.context s.current = some (pause c) := by
  refine run_first pause (s := step pause s (.switch q)) other ?_ untouched
  simp only [step, Function.update_self, here, Option.map_some]

end

end BottlerOS.TimeSharing
