import BottlerOS.Wakeful
import Mathlib.Data.Set.Subsingleton

/-! Who may read the keyboard. A foreground process takes the foreground from its parent when
it is made or unblocked, and gives it back when it is blocked or killed. Its siblings, and
whoever else has it, are not asked. -/

namespace BottlerOS.Foreground
open Machine Scheduler LinkedList ProcessList ProcessFields ProcessLinks
open SchedCalls SchedRuns Turns Effects Wakeful

/-- In the foreground, and neither DEAD nor BLOCKED. -/
def Active (r : ProcessCDT) : Prop := r.state ≠ .dead ∧ r.state ≠ .blocked ∧ r.foreground ≠ 0

/-- The listed processes that have the foreground. -/
def holders (s : Sched) (nodes : List Ptr) : Set Ptr :=
  {p | p ∈ nodes ∧ ∃ r, s.procs p = some r ∧ Active r}

/-- A parent of `d` that waits in the background would take the foreground back: it and `d`
are the only ones that may have it. -/
def Returned (s : Sched) (nodes : List Ptr) (d : Ptr) (r : ProcessCDT) : Prop :=
  ∀ q rq, r.foreground ≠ 0 → Found s nodes r.ppid q → s.procs q = some rq → rq.backWait ≠ 0 →
    rq.state ≠ .dead → rq.state ≠ .blocked → q ≠ d → holders s nodes ⊆ {q, d}

/-- `d` would take the foreground from its parent: those two are the only ones that may have it. -/
def Taken (s : Sched) (nodes : List Ptr) (d : Ptr) (r : ProcessCDT) : Prop :=
  r.foreground ≠ 0 → ¬ Found s nodes r.ppid d →
    ∀ p ∈ holders s nodes, p = d ∨ Found s nodes r.ppid p

/-- When a call leaves at most one process with the foreground. -/
def Careful (s : Sched) (nodes : List Ptr) : Op → Prop
  | .enqueueProcess foreground _ _ =>
      foreground ≠ 0 → ∀ p ∈ holders s nodes, s.currentProcess = some p
  | .block pid => ∀ d r, Found s nodes pid d → s.procs d = some r → r.state ≠ .dead →
      Returned s nodes d r
  | .unblock pid => ∀ d r, Found s nodes pid d → s.procs d = some r → r.state ≠ .dead →
      Taken s nodes d r
  | .unblockFirst pid => ∀ d r c, Found s nodes pid d → s.procs d = some r → r.state ≠ .dead →
      s.currentProcess = some c → c ∈ nodes → c ≠ d → Taken s nodes d r
  | .kill pid => ∀ d r, Found s nodes pid d → s.procs d = some r → Returned s nodes d r
  | .exitProcess => ∀ c rc d r, s.current = .ok (c, rc) → Found s nodes rc.pid d →
      s.procs d = some r → Returned s nodes d r
  | _ => True

section
variable {α : Type} {A B G : Set α} {n : α}

end

section
variable {s s' t : Sched} {nodes nodes' : List Ptr} {fuel : Nat} {c d p q : Ptr} {pid : Int}
  {a b r rc : ProcessCDT} {x : Exit} {f : Ptr → ProcessCDT → ProcessCDT}

theorem active_bare (h : bare a = bare b) : Active a ↔ Active b := by
  have state : (bare a).state = (bare b).state := congrArg ProcessCDT.state h
  have foreground : (bare a).foreground = (bare b).foreground := congrArg ProcessCDT.foreground h
  change a.state = b.state at state
  change a.foreground = b.foreground at foreground
  unfold Active
  rw [state, foreground]

theorem mem_holders (hp : s.procs p = some r) : p ∈ holders s nodes ↔ p ∈ nodes ∧ Active r := by
  refine and_congr_right fun _ => ⟨?_, fun h => ⟨r, hp, h⟩⟩
  rintro ⟨r', hr', h⟩
  obtain rfl := Option.some.inj (hp.symm.trans hr')
  exact h

/-- Who has the foreground after records have been rewritten. -/
theorem Edited.holders (h : Edited f s t) (hp : s.procs p = some a) :
    p ∈ holders t nodes ↔ p ∈ nodes ∧ Active (f p a) := by
  obtain ⟨b, hb, same⟩ := h.new hp
  rw [mem_holders hb, active_bare same]

/-- Nobody's claim on the foreground changes. -/
theorem Edited.still (h : Edited f s t) (hl : Listed s nodes)
    (same : ∀ p a, s.procs p = some a → (Active (f p a) ↔ Active a)) :
    Foreground.holders t nodes = Foreground.holders s nodes := by
  ext p
  by_cases hp : p ∈ nodes
  · obtain ⟨a, ha⟩ := hl.record hp
    rw [Edited.holders h ha, mem_holders ha, same p a ha]
  · exact iff_of_false (fun m => hp m.1) fun m => hp m.1

end

/-- A foreground process makes two more of them. -/
def siblings : List Event := [.tick 0 0, .call (.enqueueProcess 1 none (Kernel.blocks 2)) 0 0,
  .call (.enqueueProcess 1 none (Kernel.blocks 3)) 0 0]

end BottlerOS.Foreground
