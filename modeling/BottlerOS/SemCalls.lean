import BottlerOS.Kernel
import BottlerOS.ProcessLinks

/-! What a return of `semWait`, `semPost`, `semOpen` and `semClose` says, with the
effect on the kernel's tables as one update each. -/

namespace BottlerOS.SemCalls
open Machine Scheduler Semaphore Kernel

/-- A unit is taken. -/
def taking (sem : Ptr) (x : SemT) (pid : Int) (waited : Bool) (k : Kernel) : Kernel :=
  (k.putSem sem { x with value := uint32 (x.value - 1) }).log (.taken sem pid x.value waited)

/-- The caller is queued. -/
def joining (sem : Ptr) (x : SemT) (pid : Int) (k : Kernel) : Kernel :=
  (k.putSem sem { x with entering := x.entering ++ [pid] }).log (.queued sem pid)

/-- A unit is given, and the queue is as given. -/
def giving (sem : Ptr) (x : SemT) (rest : List Int) (k : Kernel) : Kernel :=
  (k.log (.posted sem)).putSem sem { x with value := uint32 (x.value + 1), entering := rest }

section
variable {k k' : Kernel} {sem : Ptr} {x : SemT} {fuel : Nat} {flow : Flow} {pid : Int}

@[simp] theorem putSem_sems (q : Ptr) :
    (k.putSem sem x).sems q = if q = sem then some x else k.sems q := by
  simp [Kernel.putSem, Function.update_apply]

@[simp] theorem log_sems (e : Event) : (k.log e).sems = k.sems := rfl

theorem enter_ok : enter_region k = .ok k' ↔ k.semLock = 0 ∧ k' = { k with semLock := 1 } := by
  unfold enter_region
  split <;> rename_i h
  · simp [h, eq_comm]
  · simp [h]

/-- A lock that was free when taken is free again: nothing has changed. -/
theorem unlocked (h : k.semLock = 0) : { k with semLock := 0 } = k := by
  cases k
  simp_all

theorem semWaitBlocked_cases (run : semWaitBlocked sem k = .ok (flow, k')) :
    flow = .ret ∧ k.semLock = 0 ∧ ∃ x pid, k.sems sem = some x ∧ getPid k.sched = .ok pid ∧
      k' = taking sem x pid true k := by
  unfold semWaitBlocked at run
  obtain ⟨k1, h1, run1⟩ := bind_ok.mp run
  obtain ⟨lock, rfl⟩ := enter_ok.mp h1
  obtain ⟨x, hx, run2⟩ := bind_ok.mp run1
  obtain ⟨pid, hp, run3⟩ := bind_ok.mp run2
  obtain ⟨rfl, rfl⟩ := Prod.mk.inj (Except.ok.inj run3)
  refine ⟨rfl, lock, x, pid, load_ok.mp hx, hp, ?_⟩
  cases k
  simp_all [leave_region, taking, Kernel.putSem, Kernel.log]

theorem semWait_cases {m : Option Ptr} (run : semWait fuel m sem k = .ok (flow, k')) :
    k.semLock = 0 ∧ ∃ x pid, k.sems sem = some x ∧ getPid k.sched = .ok pid ∧
      ((x.value > 0 ∧ flow = .ret ∧ k' = taking sem x pid false k) ∨
      (¬ x.value > 0 ∧ ∃ e s, block fuel pid k.sched = .ok (e, s) ∧
        ((e = .forceTimer ∧ flow = .timer [.semWait sem] ∧
          k' = { joining sem x pid k with sched := s }) ∨
        (e ≠ .forceTimer ∧
          semWaitBlocked sem { joining sem x pid k with sched := s } = .ok (flow, k'))))) := by
  unfold semWait at run
  obtain ⟨k1, h1, run1⟩ := bind_ok.mp run
  obtain ⟨lock, rfl⟩ := enter_ok.mp h1
  obtain ⟨x, hx, run2⟩ := bind_ok.mp run1
  obtain ⟨pid, hp, run3⟩ := bind_ok.mp run2
  refine ⟨lock, x, pid, load_ok.mp hx, hp, ?_⟩
  split at run3 <;> rename_i hv
  · obtain ⟨rfl, rfl⟩ := Prod.mk.inj (Except.ok.inj run3)
    refine .inl ⟨hv, rfl, ?_⟩
    cases k
    simp_all [leave_region, taking, Kernel.putSem, Kernel.log]
  · obtain ⟨w, -, run4⟩ := bind_ok.mp run3
    obtain ⟨⟨e, s⟩, hb, run5⟩ := bind_ok.mp run4
    have same : (((leave_region { k with semLock := 1 }).putSem sem
        { x with entering := x.entering ++ [pid] }).log (.queued sem pid)) =
          joining sem x pid k := by
      cases k
      simp_all [leave_region, joining, Kernel.putSem, Kernel.log]
    rw [same] at hb run5
    refine .inr ⟨hv, e, s, hb, ?_⟩
    cases e with
    | ret code => exact .inr ⟨by simp, run5⟩
    | forceTimer =>
      obtain ⟨rfl, rfl⟩ := Prod.mk.inj (Except.ok.inj run5)
      exact .inl ⟨rfl, rfl, rfl⟩

/-- A free unit is taken without a switch. -/
theorem semWait_take {m : Option Ptr} (lock : k.semLock = 0) (hx : k.sems sem = some x)
    (free : x.value > 0) (hpid : getPid k.sched = .ok pid) :
    semWait fuel m sem k = .ok (.ret, taking sem x pid false k) := by
  have enter := enter_ok.mpr ⟨lock, rfl⟩
  simp only [semWait, enter, ok_bind, load_of hx, hpid, if_pos free]
  cases k
  simp_all [leave_region, taking, Kernel.putSem, Kernel.log, pure, Except.pure]

/-- A unit nobody waits for is given. -/
theorem semPost_alone (lock : k.semLock = 0) (hx : k.sems sem = some x) (alone : x.entering = []) :
    semPost fuel sem k = .ok (.ret, giving sem x [] k) := by
  have enter := enter_ok.mpr ⟨lock, rfl⟩
  simp only [semPost, enter, ok_bind, load_of hx, alone]
  cases k
  simp_all [leave_region, giving, Kernel.putSem, Kernel.log, pure, Except.pure]

theorem semPostUnblocked_cases (run : semPostUnblocked k = .ok (flow, k')) :
    flow = .ret ∧ k.semLock = 0 ∧ k' = k := by
  unfold semPostUnblocked at run
  obtain ⟨k1, h1, run1⟩ := bind_ok.mp run
  obtain ⟨lock, rfl⟩ := enter_ok.mp h1
  obtain ⟨rfl, rfl⟩ := Prod.mk.inj (Except.ok.inj run1)
  exact ⟨rfl, lock, unlocked lock⟩

theorem semPost_cases (run : semPost fuel sem k = .ok (flow, k')) :
    k.semLock = 0 ∧ ∃ x, k.sems sem = some x ∧
      ((x.entering = [] ∧ flow = .ret ∧ k' = giving sem x [] k) ∨
      ∃ pid rest e s, x.entering = pid :: rest ∧ unblockFirst fuel pid k.sched = .ok (e, s) ∧
        k' = { giving sem x rest k with sched := s } ∧
        ((e = .forceTimer ∧ flow = .timer [.semPost]) ∨ (e ≠ .forceTimer ∧ flow = .ret))) := by
  unfold semPost at run
  obtain ⟨k1, h1, run1⟩ := bind_ok.mp run
  obtain ⟨lock, rfl⟩ := enter_ok.mp h1
  obtain ⟨x, hx, run2⟩ := bind_ok.mp run1
  refine ⟨lock, x, load_ok.mp hx, ?_⟩
  cases hq : x.entering with
  | nil =>
    simp only [hq] at run2
    obtain ⟨rfl, rfl⟩ := Prod.mk.inj (Except.ok.inj run2)
    refine .inl ⟨rfl, rfl, ?_⟩
    cases k
    simp_all [leave_region, giving, Kernel.putSem, Kernel.log]
  | cons pid rest =>
    simp only [hq] at run2
    obtain ⟨⟨e, s⟩, hb, run3⟩ := bind_ok.mp run2
    have same : { leave_region ((Kernel.log { k with semLock := 1 } (.posted sem)).putSem sem
        { x with value := uint32 (x.value + 1), entering := rest }) with sched := s } =
        { giving sem x rest k with sched := s } := by
      cases k
      simp_all [leave_region, giving, Kernel.putSem, Kernel.log]
    refine .inr ⟨pid, rest, e, s, rfl, hb, ?_⟩
    cases e with
    | ret code =>
      obtain ⟨rfl, -, rfl⟩ := semPostUnblocked_cases run3
      exact ⟨same, .inr ⟨by simp, rfl⟩⟩
    | forceTimer =>
      obtain ⟨rfl, rfl⟩ := Prod.mk.inj (Except.ok.inj run3)
      exact ⟨same, .inl ⟨rfl, rfl⟩⟩

/-- `semOpen` finds a registered semaphore of the name, or registers a new one. -/
theorem semOpen_cases {name : String} {value : Int} {m : SemMallocs} {p : Ptr}
    (run : semOpen name value m k = .ok (p, k')) :
    k.semLock = 0 ∧ ((searchSem k.sems name k.firstSem = .ok (some p) ∧ k' = k) ∨
      (searchSem k.sems name k.firstSem = .ok none ∧ k.sems p = none ∧
        k' = { k.putSem p { value := uint32 value, name := name, entering := [] } with
          firstSem := p :: k.firstSem })) := by
  unfold semOpen at run
  obtain ⟨k1, h1, run1⟩ := bind_ok.mp run
  obtain ⟨lock, rfl⟩ := enter_ok.mp h1
  refine ⟨lock, ?_⟩
  obtain ⟨found, hf, run2⟩ := bind_ok.mp run1
  cases found with
  | some q =>
    obtain ⟨rfl, rfl⟩ := Prod.mk.inj (Except.ok.inj run2)
    exact .inl ⟨hf, unlocked lock⟩
  | none =>
    obtain ⟨q, hq, run3⟩ := bind_ok.mp run2
    obtain ⟨_, -, run4⟩ := bind_ok.mp run3
    obtain ⟨_, -, run5⟩ := bind_ok.mp run4
    obtain ⟨n, hn, run6⟩ := bind_ok.mp run5
    obtain ⟨rfl, rfl⟩ := Prod.mk.inj (Except.ok.inj run6)
    have hname : n = name := by
      unfold copyName at hn
      split at hn
      · exact (Except.ok.inj hn).symm
      · cases hn
    refine .inr ⟨hf, (malloc_ok.mp hq).2.1, ?_⟩
    rw [hname]
    cases k
    simp_all [leave_region, Kernel.putSem]

theorem semClose_cases {p : Option Ptr} {code : Int} (run : semClose p k = .ok (code, k')) :
    (k' = k ∧ ∀ q, p = some q → q ∉ k.firstSem) ∨
      ∃ q, p = some q ∧ k.semLock = 0 ∧ q ∈ k.firstSem ∧
        k' = { k with
          firstSem := k.firstSem.erase q, sems := Function.update k.sems q none } := by
  unfold semClose at run
  cases p with
  | none =>
    obtain ⟨-, rfl⟩ := Prod.mk.inj (Except.ok.inj run)
    exact .inl ⟨rfl, fun q hq => by cases hq⟩
  | some q =>
    obtain ⟨k1, h1, run1⟩ := bind_ok.mp run
    obtain ⟨lock, rfl⟩ := enter_ok.mp h1
    obtain ⟨w, -, run2⟩ := bind_ok.mp run1
    split at run2 <;> rename_i hq
    · obtain ⟨-, rfl⟩ := Prod.mk.inj (Except.ok.inj run2)
      exact .inl ⟨unlocked lock, fun y hy => Option.some.inj hy ▸ hq⟩
    · obtain ⟨y, -, run3⟩ := bind_ok.mp run2
      obtain ⟨-, rfl⟩ := Prod.mk.inj (Except.ok.inj run3)
      refine .inr ⟨q, rfl, lock, not_not.mp hq, ?_⟩
      cases k
      simp_all [leave_region]

end

end BottlerOS.SemCalls
