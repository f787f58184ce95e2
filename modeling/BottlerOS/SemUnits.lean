import BottlerOS.SemSteps

/-! Semaphores among processes that block, unblock and put to sleep each other.
`semWait` does not look again when it is resumed: what makes its caller READY
besides the post it waits for, makes it take a unit that is not there. -/

namespace BottlerOS.SemUnits
open Machine Scheduler LinkedList ProcessList ProcessFields ProcessLinks Dispatch
open Semaphore SemCalls SemBooks SemRuns SemSteps Kernel

/-- `semWait` and `semPost` with `block`, `unblock` and `sleep`, timer ticks, and what is left of
a call. -/
def Mixing (_ : Kernel) : Action → Prop
  | .tick _ _ => True
  | .resume _ _ => True
  | .call (.semWait _ _) _ _ => True
  | .call (.semPost _) _ _ => True
  | .call (.block _) _ _ => True
  | .call (.unblock _) _ _ => True
  | .call (.sleep _ _ _) _ _ => True
  | _ => False

/-- Of these, what makes nobody READY who is inside `semWait`. -/
def Undisturbed (k : Kernel) (a : Action) : Prop :=
  match a with
  | .tick now _ => Rested k a now
  | .resume _ _ => True
  | .call (.semWait _ _) now _ => Rested k a now
  | .call (.semPost _) now _ => Rested k a now
  | .call (.block _) now _ => Rested k a now
  | .call (.unblock pid) _ _ => ∀ p, pidOf k.sched p = some pid → waitsOn k p = none
  | .call (.sleep _ _ _) now _ => Rested k a now
  | _ => False

/-- What holds between two steps. -/
structure Inv (k₀ k : Kernel) (nodes : List Ptr) (c : Ptr) (pending : Option (Ptr × Ptr)) :
    Prop where
  calm : Calm k nodes c pending
  refines : Refines k₀ k
  taken : ∀ e ∈ k.trace, Taken e

section
variable {k₀ k k' k₁ : Kernel} {nodes nodes' : List Ptr} {pending pending' : Option (Ptr × Ptr)}
  {sem c c' d p : Ptr} {x : SemT} {pid : Int} {s s' : Sched} {fuel : Nat} {flow : Flow}

theorem Inv.advance (h : Inv k₀ k nodes c pending) (calm : Calm k' nodes' c' pending')
    (adv : Advances k k') : Inv k₀ k' nodes' c' pending' :=
  ⟨calm, adv.refines h.refines, adv.taken h.taken⟩

theorem Rested.sleepersOut {a : Action} {now : Int} (h : Rested k a now)
    (inside : ∀ p, Inside k a p ↔ waitsOn k p ≠ none) : SleepersOut k nodes none now := by
  intro e he hx p _ hpid
  have hin := h e he hx p hpid
  rw [inside, not_not] at hin
  exact .inl hin

theorem SleepersOut.of_pidOf {now : Int} (h : SleepersOut k nodes none now)
    (sleep : s.firstSleep = k.sched.firstSleep) (pids : ∀ p ∈ nodes, pidOf s p = pidOf k.sched p) :
    SleepersOut { k with sched := s } nodes none now := by
  intro e he hx p hp hpid
  exact h e (sleep ▸ he) hx p hp ((pids p hp).symm.trans hpid)

/-- The end of a scheduler function as a system call. -/
theorem Inv.call {now : Int} {rsp : Nat} (h : Inv k₀ k nodes c pending) (user : k.frames c = [])
    (res : Result k nodes { k with sched := s } nodes c flow)
    (out : SleepersOut { k with sched := s } nodes none now)
    (run : leave fuel now rsp c (flow, { k with sched := s }) = .ok k') :
    ∃ nodes' c' pending', Inv k₀ k' nodes' c' pending' := by
  obtain ⟨nodes', c', calm, adv, -⟩ := Result.calm h.calm user res rfl rfl
    (fun p hp => .inl ⟨hp, rfl⟩) out run
  exact ⟨nodes', c', none, h.advance calm adv⟩

/-- One step. -/
theorem step_inv {a : Action} (h : Inv k₀ k nodes c pending) (allowed : Undisturbed k a)
    (step : Step k a k') : ∃ nodes' c' pending', Inv k₀ k' nodes' c' pending' := by
  cases a with
  | tick now rsp =>
    have out : SleepersOut k nodes none now := Rested.sleepersOut allowed fun p => Iff.rfl
    obtain ⟨nodes', c', calm, adv, -⟩ := tick_calm h.calm out step
    exact ⟨nodes', c', none, h.advance calm adv⟩
  | key => exact allowed.elim
  | resume now rsp =>
    obtain ⟨f, -, calm, adv, -⟩ := resume_calm h.calm step
    exact ⟨nodes, c, none, h.advance calm adv⟩
  | call call now rsp =>
    obtain ⟨busy, user, fuel, flow, k₁, run, run'⟩ := call_cases h.calm.steady step
    have r := h.calm.steady.running user
    cases call with
    | semWait m sem =>
      obtain ⟨nodes', c', calm, adv, -⟩ := semWait_calm h.calm user busy allowed run run'
      exact ⟨nodes', c', none, h.advance calm adv⟩
    | semPost sem =>
      obtain ⟨nodes', c', pending', calm, adv, -⟩ := semPost_calm h.calm user busy allowed run run'
      exact ⟨nodes', c', pending', h.advance calm adv⟩
    | block pid =>
      obtain ⟨e, s, hb, ends, rfl⟩ := ofExit_cases run
      obtain ⟨res, sleep⟩ := block_running r hb ends
      have out : SleepersOut k nodes none now := Rested.sleepersOut allowed fun p => Iff.rfl
      exact h.call user res (SleepersOut.of_pidOf out sleep res.pidOf) run'
    | unblock pid =>
      obtain ⟨e, s, hu, ends, rfl⟩ := ofExit_cases run
      obtain ⟨res, -⟩ := unblock_running r (fun p _ hp => allowed p hp) hu ends
      -- the call returns: the timer handler has no part in it
      rcases res.outcome with ⟨rfl, r'⟩ | ⟨rfl, -⟩
      · obtain rfl := Except.ok.inj run'
        exact ⟨nodes, c, none, h.advance ⟨r'.steady, res.healthy h.calm.healthy,
          h.calm.plain, h.calm.words⟩ (.silent r.steady r'.steady rfl rfl)⟩
      · rcases ends with ⟨-, hf⟩ | ⟨hf, -⟩
        · cases hf
        · exact absurd hf (unblock_ret hu)
    | sleep t secs m =>
      obtain ⟨e, s, hs, ends, rfl⟩ := ofExit_cases run
      obtain ⟨res, i, hi, sleep⟩ := sleep_running r hs ends
      have out : SleepersOut k nodes none now := Rested.sleepersOut allowed fun p => Iff.rfl
      refine h.call user res (fun e he hx p hp hpid => ?_) run'
      have hpid' := (res.pidOf p hp).symm.trans hpid
      change e ∈ s.firstSleep at he
      rw [sleep] at he
      rcases List.mem_cons.mp he with rfl | he
      · -- the new entry is of the caller
        rw [h.calm.steady.books.listed.pid_inj hp r.mem (hpid'.trans hi.symm)]
        exact .inl r.not_waiting
      · exact out e he hx p hp hpid'
    | quitCPU => exact allowed.elim
    | enqueueProcess foreground fd m => exact allowed.elim
    | kill pid => exact allowed.elim
    | nice pid offset => exact allowed.elim
    | wait => exact allowed.elim
    | blockIo => exact allowed.elim
    | semOpen name value m => exact allowed.elim
    | semClose sem => exact allowed.elim
    | openPipe name m => exact allowed.elim
    | writePipe m fd c => exact allowed.elim
    | readPipe m m' fd => exact allowed.elim
    | closePipe m fd => exact allowed.elim

theorem run_inv (start : Quiet k₀ nodes c) (run : Run Undisturbed k₀ k) :
    ∃ nodes c pending, Inv k₀ k nodes c pending := by
  induction run with
  | refl => exact ⟨nodes, c, none, start.calm, .refl start, by simp [start.trace]⟩
  | step _ allowed step ih =>
    obtain ⟨nodes, c, pending, h⟩ := ih
    exact step_inv h allowed step

/-- What a `semWait` takes is there, and there are not more waits over than units. -/
def TakesUnits (k₀ k : Kernel) : Prop :=
  (∀ sem pid value waited, .taken sem pid value waited ∈ k.trace → 0 < value) ∧
    ∀ sem x, k.sems sem = some x → ∃ x₀, k₀.sems sem = some x₀ ∧
      Handoff.finished (history k sem) ≤ x₀.value + Handoff.posts (history k sem)

/-- As long as nobody inside `semWait` is made READY from outside, `semWait` takes units of its
own. -/
theorem run_takesUnits (start : Quiet k₀ nodes c) (run : Run Undisturbed k₀ k) :
    TakesUnits k₀ k := by
  obtain ⟨nodes', c', pending, h⟩ := run_inv start run
  refine ⟨fun sem pid value waited he => h.taken _ he, fun sem x hx => ?_⟩
  obtain ⟨v, hv⟩ : ∃ v, view k sem = some v := ⟨_, by rw [view, hx]; rfl⟩
  obtain ⟨v₀, hv₀, ops⟩ := h.refines sem v hv
  obtain ⟨x₀, hx₀, e₀⟩ := view_value hv₀
  refine ⟨x₀, hx₀, ?_⟩
  rw [← e₀]
  rw [view_none start.calm.steady, hx₀] at hv₀
  obtain rfl := Option.some.inj hv₀
  exact ops.finished_le (by decide) ⟨(start.values sem x₀ hx₀).1, (start.values sem x₀ hx₀).2.1⟩

end

theorem run_takesUnits_parlour : ∃ k₁ k₂ k, play 20 [.call (.semWait (some 80) 64) 0 0] parlour =
      some k₁ ∧ play 20 [.call (.semPost 64) 0 0] k₁ = some k₂ ∧ play 20 [.resume 0 0] k₂ = some k ∧
    k.trace = [.queued 64 2, .posted 64, .taken 64 2 1 true] ∧ TakesUnits parlour k := by
  have h : (play 20 [.call (.semWait (some 80) 64) 0 0] parlour).bind (fun k₁ =>
      (play 20 [.call (.semPost 64) 0 0] k₁).bind fun k₂ => (play 20 [.resume 0 0] k₂).map fun k =>
        (k₁.sched.firstSleep, k.trace)) =
      some ([], [.queued 64 2, .posted 64, .taken 64 2 1 true]) := by decide +kernel
  obtain ⟨k₁, h₁, h⟩ := Option.bind_eq_some_iff.mp h
  obtain ⟨k₂, h₂, h⟩ := Option.bind_eq_some_iff.mp h
  obtain ⟨k, h₃, h⟩ := Option.map_eq_some_iff.mp h
  obtain ⟨sleep, trace⟩ := Prod.mk.inj h
  have none : ∀ {k : Kernel} {a : Action}, k.sched.firstSleep = [] → Rested k a 0 := by
    intro k a hs e he
    rw [hs] at he
    cases he
  refine ⟨k₁, k₂, k, h₁, h₂, h₃, trace, run_takesUnits parlour_quiet (.step (.step (.step .refl ?_
    (play_step h₁)) ?_ (play_step h₂)) ?_ (play_step h₃))⟩
  · exact none rfl
  · exact none sleep
  · trivial

/-- Process 2 is queued at a semaphore without units, 3 unblocks it from outside and blocks. -/
def awoken : List Action :=
  [.call (.semWait (some 6000) 5000) 0 0, .call (.unblock 2) 0 0, .call (.block 3) 0 0, .resume 0 0]

/-- Then 2 takes a unit of a semaphore that has had none. -/
theorem awoken_takesNothing : ∃ b k₀ k, boot 20 0 0 777 (blocks 0) (blocks 1) = .ok b ∧
    play 20 [.tick 0 0, .call (.semOpen "s" 0 semBlocks) 0 0,
      .call (.enqueueProcess 1 none (blocks 2)) 0 0] b = some k₀ ∧
    Run Mixing k₀ k ∧ ¬ TakesUnits k₀ k := by
  have h : ((boot 20 0 0 777 (blocks 0) (blocks 1)).toOption.bind (play 20 [.tick 0 0,
      .call (.semOpen "s" 0 semBlocks) 0 0, .call (.enqueueProcess 1 none (blocks 2)) 0 0])).bind
        (fun k₀ => (play 20 awoken k₀).map (·.trace)) =
      some [.queued 5000 2, .taken 5000 2 0 true] := by decide +kernel
  obtain ⟨k₀, hb, hk⟩ := Option.bind_eq_some_iff.mp h
  obtain ⟨k, hk, trace⟩ := Option.map_eq_some_iff.mp hk
  obtain ⟨b, k₁, h₀, hs, rfl⟩ := boot_play (Option.map_id'.trans hb)
  refine ⟨b, k₁, k, h₀, hs, play_run (fun k a ha => ?_) .refl hk, fun ⟨units, _⟩ => ?_⟩
  · simp only [awoken, List.mem_cons, List.not_mem_nil, or_false] at ha
    rcases ha with rfl | rfl | rfl | rfl <;> trivial
  · exact absurd (units 5000 2 0 true (by simp [trace])) (by decide)

end BottlerOS.SemUnits
