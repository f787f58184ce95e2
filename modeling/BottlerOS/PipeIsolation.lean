import BottlerOS.PipeOpens

/-! Pipes next to each other. `openPipe` asks for its semaphores by fixed names, so
all open pipes have the same two, and what is done to one pipe is counted for the
others. They are independent only as long as nothing that is counted happens. -/

namespace BottlerOS.PipeIsolation
open Machine Scheduler LinkedList ProcessList ProcessFields ProcessLinks Dispatch
open Semaphore SemCalls SemBooks SemRuns SemSteps Pipe PipeCalls PipeRuns PipeBytes PipeOpens Kernel

/-- `openPipe`, `writePipe`, `readPipe`, `closePipe`, timer ticks and `quitCPU`, and what is left
of a call. -/
def Using (k : Kernel) : Action → Prop
  | .call (.openPipe _ _) _ _ => True
  | .call (.closePipe _ _) _ _ => True
  | a => Piping k a

/-- Of these, what the other open pipes do not notice. -/
def Unnoticed (k : Kernel) (a : Action) : Prop := Using k a ∧ Apart k a

/-- The bytes a `readPipe` would not wait for: what the pipe counts, less the unit that is being
handed over. -/
def available (k : Kernel) (node : Ptr) : Option Int := do
  let p ← k.pipes node
  let v ← view k p.fullSem
  pure v.units

/-- The other open pipes stay as they are. -/
def LeavesOthers (k : Kernel) (a : Action) (k' : Kernel) : Prop :=
  ∀ q ∈ k.firstPipe, target k a ≠ some q →
    q ∈ k'.firstPipe ∧ k'.pipes q = k.pipes q ∧ available k' q = available k q

/-- Every allowed step leaves the other pipes alone, no pipe has returned a byte that was not
written to it, and the semaphores of the open pipes are registered. -/
structure Isolated (Allowed : Kernel → Action → Prop) (k : Kernel) : Prop where
  others : ∀ a k', Allowed k a → Step k a k' → LeavesOthers k a k'
  own : Fetches (fun ins _ b => b ∈ ins) k.trace
  registered : ∀ q ∈ k.firstPipe, ∃ p, k.pipes q = some p ∧
    p.sem ∈ k.firstSem ∧ p.fullSem ∈ k.firstSem

/-- With pipes open. -/
structure Open (k : Kernel) (nodes : List Ptr) (c : Ptr) (pending : Option (Ptr × Ptr))
    (others : List Ptr) (sem full : Ptr) : Prop where
  base : Base k nodes c pending sem full
  registered : Registered k others sem full
  stock : Stock k full pending
  more : k.firstPipe ≠ []

/-- Between two steps. -/
def Inv (k : Kernel) (nodes : List Ptr) (c : Ptr) (others : List Ptr) : Prop :=
  Shut k nodes c others ∨ ∃ pending sem full, Open k nodes c pending others sem full

section
variable {k₀ k k' k₁ : Kernel} {nodes nodes' : List Ptr} {pending pending' : Option (Ptr × Ptr)}
  {others : List Ptr} {node sem full c c' q : Ptr} {x : SemT} {now : Int} {fuel rsp : Nat}
  {flow : Flow} {a : Action}

theorem available_eq (h : Base k nodes c pending sem full) (hq : q ∈ k.firstPipe)
    (hx : k.sems full = some x) :
    available k q = some (x.value - if pending.isSome then 1 else 0) := by
  obtain ⟨p, hp, -, hf⟩ := h.shared q hq
  simp only [available, hp, Option.bind_eq_bind, Option.bind_some, hf]
  rcases h.handed with rfl | ⟨d, rfl, -⟩
  · simp [view_none h.steady, hx]
  · obtain rfl := h.steady.own d full rfl
    obtain ⟨r, hr⟩ := h.steady.books.listed.record h.steady.mem
    simp [view_some h.steady (pidOf_of hr), hx]

/-- What is counted for the other pipes stays. -/
theorem Moved.leavesOthers (h : Open k nodes c pending others sem full) (apart : Apart k a)
    (h' : Base k' nodes' c' pending' sem full) (moved : Moved k k' c sem full a pending pending') :
    LeavesOthers k a k' := by
  intro q hq hne
  have lone : ∀ {node}, k.firstPipe = [node] → target k a = some node → False := by
    intro node lone ht
    rw [lone, List.mem_singleton] at hq
    exact hne (hq ▸ ht)
  have same : ∀ {x y : SemT}, k'.firstPipe = k.firstPipe → k.sems full = some x →
      k'.sems full = some y →
      (x.value - if pending.isSome then 1 else 0) = y.value - (if pending'.isSome then 1 else 0) →
      available k' q = available k q := by
    intro x y first hx hy e
    rw [available_eq h.base hq hx, available_eq h' (first ▸ hq) hy, e]
  cases moved with
  | silent ht trace pipes first sems list =>
    obtain ⟨x, hx⟩ := h.base.count
    exact ⟨first ▸ hq, by rw [pipes], same first hx (sems ▸ hx) rfl⟩
  | stored ht hn hp hx hi alone hk =>
    rename_i node p x
    rcases apart node ht with single | ⟨p', x', first, rest, hp', hx', hq', -⟩
    · exact (lone single ht).elim
    · obtain rfl := Option.some.inj (hp.symm.trans hp')
      rw [(h.base.ends hn hp).2, hx] at hx'
      obtain rfl := Option.some.inj hx'
      rw [alone] at hq'
      cases hq'
  | handed ht hn hp hx hi waiting zero hd kept reader frames hk =>
    rename_i pid b first now rsp i node d p x rest
    have first : k'.firstPipe = k.firstPipe := by rw [hk]; rfl
    have hqn : q ≠ node := fun e => hne (e ▸ ht)
    have hy : k'.sems full = some { x with value := uint32 (x.value + 1), entering := rest } := by
      rw [hk]
      exact Function.update_self _ _ _
    refine ⟨first ▸ hq, ?_, same first hx hy (by simp [zero, uint32])⟩
    rw [hk]
    exact Function.update_of_ne hqn _ _
  | fetched ht hn hp hx hi pos hk =>
    exact (lone (h.stock.unread h.base apart ht hn hp hx pos).1 ht).elim
  | resumed ht hn hp hx hi one hpid frames hk =>
    rename_i pid now rsp i node p x
    have first : k'.firstPipe = k.firstPipe := by rw [hk]; rfl
    have hqn : q ≠ node := fun e => hne (e ▸ ht)
    have hy : k'.sems full = some { x with value := uint32 (x.value - 1) } := by
      rw [hk]
      exact Function.update_self _ _ _
    refine ⟨first ▸ hq, ?_, same first hx hy (by simp [one, uint32])⟩
    rw [hk]
    exact Function.update_of_ne hqn _ _
  | queued ht hn hx zero hk =>
    rename_i pid now rsp node x
    have first : k'.firstPipe = k.firstPipe := by rw [hk]; rfl
    have hy : k'.sems full = some { x with entering := x.entering ++ [pid] } := by
      rw [hk]
      exact Function.update_self _ _ _
    exact ⟨first ▸ hq, by rw [hk]; rfl, same first hx hy rfl⟩

theorem shut_still (h : Shut k nodes c others) (still : Still k nodes k' c') :
    Shut k' nodes c' others := by
  have hk := still.kernel
  refine ⟨still.steady, still.healthy, fun p hp => ?_, still.asleep, ?_, ?_, fun q hq => ?_⟩
  · rw [hk]
    exact h.stacked p hp
  · rw [hk]
    exact h.pipes
  · rw [hk]
    exact h.list
  · rw [hk]
    exact h.strange q hq

/-- With no pipe open nobody is handed a byte: what is left of a call is a post. -/
theorem shut_resume (h : Shut k nodes c others) (step : Step k (.resume now rsp) k') :
    Shut k' nodes c others ∧ k'.trace = k.trace := by
  obtain ⟨en, fuel, run⟩ := step
  obtain ⟨r, hr⟩ := h.steady.record
  unfold Enabled at en
  rw [hr] at en
  obtain ⟨c', hc', run⟩ := bind_ok.mp run
  obtain rfl := Option.some.inj (h.steady.current.symm.trans (deref_ok.mp hc'))
  obtain ⟨⟨flow, k₁⟩, run, run'⟩ := bind_ok.mp run
  rcases h.stacked c h.steady.mem with frames | frames | ⟨sem, node, m, frames⟩
  · exact absurd frames en
  · rw [frames] at run
    obtain ⟨rfl, r₁, healthy, ⟨-, -, rfl⟩ | ⟨_, _, _, hf, -⟩⟩ :=
      runFrame_cases (f := .semPost) h.steady (fun h => h) frames run
    swap
    · cases hf
    obtain rfl := Except.ok.inj run'
    refine ⟨⟨r₁.steady, healthy h.healthy, fun p hp => ?_, h.asleep, h.pipes, h.list, h.strange⟩,
      rfl⟩
    by_cases hpc : p = c
    · exact .inl (by simp [hpc])
    · have e : (saved k c []).frames p = k.frames p := Function.update_of_ne hpc _ _
      rw [e]
      exact h.stacked p hp
  · rw [frames] at run
    obtain ⟨⟨flow₁, k₂⟩, h₁, -⟩ := bind_ok.mp run
    obtain ⟨-, -, -, -, -, -, hpend, -⟩ := semWaitBlocked_running h.steady frames h₁
    cases hpend

/-- One step with no pipe open. -/
theorem shut_step (h : Shut k nodes c others) (own : Fetches (fun ins _ b => b ∈ ins) k.trace)
    (allowed : Using k a) (step : Step k a k') :
    ∃ nodes' c', Inv k' nodes' c' others ∧ Fetches (fun ins _ b => b ∈ ins) k'.trace := by
  have none : ∀ q ∈ k.firstPipe, False := fun q hq => by
    rw [h.pipes] at hq
    cases hq
  cases a with
  | tick now rsp =>
    obtain ⟨-, c', still⟩ := tick_still h.steady h.healthy h.asleep step
    exact ⟨nodes, c', .inl (shut_still h still), by rw [still.kernel]; exact own⟩
  | key => exact allowed.elim
  | resume now rsp =>
    obtain ⟨h', trace⟩ := shut_resume h step
    exact ⟨nodes, c, .inl h', trace ▸ own⟩
  | call call now rsp =>
    obtain ⟨busy, user, fuel, flow, k₁, run, run'⟩ := call_cases h.steady step
    have r := h.steady.running user
    cases call with
    | quitCPU =>
      obtain ⟨c', still⟩ := quitCPU_still h.steady h.healthy h.asleep user run run'
      exact ⟨nodes, c', .inl (shut_still h still), by rw [still.kernel]; exact own⟩
    | openPipe name m =>
      obtain ⟨⟨fds, k₂⟩, h₁, run₁⟩ := bind_ok.mp run
      obtain ⟨rfl, rfl⟩ := Prod.mk.inj (Except.ok.inj run₁)
      obtain rfl := Except.ok.inj run'
      obtain ⟨node, sem, full, base, stock, first, reg, -, trace⟩ := openPipe_first h user h₁
      refine ⟨nodes, c, .inr ⟨_, sem, full, base, reg, stock, by simp [first]⟩, ?_⟩
      rw [trace]
      exact own.quiet (by simp)
    | writePipe m fd b =>
      obtain ⟨node, hn, -⟩ := writePipe_running r busy (fun q hq => (none q hq).elim) run
      exact (none node hn).elim
    | readPipe m m' fd =>
      obtain ⟨node, hn, -⟩ := readPipe_running r busy (fun q hq => (none q hq).elim)
        (fun q hq => (none q hq).elim) run
      exact (none node hn).elim
    | closePipe m fd =>
      obtain ⟨⟨node, prev⟩, hs, run₁⟩ := bind_ok.mp run
      rcases searchBy_cases hs with ⟨rfl, -⟩ | ⟨A, B, node, p, hlist, -⟩
      · obtain ⟨rfl, rfl⟩ := Prod.mk.inj (Except.ok.inj run₁)
        obtain rfl := Except.ok.inj run'
        exact ⟨nodes, c, .inl h, own⟩
      · exact (none node (by simp [hlist])).elim
    | enqueueProcess foreground fd m => exact allowed.elim
    | block pid => exact allowed.elim
    | unblock pid => exact allowed.elim
    | kill pid => exact allowed.elim
    | nice pid offset => exact allowed.elim
    | wait => exact allowed.elim
    | blockIo => exact allowed.elim
    | sleep now secs m => exact allowed.elim
    | semOpen name value m => exact allowed.elim
    | semWait m sem => exact allowed.elim
    | semPost sem => exact allowed.elim
    | semClose sem => exact allowed.elim

/-- One step of writers and readers. -/
theorem open_moved (h : Open k nodes c pending others sem full) (piping : Piping k a)
    (apart : Apart k a) (own : Fetches (fun ins _ b => b ∈ ins) k.trace) (step : Step k a k') :
    ∃ nodes' c', Inv k' nodes' c' others ∧ Fetches (fun ins _ b => b ∈ ins) k'.trace ∧
      LeavesOthers k a k' := by
  obtain ⟨nodes', c', pending', base, moved⟩ := step_moved h.base piping step
  have stock := h.stock.moved h.base apart moved
  refine ⟨nodes', c', .inr ⟨pending', sem, full, base, h.registered.moved moved, stock, ?_⟩,
    own.moved h.stock h.base apart moved fun node hn p i hp hi left => ?_,
    Moved.leavesOthers h apart base moved⟩
  · rw [moved.firstPipe]
    exact h.more
  · exact ((h.stock.filled_at hn hp).fetch left hi).2.1

theorem open_step (h : Open k nodes c pending others sem full) (allowed : Unnoticed k a)
    (own : Fetches (fun ins _ b => b ∈ ins) k.trace) (step : Step k a k') :
    ∃ nodes' c', Inv k' nodes' c' others ∧ Fetches (fun ins _ b => b ∈ ins) k'.trace ∧
      LeavesOthers k a k' := by
  obtain ⟨used, apart⟩ := allowed
  cases a with
  | tick now rsp => exact open_moved h trivial apart own step
  | key => exact used.elim
  | resume now rsp => exact open_moved h trivial apart own step
  | call call now rsp =>
    cases call with
    | quitCPU => exact open_moved h trivial apart own step
    | writePipe m fd b => exact open_moved h trivial apart own step
    | readPipe m m' fd => exact open_moved h trivial apart own step
    | openPipe name m =>
      obtain ⟨busy, user, fuel, flow, k₁, run, run'⟩ := call_cases h.base.steady step
      obtain rfl := h.base.steady.nothing user
      obtain ⟨⟨fds, k₂⟩, h₁, run₁⟩ := bind_ok.mp run
      obtain ⟨rfl, rfl⟩ := Prod.mk.inj (Except.ok.inj run₁)
      obtain rfl := Except.ok.inj run'
      obtain ⟨node, p, fresh, base, reg, stock, first, pipes, sems, trace⟩ :=
        openPipe_more h.base h.registered h.stock h.more user h₁
      refine ⟨nodes, c, .inr ⟨none, sem, full, base, reg, stock, by simp [first]⟩, ?_,
        fun q hq _ => ?_⟩
      · rw [trace]
        exact own.quiet (by simp)
      · have hq' : q ∈ node :: k.firstPipe := List.mem_cons_of_mem _ hq
        rw [← first] at hq'
        obtain ⟨x, hx⟩ := h.base.count
        rw [available_eq h.base hq hx, available_eq base hq' (sems ▸ hx), pipes]
        have hqn : q ≠ node := fun e => fresh (e ▸ hq)
        exact ⟨hq', Function.update_of_ne hqn _ _, rfl⟩
    | closePipe m fd =>
      obtain ⟨busy, user, fuel, flow, k₁, run, run'⟩ := call_cases h.base.steady step
      obtain rfl := h.base.steady.nothing user
      obtain ⟨rfl, ⟨-, rfl⟩ | ⟨node, ht, lone, shut, pid, trace⟩⟩ :=
        closePipe_last h.base h.registered (fun node ht => (apart node ht).resolve_right fun h => h)
          user busy run
      · obtain rfl := Except.ok.inj run'
        exact ⟨nodes, c, .inr ⟨none, sem, full, h⟩, own, fun q hq _ => ⟨hq, rfl, rfl⟩⟩
      · obtain rfl := Except.ok.inj run'
        refine ⟨nodes, c, .inl shut, ?_, fun q hq hne => ?_⟩
        · rw [trace]
          exact own.quiet (by simp)
        · rw [lone, List.mem_singleton] at hq
          exact absurd (hq ▸ ht) hne
    | enqueueProcess foreground fd m => exact used.elim
    | block pid => exact used.elim
    | unblock pid => exact used.elim
    | kill pid => exact used.elim
    | nice pid offset => exact used.elim
    | wait => exact used.elim
    | blockIo => exact used.elim
    | sleep now secs m => exact used.elim
    | semOpen name value m => exact used.elim
    | semWait m sem => exact used.elim
    | semPost sem => exact used.elim
    | semClose sem => exact used.elim

/-- One step. -/
theorem step_inv (h : Inv k nodes c others) (allowed : Unnoticed k a)
    (own : Fetches (fun ins _ b => b ∈ ins) k.trace) (step : Step k a k') :
    ∃ nodes' c', Inv k' nodes' c' others ∧ Fetches (fun ins _ b => b ∈ ins) k'.trace ∧
      LeavesOthers k a k' := by
  rcases h with h | ⟨pending, sem, full, h⟩
  · obtain ⟨nodes', c', h', own'⟩ := shut_step h own allowed.1 step
    refine ⟨nodes', c', h', own', fun q hq => ?_⟩
    rw [h.pipes] at hq
    cases hq
  · exact open_step h allowed own step

theorem run_inv (start : Unpiped k₀ nodes c) (run : Run Unnoticed k₀ k) :
    ∃ nodes c, Inv k nodes c k₀.firstSem ∧ Fetches (fun ins _ b => b ∈ ins) k.trace := by
  induction run with
  | refl =>
    refine ⟨nodes, c, .inl start.shut, fun pre node pid b post h => ?_⟩
    rw [start.quiet.trace] at h
    simp at h
  | step _ allowed step ih =>
    obtain ⟨nodes, c, h, own⟩ := ih
    obtain ⟨nodes', c', h', own', -⟩ := step_inv h allowed own step
    exact ⟨nodes', c', h', own'⟩

/-- Pipes that are used one at a time do not get in each other's way. -/
theorem run_isolated (start : Unpiped k₀ nodes c) (run : Run Unnoticed k₀ k) :
    Isolated Unnoticed k := by
  obtain ⟨nodes', c', h, own⟩ := run_inv start run
  refine ⟨fun a k' allowed step => ?_, own, fun q hq => ?_⟩
  · obtain ⟨_, _, -, -, leaves⟩ := step_inv h allowed own step
    exact leaves
  · rcases h with h | ⟨pending, sem, full, h⟩
    · rw [h.pipes] at hq
      cases hq
    · obtain ⟨p, hp, hs, hf⟩ := h.base.shared q hq
      exact ⟨p, hp, by simp [h.registered.list, hs], by simp [h.registered.list, hf]⟩

end

theorem run_isolated_parlour : ∃ k₁ k, play 20 [.call (.openPipe "a" (pipeBlocks 0)) 0 0] parlour =
      some k₁ ∧ play 20 [.call (.writePipe none 3 7) 0 0] k₁ = some k ∧
    k.trace = [.opened 7000, .taken 7003 2 1 false, .wrote 7000 7, .posted 7003, .posted 7006] ∧
    Isolated Unnoticed k := by
  have h : (play 20 [.call (.openPipe "a" (pipeBlocks 0)) 0 0] parlour).bind (fun k₁ =>
      (play 20 [.call (.writePipe none 3 7) 0 0] k₁).map fun k =>
        ((k₁.firstPipe, target k₁ (.call (.writePipe none 3 7) 0 0)), k.trace)) =
      some (([7000], some 7000), [.opened 7000, .taken 7003 2 1 false, .wrote 7000 7, .posted 7003,
        .posted 7006]) := by decide +kernel
  obtain ⟨k₁, h₁, h⟩ := Option.bind_eq_some_iff.mp h
  obtain ⟨k, h₂, h⟩ := Option.map_eq_some_iff.mp h
  obtain ⟨⟨first, ht⟩, trace⟩ := by simpa only [Prod.mk.injEq] using h
  refine ⟨k₁, k, h₁, h₂, trace, run_isolated parlour_unpiped (.step (.step .refl ?_
    (play_step h₁)) ?_ (play_step h₂))⟩
  · exact ⟨trivial, fun node hnode => by cases hnode⟩
  · refine ⟨trivial, fun node hnode => ?_⟩
    obtain rfl := Option.some.inj (ht.symm.trans hnode)
    exact .inl first

/-- A byte is written to the first of two pipes, and the second is read. -/
def mixed : List Action :=
  [.tick 0 0, .call (.openPipe "a" (pipeBlocks 0)) 0 0, .call (.openPipe "b" (pipeBlocks 1)) 0 0,
    .call (.writePipe none 3 7) 0 0, .call (.readPipe none none 4) 0 0]

set_option synthInstance.maxSize 1024 in
/-- The second returns a byte although nothing has been written to it. -/
theorem mixed_notIsolated : ∃ b k, boot 20 0 0 777 (blocks 0) (blocks 1) = .ok b ∧
    Run Using b k ∧ ¬ Isolated Using k := by
  have h : ((boot 20 0 0 777 (blocks 0) (blocks 1)).toOption.bind (play 20 mixed)).map (·.trace) =
      some ([.opened 7000, .opened 7100, .taken 7003 2 1 false, .wrote 7000 7, .posted 7003,
        .posted 7006, .taken 7006 2 1 false, .taken 7003 2 1 false] ++
        .fetched 7100 2 0 :: [.posted 7003]) := by decide +kernel
  obtain ⟨b, k, hb, hk, trace⟩ := boot_play h
  refine ⟨b, k, hb, play_run (fun k a ha => ?_) .refl hk, fun isolated => ?_⟩
  · simp only [mixed, List.mem_cons, List.not_mem_nil, or_false] at ha
    rcases ha with rfl | rfl | rfl | rfl | rfl <;> trivial
  · exact absurd (isolated.own _ 7100 2 0 _ trace) (by decide)

end BottlerOS.PipeIsolation
