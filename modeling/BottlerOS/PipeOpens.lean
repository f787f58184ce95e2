import BottlerOS.PipeBytes

/-! `openPipe` and `closePipe`. The first pipe to be opened registers the two
semaphores under their names, later ones find them there, and the pipe that is
closed takes them out of the registry. -/

namespace BottlerOS.PipeOpens
open Machine Scheduler LinkedList ProcessList ProcessFields ProcessLinks Dispatch
open Semaphore SemCalls SemBooks SemRuns SemSteps Pipe PipeCalls PipeRuns PipeBytes Kernel

/-- Registered semaphores with names that no pipe uses. -/
def Strange (k : Kernel) (list : List Ptr) : Prop :=
  ∀ q ∈ list, ∃ x, k.sems q = some x ∧ x.name ≠ SEM_NAME ∧ x.name ≠ FULL_SEM_NAME

/-- The registry while pipes are open. -/
structure Registered (k : Kernel) (others : List Ptr) (sem full : Ptr) : Prop where
  list : k.firstSem = full :: sem :: others
  mutex : ∃ x, k.sems sem = some x ∧ x.name = SEM_NAME
  bytes : ∃ x, k.sems full = some x ∧ x.name = FULL_SEM_NAME
  strange : Strange k others

/-- No pipe is open, and neither name is registered. -/
structure Shut (k : Kernel) (nodes : List Ptr) (c : Ptr) (others : List Ptr) : Prop where
  steady : Steady k nodes c none
  healthy : Healthy k nodes
  stacked : ∀ p ∈ nodes, PipeStack (k.frames p)
  asleep : k.sched.firstSleep = []
  pipes : k.firstPipe = []
  list : k.firstSem = others
  strange : Strange k others

/-- Nobody is inside a call, no pipe is open, and neither of their names is registered. -/
structure Unpiped (k : Kernel) (nodes : List Ptr) (c : Ptr) : Prop where
  quiet : Quiet k nodes c
  pipes : k.firstPipe = []
  mutex : searchSem k.sems SEM_NAME k.firstSem = .ok none
  bytes : searchSem k.sems FULL_SEM_NAME k.firstSem = .ok none

section
variable {k k' : Kernel} {nodes : List Ptr} {pending : Option (Ptr × Ptr)} {others : List Ptr}
  {pending' : Option (Ptr × Ptr)} {node sem full c q : Ptr} {x : SemT} {fuel : Nat} {flow : Flow}
  {name : String} {fds : Int × Int} {a : Action}

/-- One semaphore is written, its name kept. -/
theorem Registered.update {y : SemT} (h : Registered k others sem full) (hx : k.sems q = some x)
    (list : k'.firstSem = k.firstSem) (sems : k'.sems = Function.update k.sems q (some y))
    (name : y.name = x.name := by rfl) : Registered k' others sem full := by
  have kept : ∀ s z, k.sems s = some z → ∃ z', k'.sems s = some z' ∧ z'.name = z.name := by
    intro s z hz
    rw [sems]
    by_cases hs : s = q
    · subst hs
      obtain rfl := Option.some.inj (hx.symm.trans hz)
      exact ⟨y, Function.update_self _ _ _, name⟩
    · exact ⟨z, (Function.update_of_ne hs _ _).trans hz, rfl⟩
  obtain ⟨u, hu, hun⟩ := h.mutex
  obtain ⟨v, hv, hvn⟩ := h.bytes
  obtain ⟨u', hu', e⟩ := kept sem u hu
  obtain ⟨v', hv', e'⟩ := kept full v hv
  refine ⟨list.trans h.list, ⟨u', hu', e.trans hun⟩, ⟨v', hv', e'.trans hvn⟩, fun s hs => ?_⟩
  obtain ⟨z, hz, hn⟩ := h.strange s hs
  obtain ⟨z', hz', e⟩ := kept s z hz
  exact ⟨z', hz', e ▸ hn⟩

theorem Registered.moved (h : Registered k others sem full)
    (moved : Moved k k' c sem full a pending pending') : Registered k' others sem full := by
  cases moved with
  | silent ht trace pipes first sems list =>
    exact ⟨list.trans h.list, sems ▸ h.mutex, sems ▸ h.bytes, fun s hs => sems ▸ h.strange s hs⟩
  | stored ht hn hp hx hi alone hk =>
    exact h.update hx (by rw [hk]; rfl) (by rw [hk]; rfl)
  | handed ht hn hp hx hi waiting zero hd kept reader frames hk =>
    exact h.update hx (by rw [hk]; rfl) (by rw [hk]; rfl)
  | fetched ht hn hp hx hi pos hk => exact h.update hx (by rw [hk]; rfl) (by rw [hk]; rfl)
  | resumed ht hn hp hx hi one hpid frames hk =>
    exact h.update hx (by rw [hk]; rfl) (by rw [hk]; rfl)
  | queued ht hn hx zero hk => exact h.update hx (by rw [hk]; rfl) (by rw [hk]; rfl)

/-- The pipe that is opened has not been there, and has nothing in its ring. -/
theorem openPipe_cases {m : PipeMallocs} (run : Pipe.openPipe name m k = .ok (fds, k')) :
    ∃ node sem full k₁ k₂ p, k.pipes node = none ∧
      Semaphore.semOpen SEM_NAME 1 m.sem k = .ok (sem, k₁) ∧
      Semaphore.semOpen FULL_SEM_NAME 0 m.fullSem k₁ = .ok (full, k₂) ∧ p.currentW = 0 ∧
      p.currentR = 0 ∧ p.sem = sem ∧ p.fullSem = full ∧
      k' = { k₂ with
        pipes := Function.update k₂.pipes node (some p)
        firstPipe := node :: k₂.firstPipe
        fdIndex := k'.fdIndex
        trace := k₂.trace ++ [.opened node] } := by
  obtain ⟨node, hn, run₁⟩ := bind_ok.mp run
  obtain ⟨_, -, run₂⟩ := bind_ok.mp run₁
  obtain ⟨_, -, run₃⟩ := bind_ok.mp run₂
  obtain ⟨name', -, run₄⟩ := bind_ok.mp run₃
  obtain ⟨⟨sem, k₁⟩, h₁, run₅⟩ := bind_ok.mp run₄
  obtain ⟨⟨full, k₂⟩, h₂, run₆⟩ := bind_ok.mp run₅
  obtain ⟨_, -, run₇⟩ := bind_ok.mp run₆
  obtain ⟨-, rfl⟩ := Prod.mk.inj (Except.ok.inj run₇)
  exact ⟨node, sem, full, k₁, k₂, _, (malloc_ok.mp hn).2.1, h₁, h₂, rfl, rfl, rfl, rfl, rfl⟩

theorem searchSem_none {sems : Ptr → Option SemT} {list : List Ptr} :
    searchSem sems name list = .ok none ↔ ∀ q ∈ list, ∃ x, sems q = some x ∧ x.name ≠ name := by
  induction list with
  | nil => simp [searchSem, pure, Except.pure]
  | cons q rest ih =>
    constructor
    · intro run y hy
      obtain ⟨x, hx, run₁⟩ := bind_ok.mp run
      split at run₁ <;> rename_i hname
      · cases run₁
      · rcases List.mem_cons.mp hy with rfl | hy
        · exact ⟨x, load_ok.mp hx, hname⟩
        · exact ih.mp run₁ y hy
    · intro h
      obtain ⟨x, hx, hname⟩ := h q List.mem_cons_self
      rw [searchSem, load_of hx, ok_bind, if_neg hname]
      exact ih.mpr fun y hy => h y (List.mem_cons_of_mem _ hy)

theorem Unpiped.shut (h : Unpiped k nodes c) : Shut k nodes c k.firstSem := by
  have calm := h.quiet.calm
  refine ⟨calm.steady, calm.healthy, fun p _ => .inl (h.quiet.user p), h.quiet.sleepers, h.pipes,
    rfl, fun q hq => ?_⟩
  obtain ⟨x, hx, hn⟩ := searchSem_none.mp h.mutex q hq
  obtain ⟨y, hy, hn'⟩ := searchSem_none.mp h.bytes q hq
  obtain rfl := Option.some.inj (hx.symm.trans hy)
  exact ⟨x, hx, hn, hn'⟩

/-- A search that comes to an end finds the first node of the name. -/
theorem searchSem_some {sems : Ptr → Option SemT} {q : Ptr} {x : SemT} (pre post : List Ptr)
    (other : ∀ q ∈ pre, ∃ x, sems q = some x ∧ x.name ≠ name) (hx : sems q = some x)
    (hname : x.name = name) : searchSem sems name (pre ++ q :: post) = .ok (some q) := by
  induction pre with
  | nil =>
    rw [List.nil_append, searchSem, load_of hx, ok_bind, if_pos hname]
    rfl
  | cons y pre ih =>
    obtain ⟨z, hz, hne⟩ := other y List.mem_cons_self
    rw [List.cons_append, searchSem, load_of hz, ok_bind, if_neg hne]
    exact ih fun q hq => other q (List.mem_cons_of_mem _ hq)

/-- A name that is not registered is registered, in front of the others. -/
theorem semOpen_new {value : Int} {m : SemMallocs} {p : Ptr}
    (unnamed : ∀ q ∈ k.firstSem, ∃ x, k.sems q = some x ∧ x.name ≠ name)
    (run : Semaphore.semOpen name value m k = .ok (p, k')) :
    k.sems p = none ∧ k' = { k.putSem p { value := uint32 value, name := name, entering := [] } with
      firstSem := p :: k.firstSem } := by
  obtain ⟨-, ⟨h, -⟩ | ⟨-, free, rfl⟩⟩ := semOpen_cases run
  · rw [searchSem_none.mpr unnamed] at h
    cases h
  · exact ⟨free, rfl⟩

/-- The first pipe. -/
theorem openPipe_first {m : PipeMallocs} (h : Shut k nodes c others) (user : k.frames c = [])
    (run : Pipe.openPipe name m k = .ok (fds, k')) :
    ∃ node sem full, Base k' nodes c none sem full ∧ Stock k' full none ∧
      k'.firstPipe = [node] ∧ Registered k' others sem full ∧ queue k' full = [] ∧
      k'.trace = k.trace ++ [.opened node] := by
  obtain ⟨node, sem, full, k₁, k₂, p, -, h₁, h₂, hw, hr, hs, hf, hk⟩ := openPipe_cases run
  have r := h.steady.running user
  obtain ⟨res₁, sched₁, frames₁⟩ := semOpen_running r h₁
  obtain ⟨-, r₁⟩ := res₁.outcome.resolve_right fun w => by cases w.1
  obtain ⟨res₂, sched₂, frames₂⟩ := semOpen_running r₁ h₂
  obtain ⟨-, r₂⟩ := res₂.outcome.resolve_right fun w => by cases w.1
  -- neither name is there, not even the second after the first is
  have strange := h.strange
  rw [← h.list] at strange
  obtain ⟨free₁, rfl⟩ := semOpen_new (fun q hq => by
    obtain ⟨x, hx, hn, -⟩ := strange q hq
    exact ⟨x, hx, hn⟩) h₁
  have old : ∀ q ∈ k.firstSem, q ≠ sem := by
    rintro q hq rfl
    obtain ⟨x, hx, -⟩ := strange q hq
    rw [free₁] at hx
    cases hx
  obtain ⟨free₂, rfl⟩ := semOpen_new (fun q hq => by
    rcases List.mem_cons.mp hq with rfl | hq
    · exact ⟨_, by rw [putSem_sems, if_pos rfl], by decide⟩
    · obtain ⟨x, hx, -, hn⟩ := strange q hq
      exact ⟨x, by rw [putSem_sems, if_neg (old q hq), hx], hn⟩) h₂
  have apart : sem ≠ full := by
    rintro rfl
    simp at free₂
  have old₂ : ∀ q ∈ k.firstSem, q ≠ full := by
    rintro q hq rfl
    obtain ⟨x, hx, -⟩ := strange q hq
    simp [old q hq, hx] at free₂
  have sems : k'.sems = Function.update (Function.update k.sems sem
      (some ⟨1, SEM_NAME, []⟩)) full (some ⟨0, FULL_SEM_NAME, []⟩) := by rw [hk]; rfl
  have mutex : k'.sems sem = some ⟨1, SEM_NAME, []⟩ := by
    rw [sems, Function.update_of_ne apart, Function.update_self]
  have count : k'.sems full = some ⟨0, FULL_SEM_NAME, []⟩ := by
    rw [sems, Function.update_self]
  have pipes : k'.pipes node = some p := by
    rw [hk]
    exact Function.update_self _ _ _
  have first : k'.firstPipe = [node] := by
    rw [hk]
    exact congrArg (node :: ·) h.pipes
  have trace : k'.trace = k.trace ++ [.opened node] := by rw [hk]; rfl
  have frames : k'.frames = k.frames := by rw [hk]; rfl
  have healthy := (res₂.healthy (res₁.healthy h.healthy))
  have empty : queue k' full = [] := queue_of count
  have bytes : bytesIn node k'.trace = [] ∧ bytesOut node k'.trace = [] := by
    rw [trace, bytesIn_append, bytesOut_append]
    exact ⟨if_pos rfl, if_pos rfl⟩
  refine ⟨node, sem, full, ⟨(r₂.same (by rw [hk]) (by rw [hk]) (by rw [hk]) (by rw [hk])).steady,
    healthy.same (by rw [hk]) (fun q => ?_), by rw [frames]; exact h.stacked, apart, ⟨_, mutex⟩,
    ⟨_, count⟩, ?_, ?_, ?_, .inl rfl⟩, ⟨?_, ?_, fun d q m hd => by cases hd⟩, first,
    ⟨?_, ⟨_, mutex, rfl⟩, ⟨_, count, rfl⟩, ?_⟩, empty, trace⟩
  · rw [hk]
    exact List.Sublist.refl _
  · rw [hk]
    exact h.asleep
  · intro q hq
    rw [first, List.mem_singleton] at hq
    subst hq
    exact ⟨p, pipes, hs, hf⟩
  · intro y _ i hi
    rw [empty] at hi
    cases hi
  · intro q hq
    rw [first, List.mem_singleton] at hq
    subst hq
    rw [bytes.1, bytes.2]
    exact ⟨p, pipes, .empty hw hr⟩
  · intro q hq x hx
    rw [first, List.singleton_inj] at hq
    subst hq
    rw [count] at hx
    rw [bytes.1, bytes.2, ← Option.some.inj hx]
    rfl
  · rw [hk, ← h.list]
  · intro q hq
    rw [← h.list] at hq
    obtain ⟨x, hx, hn⟩ := strange q hq
    refine ⟨x, ?_, hn⟩
    rw [sems, Function.update_of_ne (old₂ q hq), Function.update_of_ne (old q hq), hx]

/-- A pipe that is opened while others are open: it gets their semaphores. -/
theorem openPipe_more {m : PipeMallocs} (h : Base k nodes c none sem full)
    (reg : Registered k others sem full) (st : Stock k full none) (more : k.firstPipe ≠ [])
    (user : k.frames c = []) (run : Pipe.openPipe name m k = .ok (fds, k')) :
    ∃ node p, node ∉ k.firstPipe ∧ Base k' nodes c none sem full ∧ Registered k' others sem full ∧
      Stock k' full none ∧ k'.firstPipe = node :: k.firstPipe ∧
      k'.pipes = Function.update k.pipes node (some p) ∧ k'.sems = k.sems ∧
      k'.trace = k.trace ++ [.opened node] := by
  obtain ⟨node, sem', full', k₁, k₂, p, free, h₁, h₂, hw, hr, hs, hf, hk⟩ := openPipe_cases run
  obtain ⟨x, hx, hxn⟩ := reg.mutex
  obtain ⟨y, hy, hyn⟩ := reg.bytes
  have first : searchSem k.sems SEM_NAME k.firstSem = .ok (some sem) := by
    rw [reg.list]
    refine searchSem_some [full] _ (fun q hq => ?_) hx hxn
    rw [List.mem_singleton.mp hq]
    exact ⟨y, hy, by rw [hyn]; decide⟩
  have second : searchSem k.sems FULL_SEM_NAME k.firstSem = .ok (some full) := by
    rw [reg.list]
    exact searchSem_some [] _ (fun q hq => by cases hq) hy hyn
  obtain ⟨-, ⟨h₁, rfl⟩ | ⟨h₁, -⟩⟩ := semOpen_cases h₁
  swap
  · rw [first] at h₁
    cases h₁
  obtain ⟨-, ⟨h₂, rfl⟩ | ⟨h₂, -⟩⟩ := semOpen_cases h₂
  swap
  · rw [second] at h₂
    cases h₂
  obtain rfl := Option.some.inj (Except.ok.inj (first.symm.trans h₁))
  obtain rfl := Option.some.inj (Except.ok.inj (second.symm.trans h₂))
  have fresh : node ∉ k₂.firstPipe := by
    intro hn
    obtain ⟨p', hp', -⟩ := h.shared node hn
    rw [free] at hp'
    cases hp'
  have pipes : k'.pipes = Function.update k₂.pipes node (some p) := by rw [hk]
  have firstPipe : k'.firstPipe = node :: k₂.firstPipe := by rw [hk]
  have sems : k'.sems = k₂.sems := by rw [hk]
  have sched : k'.sched = k₂.sched := by rw [hk]
  have frames : k'.frames = k₂.frames := by rw [hk]
  have trace : k'.trace = k₂.trace ++ [.opened node] := by rw [hk]
  have queues : queue k' = queue k₂ := funext fun q => by rw [queue, sems, queue]
  have r := (h.steady.running user).same sched (by rw [hk]) sems frames
  have other : ∀ q ∈ k₂.firstPipe, q ≠ node := fun q hq e => fresh (e ▸ hq)
  refine ⟨node, p, fresh, ⟨r.steady, h.healthy.same sched (fun q => ?_), ?_, h.apart, ?_, ?_, ?_,
    fun q hq => ?_, fun d hd i hi hpid => ?_, .inl rfl⟩, ⟨?_, ?_, ?_, ?_⟩, ⟨fun q hq => ?_,
    fun q hq => ?_, fun d q m hd => by cases hd⟩, firstPipe, pipes, sems, trace⟩
  · rw [queues]
  · rw [frames]
    exact h.stacked
  · rw [Free, sems]
    exact h.free
  · rw [sems]
    exact h.count
  · rw [sched]
    exact h.asleep
  · rw [firstPipe] at hq
    rw [pipes]
    rcases List.mem_cons.mp hq with rfl | hq
    · exact ⟨p, Function.update_self _ _ _, hs, hf⟩
    · rw [Function.update_of_ne (other q hq)]
      exact h.shared q hq
  · rw [queues] at hi
    rw [sched] at hpid
    obtain ⟨q, hq, m, hf⟩ := h.readers d hd i hi hpid
    exact ⟨q, firstPipe ▸ List.mem_cons_of_mem _ hq, m, frames ▸ hf⟩
  · rw [hk, reg.list]
  · rw [sems]
    exact reg.mutex
  · rw [sems]
    exact reg.bytes
  · rw [Strange, sems]
    exact reg.strange
  · rw [firstPipe] at hq
    rw [pipes, trace, bytesIn_append, bytesOut_append]
    rcases List.mem_cons.mp hq with rfl | hq
    · refine ⟨p, Function.update_self _ _ _, ?_⟩
      simp only [List.foldl_cons, List.foldl_nil, addIn, addOut, if_true]
      exact .empty hw hr
    · rw [Function.update_of_ne (other q hq)]
      simp only [List.foldl_cons, List.foldl_nil, addIn, addOut, if_neg (other q hq).symm]
      exact st.filled q hq
  · rw [firstPipe] at hq
    exact absurd (List.cons.inj hq).2 more

/-- What is behind the mutex in `closePipe`, for the pipe at the front. -/
theorem closeWaited_cases (run : closeWaited node none k = .ok (flow, k')) :
    flow = .ret ∧ ∃ p code k₁ code' k₂, k.pipes node = some p ∧
      Semaphore.semClose (some p.sem)
        { k with firstPipe := (k.firstPipe.dropWhile (· ≠ node)).tail } = .ok (code, k₁) ∧
      Semaphore.semClose (some p.fullSem) k₁ = .ok (code', k₂) ∧
      k' = { k₂ with pipes := Function.update k₂.pipes node none } := by
  obtain ⟨p, hp, run₁⟩ := bind_ok.mp run
  obtain ⟨next, hnext, run₂⟩ := bind_ok.mp run₁
  obtain rfl := Except.ok.inj hnext
  obtain ⟨⟨code, k₁⟩, h₁, run₃⟩ := bind_ok.mp run₂
  obtain ⟨⟨code', k₂⟩, h₂, run₄⟩ := bind_ok.mp run₃
  obtain ⟨rfl, rfl⟩ := Prod.mk.inj (Except.ok.inj run₄)
  exact ⟨rfl, p, code, k₁, code', k₂, load_ok.mp hp, h₁, h₂, rfl⟩

/-- The pipe that is closed is the last one: its semaphores are gone. -/
theorem closePipe_last {m : Option Ptr} {fd : Int} (h : Base k nodes c none sem full)
    (reg : Registered k others sem full)
    (lone : ∀ node, found (searchPipe fd k) = some node → k.firstPipe = [node])
    (user : k.frames c = []) (busy : ¬ IsIdle k.sched c)
    (run : Pipe.closePipe fuel m fd k = .ok (flow, k')) :
    flow = .ret ∧ ((found (searchPipe fd k) = none ∧ k' = k) ∨
      ∃ node, found (searchPipe fd k) = some node ∧ k.firstPipe = [node] ∧
        Shut k' nodes c others ∧ ∃ pid, k'.trace = k.trace ++ [.taken sem pid 1 false]) := by
  obtain ⟨⟨node, prev⟩, hs, run₁⟩ := bind_ok.mp run
  rcases searchBy_cases hs with ⟨rfl, -⟩ | ⟨A, B, node, p, hlist, rfl, hp, -, -, hprev⟩
  · obtain ⟨rfl, rfl⟩ := Prod.mk.inj (Except.ok.inj run₁)
    exact ⟨rfl, .inl ⟨by rw [hs]; rfl, rfl⟩⟩
  have lone := lone node (by rw [hs]; rfl)
  obtain ⟨rfl, rfl⟩ : A = [] ∧ B = [] := by
    have hlen := congrArg List.length (hlist.symm.trans lone)
    simp only [List.length_append, List.length_cons, List.length_nil] at hlen
    exact ⟨List.eq_nil_of_length_eq_zero (by omega), List.eq_nil_of_length_eq_zero (by omega)⟩
  obtain rfl : prev = none := hprev
  obtain ⟨p', hp', run₂⟩ := bind_ok.mp run₁
  obtain rfl := Option.some.inj (hp.symm.trans (load_ok.mp hp'))
  obtain ⟨rfl, rfl⟩ := h.ends (by simp [lone]) hp
  obtain ⟨name, free⟩ := h.free
  obtain ⟨flow₁, k₁, h₁, hcase⟩ := andThen_cases run₂
  obtain ⟨pid, hpid, rfl, rfl, r⟩ := semWait_free (h.steady.running user) busy free h₁
  rcases hcase with ⟨-, run₃⟩ | ⟨frames, hf, -⟩
  swap
  · cases hf
  obtain ⟨rfl, p', code, k₂, code', k₃, hp', h₂, h₃, rfl⟩ := closeWaited_cases run₃
  obtain rfl := Option.some.inj (hp.symm.trans hp')
  have next : (k.firstPipe.dropWhile (· ≠ node)).tail = [] := by simp [lone]
  have r₁ : Running { taking p.sem ⟨1, name, []⟩ pid false k with
      firstPipe := (k.firstPipe.dropWhile (· ≠ node)).tail } nodes c := r.same rfl rfl rfl rfl
  -- both semaphores are in the registry, one after the other
  obtain ⟨res₂, sched₂, frames₂⟩ := semClose_running r₁ h₂
  obtain ⟨-, r₂⟩ := res₂.outcome.resolve_right fun w => by cases w.1
  obtain ⟨res₃, sched₃, frames₃⟩ := semClose_running r₂ h₃
  obtain ⟨-, r₃⟩ := res₃.outcome.resolve_right fun w => by cases w.1
  have r₄ : Running { k₃ with pipes := Function.update k₃.pipes node none } nodes c :=
    r₃.same rfl rfl rfl rfl
  obtain ⟨-, out⟩ | ⟨q, hq, -, -, rfl⟩ := semClose_cases h₂
  · exact absurd (by simp [taking, reg.list, Kernel.putSem, Kernel.log]) (out p.sem rfl)
  obtain rfl := Option.some.inj hq
  obtain ⟨-, out⟩ | ⟨q, hq, -, -, rfl⟩ := semClose_cases h₃
  · refine absurd ?_ (out p.fullSem rfl)
    simp [taking, reg.list, Kernel.putSem, Kernel.log, h.apart.symm]
  obtain rfl := Option.some.inj hq
  obtain ⟨x, hx, hxn⟩ := reg.mutex
  obtain ⟨y, hy, hyn⟩ := reg.bytes
  refine ⟨rfl, .inr ⟨node, by rw [hs]; rfl, lone, ⟨r₄.steady,
    (res₃.healthy (res₂.healthy ⟨h.healthy.live, fun q i hi => ?_⟩)).same rfl
      (fun q => List.Sublist.refl _), h.stacked, h.asleep, next, ?_, fun q hq => ?_⟩,
    pid, rfl⟩⟩
  · have hi' : i ∈ queue (taking p.sem ⟨1, name, []⟩ pid false k) q := hi
    rw [queue_taking false free] at hi'
    exact h.healthy.entries q i hi'
  · change (k.firstSem.erase p.sem).erase p.fullSem = others
    rw [reg.list, List.erase_cons_tail (by simpa using h.apart.symm), List.erase_cons_head,
      List.erase_cons_head]
  · obtain ⟨z, hz, hn₁, hn₂⟩ := reg.strange q hq
    have apart₁ : q ≠ p.sem := by
      rintro rfl
      exact hn₁ (by rw [← Option.some.inj (hx.symm.trans hz), hxn])
    have apart₂ : q ≠ p.fullSem := by
      rintro rfl
      exact hn₂ (by rw [← Option.some.inj (hy.symm.trans hz), hyn])
    refine ⟨z, ?_, hn₁, hn₂⟩
    rw [← hz]
    simp [taking, apart₁, apart₂]

end

theorem parlour_unpiped : Unpiped parlour [16, 32, 48] 32 := ⟨parlour_quiet, rfl, rfl, rfl⟩

end BottlerOS.PipeOpens
