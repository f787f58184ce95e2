import BottlerOS.SemRuns

/-! `writePipe` and `readPipe` while nobody holds the mutex of the pipe. The mutex
is then taken and given back without a switch, and what is left of the calls is a
byte stored or fetched and one operation of the semaphore that counts bytes. -/

namespace BottlerOS.PipeCalls
open Machine Scheduler LinkedList ProcessList ProcessFields ProcessLinks Dispatch
open Semaphore SemCalls SemBooks SemRuns Pipe Kernel

section
variable {k k' k₁ : Kernel} {nodes nodes' : List Ptr} {pending : Option (Ptr × Ptr)}
  {sem full node c d : Ptr} {x : SemT} {p : PipeT} {name : String} {pid : Int} {s : Sched}
  {fuel : Nat} {flow : Flow} {i : Nat}

theorem andThen_cases {call : C (Flow × Kernel)} {f : Frame} {rest : Kernel → C (Flow × Kernel)}
    (run : andThen call f rest = .ok (flow, k')) :
    ∃ flow₁ k₁, call = .ok (flow₁, k₁) ∧ ((flow₁ = .ret ∧ rest k₁ = .ok (flow, k')) ∨
      ∃ frames, flow₁ = .timer frames ∧ flow = .timer (frames ++ [f]) ∧ k' = k₁) := by
  obtain ⟨⟨flow₁, k₁⟩, h₁, run₁⟩ := bind_ok.mp run
  refine ⟨flow₁, k₁, h₁, ?_⟩
  cases flow₁ with
  | ret => exact .inl ⟨rfl, run₁⟩
  | timer frames =>
    obtain ⟨rfl, rfl⟩ := Prod.mk.inj (Except.ok.inj run₁)
    exact .inr ⟨frames, rfl, rfl, rfl⟩

/-- A search ends at a node of the list that passes the test, or at none. -/
theorem searchBy_cases {pipes : Ptr → Option PipeT} {test : PipeT → Bool} {list : List Ptr}
    {previous found prev : Option Ptr}
    (run : searchBy pipes test previous list = .ok (found, prev)) :
    (found = none ∧ ∀ q ∈ list, ∃ p, pipes q = some p ∧ test p = false) ∨
      ∃ A B node p, list = A ++ node :: B ∧ found = some node ∧ pipes node = some p ∧
        test p = true ∧ (∀ q ∈ A, ∃ p, pipes q = some p ∧ test p = false) ∧
        prev = A.getLast?.or previous := by
  induction list generalizing previous with
  | nil =>
    obtain ⟨rfl, rfl⟩ := Prod.mk.inj (Except.ok.inj run)
    exact .inl ⟨rfl, by simp⟩
  | cons q rest ih =>
    obtain ⟨p, hp, run₁⟩ := bind_ok.mp run
    rw [load_ok] at hp
    split at run₁ <;> rename_i ht
    · obtain ⟨rfl, rfl⟩ := Prod.mk.inj (Except.ok.inj run₁)
      exact .inr ⟨[], rest, q, p, rfl, rfl, hp, ht, by simp, by simp⟩
    · have hq : ∃ p, pipes q = some p ∧ test p = false := ⟨p, hp, by simpa using ht⟩
      rcases ih run₁ with ⟨rfl, none⟩ | ⟨A, B, node, p', rfl, rfl, hp', ht', before, rfl⟩
      · refine .inl ⟨rfl, fun y hy => ?_⟩
        rcases List.mem_cons.mp hy with rfl | hy
        · exact hq
        · exact none y hy
      · refine .inr ⟨q :: A, B, node, p', rfl, rfl, hp', ht', fun y hy => ?_, ?_⟩
        · rcases List.mem_cons.mp hy with rfl | hy
          · exact hq
          · exact before y hy
        · cases A <;> simp [List.getLast?_cons]

/-- The mutex is free, and nobody waits for it. -/
def Free (k : Kernel) (sem : Ptr) : Prop := ∃ name, k.sems sem = some ⟨1, name, []⟩

/-- The critical section begins. -/
theorem semWait_free {m : Option Ptr} (r : Running k nodes c) (busy : ¬ IsIdle k.sched c)
    (free : k.sems sem = some ⟨1, name, []⟩)
    (run : Semaphore.semWait fuel m sem k = .ok (flow, k')) :
    ∃ pid, pidOf k.sched c = some pid ∧ flow = .ret ∧
      k' = taking sem ⟨1, name, []⟩ pid false k ∧ Running k' nodes c := by
  obtain ⟨x, pid, hx, hpid, ⟨-, rfl, rfl, r₁⟩ | ⟨hv, -⟩⟩ := semWait_running r busy run
  · obtain rfl := Option.some.inj (free.symm.trans hx)
    exact ⟨pid, hpid, rfl, rfl, r₁⟩
  · obtain rfl := Option.some.inj (free.symm.trans hx)
    cases hv

/-- It ends. -/
theorem semPost_free (run : Semaphore.semPost fuel sem k = .ok (flow, k'))
    (r : Running k nodes c) (busy : ¬ IsIdle k.sched c)
    (taken : k.sems sem = some ⟨0, name, []⟩) :
    flow = .ret ∧ k' = giving sem ⟨0, name, []⟩ [] k ∧ Running k' nodes c := by
  have head : HeadLive k nodes sem := fun pid rest hq => by simp [queue_of taken] at hq
  obtain ⟨x, hx, ⟨rest, -, rfl, rfl, -, hrest, r₁⟩ | ⟨pid, rest, d, s, hq, -⟩⟩ :=
    semPost_running r busy head run
  · obtain rfl := Option.some.inj (taken.symm.trans hx)
    obtain rfl : rest = [] := hrest
    exact ⟨rfl, rfl, r₁⟩
  · obtain rfl := Option.some.inj (taken.symm.trans hx)
    cases hq

/-- Across a critical section the mutex is what it was. -/
theorem mutex_restored (free : k.sems sem = some ⟨1, name, []⟩) :
    Function.update (Function.update k.sems sem (some ⟨uint32 (1 - 1), name, []⟩)) sem
      (some ⟨uint32 (0 + 1), name, []⟩) = k.sems := by
  rw [Function.update_idem, Function.update_eq_self_iff, free]
  rfl

/-- A byte is fetched. -/
def fetching (sem node : Ptr) (p : PipeT) (i : Nat) (pid : Int) (k : Kernel) : Kernel :=
  { k with
    pipes := Function.update k.pipes node (some { p with currentR := int32 (p.currentR + 1) })
    trace := k.trace ++ [.taken sem pid 1 false, .fetched node pid (p.buffer i), .posted sem] }

/-- A byte is stored, and the mutex given back. -/
def storing (sem node : Ptr) (p : PipeT) (i : Nat) (pid b : Int) (k : Kernel) : Kernel :=
  { k with
    pipes := Function.update k.pipes node (some { p with
      buffer := Function.update p.buffer i b
      currentW := int32 (p.currentW + 1) })
    trace := k.trace ++ [.taken sem pid 1 false, .wrote node b, .posted sem] }

/-- `readPipe` behind its wait for a byte. -/
theorem readFull_running {m : Option Ptr} (r : Running k nodes c) (busy : ¬ IsIdle k.sched c)
    (hp : k.pipes node = some p) (free : Free k p.sem)
    (run : readFull fuel node m k = .ok (flow, k')) :
    flow = .ret ∧ ∃ i pid, slot p.currentR = .ok i ∧ pidOf k.sched c = some pid ∧
      k' = fetching p.sem node p i pid k ∧ Running k' nodes c := by
  obtain ⟨name, free⟩ := free
  obtain ⟨p', hp', run₁⟩ := bind_ok.mp run
  obtain rfl := Option.some.inj (hp.symm.trans (load_ok.mp hp'))
  obtain ⟨flow₁, k₁, h₁, hcase⟩ := andThen_cases run₁
  obtain ⟨pid, hpid, rfl, rfl, r₁⟩ := semWait_free r busy free h₁
  rcases hcase with ⟨-, run₂⟩ | ⟨frames, hf, -⟩
  swap
  · cases hf
  obtain ⟨p', hp', run₃⟩ := bind_ok.mp run₂
  obtain rfl := Option.some.inj (hp.symm.trans (load_ok.mp hp'))
  obtain ⟨i, hi, run₄⟩ := bind_ok.mp run₃
  obtain ⟨pid', hpid', run₅⟩ := bind_ok.mp run₄
  obtain rfl := Option.some.inj (hpid.symm.trans (getPid_current r₁.current hpid'))
  obtain ⟨flow₂, k₂, h₂, hcase⟩ := andThen_cases run₅
  have taken : ∀ k₃ : Kernel, k₃.sems = (taking p.sem ⟨1, name, []⟩ pid false k).sems →
      k₃.sems p.sem = some ⟨0, name, []⟩ := fun k₃ hs => by
    rw [hs]
    simp [taking, uint32]
  obtain ⟨rfl, rfl, r₂⟩ := semPost_free h₂ (r₁.same rfl rfl rfl rfl) busy (taken _ rfl)
  rcases hcase with ⟨-, run₆⟩ | ⟨frames, hf, -⟩
  swap
  · cases hf
  obtain ⟨rfl, rfl⟩ := Prod.mk.inj (Except.ok.inj run₆)
  have same : giving p.sem ⟨0, name, []⟩ [] (Kernel.log (Kernel.putPipe
      (taking p.sem ⟨1, name, []⟩ pid false k) node { p with currentR := int32 (p.currentR + 1) })
      (.fetched node pid (p.buffer i))) = fetching p.sem node p i pid k := by
    have h := mutex_restored free
    simp only [giving, taking, Kernel.log, Kernel.putPipe, Kernel.putSem, fetching, h,
      List.append_assoc]
    rfl
  exact ⟨rfl, i, pid, hi, hpid, same, r₂⟩

/-- `writePipe`: a byte is stored, and then the semaphore that counts bytes is posted. -/
theorem writePipe_running {m : Option Ptr} {fd b : Int} (r : Running k nodes c)
    (busy : ¬ IsIdle k.sched c)
    (free : ∀ node ∈ k.firstPipe, ∀ p, k.pipes node = some p → Free k p.sem)
    (run : Pipe.writePipe fuel m fd b k = .ok (flow, k')) :
    ∃ node ∈ k.firstPipe, ∃ prev p i pid, searchWPipe fd k = .ok (some node, prev) ∧
      k.pipes node = some p ∧ slot p.currentW = .ok i ∧ pidOf k.sched c = some pid ∧
      Running (storing p.sem node p i pid b k) nodes c ∧
      Semaphore.semPost fuel p.fullSem (storing p.sem node p i pid b k) = .ok (flow, k') := by
  obtain ⟨⟨found, prev⟩, hs, run₁⟩ := bind_ok.mp run
  obtain ⟨node, hfound, run₂⟩ := bind_ok.mp run₁
  obtain rfl := deref_ok.mp hfound
  rcases searchBy_cases hs with ⟨hnone, -⟩ | ⟨A, B, node', p, hlist, hfound, hp, -⟩
  · cases hnone
  obtain rfl := Option.some.inj hfound
  have hn : node ∈ k.firstPipe := by rw [hlist]; simp
  obtain ⟨name, free⟩ := free node hn p hp
  obtain ⟨p', hp', run₃⟩ := bind_ok.mp run₂
  obtain rfl := Option.some.inj (hp.symm.trans (load_ok.mp hp'))
  obtain ⟨flow₁, k₁, h₁, hcase⟩ := andThen_cases run₃
  obtain ⟨pid, hpid, rfl, rfl, r₁⟩ := semWait_free r busy free h₁
  rcases hcase with ⟨-, run₄⟩ | ⟨frames, hf, -⟩
  swap
  · cases hf
  obtain ⟨p', hp', run₅⟩ := bind_ok.mp run₄
  obtain rfl := Option.some.inj (hp.symm.trans (load_ok.mp hp'))
  obtain ⟨i, hi, run₆⟩ := bind_ok.mp run₅
  obtain ⟨flow₂, k₂, h₂, hcase⟩ := andThen_cases run₆
  have taken : ∀ k₃ : Kernel, k₃.sems = (taking p.sem ⟨1, name, []⟩ pid false k).sems →
      k₃.sems p.sem = some ⟨0, name, []⟩ := fun k₃ hs => by
    rw [hs]
    simp [taking, uint32]
  obtain ⟨rfl, rfl, r₂⟩ := semPost_free h₂ (r₁.same rfl rfl rfl rfl) busy (taken _ rfl)
  rcases hcase with ⟨-, run₇⟩ | ⟨frames, hf, -⟩
  swap
  · cases hf
  have same : giving p.sem ⟨0, name, []⟩ [] (Kernel.log (Kernel.putPipe
      (taking p.sem ⟨1, name, []⟩ pid false k) node { p with
        buffer := Function.update p.buffer i b
        currentW := int32 (p.currentW + 1) }) (.wrote node b)) =
          storing p.sem node p i pid b k := by
    have h := mutex_restored free
    simp only [giving, taking, Kernel.log, Kernel.putPipe, Kernel.putSem, storing, h,
      List.append_assoc]
    rfl
  rw [same] at r₂ run₇
  obtain ⟨p', hp', run₈⟩ := bind_ok.mp run₇
  have stored : (storing p.sem node p i pid b k).pipes node = some { p with
      buffer := Function.update p.buffer i b
      currentW := int32 (p.currentW + 1) } := Function.update_self _ _ _
  obtain rfl := Option.some.inj (stored.symm.trans (load_ok.mp hp'))
  exact ⟨node, hn, prev, p, i, pid, hs, hp, hi, hpid, r₂, run₈⟩

/-- `readPipe`: it takes a byte that is there, or waits for one. -/
theorem readPipe_running {m m' : Option Ptr} {fd : Int} (r : Running k nodes c)
    (busy : ¬ IsIdle k.sched c)
    (free : ∀ node ∈ k.firstPipe, ∀ p, k.pipes node = some p → Free k p.sem)
    (apart : ∀ node ∈ k.firstPipe, ∀ p, k.pipes node = some p → p.sem ≠ p.fullSem)
    (run : Pipe.readPipe fuel m m' fd k = .ok (flow, k')) :
    ∃ node ∈ k.firstPipe, ∃ prev p x pid, searchRPipe fd k = .ok (some node, prev) ∧
      k.pipes node = some p ∧ k.sems p.fullSem = some x ∧ pidOf k.sched c = some pid ∧
      ((0 < x.value ∧ flow = .ret ∧ ∃ i, slot p.currentR = .ok i ∧
        k' = fetching p.sem node p i pid (taking p.fullSem x pid false k) ∧ Running k' nodes c) ∨
      (x.value = 0 ∧ flow = .timer [.semWait p.fullSem, .readFull node m'] ∧
        ∃ s, k' = { joining p.fullSem x pid k with sched := s } ∧
        Touched (· = c) (· = c) k.sched s ∧
        Switching (saved k' c [.semWait p.fullSem, .readFull node m']) nodes c none ∧
        (Healthy k nodes →
          Healthy (saved k' c [.semWait p.fullSem, .readFull node m']) nodes))) := by
  obtain ⟨⟨found, prev⟩, hs, run₁⟩ := bind_ok.mp run
  obtain ⟨node, hfound, run₂⟩ := bind_ok.mp run₁
  obtain rfl := deref_ok.mp hfound
  rcases searchBy_cases hs with ⟨hnone, -⟩ | ⟨A, B, node', p, hlist, hfound, hp, -⟩
  · cases hnone
  obtain rfl := Option.some.inj hfound
  have hn : node ∈ k.firstPipe := by rw [hlist]; simp
  obtain ⟨name, free⟩ := free node hn p hp
  have apart := apart node hn p hp
  obtain ⟨p', hp', run₃⟩ := bind_ok.mp run₂
  obtain rfl := Option.some.inj (hp.symm.trans (load_ok.mp hp'))
  obtain ⟨flow₁, k₁, h₁, hcase⟩ := andThen_cases run₃
  obtain ⟨x, pid, hx, hpid, ⟨hv, rfl, rfl, r₁⟩ | ⟨hv, rfl, s, rfl, -, t, sw⟩⟩ :=
    semWait_running r busy h₁
  · rcases hcase with ⟨-, run₄⟩ | ⟨frames, hf, -⟩
    swap
    · cases hf
    have free₁ : Free (taking p.fullSem x pid false k) p.sem :=
      ⟨name, by simp [taking, apart, free]⟩
    obtain ⟨rfl, i, pid', hi, hpid', hk, r₂⟩ := readFull_running r₁ busy hp free₁ run₄
    obtain rfl := Option.some.inj (hpid.symm.trans hpid')
    exact ⟨node, hn, prev, p, x, pid, hs, hp, hx, hpid, .inl ⟨hv, rfl, i, hi, hk, r₂⟩⟩
  · rcases hcase with ⟨hf, -⟩ | ⟨frames, hf, rfl, rfl⟩
    · cases hf
    obtain rfl := Flow.timer.inj hf
    obtain ⟨sw, healthy⟩ := sw [.readFull node m'] (by simp [PipeFrame])
    exact ⟨node, hn, prev, p, x, pid, hs, hp, hx, hpid, .inr ⟨hv, rfl, s, rfl, t, sw, healthy⟩⟩

/-- `readPipe` when a byte has been handed over to it. -/
theorem readPipe_resumed {m : Option Ptr} (st : Steady k nodes c pending)
    (busy : ¬ IsIdle k.sched c) (frames : k.frames c = [.semWait full, .readFull node m])
    (hp : k.pipes node = some p) (apart : p.sem ≠ full)
    (free : Free k p.sem)
    (run : runFrames fuel (k.frames c) (saved k c []) = .ok (flow, k')) :
    flow = .ret ∧ ∃ x pid i, k.sems full = some x ∧ x.value = 1 ∧ pending = some (c, full) ∧
      pidOf k.sched c = some pid ∧ slot p.currentR = .ok i ∧
      k' = fetching p.sem node p i pid (saved (taking full x pid true k) c []) ∧
      Running k' nodes c := by
  rw [frames] at run
  obtain ⟨⟨flow₁, k₁⟩, h₁, run₁⟩ := bind_ok.mp run
  obtain ⟨x, pid, rfl, hx, hpid, hone, hpend, rfl, r, -⟩ := semWaitBlocked_running st frames h₁
  obtain ⟨⟨flow₂, k₂⟩, h₂, run₂⟩ := bind_ok.mp run₁
  obtain ⟨name, free⟩ := free
  have free₁ : Free (saved (taking full x pid true k) c []) p.sem :=
    ⟨name, by simp [taking, apart, free]⟩
  obtain ⟨rfl, i, pid', hi, hpid', rfl, r₂⟩ := readFull_running r busy hp free₁ h₂
  obtain rfl := Option.some.inj (hpid.symm.trans hpid')
  obtain ⟨rfl, rfl⟩ := Prod.mk.inj (Except.ok.inj run₂)
  exact ⟨rfl, x, pid, i, hx, hone, hpend, hpid, hi, rfl, r₂⟩

/-- `writePipe` comes back when no reader waits. -/
theorem writePipe_alone {m prev : Option Ptr} {fd b : Int} (lock : k.semLock = 0)
    (hpid : getPid k.sched = .ok pid) (search : searchWPipe fd k = .ok (some node, prev))
    (hp : k.pipes node = some p) (free : k.sems p.sem = some ⟨1, name, []⟩)
    (hx : k.sems p.fullSem = some x) (alone : x.entering = []) (hi : slot p.currentW = .ok i) :
    Pipe.writePipe fuel m fd b k =
      .ok (.ret, giving p.fullSem x [] (storing p.sem node p i pid b k)) := by
  have one : (⟨1, name, []⟩ : SemT).value > 0 := Int.one_pos
  let k₁ := taking p.sem ⟨1, name, []⟩ pid false k
  let p' : PipeT := { p with
    buffer := Function.update p.buffer i b
    currentW := int32 (p.currentW + 1) }
  let k₂ := Kernel.log (Kernel.putPipe k₁ node p') (.wrote node b)
  have taken : k₂.sems p.sem = some ⟨0, name, []⟩ := Function.update_self _ _ _
  have same : giving p.sem ⟨0, name, []⟩ [] k₂ = storing p.sem node p i pid b k := by
    have h := mutex_restored free
    simp only [k₂, k₁, p', giving, taking, Kernel.log, Kernel.putPipe, Kernel.putSem, storing, h,
      List.append_assoc]
    rfl
  have post : semPost fuel p.sem k₂ = .ok (.ret, storing p.sem node p i pid b k) := by
    rw [← same]
    exact semPost_alone lock taken rfl
  have stored : (storing p.sem node p i pid b k).pipes node = some p' := Function.update_self _ _ _
  have posted : writePosted fuel node (storing p.sem node p i pid b k) =
      .ok (.ret, giving p.fullSem x [] (storing p.sem node p i pid b k)) := by
    rw [writePosted, load_of stored, ok_bind]
    exact semPost_alone lock hx alone
  have waited : writeWaited fuel node b k₁ =
      .ok (.ret, giving p.fullSem x [] (storing p.sem node p i pid b k)) := by
    have hp₁ : k₁.pipes node = some p := hp
    rw [writeWaited, load_of hp₁, ok_bind, hi, ok_bind]
    change andThen (semPost fuel p.sem k₂) _ _ = _
    rw [andThen, post, ok_bind]
    exact posted
  rw [Pipe.writePipe, search, ok_bind]
  change (deref (some node) >>= _) = _
  rw [deref_some, ok_bind, load_of hp, ok_bind, andThen, semWait_take lock free one hpid, ok_bind]
  exact waited

end

end BottlerOS.PipeCalls
