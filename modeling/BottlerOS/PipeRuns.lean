import BottlerOS.PipeCalls
import BottlerOS.SemSteps

/-! Steps of writers and readers of open pipes. All open pipes have one mutex, which
is free between two steps, and one semaphore that counts bytes; a reader that finds
no byte waits for one in its queue. -/

namespace BottlerOS.PipeRuns
open Machine Scheduler LinkedList ProcessList ProcessFields ProcessLinks Dispatch
open Semaphore SemCalls SemBooks SemRuns SemSteps Pipe PipeCalls Kernel

/-- Timer ticks, `quitCPU`, `writePipe`, `readPipe`, and what is left of them. -/
def Piping (_ : Kernel) : Action → Prop
  | .tick _ _ => True
  | .resume _ _ => True
  | .call .quitCPU _ _ => True
  | .call (.writePipe _ _ _) _ _ => True
  | .call (.readPipe _ _ _) _ _ => True
  | _ => False

/-- The pipe a search has found. -/
def found : C (Option Ptr × Option Ptr) → Option Ptr
  | .error _ => none
  | .ok (node, _) => node

/-- The pipe that a system call works on. -/
def target (k : Kernel) : Action → Option Ptr
  | .call (.writePipe _ fd _) _ _ => found (searchWPipe fd k)
  | .call (.readPipe _ _ fd) _ _ => found (searchRPipe fd k)
  | .call (.closePipe _ fd) _ _ => found (searchPipe fd k)
  | .resume _ _ => k.sched.currentProcess.bind fun c =>
      match k.frames c with
      | [.semWait _, .readFull node _] => some node
      | _ => none
  | _ => none

/-- Inside a `readPipe` that waits for a byte of an open pipe. -/
def Reader (k : Kernel) (full p : Ptr) : Prop :=
  ∃ node ∈ k.firstPipe, ∃ m, k.frames p = [.semWait full, .readFull node m]

/-- Kernel stacks of writers and readers. -/
def PipeStack (frames : List Frame) : Prop :=
  frames = [] ∨ frames = [.semPost] ∨ ∃ sem node m, frames = [.semWait sem, .readFull node m]

/-- Between two steps, with pipes open; `sem` is their mutex and `full` counts their bytes. -/
structure Base (k : Kernel) (nodes : List Ptr) (c : Ptr) (pending : Option (Ptr × Ptr))
    (sem full : Ptr) : Prop where
  steady : Steady k nodes c pending
  healthy : Healthy k nodes
  stacked : ∀ p ∈ nodes, PipeStack (k.frames p)
  apart : sem ≠ full
  free : Free k sem
  count : ∃ x, k.sems full = some x
  asleep : k.sched.firstSleep = []
  shared : ∀ node ∈ k.firstPipe, ∃ p, k.pipes node = some p ∧ p.sem = sem ∧ p.fullSem = full
  readers : ∀ p ∈ nodes, ∀ pid ∈ queue k full, pidOf k.sched p = some pid → Reader k full p
  handed : pending = none ∨ ∃ d, pending = some (d, full) ∧ Reader k full d

/-- What a step does to the pipes. -/
inductive Moved (k k' : Kernel) (c sem full : Ptr) :
    Action → Option (Ptr × Ptr) → Option (Ptr × Ptr) → Prop where
  | silent {a : Action} (ht : target k a = none) (trace : k'.trace = k.trace)
      (pipes : k'.pipes = k.pipes) (first : k'.firstPipe = k.firstPipe) (sems : k'.sems = k.sems)
      (list : k'.firstSem = k.firstSem) : Moved k k' c sem full a none none
  /-- A byte is stored, and no reader waits. -/
  | stored {m : Option Ptr} {fd b pid now : Int} {rsp i : Nat} {node : Ptr} {p : PipeT} {x : SemT}
      (ht : found (searchWPipe fd k) = some node) (hn : node ∈ k.firstPipe)
      (hp : k.pipes node = some p) (hx : k.sems full = some x) (hi : slot p.currentW = .ok i)
      (alone : x.entering = []) (hk : k' = giving full x [] (storing sem node p i pid b k)) :
      Moved k k' c sem full (.call (.writePipe m fd b) now rsp) none none
  /-- A byte is stored, and handed over to the first reader. -/
  | handed {m : Option Ptr} {fd b pid first now : Int} {rsp i : Nat} {node d : Ptr} {p : PipeT}
      {x : SemT} {rest : List Int}
      (ht : found (searchWPipe fd k) = some node) (hn : node ∈ k.firstPipe)
      (hp : k.pipes node = some p) (hx : k.sems full = some x) (hi : slot p.currentW = .ok i)
      (waiting : x.entering = first :: rest) (zero : x.value = 0)
      (hd : pidOf k.sched d = some first) (kept : pidOf k'.sched d = some first)
      (reader : Reader k full d) (frames : k'.frames d = k.frames d)
      (hk : k' = { giving full x rest (storing sem node p i pid b k) with
        sched := k'.sched, frames := k'.frames }) :
      Moved k k' c sem full (.call (.writePipe m fd b) now rsp) none (some (d, full))
  /-- A byte that is there is fetched. -/
  | fetched {m m' : Option Ptr} {fd pid now : Int} {rsp i : Nat} {node : Ptr} {p : PipeT} {x : SemT}
      (ht : found (searchRPipe fd k) = some node) (hn : node ∈ k.firstPipe)
      (hp : k.pipes node = some p) (hx : k.sems full = some x) (hi : slot p.currentR = .ok i)
      (pos : 0 < x.value) (hk : k' = fetching sem node p i pid (taking full x pid false k)) :
      Moved k k' c sem full (.call (.readPipe m m' fd) now rsp) none none
  /-- A reader that finds no byte waits. -/
  | queued {m m' : Option Ptr} {fd pid now : Int} {rsp : Nat} {node : Ptr} {x : SemT}
      (ht : found (searchRPipe fd k) = some node) (hn : node ∈ k.firstPipe)
      (hx : k.sems full = some x) (zero : x.value = 0)
      (hk : k' = { joining full x pid k with sched := k'.sched, frames := k'.frames }) :
      Moved k k' c sem full (.call (.readPipe m m' fd) now rsp) none none
  /-- A byte that was handed over is fetched. -/
  | resumed {m : Option Ptr} {pid now : Int} {rsp i : Nat} {node : Ptr} {p : PipeT} {x : SemT}
      (ht : target k (.resume now rsp) = some node) (hn : node ∈ k.firstPipe)
      (hp : k.pipes node = some p) (hx : k.sems full = some x) (hi : slot p.currentR = .ok i)
      (one : x.value = 1) (hpid : pidOf k.sched c = some pid)
      (frames : k.frames c = [.semWait full, .readFull node m])
      (hk : k' = fetching sem node p i pid (saved (taking full x pid true k) c [])) :
      Moved k k' c sem full (.resume now rsp) (some (c, full)) none

section
variable {k k' k₁ : Kernel} {nodes nodes' : List Ptr} {pending pending' : Option (Ptr × Ptr)}
  {node sem full c c' d : Ptr} {x : SemT} {pid now : Int} {s : Sched} {fuel rsp : Nat}
  {flow : Flow}

theorem Base.ends (h : Base k nodes c pending sem full) {p : PipeT} (hn : node ∈ k.firstPipe)
    (hp : k.pipes node = some p) : p.sem = sem ∧ p.fullSem = full := by
  obtain ⟨p', hp', hs, hf⟩ := h.shared node hn
  obtain rfl := Option.some.inj (hp.symm.trans hp')
  exact ⟨hs, hf⟩

theorem Base.freeAt (h : Base k nodes c pending sem full) :
    ∀ q ∈ k.firstPipe, ∀ p, k.pipes q = some p → Free k p.sem := by
  intro q hq p hp
  rw [(h.ends hq hp).1]
  exact h.free

theorem Base.apartAt (h : Base k nodes c pending sem full) :
    ∀ q ∈ k.firstPipe, ∀ p, k.pipes q = some p → p.sem ≠ p.fullSem := by
  intro q hq p hp
  rw [(h.ends hq hp).1, (h.ends hq hp).2]
  exact h.apart

theorem Moved.firstPipe {a : Action} (h : Moved k k' c sem full a pending pending') :
    k'.firstPipe = k.firstPipe := by
  cases h with
  | silent ht trace pipes first sems list => exact first
  | stored ht hn hp hx hi alone hk => rw [hk]; rfl
  | handed ht hn hp hx hi waiting zero hd kept reader frames hk => rw [hk]; rfl
  | fetched ht hn hp hx hi pos hk => rw [hk]; rfl
  | queued ht hn hx zero hk => rw [hk]; rfl
  | resumed ht hn hp hx hi one hpid frames hk => rw [hk]; rfl

theorem awake (h : k.sched.firstSleep = []) : SleepersOut k nodes pending now := by
  intro e he
  rw [h] at he
  cases he

theorem Reader.of_frames {p : Ptr} (h : Reader k full p) (first : k'.firstPipe = k.firstPipe)
    (frames : k'.frames p = k.frames p) : Reader k' full p := by
  obtain ⟨node, hn, m, hf⟩ := h
  exact ⟨node, first ▸ hn, m, frames.trans hf⟩

theorem Reader.waitsOn {p : Ptr} (h : Reader k full p) : waitsOn k p = some full := by
  obtain ⟨node, -, m, hf⟩ := h
  simp [SemBooks.waitsOn, hf]

/-- The pipes keep their semaphores, nobody else's frames change, and whoever is new in the queue
is a reader. -/
theorem Base.next (h : Base k nodes c pending sem full) (st : Steady k' nodes' c' pending')
    (healthy : Healthy k' nodes') (mem : ∀ p, p ∈ nodes' ↔ p ∈ nodes)
    (pids : ∀ p ∈ nodes, pidOf k'.sched p = pidOf k.sched p) (asleep : k'.sched.firstSleep = [])
    (first : k'.firstPipe = k.firstPipe)
    (frames : ∀ p, k'.frames p = k.frames p ∨ k'.frames p = [] ∨ k'.frames p = [.semPost] ∨
      Reader k' full p)
    (pipes : ∀ q ∈ k.firstPipe, ∀ p, k.pipes q = some p →
      ∃ p', k'.pipes q = some p' ∧ p'.sem = p.sem ∧ p'.fullSem = p.fullSem)
    (mutex : k'.sems sem = k.sems sem) (count : ∃ x, k'.sems full = some x)
    (entries : ∀ p ∈ nodes, ∀ pid ∈ queue k' full, pidOf k.sched p = some pid →
      pid ∈ queue k full ∨ Reader k' full p)
    (handed : pending' = none ∨ ∃ d, pending' = some (d, full) ∧ Reader k' full d) :
    Base k' nodes' c' pending' sem full where
  steady := st
  healthy := healthy
  stacked p hp := by
    rcases frames p with e | e | e | ⟨node, -, m, e⟩
    · exact e ▸ h.stacked p ((mem p).mp hp)
    · exact .inl e
    · exact .inr (.inl e)
    · exact .inr (.inr ⟨full, node, m, e⟩)
  apart := h.apart
  free := by
    obtain ⟨name, hs⟩ := h.free
    exact ⟨name, mutex.trans hs⟩
  count := count
  asleep := asleep
  shared q hq := by
    rw [first] at hq
    obtain ⟨p, hp, hs, hf⟩ := h.shared q hq
    obtain ⟨p', hp', hs', hf'⟩ := pipes q hq p hp
    exact ⟨p', hp', hs'.trans hs, hf'.trans hf⟩
  readers p hp i hi hpid := by
    have hn := (mem p).mp hp
    have hpid' := (pids p hn).symm.trans hpid
    rcases entries p hn i hi hpid' with hi' | r
    · -- whoever is still queued is still inside its `semWait`
      have hw := (st.books.queued full p ⟨hp, healthy.live p hp, i, hi, hpid⟩).1
      rcases frames p with e | e | e | r
      · exact (h.readers p hn i hi' hpid').of_frames first e
      · simp [SemBooks.waitsOn, e] at hw
      · simp [SemBooks.waitsOn, e] at hw
      · exact r
    · exact r
  handed := handed

/-- Nothing but the scheduler has moved. -/
structure Still (k : Kernel) (nodes : List Ptr) (k' : Kernel) (c' : Ptr) : Prop where
  steady : Steady k' nodes c' none
  healthy : Healthy k' nodes
  pids : ∀ p ∈ nodes, pidOf k'.sched p = pidOf k.sched p
  asleep : k'.sched.firstSleep = []
  kernel : k' = { k with sched := k'.sched }

theorem Base.still {a : Action} (h : Base k nodes c none sem full) (ht : target k a = none)
    (still : Still k nodes k' c') :
    Base k' nodes c' none sem full ∧ Moved k k' c sem full a none none := by
  have hk := still.kernel
  have trace : k'.trace = k.trace := by rw [hk]
  have pipes : k'.pipes = k.pipes := by rw [hk]
  have sems : k'.sems = k.sems := by rw [hk]
  refine ⟨h.next still.steady still.healthy (fun _ => Iff.rfl) still.pids still.asleep (by rw [hk])
    (fun p => .inl (by rw [hk])) (fun q _ p hp => ⟨p, pipes ▸ hp, rfl, rfl⟩) (by rw [sems])
    (sems ▸ h.count) (fun p _ i hi _ => .inl ?_) (.inl rfl),
    .silent ht trace pipes (by rw [hk]) sems (by rw [hk])⟩
  rwa [queue, sems] at hi

/-- A timer tick. -/
theorem tick_still (st : Steady k nodes c pending) (healthy : Healthy k nodes)
    (asleep : k.sched.firstSleep = []) (step : Step k (.tick now rsp) k') :
    pending = none ∧ ∃ c', Still k nodes k' c' := by
  obtain ⟨user, nodes', c', st', landed⟩ := tick_cases st (awake asleep) step
  obtain ⟨healthy', rfl⟩ := landed.healthy healthy
  exact ⟨st.nothing user, c', st', healthy', landed.pidOf,
    List.sublist_nil.mp (asleep ▸ landed.sleep), landed.kernel⟩

theorem quitCPU_still (st : Steady k nodes c none) (healthy : Healthy k nodes)
    (asleep : k.sched.firstSleep = []) (user : k.frames c = [])
    (run : invoke fuel k .quitCPU = .ok (flow, k₁))
    (run' : leave fuel now rsp c (flow, k₁) = .ok k') : ∃ c', Still k nodes k' c' := by
  obtain ⟨e, s, hq, ends, rfl⟩ := ofExit_cases run
  obtain ⟨res, sleep⟩ := quitCPU_running (st.running user) hq ends
  have asleep' : s.firstSleep = [] := sleep.trans asleep
  obtain ⟨nodes', c', st', landed⟩ := res.outcome.leave (awake asleep') run'
  obtain ⟨healthy', rfl⟩ := landed.healthy (res.healthy healthy)
  exact ⟨c', st', healthy', fun p hp => (landed.pidOf p hp).trans (res.pidOf p hp),
    List.sublist_nil.mp (asleep' ▸ landed.sleep), landed.kernel⟩

/-- A pipe keeps its semaphores when its ring moves on. -/
theorem update_ends {f : Ptr → Option PipeT} {p p' y : PipeT} {q : Ptr} (hp : f node = some p)
    (hy : f q = some y) (hs : p'.sem = p.sem := by rfl) (hf : p'.fullSem = p.fullSem := by rfl) :
    ∃ y', Function.update f node (some p') q = some y' ∧ y'.sem = y.sem ∧
      y'.fullSem = y.fullSem := by
  by_cases hq : q = node
  · subst hq
    obtain rfl := Option.some.inj (hp.symm.trans hy)
    exact ⟨p', Function.update_self _ _ _, hs, hf⟩
  · exact ⟨y, (Function.update_of_ne hq _ _).trans hy, rfl, rfl⟩

theorem writePipe_moved {m : Option Ptr} {fd b : Int} (h : Base k nodes c none sem full)
    (user : k.frames c = []) (busy : ¬ IsIdle k.sched c)
    (run : Pipe.writePipe fuel m fd b k = .ok (flow, k₁))
    (run' : leave fuel now rsp c (flow, k₁) = .ok k') :
    ∃ nodes' c' pending', Base k' nodes' c' pending' sem full ∧
      Moved k k' c sem full (.call (.writePipe m fd b) now rsp) none pending' := by
  obtain ⟨node, hn, prev, p, i, pid, hs, hp, hi, hpid, r, post⟩ :=
    writePipe_running (h.steady.running user) busy h.freeAt run
  obtain ⟨rfl, rfl⟩ := h.ends hn hp
  have healthy : Healthy (storing p.sem node p i pid b k) nodes :=
    h.healthy.same rfl fun q => List.Sublist.refl _
  have ht : found (searchWPipe fd k) = some node := by rw [hs]; rfl
  obtain ⟨x, hx, ⟨rest, -, rfl, rfl, alone, hrest, r₁⟩ |
      ⟨first, rest, d, s, hq, hv, rfl, hd, hfirst, hwd, -, rfl, t, -, sw⟩⟩ :=
    semPost_running r busy healthy.headLive post
  · obtain rfl := Except.ok.inj run'
    have empty := Healthy.alone healthy hx alone
    obtain rfl : rest = [] := by rw [hrest, empty, List.tail_nil]
    refine ⟨nodes, c, none, h.next r₁.steady (healthy.giving hx (List.nil_sublist _))
      (fun _ => Iff.rfl) (fun _ _ => rfl) h.asleep rfl (fun _ => .inl rfl)
      (fun q _ y hy => update_ends hp hy) (Function.update_of_ne h.apart _ _)
      ⟨_, Function.update_self _ _ _⟩ (fun q _ j hj _ => ?_) (.inl rfl),
      .stored ht hn hp hx hi empty rfl⟩
    rw [queue_giving, if_pos rfl] at hj
    cases hj
  · obtain ⟨nodes₁, mem, sw, hh⟩ := sw [] (by simp)
    have hx' : k.sems p.fullSem = some x := hx
    have reader : Reader k p.fullSem d := by
      refine h.readers d hd first ?_ hfirst
      rw [queue_of hx', hq]
      exact List.mem_cons_self
    have asleep : s.firstSleep = [] := t.sleep.trans h.asleep
    obtain ⟨nodes', c', st, landed, next⟩ := sw.timer (awake asleep) run'
    obtain rfl := (next d p.fullSem rfl).symm
    obtain ⟨hs, -, hf, -⟩ := Landed.tables landed
    obtain ⟨healthy', same⟩ := landed.healthy (hh healthy)
    subst same
    have hdc : d ≠ c := by
      rintro rfl
      rw [r.not_waiting] at hwd
      cases hwd
    have frames : ∀ y, y ≠ c → k'.frames y = k.frames y := fun y hy => by
      rw [hf]
      exact Function.update_of_ne hy _ _
    have reader' : Reader k' p.fullSem d := reader.of_frames (by rw [landed.kernel]; rfl)
      (frames d hdc)
    have hk : k' = { giving p.fullSem x rest (storing p.sem node p i pid b k) with
        sched := k'.sched, frames := k'.frames } := by rw [landed.kernel]
    have pids : ∀ y ∈ nodes, pidOf k'.sched y = pidOf k.sched y := fun y hy =>
      (landed.pidOf y ((mem y).mpr hy)).trans t.pidOf_eq
    refine ⟨nodes', d, _, h.next st healthy' mem pids
      (List.sublist_nil.mp (asleep ▸ landed.sleep)) (by rw [landed.kernel]; rfl) (fun y => ?_)
      (fun q _ y hy => ?_) ?_ ?_ (fun y _ j hj _ => .inl ?_) (.inr ⟨d, rfl, reader'⟩),
      .handed ht hn hp hx hi hq hv hfirst ((pids d hd).trans hfirst) reader (frames d hdc) hk⟩
    · by_cases hy : y = c
      · exact .inr (.inr (.inl (by rw [hf, hy]; exact Function.update_self _ _ _)))
      · exact .inl (frames y hy)
    · rw [landed.kernel]
      exact update_ends hp hy
    · rw [hs]
      exact Function.update_of_ne h.apart _ _
    · rw [hs]
      exact ⟨_, Function.update_self _ _ _⟩
    · have hj' :
          j ∈ queue (giving p.fullSem x rest (storing p.sem node p i pid b k)) p.fullSem := by
        rwa [queue, hs] at hj
      rw [queue_giving, if_pos rfl] at hj'
      rw [queue_of hx', hq]
      exact List.mem_cons_of_mem _ hj'

theorem readPipe_moved {m m' : Option Ptr} {fd : Int} (h : Base k nodes c none sem full)
    (user : k.frames c = []) (busy : ¬ IsIdle k.sched c)
    (run : Pipe.readPipe fuel m m' fd k = .ok (flow, k₁))
    (run' : leave fuel now rsp c (flow, k₁) = .ok k') :
    ∃ nodes' c', Base k' nodes' c' none sem full ∧
      Moved k k' c sem full (.call (.readPipe m m' fd) now rsp) none none := by
  obtain ⟨node, hn, prev, p, x, pid, hs, hp, hx, hpid, hcase⟩ :=
    readPipe_running (h.steady.running user) busy h.freeAt h.apartAt run
  obtain ⟨rfl, rfl⟩ := h.ends hn hp
  have ht : found (searchRPipe fd k) = some node := by rw [hs]; rfl
  rcases hcase with ⟨hv, rfl, i, hi, rfl, r⟩ | ⟨hv, rfl, s, rfl, t, sw, hh⟩
  · obtain rfl := Except.ok.inj run'
    have same : queue (taking p.fullSem x pid false k) = queue k := queue_taking false hx
    refine ⟨nodes, c, h.next r.steady (h.healthy.same rfl fun q => ?_) (fun _ => Iff.rfl)
      (fun _ _ => rfl) h.asleep rfl (fun _ => .inl rfl) (fun q _ y hy => update_ends hp hy)
      (Function.update_of_ne h.apart _ _) ⟨_, Function.update_self _ _ _⟩
      (fun q _ j hj _ => .inl (congrFun same _ ▸ hj)) (.inl rfl), .fetched ht hn hp hx hi hv rfl⟩
    rw [← same]
    exact List.Sublist.refl _
  · have asleep : s.firstSleep = [] := t.sleep.trans h.asleep
    obtain ⟨nodes', c', st, landed, -⟩ := sw.timer (awake asleep) run'
    obtain ⟨hs, -, hf, -⟩ := Landed.tables landed
    obtain ⟨healthy', same⟩ := landed.healthy (hh h.healthy)
    subst same
    have first : k'.firstPipe = k.firstPipe := by rw [landed.kernel]; rfl
    have hk : k' = { joining p.fullSem x pid k with sched := k'.sched, frames := k'.frames } := by
      rw [landed.kernel]
    have reader : Reader k' p.fullSem c := ⟨node, first ▸ hn, m', by rw [hf]; simp⟩
    refine ⟨nodes', c', h.next st healthy' (fun _ => Iff.rfl)
      (fun y hy => (landed.pidOf y hy).trans t.pidOf_eq)
      (List.sublist_nil.mp (asleep ▸ landed.sleep)) first (fun y => ?_)
      (fun q _ y hy => ⟨y, ?_, rfl, rfl⟩) ?_ ?_ (fun y hy j hj hpj => ?_) (.inl rfl),
      .queued ht hn hx hv hk⟩
    · by_cases hy : y = c
      · exact .inr (.inr (.inr (hy ▸ reader)))
      · exact .inl (by rw [hf]; exact Function.update_of_ne hy _ _)
    · rw [landed.kernel]
      exact hy
    · rw [hs]
      exact Function.update_of_ne h.apart _ _
    · rw [hs]
      exact ⟨_, Function.update_self _ _ _⟩
    · have hj' : j ∈ queue (joining p.fullSem x pid k) p.fullSem := by
        rwa [queue, hs] at hj
      rw [queue_joining hx, if_pos rfl] at hj'
      rcases List.mem_append.mp hj' with hj' | hj'
      · exact .inl hj'
      · right
        rw [List.mem_singleton] at hj'
        rwa [h.steady.books.listed.pid_inj hy h.steady.mem (hpj.trans (hj' ▸ hpid.symm))]

/-- The rest of a call: a post returns, or a reader fetches the byte that was handed to it. -/
theorem resume_moved (h : Base k nodes c pending sem full) (step : Step k (.resume now rsp) k') :
    Base k' nodes c none sem full ∧
      Moved k k' c sem full (.resume now rsp) pending none := by
  obtain ⟨en, fuel, run⟩ := step
  obtain ⟨r, hr⟩ := h.steady.record
  unfold Enabled at en
  rw [hr] at en
  obtain ⟨c', hc', run⟩ := bind_ok.mp run
  obtain rfl := Option.some.inj (h.steady.current.symm.trans (deref_ok.mp hc'))
  obtain ⟨⟨flow, k₁⟩, run, run'⟩ := bind_ok.mp run
  have busy : ¬ IsIdle k.sched c := fun idle => en (h.steady.books.idle c h.steady.mem idle)
  rcases h.stacked c h.steady.mem with frames | frames | ⟨sem', node, m, frames⟩
  · exact absurd frames en
  · rw [frames] at run
    obtain ⟨rfl, r₁, healthy, ⟨-, rfl, rfl⟩ | ⟨_, _, _, hf, -⟩⟩ :=
      runFrame_cases (f := .semPost) h.steady (fun h => h) frames run
    swap
    · cases hf
    obtain rfl := Except.ok.inj run'
    have silent : target k (.resume now rsp) = none := by
      simp [target, h.steady.current, frames]
    refine ⟨h.next r₁.steady (healthy h.healthy) (fun _ => Iff.rfl) (fun _ _ => rfl) h.asleep rfl
      (fun y => ?_) (fun q _ y hy => ⟨y, hy, rfl, rfl⟩) rfl h.count (fun _ _ _ hi _ => .inl hi)
      (.inl rfl), .silent silent rfl rfl rfl rfl rfl⟩
    by_cases hy : y = c
    · exact .inr (.inl (by simp [hy]))
    · exact .inl (Function.update_of_ne hy _ _)
  · have run₁ := run
    rw [frames] at run₁
    obtain ⟨⟨flow₁, k₂⟩, h₁, -⟩ := bind_ok.mp run₁
    obtain ⟨-, -, -, -, -, -, hpend, -⟩ := semWaitBlocked_running h.steady frames h₁
    obtain ⟨d, hd, node', hn, m', hf⟩ := h.handed.resolve_left (by simp [hpend])
    obtain ⟨rfl, rfl⟩ := Prod.mk.inj (Option.some.inj (hpend.symm.trans hd))
    simp only [frames, List.cons.injEq, Frame.readFull.injEq, and_true, true_and] at hf
    obtain ⟨rfl, rfl⟩ := hf
    obtain ⟨p, hp, rfl, rfl⟩ := h.shared node hn
    obtain ⟨rfl, x, pid, i, hx, one, -, hpid, hi, rfl, r₁⟩ :=
      readPipe_resumed h.steady busy frames hp h.apart h.free run
    obtain rfl := Except.ok.inj run'
    have work : target k (.resume now rsp) = some node := by
      simp [target, h.steady.current, frames]
    have same : queue (taking p.fullSem x pid true k) = queue k := queue_taking true hx
    rw [hpend]
    refine ⟨h.next r₁.steady (h.healthy.same rfl fun q => ?_) (fun _ => Iff.rfl) (fun _ _ => rfl)
      h.asleep rfl (fun y => ?_) (fun q _ y hy => update_ends hp hy)
      (Function.update_of_ne h.apart _ _) ⟨_, Function.update_self _ _ _⟩
      (fun q _ j hj _ => .inl (congrFun same _ ▸ hj)) (.inl rfl),
      .resumed work hn hp hx hi one hpid frames rfl⟩
    · rw [← same]
      exact List.Sublist.refl _
    · by_cases hy : y = c
      · exact .inr (.inl (by simp [fetching, hy]))
      · exact .inl (Function.update_of_ne hy _ _)

/-- One step. -/
theorem step_moved {a : Action} (h : Base k nodes c pending sem full) (allowed : Piping k a)
    (step : Step k a k') :
    ∃ nodes' c' pending', Base k' nodes' c' pending' sem full ∧
      Moved k k' c sem full a pending pending' := by
  cases a with
  | tick now rsp =>
    obtain ⟨rfl, c', still⟩ := tick_still h.steady h.healthy h.asleep step
    exact ⟨nodes, c', none, h.still rfl still⟩
  | key => exact allowed.elim
  | resume now rsp => exact ⟨nodes, c, none, resume_moved h step⟩
  | call call now rsp =>
    obtain ⟨busy, user, fuel, flow, k₁, run, run'⟩ := call_cases h.steady step
    obtain rfl := h.steady.nothing user
    cases call with
    | quitCPU =>
      obtain ⟨c', still⟩ := quitCPU_still h.steady h.healthy h.asleep user run run'
      exact ⟨nodes, c', none, h.still rfl still⟩
    | writePipe m fd b => exact writePipe_moved h user busy run run'
    | readPipe m m' fd =>
      obtain ⟨nodes', c', h', moved⟩ := readPipe_moved h user busy run run'
      exact ⟨nodes', c', none, h', moved⟩
    | enqueueProcess foreground fd m => exact allowed.elim
    | block pid => exact allowed.elim
    | unblock pid => exact allowed.elim
    | kill pid => exact allowed.elim
    | nice pid offset => exact allowed.elim
    | wait => exact allowed.elim
    | blockIo => exact allowed.elim
    | sleep now secs m => exact allowed.elim
    | semOpen name value m => exact allowed.elim
    | semWait m sem => exact allowed.elim
    | semPost sem => exact allowed.elim
    | semClose sem => exact allowed.elim
    | openPipe name m => exact allowed.elim
    | closePipe m fd => exact allowed.elim

end

end BottlerOS.PipeRuns
