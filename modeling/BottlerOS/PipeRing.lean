import BottlerOS.PipeOpens

/-! The ring of one open pipe. `readPipe` waits for a byte, and `writePipe` does not
wait for room: no unread byte is lost as long as nobody writes to a full ring. -/

namespace BottlerOS.PipeRing
open Machine Scheduler LinkedList ProcessList ProcessFields ProcessLinks Dispatch
open Semaphore SemCalls SemBooks SemRuns SemSteps Pipe PipeCalls PipeRuns PipeBytes PipeOpens Kernel

/-- Of the steps of writers and readers, those that write only where there is room. -/
def Roomy (k : Kernel) (a : Action) : Prop :=
  Piping k a ∧ match a with
    | .call (.writePipe _ _ _) _ _ => ∀ node, target k a = some node →
        (bytesIn node k.trace).length < (bytesOut node k.trace).length + CELLS
    | _ => True

/-- The ring holds every byte that has been written and not read. -/
def NoOverrun (k : Kernel) (node : Ptr) : Prop :=
  ∃ p, k.pipes node = some p ∧ p.currentW - p.currentR ≤ PIPE_MAX_SIZE ∧
    Ring.Holds CELLS p.buffer (bytesIn node k.trace) (bytesOut node k.trace).length

/-- The ring of a pipe that nobody has overrun. -/
structure Kept (k : Kernel) (node : Ptr) : Prop where
  room : (bytesIn node k.trace).length ≤ (bytesOut node k.trace).length + CELLS
  holds : ∀ p, k.pipes node = some p →
    Ring.Holds CELLS p.buffer (bytesIn node k.trace) (bytesOut node k.trace).length

/-- Between two steps, with one pipe open. -/
structure Single (k : Kernel) (nodes : List Ptr) (c : Ptr) (pending : Option (Ptr × Ptr))
    (node sem full : Ptr) : Prop where
  base : Base k nodes c pending sem full
  stock : Stock k full pending
  first : k.firstPipe = [node]

section
variable {k₀ k k' k₁ : Kernel} {nodes nodes' : List Ptr} {pending pending' : Option (Ptr × Ptr)}
  {node sem full c c' : Ptr} {x : SemT} {p : PipeT} {now : Int} {fuel rsp : Nat} {flow : Flow}
  {a : Action} {ins outs : List Int}

/-- Alone, a pipe does not get in the way of others. -/
theorem Single.apart (h : Single k nodes c pending node sem full)
    (moved : Moved k k' c sem full a pending pending') : Apart k a := by
  have lone : ∀ {q}, q ∈ k.firstPipe → k.firstPipe = [q] := by
    intro q hq
    rw [h.first, List.mem_singleton] at hq
    rw [hq, h.first]
  intro q hq
  left
  cases moved with
  | silent ht trace pipes first sems list =>
    rw [ht] at hq
    cases hq
  | stored ht hn hp hx hi alone hk => exact Option.some.inj (ht.symm.trans hq) ▸ lone hn
  | handed ht hn hp hx hi waiting zero hd kept reader frames hk =>
    exact Option.some.inj (ht.symm.trans hq) ▸ lone hn
  | fetched ht hn hp hx hi pos hk => exact Option.some.inj (ht.symm.trans hq) ▸ lone hn
  | queued ht hn hx zero hk => exact Option.some.inj (ht.symm.trans hq) ▸ lone hn
  | resumed ht hn hp hx hi one hpid frames hk =>
    exact Option.some.inj (ht.symm.trans hq) ▸ lone hn

theorem Single.step (h : Single k nodes c pending node sem full) (allowed : Piping k a)
    (step : Step k a k') :
    ∃ nodes' c' pending', Single k' nodes' c' pending' node sem full ∧
      Moved k k' c sem full a pending pending' := by
  obtain ⟨nodes', c', pending', base, moved⟩ := step_moved h.base allowed step
  exact ⟨nodes', c', pending', ⟨base, h.stock.moved h.base (h.apart moved) moved,
    moved.firstPipe.trans h.first⟩, moved⟩

/-- The first step opens the pipe. -/
theorem Single.opened {name : String} {m : PipeMallocs} (start : Unpiped k₀ nodes c)
    (step : Step k₀ (.call (.openPipe name m) now rsp) k₁) :
    ∃ node sem full, Single k₁ nodes c none node sem full ∧ k₁.trace = [.opened node] ∧
      queue k₁ full = [] := by
  obtain ⟨-, user, fuel, flow, k₂, run, run'⟩ := call_cases start.shut.steady step
  obtain ⟨⟨fds, k₃⟩, h₁, run₁⟩ := bind_ok.mp run
  obtain ⟨rfl, rfl⟩ := Prod.mk.inj (Except.ok.inj run₁)
  obtain rfl := Except.ok.inj run'
  obtain ⟨node, sem, full, base, stock, first, -, empty, trace⟩ := openPipe_first start.shut user h₁
  rw [start.quiet.trace] at trace
  exact ⟨node, sem, full, ⟨base, stock, first⟩, trace, empty⟩

theorem Kept.opened (trace : k.trace = [.opened node]) : Kept k node := by
  have ins : bytesIn node k.trace = [] := by rw [trace]; exact if_pos rfl
  have outs : bytesOut node k.trace = [] := by rw [trace]; exact if_pos rfl
  refine ⟨by simp [ins, outs], fun p _ => ?_⟩
  rw [ins, outs]
  exact Ring.Holds.nil

/-- A byte is written where there is room. -/
theorem Kept.store {i : Nat} {pid b : Int} {rest : List Int}
    (h : Kept k node) (filled : Filled p (bytesIn node k.trace) (bytesOut node k.trace))
    (hp : k.pipes node = some p) (hi : slot p.currentW = .ok i)
    (room : (bytesIn node k.trace).length < (bytesOut node k.trace).length + CELLS)
    (hk : k' = { giving full x rest (storing sem node p i pid b k) with
      sched := k'.sched, frames := k'.frames }) : Kept k' node := by
  obtain ⟨ins, outs⟩ := bytes_stored node (storing_trace hk)
  obtain ⟨rfl, -⟩ := filled.store hi (b := b)
  rw [if_pos rfl] at ins
  have ring : k'.pipes node = some { p with
      buffer := Function.update p.buffer ((bytesIn node k.trace).length % CELLS) b
      currentW := int32 (p.currentW + 1) } := by
    rw [hk]
    exact Function.update_self _ _ _
  refine ⟨by rw [ins, outs, List.length_append, List.length_singleton]; omega, fun y hy => ?_⟩
  obtain rfl := Option.some.inj (ring.symm.trans hy)
  rw [ins, outs]
  exact (h.holds p hp).push room

/-- A byte is read. -/
theorem Kept.fetch {i : Nat} {pid : Int} {waited : Bool}
    (h : Kept k node) (hp : k.pipes node = some p)
    (hk : k' = { fetching sem node p i pid (taking full x pid waited k) with
      frames := k'.frames }) : Kept k' node := by
  obtain ⟨ins, outs⟩ := bytes_fetched node (fetching_trace hk)
  rw [if_pos rfl] at outs
  have hroom := h.room
  have ring : k'.pipes node = some { p with currentR := int32 (p.currentR + 1) } := by
    rw [hk]
    exact Function.update_self _ _ _
  refine ⟨by rw [ins, outs, List.length_append]; omega, fun y hy => ?_⟩
  obtain rfl := Option.some.inj (ring.symm.trans hy)
  rw [ins, outs, List.length_append]
  exact (h.holds p hp).pop

theorem Kept.moved (h : Kept k node) (s : Single k nodes c pending node sem full)
    (roomy : Roomy k a) (moved : Moved k k' c sem full a pending pending') : Kept k' node := by
  have same : ∀ {q}, q ∈ k.firstPipe → q = node := by
    intro q hq
    rwa [s.first, List.mem_singleton] at hq
  cases moved with
  | silent ht trace pipes first sems list =>
    refine ⟨trace ▸ h.room, fun p hp => ?_⟩
    rw [trace]
    exact h.holds p (pipes ▸ hp)
  | stored ht hn hp hx hi alone hk =>
    obtain rfl := same hn
    exact h.store (s.stock.filled_at hn hp) hp hi (roomy.2 _ ht) (by rw [hk])
  | handed ht hn hp hx hi waiting zero hd kept reader frames hk =>
    obtain rfl := same hn
    exact h.store (s.stock.filled_at hn hp) hp hi (roomy.2 _ ht) hk
  | fetched ht hn hp hx hi pos hk =>
    obtain rfl := same hn
    exact h.fetch hp (by rw [hk])
  | resumed ht hn hp hx hi one hpid frames hk =>
    obtain rfl := same hn
    exact h.fetch hp (fetching_saved hk)
  | queued ht hn hx zero hk =>
    rename_i pid now rsp q x
    have trace : k'.trace = k.trace ++ [.queued full pid] := by rw [hk]; rfl
    obtain ⟨ins, outs⟩ := bytes_queued node trace
    refine ⟨by rw [ins, outs]; exact h.room, fun p hp => ?_⟩
    rw [ins, outs]
    refine h.holds p ?_
    rwa [hk] at hp

theorem run_single {name : String} {m : PipeMallocs} (start : Unpiped k₀ nodes c)
    (step : Step k₀ (.call (.openPipe name m) now rsp) k₁) (run : Run Roomy k₁ k) :
    ∃ nodes c pending node sem full, Single k nodes c pending node sem full ∧ Kept k node := by
  obtain ⟨node, sem, full, s, trace, -⟩ := Single.opened start step
  induction run with
  | refl => exact ⟨nodes, c, none, node, sem, full, s, .opened trace⟩
  | step _ allowed step ih =>
    obtain ⟨nodes, c, pending, node, sem, full, s, kept⟩ := ih
    obtain ⟨nodes', c', pending', s', moved⟩ := s.step allowed.1 step
    exact ⟨nodes', c', pending', node, sem, full, s', kept.moved s allowed moved⟩

/-- With no room but for unread bytes the indices are never further apart than the ring is long. -/
theorem Filled.distance (h : Filled p ins outs) (room : ins.length ≤ outs.length + CELLS) :
    p.currentW - p.currentR ≤ PIPE_MAX_SIZE := by
  have hw := h.words
  have hle := h.le
  rw [h.written, h.read]
  change ins.length ≤ outs.length + 1024 at room
  simp only [int32, PIPE_MAX_SIZE]
  omega

/-- As long as nobody writes to a full ring, no unread byte is overwritten. -/
theorem run_noOverrun {name : String} {m : PipeMallocs} (start : Unpiped k₀ nodes c)
    (step : Step k₀ (.call (.openPipe name m) now rsp) k₁) (run : Run Roomy k₁ k) :
    ∃ node, k.firstPipe = [node] ∧ NoOverrun k node := by
  obtain ⟨_, _, _, node, _, _, s, kept⟩ := run_single start step run
  obtain ⟨p, hp, filled⟩ := s.stock.filled node (by simp [s.first])
  exact ⟨node, s.first, p, hp, Filled.distance filled kept.room, kept.holds p hp⟩

end

theorem run_noOverrun_parlour : ∃ k₁ k, play 20 [.call (.openPipe "a" (pipeBlocks 0)) 0 0] parlour =
      some k₁ ∧ play 20 [.call (.writePipe none 3 7) 0 0] k₁ = some k ∧
    bytesIn 7000 k.trace = [7] ∧ ∃ node, k.firstPipe = [node] ∧ NoOverrun k node := by
  have h : (play 20 [.call (.openPipe "a" (pipeBlocks 0)) 0 0] parlour).bind (fun k₁ =>
      (play 20 [.call (.writePipe none 3 7) 0 0] k₁).map fun k =>
        ((target k₁ (.call (.writePipe none 3 7) 0 0), k₁.trace), bytesIn 7000 k.trace)) =
      some ((some 7000, [.opened 7000]), [7]) := by decide +kernel
  obtain ⟨k₁, h₁, h⟩ := Option.bind_eq_some_iff.mp h
  obtain ⟨k, h₂, h⟩ := Option.map_eq_some_iff.mp h
  obtain ⟨⟨ht, trace⟩, bytes⟩ := by simpa only [Prod.mk.injEq] using h
  refine ⟨k₁, k, h₁, h₂, bytes, run_noOverrun parlour_unpiped (play_step h₁)
    (.step .refl ?_ (play_step h₂))⟩
  refine ⟨trivial, fun node hnode => ?_⟩
  obtain rfl := Option.some.inj (ht.symm.trans hnode)
  rw [trace]
  decide

/-- A process that writes: nobody waits for a byte, and `n` have been written since the pipe was
opened. -/
structure Writing (k : Kernel) (node sem full : Ptr) (fd : Int) (n : Nat) : Prop where
  lock : k.semLock = 0
  current : ∃ c r, k.sched.current = .ok (c, r) ∧ r.pid ≠ IDLE_PID ∧ k.frames c = []
  first : k.firstPipe = [node]
  pipe : ∃ p, k.pipes node = some p ∧ p.fd1 = fd ∧ p.sem = sem ∧ p.fullSem = full ∧
    p.currentW = n ∧ p.currentR = 0
  free : Free k sem
  count : ∃ x, k.sems full = some x ∧ x.entering = []
  apart : sem ≠ full

section
variable {k : Kernel} {node sem full : Ptr} {fd : Int} {n : Nat}

/-- Nothing keeps it from writing one more. -/
theorem Writing.write (fuel : Nat) (m : Option Ptr) (b now : Int) (rsp : Nat)
    (h : Writing k node sem full fd n) (small : n < 2147483647) :
    ∃ k', exec fuel k (.call (.writePipe m fd b) now rsp) = .ok k' ∧
      Writing k' node sem full fd (n + 1) := by
  obtain ⟨c, r, hc, hr, user⟩ := h.current
  obtain ⟨hcur, hrec⟩ := current_ok.mp hc
  obtain ⟨p, hp, rfl, rfl, rfl, hw, hr0⟩ := h.pipe
  obtain ⟨name, free⟩ := h.free
  obtain ⟨x, hx, empty⟩ := h.count
  have pid : getPid k.sched = .ok r.pid := by simp [getPid, hcur, load_of hrec]
  have lock := h.lock
  have search : searchWPipe p.fd1 k = .ok (some node, none) := by
    simp [searchWPipe, h.first, searchBy, load_of hp, pure, Except.pure]
  have cell : slot p.currentW = .ok (n % CELLS) := by
    have tmod : (n : Int).tmod PIPE_MAX_SIZE = (n % CELLS : Nat) := rfl
    rw [hw, slot, tmod, if_pos (by omega)]
    rfl
  have run : Pipe.writePipe fuel m p.fd1 b k =
      .ok (.ret, giving p.fullSem x [] (storing p.sem node p (n % CELLS) r.pid b k)) :=
    writePipe_alone lock pid search hp free hx empty cell
  refine ⟨giving p.fullSem x [] (storing p.sem node p (n % CELLS) r.pid b k), ?_, lock,
    ⟨c, r, hc, hr, user⟩, h.first, ⟨_, Function.update_self _ _ _, rfl, rfl, rfl, ?_, hr0⟩,
    ⟨name, ?_⟩, ⟨_, Function.update_self _ _ _, rfl⟩, h.apart⟩
  · simp only [exec, hcur, deref_some, ok_bind, invoke, run]
    rfl
  · rw [hw]
    simp only [int32]
    omega
  · exact (Function.update_of_ne h.apart _ _).trans free

theorem Writing.writes (fuel : Nat) (m : Option Ptr) (b now : Int) (rsp j : Nat)
    (h : Writing k node sem full fd n) (small : n + j ≤ 2147483647) :
    ∃ k', play fuel (List.replicate j (.call (.writePipe m fd b) now rsp)) k = some k' ∧
      Writing k' node sem full fd (n + j) := by
  induction j generalizing k n with
  | zero => exact ⟨k, rfl, h⟩
  | succ j ih =>
    obtain ⟨k₁, run, h₁⟩ := h.write fuel m b now rsp (by omega)
    obtain ⟨k', rest, h'⟩ := ih h₁ (by omega)
    obtain ⟨c, r, hc, hr, user⟩ := h.current
    have en : Enabled k (.call (.writePipe m fd b) now rsp) := by
      unfold Enabled
      rw [hc]
      exact ⟨user, hr⟩
    rw [Nat.add_right_comm] at h'
    refine ⟨k', ?_, h'⟩
    rw [List.replicate_succ, play, if_pos en, run]
    exact rest

end

set_option synthInstance.maxSize 1024 in
/-- A process writes 1025 bytes, and nobody reads: the first one is lost. -/
theorem writes_overrun : ∃ b k₁ k, boot 20 0 0 777 (blocks 0) (blocks 1) = .ok b ∧
    play 20 [.tick 0 0, .call (.openPipe "a" (pipeBlocks 0)) 0 0] b = some k₁ ∧
    play 20 (List.replicate 1025 (.call (.writePipe none 3 7) 0 0)) k₁ = some k ∧
    Run Piping k₁ k ∧ ¬ ∃ node, k.firstPipe = [node] ∧ NoOverrun k node := by
  have h : ((boot 20 0 0 777 (blocks 0) (blocks 1)).toOption.bind (play 20 [.tick 0 0,
      .call (.openPipe "a" (pipeBlocks 0)) 0 0])).map (fun k => ((k.semLock,
        k.sched.current.toOption.map fun x => (x.1, x.2.pid, k.frames x.1)), (k.firstPipe,
        (k.pipes 7000).map fun p => (p.fd1, p.sem, p.fullSem, p.currentW, p.currentR)),
        (k.sems 7003, k.sems 7006))) =
      some ((0, some (1101, 2, [])), ([7000], some (3, 7003, 7006, 0, 0)),
        (some ⟨1, "Pipes", []⟩, some ⟨0, "FullSem", []⟩)) := by decide +kernel
  obtain ⟨b, k₁, hb, h₁, hv⟩ := boot_play h
  simp only [Prod.mk.injEq] at hv
  obtain ⟨⟨lock, current⟩, ⟨first, pipe⟩, mutex, count⟩ := hv
  obtain ⟨p, hp, fields⟩ := Option.map_eq_some_iff.mp pipe
  simp only [Prod.mk.injEq] at fields
  have writing : Writing k₁ 7000 7003 7006 3 0 := by
    refine ⟨lock, ?_, first, ⟨p, hp, fields⟩, ⟨_, mutex⟩, ⟨_, count, rfl⟩, by decide⟩
    generalize k₁.sched.current = x at current
    cases x with
    | error e => cases current
    | ok x =>
      obtain ⟨c, r⟩ := x
      simp only [Except.toOption, Option.map_some, Option.some.injEq, Prod.mk.injEq] at current
      obtain ⟨rfl, pid, user⟩ := current
      exact ⟨_, r, rfl, by rw [pid]; decide, user⟩
  obtain ⟨k, hk, h'⟩ := writing.writes 20 none 7 0 0 1025 (by decide)
  refine ⟨b, k₁, k, hb, h₁, hk, play_run (fun k a ha => ?_) .refl hk, ?_⟩
  · rw [List.eq_of_mem_replicate ha]
    trivial
  · rintro ⟨node, hnode, q, hq, distance, -⟩
    rw [h'.first, List.singleton_inj] at hnode
    subst hnode
    obtain ⟨q', hq', -, -, -, hw, hr⟩ := h'.pipe
    obtain rfl := Option.some.inj (hq.symm.trans hq')
    rw [hw, hr] at distance
    exact absurd distance (by decide)

end BottlerOS.PipeRing
