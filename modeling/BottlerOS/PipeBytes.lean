import BottlerOS.Library.Ring
import BottlerOS.PipeRuns

/-! The bytes of the pipes. What has been written to a pipe and read from it since
it was opened gives its two indices; what it counts gives the unread ones, as long
as no other pipe with the same semaphores is in use. -/

namespace BottlerOS.PipeBytes
open Machine Scheduler LinkedList ProcessList ProcessFields ProcessLinks Dispatch
open Semaphore SemCalls SemBooks SemRuns SemSteps Pipe PipeCalls PipeRuns Kernel

def addIn (node : Ptr) (xs : List Int) : Event → List Int
  | .opened q => if q = node then [] else xs
  | .wrote q b => if q = node then xs ++ [b] else xs
  | _ => xs

def addOut (node : Ptr) (xs : List Int) : Event → List Int
  | .opened q => if q = node then [] else xs
  | .fetched q _ b => if q = node then xs ++ [b] else xs
  | _ => xs

/-- The bytes written to the pipe since it was opened. -/
def bytesIn (node : Ptr) (trace : List Event) : List Int := trace.foldl (addIn node) []

/-- The bytes read from the pipe since it was opened. -/
def bytesOut (node : Ptr) (trace : List Event) : List Int := trace.foldl (addOut node) []

/-- The cells of a ring. -/
abbrev CELLS : Nat := PIPE_MAX_SIZE.toNat

/-- The ring of a pipe that `ins` have been written to and `outs` read from. -/
structure Filled (p : PipeT) (ins outs : List Int) : Prop where
  written : p.currentW = int32 ins.length
  read : p.currentR = int32 outs.length
  words : ins.length ≤ 2147483649
  le : outs.length ≤ ins.length
  cells : Ring.Written CELLS p.buffer ins

/-- The first reader in the queue of the pipe's bytes reads this pipe. -/
def HeadReads (k : Kernel) (node : Ptr) : Prop :=
  ∃ p x first rest, k.pipes node = some p ∧ k.sems p.fullSem = some x ∧
    x.entering = first :: rest ∧ ∀ d, pidOf k.sched d = some first →
      ∃ m, k.frames d = [.semWait p.fullSem, .readFull node m]

/-- The semaphore of the pipe's bytes has no unit. -/
def NoUnit (k : Kernel) (node : Ptr) : Prop :=
  ∃ p x, k.pipes node = some p ∧ k.sems p.fullSem = some x ∧ x.value = 0

/-- The pipe that is worked on is the only one open; or nothing is done that the others could
notice. -/
def Apart (k : Kernel) (a : Action) : Prop :=
  ∀ node, target k a = some node → k.firstPipe = [node] ∨ match a with
    | .call (.writePipe _ _ _) _ _ => HeadReads k node
    | .call (.readPipe _ _ _) _ _ => NoUnit k node
    | .call (.closePipe _ _) _ _ => False
    | _ => True

/-- The rings of the open pipes. -/
structure Stock (k : Kernel) (full : Ptr) (pending : Option (Ptr × Ptr)) : Prop where
  filled : ∀ q ∈ k.firstPipe, ∃ p, k.pipes q = some p ∧
    Filled p (bytesIn q k.trace) (bytesOut q k.trace)
  single : ∀ q, k.firstPipe = [q] → ∀ x, k.sems full = some x →
    x.value = (bytesIn q k.trace).length - (bytesOut q k.trace).length
  owed : ∀ d q m, pending = some (d, full) → k.frames d = [.semWait full, .readFull q m] →
    (bytesOut q k.trace).length < (bytesIn q k.trace).length

section
variable {k k' k₁ : Kernel} {nodes nodes' : List Ptr} {pending pending' : Option (Ptr × Ptr)}
  {node sem full c c' d q : Ptr} {x : SemT} {pid b : Int} {fuel i n : Nat} {flow : Flow} {p : PipeT}
  {ins outs rest : List Int}

theorem Stock.filled_at (st : Stock k full pending) (hq : q ∈ k.firstPipe)
    (hp : k.pipes q = some p) : Filled p (bytesIn q k.trace) (bytesOut q k.trace) := by
  obtain ⟨p', hp', filled⟩ := st.filled q hq
  obtain rfl := Option.some.inj (hp.symm.trans hp')
  exact filled

theorem slot_int32 (h : slot (int32 n) = .ok i) (small : n ≤ 2147483649) :
    n ≤ 2147483648 ∧ i = n % CELLS := by
  unfold slot at h
  split at h <;> rename_i hs
  swap
  · cases h
  obtain rfl := Except.ok.inj h
  have split : n < 2147483648 ∨ n = 2147483648 ∨ n = 2147483649 := by omega
  rcases split with low | rfl | rfl
  · rw [int32_of_range (by omega) (by simp only [INT_MAX]; omega),
      Int.tmod_eq_emod_of_nonneg (by omega)]
    change n ≤ 2147483648 ∧ ((n : Int) % 1024).toNat = n % 1024
    omega
  · exact ⟨Nat.le_refl _, by decide⟩
  · exact absurd hs (by decide)

theorem int32_next : int32 (int32 n + 1) = int32 ((n + 1 : Nat) : Int) := by
  simp only [int32]
  omega

theorem Filled.empty (hw : p.currentW = 0) (hr : p.currentR = 0) : Filled p [] [] :=
  ⟨hw.trans (by decide), hr.trans (by decide), by simp, Nat.le_refl _, Ring.Written.nil⟩

theorem Filled.store (h : Filled p ins outs) (hi : slot p.currentW = .ok i) :
    i = ins.length % CELLS ∧ Filled { p with
      buffer := Function.update p.buffer i b
      currentW := int32 (p.currentW + 1) } (ins ++ [b]) outs := by
  rw [h.written] at hi ⊢
  obtain ⟨small, rfl⟩ := slot_int32 hi h.words
  refine ⟨rfl, ?_, h.read, ?_, ?_, h.cells.push⟩
  · rw [int32_next, List.length_append, List.length_singleton]
  · rw [List.length_append, List.length_singleton]
    omega
  · have := h.le
    rw [List.length_append]
    omega

/-- What is fetched was written. -/
theorem Filled.fetch (h : Filled p ins outs) (left : outs.length < ins.length)
    (hi : slot p.currentR = .ok i) :
    i = outs.length % CELLS ∧ p.buffer i ∈ ins ∧
      Filled { p with currentR := int32 (p.currentR + 1) } ins (outs ++ [p.buffer i]) := by
  have hw := h.words
  rw [h.read] at hi ⊢
  obtain ⟨-, rfl⟩ := slot_int32 hi (by omega)
  refine ⟨rfl, h.cells.next (by decide) left, h.written, ?_, hw, ?_, h.cells⟩
  · rw [int32_next, List.length_append, List.length_singleton]
  · rw [List.length_append, List.length_singleton]
    omega

theorem bytesIn_append (trace es : List Event) :
    bytesIn q (trace ++ es) = es.foldl (addIn q) (bytesIn q trace) := List.foldl_append

theorem bytesOut_append (trace es : List Event) :
    bytesOut q (trace ++ es) = es.foldl (addOut q) (bytesOut q trace) := List.foldl_append

/-- What `writePipe` leaves in the trace. -/
def storedTrace (sem full node : Ptr) (pid b : Int) : List Event :=
  [.taken sem pid 1 false, .wrote node b, .posted sem, .posted full]

/-- What `readPipe` leaves in the trace, from its unit on. -/
def fetchedTrace (sem full node : Ptr) (pid v b : Int) (waited : Bool) : List Event :=
  [.taken full pid v waited, .taken sem pid 1 false, .fetched node pid b, .posted sem]

theorem storing_trace (hk : k' = { giving full x rest (storing sem node p i pid b k) with
    sched := k'.sched, frames := k'.frames }) :
    k'.trace = k.trace ++ storedTrace sem full node pid b := by
  rw [hk]
  exact List.append_assoc _ _ _

theorem fetching_trace {waited : Bool}
    (hk : k' = { fetching sem node p i pid (taking full x pid waited k) with
      frames := k'.frames }) :
    k'.trace = k.trace ++ fetchedTrace sem full node pid x.value (p.buffer i) waited := by
  rw [hk]
  exact List.append_assoc _ _ _

/-- A reader that had to wait has its frames taken off as well. -/
theorem fetching_saved {waited : Bool}
    (hk : k' = fetching sem node p i pid (saved (taking full x pid waited k) c [])) :
    k' = { fetching sem node p i pid (taking full x pid waited k) with frames := k'.frames } := by
  rw [hk]
  rfl

theorem bytes_stored (q : Ptr) (trace : k'.trace = k.trace ++ storedTrace sem full node pid b) :
    bytesIn q k'.trace = (if node = q then bytesIn q k.trace ++ [b] else bytesIn q k.trace) ∧
      bytesOut q k'.trace = bytesOut q k.trace := by
  constructor <;> rw [trace] <;> simp only [bytesIn_append, bytesOut_append] <;> rfl

theorem bytes_fetched (q : Ptr) {v : Int} {waited : Bool}
    (trace : k'.trace = k.trace ++ fetchedTrace sem full node pid v b waited) :
    bytesIn q k'.trace = bytesIn q k.trace ∧ bytesOut q k'.trace =
      if node = q then bytesOut q k.trace ++ [b] else bytesOut q k.trace := by
  constructor <;> rw [trace] <;> simp only [bytesIn_append, bytesOut_append] <;> rfl

/-- What a reader that waits leaves in the trace. -/
theorem bytes_queued (q : Ptr) (trace : k'.trace = k.trace ++ [.queued full pid]) :
    bytesIn q k'.trace = bytesIn q k.trace ∧ bytesOut q k'.trace = bytesOut q k.trace := by
  constructor <;> rw [trace] <;> simp only [bytesIn_append, bytesOut_append] <;> rfl

/-- One pipe moves on, and the others stay. -/
theorem Stock.put {p' : PipeT} (st : Stock k full pending) (hn : node ∈ k.firstPipe)
    (first : k'.firstPipe = k.firstPipe) (pipes : k'.pipes = Function.update k.pipes node (some p'))
    (other : ∀ q, node ≠ q → bytesIn q k'.trace = bytesIn q k.trace ∧
      bytesOut q k'.trace = bytesOut q k.trace)
    (filled : Filled p' (bytesIn node k'.trace) (bytesOut node k'.trace))
    (single : k.firstPipe = [node] → ∀ x, k'.sems full = some x →
      x.value = (bytesIn node k'.trace).length - (bytesOut node k'.trace).length)
    (owed : ∀ d q m, pending' = some (d, full) → k'.frames d = [.semWait full, .readFull q m] →
      (bytesOut q k'.trace).length < (bytesIn q k'.trace).length) : Stock k' full pending' where
  filled q hq := by
    by_cases he : node = q
    · subst he
      exact ⟨p', by rw [pipes, Function.update_self], filled⟩
    · obtain ⟨y, hy, hf⟩ := st.filled q (first ▸ hq)
      rw [(other q he).1, (other q he).2, pipes, Function.update_of_ne (Ne.symm he)]
      exact ⟨y, hy, hf⟩
  single q hq := by
    rw [first] at hq
    rw [hq, List.mem_singleton] at hn
    subst hn
    exact single hq
  owed := owed

/-- A byte is written. -/
theorem Stock.store (st : Stock k full none) (hn : node ∈ k.firstPipe)
    (hp : k.pipes node = some p) (hx : k.sems full = some x) (hi : slot p.currentW = .ok i)
    (hk : k' = { giving full x rest (storing sem node p i pid b k) with
      sched := k'.sched, frames := k'.frames })
    (owed : ∀ d q m, pending' = some (d, full) → k'.frames d = [.semWait full, .readFull q m] →
      q = node) : Stock k' full pending' := by
  have filled := st.filled_at hn hp
  have hle := filled.le
  have bytes := fun q => bytes_stored q (storing_trace hk)
  have value : ∀ y, k'.sems full = some y → y.value = uint32 (x.value + 1) := by
    intro y hy
    rw [hk] at hy
    simp only [giving, putSem_sems, if_true, Option.some.injEq] at hy
    rw [← hy]
  refine st.put hn (by rw [hk]; rfl) (by rw [hk]; rfl) (fun q hq => ?_) ?_ (fun lone y hy => ?_)
    fun d q m hd hf => ?_
  · rw [(bytes q).1, (bytes q).2, if_neg hq]
    exact ⟨rfl, rfl⟩
  · rw [(bytes node).1, (bytes node).2, if_pos rfl]
    exact (filled.store hi).2
  · have hv := st.single node lone x hx
    have hw := filled.words
    rw [(bytes node).1, (bytes node).2, if_pos rfl, value y hy, List.length_append,
      List.length_singleton, hv, uint32_of_range (by omega) (by omega)]
    omega
  · obtain rfl := owed d q m hd hf
    rw [(bytes q).1, (bytes q).2, if_pos rfl, List.length_append, List.length_singleton]
    omega

/-- A byte that is there is read. -/
theorem Stock.fetch {waited : Bool} (st : Stock k full pending) (hn : node ∈ k.firstPipe)
    (hp : k.pipes node = some p) (hx : k.sems full = some x) (hi : slot p.currentR = .ok i)
    (left : (bytesOut node k.trace).length < (bytesIn node k.trace).length)
    (hk : k' = { fetching sem node p i pid (taking full x pid waited k) with
      frames := k'.frames }) :
    Stock k' full none := by
  have filled := st.filled_at hn hp
  have bytes := fun q => bytes_fetched q (fetching_trace hk)
  have value : ∀ y, k'.sems full = some y → y.value = uint32 (x.value - 1) := by
    intro y hy
    rw [hk] at hy
    simp only [fetching, taking, log_sems, putSem_sems, if_true, Option.some.injEq] at hy
    rw [← hy]
  refine st.put hn (by rw [hk]; rfl) (by rw [hk]; rfl) (fun q hq => ?_) ?_ (fun lone y hy => ?_)
    fun d q m hd => by cases hd
  · rw [(bytes q).1, (bytes q).2, if_neg hq]
    exact ⟨rfl, rfl⟩
  · rw [(bytes node).1, (bytes node).2, if_pos rfl]
    exact (filled.fetch left hi).2.2
  · have hv := st.single node lone x hx
    have hw := filled.words
    rw [(bytes node).1, (bytes node).2, if_pos rfl, value y hy, List.length_append,
      List.length_singleton, hv, uint32_of_range (by omega) (by omega)]
    omega

/-- A counted byte is there when no other pipe is open. -/
theorem Stock.unread {m m' : Option Ptr} {fd now : Int} {rsp : Nat}
    (st : Stock k full pending) (h : Base k nodes c pending sem full)
    (apart : Apart k (.call (.readPipe m m' fd) now rsp))
    (ht : found (searchRPipe fd k) = some node) (hn : node ∈ k.firstPipe)
    (hp : k.pipes node = some p) (hx : k.sems full = some x) (pos : 0 < x.value) :
    k.firstPipe = [node] ∧ (bytesOut node k.trace).length < (bytesIn node k.trace).length := by
  have lone : k.firstPipe = [node] := by
    refine (apart node ht).resolve_right ?_
    rintro ⟨p', x', hp', hx', hzero⟩
    obtain rfl := Option.some.inj (hp.symm.trans hp')
    rw [(h.ends hn hp).2, hx] at hx'
    obtain rfl := Option.some.inj hx'
    omega
  have hv := st.single node lone x hx
  exact ⟨lone, by omega⟩

/-- One step, by a process that does not touch what other open pipes share. -/
theorem Stock.moved {a : Action} (st : Stock k full pending) (h : Base k nodes c pending sem full)
    (apart : Apart k a) (moved : Moved k k' c sem full a pending pending') :
    Stock k' full pending' := by
  cases moved with
  | silent ht trace pipes first sems list =>
    refine ⟨fun q hq => ?_, fun q hq x hx => ?_, fun d q m hd => by cases hd⟩
    · rw [trace, pipes]
      exact st.filled q (first ▸ hq)
    · rw [trace]
      exact st.single q (first ▸ hq) x (sems ▸ hx)
  | stored ht hn hp hx hi alone hk =>
    exact st.store hn hp hx hi (by rw [hk]) (fun d q m hd => by cases hd)
  | handed ht hn hp hx hi waiting zero hd kept reader frames hk =>
    rename_i first node d p x rest
    refine st.store hn hp hx hi hk fun d' q m hd' hf => ?_
    -- whoever gets the byte reads the pipe it was written to
    obtain ⟨rfl, -⟩ := Prod.mk.inj (Option.some.inj hd')
    rw [frames] at hf
    rcases apart node ht with lone | ⟨p', x', first', rest', hp', hx', hq', reads⟩
    · obtain ⟨q', hq', m', hf'⟩ := reader
      rw [lone, List.mem_singleton] at hq'
      rw [hf] at hf'
      simp only [List.cons.injEq, Frame.readFull.injEq] at hf'
      exact hf'.2.1.1.trans hq'
    · obtain rfl := Option.some.inj (hp.symm.trans hp')
      rw [(h.ends hn hp).2, hx] at hx'
      obtain rfl := Option.some.inj hx'
      obtain ⟨rfl, rfl⟩ := List.cons.inj (waiting.symm.trans hq')
      obtain ⟨m', hf'⟩ := reads d hd
      rw [hf] at hf'
      simp only [List.cons.injEq, Frame.readFull.injEq] at hf'
      exact hf'.2.1.1
  | fetched ht hn hp hx hi pos hk =>
    exact st.fetch hn hp hx hi (st.unread h apart ht hn hp hx pos).2 (by rw [hk])
  | resumed ht hn hp hx hi one hpid frames hk =>
    exact st.fetch hn hp hx hi (st.owed c _ _ rfl frames) (fetching_saved hk)
  | queued ht hn hx zero hk =>
    rename_i pid now rsp node x
    have trace : k'.trace = k.trace ++ [.queued full pid] := by rw [hk]; rfl
    have bytes := fun q => bytes_queued q trace
    have pipes : k'.pipes = k.pipes := by rw [hk]; rfl
    have first : k'.firstPipe = k.firstPipe := by rw [hk]; rfl
    refine ⟨fun q hq => ?_, fun q hq y hy => ?_, fun d q m hd => by cases hd⟩
    · rw [(bytes q).1, (bytes q).2, pipes]
      exact st.filled q (first ▸ hq)
    · have hy' : y.value = x.value := by
        rw [hk] at hy
        simp only [joining, log_sems, putSem_sems, if_true, Option.some.injEq] at hy
        rw [← hy]
      rw [(bytes q).1, (bytes q).2, hy']
      exact st.single q (first ▸ hq) x hx

/-- Every byte is fetched as `P` says, of what was written to its pipe and what was read. -/
def Fetches (P : List Int → List Int → Int → Prop) (trace : List Event) : Prop :=
  ∀ pre node pid b post, trace = pre ++ .fetched node pid b :: post →
    P (bytesIn node pre) (bytesOut node pre) b

theorem Fetches.append {P : List Int → List Int → Int → Prop} {trace es : List Event}
    (h : Fetches P trace) (he : ∀ pre node pid b post, es = pre ++ .fetched node pid b :: post →
      P (bytesIn node (trace ++ pre)) (bytesOut node (trace ++ pre)) b) :
    Fetches P (trace ++ es) := by
  intro pre node pid b post hsplit
  rcases List.append_eq_append_iff.mp hsplit with ⟨mid, rfl, hes⟩ | ⟨mid, htrace, hes⟩
  · exact he mid node pid b post hes
  · cases mid with
    | nil =>
      rw [List.append_nil] at htrace
      subst htrace
      have := he [] node pid b post hes.symm
      rwa [List.append_nil] at this
    | cons e mid =>
      obtain ⟨rfl, -⟩ := List.cons.inj hes
      exact h pre node pid b mid htrace

/-- Nothing is fetched. -/
theorem Fetches.quiet {P : List Int → List Int → Int → Prop} {trace es : List Event}
    (h : Fetches P trace) (none : ∀ node pid b, .fetched node pid b ∉ es) :
    Fetches P (trace ++ es) :=
  h.append fun pre node pid b post he => absurd (by rw [he]; simp) (none node pid b)

theorem Fetches.one {P : List Int → List Int → Int → Prop} {trace : List Event}
    (h : Fetches P trace) (hb : P (bytesIn node trace) (bytesOut node trace) b) :
    Fetches P (trace ++ [.fetched node pid b]) := by
  refine h.append fun pre q i b' post he => ?_
  cases pre with
  | nil =>
    obtain ⟨h₁, -⟩ := List.cons.inj he
    obtain ⟨rfl, rfl, rfl⟩ := Event.fetched.inj h₁
    rwa [List.append_nil]
  | cons e pre =>
    obtain ⟨-, h₁⟩ := List.cons.inj he
    simp at h₁

/-- One step: what it fetches is the next cell of a pipe with an unread byte. -/
theorem Fetches.moved {P : List Int → List Int → Int → Prop} {a : Action}
    (h : Fetches P k.trace) (st : Stock k full pending) (base : Base k nodes c pending sem full)
    (apart : Apart k a) (moved : Moved k k' c sem full a pending pending')
    (next : ∀ node ∈ k.firstPipe, ∀ p i, k.pipes node = some p → slot p.currentR = .ok i →
      (bytesOut node k.trace).length < (bytesIn node k.trace).length →
      P (bytesIn node k.trace) (bytesOut node k.trace) (p.buffer i)) :
    Fetches P k'.trace := by
  have fetch : ∀ {node p i pid v waited}, node ∈ k.firstPipe → k.pipes node = some p →
      slot p.currentR = .ok i →
      (bytesOut node k.trace).length < (bytesIn node k.trace).length →
      Fetches P (k.trace ++ fetchedTrace sem full node pid v (p.buffer i) waited) := by
    intro node p i pid v waited hn hp hi left
    have before : Fetches P (k.trace ++
        [Event.taken full pid v waited, Event.taken sem pid 1 false]) := h.quiet (by simp)
    have now : P _ _ _ := next node hn p i hp hi left
    have cut : k.trace ++ fetchedTrace sem full node pid v (p.buffer i) waited =
        k.trace ++ [Event.taken full pid v waited, Event.taken sem pid 1 false] ++
          [Event.fetched node pid (p.buffer i)] ++ [Event.posted sem] := by
      simp [fetchedTrace]
    rw [cut]
    refine (before.one ?_).quiet (by simp)
    rw [bytesIn_append, bytesOut_append]
    exact now
  cases moved with
  | silent ht trace pipes first sems list =>
    rw [trace]
    exact h
  | stored ht hn hp hx hi alone hk =>
    rw [storing_trace (by rw [hk])]
    exact h.quiet (by simp [storedTrace])
  | handed ht hn hp hx hi waiting zero hd kept reader frames hk =>
    rw [storing_trace hk]
    exact h.quiet (by simp [storedTrace])
  | fetched ht hn hp hx hi pos hk =>
    rw [fetching_trace (by rw [hk])]
    exact fetch hn hp hi (st.unread base apart ht hn hp hx pos).2
  | resumed ht hn hp hx hi one hpid frames hk =>
    rw [fetching_trace (fetching_saved hk)]
    exact fetch hn hp hi (st.owed c _ _ rfl frames)
  | queued ht hn hx zero hk =>
    rw [hk]
    change Fetches P (k.trace ++ _)
    exact h.quiet (by simp)

end

end BottlerOS.PipeBytes
