import BottlerOS.PipeRing

/-! The order of bytes and readers at one open pipe. The bytes read are the first
ones written, and readers that wait get theirs in the order they came. -/

namespace BottlerOS.PipeOrder
open Machine Scheduler LinkedList ProcessList ProcessFields ProcessLinks Dispatch
open Semaphore SemCalls SemBooks SemRuns SemSteps Pipe PipeCalls PipeRuns PipeBytes PipeOpens
open PipeRing Kernel

/-- The readers that have waited for a byte, in the order they came. -/
def arrivals (full : Ptr) (trace : List Event) : List Int :=
  trace.filterMap fun
    | .queued q pid => if q = full then some pid else none
    | _ => none

/-- Those of them that have got one, in the order they got it. -/
def served (full : Ptr) (trace : List Event) : List Int :=
  trace.filterMap fun
    | .taken q pid _ true => if q = full then some pid else none
    | _ => none

/-- Whoever has got a byte, in order. -/
def takers (full : Ptr) (trace : List Event) : List Int :=
  trace.filterMap fun
    | .taken q pid _ _ => if q = full then some pid else none
    | _ => none

/-- Whoever has read a byte of the pipe, in order. -/
def fetchers (node : Ptr) (trace : List Event) : List Int :=
  trace.filterMap fun
    | .fetched q pid _ => if q = node then some pid else none
    | _ => none

/-- The first byte written and not read. -/
def Next (ins outs : List Int) (b : Int) : Prop := ∃ rest, ins = outs ++ b :: rest

/-- First in, first out, of bytes and of readers. -/
structure Fifo (k : Kernel) (node full : Ptr) : Prop where
  bytes : bytesOut node k.trace <+: bytesIn node k.trace
  there : Fetches Next k.trace
  readers : takers full k.trace = fetchers node k.trace
  waiters : served full k.trace <+: arrivals full k.trace

/-- Between two steps: who has waited and not been served is in the queue, or is handed a byte. -/
structure Ordered (k : Kernel) (pending : Option (Ptr × Ptr)) (node full : Ptr) : Prop where
  bytes : bytesOut node k.trace <+: bytesIn node k.trace
  there : Fetches Next k.trace
  readers : takers full k.trace = fetchers node k.trace
  idle : pending = none → arrivals full k.trace = served full k.trace ++ queue k full
  handed : ∀ d, pending = some (d, full) → ∃ pid, pidOf k.sched d = some pid ∧
    arrivals full k.trace = served full k.trace ++ pid :: queue k full

section
variable {k₀ k k' k₁ : Kernel} {nodes nodes' : List Ptr} {pending pending' : Option (Ptr × Ptr)}
  {node sem full c c' : Ptr} {x : SemT} {p : PipeT} {pid b now v : Int} {i fuel rsp : Nat}
  {a : Action} {ins outs rest : List Int}

theorem Ordered.opened (trace : k.trace = [.opened node]) (empty : queue k full = []) :
    Ordered k none node full := by
  have ins : bytesIn node k.trace = [] := by rw [trace]; exact if_pos rfl
  have outs : bytesOut node k.trace = [] := by rw [trace]; exact if_pos rfl
  refine ⟨⟨[], by rw [ins, outs]; rfl⟩, fun pre q pid b post h => ?_, by rw [trace]; rfl,
    fun _ => by rw [trace, empty]; rfl, fun d hd => by cases hd⟩
  rw [trace] at h
  cases pre with
  | nil => cases h
  | cons e pre =>
    obtain ⟨-, h⟩ := List.cons.inj h
    simp at h

/-- A stored byte is nobody's yet. -/
theorem logs_stored (trace : k'.trace = k.trace ++ storedTrace sem full node pid b)
    (apart : sem ≠ full) :
    arrivals full k'.trace = arrivals full k.trace ∧ served full k'.trace = served full k.trace ∧
      takers full k'.trace = takers full k.trace ∧
      fetchers node k'.trace = fetchers node k.trace := by
  rw [trace]
  refine ⟨?_, ?_, ?_, ?_⟩ <;>
    simp [arrivals, served, takers, fetchers, storedTrace, apart]

/-- A reader takes a byte. -/
theorem logs_fetched {waited : Bool}
    (trace : k'.trace = k.trace ++ fetchedTrace sem full node pid v b waited)
    (apart : sem ≠ full) :
    arrivals full k'.trace = arrivals full k.trace ∧
      served full k'.trace = served full k.trace ++ (if waited then [pid] else []) ∧
      takers full k'.trace = takers full k.trace ++ [pid] ∧
      fetchers node k'.trace = fetchers node k.trace ++ [pid] := by
  rw [trace]
  refine ⟨?_, ?_, ?_, ?_⟩ <;>
    cases waited <;> simp [arrivals, served, takers, fetchers, fetchedTrace, apart]

/-- A reader waits. -/
theorem logs_queued (node : Ptr) (trace : k'.trace = k.trace ++ [.queued full pid]) :
    arrivals full k'.trace = arrivals full k.trace ++ [pid] ∧
      served full k'.trace = served full k.trace ∧ takers full k'.trace = takers full k.trace ∧
      fetchers node k'.trace = fetchers node k.trace := by
  rw [trace]
  refine ⟨?_, ?_, ?_, ?_⟩ <;> simp [arrivals, served, takers, fetchers]

/-- What the ring gives next is the first byte not read. -/
theorem Kept.next (h : Kept k node) (s : Single k nodes c pending node sem full)
    (begun : bytesOut node k.trace <+: bytesIn node k.trace) (hp : k.pipes node = some p)
    (hi : slot p.currentR = .ok i)
    (left : (bytesOut node k.trace).length < (bytesIn node k.trace).length) :
    Next (bytesIn node k.trace) (bytesOut node k.trace) (p.buffer i) := by
  have filled := s.stock.filled_at (by simp [s.first]) hp
  obtain ⟨rfl, -⟩ := filled.fetch left hi
  have cell := (h.holds p hp).next left
  obtain ⟨tail, htail⟩ := begun
  rw [← htail] at cell left ⊢
  cases tail with
  | nil => simp at left
  | cons y rest =>
    rw [List.getElem?_append_right (le_refl _), Nat.sub_self] at cell
    obtain rfl := Option.some.inj cell
    exact ⟨rest, rfl⟩

theorem Ordered.store (h : Ordered k pending node full) (apart : sem ≠ full)
    (trace : k'.trace = k.trace ++ storedTrace sem full node pid b) :
    bytesOut node k'.trace <+: bytesIn node k'.trace ∧
      takers full k'.trace = fetchers node k'.trace := by
  obtain ⟨ins, outs⟩ := bytes_stored node trace
  obtain ⟨-, -, took, read⟩ := logs_stored trace apart
  constructor
  · rw [ins, outs, if_pos rfl]
    exact h.bytes.trans ⟨[b], rfl⟩
  · rw [took, read]
    exact h.readers

theorem Ordered.fetch {waited : Bool} (h : Ordered k pending node full) (apart : sem ≠ full)
    (next : Next (bytesIn node k.trace) (bytesOut node k.trace) b)
    (trace : k'.trace = k.trace ++ fetchedTrace sem full node pid v b waited) :
    bytesOut node k'.trace <+: bytesIn node k'.trace ∧
      takers full k'.trace = fetchers node k'.trace := by
  obtain ⟨ins, outs⟩ := bytes_fetched node trace
  obtain ⟨-, -, took, read⟩ := logs_fetched trace apart
  obtain ⟨rest, next⟩ := next
  constructor
  · rw [ins, outs, if_pos rfl, next]
    exact ⟨rest, by simp⟩
  · rw [took, read, h.readers]

/-- One step. -/
theorem Ordered.moved (h : Ordered k pending node full) (kept : Kept k node)
    (s : Single k nodes c pending node sem full)
    (moved : Moved k k' c sem full a pending pending') : Ordered k' pending' node full := by
  have same : ∀ {q}, q ∈ k.firstPipe → q = node := by
    intro q hq
    rwa [s.first, List.mem_singleton] at hq
  have apart := s.apart moved
  have there : Fetches Next k'.trace := by
    refine h.there.moved s.stock s.base apart moved fun q hq p i hp hi left => ?_
    obtain rfl := same hq
    exact Kept.next kept s h.bytes hp hi left
  cases moved with
  | silent ht trace pipes first sems list =>
    have queues : queue k' full = queue k full := by rw [queue, sems, queue]
    rw [trace] at there
    refine ⟨?_, trace ▸ there, ?_, fun _ => ?_, fun d hd => by cases hd⟩
    · rw [trace]
      exact h.bytes
    · rw [trace]
      exact h.readers
    · rw [trace, queues]
      exact h.idle rfl
  | stored ht hn hp hx hi alone hk =>
    rename_i m fd b pid now rsp i q p x
    obtain rfl := same hn
    have trace : k'.trace = k.trace ++ storedTrace sem full q pid b := storing_trace (by rw [hk])
    obtain ⟨bytes, readers⟩ := h.store s.base.apart trace
    obtain ⟨came, got, -, -⟩ := logs_stored trace s.base.apart
    have before : queue k full = [] := (queue_of hx).trans alone
    have after : queue k' full = [] := by
      rw [hk, queue_giving, if_pos rfl]
    refine ⟨bytes, there, readers, fun _ => ?_, fun d hd => by cases hd⟩
    rw [came, got, after, h.idle rfl, before]
  | handed ht hn hp hx hi waiting zero hd still reader frames hk =>
    rename_i m fd b pid first now rsp i q d p x rest
    obtain rfl := same hn
    have trace : k'.trace = k.trace ++ storedTrace sem full q pid b := storing_trace hk
    obtain ⟨bytes, readers⟩ := h.store s.base.apart trace
    obtain ⟨came, got, -, -⟩ := logs_stored trace s.base.apart
    have before : queue k full = first :: rest := (queue_of hx).trans waiting
    have after : queue k' full = rest := by
      have h' : queue (giving full x rest (storing sem q p i pid b k)) full = rest := by
        rw [queue_giving, if_pos rfl]
      rw [hk]
      exact h'
    refine ⟨bytes, there, readers, (fun hnone => by cases hnone), fun d' hd' => ?_⟩
    obtain ⟨rfl, -⟩ := Prod.mk.inj (Option.some.inj hd')
    exact ⟨first, still, by rw [came, got, after, h.idle rfl, before]⟩
  | fetched ht hn hp hx hi pos hk =>
    rename_i m m' fd pid now rsp i q p x
    obtain rfl := same hn
    have trace : k'.trace = k.trace ++ fetchedTrace sem full q pid x.value (p.buffer i) false :=
      fetching_trace (by rw [hk])
    obtain ⟨bytes, readers⟩ := h.fetch s.base.apart (Kept.next kept s h.bytes hp hi
      (s.stock.unread s.base apart ht hn hp hx pos).2) trace
    obtain ⟨came, got, -, -⟩ := logs_fetched trace s.base.apart
    have queues : queue k' full = queue k full := by
      have h' : queue (taking full x pid false k) = queue k := queue_taking false hx
      rw [hk]
      exact congrFun h' full
    refine ⟨bytes, there, readers, fun _ => ?_, fun d hd => by cases hd⟩
    rw [came, got, queues, h.idle rfl]
    simp
  | resumed ht hn hp hx hi one hpid frames hk =>
    rename_i m pid now rsp i q p x
    obtain rfl := same hn
    have trace : k'.trace = k.trace ++ fetchedTrace sem full q pid x.value (p.buffer i) true :=
      fetching_trace (fetching_saved hk)
    obtain ⟨bytes, readers⟩ := h.fetch s.base.apart
      (Kept.next kept s h.bytes hp hi (s.stock.owed c _ _ rfl frames)) trace
    obtain ⟨came, got, -, -⟩ := logs_fetched trace s.base.apart
    have queues : queue k' full = queue k full := by
      have h' : queue (taking full x pid true k) = queue k := queue_taking true hx
      rw [hk]
      exact congrFun h' full
    obtain ⟨pid', hpid', waits⟩ := h.handed c rfl
    obtain rfl := Option.some.inj (hpid.symm.trans hpid')
    refine ⟨bytes, there, readers, fun _ => ?_, fun d hd => by cases hd⟩
    rw [came, got, queues, waits]
    simp
  | queued ht hn hx zero hk =>
    rename_i m m' fd pid now rsp q x
    have trace : k'.trace = k.trace ++ [.queued full pid] := by rw [hk]; rfl
    obtain ⟨ins, outs⟩ := bytes_queued node trace
    obtain ⟨came, got, took, read⟩ := logs_queued node trace
    have queues : queue k' full = queue k full ++ [pid] := by
      have h' : queue (joining full x pid k) full = queue k full ++ [pid] := by
        rw [queue_joining hx, if_pos rfl]
      rw [hk]
      exact h'
    refine ⟨?_, there, ?_, fun _ => ?_, fun d hd => by cases hd⟩
    · rw [ins, outs]
      exact h.bytes
    · rw [took, read]
      exact h.readers
    · rw [came, got, queues, h.idle rfl, List.append_assoc]

theorem Ordered.fifo (h : Ordered k pending node full)
    (s : Single k nodes c pending node sem full) :
    Fifo k node full := by
  refine ⟨h.bytes, h.there, h.readers, ?_⟩
  rcases s.base.handed with rfl | ⟨d, rfl, -⟩
  · exact ⟨_, (h.idle rfl).symm⟩
  · obtain ⟨pid, -, waits⟩ := h.handed d rfl
    exact ⟨_, waits.symm⟩

/-- One open pipe is a queue of bytes, and a queue of readers. -/
theorem run_fifo {name : String} {m : PipeMallocs} (start : Unpiped k₀ nodes c)
    (step : Step k₀ (.call (.openPipe name m) now rsp) k₁) (run : Run Roomy k₁ k) :
    ∃ node p, k.firstPipe = [node] ∧ k.pipes node = some p ∧ Fifo k node p.fullSem := by
  obtain ⟨node, sem, full, s, trace, empty⟩ := Single.opened start step
  have inv : ∃ nodes c pending, Single k nodes c pending node sem full ∧ Kept k node ∧
      Ordered k pending node full := by
    induction run with
    | refl => exact ⟨nodes, c, none, s, .opened trace, .opened trace empty⟩
    | step _ allowed step ih =>
      obtain ⟨nodes, c, pending, s, kept, order⟩ := ih
      obtain ⟨nodes', c', pending', s', moved⟩ := s.step allowed.1 step
      exact ⟨nodes', c', pending', s', kept.moved s allowed moved, order.moved kept s moved⟩
  obtain ⟨nodes, c, pending, s, -, order⟩ := inv
  obtain ⟨p, hp, -, hf⟩ := s.base.shared node (by simp [s.first])
  exact ⟨node, p, s.first, hp, hf ▸ order.fifo s⟩

end

/-- Process 2 waits for a byte, 3 writes one, and 2 reads it. -/
theorem run_fifo_parlour : ∃ k₁ k₂ k,
    play 20 [.call (.openPipe "a" (pipeBlocks 0)) 0 0] parlour = some k₁ ∧
    play 20 [.call (.readPipe (some 80) none 2) 0 0] k₁ = some k₂ ∧
    (∃ k₃, play 20 [.call (.writePipe none 3 7) 0 0] k₂ = some k₃ ∧
      play 20 [.resume 0 0] k₃ = some k) ∧
    bytesOut 7000 k.trace = [7] ∧
    ∃ node p, k.firstPipe = [node] ∧ k.pipes node = some p ∧ Fifo k node p.fullSem := by
  have h : (play 20 [.call (.openPipe "a" (pipeBlocks 0)) 0 0] parlour).bind (fun k₁ =>
      (play 20 [.call (.readPipe (some 80) none 2) 0 0] k₁).bind fun k₂ =>
        (play 20 [.call (.writePipe none 3 7) 0 0] k₂).bind fun k₃ =>
          (play 20 [.resume 0 0] k₃).map fun k =>
            ((target k₂ (.call (.writePipe none 3 7) 0 0), k₂.trace), bytesOut 7000 k.trace)) =
      some ((some 7000, [.opened 7000, .queued 7006 2]), [7]) := by decide +kernel
  obtain ⟨k₁, h₁, h⟩ := Option.bind_eq_some_iff.mp h
  obtain ⟨k₂, h₂, h⟩ := Option.bind_eq_some_iff.mp h
  obtain ⟨k₃, h₃, h⟩ := Option.bind_eq_some_iff.mp h
  obtain ⟨k, h₄, h⟩ := Option.map_eq_some_iff.mp h
  obtain ⟨⟨ht, trace⟩, bytes⟩ := by simpa only [Prod.mk.injEq] using h
  refine ⟨k₁, k₂, k, h₁, h₂, ⟨k₃, h₃, h₄⟩, bytes, run_fifo parlour_unpiped (play_step h₁)
    (.step (.step (.step .refl ?_ (play_step h₂)) ?_ (play_step h₃)) ?_ (play_step h₄))⟩
  · exact ⟨trivial, trivial⟩
  · refine ⟨trivial, fun node hnode => ?_⟩
    obtain rfl := Option.some.inj (ht.symm.trans hnode)
    rw [trace]
    decide
  · exact ⟨trivial, trivial⟩

end BottlerOS.PipeOrder
