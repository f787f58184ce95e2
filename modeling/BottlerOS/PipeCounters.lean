import Mathlib.Data.List.Chain
import BottlerOS.PipeOpens

/-! The ring indices of one pipe over its whole life. `currentW` and `currentR` count every
byte and are brought into the ring only where they are used, by a remainder that has the
sign of the counter. -/

namespace BottlerOS.PipeCounters
open Machine Scheduler Semaphore Pipe Kernel

/-- A byte that goes into a pipe or out of it. -/
inductive Transfer where
  | write (c : Int)
  | read

/-- `i % PIPE_MAX_SIZE`. -/
def index (i : Int) : Int := i.tmod PIPE_MAX_SIZE

/-- The statement on the ring in `writePipe` and `readPipe`. A byte that is stored in front of
the ring is not in the record. -/
def Transfer.run (t : Transfer) (p : PipeT) : PipeT :=
  match t with
  | .write c => { p with
      buffer := if 0 ≤ index p.currentW then Function.update p.buffer (index p.currentW).toNat c
        else p.buffer
      currentW := int32 (p.currentW + 1) }
  | .read => { p with currentR := int32 (p.currentR + 1) }

def Transfer.isWrite : Transfer → Bool
  | .write _ => true
  | .read => false

def Transfer.isRead : Transfer → Bool
  | .write _ => false
  | .read => true

/-- The indices used by the transfers of one kind, each at the value its counter has then. -/
def used (counter : PipeT → Int) (mine : Transfer → Bool) (p : PipeT) : List Transfer → List Int
  | [] => []
  | t :: rest =>
      if mine t then index (counter p) :: used counter mine (t.run p) rest
      else used counter mine (t.run p) rest

def writes (p : PipeT) (ts : List Transfer) : List Int :=
  used PipeT.currentW Transfer.isWrite p ts

def reads (p : PipeT) (ts : List Transfer) : List Int :=
  used PipeT.currentR Transfer.isRead p ts

/-- Slots of the ring, one after the other. -/
structure Regular (is : List Int) : Prop where
  range : ∀ i ∈ is, 0 ≤ i ∧ i ≤ PIPE_MAX_SIZE - 1
  next : is.IsChain fun i j => j = (i + 1) % PIPE_MAX_SIZE

section
variable {k k' : Kernel} {p : PipeT} {node : Ptr} {c : Int} {fuel n m i : Nat}
  {ts : List Transfer}

/-- `writePipe` on the ring is a transfer, as long as the index is not negative. -/
theorem writeWaited_run (hp : k.pipes node = some p) (inside : 0 ≤ index p.currentW) :
    writeWaited fuel node c k =
      andThen (semPost fuel p.sem
        ((k.putPipe node ((Transfer.write c).run p)).log (.wrote node c)))
        (.writePosted node) (writePosted fuel node) := by
  have hs : slot p.currentW = .ok (index p.currentW).toNat := if_pos inside
  rw [writeWaited, load_of hp, ok_bind, hs, ok_bind, Transfer.run, if_pos inside]

theorem writeWaited_outside (hp : k.pipes node = some p) (outside : index p.currentW < 0) :
    writeWaited fuel node c k = .error .outOfBounds := by
  have hs : slot p.currentW = .error .outOfBounds := if_neg (by unfold index at outside; omega)
  rw [writeWaited, load_of hp, ok_bind, hs, error_bind]

/-- So is `readPipe`. -/
theorem readWaited_run (hp : k.pipes node = some p) (inside : 0 ≤ index p.currentR) :
    readWaited fuel node k = (getPid k.sched).bind fun pid =>
      andThen (semPost fuel p.sem ((k.putPipe node (Transfer.read.run p)).log
        (.fetched node pid (p.buffer (index p.currentR).toNat))))
        (.readPosted (p.buffer (index p.currentR).toNat)) (fun k => pure (.ret, k)) := by
  have hs : slot p.currentR = .ok (index p.currentR).toNat := if_pos inside
  rw [readWaited, load_of hp, ok_bind, hs, ok_bind]
  rfl

theorem readWaited_outside (hp : k.pipes node = some p) (outside : index p.currentR < 0) :
    readWaited fuel node k = .error .outOfBounds := by
  have hs : slot p.currentR = .error .outOfBounds := if_neg (by unfold index at outside; omega)
  rw [readWaited, load_of hp, ok_bind, hs, error_bind]

/-- The indices of the transfers `n`, ..., `n + m - 1` of a kind. -/
def counted (n m : Nat) : List Int := (List.range' n m).map fun j : Nat => index (int32 j)

theorem used_counted {counter : PipeT → Int} {mine : Transfer → Bool}
    (one : ∀ p t, counter (Transfer.run t p) =
      if mine t then int32 (counter p + 1) else counter p)
    (start : counter p = int32 n) : used counter mine p ts = counted n (ts.countP mine) := by
  induction ts generalizing p n with
  | nil => rfl
  | cons t rest ih =>
    have step := one p t
    by_cases ht : mine t
    · rw [if_pos ht, start, PipeBytes.int32_next] at step
      rw [used, if_pos ht, ih step, start, List.countP_cons_of_pos ht, counted, counted,
        List.range'_succ, List.map_cons]
    · rw [if_neg ht, start] at step
      rw [used, if_neg ht, ih step, List.countP_cons_of_neg ht]

theorem writes_counted (start : p.currentW = int32 n) :
    writes p ts = counted n (ts.countP Transfer.isWrite) :=
  used_counted (fun _ t => by cases t <;> rfl) start

theorem reads_counted (start : p.currentR = int32 n) :
    reads p ts = counted n (ts.countP Transfer.isRead) :=
  used_counted (fun _ t => by cases t <;> rfl) start

/-- Up to -2^31 the remainder is the place in the ring: 2^31 is a multiple of 1024. -/
theorem index_counter (le : n ≤ 2147483648) : index (int32 n) = n % PIPE_MAX_SIZE := by
  have cases : n < 2147483648 ∨ n = 2147483648 := by omega
  rcases cases with low | rfl
  · rw [int32_of_range (by omega) (by simp only [INT_MAX]; omega), index,
      Int.tmod_eq_emod_of_nonneg (by omega)]
  · decide

theorem index_past : index (int32 (2147483649 : Nat)) = -1023 := by decide

theorem counted_regular (le : m ≤ 2147483649) : Regular (counted 0 m) := by
  refine ⟨fun i hi => ?_, ?_⟩
  · obtain ⟨j, hj, rfl⟩ := List.mem_map.mp hi
    have hj := List.mem_range'_1.mp hj
    rw [index_counter (by omega)]
    simp only [PIPE_MAX_SIZE]
    omega
  · rw [counted, List.isChain_map, List.isChain_iff_getElem]
    intro j hj
    rw [List.length_range'] at hj
    rw [List.getElem_range', List.getElem_range', index_counter (by omega),
      index_counter (by omega)]
    simp only [PIPE_MAX_SIZE]
    omega

/-- The counter is first used in front of the ring behind 2^31 + 1 transfers. -/
theorem counted_regular_iff : Regular (counted 0 m) ↔ m ≤ 2147483649 := by
  refine ⟨fun regular => ?_, counted_regular⟩
  by_contra many
  have used : index (int32 (2147483649 : Nat)) ∈ counted 0 m :=
    List.mem_map.mpr ⟨2147483649, List.mem_range'_1.mpr (by omega), rfl⟩
  have := (regular.range _ used).1
  rw [index_past] at this
  omega

/-- `openPipe` puts the new pipe in front, with both counters at zero. -/
theorem openPipe_counters {name : String} {m : PipeMallocs} {fds : Int × Int} {rest : List Ptr}
    (opened : openPipe name m k = .ok (fds, k')) (first : k'.firstPipe = node :: rest)
    (hp : k'.pipes node = some p) : p.currentW = 0 ∧ p.currentR = 0 := by
  obtain ⟨q, sem, full, k₁, k₂, new, -, -, -, hw, hr, -, -, hk⟩ := PipeOpens.openPipe_cases opened
  obtain ⟨rfl, -⟩ := List.cons.inj (first.symm.trans (congrArg Kernel.firstPipe hk))
  have put : k'.pipes node = some new := by
    rw [hk]
    exact Function.update_self _ _ _
  obtain rfl := Option.some.inj (hp.symm.trans put)
  exact ⟨hw, hr⟩

/-- However many bytes go through it, a pipe uses its slots in turn: up to 2^31 + 1 of them each
way. -/
theorem transfers_regular_iff {name : String} {m : PipeMallocs} {fds : Int × Int}
    {rest : List Ptr} (opened : openPipe name m k = .ok (fds, k'))
    (first : k'.firstPipe = node :: rest) (hp : k'.pipes node = some p) (ts : List Transfer) :
    Regular (writes p ts) ∧ Regular (reads p ts) ↔
      ts.countP Transfer.isWrite ≤ 2147483649 ∧ ts.countP Transfer.isRead ≤ 2147483649 := by
  obtain ⟨hw, hr⟩ := openPipe_counters opened first hp
  rw [writes_counted (n := 0) hw, reads_counted (n := 0) hr, counted_regular_iff,
    counted_regular_iff]

end

theorem replicate_writes (n : Nat) :
    (List.replicate n (Transfer.write 7)).countP Transfer.isWrite = n := by
  rw [List.countP_replicate, if_pos (by rfl)]

theorem openPipe_parlour : ∃ fds k' p,
    openPipe "a" (pipeBlocks 0) SemSteps.parlour = .ok (fds, k') ∧
    k'.firstPipe = [7000] ∧ k'.pipes 7000 = some p := by
  have h : (openPipe "a" (pipeBlocks 0) SemSteps.parlour).toOption.map
      (fun x => (x.2.firstPipe, (x.2.pipes 7000).isSome)) = some ([7000], true) := by
    decide +kernel
  obtain ⟨⟨fds, k'⟩, run, hv⟩ := Option.map_eq_some_iff.mp h
  simp only [Prod.mk.injEq] at hv
  obtain ⟨p, hp⟩ := Option.isSome_iff_exists.mp hv.2
  cases ho : openPipe "a" (pipeBlocks 0) SemSteps.parlour with
  | error e => rw [ho] at run; cases run
  | ok x =>
    rw [ho] at run
    obtain rfl := Option.some.inj run
    exact ⟨fds, k', p, rfl, hv.1, hp⟩

theorem transfers_regular_parlour : ∃ fds k' p,
    openPipe "a" (pipeBlocks 0) SemSteps.parlour = .ok (fds, k') ∧ k'.pipes 7000 = some p ∧
    (Regular (writes p [.write 7, .read, .write 8]) ∧
      Regular (reads p [.write 7, .read, .write 8]) ↔ 2 ≤ 2147483649 ∧ 1 ≤ 2147483649) := by
  obtain ⟨fds, k', p, opened, first, hp⟩ := openPipe_parlour
  exact ⟨fds, k', p, opened, hp, transfers_regular_iff opened first hp _⟩

/-- One byte more, and the index is -1023. -/
theorem writes_leave_ring : ∃ fds k' p,
    openPipe "a" (pipeBlocks 0) SemSteps.parlour = .ok (fds, k') ∧ k'.pipes 7000 = some p ∧
    ¬ Regular (writes p (List.replicate 2147483650 (.write 7))) := by
  obtain ⟨fds, k', p, opened, first, hp⟩ := openPipe_parlour
  refine ⟨fds, k', p, opened, hp, fun regular => ?_⟩
  rw [writes_counted (n := 0) (openPipe_counters opened first hp).1, counted_regular_iff,
    replicate_writes] at regular
  omega

end BottlerOS.PipeCounters
