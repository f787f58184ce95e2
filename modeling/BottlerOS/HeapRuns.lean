import BottlerOS.HeapCalls
import Mathlib.Data.List.Pairwise
import Mathlib.Logic.Relation

/-! Runs of `memManagerFRT4.c`: calls of `pvPortMalloc` and `vPortFree` in any order, and
between them writes of the callers into what they have been given. -/

namespace BottlerOS.HeapRuns
open Machine Words DefaultHeap FreeList Yields HeapNodes HeapBlocks HeapCalls

/-- The heap, what the callers have (pointers, and the sizes that were asked for), and
`xFreeBytesRemaining` after each call so far. -/
structure State where
  heap : Heap
  live : List Region
  seen : List Nat

/-- The bytes that may change between two calls: what the callers have, and what is neither in
the heap nor in `xStart`. -/
def Callers (L : Layout) (live : List Region) (b : Nat) : Prop :=
  (∃ a ∈ live, Inside b a) ∨
    ¬ Inside b (L.ucHeap, configTOTAL_HEAP_SIZE) ∧ ¬ Inside b (L.xStart, 16)

inductive Step (L : Layout) : State → State → Prop
  | malloc {s : State} {n fuel p : Nat} {h : Heap} : n < 2 ^ 64 →
      pvPortMalloc fuel n s.heap = .ok (p, h) →
      Step L s ⟨h, if p = 0 then s.live else (p, n) :: s.live, s.seen ++ [h.xFreeBytesRemaining]⟩
  | freeNull {s : State} {fuel : Nat} {h : Heap} : vPortFree fuel 0 s.heap = .ok h →
      Step L s ⟨h, s.live, s.seen ++ [h.xFreeBytesRemaining]⟩
  | free {s : State} {xs ys : List Region} {a : Region} {fuel : Nat} {h : Heap} :
      s.live = xs ++ a :: ys → vPortFree fuel a.1 s.heap = .ok h →
      Step L s ⟨h, xs ++ ys, s.seen ++ [h.xFreeBytesRemaining]⟩
  | write {s : State} {m : Bytes} : (∀ b, m b ≠ s.heap.mem b → Callers L s.live b) →
      Step L s { s with heap := { s.heap with mem := m } }

abbrev Runs (L : Layout) : State → State → Prop := Relation.ReflTransGen (Step L)

/-- The heap is tiled, the counters are exact, and the calls return. -/
structure Tidy (L : Layout) (s : State) (frees : List Region) : Prop where
  chain : FreeBlocks s.heap frees
  stop : s.heap.pxEnd = L.hi
  tiles : Tiling L.lo L.hi (frees ++ s.live.map (blockOf s.heap.mem))
  ascending : frees.Pairwise fun x y => x.1 < y.1
  gaps : ∀ x ∈ frees, ∀ y ∈ frees, x.1 + x.2 ≠ y.1
  count : s.heap.xFreeBytesRemaining = total frees
  attained : s.heap.xMinimumEverFreeBytesRemaining ∈ s.seen
  least : ∀ v ∈ s.seen, s.heap.xMinimumEverFreeBytesRemaining ≤ v
  inside : ∀ a ∈ s.live, ∀ b, Inside b a → Inside b (blockOf s.heap.mem a)
  disjoint : s.live.Pairwise Apart
  whole : s.live = [] → frees = [(L.lo, L.hi - L.lo)]
  mallocReturns : ∀ n, n < 2 ^ 64 → ∃ r, Yields (fun fuel => pvPortMalloc fuel n s.heap) r
  freeReturns : ∀ a ∈ s.live, ∃ h, Yields (fun fuel => vPortFree fuel a.1 s.heap) h
  freeNullReturns : ∀ fuel, vPortFree fuel 0 s.heap = .ok s.heap

/-- The smallest number of free bytes so far. -/
structure Watched (s : State) : Prop where
  now : s.heap.xFreeBytesRemaining ∈ s.seen
  attained : s.heap.xMinimumEverFreeBytesRemaining ∈ s.seen
  least : ∀ v ∈ s.seen, s.heap.xMinimumEverFreeBytesRemaining ≤ v

section
variable {L : Layout} {s t : State} {h : Heap} {frees live : List Region} {a x : Region} {n : Nat}

/-- A caller's bytes lie in its block, behind the header. -/
theorem owned_inside {m : Bytes} {lo hi b : Nat} (owned : Owned m lo hi a) (inside : Inside b a) :
    Inside b (blockOf m a) ∧ a.1 - 16 + 16 ≤ b := by
  have := owned.room
  have := owned.behind
  have := inside.1
  have := inside.2
  have address : (blockOf m a).1 = a.1 - 16 := rfl
  unfold Inside
  omega

/-- What the callers write leaves the headers as they are. -/
theorem good_write {m : Bytes} (good : Good L h frees live)
    (callers : ∀ b, m b ≠ h.mem b → Callers L live b) :
    Good L { h with mem := m } frees live := by
  have bounds := L.bounds
  have stop := good.stop
  have start := good.start
  have arena := L.arena.start_apart
  have layout := L.apart
  obtain ⟨-, blocks, cross⟩ := List.pairwise_append.mp good.tiles.apart
  -- a byte of the heap that no caller has
  have quiet : ∀ b, Inside b (L.ucHeap, configTOTAL_HEAP_SIZE) ∨ Inside b (L.xStart, 16) →
      (∀ a ∈ live, ¬ Inside b a) → m b = h.mem b := fun b here none => by
    by_contra ne
    rcases callers b ne with ⟨a, ha, inside⟩ | ⟨out, out'⟩
    · exact none a ha inside
    · exact here.elim out out'
  have fitsOf : ∀ {b : Nat} {x : Region}, Fits L.lo h.pxEnd x → Inside b x →
      Inside b (L.ucHeap, configTOTAL_HEAP_SIZE) := fun fits inside => by
    have := fits.low
    have := fits.high
    have := inside.1
    have := inside.2
    exact ⟨by dsimp only; omega, by dsimp only; omega⟩
  have header : ∀ {x : Region}, Fits L.lo h.pxEnd x → ∀ b, x.1 ≤ b → b < x.1 + 16 →
      Inside b x := fun fits b lo hi => ⟨lo, by have := fits.header; omega⟩
  have sameFree : ∀ x ∈ frees, SameHeader h.mem m x.1 := fun x hx b lo hi => by
    have fits := good.listed.fits x hx
    refine quiet b (Or.inl (fitsOf fits (header fits b lo hi))) fun a ha inside => ?_
    exact cross x hx _ (List.mem_map_of_mem ha) b (header fits b lo hi)
      (owned_inside (good.owned a ha) inside).1
  have sameStart : SameHeader h.mem m h.xStart := fun b lo hi => by
    refine quiet b (Or.inr ⟨by dsimp only; omega, by dsimp only; omega⟩) fun a ha inside => ?_
    have fits := (good.owned a ha).fits
    have := (owned_inside (good.owned a ha) inside).1
    have := fitsOf fits this
    unfold Inside at this
    dsimp only at this
    omega
  have sameEnd : SameHeader h.mem m h.pxEnd := fun b lo hi => by
    refine quiet b (Or.inl ⟨by dsimp only; omega, by dsimp only; omega⟩) fun a ha inside => ?_
    have := (owned_inside (good.owned a ha) inside).1.2
    have := (good.owned a ha).fits.high
    omega
  have sameLive : ∀ a ∈ live, SameHeader h.mem m (a.1 - 16) := fun a ha b lo hi => by
    have fits := (good.owned a ha).fits
    refine quiet b (Or.inl (fitsOf fits (header fits b lo hi))) fun c hc inside => ?_
    have mine := owned_inside (good.owned c hc) inside
    by_cases eq : c = a
    · have := mine.2
      rw [eq] at this
      omega
    · have symm : Std.Symm fun a c => Apart (blockOf h.mem a) (blockOf h.mem c) :=
        ⟨fun _ _ apart => apart.symm⟩
      exact (List.pairwise_map.mp blocks).forall hc ha eq b mine.1 (header fits b lo hi)
  have blocksSame : live.map (blockOf m) = live.map (blockOf h.mem) := blocks_congr sameLive
  exact ⟨good.heap, start, stop, good.bit, ⟨good.listed.nodes.congr
    (List.forall_mem_cons.mpr ⟨sameStart, sameFree⟩), good.listed.sep, good.listed.fits⟩,
    sameEnd.size.trans good.size_end, sameEnd.next.trans good.next_end,
    fun a ha => (good.owned a ha).congr (sameLive a ha),
    by rw [blocksSame]; exact good.tiles, good.count⟩

/-- First fit. -/
theorem first_fit {w : Nat} (some : ∃ x ∈ frees, w ≤ x.2) :
    ∃ before x behind, frees = before ++ x :: behind ∧ (∀ y ∈ before, y.2 < w) ∧ w ≤ x.2 := by
  induction frees with
  | nil => simp at some
  | cons z zs ih =>
    by_cases enough : w ≤ z.2
    · exact ⟨[], z, zs, rfl, by simp, enough⟩
    · obtain ⟨x, hx, le⟩ := some
      have later : x ∈ zs := by
        rcases List.mem_cons.mp hx with rfl | hx
        · exact absurd le enough
        · exact hx
      obtain ⟨before, y, behind, rfl, small, fits⟩ := ih ⟨x, later, le⟩
      exact ⟨z :: before, y, behind, rfl, List.forall_mem_cons.mpr ⟨by omega, small⟩, fits⟩

/-- What `pvPortMalloc` does. -/
theorem malloc_cases (good : Good L h frees live) (lt : n < 2 ^ 64) :
    ((¬ (0 < n ∧ n < 2 ^ 63 ∧ ∃ x ∈ frees, request n ≤ x.2)) ∧
      Yields (fun fuel => pvPortMalloc fuel n h) (0, h)) ∨
    ∃ before x behind m', frees = before ++ x :: behind ∧ 0 < n ∧ n < 2 ^ 63 ∧
      (∀ y ∈ before, y.2 < request n) ∧ request n ≤ x.2 ∧
      Yields (fun fuel => pvPortMalloc fuel n h)
        (x.1 + 16, { charge h (taken (request n) x) with mem := m' }) ∧
      Good L { charge h (taken (request n) x) with mem := m' }
        (before ++ (remainder (request n) x ++ behind)) ((x.1 + 16, n) :: live) := by
  by_cases served : 0 < n ∧ n < 2 ^ 63 ∧ ∃ x ∈ frees, request n ≤ x.2
  · obtain ⟨pos, small, some⟩ := served
    obtain ⟨before, x, behind, rfl, tight, enough⟩ := first_fit some
    obtain ⟨m', run, good'⟩ := malloc_served good pos small tight enough
    exact Or.inr ⟨before, x, behind, m', rfl, pos, small, tight, enough, run, good'⟩
  · exact Or.inl ⟨served, malloc_refused good lt served⟩

theorem step_good (good : Good L s.heap frees s.live) (step : Step L s t) :
    ∃ frees', Good L t.heap frees' t.live := by
  cases step with
  | malloc lt run =>
    rcases malloc_cases good lt with
      ⟨-, result⟩ | ⟨before, x, behind, m', rfl, -, -, -, -, result, good'⟩
    · obtain ⟨rfl, rfl⟩ := Prod.mk.inj (result.eq run)
      exact ⟨frees, good⟩
    · obtain ⟨rfl, rfl⟩ := Prod.mk.inj (result.eq run)
      exact ⟨_, good'⟩
  | freeNull run =>
    obtain rfl := Except.ok.inj run
    exact ⟨frees, good⟩
  | free split run =>
    rw [split] at good
    obtain ⟨m', result, good'⟩ := free_served good
    obtain rfl := result.eq run
    exact ⟨_, good'⟩
  | write callers => exact ⟨frees, good_write good callers⟩

theorem Watched.keep (watched : Watched s)
    (same : h.xMinimumEverFreeBytesRemaining = s.heap.xMinimumEverFreeBytesRemaining)
    (le : s.heap.xMinimumEverFreeBytesRemaining ≤ h.xFreeBytesRemaining) :
    Watched ⟨h, live, s.seen ++ [h.xFreeBytesRemaining]⟩ where
  now := List.mem_append_right _ List.mem_cons_self
  attained := by
    rw [same]
    exact List.mem_append_left _ watched.attained
  least v hv := by
    rw [same]
    rcases List.mem_append.mp hv with hv | hv
    · exact watched.least v hv
    · rw [List.mem_singleton.mp hv]
      exact le

theorem Watched.lower (watched : Watched s)
    (same : h.xMinimumEverFreeBytesRemaining = h.xFreeBytesRemaining)
    (less : h.xFreeBytesRemaining < s.heap.xMinimumEverFreeBytesRemaining) :
    Watched ⟨h, live, s.seen ++ [h.xFreeBytesRemaining]⟩ where
  now := List.mem_append_right _ List.mem_cons_self
  attained := by
    rw [same]
    exact List.mem_append_right _ List.mem_cons_self
  least v hv := by
    rw [same]
    rcases List.mem_append.mp hv with hv | hv
    · exact Nat.le_of_lt (Nat.lt_of_lt_of_le less (watched.least v hv))
    · rw [List.mem_singleton.mp hv]

theorem step_watched (good : Good L s.heap frees s.live) (watched : Watched s)
    (step : Step L s t) : Watched t := by
  have now := watched.least _ watched.now
  cases step with
  | @malloc n _ _ _ lt run =>
    rcases malloc_cases good lt with
      ⟨-, result⟩ | ⟨before, x, behind, m', rfl, -, -, -, -, result, -⟩
    · obtain ⟨rfl, rfl⟩ := Prod.mk.inj (result.eq run)
      exact watched.keep rfl now
    · obtain ⟨rfl, rfl⟩ := Prod.mk.inj (result.eq run)
      by_cases less : s.heap.xFreeBytesRemaining - taken (request n) x <
          s.heap.xMinimumEverFreeBytesRemaining
      · exact watched.lower (if_pos less) less
      · exact watched.keep (if_neg less) (Nat.le_of_not_lt less)
  | freeNull run =>
    obtain rfl := Except.ok.inj run
    exact watched.keep rfl now
  | free split run =>
    rw [split] at good
    obtain ⟨m', result, -⟩ := free_served good
    obtain rfl := result.eq run
    apply watched.keep (release_minimum s.heap _ m')
    rw [release_free]
    exact Nat.le_add_right_of_le now
  | write callers => exact ⟨watched.now, watched.attained, watched.least⟩

theorem no_gap {y : Region} (sep : Separate frees) (sizes : ∀ x ∈ frees, 0 < x.2)
    (hx : x ∈ frees) (hy : y ∈ frees) : x.1 + x.2 ≠ y.1 := by
  induction frees with
  | nil => simp at hx
  | cons z zs ih =>
    obtain ⟨later, sep'⟩ := List.pairwise_cons.mp sep
    have hz := sizes z List.mem_cons_self
    rcases List.mem_cons.mp hx with rfl | hx' <;> rcases List.mem_cons.mp hy with rfl | hy'
    · omega
    · have := later y hy'
      omega
    · have := later x hx'
      omega
    · exact ih sep' (fun w hw => sizes w (List.mem_cons_of_mem z hw)) hx' hy'

/-- After `prvHeapInit` the heap is one free block. -/
theorem init_good {h₀ : Heap} (heap : h₀.ucHeap = L.ucHeap) (start : h₀.xStart = L.xStart)
    (init : prvHeapInit h₀ = .ok h) : Good L h [(L.lo, L.hi - L.lo)] [] := by
  obtain ⟨m', run, listed, size, next⟩ := prvHeapInit_spec heap start
  obtain rfl := Except.ok.inj (init.symm.trans run)
  have bounds := L.bounds
  refine ⟨heap, start, rfl, rfl, by rw [← start] at listed; exact listed, size, next, by simp,
    ⟨fun b => ?_, by simp⟩, by simp [total, initial]⟩
  simp only [List.map_nil, List.append_nil, List.mem_singleton, exists_eq_left, Inside, initial]
  omega

theorem init_watched (init : prvHeapInit L.boot = .ok h) :
    Watched ⟨h, [], [h.xFreeBytesRemaining]⟩ := by
  obtain ⟨m', run, -⟩ := prvHeapInit_spec (h := L.boot) rfl rfl
  obtain rfl := Except.ok.inj (init.symm.trans run)
  refine ⟨List.mem_cons_self, List.mem_cons_self, fun v hv => ?_⟩
  rw [List.mem_singleton.mp hv]
  rfl

theorem good_tidy (good : Good L s.heap frees s.live) (watched : Watched s) : Tidy L s frees := by
  have bounds := L.bounds
  have tiles := good.tiles
  rw [good.stop] at tiles
  have sizes : ∀ x ∈ frees, 0 < x.2 := fun x hx =>
    Nat.lt_of_lt_of_le (by omega) (good.listed.fits x hx).header
  have blocks := (List.pairwise_append.mp good.tiles.apart).2.1
  refine ⟨⟨good.listed.nodes, fun x hx => ?_⟩, good.stop, tiles, good.listed.sep.imp ?_,
    fun x hx y hy => ?_, good.count, watched.attained, watched.least,
    fun a ha b inside => (owned_inside (good.owned a ha) inside).1, ?_, fun none => ?_,
    fun n lt => ?_, fun a ha => ?_, fun fuel => rfl⟩
  · have := (good.listed.fits x hx).high
    have := sizes x hx
    omega
  · intro x y lt
    omega
  · exact no_gap good.listed.sep sizes hx hy
  · refine (List.pairwise_map.mp blocks).imp_of_mem fun ha hc apart b inside inside' => ?_
    exact apart b (owned_inside (good.owned _ ha) inside).1
      (owned_inside (good.owned _ hc) inside').1
  · rw [none, List.map_nil, List.append_nil] at tiles
    exact tiles.single good.listed.sep sizes (by omega)
  · rcases malloc_cases good lt with ⟨-, result⟩ | ⟨_, _, _, _, -, -, -, -, -, result, -⟩
    · exact ⟨_, result⟩
    · exact ⟨_, result⟩
  · obtain ⟨xs, ys, split⟩ := List.append_of_mem ha
    rw [split] at good
    obtain ⟨m', result, -⟩ := free_served good
    exact ⟨_, result⟩

end

theorem runs_good {L : Layout} {h : Heap} {s : State} (init : prvHeapInit L.boot = .ok h)
    (runs : Runs L ⟨h, [], [h.xFreeBytesRemaining]⟩ s) : ∃ frees, Good L s.heap frees s.live := by
  induction runs with
  | refl => exact ⟨_, init_good rfl rfl init⟩
  | tail _ step ih =>
    obtain ⟨frees, good⟩ := ih
    exact step_good good step

theorem runs_watched {L : Layout} {h : Heap} {s : State} (init : prvHeapInit L.boot = .ok h)
    (runs : Runs L ⟨h, [], [h.xFreeBytesRemaining]⟩ s) : Watched s := by
  induction runs with
  | refl => exact init_watched init
  | tail before step ih =>
    obtain ⟨frees, good⟩ := runs_good init before
    exact step_watched good ih step

/-- From `prvHeapInit`, every run of calls and writes keeps the heap tidy. -/
theorem runs_tidy (L : Layout) (h : Heap) (s : State) (init : prvHeapInit L.boot = .ok h)
    (runs : Runs L ⟨h, [], [h.xFreeBytesRemaining]⟩ s) : ∃ frees, Tidy L s frees := by
  obtain ⟨frees, good⟩ := runs_good init runs
  exact ⟨frees, good_tidy good (runs_watched init runs)⟩

/-- One call of `pvPortMalloc` from `prvHeapInit` on. -/
theorem first_malloc (L : Layout) {n : Nat} (pos : 0 < n) (enough : request n ≤ L.hi - L.lo) :
    ∃ h fuel h' frees, prvHeapInit L.boot = .ok h ∧
      pvPortMalloc fuel n h = .ok (L.lo + 16, h') ∧ Good L h' frees [(L.lo + 16, n)] ∧
      frees = remainder (request n) (L.lo, L.hi - L.lo) := by
  obtain ⟨m, init, -⟩ := prvHeapInit_spec (h := L.boot) rfl rfl
  have good : Good L (initial L L.boot m) ([] ++ (L.lo, L.hi - L.lo) :: []) [] :=
    init_good rfl rfl init
  have small : n < 2 ^ 63 := by
    have := L.bounds
    have := L.heap_le
    unfold request configTOTAL_HEAP_SIZE at *
    omega
  obtain ⟨m', result, good'⟩ := malloc_served good pos small (by simp) enough
  obtain ⟨fuel, run⟩ := result.exists
  rw [List.nil_append, List.append_nil] at good'
  exact ⟨_, fuel, _, _, init, run, good', rfl⟩

theorem runs_tidy_kernel : ∃ h s frees, prvHeapInit Layout.kernel.boot = .ok h ∧
    s.live = [(0x600010, 100)] ∧ Tidy Layout.kernel s frees := by
  obtain ⟨h, fuel, h', -, init, run, -⟩ := first_malloc Layout.kernel
    (show 0 < 100 by decide) (by decide)
  obtain ⟨frees, tidy⟩ := runs_tidy Layout.kernel h _ init (.single (.malloc (by decide) run))
  exact ⟨h, _, frees, init, rfl, tidy⟩

end BottlerOS.HeapRuns
