import BottlerOS.DefaultHeap
import BottlerOS.Library.FreeList
import BottlerOS.Library.Yields

/-! The free list of `memManagerFRT4.c` in memory, and what `prvInsertBlockIntoFreeList` makes
of it: the insertion into a list of regions. -/

namespace BottlerOS.HeapNodes
open Machine Words DefaultHeap FreeList Yields

def nextAt (m : Bytes) (p : Nat) : Nat := load64 m p
def sizeAt (m : Bytes) (p : Nat) : Nat := load64 m (p + 8)

/-- Where a list begins that is followed by `e`. -/
def first (e : Nat) : List Region → Nat
  | [] => e
  | x :: _ => x.1

/-- The regions are linked in memory, and the last one to `e`. -/
def Nodes (m : Bytes) (e : Nat) : List Region → Prop
  | [] => True
  | x :: xs => nextAt m x.1 = first e xs ∧ sizeAt m x.1 = x.2 ∧ Nodes m e xs

/-- The list from `xStart` to `pxEnd`. -/
structure FreeBlocks (h : Heap) (frees : List Region) : Prop where
  nodes : Nodes h.mem h.pxEnd ((h.xStart, 0) :: frees)
  inner : ∀ x ∈ frees, x.1 ≠ h.pxEnd

/-- The bytes of the header at `p` are the same. -/
def SameHeader (m m' : Bytes) (p : Nat) : Prop := ∀ a, p ≤ a → a < p + 16 → m' a = m a

/-- No byte outside the header at `p` has changed. -/
def Within (p : Nat) (m m' : Bytes) : Prop := ∀ a, ¬ (p ≤ a ∧ a < p + 16) → m' a = m a

/-- Two headers have no byte in common. -/
def Clear (p q : Nat) : Prop := p + 16 ≤ q ∨ q + 16 ≤ p

section
variable {m m' m'' : Bytes} {e p q v : Nat} {x : Region} {xs ys : List Region}

theorem first_append (e : Nat) (xs ys : List Region) :
    first e (xs ++ ys) = first (first e ys) xs := by
  cases xs <;> rfl

theorem first_join (e b s : Nat) (xs : List Region) : first e (join b s xs) = b := by
  cases xs with
  | nil => rfl
  | cons x xs =>
    rw [join]
    split <;> rfl

theorem nodes_append : Nodes m e (xs ++ ys) ↔ Nodes m (first e ys) xs ∧ Nodes m e ys := by
  induction xs with
  | nil => simp [Nodes]
  | cons x xs ih =>
    rw [List.cons_append, Nodes, Nodes, ih, first_append]
    simp only [and_assoc]

theorem SameHeader.next (same : SameHeader m m' p) : nextAt m' p = nextAt m p :=
  load64_congr fun a lo hi => same a lo (by omega)

theorem SameHeader.size (same : SameHeader m m' p) : sizeAt m' p = sizeAt m p :=
  load64_congr fun a lo hi => same a (by omega) (by omega)

theorem SameHeader.trans (same : SameHeader m m' p) (same' : SameHeader m' m'' p) :
    SameHeader m m'' p := fun a lo hi => (same' a lo hi).trans (same a lo hi)

theorem Nodes.congr (nodes : Nodes m e xs) (same : ∀ x ∈ xs, SameHeader m m' x.1) :
    Nodes m' e xs := by
  induction xs with
  | nil => trivial
  | cons x xs ih =>
    have head := same x List.mem_cons_self
    obtain ⟨next, size, nodes⟩ := nodes
    exact ⟨head.next.trans next, head.size.trans size,
      ih nodes fun y hy => same y (List.mem_cons_of_mem x hy)⟩

theorem Clear.symm (clear : Clear p q) : Clear q p := Or.symm clear

theorem Within.same (within : Within p m m') (clear : Clear p q) : SameHeader m m' q :=
  fun a lo hi => within a (by unfold Clear at clear; omega)

theorem Within.trans (within : Within p m m') (within' : Within p m' m'') : Within p m m'' :=
  fun a out => (within' a out).trans (within a out)

theorem within_next (p v : Nat) (m : Bytes) : Within p m (store64 p v m) :=
  fun _ out => store64_of_outside (by omega)

theorem within_size (p v : Nat) (m : Bytes) : Within p m (store64 (p + 8) v m) :=
  fun _ out => store64_of_outside (by omega)

theorem nextAt_next (v : Nat) : nextAt (store64 p v m) p = v % 2 ^ 64 := load64_store64 p v m

theorem sizeAt_size (v : Nat) : sizeAt (store64 (p + 8) v m) p = v % 2 ^ 64 :=
  load64_store64 (p + 8) v m

theorem sizeAt_next (v : Nat) : sizeAt (store64 p v m) p = sizeAt m p :=
  load64_store64_apart (by omega)

theorem nextAt_size (v : Nat) : nextAt (store64 (p + 8) v m) p = nextAt m p :=
  load64_store64_apart (by omega)

/-- A list that ends at `e` is given by the memory. -/
theorem Nodes.unique (nodes : Nodes m e (x :: xs)) (nodes' : Nodes m e (x :: ys))
    (inner : ∀ y ∈ xs, y.1 ≠ e) (inner' : ∀ y ∈ ys, y.1 ≠ e) : xs = ys := by
  induction xs generalizing x ys with
  | nil =>
    cases ys with
    | nil => rfl
    | cons y ys =>
      exact absurd (nodes'.1.symm.trans nodes.1) (inner' y List.mem_cons_self)
  | cons z xs ih =>
    cases ys with
    | nil => exact absurd (nodes.1.symm.trans nodes'.1) (inner z List.mem_cons_self)
    | cons y ys =>
      have address : z.1 = y.1 := nodes.1.symm.trans nodes'.1
      have size : z.2 = y.2 := by rw [← nodes.2.2.2.1, ← nodes'.2.2.2.1, address]
      obtain rfl : z = y := Prod.ext address size
      rw [ih nodes.2.2 nodes'.2.2 (fun y hy => inner y (List.mem_cons_of_mem _ hy))
        fun y hy => inner' y (List.mem_cons_of_mem _ hy)]

theorem nextAt_lt (m : Bytes) (p : Nat) : nextAt m p < 2 ^ 64 := load64_lt m p

end

theorem FreeBlocks.unique {h : Heap} {frees frees' : List Region} (free : FreeBlocks h frees)
    (free' : FreeBlocks h frees') : frees = frees' :=
  free.nodes.unique free'.nodes free.inner free'.inner

section
variable {h : Heap} {p q n : Nat}

theorem next_ok (hp : p ≠ 0) : h.pxNextFreeBlock p = .ok (nextAt h.mem p) := if_neg hp

theorem size_ok (hp : p ≠ 0) : h.xBlockSize p = .ok (sizeAt h.mem p) := if_neg hp

theorem setNext_ok (hp : p ≠ 0) : h.setNext p q = .ok { h with mem := store64 p q h.mem } :=
  if_neg hp

theorem setSize_ok (hp : p ≠ 0) :
    h.setSize p n = .ok { h with mem := store64 (p + 8) n h.mem } := if_neg hp

end

/-- The area of the heap, from `lo` to `pxEnd`; the header at `xStart` is not in it. -/
structure Arena (xStart pxEnd lo : Nat) : Prop where
  lo_pos : 0 < lo
  start_pos : 0 < xStart
  start_lt : xStart < 2 ^ 64
  end_lt : pxEnd < 2 ^ 64
  start_apart : xStart + 16 ≤ lo ∨ pxEnd + 16 ≤ xStart

/-- A block of the area, with room for its header. -/
structure Fits (lo hi : Nat) (x : Region) : Prop where
  low : lo ≤ x.1
  header : 16 ≤ x.2
  high : x.1 + x.2 ≤ hi

section
variable {h : Heap} {lo b s it q : Nat} {x y : Region}
  {frees before behind : List Region} {p e : Nat} {m m' m'' : Bytes}
  {regions regions' : List Region}

theorem Fits.clear_start (arena : Arena p e lo) (fits : Fits lo e x) : Clear p x.1 := by
  have := fits.low
  have := fits.header
  have := fits.high
  have := arena.start_apart
  unfold Clear
  omega

theorem Fits.start_apart (arena : Arena p e lo) (fits : Fits lo e x) : Apart (p, 16) x :=
  fun a ha hx => by
  have := fits.low
  have := fits.high
  have := arena.start_apart
  have := ha.1
  have := ha.2
  have := hx.1
  have := hx.2
  dsimp only at *
  omega

theorem Fits.ne_zero (arena : Arena p e lo) (fits : Fits lo e x) : x.1 ≠ 0 := by
  have := arena.lo_pos
  have := fits.low
  omega

/-- The loop stops at the last region before the block. -/
theorem findPlace_yields (x : Region) (nodes : Nodes h.mem h.pxEnd (x :: before ++ behind))
    (nz : ∀ y ∈ x :: before, y.1 ≠ 0) (lt : ∀ y ∈ before, y.1 < b)
    (le : b ≤ first h.pxEnd behind) :
    ∃ init it, x :: before = init ++ [it] ∧
      Yields (fun fuel => findPlace h b fuel x.1) it.1 := by
  induction before generalizing x with
  | nil =>
    refine ⟨[], x, rfl, Yields.step (Yields.of_ok rfl) nofun fun n => ?_⟩
    have next : nextAt h.mem x.1 = first h.pxEnd behind := nodes.1
    rw [findPlace, next_ok (nz x List.mem_cons_self), next]
    exact if_neg (by omega)
  | cons y before ih =>
    obtain ⟨init, it, list, loop⟩ := ih y nodes.2.2
      (fun z hz => nz z (List.mem_cons_of_mem x hz)) fun z hz => lt z (List.mem_cons_of_mem y hz)
    refine ⟨x :: init, it, by rw [list, List.cons_append], Yields.step loop nofun fun n => ?_⟩
    have next : nextAt h.mem x.1 = y.1 := nodes.1
    rw [findPlace, next_ok (nz x List.mem_cons_self), next]
    exact if_pos (lt y List.mem_cons_self)

/-- The block and the region before it, if they touch. -/
def meltBefore (x : Region) (b s : Nat) : Region := if x.1 + x.2 = b then (x.1, x.2 + s) else (b, s)

theorem mergeBefore_spec (x : Region) (hx : x.1 ≠ 0) (hb : b ≠ 0) (small : x.1 + x.2 < 2 ^ 64)
    (sum : x.2 + s < 2 ^ 64) (size : sizeAt h.mem x.1 = x.2) (sizeb : sizeAt h.mem b = s) :
    ∃ m', mergeBefore x.1 b h = .ok ((meltBefore x b s).1, { h with mem := m' }) ∧
      sizeAt m' (meltBefore x b s).1 = (meltBefore x b s).2 ∧
      nextAt m' x.1 = nextAt h.mem x.1 ∧
      Within (meltBefore x b s).1 h.mem m' := by
  rw [mergeBefore, size_ok hx, size, ok_bind, size_t_add small]
  by_cases touch : x.1 + x.2 = b
  · have melt : meltBefore x b s = (x.1, x.2 + s) := if_pos touch
    refine ⟨store64 (x.1 + 8) (x.2 + s) h.mem, ?_, ?_, nextAt_size _, ?_⟩
    · rw [melt, if_pos touch, size_ok hb, ok_bind, sizeb, setSize_ok hx, size_t_add sum]
      rfl
    · rw [melt, sizeAt_size, Nat.mod_eq_of_lt sum]
    · rw [melt]
      exact within_size x.1 _ h.mem
  · have melt : meltBefore x b s = (b, s) := if_neg touch
    refine ⟨h.mem, ?_, ?_, rfl, fun a out => rfl⟩
    · rw [melt, if_neg touch]
      rfl
    · rw [melt, sizeb]

/-- The block at `q` and the regions behind it. -/
theorem mergeBehind_spec (it q s : Nat) (hq : q ≠ 0) (hit : it ≠ 0) (clear : it = q ∨ Clear it q)
    (size : sizeAt h.mem q = s) (next : nextAt h.mem it = first h.pxEnd behind)
    (nodes : Nodes h.mem h.pxEnd behind) (apart : ∀ x ∈ behind, q + s ≤ x.1 ∧ Clear q x.1)
    (below : q + s ≤ h.pxEnd) (end_lt : h.pxEnd < 2 ^ 64)
    (room : ∀ x ∈ behind, Fits 1 h.pxEnd x) :
    ∃ m', mergeBehind it q h = .ok { h with mem := m' } ∧ Nodes m' h.pxEnd (join q s behind) ∧
      Within q h.mem m' := by
  rw [mergeBehind, size_ok hq, size, ok_bind, next_ok hit, next, ok_bind, size_t_add (by omega)]
  -- the header of `q` becomes the region `(q, S)` before the list `rest`
  have linked : ∀ (m : Bytes) (S : Nat) (rest : List Region), sizeAt m q = S →
      Nodes m h.pxEnd rest → first h.pxEnd rest < 2 ^ 64 → (∀ x ∈ rest, Clear q x.1) →
      Nodes (store64 q (first h.pxEnd rest) m) h.pxEnd ((q, S) :: rest) := by
    intro m S rest size nodes lt clear
    refine ⟨?_, ?_, nodes.congr fun x hx => (within_next q _ m).same (clear x hx)⟩
    · rw [nextAt_next, Nat.mod_eq_of_lt lt]
    · rw [sizeAt_next, size]
  cases behind with
  | nil =>
    refine ⟨store64 q h.pxEnd h.mem, ?_, linked h.mem s [] size trivial end_lt (by simp),
      within_next q _ h.mem⟩
    have same : first h.pxEnd [] = h.pxEnd := rfl
    simp only [same, ne_eq, not_true_eq_false, if_false, setNext_ok hq, ite_self]
  | cons x rest =>
    obtain ⟨before, clearx⟩ := apart x List.mem_cons_self
    have fits := room x List.mem_cons_self
    have low := fits.low
    have header := fits.header
    have high := fits.high
    have clear' : ∀ y ∈ rest, Clear q y.1 := fun y hy => (apart y (List.mem_cons_of_mem x hy)).2
    have inner : x.1 ≠ h.pxEnd := by omega
    have same : first h.pxEnd (x :: rest) = x.1 := rfl
    rw [same] at next ⊢
    by_cases touch : q + s = x.1
    · rw [if_pos touch, if_pos inner, size_ok (by omega), nodes.2.1, ok_bind, setSize_ok hq,
        ok_bind, size_t_add (by omega)]
      -- the other headers do not notice the new size
      have nextIt : nextAt (store64 (q + 8) (s + x.2) h.mem) it = x.1 := by
        rcases clear with rfl | clear
        · rw [nextAt_size, next]
        · rw [((within_size q _ h.mem).same clear.symm).next, next]
      have nextX : nextAt (store64 (q + 8) (s + x.2) h.mem) x.1 = first h.pxEnd rest := by
        rw [((within_size q _ h.mem).same clearx).next, nodes.1]
      have lt : first h.pxEnd rest < 2 ^ 64 := by
        rw [← nodes.1]
        exact nextAt_lt h.mem x.1
      refine ⟨store64 q (first h.pxEnd rest) (store64 (q + 8) (s + x.2) h.mem), ?_, ?_,
        (within_size q _ h.mem).trans (within_next q _ _)⟩
      · rw [next_ok (h := { h with mem := _ }) hit, ok_bind, nextIt,
          next_ok (h := { h with mem := _ }) (by omega), ok_bind, nextX, setNext_ok hq]
      · rw [join, if_pos touch]
        refine linked _ _ rest ?_
          (nodes.2.2.congr fun y hy => (within_size q _ h.mem).same (clear' y hy))
          lt clear'
        rw [sizeAt_size, Nat.mod_eq_of_lt (by omega)]
    · rw [if_neg touch, setNext_ok hq]
      refine ⟨_, rfl, ?_, within_next q _ h.mem⟩
      rw [join, if_neg touch]
      exact linked h.mem s (x :: rest) size nodes (by rw [same]; omega)
        (List.forall_mem_cons.mpr ⟨clearx, clear'⟩)

/-- What becomes of the list where the loop has stopped. -/
theorem insert_melt {x y : Region} {init : List Region} (start : x.1 + x.2 ≠ b)
    (list : x :: before = init ++ [y]) (sep : Separate (before ++ behind))
    (lt : ∀ z ∈ before, z.1 < b) (le : ∀ z ∈ behind, b ≤ z.1) :
    x :: insert b s (before ++ behind) = init ++ ((if y.1 + y.2 = b then [] else [y]) ++
      join (meltBefore y b s).1 (meltBefore y b s).2 behind) := by
  cases init with
  | nil =>
    obtain ⟨rfl, rfl⟩ := List.cons.inj list
    rw [meltBefore, if_neg start, if_neg start, List.nil_append, List.nil_append,
      insert_of_le le, List.cons_append, List.nil_append]
  | cons z init =>
    rw [List.cons_append] at list
    obtain ⟨rfl, rfl⟩ := List.cons.inj list
    have lty : y.1 < b := lt y (by simp)
    have pass : ∀ z ∈ init, z.1 + z.2 < b := fun z hz => by
      rw [List.append_assoc] at sep
      have := (List.pairwise_append.mp sep).2.2 z hz y (by simp)
      omega
    rw [List.append_assoc, insert_append pass, List.cons_append, List.cons_append,
      List.nil_append, FreeList.insert, if_pos lty, meltBefore]
    split
    · rfl
    · rw [insert_of_le le, List.cons_append, List.nil_append]

/-- The free list in memory, in the order of the addresses. -/
structure Listed (m : Bytes) (xStart pxEnd lo : Nat) (frees : List Region) : Prop where
  nodes : Nodes m pxEnd ((xStart, 0) :: frees)
  sep : Separate frees
  fits : ∀ x ∈ frees, Fits lo pxEnd x

theorem clear_of_apart {x y : Region} (hx : 16 ≤ x.2) (hy : 16 ≤ y.2)
    (apart : x.1 + x.2 ≤ y.1 ∨ y.1 + y.2 ≤ x.1) : Clear x.1 y.1 := by
  unfold Clear
  omega

/-- No two headers of the list overlap. -/
theorem Listed.clear (arena : Arena p e lo) (listed : Listed m p e lo frees) :
    ((p, 0) :: frees).Pairwise fun x y => Clear x.1 y.1 := by
  refine List.pairwise_cons.mpr ⟨fun x hx => (listed.fits x hx).clear_start arena, ?_⟩
  refine listed.sep.imp_of_mem fun hx hy lt => ?_
  exact clear_of_apart (listed.fits _ hx).header (listed.fits _ hy).header
    (Or.inl (Nat.le_of_lt lt))

theorem Fits.melt {hi : Nat} (x y : Region) (touch : x.1 + x.2 = y.1) (hx : Fits lo hi x)
    (hy : Fits lo hi y) : Fits lo hi (x.1, x.2 + y.2) where
  low := hx.low
  header := Nat.le_trans hx.header (Nat.le_add_right _ _)
  high := by
    have := hy.high
    dsimp only
    omega

/-- The list in memory after the insertion: the block and one region of the list have got new
headers. -/
theorem insert_nodes (arena : Arena h.xStart h.pxEnd lo)
    (listed : Listed h.mem h.xStart h.pxEnd lo frees)
    (fits : Fits lo h.pxEnd (b, s)) (size : sizeAt h.mem b = s)
    (apart : ∀ x ∈ frees, x.1 + x.2 ≤ b ∨ b + s ≤ x.1) :
    ∃ m', Yields (fun fuel => prvInsertBlockIntoFreeList fuel b h) { h with mem := m' } ∧
      Nodes m' h.pxEnd ((h.xStart, 0) :: insert b s frees) ∧
      ∃ x ∈ (h.xStart, 0) :: frees, ∀ a, ¬ (x.1 ≤ a ∧ a < x.1 + 16) →
        ¬ (b ≤ a ∧ a < b + 16) → m' a = h.mem a := by
  have nz : b ≠ 0 := fits.ne_zero arena
  have header : 16 ≤ s := fits.header
  have high : b + s ≤ h.pxEnd := fits.high
  have end_lt := arena.end_lt
  have clear := listed.clear arena
  have clearb : ∀ x ∈ (h.xStart, 0) :: frees, Clear x.1 b := by
    refine List.forall_mem_cons.mpr ⟨fits.clear_start arena, fun x hx => ?_⟩
    exact clear_of_apart (y := (b, s)) (listed.fits x hx).header header (apart x hx)
  have nzs : ∀ x ∈ (h.xStart, 0) :: frees, x.1 ≠ 0 :=
    List.forall_mem_cons.mpr ⟨Nat.pos_iff_ne_zero.mp arena.start_pos,
      fun x hx => (listed.fits x hx).ne_zero arena⟩
  obtain ⟨before, behind, rfl, lt, le⟩ := listed.sep.split b
  have inner : b ≤ first h.pxEnd behind := by
    cases behind with
    | nil =>
      show b ≤ h.pxEnd
      omega
    | cons y behind => exact le y List.mem_cons_self
  obtain ⟨init, it, list, loop⟩ := findPlace_yields (h.xStart, 0) listed.nodes
    (fun y hy => nzs y (List.mem_append_left behind hy)) lt inner
  have pure' := insert_melt (s := s) (show h.xStart + 0 ≠ b by
    have := (fits.clear_start arena)
    unfold Clear at this
    omega) list listed.sep lt le
  -- the iterator, and the list from it
  have hit : it ∈ (h.xStart, 0) :: (before ++ behind) := by
    rw [← List.cons_append, list]
    simp
  have whole : init ++ it :: behind = (h.xStart, 0) :: (before ++ behind) := by
    rw [← List.cons_append, list, List.append_assoc, List.cons_append, List.nil_append]
  have nodes := listed.nodes
  rw [← whole] at nodes clear
  obtain ⟨nodesInit, nextIt, sizeIt, nodesBehind⟩ := nodes_append.mp nodes
  obtain ⟨-, clearIt, clearInit⟩ := List.pairwise_append.mp clear
  obtain ⟨clearBehind, -⟩ := List.pairwise_cons.mp clearIt
  have bound : it.1 + it.2 < 2 ^ 64 ∧ it.2 + s ≤ h.pxEnd ∧ it.1 + it.2 ≤ h.pxEnd ∨
      it = (h.xStart, 0) := by
    rcases List.mem_cons.mp hit with rfl | hit
    · exact Or.inr rfl
    · have := (listed.fits it hit).high
      have := apart it hit
      refine Or.inl ?_
      omega
  obtain ⟨m₁, run₁, size₁, next₁, within₁⟩ := mergeBefore_spec it (nzs it hit) nz
    (by
      have := arena.start_lt
      rcases bound with bound | rfl
      · omega
      · exact this)
    (by
      rcases bound with bound | rfl
      · omega
      · dsimp only
        omega) sizeIt size
  -- the block that the regions behind may melt with ends where `b` ends
  obtain ⟨stop, isIt⟩ : (meltBefore it b s).1 + (meltBefore it b s).2 = b + s ∧
      (if it.1 + it.2 = b then (meltBefore it b s).1 = it.1 else (meltBefore it b s).1 = b) := by
    unfold meltBefore
    split <;> refine ⟨?_, rfl⟩
    · dsimp only
      omega
    · rfl
  generalize meltBefore it b s = y at pure' run₁ size₁ next₁ within₁ stop isIt
  have isItOr : y.1 = it.1 ∨ y.1 = b := by
    split at isIt
    · exact Or.inl isIt
    · exact Or.inr isIt
  have clearY : ∀ x ∈ init ++ behind, Clear x.1 y.1 := by
    intro x hx
    have other : Clear x.1 it.1 := by
      rcases List.mem_append.mp hx with hx | hx
      · exact clearInit x hx it List.mem_cons_self
      · exact (clearBehind x hx).symm
    have mem : x ∈ (h.xStart, 0) :: (before ++ behind) := by
      rw [← whole]
      rcases List.mem_append.mp hx with hx | hx
      · exact List.mem_append_left _ hx
      · exact List.mem_append_right _ (List.mem_cons_of_mem it hx)
    rcases isItOr with same | same <;> rw [same]
    · exact other
    · exact clearb x mem
  obtain ⟨m₂, run₂, nodes₂, within₂⟩ := mergeBehind_spec (h := { h with mem := m₁ })
    it.1 y.1 y.2
    (by rcases isItOr with same | same <;> rw [same]; exacts [nzs it hit, nz]) (nzs it hit)
    (by
      rcases isItOr with same | same <;> rw [same]
      · exact Or.inl rfl
      · exact Or.inr (clearb it hit))
    size₁ (next₁.trans nextIt)
    (nodesBehind.congr fun x hx => within₁.same (clearY x (List.mem_append_right _ hx)).symm)
    (fun x hx => by
      refine ⟨?_, (clearY x (List.mem_append_right _ hx)).symm⟩
      have := apart x (List.mem_append_right _ hx)
      have := (listed.fits x (List.mem_append_right _ hx)).header
      have := le x hx
      omega)
    (by dsimp only; omega) end_lt
    (fun x hx => by
      have fits := listed.fits x (List.mem_append_right _ hx)
      exact ⟨Nat.le_trans arena.lo_pos fits.low, fits.header, fits.high⟩)
  have nodesInit₂ : Nodes m₂ it.1 init := (nodesInit.congr fun x hx =>
    within₁.same (clearY x (List.mem_append_left _ hx)).symm).congr fun x hx =>
      within₂.same (clearY x (List.mem_append_left _ hx)).symm
  have run : ∀ {h'' : Heap}, (if it.1 ≠ y.1 then ({ h with mem := m₂ } : Heap).setNext it.1 y.1
      else pure { h with mem := m₂ } : C Heap) = .ok h'' →
      Yields (fun fuel => prvInsertBlockIntoFreeList fuel b h) h'' := by
    intro h'' relink
    refine loop.bind (Yields.of_ok ?_)
    rw [run₁, ok_bind]
    dsimp only
    rw [run₂, ok_bind, relink]
  have outside : ∀ a, ¬ (it.1 ≤ a ∧ a < it.1 + 16) → ¬ (b ≤ a ∧ a < b + 16) →
      m₂ a = h.mem a := by
    intro a outIt outB
    have outY : ¬ (y.1 ≤ a ∧ a < y.1 + 16) := by
      rcases isItOr with same | same <;> rw [same]
      exacts [outIt, outB]
    exact (within₂ a outY).trans (within₁ a outY)
  by_cases touch : it.1 + it.2 = b
  · rw [if_pos touch] at isIt pure'
    refine ⟨m₂, run (if_neg (by rw [isIt]; exact fun ne => ne rfl)), ?_, it, hit, outside⟩
    rw [pure', List.nil_append, nodes_append, first_join, isIt]
    refine ⟨nodesInit₂, ?_⟩
    rw [← isIt]
    exact nodes₂
  · rw [if_neg touch] at isIt pure'
    have apartIt : Clear it.1 y.1 := by
      rw [isIt]
      exact clearb it hit
    have ne : it.1 ≠ y.1 := by
      unfold Clear at apartIt
      omega
    refine ⟨store64 it.1 y.1 m₂, run ?_, ?_, it, hit, fun a outIt outB => ?_⟩
    · rw [if_pos ne, setNext_ok (nzs it hit)]
    · rw [pure', List.cons_append, List.nil_append, nodes_append]
      refine ⟨nodesInit₂.congr fun x hx => (within_next it.1 _ _).same
        (clearInit x hx it List.mem_cons_self).symm, ?_, ?_, nodes₂.congr fun x hx =>
          (within_next it.1 _ _).same ?_⟩
      · rw [nextAt_next, first_join, Nat.mod_eq_of_lt]
        omega
      · rw [sizeAt_next, (within₂.same apartIt.symm).size, (within₁.same apartIt.symm).size, sizeIt]
      · -- a region of `join` begins where the block or a region behind it begins
        exact forall_join (P := fun z => Clear it.1 z.1) (fun _ _ _ hz _ => hz) apartIt
          clearBehind x hx
    · exact (within_next it.1 _ _ a outIt).trans (outside a outIt outB)

/-- The bytes outside the header at `p` and the regions are as they were. -/
def Kept (p : Nat) (regions : List Region) (m m' : Bytes) : Prop :=
  ∀ a, ¬ (p ≤ a ∧ a < p + 16) → (∀ x ∈ regions, ¬ Inside a x) → m' a = m a

/-- `prvInsertBlockIntoFreeList` returns, and has inserted the block. -/
theorem insert_spec (arena : Arena h.xStart h.pxEnd lo)
    (listed : Listed h.mem h.xStart h.pxEnd lo frees)
    (fits : Fits lo h.pxEnd (b, s)) (size : sizeAt h.mem b = s)
    (apart : ∀ x ∈ frees, x.1 + x.2 ≤ b ∨ b + s ≤ x.1) :
    ∃ m', Yields (fun fuel => prvInsertBlockIntoFreeList fuel b h) { h with mem := m' } ∧
      Listed m' h.xStart h.pxEnd lo (insert b s frees) ∧
      Kept h.xStart ((b, s) :: frees) h.mem m' := by
  obtain ⟨m', run, nodes, x, hx, same⟩ := insert_nodes arena listed fits size apart
  have header : 16 ≤ s := fits.header
  refine ⟨m', run, ⟨nodes, separate_insert apart listed.sep (fun y hy => ?_) (by omega),
    forall_insert Fits.melt fits listed.fits⟩, fun a outStart out => same a ?_ ?_⟩
  · have := (listed.fits y hy).header
    omega
  · rcases List.mem_cons.mp hx with rfl | hx
    · exact outStart
    · have := (listed.fits x hx).header
      have := out x (List.mem_cons_of_mem _ hx)
      unfold Inside at this
      omega
  · have := out (b, s) List.mem_cons_self
    unfold Inside at this
    dsimp only at this
    omega

theorem Kept.same (kept : Kept p regions m m') (start : Clear p q)
    (apart : ∀ x ∈ regions, Apart (q, 16) x) : SameHeader m m' q := by
  intro a lo hi
  refine kept a (by unfold Clear at start; omega) fun x hx inside => ?_
  exact apart x hx a ⟨lo, hi⟩ inside

theorem Kept.mono (kept : Kept p regions m m')
    (sub : ∀ x ∈ regions, ∀ a, Inside a x → ∃ y ∈ regions', Inside a y) :
    Kept p regions' m m' := fun a start out => kept a start fun x hx inside => by
  obtain ⟨y, hy, inside⟩ := sub x hx a inside
  exact out y hy inside

theorem Kept.trans (kept : Kept p regions m m') (kept' : Kept p regions m' m'') :
    Kept p regions m m'' := fun a start out => (kept' a start out).trans (kept a start out)

/-- The header of a block is in the block. -/
theorem Fits.headerApart {hi : Nat} (fits : Fits lo hi x) (apart : Apart x y) :
    Apart (x.1, 16) y := fun a ha hy => by
  have := fits.header
  have := ha.2
  exact apart a ⟨ha.1, by dsimp only at this; omega⟩ hy

/-- A change in regions apart from the free list leaves it as it is. -/
theorem Listed.kept (regions : List Region) (listed : Listed m p e lo frees)
    (within : ∀ a, (∀ x ∈ regions, ¬ Inside a x) → m' a = m a)
    (apart : ∀ x ∈ (p, 16) :: frees, ∀ y ∈ regions, Apart x y) :
    Listed m' p e lo frees where
  nodes := by
    refine listed.nodes.congr fun x hx a low high => within a fun y hy inside => ?_
    rcases List.mem_cons.mp hx with rfl | hx
    · exact apart (p, 16) List.mem_cons_self y hy a ⟨low, high⟩ inside
    · have := (listed.fits x hx).header
      exact apart x (List.mem_cons_of_mem _ hx) y hy a ⟨low, by omega⟩ inside
  sep := listed.sep
  fits := listed.fits

end

end BottlerOS.HeapNodes
