import BottlerOS.BuddyPages
import BottlerOS.BuddyRelease
import BottlerOS.BuddySearch

/-! The buddy heap over whole runs of `buddy_alloc` and `buddy_free`, with the blocks that are
out. -/

namespace BottlerOS.BuddyRuns
open Machine BuddyHeap BuddyTree BuddyNodes BuddyPages BuddySearch BuddyRelease Yields

/-- A block that has been handed out: its pointer and its pages. -/
structure Given where
  ptr : Int
  pages : Nat
  deriving DecidableEq

def Given.end_ (g : Given) : Int := g.ptr + g.pages * PAGE_SIZE

/-- The pointer to a page of the heap. -/
def pagePtr (page : Nat) : Int := memoryModuleAddress + page * PAGE_SIZE

/-- `n` pages on a boundary of their own length that no block meets. -/
structure Vacant (live : List Given) (n page : Nat) : Prop where
  aligned : n ∣ page
  inside : page + n ≤ SIZE
  apart : ∀ g ∈ live, g.end_ ≤ pagePtr page ∨ pagePtr (page + n) ≤ g.ptr

/-- Runs of the two calls, with any `int` and any pointer. `live` is what has been handed out and
not given back. -/
inductive Reached : Heap → List Given → Prop
  | init : Reached (initMemoryManager memoryModuleAddress) []
  | alloc {b b' : Heap} {live : List Given} {fuel : Nat} {s p : Int} : Reached b live →
      -2 ^ 31 ≤ s → s ≤ INT_MAX → buddyAlloc fuel s b = .ok (p, b') →
      Reached b' (if p = NULL then live else ⟨p, rounded s⟩ :: live)
  | free {b b' : Heap} {live : List Given} {fuel : Nat} {p r : Int} : Reached b live →
      buddyFree fuel p b = .ok (r, b') →
      Reached b' (if r = 0 then live.filter fun g => pageOf g.ptr b ≠ pageOf p b else live)

/-- Runs in which the sizes are not negative and only live blocks are given back. -/
inductive Proper : Heap → List Given → Prop
  | init : Proper (initMemoryManager memoryModuleAddress) []
  | alloc {b b' : Heap} {live : List Given} {fuel : Nat} {s p : Int} : Proper b live →
      0 ≤ s → s ≤ INT_MAX → buddyAlloc fuel s b = .ok (p, b') →
      Proper b' (if p = NULL then live else ⟨p, rounded s⟩ :: live)
  | free {b b' : Heap} {live : List Given} {fuel : Nat} {g : Given} {r : Int} : Proper b live →
      g ∈ live → buddyFree fuel g.ptr b = .ok (r, b') → Proper b' (live.erase g)

/-- The nodes on level `d` that are reached from the root through SPLIT and FULL nodes. -/
inductive Seen (b : Heap) : (i d : Nat) → Prop
  | root : Seen b 0 0
  | left {i d : Nat} : Seen b i d → b.tree i = .split ∨ b.tree i = .full →
      Seen b (2 * i + 1) (d + 1)
  | right {i d : Nat} : Seen b i d → b.tree i = .split ∨ b.tree i = .full →
      Seen b (2 * i + 2) (d + 1)

/-- The pages of a node. -/
def nodeBlock (b : Heap) (i d : Nat) : Given :=
  ⟨voidPtr (indexOffset i d b.level b.heapAddress), 2 ^ (17 - d)⟩

/-- The tree marks the blocks in `live` and nothing else. -/
structure Sound (b : Heap) (live : List Given) : Prop where
  apart : live.Pairwise fun x y => x.end_ ≤ y.ptr ∨ y.end_ ≤ x.ptr
  aligned : ∀ g ∈ live, (∃ k, g.pages = 2 ^ k) ∧
    (g.pages * PAGE_SIZE : Int) ∣ g.ptr - b.heapAddress
  inside : ∀ g ∈ live, b.heapAddress ≤ g.ptr ∧ g.end_ ≤ b.heapAddress + 2 ^ 17 * PAGE_SIZE
  used : ∀ g, g ∈ live ↔ ∃ i d, Seen b i d ∧ b.tree i = .used ∧ g = nodeBlock b i d
  full : ∀ i d, Seen b i d →
    (b.tree i = .full ↔ d < 17 ∧ Busy (b.tree (2 * i + 1)) ∧ Busy (b.tree (2 * i + 2)))
  split : ∀ i d, Seen b i d → b.tree i = .split →
    ¬ (b.tree (2 * i + 1) = .unused ∧ b.tree (2 * i + 2) = .unused)
  empty : live = [] → b.tree 0 = .unused

def given (x : Block) : Given := ⟨pagePtr x.start, 2 ^ x.height⟩

/-- The heap holds a buddy tree whose blocks are the live ones. -/
structure Inv (b : Heap) (live : List Given) (t : Arena 17) : Prop where
  level : b.level = LEVEL
  base : b.heapAddress = memoryModuleAddress
  rep : Rep b.tree 0 t
  compact : t.Compact
  blocks : live.Perm ((t.blocks 0).map given)

section
variable {b b' : Heap} {live live' : List Given} {t t' : Arena 17} {s p r : Int} {g g' : Given}
  {i d h j o n : Nat} {x : Block}

/-! Pointers and pages. -/

theorem address_eq (base : b.heapAddress = memoryModuleAddress) (inside : o < SIZE) :
    address o b = pagePtr o := by
  unfold SIZE at inside
  unfold address voidPtr pagePtr PAGE_SIZE
  rw [base]
  unfold memoryModuleAddress
  rw [int32_of_range (by omega) (by unfold INT_MAX; omega)]
  omega

theorem pagePtr_ne_null (page : Nat) : pagePtr page ≠ NULL := by
  unfold pagePtr PAGE_SIZE memoryModuleAddress NULL
  omega

theorem pageOf_pagePtr (base : b.heapAddress = memoryModuleAddress) (inside : o < SIZE) :
    pageOf (pagePtr o) b = o := by
  unfold SIZE at inside
  unfold pageOf pagePtr PAGE_SIZE
  rw [base]
  unfold memoryModuleAddress
  rw [int32_of_range (x := 0x600000 + _) (by omega) (by unfold INT_MAX; omega),
    int32_of_range (by omega) (by unfold INT_MAX; omega), Int.tdiv_eq_ediv_of_nonneg (by omega)]
  omega

theorem pagePtr_le {page page' : Nat} : pagePtr page ≤ pagePtr page' ↔ page ≤ page' := by
  unfold pagePtr PAGE_SIZE
  omega

theorem given_end (x : Block) : (given x).end_ = pagePtr (x.start + 2 ^ x.height) := by
  unfold given Given.end_ pagePtr
  push_cast
  rw [Int.add_mul]
  omega

theorem Inv.mem_iff (inv : Inv b live t) : g ∈ live ↔ ∃ x ∈ t.blocks 0, given x = g := by
  rw [inv.blocks.mem_iff, List.mem_map]

theorem block_inside (hx : x ∈ t.blocks 0) : x.start + 2 ^ x.height ≤ SIZE := by
  have := (Arena.blocks_within hx).2
  rwa [Nat.zero_add] at this

theorem block_lt (hx : x ∈ t.blocks 0) : x.start < SIZE := by
  have := block_inside hx
  have := Nat.two_pow_pos x.height
  omega

theorem Inv.pageOf_given (inv : Inv b live t) (hx : x ∈ t.blocks 0) :
    pageOf (given x).ptr b = x.start :=
  pageOf_pagePtr inv.base (block_lt hx)

/-- Vacant pages are room in the tree. -/
theorem Inv.vacant_iff (inv : Inv b live t) :
    Vacant live (2 ^ j) o ↔ Room (t.blocks 0) 17 0 j o := by
  have blocks : (∀ g ∈ live, g.end_ ≤ pagePtr o ∨ pagePtr (o + 2 ^ j) ≤ g.ptr) ↔
      ∀ x ∈ t.blocks 0, x.start + 2 ^ x.height ≤ o ∨ o + 2 ^ j ≤ x.start := by
    constructor
    · intro all x hx
      have apart := all (given x) (inv.mem_iff.mpr ⟨x, hx, rfl⟩)
      rw [given_end, pagePtr_le] at apart
      exact apart.imp_right pagePtr_le.mp
    · intro all g hg
      obtain ⟨x, hx, rfl⟩ := inv.mem_iff.mp hg
      rw [given_end, pagePtr_le]
      exact (all x hx).imp_right pagePtr_le.mpr
  constructor
  · rintro ⟨aligned, inside, apart⟩
    exact ⟨aligned, Nat.zero_le _, by rwa [Nat.zero_add], blocks.mp apart⟩
  · rintro ⟨aligned, -, inside, apart⟩
    rw [Nat.zero_add] at inside
    exact ⟨aligned, inside, blocks.mpr apart⟩

/-! The first heap. -/

theorem stale_unused (h i : Nat) : Stale (fun _ => .unused) h i := by
  induction h generalizing i with
  | zero => trivial
  | succ h ih => exact ⟨by simp [Busy], ih _, ih _⟩

theorem inv_init : Inv (initMemoryManager memoryModuleAddress) [] .unused where
  level := rfl
  base := by decide
  rep := ⟨rfl, stale_unused 17 0⟩
  compact := trivial
  blocks := List.Perm.refl _

/-! `buddy_alloc` -/

theorem length_eq (level : b.level = LEVEL) : (2 : Int) ^ b.level.toNat = 2 ^ 17 := by
  rw [level]
  rfl

/-- The root has no parents to mark. -/
theorem settle_root (full : Bool) (b : Heap) : Yields (fun f => settle full f 0 b) b := by
  cases full with
  | false => exact Yields.of_ok rfl
  | true => exact markParent_root b

/-- What a call for pages gives. -/
theorem Inv.alloc (inv : Inv b live t) (some : 0 ≤ pagesFor s) (high : s ≤ INT_MAX) :
    (∃ o b' t', Vacant live (rounded s) o ∧ (∀ o', Vacant live (rounded s) o' → o ≤ o') ∧
      Yields (fun f => buddyAlloc f s b) (pagePtr o, b') ∧
      Inv b' (⟨pagePtr o, rounded s⟩ :: live) t') ∨
    (∀ o, ¬ Vacant live (rounded s) o) ∧ Yields (fun f => buddyAlloc f s b) (NULL, b) := by
  have turn : ∀ f, buddyAlloc f s b =
      if (2 : Int) ^ order s > 2 ^ 17 then .ok (NULL, b)
      else search (2 ^ order s) f (0 : Nat) (0 : Nat) (2 ^ 17) b := by
    intro f
    rw [buddyAlloc, blockSize_pow some high, length_eq inv.level]
    rfl
  by_cases fits : order s ≤ 17
  · have within : ¬ (2 : Int) ^ order s > 2 ^ 17 := by
      exact_mod_cast Nat.not_lt.mpr (Nat.pow_le_pow_right (by omega) fits)
    cases found : t.alloc (order s) 0 with
    | none =>
      right
      constructor
      · intro o vacant
        exact Arena.alloc_none (Nat.dvd_zero _) fits inv.compact found o (inv.vacant_iff.mp vacant)
      · refine Yields.congr ?_ fun f => (turn f).trans (if_neg within)
        exact search_none at_root inv.rep fits found .root (Yields.of_ok rfl)
    | some a =>
      left
      obtain ⟨o, t'⟩ := a
      obtain ⟨room, least⟩ := Arena.alloc_room (Nat.dvd_zero _) fits inv.compact found
      obtain ⟨tree, rep, -, up⟩ := search_some at_root inv.rep fits found
      have lt : o < SIZE := by
        have := room.below
        have := Nat.two_pow_pos (order s)
        unfold SIZE
        omega
      refine ⟨o, { b with tree := tree }, t', inv.vacant_iff.mpr room, fun o' vacant => ?_, ?_, ?_⟩
      · exact least o' (inv.vacant_iff.mp vacant)
      · refine Yields.congr ?_ fun f => (turn f).trans (if_neg within)
        have done := up { b with tree := tree } inv.level (settle_root _ _)
        rwa [address_eq (b := { b with tree := tree }) inv.base lt] at done
      · refine ⟨inv.level, inv.base, rep, Arena.alloc_compact inv.compact found, ?_⟩
        have blocks := (Arena.alloc_blocks fits found).map given
        rw [List.map_cons] at blocks
        exact (inv.blocks.cons ⟨pagePtr o, rounded s⟩).trans blocks.symm
  · right
    constructor
    · rintro o ⟨-, inside, -⟩
      have : SIZE < rounded s := Nat.pow_lt_pow_right (by omega) (by omega)
      omega
    · have past : (2 : Int) ^ order s > 2 ^ 17 := by
        exact_mod_cast Nat.pow_lt_pow_right (by omega) (by omega)
      exact Yields.of_ok rfl |>.congr fun f => (turn f).trans (if_pos past)

/-! A negative count of pages. -/

/-- The computation leaves the tree. -/
structure Faults {α : Type} (f : Nat → C α) : Prop where
  comes : ∃ k, ∀ fuel, k ≤ fuel → f fuel = .error .outOfBounds
  only : ∀ fuel a, f fuel ≠ .ok a

theorem Faults.step {α : Type} {f g : Nat → C α} (faults : Faults g) (stop : ∀ a, f 0 ≠ .ok a)
    (next : ∀ n, f (n + 1) = g n) : Faults f where
  comes := by
    obtain ⟨k, hk⟩ := faults.comes
    refine ⟨k + 1, fun fuel le => ?_⟩
    obtain ⟨n, rfl⟩ : ∃ n, fuel = n + 1 := ⟨fuel - 1, by omega⟩
    rw [next]
    exact hk n (by omega)
  only fuel a run := by
    cases fuel with
    | zero => exact stop a run
    | succ n => exact faults.only n a (next n ▸ run)

theorem Faults.not_yields {α : Type} {f : Nat → C α} (faults : Faults f) (a : α) :
    ¬ Yields f a := by
  intro yields
  obtain ⟨fuel, run⟩ := yields.exists
  exact faults.only fuel a run

theorem Faults.of_error {α : Type} : Faults fun _ => (.error .outOfBounds : C α) :=
  ⟨⟨0, fun _ _ => rfl⟩, fun _ _ run => by cases run⟩

theorem zero_ne_pow (h : Nat) : (0 : Int) ≠ 2 ^ h := by
  exact_mod_cast (Nat.two_pow_pos h).ne

theorem search_stop (size : Int) (i d : Nat) (length : Int) (b : Heap) (a : Int × Heap) :
    search size 0 i d length b ≠ .ok a := by
  intro run
  rw [search] at run
  cases run

/-- The search for no page splits a page. -/
theorem search_zero_unused {i d h s : Nat} {b : Heap} (here : At i d h s)
    (unused : b.tree i = .unused) (stale : Stale b.tree h i) :
    Faults fun f => search 0 f i d (2 ^ h) b := by
  induction h generalizing i d s b with
  | zero =>
    refine Faults.of_error.step (search_stop 0 i d _ b) fun f => ?_
    have outside : ¬ (0 ≤ (i : Int) * 2 + 1 ∧ (i : Int) * 2 + 1 < 2 * SIZE - 1) := by
      obtain ⟨height, p, hi, -⟩ := here
      obtain rfl : d = 17 := height
      unfold SIZE
      omega
    have turn : search 0 (f + 1) i d (2 ^ 0) b = (do
        let b ← b.write i .split
        let b ← b.write ((i : Int) * 2 + 1) .unused
        let b ← b.write ((i : Int) * 2 + 2) .unused
        search 0 f (i * 2 + 1) (d + 1) (((2 : Int) ^ 0).tdiv 2) b) := by
      rw [search, if_neg (by omega), if_neg (zero_ne_pow 0), read_ok here.lt, unused, ok_bind]
    rw [turn, write_ok here.lt, ok_bind, Heap.write, if_neg outside]
    rfl
  | succ h ih =>
    obtain ⟨-, left, -⟩ := opened_rep stale
    exact (ih here.left left.1 left.2).step (search_stop 0 i d _ b)
      (search_unused here (zero_ne_pow _) unused)

theorem search_zero {i d h s : Nat} {t : Arena h} {b : Heap} (here : At i d h s)
    (rep : Rep b.tree i t) (some : t.isFull = false) :
    Faults fun f => search 0 f i d (2 ^ h) b := by
  induction t generalizing i d s with
  | unused => exact search_zero_unused here rep.1 rep.2
  | used => cases some
  | @split h l r ihl ihr =>
    have top : b.tree i = .split := by
      rw [rep.mark, mark]
      exact if_neg (Bool.eq_false_iff.mp some)
    refine Faults.step ?_ (search_stop 0 i d _ b) (search_split here (zero_ne_pow _) top)
    cases left : l.isFull with
    | false => exact ihl here.left rep.2.1 left
    | true =>
      have right : r.isFull = false := by
        simpa [Arena.isFull, left] using some
      refine (ihr here.right rep.2.2 right).step (search_stop 0 _ _ _ b) fun f => ?_
      rw [search_taken here.left (.inl ?_), nextStep, if_pos (by omega)]
      · push_cast
        rfl
      · rw [rep.2.1.mark]
        exact mark_busy.mpr left

/-- What a call for a negative number of pages gives. -/
theorem Inv.alloc_zero (inv : Inv b live t) (low : -2 ^ 31 ≤ s) (below : pagesFor s < 0) :
    (t.isFull = true ∧ Yields (fun f => buddyAlloc f s b) (NULL, b)) ∨
      t.isFull = false ∧ Faults fun f => buddyAlloc f s b := by
  have turn : ∀ f, buddyAlloc f s b = search 0 f (0 : Nat) (0 : Nat) (2 ^ 17) b := by
    intro f
    rw [buddyAlloc, blockSize_zero low below, length_eq inv.level]
    exact if_neg (by decide)
  cases full : t.isFull with
  | true =>
    refine .inl ⟨rfl, Yields.congr ?_ turn⟩
    apply search_pass at_root .root _ (Yields.of_ok rfl)
    rw [inv.rep.mark]
    exact .inl (mark_busy.mpr full)
  | false =>
    refine .inr ⟨rfl, ?_⟩
    rw [funext turn]
    exact search_zero at_root inv.rep full

/-- A call for a negative number of pages finds one page or none. -/
theorem Inv.vacant_page (inv : Inv b live t) (below : pagesFor s < 0) :
    (∀ o, ¬ Vacant live (rounded s) o) ↔ t.isFull = true := by
  have none : order s = 0 := by
    rw [order, Int.toNat_eq_zero.mpr (by omega)]
    rfl
  rw [rounded, none]
  constructor
  · intro all
    cases full : t.isFull with
    | true => rfl
    | false =>
      obtain ⟨a, found⟩ := Option.isSome_iff_exists.mp (Arena.alloc_cell full 0)
      obtain ⟨room, -⟩ := Arena.alloc_room (Nat.dvd_zero _) (by omega) inv.compact found
      exact absurd (inv.vacant_iff.mpr room) (all a.1)
  · intro full o vacant
    exact Arena.alloc_none (Nat.dvd_zero _) (by omega) inv.compact (Arena.alloc_full full 0 0) o
      (inv.vacant_iff.mp vacant)

/-! `buddy_free` -/

/-- What a call gives whose page is the first one of a block, and any other call. -/
theorem Inv.free (inv : Inv b live t) (p : Int) :
    (∃ g ∈ live, pageOf g.ptr b = pageOf p b ∧ ∃ b' t',
      Yields (fun f => buddyFree f p b) (0, b') ∧ Inv b' (live.erase g) t') ∨
    (∀ g ∈ live, pageOf g.ptr b ≠ pageOf p b) ∧ Yields (fun f => buddyFree f p b) (-1, b) := by
  have turn : ∀ f, buddyFree f p b = if pageOf p b ≥ 2 ^ 17 then .ok (-1, b)
      else release (pageOf p b) f (0 : Nat) (2 ^ 17) (0 : Nat) b := by
    intro f
    rw [buddyFree, length_eq inv.level]
    rfl
  by_cases past : pageOf p b ≥ 2 ^ 17
  · right
    constructor
    · intro g hg same
      obtain ⟨x, hx, rfl⟩ := inv.mem_iff.mp hg
      have := block_lt hx
      rw [inv.pageOf_given hx] at same
      unfold SIZE at this
      omega
    · exact Yields.of_ok rfl |>.congr fun f => (turn f).trans (if_pos past)
  · cases found : t.free (pageOf p b) 0 with
    | none =>
      right
      constructor
      · intro g hg same
        obtain ⟨x, hx, rfl⟩ := inv.mem_iff.mp hg
        rw [inv.pageOf_given hx] at same
        exact Arena.free_none found hx same
      · exact (release_none at_root inv.rep found).congr fun f => (turn f).trans (if_neg past)
    | some t' =>
      left
      obtain ⟨x, start, perm⟩ := Arena.free_blocks found
      have hx : x ∈ t.blocks 0 := perm.mem_iff.mpr List.mem_cons_self
      refine ⟨given x, inv.mem_iff.mpr ⟨x, hx, rfl⟩, (inv.pageOf_given hx).trans start, ?_⟩
      have rest : (live.erase (given x)).Perm ((t'.blocks 0).map given) := by
        have blocks := (inv.blocks.trans (perm.map given)).erase (given x)
        rwa [List.map_cons, List.erase_cons_head] at blocks
      have compact := Arena.free_compact inv.compact found
      obtain ⟨merges, keeps⟩ := release_some at_root inv.rep found
      cases unused : t'.isUnused with
      | true =>
        obtain ⟨stale, up⟩ := merges unused
        refine ⟨{ b with tree := Function.update b.tree 0 .unused }, t', ?_, ?_⟩
        · exact (up _ (combine_root b)).congr fun f => (turn f).trans (if_neg past)
        · refine ⟨inv.level, inv.base, ?_, compact, rest⟩
          rw [Arena.isUnused_iff] at unused
          subst unused
          refine ⟨Function.update_self 0 Node.unused b.tree, stale.congr fun x _ other => ?_⟩
          exact Function.update_of_ne other _ _
      | false =>
        obtain ⟨tree, rep, -, up⟩ := keeps unused
        refine ⟨{ b with tree := tree }, t', ?_, inv.level, inv.base, rep, compact, rest⟩
        refine (up { b with tree := tree } ?_).congr fun f => (turn f).trans (if_neg past)
        cases t.isFull with
        | false => exact Yields.of_ok rfl
        | true => exact unfull_root _

end

end BottlerOS.BuddyRuns
