import BottlerOS.BuddySound

/-! `pvPortMalloc` with any `size_t`, and `buddy_free` with any pointer. -/

namespace BottlerOS.BuddyRuns
open Machine BuddyHeap BuddyTree BuddyNodes BuddyPages Yields

/-- The call comes back, with every index on its way in the tree, and what it returns is NULL or a
block of at least `n` bytes. -/
def Serves (b : Heap) (n : Int) : Prop :=
  ∃ p b', Yields (fun f => pvPortMalloc f n b) (p, b') ∧ (p ≠ NULL → ∃ i d, Seen b' i d ∧
    b'.tree i = .used ∧ (nodeBlock b' i d).ptr = p ∧ n ≤ (nodeBlock b' i d).pages * PAGE_SIZE)

/-- The call comes back, with every index on its way in the tree; it releases the block that starts
at `p`, or there is none and nothing happens. -/
def Exact (b : Heap) (live : List Given) (p : Int) : Prop :=
  ∃ r b', Yields (fun f => buddyFree f p b) (r, b') ∧
    ((∃ g ∈ live, g.ptr = p ∧ r = 0 ∧ Sound b' (live.erase g)) ∨
      (∀ g ∈ live, g.ptr ≠ p) ∧ r = -1 ∧ b' = b)

section
variable {b : Heap} {live : List Given} {t : Arena 17} {n p : Int}

theorem Inv.exact_iff (inv : Inv b live t) (p : Int) :
    Exact b live p ↔
      (∃ g ∈ live, g.ptr = p) ∨ ∀ g ∈ live, pageOf g.ptr b ≠ pageOf p b := by
  obtain ⟨g, hg, page, b', t', yields, inv'⟩ | ⟨none, yields⟩ := inv.free p
  · constructor
    · rintro ⟨r, b₁, yields', released | ⟨-, rfl, -⟩⟩
      · obtain ⟨g, hg, ptr, -⟩ := released
        exact .inl ⟨g, hg, ptr⟩
      · obtain ⟨fuel, run⟩ := yields'.exists
        obtain ⟨refused, -⟩ := Prod.mk.inj (yields.eq run)
        cases refused
    · rintro (⟨g', hg', rfl⟩ | none)
      · obtain rfl := inv.pages_inj hg hg' page
        exact ⟨0, b', yields, .inl ⟨g, hg, rfl, rfl, inv'.sound⟩⟩
      · exact absurd page (none g hg)
  · refine iff_of_true ⟨-1, b, yields, .inr ⟨?_, rfl, rfl⟩⟩ (.inr none)
    rintro g hg rfl
    exact none g hg rfl

/-- A size that an `int` holds. -/
theorem Inv.serves_small (inv : Inv b live t) (some : 0 ≤ n) (small : n < 2 ^ 31) :
    Serves b n := by
  have high : n ≤ INT_MAX := by
    unfold INT_MAX
    omega
  have same : int32 n = n := int32_of_range (by omega) high
  have pages : 0 ≤ pagesFor n := by
    rw [pagesFor_nonneg some]
    omega
  have call : ∀ f, pvPortMalloc f n b = buddyAlloc f n b := fun f => by rw [pvPortMalloc, same]
  obtain ⟨o, b', t', -, -, yields, inv'⟩ | ⟨-, yields⟩ := inv.alloc pages high
  · refine ⟨pagePtr o, b', yields.congr call, fun _ => ?_⟩
    obtain ⟨i, d, seen, used, block⟩ := (inv'.used_iff _).mp List.mem_cons_self
    refine ⟨i, d, seen, used, ?_, ?_⟩
    · rw [← block]
    · rw [← block]
      exact le_rounded some
  · exact ⟨NULL, b, yields.congr call, fun some => absurd rfl some⟩

theorem int32_range (x : Int) : -2 ^ 31 ≤ int32 x ∧ int32 x ≤ INT_MAX := by
  unfold int32 INT_MAX
  omega

/-- A size that no block is large enough for. -/
theorem Inv.serves_large (inv : Inv b live t) (large : 2 ^ 31 ≤ n) :
    Serves b n ↔ ∀ o, ¬ Vacant live (rounded (int32 n)) o := by
  obtain ⟨low, high⟩ := int32_range n
  rcases Int.lt_or_le (pagesFor (int32 n)) 0 with below | pages
  · rw [inv.vacant_page below]
    obtain ⟨full, yields⟩ | ⟨some, faults⟩ := inv.alloc_zero low below
    · exact iff_of_true ⟨NULL, b, yields, fun some => absurd rfl some⟩ full
    · refine iff_of_false ?_ fun full => ?_
      · rintro ⟨p, b', yields, -⟩
        exact faults.not_yields _ yields
      · rw [full] at some
        cases some
  · obtain ⟨o, b', t', vacant, -, yields, -⟩ | ⟨none, yields⟩ := inv.alloc pages high
    · refine iff_of_false ?_ fun none => none o vacant
      rintro ⟨p, b₁, yields', block⟩
      obtain ⟨fuel, run⟩ := yields'.exists
      obtain ⟨rfl, rfl⟩ := Prod.mk.inj (yields.eq run)
      obtain ⟨i, d, -, -, -, room⟩ := block (pagePtr_ne_null o)
      have most : (nodeBlock b₁ i d).pages ≤ 2 ^ 17 :=
        Nat.pow_le_pow_right (by omega) (by omega)
      unfold PAGE_SIZE at room
      omega
    · exact iff_of_true ⟨NULL, b, yields, fun some => absurd rfl some⟩ none

end

/-- `pvPortMalloc` serves a request if and only if an `int` holds it, or there is no room for what
is left of it. -/
theorem pvPortMalloc_serves_iff {b : Heap} {live : List Given} {n : Int}
    (reached : Reached b live) (some : 0 ≤ n) :
    Serves b n ↔ n < 2 ^ 31 ∨ ∀ o, ¬ Vacant live (rounded (int32 n)) o := by
  obtain ⟨t, inv⟩ := reached_inv reached
  rcases Int.lt_or_le n (2 ^ 31) with small | large
  · exact iff_of_true (inv.serves_small some small) (.inl small)
  · rw [inv.serves_large large]
    exact (or_iff_right (Int.not_lt.mpr large)).symm

theorem pvPortMalloc_serves_first : Serves (initMemoryManager memoryModuleAddress) 5000 ↔
    (5000 : Int) < 2 ^ 31 ∨ ∀ o, ¬ Vacant [] (rounded (int32 5000)) o :=
  pvPortMalloc_serves_iff .init (by decide)

/-- One page for 4 GB and a byte. -/
theorem large_served_small : Reached (initMemoryManager memoryModuleAddress) [] ∧
    ¬ Serves (initMemoryManager memoryModuleAddress) (2 ^ 32 + 1) := by
  refine ⟨.init, fun serves => ?_⟩
  have none := (inv_init.serves_large (by decide)).mp serves
  exact none 0 ⟨Nat.dvd_zero _, by decide, by simp⟩

/-- `buddy_free` is exact if and only if the pointer is a live block's, or does not lie in the
first page of one as the code counts pages. -/
theorem buddyFree_exact_iff {b : Heap} {live : List Given} (reached : Reached b live) (p : Int) :
    Exact b live p ↔
      (∃ g ∈ live, g.ptr = p) ∨ ∀ g ∈ live, pageOf g.ptr b ≠ pageOf p b := by
  obtain ⟨t, inv⟩ := reached_inv reached
  exact inv.exact_iff p

theorem buddyFree_exact_first : Exact (initMemoryManager memoryModuleAddress) [] 5 ↔
    (∃ g ∈ ([] : List Given), g.ptr = 5) ∨
      ∀ g ∈ ([] : List Given), pageOf g.ptr (initMemoryManager memoryModuleAddress) ≠
        pageOf 5 (initMemoryManager memoryModuleAddress) :=
  buddyFree_exact_iff .init 5

/-- A pointer into the first page of a block frees it. -/
theorem inside_freed : ∃ b, Reached b [⟨pagePtr 0, 2⟩] ∧
    ¬ Exact b [⟨pagePtr 0, 2⟩] (pagePtr 0 + 1) := by
  obtain ⟨fuel, b, t, run, inv⟩ := first_alloc (s := 5000) (by decide) (by decide) (by decide)
  rw [rounded_5000] at inv
  have reached := Reached.init.alloc (by decide) (by decide) run
  rw [if_neg (pagePtr_ne_null 0), rounded_5000] at reached
  refine ⟨b, reached, fun exact_ => ?_⟩
  have page : pageOf (pagePtr 0) b = pageOf (pagePtr 0 + 1) b := by
    rw [pageOf, pageOf, inv.base]
    decide
  rcases (inv.exact_iff _).mp exact_ with ⟨g, hg, ptr⟩ | none
  · obtain rfl := List.mem_singleton.mp hg
    revert ptr
    decide
  · exact none _ List.mem_cons_self page

end BottlerOS.BuddyRuns
