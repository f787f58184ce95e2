import Mathlib.Data.List.Nodup
import Mathlib.Data.List.Pairwise
import Mathlib.Tactic.Ring
import BottlerOS.BuddyRuns

/-! What every reachable buddy heap looks like, and what `buddy_alloc` returns there. -/

namespace BottlerOS.BuddyRuns
open Machine BuddyHeap BuddyTree BuddyNodes BuddyPages BuddySearch Yields

/-- The blocks have no byte in common. -/
def Apart (x y : Given) : Prop := x.end_ ≤ y.ptr ∨ y.end_ ≤ x.ptr

instance : Std.Symm Apart where
  symm _ _ apart := apart.symm

section
variable {b b' : Heap} {live live' : List Given} {t t' : Arena 17} {s p r : Int} {g g' : Given}
  {i d h j o n : Nat} {u : Arena h} {x y : Block}

/-! Blocks and their first pages. -/

theorem Inv.apart (inv : Inv b live t) : live.Pairwise Apart := by
  rw [inv.blocks.pairwise_iff fun apart => apart.symm, List.pairwise_map]
  refine (Arena.blocks_apart t 0).imp fun {x y} less => .inl ?_
  rw [given_end]
  exact pagePtr_le.mpr less

theorem Inv.ptr_lt (inv : Inv b live t) (hg : g ∈ live) : g.ptr < g.end_ := by
  obtain ⟨x, -, rfl⟩ := inv.mem_iff.mp hg
  rw [given_end, given, Int.lt_iff_le_and_ne]
  have := Nat.two_pow_pos x.height
  refine ⟨pagePtr_le.mpr (by omega), fun same => ?_⟩
  have := pagePtr_le.mp same.ge
  omega

theorem Inv.nodup (inv : Inv b live t) : live.Nodup := by
  refine inv.apart.imp_of_mem fun {x y} hx _ apart => ?_
  rintro rfl
  have := inv.ptr_lt hx
  rcases apart with less | less <;> omega

/-- No two blocks start on one page. -/
theorem Inv.pages_inj (inv : Inv b live t) (hg : g ∈ live) (hg' : g' ∈ live)
    (same : pageOf g.ptr b = pageOf g'.ptr b) : g = g' := by
  have ptr : g.ptr = g'.ptr := by
    obtain ⟨x, hx, rfl⟩ := inv.mem_iff.mp hg
    obtain ⟨y, hy, rfl⟩ := inv.mem_iff.mp hg'
    rw [inv.pageOf_given hx, inv.pageOf_given hy] at same
    rw [given, given, Int.ofNat.inj same]
  by_contra other
  have := inv.ptr_lt hg
  have := inv.ptr_lt hg'
  rcases inv.apart.forall hg hg' other with less | less <;> omega

/-- The blocks that start on other pages. -/
theorem Inv.filter_eq (inv : Inv b live t) (hg : g ∈ live) (page : pageOf g.ptr b = pageOf p b) :
    (live.filter fun x => pageOf x.ptr b ≠ pageOf p b) = live.erase g := by
  rw [inv.nodup.erase_eq_filter]
  refine List.filter_congr fun x hx => ?_
  rw [← page, Bool.eq_iff_iff, decide_eq_true_iff, bne_iff_ne]
  exact not_congr ⟨inv.pages_inj hx hg, fun eq => eq ▸ rfl⟩

/-! Whole runs. -/

/-- A call that returns has kept the tree. -/
theorem Inv.alloc_run {fuel : Nat} (inv : Inv b live t) (low : -2 ^ 31 ≤ s) (high : s ≤ INT_MAX)
    (run : buddyAlloc fuel s b = .ok (p, b')) :
    ∃ t', Inv b' (if p = NULL then live else ⟨p, rounded s⟩ :: live) t' := by
  rcases Int.lt_or_le (pagesFor s) 0 with below | some
  · obtain ⟨-, yields⟩ | ⟨-, faults⟩ := inv.alloc_zero low below
    · obtain ⟨rfl, rfl⟩ := Prod.mk.inj (yields.eq run)
      exact ⟨t, inv⟩
    · exact absurd run (faults.only fuel _)
  · obtain ⟨o, b₁, t', -, -, yields, inv'⟩ | ⟨-, yields⟩ := inv.alloc some high
    · obtain ⟨rfl, rfl⟩ := Prod.mk.inj (yields.eq run)
      rw [if_neg (pagePtr_ne_null o)]
      exact ⟨t', inv'⟩
    · obtain ⟨rfl, rfl⟩ := Prod.mk.inj (yields.eq run)
      exact ⟨t, inv⟩

theorem reached_inv (reached : Reached b live) : ∃ t, Inv b live t := by
  induction reached with
  | init => exact ⟨_, inv_init⟩
  | alloc _ low high run ih =>
    obtain ⟨t, inv⟩ := ih
    exact inv.alloc_run low high run
  | @free b b' live fuel p r _ run ih =>
    obtain ⟨t, inv⟩ := ih
    obtain ⟨g, hg, page, b₁, t', yields, inv'⟩ | ⟨-, yields⟩ := inv.free p
    · obtain ⟨rfl, rfl⟩ := Prod.mk.inj (yields.eq run)
      rw [if_pos rfl, inv.filter_eq hg page]
      exact ⟨t', inv'⟩
    · obtain ⟨rfl, rfl⟩ := Prod.mk.inj (yields.eq run)
      exact ⟨t, inv⟩

theorem proper_inv (proper : Proper b live) : ∃ t, Inv b live t := by
  induction proper with
  | init => exact ⟨_, inv_init⟩
  | alloc _ some high run ih =>
    obtain ⟨t, inv⟩ := ih
    exact inv.alloc_run (by omega) high run
  | @free b b' live fuel g r _ hg run ih =>
    obtain ⟨t, inv⟩ := ih
    obtain ⟨g', hg', page, b₁, t', yields, inv'⟩ | ⟨none, -⟩ := inv.free g.ptr
    · obtain rfl := inv.pages_inj hg' hg page
      obtain ⟨-, rfl⟩ := Prod.mk.inj (yields.eq run)
      exact ⟨t', inv'⟩
    · exact absurd rfl (none g hg)

/-! The nodes that are reached from the root. -/

/-- A node that is reached has a part of the tree. -/
theorem Inv.seen (inv : Inv b live t) (seen : Seen b i d) : ∃ h s, ∃ u : Arena h, At i d h s ∧
    Rep b.tree i u ∧ u.Compact ∧ ∀ x ∈ u.blocks s, x ∈ t.blocks 0 := by
  induction seen with
  | root => exact ⟨17, 0, t, at_root, inv.rep, inv.compact, fun _ hx => hx⟩
  | left _ inner ih =>
    obtain ⟨h, s, u, here, rep, compact, blocks⟩ := ih
    cases u with
    | unused => simp [rep.1] at inner
    | used => simp [rep.1] at inner
    | split l r =>
      exact ⟨_, s, l, here.left, rep.2.1, compact.2.1, fun x hx =>
        blocks x (List.mem_append_left _ hx)⟩
  | right _ inner ih =>
    obtain ⟨h, s, u, here, rep, compact, blocks⟩ := ih
    cases u with
    | unused => simp [rep.1] at inner
    | used => simp [rep.1] at inner
    | split l r =>
      exact ⟨_, _, r, here.right, rep.2.2, compact.2.2, fun x hx =>
        blocks x (List.mem_append_right _ hx)⟩

theorem mark_split (l r : Arena h) :
    mark (Arena.split l r) = .split ∨ mark (Arena.split l r) = .full := by
  rw [mark]
  split
  · exact .inr rfl
  · exact .inl rfl

/-- Every block has its node. -/
theorem seen_block {s : Nat} (seen : Seen b i d) (here : At i d h s) (rep : Rep b.tree i u)
    (hx : x ∈ u.blocks s) :
    ∃ i' d', Seen b i' d' ∧ b.tree i' = .used ∧ At i' d' x.height x.start := by
  induction u generalizing i d s with
  | unused => cases hx
  | used =>
    obtain rfl := List.mem_singleton.mp hx
    exact ⟨i, d, seen, rep.1, here⟩
  | split l r ihl ihr =>
    have inner : b.tree i = .split ∨ b.tree i = .full := by
      rw [rep.mark]
      exact mark_split l r
    cases List.mem_append.mp hx with
    | inl hx => exact ihl (seen.left inner) here.left rep.2.1 hx
    | inr hx => exact ihr (seen.right inner) here.right rep.2.2 hx

theorem Inv.nodeBlock_eq {s : Nat} (inv : Inv b live t) (here : At i d h s) :
    nodeBlock b i d = given ⟨s, h⟩ := by
  have height : 17 - d = h := by
    have := here.height
    omega
  have inside : s < SIZE := by
    have := here.end_le
    have := Nat.two_pow_pos h
    omega
  rw [nodeBlock, inv.level, indexOffset_at here, height, given, ← address_eq inv.base inside]
  rfl

theorem Inv.used_iff (inv : Inv b live t) (g : Given) :
    g ∈ live ↔ ∃ i d, Seen b i d ∧ b.tree i = .used ∧ g = nodeBlock b i d := by
  rw [inv.mem_iff]
  constructor
  · rintro ⟨x, hx, rfl⟩
    obtain ⟨i, d, seen, used, here⟩ := seen_block .root at_root inv.rep hx
    exact ⟨i, d, seen, used, (inv.nodeBlock_eq here).symm⟩
  · rintro ⟨i, d, seen, used, rfl⟩
    obtain ⟨h, s, u, here, rep, -, blocks⟩ := inv.seen seen
    refine ⟨⟨s, h⟩, blocks _ ?_, (inv.nodeBlock_eq here).symm⟩
    cases u with
    | unused => cases rep.1.symm.trans used
    | used => exact List.mem_cons_self
    | split l r =>
      have marks := mark_split l r
      rw [← rep.mark, used] at marks
      rcases marks with mark | mark <;> cases mark

theorem Inv.full_iff (inv : Inv b live t) (seen : Seen b i d) : b.tree i = .full ↔
    d < 17 ∧ Busy (b.tree (2 * i + 1)) ∧ Busy (b.tree (2 * i + 2)) := by
  obtain ⟨h, s, u, here, rep, -, -⟩ := inv.seen seen
  have height := here.height
  -- the marks below a leaf are never two of the kind that makes a node full
  have leaf : Stale b.tree h i → ¬ (d < 17 ∧ Busy (b.tree (2 * i + 1)) ∧
      Busy (b.tree (2 * i + 2))) := by
    rintro stale ⟨above, both⟩
    obtain ⟨k, rfl⟩ : ∃ k, h = k + 1 := ⟨h - 1, by omega⟩
    exact stale.1 both
  cases u with
  | unused =>
    rw [rep.1]
    exact iff_of_false (by decide) (leaf rep.2)
  | used =>
    rw [rep.1]
    exact iff_of_false (by decide) (leaf rep.2)
  | split l r =>
    rw [rep.2.1.mark, rep.2.2.mark, mark_busy, mark_busy, rep.mark, mark]
    have above : d < 17 := by omega
    split <;> rename_i both
    · exact iff_of_true rfl ⟨above, Bool.and_eq_true_iff.mp both⟩
    · exact iff_of_false (by decide) fun h => both (Bool.and_eq_true_iff.mpr h.2)

theorem Inv.split_halves (inv : Inv b live t) (seen : Seen b i d) (split : b.tree i = .split) :
    ¬ (b.tree (2 * i + 1) = .unused ∧ b.tree (2 * i + 2) = .unused) := by
  obtain ⟨h, s, u, -, rep, compact, -⟩ := inv.seen seen
  cases u with
  | unused => cases rep.1.symm.trans split
  | used => cases rep.1.symm.trans split
  | split l r =>
    rw [rep.2.1.mark, rep.2.2.mark, mark_unused, mark_unused]
    exact compact.1

theorem Inv.sound (inv : Inv b live t) : Sound b live where
  apart := inv.apart
  aligned g hg := by
    obtain ⟨x, hx, rfl⟩ := inv.mem_iff.mp hg
    refine ⟨⟨x.height, rfl⟩, ?_⟩
    obtain ⟨k, hk⟩ := Arena.blocks_aligned (Nat.dvd_zero _) hx
    refine ⟨k, ?_⟩
    simp only [given]
    rw [inv.base, pagePtr, hk]
    push_cast
    ring
  inside g hg := by
    obtain ⟨x, hx, rfl⟩ := inv.mem_iff.mp hg
    have inside := block_inside hx
    rw [given_end, inv.base]
    unfold given pagePtr PAGE_SIZE
    unfold SIZE at inside
    simp only
    omega
  used := inv.used_iff
  full _ _ seen := inv.full_iff seen
  split _ _ seen := inv.split_halves seen
  empty none := by
    have blocks : t.blocks 0 = [] := List.map_eq_nil_iff.mp (List.nil_perm.mp (none ▸ inv.blocks))
    have leaf := inv.compact.eq_unused blocks
    have rep := inv.rep
    rw [leaf] at rep
    exact rep.1

/-- A call on the first heap. -/
theorem first_alloc (some : 0 ≤ pagesFor s) (high : s ≤ INT_MAX) (fits : rounded s ≤ SIZE) :
    ∃ fuel b' t', buddyAlloc fuel s (initMemoryManager memoryModuleAddress) = .ok (pagePtr 0, b') ∧
      Inv b' [⟨pagePtr 0, rounded s⟩] t' := by
  have vacant : Vacant [] (rounded s) 0 := ⟨Nat.dvd_zero _, by omega, by simp⟩
  obtain ⟨o, b', t', -, least, yields, inv⟩ | ⟨none, -⟩ := inv_init.alloc some high
  · obtain rfl : o = 0 := Nat.le_zero.mp (least 0 vacant)
    obtain ⟨fuel, run⟩ := yields.exists
    exact ⟨fuel, b', t', run, inv⟩
  · exact absurd vacant (none 0)

end

/-- The tree is sound in every run. -/
theorem proper_sound {b : Heap} {live : List Given} (proper : Proper b live) : Sound b live := by
  obtain ⟨t, inv⟩ := proper_inv proper
  exact inv.sound

theorem rounded_5000 : rounded 5000 = 2 := by decide

theorem proper_sound_one :
    ∃ b, Proper b [⟨pagePtr 0, 2⟩] ∧ Sound b [⟨pagePtr 0, 2⟩] := by
  obtain ⟨fuel, b, -, run, -⟩ := first_alloc (s := 5000) (by decide) (by decide) (by decide)
  have proper := Proper.init.alloc (by decide) (by decide) run
  rw [if_neg (pagePtr_ne_null 0), rounded_5000] at proper
  exact ⟨b, proper, proper_sound proper⟩

/-- `buddy_alloc` returns the leftmost vacant run of pages, or NULL if there is none. -/
theorem buddyAlloc_leftmost {b : Heap} {live : List Given} {s : Int} (reached : Reached b live)
    (some : 0 ≤ s) (high : s ≤ INT_MAX) :
    ∃ p b', Yields (fun f => buddyAlloc f s b) (p, b') ∧
      (p = NULL ↔ ∀ o, ¬ Vacant live (rounded s) o) ∧ (p = NULL → b' = b) ∧
      (p ≠ NULL → ∃ o, p = pagePtr o ∧ Vacant live (rounded s) o ∧
        ∀ o', Vacant live (rounded s) o' → o ≤ o') := by
  obtain ⟨t, inv⟩ := reached_inv reached
  have pages : 0 ≤ pagesFor s := by
    rw [pagesFor_nonneg some]
    omega
  obtain ⟨o, b', t', vacant, least, yields, -⟩ | ⟨none, yields⟩ := inv.alloc pages high
  · have some := pagePtr_ne_null o
    refine ⟨pagePtr o, b', yields, iff_of_false some fun none => none o vacant,
      fun null => absurd null some, fun _ => ⟨o, rfl, vacant, least⟩⟩
  · exact ⟨NULL, b, yields, iff_of_true rfl none, fun _ => rfl, fun some => absurd rfl some⟩

theorem buddyAlloc_leftmost_first : ∃ p b',
    Yields (fun f => buddyAlloc f 5000 (initMemoryManager memoryModuleAddress)) (p, b') ∧
      (p = NULL ↔ ∀ o, ¬ Vacant [] (rounded 5000) o) ∧
      (p = NULL → b' = initMemoryManager memoryModuleAddress) ∧
      (p ≠ NULL → ∃ o, p = pagePtr o ∧ Vacant [] (rounded 5000) o ∧
        ∀ o', Vacant [] (rounded 5000) o' → o ≤ o') :=
  buddyAlloc_leftmost .init (by decide) (by decide)

end BottlerOS.BuddyRuns
