import BottlerOS.BuddyNodes

/-! `buddy_free`'s loop gives back what the buddy tree's `free` gives back. -/

namespace BottlerOS.BuddyRelease
open Machine BuddyHeap BuddyTree BuddyNodes Yields

/-- `_combine`'s inner loop behind the tree at `i`, which was full or not. -/
def loosen (full : Bool) (fuel i : Nat) (b : Heap) : C Heap :=
  if full then unfull fuel i b else pure b

/-- The tree at `i` shows `t'`, and the parents of `i` are left to do. -/
def Keeps (run : Nat → C (Int × Heap)) (b : Heap) (i : Nat) (full : Bool) {h : Nat}
    (t' : Arena h) : Prop :=
  ∃ tree, Rep tree i t' ∧ (∀ x, ¬ Under i x → tree x = b.tree x) ∧
    ∀ b', Yields (fun f => loosen full f i { b with tree := tree }) b' → Yields run (0, b')

/-- Nothing in the tree at `i` is in use, and nothing has been written yet. -/
def Merges (run : Nat → C (Int × Heap)) (b : Heap) (i h : Nat) : Prop :=
  Stale b.tree h i ∧ ∀ b', Yields (fun f => combine f i b) b' → Yields run (0, b')

/-- The call gives a block of the tree at `i` back, which becomes `t'`; the tree was full or
not. -/
def Frees (run : Nat → C (Int × Heap)) (b : Heap) (i : Nat) (full : Bool) {h : Nat}
    (t' : Arena h) : Prop :=
  (t'.isUnused = true → Merges run b i h) ∧ (t'.isUnused = false → Keeps run b i full t')

section
variable {tree : Nat → Node} {b b' : Heap} {h i k q d s : Nat} {o : Int} {t t' l r u : Arena h}
  {run run' : Nat → C (Int × Heap)} {full : Bool}

theorem Frees.mono (frees : Frees run b i full t') (more : ∀ a, Yields run a → Yields run' a) :
    Frees run' b i full t' := by
  constructor
  · intro unused
    obtain ⟨stale, up⟩ := frees.1 unused
    exact ⟨stale, fun b' done => more _ (up b' done)⟩
  · intro other
    obtain ⟨tree, rep, frame, up⟩ := frees.2 other
    exact ⟨tree, rep, frame, fun b' done => more _ (up b' done)⟩

theorem Rep.unused_stale (rep : Rep tree i u) (unused : u.isUnused = true) :
    tree i = .unused ∧ Stale tree h i := by
  rw [Arena.isUnused_iff] at unused
  subst unused
  exact rep

/-- A full parent becomes a split one. -/
theorem unfull_parent (here : At i d (h + 1) s) (sib : Siblings i k q)
    (top : b.tree i = if full then .full else .split)
    (up : Yields (fun f => loosen full f i { b with tree := Function.update b.tree i .split }) b') :
    Yields (fun f => unfull f k b) b' := by
  cases full with
  | true => exact unfull_up here sib top up
  | false =>
    have split : b.tree i = .split := top
    have same : { b with tree := Function.update b.tree i .split } = b := by
      rw [← split, Function.update_eq_self]
    rw [same] at up
    obtain rfl : b = b' := up.only 0 b rfl
    apply unfull_stop here sib
    rw [split]
    decide

theorem loosen_up (here : At i d (h + 1) s) (sib : Siblings i k q)
    (top : b.tree i = if t.isFull && u.isFull then .full else .split)
    (up : Yields (fun f => loosen (t.isFull && u.isFull) f i
      { b with tree := Function.update b.tree i .split }) b') :
    Yields (fun f => loosen t.isFull f k b) b' := by
  cases ht : t.isFull with
  | true => exact unfull_parent here sib top up
  | false =>
    rw [ht, Bool.false_and] at top up
    have split : b.tree i = .split := top
    rw [← split, Function.update_eq_self] at up
    exact up

/-- From a child to its parent. -/
theorem Frees.child (frees : Frees run b k t.isFull t') (here : At i d (h + 1) s)
    (sib : Siblings i k q) (hu : Rep b.tree q u)
    (top : b.tree i = if t.isFull && u.isFull then .full else .split) :
    (t'.isUnused = true ∧ u.isUnused = true → Merges run b i (h + 1)) ∧
      (¬ (t'.isUnused = true ∧ u.isUnused = true) → ∃ tree, tree i = .split ∧ Rep tree k t' ∧
        Rep tree q u ∧ (∀ x, ¬ Under i x → tree x = b.tree x) ∧ ∀ b',
          Yields (fun f => loosen (t.isFull && u.isFull) f i { b with tree := tree }) b' →
          Yields run (0, b')) := by
  constructor
  · rintro ⟨unused, unused'⟩
    obtain ⟨stale, up⟩ := frees.1 unused
    obtain ⟨beside, stale'⟩ := Rep.unused_stale hu unused'
    refine ⟨?_, fun b' done => up b' (combine_up here sib beside done)⟩
    have idle : ¬ Busy (b.tree q) := by
      rw [beside]
      decide
    rcases sib with ⟨rfl, rfl⟩ | ⟨rfl, rfl⟩
    · exact ⟨fun both => idle both.2, stale, stale'⟩
    · exact ⟨fun both => idle both.1, stale', stale⟩
  · intro other
    cases unused : t'.isUnused with
    | true =>
      have used : u.isUnused ≠ true := fun unused' => other ⟨unused, unused'⟩
      obtain ⟨stale, up⟩ := frees.1 unused
      have kept : ∀ x, x ≠ i → x ≠ k →
          Function.update (Function.update b.tree k .unused) i .split x = b.tree x := by
        intro x other other'
        rw [Function.update_of_ne other, Function.update_of_ne other']
      refine ⟨Function.update (Function.update b.tree k .unused) i .split,
        Function.update_self _ _ _, ?_, ?_, ?_, ?_⟩
      · rw [Arena.isUnused_iff] at unused
        subst unused
        refine ⟨?_, stale.congr fun x under other => kept x (fun eq => ?_) other⟩
        · rw [Function.update_of_ne (by have := sib.lt; omega), Function.update_self]
        · exact sib.not_under (eq ▸ under)
      · refine hu.congr fun x under => kept x (fun eq => ?_) fun eq => ?_
        · exact sib.symm.not_under (eq ▸ under)
        · exact sib.symm.apart under (eq ▸ under_self k)
      · intro x far
        exact kept x (ne_of_far far) (ne_of_far fun under => far (under.of_child sib))
      · intro b' done
        apply up
        apply combine_stop here sib
        · rw [hu.mark]
          exact fun mark => used (mark_unused.mp mark)
        · refine unfull_parent here sib ?_ done
          exact (Function.update_of_ne (by have := sib.lt; omega) _ _).trans top
    | false =>
      obtain ⟨tree, rep, frame, up⟩ := frees.2 unused
      refine ⟨Function.update tree i .split, Function.update_self _ _ _, rep.update_above sib _, ?_,
        ?_, ?_⟩
      · apply Rep.update_above _ sib.symm
        exact hu.congr fun x under => frame x (sib.symm.apart under)
      · intro x far
        rw [Function.update_of_ne (ne_of_far far)]
        exact frame x fun under => far (under.of_child sib)
      · intro b' done
        apply up
        apply loosen_up (b := { b with tree := tree }) here sib _ done
        exact (frame i sib.not_under).trans top

theorem Rep.split (top : tree i = .split) (hl : Rep tree (2 * i + 1) l)
    (hr : Rep tree (2 * i + 2) r) (open_ : (l.isFull && r.isFull) = false) :
    Rep tree i (.split l r) := by
  refine ⟨?_, hl, hr⟩
  rw [mark, open_]
  exact top

theorem Frees.left {t' : Arena h} (frees : Frees run b (2 * i + 1) l.isFull t')
    (here : At i d (h + 1) s) (rep : Rep b.tree i (.split l r)) (open_ : t'.isFull = false) :
    Frees run b i (Arena.split l r).isFull (Arena.join t' r) := by
  obtain ⟨top, -, hr⟩ := rep
  obtain ⟨merges, keeps⟩ := frees.child here (left_of i) hr top
  rw [Arena.join]
  split <;> rename_i both
  · exact ⟨fun _ => merges both, fun other => by cases other⟩
  · obtain ⟨tree, top, hl, hr, frame, up⟩ := keeps both
    refine ⟨fun unused => (by cases unused), fun _ => ⟨tree, ?_, frame, up⟩⟩
    exact Rep.split top hl hr (by rw [open_, Bool.false_and])

theorem Frees.right {t' : Arena h} (frees : Frees run b (2 * i + 2) r.isFull t')
    (here : At i d (h + 1) s) (rep : Rep b.tree i (.split l r)) (open_ : t'.isFull = false) :
    Frees run b i (Arena.split l r).isFull (Arena.join l t') := by
  obtain ⟨top, hl, -⟩ := rep
  rw [mark, Bool.and_comm] at top
  obtain ⟨merges, keeps⟩ := frees.child here (right_of i) hl top
  rw [Arena.join]
  split <;> rename_i both
  · exact ⟨fun _ => merges both.symm, fun other => by cases other⟩
  · obtain ⟨tree, top, hr, hl, frame, up⟩ := keeps fun both' => both both'.symm
    rw [Bool.and_comm] at up
    refine ⟨fun unused => (by cases unused), fun _ => ⟨tree, ?_, frame, up⟩⟩
    exact Rep.split top hl hr (by rw [open_, Bool.and_false])

/-! `buddy_free`'s loop. -/

theorem release_leaf (here : At i d h s) (used : b.tree i = .used) (stale : Stale b.tree h i)
    (length : Int) (match_ : o = s) :
    Frees (fun f => release o f s length i b) b i true (.unused : Arena h) := by
  refine ⟨fun _ => ⟨stale, fun b' done => ?_⟩, fun other => by cases other⟩
  refine Yields.step (g := fun f => combine f i b >>= fun b => .ok (0, b))
    (done.bind (.of_ok rfl)) (fun b h => by simp [release] at h) fun f => ?_
  rw [release, read_ok here.lt, used, ok_bind]
  exact if_neg (not_not.mpr match_)

/-- Down to the half that the page lies in. -/
theorem release_down {a : Int × Heap} (here : At i d (h + 1) s)
    (top : b.tree i = if full then .full else .split)
    (more : Yields (fun f => if o < (s + 2 ^ h : Nat)
      then release o f s (2 ^ h) (2 * i + 1 : Nat) b
      else release o f (s + 2 ^ h : Nat) (2 ^ h) (2 * i + 2 : Nat) b) a) :
    Yields (fun f => release o f s (2 ^ (h + 1)) i b) a := by
  have down : (i : Int) * 2 + 1 = (2 * i + 1 : Nat) := by omega
  have down' : (i : Int) * 2 + 2 = (2 * i + 2 : Nat) := by omega
  have middle : (s : Int) + 2 ^ h = (s + 2 ^ h : Nat) := by push_cast; rfl
  refine more.step (fun b h => by simp [release] at h) fun f => ?_
  rw [release, read_ok here.lt, ok_bind, half_length, down, down', ← middle, top]
  cases full <;> rfl

theorem release_some (here : At i d h s) (rep : Rep b.tree i t) (found : t.free o s = some t') :
    Frees (fun f => release o f s (2 ^ h) i b) b i t.isFull t' := by
  induction t generalizing i d s with
  | unused => cases found
  | used =>
    rw [Arena.free] at found
    split at found <;> rename_i first
    · obtain rfl := Option.some.inj found
      exact release_leaf here rep.1 rep.2 _ first
    · cases found
  | @split h l r ihl ihr =>
    have top : b.tree i = if l.isFull && r.isFull then .full else .split := rep.mark
    rw [Arena.free] at found
    split at found <;> rename_i low
    · obtain ⟨l', left, rfl⟩ := Option.map_eq_some_iff.mp found
      have frees := (ihl here.left rep.2.1 left).left here rep (Arena.free_full left)
      refine frees.mono fun a more => release_down here top ?_
      simp only [if_pos low]
      exact more
    · obtain ⟨r', right, rfl⟩ := Option.map_eq_some_iff.mp found
      have frees := (ihr here.right rep.2.2 right).right here rep (Arena.free_full right)
      refine frees.mono fun a more => release_down here top ?_
      simp only [if_neg low]
      exact more

/-- A page where no block starts. -/
theorem release_none (here : At i d h s) (rep : Rep b.tree i t) (none : t.free o s = none) :
    Yields (fun f => release o f s (2 ^ h) i b) (-1, b) := by
  induction t generalizing i d s with
  | unused =>
    refine Yields.step (g := fun _ => .ok (-1, b)) (.of_ok rfl) (fun b h => by simp [release] at h)
      fun f => ?_
    rw [release, read_ok here.lt, rep.mark]
    rfl
  | used =>
    rw [Arena.free] at none
    split at none <;> rename_i first
    · cases none
    · refine Yields.step (g := fun _ => .ok (-1, b)) (.of_ok rfl)
        (fun b h => by simp [release] at h) fun f => ?_
      rw [release, read_ok here.lt, rep.mark, ok_bind]
      exact if_pos first
  | @split h l r ihl ihr =>
    have top : b.tree i = if l.isFull && r.isFull then .full else .split := rep.mark
    apply release_down here top
    rw [Arena.free] at none
    split at none <;> rename_i low
    · simp only [if_pos low]
      exact ihl here.left rep.2.1 (Option.map_eq_none_iff.mp none)
    · simp only [if_neg low]
      exact ihr here.right rep.2.2 (Option.map_eq_none_iff.mp none)

end

end BottlerOS.BuddyRelease
