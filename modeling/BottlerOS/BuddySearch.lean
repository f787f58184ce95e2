import BottlerOS.BuddyNodes

/-! `buddy_alloc`'s loop finds what the buddy tree's `alloc` finds. -/

namespace BottlerOS.BuddySearch
open Machine BuddyHeap BuddyTree BuddyNodes Yields

/-- The pointer to a page. -/
def address (page : Nat) (b : Heap) : Int := voidPtr (int32 (page * PAGE_SIZE + b.heapAddress))

/-- `_mark_parent` behind the tree at `i`, which is full or not. -/
def settle (full : Bool) (fuel i : Nat) (b : Heap) : C Heap :=
  if full then markParent fuel i b else pure b

/-- The marks with `i` marked if its tree is full. -/
def marked (full : Bool) (i : Nat) (tree : Nat → Node) : Nat → Node :=
  if full then Function.update tree i .full else tree

/-- The call hands out page `o` and what follows it in the tree at `i`, which becomes `t'`; what is
left to do is to mark the parents of `i`. -/
def Finds (run : Nat → C (Int × Heap)) (b : Heap) (i o : Nat) {h : Nat} (t' : Arena h) : Prop :=
  ∃ tree, Rep tree i t' ∧ (∀ x, ¬ Under i x → tree x = b.tree x) ∧
    ∀ b', b'.level = LEVEL → Yields (fun f => settle t'.isFull f i { b with tree := tree }) b' →
      Yields run (address o b', b')

/-- Where the search goes on behind the tree at `i` on level `d`. -/
inductive Next : (i d : Nat) → Option (Nat × Nat) → Prop
  | odd {k d : Nat} : Next (2 * k + 1) d (some (2 * k + 2, d))
  | up {i d : Nat} {nx : Option (Nat × Nat)} : Next i d nx → Next (2 * i + 2) (d + 1) nx
  | root : Next 0 0 none

/-- The rest of the search. -/
def resume (size : Int) (b : Heap) : Option (Nat × Nat) → Nat → C (Int × Heap)
  | none, _ => pure (NULL, b)
  | some (i, d), fuel => search size fuel i d (2 ^ (17 - d)) b

section
variable {tree : Nat → Node} {b b' b₁ : Heap} {h i j k q d s o : Nat} {size : Int}
  {t t' l r u : Arena h} {nx : Option (Nat × Nat)} {run run' : Nat → C (Int × Heap)}
  {a : Int × Heap}

theorem resume_some (size : Int) (b : Heap) (i d : Nat) :
    resume size b (some (i, d)) = fun fuel => search size fuel i d (2 ^ (17 - d)) b := rfl

theorem marked_ne {full : Bool} {x : Nat} (other : x ≠ i) : marked full i tree x = tree x := by
  unfold marked
  split
  · exact Function.update_of_ne other _ _
  · rfl

theorem Rep.assemble (split : tree i = .split) (hl : Rep tree (2 * i + 1) l)
    (hr : Rep tree (2 * i + 2) r) : Rep (marked (l.isFull && r.isFull) i tree) i (.split l r) := by
  cases full : l.isFull && r.isFull with
  | false =>
    refine ⟨?_, hl, hr⟩
    rw [marked, mark, full]
    exact split
  | true =>
    refine ⟨?_, hl.update_above (left_of i) _, hr.update_above (right_of i) _⟩
    rw [marked, mark, full]
    exact Function.update_self i Node.full tree

theorem settle_up (here : At i d (h + 1) s) (sib : Siblings i k q) (hu : Rep b.tree q u)
    (up : Yields (fun f => settle (t.isFull && u.isFull) f i
      { b with tree := marked (t.isFull && u.isFull) i b.tree }) b') :
    Yields (fun f => settle t.isFull f k b) b' := by
  cases ht : t.isFull with
  | false =>
    rw [ht] at up
    exact up
  | true =>
    cases hfull : u.isFull with
    | true =>
      rw [ht, hfull] at up
      apply markParent_up here sib _ up
      rw [hu.mark]
      exact mark_busy.mpr hfull
    | false =>
      rw [ht, hfull] at up
      obtain rfl : b = b' := up.only 0 b rfl
      apply markParent_stop here sib
      rw [hu.mark, mark_busy, hfull]
      exact Bool.false_ne_true

theorem Finds.mono (finds : Finds run b i o t') (more : ∀ a, Yields run a → Yields run' a) :
    Finds run' b i o t' := by
  obtain ⟨tree, rep, frame, up⟩ := finds
  exact ⟨tree, rep, frame, fun b' level settled => more _ (up b' level settled)⟩

/-- From a child to its parent. -/
theorem Finds.child (finds : Finds run b k o t') (here : At i d (h + 1) s) (sib : Siblings i k q)
    (split : b.tree i = .split) (hu : Rep b.tree q u) :
    ∃ tree, tree i = .split ∧ Rep tree k t' ∧ Rep tree q u ∧
      (∀ x, ¬ Under i x → tree x = b.tree x) ∧ ∀ b', b'.level = LEVEL →
        Yields (fun f => settle (t'.isFull && u.isFull) f i
          { b with tree := marked (t'.isFull && u.isFull) i tree }) b' →
        Yields run (address o b', b') := by
  obtain ⟨tree, rep, frame, up⟩ := finds
  have other : Rep tree q u := hu.congr fun x under => frame x (sib.symm.apart under)
  refine ⟨tree, (frame i sib.not_under).trans split, rep, other, fun x far => ?_, ?_⟩
  · exact frame x fun under => far (under.of_child sib)
  · intro b' level settled
    exact up b' level (settle_up (b := { b with tree := tree }) here sib other settled)

theorem Finds.left {t' : Arena h} (finds : Finds run b (2 * i + 1) o t')
    (here : At i d (h + 1) s) (split : b.tree i = .split) (hr : Rep b.tree (2 * i + 2) r) :
    Finds run b i o (.split t' r) := by
  obtain ⟨tree, top, hl, hr, frame, up⟩ := finds.child here (left_of i) split hr
  refine ⟨marked (t'.isFull && r.isFull) i tree, Rep.assemble top hl hr, fun x far => ?_, up⟩
  rw [marked_ne (ne_of_far far)]
  exact frame x far

theorem Finds.right {t' : Arena h} (finds : Finds run b (2 * i + 2) o t')
    (here : At i d (h + 1) s) (split : b.tree i = .split) (hl : Rep b.tree (2 * i + 1) l) :
    Finds run b i o (.split l t') := by
  obtain ⟨tree, top, hr, hl, frame, up⟩ := finds.child here (right_of i) split hl
  rw [Bool.and_comm] at up
  refine ⟨marked (l.isFull && t'.isFull) i tree, Rep.assemble top hl hr, fun x far => ?_, up⟩
  rw [marked_ne (ne_of_far far)]
  exact frame x far

/-! The turns of the loop. -/

theorem two_pow_ne (other : j ≠ h) : (2 : Int) ^ j ≠ 2 ^ h := by
  intro same
  exact other (Nat.pow_right_injective (le_refl 2) (by exact_mod_cast same))

theorem indexOffset_at (here : At i d h s) (base : Int) :
    indexOffset i d LEVEL base = int32 (s * PAGE_SIZE + base) := by
  obtain ⟨height, p, hi, -, rfl⟩ := here
  have place : (i : Int) + 1 - 2 ^ d = p := by
    have : ((i + 1 : Nat) : Int) = ((2 ^ d + p : Nat) : Int) := congrArg _ hi
    push_cast at this
    omega
  have level : (LEVEL - (d : Int)).toNat = h := by
    unfold LEVEL
    omega
  rw [BuddyHeap.indexOffset, Int.toNat_natCast, place, level]
  push_cast
  rfl

/-- A tree of the right height that has not been handed out. -/
theorem search_leaf (here : At i d h s) (unused : b.tree i = .unused) (stale : Stale b.tree h i) :
    Finds (fun f => search (2 ^ h) f i d (2 ^ h) b) b i s (.used : Arena h) := by
  refine ⟨Function.update b.tree i .used, ⟨Function.update_self _ _ _, ?_⟩, fun x far => ?_, ?_⟩
  · exact stale.congr fun x _ other => Function.update_of_ne other _ _
  · exact Function.update_of_ne (ne_of_far far) _ _
  · intro b' level settled
    refine Yields.step (g := fun f => markParent f i { b with
        tree := Function.update b.tree i .used } >>= fun b =>
      .ok (voidPtr (indexOffset i d b.level b.heapAddress), b)) ?_
      (fun b h => by simp [search] at h)
      fun f => ?_
    · refine Yields.bind settled (Yields.of_ok ?_)
      rw [level, indexOffset_at here]
      rfl
    · rw [search, if_neg (by omega), if_pos rfl, read_ok here.lt, write_ok here.lt, unused]
      rfl

theorem search_split (here : At i d (h + 1) s) (other : size ≠ 2 ^ (h + 1))
    (split : b.tree i = .split) (f : Nat) : search size (f + 1) i d (2 ^ (h + 1)) b =
      search size f (2 * i + 1 : Nat) (d + 1 : Nat) (2 ^ h) b := by
  rw [search, if_neg (by omega), if_neg other, read_ok here.lt, split, half_length]
  push_cast
  rw [Int.mul_comm (i : Int)]
  rfl

theorem search_down (here : At i d (h + 1) s) (other : size ≠ 2 ^ (h + 1))
    (split : b.tree i = .split)
    (more : Yields (fun f => search size f (2 * i + 1 : Nat) (d + 1 : Nat) (2 ^ h) b) a) :
    Yields (fun f => search size f i d (2 ^ (h + 1)) b) a :=
  more.step (fun b h => by simp [search] at h) (search_split here other split)

/-- The marks behind a split. -/
def opened (i : Nat) (b : Heap) : Heap :=
  { b with tree := Function.update (Function.update (Function.update b.tree i .split)
      (2 * i + 1) .unused) (2 * i + 2) .unused }

theorem write_opened {β : Type} (here : At i d (h + 1) s) (f : Heap → C β) :
    (do
      let b ← b.write i .split
      let b ← b.write ((i : Int) * 2 + 1) .unused
      let b ← b.write ((i : Int) * 2 + 2) .unused
      f b) = f (opened i b) := by
  obtain ⟨inside, left, right⟩ := here.siblings (left_of i)
  have one : (i : Int) * 2 + 1 = (2 * i + 1 : Nat) := by omega
  have two : (i : Int) * 2 + 2 = (2 * i + 2 : Nat) := by omega
  rw [one, two, write_ok inside, ok_bind, write_ok left, ok_bind, write_ok right, ok_bind, opened]

theorem search_unused (here : At i d (h + 1) s) (other : size ≠ 2 ^ (h + 1))
    (unused : b.tree i = .unused) (f : Nat) : search size (f + 1) i d (2 ^ (h + 1)) b =
      search size f (2 * i + 1 : Nat) (d + 1 : Nat) (2 ^ h) (opened i b) := by
  have down : (i : Int) * 2 + 1 = (2 * i + 1 : Nat) := by omega
  have level : (d : Int) + 1 = (d + 1 : Nat) := by omega
  have turn : search size (f + 1) i d (2 ^ (h + 1)) b = (do
      let b ← b.write i .split
      let b ← b.write ((i : Int) * 2 + 1) .unused
      let b ← b.write ((i : Int) * 2 + 2) .unused
      search size f (i * 2 + 1) (d + 1) (((2 : Int) ^ (h + 1)).tdiv 2) b) := by
    rw [search, if_neg (by omega), if_neg other, read_ok here.lt, unused, ok_bind]
  rw [turn, write_opened here, half_length, down, level]

theorem search_open (here : At i d (h + 1) s) (other : size ≠ 2 ^ (h + 1))
    (unused : b.tree i = .unused)
    (more : Yields (fun f =>
      search size f (2 * i + 1 : Nat) (d + 1 : Nat) (2 ^ h) (opened i b)) a) :
    Yields (fun f => search size f i d (2 ^ (h + 1)) b) a :=
  more.step (fun b h => by simp [search] at h) (search_unused here other unused)

/-- Both children of a node that has just been split are unused. -/
theorem opened_rep (stale : Stale b.tree (h + 1) i) :
    (opened i b).tree i = .split ∧
      Rep (opened i b).tree (2 * i + 1) (.unused : Arena h) ∧
      Rep (opened i b).tree (2 * i + 2) (.unused : Arena h) := by
  obtain ⟨-, left, right⟩ := stale
  have frame : ∀ {k q}, Siblings i k q → ∀ x, Under k x → x ≠ k →
      (opened i b).tree x = b.tree x := by
    intro k q sib x under other
    have : x ≠ i := fun eq => sib.not_under (eq ▸ under)
    have : x ≠ q := fun eq => sib.symm.apart (under_self q) (eq ▸ under)
    simp only [opened]
    rcases sib with ⟨rfl, rfl⟩ | ⟨rfl, rfl⟩
    · rw [Function.update_of_ne (by omega), Function.update_of_ne (by omega),
        Function.update_of_ne (by omega)]
    · rw [Function.update_of_ne (by omega), Function.update_of_ne (by omega),
        Function.update_of_ne (by omega)]
  refine ⟨?_, ⟨?_, left.congr (frame (left_of i))⟩, ⟨?_, right.congr (frame (right_of i))⟩⟩
  · simp only [opened]
    rw [Function.update_of_ne (by omega), Function.update_of_ne (by omega), Function.update_self]
  · simp only [opened]
    rw [Function.update_of_ne (by omega), Function.update_self]
  · exact Function.update_self _ _ _

/-- An unused tree that is large enough. -/
theorem search_carve (here : At i d h s) (fits : j ≤ h) (unused : b.tree i = .unused)
    (stale : Stale b.tree h i) :
    Finds (fun f => search (2 ^ j) f i d (2 ^ h) b) b i s (Arena.carve j h) := by
  induction h generalizing i d s b with
  | zero =>
    obtain rfl : j = 0 := by omega
    exact search_leaf here unused stale
  | succ h ih =>
    rw [Arena.carve]
    split <;> rename_i whole
    · subst whole
      exact search_leaf here unused stale
    · obtain ⟨top, left, right⟩ := opened_rep stale
      have found := (ih here.left (by omega) left.1 left.2).left here top right
      obtain ⟨tree, rep, frame, up⟩ := found.mono fun a =>
        search_open here (two_pow_ne whole) unused
      refine ⟨tree, rep, fun x far => ?_, up⟩
      rw [frame x far]
      have := ne_of_far far
      have := ne_of_far fun under => far (under.of_child (left_of i))
      have := ne_of_far fun under => far (under.of_child (right_of i))
      simp only [opened]
      rw [Function.update_of_ne (by omega), Function.update_of_ne (by omega),
        Function.update_of_ne (by omega)]

/-! Going on. -/

theorem Next.of_odd (next : Next i d nx) (odd : i % 2 = 1) : nx = some (i + 1, d) := by
  cases next with
  | odd => rfl
  | up _ => omega
  | root => omega

theorem climb_yields (next : Next i d nx) (even : i % 2 = 0) (height : d ≤ 17) :
    Yields (fun f => climb f i d (2 ^ (17 - d)))
      (nx.map fun n => ((n.1 : Int), (n.2 : Int), (2 : Int) ^ (17 - n.2))) := by
  induction next with
  | odd => omega
  | @up i d nx next ih =>
    have parent : parentOf ((2 * i + 2 : Nat) : Int) = i := (right_of i).parentOf
    have length : (2 : Int) ^ (17 - (d + 1)) * 2 = 2 ^ (17 - d) := by
      rw [← Int.pow_succ]
      congr 1
      omega
    have turn : ∀ f, climb (f + 1) (2 * i + 2 : Nat) (d + 1 : Nat) (2 ^ (17 - (d + 1))) =
        if (i : Int) % 2 = 1 then .ok (some ((i : Int) + 1, (d : Int), (2 : Int) ^ (17 - d)))
        else climb f i d (2 ^ (17 - d)) := by
      intro f
      have level : ((d + 1 : Nat) : Int) - 1 = d := by omega
      rw [climb, parent, length, level]
      rw [if_neg (by omega)]
      rfl
    by_cases odd : i % 2 = 1
    · rw [next.of_odd odd]
      refine Yields.step (g := fun _ => .ok (some ((i : Int) + 1, (d : Int), (2 : Int) ^ (17 - d))))
        (.of_ok rfl) (fun b h => by simp [climb] at h) fun f => ?_
      · rw [turn, if_pos (by omega)]
    · refine (ih (by omega) (by omega)).step (fun b h => by simp [climb] at h) fun f => ?_
      rw [turn, if_neg (by omega)]
  | root =>
    exact Yields.step (g := fun _ => .ok none) (.of_ok rfl) (fun b h => by simp [climb] at h)
      fun _ => rfl

theorem nextStep_yields (here : At i d h s) (next : Next i d nx)
    (more : Yields (resume size b nx) a) :
    Yields (fun f => nextStep (search size f) f i d (2 ^ h) b) a := by
  have length : h = 17 - d := by
    have := here.height
    omega
  subst length
  by_cases odd : i % 2 = 1
  · rw [next.of_odd odd] at more
    refine more.congr fun f => ?_
    rw [nextStep, if_pos (by omega), resume]
    push_cast
    rfl
  · have climbed := climb_yields next (by omega) (by have := here.height; omega)
    have even : ¬ (i : Int) % 2 = 1 := by omega
    refine Yields.congr (climbed.bind ?_) fun f => if_neg even
    cases nx with
    | none => exact more
    | some n => exact more

/-- A node that is handed out, or of the right height and not unused. -/
theorem search_taken (here : At i d h s)
    (taken : Busy (b.tree i) ∨ size = 2 ^ h ∧ b.tree i ≠ .unused) (f : Nat) :
    search size (f + 1) i d (2 ^ h) b = nextStep (search size f) f i d (2 ^ h) b := by
  rw [search, if_neg (by omega), read_ok here.lt]
  simp only [ok_bind]
  by_cases whole : size = 2 ^ h
  · rw [if_pos whole]
    have occupied : b.tree i ≠ .unused := by
      rcases taken with busy | ⟨-, other⟩
      · intro unused
        rw [unused] at busy
        rcases busy with busy | busy <;> cases busy
      · exact other
    rw [if_neg occupied]
  · rw [if_neg whole]
    rcases taken with used | ⟨same, -⟩
    · rcases used with used | full
      · rw [used]
      · rw [full]
    · exact absurd same whole

theorem search_pass (here : At i d h s) (next : Next i d nx)
    (taken : Busy (b.tree i) ∨ size = 2 ^ h ∧ b.tree i ≠ .unused)
    (more : Yields (resume size b nx) a) : Yields (fun f => search size f i d (2 ^ h) b) a :=
  (nextStep_yields here next more).step (fun b h => by simp [search] at h)
    (search_taken here taken)

/-- A tree without room. -/
theorem search_none (here : At i d h s) (rep : Rep b.tree i t) (fits : j ≤ h)
    (none : t.alloc j s = none) (next : Next i d nx) (more : Yields (resume (2 ^ j) b nx) a) :
    Yields (fun f => search (2 ^ j) f i d (2 ^ h) b) a := by
  induction t generalizing i d s nx with
  | unused => cases none
  | used =>
    apply search_pass here next _ more
    rw [rep.mark]
    exact .inl (.inl rfl)
  | @split h l r ihl ihr =>
    have top := rep.mark
    by_cases full : (Arena.split l r).isFull = true
    · apply search_pass here next _ more
      rw [top]
      exact .inl (mark_busy.mpr full)
    by_cases whole : j = h + 1
    · apply search_pass here next _ more
      rw [top, whole]
      refine .inr ⟨rfl, fun unused => ?_⟩
      cases mark_unused.mp unused
    · have open_ : b.tree i = .split := by
        rw [top, mark]
        exact if_neg full
      apply search_down here (two_pow_ne whole) open_
      obtain ⟨-, left, right⟩ := rep
      cases hl : l.alloc j s with
      | some found =>
        rw [Arena.alloc_left whole hl] at none
        cases none
      | none =>
        rw [Arena.alloc_right whole hl] at none
        have hr := Option.map_eq_none_iff.mp none
        apply ihl here.left left (by omega) hl .odd
        have length : 17 - (d + 1) = h := by
          have := here.height
          omega
        rw [resume_some, length]
        exact ihr here.right right (by omega) hr next.up more

/-- A tree with room. -/
theorem search_some (here : At i d h s) (rep : Rep b.tree i t) (fits : j ≤ h)
    (found : t.alloc j s = some (o, t')) :
    Finds (fun f => search (2 ^ j) f i d (2 ^ h) b) b i o t' := by
  induction t generalizing i d s with
  | unused =>
    obtain ⟨rfl, rfl⟩ := Prod.mk.inj (Option.some.inj found)
    exact search_carve here fits rep.1 rep.2
  | used => cases found
  | @split h l r ihl ihr =>
    have top : b.tree i = .split := by
      rw [rep.mark, mark]
      refine if_neg fun full => ?_
      have none : (Arena.split l r).alloc j s = none := Arena.alloc_full (by exact full) j s
      rw [none] at found
      cases found
    obtain ⟨-, hl, hr⟩ := rep
    obtain ⟨part, ⟨l', left, rfl⟩ | ⟨none, r', right, rfl⟩⟩ := Arena.alloc_split found
    · have finds := (ihl here.left hl (by omega) left).left here top hr
      exact finds.mono fun a => search_down here (two_pow_ne part) top
    · have finds := (ihr here.right hr (by omega) right).right here top hl
      refine finds.mono fun a more => search_down here (two_pow_ne part) top ?_
      apply search_none here.left hl (by omega) none .odd
      have length : 17 - (d + 1) = h := by
        have := here.height
        omega
      rw [resume_some, length]
      exact more

end

end BottlerOS.BuddySearch
