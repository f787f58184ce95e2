import BottlerOS.BuddyHeap
import BottlerOS.Library.BuddyTree
import BottlerOS.Library.Yields

/-! `self.tree` as a buddy tree: what the marks of its nodes say, and what `_mark_parent` and
`_combine` do on the way up. -/

namespace BottlerOS.BuddyNodes
open Machine BuddyHeap BuddyTree Yields

/-- NODE_USED or NODE_FULL -/
def Busy (n : Node) : Prop := n = .used ∨ n = .full

instance (n : Node) : Decidable (Busy n) := inferInstanceAs (Decidable (_ ∨ _))

def mark {h : Nat} (t : Arena h) : Node :=
  match t with
  | .unused => .unused
  | .used => .used
  | .split l r => if l.isFull && r.isFull then .full else .split

/-- The marks that are left below a leaf of height `h`. -/
def Stale (tree : Nat → Node) : (h i : Nat) → Prop
  | 0, _ => True
  | h + 1, i => ¬ (Busy (tree (2 * i + 1)) ∧ Busy (tree (2 * i + 2))) ∧
      Stale tree h (2 * i + 1) ∧ Stale tree h (2 * i + 2)

/-- The nodes from `i` on show the tree. -/
def Rep (tree : Nat → Node) : {h : Nat} → Nat → Arena h → Prop
  | h, i, .unused => tree i = .unused ∧ Stale tree h i
  | h, i, .used => tree i = .used ∧ Stale tree h i
  | _, i, .split l r => tree i = mark (.split l r) ∧ Rep tree (2 * i + 1) l ∧
      Rep tree (2 * i + 2) r
termination_by structural _ _ t => t

/-- `x` is `i` or a node below it. -/
def Under (i x : Nat) : Prop := ∃ n, (x + 1) / 2 ^ n = i + 1

/-- The node `i` is on level `d`, `h` levels above the pages, and `s` is its first page. -/
structure At (i d h s : Nat) : Prop where
  height : d + h = 17
  place : ∃ p, i + 1 = 2 ^ d + p ∧ p < 2 ^ d ∧ s = p * 2 ^ h

/-- `k` and `q` are the children of `i`. -/
def Siblings (i k q : Nat) : Prop :=
  k = 2 * i + 1 ∧ q = 2 * i + 2 ∨ k = 2 * i + 2 ∧ q = 2 * i + 1

section
variable {tree tree' : Nat → Node} {b b' : Heap} {h i k q x d s : Nat} {t l r : Arena h}

theorem under_self (i : Nat) : Under i i := ⟨0, by simp⟩

theorem ne_of_far (far : ¬ Under i x) : x ≠ i := by
  rintro rfl
  exact far (under_self x)

theorem Under.of_child (sib : Siblings i k q) (under : Under k x) : Under i x := by
  obtain ⟨n, hn⟩ := under
  refine ⟨n + 1, ?_⟩
  rw [Nat.pow_succ, ← Nat.div_div_eq_div_mul, hn]
  rcases sib with ⟨rfl, -⟩ | ⟨rfl, -⟩ <;> omega

theorem Under.le (under : Under i x) : i ≤ x := by
  obtain ⟨n, hn⟩ := under
  have := Nat.div_le_self (x + 1) (2 ^ n)
  omega

theorem Siblings.symm (sib : Siblings i k q) : Siblings i q k := by
  rcases sib with ⟨rfl, rfl⟩ | ⟨rfl, rfl⟩
  · exact .inr ⟨rfl, rfl⟩
  · exact .inl ⟨rfl, rfl⟩

theorem Siblings.lt (sib : Siblings i k q) : i < k ∧ i < q ∧ k ≠ q := by
  rcases sib with ⟨rfl, rfl⟩ | ⟨rfl, rfl⟩ <;> omega

theorem Siblings.not_under (sib : Siblings i k q) : ¬ Under k i := fun under => by
  have := under.le
  have := sib.lt
  omega

/-- The two children have no node in common. -/
theorem Siblings.apart (sib : Siblings i k q) (under : Under k x) : ¬ Under q x := by
  have one : ∀ {i k q n m : Nat}, Siblings i k q → (x + 1) / 2 ^ n = k + 1 →
      (x + 1) / 2 ^ m = q + 1 → ¬ n < m := by
    intro i k q n m sib hn hm less
    obtain ⟨e, rfl⟩ : ∃ e, m = n + 1 + e := ⟨m - (n + 1), by omega⟩
    rw [Nat.pow_add, Nat.pow_succ, ← Nat.div_div_eq_div_mul, ← Nat.div_div_eq_div_mul, hn] at hm
    have := Nat.div_le_self ((k + 1) / 2) (2 ^ e)
    rcases sib with ⟨rfl, rfl⟩ | ⟨rfl, rfl⟩ <;> omega
  rintro ⟨m, hm⟩
  obtain ⟨n, hn⟩ := under
  rcases Nat.lt_trichotomy n m with less | same | more
  · exact one sib hn hm less
  · subst same
    have := sib.lt
    omega
  · exact one sib.symm hm hn more

/-! Where the nodes lie. -/

theorem At.left (here : At i d (h + 1) s) : At (2 * i + 1) (d + 1) h s := by
  obtain ⟨height, p, hi, hp, rfl⟩ := here
  refine ⟨by omega, 2 * p, ?_, ?_, ?_⟩
  · rw [Nat.pow_succ]
    omega
  · rw [Nat.pow_succ]
    omega
  · rw [Nat.pow_succ, Nat.mul_comm (2 ^ h), ← Nat.mul_assoc, Nat.mul_comm p]

theorem At.right (here : At i d (h + 1) s) : At (2 * i + 2) (d + 1) h (s + 2 ^ h) := by
  obtain ⟨height, p, hi, hp, rfl⟩ := here
  refine ⟨by omega, 2 * p + 1, ?_, ?_, ?_⟩
  · rw [Nat.pow_succ]
    omega
  · rw [Nat.pow_succ]
    omega
  · rw [Nat.pow_succ, Nat.mul_comm (2 ^ h), ← Nat.mul_assoc, Nat.mul_comm p, Nat.add_mul,
      Nat.one_mul]

theorem at_root : At 0 0 17 0 := ⟨rfl, 0, rfl, by decide, by decide⟩

theorem At.lt (here : At i d h s) : i < 2 * SIZE - 1 := by
  obtain ⟨height, p, hi, hp, -⟩ := here
  have : 2 ^ d ≤ SIZE := Nat.pow_le_pow_right (by omega) (by omega)
  omega

theorem At.end_le (here : At i d h s) : s + 2 ^ h ≤ SIZE := by
  obtain ⟨height, p, -, hp, rfl⟩ := here
  have : (p + 1) * 2 ^ h ≤ 2 ^ d * 2 ^ h := Nat.mul_le_mul_right _ hp
  rw [← Nat.pow_add, height, Nat.add_mul, Nat.one_mul] at this
  exact this

/-- A node that has pages below it has its children in the tree. -/
theorem At.siblings (here : At i d (h + 1) s) (sib : Siblings i k q) :
    i < 2 * SIZE - 1 ∧ k < 2 * SIZE - 1 ∧ q < 2 * SIZE - 1 := by
  have left := here.left.lt
  have right := here.right.lt
  rcases sib with ⟨rfl, rfl⟩ | ⟨rfl, rfl⟩ <;> omega

theorem Siblings.buddyOf (sib : Siblings i k q) : buddyOf (k : Int) = q := by
  unfold BuddyHeap.buddyOf
  rcases sib with ⟨rfl, rfl⟩ | ⟨rfl, rfl⟩ <;> omega

theorem Siblings.parentOf (sib : Siblings i k q) : parentOf (k : Int) = i := by
  unfold BuddyHeap.parentOf
  rw [Int.tdiv_eq_ediv_of_nonneg (by omega)]
  rcases sib with ⟨rfl, rfl⟩ | ⟨rfl, rfl⟩ <;> omega

theorem half_length (h : Nat) : ((2 : Int) ^ (h + 1)).tdiv 2 = 2 ^ h := by
  rw [Int.pow_succ, Int.mul_tdiv_cancel _ (by decide)]

/-! Reads and writes. -/

theorem read_ok (inside : i < 2 * SIZE - 1) : b.read (i : Int) = .ok (b.tree i) := by
  unfold Heap.read
  rw [if_pos (by omega)]
  rfl

theorem write_ok (inside : i < 2 * SIZE - 1) (x : Node) :
    b.write (i : Int) x = .ok { b with tree := Function.update b.tree i x } := by
  unfold Heap.write
  rw [if_pos (by omega)]
  rfl

/-! What a change elsewhere leaves as it is. -/

theorem left_of (i : Nat) : Siblings i (2 * i + 1) (2 * i + 2) := .inl ⟨rfl, rfl⟩

theorem right_of (i : Nat) : Siblings i (2 * i + 2) (2 * i + 1) := .inr ⟨rfl, rfl⟩

theorem Stale.congr (stale : Stale tree h i)
    (same : ∀ x, Under i x → x ≠ i → tree' x = tree x) : Stale tree' h i := by
  induction h generalizing i with
  | zero => trivial
  | succ h ih =>
    obtain ⟨apart, left, right⟩ := stale
    have below : ∀ {k q}, Siblings i k q → ∀ x, Under k x → tree' x = tree x := by
      intro k q sib x under
      refine same x (under.of_child sib) fun eq => ?_
      exact sib.not_under (eq ▸ under)
    refine ⟨?_, ih left fun x under _ => below (left_of i) x under,
      ih right fun x under _ => below (right_of i) x under⟩
    rw [below (left_of i) _ (under_self _), below (right_of i) _ (under_self _)]
    exact apart

theorem Rep.congr (rep : Rep tree i t) (same : ∀ x, Under i x → tree' x = tree x) :
    Rep tree' i t := by
  induction t generalizing i with
  | unused =>
    obtain ⟨here, stale⟩ := rep
    exact ⟨(same i (under_self i)).trans here, stale.congr fun x under _ => same x under⟩
  | used =>
    obtain ⟨here, stale⟩ := rep
    exact ⟨(same i (under_self i)).trans here, stale.congr fun x under _ => same x under⟩
  | split l r ihl ihr =>
    obtain ⟨here, left, right⟩ := rep
    refine ⟨(same i (under_self i)).trans here, ihl left fun x under => ?_,
      ihr right fun x under => ?_⟩
    · exact same x (under.of_child (left_of i))
    · exact same x (under.of_child (right_of i))

/-- A write to a node above. -/
theorem Rep.update_above (rep : Rep tree k t) (sib : Siblings i k q) (n : Node) :
    Rep (Function.update tree i n) k t := by
  refine rep.congr fun x under => Function.update_of_ne (fun eq => ?_) n tree
  exact sib.not_under (eq ▸ under)

theorem Rep.mark (rep : Rep tree i t) : tree i = mark t := by
  cases t with
  | unused => exact rep.1
  | used => exact rep.1
  | split l r => exact rep.1

theorem mark_busy : Busy (mark t) ↔ t.isFull = true := by
  cases t with
  | unused => simp [BuddyNodes.mark, Busy, Arena.isFull]
  | used => simp [BuddyNodes.mark, Busy, Arena.isFull]
  | split l r =>
    rw [BuddyNodes.mark, Busy, Arena.isFull]
    split <;> rename_i full <;> simp [full]

theorem mark_unused : mark t = .unused ↔ t.isUnused = true := by
  cases t with
  | unused => simp [BuddyNodes.mark, Arena.isUnused]
  | used => simp [BuddyNodes.mark, Arena.isUnused]
  | split l r =>
    rw [BuddyNodes.mark]
    split <;> simp [Arena.isUnused]

/-! `_mark_parent` -/

theorem markParent_up (here : At i d (h + 1) s) (sib : Siblings i k q) (busy : Busy (b.tree q))
    (run : Yields (fun f => markParent f i { b with tree := Function.update b.tree i .full }) b') :
    Yields (fun f => markParent f k b) b' := by
  obtain ⟨inside, -, beside⟩ := here.siblings sib
  unfold Busy at busy
  refine run.step (fun b h => by simp [markParent] at h) fun f => ?_
  rw [markParent, sib.buddyOf, sib.parentOf, read_ok beside, if_pos (by have := sib.lt; omega)]
  simp only [ok_bind]
  rw [if_pos busy, write_ok inside]
  rfl

theorem markParent_stop (here : At i d (h + 1) s) (sib : Siblings i k q)
    (idle : ¬ Busy (b.tree q)) : Yields (fun f => markParent f k b) b := by
  obtain ⟨-, -, beside⟩ := here.siblings sib
  unfold Busy at idle
  refine Yields.step (g := fun _ => .ok b) (.of_ok rfl) (fun b h => by simp [markParent] at h)
    fun f => ?_
  rw [markParent, sib.buddyOf, read_ok beside, if_pos (by have := sib.lt; omega)]
  simp only [ok_bind]
  rw [if_neg idle]
  rfl

theorem markParent_root (b : Heap) : Yields (fun f => markParent f (0 : Nat) b) b :=
  Yields.step (g := fun _ => .ok b) (.of_ok rfl) (fun b h => by simp [markParent] at h)
    fun _ => rfl

/-! `_combine` -/

theorem unfull_up (here : At i d (h + 1) s) (sib : Siblings i k q) (full : b.tree i = .full)
    (run : Yields (fun f => unfull f i { b with tree := Function.update b.tree i .split }) b') :
    Yields (fun f => unfull f k b) b' := by
  refine run.step (fun b h => by simp [unfull] at h) fun f => ?_
  rw [unfull, sib.parentOf, if_pos (Int.natCast_nonneg i), read_ok here.lt, write_ok here.lt, full]
  rfl

theorem unfull_stop (here : At i d (h + 1) s) (sib : Siblings i k q) (other : b.tree i ≠ .full) :
    Yields (fun f => unfull f k b) b := by
  refine Yields.step (g := fun _ => .ok b) (.of_ok rfl) (fun b h => by simp [unfull] at h)
    fun f => ?_
  rw [unfull, sib.parentOf, if_pos (Int.natCast_nonneg i), read_ok here.lt]
  simp only [ok_bind]
  rw [if_neg other]
  rfl

theorem unfull_root (b : Heap) : Yields (fun f => unfull f (0 : Nat) b) b :=
  Yields.step (g := fun _ => .ok b) (.of_ok rfl) (fun b h => by simp [unfull] at h) fun _ => rfl

theorem combine_up (here : At i d (h + 1) s) (sib : Siblings i k q)
    (unused : b.tree q = .unused) (run : Yields (fun f => combine f i b) b') :
    Yields (fun f => combine f k b) b' := by
  obtain ⟨-, -, beside⟩ := here.siblings sib
  refine run.step (fun b h => by simp [combine] at h) fun f => ?_
  rw [combine, sib.buddyOf, if_neg (by omega), read_ok beside, unused, sib.parentOf]
  rfl

theorem combine_stop (here : At i d (h + 1) s) (sib : Siblings i k q)
    (other : b.tree q ≠ .unused)
    (run : Yields (fun f => unfull f k { b with tree := Function.update b.tree k .unused }) b') :
    Yields (fun f => combine f k b) b' := by
  obtain ⟨-, inside, beside⟩ := here.siblings sib
  refine run.step (fun b h => by simp [combine] at h) fun f => ?_
  rw [combine, sib.buddyOf, if_neg (by omega), read_ok beside]
  simp only [ok_bind]
  rw [if_pos other, write_ok inside]
  rfl

theorem combine_root (b : Heap) : Yields (fun f => combine f (0 : Nat) b)
    { b with tree := Function.update b.tree 0 .unused } := by
  refine (unfull_root { b with tree := Function.update b.tree 0 .unused }).step
    (fun b h => by simp [combine] at h) fun f => ?_
  rw [combine, if_pos (by decide), write_ok at_root.lt]
  rfl

end

end BottlerOS.BuddyNodes
