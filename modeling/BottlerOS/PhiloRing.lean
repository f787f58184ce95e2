import BottlerOS.Library.CircularList
import BottlerOS.Philosophers

/-! The ring of philosophers over whole runs of `phylo`, with the keys in between. -/

namespace BottlerOS.PhiloRing
open Machine Philosophers CircularList

variable {w w' : World} {m : Mallocs} {ms : Nat → Mallocs} {pids : Ptr → Int}
  {f e p q x : Ptr} {made ring : List Ptr} {n i fuel : Nat} {number : Int}

section
variable (w : World) (p x : Ptr) (pid : Int) (c : Call)

theorem left_put (phil : Philosopher) : (w.put p phil).left = Function.update w.left p phil.left :=
  Function.comp_update Philosopher.left w.philos p phil

theorem right_put (phil : Philosopher) :
    (w.put p phil).right = Function.update w.right p phil.right :=
  Function.comp_update Philosopher.right w.philos p phil

theorem left_put_self (phil : Philosopher) (same : phil.left = w.left p) :
    (w.put p phil).left = w.left := by
  rw [left_put, same, Function.update_eq_self]

theorem right_put_self (phil : Philosopher) (same : phil.right = w.right p) :
    (w.put p phil).right = w.right := by
  rw [right_put, same, Function.update_eq_self]

@[simp] theorem left_setLeft : (w.setLeft p x).left = Function.update w.left p x :=
  left_put w p _

@[simp] theorem right_setRight : (w.setRight p x).right = Function.update w.right p x :=
  right_put w p _

@[simp] theorem right_setLeft : (w.setLeft p x).right = w.right := right_put_self w p _ rfl

@[simp] theorem left_setRight : (w.setRight p x).left = w.left := left_put_self w p _ rfl

@[simp] theorem left_setPid : (w.setPid p pid).left = w.left := left_put_self w p _ rfl

@[simp] theorem right_setPid : (w.setPid p pid).right = w.right := right_put_self w p _ rfl

@[simp] theorem left_call : (w.call c).left = w.left := rfl

@[simp] theorem right_call : (w.call c).right = w.right := rfl

@[simp] theorem left_mk (live : List Ptr) (first : Option Ptr) (count : Int) (running : Bool)
    (calls : List Call) : World.left ⟨w.philos, live, first, count, running, calls⟩ = w.left := rfl

@[simp] theorem right_mk (live : List Ptr) (first : Option Ptr) (count : Int) (running : Bool)
    (calls : List Call) : World.right ⟨w.philos, live, first, count, running, calls⟩ = w.right :=
  rfl

@[simp] theorem left_freed : (w.freed p).left = w.left := rfl

@[simp] theorem right_freed : (w.freed p).right = w.right := rfl

end

/-- The live philosophers are one circle that starts at `firstPhil`. -/
structure Ring (w : World) (ring : List Ptr) (f e : Ptr) : Prop where
  first : w.firstPhil = some f
  round : Round w.left w.right ring f e
  all : ring.Perm w.live
  count : (ring.length : Int) = w.philoCount

/-- The live philosophers form one circle through `firstPhil`, of `philoCount` members, whose links
are inverse to each other and stay among the live. -/
def Sound (w : World) : Prop :=
  ∃ f ∈ w.live, w.firstPhil = some f ∧ (∃ ring e, Ring w ring f e) ∧
    ∀ p ∈ w.live, w.left p ∈ w.live ∧ w.right p ∈ w.live ∧
      w.left (w.right p) = p ∧ w.right (w.left p) = p

theorem Ring.mem (r : Ring w ring f e) : p ∈ ring ↔ p ∈ w.live := r.all.mem_iff

theorem Ring.sound (r : Ring w ring f e) : Sound w := by
  refine ⟨f, r.mem.mp r.round.mem_first, r.first, ⟨ring, e, r⟩, fun p hp => ?_⟩
  have hp := r.mem.mpr hp
  obtain ⟨there, back⟩ := r.round.left_mem hp
  obtain ⟨there', back'⟩ := r.round.right_mem hp
  exact ⟨r.mem.mp there, r.mem.mp there', back', back⟩

/-- A philosopher has been allocated, and its links are still to be set. -/
structure Made (m : Mallocs) (p : Ptr) (w w' : World) : Prop where
  phil : m.phil = some p
  fresh : p ∉ w.live
  live : w'.live = w.live ++ [p]
  left : w'.left = w.left
  right : w'.right = w.right
  first : w'.firstPhil = w.firstPhil
  count : w'.philoCount = w.philoCount
  states : ∀ q, (w'.philos q).state = if q = p then .thinking else (w.philos q).state

theorem newPhilo_made (run : newPhilo m number w = .ok (p, w')) : Made m p w w' := by
  obtain ⟨phil, hphil, run⟩ := bind_ok.mp run
  obtain ⟨argv, -, run⟩ := bind_ok.mp run
  obtain ⟨buffer, -, run⟩ := bind_ok.mp run
  obtain ⟨aux, -, run⟩ := bind_ok.mp run
  obtain ⟨name, -, run⟩ := bind_ok.mp run
  split at run
  · cases run
  · next fresh =>
    cases run
    refine ⟨deref_ok.mp hphil, fresh, rfl, left_put_self w p _ rfl, right_put_self w p _ rfl, rfl,
      rfl, fun q => ?_⟩
    change (Function.update w.philos p _ q).state = _
    rw [Function.update_apply]
    split <;> rfl

/-- The links, the live philosophers, the head and the count are the same. -/
structure Same (w w' : World) : Prop where
  left : w'.left = w.left
  right : w'.right = w.right
  live : w'.live = w.live
  first : w'.firstPhil = w.firstPhil
  count : w'.philoCount = w.philoCount

theorem Ring.of_same (r : Ring w ring f e) (same : Same w w') : Ring w' ring f e where
  first := same.first.trans r.first
  round := by
    rw [same.left, same.right]
    exact r.round
  all := by
    rw [same.live]
    exact r.all
  count := r.count.trans same.count.symm

/-- The stores that link a new philosopher at the left of `f`. -/
def linked (new f : Ptr) (w : World) : World :=
  let w := w.setLeft new (w.left f)
  let w := w.setRight new f
  let w := w.setRight (w.left f) new
  w.setLeft f new

theorem Ring.linked (r : Ring w ring f e)
    (made : Made m p { w with philoCount := w.philoCount + 1 } w') :
    Ring (linked p f w') (ring ++ [p]) f p := by
  have fresh : p ∉ ring := fun h => made.fresh (r.mem.mp h)
  have apart : f ≠ p := fun eq => fresh (eq ▸ r.round.mem_first)
  have last : w.left f = e := r.round.closed.2
  have round := r.round.insert fresh
  refine ⟨made.first.trans r.first, ?_, ?_, ?_⟩
  · simpa [PhiloRing.linked, made.left, made.right, last, Function.update_of_ne apart] using round
  · change (ring ++ [p]).Perm w'.live
    rw [made.live]
    exact r.all.append_right [p]
  · change ((ring ++ [p]).length : Int) = w'.philoCount
    have more : w'.philoCount = w.philoCount + 1 := made.count
    have count := r.count
    rw [more, List.length_append, List.length_singleton]
    omega

theorem addPhilo_ring (r : Ring w ring f e) (run : addPhilo m w = .ok w') :
    ∃ p, Ring w' (ring ++ [p]) f p := by
  obtain ⟨⟨p, w1⟩, new, run⟩ := bind_ok.mp run
  have made := newPhilo_made new
  obtain ⟨f', hf, run⟩ := bind_ok.mp run
  have first := made.first.trans r.first
  obtain rfl : f' = f := Option.some.inj ((deref_ok.mp hf).symm.trans first)
  cases run
  have loaded : Same (linked p f' w1) (((linked p f' w1).setPid p m.pid).call (.loadProcess p)) :=
    ⟨by simp, by simp, rfl, rfl, rfl⟩
  exact ⟨p, (r.linked made).of_same loaded⟩

/-- The stores that take `del` out, and its end. -/
def unlinked (del : Ptr) (w : World) : World :=
  let w := w.setRight (w.left del) (w.right del)
  let w := w.setLeft (w.right del) (w.left del)
  w.freed del

theorem Ring.two_ends (r : Ring w ring f e) (more : 2 ≤ w.philoCount) : f ≠ e := by
  have count := r.count
  have first := List.cons_head?_tail r.round.first
  have last := r.round.last
  rw [← first] at last count
  rw [List.length_cons] at count
  cases rest : ring.tail with
  | nil =>
    rw [rest, List.length_nil] at count
    omega
  | cons b l =>
    rw [rest, List.getLast?_cons_cons] at last
    have nodup := r.round.nodup
    rw [← first, rest, List.nodup_cons] at nodup
    rintro rfl
    exact nodup.1 (List.mem_of_getLast? last)

theorem Ring.unlinked (r : Ring w ring f e) (more : 2 ≤ w.philoCount) :
    ∃ l, Ring (unlinked e { w with philoCount := w.philoCount - 1 }) l f (w.left e) := by
  obtain ⟨l, rfl⟩ : ∃ l, ring = l ++ [e] :=
    ⟨ring.dropLast, (List.dropLast_append_getLast? e r.round.last).symm⟩
  have count := r.count
  rw [List.length_append, List.length_singleton] at count
  have some : l ≠ [] := by
    rintro rfl
    rw [List.length_nil] at count
    omega
  have forth : w.right e = f := r.round.closed.1
  have round := r.round.remove some
  have outer : Function.update w.right (w.left e) f e = f := by
    by_cases alone : e = w.left e
    · rw [← alone, Function.update_self]
    · rw [Function.update_of_ne alone, forth]
  refine ⟨l, r.first, ?_, ?_, ?_⟩
  · simpa [PhiloRing.unlinked, forth, outer] using round
  · change l.Perm (w.live.filter (· ≠ e))
    have all := r.all.filter (· ≠ e)
    have apart := (List.nodup_append.mp r.round.nodup).2.2
    rw [List.filter_append, List.filter_eq_self.mpr] at all
    · simpa using all
    · intro a ha
      simpa using apart a ha e List.mem_cons_self
  · change (l.length : Int) = w.philoCount - 1
    omega

theorem removePhilo_ring (r : Ring w ring f e) (more : 2 ≤ w.philoCount)
    (run : removePhilo w = .ok w') : ∃ ring' e', Ring w' ring' f e' := by
  obtain ⟨f', hf, run⟩ := bind_ok.mp run
  obtain rfl : f' = f := Option.some.inj ((deref_ok.mp hf).symm.trans r.first)
  cases run
  obtain ⟨l, out⟩ := r.unlinked more
  rw [← r.round.closed.2] at out
  exact ⟨l, _, out.of_same ⟨rfl, rfl, rfl, rfl, rfl⟩⟩

theorem launch_same (run : launch pids f fuel p w = .ok w') : Same w w' := by
  induction fuel generalizing p w with
  | zero => cases run
  | succ fuel ih =>
    rw [launch] at run
    split at run
    · obtain ⟨left, right, live, first, count⟩ := ih run
      exact ⟨by simpa using left, by simpa using right, live, first, count⟩
    · cases run
      exact ⟨by simp, by simp, rfl, rfl, rfl⟩

/-- What the building loop has made so far. -/
structure Built (w : World) (made : List Ptr) : Prop where
  live : w.live = made
  nodup : made.Nodup
  chain : made.IsChain (Joined w.left w.right)
  first : made ≠ [] → w.firstPhil = made.head?

/-- A turn of the building loop. -/
theorem Built.attached {w1 : World} (b : Built w made) (new : Made m p w w1)
    (ready : made = [] → w.firstPhil = none ∨ w.firstPhil = some p) :
    Built (attach made.getLast? p w1) (made ++ [p]) ∧
      (attach made.getLast? p w1).philoCount = w.philoCount := by
  have fresh : p ∉ made := b.live ▸ new.fresh
  have live : w1.live = made ++ [p] := by rw [new.live, b.live]
  have nodup : (made ++ [p]).Nodup := by
    rw [List.nodup_append]
    refine ⟨b.nodup, List.nodup_singleton p, fun a ha b hb => ?_⟩
    rw [List.mem_singleton.mp hb]
    rintro rfl
    exact fresh ha
  cases last : made.getLast? with
  | none =>
    obtain rfl := List.getLast?_eq_none_iff.mp last
    have first := new.first
    by_cases empty : w1.firstPhil = none
    · rw [attach, if_pos empty]
      exact ⟨⟨live, nodup, .singleton p, fun _ => rfl⟩, new.count⟩
    · rw [attach, if_neg empty]
      refine ⟨⟨live, nodup, .singleton p, fun _ => ?_⟩, new.count⟩
      rw [first] at empty ⊢
      exact (ready rfl).resolve_left empty
  | some e =>
    have more : made ≠ [] := by
      rintro rfl
      cases last
    have first : w1.firstPhil = made.head? := new.first.trans (b.first more)
    have full : w1.firstPhil ≠ none := by
      rw [first]
      exact fun none => more (List.head?_eq_none_iff.mp none)
    have chain := chain_snoc b.nodup b.chain last fresh
    have linked : attach (some e) p w1 = (w1.setLeft p e).setRight e p := if_neg full
    rw [linked]
    refine ⟨⟨live, nodup, ?_, fun _ => ?_⟩, new.count⟩
    · simpa [new.left, new.right] using chain
    · rw [List.head?_append_of_ne_nil made more]
      exact first

theorem build_built (b : Built w made)
    (ready : made = [] → w.firstPhil = none ∨ w.firstPhil = (ms i).phil) {left : Option Ptr}
    (run : build ms n i made.getLast? w = .ok (left, w')) :
    ∃ made', Built w' made' ∧ left = made'.getLast? ∧ made'.length = made.length + n ∧
      w'.philoCount = w.philoCount := by
  induction n generalizing made i w with
  | zero =>
    cases run
    exact ⟨made, b, rfl, rfl, rfl⟩
  | succ n ih =>
    rw [build] at run
    obtain ⟨⟨p, w1⟩, new, run⟩ := bind_ok.mp run
    have new := newPhilo_made new
    rw [new.phil] at ready
    obtain ⟨turn, kept⟩ := b.attached new ready
    rw [← kept]
    change build ms n (i + 1) (some p) _ = _ at run
    rw [← List.getLast?_concat (a := p) (l := made)] at run
    obtain ⟨made', b', last, length, count⟩ := ih turn (by simp) run
    refine ⟨made', b', last, ?_, count⟩
    rw [length, List.length_append, List.length_singleton]
    omega

/-- The building loop leaves a ring, where it finds no head but the first block it gets. -/
theorem buildRing_ring (empty : w.live = [])
    (ready : w.firstPhil = none ∨ w.firstPhil = (ms 0).phil)
    (run : buildRing ms w = .ok (f, w')) : ∃ ring e, Ring w' ring f e := by
  obtain ⟨⟨last, w1⟩, built, run⟩ := bind_ok.mp run
  obtain ⟨f', hf, run⟩ := bind_ok.mp run
  obtain ⟨e, he, run⟩ := bind_ok.mp run
  cases run
  obtain ⟨made, b, rfl, length, count⟩ := build_built ⟨empty, List.nodup_nil, .nil,
    fun more => absurd rfl more⟩ (fun _ => ready) built
  have last := deref_ok.mp he
  have more : made ≠ [] := by
    rintro rfl
    cases last
  have first := deref_ok.mp hf
  have round := Round.close b.nodup b.chain ((b.first more).symm.trans first) last
  refine ⟨made, e, first, by simpa using round, .of_eq b.live.symm, ?_⟩
  change (made.length : Int) = w1.philoCount
  rw [count, length]
  have some := List.length_pos_iff.mpr more
  rw [List.length_nil, Nat.zero_add] at length ⊢
  omega

/-- `phylo` in front of its input loop. -/
theorem phylo_ring {argc : Int} (fit : ¬ refuses argc (asked argc number w.philoCount))
    (empty : w.live = []) (ready : w.firstPhil = none ∨ w.firstPhil = (ms 0).phil)
    (run : phylo argc number ms pids fuel w = .ok w') : ∃ ring f e, Ring w' ring f e := by
  rw [phylo] at run
  change (if refuses argc (asked argc number w.philoCount) then _ else _) = _ at run
  rw [if_neg fit] at run
  obtain ⟨⟨f, w1⟩, built, run⟩ := bind_ok.mp run
  obtain ⟨w2, launched, run⟩ := bind_ok.mp run
  cases run
  have asks : { w with philoCount := asked argc number w.philoCount }.live = [] := empty
  obtain ⟨ring, e, r⟩ := buildRing_ring asks ready built
  have same := launch_same launched
  exact ⟨ring, f, e, r.of_same ⟨same.left, same.right, same.live, same.first, same.count⟩⟩

/-- The walk of `end` frees what it passes. -/
theorem freeRing_live {t : List Ptr} (chain : (p :: t).IsChain fun a b => w.right a = b)
    (last : (p :: t).getLast? = some e) (closed : w.right e = f) (apart : f ∉ p :: t)
    (run : freeRing f fuel p w = .ok w') : w'.live = w.live.filter (· ∉ p :: t) := by
  induction t generalizing p w fuel with
  | nil =>
    cases fuel with
    | zero => cases run
    | succ fuel =>
      obtain rfl : p = e := Option.some.inj last
      have stop : (freePhilo p w).right p = f := closed
      rw [freeRing] at run
      change (if (freePhilo p w).right p ≠ f then _ else _) = _ at run
      rw [if_neg (not_not.mpr stop)] at run
      cases run
      change w.live.filter (· ≠ p) = _
      simp
  | cons b t ih =>
    cases fuel with
    | zero => cases run
    | succ fuel =>
      obtain ⟨forth, chain⟩ := List.isChain_cons_cons.mp chain
      have next : (freePhilo p w).right p = b := forth
      have go : (freePhilo p w).right p ≠ f := by
        rw [next]
        rintro rfl
        exact apart (by simp)
      rw [freeRing] at run
      change (if (freePhilo p w).right p ≠ f then _ else _) = _ at run
      rw [if_pos go, next] at run
      rw [List.getLast?_cons_cons] at last
      have live := ih (w := freePhilo p w) chain last closed
        (fun h => apart (List.mem_cons_of_mem p h)) run
      have freed : (freePhilo p w).live = w.live.filter (· ≠ p) := rfl
      rw [live, freed, List.filter_filter]
      congr 1
      ext a
      simp only [List.mem_cons, not_or, Bool.decide_and]
      exact Bool.and_comm _ _

theorem freeRing_fewer (run : freeRing f fuel p w = .ok w') : w'.live ⊆ w.live := by
  induction fuel generalizing p w with
  | zero => cases run
  | succ fuel ih =>
    have fewer : (freePhilo p w).live ⊆ w.live := List.filter_sublist.subset
    rw [freeRing] at run
    split at run
    · exact fun a ha => fewer (ih run ha)
    · cases run
      exact fewer

/-- `end` frees every philosopher of the ring. -/
theorem end_live (r : Ring w ring f e) (run : end_ fuel w = .ok w') : w'.live = [] := by
  obtain ⟨f', hf, run⟩ := bind_ok.mp run
  obtain rfl : f' = f := Option.some.inj ((deref_ok.mp hf).symm.trans r.first)
  obtain ⟨w1, walk, run⟩ := bind_ok.mp run
  cases run
  change w1.live.filter (· ≠ f') = []
  rw [List.filter_eq_nil_iff]
  intro a ha
  have member := r.mem.mpr (freeRing_fewer walk ha)
  have round := r.round
  obtain ⟨t, rfl⟩ : ∃ t, ring = f' :: t := ⟨_, (List.cons_head?_tail round.first).symm⟩
  cases t with
  | nil => simpa using member
  | cons b t =>
    obtain ⟨⟨forth, -⟩, rest⟩ := List.isChain_cons_cons.mp round.chain
    have last := round.last
    rw [List.getLast?_cons_cons] at last
    rw [forth] at walk
    have gone := freeRing_live (rest.imp fun _ _ joined => joined.1) last round.closed.1
      (List.nodup_cons.mp round.nodup).1 walk
    rw [gone, List.mem_filter] at ha
    have passed := of_decide_eq_true ha.2
    have first := (List.mem_cons.mp member).resolve_right passed
    simpa using first

/-- The steps after which the ring is whole: `phylo` finds no head of an earlier run unless that
philosopher's block is the first one it gets, no philosopher gets a name of two digits, and the last
one is not removed. -/
def Sparing (w : World) : Event → Prop
  | .phylo argc number ms _ => refuses argc (asked argc number w.philoCount) ∨
      w.firstPhil = none ∨ w.firstPhil = (ms 0).phil
  | .input c _ => (c = 97 → w.philoCount < 9) ∧ (c = 114 → 2 ≤ w.philoCount)

/-- Between two runs the head, if any philosopher is left, is one of them. -/
structure Kept (w : World) : Prop where
  on : w.running = true → ∃ ring f e, Ring w ring f e
  off : w.live = [] ∨ ∃ f ∈ w.live, w.firstPhil = some f

theorem Ring.kept (r : Ring w ring f e) : Kept w where
  on _ := ⟨ring, f, e, r⟩
  off := .inr ⟨f, r.mem.mp r.round.mem_first, r.first⟩

theorem phylo_fresh {argc : Int} (fit : ¬ refuses argc (asked argc number w.philoCount))
    (run : phylo argc number ms pids fuel w = .ok w') :
    ∃ p, (ms 0).phil = some p ∧ p ∉ w.live := by
  rw [phylo] at run
  change (if refuses argc (asked argc number w.philoCount) then _ else _) = _ at run
  rw [if_neg fit] at run
  obtain ⟨⟨f, w1⟩, closed, run⟩ := bind_ok.mp run
  obtain ⟨⟨last, w2⟩, built, run⟩ := bind_ok.mp closed
  change build ms (asked argc number w.philoCount).toNat 0 none _ = _ at built
  cases turns : (asked argc number w.philoCount).toNat with
  | zero =>
    rw [turns] at built
    cases built
    obtain ⟨f, -, run⟩ := bind_ok.mp run
    cases run
  | succ n =>
    rw [turns, build] at built
    obtain ⟨⟨p, w3⟩, new, -⟩ := bind_ok.mp built
    have made := newPhilo_made new
    exact ⟨p, made.phil, made.fresh⟩

theorem phylo_kept {argc : Int} (kept : Kept w)
    (sparing : Sparing w (.phylo argc number ms pids)) (idle : w.running = false)
    (run : phylo argc number ms pids fuel w = .ok w') : Kept w' := by
  by_cases bad : refuses argc (asked argc number w.philoCount)
  · rw [phylo] at run
    change (if refuses argc (asked argc number w.philoCount) then _ else _) = _ at run
    rw [if_pos bad] at run
    cases run
    exact ⟨fun on => absurd (idle.symm.trans on) Bool.false_ne_true, kept.off⟩
  · have ready := sparing.resolve_left bad
    cases kept.off with
    | inl empty =>
      obtain ⟨ring, f, e, r⟩ := phylo_ring bad empty ready run
      exact r.kept
    | inr old =>
      -- the head's block is live, so the first `sys_malloc` cannot return it
      obtain ⟨f, live, first⟩ := old
      obtain ⟨p, phil, fresh⟩ := phylo_fresh bad run
      rw [first, phil] at ready
      have head := Option.some.inj (ready.resolve_left (by simp))
      exact absurd (head ▸ live) fresh

theorem input_kept {c : Int} (kept : Kept w) (sparing : Sparing w (.input c m))
    (on : w.running = true) (run : input c m fuel w = .ok w') : Kept w' := by
  obtain ⟨ring, f, e, r⟩ := kept.on on
  rw [input] at run
  split at run
  · split at run
    · obtain ⟨p, r'⟩ := addPhilo_ring r run
      exact r'.kept
    · split at run
      · next removes =>
        obtain ⟨ring', e', r'⟩ := removePhilo_ring r (sparing.2 removes) run
        exact r'.kept
      · split at run
        · have empty := end_live r run
          obtain ⟨f', -, run⟩ := bind_ok.mp run
          obtain ⟨w1, -, run⟩ := bind_ok.mp run
          cases run
          exact ⟨fun on => Bool.noConfusion on, .inl empty⟩
        · cases run
          exact kept
  · cases run
    exact ⟨fun on => Bool.noConfusion on, kept.off⟩

theorem runs_kept (runs : Runs Sparing w) : Kept w := by
  induction runs with
  | boot philos => exact ⟨fun on => Bool.noConfusion on, .inl rfl⟩
  | @step w w' event fuel _ enabled sparing run ih =>
    cases event with
    | phylo argc number ms pids => exact phylo_kept ih sparing enabled run
    | input c m => exact input_kept ih sparing enabled run

/-- In the runs whose steps are sparing, the philosophers form one ring whenever `phylo` reads its
input. -/
theorem ring_sound (runs : Runs Sparing w) (on : w.running = true) : Sound w := by
  obtain ⟨ring, f, e, r⟩ := (runs_kept runs).on on
  exact r.sound

/-- The blocks of a run whose philosopher lies at `phil`. -/
def blocks (phil : Ptr) : Mallocs := ⟨some phil, some 1, some 1, some 1, 0, 0⟩

/-- One philosopher, in a block at 8. -/
def solo : Event := .phylo 2 1 (fun _ => blocks 8) fun _ => 0

theorem ring_sound_solo : ∃ w, Runs Sparing w ∧ Sound w := by
  have runs := @Runs.step Sparing _ _ solo 1 (.boot fun _ => ⟨0, 0, 0, 0, .thinking, 0, 0⟩)
    rfl (.inr (.inl rfl)) rfl
  exact ⟨_, runs, ring_sound runs rfl⟩

/-- `phylo 1`, and its only philosopher is removed: the head is one that has been freed. -/
theorem solo_removed : ¬ ∀ w, Runs (fun _ _ => True) w → w.running = true → Sound w := by
  intro always
  have started := @Runs.step (fun _ _ => True) _ _ solo 1
    (.boot fun _ => ⟨0, 0, 0, 0, .thinking, 0, 0⟩) rfl trivial rfl
  have removed := @Runs.step (fun _ _ => True) _ _ (.input 114 (blocks 8)) 1 started
    rfl trivial rfl
  obtain ⟨f, live, -⟩ := always _ removed rfl
  cases live

end BottlerOS.PhiloRing
