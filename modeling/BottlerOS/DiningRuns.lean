import BottlerOS.DiningSafe

/-! The process of `phylo` beside the philosophers, and whole runs. -/

namespace BottlerOS.Dining
open Machine Philosophers PhiloRing CircularList

variable {w w' : World} {t t' : Table} {p q a b f e x new del : Ptr} {c c' : Pc} {m : Mallocs}
  {s : States} {pid : Int} {sems : Ptr → Nat} {ctl : Ctl} {ring : List Ptr}

/-- Two philosophers that become neighbours do not eat both, nor does one eat while a test of the
other has read what was there before. -/
structure Harmless (t : Table) (w : World) (a b : Ptr) : Prop where
  eaters : ¬ (Eats w a ∧ Eats w b)
  seesLeft : ∀ p c, t.pc p = some c → c.sawLeft = some b → ¬ Eats w a
  seesRight : ∀ p c, t.pc p = some c → c.sawRight = some a → ¬ Eats w b

theorem hungry_of_sawLeft (tests : Tests w c) (saw : c.sawLeft = some q) :
    state w q = .hungry := by
  cases c with
  | leftEats site q' l =>
    cases saw
    exact tests.1
  | right site q' =>
    cases saw
    exact tests.1
  | rightEats site q' r =>
    cases saw
    exact tests.1
  | eat site q' =>
    cases saw
    exact tests.1
  | _ => cases saw

theorem sawLeft_of_sawRight (saw : c.sawRight = some q) : c.sawLeft = some q := by
  cases c <;> first | exact saw | cases saw

/-- Links change, and every new pair of neighbours is harmless. -/
theorem Tests.relink (tests : Tests w c)
    (states : ∀ x, x ∈ w.live ∨ c.tested = some x → state w' x = state w x)
    (pairs : ∀ a b, Adjacent w' a b → Adjacent w a b ∨
      (c.sawLeft = some b → ¬ Eats w' a) ∧ (c.sawRight = some a → ¬ Eats w' b)) :
    Tests w' c := by
  have lefts : ∀ a b, c.sawLeft = some b → Adjacent w' a b → Eats w' a →
      Adjacent w a b ∧ Eats w a := by
    intro a b saw adjacent eats
    have old := (pairs a b adjacent).resolve_right fun harmless => harmless.1 saw eats
    exact ⟨old, (states a (.inl old.1)).symm.trans eats⟩
  have rights : ∀ a b, c.sawRight = some a → Adjacent w' a b → Eats w' b →
      Adjacent w a b ∧ Eats w b := by
    intro a b saw adjacent eats
    have old := (pairs a b adjacent).resolve_right fun harmless => harmless.2 saw eats
    exact ⟨old, (states b (.inl old.2.1)).symm.trans eats⟩
  cases c with
  | left site q => exact (states q (.inr rfl)).trans tests
  | leftEats site q l =>
    refine ⟨(states q (.inr rfl)).trans tests.1, fun a adjacent eats => ?_⟩
    obtain ⟨old, ate⟩ := lefts a q rfl adjacent eats
    exact tests.2 a old ate
  | right site q =>
    refine ⟨(states q (.inr rfl)).trans tests.1, fun a adjacent eats => ?_⟩
    obtain ⟨old, ate⟩ := lefts a q rfl adjacent eats
    exact tests.2 a old ate
  | rightEats site q r =>
    refine ⟨(states q (.inr rfl)).trans tests.1, fun a adjacent eats => ?_,
      fun b adjacent eats => ?_⟩
    · obtain ⟨old, ate⟩ := lefts a q rfl adjacent eats
      exact tests.2.1 a old ate
    · obtain ⟨old, ate⟩ := rights q b rfl adjacent eats
      exact tests.2.2 b old ate
  | eat site q =>
    refine ⟨(states q (.inr rfl)).trans tests.1, fun a adjacent eats => ?_,
      fun b adjacent eats => ?_⟩
    · obtain ⟨old, ate⟩ := lefts a q rfl adjacent eats
      exact tests.2.1 a old ate
    · obtain ⟨old, ate⟩ := rights q b rfl adjacent eats
      exact tests.2.2 b old ate
  | _ => trivial

theorem Apart.relink (apart : Apart w) (states : ∀ x ∈ w.live, state w' x = state w x)
    (pairs : ∀ a b, Adjacent w' a b → Adjacent w a b ∨ ¬ (Eats w' a ∧ Eats w' b)) : Apart w' := by
  rw [apart_iff] at apart ⊢
  intro a b ne adjacent both
  have old := (pairs a b adjacent).resolve_right fun harmless => harmless both
  exact apart a b ne old ⟨(states a old.1).symm.trans both.1, (states b old.2.1).symm.trans both.2⟩

/-- A step of an edit: the links change, and what it does next. -/
theorem Inv.relinks (inv : Inv t)
    (ring : ∃ f ring e, w'.firstPhil = some f ∧ Ring (done f ctl w') ring f e)
    (closed : ∀ p ∈ w'.live, w'.left p ∈ w'.live ∧ w'.right p ∈ w'.live)
    (procs : ∀ p c, t.pc p = some c → (p ∈ w'.live ∨ ctl = .kill p) ∧
      ∀ q, c.tested = some q → ctl = .kill p ∨ q ∈ w'.live ∧ (ctl = .free q → p = q))
    (states : ∀ x, (x ∈ t.w.live ∨ ∃ p c, t.pc p = some c ∧ c.tested = some x) →
      state w' x = state t.w x)
    (pairs : ∀ a b, Adjacent w' a b → Adjacent t.w a b ∨ Harmless t w' a b)
    (edits : Edits { t with w := w', ctl := ctl, sems := sems } ctl) :
    Inv { t with w := w', ctl := ctl, sems := sems } where
  ring := ring
  closed := closed
  procs := procs
  alone := inv.alone
  locked := inv.locked
  one := inv.one
  tests := by
    intro p c hp
    refine (inv.tests p c hp).relink (fun x known => ?_) fun a b adjacent => ?_
    · exact states x (known.imp_right fun tested => ⟨p, c, hp, tested⟩)
    · exact (pairs a b adjacent).imp_right fun harmless =>
        ⟨harmless.seesLeft p c hp, harmless.seesRight p c hp⟩
  apart := inv.apart.relink (fun x live => states x (.inl live)) fun a b adjacent =>
    (pairs a b adjacent).imp_right Harmless.eaters
  edits := edits

/-- No pair with a philosopher that is not running yet is harmful. -/
theorem Inv.idle_harmless (inv : Inv t) (idle : state t.w new = .thinking)
    (states : state w' new = state t.w new) (with_new : a = new ∨ b = new) :
    Harmless t w' a b := by
  have sober : ¬ Eats w' new := by
    intro eats
    have := idle.symm.trans (states.symm.trans eats)
    cases this
  have untested : ∀ p c, t.pc p = some c → c.sawLeft ≠ some new := by
    intro p c hp saw
    have hungry := hungry_of_sawLeft (inv.tests p c hp) saw
    rw [idle] at hungry
    cases hungry
  rcases with_new with rfl | rfl
  · exact ⟨fun both => sober both.1, fun _ _ _ _ => sober,
      fun p c hp saw => absurd (sawLeft_of_sawRight saw) (untested p c hp)⟩
  · exact ⟨fun both => sober both.2, fun p c hp saw => absurd saw (untested p c hp),
      fun _ _ _ _ => sober⟩

theorem Inv.ready_known (inv : Inv t) (idle : ∀ p, t.ctl ≠ .kill p) (hp : t.pc p = some c) :
    p ∈ t.w.live ∧ ∀ q, c.tested = some q → q ∈ t.w.live := by
  obtain ⟨known, tested⟩ := inv.procs p c hp
  exact ⟨known.resolve_right (idle p), fun q test => ((tested q test).resolve_left (idle p)).1⟩

/-- The same after an edit that neither kills nor frees anyone. -/
theorem Inv.still_known (inv : Inv t) (idle : ∀ p, t.ctl ≠ .kill p) (live : w'.live = t.w.live)
    (calm : ∀ q, ctl ≠ .free q) {p : Ptr} {c : Pc} (hp : t.pc p = some c) :
    (p ∈ w'.live ∨ ctl = .kill p) ∧
      ∀ q, c.tested = some q → ctl = .kill p ∨ q ∈ w'.live ∧ (ctl = .free q → p = q) := by
  obtain ⟨known, tested⟩ := inv.ready_known idle hp
  rw [live]
  exact ⟨.inl known, fun q test => .inr ⟨tested q test, fun frees => absurd frees (calm q)⟩⟩

theorem Inv.ring_at (inv : Inv t) (first : t.w.firstPhil = some f) :
    ∃ ring e, Ring (done f t.ctl t.w) ring f e := by
  obtain ⟨f', ring, e, first', r⟩ := inv.ring
  obtain rfl : f = f' := Option.some.inj (first.symm.trans first')
  exact ⟨ring, e, r⟩

/-- `addPhilo` makes a philosopher that is not linked yet. -/
theorem Inv.enters (inv : Inv t) (idle : t.ctl = .ready) (run : enter m t = some t') : Inv t' := by
  obtain ⟨⟨new, w1⟩, hnew, run⟩ := Option.bind_eq_some_iff.mp run
  have made := newPhilo_made (ok_of_toOption hnew)
  obtain ⟨f, hf, run⟩ := Option.bind_eq_some_iff.mp run
  cases run
  have first : t.w.firstPhil = some f := made.first.symm.trans hf
  obtain ⟨ring, e, r⟩ := inv.ring_at first
  rw [idle] at r
  have fresh : new ∉ t.w.live := made.fresh
  have live : w1.live = t.w.live ++ [new] := made.live
  have head : f ∈ t.w.live := r.mem.mp r.round.mem_first
  have left : ((w1.setLeft new (w1.left f)).setRight new f).left =
      Function.update t.w.left new (t.w.left f) := by
    simp [made.left]
  have right : ((w1.setLeft new (w1.left f)).setRight new f).right =
      Function.update t.w.right new f := by
    simp [made.right]
  have apart : ∀ x ∈ t.w.live, x ≠ new := by
    rintro x hx rfl
    exact fresh hx
  have far : ∀ p c, t.pc p = some c → p ∈ t.w.live ∧ ∀ q, c.tested = some q → q ∈ t.w.live :=
    fun p c => inv.ready_known (fun p kill => by rw [idle] at kill; cases kill)
  have stays : ∀ x, x ≠ new →
      state ((w1.setLeft new (w1.left f)).setRight new f) x = state t.w x := by
    intro x ne
    rw [state_setRight, state_setLeft]
    exact (made.states x).trans (if_neg ne)
  refine inv.relinks ⟨f, _, _, made.first.trans first, r.linked made⟩ ?_ ?_ ?_ ?_ ?_
  · intro p hp
    rw [left, right]
    change p ∈ w1.live at hp
    change _ ∈ w1.live ∧ _ ∈ w1.live
    rw [live] at hp ⊢
    by_cases here : p = new
    · rw [here, Function.update_self, Function.update_self]
      exact ⟨List.mem_append_left _ (inv.closed f head).1, List.mem_append_left _ head⟩
    · rw [Function.update_of_ne here, Function.update_of_ne here]
      have old := (List.mem_append.mp hp).resolve_right fun h => here (List.mem_singleton.mp h)
      obtain ⟨l, r⟩ := inv.closed p old
      exact ⟨List.mem_append_left _ l, List.mem_append_left _ r⟩
  · intro p c hp
    obtain ⟨member, tested⟩ := far p c hp
    change (p ∈ w1.live ∨ _) ∧ ∀ q, _ → _ ∨ q ∈ w1.live ∧ _
    rw [live]
    exact ⟨.inl (List.mem_append_left _ member), fun q test =>
      .inr ⟨List.mem_append_left _ (tested q test), fun frees => by cases frees⟩⟩
  · rintro x (member | ⟨p, c, hp, tested⟩)
    · exact stays x (apart x member)
    · exact stays x (apart x ((far p c hp).2 x tested))
  · rintro a b ⟨ha, hb, forth, back⟩
    change a ∈ w1.live at ha
    change b ∈ w1.live at hb
    rw [live] at ha hb
    rw [right] at forth
    rw [left] at back
    by_cases first : a = new
    · -- nobody has `new` at the left
      rw [first, Function.update_self] at forth
      rw [← forth, Function.update_of_ne (apart f head), first] at back
      exact absurd (back ▸ (inv.closed f head).1) fresh
    · have oldA := (List.mem_append.mp ha).resolve_right fun h => first (List.mem_singleton.mp h)
      rw [Function.update_of_ne first] at forth
      have oldB : b ∈ t.w.live := forth ▸ (inv.closed a oldA).2
      rw [Function.update_of_ne (apart b oldB)] at back
      exact .inl ⟨oldA, oldB, forth, back⟩
  · refine ⟨?_, ?_, ?_⟩
    · change new ∈ w1.live
      rw [live]
      exact List.mem_append_right _ List.mem_cons_self
    · cases running : t.pc new with
      | none => rfl
      | some c => exact absurd (far new c running).1 fresh
    · change state ((w1.setLeft new (w1.left f)).setRight new f) new = .thinking
      rw [state_setRight, state_setLeft]
      exact (made.states new).trans (if_pos rfl)

/-- The left neighbour of the head gets the new philosopher at its right. -/
theorem Inv.links_right (inv : Inv t) (here : t.ctl = .linkRight new)
    (first : t.w.firstPhil = some f) :
    Inv { t with w := t.w.setRight (t.w.left f) new, ctl := .linkLeft new } := by
  have edits := inv.edits
  rw [here] at edits
  obtain ⟨member, idle, thinks⟩ := edits
  have same : ∀ x, state (t.w.setRight (t.w.left f) new) x = state t.w x := fun x => by
    rw [state_setRight]
  refine inv.relinks ?_ ?_ ?_ (fun x _ => same x) ?_ ⟨member, idle, (same new).trans thinks⟩
  · obtain ⟨ring, e, r⟩ := inv.ring_at first
    rw [here] at r
    exact ⟨f, ring, e, first, r⟩
  · intro p hp
    obtain ⟨l, r⟩ := inv.closed p hp
    rw [left_setRight, right_setRight]
    refine ⟨l, ?_⟩
    by_cases at_ : p = t.w.left f
    · rw [at_, Function.update_self]
      exact member
    · rw [Function.update_of_ne at_]
      exact r
  · intro p c
    exact inv.still_known (by simp [here]) rfl (by simp)
  · rintro a b ⟨ha, hb, forth, back⟩
    rw [right_setRight] at forth
    rw [left_setRight] at back
    by_cases at_ : a = t.w.left f
    · rw [at_, Function.update_self] at forth
      exact .inr (inv.idle_harmless thinks (same new) (.inr forth.symm))
    · rw [Function.update_of_ne at_] at forth
      exact .inl ⟨ha, hb, forth, back⟩

/-- The head gets the new philosopher at its left. -/
theorem Inv.links_left (inv : Inv t) (here : t.ctl = .linkLeft new)
    (first : t.w.firstPhil = some f) :
    Inv { t with w := t.w.setLeft f new, ctl := .load new } := by
  have edits := inv.edits
  rw [here] at edits
  obtain ⟨member, idle, thinks⟩ := edits
  have same : ∀ x, state (t.w.setLeft f new) x = state t.w x := fun x => by rw [state_setLeft]
  refine inv.relinks ?_ ?_ ?_ (fun x _ => same x) ?_ ⟨member, idle, (same new).trans thinks⟩
  · obtain ⟨ring, e, r⟩ := inv.ring_at first
    rw [here] at r
    exact ⟨f, ring, e, first, r⟩
  · intro p hp
    obtain ⟨l, r⟩ := inv.closed p hp
    rw [left_setLeft, right_setLeft]
    refine ⟨?_, r⟩
    by_cases at_ : p = f
    · rw [at_, Function.update_self]
      exact member
    · rw [Function.update_of_ne at_]
      exact l
  · intro p c
    exact inv.still_known (by simp [here]) rfl (by simp)
  · rintro a b ⟨ha, hb, forth, back⟩
    rw [right_setLeft] at forth
    rw [left_setLeft] at back
    by_cases at_ : b = f
    · rw [at_, Function.update_self] at back
      exact .inr (inv.idle_harmless thinks (same new) (.inl back.symm))
    · rw [Function.update_of_ne at_] at back
      exact .inl ⟨ha, hb, forth, back⟩

/-- The process of a philosopher is loaded; the ring is whole before and after. -/
theorem Inv.loads (inv : Inv t) (member : p ∈ t.w.live) (before : ∀ f, done f t.ctl t.w = t.w)
    (alive : ∀ x, t.ctl ≠ .kill x) (after : ctl = .ready ∨ ∃ x ∈ t.w.live, ctl = .launch x) :
    Inv { { t with w := (t.w.setPid p pid).call (.loadProcess p) }.go p (.lock true) with
      ctl := ctl } := by
  have same : Same t.w ((t.w.setPid p pid).call (.loadProcess p)) :=
    ⟨by simp, by simp, rfl, rfl, rfl⟩
  have states : state ((t.w.setPid p pid).call (.loadProcess p)) = state t.w :=
    state_setPid t.w p pid
  have whole : ∀ f w, done f ctl w = w := by
    intro f w
    rcases after with rfl | ⟨x, -, rfl⟩ <;> rfl
  have calm : ∀ x, ctl ≠ .free x ∧ ctl ≠ .kill x := by
    intro x
    rcases after with rfl | ⟨y, -, rfl⟩ <;> exact ⟨Ctl.noConfusion, Ctl.noConfusion⟩
  have tests : ∀ c, Tests t.w c → Tests ((t.w.setPid p pid).call (.loadProcess p)) c := by
    intro c tests
    refine tests.relink (fun x _ => congrFun states x) fun a b adjacent => .inl ?_
    exact (adjacent_same same).mp adjacent
  exact {
    ring := by
      obtain ⟨f, ring, e, first, r⟩ := inv.ring
      rw [before f] at r
      refine ⟨f, ring, e, first, ?_⟩
      rw [whole]
      exact r.of_same same
    closed := by
      intro q hq
      change ((t.w.setPid p pid).call (.loadProcess p)).left q ∈ t.w.live ∧
        ((t.w.setPid p pid).call (.loadProcess p)).right q ∈ t.w.live
      rw [same.left, same.right]
      exact inv.closed q hq
    procs := by
      intro q c hq
      rcases pc_go hq with ⟨rfl, rfl⟩ | ⟨ne, hq⟩
      · exact ⟨.inl member, fun x tested => by cases tested⟩
      · exact inv.still_known alive rfl (fun x => (calm x).1) hq
    alone := by
      intro q c₁ q' c₂ hq hq' in₁ in₂
      rcases pc_go hq with ⟨rfl, rfl⟩ | ⟨ne, hq⟩
      · cases in₁
      · rcases pc_go hq' with ⟨rfl, rfl⟩ | ⟨ne', hq'⟩
        · cases in₂
        · exact inv.alone q c₁ q' c₂ hq hq' in₁ in₂
    locked := by
      intro q c hq inside
      rcases pc_go hq with ⟨rfl, rfl⟩ | ⟨ne, hq⟩
      · cases inside
      · exact inv.locked q c hq inside
    one := inv.one
    tests := by
      intro q c hq
      rcases pc_go hq with ⟨rfl, rfl⟩ | ⟨ne, hq⟩
      · trivial
      · exact tests c (inv.tests q c hq)
    apart := inv.apart.relink (fun x _ => congrFun states x) fun a b adjacent =>
      .inl ((adjacent_same same).mp adjacent)
    edits := by
      rcases after with rfl | ⟨x, live, rfl⟩
      · trivial
      · exact live }

/-- `removePhilo` takes the first link to `del` away. -/
theorem Inv.removes (inv : Inv t) (idle : t.ctl = .ready) (leaves : 3 ≤ t.w.philoCount)
    (run : remove t = some t') : Inv t' := by
  obtain ⟨f, first, run⟩ := Option.bind_eq_some_iff.mp run
  cases run
  obtain ⟨ring, e, r⟩ := inv.ring_at first
  rw [idle] at r
  change Ring t.w ring f e at r
  obtain ⟨forth, back⟩ := r.round.closed
  have ends : f ≠ e := r.two_ends (by omega)
  have member : e ∈ t.w.live := r.mem.mp r.round.mem_last
  have around : t.w.right (t.w.left e) = e := (r.round.left_mem r.round.mem_last).2
  have left_ne : t.w.left e ≠ e := by
    intro eq
    rw [eq] at around
    exact ends (forth.symm.trans around)
  have same : ∀ x, state (t.w.setRight (t.w.left e) f) x = state t.w x := fun x => by
    rw [state_setRight]
  change Inv { t with
    w := { t.w with philoCount := t.w.philoCount - 1 }.setRight (t.w.left (t.w.left f))
      (t.w.right (t.w.left f))
    ctl := .unlink (t.w.left f) }
  rw [back, forth]
  have links : ({ t.w with philoCount := t.w.philoCount - 1 }.setRight (t.w.left e) f).right =
      Function.update t.w.right (t.w.left e) f := by
    simp
  have lefts : ({ t.w with philoCount := t.w.philoCount - 1 }.setRight (t.w.left e) f).left =
      t.w.left := by
    simp
  refine inv.relinks ?_ ?_ ?_ (fun x _ => same x) ?_ ?_
  · obtain ⟨l, out⟩ := r.unlinked (by omega)
    have whole : PhiloRing.unlinked e { t.w with philoCount := t.w.philoCount - 1 } =
        done f (.unlink e)
          ({ t.w with philoCount := t.w.philoCount - 1 }.setRight (t.w.left e) f) := by
      rw [← forth]
      rfl
    rw [whole] at out
    exact ⟨f, _, _, first, out⟩
  · intro p hp
    obtain ⟨l, r⟩ := inv.closed p hp
    rw [lefts, links]
    refine ⟨l, ?_⟩
    by_cases at_ : p = t.w.left e
    · rw [at_, Function.update_self]
      exact forth ▸ (inv.closed e member).2
    · rw [Function.update_of_ne at_]
      exact r
  · intro p c
    exact inv.still_known (by simp [idle]) rfl (by simp)
  · rintro a b ⟨ha, hb, right, left⟩
    rw [links] at right
    rw [lefts] at left
    by_cases at_ : a = t.w.left e
    · -- the head still has `del` at its left
      rw [at_, Function.update_self] at right
      rw [← right, back, at_] at left
      exact absurd left.symm left_ne
    · rw [Function.update_of_ne at_] at right
      exact .inl ⟨ha, hb, right, left⟩
  · refine ⟨member, ?_, ?_⟩
    · rw [lefts]
      exact left_ne
    · rw [links, Function.update_of_ne left_ne.symm, forth]
      exact ends

/-- `removePhilo` joins the neighbours of `del`. -/
theorem Inv.unlinks (inv : Inv t) (here : t.ctl = .unlink del) (joins : Joins t del) :
    Inv { t with w := t.w.setLeft (t.w.right del) (t.w.left del), ctl := .free del } := by
  have edits := inv.edits
  rw [here] at edits
  obtain ⟨member, left_ne, right_ne⟩ := edits
  obtain ⟨left_live, right_live⟩ := inv.closed del member
  have same : state (t.w.setLeft (t.w.right del) (t.w.left del)) = state t.w := by
    rw [state_setLeft]
  refine inv.relinks ?_ ?_ ?_ (fun x _ => congrFun same x) ?_ ⟨member, ?_, ?_⟩
  · obtain ⟨f, ring, e, first, r⟩ := inv.ring
    rw [here] at r
    exact ⟨f, ring, e, first, r⟩
  · intro p hp
    obtain ⟨l, r⟩ := inv.closed p hp
    rw [left_setLeft, right_setLeft]
    refine ⟨?_, r⟩
    by_cases at_ : p = t.w.right del
    · rw [at_, Function.update_self]
      exact left_live
    · rw [Function.update_of_ne at_]
      exact l
  · intro p c hp
    obtain ⟨live, tested⟩ := inv.ready_known (fun p kill => by rw [here] at kill; cases kill) hp
    refine ⟨.inl live, fun q test => .inr ⟨tested q test, fun frees => ?_⟩⟩
    obtain rfl := Ctl.free.inj frees
    exact joins.tests p c hp test
  · rintro a b ⟨ha, hb, right, left⟩
    rw [right_setLeft] at right
    rw [left_setLeft] at left
    by_cases at_ : b = t.w.right del
    · rw [at_, Function.update_self] at left
      rw [at_, ← left]
      refine .inr ⟨?_, ?_, ?_⟩
      · unfold Eats
        rw [same]
        exact joins.eaters
      · unfold Eats
        rw [same]
        exact joins.seesLeft
      · unfold Eats
        rw [same]
        exact joins.seesRight
    · rw [Function.update_of_ne at_] at left
      exact .inl ⟨ha, hb, right, left⟩
  · change (t.w.setLeft (t.w.right del) (t.w.left del)).left del ≠ del
    rw [left_setLeft, Function.update_of_ne right_ne.symm]
    exact left_ne
  · change (t.w.setLeft (t.w.right del) (t.w.left del)).right del ≠ del
    rw [right_setLeft]
    exact right_ne

/-- The blocks of `del` are given back; nobody has it as a neighbour. -/
theorem Inv.frees (inv : Inv t) (here : t.ctl = .free del) (same : Same (t.w.freed del) w')
    (states : state w' = state t.w) : Inv { t with w := w', ctl := .kill del } := by
  have edits := inv.edits
  rw [here] at edits
  obtain ⟨member, left_ne, right_ne⟩ := edits
  obtain ⟨left_live, right_live⟩ := inv.closed del member
  obtain ⟨f, ring, e, first, r⟩ := inv.ring
  rw [here] at r
  have r' : Ring w' ring f e := Ring.of_same r same
  have live : ∀ x, x ∈ w'.live ↔ x ∈ t.w.live ∧ x ≠ del := by
    intro x
    rw [same.live]
    exact List.mem_filter.trans (and_congr_right fun _ => decide_eq_true_iff)
  have left : w'.left = t.w.left := same.left
  have right : w'.right = t.w.right := same.right
  refine inv.relinks ⟨f, ring, e, r'.first, r'⟩ ?_ ?_ (fun x _ => congrFun states x) ?_ ⟨?_, ?_⟩
  · intro p hp
    have hp := r'.mem.mpr hp
    exact ⟨r'.mem.mp (r'.round.left_mem hp).1, r'.mem.mp (r'.round.right_mem hp).1⟩
  · intro p c hp
    obtain ⟨known, tested⟩ := inv.procs p c hp
    have alive : t.ctl ≠ .kill p := fun kill => by
      rw [here] at kill
      cases kill
    by_cases own : p = del
    · rw [own]
      exact ⟨.inr rfl, fun q _ => .inl rfl⟩
    · refine ⟨.inl ((live p).mpr ⟨known.resolve_right alive, own⟩), fun q test => .inr ?_⟩
      obtain ⟨q_live, apart⟩ := (tested q test).resolve_left alive
      refine ⟨(live q).mpr ⟨q_live, ?_⟩, fun frees => by cases frees⟩
      rintro rfl
      exact own (apart here)
  · rintro a b ⟨ha, hb, forth, back⟩
    rw [right] at forth
    rw [left] at back
    exact .inl ⟨((live a).mp ha).1, ((live b).mp hb).1, forth, back⟩
  · change w'.left del ∈ w'.live
    rw [left]
    exact (live _).mpr ⟨left_live, left_ne⟩
  · change w'.right del ∈ w'.live
    rw [right]
    exact (live _).mpr ⟨right_live, right_ne⟩

/-- The process of `del` is killed. -/
theorem Inv.kills (inv : Inv t) (here : t.ctl = .kill del) (k : Call) :
    Inv { t with w := t.w.call k, pc := Function.update t.pc del none, ctl := .ready } := by
  have pcs : ∀ p c, Function.update t.pc del none p = some c → p ≠ del ∧ t.pc p = some c := by
    intro p c hp
    have ne : p ≠ del := by
      rintro rfl
      rw [Function.update_self] at hp
      cases hp
    exact ⟨ne, (Function.update_of_ne ne _ _).symm.trans hp⟩
  exact {
    ring := by
      obtain ⟨f, ring, e, first, r⟩ := inv.ring
      rw [here] at r
      exact ⟨f, ring, e, first, r.of_same ⟨rfl, rfl, rfl, rfl, rfl⟩⟩
    closed := inv.closed
    procs := by
      intro p c hp
      obtain ⟨ne, hp⟩ := pcs p c hp
      obtain ⟨known, tested⟩ := inv.procs p c hp
      have alive : t.ctl ≠ .kill p := fun kill => ne (Ctl.kill.inj (here.symm.trans kill)).symm
      exact ⟨.inl (known.resolve_right alive), fun q test =>
        .inr ⟨((tested q test).resolve_left alive).1, fun frees => by cases frees⟩⟩
    alone := fun p c q c' hp hq => inv.alone p c q c' (pcs p c hp).2 (pcs q c' hq).2
    locked := fun p c hp => inv.locked p c (pcs p c hp).2
    one := inv.one
    tests := fun p c hp => inv.tests p c (pcs p c hp).2
    apart := inv.apart
    edits := trivial }

/-- A step of the process of `phylo`. -/
theorem Inv.next (inv : Inv t) (sparing : ∀ del, t.ctl = .unlink del → Joins t del)
    (run : next pid t = some t') : Inv t' := by
  rw [Dining.next] at run
  cases here : t.ctl with
  | ready =>
    rw [here] at run
    cases run
  | launch phil =>
    rw [here] at run
    obtain ⟨f, first, run⟩ := Option.bind_eq_some_iff.mp run
    cases run
    have member : phil ∈ t.w.live := by
      have edits := inv.edits
      rwa [here] at edits
    refine inv.loads member (fun f => by rw [here]; rfl)
      (fun x kill => by rw [here] at kill; cases kill) ?_
    have link : ((t.w.setPid phil pid).call (.loadProcess phil)).right phil = t.w.right phil :=
      congrFun (right_setPid t.w phil pid) phil
    by_cases more : ((t.w.setPid phil pid).call (.loadProcess phil)).right phil ≠ f
    · refine .inr ⟨_, ?_, if_pos more⟩
      exact link ▸ (inv.closed phil member).2
    · exact .inl (if_neg more)
  | linkRight new =>
    rw [here] at run
    obtain ⟨f, first, run⟩ := Option.bind_eq_some_iff.mp run
    cases run
    exact inv.links_right here first
  | linkLeft new =>
    rw [here] at run
    obtain ⟨f, first, run⟩ := Option.bind_eq_some_iff.mp run
    cases run
    exact inv.links_left here first
  | load new =>
    rw [here] at run
    cases run
    have edits := inv.edits
    rw [here] at edits
    exact inv.loads edits.1 (fun f => by rw [here]; rfl)
      (fun x kill => by rw [here] at kill; cases kill) (.inl rfl)
  | unlink del =>
    rw [here] at run
    cases run
    exact inv.unlinks here (sparing del here)
  | free del =>
    rw [here] at run
    cases run
    exact inv.frees here ⟨rfl, rfl, rfl, rfl, rfl⟩ rfl
  | kill del =>
    rw [here] at run
    cases run
    exact inv.kills here _

theorem Inv.exec {event : Event} (inv : Inv t) (leaves : Leaves t event) (sparing : Sparing t event)
    (run : exec event t = some t') : Inv t' := by
  cases event with
  | philosopher p =>
    obtain ⟨c, hp, run⟩ := Option.bind_eq_some_iff.mp run
    exact inv.philosopher hp run
  | addPhilo m =>
    rw [Dining.exec] at run
    split at run
    · next idle => exact inv.enters idle run
    · cases run
  | removePhilo =>
    rw [Dining.exec] at run
    split at run
    · next idle => exact inv.removes idle leaves run
    · cases run
  | next pid => exact inv.next sparing run

theorem next_linkRight (here : t.ctl = .linkRight new) (first : t.w.firstPhil = some f) :
    next pid t = some { t with w := t.w.setRight (t.w.left f) new, ctl := .linkLeft new } := by
  rw [next, here]
  change (t.w.firstPhil >>= _) = _
  rw [first]
  rfl

theorem next_linkLeft (here : t.ctl = .linkLeft new) (first : t.w.firstPhil = some f) :
    next pid t = some { t with w := t.w.setLeft f new, ctl := .load new } := by
  rw [next, here]
  change (t.w.firstPhil >>= _) = _
  rw [first]
  rfl

/-- Without a step of another process in between, the steps of `addPhilo` are `addPhilo`. -/
theorem addPhilo_steps (run : addPhilo m t.w = .ok w') (pid : Int) :
    ∃ t₁ t₂ t₃ t₄, enter m t = some t₁ ∧ next pid t₁ = some t₂ ∧ next pid t₂ = some t₃ ∧
      next m.pid t₃ = some t₄ ∧ t₄.w = w' ∧ t₄.ctl = .ready := by
  obtain ⟨⟨new, w1⟩, made, run⟩ := bind_ok.mp run
  obtain ⟨f, first, run⟩ := bind_ok.mp run
  have first := deref_ok.mp first
  cases run
  have entered : enter m t = some { t with
      w := (w1.setLeft new (w1.left f)).setRight new f
      sems := Function.update t.sems m.sem 0
      ctl := .linkRight new } := by
    rw [enter, made]
    change (w1.firstPhil >>= _) = _
    rw [first]
    rfl
  exact ⟨_, _, _, _, entered, next_linkRight rfl first, next_linkLeft rfl first, rfl, rfl, rfl⟩

/-- Nor those of `removePhilo` anything but `removePhilo`. -/
theorem removePhilo_steps (run : removePhilo t.w = .ok w') (pid : Int) :
    ∃ t₁ t₂ t₃ t₄, remove t = some t₁ ∧ next pid t₁ = some t₂ ∧ next pid t₂ = some t₃ ∧
      next pid t₃ = some t₄ ∧ t₄.w = w' ∧ t₄.ctl = .ready := by
  obtain ⟨f, first, run⟩ := bind_ok.mp run
  have first := deref_ok.mp first
  cases run
  have removed : remove t = some { t with
      w := { t.w with philoCount := t.w.philoCount - 1 }.setRight (t.w.left (t.w.left f))
        (t.w.right (t.w.left f))
      ctl := .unlink (t.w.left f) } := by
    change (t.w.firstPhil >>= _) = _
    rw [first]
    rfl
  exact ⟨_, _, _, _, removed, rfl, rfl, rfl, rfl, rfl⟩

instance (t : Table) : (event : Event) → Decidable (Leaves t event)
  | .removePhilo => inferInstanceAs (Decidable (_ ≤ _))
  | .philosopher _ | .addPhilo _ | .next _ => inferInstanceAs (Decidable True)

end BottlerOS.Dining
