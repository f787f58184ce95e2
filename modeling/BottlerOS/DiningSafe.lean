import BottlerOS.Dining
import BottlerOS.PhiloRing

/-! No two neighbours eat, in the runs whose removals look at the neighbours first. -/

namespace BottlerOS.Dining
open Machine Philosophers PhiloRing CircularList

variable {w w' : World} {t t' : Table} {p q a b f e x new del : Ptr} {c c' : Pc} {m : Mallocs}
  {s : States} {pid : Int} {mutex : Nat} {sems : Ptr → Nat} {ctl : Ctl} {ring : List Ptr}

section
variable (w : World) (p : Ptr) (s : States)

theorem state_put (phil : Philosopher) :
    state (w.put p phil) = Function.update (state w) p phil.state :=
  Function.comp_update Philosopher.state w.philos p phil

@[simp] theorem state_setState : state (setState w p s) = Function.update (state w) p s :=
  state_put w p _

theorem state_put_self (phil : Philosopher) (same : phil.state = state w p) :
    state (w.put p phil) = state w := by
  rw [state_put, same]
  exact Function.update_eq_self p (state w)

@[simp] theorem state_setLeft (x : Ptr) : state (w.setLeft p x) = state w :=
  state_put_self w p _ rfl

@[simp] theorem state_setRight (x : Ptr) : state (w.setRight p x) = state w :=
  state_put_self w p _ rfl

@[simp] theorem state_setPid (pid : Int) : state (w.setPid p pid) = state w :=
  state_put_self w p _ rfl

theorem setState_same : Same w (setState w p s) where
  left := left_put_self w p _ rfl
  right := right_put_self w p _ rfl
  live := rfl
  first := rfl
  count := rfl

end

/-- `a` and `b` are live, and each is the other's neighbour. -/
def Adjacent (w : World) (a b : Ptr) : Prop :=
  a ∈ w.live ∧ b ∈ w.live ∧ w.right a = b ∧ w.left b = a

theorem apart_iff : Apart w ↔ ∀ a b, a ≠ b → Adjacent w a b → ¬ (Eats w a ∧ Eats w b) :=
  ⟨fun apart a b ne adjacent => apart a adjacent.1 b adjacent.2.1 ne adjacent.2.2.1 adjacent.2.2.2,
    fun apart a ha b hb ne right left => apart a b ne ⟨ha, hb, right, left⟩⟩

/-- The process is between its calls on the mutex. -/
def Pc.inside : Pc → Prop
  | .lock _ | .wait => False
  | _ => True

/-- What a test under way has found out. -/
def Tests (w : World) : Pc → Prop
  | .left _ q => state w q = .hungry
  | .leftEats _ q l => state w q = .hungry ∧ ∀ a, Adjacent w a q → Eats w a → a = l
  | .right _ q => state w q = .hungry ∧ ∀ a, Adjacent w a q → ¬ Eats w a
  | .rightEats _ q r => state w q = .hungry ∧ (∀ a, Adjacent w a q → ¬ Eats w a) ∧
      ∀ b, Adjacent w q b → Eats w b → b = r
  | .eat _ q => state w q = .hungry ∧ (∀ a, Adjacent w a q → ¬ Eats w a) ∧
      ∀ b, Adjacent w q b → ¬ Eats w b
  | _ => True

/-- The world when the edit of the ring that has begun is done. -/
def done (f : Ptr) : Ctl → World → World
  | .linkRight new, w => (w.setRight (w.left f) new).setLeft f new
  | .linkLeft new, w => w.setLeft f new
  | .unlink del, w => (w.setLeft (w.right del) (w.left del)).freed del
  | .free del, w => w.freed del
  | _, w => w

/-- The process of `p` may test `q`: it is live, and not freed next unless it is `p` itself. -/
def Known (t : Table) (p q : Ptr) : Prop :=
  t.ctl = .kill p ∨ q ∈ t.w.live ∧ (t.ctl = .free q → p = q)

/-- What holds of the philosopher that is added or removed. -/
def Edits (t : Table) : Ctl → Prop
  | .launch phil => phil ∈ t.w.live
  | .ready => True
  | .linkRight new | .linkLeft new | .load new =>
      new ∈ t.w.live ∧ t.pc new = none ∧ state t.w new = .thinking
  | .unlink del | .free del => del ∈ t.w.live ∧ t.w.left del ≠ del ∧ t.w.right del ≠ del
  | .kill del => t.w.left del ∈ t.w.live ∧ t.w.right del ∈ t.w.live

structure Inv (t : Table) : Prop where
  ring : ∃ f ring e, t.w.firstPhil = some f ∧ Ring (done f t.ctl t.w) ring f e
  closed : ∀ p ∈ t.w.live, t.w.left p ∈ t.w.live ∧ t.w.right p ∈ t.w.live
  procs : ∀ p c, t.pc p = some c → (p ∈ t.w.live ∨ t.ctl = .kill p) ∧
    ∀ q, c.tested = some q → Known t p q
  alone : ∀ p c q c', t.pc p = some c → t.pc q = some c' → c.inside → c'.inside → p = q
  locked : ∀ p c, t.pc p = some c → c.inside → t.mutex = 0
  one : t.mutex ≤ 1
  tests : ∀ p c, t.pc p = some c → Tests t.w c
  apart : Apart t.w
  edits : Edits t t.ctl

theorem tests_of_outside (out : ¬ c.inside) : Tests w c := by
  cases c with
  | lock took => trivial
  | wait => trivial
  | _ => exact absurd trivial out

theorem done_same (same : Same w w') : Same (done f ctl w) (done f ctl w') := by
  have live := same.live
  cases ctl with
  | linkRight new =>
    refine ⟨?_, ?_, live, same.first, same.count⟩
    · simp [done, same.left]
    · simp [done, same.left, same.right]
  | linkLeft new =>
    refine ⟨?_, ?_, live, same.first, same.count⟩
    · simp [done, same.left]
    · simp [done, same.right]
  | unlink del =>
    refine ⟨?_, ?_, congrArg (List.filter (· ≠ del)) live, same.first, same.count⟩
    · simp [done, same.left, same.right]
    · simp [done, same.right]
  | free del =>
    exact ⟨same.left, same.right, congrArg (List.filter (· ≠ del)) live, same.first, same.count⟩
  | _ => exact same

theorem pc_go {c₂ : Pc} (hq : (t.go p c).pc q = some c₂) :
    q = p ∧ c₂ = c ∨ q ≠ p ∧ t.pc q = some c₂ := by
  change Function.update t.pc p (some c) q = some c₂ at hq
  by_cases eq : q = p
  · rw [eq, Function.update_self] at hq
    exact .inl ⟨eq, (Option.some.inj hq).symm⟩
  · rw [Function.update_of_ne eq] at hq
    exact .inr ⟨eq, hq⟩

/-- The links are the same, and a philosopher that is not running yet still thinks. -/
theorem Edits.of_same (edits : Edits t ctl) (same : Same t.w t'.w)
    (fresh : ∀ q, t.pc q = none → state t.w q = .thinking →
      t'.pc q = none ∧ state t'.w q = .thinking) : Edits t' ctl := by
  obtain ⟨left, right, live, -, -⟩ := same
  cases ctl with
  | ready => trivial
  | launch phil =>
    rw [Edits, live]
    exact edits
  | linkRight new | linkLeft new | load new =>
    obtain ⟨member, idle, thinks⟩ := edits
    rw [Edits, live]
    exact ⟨member, fresh new idle thinks⟩
  | unlink del | free del =>
    rw [Edits, live, left, right]
    exact edits
  | kill del =>
    rw [Edits, live, left, right]
    exact edits

/-- A step of the process of `p` when no other process is inside. -/
theorem Inv.acts (inv : Inv t) (hp : t.pc p = some c) (same : Same t.w w')
    (quiet : ∀ q c₂, q ≠ p → t.pc q = some c₂ → ¬ c₂.inside) (lock : c'.inside → mutex = 0)
    (one : mutex ≤ 1) (tested : ∀ q, c'.tested = some q → Known t p q) (tests : Tests w' c')
    (apart : Apart w')
    (fresh : ∀ q, t.pc q = none → state t.w q = .thinking → state w' q = .thinking) :
    Inv ({ t with w := w', mutex := mutex, sems := sems }.go p c') where
  ring := by
    obtain ⟨f, ring, e, first, r⟩ := inv.ring
    exact ⟨f, ring, e, same.first.trans first, r.of_same (done_same same)⟩
  closed := by
    change ∀ p ∈ w'.live, w'.left p ∈ w'.live ∧ w'.right p ∈ w'.live
    rw [same.live, same.left, same.right]
    exact inv.closed
  procs := by
    intro q c₂ hq
    change (q ∈ w'.live ∨ t.ctl = .kill q) ∧ ∀ x, c₂.tested = some x →
      t.ctl = .kill q ∨ x ∈ w'.live ∧ (t.ctl = .free x → q = x)
    rw [same.live]
    rcases pc_go hq with ⟨rfl, rfl⟩ | ⟨ne, hq⟩
    · exact ⟨(inv.procs q c hp).1, tested⟩
    · exact inv.procs q c₂ hq
  alone := by
    intro q c₁ q' c₂ hq hq' in₁ in₂
    rcases pc_go hq with ⟨rfl, -⟩ | ⟨ne, hq⟩
    · rcases pc_go hq' with ⟨rfl, -⟩ | ⟨ne, hq'⟩
      · rfl
      · exact absurd in₂ (quiet q' c₂ ne hq')
    · exact absurd in₁ (quiet q c₁ ne hq)
  locked := by
    intro q c₂ hq inside
    rcases pc_go hq with ⟨rfl, rfl⟩ | ⟨ne, hq⟩
    · exact lock inside
    · exact absurd inside (quiet q c₂ ne hq)
  one := one
  tests := by
    intro q c₂ hq
    rcases pc_go hq with ⟨rfl, rfl⟩ | ⟨ne, hq⟩
    · exact tests
    · exact tests_of_outside (quiet q c₂ ne hq)
  apart := apart
  edits := by
    refine inv.edits.of_same same fun q idle thinks => ⟨?_, fresh q idle thinks⟩
    have ne : q ≠ p := by
      rintro rfl
      rw [idle] at hp
      cases hp
    exact (Function.update_of_ne ne _ _).trans idle

theorem same_refl (w : World) : Same w w := ⟨rfl, rfl, rfl, rfl, rfl⟩

theorem Inv.quiet (inv : Inv t) (hp : t.pc p = some c) (inside : c.inside) :
    ∀ q c₂, q ≠ p → t.pc q = some c₂ → ¬ c₂.inside :=
  fun q c₂ ne hq inside' => ne (inv.alone q c₂ p c hq hp inside' inside)

/-- A step inside that changes nothing but where the process stands. -/
theorem Inv.goes (inv : Inv t) (hp : t.pc p = some c) (inside : c.inside)
    (tested : ∀ q, c'.tested = some q → Known t p q) (tests : Tests t.w c') :
    Inv ({ t with sems := sems }.go p c') :=
  inv.acts hp (same_refl t.w) (inv.quiet hp inside) (fun _ => inv.locked p c hp inside) inv.one
    tested tests inv.apart fun _ _ thinks => thinks

theorem Inv.waits (inv : Inv t) (hp : t.pc p = some c) (out : ¬ c'.inside)
    (plain : c'.tested = none) : Inv ({ t with sems := sems }.go p c') where
  ring := inv.ring
  closed := inv.closed
  procs := by
    intro q c₂ hq
    rcases pc_go hq with ⟨rfl, rfl⟩ | ⟨ne, hq⟩
    · refine ⟨(inv.procs q c hp).1, fun x tested => ?_⟩
      rw [plain] at tested
      cases tested
    · exact inv.procs q c₂ hq
  alone := by
    intro q c₁ q' c₂ hq hq' in₁ in₂
    rcases pc_go hq with ⟨rfl, rfl⟩ | ⟨ne, hq⟩
    · exact absurd in₁ out
    · rcases pc_go hq' with ⟨rfl, rfl⟩ | ⟨ne', hq'⟩
      · exact absurd in₂ out
      · exact inv.alone q c₁ q' c₂ hq hq' in₁ in₂
  locked := by
    intro q c₂ hq inside
    rcases pc_go hq with ⟨rfl, rfl⟩ | ⟨ne, hq⟩
    · exact absurd inside out
    · exact inv.locked q c₂ hq inside
  one := inv.one
  tests := by
    intro q c₂ hq
    rcases pc_go hq with ⟨rfl, rfl⟩ | ⟨ne, hq⟩
    · exact tests_of_outside out
    · exact inv.tests q c₂ hq
  apart := inv.apart
  edits := by
    refine inv.edits.of_same (same_refl t.w) fun q idle thinks => ⟨?_, thinks⟩
    have ne : q ≠ p := by
      rintro rfl
      rw [idle] at hp
      cases hp
    exact (Function.update_of_ne ne _ _).trans idle

theorem adjacent_same (same : Same w w') : Adjacent w' a b ↔ Adjacent w a b := by
  rw [Adjacent, Adjacent, same.live, same.left, same.right]

theorem eats_setState : Eats (setState w p s) q ↔ if q = p then s = .eating else Eats w q := by
  rw [Eats, state_setState, Function.update_apply]
  split <;> rfl

/-- A philosopher that does not eat hinders nobody. -/
theorem apart_setState (apart : Apart w) (other : s ≠ .eating) : Apart (setState w p s) := by
  rw [apart_iff] at apart ⊢
  intro a b ne adjacent both
  rw [adjacent_same (setState_same w p s)] at adjacent
  rw [eats_setState, eats_setState] at both
  by_cases left : a = p
  · rw [if_pos left] at both
    exact other both.1
  · by_cases right : b = p
    · rw [if_pos right] at both
      exact other both.2
    · rw [if_neg left, if_neg right] at both
      exact apart a b ne adjacent both

/-- A philosopher eats between neighbours that do not. -/
theorem apart_eats (apart : Apart w) (left : ∀ a, Adjacent w a q → ¬ Eats w a)
    (right : ∀ b, Adjacent w q b → ¬ Eats w b) : Apart (setState w q .eating) := by
  rw [apart_iff] at apart ⊢
  intro a b ne adjacent both
  rw [adjacent_same (setState_same w q .eating)] at adjacent
  rw [eats_setState, eats_setState] at both
  by_cases first : a = q
  · subst first
    rw [if_neg ne.symm] at both
    exact right b adjacent both.2
  · by_cases second : b = q
    · subst second
      rw [if_neg first] at both
      exact left a adjacent both.1
    · rw [if_neg first, if_neg second] at both
      exact apart a b ne adjacent both

theorem after_plain (site : Site) : (after site).tested = none := by cases site <;> rfl

theorem tests_after (site : Site) : Tests w (after site) := by cases site <;> trivial

theorem Inv.known_self (inv : Inv t) (hp : t.pc p = some c) : Known t p p :=
  (inv.procs p c hp).1.elim (fun live => .inr ⟨live, fun _ => rfl⟩) .inl

/-- A process may test the neighbours of its philosopher. -/
theorem Inv.known_next (inv : Inv t) (hp : t.pc p = some c) :
    Known t p (t.w.left p) ∧ Known t p (t.w.right p) := by
  rcases (inv.procs p c hp).1 with live | killed
  · obtain ⟨left, right⟩ := inv.closed p live
    -- what is freed next has no neighbour left among the others
    have gone : ∀ x, t.ctl = .free x → p ≠ x → t.w.left p ≠ x ∧ t.w.right p ≠ x := by
      intro x frees ne
      obtain ⟨f, ring, e, -, r⟩ := inv.ring
      rw [frees] at r
      have member : p ∈ ring := r.mem.mpr (List.mem_filter.mpr ⟨live, decide_eq_true ne⟩)
      have left := r.mem.mp (r.round.left_mem member).1
      have right := r.mem.mp (r.round.right_mem member).1
      exact ⟨of_decide_eq_true (List.mem_filter.mp left).2,
        of_decide_eq_true (List.mem_filter.mp right).2⟩
    refine ⟨.inr ⟨left, fun frees => ?_⟩, .inr ⟨right, fun frees => ?_⟩⟩
    · by_contra ne
      exact (gone _ frees ne).1 rfl
    · by_contra ne
      exact (gone _ frees ne).2 rfl
  · exact ⟨.inl killed, .inl killed⟩

theorem Inv.known_argument (inv : Inv t) (hp : t.pc p = some c) (site : Site) :
    Known t p (argument t.w p site) := by
  obtain ⟨left, right⟩ := inv.known_next hp
  cases site with
  | own => exact inv.known_self hp
  | left => exact left
  | right => exact right

theorem Inv.known_tested (inv : Inv t) (hp : t.pc p = some c) (tested : c.tested = some q) :
    ∀ x, some q = some x → Known t p x := by
  intro x same
  exact (inv.procs p c hp).2 x (tested.trans same)

/-- A test that is over tests nobody. -/
theorem Inv.ends (inv : Inv t) (hp : t.pc p = some c) (inside : c.inside) (site : Site) :
    Inv ({ t with sems := sems }.go p (after site)) := by
  refine inv.goes hp inside (fun q tested => ?_) (tests_after site)
  rw [after_plain] at tested
  cases tested

/-- The philosopher's own state is written inside. -/
theorem Inv.says (inv : Inv t) (hp : t.pc p = some c) (inside : c.inside) (other : s ≠ .eating)
    (plain : c'.tested = none) (tests : ∀ w, Tests w c') :
    Inv ({ t with w := setState t.w p s }.go p c') := by
  refine inv.acts hp (setState_same t.w p s) (inv.quiet hp inside)
    (fun _ => inv.locked p c hp inside) inv.one (fun q tested => ?_) (tests _)
    (apart_setState inv.apart other) fun q idle thinks => ?_
  · rw [plain] at tested
    cases tested
  · have ne : q ≠ p := by
      rintro rfl
      rw [idle] at hp
      cases hp
    rw [state_setState, Function.update_of_ne ne]
    exact thinks

theorem Inv.eats (inv : Inv t) {site : Site} (hp : t.pc p = some (.eat site q)) :
    Inv ({ t with w := setState t.w q .eating }.go p (.post site q)) := by
  obtain ⟨hungry, left, right⟩ := inv.tests p _ hp
  refine inv.acts hp (setState_same t.w q .eating) (inv.quiet hp trivial)
    (fun _ => inv.locked p _ hp trivial) inv.one (fun x tested => by cases tested) trivial
    (apart_eats inv.apart left right) fun x _ thinks => ?_
  have ne : x ≠ q := by
    rintro rfl
    rw [thinks] at hungry
    cases hungry
  rw [state_setState, Function.update_of_ne ne]
  exact thinks

/-- A step of a philosopher's process. -/
theorem Inv.philosopher (inv : Inv t) (hp : t.pc p = some c)
    (run : philosopher p t c = some t') : Inv t' := by
  cases c with
  | lock took =>
    by_cases free : 0 < t.mutex
    · rw [Dining.philosopher, if_pos free] at run
      cases run
      have one := inv.one
      have empty : ∀ q c₂, q ≠ p → t.pc q = some c₂ → ¬ c₂.inside := by
        intro q c₂ _ hq inside
        have taken := inv.locked q c₂ hq inside
        omega
      refine inv.acts hp (same_refl t.w) empty (fun _ => by omega) (by omega)
        (fun q tested => ?_) ?_ inv.apart fun _ _ thinks => thinks
      · cases took <;> cases tested
      · cases took <;> trivial
    · rw [Dining.philosopher, if_neg free] at run
      cases run
  | hungry =>
    cases run
    exact inv.says hp trivial (by decide) rfl fun _ => trivial
  | thinks =>
    cases run
    exact inv.says hp trivial (by decide) rfl fun _ => trivial
  | call site =>
    cases run
    refine inv.goes hp trivial (fun q tested => ?_) trivial
    cases tested
    exact inv.known_argument hp site
  | isHungry site q =>
    cases run
    split
    · next hungry => exact inv.goes hp trivial (inv.known_tested hp rfl) hungry
    · exact inv.ends hp trivial site
  | left site q =>
    cases run
    have hungry := inv.tests p _ hp
    exact inv.goes hp trivial (inv.known_tested hp rfl)
      ⟨hungry, fun a adjacent _ => adjacent.2.2.2.symm⟩
  | leftEats site q l =>
    cases run
    obtain ⟨hungry, only⟩ := inv.tests p _ hp
    split
    · next clear =>
      refine inv.goes hp trivial (inv.known_tested hp rfl) ⟨hungry, fun a adjacent eats => ?_⟩
      exact clear (only a adjacent eats ▸ eats)
    · exact inv.ends hp trivial site
  | right site q =>
    cases run
    obtain ⟨hungry, left⟩ := inv.tests p _ hp
    exact inv.goes hp trivial (inv.known_tested hp rfl)
      ⟨hungry, left, fun b adjacent _ => adjacent.2.2.1.symm⟩
  | rightEats site q r =>
    cases run
    obtain ⟨hungry, left, only⟩ := inv.tests p _ hp
    split
    · next clear =>
      refine inv.goes hp trivial (inv.known_tested hp rfl)
        ⟨hungry, left, fun b adjacent eats => ?_⟩
      exact clear (only b adjacent eats ▸ eats)
    · exact inv.ends hp trivial site
  | eat site q =>
    cases run
    exact inv.eats hp
  | post site q =>
    cases run
    exact inv.ends hp trivial site
  | unlock took =>
    cases run
    have taken := inv.locked p _ hp trivial
    refine inv.acts hp (same_refl t.w) (inv.quiet hp trivial) (fun inside => ?_) (by omega)
      (fun q tested => ?_) ?_ inv.apart fun _ _ thinks => thinks
    · cases took <;> cases inside
    · cases took <;> cases tested
    · cases took <;> trivial
  | wait =>
    rw [Dining.philosopher] at run
    split at run
    · cases run
      exact inv.waits hp (fun inside => inside) rfl
    · cases run

end BottlerOS.Dining
