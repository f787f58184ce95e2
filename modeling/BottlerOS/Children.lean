import BottlerOS.Wakeful
import Mathlib.Data.Finset.Card

/-! The counter `children`. It is kept on the parent: a process that is made counts one up,
`kill` counts one down, and frees the blocks of the process, without asking whether it is
DEAD already. -/

namespace BottlerOS.Children
open Machine Scheduler LinkedList ProcessList ProcessFields ProcessLinks
open SchedCalls SchedRuns Turns Effects Wakeful

/-- The record is a live process with this parent id. -/
def childOf (s : Sched) (pid : Int) (p : Ptr) : Bool :=
  match s.procs p with
  | some r => r.ppid = pid ∧ r.state ≠ .dead
  | none => false

/-- The listed processes that are not DEAD and have the parent id. -/
def liveChildren (s : Sched) (nodes : List Ptr) (pid : Int) : Finset Ptr :=
  nodes.toFinset.filter fun p => childOf s pid p

/-- Made after boot, or at boot by nobody it could be the parent of. -/
def Counted (nullPid : Int) (r : ProcessCDT) : Prop := 3 ≤ r.pid ∨ r.pid ≠ nullPid

/-- The counters are right, and no pid has had its blocks released twice. -/
structure Good (nullPid : Int) (s : Sched) (nodes : List Ptr) (released : List Int) : Prop where
  counted : ∀ p ∈ nodes, ∀ r, s.procs p = some r → Counted nullPid r →
    r.children = (liveChildren s nodes r.pid).card
  once : released.Nodup

/-- What goes with it in runs without `unblockFirst`. -/
structure Tidy (s : Sched) (nodes : List Ptr) (released : List Int) : Prop where
  member : ∀ p, s.procs p ≠ none → p ∈ nodes
  heap : ∀ p ∈ nodes, p < heapEnd
  waiting : ∀ p r, s.procs p = some r → r.state = .waiting → r.children ≠ 0
  dead : ∀ p r, s.procs p = some r → (r.state = .dead ↔ r.pid ∈ released)
  old : 0 < s.pids → 3 ≤ s.pids ∧ ∀ pid ∈ released, pid < s.pids

/-- The pids whose `fd`, `name` and stack a step passes to `vPortFree`. -/
def releases (s : Sched) (nodes : List Ptr) : Event → List Int
  | .call (.kill pid) _ _ => if ∃ p ∈ nodes, pidOf s p = some pid then [pid] else []
  | .call .exitProcess _ _ =>
      match s.current with
      | .ok (_, r) => if ∃ p ∈ nodes, pidOf s p = some r.pid then [r.pid] else []
      | .error _ => []
  | _ => []

/-- Everything but `sleep` and `unblockFirst`. -/
def Plain : Event → Prop
  | .call (.sleep _ _ _) _ _ => False
  | .call (.unblockFirst _) _ _ => False
  | _ => True

/-- `kill` names no DEAD process, and no process gets a pid that a live one has for a parent. -/
def Careful (s : Sched) (nodes : List Ptr) : Event → Prop
  | .call (.kill pid) _ _ => ∀ p, Found s nodes pid p → stateOf s p ≠ some .dead
  | .call (.enqueueProcess _ _ _) _ _ =>
      ∀ p ∈ nodes, ∀ r, s.procs p = some r → r.state ≠ .dead → r.ppid ≠ s.pids
  | _ => True

/-- Runs with the pids that have been released, latest first. -/
inductive History (Allowed : Sched → List Ptr → Event → Prop) (s₀ : Sched) :
    Sched → List Int → Prop where
  | boot : History Allowed s₀ s₀ []
  | step {s s' : Sched} {nodes : List Ptr} {released : List Int} {e : Event}
      (before : History Allowed s₀ s released) (listed : Listed s nodes)
      (allowed : Allowed s nodes e) (last : Step s e s') :
      History Allowed s₀ s' (releases s nodes e ++ released)

/-- A record is written, and what its counter rests on is not. -/
structure Alike (a b : ProcessCDT) : Prop where
  pid : b.pid = a.pid
  ppid : b.ppid = a.ppid
  children : b.children = a.children
  dead : b.state = .dead ↔ a.state = .dead
  waiting : b.state = .waiting → a.state = .waiting ∨ b.children ≠ 0

section
variable {s s' t : Sched} {nodes nodes' : List Ptr} {released : List Int} {fuel : Nat}
  {c d p q : Ptr} {pid nullPid : Int} {a b r rc : ProcessCDT} {x : Exit}
  {f : Ptr → ProcessCDT → ProcessCDT}

theorem Alike.refl (a : ProcessCDT) : Alike a a := ⟨rfl, rfl, rfl, Iff.rfl, .inl⟩

theorem Alike.trans {a b c : ProcessCDT} (h : Alike a b) (h' : Alike b c) : Alike a c where
  pid := h'.pid.trans h.pid
  ppid := h'.ppid.trans h.ppid
  children := h'.children.trans h.children
  dead := h'.dead.trans h.dead
  waiting w := by
    rcases h'.waiting w with w' | n
    · rcases h.waiting w' with w'' | n
      · exact .inl w''
      · exact .inr (h'.children ▸ n)
    · exact .inr n

/-- The state of a live process is set, and not to DEAD or WAITING. -/
theorem Alike.setState {st : States} (alive : a.state ≠ .dead) (dead : st ≠ .dead)
    (waiting : st ≠ .waiting) : Alike a (setState st a) :=
  ⟨rfl, rfl, rfl, iff_of_false dead alive, fun w => absurd w waiting⟩

theorem Alike.give (a : ProcessCDT) : Alike a (give a) := by
  unfold Effects.give
  split <;> exact ⟨rfl, rfl, rfl, Iff.rfl, .inl⟩

theorem Alike.take (a : ProcessCDT) : Alike a (take a) := by
  unfold Effects.take
  split <;> exact ⟨rfl, rfl, rfl, Iff.rfl, .inl⟩

theorem mem_liveChildren (hp : s.procs p = some r) :
    p ∈ liveChildren s nodes pid ↔ p ∈ nodes ∧ r.ppid = pid ∧ r.state ≠ .dead := by
  simp [liveChildren, childOf, hp]

/-- Who is a live child, when nobody is off the list. -/
theorem Tidy.live (h : Tidy s nodes released) : p ∈ liveChildren s nodes pid ↔
    ∃ r, s.procs p = some r ∧ r.ppid = pid ∧ r.state ≠ .dead := by
  cases hp : s.procs p with
  | none => simp [liveChildren, childOf, hp]
  | some r =>
    rw [mem_liveChildren hp, and_iff_right (h.member p (by simp [hp]))]
    simp

theorem Tidy.mem (h : Tidy s nodes released) (hl : Listed s nodes) :
    p ∈ nodes ↔ s.procs p ≠ none := by
  refine ⟨fun hp => ?_, h.member p⟩
  obtain ⟨r, hr⟩ := hl.record hp
  simp [hr]

/-- There are fewer live children than addresses. -/
theorem Tidy.few (h : Tidy s nodes released) (pid : Int) :
    (liveChildren s nodes pid).card ≤ heapEnd := by
  have sub : liveChildren s nodes pid ⊆ Finset.range heapEnd := by
    intro p hp
    rw [Finset.mem_range]
    exact h.heap p (List.mem_toFinset.mp (Finset.mem_filter.mp hp).1)
  exact (Finset.card_le_card sub).trans_eq (Finset.card_range heapEnd)

/-- Records are written, and DEAD ones may go. -/
structure Kin (s t : Sched) : Prop where
  old : ∀ p b, t.procs p = some b → ∃ a, s.procs p = some a ∧ Alike a b
  gone : ∀ p a, s.procs p = some a → t.procs p = none → a.state = .dead
  pids : t.pids = s.pids

theorem Kin.of_exact (h : Exact f s t) (pids : t.pids = s.pids)
    (alike : ∀ p a, s.procs p = some a → Alike a (f p a)) : Kin s t where
  old p b hb := by
    have k := h p
    rw [hb] at k
    obtain ⟨a, ha, rfl⟩ := Option.map_eq_some_iff.mp k.symm
    exact ⟨a, ha, alike p a ha⟩
  gone p a ha hb := by
    have k := h p
    rw [ha, hb] at k
    cases k
  pids := pids

theorem Kin.put (hp : s.procs p = some r) (alike : Alike r a) : Kin s (s.put p a) := by
  refine ⟨fun q b hb => ?_, fun q b hb none => ?_, rfl⟩
  · rw [put_procs] at hb
    split at hb <;> rename_i hq
    · obtain rfl := Option.some.inj hb
      exact ⟨r, hq ▸ hp, alike⟩
    · exact ⟨b, hb, .refl b⟩
  · rw [put_procs] at none
    split at none
    · cases none
    · rw [none] at hb
      cases hb

/-- Who is off the list afterwards was before. -/
theorem Kin.live (k : Kin s t) (hs : Listed s nodes) (tidy : Tidy s nodes released)
    (all : ∀ p, t.procs p ≠ none → p ∈ nodes') (pid : Int) :
    liveChildren t nodes' pid = liveChildren s nodes pid := by
  ext p
  cases hb : t.procs p with
  | none =>
    refine iff_of_false (fun m => ?_) fun m => ?_
    · simp [liveChildren, childOf, hb] at m
    · obtain ⟨a, ha, -, alive⟩ := tidy.live.mp m
      exact alive (k.gone p a ha hb)
  | some b =>
    obtain ⟨a, ha, alike⟩ := k.old p b hb
    rw [mem_liveChildren hb, mem_liveChildren ha, and_iff_right (all p (by simp [hb])),
      and_iff_right ((tidy.mem hs).mpr (by simp [ha])), alike.ppid, Ne, alike.dead]

theorem Kin.tidy (k : Kin s t) (sub : ∀ p ∈ nodes', p ∈ nodes)
    (all : ∀ p, t.procs p ≠ none → p ∈ nodes') (tidy : Tidy s nodes released) :
    Tidy t nodes' released where
  member := all
  heap p hp := tidy.heap p (sub p hp)
  waiting p b hb w := by
    obtain ⟨a, ha, alike⟩ := k.old p b hb
    rcases alike.waiting w with w' | n
    · rw [alike.children]
      exact tidy.waiting p a ha w'
    · exact n
  dead p b hb := by
    obtain ⟨a, ha, alike⟩ := k.old p b hb
    rw [alike.dead, alike.pid]
    exact tidy.dead p a ha
  old := k.pids ▸ tidy.old

theorem Kin.good (k : Kin s t) (hs : Listed s nodes) (all : ∀ p, t.procs p ≠ none → p ∈ nodes')
    (tidy : Tidy s nodes released)
    (good : Good nullPid s nodes released) : Good nullPid t nodes' released where
  counted p _ b hb counted := by
    obtain ⟨a, ha, alike⟩ := k.old p b hb
    rw [k.live hs tidy all, alike.children, alike.pid]
    exact good.counted p ((tidy.mem hs).mpr (by simp [ha])) a ha
      (by unfold Counted at counted ⊢; rw [← alike.pid]; exact counted)
  once := good.once

theorem orphan_fields (foreground : Int) (a : ProcessCDT) :
    (orphan foreground a).pid = a.pid ∧ (orphan foreground a).ppid = a.ppid ∧
    (orphan foreground a).children = int32 (a.children - 1) ∧
    (orphan foreground a).state =
      if int32 (a.children - 1) = 0 ∧ a.state = .waiting then .ready else a.state := by
  unfold orphan
  dsimp only
  split_ifs <;> simp_all

/-- What `kill` of `d` with the record `r` makes of a record. -/
structure Struck (d : Ptr) (r : ProcessCDT) (p : Ptr) (a b : ProcessCDT) : Prop where
  pid : b.pid = a.pid
  ppid : b.ppid = a.ppid
  children : b.children = if a.pid = r.ppid then int32 (a.children - 1) else a.children
  state : b.state = if p = d then .dead else
    if a.pid = r.ppid ∧ int32 (a.children - 1) = 0 ∧ a.state = .waiting then .ready else a.state

theorem kill_struck (hl : Listed s nodes) (tidy : Tidy s nodes released)
    (run : kill fuel pid s = .ok (x, t)) :
    (x = .ret EXIT_FAILURE ∧ t = s ∧ ∀ p, ¬ Found s nodes pid p) ∨
    ∃ d r c rc, Found s nodes pid d ∧ s.procs d = some r ∧ s.current = .ok (c, rc) ∧
      x = (if pid = rc.pid then .forceTimer else .ret EXIT_SUCCESS) ∧
      t.freed = r.bPointer :: r.name :: r.fd :: s.freed ∧
      (∀ p, t.procs p = none ↔ s.procs p = none) ∧
      ∀ p a b, s.procs p = some a → t.procs p = some b → Struck d r p a b := by
  rcases kill_exact hl run with fail | ⟨d, r, c, rc, hd, hr, hc, hx, freed, k⟩
  · exact .inl fail
  refine .inr ⟨d, r, c, rc, hd, hr, hc, hx, freed, fun p => ?_, fun p a b ha hb => ?_⟩
  · rw [k p, Option.map_eq_none_iff]
  obtain rfl := Option.some.inj ((k.of ha).symm.trans hb)
  have found : Found s nodes r.ppid p ↔ a.pid = r.ppid := by
    unfold Found
    rw [pidOf_of ha, Option.some.injEq]
    exact and_iff_right (tidy.member p (by simp [ha]))
  obtain ⟨pid', ppid', children', state'⟩ := orphan_fields r.foreground a
  unfold upon
  simp only [found]
  by_cases hp : p = d <;> by_cases hq : a.pid = r.ppid <;>
    refine ⟨?_, ?_, ?_, ?_⟩ <;> simp [hp, hq, setState, pid', ppid', children', state']

/-- The one that is killed is a live child no more. -/
theorem struck_live (none : ∀ p, t.procs p = none ↔ s.procs p = none)
    (struck : ∀ p a b, s.procs p = some a → t.procs p = some b → Struck d r p a b) (k : Int) :
    liveChildren t nodes k = (liveChildren s nodes k).erase d := by
  ext p
  rw [Finset.mem_erase]
  cases ha : s.procs p with
  | none =>
    have hb := (none p).mpr ha
    simp [liveChildren, childOf, ha, hb]
  | some a =>
    obtain ⟨b, hb⟩ := Option.ne_none_iff_exists'.mp fun n => by
      rw [(none p).mp n] at ha
      cases ha
    have h := struck p a b ha hb
    rw [mem_liveChildren ha, mem_liveChildren hb, h.ppid, h.state]
    by_cases hp : p = d
    · simp [hp]
    · rw [if_neg hp]
      split <;> rename_i w
      · simp [hp, w.2.2]
      · simp [hp]

/-- One step down from a right count. -/
theorem int32_pred {n : Nat} (pos : 0 < n) (few : n ≤ heapEnd) :
    int32 ((n : Int) - 1) = ((n - 1 : Nat) : Int) := by
  unfold heapEnd at few
  unfold int32
  omega

theorem struck_counted (tidy : Tidy s nodes released)
    (good : Good nullPid s nodes released) (hd : d ∈ nodes) (hr : s.procs d = some r)
    (alive : r.state ≠ .dead) (none : ∀ p, t.procs p = none ↔ s.procs p = none)
    (struck : ∀ p a b, s.procs p = some a → t.procs p = some b → Struck d r p a b)
    (ha : s.procs p = some a) (hb : t.procs p = some b) (counted : Counted nullPid a) :
    b.children = (liveChildren t nodes b.pid).card := by
  have h := struck p a b ha hb
  have before := good.counted p (tidy.member p (by simp [ha])) a ha counted
  rw [struck_live none struck, h.children, h.pid]
  by_cases child : a.pid = r.ppid
  · have mem : d ∈ liveChildren s nodes a.pid :=
      (mem_liveChildren hr).mpr ⟨hd, child.symm, alive⟩
    rw [if_pos child, before, Finset.card_erase_of_mem mem,
      int32_pred (Finset.card_pos.mpr ⟨d, mem⟩) (tidy.few _)]
  · have mem : d ∉ liveChildren s nodes a.pid := fun m =>
      child ((mem_liveChildren hr).mp m).2.1.symm
    rw [if_neg child, before, Finset.erase_eq_of_notMem mem]

/-- A `kill` that names no DEAD process keeps the counters right. -/
theorem kill_good (hs : Sound s nodes) (tidy : Tidy s nodes released)
    (good : Good nullPid s nodes released)
    (careful : ∀ p, Found s nodes pid p → stateOf s p ≠ some .dead)
    (run : kill fuel pid s = .ok (x, t)) :
    Good nullPid t nodes ((if ∃ p ∈ nodes, pidOf s p = some pid then [pid] else []) ++ released) ∧
    Tidy t nodes ((if ∃ p ∈ nodes, pidOf s p = some pid then [pid] else []) ++ released) := by
  rcases kill_struck hs.listed tidy run with ⟨-, rfl, absent⟩ |
    ⟨d, r, c, rc, hd, hr, -, -, -, none, struck⟩
  · rw [if_neg fun ⟨p, hp, he⟩ => absent p ⟨hp, he⟩]
    exact ⟨good, tidy⟩
  rw [if_pos ⟨d, hd⟩]
  have hpid : r.pid = pid := Option.some.inj ((pidOf_of hr).symm.trans hd.2)
  have alive : r.state ≠ .dead := fun e => careful d hd (by rw [stateOf_of hr, e])
  have old : ∀ p b, t.procs p = some b → ∃ a, s.procs p = some a ∧ Struck d r p a b := by
    intro p b hb
    obtain ⟨a, ha⟩ := Option.ne_none_iff_exists'.mp fun n => by
      rw [(none p).mpr n] at hb
      cases hb
    exact ⟨a, ha, struck p a b ha hb⟩
  have pids : t.pids = s.pids := by
    rcases kill_cases hs.listed run with ⟨-, rfl, -⟩ | ⟨d, -, r, -, -, k, -⟩
    · rfl
    · exact k.pids
  have one : ∀ p a, s.procs p = some a → a.pid = pid → p = d := fun p a ha e =>
    Found.unique hs.listed ⟨tidy.member p (by simp [ha]), by rw [pidOf_of ha, e]⟩ hd
  have fresh : pid ∉ released := fun m =>
    alive ((tidy.dead d r hr).mpr (by rw [hpid]; exact m))
  refine ⟨⟨fun p _ b hb counted => ?_, List.nodup_cons.mpr ⟨fresh, good.once⟩⟩,
    ⟨fun p hp => tidy.member p fun n => hp ((none p).mpr n), tidy.heap, fun p b hb w => ?_,
      fun p b hb => ?_, fun pos => ?_⟩⟩
  · obtain ⟨a, ha, h⟩ := old p b hb
    refine struck_counted tidy good hd.1 hr alive none struck ha hb ?_
    unfold Counted at counted ⊢
    rw [← h.pid]
    exact counted
  · obtain ⟨a, ha, h⟩ := old p b hb
    have state := h.state
    have children := h.children
    have before := tidy.waiting p a ha
    grind
  · obtain ⟨a, ha, h⟩ := old p b hb
    have before := tidy.dead p a ha
    have only_ := one p a ha
    rw [h.state, h.pid, List.singleton_append, List.mem_cons]
    by_cases hp : p = d
    · subst hp
      obtain rfl := Option.some.inj (ha.symm.trans hr)
      simp [hpid]
    · rw [if_neg hp]
      split <;> rename_i w
      · have : a.state ≠ .dead := by rw [w.2.2]; simp
        grind
      · grind
  · rw [pids] at pos ⊢
    obtain ⟨low, above⟩ := tidy.old pos
    refine ⟨low, fun k hk => ?_⟩
    rcases List.mem_cons.mp hk with rfl | hk
    · rw [← hpid]
      exact (hs.counter pos).2 d r hr
    · exact above k hk

/-- A second `kill` releases the blocks again. -/
theorem kill_twice (tidy : Tidy s nodes released) (hp : Found s nodes pid p)
    (dead : stateOf s p = some .dead) : ¬ Good nullPid t nodes'
      ((if ∃ p ∈ nodes, pidOf s p = some pid then [pid] else []) ++ released) := by
  intro good
  have once := good.once
  rw [if_pos ⟨p, hp⟩] at once
  obtain ⟨r, hr, state⟩ := Option.map_eq_some_iff.mp dead
  have hpid : r.pid = pid := Option.some.inj ((pidOf_of hr).symm.trans hp.2)
  exact (List.nodup_cons.mp once).1 (hpid ▸ (tidy.dead p r hr).mp state)

/-- What `enqueueProcess` makes of an old record. -/
structure Greeted (c p : Ptr) (a b : ProcessCDT) : Prop where
  pid : b.pid = a.pid
  ppid : b.ppid = a.ppid
  children : b.children = if p = c then int32 (a.children + 1) else a.children
  dead : b.state = .dead ↔ a.state = .dead
  waiting : b.state = .waiting → a.state = .waiting

theorem quiet_fields (s : Sched) (nodes : List Ptr) (p : Ptr) (a : ProcessCDT) :
    (quiet s nodes p a).pid = a.pid ∧ (quiet s nodes p a).ppid = a.ppid ∧
    (quiet s nodes p a).children = a.children ∧
    ((quiet s nodes p a).state = .dead ↔ a.state = .dead) ∧
    ((quiet s nodes p a).state = .waiting → a.state = .waiting) := by
  unfold quiet
  split <;> rename_i h
  · simp [setState, h.2.2]
  · exact ⟨rfl, rfl, rfl, Iff.rfl, id⟩

theorem adopt_fields (foreground : Int) (a : ProcessCDT) :
    (adopt foreground a).pid = a.pid ∧ (adopt foreground a).ppid = a.ppid ∧
    (adopt foreground a).children = int32 (a.children + 1) ∧
    (adopt foreground a).state = a.state := by
  unfold adopt
  dsimp only
  split <;> exact ⟨rfl, rfl, rfl, rfl⟩

theorem greeted {foreground : Int}
    (same : bare b = bare (upon c (adopt foreground) p (quiet s nodes p a))) :
    Greeted c p a b := by
  obtain ⟨pid, ppid, children, dead, waiting⟩ := quiet_fields s nodes p a
  obtain ⟨pid', ppid', children', state'⟩ := adopt_fields foreground (quiet s nodes p a)
  rw [bare_eq same]
  unfold upon
  by_cases hp : p = c
  · simp only [hp, if_true] at *
    refine ⟨pid'.trans pid, ppid'.trans ppid, ?_, ?_, fun w => ?_⟩
    · simp [children', children]
    · simp [state', dead]
    · exact waiting (state'.symm.trans w)
  · simp only [hp, if_false]
    exact ⟨pid, ppid, by simp [hp, children], dead, waiting⟩

theorem int32_succ {n : Nat} (few : n ≤ heapEnd) :
    int32 ((n : Int) + 1) = ((n + 1 : Nat) : Int) := by
  unfold heapEnd at few
  unfold int32
  omega

/-- The new process is a live child of the current one. -/
theorem greeted_live (free : s.procs q = none)
    (hq : t.procs q = some r) (ready : r.state = .ready)
    (none : ∀ p, p ≠ q → (t.procs p = none ↔ s.procs p = none))
    (old : ∀ p a b, p ≠ q → s.procs p = some a → t.procs p = some b → Greeted c p a b) (k : Int) :
    liveChildren t (nodes ++ [q]) k =
      if k = r.ppid then insert q (liveChildren s nodes k) else liveChildren s nodes k := by
  have new : q ∈ liveChildren t (nodes ++ [q]) k ↔ r.ppid = k := by
    rw [mem_liveChildren hq]
    simp [ready]
  have out : q ∉ liveChildren s nodes k := by
    simp [liveChildren, childOf, free]
  have others : ∀ p, p ≠ q →
      (p ∈ liveChildren t (nodes ++ [q]) k ↔ p ∈ liveChildren s nodes k) := by
    intro p hp
    cases ha : s.procs p with
    | none =>
      have hb := (none p hp).mpr ha
      simp [liveChildren, childOf, ha, hb]
    | some a =>
      obtain ⟨b, hb⟩ := Option.ne_none_iff_exists'.mp fun n => by
        rw [(none p hp).mp n] at ha
        cases ha
      have h := old p a b hp ha hb
      rw [mem_liveChildren ha, mem_liveChildren hb, h.ppid, Ne, Ne, h.dead, List.mem_append,
        List.mem_singleton, or_iff_left hp]
  ext p
  by_cases hp : p = q
  · rw [hp, new]
    split <;> rename_i hk
    · simp [hk]
    · exact iff_of_false (fun e => hk e.symm) out
  · rw [others p hp]
    split
    · simp [hp]
    · rfl

/-- `enqueueProcess` keeps the counters right exactly when no live process has the new pid for
its parent id. -/
theorem enqueueProcess_good {foreground : Int} {fd : Option Ptr} {m : Mallocs} (hs : Sound s nodes)
    (tidy : Tidy s nodes released) (good : Good nullPid s nodes released)
    (hc : s.current = .ok (c, rc)) (busy : rc.pid ≠ IDLE_PID) (ready : rc.state = .ready)
    (pos : 0 < s.pids) (ht : Sound t nodes')
    (run : enqueueProcess fuel 0 foreground fd m s = .ok (pid, t)) :
    Tidy t nodes' released ∧ (Good nullPid t nodes' released ↔
      ∀ p ∈ nodes, ∀ r, s.procs p = some r → r.state ≠ .dead → r.ppid ≠ s.pids) := by
  obtain ⟨q, fd', auxi, aux, hm, -, free, hq, k⟩ := enqueueProcess_edited hs hc busy run
  obtain ⟨-, q', hm', sound, e⟩ := enqueueProcess_sound hs pos run
  obtain rfl := Option.some.inj (hm.symm.trans hm')
  obtain rfl := listed_unique ht.listed sound.listed
  have hcn := (current_ok.mp hc).2
  obtain ⟨above, less⟩ := hs.counter pos
  obtain ⟨three, fresh⟩ := tidy.old pos
  have none : ∀ p, p ≠ q → (t.procs p = none ↔ s.procs p = none) := by
    intro p hp
    rw [← Option.map_eq_none_iff (f := bare), k p hp, Option.map_eq_none_iff]
  have old : ∀ p a b, p ≠ q → s.procs p = some a → t.procs p = some b → Greeted c p a b := by
    intro p a b hp ha hb
    have kp := k p hp
    rw [ha, hb] at kp
    exact greeted (Option.some.inj kp)
  have back : ∀ p b, p ≠ q → t.procs p = some b → ∃ a, s.procs p = some a ∧ Greeted c p a b := by
    intro p b hp hb
    obtain ⟨a, ha⟩ := Option.ne_none_iff_exists'.mp fun n => by
      rw [(none p hp).mpr n] at hb
      cases hb
    exact ⟨a, ha, old p a b hp ha hb⟩
  have live : ∀ k, liveChildren t (nodes ++ [q]) k = if k = rc.pid then
      insert q (liveChildren s nodes k) else liveChildren s nodes k :=
    greeted_live free hq rfl none old
  refine ⟨⟨fun p hp => ?_, fun p hp => ?_, fun p b hb w => ?_, fun p b hb => ?_, fun pos' => ?_⟩,
    fun good' p hp r hr alive hppid => ?_, fun careful => ⟨fun p hp b hb counted => ?_, good.once⟩⟩
  · rw [List.mem_append, List.mem_singleton]
    by_cases hpq : p = q
    · exact .inr hpq
    · exact .inl (tidy.member p fun n => hp ((none p hpq).mpr n))
  · rcases List.mem_append.mp hp with hp | hp
    · exact tidy.heap p hp
    · rw [List.mem_singleton.mp hp]
      exact e.heap
  · by_cases hpq : p = q
    · rw [hpq, hq] at hb
      obtain rfl := Option.some.inj hb
      cases w
    · obtain ⟨a, ha, h⟩ := back p b hpq hb
      have waits := h.waiting w
      have apart : p ≠ c := by
        rintro rfl
        obtain rfl := Option.some.inj (ha.symm.trans hcn)
        rw [ready] at waits
        cases waits
      rw [h.children, if_neg apart]
      exact tidy.waiting p a ha waits
  · by_cases hpq : p = q
    · rw [hpq, hq] at hb
      obtain rfl := Option.some.inj hb
      refine iff_of_false (by simp [made]) fun m => ?_
      have := fresh _ m
      simp [made] at this
    · obtain ⟨a, ha, h⟩ := back p b hpq hb
      rw [h.dead, h.pid]
      exact tidy.dead p a ha
  · have small := hs.small
    rw [e.pids] at pos' ⊢
    have next : int32 (s.pids + 1) = s.pids + 1 := by
      unfold int32 at pos' ⊢
      unfold INT_MAX at small
      omega
    rw [next]
    refine ⟨by omega, fun k hk => ?_⟩
    have := fresh k hk
    omega
  · -- a live process whose parent id is the new pid
    have count := good'.counted q (by simp) _ hq (.inl three)
    have mem : p ∈ liveChildren t (nodes ++ [q]) s.pids := by
      rw [live s.pids]
      have := (mem_liveChildren hr).mpr ⟨hp, hppid, alive⟩
      split
      · exact Finset.mem_insert_of_mem this
      · exact this
    have some_ := Finset.card_pos.mpr ⟨p, mem⟩
    have zero : (0 : Int) = (liveChildren t (nodes ++ [q]) s.pids).card := count
    omega
  · by_cases hpq : p = q
    · rw [hpq, hq] at hb
      obtain rfl := Option.some.inj hb
      have apart : s.pids ≠ rc.pid := by
        have := less c rc hcn
        omega
      have empty : liveChildren s nodes s.pids = ∅ := by
        refine Finset.eq_empty_of_forall_notMem fun p m => ?_
        obtain ⟨r, hr, hppid, alive⟩ := tidy.live.mp m
        exact careful p (tidy.member p (by simp [hr])) r hr alive hppid
      change (0 : Int) = (liveChildren t (nodes ++ [q]) s.pids).card
      rw [live s.pids, if_neg apart, empty]
      rfl
    · obtain ⟨a, ha, h⟩ := back p b hpq hb
      have mem := tidy.member p (by simp [ha])
      have before := good.counted p mem a ha (by
        unfold Counted at counted ⊢
        rw [← h.pid]
        exact counted)
      have parent : a.pid = rc.pid ↔ p = c := by
        constructor
        · intro e'
          exact hs.listed.pid_inj mem (tidy.member c (by simp [hcn])) (by
            rw [pidOf_of ha, pidOf_of hcn, e'])
        · rintro rfl
          obtain rfl := Option.some.inj (ha.symm.trans hcn)
          rfl
      rw [h.children, h.pid, live a.pid]
      by_cases hpc : p = c
      · rw [if_pos hpc, if_pos (parent.mpr hpc), before, int32_succ (tidy.few _),
          Finset.card_insert_of_notMem (by simp [liveChildren, childOf, free])]
      · rw [if_neg hpc, if_neg fun e' => hpc (parent.mp e'), before]

theorem block_kin (hl : Listed s nodes) (run : block fuel pid s = .ok (x, t)) : Kin s t := by
  rcases block_exact hl run with ⟨-, rfl, -⟩ | ⟨d, r, c, rc, hd, hr, alive, hc, -, k⟩
  · exact .of_exact (.refl t) rfl fun _ a _ => .refl a
  have pids : t.pids = s.pids := by
    rcases block_cases hl run with ⟨-, rfl, -⟩ | ⟨d, -, r, -, -, -, -, c, rc, -, hself⟩
    · rfl
    · rcases hself with ⟨-, -, k⟩ | ⟨-, -, k⟩ <;> exact k.pids
  refine .of_exact k pids fun p a ha => ?_
  have one : Alike a (upon d (setState .blocked) p a) := by
    unfold upon
    split <;> rename_i hp
    · rw [hp, hr] at ha
      obtain rfl := Option.some.inj ha
      exact .setState alive (by simp) (by simp)
    · exact .refl a
  have two : Alike a (onParent give s nodes r p (upon d (setState .blocked) p a)) := by
    unfold onParent
    split
    · exact one.trans (.give _)
    · exact one
  have three : ∀ b, Alike b ((if pid = rc.pid then upon c (setExecutions 0) p else id) b) := by
    intro b
    split
    · unfold upon
      split
      · exact ⟨rfl, rfl, rfl, Iff.rfl, .inl⟩
      · exact .refl b
    · exact .refl b
  exact two.trans (three _)

theorem unblock_kin (hl : Listed s nodes) (run : unblock fuel pid s = .ok (x, t)) : Kin s t := by
  rcases unblock_exact hl run with ⟨rfl, -⟩ | ⟨d, r, hd, hr, alive, k⟩
  · exact .of_exact (.refl t) rfl fun _ a _ => .refl a
  have pids : t.pids = s.pids := by
    rcases unblock_cases hl run with ⟨rfl, -⟩ | ⟨d, -, r, -, -, -, -, k, -⟩
    · rfl
    · exact k.pids
  refine .of_exact k pids fun p a ha => ?_
  have one : Alike a (upon d (setState .ready) p a) := by
    unfold upon
    split <;> rename_i hp
    · rw [hp, hr] at ha
      obtain rfl := Option.some.inj ha
      exact .setState alive (by simp) (by simp)
    · exact .refl a
  unfold onParent
  split
  · exact one.trans (.take _)
  · exact one

theorem put_listed (hl : Listed s nodes) (hp : s.procs p = some r) (next : a.next = r.next)
    (pid : a.pid = r.pid) : Listed (s.put p a) nodes := by
  have k : Rel (fun _ a b => b.next = a.next ∧ b.pid = a.pid) s (s.put p a) :=
    rel_put (fun _ _ => ⟨rfl, rfl⟩) hp ⟨next, pid⟩
  exact k.listed (fun _ _ _ k => k.1) (fun _ _ _ k => k.2) hl

/-- Calls that count nothing. -/
theorem perform_kin {op : Op} {now : Int} {rsp : Nat} (h : Sound s nodes)
    (hc : s.current = .ok (c, rc)) (ready : rc.state = .ready)
    (plain : Plain (.call op now rsp)) (run : perform fuel s op = .ok (x, t))
    (enqueue : ∀ foreground fd m, op ≠ .enqueueProcess foreground fd m)
    (kill : ∀ pid, op ≠ .kill pid) (exit : op ≠ .exitProcess) :
    Kin s t ∧ Listed t nodes := by
  have stay : Kin s s ∧ Listed s nodes :=
    ⟨.of_exact (.refl s) rfl fun _ a _ => .refl a, h.listed⟩
  have hr := (current_ok.mp hc).2
  cases op with
  | enqueueProcess foreground fd m => exact absurd rfl (enqueue foreground fd m)
  | block pid =>
    refine ⟨block_kin h.listed run, ?_⟩
    rcases block_cases h.listed run with ⟨-, rfl, -⟩ | ⟨d, -, r, -, -, -, -, c, rc, -, hself⟩
    · exact h.listed
    · rcases hself with ⟨-, -, k⟩ | ⟨-, -, k⟩ <;> exact k.listed h.listed
  | unblock pid =>
    refine ⟨unblock_kin h.listed run, ?_⟩
    rcases unblock_cases h.listed run with ⟨rfl, -⟩ | ⟨d, -, r, -, -, -, -, k, -⟩
    · exact h.listed
    · exact k.listed h.listed
  | unblockFirst pid => exact plain.elim
  | kill pid => exact absurd rfl (kill pid)
  | exitProcess => exact absurd rfl exit
  | nice pid offset =>
    rcases nice_cases h.listed run with rfl | ⟨d, -, r, hr, -, -, -, rfl⟩
    · exact stay
    · exact ⟨.put hr ⟨rfl, rfl, rfl, Iff.rfl, .inl⟩, put_listed h.listed hr (by rfl) (by rfl)⟩
  | wait =>
    rcases wait_cases run with ⟨-, rfl⟩ | ⟨c', r, hc', some_, -, rfl⟩
    · exact stay
    · obtain ⟨rfl, rfl⟩ := Prod.mk.inj (Except.ok.inj (hc.symm.trans hc'))
      refine ⟨.put hr ⟨rfl, rfl, rfl, ?_, fun _ => .inr some_⟩,
        put_listed h.listed hr (by rfl) (by rfl)⟩
      simp [ready]
  | blockIo =>
    rcases blockIo_cases run with ⟨-, rfl⟩ | ⟨c', r, hc', -, -, rfl⟩
    · exact stay
    · obtain ⟨rfl, rfl⟩ := Prod.mk.inj (Except.ok.inj (hc.symm.trans hc'))
      refine ⟨.put hr ⟨rfl, rfl, rfl, ?_, fun w => by cases w⟩,
        put_listed h.listed hr (by rfl) (by rfl)⟩
      simp [ready]
  | unblockIo =>
    obtain ⟨s1, h1, run1⟩ := bind_ok.mp run
    obtain ⟨-, rfl⟩ := Prod.mk.inj (Except.ok.inj run1)
    have k := unblockIoFrom_awaken h1
    refine ⟨.of_exact (unblockIo_exact h.listed h1) k.pids fun p a _ => ?_,
      Awaken.listed k h.listed⟩
    split <;> rename_i io
    · exact .setState (by simp [io.2]) (by simp) (by simp)
    · exact .refl a
  | sleep now secs m => exact plain.elim
  | quitCPU =>
    rcases quitCPU_cases run with ⟨-, rfl⟩ | ⟨c', r, hc', -, rfl⟩
    · exact stay
    · obtain ⟨rfl, rfl⟩ := Prod.mk.inj (Except.ok.inj (hc.symm.trans hc'))
      exact ⟨.put hr ⟨rfl, rfl, rfl, Iff.rfl, .inl⟩, put_listed h.listed hr (by rfl) (by rfl)⟩

theorem plain_waking {e : Event} (h : Plain e) : Waking e := by
  cases e with
  | tick now rsp => trivial
  | call op now rsp => cases op <;> first | exact h | trivial

/-- A call keeps the counters right exactly when it is careful. -/
theorem perform_good {op : Op} {now : Int} {rsp : Nat} (h : Sound s nodes)
    (tidy : Tidy s nodes released) (good : Good nullPid s nodes released)
    (hc : s.current = .ok (c, rc)) (ready : rc.state = .ready) (callable : Callable s op)
    (plain : Plain (.call op now rsp)) (ht : Sound t nodes')
    (run : perform fuel s op = .ok (x, t)) :
    (Careful s nodes (.call op now rsp) →
      Good nullPid t nodes' (releases s nodes (.call op now rsp) ++ released) ∧
      Tidy t nodes' (releases s nodes (.call op now rsp) ++ released)) ∧
    (¬ Careful s nodes (.call op now rsp) → (∃ code, x = .ret code) ∧
      ¬ Good nullPid t nodes' (releases s nodes (.call op now rsp) ++ released)) := by
  have hr := (current_ok.mp hc).2
  have kin (k : Kin s t) (hl : Listed t nodes) : Good nullPid t nodes' released ∧
      Tidy t nodes' released := by
    obtain rfl := listed_unique ht.listed hl
    have all : ∀ p, t.procs p ≠ none → p ∈ nodes' := by
      intro p hp
      obtain ⟨b, hb⟩ := Option.ne_none_iff_exists'.mp hp
      obtain ⟨a, ha, -⟩ := k.old p b hb
      exact tidy.member p (by simp [ha])
    exact ⟨k.good h.listed all tidy good, k.tidy (fun _ h => h) all tidy⟩
  have quietly (k : Kin s t ∧ Listed t nodes)
      (none : releases s nodes (.call op now rsp) = []) (c : Careful s nodes (.call op now rsp)) :
      (Careful s nodes (.call op now rsp) →
        Good nullPid t nodes' (releases s nodes (.call op now rsp) ++ released) ∧
        Tidy t nodes' (releases s nodes (.call op now rsp) ++ released)) ∧
      (¬ Careful s nodes (.call op now rsp) → (∃ code, x = .ret code) ∧
        ¬ Good nullPid t nodes' (releases s nodes (.call op now rsp) ++ released)) := by
    rw [none, List.nil_append]
    exact ⟨fun _ => kin k.1 k.2, fun n => absurd c n⟩
  cases op with
  | enqueueProcess foreground fd m =>
    obtain ⟨busy, pos⟩ := callable
    obtain ⟨c', r', hc', other⟩ := busy.current
    obtain ⟨rfl, rfl⟩ := Prod.mk.inj (Except.ok.inj (hc.symm.trans hc'))
    obtain ⟨⟨pid, s1⟩, h1, run1⟩ := bind_ok.mp run
    obtain ⟨rfl, rfl⟩ := Prod.mk.inj (Except.ok.inj run1)
    obtain ⟨tidy', iff⟩ := enqueueProcess_good h tidy good hc other ready pos ht h1
    exact ⟨fun careful => ⟨iff.mpr careful, tidy'⟩, fun n => ⟨⟨_, rfl⟩, fun g => n (iff.mp g)⟩⟩
  | kill pid =>
    obtain rfl := listed_unique ht.listed (kill_listed h.listed run)
    refine ⟨fun careful => kill_good h tidy good careful run, fun n => ?_⟩
    have dead : ∃ p, Found s nodes' pid p ∧ stateOf s p = some .dead := by
      by_contra none
      exact n fun p hp hd => none ⟨p, hp, hd⟩
    obtain ⟨p, hp, hd⟩ := dead
    refine ⟨?_, kill_twice tidy hp hd⟩
    rcases kill_cases h.listed run with ⟨rfl, -⟩ | ⟨d, -, r, -, -, -, c', rc', hc', hself⟩
    · exact ⟨_, rfl⟩
    · rcases hself with ⟨rfl, -⟩ | ⟨-, rfl⟩
      · -- the current process is not DEAD
        obtain ⟨rfl, rfl⟩ := Prod.mk.inj (Except.ok.inj (hc.symm.trans hc'))
        obtain rfl := Found.unique h.listed hp ⟨tidy.member c (by simp [hr]), pidOf_of hr⟩
        rw [stateOf_of hr, ready] at hd
        cases hd
      · exact ⟨_, rfl⟩
  | exitProcess =>
    obtain ⟨⟨c', r'⟩, hc', run1⟩ := bind_ok.mp run
    obtain ⟨rfl, rfl⟩ := Prod.mk.inj (Except.ok.inj (hc.symm.trans hc'))
    obtain rfl := listed_unique ht.listed (kill_listed h.listed run1)
    refine ⟨fun _ => ?_, fun n => absurd trivial n⟩
    have self : ∀ p, Found s nodes' rc.pid p → stateOf s p ≠ some .dead := by
      intro p hp
      obtain rfl := Found.unique h.listed hp ⟨tidy.member c (by simp [hr]), pidOf_of hr⟩
      rw [stateOf_of hr, ready]
      simp
    have k := kill_good h tidy good self run1
    have what : releases s nodes' (.call .exitProcess now rsp) =
        if ∃ p ∈ nodes', pidOf s p = some rc.pid then [rc.pid] else [] := by
      unfold releases
      rw [hc]
    rw [what]
    exact k
  | block pid =>
    exact quietly (perform_kin h hc ready plain run (by simp) (by simp) (by simp)) rfl trivial
  | unblock pid =>
    exact quietly (perform_kin h hc ready plain run (by simp) (by simp) (by simp)) rfl trivial
  | unblockFirst pid => exact plain.elim
  | nice pid offset =>
    exact quietly (perform_kin h hc ready plain run (by simp) (by simp) (by simp)) rfl trivial
  | wait =>
    exact quietly (perform_kin h hc ready plain run (by simp) (by simp) (by simp)) rfl trivial
  | blockIo =>
    exact quietly (perform_kin h hc ready plain run (by simp) (by simp) (by simp)) rfl trivial
  | unblockIo =>
    exact quietly (perform_kin h hc ready plain run (by simp) (by simp) (by simp)) rfl trivial
  | sleep now secs m => exact plain.elim
  | quitCPU =>
    exact quietly (perform_kin h hc ready plain run (by simp) (by simp) (by simp)) rfl trivial

/-- `nextProcess` keeps the counters right: it unlinks DEAD processes. -/
theorem turned_good (h : Sound s nodes) (live : SchedRuns.Cursor s) (turned : Turned s s')
    (h' : Sound s' nodes') (good : Good nullPid s nodes released)
    (tidy : Tidy s nodes released) : Good nullPid s' nodes' released ∧ Tidy s' nodes' released := by
  obtain ⟨nodes₁, k⟩ := turned.spun h live
  obtain rfl := listed_unique h'.listed k.sound.listed
  have all : ∀ p, s'.procs p ≠ none → p ∈ nodes' := by
    intro p hp
    by_contra n
    exact hp (k.reaped p (tidy.member p fun e => hp (k.stays p e)) n).2
  have kin : Kin s s' := by
    refine ⟨fun p b hb => ?_, fun p a ha hb => ?_, k.pids⟩
    · have kp := k.procs p (.inr (all p (by simp [hb])))
      rw [hb] at kp
      generalize hs : s.procs p = u at kp
      cases kp with
      | @some a _ kp =>
        refine ⟨a, rfl, kp.pid, by rw [kp.same], by rw [kp.same], kp.dead, fun w => ?_⟩
        rcases kp.state with e | ⟨-, -, e | e⟩
        · exact .inl (e.symm.trans w)
        · rw [e] at w
          cases w
        · rw [e] at w
          cases w
    · by_cases hn : p ∈ nodes'
      · have kp := k.procs p (.inr hn)
        rw [ha, hb] at kp
        cases kp
      · have dead := (k.reaped p (tidy.member p (by simp [ha])) hn).1
        rw [stateOf_of ha] at dead
        exact Option.some.inj dead
  exact ⟨kin.good h.listed all tidy good, kin.tidy (fun p => k.sublist.subset (a := p)) all tidy⟩

theorem step_good {e : Event} (h : Settled s) (awake : s.firstSleep = []) (hs : Sound s nodes)
    (tidy : Tidy s nodes released) (good : Good nullPid s nodes released) (plain : Plain e)
    (step : Step s e s') (hs' : Sound s' nodes') :
    (Careful s nodes e → Good nullPid s' nodes' (releases s nodes e ++ released) ∧
      Tidy s' nodes' (releases s nodes e ++ released)) ∧
    (Good nullPid s' nodes' (releases s nodes e ++ released) ↔ Careful s nodes e) := by
  obtain ⟨-, -, c, rc, hc, ready⟩ := h
  have live := cursor_of_current hc
  suffices both : (Careful s nodes e → Good nullPid s' nodes' (releases s nodes e ++ released) ∧
      Tidy s' nodes' (releases s nodes e ++ released)) ∧
      (¬ Careful s nodes e → ¬ Good nullPid s' nodes' (releases s nodes e ++ released)) from
    ⟨both.1, not_imp_not.mp both.2, fun careful => (both.1 careful).1⟩
  obtain ⟨-, ⟨now, rsp, rfl, turned⟩ | ⟨op, now, rsp, fuel, x, t, nodes₁, rfl, callable, run,
    sound, live', ⟨code, rfl, rfl⟩ | ⟨rfl, turned⟩⟩⟩ :=
    step_wakeful hs live awake (plain_waking plain) step
  · exact ⟨fun _ => turned_good hs live turned hs' good tidy, fun n => absurd trivial n⟩
  · obtain ⟨keeps, breaks⟩ := perform_good hs tidy good hc ready callable plain hs' run
    exact ⟨keeps, fun n => (breaks n).2⟩
  · obtain ⟨keeps, breaks⟩ := perform_good hs tidy good hc ready callable plain sound run
    refine ⟨fun careful => ?_, fun n => ?_⟩
    · obtain ⟨good', tidy'⟩ := keeps careful
      exact turned_good sound live' turned hs' good' tidy'
    · obtain ⟨⟨code, e⟩, -⟩ := breaks n
      cases e

end

end BottlerOS.Children
