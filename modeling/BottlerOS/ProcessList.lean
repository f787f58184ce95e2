import BottlerOS.Library.LinkedList
import BottlerOS.Scheduler

/-! The process list as a list. `Listed s nodes` says that the links from
`firstProcess` run through the records `nodes` and end, that their pids are
distinct and that `lastProcess` is the last of them. Searching is stated on
`nodes`; a function that leaves links and pids alone keeps `Listed`. -/

namespace BottlerOS.ProcessList
open Machine Scheduler LinkedList

/-- The link stored in a record. -/
def link (s : Sched) (p : Ptr) : Option (Option Ptr) := (s.procs p).map (·.next)

def pidOf (s : Sched) (p : Ptr) : Option Int := (s.procs p).map (·.pid)

def stateOf (s : Sched) (p : Ptr) : Option States := (s.procs p).map (·.state)

structure Listed (s : Sched) (nodes : List Ptr) : Prop where
  linked : Linked (link s) s.firstProcess nodes none
  pids : (nodes.map (pidOf s)).Nodup
  last : s.lastProcess = nodes.getLast?

section
variable {s s' : Sched} {nodes pre post : List Ptr} {p q : Ptr} {r : ProcessCDT} {pid : Int}

theorem link_of (h : s.procs p = some r) : link s p = some r.next := by simp [link, h]

theorem pidOf_of (h : s.procs p = some r) : pidOf s p = some r.pid := by simp [pidOf, h]

theorem stateOf_of (h : s.procs p = some r) : stateOf s p = some r.state := by simp [stateOf, h]

@[simp] theorem put_procs (s : Sched) (p q : Ptr) (r : ProcessCDT) :
    (s.put p r).procs q = if q = p then some r else s.procs q := by
  simp [Sched.put, Function.update_apply]

@[simp] theorem free_procs (s : Sched) (p q : Ptr) :
    (s.free p).procs q = if q = p then none else s.procs q := by
  simp [Sched.free, Function.update_apply]

/-- A record written with its old state. -/
theorem put_stateOf {a : ProcessCDT} (hp : s.procs p = some r) (same : a.state = r.state)
    (q : Ptr) : stateOf (s.put p a) q = stateOf s q := by
  simp only [stateOf, put_procs]
  split <;> rename_i hq
  · simp [hq, hp, same]
  · rfl

theorem put_pidOf {a : ProcessCDT} (hp : s.procs p = some r) (same : a.pid = r.pid)
    (q : Ptr) : pidOf (s.put p a) q = pidOf s q := by
  simp only [pidOf, put_procs]
  split <;> rename_i hq
  · simp [hq, hp, same]
  · rfl

theorem Listed.nodup (h : Listed s nodes) : nodes.Nodup := List.Nodup.of_map _ h.pids

theorem Listed.record (h : Listed s nodes) (hp : p ∈ nodes) : ∃ r, s.procs p = some r := by
  obtain ⟨l, hl⟩ := linked_allocated h.linked p hp
  cases hr : s.procs p with
  | none => simp [link, hr] at hl
  | some r => exact ⟨r, rfl⟩

theorem Listed.apart (hl : Listed s nodes) (free : s.procs p = none) {x : Ptr} (hx : x ∈ nodes) :
    x ≠ p := by
  rintro rfl
  obtain ⟨r, hr⟩ := hl.record hx
  exact absurd (free.symm.trans hr) (by simp)

/-- A listed pid is the pid of one record. -/
theorem Listed.pid_inj (h : Listed s nodes) (hp : p ∈ nodes) (hq : q ∈ nodes)
    (same : pidOf s p = pidOf s q) : p = q :=
  List.inj_on_of_nodup_map h.pids hp hq same

theorem Listed.next (h : Listed s (pre ++ p :: post)) (hr : s.procs p = some r) :
    r.next = post.head? := by
  simpa using linked_next h.linked (link_of hr)

theorem searchProcess_found {fuel : Nat} {previous curr : Option Ptr}
    (h : Linked (link s) curr (pre ++ p :: post) none) (hp : pidOf s p = some pid)
    (other : ∀ x ∈ pre, pidOf s x ≠ some pid) :
    searchProcess s.procs pid fuel previous curr =
      if pre.length < fuel then .ok (some p, pre.getLast?.or previous) else .error .hang := by
  induction pre generalizing fuel previous curr with
  | nil =>
    obtain ⟨rfl, -⟩ := h
    cases fuel with
    | zero => rfl
    | succ fuel =>
      cases hr : s.procs p with
      | none => simp [pidOf, hr] at hp
      | some r =>
        have hpid : r.pid = pid := by simpa [pidOf, hr] using hp
        simp [searchProcess, load, hr, hpid]
  | cons x pre ih =>
    obtain ⟨rfl, n, hn, h⟩ := h
    cases fuel with
    | zero => rfl
    | succ fuel =>
      cases hr : s.procs x with
      | none => simp [link, hr] at hn
      | some r =>
        have hne : r.pid ≠ pid := by
          simpa [pidOf, hr] using other x List.mem_cons_self
        obtain rfl : r.next = n := by simpa [link, hr] using hn
        simp only [searchProcess, load, hr, ok_bind, hne, if_false]
        rw [ih h (fun y hy => other y (List.mem_cons_of_mem _ hy))]
        simp only [List.length_cons, Nat.add_lt_add_iff_right, List.getLast?_cons]
        cases pre.getLast? <;> rfl

theorem searchProcess_missing {fuel : Nat} {previous curr : Option Ptr}
    (h : Linked (link s) curr nodes none) (other : ∀ x ∈ nodes, pidOf s x ≠ some pid) :
    searchProcess s.procs pid fuel previous curr =
      if nodes.length < fuel then .ok (none, none) else .error .hang := by
  induction nodes generalizing fuel previous curr with
  | nil =>
    obtain rfl : curr = none := h
    cases fuel <;> rfl
  | cons x nodes ih =>
    obtain ⟨rfl, n, hn, h⟩ := h
    cases fuel with
    | zero => rfl
    | succ fuel =>
      cases hr : s.procs x with
      | none => simp [link, hr] at hn
      | some r =>
        have hne : r.pid ≠ pid := by
          simpa [pidOf, hr] using other x List.mem_cons_self
        obtain rfl : r.next = n := by simpa [link, hr] using hn
        simp only [searchProcess, load, hr, ok_bind, hne, if_false]
        rw [ih h (fun y hy => other y (List.mem_cons_of_mem _ hy))]
        simp

/-- Where a pid is, in a list of distinct pids. -/
theorem Listed.pid_cases (h : Listed s nodes) (pid : Int) :
    (∀ x ∈ nodes, pidOf s x ≠ some pid) ∨
      ∃ pre p post, nodes = pre ++ p :: post ∧ pidOf s p = some pid ∧
        ∀ x ∈ pre, pidOf s x ≠ some pid := by
  by_cases hp : ∃ p ∈ nodes, pidOf s p = some pid
  · obtain ⟨p, hp, he⟩ := hp
    obtain ⟨pre, post, rfl⟩ := List.append_of_mem hp
    refine .inr ⟨pre, p, post, rfl, he, fun x hx hxe => ?_⟩
    have same := h.pid_inj (List.mem_append_left _ hx) hp (hxe.trans he.symm)
    have apart := (List.nodup_append.mp h.nodup).2.2 x hx p List.mem_cons_self
    exact apart same
  · exact .inl fun x hx he => hp ⟨x, hx, he⟩

/-- What a search that returns has found. -/
theorem search_cases {fuel : Nat} {del prev : Option Ptr} (h : Listed s nodes)
    (run : search fuel pid s = .ok (del, prev)) :
    (del = none ∧ prev = none ∧ ∀ x ∈ nodes, pidOf s x ≠ some pid) ∨
      ∃ pre p post, nodes = pre ++ p :: post ∧ del = some p ∧ prev = pre.getLast? ∧
        pidOf s p = some pid := by
  rcases h.pid_cases pid with absent | ⟨pre, p, post, rfl, hp, other⟩
  · rw [search, searchProcess_missing h.linked absent] at run
    split at run
    · obtain ⟨rfl, rfl⟩ := Prod.mk.inj (Except.ok.inj run)
      exact .inl ⟨rfl, rfl, absent⟩
    · cases run
  · rw [search, searchProcess_found h.linked hp other] at run
    split at run
    · obtain ⟨rfl, rfl⟩ := Prod.mk.inj (Except.ok.inj run)
      exact .inr ⟨pre, p, post, rfl, rfl, by simp, hp⟩
    · cases run

/-- A search with more fuel than nodes returns. -/
theorem search_total {fuel : Nat} (h : Listed s nodes) (enough : nodes.length < fuel)
    (pid : Int) : ∃ del prev, search fuel pid s = .ok (del, prev) := by
  rcases h.pid_cases pid with absent | ⟨pre, p, post, rfl, hp, other⟩
  · exact ⟨none, none, by rw [search, searchProcess_missing h.linked absent, if_pos enough]⟩
  · have short : pre.length < fuel := by
      simp only [List.length_append, List.length_cons] at enough
      omega
    exact ⟨_, _, by rw [search, searchProcess_found h.linked hp other, if_pos short]⟩

/-- The search for a listed record's pid finds that record. -/
theorem search_listed {fuel : Nat} {del prev : Option Ptr} (h : Listed s (pre ++ p :: post))
    (hp : pidOf s p = some pid) (run : search fuel pid s = .ok (del, prev)) :
    del = some p ∧ prev = pre.getLast? := by
  have other : ∀ x ∈ pre, pidOf s x ≠ some pid := by
    intro x hx he
    have same := h.pid_inj (List.mem_append_left _ hx) (by simp) (he.trans hp.symm)
    exact (List.nodup_append.mp h.nodup).2.2 x hx p List.mem_cons_self same
  rw [search, searchProcess_found h.linked hp other] at run
  split at run
  · obtain ⟨rfl, rfl⟩ := Prod.mk.inj (Except.ok.inj run)
    simp
  · cases run

end

/-! Updates of record fields. -/

/-- Two scheduler states with the same globals (the freed blocks apart), whose records
at each address are related by `R`. -/
structure Rel (R : Ptr → ProcessCDT → ProcessCDT → Prop) (s s' : Sched) : Prop where
  first : s'.firstProcess = s.firstProcess
  last : s'.lastProcess = s.lastProcess
  current : s'.currentProcess = s.currentProcess
  blocked : s'.firstBlockedIteration = s.firstBlockedIteration
  sleep : s'.firstSleep = s.firstSleep
  pids : s'.pids = s.pids
  idle : s'.idleFlag = s.idleFlag
  procs : ∀ p, Option.Rel (R p) (s.procs p) (s'.procs p)

section
variable {R R' : Ptr → ProcessCDT → ProcessCDT → Prop} {s s' s'' : Sched} {nodes : List Ptr}
  {p : Ptr} {r : ProcessCDT}

theorem Rel.refl (hR : ∀ p r, R p r r) : Rel R s s where
  first := rfl
  last := rfl
  current := rfl
  blocked := rfl
  sleep := rfl
  pids := rfl
  idle := rfl
  procs p := by
    cases s.procs p with
    | none => exact .none
    | some r => exact .some (hR p r)

theorem Rel.trans (hR : ∀ p a b c, R p a b → R p b c → R p a c) (h : Rel R s s')
    (h' : Rel R s' s'') : Rel R s s'' where
  first := h'.first.trans h.first
  last := h'.last.trans h.last
  current := h'.current.trans h.current
  blocked := h'.blocked.trans h.blocked
  sleep := h'.sleep.trans h.sleep
  pids := h'.pids.trans h.pids
  idle := h'.idle.trans h.idle
  procs p := by
    have h1 := h.procs p
    have h2 := h'.procs p
    generalize s.procs p = a at *
    generalize s'.procs p = b at *
    generalize s''.procs p = c at *
    cases h1 with
    | none => exact h2
    | some h1 => cases h2 with | some h2 => exact .some (hR p _ _ _ h1 h2)

theorem Rel.mono (hR : ∀ p a b, R p a b → R' p a b) (h : Rel R s s') : Rel R' s s' where
  first := h.first
  last := h.last
  current := h.current
  blocked := h.blocked
  sleep := h.sleep
  pids := h.pids
  idle := h.idle
  procs p := by
    have h1 := h.procs p
    generalize s.procs p = a at *
    generalize s'.procs p = b at *
    cases h1 with
    | none => exact .none
    | some h1 => exact .some (hR p _ _ h1)

theorem rel_put {r' : ProcessCDT} (hR : ∀ p r, R p r r) (hp : s.procs p = some r)
    (h : R p r r') : Rel R s (s.put p r') where
  first := rfl
  last := rfl
  current := rfl
  blocked := rfl
  sleep := rfl
  pids := rfl
  idle := rfl
  procs q := by
    rw [put_procs]
    split <;> rename_i hq
    · rw [hq, hp]
      exact .some h
    · exact (Rel.refl hR).procs q

theorem Rel.old (h : Rel R s s') {r' : ProcessCDT} (hp : s'.procs p = some r') :
    ∃ r, s.procs p = some r ∧ R p r r' := by
  have h1 := h.procs p
  rw [hp] at h1
  generalize s.procs p = a at h1
  cases h1 with
  | some h1 => exact ⟨_, rfl, h1⟩

theorem Rel.some (h : Rel R s s') (hp : s.procs p = some r) :
    ∃ r', s'.procs p = some r' ∧ R p r r' := by
  have h1 := h.procs p
  rw [hp] at h1
  generalize s'.procs p = b at h1
  cases h1 with
  | some h1 => exact ⟨_, rfl, h1⟩

theorem Rel.none (h : Rel R s s') : s'.procs p = none ↔ s.procs p = none := by
  have h1 := h.procs p
  generalize s.procs p = a at *
  generalize s'.procs p = b at *
  cases h1 <;> simp

theorem Rel.map_eq {β : Type} (f : ProcessCDT → β) (h : Rel R s s')
    (hf : ∀ a b, R p a b → f b = f a) : (s'.procs p).map f = (s.procs p).map f := by
  have h1 := h.procs p
  generalize s.procs p = a at *
  generalize s'.procs p = b at *
  cases h1 with
  | none => rfl
  | some h1 => simp [hf _ _ h1]

/-- Updates that keep links and pids keep the list. -/
theorem Rel.listed (h : Rel R s s') (hn : ∀ p a b, R p a b → b.next = a.next)
    (hp : ∀ p a b, R p a b → b.pid = a.pid) (hl : Listed s nodes) : Listed s' nodes where
  linked := by
    rw [h.first]
    exact linked_congr (fun x _ => h.map_eq _ (hn x)) hl.linked
  pids := by
    have same : pidOf s' = pidOf s := funext fun x => h.map_eq _ (hp x)
    rw [same]
    exact hl.pids
  last := h.last.trans hl.last

end

end BottlerOS.ProcessList
