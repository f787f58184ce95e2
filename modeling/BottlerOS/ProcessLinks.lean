import BottlerOS.ProcessFields

/-! The functions that relink the process list: `removeProcess`, the move of
`unblockFirst`, the append of `enqueueProcess`. Each is stated as an edit of the
list of records and as what it leaves of the records apart from their links. -/

namespace BottlerOS.ProcessLinks
open Machine Scheduler LinkedList ProcessList ProcessFields

/-- A record without its link. -/
def bare (r : ProcessCDT) : ProcessCDT := { r with next := none }

/-- Links may change; fields change as `Touch` says; the globals of the list are free. -/
structure Shuffled (A B : Ptr → Prop) (s s' : Sched) : Prop where
  current : s'.currentProcess = s.currentProcess
  blocked : s'.firstBlockedIteration = s.firstBlockedIteration
  sleep : s'.firstSleep = s.firstSleep
  pids : s'.pids = s.pids
  idle : s'.idleFlag = s.idleFlag
  procs : ∀ p, Option.Rel (fun r r' => Touch A B p (bare r) (bare r')) (s.procs p) (s'.procs p)

section
variable {A B A' B' : Ptr → Prop} {s s' s'' : Sched} {nodes pre post : List Ptr}
  {p d c : Ptr} {r : ProcessCDT}

theorem Touch.bare (h : Touch A B p r r') : Touch A B p (bare r) (bare r') :=
  ⟨⟨rfl, h.kept.name, h.kept.pid, h.kept.ppid, h.kept.rbp, h.kept.priority, h.kept.fd,
    h.kept.bPointer, h.kept.background⟩, h.state, h.executions, h.rsp⟩

theorem Shuffled.of_touched (h : Touched A B s s') : Shuffled A B s s' where
  current := h.current
  blocked := h.blocked
  sleep := h.sleep
  pids := h.pids
  idle := h.idle
  procs p := by
    have h1 := h.procs p
    generalize s.procs p = a at *
    generalize s'.procs p = b at *
    cases h1 with
    | none => exact .none
    | some h1 => exact .some (Touch.bare h1)

theorem Shuffled.trans (h : Shuffled A B s s') (h' : Shuffled A B s' s'') : Shuffled A B s s'' where
  current := h'.current.trans h.current
  blocked := h'.blocked.trans h.blocked
  sleep := h'.sleep.trans h.sleep
  pids := h'.pids.trans h.pids
  idle := h'.idle.trans h.idle
  procs p := by
    have h1 := h.procs p
    have h2 := h'.procs p
    generalize s.procs p = a at *
    generalize s'.procs p = b at *
    generalize s''.procs p = c at *
    cases h1 with
    | none => exact h2
    | some h1 => cases h2 with | some h2 => exact .some (h1.trans _ _ _ _ h2)

theorem Shuffled.old (h : Shuffled A B s s') {r' : ProcessCDT} (hp : s'.procs p = some r') :
    ∃ r, s.procs p = some r ∧ Touch A B p (ProcessLinks.bare r) (ProcessLinks.bare r') := by
  have h1 := h.procs p
  rw [hp] at h1
  generalize s.procs p = a at h1
  cases h1 with
  | some h1 => exact ⟨_, rfl, h1⟩

theorem Shuffled.some (h : Shuffled A B s s') (hp : s.procs p = some r) :
    ∃ r', s'.procs p = some r' ∧ Touch A B p (ProcessLinks.bare r) (ProcessLinks.bare r') := by
  have h1 := h.procs p
  rw [hp] at h1
  generalize s'.procs p = b at h1
  cases h1 with
  | some h1 => exact ⟨_, rfl, h1⟩

theorem Shuffled.none (h : Shuffled A B s s') : s'.procs p = none ↔ s.procs p = none := by
  have h1 := h.procs p
  generalize s.procs p = a at *
  generalize s'.procs p = b at *
  cases h1 <;> simp

theorem Shuffled.pidOf_eq (h : Shuffled A B s s') : pidOf s' p = pidOf s p := by
  have h1 := h.procs p
  simp only [pidOf]
  generalize s.procs p = a at *
  generalize s'.procs p = b at *
  cases h1 with
  | none => rfl
  | some h1 => exact congrArg Option.some h1.kept.pid

theorem Shuffled.stateOf_eq (h : Shuffled A B s s') (hp : ¬ A p) : stateOf s' p = stateOf s p := by
  have h1 := h.procs p
  simp only [stateOf]
  generalize s.procs p = a at *
  generalize s'.procs p = b at *
  cases h1 with
  | none => rfl
  | some h1 => exact congrArg Option.some (h1.state hp)

/-- Nothing but links, `firstProcess`, `lastProcess` and the freed blocks may differ. -/
structure Relinked (s s' : Sched) : Prop where
  current : s'.currentProcess = s.currentProcess
  blocked : s'.firstBlockedIteration = s.firstBlockedIteration
  sleep : s'.firstSleep = s.firstSleep
  pids : s'.pids = s.pids
  idle : s'.idleFlag = s.idleFlag
  procs : ∀ p, (s'.procs p).map bare = (s.procs p).map bare

theorem Shuffled.of_relinked (h : Relinked s s') : Shuffled A B s s' where
  current := h.current
  blocked := h.blocked
  sleep := h.sleep
  pids := h.pids
  idle := h.idle
  procs p := by
    have h1 := h.procs p
    generalize s.procs p = a at *
    generalize s'.procs p = b at *
    cases a with
    | none =>
      obtain rfl : b = Option.none := by simpa using h1
      exact .none
    | some a =>
      cases b with
      | none => simp at h1
      | some b =>
        refine .some ?_
        rw [show ProcessLinks.bare b = ProcessLinks.bare a by simpa using h1]
        exact Touch.refl _ _

/-- In the background for good. -/
def Resting (s : Sched) (p : Ptr) : Prop :=
  ∃ r, s.procs p = some r ∧ r.foreground = 0 ∧ r.backWait = 0

theorem Resting.of_rel (h : Resting s p)
    (t : Option.Rel (fun r r' => Touch A B p (bare r) (bare r')) (s.procs p) (s'.procs p)) :
    Resting s' p := by
  obtain ⟨r, hr, hf, hb⟩ := h
  rw [hr] at t
  simp only [Resting]
  generalize s'.procs p = b at *
  cases t with
  | some t => exact ⟨_, rfl, t.kept.background hf hb⟩

theorem put_bare {a : ProcessCDT} (hp : s.procs p = some r) (same : bare a = bare r) (q : Ptr) :
    ((s.put p a).procs q).map bare = (s.procs q).map bare := by
  rw [put_procs]
  split <;> rename_i hq
  · simp [hq, hp, same]
  · rfl

theorem getLast?_concat_ne {pre : List Ptr} {q : Ptr} (h : pre.getLast? = some q) :
    ∃ pre', pre = pre' ++ [q] := by
  rw [List.getLast?_eq_some_iff] at h
  exact h

/-- What `removeProcess` of a listed record writes: `firstProcess`, or the link of the record
before it. -/
theorem removeProcess_cases {fuel : Nat} (hl : Listed s (pre ++ d :: post))
    (run : removeProcess fuel d s = .ok s') : ∃ r, s.procs d = some r ∧
      (pre = [] ∧ s' = { s with
          firstProcess := r.next
          lastProcess := if s.lastProcess = some d then none else s.lastProcess } ∨
        ∃ pre' q a, pre = pre' ++ [q] ∧ s.procs q = some a ∧
          s' = { s.put q { a with next := r.next } with
            lastProcess := if s.lastProcess = some d then some q else s.lastProcess }) := by
  unfold removeProcess at run
  obtain ⟨r, hr, run1⟩ := bind_ok.mp run
  rw [load_ok] at hr
  obtain ⟨⟨found, prev⟩, hs, run2⟩ := bind_ok.mp run1
  obtain ⟨rfl, rfl⟩ := search_listed hl (pidOf_of hr) hs
  simp only [deref_some, ok_bind, load_of hr] at run2
  refine ⟨r, hr, ?_⟩
  cases hp : pre.getLast? with
  | none =>
    simp only [hp] at run2
    exact .inl ⟨List.getLast?_eq_none_iff.mp hp, (Except.ok.inj run2).symm⟩
  | some q =>
    obtain ⟨pre', place⟩ := getLast?_concat_ne hp
    simp only [hp] at run2
    obtain ⟨a, ha, run3⟩ := bind_ok.mp run2
    exact .inr ⟨pre', q, a, place, load_ok.mp ha, (Except.ok.inj run3).symm⟩

/-- `removeProcess` of a listed record takes it out of the list and out of nothing else. -/
theorem removeProcess_listed {fuel : Nat} (hl : Listed s (pre ++ d :: post))
    (run : removeProcess fuel d s = .ok s') :
    Listed s' (pre ++ post) ∧ Relinked s s' ∧ s'.procs d = s.procs d ∧
      s'.freed = s.freed := by
  obtain ⟨r, hr, shape⟩ := removeProcess_cases hl run
  have hnext := hl.next hr
  have hnodup := hl.nodup
  have hpids : ((pre ++ post).map (pidOf s)).Nodup := by
    refine List.Nodup.sublist (List.Sublist.map _ ?_) hl.pids
    exact List.Sublist.append_left (List.sublist_cons_self d post) pre
  have hsplit := linked_split.mp hl.linked
  obtain ⟨hpre, n, hn, hpost⟩ := hsplit
  obtain rfl : r.next = n := by simpa [link, hr] using hn
  have hlast : s.lastProcess = some d ↔ post = [] := by
    rw [hl.last]
    cases post with
    | nil => simp
    | cons x post =>
      constructor
      · intro h
        have hx : d ∈ x :: post := by
          have h' := List.mem_of_getLast? (l := x :: post) (a := d) (by simpa using h)
          exact h'
        exact absurd hx (List.nodup_cons.mp (List.nodup_append.mp hnodup).2.1).1
      · simp
  rcases shape with ⟨rfl, rfl⟩ | ⟨pre, q, qr, rfl, hqr, rfl⟩
  · refine ⟨⟨hpost, hpids, ?_⟩, ⟨rfl, rfl, rfl, rfl, rfl, fun _ => rfl⟩, rfl, rfl⟩
    simp only [List.nil_append]
    split <;> rename_i h
    · rw [hlast.mp h, List.getLast?_nil]
    · rw [hl.last]
      cases post with
      | nil => exact absurd (hlast.mpr rfl) h
      | cons x post => simp
  · have hqd : d ≠ q := by
      have h := (List.nodup_append.mp hnodup).2.2 q (by simp) d (by simp)
      exact fun e => h e.symm
    refine ⟨⟨?_, ?_, ?_⟩, ?_, by simp [hqd], rfl⟩
    · -- `q` gets the link of `d`
      have h : Linked (link s) s.firstProcess (pre ++ q :: d :: post) none := by
        simpa using hl.linked
      have once : (pre ++ q :: d :: post).Nodup := by simpa using hnodup
      rw [show pre ++ [q] ++ post = pre ++ q :: post by simp]
      exact linked_unlink h once (link_of hr) (fun x hx => by simp [link, hx]) (by simp [link])
    · have same : ∀ x, pidOf (s.put q { qr with next := r.next }) x = pidOf s x :=
        put_pidOf hqr rfl
      exact (congrArg (fun f => ((pre ++ [q] ++ post).map f).Nodup) (funext same)).mpr hpids
    · change (if s.lastProcess = some d then some q else s.lastProcess) = _
      split <;> rename_i h
      · simp [hlast.mp h]
      · rw [hl.last]
        cases post with
        | nil => exact absurd (hlast.mpr rfl) h
        | cons x post => simp
    · exact ⟨rfl, rfl, rfl, rfl, rfl, put_bare hqr rfl⟩

theorem removeProcess_total {fuel : Nat} (hl : Listed s (pre ++ d :: post))
    (enough : (pre ++ d :: post).length < fuel) : ∃ s', removeProcess fuel d s = .ok s' := by
  obtain ⟨r, hr⟩ := hl.record (p := d) (by simp)
  obtain ⟨del, prev, hs⟩ := search_total hl enough r.pid
  obtain ⟨rfl, rfl⟩ := search_listed hl (pidOf_of hr) hs
  unfold removeProcess
  simp only [load_of hr, ok_bind, hs, deref_some]
  cases hp : pre.getLast? with
  | none => exact ⟨_, rfl⟩
  | some q =>
    obtain ⟨qr, hqr⟩ := hl.record (p := q)
      (List.mem_append_left _ (List.mem_of_getLast? hp))
    simp only [load_of hqr]
    exact ⟨_, rfl⟩

/-- A record linked in after a listed one. -/
theorem insertAfter_listed {P Q : List Ptr} {rc : ProcessCDT} (hl : Listed s (P ++ c :: Q))
    (fresh : ∀ x ∈ P ++ c :: Q, pidOf s x ≠ pidOf s d) (hc : s.procs c = some rc)
    (first : s'.firstProcess = s.firstProcess) (hlc : link s' c = some (some d))
    (hld : link s' d = some rc.next) (other : ∀ x, x ≠ c → x ≠ d → link s' x = link s x)
    (pids : pidOf s' = pidOf s)
    (last : s'.lastProcess = if some c = s.lastProcess then some d else s.lastProcess) :
    Listed s' (P ++ c :: d :: Q) := by
  have apart : ∀ x ∈ P ++ c :: Q, x ≠ d := fun x hx e => fresh x hx (by rw [e])
  obtain ⟨-, hcQ, disj⟩ := List.nodup_append.mp hl.nodup
  have hcP : c ∉ P := fun h => disj c h c (by simp) rfl
  have hcQ := (List.nodup_cons.mp hcQ).1
  obtain ⟨-, n, hn, hQ⟩ := linked_split.mp hl.linked
  obtain rfl : rc.next = n := by simpa [link, hc] using hn
  refine ⟨?_, ?_, ?_⟩
  · rw [first]
    refine linked_relink hl.linked (fun x hx => other x (fun e => hcP (e ▸ hx))
      (apart x (by simp [hx]))) hlc ⟨rfl, rc.next, hld, ?_⟩
    exact linked_congr (fun x hx => other x (fun e => hcQ (e ▸ hx)) (apart x (by simp [hx]))) hQ
  · rw [pids]
    have perm : (P ++ c :: d :: Q).Perm (d :: (P ++ c :: Q)) := by
      rw [show P ++ c :: d :: Q = (P ++ [c]) ++ d :: Q by simp,
        show P ++ c :: Q = (P ++ [c]) ++ Q by simp]
      exact List.perm_middle
    rw [(perm.map _).nodup_iff, List.map_cons, List.nodup_cons]
    refine ⟨fun h => ?_, hl.pids⟩
    obtain ⟨x, hx, he⟩ := List.mem_map.mp h
    exact fresh x hx he
  · rw [last, hl.last]
    cases Q with
    | nil => simp
    | cons x Q =>
      have hne : some c ≠ (P ++ c :: x :: Q).getLast? := by
        intro e
        have hm : c ∈ x :: Q := List.mem_of_getLast? (l := x :: Q) (by simpa using e.symm)
        exact hcQ hm
      rw [if_neg hne]
      simp

/-- What `moveAfterCurrent` writes, one after the other, when there is a current process. -/
theorem moveAfterCurrent_writes {fuel : Nat} (hl : Listed s (pre ++ d :: post))
    (hc : s.currentProcess = some c) (run : moveAfterCurrent fuel d s = .ok s') :
    ∃ s₁ s₂ s₃ r₁ r₂ r₃ n last, removeProcess fuel d s = .ok s₁ ∧
      s₁.procs c = some r₁ ∧
      s₂ = s₁.put c { r₁ with executions := char (MAX_PRIORITY - r₁.priority) } ∧
      s₂.procs d = some r₂ ∧ s₃ = s₂.put d { r₂ with next := n } ∧
      s₃.procs c = some r₃ ∧
      s' = { s₃.put c { r₃ with next := some d } with lastProcess := last } := by
  unfold moveAfterCurrent at run
  obtain ⟨s₁, removed, run⟩ := bind_ok.mp run
  have current : s₁.currentProcess = some c :=
    (removeProcess_listed hl removed).2.1.current.trans hc
  simp only [current] at run
  obtain ⟨r₁, h₁, run⟩ := bind_ok.mp run
  obtain ⟨r, -, run⟩ := bind_ok.mp run
  obtain ⟨r₂, h₂, run⟩ := bind_ok.mp run
  obtain ⟨r₃, h₃, run⟩ := bind_ok.mp run
  exact ⟨s₁, _, _, r₁, r₂, r₃, r.next, _, removed, load_ok.mp h₁, rfl, load_ok.mp h₂, rfl,
    load_ok.mp h₃, (Except.ok.inj run).symm⟩

/-- The move of `unblockFirst`, for a process other than the current one. -/
theorem moveAfterCurrent_listed {fuel : Nat} {rc : ProcessCDT} {P Q : List Ptr}
    (hl : Listed s (pre ++ d :: post)) (hc : s.current = .ok (c, rc))
    (place : pre ++ post = P ++ c :: Q) (run : moveAfterCurrent fuel d s = .ok s') :
    Listed s' (P ++ c :: d :: Q) ∧ Shuffled A (· = c) s s' ∧ s'.freed = s.freed ∧
      (∃ rd n, s.procs d = some rd ∧ s'.procs d = some { rd with next := n }) ∧
      ∃ rc', s'.procs c = some rc' ∧ rc'.next = some d ∧
        rc'.executions = char (MAX_PRIORITY - rc.priority) := by
  obtain ⟨hcur, hrc⟩ := current_ok.mp hc
  unfold moveAfterCurrent at run
  obtain ⟨s1, h1, run1⟩ := bind_ok.mp run
  obtain ⟨hl1, re1, hd1, hf1⟩ := removeProcess_listed hl h1
  have sh1 : Shuffled A (· = c) s s1 := .of_relinked re1
  rw [place] at hl1
  obtain ⟨rd, hrd⟩ := hl.record (p := d) (by simp)
  rw [hrd] at hd1
  have hcd : c ≠ d := by
    intro e
    have hn := hl.nodup
    rw [List.nodup_middle, place, e] at hn
    exact (List.nodup_cons.mp hn).1 (by simp)
  obtain ⟨rc1, hrc1, k1⟩ := sh1.some hrc
  have hpr : rc1.priority = rc.priority := k1.kept.priority
  simp only [sh1.current, hcur, load_of hrc1, ok_bind] at run1
  simp only [load, put_procs, hcd.symm, hcd, if_true, if_false, hd1, ok_bind] at run1
  obtain rfl := Except.ok.inj run1
  have fresh : ∀ x ∈ P ++ c :: Q, pidOf s1 x ≠ pidOf s1 d := by
    intro x hx
    rw [sh1.pidOf_eq, sh1.pidOf_eq]
    intro e
    rw [← place] at hx
    have hx' : x ∈ pre ++ d :: post := by
      rcases List.mem_append.mp hx with h | h <;> simp [h]
    have same := hl.pid_inj hx' (by simp) e
    have hn := hl.nodup
    rw [List.nodup_middle] at hn
    exact (List.nodup_cons.mp hn).1 (same ▸ hx)
  refine ⟨?_, ?_, hf1, ⟨rd, rc1.next, hrd, by simp [hcd.symm]⟩, ?_⟩
  · refine insertAfter_listed hl1 fresh hrc1 rfl ?_ ?_ ?_ ?_ rfl
    · simp [link]
    · simp [link, hcd.symm]
    · intro x hxc hxd
      simp [link, hxc, hxd]
    · funext x
      by_cases hxc : x = c
      · simp [pidOf, hxc, hrc1]
      · by_cases hxd : x = d
        · simp [pidOf, hxd, hcd.symm, hd1]
        · simp [pidOf, hxc, hxd]
  · refine sh1.trans ⟨rfl, rfl, rfl, rfl, rfl, fun x => ?_⟩
    simp only [put_procs]
    by_cases hxc : x = c
    · rw [if_pos hxc, hxc, hrc1]
      refine .some ⟨⟨rfl, rfl, rfl, rfl, rfl, rfl, rfl, rfl, fun h h' => ⟨h, h'⟩⟩, fun _ => rfl,
        fun n => absurd rfl n, fun _ => rfl⟩
    · by_cases hxd : x = d
      · rw [if_neg hxc, if_pos hxd, hxd, hd1]
        exact .some (Touch.refl _ _)
      · rw [if_neg hxc, if_neg hxd, if_neg hxc]
        cases s1.procs x with
        | none => exact .none
        | some r => exact .some (Touch.refl _ _)
  · refine ⟨_, by simp; rfl, rfl, ?_⟩
    simp [hpr]

theorem mem_split_of_ne {x : Ptr} (hx : x ∈ pre ++ d :: post) (hne : x ≠ d) :
    ∃ P Q, pre ++ post = P ++ x :: Q := by
  refine List.append_of_mem ?_
  rcases List.mem_append.mp hx with h | h
  · exact List.mem_append_left _ h
  · rcases List.mem_cons.mp h with h | h
    · exact absurd h hne
    · exact List.mem_append_right _ h

/-- What `unblockFirst` does to the list when its process is not the current one. -/
structure Promoted (nodes : List Ptr) (c d : Ptr) (s s' : Sched) : Prop where
  place : ∃ pre post P Q, nodes = pre ++ d :: post ∧ pre ++ post = P ++ c :: Q ∧
    Listed s' (P ++ c :: d :: Q)
  shuffled : Shuffled (· = d) (· = c) s s'
  ready : stateOf s' d = some .ready
  turn : ∃ rc, s'.procs c = some rc ∧ rc.executions = char (MAX_PRIORITY - rc.priority)

/-- The steps of `unblockFirst`: it has found no process that is not DEAD, or it moves the one
it has found, makes it READY and takes its parent's foreground. -/
theorem unblockFirst_steps {fuel : Nat} {pid : Int} {e : Exit} (hl : Listed s nodes)
    (run : unblockFirst fuel pid s = .ok (e, s')) :
    (e = .ret EXIT_FAILURE ∧ s' = s ∧
      ∀ p ∈ nodes, pidOf s p = some pid → stateOf s p = some .dead) ∨
    ∃ d ∈ nodes, ∃ r s₁ r₁ parent prev, s.procs d = some r ∧ r.pid = pid ∧ r.state ≠ .dead ∧
      e = .forceTimer ∧ moveAfterCurrent fuel d s = .ok s₁ ∧ s₁.procs d = some r₁ ∧
      search fuel r₁.ppid (s₁.put d { r₁ with state := .ready }) = .ok (parent, prev) ∧
      ifForeground r₁.foreground (takeForeground parent) (s₁.put d { r₁ with state := .ready }) =
        .ok s' := by
  unfold unblockFirst at run
  obtain ⟨⟨del, prev⟩, hs, run⟩ := bind_ok.mp run
  rcases search_pid hl hs with ⟨rfl, absent⟩ | ⟨d, hd, r, rfl, hr, hpid⟩
  · obtain ⟨rfl, rfl⟩ := Prod.mk.inj (Except.ok.inj run)
    exact .inl ⟨rfl, rfl, fun p hp he => absurd he (absent p hp)⟩
  simp only [load_of hr, ok_bind] at run
  split at run <;> rename_i hdead
  · obtain ⟨rfl, rfl⟩ := Prod.mk.inj (Except.ok.inj run)
    refine .inl ⟨rfl, rfl, fun p hp he => ?_⟩
    have same := hl.pid_inj hp hd (he.trans (by simp [pidOf, hr, hpid]))
    rw [same, stateOf_of hr, hdead]
  obtain ⟨s₁, moved, run⟩ := bind_ok.mp run
  obtain ⟨r₁, hr₁, run⟩ := bind_ok.mp run
  obtain ⟨⟨parent, prev'⟩, found, run⟩ := bind_ok.mp run
  obtain ⟨s₂, given, run⟩ := bind_ok.mp run
  obtain ⟨rfl, rfl⟩ := Prod.mk.inj (Except.ok.inj run)
  exact .inr ⟨d, hd, r, s₁, r₁, parent, prev', hr, hpid, hdead, rfl, moved, load_ok.mp hr₁, found,
    given⟩

/-- What `unblockFirst` does when it returns. -/
theorem unblockFirst_cases {fuel : Nat} {pid : Int} {e : Exit} (hl : Listed s nodes)
    (hc : s.currentProcess = some c) (hn : c ∈ nodes)
    (run : unblockFirst fuel pid s = .ok (e, s')) :
    (e = .ret EXIT_FAILURE ∧ s' = s ∧
      ∀ p ∈ nodes, pidOf s p = some pid → stateOf s p = some .dead) ∨
    ∃ d ∈ nodes, ∃ r, s.procs d = some r ∧ r.pid = pid ∧ r.state ≠ .dead ∧ e = .forceTimer ∧
      (d ≠ c → Promoted nodes c d s s') := by
  rcases unblockFirst_steps hl run with missed | ⟨d, hd, r, s1, r1, parent, prev, hr, hpid, hdead,
    rfl, h1, hr1, -, h2⟩
  · exact .inl missed
  refine .inr ⟨d, hd, r, hr, hpid, hdead, rfl, fun hdc => ?_⟩
  obtain ⟨rc, hrc⟩ := hl.record hn
  obtain ⟨pre, post, rfl⟩ := List.append_of_mem hd
  obtain ⟨P, Q, place⟩ := mem_split_of_ne hn hdc.symm
  obtain ⟨hl1, sh1, -, -, rc', hrc', -, hex⟩ :=
    moveAfterCurrent_listed (A := (· = d)) hl (current_ok.mpr ⟨hc, hrc⟩) place h1
  have t : Touched (fun _ => False) (fun _ => False) (s1.put d { r1 with state := .ready }) s' :=
    ifForeground_touched (fun _ => takeForeground_touched) h2
  have t' : Touched (· = d) (· = c) s1 s' :=
    ((setState_touched hr1 .ready).mono (fun _ h => h) (fun _ h => h.elim)).trans
      (t.mono (fun _ h => h.elim) (fun _ h => h.elim))
  have ready : stateOf s' d = some .ready := by
    rw [t.stateOf_eq (p := d) (by simp)]
    simp [stateOf]
  refine ⟨⟨pre, post, P, Q, rfl, place, t'.listed hl1⟩, sh1.trans (.of_touched t'), ready, ?_⟩
  -- the executions set by the move are not touched afterwards
  have hcd : c ≠ d := fun e => hdc e.symm
  obtain ⟨rc2, hrc2, k⟩ := t.some (p := c) (r := rc') (by simp [hcd, hrc'])
  obtain ⟨rc'', hrc'', k0⟩ := sh1.some hrc
  obtain rfl := Option.some.inj (hrc'.symm.trans hrc'')
  have hpr : rc2.priority = rc.priority := k.kept.priority.trans k0.kept.priority
  exact ⟨rc2, hrc2, by rw [k.executions (by simp), hex, hpr]⟩

/-- The move comes back wherever the current process is. -/
theorem moveAfterCurrent_total {fuel : Nat} {rc : ProcessCDT} (hl : Listed s nodes)
    (enough : nodes.length < fuel) (hc : s.current = .ok (c, rc)) (hd : d ∈ nodes) :
    ∃ s', moveAfterCurrent fuel d s = .ok s' := by
  obtain ⟨pre, post, rfl⟩ := List.append_of_mem hd
  obtain ⟨s1, h1⟩ := removeProcess_total hl enough
  obtain ⟨-, re, hd1, -⟩ := removeProcess_listed hl h1
  have sh : Shuffled (fun _ => False) (fun _ => False) s s1 := .of_relinked re
  obtain ⟨hcur, hrc⟩ := current_ok.mp hc
  obtain ⟨rc1, hrc1, -⟩ := sh.some hrc
  obtain ⟨rd, hrd⟩ := hl.record hd
  rw [hrd] at hd1
  rw [moveAfterCurrent, h1, ok_bind]
  simp only [sh.current, hcur, load_of hrc1, ok_bind]
  by_cases hdc : d = c
  · subst hdc
    simp only [load, put_procs, if_true, ok_bind]
    exact ⟨_, rfl⟩
  · have hcd : c ≠ d := fun e => hdc e.symm
    simp only [load, put_procs, hdc, hcd, if_true, if_false, hd1, ok_bind]
    exact ⟨_, rfl⟩

theorem unblockFirst_total {fuel : Nat} {pid : Int} (hl : Listed s nodes)
    (enough : nodes.length < fuel) (hc : s.currentProcess = some c) (hn : c ∈ nodes)
    (other : pidOf s c ≠ some pid) (home : Homed s nodes) :
    ∃ x, unblockFirst fuel pid s = .ok x := by
  obtain ⟨del, prev, hs⟩ := search_total hl enough pid
  unfold unblockFirst
  rw [hs, ok_bind]
  rcases search_pid hl hs with ⟨rfl, -⟩ | ⟨d, hd, r, rfl, hr, hpid⟩
  · exact ⟨_, rfl⟩
  simp only [load_of hr, ok_bind]
  split
  · exact ⟨_, rfl⟩
  have hcd : c ≠ d := by
    rintro rfl
    exact other (by rw [pidOf_of hr, hpid])
  obtain ⟨rc, hrc⟩ := hl.record hn
  obtain ⟨s1, h1⟩ := moveAfterCurrent_total hl enough (current_ok.mpr ⟨hc, hrc⟩) hd
  obtain ⟨pre, post, rfl⟩ := List.append_of_mem hd
  obtain ⟨P, Q, place⟩ := mem_split_of_ne hn hcd
  obtain ⟨hl1, sh1, -, ⟨rd, n, hrd, hr1⟩, -⟩ :=
    moveAfterCurrent_listed (A := (· = d)) hl (current_ok.mpr ⟨hc, hrc⟩) place h1
  obtain rfl := Option.some.inj (hr.symm.trans hrd)
  have t := setState_touched (s := s1) hr1 .ready
  have perm : ∀ x, x ∈ pre ++ d :: post → x ∈ P ++ c :: d :: Q := by
    intro x hx
    by_cases hxd : x = d
    · simp [hxd]
    · have h : x ∈ pre ++ post := by
        rcases List.mem_append.mp hx with h | h
        · exact List.mem_append_left _ h
        · exact List.mem_append_right _ ((List.mem_cons.mp h).resolve_left hxd)
      rw [place] at h
      rcases List.mem_append.mp h with h | h
      · exact List.mem_append_left _ h
      · rcases List.mem_cons.mp h with h | h <;> simp [h]
  have length : (P ++ c :: d :: Q).length = (pre ++ d :: post).length := by
    have h := congrArg List.length place
    simp only [List.length_append, List.length_cons] at h ⊢
    omega
  obtain ⟨parent, prev', hp⟩ := search_total (t.listed hl1) (length ▸ enough) r.ppid
  obtain ⟨s', h'⟩ := ifForeground_total (f := r.foreground) (t.listed hl1)
    (fun q r => takeForeground_total) hp (fun hf => by
      obtain ⟨q, hq, he⟩ := home d (by simp) r hr hf
      exact ⟨q, perm q hq, by rw [t.pidOf_eq, sh1.pidOf_eq, he]⟩)
  simp only [h1, ok_bind, load_of hr1, hp, h']
  exact ⟨_, rfl⟩

/-- A new record at a free address is the only one, or the last one's link leads to it. -/
theorem appendProcess_shape (hl : Listed s nodes) (free : s.procs p = none) (r : ProcessCDT) :
    (nodes = [] ∧ appendProcess p (s.put p r) =
        .ok { s.put p r with firstProcess := some p, lastProcess := some p }) ∨
      ∃ init l a, nodes = init ++ [l] ∧ l ∉ init ∧ l ≠ p ∧ s.procs l = some a ∧
        appendProcess p (s.put p r) =
          .ok { (s.put p r).put l { a with next := some p } with lastProcess := some p } := by
  have head := linked_head hl.linked
  rcases List.eq_nil_or_concat nodes with rfl | ⟨init, l, rfl⟩
  · refine .inl ⟨rfl, ?_⟩
    rw [appendProcess, show (s.put p r).firstProcess = none from head]
    rfl
  · rw [List.concat_eq_append] at *
    have last : (s.put p r).lastProcess = some l := hl.last.trans (by simp)
    have apart : l ≠ p := hl.apart free (x := l) (by simp)
    have once : l ∉ init := fun h => (List.nodup_append.mp hl.nodup).2.2 l h l (by simp) rfl
    obtain ⟨a, ha⟩ := hl.record (p := l) (by simp)
    have there : (s.put p r).procs l = some a := by rw [put_procs, if_neg apart, ha]
    obtain ⟨f, first⟩ : ∃ f, (s.put p r).firstProcess = some f := by
      change ∃ f, s.firstProcess = some f
      rw [head]
      cases init with
      | nil => exact ⟨l, rfl⟩
      | cons f init => exact ⟨f, rfl⟩
    refine .inr ⟨init, l, a, rfl, once, apart, ha, ?_⟩
    simp only [appendProcess, first, last, deref_some, ok_bind, load_of there]
    rfl

theorem appendProcess_cases (hl : Listed s nodes) (free : s.procs p = none)
    (run : appendProcess p (s.put p r) = .ok s') :
    (nodes = [] ∧ s' = { s.put p r with firstProcess := some p, lastProcess := some p }) ∨
      ∃ init l a, nodes = init ++ [l] ∧ l ≠ p ∧ s.procs l = some a ∧
        s' = { (s.put p r).put l { a with next := some p } with lastProcess := some p } := by
  rcases appendProcess_shape hl free r with ⟨empty, shape⟩ | ⟨init, l, a, last, -, hlp, ha, shape⟩
  · exact .inl ⟨empty, Except.ok.inj (run.symm.trans shape)⟩
  · exact .inr ⟨init, l, a, last, hlp, ha, Except.ok.inj (run.symm.trans shape)⟩

/-- The new record is linked behind the last one. -/
theorem appendProcess_linked (hl : Listed s nodes) (free : s.procs p = none)
    (end_ : r.next = none) : ∃ s', appendProcess p (s.put p r) = .ok s' ∧
      Linked (link s') s'.firstProcess (nodes ++ [p]) none ∧ s'.lastProcess = some p ∧
      s'.procs p = some r := by
  rcases appendProcess_shape hl free r with ⟨rfl, run⟩ | ⟨init, l, a, rfl, once, hlp, -, run⟩
  · exact ⟨_, run, ⟨rfl, none, by simp [link, end_], rfl⟩, rfl, by simp⟩
  · have apart : ∀ x ∈ init ++ [l], x ≠ p := fun x hx => hl.apart free hx
    refine ⟨_, run, ?_, rfl, by simp [hlp.symm]⟩
    rw [List.append_assoc]
    refine linked_relink hl.linked (fun x hx => ?_) (r := some p) ?_ ⟨rfl, none, ?_, rfl⟩
    · simp [link, apart x (by simp [hx]), show x ≠ l from fun e => once (e ▸ hx)]
    · simp [link]
    · simp [link, hlp.symm, end_]

/-- A new record at a free address, appended. -/
theorem appendProcess_listed (hl : Listed s nodes) (free : s.procs p = none)
    (fresh : ∀ x ∈ nodes, pidOf s x ≠ some r.pid) (hnext : r.next = none)
    (run : appendProcess p (s.put p r) = .ok s') :
    Listed s' (nodes ++ [p]) ∧ s'.procs p = some r ∧
      (∀ x, x ≠ p →
        Option.Rel (fun a b => Touch A B x (bare a) (bare b)) (s.procs x) (s'.procs x)) ∧
      s'.currentProcess = s.currentProcess ∧
      s'.firstBlockedIteration = s.firstBlockedIteration ∧
      s'.firstSleep = s.firstSleep ∧ s'.pids = s.pids ∧ s'.idleFlag = s.idleFlag := by
  have apart : ∀ x ∈ nodes, x ≠ p := fun x hx => hl.apart free hx
  obtain ⟨s₁, run₁, linked, last, record⟩ := appendProcess_linked (r := r) hl free hnext
  obtain rfl := Except.ok.inj (run.symm.trans run₁)
  rcases appendProcess_cases hl free run with ⟨rfl, rfl⟩ | ⟨init, l, a, rfl, hlp, ha, rfl⟩
  · refine ⟨⟨linked, by simp, last⟩, record, fun x hx => ?_, rfl, rfl, rfl, rfl, rfl⟩
    simp only [put_procs, hx, if_false]
    cases s.procs x with
    | none => exact .none
    | some r => exact .some (Touch.refl _ _)
  · have pids : ∀ x ∈ init ++ [l],
        pidOf ((s.put p r).put l { a with next := some p }) x = pidOf s x := by
      intro x hx
      by_cases hxl : x = l
      · simp [pidOf, hxl, ha]
      · simp [pidOf, hxl, apart x hx]
    refine ⟨⟨linked, ?_, by simp⟩, record, fun x hx => ?_, rfl, rfl, rfl, rfl, rfl⟩
    · have hp : pidOf ((s.put p r).put l { a with next := some p }) p = some r.pid := by
        simp [pidOf, hlp.symm]
      change ((init ++ [l] ++ [p]).map (pidOf ((s.put p r).put l { a with next := some p }))).Nodup
      rw [List.map_append, List.map_congr_left pids, List.map_singleton, hp,
        List.nodup_append_comm, List.singleton_append, List.nodup_cons]
      refine ⟨fun h => ?_, hl.pids⟩
      obtain ⟨x, hx, he⟩ := List.mem_map.mp h
      exact fresh x hx he
    · by_cases hxl : x = l
      · subst hxl
        simp only [put_procs, if_true, ha]
        exact .some (Touch.refl _ _)
      · simp only [put_procs, hx, hxl, if_false]
        cases s.procs x with
        | none => exact .none
        | some r => exact .some (Touch.refl _ _)

/-- What `enqueueProcess` does to the scheduler, apart from the list. -/
structure Enqueued (foreground : Int) (p : Ptr) (s s' : Sched) : Prop where
  current : s'.currentProcess = s.currentProcess
  blocked : s'.firstBlockedIteration = s.firstBlockedIteration
  sleep : s'.firstSleep = s.firstSleep
  pids : s'.pids = int32 (s.pids + 1)
  idle : s'.idleFlag = s.idleFlag
  free : s.procs p = none
  heap : p < heapEnd
  made : ∃ r, s'.procs p = some r ∧ r.pid = s.pids ∧ r.state = .ready ∧ r.executions = 0 ∧
    (r.priority = DEF_PRIORITY ∨ r.priority = MAX_PRIORITY / 2) ∧ r.foreground = foreground ∧
    r.backWait = 0
  procs : ∀ x, x ≠ p → Option.Rel (fun a b => Touch (IsIdle s)
    (fun x => IsIdle s x ∧ s.currentProcess = some x) x (bare a) (bare b)) (s.procs x) (s'.procs x)
  state : ∀ x, x ≠ p →
    stateOf s' x = stateOf s x ∨
      (IsIdle s x ∧ stateOf s x ≠ some .dead ∧ stateOf s' x = some .blocked)

/-- `enqueueProcess` step by step. -/
theorem enqueueProcess_steps {fuel : Nat} {nullPid foreground pid : Int} {fd : Option Ptr}
    {m : Mallocs} (run : enqueueProcess fuel nullPid foreground fd m s = .ok (pid, s')) :
    ∃ fd' p auxi aux s₁ ppid s₂, fd.or m.fd = some fd' ∧ m.process = some p ∧
      m.stack = some auxi ∧ m.name = some aux ∧
      blockIdle fuel (s.idleFlag = 0) s = .ok s₁ ∧
      adoptCurrent nullPid foreground s₁ = .ok (ppid, s₂) ∧ s₂.procs p = none ∧ p < heapEnd ∧
      pid = s₂.pids ∧
      appendProcess p (Sched.put { s₂ with pids := int32 (s₂.pids + 1) } p
        { next := none, name := aux, pid := s₂.pids, ppid := ppid
          rsp := initialize_stack_frame (auxi + 8 * STACK_SIZE), rbp := auxi + 8 * STACK_SIZE
          priority := if foreground = 1 then DEF_PRIORITY else MAX_PRIORITY / 2
          executions := 0, foreground := foreground, state := .ready, fd := fd'
          children := 0, backWait := 0, bPointer := auxi }) = .ok s' := by
  obtain ⟨fd', hfd, run⟩ := bind_ok.mp run
  obtain ⟨s₁, h₁, run⟩ := bind_ok.mp run
  obtain ⟨⟨ppid, s₂⟩, h₂, run⟩ := bind_ok.mp run
  obtain ⟨p, hp, run⟩ := bind_ok.mp run
  obtain ⟨auxi, hstack, run⟩ := bind_ok.mp run
  obtain ⟨aux, hname, run⟩ := bind_ok.mp run
  obtain ⟨s₃, h₃, run⟩ := bind_ok.mp run
  obtain ⟨rfl, rfl⟩ := Prod.mk.inj (Except.ok.inj run)
  obtain ⟨hm, free, heap⟩ := malloc_ok.mp hp
  exact ⟨fd', p, auxi, aux, s₁, ppid, s₂, deref_ok.mp hfd, hm, deref_ok.mp hstack,
    deref_ok.mp hname, h₁, h₂, free, heap, rfl, h₃⟩

theorem enqueueProcess_cases {fuel : Nat} {nullPid foreground pid : Int} {fd : Option Ptr}
    {m : Mallocs} (hl : Listed s nodes) (fresh : ∀ x ∈ nodes, pidOf s x ≠ some s.pids)
    (run : enqueueProcess fuel nullPid foreground fd m s = .ok (pid, s')) :
    pid = s.pids ∧ ∃ p, m.process = some p ∧ Listed s' (nodes ++ [p]) ∧
      Enqueued foreground p s s' := by
  obtain ⟨fd', p, auxi, aux, s1, ppid, s2, -, hm, -, -, h1, h2, hfree, hheap, rfl, h4⟩ :=
    enqueueProcess_steps run
  obtain ⟨t1, st1⟩ := blockIdle_touched hl h1
  have t2 : Touched (fun _ => False) (fun _ => False) s1 s2 := adoptCurrent_touched h2
  have t := t1.trans (t2.mono (fun _ h => h.elim) (fun _ h => h.elim))
  have hl2 : Listed { s2 with pids := int32 (s2.pids + 1) } nodes :=
    ⟨(t.listed hl).linked, (t.listed hl).pids, (t.listed hl).last⟩
  have free := t.none.mp hfree
  refine ⟨t.pids, p, hm, ?_⟩
  obtain ⟨hl4, hr4, procs', c4, b4, sl4, p4, i4⟩ := appendProcess_listed
    (A := fun _ => False) (B := fun _ => False) hl2 hfree (fun x hx => by
      rw [show (pidOf { s2 with pids := int32 (s2.pids + 1) } x) = pidOf s2 x from rfl,
        t.pidOf_eq, t.pids]
      exact fresh x hx) rfl h4
  refine ⟨hl4, c4.trans t.current, b4.trans t.blocked, sl4.trans t.sleep,
    p4.trans (by rw [← t.pids]), i4.trans t.idle, free, hheap, ?_, fun x hx => ?_, fun x hx => ?_⟩
  · refine ⟨_, hr4, t.pids, rfl, rfl, ?_, rfl, rfl⟩
    by_cases hf : foreground = 1
    · simp [hf]
    · simp [hf]
  · have a := (Shuffled.of_touched t).procs x
    have b := procs' x hx
    change Option.Rel _ (s2.procs x) _ at b
    generalize s.procs x = u at *
    generalize s2.procs x = v at *
    generalize s'.procs x = w at *
    cases a with
    | none => cases b with | none => exact .none
    | some a =>
      cases b with
      | some b =>
        exact .some (a.trans _ _ _ _ ⟨b.kept, fun _ => b.state (fun h => h),
          fun _ => b.executions (fun h => h), fun _ => b.rsp (fun h => h)⟩)
  · have b := procs' x hx
    have same : stateOf s' x = stateOf s1 x := by
      rw [← t2.stateOf_eq (p := x) (fun h => h)]
      change Option.Rel _ (s2.procs x) _ at b
      unfold stateOf
      generalize s2.procs x = v at *
      generalize s'.procs x = w at *
      cases b with
      | none => rfl
      | some b => exact congrArg some (b.state (fun h => h))
    rw [same]
    exact st1 x

end

end BottlerOS.ProcessLinks
