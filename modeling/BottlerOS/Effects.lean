import BottlerOS.Turns
import BottlerOS.Parents

/-! What each function of the scheduler writes into every record, links apart. A record is
found by its pid, which only one listed record has. -/

namespace BottlerOS.Effects
open Machine Scheduler LinkedList ProcessList ProcessFields ProcessLinks
open SchedCalls SchedRuns Turns

/-- The listed record with a pid. -/
def Found (s : Sched) (nodes : List Ptr) (pid : Int) (p : Ptr) : Prop :=
  p ∈ nodes ∧ pidOf s p = some pid

instance (s : Sched) (nodes : List Ptr) (pid : Int) (p : Ptr) : Decidable (Found s nodes pid p) :=
  inferInstanceAs (Decidable (_ ∧ _))

/-- Every record is rewritten. -/
def Exact (f : Ptr → ProcessCDT → ProcessCDT) (s t : Sched) : Prop :=
  ∀ p, t.procs p = (s.procs p).map (f p)

/-- Every record is rewritten, and links besides. -/
def Edited (f : Ptr → ProcessCDT → ProcessCDT) (s t : Sched) : Prop :=
  ∀ p, (t.procs p).map bare = (s.procs p).map fun a => bare (f p a)

/-- One record changes. -/
def upon (d : Ptr) (g : ProcessCDT → ProcessCDT) (p : Ptr) (a : ProcessCDT) : ProcessCDT :=
  if p = d then g a else a

def give (a : ProcessCDT) : ProcessCDT :=
  if a.backWait ≠ 0 then { a with backWait := 0, foreground := 1 } else a

def take (a : ProcessCDT) : ProcessCDT :=
  if a.foreground ≠ 0 then { a with backWait := 1, foreground := 0 } else a

def setState (st : States) (a : ProcessCDT) : ProcessCDT := { a with state := st }

def setExecutions (n : Int) (a : ProcessCDT) : ProcessCDT := { a with executions := n }

/-- The turn is used up. -/
def useUp (a : ProcessCDT) : ProcessCDT :=
  { a with executions := char (MAX_PRIORITY - a.priority) }

/-- The parent of a process in the foreground changes. -/
def onParent (g : ProcessCDT → ProcessCDT) (s : Sched) (nodes : List Ptr) (r : ProcessCDT)
    (p : Ptr) (a : ProcessCDT) : ProcessCDT :=
  if r.foreground ≠ 0 ∧ Found s nodes r.ppid p then g a else a

section
variable {s s' t : Sched} {nodes : List Ptr} {fuel : Nat} {c d p q : Ptr} {pid : Int} {x : Exit}
  {a b r rc : ProcessCDT} {f g : Ptr → ProcessCDT → ProcessCDT}

theorem Found.unique (hl : Listed s nodes) (h : Found s nodes pid p) (h' : Found s nodes pid q) :
    p = q := hl.pid_inj h.1 h'.1 (h.2.trans h'.2.symm)

theorem Found.dead (dead : ∀ p ∈ nodes, pidOf s p = some pid → stateOf s p = some .dead)
    (h : Found s nodes pid p) (hr : s.procs p = some r) : r.state = .dead :=
  Option.some.inj ((stateOf_of hr).symm.trans (dead p h.1 h.2))

theorem Found.record (hl : Listed s nodes) (h : Found s nodes pid p) :
    ∃ r, s.procs p = some r ∧ r.pid = pid := by
  obtain ⟨r, hr⟩ := hl.record h.1
  exact ⟨r, hr, Option.some.inj ((pidOf_of hr).symm.trans h.2)⟩

theorem listed_unique {nodes₁ : List Ptr} (h : Listed s nodes)
    (h' : Listed s nodes₁) : nodes = nodes₁ :=
  linked_unique h.linked h'.linked

theorem search_found {del prev : Option Ptr} (hl : Listed s nodes)
    (run : search fuel pid s = .ok (del, prev)) :
    (del = none ∧ ∀ p, ¬ Found s nodes pid p) ∨ ∃ d, del = some d ∧ Found s nodes pid d := by
  rcases search_pid hl run with ⟨rfl, absent⟩ | ⟨d, hd, r, rfl, hr, hpid⟩
  · exact .inl ⟨rfl, fun p hp => absent p hp.1 hp.2⟩
  · exact .inr ⟨d, rfl, hd, by rw [pidOf_of hr, hpid]⟩

theorem Exact.refl (s : Sched) : Exact (fun _ a => a) s s := by
  intro p
  simp

theorem Exact.trans (h : Exact f s s') (h' : Exact g s' t) :
    Exact (fun p a => g p (f p a)) s t := by
  intro p
  rw [h' p, h p, Option.map_map]
  rfl

theorem Exact.congr (h : Exact f s t) (same : ∀ p a, s.procs p = some a → f p a = g p a) :
    Exact g s t := by
  intro p
  rw [h p]
  cases hp : s.procs p with
  | none => rfl
  | some a => exact congrArg some (same p a hp)

theorem Exact.of (h : Exact f s t) (hp : s.procs p = some a) : t.procs p = some (f p a) := by
  rw [h p, hp]
  rfl

theorem Exact.edited (h : Exact f s t) : Edited f s t := by
  intro p
  rw [h p, Option.map_map]
  rfl

theorem exact_put (hp : s.procs p = some r) (g : ProcessCDT → ProcessCDT) :
    Exact (upon p g) s (s.put p (g r)) := by
  intro q
  rw [put_procs]
  unfold upon
  split <;> rename_i hq
  · rw [hq, hp]
    rfl
  · simp

theorem Exact.pidOf_eq (h : Exact f s t) (same : ∀ p a, (f p a).pid = a.pid) :
    pidOf t p = pidOf s p := by
  unfold pidOf
  rw [h p]
  cases s.procs p with
  | none => rfl
  | some a => exact congrArg some (same p a)

/-- The record that an edited one was. -/
theorem Edited.old (h : Edited f s t) (hb : t.procs p = some b) :
    ∃ a, s.procs p = some a ∧ bare b = bare (f p a) := by
  have k := h p
  rw [hb] at k
  cases hp : s.procs p with
  | none => rw [hp] at k; cases k
  | some a =>
    rw [hp] at k
    exact ⟨a, rfl, Option.some.inj k⟩

theorem Edited.new (h : Edited f s t) (ha : s.procs p = some a) :
    ∃ b, t.procs p = some b ∧ bare b = bare (f p a) := by
  have k := h p
  rw [ha] at k
  cases hp : t.procs p with
  | none => rw [hp] at k; cases k
  | some b =>
    rw [hp] at k
    exact ⟨b, rfl, Option.some.inj k⟩

theorem onParent_pid {g : ProcessCDT → ProcessCDT} (same : ∀ a, (g a).pid = a.pid) (p : Ptr)
    (a : ProcessCDT) : (onParent g s nodes r p a).pid = a.pid := by
  unfold onParent
  split
  · exact same a
  · rfl

theorem upon_pid {g : ProcessCDT → ProcessCDT} (same : ∀ a, (g a).pid = a.pid) (p : Ptr)
    (a : ProcessCDT) : (upon d g p a).pid = a.pid := by
  unfold upon
  split
  · exact same a
  · rfl

theorem give_pid (a : ProcessCDT) : (give a).pid = a.pid := by
  unfold give
  split <;> rfl

theorem giveForeground_exact (run : giveForeground (some q) s = .ok t) :
    Exact (upon q give) s t := by
  obtain ⟨a, ha, run1⟩ := bind_ok.mp (show load s.procs q >>= _ = .ok t from run)
  rw [load_ok] at ha
  have k := exact_put ha give
  unfold give at k
  split at run1 <;> rename_i hw <;> obtain rfl := Except.ok.inj run1
  · rw [if_pos hw] at k
    exact k
  · rw [if_neg hw] at k
    refine Exact.congr (.refl s) fun p b hb => ?_
    unfold upon
    split <;> rename_i hp
    · rw [hp, ha] at hb
      obtain rfl := Option.some.inj hb
      unfold give
      rw [if_neg hw]
    · rfl

theorem takeForeground_exact (run : takeForeground (some q) s = .ok t) :
    Exact (upon q take) s t := by
  obtain ⟨a, ha, run1⟩ := bind_ok.mp (show load s.procs q >>= _ = .ok t from run)
  rw [load_ok] at ha
  have k := exact_put ha take
  unfold take at k
  split at run1 <;> rename_i hf <;> obtain rfl := Except.ok.inj run1
  · rw [if_pos hf] at k
    exact k
  · refine Exact.congr (.refl s) fun p b hb => ?_
    unfold upon
    split <;> rename_i hp
    · rw [hp, ha] at hb
      obtain rfl := Option.some.inj hb
      unfold take
      rw [if_neg hf]
    · rfl

/-- What `ifForeground` does through a parent that has been searched for. -/
theorem ifForeground_exact {act : Option Ptr → Sched → C Sched} {g : ProcessCDT → ProcessCDT}
    {parent prev : Option Ptr} (hl : Listed s nodes)
    (found : search fuel r.ppid s = .ok (parent, prev))
    (null : ∀ s, act none s = .error .nullDeref)
    (one : ∀ q s', act (some q) s = .ok s' → Exact (upon q g) s s')
    (run : ifForeground r.foreground (act parent) s = .ok t) :
    Exact (onParent g s nodes r) s t := by
  unfold ifForeground at run
  split at run <;> rename_i hf
  · rcases search_found hl found with ⟨rfl, -⟩ | ⟨q, rfl, hq⟩
    · rw [null] at run
      cases run
    · refine (one q t run).congr fun p a _ => ?_
      unfold upon onParent
      by_cases hp : p = q
      · rw [if_pos hp, hp, if_pos ⟨hf, hq⟩]
      · rw [if_neg hp, if_neg fun h => hp (Found.unique hl h.2 hq)]
  · obtain rfl := Except.ok.inj run
    refine (Exact.refl s).congr fun p a _ => ?_
    unfold onParent
    rw [if_neg fun h => hf h.1]

theorem found_congr (same : ∀ p, pidOf t p = pidOf s p) :
    Found t nodes pid p ↔ Found s nodes pid p := by
  unfold Found
  rw [same]

theorem onParent_congr {g : ProcessCDT → ProcessCDT} (same : ∀ p, pidOf t p = pidOf s p) :
    onParent g t nodes r = onParent g s nodes r := by
  funext p a
  unfold onParent
  simp only [found_congr same]

/-- What `block` writes. -/
theorem block_exact (hl : Listed s nodes) (run : block fuel pid s = .ok (x, t)) :
    (x = .ret EXIT_FAILURE ∧ t = s ∧
      ∀ d r, Found s nodes pid d → s.procs d = some r → r.state = .dead) ∨
    ∃ d r c rc, Found s nodes pid d ∧ s.procs d = some r ∧ r.state ≠ .dead ∧
      s.current = .ok (c, rc) ∧ x = (if pid = rc.pid then .forceTimer else .ret EXIT_SUCCESS) ∧
      Exact (fun p a => (if pid = rc.pid then upon c (setExecutions 0) p else id)
        (onParent give s nodes r p (upon d (setState .blocked) p a))) s t := by
  rcases block_steps hl run with ⟨rfl, rfl, dead⟩ | ⟨d, hd, r, parent, prev, s2, c, rc2, hr, hpid,
    hdead, hsp, hs2, hc, hself⟩
  · exact .inl ⟨rfl, rfl, fun d r hd hr => Found.dead dead hd hr⟩
  replace hd : Found s nodes pid d := ⟨hd, hpid ▸ pidOf_of hr⟩
  have k1 : Exact (upon d (setState .blocked)) s (s.put d { r with state := .blocked }) :=
    exact_put hr (setState .blocked)
  have same : ∀ p, pidOf (s.put d { r with state := .blocked }) p = pidOf s p := fun p =>
    k1.pidOf_eq fun p a => upon_pid (g := setState .blocked) (fun _ => rfl) p a
  have hl1 : Listed (s.put d { r with state := .blocked }) nodes :=
    (setState_touched hr .blocked).listed hl
  have k2 := ifForeground_exact hl1 hsp (fun _ => rfl) (fun _ _ => giveForeground_exact) hs2
  rw [onParent_congr same] at k2
  obtain ⟨hc, hrc2⟩ := current_ok.mp hc
  have t2 : Touched (fun _ => False) (fun _ => False) (s.put d { r with state := .blocked }) s2 :=
    ifForeground_touched (fun _ => giveForeground_touched) hs2
  have hcur : s.currentProcess = some c := t2.current.symm.trans hc
  have k := k1.trans k2
  obtain ⟨rc, hrc, hsame⟩ := k.edited.old hrc2
  have kp : rc2.pid = rc.pid := by
    have e : (bare rc2).pid = _ := congrArg ProcessCDT.pid hsame
    exact e.trans ((onParent_pid give_pid _ _).trans
      (upon_pid (g := setState .blocked) (fun _ => rfl) _ _))
  refine .inr ⟨d, r, c, rc, hd, hr, hdead, current_ok.mpr ⟨hcur, hrc⟩, ?_⟩
  rcases hself with ⟨hself, rfl, rfl⟩ | ⟨hself, rfl, rfl⟩
  · have self : pid = rc.pid := hself.trans kp
    refine ⟨by rw [if_pos self], (k.trans (exact_put hrc2 (setExecutions 0))).congr fun p a _ => ?_⟩
    rw [if_pos self]
  · have other : pid ≠ rc.pid := fun h => hself (h.trans kp.symm)
    refine ⟨by rw [if_neg other], k.congr fun p a _ => ?_⟩
    rw [if_neg other]
    rfl

/-- What `unblock` writes. -/
theorem unblock_exact (hl : Listed s nodes) (run : unblock fuel pid s = .ok (x, t)) :
    (t = s ∧ ∀ d r, Found s nodes pid d → s.procs d = some r → r.state = .dead) ∨
    ∃ d r, Found s nodes pid d ∧ s.procs d = some r ∧ r.state ≠ .dead ∧
      Exact (fun p a => onParent take s nodes r p (upon d (setState .ready) p a)) s t := by
  rcases unblock_steps hl run with
    ⟨-, rfl, dead⟩ | ⟨d, hd, r, parent, prev, hr, hpid, hdead, -, hsp, hs2⟩
  · exact .inl ⟨rfl, fun d r hd hr => Found.dead dead hd hr⟩
  replace hd : Found s nodes pid d := ⟨hd, hpid ▸ pidOf_of hr⟩
  have k1 : Exact (upon d (setState .ready)) s (s.put d { r with state := .ready }) :=
    exact_put hr (setState .ready)
  have same : ∀ p, pidOf (s.put d { r with state := .ready }) p = pidOf s p := fun p =>
    k1.pidOf_eq fun p a => upon_pid (g := setState .ready) (fun _ => rfl) p a
  have hl1 : Listed (s.put d { r with state := .ready }) nodes :=
    (setState_touched hr .ready).listed hl
  have k2 := ifForeground_exact hl1 hsp (fun _ => rfl) (fun _ _ => takeForeground_exact) hs2
  rw [onParent_congr same] at k2
  exact .inr ⟨d, r, hd, hr, hdead, k1.trans k2⟩

theorem orphanParent_exact {foreground : Int} {parent prev : Option Ptr} {ppid : Int}
    (hl : Listed s nodes) (found : search fuel ppid s = .ok (parent, prev))
    (run : orphanParent foreground parent s = .ok t) :
    Exact (fun p a => if Found s nodes ppid p then orphan foreground a else a) s t := by
  rcases search_found hl found with ⟨rfl, absent⟩ | ⟨q, rfl, hq⟩
  · obtain rfl := Except.ok.inj run
    exact (Exact.refl s).congr fun p a _ => by rw [if_neg (absent p)]
  · obtain ⟨a, ha, run1⟩ := bind_ok.mp (show load s.procs q >>= _ = .ok t from run)
    obtain rfl := Except.ok.inj run1
    refine (exact_put (load_ok.mp ha) (orphan foreground)).congr fun p a _ => ?_
    unfold upon
    by_cases hp : p = q
    · rw [if_pos hp, hp, if_pos hq]
    · rw [if_neg hp, if_neg fun h => hp (Found.unique hl h hq)]

theorem orphanParent_freed {foreground : Int} {parent : Option Ptr}
    (run : orphanParent foreground parent s = .ok t) : t.freed = s.freed := by
  cases parent with
  | none =>
    obtain rfl := Except.ok.inj run
    rfl
  | some q =>
    obtain ⟨a, -, run1⟩ := bind_ok.mp (show load s.procs q >>= _ = .ok t from run)
    obtain rfl := Except.ok.inj run1
    rfl

/-- What `kill` writes. -/
theorem kill_exact (hl : Listed s nodes) (run : kill fuel pid s = .ok (x, t)) :
    (x = .ret EXIT_FAILURE ∧ t = s ∧ ∀ d, ¬ Found s nodes pid d) ∨
    ∃ d r c rc, Found s nodes pid d ∧ s.procs d = some r ∧ s.current = .ok (c, rc) ∧
      x = (if pid = rc.pid then .forceTimer else .ret EXIT_SUCCESS) ∧
      t.freed = r.bPointer :: r.name :: r.fd :: s.freed ∧
      Exact (fun p a => upon d (setState .dead) p
        (if Found s nodes r.ppid p then orphan r.foreground a else a)) s t := by
  rcases kill_steps hl run with ⟨rfl, rfl, absent⟩ | ⟨d, hd, r, parent, prev, s1, r1, c, rc2, hr,
    hpid, hsp, hs1, hr1, rfl, hc, hself⟩
  · exact .inl ⟨rfl, rfl, fun d hd => absent d hd.1 hd.2⟩
  replace hd : Found s nodes pid d := ⟨hd, hpid ▸ pidOf_of hr⟩
  have k1 := orphanParent_exact hl hsp hs1
  have aw := orphanParent_awaken hs1
  obtain ⟨r1', hr1', kept⟩ := aw.some hr
  obtain rfl := Option.some.inj (hr1.symm.trans hr1')
  have k2 : Exact (upon d (setState .dead)) s1 (Sched.put
      { s1 with freed := r1.bPointer :: r1.name :: r1.fd :: s1.freed } d
      { r1 with state := .dead }) := exact_put (s := { s1 with
        freed := r1.bPointer :: r1.name :: r1.fd :: s1.freed }) hr1 (setState .dead)
  have k := k1.trans k2
  obtain ⟨hcur, hrc2⟩ := current_ok.mp hc
  obtain ⟨rc, hrc, hsame⟩ := k.edited.old hrc2
  have kp : rc2.pid = rc.pid := by
    have e : (bare rc2).pid = _ := congrArg ProcessCDT.pid hsame
    refine e.trans ((upon_pid (g := setState .dead) (fun _ => rfl) _ _).trans ?_)
    split
    · exact (orphan_awaken c rc).kept.pid
    · rfl
  have freed : r1.bPointer :: r1.name :: r1.fd :: s1.freed =
      r.bPointer :: r.name :: r.fd :: s.freed := by
    rw [kept.kept.bPointer, kept.kept.name, kept.kept.fd, orphanParent_freed hs1]
  refine .inr ⟨d, r, c, rc, hd, hr, current_ok.mpr ⟨aw.current.symm.trans hcur, hrc⟩, ?_, freed, k⟩
  rcases hself with ⟨hself, rfl⟩ | ⟨hself, rfl⟩
  · rw [if_pos (hself.trans kp)]
  · rw [if_neg fun h : pid = rc.pid => hself (h.trans kp.symm)]

theorem block_listed (hl : Listed s nodes) (run : block fuel pid s = .ok (x, t)) :
    Listed t nodes := by
  rcases block_cases hl run with ⟨-, rfl, -⟩ | ⟨d, -, r, -, -, -, -, c, rc, -, hself⟩
  · exact hl
  · rcases hself with ⟨-, -, k⟩ | ⟨-, -, k⟩ <;> exact k.listed hl

theorem unblock_listed (hl : Listed s nodes) (run : unblock fuel pid s = .ok (x, t)) :
    Listed t nodes := by
  rcases unblock_cases hl run with ⟨rfl, -⟩ | ⟨d, -, r, -, -, -, -, k, -⟩
  · exact hl
  · exact k.listed hl

theorem kill_listed (hl : Listed s nodes) (run : kill fuel pid s = .ok (x, t)) :
    Listed t nodes := by
  rcases kill_cases hl run with ⟨-, rfl, -⟩ | ⟨d, -, r, -, -, k, -⟩
  · exact hl
  · exact Rel.listed k (fun _ _ _ k => k.kept.next) (fun _ _ _ k => k.kept.pid) hl

theorem Edited.of_bare (h : ∀ p, (t.procs p).map bare = (s.procs p).map bare) :
    Edited (fun _ a => a) s t := h

/-- Records are rewritten after links have changed, in a way that does not look at links. -/
theorem Edited.trans_exact (h : Edited f s s') (h' : Exact g s' t)
    (blind : ∀ p a b, bare a = bare b → bare (g p a) = bare (g p b)) :
    Edited (fun p a => g p (f p a)) s t := by
  intro p
  rw [h' p, Option.map_map]
  have k := h p
  generalize s.procs p = u at k ⊢
  generalize s'.procs p = v at k ⊢
  cases u with
  | none =>
    obtain rfl : v = none := by simpa using k
    rfl
  | some a =>
    cases v with
    | none => simp at k
    | some b => exact congrArg some (blind p b (f p a) (Option.some.inj k))

theorem bare_eq (h : bare a = bare b) : a = { b with next := a.next } := by
  calc a = { bare a with next := a.next } := rfl
    _ = { b with next := a.next } := by rw [h]; rfl

theorem upon_blind {g : ProcessCDT → ProcessCDT}
    (blind : ∀ a b, bare a = bare b → bare (g a) = bare (g b)) (p : Ptr) (a b : ProcessCDT)
    (h : bare a = bare b) : bare (upon d g p a) = bare (upon d g p b) := by
  unfold upon
  split
  · exact blind a b h
  · exact h

theorem setState_blind (st : States) (a b : ProcessCDT) (h : bare a = bare b) :
    bare (setState st a) = bare (setState st b) := by
  rw [bare_eq h]
  rfl

theorem take_blind (a b : ProcessCDT) (h : bare a = bare b) : bare (take a) = bare (take b) := by
  rw [bare_eq h]
  unfold take
  dsimp only
  split_ifs <;> rfl

theorem onParent_blind {g : ProcessCDT → ProcessCDT}
    (blind : ∀ a b, bare a = bare b → bare (g a) = bare (g b)) (p : Ptr) (a b : ProcessCDT)
    (h : bare a = bare b) : bare (onParent g s nodes r p a) = bare (onParent g s nodes r p b) := by
  unfold onParent
  split
  · exact blind a b h
  · exact h

/-- What the move of `unblockFirst` writes: links, and the turn of the current process. -/
theorem moveAfterCurrent_edited (hl : Listed s nodes) (hd : d ∈ nodes)
    (hc : s.current = .ok (c, rc)) (run : moveAfterCurrent fuel d s = .ok t) :
    Edited (upon c useUp) s t := by
  obtain ⟨pre, post, rfl⟩ := List.append_of_mem hd
  obtain ⟨s1, s2, s3, r1, r2, r3, n, last, h1, h2, rfl, h3, rfl, h4, rfl⟩ :=
    moveAfterCurrent_writes hl (current_ok.mp hc).1 run
  obtain ⟨-, re, -, -⟩ := removeProcess_listed hl h1
  have turn : Exact (upon c useUp) s1 (s1.put c (useUp r1)) := exact_put h2 useUp
  have k := Edited.trans_exact (.of_bare re.procs) turn
    (upon_blind fun a b h => by rw [bare_eq h]; rfl)
  intro q
  exact (put_bare h4 (by rfl) q).trans ((put_bare h3 (by rfl) q).trans (k q))

theorem Edited.pidOf_eq (h : Edited f s t) (same : ∀ p a, (f p a).pid = a.pid) (p : Ptr) :
    pidOf t p = pidOf s p := by
  have k := congrArg (Option.map ProcessCDT.pid) (h p)
  rw [Option.map_map, Option.map_map] at k
  refine Eq.trans (show pidOf t p = _ from k) ?_
  unfold pidOf
  exact congrArg (fun g => Option.map g (s.procs p)) (funext fun a => same p a)

/-- What `unblockFirst` writes. -/
theorem unblockFirst_edited (h : Sound s nodes) (hc : s.current = .ok (c, rc))
    (run : unblockFirst fuel pid s = .ok (x, t)) :
    (x = .ret EXIT_FAILURE ∧ t = s ∧
      ∀ d r, Found s nodes pid d → s.procs d = some r → r.state = .dead) ∨
    ∃ d r nodes', Found s nodes pid d ∧ s.procs d = some r ∧ r.state ≠ .dead ∧
      x = .forceTimer ∧ Listed t nodes' ∧
      (∀ q, q ∈ nodes' ↔ q ∈ nodes ∧ (q ≠ d ∨ (c ∈ nodes ∧ c ≠ d))) ∧
      Edited (fun p a => onParent take s nodes' r p (upon d (setState .ready) p
        (upon c useUp p a))) s t := by
  rcases unblockFirst_steps h.listed run with ⟨rfl, rfl, dead⟩ | ⟨d, hd, r, s1, r1, parent, prev,
    hr, hpid, hdead, rfl, h1, hr1, hsp, hs2⟩
  · exact .inl ⟨rfl, rfl, fun d r hd hr => Found.dead dead hd hr⟩
  replace hd : Found s nodes pid d := ⟨hd, hpid ▸ pidOf_of hr⟩
  obtain ⟨nodes', hl1, -, -, members, r', r1', hr', hr1', ppid, foreground⟩ :=
    Parents.moveAfterCurrent_members h hc hd.1 h1
  obtain rfl := Option.some.inj (hr.symm.trans hr')
  obtain rfl := Option.some.inj (hr1.symm.trans hr1')
  have k1 := moveAfterCurrent_edited h.listed hd.1 hc h1
  have k2 : Exact (upon d (setState .ready)) s1 (s1.put d { r1 with state := .ready }) :=
    exact_put hr1 (setState .ready)
  have hl2 := (setState_touched hr1 .ready).listed hl1
  have k3 := ifForeground_exact (r := r1) hl2 hsp (fun _ => rfl)
    (fun _ _ => takeForeground_exact) hs2
  have same : ∀ p, pidOf (s1.put d { r1 with state := .ready }) p = pidOf s p := fun p =>
    (k2.pidOf_eq fun p a => upon_pid (g := setState .ready) (fun _ => rfl) p a).trans
      (k1.pidOf_eq (fun p a => upon_pid (g := useUp) (fun _ => rfl) p a) p)
  have who : onParent take (s1.put d { r1 with state := .ready }) nodes' r1 =
      onParent take s nodes' r := by
    funext p a
    refine if_congr ?_ rfl rfl
    rw [found_congr same, ppid, foreground]
  rw [who] at k3
  refine .inr ⟨d, r, nodes', hd, hr, hdead, rfl, ?_, members, ?_⟩
  · exact (ifForeground_touched (A := fun _ => False) (B := fun _ => False)
      (fun _ => takeForeground_touched) hs2).listed hl2
  · exact Edited.trans_exact (k1.trans_exact k2 (upon_blind (setState_blind .ready))) k3
      (onParent_blind take_blind)

/-- The first process is moved only if it is the one named. -/
theorem moveAfterCurrent_first (hl : Listed s nodes) (hd : d ∈ nodes)
    (hc : s.current = .ok (c, rc)) (other : s.firstProcess ≠ some d)
    (run : moveAfterCurrent fuel d s = .ok t) : t.firstProcess = s.firstProcess := by
  obtain ⟨pre, post, rfl⟩ := List.append_of_mem hd
  obtain ⟨s1, s2, s3, r1, r2, r3, n, last, h1, -, rfl, -, rfl, -, rfl⟩ :=
    moveAfterCurrent_writes hl (current_ok.mp hc).1 run
  change s1.firstProcess = s.firstProcess
  obtain ⟨r, -, ⟨rfl, -⟩ | ⟨pre, q, a, rfl, -, rfl⟩⟩ := removeProcess_cases hl h1
  · exact absurd (linked_head hl.linked) other
  · rfl

theorem unblockFirst_first (hl : Listed s nodes) (hc : s.current = .ok (c, rc))
    (other : ∀ d, s.firstProcess = some d → pidOf s d ≠ some pid)
    (run : unblockFirst fuel pid s = .ok (x, t)) : t.firstProcess = s.firstProcess := by
  rcases unblockFirst_steps hl run with ⟨-, rfl, -⟩ | ⟨d, hd, r, s1, r1, parent, prev, hr, hpid, -,
    -, h1, -, -, h2⟩
  · rfl
  have taken : Touched (fun _ => False) (fun _ => False) (s1.put d { r1 with state := .ready }) t :=
    ifForeground_touched (fun _ => takeForeground_touched) h2
  have moved := moveAfterCurrent_first hl hd hc (fun e => other d e (hpid ▸ pidOf_of hr)) h1
  exact taken.first.trans moved

/-- Idle is blocked when it has been left. -/
def quiet (s : Sched) (nodes : List Ptr) (p : Ptr) (a : ProcessCDT) : ProcessCDT :=
  if s.idleFlag = 0 ∧ Found s nodes IDLE_PID p ∧ a.state ≠ .dead then setState .blocked a else a

theorem blockIdle_exact (h : Sound s nodes) (hc : s.current = .ok (c, rc))
    (busy : rc.pid ≠ IDLE_PID)
    (run : blockIdle fuel (s.idleFlag = 0) s = .ok t) : Exact (quiet s nodes) s t := by
  unfold blockIdle at run
  have still (n : ∀ p a, s.procs p = some a →
      ¬ (s.idleFlag = 0 ∧ Found s nodes IDLE_PID p ∧ a.state ≠ .dead)) :
    Exact (quiet s nodes) s s :=
    (Exact.refl s).congr fun p a ha => (if_neg (n p a ha)).symm
  split at run <;> rename_i hf
  · have flag : s.idleFlag = 0 := of_decide_eq_true hf
    obtain ⟨⟨e, s1⟩, h1, run1⟩ := bind_ok.mp run
    obtain rfl := Except.ok.inj run1
    rcases block_exact h.listed h1 with ⟨-, rfl, dead⟩ | ⟨d, r, c', rc', hd, hr, alive, hc', -, k⟩
    · exact still fun p a ha n => n.2.2 (dead p a n.2.1 ha)
    · obtain ⟨rfl, rfl⟩ := Prod.mk.inj (Except.ok.inj (hc.symm.trans hc'))
      have hpid : r.pid = IDLE_PID := Option.some.inj ((pidOf_of hr).symm.trans hd.2)
      refine k.congr fun p a ha => ?_
      rw [if_neg fun e : IDLE_PID = rc.pid => busy e.symm]
      unfold onParent upon quiet
      rw [if_neg fun n => n.1 (h.background d r hr hpid).1]
      by_cases hp : p = d
      · rw [hp, hr] at ha
        obtain rfl := Option.some.inj ha
        rw [if_pos hp, hp, if_pos ⟨flag, hd, alive⟩]
        rfl
      · rw [if_neg hp, if_neg fun n => hp (Found.unique h.listed n.2.1 hd)]
        rfl
  · have flag : s.idleFlag ≠ 0 := fun e => hf (decide_eq_true e)
    obtain rfl := Except.ok.inj run
    exact still fun p a _ n => flag n.1

/-- What appending writes: the new record, and a link. -/
theorem appendProcess_edited (hl : Listed s nodes) (free : s.procs p = none)
    (run : appendProcess p (s.put p r) = .ok t) :
    t.procs p = some r ∧ ∀ q, q ≠ p → (t.procs q).map bare = (s.procs q).map bare := by
  have apart : ∀ q, q ≠ p → ((s.put p r).procs q).map bare = (s.procs q).map bare := by
    intro q hq
    rw [put_procs, if_neg hq]
  rcases appendProcess_cases hl free run with ⟨-, rfl⟩ | ⟨init, l, a, -, hlp, ha, rfl⟩
  · exact ⟨by simp, apart⟩
  · refine ⟨by simp [hlp.symm], fun q hq => ?_⟩
    have there : (s.put p r).procs l = some a := by rw [put_procs, if_neg hlp, ha]
    exact (put_bare there (by rfl) q).trans (apart q hq)

/-- What `enqueueProcess` writes. -/
theorem enqueueProcess_edited {nullPid foreground : Int} {fd : Option Ptr} {m : Mallocs}
    (h : Sound s nodes) (hc : s.current = .ok (c, rc)) (busy : rc.pid ≠ IDLE_PID)
    (run : enqueueProcess fuel nullPid foreground fd m s = .ok (pid, t)) :
    ∃ p fd' auxi aux, m.process = some p ∧ m.stack = some auxi ∧ s.procs p = none ∧
      t.procs p = some (made s.pids rc.pid foreground fd' auxi aux) ∧
      ∀ q, q ≠ p → (t.procs q).map bare =
        (s.procs q).map fun a => bare (upon c (adopt foreground) q (quiet s nodes q a)) := by
  obtain ⟨fd', p, auxi, aux, s1, ppid, s2, -, hm, hst, -, hb, ha, free, -, -, happ⟩ :=
    enqueueProcess_steps run
  obtain ⟨hcur, hrc⟩ := current_ok.mp hc
  have k1 := blockIdle_exact h hc busy hb
  obtain ⟨t1, -⟩ := blockIdle_touched h.listed hb
  -- the parent is not idle
  have hrc1 : s1.procs c = some rc := by
    rw [k1.of hrc]
    refine congrArg some (if_neg fun n => busy ?_)
    exact Option.some.inj ((pidOf_of hrc).symm.trans n.2.1.2)
  unfold adoptCurrent at ha
  rw [t1.current, hcur] at ha
  simp only [load_of hrc1, ok_bind, pure_ok] at ha
  obtain ⟨rfl, rfl⟩ := Prod.mk.inj (Except.ok.inj ha)
  have k2 : Exact (upon c (adopt foreground)) s1 (s1.put c (adopt foreground rc)) :=
    exact_put hrc1 (adopt foreground)
  have k := k1.trans k2
  have t2 : Touched (IsIdle s) (fun x => IsIdle s x ∧ s.currentProcess = some x) s1
      (s1.put c (adopt foreground rc)) := by
    have run2 : adoptCurrent nullPid foreground s1 =
        .ok (rc.pid, s1.put c (adopt foreground rc)) := by
      simp [adoptCurrent, t1.current, hcur, load_of hrc1]
    exact adoptCurrent_touched run2
  have hl2 := t2.listed (t1.listed h.listed)
  have hl3 : Listed { s1.put c (adopt foreground rc) with pids := int32 (s1.pids + 1) } nodes :=
    ⟨hl2.linked, hl2.pids, hl2.last⟩
  obtain ⟨hp, others⟩ := appendProcess_edited hl3 free happ
  refine ⟨p, fd', auxi, aux, hm, hst, ?_, ?_, fun q hq => ?_⟩
  · exact (t1.trans t2).none.mp free
  · rw [hp]
    exact congrArg (fun n => some (made n rc.pid foreground fd' auxi aux)) t1.pids
  · rw [others q hq, k q, Option.map_map]
    rfl

theorem unblockIoFrom_exact {aux : Option Ptr} (hl : Linked (link s) aux nodes none)
    (nodup : nodes.Nodup) (run : unblockIoFrom fuel aux s = .ok t) :
    Exact (fun p a => if p ∈ nodes ∧ a.state = .blockedIo then setState .ready a else a) s t := by
  induction nodes generalizing fuel aux s with
  | nil =>
    obtain rfl : aux = none := hl
    cases fuel with
    | zero => cases run
    | succ fuel =>
      obtain rfl := Except.ok.inj run
      exact (Exact.refl s).congr fun p a _ => by simp
  | cons x nodes ih =>
    obtain ⟨rfl, n, hn, hl⟩ := hl
    obtain ⟨hx, nodup⟩ := List.nodup_cons.mp nodup
    cases fuel with
    | zero => cases run
    | succ fuel =>
      obtain ⟨r, hr, run1⟩ := bind_ok.mp run
      rw [load_ok] at hr
      obtain rfl : r.next = n := Option.some.inj ((link_of hr).symm.trans hn)
      -- the first record, then the rest
      have one : Exact (upon x fun a => if a.state = .blockedIo then setState .ready a else a) s
          (if r.state = .blockedIo then s.put x { r with state := .ready } else s) := by
        split <;> rename_i hst
        · refine (exact_put hr (setState .ready)).congr fun p a ha => ?_
          unfold upon
          split <;> rename_i hp
          · rw [hp, hr] at ha
            obtain rfl := Option.some.inj ha
            exact (if_pos hst).symm
          · rfl
        · refine (Exact.refl s).congr fun p a ha => ?_
          unfold upon
          split <;> rename_i hp
          · rw [hp, hr] at ha
            obtain rfl := Option.some.inj ha
            exact (if_neg hst).symm
          · rfl
      have links : ∀ p ∈ nodes,
          link (if r.state = .blockedIo then s.put x { r with state := .ready } else s) p =
            link s p := by
        intro p hp
        have hpx : p ≠ x := fun e => hx (e ▸ hp)
        split
        · simp [link, hpx]
        · rfl
      refine (one.trans (ih (linked_congr links hl) nodup run1)).congr fun p a ha => ?_
      unfold upon
      by_cases hp : p = x
      · rw [if_pos hp]
        by_cases hst : a.state = .blockedIo
        · simp [hp, hx, hst]
        · simp [hp, hx, hst]
      · simp [hp]

/-- What `unblockIo` writes. -/
theorem unblockIo_exact (hl : Listed s nodes) (run : unblockIo fuel s = .ok t) :
    Exact (fun p a => if p ∈ nodes ∧ a.state = .blockedIo then setState .ready a else a) s t :=
  unblockIoFrom_exact hl.linked hl.nodup run

/-- What the loop of `nextProcess` leaves of a record: its link may change, and idle may be
READY. -/
def Passed (s s' : Sched) : Prop := ∀ p b, s'.procs p = some b → ∃ a, s.procs p = some a ∧
  (bare b = bare a ∨ (a.pid = IDLE_PID ∧ a.state ≠ .dead ∧ bare b = bare (setState .ready a)))

theorem Passed.refl (s : Sched) : Passed s s := fun _ b hb => ⟨b, hb, .inl rfl⟩

theorem Passed.trans (h : Passed s s') (h' : Passed s' t) : Passed s t := by
  intro p c hc
  obtain ⟨b, hb, k'⟩ := h' p c hc
  obtain ⟨a, ha, k⟩ := h p b hb
  refine ⟨a, ha, ?_⟩
  rcases k with e | ⟨idle, alive, e⟩
  · rcases k' with e' | ⟨idle, alive, e'⟩
    · exact .inl (e'.trans e)
    · have pid : (bare b).pid = (bare a).pid := congrArg ProcessCDT.pid e
      have state : (bare b).state = (bare a).state := congrArg ProcessCDT.state e
      exact .inr ⟨pid.symm.trans idle, fun n => alive (state.trans n),
        e'.trans (setState_blind .ready b a e)⟩
  · rcases k' with e' | ⟨-, -, e'⟩
    · exact .inr ⟨idle, alive, e'.trans e⟩
    · exact .inr ⟨idle, alive, e'.trans (setState_blind .ready b (setState .ready a) e)⟩

theorem Passed.of_bare (h : ∀ p, (s'.procs p).map bare = (s.procs p).map bare) : Passed s s' := by
  intro p b hb
  obtain ⟨a, ha, e⟩ := Edited.old (Edited.of_bare h) hb
  exact ⟨a, ha, .inl e⟩

theorem pass_passed {steps : Nat} (h : Sound s nodes) (pass : Pass steps s s') : Passed s s' := by
  cases pass with
  | rewind hc => exact .refl s
  | @wake c r x t hc asleep back run =>
    have h0 : Sound { s with idleFlag := 1 } nodes := h.of_eq rfl rfl rfl rfl
    have rest : ∀ p r, s.procs p = some r → r.pid = IDLE_PID → r.foreground = 0 :=
      fun p r hr hp => (h.background p r hr hp).1
    rcases unblock_background h0 rest run with rfl | ⟨d, -, rd, hrd, hpid, alive, rfl⟩
    · exact .refl s
    · intro p b hb
      change (Sched.put { s with idleFlag := 1 } d { rd with state := .ready }).procs p = _ at hb
      rw [put_procs] at hb
      split at hb <;> rename_i hp
      · obtain rfl := Option.some.inj hb
        exact ⟨rd, hp ▸ hrd, .inr ⟨hpid, alive, rfl⟩⟩
      · exact ⟨b, hb, .inl rfl⟩
  | @reap c r t hc dead run =>
    obtain ⟨pre, post, rfl⟩ := h.split_dead (current_ok.mp hc).2 dead
    have h0 : Sound { s with currentProcess := r.next } (pre ++ c :: post) :=
      h.of_eq rfl rfl rfl rfl
    obtain ⟨-, re, -, -⟩ := removeProcess_listed h0.listed run
    intro p b hb
    rw [free_procs] at hb
    split at hb
    · cases hb
    · exact Passed.of_bare (s := { s with currentProcess := r.next }) re.procs p b hb
  | skip hc asleep alive fresh => exact .refl s

theorem passes_passed {steps : Nat} (h : Sound s nodes) (live : SchedRuns.Cursor s)
    (passes : Passes steps s s') : Passed s s' := by
  induction passes with
  | refl => exact .refl s
  | tail before pass ih =>
    obtain ⟨nodes₁, k⟩ := passes_spun h live before
    exact ih.trans (pass_passed k.sound pass)

/-- The fields that turns depend on are the same. -/
def Like (a b : ProcessCDT) : Prop :=
  b.state = a.state ∧ b.priority = a.priority ∧ b.executions = a.executions

theorem Like.refl (a : ProcessCDT) : Like a a := ⟨rfl, rfl, rfl⟩

theorem Like.trans {a b c : ProcessCDT} (h : Like a b) (h' : Like b c) : Like a c :=
  ⟨h'.1.trans h.1, h'.2.1.trans h.2.1, h'.2.2.trans h.2.2⟩

theorem Like.bare (h : bare b = bare a) : Like a b := by
  rw [bare_eq h]
  exact ⟨rfl, rfl, rfl⟩

theorem like_give (a : ProcessCDT) : Like a (give a) := by
  unfold give
  split <;> exact ⟨rfl, rfl, rfl⟩

theorem like_take (a : ProcessCDT) : Like a (take a) := by
  unfold take
  split <;> exact ⟨rfl, rfl, rfl⟩

theorem like_onParent {g : ProcessCDT → ProcessCDT} (like : ∀ a, Like a (g a)) (p : Ptr)
    (a : ProcessCDT) : Like a (onParent g s nodes r p a) := by
  unfold onParent
  split
  · exact like a
  · exact .refl a

theorem like_upon {g : ProcessCDT → ProcessCDT} (a : ProcessCDT) (other : p ≠ d) :
    Like a (upon d g p a) := by
  unfold upon
  rw [if_neg other]
  exact .refl a

/-- A parent that does not wait keeps its state. -/
theorem like_orphan {foreground : Int} (awake : a.state ≠ .waiting) :
    Like a (orphan foreground a) := by
  unfold orphan
  dsimp only
  split_ifs <;> simp_all [Like]

theorem Edited.like (k : Edited f s t) (ha : s.procs p = some a) (like : Like a (f p a)) :
    ∃ b, t.procs p = some b ∧ Like a b := by
  obtain ⟨b, hb, same⟩ := k.new ha
  exact ⟨b, hb, like.trans (.bare same)⟩

end

end BottlerOS.Effects
