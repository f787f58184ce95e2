import BottlerOS.Dispatch

/-! Which process `nextProcess` dispatches. Its loop walks the list in turn order
and drops the DEAD records it meets; a full round without a READY process is
noticed at the first blocked record met, and then idle is made READY. -/

namespace BottlerOS.RoundRobin
open Machine Scheduler LinkedList ProcessList ProcessFields ProcessLinks Dispatch

/-- The records of a list that are not DEAD. -/
def alive (s : Sched) (p : Ptr) : Bool := stateOf s p ≠ some .dead

def ready (s : Sched) (p : Ptr) : Bool := stateOf s p = some .ready

/-- The idle process as `initScheduler` makes it: in the background, and not DEAD. -/
def Background (s : Sched) (i : Ptr) : Prop :=
  ∃ r, s.procs i = some r ∧ r.pid = IDLE_PID ∧ r.state ≠ .dead ∧ r.foreground = 0

section
variable {s s' s1 : Sched} {nodes A Z P R S seg : List Ptr} {steps k n : Nat} {p b i x : Ptr}
  {r : ProcessCDT}

theorem head?_mem_left {x : Ptr} {xs : List Ptr} (h : xs.head? = some x) : x ∈ xs :=
  List.mem_of_mem_head? h

theorem bare_stateOf (h : (s'.procs p).map bare = (s.procs p).map bare) :
    stateOf s' p = stateOf s p := by
  have h' := congrArg (Option.map (·.state)) h
  simpa [Option.map_map, Function.comp_def, bare, stateOf] using h'

theorem Background.of_bare (h : Background s i)
    (same : (s'.procs i).map bare = (s.procs i).map bare) : Background s' i := by
  obtain ⟨r, hr, hpid, hlive, hback⟩ := h
  rw [hr] at same
  obtain ⟨r', hr', hbare⟩ := Option.map_eq_some_iff.mp same
  have hp : r'.pid = r.pid := congrArg (·.pid) hbare
  have hs : r'.state = r.state := congrArg (·.state) hbare
  have hf : r'.foreground = r.foreground := congrArg (·.foreground) hbare
  exact ⟨r', hr', hp.trans hpid, fun e => hlive (hs.symm.trans e), hf.trans hback⟩

theorem Background.mem_filter (h : Background s i) (hi : i ∈ A ++ seg ++ Z) :
    i ∈ A ++ seg.filter (alive s) ++ Z := by
  obtain ⟨r, hr, -, hlive, -⟩ := h
  have live : alive s i = true := by simp [alive, stateOf, hr, hlive]
  simp only [List.mem_append, List.mem_filter] at hi ⊢
  tauto

/-- The loop at one record that is not READY. -/
theorem walk_one (hl : Listed s (A ++ x :: Z)) (enough : (A ++ x :: Z).length < steps)
    (hc : s.currentProcess = some x) (wait : ready s x = false)
    (hb : s.firstBlockedIteration ≠ some x) :
    ∃ s', (∀ fuel, nextProcessLoop steps (fuel + 1) s = nextProcessLoop steps fuel s') ∧
      Listed s' (A ++ [x].filter (alive s) ++ Z) ∧ s'.currentProcess = Z.head? ∧
      s'.firstBlockedIteration = s.firstBlockedIteration.or ([x].filter (alive s)).head? ∧
      ∀ p ∈ A ++ [x].filter (alive s) ++ Z, (s'.procs p).map bare = (s.procs p).map bare := by
  obtain ⟨r, hr⟩ := hl.record (p := x) (by simp)
  have hnext := hl.next hr
  have hready : r.state ≠ .ready := by simpa [ready, stateOf, hr] using wait
  have hb' : ¬ some x = s.firstBlockedIteration := fun e => hb e.symm
  by_cases hdead : r.state = .dead
  · have hfilter : [x].filter (alive s) = [] := by simp [alive, stateOf, hr, hdead]
    have hl0 : Listed { s with currentProcess := r.next } (A ++ x :: Z) :=
      ⟨hl.linked, hl.pids, hl.last⟩
    obtain ⟨s1, h1⟩ := removeProcess_total hl0 enough
    obtain ⟨hl1, re, -, -⟩ := removeProcess_listed hl0 h1
    have gone : Reaped (fun _ => False) (A ++ x :: Z) (A ++ Z) { s with currentProcess := r.next }
        (s1.free x) := removeProcess_reaped hl0 ((stateOf_of (s := { s with
          currentProcess := r.next }) hr).trans (by rw [hdead])) h1
    refine ⟨s1.free x, fun fuel => ?_, ?_, ?_, ?_, fun p hp => ?_⟩
    · simp [nextProcessLoop, hc, load, hr, hb', hdead, h1]
    · rw [hfilter]
      simpa using gone.listed
    · exact re.current.trans hnext
    · rw [hfilter, List.head?_nil, Option.or_none]
      exact re.blocked
    · rw [hfilter] at hp
      have hpx : p ≠ x := by
        rintro rfl
        have h := hl.nodup
        rw [List.nodup_middle] at h
        exact (List.nodup_cons.mp h).1 (by simpa using hp)
      rw [free_procs, if_neg hpx]
      exact re.procs p
  · have hfilter : [x].filter (alive s) = [x] := by simp [alive, stateOf, hr, hdead]
    refine ⟨{ s with
      firstBlockedIteration := s.firstBlockedIteration.or (some x)
      currentProcess := r.next }, fun fuel => ?_, ?_, hnext, ?_, fun p _ => rfl⟩
    · simp [nextProcessLoop, hc, load, hr, hready, hb', hdead]
    · rw [hfilter]
      have hl' : Listed s (A ++ [x] ++ Z) := by simpa using hl
      exact ⟨hl'.linked, hl'.pids, hl'.last⟩
    · rw [hfilter]
      rfl

/-- The loop over records that are not READY, none of which is the first blocked one. -/
theorem walk_segment (hl : Listed s (A ++ seg ++ Z)) (enough : (A ++ seg ++ Z).length < steps)
    (hc : s.currentProcess = (seg ++ Z).head?) (wait : ∀ x ∈ seg, ready s x = false)
    (hb : ∀ b, s.firstBlockedIteration = some b → b ∉ seg) :
    ∃ s', (∀ fuel, nextProcessLoop steps (fuel + seg.length) s = nextProcessLoop steps fuel s') ∧
      Listed s' (A ++ seg.filter (alive s) ++ Z) ∧ s'.currentProcess = Z.head? ∧
      s'.firstBlockedIteration = s.firstBlockedIteration.or (seg.filter (alive s)).head? ∧
      ∀ p ∈ A ++ seg.filter (alive s) ++ Z, (s'.procs p).map bare = (s.procs p).map bare := by
  induction seg generalizing A s with
  | nil =>
    refine ⟨s, fun fuel => rfl, hl, hc, ?_, fun p _ => rfl⟩
    simp
  | cons x seg ih =>
    have hl' : Listed s (A ++ x :: (seg ++ Z)) := by simpa using hl
    obtain ⟨s1, h1, hl1, hc1, hb1, same1⟩ := walk_one hl' (by simpa using enough)
      (by simpa using hc) (wait x (by simp)) (fun e => hb x e (by simp))
    have hl1' : Listed s1 ((A ++ [x].filter (alive s)) ++ seg ++ Z) := by simpa using hl1
    have hnodup := hl.nodup
    have hx : x ∉ seg := by
      have h := hl'.nodup
      rw [List.nodup_middle] at h
      exact fun h' => (List.nodup_cons.mp h).1 (by simp [h'])
    have same : ∀ p ∈ seg, stateOf s1 p = stateOf s p := fun p hp =>
      bare_stateOf (same1 p (by simp [hp]))
    have hfilter : seg.filter (alive s1) = seg.filter (alive s) :=
      List.filter_congr fun p hp => by rw [alive, alive, same p hp]
    have short : ([x].filter (alive s)).length ≤ 1 := List.length_filter_le _ [x]
    obtain ⟨s2, h2, hl2, hc2, hb2, same2⟩ := ih hl1'
      (by
        simp only [List.length_append, List.length_cons] at enough ⊢
        omega)
      hc1 (fun p hp => by rw [ready, same p hp]; exact wait p (by simp [hp]))
      (fun b hb' => by
        rw [hb1] at hb'
        cases hfb : s.firstBlockedIteration with
        | none =>
          rw [hfb, Option.none_or] at hb'
          have hmem := (List.mem_filter.mp (head?_mem_left hb')).1
          rw [List.mem_singleton.mp hmem]
          exact hx
        | some f =>
          rw [hfb, Option.some_or] at hb'
          obtain rfl := Option.some.inj hb'
          exact fun h => hb f hfb (by simp [h]))
    have hcons : (x :: seg).filter (alive s) = [x].filter (alive s) ++ seg.filter (alive s) := by
      rw [← List.filter_append]
      rfl
    refine ⟨s2, fun fuel => ?_, ?_, hc2, ?_, fun p hp => ?_⟩
    · rw [List.length_cons, ← Nat.add_assoc, h1, h2]
    · rw [hcons]
      rw [hfilter] at hl2
      simpa using hl2
    · rw [hb2, hb1, hfilter, hcons, List.head?_append, Option.or_assoc]
    · rw [hcons] at hp
      rw [same2 p (by rw [hfilter]; simpa using hp)]
      refine same1 p ?_
      simp only [List.append_assoc, List.mem_append, List.mem_filter] at hp ⊢
      tauto

/-- `k` passes and more of the loop end at `q`, with the idle process `i` in the background. -/
def Finds (steps k : Nat) (i : Ptr) (s : Sched) (q : Ptr) : Prop :=
  ∀ fuel, ∃ s', nextProcessLoop steps (fuel + k) s = .ok s' ∧ s'.currentProcess = some q ∧
    Background s' i

theorem Finds.step {q : Ptr} (h : ∀ fuel, nextProcessLoop steps (fuel + n) s =
    nextProcessLoop steps fuel s1) (found : Finds steps k i s1 q) : Finds steps (k + n) i s q := by
  intro fuel
  obtain ⟨s', h', hc⟩ := found fuel
  exact ⟨s', by rw [← Nat.add_assoc, h, h'], hc⟩

theorem finds_ready {q : Ptr} (hc : s.currentProcess = some q) (h : ready s q = true)
    (idle : Background s i) : Finds steps 1 i s q := by
  intro fuel
  cases hr : s.procs q with
  | none => simp [ready, stateOf, hr] at h
  | some r =>
    have hst : r.state = .ready := by simpa [ready, stateOf, hr] using h
    exact ⟨s, by simp [nextProcessLoop, hc, load, hr, hst], hc, idle⟩

/-- The loop stops at the first READY record ahead. -/
theorem finds_segment {q : Ptr} (hl : Listed s (A ++ seg ++ q :: Z))
    (enough : (A ++ seg ++ q :: Z).length < steps)
    (hc : s.currentProcess = (seg ++ q :: Z).head?) (wait : ∀ x ∈ seg, ready s x = false)
    (hb : ∀ b, s.firstBlockedIteration = some b → b ∉ seg) (h : ready s q = true)
    (hi : i ∈ A ++ seg ++ q :: Z) (idle : Background s i) :
    Finds steps (1 + seg.length) i s q := by
  obtain ⟨s1, h1, hl1, hc1, -, same⟩ := walk_segment hl enough hc wait hb
  refine Finds.step h1 (finds_ready (by simpa using hc1) ?_
    (idle.of_bare (same i (idle.mem_filter hi))))
  rw [ready, bare_stateOf (same q (by simp))]
  exact h

/-- At the end of the list the loop goes on from its start. -/
theorem restart (steps : Nat) (hl : Listed s nodes) (hc : s.currentProcess = none) :
    ∃ s', (∀ fuel, nextProcessLoop steps (fuel + 1) s = nextProcessLoop steps fuel s') ∧
      Listed s' nodes ∧ s'.currentProcess = nodes.head? ∧
      s'.firstBlockedIteration = s.firstBlockedIteration ∧ s'.procs = s.procs := by
  refine ⟨{ s with currentProcess := s.firstProcess }, fun fuel => ?_,
    ⟨hl.linked, hl.pids, hl.last⟩, by simpa using linked_head hl.linked, rfl, rfl⟩
  rw [nextProcessLoop, hc]

theorem split_first {f : Ptr → Bool} {xs : List Ptr} {q : Ptr} (h : xs.find? f = some q) :
    ∃ seg Z, xs = seg ++ q :: Z ∧ f q = true ∧ ∀ x ∈ seg, f x = false := by
  obtain ⟨hq, seg, Z, rfl, none⟩ := List.find?_eq_some_iff_append.mp h
  exact ⟨seg, Z, rfl, hq, fun x hx => by simpa using none x hx⟩

/-- Back at the first blocked record, idle is made READY. -/
theorem idle_woken (hl : Listed s (P ++ b :: R))
    (enough : (P ++ b :: R).length < steps) (hc : s.currentProcess = some b)
    (hb : s.firstBlockedIteration = some b) (wait : ready s b = false)
    (hi : i ∈ P ++ b :: R) (idle : Background s i) :
    ∃ s', (∀ fuel, nextProcessLoop steps (fuel + 1) s = nextProcessLoop steps fuel s') ∧
      Listed s' (P ++ b :: R) ∧ s'.currentProcess = R.head? ∧
      s'.firstBlockedIteration = some b ∧ ready s' i = true ∧ Background s' i ∧
      ∀ p, p ≠ i → stateOf s' p = stateOf s p := by
  obtain ⟨ri, hri, hpid, hlive, background⟩ := idle
  obtain ⟨r, hr⟩ := hl.record (p := b) (by simp)
  have hready : r.state ≠ .ready := by simpa [ready, stateOf, hr] using wait
  have hl0 : Listed { s with idleFlag := 1 } (P ++ b :: R) := ⟨hl.linked, hl.pids, hl.last⟩
  have only : ∀ p ∈ P ++ b :: R, ∀ rp, s.procs p = some rp → rp.pid = IDLE_PID → p = i := by
    intro p hp rp hrp hpp
    exact hl.pid_inj hp hi (by rw [pidOf_of hrp, pidOf_of hri, hpp, hpid])
  obtain ⟨⟨e, s1⟩, h1⟩ := unblock_total IDLE_PID hl0 enough (fun p hp rp hrp hpp _ hf => by
    obtain rfl := only p hp rp hrp hpp
    obtain rfl := Option.some.inj (hri.symm.trans hrp)
    exact absurd background hf)
  rcases unblock_cases hl0 h1 with ⟨-, dead⟩ | ⟨d, hd, rd, hrd, hpd, -, hst, t, exact1⟩
  · have h := dead i hi ((pidOf_of hri).trans (congrArg some hpid))
    rw [stateOf_of (s := { s with idleFlag := 1 }) hri] at h
    exact absurd (Option.some.inj h) hlive
  obtain rfl := only d hd rd hrd hpd
  refine ⟨{ s1 with currentProcess := r.next }, fun fuel => ?_, ?_, ?_, t.blocked.trans hb, ?_, ?_,
    fun p hp => t.stateOf_eq hp⟩
  · simp only [hc, hb] at h1
    simp [nextProcessLoop, hc, load, hr, hready, hb, h1]
  · exact ⟨(t.listed hl0).linked, (t.listed hl0).pids, (t.listed hl0).last⟩
  · exact hl.next hr
  · exact decide_eq_true hst
  · obtain rfl := Option.some.inj (hri.symm.trans hrd)
    rw [exact1 background]
    exact ⟨{ ri with state := .ready }, by simp, hpid, by simp, background⟩

/-- Past the first blocked record with idle READY, the loop ends at idle. -/
theorem finds_idle (hl : Listed s (P ++ b :: R)) (enough : (P ++ b :: R).length < steps)
    (hc : s.currentProcess = R.head?) (hb : s.firstBlockedIteration = some b)
    (hi : i ∈ P ++ b :: R) (idle : Background s i) (hready : ready s i = true)
    (wait : ∀ x ∈ P ++ b :: R, x ≠ i → ready s x = false) :
    ∃ k ≤ (P ++ b :: R).length + 2, Finds steps k i s i := by
  have hnodup := hl.nodup
  have hbR : b ∉ R := (List.nodup_cons.mp (List.nodup_append.mp hnodup).2.1).1
  have hbP : b ∉ P := fun h => (List.nodup_append.mp hnodup).2.2 b h b (by simp) rfl
  have before : ∀ {xs ys : List Ptr}, (xs ++ i :: ys).Nodup → i ∉ xs := fun h h' =>
    (List.nodup_append.mp h).2.2 i h' i (by simp) rfl
  by_cases hiR : i ∈ R
  · obtain ⟨seg, Z, rfl⟩ := List.append_of_mem hiR
    have hseg := before (List.nodup_cons.mp (List.nodup_append.mp hnodup).2.1).2
    have hl' : Listed s ((P ++ [b]) ++ seg ++ i :: Z) := by simpa using hl
    refine ⟨1 + seg.length, ?_, finds_segment hl' (by simpa using enough) hc
      (fun x hx => wait x (by simp [hx]) fun e => hseg (e ▸ hx)) (fun f hf => ?_) hready
      (by simp) idle⟩
    · simp only [List.length_append, List.length_cons]
      omega
    · obtain rfl := Option.some.inj (hb.symm.trans hf)
      exact fun h => hbR (by simp [h])
  · -- the rest of the list, then from its start
    have hl' : Listed s ((P ++ [b]) ++ R ++ []) := by simpa using hl
    obtain ⟨s1, h1, hl1, hc1, hb1, same⟩ := walk_segment hl' (by simpa using enough)
      (by simpa using hc) (fun x hx => wait x (by simp [hx]) fun e => hiR (e ▸ hx)) (fun f hf => by
        obtain rfl := Option.some.inj (hb.symm.trans hf)
        exact hbR)
    obtain ⟨s2, h2, hl2, hc2, hb2, procs2⟩ := restart steps hl1 hc1
    have hiP : i ∈ P ++ [b] := by
      have h : i ∈ (P ++ [b]) ++ R := by simpa using hi
      exact (List.mem_append.mp h).resolve_right hiR
    obtain ⟨seg, Z, hseg⟩ := List.append_of_mem hiP
    have hbseg : b ∉ seg := by
      intro h
      obtain ⟨T, hT⟩ : ∃ T, P = seg ++ T := by
        rw [List.append_eq_append_iff] at hseg
        rcases hseg with ⟨a, rfl, ha⟩ | ⟨a, rfl, ha⟩
        · have hb0 : b ∈ a := (List.mem_append.mp h).resolve_left hbP
          cases a with
          | nil => simp at hb0
          | cons y a => simp at ha
        · exact ⟨a, rfl⟩
      exact hbP (by simp [hT, h])
    have hiseg : i ∉ seg := by
      have nodup : (seg ++ i :: Z).Nodup := by
        rw [← hseg]
        exact (List.nodup_append.mp hl'.nodup).1 |> List.nodup_append.mp |>.1
      exact before nodup
    rw [hseg] at hl2 hc2
    have hl2' : Listed s2 ([] ++ seg ++ i :: (Z ++ R.filter (alive s))) := by simpa using hl2
    have lenR : (R.filter (alive s)).length ≤ R.length := List.length_filter_le _ R
    have lenP := congrArg List.length hseg
    simp only [List.length_append, List.length_cons, List.length_nil] at lenP enough
    have stay : ∀ x ∈ P ++ [b], ready s2 x = ready s x := by
      intro x hx
      have h : stateOf s1 x = stateOf s x := bare_stateOf (same x (by simp at hx ⊢; tauto))
      rw [ready, ready, ← h, stateOf, stateOf, procs2]
    have enough2 : ([] ++ seg ++ i :: (Z ++ R.filter (alive s))).length < steps := by
      simp only [List.length_append, List.length_cons, List.length_nil]
      omega
    have found := finds_segment hl2' enough2 (by simpa using hc2)
      (fun x hx => by
        have hx' : x ∈ P ++ [b] := by simp [hseg, hx]
        rw [stay x hx']
        exact wait x (by simp at hx' ⊢; tauto) fun e => hiseg (e ▸ hx))
      (fun f hf => by
        rw [hb2, hb1, hb, Option.some_or] at hf
        obtain rfl := Option.some.inj hf
        exact hbseg)
      (by rw [stay i hiP]; exact hready) (by simp)
      (idle.of_bare (by rw [procs2, same i (by simp at hiP ⊢; tauto)]))
    refine ⟨_, ?_, (found.step h2).step h1⟩
    simp only [List.length_append, List.length_cons]
    omega

/-- A full round without a READY record, then the first blocked record again, then idle. -/
theorem finds_none (hl : Listed s (P ++ b :: R)) (enough : (P ++ b :: R).length < steps)
    (hc : s.currentProcess = some b) (hb : s.firstBlockedIteration = some b)
    (wait : ∀ x ∈ P ++ b :: R, ready s x = false) (hi : i ∈ P ++ b :: R)
    (idle : Background s i) : ∃ k ≤ (P ++ b :: R).length + 3, Finds steps k i s i := by
  obtain ⟨s1, h1, hl1, hc1, hb1, hready, idle1, other⟩ :=
    idle_woken hl enough hc hb (wait b (by simp)) hi idle
  obtain ⟨k, hk, found⟩ := finds_idle hl1 enough hc1 hb1 hi idle1 hready (fun x hx hxi => by
    rw [ready, other x hxi]
    exact wait x hx)
  exact ⟨k + 1, by omega, found.step h1⟩

/-- The loop from the start of the list, when nothing in `S` is READY and the first of `S`, if
there is one, is the first blocked record. -/
theorem finds_secondRound (hl : Listed s (A ++ S)) (enough : (A ++ S).length < steps)
    (hc : s.currentProcess = (A ++ S).head?) (hb : s.firstBlockedIteration = S.head?)
    (wait : ∀ x ∈ S, ready s x = false) (hi : i ∈ A ++ S) (idle : Background s i) :
    ∃ k ≤ 2 * (A ++ S).length + 4, Finds steps k i s ((A.find? (ready s)).getD i) := by
  have apart : ∀ f, s.firstBlockedIteration = some f → f ∉ A := fun f hf hA => by
    rw [hb] at hf
    exact (List.nodup_append.mp hl.nodup).2.2 f hA f (head?_mem_left hf) rfl
  cases hA : A.find? (ready s) with
  | some q =>
    obtain ⟨seg, Z, rfl, hq, waitA⟩ := split_first hA
    have hl' : Listed s ([] ++ seg ++ q :: (Z ++ S)) := by simpa using hl
    refine ⟨_, ?_, finds_segment hl' (by simpa using enough) (by simpa using hc) waitA
      (fun f hf h => apart f hf (by simp [h])) hq (by simpa using hi) idle⟩
    simp only [List.length_append, List.length_cons]
    omega
  | none =>
    rw [Option.getD_none]
    have waitA : ∀ x ∈ A, ready s x = false := fun x hx => by
      simpa using List.find?_eq_none.mp hA x hx
    have hl' : Listed s ([] ++ A ++ S) := by simpa using hl
    obtain ⟨s1, h1, hl1, hc1, hb1, same⟩ := walk_segment hl' (by simpa using enough) hc waitA apart
    have lenA : (A.filter (alive s)).length ≤ A.length := List.length_filter_le _ A
    rw [List.nil_append] at hl1 same
    simp only [List.length_append] at enough
    have wait1 : ∀ x ∈ A.filter (alive s) ++ S, ready s1 x = false := by
      intro x hx
      rw [ready, bare_stateOf (same x hx), ← ready]
      rcases List.mem_append.mp hx with h | h
      · exact waitA x (List.mem_filter.mp h).1
      · exact wait x h
    have hi1 : i ∈ A.filter (alive s) ++ S := idle.mem_filter (A := []) hi
    have idle1 := idle.of_bare (same i hi1)
    cases S with
    | cons b R =>
      have hb1' : s1.firstBlockedIteration = some b := by rw [hb1, hb]; rfl
      have enough1 : (A.filter (alive s) ++ b :: R).length < steps := by
        simp only [List.length_append]
        omega
      obtain ⟨k, hk, found⟩ := finds_none hl1 enough1 hc1 hb1' wait1 hi1 idle1
      refine ⟨_, ?_, found.step h1⟩
      simp only [List.length_append] at hk ⊢
      omega
    | nil =>
      -- the first blocked record is the first one left of `A`, met at the next start
      rw [List.append_nil] at hl1 wait1 hi1
      obtain ⟨s2, h2, hl2, hc2, hb2, procs2⟩ := restart steps hl1 hc1
      cases hA' : A.filter (alive s) with
      | nil => rw [hA'] at hi1; simp at hi1
      | cons b R =>
        rw [hA'] at hl2 wait1 hi1 hc2 lenA hb1
        have hb2' : s2.firstBlockedIteration = some b := by rw [hb2, hb1, hb]; rfl
        have hl2' : Listed s2 ([] ++ b :: R) := hl2
        have idle2 : Background s2 i := idle1.of_bare (by rw [procs2])
        have enough2 : ([] ++ b :: R).length < steps := by
          simp only [List.length_append, List.length_nil] at enough ⊢
          omega
        obtain ⟨k, hk, found⟩ := finds_none hl2' enough2 hc2 hb2'
          (fun x hx => by
            rw [ready, stateOf, procs2]
            exact wait1 x hx)
          hi1 idle2
        refine ⟨_, ?_, (found.step h2).step h1⟩
        simp only [List.length_append, List.length_nil] at hk ⊢
        omega

/-- The loop from the record at the head of `S`, with `A` before it in the list. -/
theorem loop_finds (hl : Listed s (A ++ S)) (enough : (A ++ S).length < steps)
    (hc : s.currentProcess = S.head?) (hb : s.firstBlockedIteration = none)
    (hi : i ∈ A ++ S) (idle : Background s i) :
    ∃ k ≤ 3 * (A ++ S).length + 5, Finds steps k i s (((S ++ A).find? (ready s)).getD i) := by
  rw [List.find?_append]
  cases hS : S.find? (ready s) with
  | some q =>
    obtain ⟨seg, Z, rfl, hq, wait⟩ := split_first hS
    rw [Option.some_or, Option.getD_some]
    refine ⟨_, ?_, finds_segment (by simpa using hl) (by simpa using enough) hc wait
      (fun f hf => by rw [hb] at hf; cases hf) hq (by simpa using hi) idle⟩
    simp only [List.length_append, List.length_cons]
    omega
  | none =>
    rw [Option.none_or]
    have waitS : ∀ x ∈ S, ready s x = false := fun x hx => by
      simpa using List.find?_eq_none.mp hS x hx
    have hl' : Listed s (A ++ S ++ []) := by simpa using hl
    obtain ⟨s1, h1, hl1, hc1, hb1, same⟩ := walk_segment hl' (by simpa using enough)
      (by simpa using hc) waitS (fun f hf => by rw [hb] at hf; cases hf)
    rw [List.append_nil] at hl1 same
    obtain ⟨s2, h2, hl2, hc2, hb2, procs2⟩ := restart steps hl1 hc1
    have lenS : (S.filter (alive s)).length ≤ S.length := List.length_filter_le _ S
    have same2 : ∀ x ∈ A ++ S.filter (alive s), ready s2 x = ready s x := fun x hx => by
      rw [ready, ready, stateOf, procs2, ← stateOf, bare_stateOf (same x hx)]
    have hi2 : i ∈ A ++ S.filter (alive s) := by
      simpa using idle.mem_filter (Z := []) (by simpa using hi)
    have idle2 : Background s2 i := idle.of_bare (by rw [procs2, same i hi2])
    simp only [List.length_append] at enough
    have enough2 : (A ++ S.filter (alive s)).length < steps := by
      simp only [List.length_append]
      omega
    obtain ⟨k, hk, found⟩ := finds_secondRound hl2 enough2 hc2
      (by rw [hb2, hb1, hb, Option.none_or])
      (fun x hx => by
        rw [same2 x (by simp [hx])]
        exact waitS x (List.mem_filter.mp hx).1)
      hi2 idle2
    have hfind : A.find? (ready s2) = A.find? (ready s) := by
      rw [← List.head?_filter, ← List.head?_filter,
        List.filter_congr fun x hx => same2 x (by simp [hx])]
    rw [hfind] at found
    refine ⟨_, ?_, (found.step h2).step h1⟩
    simp only [List.length_append] at hk ⊢
    omega

theorem startTurn_total (fuel : Nat) {c : Ptr} (hl : Listed s nodes)
    (enough : nodes.length < fuel) (hc : s.currentProcess = some c) (hn : c ∈ nodes)
    (hi : i ∈ nodes) (idle : Background s i) : ∃ x, startTurn fuel s = .ok x := by
  obtain ⟨r, hr⟩ := hl.record hn
  obtain ⟨ri, hri, hpid, hlive, background⟩ := idle
  unfold startTurn
  simp only [current_ok.mpr ⟨hc, hr⟩, ok_bind]
  have hl0 : ∀ flag, Listed { s with idleFlag := flag } nodes := fun _ =>
    ⟨hl.linked, hl.pids, hl.last⟩
  obtain ⟨s1, h1⟩ := blockIdle_total (decide (r.pid ≠ IDLE_PID ∧ s.idleFlag ≠ 0))
    (hl0 (if decide (r.pid ≠ IDLE_PID ∧ s.idleFlag ≠ 0) then 0 else s.idleFlag)) enough hc hn
    (fun p hp rp hrp hpp hf => by
      have hrp' : s.procs p = some rp := hrp
      obtain rfl := hl.pid_inj hp hi (by rw [pidOf_of hrp', pidOf_of hri, hpp, hpid])
      obtain rfl := Option.some.inj (hri.symm.trans hrp')
      exact absurd background hf)
  have t := (blockIdle_touched (hl0 _) h1).1
  obtain ⟨r1, hr1, -⟩ := t.some hr
  simp only [h1, ok_bind]
  have hcur : Sched.current { s1 with firstBlockedIteration := none } = .ok (c, r1) :=
    current_ok.mpr ⟨t.current.trans hc, hr1⟩
  simp only [hcur, ok_bind]
  exact ⟨_, rfl⟩

/-- The records in the order in which the loop of `nextProcess` meets them: from the successor
of the current one around to it, or from the first one. -/
def turnOrder (nodes : List Ptr) : Option Ptr → List Ptr
  | none => nodes
  | some c => (nodes.dropWhile (· ≠ c)).tail ++ nodes.takeWhile (· ≠ c) ++ [c]

/-- The current process is READY and its turn is not used up. -/
def keepsTurn (s : Sched) (p : Ptr) : Prop :=
  ∃ r, s.procs p = some r ∧ r.state = .ready ∧ r.executions ≠ MAX_PRIORITY - r.priority

/-- The process that gets the processor, with `i` for idle. -/
def Chosen (s : Sched) (nodes : List Ptr) (i q : Ptr) : Prop :=
  (s.currentProcess = some q ∧ keepsTurn s q) ∨
    ((∀ c, s.currentProcess = some c → ¬ keepsTurn s c) ∧
      q = ((turnOrder nodes s.currentProcess).find? (ready s)).getD i)

theorem turnOrder_split {c : Ptr} {pre post : List Ptr} (h : c ∉ pre) :
    turnOrder (pre ++ c :: post) (some c) = post ++ pre ++ [c] := by
  have hne : ∀ x ∈ pre, (decide (x ≠ c)) = true := fun x hx => by
    simpa using fun e : x = c => h (e ▸ hx)
  rw [turnOrder, List.dropWhile_append_of_pos hne, List.takeWhile_append_of_pos hne]
  simp

/-- Whatever the current process is, enough passes of the loop end at the chosen one. -/
theorem nextProcess_finds (rsp : Nat) (hl : Listed s nodes) (hc : Cursor s nodes)
    (hb : s.firstBlockedIteration = none) (hi : i ∈ nodes) (idle : Background s i)
    (enough : nodes.length < steps) :
    ∃ s1 q, endTurn rsp s = .ok s1 ∧ Chosen s nodes i q ∧
      ∃ k ≤ 3 * nodes.length + 5, Finds steps k i s1 q := by
  cases hcur : s.currentProcess with
  | none =>
    refine ⟨s, _, by rw [endTurn, hcur]; rfl, .inr ⟨fun c h => ?_, rfl⟩, ?_⟩
    · rw [hcur] at h
      cases h
    have h := loop_finds (S := []) (A := nodes) (by simpa using hl) (by simpa using enough) hcur hb
      (by simpa using hi) idle
    rw [hcur]
    simpa [turnOrder] using h
  | some c =>
    have hn := hc c hcur
    obtain ⟨r, hr⟩ := hl.record hn
    obtain ⟨pre, post, rfl⟩ := List.append_of_mem hn
    have hcpre : c ∉ pre := fun h => (List.nodup_append.mp hl.nodup).2.2 c h c (by simp) rfl
    have h1 := endTurn_value rsp (current_ok.mpr ⟨hcur, hr⟩)
    obtain ⟨s1, hs1⟩ : ∃ s1, endTurn rsp s = .ok s1 := ⟨_, h1⟩
    have e1 := (endTurn_reaped hl hc hs1).1
    have state1 : ∀ x, ready s1 x = ready s x := by
      intro x
      rw [hs1] at h1
      obtain rfl := Except.ok.inj h1
      rw [ready, ready]
      congr 2
      split
      · exact put_stateOf (a := { r with rsp := rsp, executions := 0 }) hr rfl x
      · exact put_stateOf (a := { r with rsp := rsp }) hr rfl x
    have idle1 : Background s1 i := by
      obtain ⟨ri, hri, hpid, hlive, hback⟩ := idle
      rw [hs1] at h1
      obtain rfl := Except.ok.inj h1
      by_cases hic : i = c
      · subst hic
        obtain rfl := Option.some.inj (hr.symm.trans hri)
        split
        · exact ⟨{ r with rsp := rsp, executions := 0 }, by simp, hpid, hlive, hback⟩
        · exact ⟨{ r with rsp := rsp }, by simp, hpid, hlive, hback⟩
      · refine ⟨ri, ?_, hpid, hlive, hback⟩
        split <;> simp [hic, hri]
    refine ⟨s1, ?_⟩
    rw [hs1] at h1
    have h1 := Except.ok.inj h1
    have hb1 : s1.firstBlockedIteration = none := by
      rw [h1]
      split <;> exact hb
    by_cases hready : r.state = .ready
    · by_cases hturn : r.executions = MAX_PRIORITY - r.priority
      · -- the turn is used up: the loop starts at the successor
        rw [if_pos ⟨hready, hturn⟩] at h1
        have next : s1.currentProcess = post.head? := by
          rw [h1]
          exact hl.next hr
        have hl1 : Listed s1 ((pre ++ [c]) ++ post) := by simpa using e1.listed
        obtain ⟨k, hk, found⟩ := loop_finds hl1 (by simpa using enough) next hb1 (by simpa using hi)
          idle1
        refine ⟨_, hs1, .inr ⟨?_, rfl⟩, k, by simpa using hk, ?_⟩
        · rintro c' h ⟨r', hr', -, hex⟩
          obtain rfl := Option.some.inj (hcur.symm.trans h)
          obtain rfl := Option.some.inj (hr.symm.trans hr')
          exact hex hturn
        · rw [funext state1] at found
          rw [hcur, turnOrder_split hcpre]
          simpa using found
      · refine ⟨c, hs1, .inl ⟨hcur, r, hr, hready, hturn⟩, 1, by omega, ?_⟩
        refine finds_ready ?_ ?_ idle1
        · rw [h1, if_neg fun h => hturn h.2]
          exact hcur
        · rw [state1]
          simp [ready, stateOf, hr, hready]
    · -- the current record is not READY: it is met first, and passed
      rw [if_neg fun h => hready h.1] at h1
      have hl1 : Listed s1 (pre ++ c :: post) := e1.listed
      have cur1 : s1.currentProcess = (c :: post).head? := by
        rw [h1]
        exact hcur
      obtain ⟨k, hk, found⟩ := loop_finds hl1 enough cur1 hb1 hi idle1
      refine ⟨_, hs1, .inr ⟨?_, rfl⟩, k, hk, ?_⟩
      · rintro c' h ⟨r', hr', hst, -⟩
        obtain rfl := Option.some.inj (hcur.symm.trans h)
        obtain rfl := Option.some.inj (hr.symm.trans hr')
        exact hready hst
      · rw [funext state1] at found
        have hcready : ready s c = false := by simp [ready, stateOf, hr, hready]
        rw [hcur, turnOrder_split hcpre, List.find?_append,
          List.find?_cons_of_neg (by simp [hcready])]
        rw [List.cons_append, List.find?_cons_of_neg (by simp [hcready])] at found
        simpa using found

/-- Across `endTurn` the saved stack pointers are the old ones and the interrupted one. -/
theorem endTurn_rsp {rsp : Nat} {q : Ptr} {rq r1 : ProcessCDT} (hl : Listed s nodes)
    (hc : Cursor s nodes) (hn : q ∈ nodes) (hq : s.procs q = some rq)
    (run : endTurn rsp s = .ok s1) (h1 : s1.procs q = some r1) :
    r1.rsp = if s.currentProcess = some q then rsp else rq.rsp := by
  by_cases hcur : s.currentProcess = some q
  · rw [endTurn_value _ (current_ok.mpr ⟨hcur, hq⟩)] at run
    obtain rfl := Except.ok.inj run
    rw [if_pos hcur]
    split at h1 <;> simp at h1 <;> rw [← h1]
  · rw [if_neg hcur]
    have h := (endTurn_reaped hl hc run).1.procs q (.inr hn)
    rw [hq, h1] at h
    cases h with
    | some h => exact h.rsp hcur

/-- `nextProcess` returns, and dispatches the chosen process. -/
theorem nextProcess_returns (fuel rsp : Nat) (hl : Listed s nodes) (hc : Cursor s nodes)
    (hb : s.firstBlockedIteration = none) (hi : i ∈ nodes) (idle : Background s i)
    (enough : 3 * nodes.length + 5 ≤ fuel) :
    ∃ s' nodes' q rq r, nextProcess fuel rsp s = .ok (r.rsp, s') ∧
      Listed s' nodes' ∧ nodes'.Sublist nodes ∧
      (∀ p ∈ nodes, p ∉ nodes' → stateOf s p = some .dead) ∧
      (∀ p ∈ nodes', p ≠ i → stateOf s' p = stateOf s p) ∧
      Chosen s nodes i q ∧ q ∈ nodes' ∧ s.procs q = some rq ∧ s'.current = .ok (q, r) ∧
      r.state = .ready ∧ r.rsp = if s.currentProcess = some q then rsp else rq.rsp := by
  obtain ⟨s1, q, h1, chosen, k, hk, found⟩ :=
    nextProcess_finds rsp hl hc hb hi idle (show nodes.length < fuel by omega)
  obtain ⟨e1, c1⟩ := endTurn_reaped hl hc h1
  obtain ⟨s2, h2, hcur2, idle2⟩ := found (fuel - k)
  rw [Nat.sub_add_cancel (by omega)] at h2
  obtain ⟨nodes', e2, q', hn, r2, hq2, hready⟩ := nextProcessLoop_reaped e1.listed c1 h2
  obtain rfl := Option.some.inj (hcur2.symm.trans (current_ok.mp hq2).1)
  have hi2 : i ∈ nodes' := by
    by_contra hn'
    obtain ⟨r, hr, -⟩ := idle2
    rw [(e2.dead i hi hn').2] at hr
    cases hr
  have short := e2.sublist.length_le
  obtain ⟨⟨v, s3⟩, h3⟩ := startTurn_total fuel e2.listed (by omega) hcur2 hn hi2 idle2
  obtain ⟨e3, -, c, r, r3, hc2, hc3, hst, hrsp, hv⟩ := startTurn_reaped e2.listed h3
  obtain ⟨rfl, rfl⟩ := Prod.mk.inj (Except.ok.inj (hq2.symm.trans hc2))
  have e := ((e1.mono fun _ _ => trivial).trans (e2.mono fun _ _ => trivial)).trans
    (e3.mono (D := fun _ => True) fun _ _ => trivial)
  have hnq := e2.sublist.subset hn
  obtain ⟨rq, hrq⟩ := hl.record hnq
  refine ⟨s3, nodes', q, rq, r3, ?_, e.listed, e.sublist, fun p hp hn' => (e.dead p hp hn').1,
    fun p hp hpi => ?_, chosen, hn, hrq, hc3, hst.trans hready, ?_⟩
  · unfold nextProcess
    rw [h1, ok_bind, h2, ok_bind, h3, hv, hrsp]
  · rcases e.state p (.inr hp) with h | ⟨h, -⟩
    · exact h
    · obtain ⟨ri, hri, hpid, -⟩ := idle
      exact absurd (hl.pid_inj (e.sublist.subset hp) hi (by rw [h, pidOf_of hri, hpid])) hpi
  · rw [hrsp]
    obtain ⟨rq1, hrq1⟩ := e1.listed.record hnq
    have h := e2.procs q (.inr hn)
    rw [hrq1, (current_ok.mp hq2).2] at h
    cases h with
    | some h =>
      have same : r2.rsp = rq1.rsp := h.rsp (fun h => h)
      exact same.trans (endTurn_rsp hl hc hnq hrq h1 hrq1)

/-- In every well-formed state with idle in the list, `nextProcess` hands the processor on in
turn. -/
theorem nextProcess_roundRobin {rsp : Nat} (hl : Listed s nodes) (hc : Cursor s nodes)
    (hb : s.firstBlockedIteration = none) (hi : i ∈ nodes) (idle : Background s i) :
    ∃ enough, ∀ fuel ≥ enough, ∃ s' nodes' q rq r, nextProcess fuel rsp s = .ok (r.rsp, s') ∧
      Listed s' nodes' ∧ nodes'.Sublist nodes ∧
      (∀ p ∈ nodes, p ∉ nodes' → stateOf s p = some .dead) ∧
      (∀ p ∈ nodes', p ≠ i → stateOf s' p = stateOf s p) ∧
      Chosen s nodes i q ∧ q ∈ nodes' ∧ s.procs q = some rq ∧ s'.current = .ok (q, r) ∧
      r.state = .ready ∧ r.rsp = if s.currentProcess = some q then rsp else rq.rsp :=
  ⟨3 * nodes.length + 5, fun _ => nextProcess_returns _ _ hl hc hb hi idle⟩

end

/-- Idle and a process that waits for its child. -/
def asleep : Sched :=
  let idle : ProcessCDT :=
    { next := some 32, name := 0, pid := IDLE_PID, ppid := 0, rsp := 4096, rbp := 8192
      priority := 39, executions := 0, foreground := 0, state := .blocked, fd := 0
      children := 0, backWait := 0, bPointer := 0 }
  let waiter : ProcessCDT :=
    { idle with next := none, pid := 2, rsp := 12288, priority := 20, state := .waiting }
  { Scheduler.reset with
    procs := fun p => if p = 16 then some idle else if p = 32 then some waiter else none
    firstProcess := some 16, lastProcess := some 32, currentProcess := some 32, idleFlag := 0 }

theorem nextProcess_roundRobin_asleep :
    ∃ enough, ∀ fuel ≥ enough, ∃ s' nodes' q rq r,
      nextProcess fuel 777 asleep = .ok (r.rsp, s') ∧
      Listed s' nodes' ∧ nodes'.Sublist [16, 32] ∧
      (∀ p ∈ [16, 32], p ∉ nodes' → stateOf asleep p = some .dead) ∧
      (∀ p ∈ nodes', p ≠ 16 → stateOf s' p = stateOf asleep p) ∧
      Chosen asleep [16, 32] 16 q ∧ q ∈ nodes' ∧ asleep.procs q = some rq ∧
      s'.current = .ok (q, r) ∧ r.state = .ready ∧
      r.rsp = if asleep.currentProcess = some q then 777 else rq.rsp := by
  refine nextProcess_roundRobin ⟨?_, ?_, rfl⟩ ?_ rfl (by simp) ?_
  · exact ⟨rfl, some 32, rfl, rfl, none, rfl, rfl⟩
  · decide
  · intro c hc
    obtain rfl : 32 = c := Option.some.inj hc
    decide
  · exact ⟨_, rfl, rfl, by decide, rfl⟩

end BottlerOS.RoundRobin
