import BottlerOS.Kernel
import BottlerOS.Turns

/-! `block`, `unblock` and `unblockFirst` look up the parent of a foreground process and
follow the result. They come back exactly when there is such a parent in the list. -/

namespace BottlerOS.Parents
open Machine Scheduler LinkedList ProcessList ProcessFields ProcessLinks
open SchedCalls SchedRuns Turns

/-- The process of this pid, if it is live and in the foreground, has its parent in the list. -/
def Parented (s : Sched) (nodes : List Ptr) (pid : Int) : Prop :=
  ∀ d ∈ nodes, ∀ r, s.procs d = some r → r.pid = pid → r.state ≠ .dead → r.foreground ≠ 0 →
    ∃ q ∈ nodes, pidOf s q = some r.ppid

/-- The same when the process has been moved behind the current one: it is in the list itself
only if the current process is, and is another one. -/
def ParentedBehind (s : Sched) (nodes : List Ptr) (pid : Int) : Prop :=
  ∀ d ∈ nodes, ∀ r, s.procs d = some r → r.pid = pid → r.state ≠ .dead → r.foreground ≠ 0 →
    ∃ q ∈ nodes, pidOf s q = some r.ppid ∧
      (q ≠ d ∨ ∃ c ∈ nodes, s.currentProcess = some c ∧ c ≠ d)

section
variable {s s' t : Sched} {nodes pre post : List Ptr} {fuel : Nat} {c d p : Ptr}
  {r rc : ProcessCDT} {pid : Int} {x : Exit}

/-- `if (del->foreground)` with a parent that must be followed. -/
theorem ifForeground_parent {f ppid : Int} {parent prev : Option Ptr}
    {act : Option Ptr → Sched → C Sched} (hl : Listed s nodes)
    (follows : ∀ s', act none s ≠ .ok s') (found : search fuel ppid s = .ok (parent, prev))
    (run : ifForeground f (act parent) s = .ok s') (hf : f ≠ 0) :
    ∃ q ∈ nodes, pidOf s q = some ppid := by
  rw [ifForeground, if_pos hf] at run
  rcases search_pid hl found with ⟨rfl, -⟩ | ⟨q, hq, r, rfl, hr, hpid⟩
  · exact absurd run (follows s')
  · exact ⟨q, hq, by rw [pidOf_of hr, hpid]⟩

theorem giveForeground_follows : ∀ s', giveForeground none s ≠ .ok s' := by
  intro s' h
  cases h

theorem takeForeground_follows : ∀ s', takeForeground none s ≠ .ok s' := by
  intro s' h
  cases h

/-- The process a search has found, by its pid. -/
theorem found_only (hl : Listed s nodes) (hp : p ∈ nodes) (hd : d ∈ nodes)
    (hr : s.procs d = some r) (same : pidOf s p = some r.pid) : p = d :=
  hl.pid_inj hp hd (same.trans (pidOf_of hr).symm)

theorem block_parented (hl : Listed s nodes) (run : block fuel pid s = .ok (x, t)) :
    Parented s nodes pid := by
  intro d hd r hr hpid alive hf
  rcases block_steps hl run with
    ⟨-, -, dead⟩ | ⟨d', hd', r', parent, prev, s2, c, rc, hr', hpid', -, hp, h2, -⟩
  · have dead := dead d hd (by rw [pidOf_of hr, hpid])
    exact absurd (Option.some.inj ((stateOf_of hr).symm.trans dead)) alive
  obtain rfl := found_only hl hd' hd hr (by rw [pidOf_of hr', hpid', hpid])
  obtain rfl := Option.some.inj (hr.symm.trans hr')
  have t1 := setState_touched hr .blocked
  obtain ⟨q, hq, he⟩ :=
    ifForeground_parent (t1.listed hl) giveForeground_follows hp h2 hf
  exact ⟨q, hq, t1.pidOf_eq.symm.trans he⟩

theorem unblock_parented (hl : Listed s nodes) (run : unblock fuel pid s = .ok (x, t)) :
    Parented s nodes pid := by
  intro d hd r hr hpid alive hf
  rcases unblock_steps hl run with ⟨-, -, dead⟩ | ⟨d', hd', r', parent, prev, hr', hpid', -, -, hp,
    h2⟩
  · have dead := dead d hd (by rw [pidOf_of hr, hpid])
    exact absurd (Option.some.inj ((stateOf_of hr).symm.trans dead)) alive
  obtain rfl := found_only hl hd' hd hr (by rw [pidOf_of hr', hpid', hpid])
  obtain rfl := Option.some.inj (hr.symm.trans hr')
  have t1 := setState_touched hr .ready
  obtain ⟨q, hq, he⟩ :=
    ifForeground_parent (t1.listed hl) takeForeground_follows hp h2 hf
  exact ⟨q, hq, t1.pidOf_eq.symm.trans he⟩

/-- Who is in the list after the move of `unblockFirst`. -/
theorem moveAfterCurrent_members (h : Sound s nodes) (hc : s.current = .ok (c, rc))
    (hd : d ∈ nodes) (run : moveAfterCurrent fuel d s = .ok t) :
    ∃ nodes', Listed t nodes' ∧ nodes'.length ≤ nodes.length ∧ pidOf t = pidOf s ∧
      (∀ q, q ∈ nodes' ↔ q ∈ nodes ∧ (q ≠ d ∨ (c ∈ nodes ∧ c ≠ d))) ∧
      ∃ r r', s.procs d = some r ∧ t.procs d = some r' ∧ r'.ppid = r.ppid ∧
        r'.foreground = r.foreground := by
  obtain ⟨pre, post, rfl⟩ := List.append_of_mem hd
  have hl := h.listed
  have hd' : d ∉ pre ++ post := by
    have hn := hl.nodup
    rw [List.nodup_middle] at hn
    exact (List.nodup_cons.mp hn).1
  obtain ⟨r, hr⟩ := hl.record hd
  -- the parent's pid and the flag of the process moved
  have kept := moveAfterCurrent_core hl hc run d
  rw [hr] at kept
  obtain ⟨r', hr', same⟩ := Option.map_eq_some_iff.mp kept
  have ppid : (core r').ppid = (core r).ppid := congrArg ProcessCDT.ppid same
  have foreground : (core r').foreground = (core r).foreground :=
    congrArg ProcessCDT.foreground same
  by_cases inside : c ∈ pre ++ d :: post ∧ c ≠ d
  · obtain ⟨P, Q, place⟩ := mem_split_of_ne inside.1 inside.2
    obtain ⟨hl', sh, -, -, -⟩ :=
      moveAfterCurrent_listed (A := fun _ => False) hl hc place run
    have length := congrArg List.length place
    refine ⟨_, hl', ?_, funext fun q => sh.pidOf_eq, fun q => ?_, r, r', hr, hr', ppid,
      foreground⟩
    · simp only [List.length_append, List.length_cons] at length ⊢
      omega
    · have same : q ∈ pre ++ post ↔ q ∈ P ++ c :: Q := by rw [place]
      simp only [List.mem_append, List.mem_cons] at same inside ⊢
      grind
  · have off : c = d ∨ c ∉ pre ++ d :: post := by grind
    obtain ⟨hl', sh, -, -, -, -⟩ := moveAfterCurrent_stray (A := fun _ => False) hl hc off run
    refine ⟨_, hl', by simp, funext fun q => sh.pidOf_eq, fun q => ?_, r, r', hr, hr', ppid,
      foreground⟩
    simp only [List.mem_append, List.mem_cons] at hd' inside ⊢
    grind

theorem unblockFirst_parented (h : Sound s nodes) (hc : s.current = .ok (c, rc))
    (run : unblockFirst fuel pid s = .ok (x, t)) : ParentedBehind s nodes pid := by
  intro d hd r hr hpid alive hf
  rcases unblockFirst_steps h.listed run with ⟨-, -, dead⟩ | ⟨d', hd', r', s1, r1', parent, prev,
    hr', hpid', -, -, h1, hr1', hp, h2⟩
  · have dead := dead d hd (by rw [pidOf_of hr, hpid])
    exact absurd (Option.some.inj ((stateOf_of hr).symm.trans dead)) alive
  obtain rfl := found_only h.listed hd' hd hr (by rw [pidOf_of hr', hpid', hpid])
  obtain ⟨nodes', hl', -, pids, members, r', r1, hr', hr1, ppid, foreground⟩ :=
    moveAfterCurrent_members h hc hd h1
  obtain rfl := Option.some.inj (hr.symm.trans hr')
  obtain rfl := Option.some.inj (hr1.symm.trans hr1')
  have t1 := setState_touched hr1 .ready
  obtain ⟨q, hq, he⟩ := ifForeground_parent (t1.listed hl') takeForeground_follows hp h2
    (by rw [foreground]; exact hf)
  obtain ⟨hn, apart⟩ := (members q).mp hq
  refine ⟨q, hn, ?_, apart.imp_right fun ⟨hcn, hcd⟩ => ⟨c, hcn, (current_ok.mp hc).1, hcd⟩⟩
  rw [← pids, ← t1.pidOf_eq, he, ppid]

theorem block_completes (hl : Listed s nodes) (hc : s.current = .ok (c, rc))
    (home : Parented s nodes pid) : ∃ fuel x, block fuel pid s = .ok x :=
  ⟨_, block_total pid hl (Nat.lt_succ_self _) hc home⟩

theorem unblock_completes (hl : Listed s nodes) (home : Parented s nodes pid) :
    ∃ fuel x, unblock fuel pid s = .ok x :=
  ⟨_, unblock_total pid hl (Nat.lt_succ_self _) home⟩

theorem unblockFirst_completes (h : Sound s nodes) (hc : s.current = .ok (c, rc))
    (home : ParentedBehind s nodes pid) : ∃ fuel x, unblockFirst fuel pid s = .ok x := by
  have enough : nodes.length < nodes.length + 1 := by omega
  obtain ⟨del, prev, hs⟩ := search_total h.listed enough pid
  refine ⟨nodes.length + 1, ?_⟩
  rw [unblockFirst, hs, ok_bind]
  rcases search_pid h.listed hs with ⟨rfl, -⟩ | ⟨d, hd, r, rfl, hr, hpid⟩
  · exact ⟨_, rfl⟩
  simp only [load_of hr, ok_bind]
  split <;> rename_i alive
  · exact ⟨_, rfl⟩
  obtain ⟨s1, h1⟩ := moveAfterCurrent_total h.listed enough hc hd
  obtain ⟨nodes', hl', short, pids, members, r', r1, hr', hr1, ppid, foreground⟩ :=
    moveAfterCurrent_members h hc hd h1
  obtain rfl := Option.some.inj (hr.symm.trans hr')
  have t := setState_touched hr1 .ready
  obtain ⟨parent, prev', hp⟩ := search_total (t.listed hl')
    (by omega : nodes'.length < nodes.length + 1) r1.ppid
  obtain ⟨s', h'⟩ := ifForeground_total (f := r1.foreground) (t.listed hl')
    (fun q r => takeForeground_total) hp (fun hf => by
      obtain ⟨q, hq, he, apart⟩ := home d hd r hr hpid alive (by rw [← foreground]; exact hf)
      refine ⟨q, (members q).mpr ⟨hq, ?_⟩, ?_⟩
      · rcases apart with other | ⟨c', hcn, hcur, hcd⟩
        · exact .inl other
        · obtain rfl := Option.some.inj ((current_ok.mp hc).1.symm.trans hcur)
          exact .inr ⟨hcn, hcd⟩
      · rw [t.pidOf_eq, pids, he, ppid])
  simp only [h1, ok_bind, load_of hr1, hp, h']
  exact ⟨_, rfl⟩

/-- In every state that a run from boot reaches, and for every pid: `block` and `unblock`
complete or fail cleanly exactly when the process they name, if live and in the foreground,
has its parent in the list, and `unblockFirst` when it has it there behind its move. -/
theorem run_completes {nullPid now : Int} {rsp : Nat} {mIdle mSample : Mallocs} {s₀ : Sched}
    (start : main fuel nullPid now rsp mIdle mSample = .ok s₀)
    (run : Runs (fun _ _ => True) s₀ s) : ∃ nodes, Listed s nodes ∧ ∀ pid,
      ((∃ fuel x, block fuel pid s = .ok x) ↔ Parented s nodes pid) ∧
      ((∃ fuel x, unblock fuel pid s = .ok x) ↔ Parented s nodes pid) ∧
      ((∃ fuel x, unblockFirst fuel pid s = .ok x) ↔ ParentedBehind s nodes pid) := by
  obtain ⟨⟨nodes, sound⟩, -, c, r, hc, -⟩ := runs_settled (main_settled start) run
  refine ⟨nodes, sound.listed, fun pid => ⟨⟨?_, block_completes sound.listed hc⟩,
    ⟨?_, unblock_completes sound.listed⟩, ⟨?_, unblockFirst_completes sound hc⟩⟩⟩
  · rintro ⟨fuel, ⟨x, t⟩, h⟩
    exact block_parented sound.listed h
  · rintro ⟨fuel, ⟨x, t⟩, h⟩
    exact unblock_parented sound.listed h
  · rintro ⟨fuel, ⟨x, t⟩, h⟩
    exact unblockFirst_parented sound hc h

end

/-- The first process starts one in the foreground and exits; it is reaped at once. -/
def orphaned : List Event := [.tick 0 0, .call (.enqueueProcess 1 none (Kernel.blocks 2)) 0 0,
  .call .exitProcess 0 0]

set_option synthInstance.maxSize 1024 in
/-- Its child is READY, in the foreground and without a parent, and cannot be blocked. -/
theorem orphan_unblockable : ∃ s₀ s,
    main 20 0 0 777 (Kernel.blocks 0) (Kernel.blocks 1) = .ok s₀ ∧
    Runs (fun _ _ => True) s₀ s ∧ (s.procs 1101 = none ∧ stateOf s 1201 = some .ready) ∧
    ¬ ∃ fuel x, block fuel 3 s = .ok x := by
  have h : ((main 20 0 0 777 (Kernel.blocks 0) (Kernel.blocks 1)).toOption.bind
      (play 20 orphaned)).map (fun s => ((s.firstProcess, link s 1001, link s 1201),
        (s.procs 1101).isNone, (s.procs 1201).map (·.ppid), (s.procs 1201).map (·.foreground),
        stateOf s 1201, pidOf s 1201, pidOf s 1001)) =
      some ((some 1001, some (some 1201), some none), true, some 2, some 1, some .ready, some 3,
        some 1) := by
    decide +kernel
  obtain ⟨s₀, s, h₀, hs, hv⟩ := main_play h
  simp only [Prod.mk.injEq] at hv
  obtain ⟨⟨hf, h1, h2⟩, h3, hp, hg, h4, h6, h5⟩ := hv
  obtain ⟨r, hr, ppid⟩ := Option.map_eq_some_iff.mp hp
  rw [hr] at hg
  have foreground : r.foreground = 1 := Option.some.inj hg
  have ready : r.state = .ready := Option.some.inj ((stateOf_of hr).symm.trans h4)
  have pid : r.pid = 3 := Option.some.inj ((pidOf_of hr).symm.trans h6)
  have run : Runs (fun _ _ => True) s₀ s := play_runs (fun _ _ _ => trivial) hs
  refine ⟨s₀, s, h₀, run, ⟨by simpa using h3, by rw [stateOf_of hr, ready]⟩, ?_⟩
  rintro ⟨fuel, ⟨x, t⟩, hb⟩
  obtain ⟨⟨nodes, sound⟩, -⟩ := runs_settled (main_settled h₀) run
  have path : Linked (link s) s.firstProcess [1001, 1201] none := ⟨hf, _, h1, rfl, _, h2, rfl⟩
  obtain rfl := linked_unique sound.listed.linked path
  obtain ⟨q, hq, he⟩ := block_parented sound.listed hb 1201 (by simp) r hr pid (by rw [ready]; simp)
    (by rw [foreground]; simp)
  rw [ppid] at he
  rcases List.mem_cons.mp hq with rfl | hq
  · rw [h5] at he
    cases he
  · rw [List.mem_singleton.mp hq, pidOf_of hr, pid] at he
    cases he

/-- Idle right after boot. -/
theorem run_completes_idle : ∃ s₀ nodes,
    main 20 0 0 777 (Kernel.blocks 0) (Kernel.blocks 1) = .ok s₀ ∧ Listed s₀ nodes ∧
    ((∃ fuel x, block fuel 1 s₀ = .ok x) ↔ Parented s₀ nodes 1) := by
  have h : ((main 20 0 0 777 (Kernel.blocks 0) (Kernel.blocks 1)).toOption.bind (play 20 [])).map
      (fun _ => ()) = some () := by decide +kernel
  obtain ⟨s₀, s, h₀, -, -⟩ := main_play h
  obtain ⟨nodes, listed, all⟩ := run_completes h₀ .refl
  exact ⟨s₀, nodes, h₀, listed, (all 1).1⟩

end BottlerOS.Parents
