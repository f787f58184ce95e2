import BottlerOS.Idle
import BottlerOS.Fuel
import BottlerOS.RoundRobin

/-! The turns of idle. `nextProcess` makes it READY only after a full round without another
READY process, and its turn is used up after one tick. -/

namespace BottlerOS.IdleTurns
open Machine Scheduler LinkedList ProcessList ProcessFields ProcessLinks Dispatch
open SchedCalls SchedRuns Turns Effects Idle

/-- Idle while a turn is being given out: its own has not begun. -/
structure Waits (s : Sched) (nodes : List Ptr) (i : Ptr) : Prop where
  head : nodes.head? = some i
  sole : ∀ p, pidOf s p = some IDLE_PID ↔ p = i
  record : ∃ r, s.procs i = some r ∧ r.priority = 39 ∧ r.executions = 0 ∧
    ((r.state = .blocked ∧ s.idleFlag = 0) ∨ (r.state = .ready ∧ s.idleFlag ≠ 0))

/-- The current process is not in the list. -/
def Adrift (s : Sched) (nodes : List Ptr) : Prop := ∃ c, s.currentProcess = some c ∧ c ∉ nodes

section
variable {s s' t : Sched} {nodes nodes' : List Ptr} {fuel steps rsp v : Nat} {c i p : Ptr}
  {r rc : ProcessCDT} {x : Exit}

theorem Waits.mem (h : Waits s nodes i) : i ∈ nodes := List.mem_of_mem_head? h.head

/-- The first of a list stays first in what is left of it. -/
theorem head?_sublist {α : Type} {l l' : List α} {a : α} (sub : l'.Sublist l) (nodup : l.Nodup)
    (head : l.head? = some a) (kept : a ∈ l') : l'.head? = some a := by
  cases sub with
  | slnil => exact head
  | @cons l₁ l₂ b sub =>
    obtain rfl : b = a := Option.some.inj head
    exact absurd (sub.subset kept) (List.nodup_cons.mp nodup).1
  | cons_cons b sub => exact head

/-- Idle is not DEAD, so it stays where it is. -/
theorem Waits.spun (h : Waits s nodes i) (hs : Sound s nodes) (k : Spun nodes nodes' s s') :
    nodes'.head? = some i ∧ ∀ p, pidOf s' p = some IDLE_PID ↔ p = i := by
  have kept : i ∈ nodes' := by
    by_contra gone
    obtain ⟨r, hr, -, -, turn⟩ := h.record
    have dead := (k.reaped i h.mem gone).1
    rw [stateOf_of hr] at dead
    rcases turn with ⟨e, -⟩ | ⟨e, -⟩ <;> simp [e] at dead
  refine ⟨head?_sublist k.sublist hs.listed.nodup h.head kept, fun p => ?_⟩
  by_cases there : p ∉ nodes ∨ p ∈ nodes'
  · rw [← h.sole p]
    have kp := k.procs p there
    unfold pidOf
    generalize s.procs p = a at kp ⊢
    generalize s'.procs p = b at kp ⊢
    cases kp with
    | none => rfl
    | some kp => simp [kp.pid]
  · rw [not_or, not_not] at there
    rw [pidOf, (k.reaped p there.1 there.2).2]
    refine iff_of_false (by simp) fun e => there.2 (e ▸ kept)

theorem endTurn_waits (h : Keeper s nodes i) (hc : s.current = .ok (c, rc))
    (run : endTurn rsp s = .ok s') : Waits s' nodes i := by
  rw [endTurn_value rsp hc] at run
  obtain rfl := Except.ok.inj run
  obtain ⟨hcur, hrc⟩ := current_ok.mp hc
  obtain ⟨r, hr, prio, turn⟩ := h.record
  have pids : ∀ a : ProcessCDT, a.pid = rc.pid → ∀ p, pidOf (s.put c a) p = some IDLE_PID ↔ p = i :=
    fun a same p => by rw [put_pidOf hrc same, h.sole]
  rcases turn with ⟨state, flag, other, zero⟩ | ⟨state, flag, own, one⟩
  · have hic : i ≠ c := fun e => other (e ▸ hcur)
    split
    · refine ⟨h.head, pids _ rfl, r, ?_, prio, zero, .inl ⟨state, flag⟩⟩
      change (s.put c _).procs i = _
      rw [put_procs, if_neg hic, hr]
    · refine ⟨h.head, pids _ rfl, r, ?_, prio, zero, .inl ⟨state, flag⟩⟩
      rw [put_procs, if_neg hic, hr]
  · -- its one tick is over
    obtain rfl := Option.some.inj (hcur.symm.trans own)
    obtain rfl := Option.some.inj (hr.symm.trans hrc)
    rw [if_pos ⟨state, by rw [one, prio]; rfl⟩]
    refine ⟨h.head, pids _ rfl, { r with rsp := rsp, executions := 0 }, ?_, prio, rfl,
      .inr ⟨state, flag⟩⟩
    change (s.put c _).procs c = _
    simp

theorem pass_waits (hs : Sound s nodes) (h : Waits s nodes i) (k : Spun nodes nodes' s s')
    (pass : Pass steps s s') : Waits s' nodes' i := by
  obtain ⟨head, sole⟩ := h.spun hs k
  obtain ⟨r, hr, prio, zero, turn⟩ := h.record
  refine ⟨head, sole, ?_⟩
  cases pass with
  | rewind hc => exact ⟨r, hr, prio, zero, turn⟩
  | @wake c rc x t hc asleep back run =>
    have h0 : Sound { s with idleFlag := 1 } nodes := hs.of_eq rfl rfl rfl rfl
    have hl := h0.listed
    have found : Found { s with idleFlag := 1 } nodes IDLE_PID i := ⟨h.mem, (h.sole i).mpr rfl⟩
    rcases unblock_exact hl run with ⟨rfl, dead⟩ | ⟨d, rd, hd, hrd, -, e⟩
    · have := dead i r found hr
      rcases turn with ⟨e, -⟩ | ⟨e, -⟩ <;> simp [e] at this
    · obtain rfl := Found.unique hl found hd
      obtain rfl := Option.some.inj (hr.symm.trans hrd)
      have flag : t.idleFlag = 1 := by
        rcases unblock_cases hl run with ⟨rfl, -⟩ | ⟨d, -, r, -, -, -, -, k, -⟩
        · rfl
        · exact k.idle
      have like : Like (upon i (setState .ready) i r)
          (onParent take { s with idleFlag := 1 } nodes r i (upon i (setState .ready) i r)) :=
        like_onParent like_take i _
      rw [upon, if_pos rfl] at like
      refine ⟨_, e.of hr, ?_, ?_, .inr ⟨?_, by simp [flag]⟩⟩
      · rw [upon, if_pos rfl, like.2.1]
        exact prio
      · rw [upon, if_pos rfl, like.2.2]
        exact zero
      · rw [upon, if_pos rfl, like.1]
        rfl
  | @reap c rc t hc dead run =>
    have hrc := (current_ok.mp hc).2
    have hic : i ≠ c := by
      rintro rfl
      obtain rfl := Option.some.inj (hr.symm.trans hrc)
      rcases turn with ⟨e, -⟩ | ⟨e, -⟩ <;> simp [e] at dead
    obtain ⟨pre, post, rfl⟩ := hs.split_dead hrc dead
    have h0 : Sound { s with currentProcess := rc.next } (pre ++ c :: post) :=
      hs.of_eq rfl rfl rfl rfl
    obtain ⟨-, re, -, -⟩ := removeProcess_listed h0.listed run
    obtain ⟨b, hb, same⟩ := Edited.new (Edited.of_bare re.procs) hr
    obtain ⟨st, pr, ex⟩ := Like.bare same
    refine ⟨b, ?_, pr.trans prio, ex.trans zero, ?_⟩
    · rw [free_procs, if_neg hic, hb]
    · rw [st, show (t.free c).idleFlag = s.idleFlag from re.idle]
      exact turn
  | skip hc asleep alive fresh => exact ⟨r, hr, prio, zero, turn⟩

theorem passes_waits (hs : Sound s nodes) (live : SchedRuns.Cursor s) (h : Waits s nodes i)
    (passes : Passes steps s s') : ∃ nodes', Spun nodes nodes' s s' ∧ Waits s' nodes' i := by
  induction passes with
  | refl => exact ⟨nodes, .refl hs live, h⟩
  | tail _ pass ih =>
    obtain ⟨nodes₁, k, h₁⟩ := ih
    obtain ⟨nodes₂, k'⟩ := pass_spun k.sound k.cursor pass
    exact ⟨nodes₂, k.trans k', pass_waits k.sound h₁ k' pass⟩

theorem startTurn_keeper (hs : Sound s nodes) (live : SchedRuns.Cursor s) (h : Waits s nodes i)
    (ready : ∀ c r, s.current = .ok (c, r) → r.state = .ready)
    (run : startTurn fuel s = .ok (v, s')) : Keeper s' nodes i := by
  obtain ⟨head, sole⟩ := h.spun hs (startTurn_spun hs live run)
  obtain ⟨c, rc, t, hc, -, ht, rfl, cases⟩ := startTurn_value hs run
  obtain ⟨hcur, hrc⟩ := current_ok.mp hc
  obtain ⟨r, hr, prio, zero, turn⟩ := h.record
  refine ⟨head, sole, ?_⟩
  have own : rc.pid = IDLE_PID ↔ c = i := by
    rw [← h.sole c, pidOf_of hrc, Option.some.injEq]
  rcases cases with ⟨other, -, ⟨rfl, gone⟩ | ⟨d, -, rd, hrd, hpid, -, rfl⟩⟩ | ⟨kind, rfl⟩
  · have dead := gone i h.mem ((h.sole i).mpr rfl)
    rw [stateOf_of hr] at dead
    rcases turn with ⟨e, -⟩ | ⟨e, -⟩ <;> simp [e] at dead
  · -- idle is left
    obtain rfl : d = i := (h.sole d).mp (by rw [pidOf_of hrd, hpid])
    obtain rfl := Option.some.inj (hr.symm.trans hrd)
    have hic : d ≠ c := fun e => other (own.mpr e.symm)
    refine ⟨{ r with state := .blocked }, ?_, prio, .inl ⟨rfl, rfl, ?_, zero⟩⟩
    · rw [put_procs, if_neg hic]
      change (Sched.put _ d _).procs d = _
      simp
    · exact fun e => hic (Option.some.inj (hcur.symm.trans e)).symm
  by_cases hci : c = i
  · -- idle runs
    subst hci
    obtain rfl := Option.some.inj (hr.symm.trans hrc)
    have state := ready c r hc
    have flag : t.idleFlag ≠ 0 := by
      rcases turn with ⟨e, -⟩ | ⟨-, flag⟩
      · simp [state] at e
      · exact flag
    refine ⟨{ r with executions := char (r.executions + 1) }, by simp, prio,
      .inr ⟨state, flag, hcur, ?_⟩⟩
    change char (r.executions + 1) = 1
    rw [zero]
    decide
  · have flag : t.idleFlag = 0 := kind.resolve_left fun e => hci (own.mp e)
    have blocked : r.state = .blocked := by
      rcases turn with ⟨e, -⟩ | ⟨-, n⟩
      · exact e
      · exact absurd flag n
    refine ⟨r, ?_, prio, .inl ⟨blocked, flag, ?_, zero⟩⟩
    · rw [put_procs, if_neg fun e => hci e.symm]
      exact hr
    · exact fun e => hci (Option.some.inj (hcur.symm.trans e))

/-- The turn that follows the end of another one. -/
theorem turn_keeper {s₁ s₂ : Sched} (hs : Sound s₁ nodes) (live : SchedRuns.Cursor s₁)
    (h : Waits s₁ nodes i) (loop : nextProcessLoop fuel fuel s₁ = .ok s₂)
    (run : startTurn fuel s₂ = .ok (v, s')) : ∃ nodes', Sound s' nodes' ∧ Keeper s' nodes' i := by
  obtain ⟨passes, c, r, hc, ready⟩ := nextProcessLoop_passes loop
  obtain ⟨nodes', k, h'⟩ := passes_waits hs live h passes
  refine ⟨nodes', (startTurn_spun k.sound k.cursor run).sound,
    startTurn_keeper k.sound k.cursor h' (fun c' r' hc' => ?_) run⟩
  obtain ⟨rfl, rfl⟩ := Prod.mk.inj (Except.ok.inj (hc.symm.trans hc'))
  exact ready

theorem nextProcess_keeper (hs : Sound s nodes) (h : Keeper s nodes i)
    (hc : s.current = .ok (c, rc)) (run : nextProcess fuel rsp s = .ok (v, s')) :
    ∃ nodes', Sound s' nodes' ∧ Keeper s' nodes' i := by
  obtain ⟨s₁, h₁, run₁⟩ := bind_ok.mp run
  obtain ⟨s₂, h₂, run₂⟩ := bind_ok.mp run₁
  have k := endTurn_spun hs (cursor_of_current hc) h₁
  exact turn_keeper k.sound k.cursor (endTurn_waits h hc h₁) h₂ run₂

/-- Off the list the loop stays off it: strays lead only to strays, and are not reaped. -/
theorem pass_adrift (hs : Sound s nodes) (off : Adrift s nodes) (k : Spun nodes nodes' s s')
    (pass : Pass steps s s') : Adrift s' nodes' := by
  obtain ⟨c, hcur, hn⟩ := off
  have next : ∀ {c' : Ptr} {r : ProcessCDT}, s.current = .ok (c', r) →
      r.state ≠ .dead ∧ ∃ q, r.next = some q ∧ q ∉ nodes' := by
    intro c' r hc'
    obtain ⟨hcur', hr⟩ := current_ok.mp hc'
    obtain rfl := Option.some.inj (hcur.symm.trans hcur')
    obtain ⟨alive, q, hq, hqn, -⟩ := hs.stray c r hr hn
    exact ⟨alive, q, hq, fun m => hqn (k.sublist.subset m)⟩
  cases pass with
  | rewind hc =>
    rw [hcur] at hc
    cases hc
  | wake hc asleep back run => exact (next hc).2
  | reap hc dead run => exact absurd dead (next hc).1
  | skip hc asleep alive fresh => exact (next hc).2

theorem passes_adrift (hs : Sound s nodes) (live : SchedRuns.Cursor s) (off : Adrift s nodes)
    (passes : Passes steps s s') : ∃ nodes', Spun nodes nodes' s s' ∧ Adrift s' nodes' := by
  induction passes with
  | refl => exact ⟨nodes, .refl hs live, off⟩
  | tail _ pass ih =>
    obtain ⟨nodes₁, k, off₁⟩ := ih
    obtain ⟨nodes₂, k'⟩ := pass_spun k.sound k.cursor pass
    exact ⟨nodes₂, k.trans k', pass_adrift k.sound off₁ k' pass⟩

theorem nextProcess_adrift (hs : Sound s nodes) (off : Adrift s nodes)
    (hc : s.current = .ok (c, rc)) (run : nextProcess fuel rsp s = .ok (v, s'))
    (hs' : Sound s' nodes') : Adrift s' nodes' := by
  obtain ⟨s₁, h₁, run₁⟩ := bind_ok.mp run
  obtain ⟨s₂, h₂, run₂⟩ := bind_ok.mp run₁
  have k₁ := endTurn_spun hs (cursor_of_current hc) h₁
  have off₁ : Adrift s₁ nodes := by
    obtain ⟨c', hcur, hn⟩ := off
    obtain ⟨hcur', hrc⟩ := current_ok.mp hc
    obtain rfl := Option.some.inj (hcur.symm.trans hcur')
    rw [endTurn_value rsp hc] at h₁
    obtain rfl := Except.ok.inj h₁
    obtain ⟨-, q, hq, hqn, -⟩ := hs.stray c' rc hrc hn
    split
    · exact ⟨q, hq, hqn⟩
    · exact ⟨c', hcur, hn⟩
  obtain ⟨nodes₂, k₂, c₂, hcur₂, hn₂⟩ :=
    passes_adrift k₁.sound k₁.cursor off₁ (nextProcessLoop_passes h₂).1
  have k₃ := startTurn_spun k₂.sound k₂.cursor run₂
  obtain rfl := listed_unique hs'.listed k₃.sound.listed
  obtain ⟨c₃, r₃, t, hc₃, -, -, rfl, cases⟩ := startTurn_value k₂.sound run₂
  refine ⟨c₂, ?_, hn₂⟩
  rcases cases with ⟨-, -, ⟨rfl, -⟩ | ⟨d, -, rd, -, -, -, rfl⟩⟩ | ⟨-, rfl⟩ <;> exact hcur₂

/-- Idle is chosen only when no other listed process is READY. -/
theorem chosen_idle (hl : Listed s nodes) (h : Keeper s nodes i)
    (chosen : RoundRobin.Chosen s nodes i i) (hc : s.currentProcess = some c) (hn : c ∈ nodes) :
    ∀ p ∈ nodes, p ≠ i → stateOf s p ≠ some .ready := by
  obtain ⟨r, hr, prio, turn⟩ := h.record
  rcases chosen with ⟨own, r', hr', ready, spent⟩ | ⟨-, first⟩
  · -- idle's turn is always used up
    obtain rfl := Option.some.inj (hr.symm.trans hr')
    rcases turn with ⟨e, -⟩ | ⟨-, -, -, one⟩
    · simp [e] at ready
    · exact absurd (by rw [one, prio]; rfl) spent
  obtain ⟨pre, post, rfl⟩ := List.append_of_mem hn
  have nodup := hl.nodup
  have hcpre : c ∉ pre := fun m => (List.nodup_append.mp nodup).2.2 c m c (by simp) rfl
  rw [hc, RoundRobin.turnOrder_split hcpre] at first
  intro p hp other state
  have ready : RoundRobin.ready s p = true := decide_eq_true state
  by_cases found : (post ++ pre ++ [c]).find? (RoundRobin.ready s) = none
  · have hp' : p ∈ post ++ pre ++ [c] := by
      simp only [List.mem_append, List.mem_cons, List.not_mem_nil, or_false] at hp ⊢
      grind
    exact List.find?_eq_none.mp found p hp' ready
  · obtain ⟨q, hq⟩ := Option.ne_none_iff_exists'.mp found
    rw [hq] at first
    obtain rfl : i = q := first
    -- idle is READY, so it is the current process, the last to be asked
    have asked : RoundRobin.ready s i = true := List.find?_some hq
    have idle : stateOf s i = some .ready := of_decide_eq_true asked
    rw [stateOf_of hr] at idle
    rcases turn with ⟨e, -⟩ | ⟨-, -, own, -⟩
    · simp [e] at idle
    obtain rfl := Option.some.inj (hc.symm.trans own)
    have rest : c ∉ post ++ pre := by
      rw [List.nodup_middle] at nodup
      have := (List.nodup_cons.mp nodup).1
      simp only [List.mem_append] at this ⊢
      grind
    rw [List.find?_append] at hq
    have none : (post ++ pre).find? (RoundRobin.ready s) = none := by
      cases hf : (post ++ pre).find? (RoundRobin.ready s) with
      | none => rfl
      | some q =>
        rw [hf] at hq
        obtain rfl : q = c := Option.some.inj hq
        exact absurd (List.mem_of_find?_eq_some hf) rest
    refine List.find?_eq_none.mp none p ?_ ready
    simp only [List.mem_append, List.mem_cons] at hp ⊢
    grind

/-- `nextProcess` gets to idle only when no other listed process is READY. -/
theorem nextProcess_idle (hs : Sound s nodes) (h : Keeper s nodes i)
    (hc : s.current = .ok (c, rc)) (blocked : s.firstBlockedIteration = none)
    (run : nextProcess fuel rsp s = .ok (v, s')) (idle : s'.currentProcess = some i) :
    ∀ p ∈ nodes, p ≠ i → stateOf s p ≠ some .ready := by
  have hcur := (current_ok.mp hc).1
  by_cases hn : c ∈ nodes
  · have background : RoundRobin.Background s i := by
      obtain ⟨r, hr, -, turn⟩ := h.record
      have hpid : r.pid = IDLE_PID :=
        Option.some.inj ((pidOf_of hr).symm.trans ((h.sole i).mpr rfl))
      refine ⟨r, hr, hpid, ?_, (hs.background i r hr hpid).1⟩
      rcases turn with ⟨e, -⟩ | ⟨e, -⟩ <;> simp [e]
    obtain ⟨s₂, nodes', q, rq, r, run', -, -, -, -, chosen, -, -, hq, -⟩ :=
      RoundRobin.nextProcess_returns (max fuel (3 * nodes.length + 5)) rsp hs.listed
        (fun c' hc' => by
          obtain rfl := Option.some.inj (hcur.symm.trans hc')
          exact hn) blocked h.mem background (by omega)
    have same := Fuel.nextProcess_within (Nat.le_max_left fuel (3 * nodes.length + 5)) _ run
    obtain ⟨-, rfl⟩ := Prod.mk.inj (Except.ok.inj (same.symm.trans run'))
    obtain rfl := Option.some.inj (idle.symm.trans (current_ok.mp hq).1)
    exact chosen_idle hs.listed h chosen hcur hn
  · obtain ⟨nodes', hs', h'⟩ := nextProcess_keeper hs h hc run
    obtain ⟨c', hc', hn'⟩ := nextProcess_adrift hs ⟨c, hcur, hn⟩ hc run hs'
    obtain rfl := Option.some.inj (idle.symm.trans hc')
    exact absurd h'.mem hn'

/-- Between two steps. -/
structure Resting (s : Sched) (nodes : List Ptr) (i : Ptr) : Prop where
  settled : Settled s
  sound : Sound s nodes
  keeper : Keeper s nodes i
  sleepers : Sleepers s

/-- Idle when `nextProcess` is entered. -/
theorem Resting.enters {e : Event} (h : Resting s nodes i) (apart : Apart e) (enters : Enters s e t)
    (ht : Sound t nodes') : Keeper t nodes' i ∧ Sleepers t := by
  obtain ⟨-, -, c, r, hc, -⟩ := h.settled
  have live := cursor_of_current hc
  cases enters with
  | tick asleep =>
    obtain ⟨sound, -⟩ := checkSleeping_sound h.sound live asleep
    obtain rfl := listed_unique ht.listed sound.listed
    exact checkSleeping_keeper h.sound h.keeper h.sleepers asleep
  | call callable run asleep =>
    have called := perform_called h.sound live callable run
    obtain ⟨nodes₁, sound₁⟩ := called.sound
    obtain ⟨sound, -⟩ := checkSleeping_sound sound₁ called.cursor asleep
    obtain rfl := listed_unique ht.listed sound.listed
    exact checkSleeping_keeper sound₁ (perform_keeper h.sound h.keeper hc callable apart sound₁ run)
      (perform_sleepers h.sound h.sleepers callable run) asleep

theorem Resting.step {e : Event} (h : Resting s nodes i) (apart : Apart e) (step : Step s e s') :
    ∃ nodes', Resting s' nodes' i := by
  have settled := step_settled h.settled step
  rcases step_enters step with ⟨t, fuel, rsp, v, enters, run⟩ |
    ⟨op, now, rsp, fuel, code, rfl, callable, run⟩
  · obtain ⟨⟨nodes₁, sound₁⟩, -, -, c, r, hc⟩ := enters_settled h.settled enters
    obtain ⟨keeper, sleepers⟩ := h.enters apart enters sound₁
    obtain ⟨nodes', sound', keeper'⟩ := nextProcess_keeper sound₁ keeper hc run
    obtain ⟨nodes₂, k, -⟩ := nextProcess_spun sound₁ (cursor_of_current hc) run
    refine ⟨nodes', settled, sound', keeper', ?_⟩
    unfold Sleepers
    rw [k.sleep]
    exact sleepers
  · obtain ⟨nodes', sound'⟩ := settled.1
    obtain ⟨-, -, c, r, hc, -⟩ := h.settled
    exact ⟨nodes', settled, sound', perform_keeper h.sound h.keeper hc callable apart sound' run,
      perform_sleepers h.sound h.sleepers callable run⟩

theorem booted_waits {nullPid : Int} {mIdle mSample : Mallocs} {q : Ptr}
    (boot : Booted nullPid mIdle mSample s p q) : Waits s [p, q] p := by
  obtain ⟨fd, auxi, aux, -, hp⟩ := boot.idle
  obtain ⟨fd', auxi', aux', -, hq⟩ := boot.sample
  refine ⟨rfl, fun x => ?_, _, hp, rfl, rfl, .inr ⟨rfl, by rw [boot.flag]; decide⟩⟩
  by_cases hx : x = p
  · rw [hx, pidOf_of hp]
    exact iff_of_true rfl rfl
  by_cases hx' : x = q
  · rw [hx', pidOf_of hq]
    exact iff_of_false (by simp [made, IDLE_PID]) fun e => boot.addresses.2.2 e.symm
  · rw [pidOf, boot.others x hx hx']
    exact iff_of_false (by simp) hx

theorem main_resting {nullPid now : Int} {mIdle mSample : Mallocs}
    (run : main fuel nullPid now rsp mIdle mSample = .ok s) : ∃ nodes i, Resting s nodes i := by
  obtain ⟨s₃, p, q, boot, irq⟩ := main_booted run
  obtain ⟨s₄, h₄, run₁⟩ := bind_ok.mp irq
  rw [checkSleeping_nil boot.sleep] at h₄
  obtain rfl := Except.ok.inj h₄
  obtain ⟨⟨v, s₅⟩, h₅, run₂⟩ := bind_ok.mp run₁
  obtain rfl := Except.ok.inj run₂
  obtain ⟨s₁, h₁, turn⟩ := bind_ok.mp h₅
  obtain ⟨s₂, h₂, start⟩ := bind_ok.mp turn
  -- there is no turn to end
  unfold endTurn at h₁
  rw [boot.current] at h₁
  obtain rfl := Except.ok.inj h₁
  obtain ⟨nodes, sound, keeper⟩ := turn_keeper boot.sound boot.cursor (booted_waits boot) h₂ start
  obtain ⟨nodes', k, -⟩ := nextProcess_spun boot.sound boot.cursor h₅
  refine ⟨nodes, p, main_settled run, sound, keeper, ?_⟩
  unfold Sleepers
  rw [k.sleep, boot.sleep]
  simp

/-- In every run from boot in which nobody names idle: it is BLOCKED, with the flag down and
another process current, or READY, with the flag up and current; and whenever `nextProcess` is
entered, idle gets the processor only if no other listed process is READY. -/
theorem run_idle {nullPid now : Int} {mIdle mSample : Mallocs} {s₀ : Sched}
    (start : main fuel nullPid now rsp mIdle mSample = .ok s₀)
    (run : Runs (fun _ e => Apart e) s₀ s) :
    ∃ nodes i, Sound s nodes ∧ i ∈ nodes ∧ pidOf s i = some IDLE_PID ∧ (Away s i ∨ OnTurn s i) ∧
      ∀ e t nodes', Apart e → Enters s e t → Sound t nodes' → ∀ fuel rsp v s',
        nextProcess fuel rsp t = .ok (v, s') → s'.currentProcess = some i →
          ∀ p ∈ nodes', p ≠ i → stateOf t p ≠ some .ready := by
  have held : ∃ nodes i, Resting s nodes i := by
    refine runs_invariant (I := fun s => ∃ nodes i, Resting s nodes i) ?_ (main_resting start) run
    rintro s e s' ⟨nodes, i, h⟩ apart step
    obtain ⟨nodes', h'⟩ := h.step apart step
    exact ⟨nodes', i, h'⟩
  obtain ⟨nodes, i, h⟩ := held
  refine ⟨nodes, i, h.sound, h.keeper.mem, (h.keeper.sole i).mpr rfl, h.keeper.relation, ?_⟩
  intro e t nodes' apart enters sound' fuel rsp v s' next idle
  obtain ⟨-, blocked, -, c, r, hc⟩ := enters_settled h.settled enters
  obtain ⟨keeper, -⟩ := h.enters apart enters sound'
  exact nextProcess_idle sound' keeper hc blocked next idle

end

/-- The other process gets its turn, and waits for a key. -/
def aloneEvents : List Event := [.tick 0 0, .call .blockIo 0 0]

theorem run_idle_alone : ∃ s₀ s i, main 20 0 0 777 (Kernel.blocks 0) (Kernel.blocks 1) = .ok s₀ ∧
    play 20 aloneEvents s₀ = some s ∧ pidOf s i = some IDLE_PID ∧ (Away s i ∨ OnTurn s i) := by
  have h : ((main 20 0 0 777 (Kernel.blocks 0) (Kernel.blocks 1)).toOption.bind
      (play 20 aloneEvents)).map (fun _ => ()) = some () := by decide +kernel
  obtain ⟨s₀, s, h₀, hs, -⟩ := main_play h
  obtain ⟨-, i, -, -, hi, turn, -⟩ := run_idle h₀ (play_runs (fun _ e he => by
    rcases List.mem_pair.mp he with rfl | rfl
    · trivial
    · exact fun n => n) hs)
  exact ⟨s₀, s, i, h₀, hs, hi, turn⟩

end BottlerOS.IdleTurns
