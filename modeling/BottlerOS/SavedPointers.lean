import BottlerOS.Turns

/-! The saved stack pointers in the process table: `nextProcess` stores its argument for the process
that runs, and returns what is stored for the one it chooses. -/

namespace BottlerOS.SavedPointers
open Machine Scheduler LinkedList ProcessList ProcessFields ProcessLinks Dispatch
open SchedCalls SchedRuns Turns

/-- Each process that is left has the stack pointer it had. -/
def Saves (s t : Sched) : Prop :=
  ∀ p b, t.procs p = some b → ∃ a, s.procs p = some a ∧ b.rsp = a.rsp

section
variable {s s' t : Sched} {nodes : List Ptr} {fuel steps : Nat} {p : Ptr} {r a b : ProcessCDT}

theorem Saves.of_eq (procs : t.procs = s.procs) : Saves s t := fun _ b hb =>
  ⟨b, procs ▸ hb, rfl⟩

theorem Saves.trans (h : Saves s s') (h' : Saves s' t) : Saves s t := by
  intro p c hc
  obtain ⟨b, hb, k'⟩ := h' p c hc
  obtain ⟨a, ha, k⟩ := h p b hb
  exact ⟨a, ha, k'.trans k⟩

theorem Saves.put (hp : s.procs p = some r) (same : a.rsp = r.rsp) : Saves s (s.put p a) := by
  intro q b hb
  rw [put_procs] at hb
  split at hb <;> rename_i hq
  · obtain rfl := Option.some.inj hb
    exact ⟨r, hq ▸ hp, same⟩
  · exact ⟨b, hb, rfl⟩

/-- The loop changes links and states. -/
theorem pass_saves (h : Sound s nodes) (pass : Pass steps s s') : Saves s s' := by
  cases pass with
  | rewind hc => exact .of_eq rfl
  | @wake c r x t hc asleep back run =>
    have h0 : Sound { s with idleFlag := 1 } nodes := h.of_eq rfl rfl rfl rfl
    have rest : ∀ p r, s.procs p = some r → r.pid = IDLE_PID → r.foreground = 0 :=
      fun p r hr hp => (h.background p r hr hp).1
    have woken : Saves { s with idleFlag := 1 } t := by
      rcases unblock_background h0 rest run with rfl | ⟨d, -, rd, hrd, -, -, rfl⟩
      · exact .of_eq rfl
      · exact .put hrd rfl
    exact ((Saves.of_eq rfl).trans woken).trans (.of_eq rfl)
  | @reap c r t hc dead run =>
    have hr := (current_ok.mp hc).2
    obtain ⟨pre, post, rfl⟩ := h.split_dead hr dead
    have h0 : Sound { s with currentProcess := r.next } (pre ++ c :: post) :=
      h.of_eq rfl rfl rfl rfl
    obtain ⟨-, re, -, -⟩ := removeProcess_listed h0.listed run
    intro p b hb
    have other : p ≠ c := by
      rintro rfl
      rw [free_procs, if_pos rfl] at hb
      cases hb
    rw [free_procs, if_neg other] at hb
    have k := re.procs p
    rw [hb] at k
    cases ha : s.procs p with
    | none => simp [ha] at k
    | some a =>
      have k : bare b = bare a := by simpa [ha] using k
      have same : (bare b).rsp = (bare a).rsp := congrArg ProcessCDT.rsp k
      exact ⟨a, rfl, same⟩
  | skip hc asleep alive fresh => exact .of_eq rfl

theorem passes_saves (h : Sound s nodes) (live : SchedRuns.Cursor s) (passes : Passes steps s s') :
    Saves s s' := by
  induction passes with
  | refl => exact .of_eq rfl
  | tail passes pass ih =>
    obtain ⟨nodes', k⟩ := passes_spun h live passes
    exact ih.trans (pass_saves k.sound pass)

theorem put_saved {o c : Ptr} {rsp : Nat} (hp : s.procs o = some r) (same : a.rsp = rsp)
    (hb : (s.put o a).procs c = some b) :
    ∃ a, s.procs c = some a ∧ b.rsp = if some o = some c then rsp else a.rsp := by
  rw [put_procs] at hb
  split at hb <;> rename_i hc
  · obtain rfl := Option.some.inj hb
    exact ⟨r, hc ▸ hp, by rw [if_pos (congrArg some hc.symm), same]⟩
  · exact ⟨b, hb, (if_neg fun eq => hc (Option.some.inj eq).symm).symm⟩

/-- What `nextProcess` returns is its argument if the process goes on, and else what the chosen
process was left with. -/
theorem nextProcess_saved {rsp v : Nat} (h : Sound s nodes) (live : SchedRuns.Cursor s)
    (run : nextProcess fuel rsp s = .ok (v, s')) :
    ∃ c, s'.currentProcess = some c ∧ ∃ a, s.procs c = some a ∧
      v = if s.currentProcess = some c then rsp else a.rsp := by
  obtain ⟨s₁, ended, run₁⟩ := bind_ok.mp run
  obtain ⟨s₂, looped, run₂⟩ := bind_ok.mp run₁
  have k₁ := endTurn_spun h live ended
  obtain ⟨passes, -⟩ := nextProcessLoop_passes looped
  obtain ⟨nodes', k₂⟩ := passes_spun k₁.sound k₁.cursor passes
  have saves := passes_saves k₁.sound k₁.cursor passes
  obtain ⟨c, r, t, hc, rfl, -, rfl, cases⟩ := startTurn_value k₂.sound run₂
  obtain ⟨cur, hr⟩ := current_ok.mp hc
  have chosen : t.currentProcess = some c := by
    rcases cases with ⟨-, -, ⟨rfl, -⟩ | ⟨d, -, rd, -, -, -, rfl⟩⟩ | ⟨-, rfl⟩ <;> exact cur
  obtain ⟨b, hb, same⟩ := saves c r hr
  refine ⟨c, chosen, ?_⟩
  rw [same]
  cases hcur : s.currentProcess with
  | none =>
    unfold endTurn at ended
    rw [hcur] at ended
    obtain rfl := Except.ok.inj ended
    exact ⟨b, hb, (if_neg (by simp)).symm⟩
  | some o =>
    obtain ⟨old, hold⟩ := Option.ne_none_iff_exists'.mp (live o hcur)
    rw [Dispatch.endTurn_value _ (current_ok.mpr ⟨hcur, hold⟩)] at ended
    obtain rfl := Except.ok.inj ended
    split at hb
    · exact put_saved hold rfl hb
    · exact put_saved hold rfl hb

end

end BottlerOS.SavedPointers
