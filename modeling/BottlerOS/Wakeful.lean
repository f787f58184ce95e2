import BottlerOS.Effects

/-! Runs in which nobody calls `sleep`. `checkSleeping` finds nothing to do in them, so each
step is a call, or the turn of `nextProcess`, or both. -/

namespace BottlerOS.Wakeful
open Machine Scheduler LinkedList ProcessList ProcessFields ProcessLinks
open SchedCalls SchedRuns Turns Effects

/-- Everything but a call of `sleep`. -/
def Waking : Event → Prop
  | .call (.sleep _ _ _) _ _ => False
  | _ => True

/-- `nextProcess` returns. -/
def Turned (s s' : Sched) : Prop := ∃ fuel rsp v, nextProcess fuel rsp s = .ok (v, s')

section
variable {s s' t : Sched} {nodes nodes' : List Ptr} {fuel : Nat} {x : Exit} {op : Op} {e : Event}

theorem block_sleepers {pid : Int} (hl : Listed s nodes) (run : block fuel pid s = .ok (x, t)) :
    t.firstSleep = s.firstSleep := by
  rcases block_cases hl run with ⟨-, rfl, -⟩ | ⟨d, -, r, -, -, -, -, c, rc, -, hself⟩
  · rfl
  · rcases hself with ⟨-, -, k⟩ | ⟨-, -, k⟩ <;> exact k.sleep

theorem perform_sleepers {now : Int} {rsp : Nat} (h : Sound s nodes) (callable : Callable s op)
    (waking : Waking (.call op now rsp)) (run : perform fuel s op = .ok (x, t)) :
    t.firstSleep = s.firstSleep := by
  cases op with
  | enqueueProcess foreground fd m =>
    obtain ⟨⟨pid, s1⟩, h1, run1⟩ := bind_ok.mp run
    obtain ⟨-, rfl⟩ := Prod.mk.inj (Except.ok.inj run1)
    obtain ⟨-, p, -, -, e⟩ := enqueueProcess_sound h callable.2 h1
    exact e.sleep
  | block pid => exact block_sleepers h.listed run
  | unblock pid =>
    rcases unblock_cases h.listed run with ⟨rfl, -⟩ | ⟨d, -, r, -, -, -, -, k, -⟩
    · rfl
    · exact k.sleep
  | unblockFirst pid =>
    obtain ⟨c, rc, hc, -⟩ := Busy.current callable
    rcases unblockFirst_shape h hc run with ⟨-, rfl, -⟩ | ⟨d, -, rd, -, -, -, -, u⟩
    · rfl
    · exact u.shuffled.sleep
  | kill pid =>
    rcases kill_cases h.listed run with ⟨-, rfl, -⟩ | ⟨d, -, r, -, -, k, -⟩
    · rfl
    · exact k.sleep
  | exitProcess =>
    obtain ⟨⟨c, r⟩, -, run1⟩ := bind_ok.mp run
    rcases kill_cases h.listed run1 with ⟨-, rfl, -⟩ | ⟨d, -, r, -, -, k, -⟩
    · rfl
    · exact k.sleep
  | nice pid offset =>
    rcases nice_cases h.listed run with rfl | ⟨d, -, r, -, -, -, -, rfl⟩ <;> rfl
  | wait => rcases wait_cases run with ⟨-, rfl⟩ | ⟨c, r, -, -, -, rfl⟩ <;> rfl
  | blockIo => rcases blockIo_cases run with ⟨-, rfl⟩ | ⟨c, r, -, -, -, rfl⟩ <;> rfl
  | unblockIo =>
    obtain ⟨s1, h1, run1⟩ := bind_ok.mp run
    obtain ⟨-, rfl⟩ := Prod.mk.inj (Except.ok.inj run1)
    exact (unblockIoFrom_awaken h1).sleep
  | sleep now secs m => exact waking.elim
  | quitCPU => rcases quitCPU_cases run with ⟨-, rfl⟩ | ⟨c, r, -, -, rfl⟩ <;> rfl

/-- With no sleeper the timer handler is `nextProcess`. -/
theorem irq00Handler_turned {now : Int} {rsp : Nat} (awake : s.firstSleep = [])
    (run : irq00Handler fuel now rsp s = .ok s') : Turned s s' := by
  obtain ⟨s1, h1, run1⟩ := bind_ok.mp run
  rw [checkSleeping_nil awake] at h1
  obtain rfl := Except.ok.inj h1
  obtain ⟨⟨v, s2⟩, h2, run2⟩ := bind_ok.mp run1
  obtain rfl := Except.ok.inj run2
  exact ⟨fuel, rsp, v, h2⟩

theorem Turned.spun (h : Sound s nodes) (live : SchedRuns.Cursor s) (turned : Turned s s') :
    ∃ nodes', Spun nodes nodes' s s' := by
  obtain ⟨fuel, rsp, v, run⟩ := turned
  obtain ⟨nodes', k, -⟩ := nextProcess_spun h live run
  exact ⟨nodes', k⟩

/-- What a step is when nobody sleeps. -/
theorem step_wakeful (h : Sound s nodes) (live : SchedRuns.Cursor s) (awake : s.firstSleep = [])
    (waking : Waking e) (step : Step s e s') :
    s'.firstSleep = [] ∧
    ((∃ now rsp, e = .tick now rsp ∧ Turned s s') ∨
    ∃ op now rsp fuel x t nodes', e = .call op now rsp ∧ Callable s op ∧
      perform fuel s op = .ok (x, t) ∧ Sound t nodes' ∧ SchedRuns.Cursor t ∧
      ((∃ code, x = .ret code ∧ s' = t) ∨ (x = .forceTimer ∧ Turned t s'))) := by
  have asleep : ∀ {t}, (∃ nodes, Sound t nodes) → SchedRuns.Cursor t → t.firstSleep = [] →
      Turned t s' → s'.firstSleep = [] := by
    rintro t ⟨nodes, sound⟩ live none turned
    obtain ⟨nodes', k⟩ := turned.spun sound live
    rw [k.sleep, none]
  rcases step_cases step with ⟨now, rsp, fuel, rfl, run⟩ |
    ⟨op, now, rsp, fuel, x, t, rfl, callable, run, last⟩
  · have turned := irq00Handler_turned awake run
    exact ⟨asleep ⟨nodes, h⟩ live awake turned, .inl ⟨now, rsp, rfl, turned⟩⟩
  · have called := perform_called h live callable run
    obtain ⟨nodes', sound⟩ := called.sound
    have none : t.firstSleep = [] := (perform_sleepers h callable waking run).trans awake
    rcases last with ⟨code, rfl, rfl⟩ | ⟨rfl, run'⟩
    · exact ⟨none, .inr ⟨op, now, rsp, fuel, .ret code, s', nodes', rfl, callable, run, sound,
        called.cursor, .inl ⟨code, rfl, rfl⟩⟩⟩
    · have turned := irq00Handler_turned none run'
      exact ⟨asleep ⟨nodes', sound⟩ called.cursor none turned,
        .inr ⟨op, now, rsp, fuel, .forceTimer, t, nodes', rfl, callable, run, sound, called.cursor,
          .inr ⟨rfl, turned⟩⟩⟩

end

end BottlerOS.Wakeful
