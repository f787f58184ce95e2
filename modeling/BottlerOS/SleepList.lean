import BottlerOS.Kernel
import BottlerOS.ProcessFields
import BottlerOS.SchedCalls

/-! `checkSleeping` deletes from the sleep list while it walks it. `wakeUp` handles the head
of the list by itself, the walk goes on from `prev->next`, and `prev` is NULL until the first
entry that stays. -/

namespace BottlerOS.SleepList
open Machine Scheduler ProcessFields SchedCalls

/-- One `unblock` for each entry, in order. -/
def unblockAll (fuel : Nat) : List SleepCDT → Sched → C Sched
  | [], s => pure s
  | e :: rest, s => do
      let (_, s) ← unblock fuel e.pid s
      unblockAll fuel rest s

/-- At time `now` the walk comes back, the entries that have run out are gone, the others are
kept in order, and besides that there has been one `unblock` for each entry removed. -/
def Cleared (now : Int) (s : Sched) : Prop :=
  ∃ fuel t, unblockAll fuel (s.firstSleep.filter (expired now)) s = .ok t ∧
    checkSleeping fuel now s =
      .ok { t with firstSleep := s.firstSleep.filter (fun e => !expired now e) }

section
variable {s t : Sched} {fuel : Nat} {now : Int} {e : SleepCDT} {kept aux : List SleepCDT}

theorem expired_iff : expired now e = true ↔ now ≥ e.time + e.secs := by
  simp [expired]

/-- Behind an entry that stays, `prev` is never NULL. -/
theorem checkSleepingFrom_behind (behind : kept ≠ []) :
    checkSleepingFrom fuel now kept aux s =
      (unblockAll fuel (aux.filter (expired now)) s).map fun t =>
        { t with firstSleep := kept ++ aux.filter (fun e => !expired now e) } := by
  induction aux generalizing kept s with
  | nil => simp [checkSleepingFrom, unblockAll, Except.map]
  | cons e aux ih =>
    rw [checkSleepingFrom]
    by_cases he : expired now e = true
    · rw [if_pos (expired_iff.mp he), List.filter_cons_of_pos he,
        List.filter_cons_of_neg (by simp [he]), unblockAll]
      have prev : kept.getLast? = some (kept.getLast behind) := List.getLast?_eq_some_getLast behind
      cases unblock fuel e.pid s with
      | error fault => rfl
      | ok x =>
        obtain ⟨exit, s'⟩ := x
        simp only [ok_bind, prev, deref_some]
        exact ih behind
    · rw [if_neg (fun n => he (expired_iff.mpr n)), List.filter_cons_of_neg he,
        List.filter_cons_of_pos (by simp [he]), ih (by simp), List.append_assoc]
      rfl

/-- An expired head is unlinked, and then the NULL `prev` is followed. -/
theorem checkSleeping_head (head : s.firstSleep = e :: aux) (he : expired now e = true) :
    checkSleeping fuel now s ≠ .ok t := by
  intro run
  rw [checkSleeping, head, checkSleepingFrom, if_pos (expired_iff.mp he)] at run
  obtain ⟨x, -, rest⟩ := bind_ok.mp run
  obtain ⟨prev, hprev, -⟩ := bind_ok.mp rest
  cases hprev

/-- For every sleep list and every time: the walk does what it should exactly when the first
entry has not run out (or there is none) and the calls of `unblock` come back. -/
theorem checkSleeping_cleared (now : Int) (s : Sched) : Cleared now s ↔
    (∀ e ∈ s.firstSleep.head?, expired now e = false) ∧
      ∃ fuel t, unblockAll fuel (s.firstSleep.filter (expired now)) s = .ok t := by
  constructor
  · rintro ⟨fuel, t, called, run⟩
    refine ⟨fun e he => ?_, fuel, t, called⟩
    obtain ⟨aux, head⟩ := List.head?_eq_some_iff.mp he
    by_contra n
    exact checkSleeping_head head (by simpa using n) run
  · rintro ⟨first, fuel, t, called⟩
    refine ⟨fuel, t, called, ?_⟩
    cases list : s.firstSleep with
    | nil =>
      rw [list] at called
      obtain rfl := Except.ok.inj called
      rw [checkSleeping_nil list, List.filter_nil]
      cases s
      exact congrArg Except.ok (by simp_all)
    | cons e aux =>
      have stays : expired now e = false := first e (by rw [list]; rfl)
      rw [list, List.filter_cons_of_neg (by simp [stays])] at called
      have step : checkSleeping fuel now s = checkSleepingFrom fuel now [e] aux s := by
        rw [checkSleeping, list, checkSleepingFrom,
          if_neg (fun n => by simp [expired_iff.mpr n] at stays)]
        rfl
      rw [step, checkSleepingFrom_behind (by simp), called,
        List.filter_cons_of_pos (by simp [stays])]
      rfl

end

/-- A background process is started and goes to sleep for a second, the only sleeper. -/
def asleep : List Event :=
  [.tick 0 0, .call (.enqueueProcess 0 none (Kernel.blocks 2)) 0 0, .call .quitCPU 0 0,
    .call (.sleep 0 1 (some 9000)) 0 0]

/-- Its time comes, `unblock` would come back, and the timer does not. -/
theorem asleep_notCleared : ∃ s₀ s,
    main 20 0 0 777 (Kernel.blocks 0) (Kernel.blocks 1) = .ok s₀ ∧
    Runs (fun _ _ => True) s₀ s ∧ s.firstSleep = [⟨3, 0, 1⟩] ∧
    (∃ t, unblockAll 20 s.firstSleep s = .ok t) ∧ ¬ Cleared 1 s := by
  have h : ((main 20 0 0 777 (Kernel.blocks 0) (Kernel.blocks 1)).toOption.bind
      (play 20 asleep)).map (fun s => (s.firstSleep,
        (unblockAll 20 s.firstSleep s).toOption.isSome)) = some ([⟨3, 0, 1⟩], true) := by
    decide +kernel
  obtain ⟨s₀, s, h₀, hs, hv⟩ := main_play h
  obtain ⟨list, called⟩ := Prod.mk.inj hv
  refine ⟨s₀, s, h₀, play_runs (fun _ _ _ => trivial) hs, list, ?_, ?_⟩
  · cases returns : unblockAll 20 s.firstSleep s with
    | error fault =>
      rw [returns] at called
      cases called
    | ok t => exact ⟨t, rfl⟩
  · rintro ⟨fuel, t, -, run⟩
    exact checkSleeping_head list (by decide) run

end BottlerOS.SleepList
