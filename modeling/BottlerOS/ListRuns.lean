import BottlerOS.SemCalls
import BottlerOS.Dispatch

/-! The process list over whole runs. It stays a list of distinct pids with the
current process in it, as long as no `semPost` pops the pid of its own caller and
no `enqueueProcess` gives out a pid that is still in the list. A semaphore's
waiter that is unblocked from outside stays queued, and can pop itself. -/

namespace BottlerOS.ListRuns
open Machine Scheduler LinkedList ProcessList ProcessFields ProcessLinks Dispatch
open Semaphore Kernel SemCalls

/-- The list is finite and acyclic with distinct pids, `lastProcess` is its last node, the
current process is one of its nodes, and these are the records there are: those enqueued and
not yet freed by `nextProcess`. -/
structure Wired (s : Sched) (nodes : List Ptr) : Prop where
  listed : Listed s nodes
  current : ∃ c ∈ nodes, s.currentProcess = some c
  records : ∀ p, s.procs p = none ↔ p ∉ nodes

def Orderly (s : Sched) : Prop := ∃ nodes, Wired s nodes

section
variable {s s' : Sched} {nodes nodes' : List Ptr} {fuel : Nat} {k k' : Kernel}

theorem Wired.cursor (h : Wired s nodes) : Cursor s nodes := by
  obtain ⟨c, hn, hc⟩ := h.current
  intro x hx
  obtain rfl := Option.some.inj (hc.symm.trans hx)
  exact hn

/-- Updates that keep links, pids, records and the current process. -/
theorem Wired.rel {R : Ptr → ProcessCDT → ProcessCDT → Prop} (h : Wired s nodes) (t : Rel R s s')
    (hn : ∀ p a b, R p a b → b.next = a.next) (hp : ∀ p a b, R p a b → b.pid = a.pid) :
    Wired s' nodes where
  listed := t.listed hn hp h.listed
  current := by
    rw [t.current]
    exact h.current
  records p := t.none.trans (h.records p)

theorem Wired.touched {A B : Ptr → Prop} (h : Wired s nodes) (t : Touched A B s s') :
    Wired s' nodes := h.rel t (fun _ _ _ t => t.kept.next) fun _ _ _ t => t.kept.pid

theorem Wired.awaken {st : States} (h : Wired s nodes) (t : Rel (Awaken st) s s') :
    Wired s' nodes := h.rel t (fun _ _ _ t => t.kept.next) fun _ _ _ t => t.kept.pid

theorem Wired.put {p : Ptr} {r a : ProcessCDT} (h : Wired s nodes) (hp : s.procs p = some r)
    (next : a.next = r.next) (pid : a.pid = r.pid) : Wired (s.put p a) nodes := by
  refine h.rel (R := fun _ a b => b.next = a.next ∧ b.pid = a.pid)
    (rel_put (fun _ _ => ⟨rfl, rfl⟩) hp ⟨next, pid⟩) ?_ ?_
  · exact fun _ _ _ t => t.1
  · exact fun _ _ _ t => t.2

/-- Globals other than the list's own. -/
theorem Wired.of_eq (h : Wired s nodes) (procs : s'.procs = s.procs)
    (first : s'.firstProcess = s.firstProcess) (last : s'.lastProcess = s.lastProcess)
    (current : s'.currentProcess = s.currentProcess) : Wired s' nodes where
  listed := by
    refine ⟨?_, ?_, last.trans h.listed.last⟩
    · rw [first]
      exact linked_congr (fun x _ => by rw [link, procs, link]) h.listed.linked
    · have same : pidOf s' = pidOf s := funext fun x => by rw [pidOf, procs, pidOf]
      rw [same]
      exact h.listed.pids
  current := by
    rw [current]
    exact h.current
  records p := by
    rw [procs]
    exact h.records p

theorem block_orderly {pid : Int} {e : Exit} (h : Wired s nodes)
    (run : block fuel pid s = .ok (e, s')) : Orderly s' := by
  rcases block_cases h.listed run with ⟨-, rfl, -⟩ | ⟨d, -, r, -, -, -, -, c, rc, -, hself⟩
  · exact ⟨nodes, h⟩
  · rcases hself with ⟨-, -, t⟩ | ⟨-, -, t⟩ <;> exact ⟨nodes, h.touched t⟩

theorem unblock_orderly {pid : Int} {e : Exit} (h : Wired s nodes)
    (run : unblock fuel pid s = .ok (e, s')) : Orderly s' := by
  rcases unblock_cases h.listed run with ⟨rfl, -⟩ | ⟨d, -, r, -, -, -, -, t, -⟩
  · exact ⟨nodes, h⟩
  · exact ⟨nodes, h.touched t⟩

theorem kill_orderly {pid : Int} {e : Exit} (h : Wired s nodes)
    (run : kill fuel pid s = .ok (e, s')) : Orderly s' := by
  rcases kill_cases h.listed run with ⟨-, rfl, -⟩ | ⟨d, -, r, -, -, t, -⟩
  · exact ⟨nodes, h⟩
  · exact ⟨nodes, h.rel t (fun _ _ _ t => t.kept.next) fun _ _ _ t => t.kept.pid⟩

theorem nice_orderly {pid offset : Int} {e : Exit} (h : Wired s nodes)
    (run : nice fuel pid offset s = .ok (e, s')) : Orderly s' := by
  rcases nice_cases h.listed run with rfl | ⟨d, -, r, hr, -, -, -, rfl⟩
  · exact ⟨nodes, h⟩
  · exact ⟨nodes, h.put hr rfl rfl⟩

theorem wait_orderly {e : Exit} (h : Wired s nodes) (run : wait s = .ok (e, s')) : Orderly s' := by
  rcases wait_cases run with ⟨-, rfl⟩ | ⟨c, r, hc, -, -, rfl⟩
  · exact ⟨nodes, h⟩
  · exact ⟨nodes, h.put (current_ok.mp hc).2 rfl rfl⟩

theorem blockIo_orderly {e : Exit} (h : Wired s nodes) (run : blockIo s = .ok (e, s')) :
    Orderly s' := by
  rcases blockIo_cases run with ⟨-, rfl⟩ | ⟨c, r, hc, -, -, rfl⟩
  · exact ⟨nodes, h⟩
  · exact ⟨nodes, h.put (current_ok.mp hc).2 rfl rfl⟩

theorem quitCPU_orderly {e : Exit} (h : Wired s nodes) (run : quitCPU s = .ok (e, s')) :
    Orderly s' := by
  rcases quitCPU_cases run with ⟨-, rfl⟩ | ⟨c, r, hc, -, rfl⟩
  · exact ⟨nodes, h⟩
  · exact ⟨nodes, h.put (current_ok.mp hc).2 rfl rfl⟩

theorem sleep_orderly {now secs : Int} {m : Option Ptr} {e : Exit} (h : Wired s nodes)
    (run : sleep fuel now secs m s = .ok (e, s')) : Orderly s' := by
  rcases sleep_cases run with ⟨rfl, -⟩ | ⟨c, r, -, blocks⟩
  · exact ⟨nodes, h⟩
  · have h1 : Wired { s with firstSleep := ⟨r.pid, now, secs⟩ :: s.firstSleep } nodes :=
      h.of_eq rfl rfl rfl rfl
    exact block_orderly h1 blocks

/-- The process that is unblocked first is not the running one. -/
theorem unblockFirst_orderly {pid : Int} {e : Exit} (h : Wired s nodes)
    (other : ∀ c r, s.current = .ok (c, r) → r.pid ≠ pid)
    (run : unblockFirst fuel pid s = .ok (e, s')) : Orderly s' := by
  obtain ⟨c, hn, hc⟩ := h.current
  obtain ⟨rc, hrc⟩ := h.listed.record hn
  rcases unblockFirst_cases h.listed hc hn run with ⟨-, rfl, -⟩ | ⟨d, hd, r, hr, hpid, -, -, moved⟩
  · exact ⟨nodes, h⟩
  have hdc : d ≠ c := by
    rintro rfl
    exact other d r (current_ok.mpr ⟨hc, hr⟩) hpid
  obtain ⟨⟨pre, post, P, Q, rfl, place, hl⟩, sh, -, -⟩ := moved hdc
  refine ⟨P ++ c :: d :: Q, hl, ⟨c, by simp, sh.current.trans hc⟩, fun p => ?_⟩
  rw [sh.none, h.records p]
  have mem : ∀ x, x ∈ pre ++ post ↔ x ∈ P ++ c :: Q := fun x => by rw [place]
  have hp := mem p
  simp only [List.mem_append, List.mem_cons] at hp ⊢
  tauto

/-- A pid that no record has. -/
def FreshPid (s : Sched) : Prop := ∀ p, pidOf s p ≠ some s.pids

theorem enqueue_records {foreground : Int} {p : Ptr} (e : Enqueued foreground p s s')
    (records : ∀ x, s.procs x = none ↔ x ∉ nodes) (x : Ptr) :
    s'.procs x = none ↔ x ∉ nodes ++ [p] := by
  by_cases hx : x = p
  · subst hx
    obtain ⟨r, hr, -⟩ := e.made
    simp [hr]
  · have hp := e.procs x hx
    have hr := records x
    rw [List.mem_append, List.mem_singleton, not_or, ← hr]
    generalize s.procs x = a at *
    generalize s'.procs x = b at *
    cases hp <;> simp [hx]

theorem enqueueProcess_orderly {nullPid foreground pid : Int} {fd : Option Ptr} {m : Mallocs}
    (h : Wired s nodes) (fresh : FreshPid s)
    (run : enqueueProcess fuel nullPid foreground fd m s = .ok (pid, s')) : Orderly s' := by
  obtain ⟨-, p, -, hl, e⟩ := enqueueProcess_cases h.listed (fun x _ => fresh x) run
  obtain ⟨c, hn, hc⟩ := h.current
  exact ⟨nodes ++ [p], hl, ⟨c, by simp [hn], e.current.trans hc⟩, enqueue_records e h.records⟩

/-- The timer handler; during boot there is no current process. -/
theorem irq00Handler_orderly {now : Int} {rsp : Nat} (hl : Listed s nodes) (hc : Cursor s nodes)
    (records : ∀ p, s.procs p = none ↔ p ∉ nodes) (run : irq00Handler fuel now rsp s = .ok s') :
    Orderly s' := by
  unfold irq00Handler at run
  obtain ⟨s1, h1, run1⟩ := bind_ok.mp run
  obtain ⟨⟨v, s2⟩, h2, run2⟩ := bind_ok.mp run1
  obtain rfl := Except.ok.inj run2
  have t := (checkSleepingFrom_touched hl h1).1
  have hl0 : Listed { s with firstSleep := [] ++ s.firstSleep.filter (fun e => !expired now e) }
      nodes := ⟨hl.linked, hl.pids, hl.last⟩
  have hc1 : Cursor s1 nodes := fun c h => hc c (t.current.symm.trans h)
  obtain ⟨nodes', e, -, c, hn, r, hcur, -, -⟩ := nextProcess_reaped (t.listed hl0) hc1 h2
  refine ⟨nodes', e.listed, ⟨c, hn, (current_ok.mp hcur).1⟩, fun p => ?_⟩
  by_cases hp : p ∈ nodes'
  · obtain ⟨rp, hrp⟩ := e.listed.record hp
    simp [hp, hrp]
  · refine ⟨fun _ => hp, fun _ => ?_⟩
    by_cases hp0 : p ∈ nodes
    · exact (e.dead p hp0 hp).2
    · have hnone : s1.procs p = none := t.none.mpr ((records p).mpr hp0)
      have h := e.procs p (.inl hp0)
      rw [hnone] at h
      generalize s2.procs p = b at h
      cases h with
      | none => rfl

/-- A frame of a semaphore call that is not a pipe's. -/
def SemFrame (f : Frame) : Prop := f = .semPost ∨ ∃ sem, f = .semWait sem

/-- Kernel code that leaves the list in order and only frames of semaphore calls. -/
structure Tidy (k k' : Kernel) (flow : Flow) : Prop where
  orderly : Orderly k'.sched
  frames : ∀ p, ∀ f ∈ k'.frames p, f ∈ k.frames p
  rest : ∀ rest, flow = .timer rest → ∀ f ∈ rest, SemFrame f

theorem Tidy.ofExit {x : C (Exit × Sched)} {flow : Flow}
    (one : ∀ e s, x = .ok (e, s) → Orderly s) (run : ofExit k x = .ok (flow, k')) :
    Tidy k k' flow := by
  match x with
  | .error e => cases run
  | .ok (.ret code, s) =>
    obtain ⟨rfl, rfl⟩ := Prod.mk.inj (Except.ok.inj run)
    exact ⟨one _ _ rfl, fun _ _ h => h, fun rest h => by cases h⟩
  | .ok (.forceTimer, s) =>
    obtain ⟨rfl, rfl⟩ := Prod.mk.inj (Except.ok.inj run)
    refine ⟨one _ _ rfl, fun _ _ h => h, fun rest h => ?_⟩
    obtain rfl := Flow.timer.inj h
    simp

/-- What the claim's runs may call: everything but pipes; `semPost` does not pop its own
caller's pid, and `enqueueProcess` gives out a pid that no record has. -/
def Proper (k : Kernel) : Action → Prop
  | .call (.semPost sem) _ _ => ∀ x pid rest c r, k.sems sem = some x →
      x.entering = pid :: rest → k.sched.current = .ok (c, r) → r.pid ≠ pid
  | .call (.enqueueProcess _ _ _) _ _ => FreshPid k.sched
  | .call (.openPipe _ _) _ _ => False
  | .call (.writePipe _ _ _) _ _ => False
  | .call (.readPipe _ _ _) _ _ => False
  | .call (.closePipe _ _) _ _ => False
  | _ => True

theorem semWait_tidy {m : Option Ptr} {sem : Ptr} {flow : Flow} (h : Wired k.sched nodes)
    (run : Semaphore.semWait fuel m sem k = .ok (flow, k')) : Tidy k k' flow := by
  obtain ⟨-, x, pid, -, -, ⟨-, rfl, rfl⟩ | ⟨-, e, s, hb, hcase⟩⟩ := semWait_cases run
  · exact ⟨⟨nodes, h⟩, fun _ _ h => h, fun rest h => by cases h⟩
  have ordered := block_orderly h hb
  rcases hcase with ⟨-, rfl, rfl⟩ | ⟨-, run1⟩
  · refine ⟨ordered, fun _ _ h => h, fun rest h => ?_⟩
    obtain rfl := Flow.timer.inj h
    exact fun f hf => .inr ⟨sem, by simpa using hf⟩
  · obtain ⟨rfl, -, x', pid', -, -, rfl⟩ := semWaitBlocked_cases run1
    exact ⟨ordered, fun _ _ h => h, fun rest h => by cases h⟩

theorem semPost_tidy {sem : Ptr} {flow : Flow} (h : Wired k.sched nodes)
    (proper : ∀ x pid rest c r, k.sems sem = some x → x.entering = pid :: rest →
      k.sched.current = .ok (c, r) → r.pid ≠ pid)
    (run : Semaphore.semPost fuel sem k = .ok (flow, k')) : Tidy k k' flow := by
  obtain ⟨-, x, hx, ⟨-, rfl, rfl⟩ | ⟨pid, rest, e, s, hq, hu, rfl, hcase⟩⟩ := semPost_cases run
  · exact ⟨⟨nodes, h⟩, fun _ _ h => h, fun rest h => by cases h⟩
  have ordered := unblockFirst_orderly h (fun c r => proper x pid rest c r hx hq) hu
  refine ⟨ordered, fun _ _ h => h, fun left h => ?_⟩
  rcases hcase with ⟨-, rfl⟩ | ⟨-, rfl⟩
  · obtain rfl := Flow.timer.inj h
    exact fun f hf => .inl (by simpa using hf)
  · cases h

theorem invoke_tidy {call : Call} {now : Int} {rsp : Nat} {flow : Flow} (h : Wired k.sched nodes)
    (proper : Proper k (.call call now rsp)) (run : invoke fuel k call = .ok (flow, k')) :
    Tidy k k' flow := by
  cases call with
  | quitCPU => exact .ofExit (fun e s => quitCPU_orderly h) run
  | enqueueProcess foreground fd m =>
    obtain ⟨⟨pid, s⟩, h1, run1⟩ := bind_ok.mp run
    obtain ⟨p, -, run2⟩ := bind_ok.mp run1
    obtain ⟨rfl, rfl⟩ := Prod.mk.inj (Except.ok.inj run2)
    refine ⟨enqueueProcess_orderly h proper h1, fun q f hf => ?_, fun rest h => by cases h⟩
    simp only [Function.update_apply] at hf
    split at hf
    · simp at hf
    · exact hf
  | block pid => exact .ofExit (fun e s => block_orderly h) run
  | unblock pid => exact .ofExit (fun e s => unblock_orderly h) run
  | kill pid => exact .ofExit (fun e s => kill_orderly h) run
  | nice pid offset => exact .ofExit (fun e s => nice_orderly h) run
  | wait => exact .ofExit (fun e s => wait_orderly h) run
  | blockIo => exact .ofExit (fun e s => blockIo_orderly h) run
  | sleep now secs m => exact .ofExit (fun e s => sleep_orderly h) run
  | semOpen name value m =>
    obtain ⟨⟨p, k1⟩, h1, run1⟩ := bind_ok.mp run
    obtain ⟨rfl, rfl⟩ := Prod.mk.inj (Except.ok.inj run1)
    obtain ⟨-, ⟨-, rfl⟩ | ⟨-, -, rfl⟩⟩ := semOpen_cases h1
    · exact ⟨⟨nodes, h⟩, fun _ _ h => h, fun rest h => by cases h⟩
    · exact ⟨⟨nodes, h⟩, fun _ _ h => h, fun rest h => by cases h⟩
  | semWait m sem => exact semWait_tidy h run
  | semPost sem => exact semPost_tidy h proper run
  | semClose sem =>
    obtain ⟨⟨code, k1⟩, h1, run1⟩ := bind_ok.mp run
    obtain ⟨rfl, rfl⟩ := Prod.mk.inj (Except.ok.inj run1)
    obtain ⟨rfl, -⟩ | ⟨q, -, -, -, rfl⟩ := semClose_cases h1
    · exact ⟨⟨nodes, h⟩, fun _ _ h => h, fun rest h => by cases h⟩
    · exact ⟨⟨nodes, h⟩, fun _ _ h => h, fun rest h => by cases h⟩
  | openPipe name m => exact proper.elim
  | writePipe m fd c => exact proper.elim
  | readPipe m m' fd => exact proper.elim
  | closePipe m fd => exact proper.elim

/-- Frames of semaphore calls leave the scheduler alone and run to their end. -/
theorem runFrames_tidy {frames : List Frame} {flow : Flow} (simple : ∀ f ∈ frames, SemFrame f)
    (run : runFrames fuel frames k = .ok (flow, k')) :
    flow = .ret ∧ k'.sched = k.sched ∧ k'.frames = k.frames := by
  induction frames generalizing k with
  | nil =>
    obtain ⟨rfl, rfl⟩ := Prod.mk.inj (Except.ok.inj run)
    exact ⟨rfl, rfl, rfl⟩
  | cons f frames ih =>
    obtain ⟨⟨flow1, k1⟩, h1, run1⟩ := bind_ok.mp run
    have one : flow1 = .ret ∧ k1.sched = k.sched ∧ k1.frames = k.frames := by
      rcases simple f List.mem_cons_self with rfl | ⟨sem, rfl⟩
      · obtain ⟨rfl, -, rfl⟩ := semPostUnblocked_cases h1
        exact ⟨rfl, rfl, rfl⟩
      · obtain ⟨rfl, -, x, pid, -, -, rfl⟩ := semWaitBlocked_cases h1
        exact ⟨rfl, rfl, rfl⟩
    obtain ⟨rfl, hs, hf⟩ := one
    obtain ⟨h2, hs2, hf2⟩ := ih (fun g hg => simple g (List.mem_cons_of_mem _ hg)) run1
    exact ⟨h2, hs2.trans hs, hf2.trans hf⟩

/-- What holds between two steps. -/
def Inv (k : Kernel) : Prop := Orderly k.sched ∧ ∀ p, ∀ f ∈ k.frames p, SemFrame f

theorem timer_inv {now : Int} {rsp : Nat} (h : Inv k) (run : timer fuel now rsp k = .ok k') :
    Inv k' := by
  obtain ⟨⟨nodes, w⟩, hf⟩ := h
  obtain ⟨s, h1, run1⟩ := bind_ok.mp run
  obtain rfl := Except.ok.inj run1
  exact ⟨irq00Handler_orderly w.listed w.cursor w.records h1, hf⟩

theorem leave_inv {now : Int} {rsp : Nat} {c : Ptr} {flow : Flow} {k₁ : Kernel}
    (hf : ∀ p, ∀ f ∈ k.frames p, SemFrame f) (tidy : Tidy k k₁ flow)
    (run : leave fuel now rsp c (flow, k₁) = .ok k') : Inv k' := by
  have hf1 : ∀ p, ∀ f ∈ k₁.frames p, SemFrame f := fun p f h => hf p f (tidy.frames p f h)
  cases flow with
  | ret =>
    obtain rfl := Except.ok.inj run
    exact ⟨tidy.orderly, hf1⟩
  | timer rest =>
    refine timer_inv (k := { k₁ with frames := Function.update k₁.frames c rest })
      ⟨tidy.orderly, fun p f hp => ?_⟩ run
    simp only [Function.update_apply] at hp
    split at hp
    · exact tidy.rest rest rfl f hp
    · exact hf1 p f hp

/-- One step. -/
theorem step_inv {a : Action} (h : Inv k) (proper : Proper k a) (step : Step k a k') : Inv k' := by
  obtain ⟨-, fuel, run⟩ := step
  obtain ⟨⟨nodes, w⟩, hf⟩ := h
  cases a with
  | tick now rsp => exact timer_inv ⟨⟨nodes, w⟩, hf⟩ run
  | key =>
    obtain ⟨s, h1, run1⟩ := bind_ok.mp run
    obtain rfl := Except.ok.inj run1
    exact ⟨⟨nodes, w.awaken (unblockIoFrom_awaken h1)⟩, hf⟩
  | call c now rsp =>
    obtain ⟨cur, -, run1⟩ := bind_ok.mp run
    obtain ⟨⟨flow, k1⟩, h1, run2⟩ := bind_ok.mp run1
    exact leave_inv hf (invoke_tidy w proper h1) run2
  | resume now rsp =>
    obtain ⟨cur, -, run1⟩ := bind_ok.mp run
    obtain ⟨⟨flow, k1⟩, h1, run2⟩ := bind_ok.mp run1
    obtain ⟨rfl, hs, hfr⟩ := runFrames_tidy (hf cur) h1
    refine leave_inv (k := k) hf ⟨?_, fun p f hp => ?_, fun rest h => by cases h⟩ run2
    · rw [hs]
      exact ⟨nodes, w⟩
    · rw [hfr] at hp
      simp only [Function.update_apply] at hp
      split at hp
      · simp at hp
      · exact hp

theorem run_inv {k₀ : Kernel} (h : Inv k₀) (run : Run Proper k₀ k) : Inv k := by
  induction run with
  | refl => exact h
  | step _ proper step ih => exact step_inv ih proper step

/-- The first process of a scheduler without a current one. -/
theorem boot_enqueue {nullPid foreground pid : Int} {fd : Option Ptr} {m : Mallocs}
    (hl : Listed s nodes) (hc : s.currentProcess = none)
    (records : ∀ p, s.procs p = none ↔ p ∉ nodes) (fresh : FreshPid s)
    (run : enqueueProcess fuel nullPid foreground fd m s = .ok (pid, s')) :
    pid = s.pids ∧ s'.pids = int32 (s.pids + 1) ∧ s'.currentProcess = none ∧ ∃ p,
      Listed s' (nodes ++ [p]) ∧ (∀ q, s'.procs q = none ↔ q ∉ nodes ++ [p]) ∧
      ∀ q, pidOf s' q = pidOf s q ∨ pidOf s' q = some s.pids := by
  obtain ⟨hpid, p, -, hl', e⟩ := enqueueProcess_cases hl (fun x _ => fresh x) run
  refine ⟨hpid, e.pids, e.current.trans hc, p, hl', enqueue_records e records, fun q => ?_⟩
  by_cases hq : q = p
  · obtain ⟨r, hr, hrp, -⟩ := e.made
    exact .inr (by rw [hq, pidOf_of hr, hrp])
  · have h := e.procs q hq
    left
    simp only [pidOf]
    generalize s.procs q = a at *
    generalize s'.procs q = b at *
    cases h with
    | none => rfl
    | some h => exact congrArg some h.kept.pid

/-- The state that `main` leaves. -/
theorem boot_inv {nullPid now : Int} {rsp : Nat} {mIdle mSample : Mallocs}
    (run : boot fuel nullPid now rsp mIdle mSample = .ok k) : Inv k := by
  obtain ⟨s4, h, run1⟩ := bind_ok.mp run
  obtain rfl := Except.ok.inj run1
  refine ⟨?_, fun p f hf => by simp at hf⟩
  obtain ⟨s2, h2, run2⟩ := bind_ok.mp h
  obtain ⟨⟨pid', s3⟩, h3, run3⟩ := bind_ok.mp run2
  obtain ⟨⟨pid, s1⟩, h1, run4⟩ := bind_ok.mp h2
  obtain ⟨⟨e, s1'⟩, hn, run5⟩ := bind_ok.mp run4
  obtain rfl := Except.ok.inj run5
  have hl0 : Listed reset [] := ⟨rfl, by simp, rfl⟩
  obtain ⟨rfl, hp1, hc1, p, hl1, rec1, pids1⟩ := boot_enqueue hl0 rfl
    (fun p => by simp [reset]) (fun p => by simp [pidOf, reset]) h1
  rw [List.nil_append] at hl1 rec1
  -- `nice` writes a priority
  obtain ⟨hl2, hc2, hp2, rec2, pids2⟩ : Listed s1' [p] ∧ s1'.currentProcess = none ∧
      s1'.pids = s1.pids ∧ (∀ q, s1'.procs q = none ↔ q ∉ [p]) ∧
      ∀ q, pidOf s1' q = pidOf s1 q := by
    rcases nice_cases hl1 hn with rfl | ⟨d, -, r, hr, -, -, -, rfl⟩
    · exact ⟨hl1, hc1, rfl, rec1, fun q => rfl⟩
    · have t : Rel (fun _ a b => b.next = a.next ∧ b.pid = a.pid) s1 (s1.put d { r with
          priority := char (19 + 20) }) := rel_put (fun _ _ => ⟨rfl, rfl⟩) hr ⟨rfl, rfl⟩
      exact ⟨t.listed (fun _ _ _ h => h.1) (fun _ _ _ h => h.2) hl1, hc1, rfl,
        fun q => t.none.trans (rec1 q), put_pidOf hr rfl⟩
  obtain ⟨-, -, hc3, q, hl3, rec3, -⟩ := boot_enqueue hl2 hc2 rec2 (fun x => by
    rw [pids2 x, hp2, hp1]
    rcases pids1 x with h | h
    · rw [h]
      simp [pidOf, reset]
    · rw [h]
      decide) h3
  exact irq00Handler_orderly hl3 (fun c h => by rw [hc3] at h; cases h) rec3 run3

/-- From boot on, in every run whose posts do not pop their own caller and whose new pids are
new, the list is in order in every state. -/
theorem run_orderly {nullPid now : Int} {rsp : Nat} {mIdle mSample : Mallocs} {k₀ : Kernel}
    (start : boot fuel nullPid now rsp mIdle mSample = .ok k₀) (run : Run Proper k₀ k) :
    Orderly k.sched :=
  (run_inv (boot_inv start) run).1

end

theorem run_orderly_semWait : ∃ k₀ k, boot 20 0 0 777 (blocks 0) (blocks 1) = .ok k₀ ∧
    play 20 [.tick 0 0, .call (.semOpen "s" 1 semBlocks) 0 0, .call (.semWait none 5000) 0 0,
      .tick 0 0] k₀ = some k ∧ k.sched.currentProcess = some 1101 ∧ Orderly k.sched := by
  have h : ((boot 20 0 0 777 (blocks 0) (blocks 1)).toOption.bind (play 20 [.tick 0 0,
      .call (.semOpen "s" 1 semBlocks) 0 0, .call (.semWait none 5000) 0 0, .tick 0 0])).map
      (·.sched.currentProcess) = some (some 1101) := by decide +kernel
  obtain ⟨k₀, k, h₀, hk, hv⟩ := boot_play h
  refine ⟨k₀, k, h₀, hk, hv, run_orderly h₀ (play_run (fun k a ha => ?_) .refl hk)⟩
  simp only [List.mem_cons, List.not_mem_nil, or_false] at ha
  rcases ha with rfl | rfl | rfl | rfl <;> trivial

/-- The calls of the claim, without a condition. -/
def Listing (_ : Kernel) : Action → Prop
  | .tick _ _ => True
  | .key => True
  | .resume _ _ => True
  | .call (.enqueueProcess _ _ _) _ _ => True
  | .call (.block _) _ _ => True
  | .call (.unblock _) _ _ => True
  | .call (.semOpen _ _ _) _ _ => True
  | .call (.semWait _ _) _ _ => True
  | .call (.semPost _) _ _ => True
  | .call (.kill _) _ _ => True
  | .call (.wait) _ _ => True
  | .call (.nice _ _) _ _ => True
  | .call (.blockIo) _ _ => True
  | _ => False

/-- Process 2 waits for the semaphore, 3 unblocks it from outside; 2 is still queued. -/
def selfPost : List Action :=
  [.tick 0 0, .call (.semOpen "s" 0 semBlocks) 0 0, .call (.enqueueProcess 1 none (blocks 2)) 0 0,
    .call (.semWait (some 6000) 5000) 0 0, .call (.unblock 2) 0 0, .call .blockIo 0 0,
    .resume 0 0, .call (.semPost 5000) 0 0]

/-- Then 2 posts, pops its own pid, is unlinked and linked to itself: it runs, and is not in the
list. -/
theorem selfPost_disorderly : ∃ k₀ k, boot 20 0 0 777 (blocks 0) (blocks 1) = .ok k₀ ∧
    Run Listing k₀ k ∧ ¬ Orderly k.sched := by
  have h : ((boot 20 0 0 777 (blocks 0) (blocks 1)).toOption.bind (play 20 selfPost)).map
      (fun k => (k.sched.currentProcess, k.sched.firstProcess, link k.sched 1001,
        link k.sched 1201)) = some (some 1101, some 1001, some (some 1201), some none) := by
    decide +kernel
  obtain ⟨k₀, k, h₀, hk, hv⟩ := boot_play h
  refine ⟨k₀, k, h₀, play_run (fun k a ha => ?_) .refl hk, ?_⟩
  · simp only [selfPost, List.mem_cons, List.not_mem_nil, or_false] at ha
    rcases ha with rfl | rfl | rfl | rfl | rfl | rfl | rfl | rfl <;> trivial
  · simp only [Prod.mk.injEq] at hv
    obtain ⟨hc, hf, h1, h2⟩ := hv
    rintro ⟨nodes, hl, ⟨c, hn, hc'⟩, -⟩
    have path : Linked (link k.sched) k.sched.firstProcess [1001, 1201] none :=
      ⟨hf, _, h1, rfl, _, h2, rfl⟩
    obtain rfl := linked_unique hl.linked path
    obtain rfl := Option.some.inj (hc.symm.trans hc')
    simp at hn

end BottlerOS.ListRuns
