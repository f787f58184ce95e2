import BottlerOS.Arguments
import BottlerOS.LineParse

/-! `processInput` with everything it asks of the kernel and of the built-in commands for its
line, in order: the blocks, the pipe, the launches, `sys_wait`, and what it gives back. -/

namespace BottlerOS.ShellCalls
open Machine Shell ShellWords LineParse Arguments

/-- Commands are named by their index in `commands`, `incorrect_comm` by its token. -/
inductive Call where
  | malloc (size : Int) (p : Option Nat)
  | openPipe (fd : Nat) (opened : Option (Nat × Nat))
  | loadProcess (comm : Nat) (foreground argc : Int) (argv fd : Option Nat)
  | func (comm : Nat) (argc : Int) (argv : Option Nat)
  | wait
  | free (p : Option Nat)
  | closePipe (fd : Nat)
  | print (text : String)
  | incorrectComm (token : Nat)
  deriving DecidableEq

structure Turn where
  mem : Mem
  commands : List Cmd
  calls : List Call

def Turn.call (s : Turn) (c : Call) : Turn := { s with calls := s.calls ++ [c] }

/-- `sizeof(char *) * n` as a `size_t` -/
def sizeofPointers (n : Int) : Int := 8 * n % 2 ^ 64

def incorrectComm (token : Nat) (s : Turn) : C Turn := do
  if (← s.mem.read token) ≠ 0 then pure (s.call (.incorrectComm token)) else pure s

/-- What follows the launch. -/
def finish (m : InputMallocs) (fd1 : Nat) (t : Split) (comm0 : Nat) (s : Turn) : C Turn := do
  let c ← deref s.commands[comm0]?
  let s := if c.isForeground ≠ 0 then s.call .wait else s
  let s := s.call (.free m.argv0)
  if t.pipe ≠ -1 then
    pure ((s.call (.free m.argv1)).call (.closePipe (s.mem.heap fd1 / 2 ^ 32)))
  else pure s

/-- `processInput` of a line with a pipe in it. -/
def processPiped (m : InputMallocs) (fd1 : Nat) (t : Split) (s : Turn) : C Turn := do
  let s := s.call (.malloc 8 m.fd)
  let fd ← deref m.fd
  let s := s.call (.openPipe fd m.opened)
  match m.opened with
  | none => pure s
  | some (r, w) => do
      let s := { s with mem := s.mem.storeInts fd r w }
      let s := s.call (.malloc 8 m.fd2)
      let fd2 ← deref m.fd2
      let s := { s with mem := (s.mem.storeInts fd1 0 w).storeInts fd2 r 1 }
      let s := s.call (.malloc (sizeofPointers t.pipe) m.argv0)
      let mem ← storeArgv m.argv0 (t.tokens.take t.pipe.toNat) s.mem
      let s := { s with mem := mem }
      let s := s.call (.malloc (sizeofPointers (t.end_ - t.pipe - 1)) m.argv1)
      let mem ← storeArgv m.argv1 ((t.tokens.take t.end_.toNat).drop (t.pipe.toNat + 1)) s.mem
      let s := { s with mem := mem }
      let first ← deref t.tokens[0]?
      let second ← deref t.tokens[(t.pipe + 1).toNat]?
      match ← lookup first s.mem s.commands 0 with
      | none => incorrectComm first s
      | some comm0 => do
          match ← lookup second s.mem s.commands 0 with
          | none => incorrectComm second s
          | some comm1 => do
              let head ← deref s.commands[0]?
              if head.isBuiltIn ≠ 0 ∧ t.ampersand ≠ 0 then
                pure (s.call (.print "built-in commands are not able to run in background\n"))
              else do
                let c0 ← deref s.commands[comm0]?
                let s := s.call (.loadProcess comm0 c0.isForeground t.pipe m.argv0 fd1)
                let s := s.call (.loadProcess comm1 0 (t.end_ - t.pipe - 1) m.argv1 fd2)
                finish m fd1 t comm0 s

/-- `processInput` of a line without a pipe in it. -/
def processSingle (m : InputMallocs) (fd1 : Nat) (t : Split) (s : Turn) : C Turn := do
  let s := s.call (.malloc (sizeofPointers t.end_) m.argv0)
  let mem ← storeArgv m.argv0 (t.tokens.take t.end_.toNat) s.mem
  let s := { s with mem := mem }
  let first ← deref t.tokens[0]?
  match ← lookup first s.mem s.commands 0 with
  | none => incorrectComm first s
  | some comm0 => do
      let c ← deref s.commands[comm0]?
      if c.isBuiltIn ≠ 0 then finish m fd1 t comm0 (s.call (.func comm0 t.end_ m.argv0))
      else do
        let c := if t.ampersand ≥ 0 then { c with isForeground := 0 } else c
        let s := { s with commands := s.commands.set comm0 c }
        finish m fd1 t comm0 (s.call (.loadProcess comm0 c.isForeground t.end_ m.argv0 fd1))

def processInput (m : InputMallocs) (mem : Mem) (commands : List Cmd) : C Turn := do
  let (t, mem) ← tokenLoop mem
  let s : Turn := { mem := mem, commands := commands, calls := [] }
  if t.pipe ≠ -1 ∧ t.ampersand ≥ 0 then
    pure (s.call (.print "piped processes are not able to run in background\n"))
  else do
    let s := s.call (.malloc 8 m.fd1)
    let fd1 ← deref m.fd1
    let s := { s with mem := s.mem.storeInts fd1 0 1 }
    if t.pipe ≠ -1 then processPiped m fd1 t s else processSingle m fd1 t s

/-- The command and foreground flag of a launch. -/
def Call.launch? : Call → Option (Nat × Int)
  | .loadProcess comm foreground _ _ _ => some (comm, foreground)
  | _ => none

def launches (calls : List Call) : List (Nat × Int) := calls.filterMap Call.launch?

/-- What a launch and a job of the shell have in common. -/
abbrev Brief := String × Int × Int × Option Nat × Option Nat

def Call.brief? (table : List Cmd) : Call → Option Brief
  | .loadProcess comm foreground argc argv fd =>
      table[comm]?.map fun c => (c.name, foreground, argc, argv, fd)
  | _ => none

def brief (j : Job) : Brief := (j.func, j.foreground, j.argc, j.argv, j.fd)

/-- The session and the turn have come to the same point from the commands `table` and the jobs
`before`. -/
structure Same (table : List Cmd) (before : List Job) (e : Session) (s : Turn) : Prop where
  mem : s.mem = e.mem
  commands : s.commands = e.commands
  jobs : ∃ jobs, e.jobs = before ++ jobs ∧ jobs.map brief = s.calls.filterMap (Call.brief? table)

section
variable {m : InputMallocs} {fd1 comm0 token : Nat} {t : Split} {line : List Int8} {r s : Turn}
  {e e' : Session} {table : List Cmd} {before : List Job}

theorem Same.call (h : Same table before e s) (c : Call) (other : c.launch? = none) :
    Same table before e (s.call c) := by
  obtain ⟨jobs, split, briefs⟩ := h.jobs
  refine ⟨h.mem, h.commands, jobs, split, ?_⟩
  have none : c.brief? table = .none := by
    cases c <;> first | rfl | cases other
  rw [briefs, Turn.call, List.filterMap_append, List.filterMap_cons_none none, List.filterMap_nil,
    List.append_nil]

theorem Same.store (h : Same table before e s) (mem : Mem) :
    Same table before { e with mem := mem } { s with mem := mem } :=
  ⟨rfl, h.commands, h.jobs⟩

theorem Same.load {j : Job} {c : Call} (h : Same table before e s)
    (here : c.brief? table = some (brief j)) : Same table before (e.load j) (s.call c) := by
  obtain ⟨jobs, split, briefs⟩ := h.jobs
  refine ⟨h.mem, h.commands, jobs ++ [j], ?_, ?_⟩
  · rw [Session.load, split, List.append_assoc]
  · rw [Turn.call, List.filterMap_append, List.map_append, briefs, List.filterMap_cons_some here]
    rfl

theorem Same.incorrectComm (h : Same table before e s)
    (run : Shell.incorrectComm token e = .ok e') :
    ∃ r, incorrectComm token s = .ok r ∧ Same table before e' r := by
  unfold Shell.incorrectComm at run
  obtain ⟨b, read, run⟩ := bind_ok.mp run
  rw [ShellCalls.incorrectComm, h.mem, read, ok_bind]
  split at run <;> rename_i visible
  · rw [if_pos visible]
    obtain rfl := Except.ok.inj run
    have same := h.call (.incorrectComm token) rfl
    exact ⟨_, rfl, same.mem, same.commands, same.jobs⟩
  · rw [if_neg visible]
    obtain rfl := Except.ok.inj run
    exact ⟨_, rfl, h⟩

/-- It always returns. -/
theorem Same.finish {c : Cmd} (h : Same table before e s) (here : s.commands[comm0]? = some c) :
    ∃ r, finish m fd1 t comm0 s = .ok r ∧ Same table before e r := by
  rw [ShellCalls.finish, here, deref_some, ok_bind]
  have waited : Same table before e (if c.isForeground ≠ 0 then s.call .wait else s) := by
    split
    · exact h.call .wait rfl
    · exact h
  simp only
  split
  · exact ⟨_, rfl, ((waited.call (.free m.argv0) rfl).call (.free m.argv1) rfl).call _ rfl⟩
  · exact ⟨_, rfl, waited.call (.free m.argv0) rfl⟩

theorem Same.processSingle (h : Same table before e s) (start : e.commands = table)
    (run : Shell.processSingle m fd1 t line e = .ok e') :
    ∃ r, processSingle m fd1 t s = .ok r ∧ Same table before e' r := by
  obtain ⟨mem, commands, calls⟩ := s
  obtain ⟨rfl, rfl, -⟩ := id h
  unfold Shell.processSingle at run
  obtain ⟨mem, store, run⟩ := bind_ok.mp run
  obtain ⟨first, hfirst, run⟩ := bind_ok.mp run
  obtain ⟨found, hlookup, run⟩ := bind_ok.mp run
  have same := (h.call (.malloc (sizeofPointers t.end_) m.argv0) rfl).store mem
  simp only [ShellCalls.processSingle, Turn.call, store, hfirst, hlookup, ok_bind]
  cases found with
  | none => exact same.incorrectComm run
  | some comm0 =>
    obtain ⟨c, hc, run⟩ := bind_ok.mp run
    have here : e.commands[comm0]? = some c := deref_ok.mp hc
    simp only [hc, ok_bind]
    split at run <;> rename_i builtIn
    · obtain rfl := Except.ok.inj run
      rw [if_pos builtIn]
      exact Same.finish (same.call (.func comm0 t.end_ m.argv0) rfl) here
    · obtain rfl := Except.ok.inj run
      rw [if_neg builtIn]
      generalize hc' : (if t.ampersand ≥ 0 then { c with isForeground := 0 } else c) = c'
      have name : c'.name = c.name := by
        rw [← hc']
        split <;> rfl
      obtain ⟨inside, -⟩ := List.getElem?_eq_some_iff.mp here
      have set : Same table before { e with mem := mem, commands := e.commands.set comm0 c' }
          ⟨mem, e.commands.set comm0 c', calls ++ [.malloc (sizeofPointers t.end_) m.argv0]⟩ :=
        ⟨rfl, rfl, same.jobs⟩
      refine Same.finish (c := c') (Same.load set ?_) ?_
      · rw [Call.brief?, ← start, here, Option.map_some, ← name]
        rfl
      · exact List.getElem?_set_self inside

theorem Same.processPiped (h : Same table before e s) (start : e.commands = table)
    (run : Shell.processPiped m fd1 t line e = .ok e') :
    ∃ r, processPiped m fd1 t s = .ok r ∧ Same table before e' r := by
  obtain ⟨mem, commands, calls⟩ := s
  obtain ⟨rfl, rfl, -⟩ := id h
  unfold Shell.processPiped at run
  obtain ⟨fd, hfd, run⟩ := bind_ok.mp run
  have same := (h.call (.malloc 8 m.fd) rfl).call (.openPipe fd m.opened) rfl
  simp only [ShellCalls.processPiped, Turn.call, hfd, ok_bind]
  split at run <;> rename_i opened
  · obtain rfl := Except.ok.inj run
    rw [opened] at same ⊢
    exact ⟨_, rfl, same⟩
  rename_i r w
  rw [opened] at same ⊢
  obtain ⟨fd2, hfd2, run⟩ := bind_ok.mp run
  obtain ⟨mem₀, store₀, run⟩ := bind_ok.mp run
  obtain ⟨mem₁, store₁, run⟩ := bind_ok.mp run
  obtain ⟨first, hfirst, run⟩ := bind_ok.mp run
  obtain ⟨second, hsecond, run⟩ := bind_ok.mp run
  obtain ⟨found, hlookup, run⟩ := bind_ok.mp run
  have same := (((same.call (.malloc 8 m.fd2) rfl).call
    (.malloc (sizeofPointers t.pipe) m.argv0) rfl).call
    (.malloc (sizeofPointers (t.end_ - t.pipe - 1)) m.argv1) rfl).store mem₁
  simp only [hfd2, store₀, store₁, hfirst, hsecond, hlookup, ok_bind]
  cases found with
  | none => exact same.incorrectComm run
  | some comm0 =>
    obtain ⟨found', hlookup', run⟩ := bind_ok.mp run
    simp only [hlookup', ok_bind]
    cases found' with
    | none => exact same.incorrectComm run
    | some comm1 =>
      obtain ⟨head, hhead, run⟩ := bind_ok.mp run
      simp only [hhead, ok_bind]
      split at run <;> rename_i refused
      · obtain rfl := Except.ok.inj run
        rw [if_pos refused]
        have told := same.call
          (.print "built-in commands are not able to run in background\n") rfl
        exact ⟨_, rfl, told.mem, told.commands, told.jobs⟩
      · obtain ⟨c0, hc0, run⟩ := bind_ok.mp run
        obtain ⟨c1, hc1, run⟩ := bind_ok.mp run
        obtain rfl := Except.ok.inj run
        have here0 : e.commands[comm0]? = some c0 := deref_ok.mp hc0
        have here1 : e.commands[comm1]? = some c1 := deref_ok.mp hc1
        simp only [if_neg refused, hc0, ok_bind]
        refine Same.finish (c := c0) (Same.load (Same.load same ?_) ?_) here0
        · rw [Call.brief?, ← start, here0]
          rfl
        · rw [Call.brief?, ← start, here1]
          rfl

/-- `processInput` here is the other one with its calls. -/
theorem processInput_session (run : Shell.processInput m e = .ok e') :
    ∃ r, processInput m e.mem e.commands = .ok r ∧ r.mem = e'.mem ∧ r.commands = e'.commands ∧
      ∃ jobs, e'.jobs = e.jobs ++ jobs ∧
        jobs.map brief = r.calls.filterMap (Call.brief? e.commands) := by
  suffices all : ∃ r, processInput m e.mem e.commands = .ok r ∧ Same e.commands e.jobs e' r by
    obtain ⟨r, ran, same⟩ := all
    exact ⟨r, ran, same.mem, same.commands, same.jobs⟩
  unfold Shell.processInput at run
  obtain ⟨start, strip, run⟩ := bind_ok.mp run
  obtain ⟨⟨t, mem⟩, cut, run⟩ := bind_ok.mp run
  have same : Same e.commands e.jobs { e with mem := mem } ⟨mem, e.commands, []⟩ :=
    ⟨rfl, rfl, [], (List.append_nil _).symm, rfl⟩
  have loop : tokenLoop e.mem = .ok (t, mem) := by
    rw [tokenLoop, strip, ok_bind]
    exact cut
  rw [processInput, loop, ok_bind]
  simp only at run ⊢
  split at run <;> rename_i refused
  · obtain rfl := Except.ok.inj run
    rw [if_pos refused]
    have told := same.call (.print "piped processes are not able to run in background\n") rfl
    exact ⟨_, rfl, told.mem, told.commands, told.jobs⟩
  · obtain ⟨fd1, hfd1, run⟩ := bind_ok.mp run
    have same := (same.call (.malloc 8 m.fd1) rfl).store (mem.storeInts fd1 0 1)
    simp only [if_neg refused, hfd1, ok_bind, Turn.call]
    split at run <;> rename_i piped
    · rw [if_pos piped]
      exact same.processPiped rfl run
    · rw [if_neg piped]
      exact same.processSingle rfl run

end

end BottlerOS.ShellCalls
