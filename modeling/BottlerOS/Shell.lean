import Mathlib.Algebra.Order.Ring.Int
import BottlerOS.Machine

/-! The line loop of the user program `shell`: `scanfNoPrint`, `processInput` and the functions
of `libc.c` they cut a line up with. Tokens are offsets into the line buffer. What the shell
prints and the calls that leave its memory alone (`sys_wait`, `sys_free`, `sys_closePipe`, the
built-in commands) do nothing here. -/

namespace BottlerOS.Shell
open Machine

def SIZE : Nat := 100
def MAX_ARGS : Nat := 11

inductive Store where
  | byte (o : Nat) (b : Int8)
  | word (a : Nat) (w : Nat)
  deriving DecidableEq

/-- The line buffer, which is at the address `base`, the words of the heap by address, and all
stores so far. -/
structure Mem where
  base : Nat
  buffer : Nat → Int8
  heap : Nat → Nat
  log : List Store

namespace Mem

def apply (m : Mem) : Store → Mem
  | .byte o b => { m with buffer := Function.update m.buffer o b }
  | .word a w => { m with heap := Function.update m.heap a w }

def store (m : Mem) (st : Store) : Mem := { m.apply st with log := m.log ++ [st] }

/-- `buffer[o]` -/
def read (m : Mem) (o : Nat) : C Int8 :=
  if o < SIZE then pure (m.buffer o) else .error .outOfBounds

/-- `fd[0] = x; fd[1] = y;` for two `int`s that share a word. -/
def storeInts (m : Mem) (fd : Nat) (x y : Nat) : Mem :=
  let m := m.store (.word fd (m.heap fd / 2 ^ 32 * 2 ^ 32 + x))
  m.store (.word fd (y * 2 ^ 32 + m.heap fd % 2 ^ 32))

/-- `argv[i] = tokens[i]` for each token. -/
def storeTokens (m : Mem) (argv : Nat) : List Nat → Mem
  | [] => m
  | t :: tokens => (m.store (.word argv (m.base + t))).storeTokens (argv + 8) tokens

end Mem

/-- The characters of a string literal. -/
def chars (s : String) : List Int8 := s.toList.map fun c => c.toUInt8.toInt8

def strcmp : (s1 : Nat) → (s2 : List Int8) → Mem → C Int
  | s1, [], m => do
      let b ← m.read s1
      pure b.toInt
  | s1, c :: s2, m => do
      let b ← m.read s1
      if b ≠ 0 ∧ b = c then strcmp (s1 + 1) s2 m else pure (b.toInt - c.toInt)

/-- `strstrip` from an offset with `n` bytes of the buffer left. -/
def strstripFrom : (n : Nat) → (s : Nat) → (c : Int8) → Mem → C Nat
  | 0, _, _, _ => .error .outOfBounds
  | n + 1, s, c, m =>
      if m.buffer s ≠ 0 ∧ m.buffer s = c then strstripFrom n (s + 1) c m else pure s

def strstrip (s : Nat) (c : Int8) (m : Mem) : C Nat := strstripFrom (SIZE - s) s c m

/-- The loop of `strtok` with `n` bytes of the buffer left. -/
def strtokFrom : (n : Nat) → (flag : Bool) → (ptr : Nat) → (delim : Int8) → Mem → C (Nat × Mem)
  | 0, _, _, _, _ => .error .outOfBounds
  | n + 1, flag, ptr, delim, m =>
      if m.buffer ptr ≠ 0 then
        if m.buffer ptr = delim then
          strtokFrom n true (ptr + 1) delim (m.store (.byte ptr 0))
        else if flag then pure (ptr, m)
        else strtokFrom n flag (ptr + 1) delim m
      else pure (ptr, m)

def strtok (s : Nat) (delim : Int8) (m : Mem) : C (Nat × Mem) :=
  strtokFrom (SIZE - s) false s delim m

structure Cmd where
  name : String
  isBuiltIn : Int
  isForeground : Int

/-- `commands` without the sentinel at its end. -/
def commands : List Cmd :=
  [⟨"help", 0, 1⟩, ⟨"cat", 0, 1⟩, ⟨"time", 0, 1⟩, ⟨"block", 1, 1⟩, ⟨"unblock", 1, 1⟩,
   ⟨"inforeg", 0, 1⟩, ⟨"excdiv", 0, 1⟩, ⟨"excop", 0, 1⟩, ⟨"filter", 0, 1⟩, ⟨"clear", 1, 1⟩,
   ⟨"cpufeatures", 0, 1⟩, ⟨"nice", 0, 1⟩, ⟨"ps", 0, 1⟩, ⟨"pipes", 0, 1⟩, ⟨"kill", 1, 1⟩,
   ⟨"sem", 0, 1⟩, ⟨"quadratic", 0, 1⟩, ⟨"printmem", 0, 1⟩, ⟨"phylo", 0, 1⟩, ⟨"wc", 0, 1⟩,
   ⟨"loop", 0, 1⟩, ⟨"mem", 0, 1⟩, ⟨"test_mm", 0, 1⟩, ⟨"test_prio", 0, 1⟩,
   ⟨"test_processes", 0, 1⟩, ⟨"test_sync", 0, 1⟩, ⟨"test_no_sync", 0, 1⟩]

/-- A call of `sys_loadProcess`. Recorded with it: whether the line ended in `&`, the line, the
tokens stored at `argv`, and how many stores came before. -/
structure Job where
  func : String
  foreground : Int
  argc : Int
  argv : Option Nat
  fd : Option Nat
  background : Bool
  line : List Int8
  tokens : List Nat
  since : Nat

/-- The shell in `scanfNoPrint` with its index `i`, or returned. -/
structure Session where
  mem : Mem
  i : Nat
  commands : List Cmd
  jobs : List Job
  out : List String
  exited : Bool

/-- The string in the buffer. -/
def Mem.line (m : Mem) : List Int8 := ((List.range SIZE).map m.buffer).takeWhile (· ≠ 0)

/-- `tokens`, `pipe`, `end` and `ampersand` of `processInput`. -/
structure Split where
  tokens : List Nat
  pipe : Int
  end_ : Int
  ampersand : Int

/-- `i > 1 && !strcmp(token, literal)` -/
def isWord (i token : Nat) (literal : String) (m : Mem) : C Bool :=
  if i > 1 then do
    let d ← strcmp token (chars literal) m
    pure (d = 0)
  else pure false

/-- `n` turns of the loop that cuts the line up, from its index `i` on. -/
def splitFrom : (n i : Nat) → Split → Mem → C (Split × Mem)
  | 0, _, t, m => pure (t, m)
  | n + 1, i, t, m => do
      let last ← deref t.tokens[i - 1]?
      let (next, m) ← strtok last 32 m
      let isPipe ← isWord i last "|" m
      let t := { t with
        tokens := t.tokens ++ [next]
        pipe := if isPipe then i - 1 else t.pipe }
      let first ← m.read next
      if first = 0 then do
        let isAmpersand ← isWord i last "&" m
        if isAmpersand then
          pure ({ t with ampersand := i - 1, end_ := i - 1 }, m)
        else pure ({ t with end_ := i }, m)
      else splitFrom n (i + 1) t m

/-- The index of the command that a token names. -/
def lookup (token : Nat) (m : Mem) : List Cmd → Nat → C (Option Nat)
  | [], _ => pure none
  | c :: commands, i => do
      if (← strcmp token (chars c.name) m) = 0 then pure (some i)
      else lookup token m commands (i + 1)

/-- What `sys_malloc` returns in `processInput`, and the descriptors that `sys_openPipe` stores
(`none` if it fails). -/
structure InputMallocs where
  fd1 : Option Nat
  fd : Option Nat
  opened : Option (Nat × Nat)
  fd2 : Option Nat
  argv0 : Option Nat
  argv1 : Option Nat

/-- `argv = sys_malloc(..)` and its tokens. -/
def storeArgv (argv : Option Nat) (tokens : List Nat) (m : Mem) : C Mem :=
  if tokens = [] then pure m
  else do
    let a ← deref argv
    pure (m.storeTokens a tokens)

def Session.load (s : Session) (j : Job) : Session := { s with jobs := s.jobs ++ [j] }

def incorrectComm (token : Nat) (s : Session) : C Session := do
  if (← s.mem.read token) ≠ 0 then
    pure { s with out := s.out ++ [" is not a BottlerShell command\n"] }
  else pure s

/-- `processInput` of a line with a pipe in it. -/
def processPiped (m : InputMallocs) (fd1 : Nat) (t : Split) (line : List Int8) (s : Session) :
    C Session := do
  let fd ← deref m.fd
  match m.opened with
  | none => pure s
  | some (r, w) => do
      let s := { s with mem := s.mem.storeInts fd r w }
      let fd2 ← deref m.fd2
      let s := { s with mem := (s.mem.storeInts fd1 0 w).storeInts fd2 r 1 }
      let left := t.tokens.take t.pipe.toNat
      let right := (t.tokens.take t.end_.toNat).drop (t.pipe.toNat + 1)
      let mem ← storeArgv m.argv0 left s.mem
      let mem ← storeArgv m.argv1 right mem
      let s := { s with mem := mem }
      let first ← deref t.tokens[0]?
      let second ← deref t.tokens[(t.pipe + 1).toNat]?
      match ← lookup first s.mem s.commands 0 with
      | none => incorrectComm first s
      | some comm0 => do
          match ← lookup second s.mem s.commands 0 with
          | none => incorrectComm second s
          | some comm1 => do
              let head ← deref s.commands[0]?
              if head.isBuiltIn ≠ 0 ∧ t.ampersand ≠ 0 then
                pure { s with
                  out := s.out ++ ["built-in commands are not able to run in background\n"] }
              else do
                let c0 ← deref s.commands[comm0]?
                let c1 ← deref s.commands[comm1]?
                let s := s.load ⟨c0.name, c0.isForeground, t.pipe, m.argv0, some fd1, false, line,
                  left, s.mem.log.length⟩
                pure (s.load ⟨c1.name, 0, t.end_ - t.pipe - 1, m.argv1, some fd2, false, line,
                  right, s.mem.log.length⟩)

/-- `processInput` of a line without a pipe in it. -/
def processSingle (m : InputMallocs) (fd1 : Nat) (t : Split) (line : List Int8) (s : Session) :
    C Session := do
  let tokens := t.tokens.take t.end_.toNat
  let mem ← storeArgv m.argv0 tokens s.mem
  let s := { s with mem := mem }
  let first ← deref t.tokens[0]?
  match ← lookup first s.mem s.commands 0 with
  | none => incorrectComm first s
  | some comm0 => do
      let c ← deref s.commands[comm0]?
      if c.isBuiltIn ≠ 0 then pure s
      else
        let c := if t.ampersand ≥ 0 then { c with isForeground := 0 } else c
        let s := { s with commands := s.commands.set comm0 c }
        pure (s.load ⟨c.name, c.isForeground, t.end_, m.argv0, some fd1, decide (t.ampersand ≥ 0),
          line, tokens, s.mem.log.length⟩)

def processInput (m : InputMallocs) (s : Session) : C Session := do
  let line := s.mem.line
  let start ← strstrip 0 32 s.mem
  let (t, mem) ← splitFrom (MAX_ARGS - 1) 1
    { tokens := [start], pipe := -1, end_ := -1, ampersand := -1 } s.mem
  let s := { s with mem := mem }
  if t.pipe ≠ -1 ∧ t.ampersand ≥ 0 then
    pure { s with out := s.out ++ ["piped processes are not able to run in background\n"] }
  else do
    let fd1 ← deref m.fd1
    let s := { s with mem := s.mem.storeInts fd1 0 1 }
    if t.pipe ≠ -1 then processPiped m fd1 t line s else processSingle m fd1 t line s

/-- `shell` on one more character: a turn of the loop of `scanfNoPrint`, or its end and the
line's `processInput`. -/
def input (c : Int8) (m : InputMallocs) (s : Session) : C Session :=
  if c ≠ 10 ∧ s.i < SIZE - 1 then
    if c ≠ -1 then
      if c = 8 ∧ s.i > 0 then
        pure { s with mem := s.mem.store (.byte (s.i - 1) 32), i := s.i - 1 }
      else if c ≠ 0 ∧ c ≠ 8 then
        pure { s with mem := s.mem.store (.byte s.i c), i := s.i + 1 }
      else pure s
    else pure s
  else
    let s' := { s with mem := s.mem.store (.byte s.i 0) }
    if s.i ≠ 0 then do
      let s' ← processInput m s'
      pure { s' with i := 0 }
    else pure { s' with exited := true }

def start (base : Nat) (heap : Nat → Nat) : Session where
  mem := { base := base, buffer := fun _ => 0, heap := heap, log := [] }
  i := 0
  commands := commands
  jobs := []
  out := []
  exited := false

end BottlerOS.Shell
