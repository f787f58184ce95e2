import BottlerOS.Machine
import Mathlib.Data.List.GetD
import Mathlib.Data.List.TakeWhile

/-! `shell/commands/cat.c` and `shell/commands/filter.c`: the buffer of the lines that they read,
and the text that they print. -/

namespace BottlerOS.TextFilters
open Machine (INT_MAX)

def SIZE : Int := 1000

/-- `char buffer[SIZE]` -/
abbrev Buffer := Int → Int8

/-- An access outside the buffer, or an `int` that overflows, has no result. -/
def load (k : Int) (b : Buffer) : Option Int8 := if 0 ≤ k ∧ k < SIZE then some (b k) else none

def store (k : Int) (c : Int8) (b : Buffer) : Option Buffer :=
  if 0 ≤ k ∧ k < SIZE then some (Function.update b k c) else none

/-- `x + 1` of an `int` -/
def incr (x : Int) : Option Int := if x < INT_MAX then some (x + 1) else none

/-- The variables of both functions. -/
structure Loop where
  buffer : Buffer
  i : Int
  j : Int
  line : Int

/-- What `write` takes of the string at `p`, from its index `i` on: a terminal stops at -1. What the
console makes of the characters, of an escape sequence say, is not looked at here. -/
def taken (piped : Bool) (b : Buffer) (len : Int) : (fuel : Nat) → (p i : Int) → Option (List Int8)
  | 0, _, _ => none
  | fuel + 1, p, i => do
      let c ← load p b
      if c ≠ 0 ∧ i ≤ len then
        if c = -1 ∧ piped = false then some []
        else do
          let rest ← taken piped b len fuel (p + 1) (i + 1)
          some (c :: rest)
      else some []

/-- `printStringLen(buffer + line, j)`: past the buffer's end `taken` has no result, so the fuel is
enough. -/
def printStringLen (piped : Bool) (s : Loop) : Option (List Int8) :=
  taken piped s.buffer s.j 1001 s.line 0

/-- `buffer[i++] = c; j++;` -/
def push (c : Int8) (s : Loop) : Option Loop := do
  let b ← store s.i c s.buffer
  let j ← incr s.j
  some { s with buffer := b, i := s.i + 1, j := j }

/-- `buffer[--i] = 0;` -/
def pop (s : Loop) : Option Loop := do
  let b ← store (s.i - 1) 0 s.buffer
  some { s with buffer := b, i := s.i - 1 }

/-- What both do at a newline: the pieces they print, and the variables. -/
def flush (piped : Bool) (s : Loop) : Option (List (List Int8) × Loop) := do
  let piece ← printStringLen piped s
  some ([piece], { s with j := 0, line := s.i })

def isVocal (c : Int8) : Prop :=
  c = 65 ∨ c = 69 ∨ c = 73 ∨ c = 79 ∨ c = 85 ∨ c = 97 ∨ c = 101 ∨ c = 105 ∨ c = 111 ∨ c = 117

instance : DecidablePred isVocal := fun _ => inferInstanceAs (Decidable (_ ∨ _))

/-- The body of `cat`'s loop. -/
def catTurn (piped : Bool) (c : Int8) (s : Loop) : Option (List (List Int8) × Loop) := do
  let s ← push c s
  let (out, s) ← if c = 10 then flush piped s else some ([], s)
  if c = 8 then do
    let s ← pop s
    let s ← pop s
    some (out, s)
  else some (out, s)

/-- The body of `filter`'s loop. -/
def filterTurn (piped : Bool) (c : Int8) (s : Loop) : Option (List (List Int8) × Loop) := do
  let s ← if ¬ isVocal c then push c s else some s
  let s ← if c = 8 then do
      let s ← pop s
      let last ← load (s.i - 1) s.buffer
      if isVocal last then pop s else some s
    else some s
  if c = 10 then flush piped s else some ([], s)

/-- What both do after their loop, with the newline at the end. -/
def finish (piped : Bool) (c : Int8) (s : Loop) : Option (List (List Int8)) := do
  let s ← push c s
  let piece ← printStringLen piped s
  some [piece, [10]]

/-- The loop over the characters that `getChar` returns, and -1 after them. -/
def loop (piped : Bool) (turn : Int8 → Loop → Option (List (List Int8) × Loop)) :
    List Int8 → Loop → Option (List (List Int8))
  | [], s => finish piped (-1) s
  | c :: keys, s =>
      if 0 < c ∧ s.i < SIZE then do
        let (out, s) ← turn c s
        let rest ← loop piped turn keys s
        some (out ++ rest)
      else finish piped c s

def start : Loop := ⟨fun _ => 0, 0, 0, 0⟩

/-- The pieces that `cat` prints. -/
def cat (piped : Bool) (keys : List Int8) : Option (List (List Int8)) :=
  loop piped (catTurn piped) keys start

/-- The pieces that `filter` prints. -/
def filter (piped : Bool) (keys : List Int8) : Option (List (List Int8)) :=
  loop piped (filterTurn piped) keys start

/-- The lines of a text: a backspace erases the last character of its line. -/
def lines : (line : List Int8) → List Int8 → List (List Int8)
  | line, [] => [line]
  | line, c :: keys =>
      if c = 8 then lines line.dropLast keys
      else if c = 10 then (line ++ [10]) :: lines [] keys
      else lines (line ++ [c]) keys

/-- A piece without the mark of the end. -/
def text (piece : List Int8) : List Int8 := piece.takeWhile (· ≠ -1)

def consonants (line : List Int8) : List Int8 := line.filter fun c => ¬ isVocal c

end BottlerOS.TextFilters
