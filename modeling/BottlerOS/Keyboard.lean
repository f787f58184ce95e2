import BottlerOS.Scheduler

/-! `Kernel/drivers/keyboard.c` and the part of the system call `read` that reads STDIN.
Interrupts are masked in both: the `read` loop only stops for others in `blockIO()`. -/

namespace BottlerOS.Keyboard
open Machine Scheduler

def SIZE : Nat := 1

/-- The first entries of the two tables of 250; the others are 0. -/
structure Layout where
  kbd : List Char
  kbd_sh : List Char

/-- The tables without `SPANISH`. -/
def english : Layout where
  kbd :=
    ['\x00', '\x1b', '1', '2', '3', '4', '5', '6', '7', '8', '9', '0', '-', '=', '\x08', '\x09',
     'q', 'w', 'e', 'r', 't', 'y', 'u', 'i', 'o', 'p', '[', ']', '\x0a', '\x00', 'a', 's', 'd',
     'f', 'g', 'h', 'j', 'k', 'l', ';', '\x27', '\x60', '\x00', '\x5c', 'z', 'x', 'c', 'v', 'b',
     'n', 'm', ',', '.', '/', '\x00', '*', '\x00', ' ', '\x00', '\x00', '\x00', '\x00', '\x00',
     '\x00', '\x00', '\x00', '\x00', '\x00', '\x00', '\x00', '\x00', '\x00', '\x00', '\x00', '-',
     '\x00', '\x00', '\x00', '+']
  kbd_sh :=
    ['\x00', '\x1b', '!', '\x22', '#', '\x00', '%', '&', '/', '(', ')', '=', '?', '\x60', '\x08',
     '\x09', 'Q', 'W', 'E', 'R', 'T', 'Y', 'U', 'I', 'O', 'P', '\x7b', '\x7d', '\x0a', '\x00',
     'A', 'S', 'D', 'F', 'G', 'H', 'J', 'K', 'L', ':', '\x27', '>', '\x00', '|', 'Z', 'X', 'C',
     'V', 'B', 'N', 'M', ';', ':', '_', '\x00', '*', '\x00', ' ', '\x00', '\x00', '\x00', '\x00',
     '\x00', '\x00', '\x00', '\x00', '\x00', '\x00', '\x00', '\x00', '\x00', '\x00', '\x00',
     '\x00', '-', '\x00', '\x00', '\x00', '+', '\x00', '\x00', '\x00', '\x00', '\x00', '\x00',
     '\x00', '>']

/-- The driver's globals, its two pointers as offsets into `buffer`, and the characters that
`saveChar` got so far. -/
structure Driver where
  buffer : Nat → UInt8
  current : Nat
  last : Nat
  flagChangeAlt : UInt8
  flagChangeF1 : UInt8
  flag : UInt8
  saved : List UInt8

def reset : Driver where
  buffer := fun _ => 0
  current := 0
  last := 0
  flagChangeAlt := 1
  flagChangeF1 := 1
  flag := 1
  saved := []

def saveChar (c : UInt8) (k : Driver) : C Driver :=
  if k.last < SIZE then
    pure { k with
      buffer := Function.update k.buffer k.last c
      last := if k.last + 1 = SIZE then 0 else k.last + 1
      saved := k.saved ++ [c] }
  else .error .outOfBounds

/-- `kbd[c]` or `kbd_sh[c]` -/
def key (table : List Char) (c : UInt8) : C UInt8 :=
  if c.toNat < 250 then pure ((table[c.toNat]?.getD '\x00').toUInt8) else .error .outOfBounds

def testKeyboardInterrupt (layout : Layout) (c : UInt8) (k : Driver) : C Driver :=
  if c = 0x2A ∨ c = 0x36 then pure { k with flag := 0 }
  else if c = 0xAA ∨ c = 0xB6 then pure { k with flag := 1 }
  else
    let k :=
      if c = 0x3A then { k with flag := ~~~(k.flag ||| 0xFE) }
      else if c = 0x38 then { k with flagChangeAlt := 0 }
      else if c = 0x3B then { k with flagChangeF1 := 0 }
      else k
    if k.flagChangeAlt = 0 ∧ k.flagChangeF1 = 0 then
      saveChar 255 { k with flagChangeAlt := 1, flagChangeF1 := 1 }
    else if c = 0xB8 then pure { k with flagChangeAlt := 1 }
    else if c = 0xBB then pure { k with flagChangeF1 := 1 }
    else if k.flag = 0 then do
      let c ← key layout.kbd_sh c
      if c ≠ 0 then saveChar c k else pure k
    else do
      let c ← key layout.kbd c
      if c ≠ 0 then saveChar c k else pure k

def getKeyFromBuffer (k : Driver) : C (UInt8 × Driver) :=
  let current := if k.current = SIZE then 0 else k.current
  if current < SIZE then
    pure (k.buffer current,
      { k with buffer := Function.update k.buffer current 0, current := current + 1 })
  else .error .outOfBounds

/-- The loop of `read`, to its end or to the first time it finds no key: the bytes it stores,
and in the second case how many it still waits for. -/
def readKeys : (length : Nat) → Driver → C (List UInt8 × Option Nat × Driver)
  | 0, k => pure ([], none, k)
  | length + 1, k => do
      let (c, k) ← getKeyFromBuffer k
      if c = 0 then pure ([], some (length + 1), k)
      else if c = 255 then pure ([c], none, k)
      else
        let (bytes, left, k) ← readKeys length k
        pure (c :: bytes, left, k)

/-- A `read` that waits in `blockIO()`: the byte in front of its buffer, how many bytes it
still waits for, and those it has stored. -/
structure Reading where
  before : UInt8
  length : Nat
  bytes : List UInt8

/-- The kernel with its keyboard, the one process that reads it, and the bytes that its
finished calls of `read` returned. -/
structure Console where
  sched : Sched
  keyboard : Driver
  reading : Option Reading
  returned : List UInt8

/-- The loop of `read` from where it polls the keyboard. -/
def poll (fuel : Nat) (now : Int) (rsp : Nat) (r : Reading) (c : Console) : C Console := do
  let (bytes, left, k) ← readKeys r.length c.keyboard
  match left with
  | none =>
      pure { c with keyboard := k, reading := none, returned := c.returned ++ (r.bytes ++ bytes) }
  | some length =>
      match ← blockIo c.sched with
      -- no key can come while it polls
      | (.ret _, _) => .error .hang
      | (.forceTimer, s) =>
          let s ← irq00Handler fuel now rsp s
          pure { c with
            sched := s
            keyboard := k
            reading := some { r with length := length, bytes := r.bytes ++ bytes } }

def isForeground (s : Sched) : C Int :=
  match s.currentProcess with
  | none => pure (-1)
  | some c => do
      let r ← load s.procs c
      pure r.foreground

def read (fuel length : Nat) (before : UInt8) (now : Int) (rsp : Nat) (c : Console) :
    C Console := do
  if (← isForeground c.sched) = 0 then pure c
  else poll fuel now rsp { before := before, length := length, bytes := [] } c

/-- `read` back from `blockIO()`. Its test for -1 looks at the byte in front of the next. -/
def resume (fuel : Nat) (now : Int) (rsp : Nat) (c : Console) : C Console :=
  match c.reading with
  | none => pure c
  | some r =>
      if r.bytes.getLastD r.before = 255 then
        pure { c with reading := none, returned := c.returned ++ r.bytes }
      else poll fuel now rsp r c

def keyboardHandler (fuel : Nat) (layout : Layout) (c : UInt8) (k : Console) : C Console := do
  let s ← unblockIo fuel k.sched
  let keyboard ← testKeyboardInterrupt layout c k.keyboard
  pure { k with sched := s, keyboard := keyboard }

end BottlerOS.Keyboard
