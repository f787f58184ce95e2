import Mathlib.Data.List.Forall2
import BottlerOS.IntRoundTrip

/-! The hexadecimal dumps: `printRegs` of the kernel hands 64-bit values to `itoa`, which takes an
`int`, and `printmem` prints words of memory as `int`s. Neither prints a sign to the base 16. -/

namespace BottlerOS.HexDumps
open Machine Numeral Yields IntText TextInt IntRoundTrip

/-- What a string prints that has `n` characters at most. -/
def shown (n : Nat) (m : Buffer) : List Int8 := ((List.range n).map m).takeWhile (· ≠ 0)

/-- The values go through one buffer, and `printStringLen(.., 20)` prints up to 21 characters. -/
def printFrom (fuel : Nat) : List (String × UInt64) → Buffer → C (List (String × List Int8))
  | [], _ => pure []
  | (name, value) :: rest, buffer => do
      let buffer ← kernelItoa fuel (int32 value.toNat) buffer 16 20
      let entries ← printFrom fuel rest buffer
      pure ((name, shown 21 buffer) :: entries)

/-- `_getMem` of eight words. -/
def getMem (mem : Int → UInt32) (initialAddress : Int) : List UInt32 :=
  (List.range 8).map fun i : Nat => mem (int32 (initialAddress + i * 4))

def strlen (m : Buffer) : (fuel : Nat) → (i : Nat) → C Nat
  | 0, _ => .error .hang
  | fuel + 1, i => if m i ≠ 0 then strlen m fuel (i + 1) else pure i

/-- The loop of `printmem`; `bufferAux` is the memory from its first byte on. -/
def printWords (fuel : Nat) (bufferAux : Buffer) : List UInt32 → C (List (List Int8))
  | [] => pure []
  | word :: words => do
      let m ← itoa fuel (int32 word.toNat) bufferAux 16
      let len ← strlen m fuel 0
      let lines ← printWords fuel m words
      pure ((List.range len).map m :: lines)

/-- `printmem` of the address in its argument: the digits behind each `0x`. -/
def printmem (fuel size : Nat) (argv1 : Buffer) (mem : Int → UInt32) (bufferAux : Buffer) :
    C (List (List Int8)) := do
  let initialAddress ← atoi fuel size argv1
  printWords fuel bufferAux (getMem mem initialAddress)

section
variable {x : Int} {l : List Int8} {m : Buffer} {v : Nat}

end

end BottlerOS.HexDumps
