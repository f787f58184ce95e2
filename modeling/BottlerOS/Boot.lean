import BottlerOS.Library.ByteMemory
import BottlerOS.Library.PageWalk

/-! From the disk to the kernel: the boot record `bmfs_mbr.asm`, and of `pure64.asm` the tables it
writes and the copy of the kernel that it ends with. Registers are their values. The BIOS reads
without failing, and the stack of the boot record, which lies below it, is left out. -/

namespace BottlerOS.Boot
open Words

/-! `bootsectors/bmfs_mbr.asm` -/

/-- The registers of the loading loop. -/
structure Regs where
  ebx : Nat
  cx : Nat
  es : Nat

/-- A real-mode address. -/
def linear (segment offset : Nat) : Nat := 16 * segment + offset

/-- `add dh, 0x10` on a segment in `dx` -/
def nextSegment (dx : Nat) : Nat := (dx / 256 + 0x10) % 256 * 256 + dx % 256

/-- `readsector`: the sector `ebx` to `es:cx`. -/
def readsector (disk : Bytes) (r : Regs) (m : Bytes) : Regs × Bytes :=
  ({ ebx := (r.ebx + 1) % 0x100000000
     cx := (r.cx + 512) % 0x10000
     es := if 0x10000 ≤ r.cx + 512 then nextSegment r.es else r.es },
    fun x =>
      if linear r.es r.cx ≤ x ∧ x < linear r.es r.cx + 512 then
        disk (512 * r.ebx + (x - linear r.es r.cx))
      else m x)

/-- `load_nextsector`, with the count in `eax`. -/
def load_nextsector (disk : Bytes) : (eax : Nat) → Regs → Bytes → Regs × Bytes
  | 0, r, m => (r, m)
  | eax + 1, r, m =>
      let (r, m) := readsector disk r m
      load_nextsector disk eax r m

/-- `copy_single_segment`, `n` turns before `bx` wraps to 0. -/
def copy_single_segment (fs es : Nat) : (n bx : Nat) → Bytes → Bytes
  | 0, _, m => m
  | n + 1, bx, m =>
      copy_single_segment fs es n (bx + 1)
        (fun x => if x = linear es bx then m (linear fs bx) else m x)

/-- `copy_payload_to_free_mem`, `n` turns before `cx` is 0xA000. -/
def copy_payload_to_free_mem : (n ax cx : Nat) → Bytes → Bytes
  | 0, _, _, m => m
  | n + 1, ax, cx, m =>
      copy_payload_to_free_mem n (ax + 0x1000) (cx + 0x1000) (copy_single_segment ax cx 65536 0 m)

/-- The first word of `pure64.sys`. -/
def magic : Nat := 0xC03166FA

/-- The boot record up to its jump to 0x8000; without the magic number it halts. -/
def bmfs_mbr (disk : Bytes) (m : Bytes) : Option Bytes :=
  let (_, m) := load_nextsector disk 512 ⟨16, 0x8000, 0⟩ m
  if number m 4 0x8000 = magic then
    -- from 0x6000 to 0xA000 in steps of 0x1000
    some (copy_payload_to_free_mem 4 0x0800 0x6000 m)
  else none

/-! `pure64.asm` -/

/-- `stosd` -/
def stosd (edi eax : Nat) (m : Bytes) : Bytes := fun x =>
  if edi ≤ x ∧ x < edi + 4 then UInt8.ofNat (eax / 256 ^ (x - edi)) else m x

/-- `rep stosd` of 0 -/
def clear (edi ecx : Nat) (m : Bytes) : Bytes := fun x =>
  if edi ≤ x ∧ x < edi + 4 * ecx then 0 else m x

/-- `esp` in 32-bit mode. -/
def esp : Nat := 0x8000

/-- The loops `create_pdpe` and `pd_again`, `n` turns before their ends: an entry, whose upper
half is 0, and `eax` goes to the stack in between. -/
def entries (step : Nat) : (n edi eax : Nat) → Bytes → Bytes
  | 0, _, _, m => m
  | n + 1, edi, eax, m =>
      entries step n (edi + 8) ((eax + step) % 2 ^ 32)
        (stosd (edi + 4) 0 (stosd (esp - 4) eax (stosd edi eax m)))

def create_pdpe (edi eax : Nat) (m : Bytes) : Bytes := entries 0x1000 64 edi eax m

def pd_again (edi eax : Nat) (m : Bytes) : Bytes := entries 0x200000 2048 edi eax m

/-- The loop `buildem`, `n` turns before its end. -/
def buildem : (n rdi rax : Nat) → Bytes → Bytes
  | 0, _, _, m => m
  | n + 1, rdi, rax, m =>
      buildem n (rdi + 8) ((rax + 0x200000) % 2 ^ 64) (store64 rdi rax m)

/-- `gdt64` of `sysvar.asm` -/
def gdt64 : List Nat := [0, 0x0020980000000000, 0x0000900000000000]

/-- `rep movsb` of the GDT to 0x1000. -/
def copy_gdt (m : Bytes) : Bytes :=
  store64 0x1010 (gdt64.getD 2 0) (store64 0x1008 (gdt64.getD 1 0) (store64 0x1000 (gdt64.getD 0 0) m))

/-- What `start32` writes. -/
def start32 (m : Bytes) : Bytes :=
  let m := clear 0 1024 m
  let m := clear 0x10000 65536 m
  let m := copy_gdt m
  let m := stosd 0x2004 0 (stosd 0x2000 0x3007 m)
  let m := stosd 0x2804 0 (stosd 0x2800 0x3007 m)
  let m := create_pdpe 0x3000 0x10007 m
  pd_again 0x10000 0x8F m

/-- What `cr3` is set to. -/
def cr3 : Nat := 0x2008

/-- The tables as they are when the IDT is built. -/
def tables (m : Bytes) : Bytes := buildem 30720 0x14000 0x10000008F (start32 m)

end BottlerOS.Boot
