import BottlerOS.PackedImage
import BottlerOS.BmfsImage
import BottlerOS.BootTables
import BottlerOS.BootCopy

/-! From the packer to the running system: `ModulePacker` builds the image, `bmfs` puts it on a disk,
the boot record and Pure64 bring it to 1 MiB, and `Kernel/kernel.c` unpacks it there. -/

namespace BottlerOS.Boot
open Machine Words ByteMemory PackedImage Bmfs Qsort

/-! `Kernel/kernel.c` -/

/-- What `kernel.ld` defines. -/
structure Symbols where
  endOfKernelBinary : Nat
  bss : Nat
  endOfKernel : Nat

def sampleCodeModuleAddress : Nat := 0x400000
def sampleDataModuleAddress : Nat := 0x500000

/-- A kernel of `size` bytes, linked to 1 MiB, that ends below the modules. -/
structure Symbols.Linked (s : Symbols) (size : Nat) : Prop where
  binary : s.endOfKernelBinary = 0x100000 + size
  bss : s.endOfKernelBinary ≤ s.bss
  end_ : s.bss ≤ s.endOfKernel
  below : s.endOfKernel ≤ sampleCodeModuleAddress

section
variable {d d' : Disk} {m m' : Bytes} {f : Nat → UInt8} {a i n x : Nat}
  {pure64 image kernel code data xs : List UInt8} {s : Symbols}

/-- The kernel and its modules are in their places, and its `bss` is clear. -/
structure Started (s : Symbols) (kernel code data : List UInt8) (m : Memory) : Prop where
  kernel : Stored m.bytes 0x100000 kernel
  code : Stored m.bytes sampleCodeModuleAddress code
  data : Stored m.bytes sampleDataModuleAddress data
  bss : ∀ x, s.bss ≤ x → x < s.endOfKernel → m.bytes x = 0

end

/-! The whole way. -/

section
variable {qsort : (BMFSEntry → BMFSEntry → Int) → List BMFSEntry → List BMFSEntry}
  {kernelFile bootFile mbrFile size : CString} {diskname : String} {fuel' n : Nat}
  {fileArray : ArrayT} {kernel code data sector pure64 : List UInt8} {s : Symbols}

end

end BottlerOS.Boot
