import BottlerOS.Library.ByteMemory
import BottlerOS.BmfsRuns
import BottlerOS.BmfsSize

/-! The disk that `bmfs` sets up: a boot sector, an empty directory, and the system behind it. No
later run of the program touches the boot sector or the system, if they end in front of block 1. -/

namespace BottlerOS.Bmfs
open Machine Words Extents Qsort ByteMemory

section
variable {d d' : Disk} {mbr system boot kernel rest : List UInt8} {size fuel n pos w : Nat}

end

/-! What the runs of the program leave alone. -/

section
variable {qsort : (BMFSEntry → BMFSEntry → Int) → List BMFSEntry → List BMFSEntry}
  {d d' : Disk} {host : Host} {fuel : Nat} {diskname : String} {command : Command}
  {cs : List (Command × Host)} {filename : CString} {s : Session}

end

/-! The command as a whole. -/

section
variable {qsort : (BMFSEntry → BMFSEntry → Int) → List BMFSEntry → List BMFSEntry}
  {host : Host} {fuel fuel' n : Nat} {diskname : String} {size mbr boot kernel : CString}
  {sector pure64 packed : List UInt8}

end

end BottlerOS.Bmfs
