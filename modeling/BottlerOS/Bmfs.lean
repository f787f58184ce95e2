import BottlerOS.Library.Words
import BottlerOS.Machine

/-! `Bootloader/BMFS/bmfs.c`: a disk of 2 MiB blocks, with a directory of 64 records in its first
block. Every command is a run of the program: it reads the directory from the disk and writes
back what it has changed. -/

namespace BottlerOS.Bmfs
open Machine Words

def BLOCK_SIZE : Nat := 2097152

/-- A string without its NUL. -/
abbrev CString := { s : List UInt8 // (0 : UInt8) ∉ s }

def uint64 (x : Int) : Nat := (x % 2 ^ 64).toNat

/-- A file. Behind its end it reads as NULs. -/
structure Disk where
  size : Nat
  bytes : Bytes
  behind : ∀ x, size ≤ x → bytes x = 0

/-- `fwrite` at a position. -/
def Disk.fwrite (pos : Nat) (bs : List UInt8) (d : Disk) : Disk where
  size := if bs.length = 0 then d.size else max d.size (pos + bs.length)
  bytes x := if pos ≤ x then (bs[x - pos]?).getD (d.bytes x) else d.bytes x
  behind x far := by
    split at far <;> rename_i empty
    · rw [List.eq_nil_of_length_eq_zero empty]
      simp [d.behind x far]
    · have short : bs[x - pos]? = none := List.getElem?_eq_none (by omega)
      rw [short, Option.getD_none, ite_self]
      exact d.behind x (by omega)

/-- The files of the machine that `bmfs` runs on, and which of them can be opened for writing. -/
structure Host where
  files : CString → Option (List UInt8)
  creates : CString → Bool

/-- `struct BMFSEntry`, but for the member that nothing uses. -/
structure BMFSEntry where
  FileName : List UInt8
  StartingBlock : Nat
  ReservedBlocks : Nat
  FileSize : Nat
  deriving DecidableEq

/-- The globals of a run. -/
structure Session where
  disk : Disk
  disksize : Nat
  Directory : Bytes
  host : Host
  out : List String

def text (s : List UInt8) : String := String.ofList (s.map fun b => Char.ofNat b.toNat)

def Session.print (message : String) (s : Session) : Session :=
  { s with out := s.out ++ [message] }

/-- The record at `dir + tint * 64`. -/
def entryAt (dir : Bytes) (tint : Nat) : BMFSEntry where
  FileName := (List.range 32).map fun j => dir (64 * tint + j)
  StartingBlock := load64 dir (64 * tint + 32)
  ReservedBlocks := load64 dir (64 * tint + 40)
  FileSize := load64 dir (64 * tint + 48)

/-- `FileName[0]` -/
def BMFSEntry.mark (entry : BMFSEntry) : UInt8 := entry.FileName.headD 0

/-- The name up to its NUL. -/
def BMFSEntry.name (entry : BMFSEntry) : List UInt8 := entry.FileName.takeWhile (· ≠ 0)

/-- Whether `strcmp` of a string and of an array is 0. -/
def strcmp : List UInt8 → List UInt8 → C Bool
  | _, [] => .error .outOfBounds
  | [], b :: _ => pure (b == 0)
  | c :: s, b :: t => if c = b then strcmp s t else pure false

/-- The loop of `findfile`, `n` turns before its end. -/
def findfileFrom (filename : CString) (dir : Bytes) :
    (n tint : Nat) → C (Option (BMFSEntry × Nat))
  | 0, _ => pure none
  | n + 1, tint => do
      let entry := entryAt dir tint
      if entry.mark = 0x00 then pure none
      else if entry.mark = 0x01 then findfileFrom filename dir n (tint + 1)
      else do
        let found ← strcmp filename.1 entry.FileName
        if found then pure (some (entry, tint)) else findfileFrom filename dir n (tint + 1)

def findfile (filename : CString) (dir : Bytes) : C (Option (BMFSEntry × Nat)) :=
  findfileFrom filename dir 64 0

/-- `fseek(disk, 4096, SEEK_SET); fwrite(Directory, 4096, 1, disk);` -/
def flush (s : Session) : Session :=
  { s with disk := s.disk.fwrite 4096 ((List.range 4096).map s.Directory) }

def spaces (n : Nat) : String := String.ofList (List.replicate n ' ')

def padRight (n : Nat) (s : String) : String := s ++ spaces (n - s.length)

def padLeft (n : Nat) (s : String) : String := spaces (n - s.length) ++ s

/-- `%20lld` -/
def lld (n : Nat) : String :=
  padLeft 20 (toString ((n + 2 ^ 63 : Int) % 2 ^ 64 - 2 ^ 63))

def row (entry : BMFSEntry) : String :=
  padRight 32 (text entry.name) ++ " " ++ lld entry.FileSize ++ " " ++
    lld (uint64 (entry.ReservedBlocks * 2)) ++ "\n"

/-- The loop of `list`, `n` turns before its end. -/
def listFrom (dir : Bytes) : (n tint : Nat) → List String
  | 0, _ => []
  | n + 1, tint =>
      let entry := entryAt dir tint
      if entry.mark = 0x00 then []
      else if entry.mark = 0x01 then listFrom dir n (tint + 1)
      else row entry :: listFrom dir n (tint + 1)

def heading (diskname : String) (disksize : Nat) : List String :=
  [diskname ++ "\nDisk Size: " ++ toString (int32 disksize) ++ " MiB\n",
    "Name                            |            Size (B)|      Reserved (MiB)\n",
    "==========================================================================\n"]

def list (diskname : String) (s : Session) : Session :=
  { s with out := s.out ++ heading diskname s.disksize ++ listFrom s.Directory 64 0 }

def fs_tag : List UInt8 := [66, 77, 70, 83]

/-- The tag in a sector of NULs. -/
def DiskInfo : List UInt8 := fs_tag ++ List.replicate (512 - 4) 0

def format (s : Session) : Session :=
  let disk := s.disk.fwrite 1024 DiskInfo
  { s with disk := disk.fwrite 4096 (List.replicate 4096 0), Directory := fun _ => 0 }.print
    "Format complete.\n"

def StartingBlockCmp (ea eb : BMFSEntry) : Int :=
  if ea.mark = 0x01 then 1
  else if eb.mark = 0x01 then -1
  else int32 (ea.StartingBlock - eb.StartingBlock)

/-- The loop of `create` over the directory, `n` turns before its end: `num_used_entries` and
`first_free_entry`. -/
def countFrom (dir : Bytes) : (n tint : Nat) → (first_free_entry : Option Nat) → Nat × Option Nat
  | 0, _, first_free_entry => (0, first_free_entry)
  | n + 1, tint, first_free_entry =>
      let pEntry := entryAt dir tint
      if pEntry.mark = 0x00 then (tint, first_free_entry.or (some tint))
      else if pEntry.mark = 0x01 then countFrom dir n (tint + 1) (first_free_entry.or (some tint))
      else countFrom dir n (tint + 1) first_free_entry

/-- The loop of `create` over the sorted records; 0 if there is no room. -/
def searchGap (num_blocks blocks_requested : Nat) :
    (prev_file_end : Nat) → List BMFSEntry → Nat
  | prev_file_end, [] =>
      let this_file_start := uint64 (num_blocks - 1)
      if uint64 (this_file_start - prev_file_end) ≥ blocks_requested then prev_file_end else 0
  | prev_file_end, pEntry :: rest =>
      let this_file_start :=
        if pEntry.mark = 0x01 then uint64 (num_blocks - 1) else pEntry.StartingBlock
      if uint64 (this_file_start - prev_file_end) ≥ blocks_requested then prev_file_end
      else searchGap num_blocks blocks_requested
        (uint64 (pEntry.StartingBlock + pEntry.ReservedBlocks)) rest

/-- `dir[a] = b` -/
def setByte (a : Nat) (b : UInt8) (dir : Bytes) : Bytes := Function.update dir a b

/-- `strcpy` into the 32 bytes of a name. -/
def strcpy (a : Nat) (s : CString) (dir : Bytes) : C Bytes :=
  if s.1.length < 32 then
    pure fun x => if a ≤ x then ((s.1 ++ [0])[x - a]?).getD (dir x) else dir x
  else .error .outOfBounds

section
variable (qsort : (BMFSEntry → BMFSEntry → Int) → List BMFSEntry → List BMFSEntry)

def create (filename : CString) (maxsize : Nat) (s : Session) : C Session := do
  let maxsize := if maxsize % 2 ≠ 0 then uint64 (maxsize + 1) else maxsize
  match ← findfile filename s.Directory with
  | some _ => pure (s.print "Error: File already exists.\n")
  | none => do
      let blocks_requested := maxsize / 2
      let num_blocks := s.disksize / 2
      let s := s.print "Creating new file...\n"
      let (num_used_entries, first_free_entry) := countFrom s.Directory 64 0 none
      match first_free_entry with
      | none => pure (s.print "Cannot create file: no free directory entries.\n")
      | some slot => do
          let dir_copy := qsort StartingBlockCmp
            ((List.range num_used_entries).map (entryAt s.Directory))
          let new_file_start := searchGap num_blocks blocks_requested 1 dir_copy
          if new_file_start = 0 then
            pure (s.print ("Cannot create file of size " ++ toString maxsize ++ " MiB.\n"))
          else do
            let dir := store64 (64 * slot + 32) new_file_start s.Directory
            let dir := store64 (64 * slot + 40) blocks_requested dir
            let dir := store64 (64 * slot + 48) 0 dir
            let dir ← strcpy (64 * slot) filename dir
            let dir := if slot = num_used_entries ∧ num_used_entries + 1 < 64 then
              setByte (64 * (num_used_entries + 1)) 0x00 dir else dir
            pure ((flush { s with Directory := dir }).print "Complete\n")

/-- `for (tint = 0; tint < size; tint++) putc(getc(from), to);`: what is written. `tint` is an
`int`, compared as an `unsigned long long`. -/
def copy (getc : Nat → UInt8) (size : Nat) :
    (fuel : Nat) → (tint : Int) → (copied : List UInt8) → C (List UInt8)
  | 0, _, _ => .error .hang
  | fuel + 1, tint, copied =>
      if uint64 tint < size then
        copy getc size fuel (int32 (tint + 1)) (copied ++ [getc copied.length])
      else pure copied

def read (fuel : Nat) (filename : CString) (s : Session) : C Session := do
  match ← findfile filename s.Directory with
  | none => pure (s.print "Error: File not found in BMFS.\n")
  | some (tempentry, _) => do
      let s := s.print ("Reading '" ++ text filename.1 ++ "' from BMFS to local file... ")
      if s.host.creates filename then do
        let pos := uint64 (tempentry.StartingBlock * BLOCK_SIZE)
        -- behind the end of the disk `getc` is EOF, which `putc` writes as a byte
        let getc := fun i => if pos + i < s.disk.size then s.disk.bytes (pos + i) else 0xFF
        let tfile ← copy getc tempentry.FileSize fuel 0 []
        let host := { s.host with files := Function.update s.host.files filename (some tfile) }
        pure ({ s with host := host }.print "Complete\n")
      else
        pure (s.print ("Error: Could not open local file '" ++ text tempentry.name ++ "'\n"))

def write (fuel : Nat) (filename : CString) (s : Session) : C Session := do
  match ← findfile filename s.Directory with
  | none => pure (s.print
      "Error: File not found in BMFS. A file entry must first be created.\n")
  | some (tempentry, slot) => do
      let s := s.print ("Writing local file '" ++ text filename.1 ++ "' to BMFS... ")
      match s.host.files filename with
      | none =>
          pure (s.print ("Error: Could not open local file '" ++ text tempentry.name ++ "'\n"))
      | some tfile =>
          let tempfilesize := tfile.length
          if uint64 (tempentry.ReservedBlocks * BLOCK_SIZE) < tempfilesize then
            pure (s.print "Not enough reserved space in BMFS.\n")
          else do
            let bytes ← copy (fun i => tfile.getD i 0xFF) tempfilesize fuel 0 []
            let disk := s.disk.fwrite (uint64 (tempentry.StartingBlock * BLOCK_SIZE)) bytes
            let dir := store64 (64 * slot + 48) tempfilesize s.Directory
            pure ((flush { s with disk := disk, Directory := dir }).print "Complete\n")

def delete (filename : CString) (s : Session) : C Session := do
  match ← findfile filename s.Directory with
  | none => pure (s.print "Error: File not found in BMFS.\n")
  | some (_, slot) =>
      let s := s.print ("Deleting file '" ++ text filename.1 ++ "' from BMFS... ")
      let dir := setByte (64 * slot) 0x01 s.Directory
      pure ((flush { s with Directory := dir }).print "Complete\n")

/-- The commands, with their arguments parsed. -/
inductive Command where
  | list
  | format (force : Bool)
  | create (filename : CString) (filesize : { n : Int // n ≤ INT_MAX })
  | read (filename : CString)
  | write (filename : CString)
  | delete (filename : CString)

def toupper (b : UInt8) : UInt8 := if 97 ≤ b ∧ b ≤ 122 then b - 32 else b

/-- `strcasecmp(DiskInfo, fs_tag) == 0` -/
def isFormatted (d : Disk) : Bool :=
  (List.range 5).all fun j => toupper (d.bytes (1024 + j)) == (fs_tag ++ [0]).getD j 0

/-- `fread(Directory, 4096, 1, disk)`; only these bytes of it are looked at. -/
def Disk.Directory (d : Disk) : Bytes := fun j => d.bytes (4096 + j)

/-- The globals once the disk is opened. -/
def opened (disk : Disk) (host : Host) : Session where
  disk := disk
  disksize := disk.size / 1048576 % 2 ^ 32
  Directory := disk.Directory
  host := host
  out := []

/-- The command on a formatted disk. -/
def run (fuel : Nat) (diskname : String) (command : Command) (s : Session) : C Session :=
  match command with
  | .list => pure (list diskname s)
  | .format force => pure (if force then format s else s.print "Format aborted!\n")
  | .create filename filesize =>
      if filesize.1 ≥ 1 then create qsort filename filesize.1.toNat s
      else pure (s.print "Error: Invalid file size.\n")
  | .read filename => read fuel filename s
  | .write filename => write fuel filename s
  | .delete filename => delete filename s

/-- `main` behind its arguments. -/
def main (fuel : Nat) (diskname : String) (command : Command) (disk : Disk) (host : Host) :
    C Session :=
  if !isFormatted disk then
    match command with
    | .format _ => pure (format (opened disk host))
    | _ => pure ((opened disk host).print
        "Error: Not a valid BMFS drive (Disk is not BMFS formatted).\n")
  else run qsort fuel diskname command (opened disk host)

end

/-! `initialize`. The lines it prints while it fills the disk are left out, and so are failing
writes. -/

def minimumDiskSize : Nat := 6 * 1024 * 1024

def isdigit (ch : UInt8) : Bool := decide (48 ≤ ch ∧ ch ≤ 57)

/-- `diskSizeFactor` of a unit. -/
def unit (ch : UInt8) : Option Nat :=
  match toupper ch with
  | 75 => some 1
  | 77 => some 2
  | 71 => some 3
  | 84 => some 4
  | 80 => some 5
  | _ => none

/-- The loop over the size: `diskSize` and `diskSizeFactor`. -/
def parseFrom (size : CString) :
    (rest : List UInt8) → (i diskSize : Nat) → Except String (Nat × Nat)
  | [], _, diskSize => .ok (diskSize, 0)
  | ch :: rest, i, diskSize =>
      if isdigit ch then
        let n := ch.toNat - 48
        if diskSize * 10 % 2 ^ 64 > diskSize then
          parseFrom size rest (i + 1) ((diskSize * 10 % 2 ^ 64 + n) % 2 ^ 64)
        else if diskSize = 0 then parseFrom size rest (i + 1) (diskSize + n)
        else .error "Error: Disk size is too large\n"
      else if i = 0 then .error "Error: A numeric disk size must be specified\n"
      else
        match unit ch with
        | none => .error ("Error: Invalid disk size string: '" ++ text size.1 ++ "'\n")
        | some diskSizeFactor =>
            if rest ≠ [] then .error ("Error: Invalid disk size string: '" ++ text size.1 ++ "'\n")
            else .ok (diskSize, diskSizeFactor)

/-- `while (diskSizeFactor--)`: the size, and what has been printed. -/
def scale : (diskSizeFactor diskSize : Nat) → Nat × List String
  | 0, diskSize => (diskSize, [])
  | factor + 1, diskSize =>
      if diskSize * 1024 % 2 ^ 64 > diskSize then scale factor (diskSize * 1024 % 2 ^ 64)
      else
        let (diskSize, printed) := scale factor diskSize
        (diskSize, "Error: Disk size is too large\n" :: printed)

/-- The size in bytes, or what is printed about it. -/
def sizeOf (size : CString) : Except (List String) Nat :=
  match parseFrom size size.1 0 0 with
  | .error message => .error [message]
  | .ok (diskSize, diskSizeFactor) =>
      let (diskSize, printed) :=
        if diskSize > 0 ∧ diskSizeFactor > 0 then scale diskSizeFactor diskSize else (diskSize, [])
      if printed ≠ [] then .error printed
      else if diskSize < minimumDiskSize then
        .error ["Error: Disk size must be at least " ++ toString minimumDiskSize ++ " bytes (" ++
          toString (minimumDiskSize / (1024 * 1024)) ++ "MiB)\n"]
      else .ok diskSize

end BottlerOS.Bmfs
