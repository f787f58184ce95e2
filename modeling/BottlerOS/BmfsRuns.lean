import BottlerOS.BmfsOutcome

/-! Runs of `bmfs`, one after another on the same disk, while the files of the machine change as
they like: the disk stays tidy, and each run is a step of the store of files. -/

namespace BottlerOS.Bmfs
open Machine Words Extents Qsort FileStore

/-- What a command does to the store. -/
def op (command : Command) (host : Host) : Op CString UInt8 :=
  match command with
  | .create filename filesize =>
      if 1 ≤ filesize.1 then .create filename (blocks filesize.1.toNat * BLOCK_SIZE) else .look
  | .write filename =>
      match host.files filename with
      | some tfile => .write filename tfile
      | none => .look
  | .delete filename => .delete filename
  | .format true => .clear
  | .format false => .look
  | .read _ => .look
  | .list => .look

/-- A size that does not put the file over another one. -/
def Placeable (d : Disk) (n : Nat) : Prop :=
  (d.Ended ∨ deleted d.records = []) ∧
    ((∃ p, d.Gap n p) ∨ ∀ e ∈ deleted d.records, ¬ Room d.num_blocks n e.extent.stop)

/-- What the program takes for granted of a command. -/
def Within (d : Disk) (command : Command) (host : Host) : Prop :=
  match command with
  | .create filename filesize => 1 ≤ filesize.1 → store d filename = none →
      Name filename ∧ Placeable d (blocks filesize.1.toNat)
  | .write filename => ∀ tfile, host.files filename = some tfile → tfile.length ≤ 2 ^ 31
  | _ => True

/-- Runs of the program, the last one at the end. -/
inductive Uses (qsort : (BMFSEntry → BMFSEntry → Int) → List BMFSEntry → List BMFSEntry)
    (fuel : Nat) (diskname : String) (d : Disk) : List (Command × Host) → Disk → Prop where
  | refl : Uses qsort fuel diskname d [] d
  | step {cs : List (Command × Host)} {d' : Disk} {command : Command} {host : Host} {s : Session}
      (uses : Uses qsort fuel diskname d cs d') (within : Within d' command host)
      (run : main qsort fuel diskname command d' host = .ok s) :
      Uses qsort fuel diskname d (cs ++ [(command, host)]) s.disk

section
variable {qsort : (BMFSEntry → BMFSEntry → Int) → List BMFSEntry → List BMFSEntry}
  {d d' : Disk} {host : Host} {fuel : Nat} {diskname : String} {command : Command}
  {cs : List (Command × Host)} {filename : CString} {s : Session}

theorem main_formatted (formatted : isFormatted d = true) :
    main qsort fuel diskname command d host =
      Bmfs.run qsort fuel diskname command (opened d host) := by
  simp [main, formatted]

theorem length_DiskInfo : DiskInfo.length = 512 := by
  rw [DiskInfo, List.length_append, List.length_replicate]
  rfl

theorem format_disk (s : Session) : (format s).disk =
    (s.disk.fwrite 1024 DiskInfo).fwrite 4096 (List.replicate 4096 0) := rfl

theorem format_size (s : Session) (big : 8192 ≤ s.disk.size) :
    (format s).disk.size = s.disk.size := by
  have inner : (s.disk.fwrite 1024 DiskInfo).size = s.disk.size :=
    fwrite_size (by rw [length_DiskInfo]; omega)
  rw [format_disk, fwrite_size (by rw [inner, List.length_replicate]; omega), inner]

theorem format_formatted (s : Session) : isFormatted (format s).disk = true := by
  have tag : ∀ j, j < 5 → toupper (DiskInfo.getD j 0) = (fs_tag ++ [0]).getD j 0 := by decide
  rw [isFormatted, List.all_eq_true]
  intro j hj
  have below := List.mem_range.mp hj
  have inside : j < DiskInfo.length := by
    rw [length_DiskInfo]
    omega
  have here : (format s).disk.bytes (1024 + j) = DiskInfo.getD j 0 := by
    rw [format_disk, fwrite_outside (by omega), fwrite_inside inside, List.getD_eq_getElem?_getD,
      List.getElem?_eq_getElem inside, Option.getD_some]
  rw [here, tag j below, beq_self_eq_true]

theorem format_empty (s : Session) : used (format s).disk.records = [] := by
  refine used_end ?_
  change (format s).disk.bytes (4096 + 0) = 0
  rw [format_disk, fwrite_inside (by rw [List.length_replicate]; omega), List.getElem_replicate]

/-- A disk without records holds no files. -/
theorem tidy_of_empty (formatted : isFormatted d = true) (two : 2 ≤ d.num_blocks)
    (empty : used d.records = []) : Tidy d ∧ store d = fun _ => none := by
  have none : files d.records = [] := by
    rw [files, empty]
    rfl
  refine ⟨⟨formatted, two, ⟨?_, ?_, ?_, ?_⟩⟩, ?_⟩
  · intro e he
    rw [empty] at he
    cases he
  · intro e he
    rw [none] at he
    cases he
  · intro e he
    rw [none] at he
    cases he
  · rw [none]
    exact .nil
  · funext filename
    refine store_none fun e he => ?_
    rw [none] at he
    cases he

/-- Formatting clears a disk of two blocks or more, whatever was on it. -/
theorem format_tidy {s : Session} (two : 2 ≤ s.disk.num_blocks) :
    Tidy (format s).disk ∧ (format s).disk.size = s.disk.size ∧
      store (format s).disk = fun _ => none := by
  have le := s.disk.blocks_le
  have size : (format s).disk.size = s.disk.size := by
    refine format_size s ?_
    unfold BLOCK_SIZE at le
    omega
  obtain ⟨tidy, empty⟩ := tidy_of_empty (format_formatted s)
    (by rwa [Disk.num_blocks_congr size]) (format_empty s)
  exact ⟨tidy, size, empty⟩

/-- `create` of a size that does no harm. -/
theorem create_step (host : Host) {n : Nat} (sorts : Sorts qsort) (tidy : Tidy d) (pos : 1 ≤ n)
    (small : n < 2 ^ 31)
    (within : store d filename = none → Name filename ∧ Placeable d (blocks n)) :
    ∃ s, create qsort filename n (opened d host) = .ok s ∧ Tidy s.disk ∧ s.disk.size = d.size ∧
      Step (store d) (.create filename (blocks n * BLOCK_SIZE)) (store s.disk) := by
  have unchanged {s : Session} (disk : s.disk = d) : Tidy s.disk ∧ s.disk.size = d.size ∧
      Step (store d) (.create filename (blocks n * BLOCK_SIZE)) (store s.disk) := by
    rw [disk]
    exact ⟨tidy, rfl, .refused⟩
  -- a file that is there already, or the cases of `create`
  rcases findfile_cases tidy.sound.terminated filename with ⟨-, free⟩ | ⟨e, slot, found, -⟩
  · have fresh := store_none free
    obtain ⟨name, ended, places⟩ := within fresh
    by_cases full : d.Ended
    · by_cases gap : ∃ p, d.Gap (blocks n) p
      · obtain ⟨s, p, x, run, -, added, fits, -⟩ :=
          create_gap host sorts tidy name fresh full pos small gap
        obtain ⟨tidy', after⟩ := added.tidy tidy free (by unfold blocks; omega) fits
        refine ⟨s, run, tidy', added.size, ?_⟩
        rw [after]
        exact .created fresh
      · obtain ⟨s, run, -, ⟨-, disk⟩ | ⟨e, he, room, -⟩⟩ :=
          create_no_gap host sorts tidy name fresh full small (not_exists.mp gap)
        · exact ⟨s, run, unchanged disk⟩
        · exact absurd room ((places.resolve_left gap) e he)
    · have none := ended.resolve_left full
      obtain ⟨s, run, -, ⟨-, disk⟩ | ⟨some_, -⟩⟩ :=
        create_full host sorts tidy name fresh full small
      · exact ⟨s, run, unchanged disk⟩
      · exact absurd none some_
  · obtain ⟨s, run, -, disk⟩ := create_exists host n found
    exact ⟨s, run, unchanged disk⟩

/-- Within these bounds the program ends, the disk stays tidy, and the files change as the store
does. -/
theorem main_step (diskname : String) (sorts : Sorts qsort) (enough : 2 ^ 31 < fuel) (tidy : Tidy d)
    (within : Within d command host) :
    ∃ s, main qsort fuel diskname command d host = .ok s ∧ Tidy s.disk ∧ s.disk.size = d.size ∧
      Step (store d) (op command host) (store s.disk) := by
  rw [main_formatted tidy.formatted]
  cases command with
  | list => exact ⟨_, rfl, tidy, rfl, .looked⟩
  | format force =>
    cases force with
    | true =>
      obtain ⟨tidy', size, empty⟩ := format_tidy (s := opened d host) tidy.blocks
      refine ⟨format (opened d host), rfl, tidy', size, ?_⟩
      rw [empty]
      exact .cleared
    | false => exact ⟨_, rfl, tidy, rfl, .looked⟩
  | create filename filesize =>
    by_cases pos : 1 ≤ filesize.1
    · have small : filesize.1.toNat < 2 ^ 31 := by
        have le : filesize.1 ≤ INT_MAX := filesize.2
        unfold INT_MAX at le
        omega
      obtain ⟨s, run, after⟩ := create_step host sorts tidy (by omega) small (within pos)
      refine ⟨s, (if_pos pos).trans run, ?_⟩
      rw [op, if_pos pos]
      exact after
    · refine ⟨_, if_neg pos, tidy, rfl, ?_⟩
      rw [op, if_neg pos]
      exact .looked
  | read filename =>
    obtain ⟨s, run, disk, -⟩ := read_tidy tidy host filename enough
    exact ⟨s, run, disk ▸ tidy, by rw [disk], by rw [disk]; exact .looked⟩
  | write filename =>
    obtain ⟨s, run, -, tidy', size, after⟩ := write_tidy tidy host filename enough within
    refine ⟨s, run, tidy', size, ?_⟩
    rcases after with ⟨f, tfile, found, local_, room, after⟩ | ⟨disk, small⟩
    · rw [op, local_, after]
      exact .written found room
    · rw [op, disk]
      cases local_ : host.files filename with
      | none => exact .looked
      | some tfile => exact .unwritten fun f found => small f tfile found local_
  | delete filename =>
    obtain ⟨s, run, -, tidy', size, after⟩ := delete_tidy tidy host filename
    refine ⟨s, run, tidy', size, ?_⟩
    rw [after]
    exact .deleted

/-- Over any number of runs the disk stays tidy, and they are a run of the store. -/
theorem Uses.refines (sorts : Sorts qsort) (enough : 2 ^ 31 < fuel) (tidy : Tidy d)
    (uses : Uses qsort fuel diskname d cs d') : Tidy d' ∧ d'.size = d.size ∧
      Run (store d) (cs.map fun c => op c.1 c.2) (store d') := by
  induction uses with
  | refl => exact ⟨tidy, rfl, .refl⟩
  | step uses within run ih =>
    obtain ⟨tidy', size, runs⟩ := ih
    obtain ⟨s, run', tidy'', size', step⟩ := main_step diskname sorts enough tidy' within
    rw [run'] at run
    obtain rfl := Except.ok.inj run
    refine ⟨tidy'', size'.trans size, ?_⟩
    rw [List.map_append, List.map_singleton]
    exact runs.step step

/-- A machine without files. -/
def emptyHost : Host := ⟨fun _ => none, fun _ => true⟩

/-- The name `a`. -/
def nameA : CString := ⟨[97], by decide⟩

theorem name_nameA : Name nameA := ⟨by decide, by decide, by decide⟩

/-- Two MiB for the file. -/
def twoMiB : { n : Int // n ≤ INT_MAX } := ⟨2, by decide⟩

/-- A directory without an end mark: if all of it is files, nothing happens. With a deleted record
the new file is put on block 1 without a look at the others, and if that record is the first,
every other file is gone. -/
theorem create_in_full_directory (fuel : Nat) (diskname : String) (host : Host)
    (sorts : Sorts qsort) (tidy : Tidy d) (name : Name filename)
    (fresh : store d filename = none) (full : ¬ d.Ended)
    (filesize : { n : Int // n ≤ INT_MAX }) (pos : 1 ≤ filesize.1) :
    ∃ s, main qsort fuel diskname (.create filename filesize) d host = .ok s ∧
      if deleted d.records ≠ [] ∧ Room d.num_blocks (blocks filesize.1.toNat) 1 then
        (∃ e ∈ files s.disk.records, e.name = filename.1 ∧
          e.extent = ⟨1, blocks filesize.1.toNat⟩) ∧
        ((entryAt d.Directory 0).mark = 0x01 → ∃ e, files s.disk.records = [e]) ∧
        ((entryAt d.Directory 0).mark ≠ 0x01 →
          ∀ e ∈ files d.records, e ∈ files s.disk.records)
      else s.disk = d := by
  have small : filesize.1.toNat < 2 ^ 31 := by
    have le : filesize.1 ≤ INT_MAX := filesize.2
    unfold INT_MAX at le
    omega
  rw [main_formatted tidy.formatted]
  obtain ⟨s, run, -, ⟨none, disk⟩ | ⟨some_, room, ⟨first, -, x, new, here⟩ | ⟨first, x, added⟩⟩⟩ :=
    create_full host sorts tidy name fresh full small
  · refine ⟨s, (if_pos pos).trans run, ?_⟩
    rw [if_neg (by tauto)]
    exact disk
  · refine ⟨s, (if_pos pos).trans run, ?_⟩
    rw [if_pos ⟨some_, room⟩]
    exact ⟨⟨x, by simp [here], new.named, new.extent⟩, fun _ => ⟨x, here⟩,
      fun other => absurd first other⟩
  · obtain ⟨front, back, before, after⟩ := added.files
    refine ⟨s, (if_pos pos).trans run, ?_⟩
    rw [if_pos ⟨some_, room⟩]
    refine ⟨⟨x, by simp [after], added.new.named, added.new.extent⟩,
      fun other => absurd other first, fun _ e he => ?_⟩
    rw [before] at he
    rw [after]
    simp only [List.mem_append, List.mem_cons] at he ⊢
    tauto

/-- A disk whose 64 records are deleted ones, of one block each. -/
def deletedDisk : Disk where
  size := 6291456
  bytes x :=
    if 1024 ≤ x ∧ x < 1028 then fs_tag.getD (x - 1024) 0
    else if 4096 ≤ x ∧ x < 8192 ∧ (x % 64 = 0 ∨ x % 64 = 32 ∨ x % 64 = 40) then 1 else 0
  behind x far := by
    rw [if_neg (by omega), if_neg (by omega)]

theorem entryAt_deletedDisk {k : Nat} (below : k < 64) :
    (entryAt deletedDisk.Directory k).mark = 0x01 ∧
      (entryAt deletedDisk.Directory k).extent = ⟨1, 1⟩ := by
  have byte (a : Nat) (ha : a < 64) : deletedDisk.Directory (64 * k + a) =
      if a = 0 ∨ a = 32 ∨ a = 40 then 1 else 0 := by
    change (if 1024 ≤ 4096 + (64 * k + a) ∧ 4096 + (64 * k + a) < 1028 then _ else _) = _
    rw [if_neg (by omega)]
    by_cases one : a = 0 ∨ a = 32 ∨ a = 40
    · rw [if_pos one, if_pos (by omega)]
    · rw [if_neg one, if_neg (by omega)]
  have word (a : Nat) (ha : a = 32 ∨ a = 40) :
      load64 deletedDisk.Directory (64 * k + a) = 1 := by
    simp only [load64, number, Nat.add_assoc]
    rcases ha with rfl | rfl
    · simp only [byte _ (show 32 < 64 by decide), byte _ (show 33 < 64 by decide),
        byte _ (show 34 < 64 by decide), byte _ (show 35 < 64 by decide),
        byte _ (show 36 < 64 by decide), byte _ (show 37 < 64 by decide),
        byte _ (show 38 < 64 by decide), byte _ (show 39 < 64 by decide), Nat.reduceAdd]
      decide
    · simp only [byte _ (show 40 < 64 by decide), byte _ (show 41 < 64 by decide),
        byte _ (show 42 < 64 by decide), byte _ (show 43 < 64 by decide),
        byte _ (show 44 < 64 by decide), byte _ (show 45 < 64 by decide),
        byte _ (show 46 < 64 by decide), byte _ (show 47 < 64 by decide), Nat.reduceAdd]
      decide
  constructor
  · exact byte 0 (by omega)
  · simp only [BMFSEntry.extent, entryAt, word 32 (.inl rfl), word 40 (.inr rfl)]

theorem mem_deletedDisk {e : BMFSEntry} (mem : e ∈ deletedDisk.records) :
    e.mark = 0x01 ∧ e.extent = ⟨1, 1⟩ := by
  obtain ⟨k, hk, rfl⟩ := mem_window.mp mem
  rw [Nat.zero_add]
  exact entryAt_deletedDisk hk

theorem tidy_deletedDisk : Tidy deletedDisk := by
  have none : files deletedDisk.records = [] := by
    refine List.filter_eq_nil_iff.mpr fun e he => ?_
    simp [(mem_deletedDisk (mem_used he).1).1]
  refine ⟨by decide, by decide, fun e he => ?_, ?_, ?_, ?_⟩
  · have extent := (mem_deletedDisk (mem_used he).1).2
    have start : e.StartingBlock = 1 := congrArg Extent.start extent
    have length : e.ReservedBlocks = 1 := congrArg Extent.length extent
    refine ⟨by omega, by omega, ?_⟩
    rw [extent]
    decide
  · intro e he
    rw [none] at he
    cases he
  · intro e he
    rw [none] at he
    cases he
  · rw [none]
    exact .nil

theorem create_in_full_directory_deleted : ∃ s e,
    main insertionSort (2 ^ 31 + 1) "disk" (.create nameA twoMiB) deletedDisk emptyHost = .ok s ∧
      files s.disk.records = [e] := by
  have none : store deletedDisk nameA = none := by
    refine store_none fun e he => ?_
    obtain ⟨used_, live_⟩ := mem_files.mp he
    exact absurd (mem_deletedDisk (mem_used used_).1).1 live_
  have first := entryAt_deletedDisk (show 0 < 64 by decide)
  have full : ¬ deletedDisk.Ended := fun ⟨k, hk, ended⟩ => by
    rw [(entryAt_deletedDisk hk).1] at ended
    exact absurd ended (by decide)
  obtain ⟨s, run, after⟩ := create_in_full_directory (2 ^ 31 + 1) "disk" emptyHost sorts_insertionSort
    tidy_deletedDisk name_nameA none full twoMiB (by decide)
  have some_ : deleted deletedDisk.records ≠ [] := by
    refine List.ne_nil_of_mem (List.mem_filter.mpr ⟨?_, ?_⟩ :
      entryAt deletedDisk.Directory 0 ∈ _)
    · rw [Disk.records, records, window, used_cons (by rw [first.1]; decide)]
      exact List.mem_cons_self ..
    · simp [live, first.1]
  rw [if_pos ⟨some_, by decide⟩] at after
  obtain ⟨e, one⟩ := after.2.1 first.1
  exact ⟨s, e, run, one⟩

/-- The line of a file in the listing. -/
def line (filename : CString) (f : File UInt8) : String :=
  padRight 32 (text filename.1) ++ " " ++ lld f.contents.length ++ " " ++
    lld (f.capacity / 1048576) ++ "\n"

theorem BMFSEntry.nul (e : BMFSEntry) : (0 : UInt8) ∉ e.name := fun mem => by
  have := List.mem_takeWhile_imp mem
  simp at this

end

end BottlerOS.Bmfs
