import BottlerOS.BmfsTidy

/-! The commands of `bmfs.c` on files that are there: `delete`, `write`, `read` and `list`. Each
leaves the disk tidy, and does to the store of files what it says. -/

namespace BottlerOS.Bmfs
open Machine Words Extents

section
variable {filename : CString} {dir dir' : Bytes} {e x : BMFSEntry} {slot : Nat}

/-- The files with another record in the place of the one found. -/
theorem Found.files_change (found : Found filename dir e slot)
    (same : ∀ j, j < 64 * slot ∨ 64 * slot + 64 ≤ j → dir' j = dir j)
    (used : (entryAt dir' slot).mark ≠ 0x00) : Bmfs.files (records dir') =
      Bmfs.files (window dir slot 0) ++
        ((if (entryAt dir' slot).mark = 0x01 then none else some (entryAt dir' slot)).toList ++
          Bmfs.files (window dir (63 - slot) (slot + 1))) := by
  rw [records_change found.below same, files_append found.before]
  split <;> rename_i mark
  · rw [files_deleted mark]
    rfl
  · rw [files_cons used mark]
    rfl

theorem Found.used_change (found : Found filename dir e slot)
    (same : ∀ j, j < 64 * slot ∨ 64 * slot + 64 ≤ j → dir' j = dir j)
    (more : (entryAt dir' slot).mark ≠ 0x00) :
    ∀ y ∈ Bmfs.used (records dir'), y = entryAt dir' slot ∨ y ∈ Bmfs.used (records dir) := by
  intro y hy
  rw [records_change found.below same, used_append found.before, used_cons more] at hy
  rw [records_split dir found.below, used_append found.before, ← found.here, used_cons found.used]
  simp only [List.mem_append, List.mem_cons] at hy ⊢
  tauto

theorem Found.mem (found : Found filename dir e slot) : e ∈ Bmfs.files (records dir) := by
  simp [found.files]

theorem Found.mem_used (found : Found filename dir e slot) : e ∈ Bmfs.used (records dir) :=
  (mem_files.mp found.mem).1

/-- The other files have other names, and their extents are apart. -/
theorem Found.others {num_blocks : Nat} (found : Found filename dir e slot)
    (sound : Sound num_blocks (records dir)) :
    ∀ y ∈ Bmfs.files (window dir slot 0) ++ Bmfs.files (window dir (63 - slot) (slot + 1)),
      y ∈ Bmfs.files (records dir) ∧ y.name ≠ filename.1 ∧ Apart e.extent y.extent := by
  have compatible := sound.compatible
  rw [found.files, List.pairwise_middle Compatible.symm, List.pairwise_cons] at compatible
  intro y hy
  obtain ⟨different, apart⟩ := compatible.1 y hy
  refine ⟨?_, fun same => different (found.named.trans same.symm), apart⟩
  rw [found.files]
  simp only [List.mem_append, List.mem_cons] at hy ⊢
  tauto

end

section
variable {d : Disk} {host : Host} {filename : CString} {e : BMFSEntry} {slot : Nat}

/-- Where a file lies on a tidy disk. -/
theorem Tidy.place (tidy : Tidy d) (mem : e ∈ used d.records) :
    BLOCK_SIZE ≤ e.StartingBlock * BLOCK_SIZE ∧
      e.StartingBlock * BLOCK_SIZE + e.ReservedBlocks * BLOCK_SIZE ≤ d.size ∧
      e.StartingBlock + e.ReservedBlocks < 2 ^ 31 := by
  obtain ⟨low, -, high⟩ := tidy.sound.inside e mem
  have le := d.blocks_le
  have lt := d.num_blocks_lt
  have blocks := tidy.blocks
  change e.StartingBlock + e.ReservedBlocks ≤ d.num_blocks - 1 at high
  unfold BLOCK_SIZE at *
  omega

/-- The data of a file lie behind the directory. -/
theorem Tidy.contents_flush (tidy : Tidy d) (mem : e ∈ used d.records) (s : Session) :
    contents (flush s).disk e = contents s.disk e := by
  refine contents_congr fun i _ => flush_outside s ?_
  have low := (tidy.place mem).1
  unfold BLOCK_SIZE at low
  unfold BLOCK_SIZE
  omega

theorem store_found (tidy : Tidy d) (found : Found filename d.Directory e slot) :
    store d filename = some (fileOf d e) := by
  have here : lookup d.records filename = some e :=
    (lookup_some tidy.sound).mpr ⟨found.mem, found.named⟩
  rw [store, here, Option.map_some]

theorem store_none (free : ∀ e ∈ files d.records, e.name ≠ filename.1) :
    store d filename = none := by
  rw [store, lookup_none.mpr free, Option.map_none]

/-- A record without its first byte is no file; its blocks stay in the record. -/
theorem delete_found (tidy : Tidy d) (found : Found filename d.Directory e slot) {s : Session}
    (disk : s.disk = d) (dir : s.Directory = setByte (64 * slot) 0x01 d.Directory) :
    Tidy (flush s).disk ∧ (flush s).disk.size = d.size ∧
      store (flush s).disk = Function.update (store d) filename none := by
  have records' : (flush s).disk.records = records (setByte (64 * slot) 0x01 d.Directory) := by
    rw [flush_records, dir]
  have same : ∀ j, j < 64 * slot ∨ 64 * slot + 64 ≤ j →
      setByte (64 * slot) 0x01 d.Directory j = d.Directory j := fun j hj =>
    Function.update_of_ne (by omega) _ _
  have record : entryAt (setByte (64 * slot) 0x01 d.Directory) slot =
      { e with FileName := 0x01 :: e.FileName.tail } := by
    rw [entryAt_setByte, found.here]
  have mark : (entryAt (setByte (64 * slot) 0x01 d.Directory) slot).mark = 0x01 := by
    rw [record]
    rfl
  have others := found.others tidy.sound
  have size : (flush s).disk.size = d.size := by
    rw [flush_size s (disk ▸ tidy.big), disk]
  have replaced : Replaced d (flush s).disk filename (some e) none := {
    front := files (window d.Directory slot 0)
    back := files (window d.Directory (63 - slot) (slot + 1))
    before := found.files
    after := by
      rw [records', found.files_change same (by rw [mark]; decide), if_pos mark]
    others := fun y hy => (others y hy).2.1
    named := by simp
    size := size
    formatted := by
      rw [← disk]
      exact isFormatted_congr fun x _ hx => flush_outside s (by omega)
    data := fun y hy => by
      rw [tidy.contents_flush (mem_files.mp (others y hy).1).1, disk] }
  refine ⟨replaced.tidy tidy (fun y hy => ?_) (by simp), size, ?_⟩
  · rw [records'] at hy
    rcases found.used_change same (by rw [mark]; decide) y hy with rfl | hy
    · rw [record]
      exact tidy.sound.inside e found.mem_used
    · exact tidy.sound.inside y hy
  · exact replaced.store fun x hx => by
      obtain rfl := Option.some.inj hx
      exact found.named

theorem delete_tidy (tidy : Tidy d) (host : Host) (filename : CString) :
    ∃ s, delete filename (opened d host) = .ok s ∧ s.host = host ∧ Tidy s.disk ∧
      s.disk.size = d.size ∧ store s.disk = Function.update (store d) filename none := by
  rw [delete]
  rcases findfile_cases tidy.sound.terminated filename with
    ⟨run, free⟩ | ⟨e, slot, run, found⟩
  · rw [show findfile filename (opened d host).Directory = .ok none from run, ok_bind]
    refine ⟨_, rfl, rfl, tidy, rfl, ?_⟩
    rw [← store_none free, Function.update_eq_self]
    rfl
  · rw [show findfile filename (opened d host).Directory = .ok (some (e, slot)) from run, ok_bind]
    refine ⟨_, rfl, rfl, ?_⟩
    exact delete_found tidy found rfl rfl

/-- What fits is written as a whole, and is what the file holds then. -/
theorem write_found (tidy : Tidy d) (found : Found filename d.Directory e slot)
    {tfile : List UInt8} (room : tfile.length ≤ e.ReservedBlocks * BLOCK_SIZE) {s : Session}
    (disk : s.disk = d.fwrite (e.StartingBlock * BLOCK_SIZE) tfile)
    (dir : s.Directory = store64 (64 * slot + 48) tfile.length d.Directory) :
    Tidy (flush s).disk ∧ (flush s).disk.size = d.size ∧
      store (flush s).disk =
        Function.update (store d) filename (some ⟨e.ReservedBlocks * BLOCK_SIZE, tfile⟩) := by
  obtain ⟨low, high, lt⟩ := tidy.place found.mem_used
  have records' : (flush s).disk.records =
      records (store64 (64 * slot + 48) tfile.length d.Directory) := by
    rw [flush_records, dir]
  have same : ∀ j, j < 64 * slot ∨ 64 * slot + 64 ≤ j →
      store64 (64 * slot + 48) tfile.length d.Directory j = d.Directory j := fun j hj =>
    store64_of_outside (by omega)
  have size : s.disk.size = d.size := by
    rw [disk]
    exact fwrite_size (by omega)
  have record : entryAt (store64 (64 * slot + 48) tfile.length d.Directory) slot =
      { e with FileSize := tfile.length } := by
    rw [entryAt_size, ← found.here, Nat.mod_eq_of_lt (by unfold BLOCK_SIZE at *; omega)]
  have mark : (entryAt (store64 (64 * slot + 48) tfile.length d.Directory) slot).mark = e.mark := by
    rw [record]
    rfl
  have others := found.others tidy.sound
  -- the bytes of another file lie in its own extent
  have data (y : BMFSEntry) (mem : y ∈ files d.records) (apart : Apart e.extent y.extent) :
      contents (flush s).disk y = contents d y := by
    rw [tidy.contents_flush (mem_files.mp mem).1, disk]
    have sizes := tidy.sound.sizes y mem
    refine contents_congr fun i hi => fwrite_outside ?_
    rcases apart with before | behind
    · have le : (e.StartingBlock + e.ReservedBlocks) * BLOCK_SIZE ≤ y.StartingBlock * BLOCK_SIZE :=
        Nat.mul_le_mul_right _ before
      rw [Nat.add_mul] at le
      omega
    · have le : (y.StartingBlock + y.ReservedBlocks) * BLOCK_SIZE ≤ e.StartingBlock * BLOCK_SIZE :=
        Nat.mul_le_mul_right _ behind
      rw [Nat.add_mul] at le
      omega
  obtain ⟨replaced, apart⟩ : ∃ r : Replaced d (flush s).disk filename (some e)
      (some { e with FileSize := tfile.length }),
      ∀ y ∈ r.front ++ r.back, Apart e.extent y.extent := ⟨{
    front := files (window d.Directory slot 0)
    back := files (window d.Directory (63 - slot) (slot + 1))
    before := found.files
    after := by
      rw [records', found.files_change same (by rw [mark]; exact found.used),
        if_neg (by rw [mark]; exact found.live), record]
    others := fun y hy => (others y hy).2.1
    named := fun y hy => by
      obtain rfl := Option.some.inj hy
      exact found.named
    size := by rw [flush_size s (by rw [size]; exact tidy.big), size]
    formatted := by
      refine isFormatted_congr fun x _ hx => ?_
      rw [flush_outside s (by omega), disk, fwrite_outside]
      unfold BLOCK_SIZE at low
      unfold BLOCK_SIZE
      omega
    data := fun y hy => data y (others y hy).1 (others y hy).2.2 },
    fun y hy => (others y hy).2.2⟩
  refine ⟨replaced.tidy tidy (fun y hy => ?_) fun y hy => ?_, replaced.size, ?_⟩
  · rw [records'] at hy
    rcases found.used_change same (by rw [mark]; exact found.used) y hy with rfl | hy
    · rw [record]
      exact tidy.sound.inside e found.mem_used
    · exact tidy.sound.inside y hy
  · obtain rfl := Option.some.inj hy
    exact ⟨tidy.sound.terminated e found.mem, room, apart⟩
  · rw [replaced.store fun x hx => by
      obtain rfl := Option.some.inj hx
      exact found.named, Option.map_some, fileOf]
    congr 3
    have written : contents (flush s).disk { e with FileSize := tfile.length } =
        contents s.disk { e with FileSize := tfile.length } := by
      refine contents_congr fun i _ => flush_outside s ?_
      unfold BLOCK_SIZE at *
      dsimp only
      omega
    rw [written, contents, disk]
    refine List.ext_getElem (by simp) fun i hi hi' => ?_
    rw [List.getElem_map, List.getElem_range, fwrite_inside hi']

theorem copy_all {tfile : List UInt8} {fuel : Nat} (small : tfile.length ≤ 2 ^ 31)
    (enough : 2 ^ 31 < fuel) :
    copy (fun i => tfile.getD i 0xFF) tfile.length fuel 0 [] = .ok tfile := by
  rw [copy_ok (by omega) enough, Nat.min_eq_left small]
  refine congrArg Except.ok (List.ext_getElem (by simp) fun i hi hi' => ?_)
  simp [List.getElem?_eq_getElem hi']

theorem write_tidy (tidy : Tidy d) (host : Host) (filename : CString) {fuel : Nat}
    (enough : 2 ^ 31 < fuel)
    (small : ∀ tfile, host.files filename = some tfile → tfile.length ≤ 2 ^ 31) :
    ∃ s, write fuel filename (opened d host) = .ok s ∧ s.host = host ∧ Tidy s.disk ∧
      s.disk.size = d.size ∧
      ((∃ f tfile, store d filename = some f ∧ host.files filename = some tfile ∧
        tfile.length ≤ f.capacity ∧
        store s.disk = Function.update (store d) filename (some ⟨f.capacity, tfile⟩)) ∨
      s.disk = d ∧ ∀ f tfile, store d filename = some f → host.files filename = some tfile →
        f.capacity < tfile.length) := by
  rw [write]
  rcases findfile_cases tidy.sound.terminated filename with
    ⟨run, free⟩ | ⟨e, slot, run, found⟩
  · rw [show findfile filename (opened d host).Directory = .ok none from run, ok_bind]
    refine ⟨_, rfl, rfl, tidy, rfl, .inr ⟨rfl, fun f tfile here => ?_⟩⟩
    rw [store_none free] at here
    cases here
  rw [show findfile filename (opened d host).Directory = .ok (some (e, slot)) from run, ok_bind]
  have here := store_found tidy found
  obtain ⟨-, high, lt⟩ := tidy.place found.mem_used
  have start : uint64 (e.StartingBlock * BLOCK_SIZE) = e.StartingBlock * BLOCK_SIZE := by
    unfold BLOCK_SIZE
    rw [uint64_of_range (by omega) (by omega)]
    omega
  have reserved : uint64 (e.ReservedBlocks * BLOCK_SIZE) = e.ReservedBlocks * BLOCK_SIZE := by
    unfold BLOCK_SIZE
    rw [uint64_of_range (by omega) (by omega)]
    omega
  cases local_ : host.files filename with
  | none =>
    refine ⟨_, by
      simp only [Session.print, opened, local_]
      rfl, rfl, tidy, rfl, .inr ⟨rfl, fun f tfile _ there => ?_⟩⟩
    cases there
  | some tfile =>
    by_cases room : e.ReservedBlocks * BLOCK_SIZE < tfile.length
    · refine ⟨_, by
        simp only [Session.print, opened, local_, reserved, if_pos room]
        rfl, rfl, tidy, rfl, .inr ⟨rfl, fun f tfile' found' there => ?_⟩⟩
      rw [here] at found'
      obtain rfl := Option.some.inj found'
      obtain rfl := Option.some.inj there
      exact room
    · refine ⟨_, by
        simp only [Session.print, opened, local_, reserved, if_neg room,
          copy_all (small tfile local_) enough, ok_bind, start]
        rfl, rfl, ?_⟩
      obtain ⟨tidy', size, store'⟩ := write_found tidy found (not_lt.mp room)
        (s := { opened d host with
          disk := d.fwrite (e.StartingBlock * BLOCK_SIZE) tfile
          Directory := store64 (64 * slot + 48) tfile.length d.Directory }) rfl rfl
      exact ⟨tidy', size, .inl ⟨_, tfile, here, rfl, not_lt.mp room, store'⟩⟩

/-- A file of up to 2 GiB is copied to the machine as a whole. -/
theorem read_tidy (tidy : Tidy d) (host : Host) (filename : CString) {fuel : Nat}
    (enough : 2 ^ 31 < fuel) :
    ∃ s, read fuel filename (opened d host) = .ok s ∧ s.disk = d ∧
      s.host = match store d filename with
        | some f => if host.creates filename then
            { host with files :=
                Function.update host.files filename (some (f.contents.take (2 ^ 31))) }
          else host
        | none => host := by
  rw [read]
  rcases findfile_cases tidy.sound.terminated filename with
    ⟨run, free⟩ | ⟨e, slot, run, found⟩
  · rw [show findfile filename (opened d host).Directory = .ok none from run, ok_bind,
      store_none free]
    exact ⟨_, rfl, rfl, rfl⟩
  rw [show findfile filename (opened d host).Directory = .ok (some (e, slot)) from run, ok_bind,
    store_found tidy found]
  by_cases creates : host.creates filename
  · obtain ⟨-, high, lt⟩ := tidy.place found.mem_used
    have sizes := tidy.sound.sizes e found.mem
    have start : uint64 (e.StartingBlock * BLOCK_SIZE) = e.StartingBlock * BLOCK_SIZE := by
      unfold BLOCK_SIZE
      rw [uint64_of_range (by omega) (by omega)]
      omega
    have small : e.FileSize ≤ 2 ^ 63 := by
      unfold BLOCK_SIZE at sizes
      omega
    have copied : ((List.range (min e.FileSize (2 ^ 31))).map fun i =>
        if e.StartingBlock * BLOCK_SIZE + i < d.size then
          d.bytes (e.StartingBlock * BLOCK_SIZE + i) else 0xFF) =
        (contents d e).take (2 ^ 31) := by
      rw [contents, ← List.map_take, List.take_range, Nat.min_comm]
      refine List.map_congr_left fun i hi => if_pos ?_
      have := List.mem_range.mp hi
      omega
    refine ⟨_, by
      simp only [Session.print, opened, if_pos creates, start]
      rw [copy_ok small enough, ok_bind, copied]
      rfl, rfl, ?_⟩
    simp only [if_pos creates]
    rfl
  · refine ⟨_, by
      change (if host.creates filename then _ else _) = _
      rw [if_neg creates]
      rfl, rfl, ?_⟩
    simp only [if_neg creates]
    rfl

end

end BottlerOS.Bmfs
