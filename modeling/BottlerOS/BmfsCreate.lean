import BottlerOS.BmfsSteps

/-! `create` of `bmfs.c`: the record it fills, the blocks it gives the file, and what becomes of a
disk on which it finds neither a gap nor an end mark. -/

namespace BottlerOS.Bmfs
open Machine Words Extents Qsort

/-- A name that `create` can put in a record and that is found there again. -/
structure Name (filename : CString) : Prop where
  short : filename.1.length < 32
  nonempty : filename.1 ≠ []
  mark : filename.1.head? ≠ some 0x01

/-- The directory that `create` writes. -/
def created (filename : CString) (slot num_used start blocks : Nat) (dir : Bytes) : Bytes :=
  let dir := store64 (64 * slot + 32) start dir
  let dir := store64 (64 * slot + 40) blocks dir
  let dir := store64 (64 * slot + 48) 0 dir
  let dir := fun x =>
    if 64 * slot ≤ x then ((filename.1 ++ [0])[x - 64 * slot]?).getD (dir x) else dir x
  if slot = num_used ∧ num_used + 1 < 64 then setByte (64 * (num_used + 1)) 0x00 dir else dir

section
variable {filename : CString} {dir : Bytes} {slot num_used start blocks k : Nat}

theorem created_outside (short : filename.1.length < 32) {j : Nat}
    (out : j < 64 * slot ∨ 64 * slot + 64 ≤ j)
    (other : ¬ (slot = num_used ∧ j = 64 * (num_used + 1))) :
    created filename slot num_used start blocks dir j = dir j := by
  have name : (if 64 * slot ≤ j then ((filename.1 ++ [0])[j - 64 * slot]?).getD
      (store64 (64 * slot + 48) 0 (store64 (64 * slot + 40) blocks
        (store64 (64 * slot + 32) start dir)) j)
      else store64 (64 * slot + 48) 0 (store64 (64 * slot + 40) blocks
        (store64 (64 * slot + 32) start dir)) j) = dir j := by
    have rest : store64 (64 * slot + 48) 0 (store64 (64 * slot + 40) blocks
        (store64 (64 * slot + 32) start dir)) j = dir j := by
      rw [store64_of_outside (by omega), store64_of_outside (by omega),
        store64_of_outside (by omega)]
    rw [rest]
    split
    · rw [List.getElem?_eq_none (by simp; omega), Option.getD_none]
    · rfl
  simp only [created]
  split <;> rename_i last
  · rw [setByte, Function.update_of_ne (fun h => other ⟨last.1, h⟩)]
    exact name
  · exact name

/-- The bytes of the record itself. -/
theorem created_inside {j : Nat} (below : j < 64) :
    created filename slot num_used start blocks dir (64 * slot + j) =
      ((filename.1 ++ [0])[j]?).getD
        (store64 (64 * slot + 48) 0 (store64 (64 * slot + 40) blocks
          (store64 (64 * slot + 32) start dir)) (64 * slot + j)) := by
  have name : (if 64 * slot ≤ 64 * slot + j then
      ((filename.1 ++ [0])[64 * slot + j - 64 * slot]?).getD
      (store64 (64 * slot + 48) 0 (store64 (64 * slot + 40) blocks
        (store64 (64 * slot + 32) start dir)) (64 * slot + j))
      else store64 (64 * slot + 48) 0 (store64 (64 * slot + 40) blocks
        (store64 (64 * slot + 32) start dir)) (64 * slot + j)) =
      ((filename.1 ++ [0])[j]?).getD (store64 (64 * slot + 48) 0 (store64 (64 * slot + 40) blocks
        (store64 (64 * slot + 32) start dir)) (64 * slot + j)) := by
    rw [if_pos (by omega), Nat.add_sub_cancel_left]
  simp only [created]
  split <;> rename_i last
  · rw [setByte, Function.update_of_ne (by omega)]
    exact name
  · exact name

/-- The end mark moves behind a record that had it. -/
theorem created_next (last : slot = num_used) (below : num_used + 1 < 64) :
    (entryAt (created filename slot num_used start blocks dir) (slot + 1)).mark = 0x00 := by
  rw [mark_entryAt]
  simp only [created]
  rw [if_pos ⟨last, below⟩, last, setByte, Function.update_self]

/-- The record of the new file. -/
structure New (filename : CString) (start blocks : Nat) (x : BMFSEntry) : Prop where
  named : x.name = filename.1
  used : x.mark ≠ 0x00
  live : x.mark ≠ 0x01
  ended : (0 : UInt8) ∈ x.FileName
  extent : x.extent = ⟨start, blocks⟩
  size : x.FileSize = 0

theorem new_created (name : Name filename) (hs : start < 2 ^ 64) (hb : blocks < 2 ^ 64) :
    New filename start blocks (entryAt (created filename slot num_used start blocks dir) slot) := by
  have short := name.short
  obtain ⟨c, rest, split⟩ := List.exists_cons_of_ne_nil name.nonempty
  have nul : (0 : UInt8) ∉ c :: rest := split ▸ filename.2
  have first : (entryAt (created filename slot num_used start blocks dir) slot).mark = c := by
    rw [mark_entryAt]
    change created filename slot num_used start blocks dir (64 * slot + 0) = c
    rw [created_inside (by omega), split]
    rfl
  -- the name and its NUL stand at the front
  have front : ∀ j, j < filename.1.length + 1 →
      (entryAt (created filename slot num_used start blocks dir) slot).FileName[j]? =
        (filename.1 ++ [0])[j]? := by
    intro j hj
    have inside : j < (filename.1 ++ [0]).length := by simpa using hj
    rw [entryAt, List.getElem?_map, List.getElem?_range (by omega), Option.map_some,
      created_inside (by omega), List.getElem?_eq_getElem inside, Option.getD_some]
  have prefix_ : (entryAt (created filename slot num_used start blocks dir) slot).FileName =
      (filename.1 ++ [0]) ++
        (entryAt (created filename slot num_used start blocks dir) slot).FileName.drop
          (filename.1.length + 1) := by
    conv => lhs; rw [← List.take_append_drop (filename.1.length + 1) (entryAt _ slot).FileName]
    congr 1
    refine List.ext_getElem? fun j => ?_
    by_cases hj : j < filename.1.length + 1
    · rw [List.getElem?_take_of_lt hj, front j hj]
    · rw [List.getElem?_eq_none (by simp; omega), List.getElem?_eq_none (by simp; omega)]
  have word (a : Nat) (lo : 32 ≤ a) (hi : a + 8 ≤ 64) :
      load64 (created filename slot num_used start blocks dir) (64 * slot + a) =
        load64 (store64 (64 * slot + 48) 0 (store64 (64 * slot + 40) blocks
          (store64 (64 * slot + 32) start dir))) (64 * slot + a) := by
    refine load64_congr fun x low high => ?_
    obtain ⟨j, rfl⟩ : ∃ j, x = 64 * slot + j := ⟨x - 64 * slot, by omega⟩
    rw [created_inside (by omega), List.getElem?_eq_none (by simp; omega), Option.getD_none]
  refine ⟨?_, ?_, ?_, ?_, ?_, ?_⟩
  · rw [BMFSEntry.name, prefix_, List.append_assoc, List.takeWhile_append_of_pos]
    · simp
    · intro b hb
      have : b ≠ 0 := fun h => filename.2 (h ▸ hb)
      simpa using this
  · rw [first]
    exact fun h => nul (by simp [h])
  · rw [first]
    intro h
    exact name.mark (by simp [split, h])
  · rw [prefix_]
    simp
  · rw [BMFSEntry.extent]
    simp only [entryAt]
    rw [word 32 (by omega) (by omega), word 40 (by omega) (by omega),
      load64_store64_apart (by omega), load64_store64_apart (by omega), load64_store64,
      load64_store64_apart (by omega), load64_store64, Nat.mod_eq_of_lt hs, Nat.mod_eq_of_lt hb]
  · simp only [entryAt]
    rw [word 48 (by omega) (by omega), load64_store64]
    rfl

/-- A record that holds no file, and what is in front of it. -/
structure Free (dir : Bytes) (slot num_used : Nat) : Prop where
  below : slot < 64
  before : ∀ x ∈ window dir slot 0, x.mark ≠ 0x00 ∧ x.mark ≠ 0x01
  here : (entryAt dir slot).mark = 0x01 ∧ slot ≠ num_used ∨
    (entryAt dir slot).mark = 0x00 ∧ num_used = slot

/-- The new file is put between the others. -/
theorem Free.created (free : Free dir slot num_used) (name : Name filename) (hs : start < 2 ^ 64)
    (hb : blocks < 2 ^ 64) : ∃ front back x, New filename start blocks x ∧
      files (records dir) = front ++ back ∧
      files (records (created filename slot num_used start blocks dir)) = front ++ (x :: back) ∧
      ∀ y ∈ used (records (created filename slot num_used start blocks dir)),
        y = x ∨ y ∈ used (records dir) := by
  have new : New filename start blocks
      (entryAt (Bmfs.created filename slot num_used start blocks dir) slot) :=
    new_created name hs hb
  have before : ∀ x ∈ window dir slot 0, x.mark ≠ 0x00 := fun x hx => (free.before x hx).1
  rcases free.here with ⟨deleted, other⟩ | ⟨ended, last⟩
  · have same : ∀ j, j < 64 * slot ∨ 64 * slot + 64 ≤ j →
        Bmfs.created filename slot num_used start blocks dir j = dir j := fun j hj =>
      created_outside name.short hj fun h => other h.1
    have after := records_change free.below same
    refine ⟨files (window dir slot 0), files (window dir (63 - slot) (slot + 1)), _, new,
      ?_, ?_, fun y hy => ?_⟩
    · rw [records_split dir free.below, files_append before, files_deleted deleted]
    · rw [after, files_append before, files_cons new.used new.live]
    · rw [after, used_append before, used_cons new.used] at hy
      rw [records_split dir free.below, used_append before,
        used_cons (by rw [deleted]; decide)]
      simp only [List.mem_append, List.mem_cons] at hy ⊢
      tauto
  · -- behind the new record the directory ends
    have tail : used (window (Bmfs.created filename slot num_used start blocks dir) (63 - slot)
        (slot + 1)) = [] := by
      by_cases more : slot + 1 < 64
      · rw [show 63 - slot = (62 - slot) + 1 by omega, window]
        exact used_end (created_next last.symm (by omega))
      · rw [show 63 - slot = 0 by omega]
        rfl
    have front : window (Bmfs.created filename slot num_used start blocks dir) slot 0 =
        window dir slot 0 :=
      window_congr fun j _ hi => created_outside name.short (by omega) (by omega)
    have after := records_split (Bmfs.created filename slot num_used start blocks dir) free.below
    rw [front] at after
    refine ⟨files (window dir slot 0), [], _, new, ?_, ?_, fun y hy => ?_⟩
    · rw [records_split dir free.below, files_append before, files_end ended]
    · rw [after, files_append before, files_cons new.used new.live]
      congr 2
      rw [files, tail]
      rfl
    · rw [after, used_append before, used_cons new.used, tail] at hy
      rw [records_split dir free.below, used_append before, used_end ended]
      simp only [List.mem_append, List.mem_cons, List.not_mem_nil, or_false] at hy ⊢
      tauto

/-- The records in use, where there is an end mark. -/
theorem used_ended (below : k < 64) (ended : (entryAt dir k).mark = 0x00)
    (before : ∀ x ∈ window dir k 0, x.mark ≠ 0x00) : used (records dir) = window dir k 0 := by
  rw [records_split dir below, used_append before, used_end ended, List.append_nil]

end

/-! The blocks that the search gives the file. -/

def Disk.extents (d : Disk) : List Extent := (files d.records).map BMFSEntry.extent

/-- The directory does not fill all of its 64 records. -/
def Disk.Ended (d : Disk) : Prop := ∃ k, k < 64 ∧ (entryAt d.Directory k).mark = 0x00

/-- A gap for `n` blocks: clear of every file, in front of the last block. -/
def Disk.Gap (d : Disk) (n p : Nat) : Prop := Fits 1 (d.num_blocks - 1) d.extents n p

/-- `blocks_requested`, for a size in MiB. -/
def blocks (maxsize : Nat) : Nat := (maxsize + 1) / 2

section
variable {qsort : (BMFSEntry → BMFSEntry → Int) → List BMFSEntry → List BMFSEntry}
  {d : Disk} {filename : CString} {n slot num_used maxsize : Nat}

/-- Where the file goes, if the records in use are counted. -/
theorem place_cases (sorts : Sorts qsort) (tidy : Tidy d) (n : Nat) :
    (∃ p, searchGap d.num_blocks n 1 (qsort StartingBlockCmp (used d.records)) = p ∧
      d.Gap n p ∧ ∀ q, d.Gap n q → p ≤ q) ∨
    (∀ q, ¬ d.Gap n q) ∧
      ((∃ e ∈ deleted d.records, Room d.num_blocks n e.extent.stop ∧
        searchGap d.num_blocks n 1 (qsort StartingBlockCmp (used d.records)) = e.extent.stop) ∨
      (∀ e ∈ deleted d.records, ¬ Room d.num_blocks n e.extent.stop) ∧
        searchGap d.num_blocks n 1 (qsort StartingBlockCmp (used d.records)) = 0) := by
  have inside := tidy.sound.inside
  have lt := d.num_blocks_lt
  have small : ∀ e ∈ used d.records, e.StartingBlock < 2 ^ 31 := fun e he => by
    have start : e.StartingBlock ≤ e.extent.stop := e.extent.start_le
    have stop := (inside e he).2.2
    omega
  obtain ⟨ls, ds, split, files_, deleted_, order⟩ := sorted_split sorts small
  rw [← files_eq_filter] at files_
  have chain : Chain (d.num_blocks - 1) 1 (ls.map BMFSEntry.extent) := by
    have blocks := tidy.blocks
    have mem (e : BMFSEntry) (he : e ∈ ls) : e ∈ used d.records :=
      (mem_files.mp (files_.mem_iff.mp he)).1
    refine chain_of_sorted (List.pairwise_map.mpr order) (List.pairwise_map.mpr ?_) ?_ ?_
      (by omega)
    · refine (files_.pairwise_iff fun h => h.symm).mpr ?_
      exact tidy.sound.compatible.imp fun h => h.2
    · rw [List.forall_mem_map]
      exact fun e he => ⟨(inside e (mem e he)).1, (inside e (mem e he)).2.2⟩
    · rw [List.forall_mem_map]
      exact fun e he => (inside e (mem e he)).2.1
  have gone : Gone d.num_blocks ds := fun e he => by
    obtain ⟨he, dead⟩ := List.mem_filter.mp (deleted_.mem_iff.mp he)
    exact ⟨by simpa using dead, (inside e he).2.2⟩
  have lv : ∀ e ∈ ls, live e = true := fun e he =>
    (List.mem_filter.mp (files_eq_filter d.records ▸ files_.mem_iff.mp he)).2
  have gap (q : Nat) : Fits 1 (d.num_blocks - 1) (ls.map BMFSEntry.extent) n q ↔ d.Gap n q := by
    have same : ∀ x, x ∈ ls.map BMFSEntry.extent ↔ x ∈ d.extents := fun x =>
      (files_.map BMFSEntry.extent).mem_iff
    exact ⟨fun fits => fits.congr fun x hx => (same x).mpr hx,
      fun fits => fits.congr fun x hx => (same x).mp hx⟩
  have search := searchGap_cases n tidy.blocks lt chain lv gone
  rw [split]
  simp only [gap] at search
  rcases search with found | ⟨none, ⟨e, he, room, place⟩ | ⟨full, place⟩⟩
  · exact .inl found
  · exact .inr ⟨none, .inl ⟨e, deleted_.mem_iff.mp he, room, place⟩⟩
  · exact .inr ⟨none, .inr ⟨fun e he => full e (deleted_.mem_iff.mpr he), place⟩⟩

/-! What the run does with the place. -/

theorem round_up (small : maxsize < 2 ^ 31) :
    (if maxsize % 2 ≠ 0 then uint64 (maxsize + 1) else maxsize) / 2 = blocks maxsize := by
  unfold blocks
  split
  · rw [uint64_of_range (by omega) (by omega)]
    omega
  · omega

/-- The place that the run finds for `n` blocks. -/
def place (qsort : (BMFSEntry → BMFSEntry → Int) → List BMFSEntry → List BMFSEntry) (d : Disk)
    (n : Nat) : Nat :=
  searchGap d.num_blocks n 1 (qsort StartingBlockCmp
    ((List.range (countFrom d.Directory 64 0 none).1).map (entryAt d.Directory)))

theorem create_exists (host : Host) (maxsize : Nat) {entry : BMFSEntry × Nat}
    (found : findfile filename d.Directory = .ok (some entry)) :
    ∃ s, create qsort filename maxsize (opened d host) = .ok s ∧ s.host = host ∧ s.disk = d := by
  rw [create, show findfile filename (opened d host).Directory = _ from found]
  exact ⟨_, rfl, rfl, rfl⟩

section
variable (fresh : findfile filename d.Directory = .ok none)
include fresh

theorem create_no_entry (host : Host) (maxsize : Nat) (full : (countFrom d.Directory 64 0 none).2 = none) :
    ∃ s, create qsort filename maxsize (opened d host) = .ok s ∧ s.host = host ∧ s.disk = d := by
  rw [create, show findfile filename (opened d host).Directory = _ from fresh, ok_bind]
  cases count : countFrom d.Directory 64 0 none with | mk num_used free
  rw [count] at full
  dsimp only at full
  subst full
  simp only [Session.print, opened, count]
  exact ⟨_, rfl, rfl, rfl⟩

theorem create_no_room (host : Host) (small : maxsize < 2 ^ 31)
    (free : (countFrom d.Directory 64 0 none).2 = some slot)
    (none : place qsort d (blocks maxsize) = 0) :
    ∃ s, create qsort filename maxsize (opened d host) = .ok s ∧ s.host = host ∧ s.disk = d := by
  rw [create, show findfile filename (opened d host).Directory = _ from fresh, ok_bind]
  rw [place, Disk.num_blocks] at none
  cases count : countFrom d.Directory 64 0 Option.none with | mk num_used first
  rw [count] at free none
  dsimp only at free none
  subst free
  simp only [Session.print, opened, count, round_up small]
  rw [if_pos none]
  exact ⟨_, rfl, rfl, rfl⟩

theorem create_done (host : Host) (small : maxsize < 2 ^ 31) (name : Name filename)
    (free : (countFrom d.Directory 64 0 none).2 = some slot)
    (found : place qsort d (blocks maxsize) ≠ 0) :
    ∃ s, create qsort filename maxsize (opened d host) = .ok s ∧ s.host = host ∧
      s.disk = (flush { opened d host with
        Directory := created filename slot (countFrom d.Directory 64 0 none).1
          (place qsort d (blocks maxsize)) (blocks maxsize) d.Directory }).disk := by
  rw [create, show findfile filename (opened d host).Directory = _ from fresh, ok_bind]
  rw [place, Disk.num_blocks] at found ⊢
  cases count : countFrom d.Directory 64 0 none with | mk num_used first
  rw [count] at free found
  dsimp only at free found
  subst free
  simp only [Session.print, opened, count, round_up small]
  rw [if_neg found, strcpy, if_pos name.short]
  exact ⟨_, rfl, rfl, rfl⟩

end

end

end BottlerOS.Bmfs
