import BottlerOS.BmfsCreate

/-! What `create` of `bmfs.c` comes to on a tidy disk, case by case. With an end mark in the
directory it takes the leftmost gap; where there is none it may still put the file behind a
deleted record, over the blocks of another file. Without an end mark it counts no records at all. -/

namespace BottlerOS.Bmfs
open Machine Words Extents Qsort

section
variable {dir : Bytes} {slot : Nat}

theorem mem_window {n tint : Nat} {x : BMFSEntry} :
    x ∈ window dir n tint ↔ ∃ k, k < n ∧ x = entryAt dir (tint + k) := by
  rw [window_eq_map]
  simp only [List.mem_map, List.mem_range]
  exact ⟨fun ⟨k, hk, h⟩ => ⟨k, hk, h.symm⟩, fun ⟨k, hk, h⟩ => ⟨k, hk, h.symm⟩⟩

/-- With an end mark the records in use are the ones in front of it. -/
theorem count_ended (ended : ∃ k, k < 64 ∧ (entryAt dir k).mark = 0x00) :
    ∃ k, k < 64 ∧ (entryAt dir k).mark = 0x00 ∧ (countFrom dir 64 0 none).1 = k ∧
      used (records dir) = (List.range k).map (entryAt dir) ∧
      ∀ x ∈ window dir k 0, x.mark ≠ 0x00 := by
  rcases countFrom_used dir 64 0 none with
    ⟨k, hk, here, before, count⟩ | ⟨all, -⟩
  · rw [Nat.zero_add] at here count
    refine ⟨k, hk, here, count, ?_, before⟩
    rw [used_ended hk here before, window_eq_map]
    simp only [Nat.zero_add]
  · obtain ⟨k, hk, here⟩ := ended
    exact absurd here (all _ (mem_window.mpr ⟨k, hk, by rw [Nat.zero_add]⟩))

theorem free_ended (ended : ∃ k, k < 64 ∧ (entryAt dir k).mark = 0x00) :
    ∃ slot, (countFrom dir 64 0 none).2 = some slot ∧
      Free dir slot (countFrom dir 64 0 none).1 := by
  obtain ⟨k, hk, here, count, -, -⟩ := count_ended ended
  rcases countFrom_free dir 64 0 with
    ⟨slot, free, -, below, before, mark⟩ | ⟨-, all⟩
  · refine ⟨slot, free, by omega, before, ?_⟩
    rcases mark with deleted | ⟨last, used⟩
    · refine .inl ⟨deleted, fun same => ?_⟩
      rw [same, count, here] at deleted
      exact absurd deleted (by decide)
    · exact .inr ⟨last, used⟩
  · exact absurd here (all _ (mem_window.mpr ⟨k, hk, by rw [Nat.zero_add]⟩)).1

end

/-- The files of `d` and a new one. -/
structure Added (d d' : Disk) (filename : CString) (start blocks : Nat) (x : BMFSEntry) : Prop where
  new : New filename start blocks x
  size : d'.size = d.size
  formatted : isFormatted d' = isFormatted d
  files : ∃ front back, Bmfs.files d.records = front ++ back ∧
    Bmfs.files d'.records = front ++ (x :: back)
  used : ∀ y ∈ Bmfs.used d'.records, y = x ∨ y ∈ Bmfs.used d.records
  data : ∀ y ∈ Bmfs.files d.records, contents d' y = contents d y

section
variable {qsort : (BMFSEntry → BMFSEntry → Int) → List BMFSEntry → List BMFSEntry}
  {d d' : Disk} {filename : CString} {n start maxsize : Nat} {x : BMFSEntry}

/-- The disk with the new record. -/
theorem added_created {slot num_used : Nat} (tidy : Tidy d)
    (free : Free d.Directory slot num_used) (name : Name filename) (hs : start < 2 ^ 64)
    (hb : n < 2 ^ 64) {s : Session} (disk : s.disk = d)
    (dir : s.Directory = created filename slot num_used start n d.Directory) :
    ∃ x, Added d (flush s).disk filename start n x := by
  obtain ⟨front, back, x, new, before, after, used⟩ := free.created name hs hb
  have records' : (flush s).disk.records =
      records (created filename slot num_used start n d.Directory) := by
    rw [flush_records, dir]
  refine ⟨x, new, ?_, ?_, ⟨front, back, before, ?_⟩, ?_, fun y hy => ?_⟩
  · rw [flush_size s (disk ▸ tidy.big), disk]
  · rw [← disk]
    exact isFormatted_congr fun x _ hx => flush_outside s (by omega)
  · rw [records', after]
  · rw [records']
    exact used
  · rw [tidy.contents_flush (mem_files.mp hy).1, disk]

/-- In a gap the new file leaves the disk tidy. -/
theorem Added.tidy (added : Added d d' filename start n x) (tidy : Tidy d)
    (fresh : ∀ e ∈ Bmfs.files d.records, e.name ≠ filename.1) (some_ : 0 < n)
    (gap : d.Gap n start) : Tidy d' ∧
      store d' = Function.update (store d) filename (some ⟨n * BLOCK_SIZE, []⟩) := by
  obtain ⟨front, back, before, after⟩ := added.files
  have new := added.new
  have mem (y : BMFSEntry) (hy : y ∈ front ++ back) : y ∈ Bmfs.files d.records := before ▸ hy
  have blocks : x.ReservedBlocks = n := congrArg Extent.length new.extent
  have first : x.StartingBlock = start := congrArg Extent.start new.extent
  obtain ⟨replaced, apart⟩ : ∃ r : Replaced d d' filename none (some x),
      ∀ y ∈ r.front ++ r.back, Apart x.extent y.extent := ⟨{
    front := front
    back := back
    before := before
    after := after
    others := fun y hy => fresh y (mem y hy)
    named := fun y hy => by
      obtain rfl := Option.some.inj hy
      exact new.named
    size := added.size
    formatted := added.formatted
    data := fun y hy => added.data y (mem y hy) }, fun y hy => by
      rw [new.extent]
      exact gap.free _ (List.mem_map_of_mem (mem y hy))⟩
  refine ⟨replaced.tidy tidy (fun y hy => ?_) fun y hy => ?_, ?_⟩
  · rcases added.used y hy with rfl | hy
    · have low := gap.low
      have high := gap.high
      refine ⟨by omega, by omega, ?_⟩
      rw [new.extent]
      exact high
    · exact tidy.sound.inside y hy
  · obtain rfl := Option.some.inj hy
    exact ⟨new.ended, by rw [new.size]; exact Nat.zero_le _, apart⟩
  · rw [replaced.store (by simp), Option.map_some, fileOf, contents, new.size, blocks]
    rfl

theorem findfile_fresh (tidy : Tidy d) (fresh : store d filename = none) :
    findfile filename d.Directory = .ok none ∧
      ∀ e ∈ Bmfs.files d.records, e.name ≠ filename.1 := by
  rcases findfile_cases tidy.sound.terminated filename with free | ⟨e, slot, -, found⟩
  · exact free
  · rw [store_found tidy found] at fresh
    cases fresh

/-- With an end mark, a gap is taken at its leftmost place. -/
theorem create_gap (host : Host) (sorts : Sorts qsort) (tidy : Tidy d) (name : Name filename)
    (fresh : store d filename = none) (ended : d.Ended) (pos : 1 ≤ maxsize)
    (small : maxsize < 2 ^ 31) (gap : ∃ p, d.Gap (blocks maxsize) p) :
    ∃ s p x, create qsort filename maxsize (opened d host) = .ok s ∧ s.host = host ∧
      Added d s.disk filename p (blocks maxsize) x ∧ d.Gap (blocks maxsize) p ∧
      ∀ q, d.Gap (blocks maxsize) q → p ≤ q := by
  obtain ⟨found, -⟩ := findfile_fresh tidy fresh
  obtain ⟨slot, free, facts⟩ := free_ended ended
  obtain ⟨k, -, -, count, used_, -⟩ := count_ended ended
  have same : place qsort d (blocks maxsize) =
      searchGap d.num_blocks (blocks maxsize) 1 (qsort StartingBlockCmp (used d.records)) := by
    rw [place, count, ← used_]
    rfl
  rcases place_cases sorts tidy (blocks maxsize) with ⟨p, at_, fits, least⟩ | ⟨none, -⟩
  · rw [← same] at at_
    have low := fits.low
    have high := fits.high
    have lt := d.num_blocks_lt
    obtain ⟨s, run, host', disk⟩ := create_done found host small name free
      (show place qsort d (blocks maxsize) ≠ 0 by omega)
    obtain ⟨x, added⟩ : ∃ x, Added d (flush { opened d host with
        Directory := created filename slot (countFrom d.Directory 64 0 Option.none).1
          p (blocks maxsize) d.Directory }).disk filename p (blocks maxsize) x :=
      added_created tidy facts name (by omega) (by unfold blocks; omega) rfl rfl
    rw [at_] at disk
    rw [← disk] at added
    exact ⟨s, p, x, run, host', added, fits, least⟩
  · obtain ⟨p, fits⟩ := gap
    exact absurd fits (none p)

/-- With an end mark and without a gap, the file is refused, or put behind a deleted record. -/
theorem create_no_gap (host : Host) (sorts : Sorts qsort) (tidy : Tidy d) (name : Name filename)
    (fresh : store d filename = none) (ended : d.Ended)
    (small : maxsize < 2 ^ 31) (none : ∀ p, ¬ d.Gap (blocks maxsize) p) :
    ∃ s, create qsort filename maxsize (opened d host) = .ok s ∧ s.host = host ∧
      ((∀ e ∈ deleted d.records, ¬ Room d.num_blocks (blocks maxsize) e.extent.stop) ∧
        s.disk = d ∨
      ∃ e ∈ deleted d.records, Room d.num_blocks (blocks maxsize) e.extent.stop ∧
        ∃ x, Added d s.disk filename e.extent.stop (blocks maxsize) x) := by
  obtain ⟨found, -⟩ := findfile_fresh tidy fresh
  obtain ⟨slot, free, facts⟩ := free_ended ended
  obtain ⟨k, -, -, count, used_, -⟩ := count_ended ended
  have same : place qsort d (blocks maxsize) =
      searchGap d.num_blocks (blocks maxsize) 1 (qsort StartingBlockCmp (used d.records)) := by
    rw [place, count, ← used_]
    rfl
  rcases place_cases sorts tidy (blocks maxsize) with
    ⟨p, -, fits, -⟩ | ⟨-, ⟨e, he, room, at_⟩ | ⟨full, at_⟩⟩
  · exact absurd fits (none p)
  · rw [← same] at at_
    obtain ⟨low, -, stop⟩ := tidy.sound.inside e (List.mem_filter.mp he).1
    have start : e.StartingBlock ≤ e.extent.stop := e.extent.start_le
    have lt := d.num_blocks_lt
    obtain ⟨s, run, host', disk⟩ := create_done found host small name free
      (show place qsort d (blocks maxsize) ≠ 0 by omega)
    obtain ⟨x, added⟩ : ∃ x, Added d (flush { opened d host with
        Directory := created filename slot (countFrom d.Directory 64 0 Option.none).1
          e.extent.stop (blocks maxsize) d.Directory }).disk filename e.extent.stop
          (blocks maxsize) x :=
      added_created tidy facts name (by omega) (by unfold blocks; omega) rfl rfl
    rw [at_] at disk
    rw [← disk] at added
    exact ⟨s, run, host', .inr ⟨e, he, room, x, added⟩⟩
  · rw [← same] at at_
    obtain ⟨s, run, host', disk⟩ := create_no_room found host small free at_
    exact ⟨s, run, host', .inl ⟨full, disk⟩⟩

/-- Without an end mark the records are not counted: the file goes to block 1, whatever is there,
and if the first record was deleted, the directory ends behind it. -/
theorem create_full (host : Host) (sorts : Sorts qsort) (tidy : Tidy d) (name : Name filename)
    (fresh : store d filename = none) (full : ¬ d.Ended) (small : maxsize < 2 ^ 31) :
    ∃ s, create qsort filename maxsize (opened d host) = .ok s ∧ s.host = host ∧
      ((deleted d.records = [] ∨ ¬ Room d.num_blocks (blocks maxsize) 1) ∧ s.disk = d ∨
      deleted d.records ≠ [] ∧ Room d.num_blocks (blocks maxsize) 1 ∧
        ((entryAt d.Directory 0).mark = 0x01 ∧ s.disk.size = d.size ∧
            (∃ x, New filename 1 (blocks maxsize) x ∧ files s.disk.records = [x]) ∨
          (entryAt d.Directory 0).mark ≠ 0x01 ∧
            ∃ x, Added d s.disk filename 1 (blocks maxsize) x)) := by
  obtain ⟨found, -⟩ := findfile_fresh tidy fresh
  have lt := d.num_blocks_lt
  have blocks_lt : blocks maxsize < 2 ^ 64 := by
    unfold blocks
    omega
  have more : ∀ k, k < 64 → (entryAt d.Directory k).mark ≠ 0x00 := fun k hk here =>
    full ⟨k, hk, here⟩
  have count : (countFrom d.Directory 64 0 none).1 = 0 := by
    rcases countFrom_used d.Directory 64 0 none with ⟨k, hk, here, -, -⟩ | ⟨-, count⟩
    · rw [Nat.zero_add] at here
      exact absurd here (more k hk)
    · exact count
  have all : used d.records = d.records :=
    List.takeWhile_eq_self_iff.mpr fun x hx => by
      obtain ⟨k, hk, rfl⟩ := mem_window.mp hx
      rw [Nat.zero_add]
      simpa using more k hk
  have at_ : place qsort d (blocks maxsize) =
      if Room d.num_blocks (blocks maxsize) 1 then 1 else 0 := by
    have sorted := (sorts.perm StartingBlockCmp [] (by simp [Orders])).eq_nil
    rw [place, count, List.range_zero, List.map_nil, sorted,
      searchGap_nil tidy.blocks lt (by have := tidy.blocks; omega)]
  rcases countFrom_free d.Directory 64 0 with ⟨slot, free, -, below, before, mark⟩ | ⟨none, live_⟩
  · have gone : (entryAt d.Directory slot).mark = 0x01 := by
      rcases mark with gone | ⟨ended, -⟩
      · exact gone
      · exact absurd ended (more slot (by omega))
    have some_ : deleted d.records ≠ [] := by
      refine List.ne_nil_of_mem (List.mem_filter.mpr ⟨?_, ?_⟩ : entryAt d.Directory slot ∈ _)
      · rw [all]
        exact mem_window.mpr ⟨slot, by omega, by rw [Nat.zero_add]⟩
      · simp [live, gone]
    by_cases room : Room d.num_blocks (blocks maxsize) 1
    · rw [if_pos room] at at_
      obtain ⟨s, run, host', disk⟩ := create_done found host small name free
        (show place qsort d (blocks maxsize) ≠ 0 by omega)
      rw [at_, count] at disk
      refine ⟨s, run, host', .inr ⟨some_, room, ?_⟩⟩
      by_cases first : slot = 0
      · subst first
        refine .inl ⟨gone, ?_, entryAt (created filename 0 0 1 (blocks maxsize) d.Directory) 0,
          new_created name (by omega) blocks_lt, ?_⟩
        · rw [disk]
          exact flush_size _ tidy.big
        · have new : New filename 1 (blocks maxsize)
              (entryAt (created filename 0 0 1 (blocks maxsize) d.Directory) 0) :=
            new_created name (by omega) blocks_lt
          rw [disk, flush_records]
          change files (entryAt _ 0 :: entryAt _ 1 :: window _ 62 2) = _
          rw [files_cons new.used new.live, files_end (created_next rfl (by omega))]
      · have facts : Free d.Directory slot 0 :=
          ⟨by omega, by simpa using before, .inl ⟨gone, first⟩⟩
        have head : (entryAt d.Directory 0).mark ≠ 0x01 :=
          (before _ (mem_window.mpr ⟨0, by omega, rfl⟩)).2
        refine .inr ⟨head, ?_⟩
        rw [disk]
        exact added_created tidy facts name (by omega) blocks_lt rfl rfl
    · rw [if_neg room] at at_
      obtain ⟨s, run, host', disk⟩ := create_no_room found host small free at_
      exact ⟨s, run, host', .inl ⟨.inr room, disk⟩⟩
  · obtain ⟨s, run, host', disk⟩ := create_no_entry found host maxsize none
    refine ⟨s, run, host', .inl ⟨.inl (List.filter_eq_nil_iff.mpr fun x hx => ?_), disk⟩⟩
    rw [all] at hx
    have := (live_ x hx).2
    simp [live, this]

end

end BottlerOS.Bmfs
