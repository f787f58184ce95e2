import BottlerOS.Library.FileStore
import BottlerOS.BmfsGap
import Mathlib.Data.List.Perm.Basic

/-! What `bmfs.c` keeps of a disk: files in extents that do not meet, under names of their own, and
the store of files that the disk stands for. -/

namespace BottlerOS.Bmfs
open Machine Words Extents

/-- The blocks that `create` counts. -/
def Disk.num_blocks (d : Disk) : Nat := d.size / 1048576 % 2 ^ 32 / 2

def Disk.records (d : Disk) : List BMFSEntry := Bmfs.records d.Directory

/-- Two files can be on a disk. -/
def Compatible (a b : BMFSEntry) : Prop := a.name ≠ b.name ∧ Apart a.extent b.extent

theorem Compatible.symm {a b : BMFSEntry} (h : Compatible a b) : Compatible b a :=
  ⟨h.1.symm, h.2.symm⟩

instance : Std.Symm Compatible := ⟨fun _ _ => Compatible.symm⟩

/-- A deleted record keeps its extent, which a later search looks at. -/
structure Sound (num_blocks : Nat) (rs : List BMFSEntry) : Prop where
  inside : ∀ e ∈ used rs, 1 ≤ e.StartingBlock ∧ 0 < e.ReservedBlocks ∧
    e.extent.stop ≤ num_blocks - 1
  terminated : Terminated rs
  sizes : ∀ e ∈ files rs, e.FileSize ≤ e.ReservedBlocks * BLOCK_SIZE
  compatible : (files rs).Pairwise Compatible

structure Tidy (d : Disk) : Prop where
  formatted : isFormatted d = true
  blocks : 2 ≤ d.num_blocks
  sound : Sound d.num_blocks d.records

/-- The bytes of a file. -/
def contents (d : Disk) (e : BMFSEntry) : List UInt8 :=
  (List.range e.FileSize).map fun i => d.bytes (e.StartingBlock * BLOCK_SIZE + i)

def fileOf (d : Disk) (e : BMFSEntry) : FileStore.File UInt8 :=
  ⟨e.ReservedBlocks * BLOCK_SIZE, contents d e⟩

/-- The files of a disk. -/
def store (d : Disk) : FileStore.Store CString UInt8 := fun filename =>
  (lookup d.records filename).map (fileOf d)

section
variable {d d' : Disk} {pos n : Nat} {bs : List UInt8} {e : BMFSEntry} {filename : CString}

theorem Disk.num_blocks_lt (d : Disk) : d.num_blocks < 2 ^ 31 := by
  unfold Disk.num_blocks
  omega

theorem Disk.blocks_le (d : Disk) : d.num_blocks * BLOCK_SIZE ≤ d.size := by
  unfold Disk.num_blocks BLOCK_SIZE
  omega

theorem Disk.num_blocks_congr (size : d'.size = d.size) : d'.num_blocks = d.num_blocks := by
  rw [Disk.num_blocks, size, ← Disk.num_blocks]

theorem fwrite_size (fits : pos + bs.length ≤ d.size) : (d.fwrite pos bs).size = d.size := by
  simp only [Disk.fwrite]
  split
  · rfl
  · exact Nat.max_eq_left fits

theorem fwrite_outside {x : Nat} (out : x < pos ∨ pos + bs.length ≤ x) :
    (d.fwrite pos bs).bytes x = d.bytes x := by
  simp only [Disk.fwrite]
  split
  · rw [List.getElem?_eq_none (by omega), Option.getD_none]
  · rfl

theorem fwrite_inside {i : Nat} (hi : i < bs.length) :
    (d.fwrite pos bs).bytes (pos + i) = bs[i] := by
  simp [Disk.fwrite, hi]

/-- The disk is formatted as long as the sector of its tag is left alone. -/
theorem isFormatted_congr (same : ∀ x, 1024 ≤ x → x < 4096 → d'.bytes x = d.bytes x) :
    isFormatted d' = isFormatted d := by
  rw [isFormatted, isFormatted, Bool.eq_iff_iff, List.all_eq_true, List.all_eq_true]
  refine forall₂_congr fun j hj => ?_
  have below := List.mem_range.mp hj
  rw [same _ (by omega) (by omega)]

/-- A run that writes its directory back. -/
theorem flush_outside (s : Session) {x : Nat} (out : x < 4096 ∨ 8192 ≤ x) :
    (flush s).disk.bytes x = s.disk.bytes x :=
  fwrite_outside (by simpa using out)

theorem flush_size (s : Session) (big : 8192 ≤ s.disk.size) :
    (flush s).disk.size = s.disk.size :=
  fwrite_size (by simpa using big)

theorem flush_records (s : Session) : (flush s).disk.records = records s.Directory := by
  refine records_congr fun j hj => ?_
  change (s.disk.fwrite 4096 _).bytes (4096 + j) = _
  rw [fwrite_inside (by simpa using hj), List.getElem_map, List.getElem_range]

theorem contents_congr (same : ∀ i, i < e.FileSize →
    d'.bytes (e.StartingBlock * BLOCK_SIZE + i) = d.bytes (e.StartingBlock * BLOCK_SIZE + i)) :
    contents d' e = contents d e :=
  List.map_congr_left fun i hi => same i (List.mem_range.mp hi)

theorem Tidy.big (tidy : Tidy d) : 8192 ≤ d.size := by
  have blocks := tidy.blocks
  have le := d.blocks_le
  unfold BLOCK_SIZE at le
  omega

/-- The files of a directory are looked up by their names. -/
theorem lookup_some {num_blocks : Nat} {rs : List BMFSEntry} (sound : Sound num_blocks rs) :
    lookup rs filename = some e ↔ e ∈ files rs ∧ e.name = filename.1 := by
  constructor
  · intro found
    exact ⟨List.mem_of_find?_eq_some found, by simpa using List.find?_some found⟩
  · rintro ⟨mem, named⟩
    cases found : lookup rs filename with
    | none => exact absurd named (by simpa using List.find?_eq_none.mp found e mem)
    | some x =>
      have named' : x.name = filename.1 := by simpa using List.find?_some found
      have mem' : x ∈ files rs := List.mem_of_find?_eq_some found
      by_contra other
      have different := sound.compatible.forall mem' mem fun same => other (by rw [same])
      exact different.1 (by rw [named, named'])

theorem lookup_none {rs : List BMFSEntry} :
    lookup rs filename = none ↔ ∀ e ∈ files rs, e.name ≠ filename.1 := by
  simp [lookup]

end

/-! A change at the record of one file. -/

/-- The files but for the one of that name, which is `old` before and `new` behind. -/
structure Replaced (d d' : Disk) (filename : CString) (old new : Option BMFSEntry) where
  front : List BMFSEntry
  back : List BMFSEntry
  before : files d.records = front ++ (old.toList ++ back)
  after : files d'.records = front ++ (new.toList ++ back)
  others : ∀ x ∈ front ++ back, x.name ≠ filename.1
  named : ∀ x ∈ new, x.name = filename.1
  size : d'.size = d.size
  formatted : isFormatted d' = isFormatted d
  data : ∀ x ∈ front ++ back, contents d' x = contents d x

section
variable {d d' : Disk} {filename : CString} {old new : Option BMFSEntry}

/-- The store behind the change. -/
theorem Replaced.store (r : Replaced d d' filename old new)
    (was : ∀ x ∈ old, x.name = filename.1) :
    store d' = Function.update (store d) filename (new.map (fileOf d')) := by
  have absent (l : List BMFSEntry) (sub : ∀ x ∈ l, x ∈ r.front ++ r.back) :
      l.find? (fun e => decide (e.name = filename.1)) = none := by
    rw [List.find?_eq_none]
    intro x hx
    simpa using r.others x (sub x hx)
  funext name
  by_cases same : name = filename
  · subst same
    rw [Function.update_self, Bmfs.store, lookup, r.after, List.find?_append,
      absent r.front fun x hx => List.mem_append_left _ hx, List.find?_append,
      absent r.back fun x hx => List.mem_append_right _ hx, Option.none_or, Option.or_none]
    cases here : new with
    | none => rfl
    | some x =>
      have named := r.named x (by simp [here])
      simp [named]
  · have skip (o : Option BMFSEntry) (named : ∀ x ∈ o, x.name = filename.1) :
        o.toList.find? (fun e => decide (e.name = name.1)) = none := by
      rw [List.find?_eq_none]
      intro x hx
      have other : filename.1 ≠ name.1 := fun h => same (Subtype.ext h.symm)
      simpa [named x (by simpa using hx)] using other
    rw [Function.update_of_ne same, Bmfs.store, Bmfs.store, lookup, lookup, r.after, r.before,
      List.find?_append, List.find?_append, List.find?_append, List.find?_append,
      skip new r.named, skip old was, Option.none_or]
    rw [← List.find?_append]
    cases found : (r.front ++ r.back).find? fun e => decide (e.name = name.1) with
    | none => rfl
    | some x =>
      have mem := List.mem_of_find?_eq_some found
      exact congrArg some (congrArg (FileStore.File.mk _) (r.data x mem))

/-- The disk stays tidy if the changed file has its place. -/
theorem Replaced.tidy (r : Replaced d d' filename old new) (tidy : Tidy d)
    (inside : ∀ e ∈ used d'.records, 1 ≤ e.StartingBlock ∧ 0 < e.ReservedBlocks ∧
      e.extent.stop ≤ d.num_blocks - 1)
    (placed : ∀ x ∈ new, (0 : UInt8) ∈ x.FileName ∧
      x.FileSize ≤ x.ReservedBlocks * BLOCK_SIZE ∧
      ∀ y ∈ r.front ++ r.back, Apart x.extent y.extent) : Tidy d' := by
  have blocks := Disk.num_blocks_congr r.size
  have sub : (r.front ++ r.back).Sublist (files d.records) := by
    rw [r.before]
    exact (List.Sublist.refl _).append (List.sublist_append_right _ _)
  have mem (x : BMFSEntry) (hx : x ∈ files d'.records) : x ∈ new ∨ x ∈ r.front ++ r.back := by
    rw [r.after] at hx
    simp only [List.mem_append, Option.mem_toList] at hx ⊢
    tauto
  refine ⟨r.formatted.trans tidy.formatted, blocks ▸ tidy.blocks, ?_, fun x hx => ?_,
    fun x hx => ?_, ?_⟩
  · rw [blocks]
    exact inside
  · rcases mem x hx with hx | hx
    · exact (placed x hx).1
    · exact tidy.sound.terminated x (sub.subset hx)
  · rcases mem x hx with hx | hx
    · exact (placed x hx).2.1
    · exact tidy.sound.sizes x (sub.subset hx)
  · rw [r.after]
    have rest := tidy.sound.compatible.sublist sub
    cases new with
    | none => simpa using rest
    | some x =>
      rw [Option.toList_some, List.singleton_append, List.pairwise_middle Compatible.symm,
        List.pairwise_cons]
      refine ⟨fun y hy => ⟨?_, (placed x rfl).2.2 y hy⟩, rest⟩
      rw [r.named x rfl]
      exact (r.others y hy).symm

end

/-! The loop that copies bytes. -/

section
variable {getc : Nat → UInt8} {size fuel : Nat} {copied : List UInt8}

/-- The counter is an `int`: no more than 2 GiB are copied. -/
theorem copy_rest (small : size ≤ 2 ^ 63) (le : copied.length ≤ min size (2 ^ 31))
    (enough : min size (2 ^ 31) < copied.length + fuel) :
    copy getc size fuel (int32 copied.length) copied = .ok (copied ++
      (List.range (min size (2 ^ 31) - copied.length)).map fun i => getc (copied.length + i)) := by
  induction fuel generalizing copied with
  | zero => omega
  | succ fuel ih =>
    rw [copy]
    by_cases more : copied.length < min size (2 ^ 31)
    · have tint : int32 copied.length = copied.length :=
        int32_of_range (by omega) (by unfold INT_MAX; omega)
      have index : uint64 copied.length = copied.length := by
        rw [uint64_of_range (by omega) (by omega), Int.toNat_natCast]
      have next : int32 (copied.length + 1) =
          int32 (copied ++ [getc copied.length]).length := by simp
      rw [tint, index, if_pos (by omega), next,
        ih (by simp; omega) (by rw [List.length_append, List.length_singleton]; omega),
        List.append_assoc, List.singleton_append, List.length_append, List.length_singleton,
        show min size (2 ^ 31) - copied.length = (min size (2 ^ 31) - (copied.length + 1)) + 1 by
          omega,
        List.range_succ_eq_map, List.map_cons, List.map_map, Nat.add_zero]
      refine congrArg (fun l => Except.ok (copied ++ getc copied.length :: l)) ?_
      refine List.map_congr_left fun i _ => congrArg getc ?_
      omega
    · have done : copied.length = min size (2 ^ 31) := by omega
      have stop : ¬ uint64 (int32 copied.length) < size := by
        by_cases wrapped : size ≤ 2 ^ 31 - 1
        · rw [int32_of_range (by omega) (by unfold INT_MAX; omega),
            uint64_of_range (by omega) (by omega)]
          omega
        · by_cases exact_ : size = 2 ^ 31 ∨ 2 ^ 31 < size
          · have full : (copied.length : Int) = 2 ^ 31 := by omega
            rw [full, show int32 (2 ^ 31) = -2147483648 from by decide, uint64]
            omega
          · omega
      rw [if_neg stop, done, Nat.sub_self]
      simp

theorem copy_ok (small : size ≤ 2 ^ 63) (enough : 2 ^ 31 < fuel) :
    copy getc size fuel 0 [] = .ok ((List.range (min size (2 ^ 31))).map getc) := by
  have run : copy getc size fuel (int32 ([] : List UInt8).length) [] = _ :=
    copy_rest small (Nat.zero_le _) (by simp; omega)
  simpa [int32] using run

end

end BottlerOS.Bmfs
