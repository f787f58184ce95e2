import BottlerOS.Bmfs
import Mathlib.Data.List.TakeWhile

/-! The directory of `bmfs.c` as the list of its records: what the loops over it find, and what a
change at one record leaves of it. -/

namespace BottlerOS.Bmfs
open Machine Words

/-- The records at `tint`, ..., `tint + n - 1`. -/
def window (dir : Bytes) : (n tint : Nat) → List BMFSEntry
  | 0, _ => []
  | n + 1, tint => entryAt dir tint :: window dir n (tint + 1)

def records (dir : Bytes) : List BMFSEntry := window dir 64 0

/-- The records up to the end mark. -/
def used (rs : List BMFSEntry) : List BMFSEntry := rs.takeWhile fun e => decide (e.mark ≠ 0x00)

/-- The records of files. -/
def files (rs : List BMFSEntry) : List BMFSEntry :=
  (used rs).filter fun e => decide (e.mark ≠ 0x01)

/-- The record of the file of that name. -/
def lookup (rs : List BMFSEntry) (filename : CString) : Option BMFSEntry :=
  (files rs).find? fun e => decide (e.name = filename.1)

section
variable {dir dir' : Bytes} {n m tint slot : Nat} {rs pre post : List BMFSEntry} {e x y : BMFSEntry}

@[simp] theorem used_nil : used [] = [] := rfl

@[simp] theorem files_nil : files [] = [] := rfl

theorem used_end (ended : e.mark = 0x00) : used (e :: rs) = [] := by simp [used, ended]

theorem used_cons (more : e.mark ≠ 0x00) : used (e :: rs) = e :: used rs := by simp [used, more]

theorem files_end (ended : e.mark = 0x00) : files (e :: rs) = [] := by
  rw [files, used_end ended, List.filter_nil]

theorem files_deleted (deleted : e.mark = 0x01) : files (e :: rs) = files rs := by
  rw [files, used_cons (by rw [deleted]; decide), List.filter_cons_of_neg (by simp [deleted])]
  rfl

theorem files_cons (more : e.mark ≠ 0x00) (live : e.mark ≠ 0x01) :
    files (e :: rs) = e :: files rs := by
  rw [files, used_cons more, List.filter_cons_of_pos (by simpa using live)]
  rfl

theorem mem_used (mem : e ∈ used rs) : e ∈ rs ∧ e.mark ≠ 0x00 :=
  ⟨List.takeWhile_sublist _ |>.subset mem, by simpa using List.mem_takeWhile_imp mem⟩

theorem mem_files : e ∈ files rs ↔ e ∈ used rs ∧ e.mark ≠ 0x01 := by simp [files]

theorem used_append (more : ∀ x ∈ pre, x.mark ≠ 0x00) : used (pre ++ rs) = pre ++ used rs := by
  induction pre with
  | nil => rfl
  | cons x pre ih =>
    rw [List.cons_append, used_cons (more x (by simp)), ih fun y hy => more y (by simp [hy])]
    rfl

theorem files_append (more : ∀ x ∈ pre, x.mark ≠ 0x00) :
    files (pre ++ rs) = files pre ++ files rs := by
  have all : used pre = pre := List.takeWhile_eq_self_iff.mpr (by simpa using more)
  rw [files, files, files, used_append more, List.filter_append, all]

@[simp] theorem length_window : (window dir n tint).length = n := by
  induction n generalizing tint with
  | zero => rfl
  | succ n ih => rw [window, List.length_cons, ih]

theorem window_append : window dir (n + m) tint = window dir n tint ++ window dir m (tint + n) := by
  induction n generalizing tint with
  | zero => simp [window]
  | succ n ih =>
    rw [show n + 1 + m = (n + m) + 1 by omega, window, window, ih, List.cons_append,
      Nat.add_right_comm, Nat.add_assoc]

theorem entryAt_congr (same : ∀ j, j < 56 → dir' (64 * tint + j) = dir (64 * tint + j)) :
    entryAt dir' tint = entryAt dir tint := by
  have name : ((List.range 32).map fun j => dir' (64 * tint + j)) =
      (List.range 32).map fun j => dir (64 * tint + j) :=
    List.map_congr_left fun j hj => same j (by have := List.mem_range.mp hj; omega)
  have word (k : Nat) (hk : k + 8 ≤ 56) :
      load64 dir' (64 * tint + k) = load64 dir (64 * tint + k) := by
    refine load64_congr fun a lo hi => ?_
    have := same (a - 64 * tint) (by omega)
    rwa [Nat.add_sub_of_le (by omega)] at this
  rw [entryAt, name, word 32 (by omega), word 40 (by omega), word 48 (by omega), ← entryAt]

theorem window_congr (same : ∀ j, 64 * tint ≤ j → j < 64 * (tint + n) → dir' j = dir j) :
    window dir' n tint = window dir n tint := by
  induction n generalizing tint with
  | zero => rfl
  | succ n ih =>
    rw [window, window, ih fun j lo hi => same j (by omega) (by omega),
      entryAt_congr fun j hj => same _ (by omega) (by omega)]

theorem records_congr (same : ∀ j, j < 4096 → dir' j = dir j) : records dir' = records dir :=
  window_congr fun j _ hi => same j (by omega)

/-- The directory around one record. -/
theorem records_split (dir : Bytes) (below : slot < 64) : records dir =
    window dir slot 0 ++ entryAt dir slot :: window dir (63 - slot) (slot + 1) := by
  have parts : 64 = slot + ((63 - slot) + 1) := by omega
  rw [records]
  conv => lhs; rw [parts]
  rw [window_append, window, Nat.zero_add]

/-- Where only one record has changed. -/
theorem records_change (below : slot < 64)
    (same : ∀ j, j < 64 * slot ∨ 64 * slot + 64 ≤ j → dir' j = dir j) : records dir' =
    window dir slot 0 ++ entryAt dir' slot :: window dir (63 - slot) (slot + 1) := by
  rw [records_split dir' below, window_congr fun j _ hi => same j (by omega),
    window_congr fun j lo _ => same j (by omega)]

theorem mark_entryAt (dir : Bytes) (tint : Nat) : (entryAt dir tint).mark = dir (64 * tint) := rfl

theorem load64_setByte {a b : Nat} {v : UInt8} (out : a < b ∨ b + 8 ≤ a) :
    load64 (setByte a v dir) b = load64 dir b :=
  load64_congr fun x lo hi => Function.update_of_ne (by omega) _ _

/-- A record whose first byte is overwritten. -/
theorem entryAt_setByte (v : UInt8) : entryAt (setByte (64 * slot) v dir) slot =
    { entryAt dir slot with FileName := v :: (entryAt dir slot).FileName.tail } := by
  have name : ((List.range 32).map fun j => setByte (64 * slot) v dir (64 * slot + j)) =
      v :: (entryAt dir slot).FileName.tail := by
    rw [entryAt, List.range_succ_eq_map, List.map_cons, List.map_cons, List.tail_cons,
      List.map_map, List.map_map]
    congr 1
    · exact Function.update_self ..
    · exact List.map_congr_left fun j _ => Function.update_of_ne (by simp) _ _
  rw [entryAt, name, load64_setByte (by omega), load64_setByte (by omega),
    load64_setByte (by omega)]
  rfl

/-- A record whose size is set. -/
theorem entryAt_size (w : Nat) : entryAt (store64 (64 * slot + 48) w dir) slot =
    { entryAt dir slot with FileSize := w % 2 ^ 64 } := by
  have name : ((List.range 32).map fun j => store64 (64 * slot + 48) w dir (64 * slot + j)) =
      (entryAt dir slot).FileName :=
    List.map_congr_left fun j hj => store64_of_outside (by have := List.mem_range.mp hj; omega)
  rw [entryAt, name, load64_store64_apart (by omega), load64_store64_apart (by omega),
    load64_store64]
  rfl

end

/-! `strcmp`, and the loop of `findfile`. -/

theorem strcmp_terminated {s t : List UInt8} (inside : (0 : UInt8) ∉ s) (ended : (0 : UInt8) ∈ t) :
    strcmp s t = .ok (decide (t.takeWhile (· ≠ 0) = s)) := by
  induction t generalizing s with
  | nil => cases ended
  | cons b t ih =>
    cases s with
    | nil =>
      by_cases zero : b = 0 <;> simp [strcmp, zero]
    | cons c s =>
      obtain ⟨first, inside⟩ := not_or.mp (mt List.mem_cons.mpr inside)
      by_cases same : c = b
      · subst same
        have ended : (0 : UInt8) ∈ t := (List.mem_cons.mp ended).resolve_left first
        rw [strcmp, if_pos rfl, ih inside ended, List.takeWhile_cons_of_pos (by simpa using Ne.symm first)]
        simp
      · rw [strcmp, if_neg same]
        by_cases zero : b = 0
        · simp [zero]
        · rw [List.takeWhile_cons_of_pos (by simpa using zero)]
          simp [Ne.symm same]

theorem strcmp_name {filename : CString} {e : BMFSEntry} (ended : (0 : UInt8) ∈ e.FileName) :
    strcmp filename.1 e.FileName = .ok (decide (e.name = filename.1)) :=
  strcmp_terminated filename.2 ended

/-- Every name in the directory ends. -/
def Terminated (rs : List BMFSEntry) : Prop := ∀ e ∈ files rs, (0 : UInt8) ∈ e.FileName

section
variable {dir : Bytes} {n tint : Nat} {filename : CString}

/-- What the loop finds, and what is in front of it. -/
structure FoundFrom (filename : CString) (dir : Bytes) (tint slot : Nat) (e : BMFSEntry) :
    Prop where
  from_ : tint ≤ slot
  here : e = entryAt dir slot
  used : e.mark ≠ 0x00
  live : e.mark ≠ 0x01
  named : e.name = filename.1
  before : ∀ x ∈ window dir (slot - tint) tint, x.mark ≠ 0x00

theorem FoundFrom.later {e : BMFSEntry} {slot : Nat}
    (found : FoundFrom filename dir (tint + 1) slot e) (more : (entryAt dir tint).mark ≠ 0x00) :
    FoundFrom filename dir tint slot e := by
  have from_ := found.from_
  refine ⟨by omega, found.here, found.used, found.live, found.named, fun x hx => ?_⟩
  rw [show slot - tint = (slot - (tint + 1)) + 1 by omega, window] at hx
  rcases List.mem_cons.mp hx with rfl | hx
  · exact more
  · exact found.before x hx

/-- The loop finds the first record of that name, if there is a file of that name. -/
theorem findfileFrom_cases (filename : CString) (terminated : Terminated (window dir n tint)) :
    (findfileFrom filename dir n tint = .ok none ∧
      ∀ e ∈ files (window dir n tint), e.name ≠ filename.1) ∨
    ∃ e slot, findfileFrom filename dir n tint = .ok (some (e, slot)) ∧ slot < tint + n ∧
      FoundFrom filename dir tint slot e := by
  induction n generalizing tint with
  | zero => exact .inl ⟨rfl, by simp [window]⟩
  | succ n ih =>
    rw [findfileFrom]
    rw [window] at terminated ⊢
    by_cases ended : (entryAt dir tint).mark = 0x00
    · exact .inl ⟨by simp [ended], by simp [files_end ended]⟩
    by_cases deleted : (entryAt dir tint).mark = 0x01
    · rw [if_neg ended, if_pos deleted, files_deleted deleted]
      rcases ih fun x hx => terminated x (by rwa [files_deleted deleted]) with
        free | ⟨e, slot, run, below, found⟩
      · exact .inl free
      · exact .inr ⟨e, slot, run, by omega, found.later ended⟩
    rw [Terminated, files_cons ended deleted] at terminated
    have rest : Terminated (window dir n (tint + 1)) := fun x hx =>
      terminated x (List.mem_cons_of_mem _ hx)
    rw [if_neg ended, if_neg deleted, files_cons ended deleted,
      strcmp_name (terminated _ (by simp)), ok_bind]
    by_cases named : (entryAt dir tint).name = filename.1
    · rw [if_pos (decide_eq_true named)]
      refine .inr ⟨_, tint, rfl, by omega, Nat.le_refl _, rfl, ended, deleted, named, fun x hx => ?_⟩
      rw [Nat.sub_self, window] at hx
      cases hx
    · rw [if_neg (by simp [named])]
      rcases ih rest with ⟨run, free⟩ | ⟨e, slot, run, below, found⟩
      · refine .inl ⟨run, fun x hx => ?_⟩
        rcases List.mem_cons.mp hx with rfl | hx
        · exact named
        · exact free x hx
      · exact .inr ⟨e, slot, run, by omega, found.later ended⟩

/-- The directory around the record that `findfile` finds. -/
structure Found (filename : CString) (dir : Bytes) (e : BMFSEntry) (slot : Nat) : Prop where
  below : slot < 64
  here : e = entryAt dir slot
  used : e.mark ≠ 0x00
  live : e.mark ≠ 0x01
  named : e.name = filename.1
  before : ∀ x ∈ window dir slot 0, x.mark ≠ 0x00

/-- `findfile` finds the file of that name, if there is one. -/
theorem findfile_cases (terminated : Terminated (records dir)) (filename : CString) :
    (findfile filename dir = .ok none ∧ ∀ e ∈ files (records dir), e.name ≠ filename.1) ∨
      ∃ e slot, findfile filename dir = .ok (some (e, slot)) ∧ Found filename dir e slot := by
  rcases findfileFrom_cases filename terminated with
    free | ⟨e, slot, run, below, found⟩
  · exact .inl free
  · exact .inr ⟨e, slot, run, by omega, found.here, found.used, found.live, found.named,
      found.before⟩

/-- The files, with the one found among them. -/
theorem Found.files {e : BMFSEntry} {slot : Nat} (found : Found filename dir e slot) :
    files (records dir) = Bmfs.files (window dir slot 0) ++
      e :: Bmfs.files (window dir (63 - slot) (slot + 1)) := by
  rw [records_split dir found.below, files_append found.before, ← found.here,
    files_cons found.used found.live]

end

end BottlerOS.Bmfs
