import BottlerOS.Library.Extents
import BottlerOS.Library.Qsort
import BottlerOS.BmfsRecords

/-! Where `create` of `bmfs.c` puts a file: the records it counts, the order `qsort` gives them, and
the gap it finds between the files. The end of a deleted record is tried as well, behind them. -/

namespace BottlerOS.Bmfs
open Machine Words Extents Qsort

def BMFSEntry.extent (e : BMFSEntry) : Extent := ⟨e.StartingBlock, e.ReservedBlocks⟩

def live (e : BMFSEntry) : Bool := decide (e.mark ≠ 0x01)

theorem files_eq_filter (rs : List BMFSEntry) : files rs = (used rs).filter live := rfl

def deleted (rs : List BMFSEntry) : List BMFSEntry := (used rs).filter fun e => !live e

theorem uint64_of_range {x : Int} (lo : 0 ≤ x) (hi : x < 2 ^ 64) : uint64 x = x.toNat := by
  rw [uint64, Int.emod_eq_of_lt lo hi]

section
variable {dir : Bytes} {n tint s : Nat} {first : Option Nat}

theorem window_eq_map : window dir n tint = (List.range n).map fun j => entryAt dir (tint + j) := by
  induction n generalizing tint with
  | zero => rfl
  | succ n ih =>
    rw [window, ih, List.range_succ_eq_map, List.map_cons, List.map_map, Nat.add_zero]
    congr 1
    exact List.map_congr_left fun j _ => by simp only [Function.comp]; congr 1; omega

/-- The count does not depend on the free record found before. -/
theorem countFrom_fst (first : Option Nat) :
    (countFrom dir n tint first).1 = (countFrom dir n tint none).1 := by
  induction n generalizing tint first with
  | zero => rfl
  | succ n ih =>
    rw [countFrom, countFrom]
    split
    · rfl
    · split
      · rw [ih, ih (none.or _)]
      · exact ih first

theorem countFrom_some : (countFrom dir n tint (some s)).2 = some s := by
  induction n generalizing tint with
  | zero => rfl
  | succ n ih =>
    rw [countFrom]
    split
    · rfl
    · split
      · exact ih
      · exact ih

/-- The records in use are counted up to the end mark; without one, none is. -/
theorem countFrom_used (dir : Bytes) (n tint : Nat) (first : Option Nat) :
    (∃ k, k < n ∧ (entryAt dir (tint + k)).mark = 0x00 ∧
      (∀ x ∈ window dir k tint, x.mark ≠ 0x00) ∧ (countFrom dir n tint first).1 = tint + k) ∨
    (∀ x ∈ window dir n tint, x.mark ≠ 0x00) ∧ (countFrom dir n tint first).1 = 0 := by
  rw [countFrom_fst]
  induction n generalizing tint with
  | zero => exact .inr ⟨by simp [window], rfl⟩
  | succ n ih =>
    by_cases ended : (entryAt dir tint).mark = 0x00
    · refine .inl ⟨0, by omega, ended, by simp [window], ?_⟩
      rw [countFrom]
      simp [ended]
    · have next : (countFrom dir (n + 1) tint none).1 = (countFrom dir n (tint + 1) none).1 := by
        rw [countFrom]
        rw [if_neg ended]
        split
        · exact countFrom_fst _
        · rfl
      rw [next]
      rcases @ih (tint + 1) with ⟨k, hk, here, before, count⟩ | ⟨all, count⟩
      · refine .inl ⟨k + 1, by omega, ?_, ?_, by omega⟩
        · rwa [show tint + (k + 1) = tint + 1 + k by omega]
        · rw [window]
          simpa using ⟨ended, before⟩
      · refine .inr ⟨?_, count⟩
        rw [window]
        simpa using ⟨ended, all⟩

/-- The free record is the first that holds no file. -/
theorem countFrom_free (dir : Bytes) (n tint : Nat) :
    (∃ s, (countFrom dir n tint none).2 = some s ∧ tint ≤ s ∧ s < tint + n ∧
      (∀ x ∈ window dir (s - tint) tint, x.mark ≠ 0x00 ∧ x.mark ≠ 0x01) ∧
      ((entryAt dir s).mark = 0x01 ∨
        (entryAt dir s).mark = 0x00 ∧ (countFrom dir n tint none).1 = s)) ∨
    (countFrom dir n tint none).2 = none ∧
      ∀ x ∈ window dir n tint, x.mark ≠ 0x00 ∧ x.mark ≠ 0x01 := by
  induction n generalizing tint with
  | zero => exact .inr ⟨rfl, by simp [window]⟩
  | succ n ih =>
    rw [countFrom]
    by_cases ended : (entryAt dir tint).mark = 0x00
    · rw [if_pos ended]
      exact .inl ⟨tint, rfl, by omega, by omega, by simp [window], .inr ⟨ended, rfl⟩⟩
    rw [if_neg ended]
    by_cases deleted : (entryAt dir tint).mark = 0x01
    · rw [if_pos deleted]
      exact .inl ⟨tint, countFrom_some, by omega, by omega, by simp [window], .inl deleted⟩
    rw [if_neg deleted]
    rcases @ih (tint + 1) with ⟨s, free, lo, hi, before, here⟩ | ⟨free, all⟩
    · refine .inl ⟨s, free, by omega, by omega, ?_, here⟩
      rw [show s - tint = (s - (tint + 1)) + 1 by omega, window]
      simpa using ⟨⟨ended, deleted⟩, before⟩
    · refine .inr ⟨free, ?_⟩
      rw [window]
      simpa using ⟨⟨ended, deleted⟩, all⟩

end

/-! The order of the records. -/

section
variable {qsort : (BMFSEntry → BMFSEntry → Int) → List BMFSEntry → List BMFSEntry}
  {l : List BMFSEntry} {a b : BMFSEntry}

theorem before_deleted (la : live a = true) (db : live b = false) :
    Before StartingBlockCmp a b := by
  simp only [live, decide_eq_true_eq, decide_eq_false_iff_not, not_not] at la db
  constructor
  · rw [StartingBlockCmp, if_neg la, if_pos db]
    decide
  · rw [StartingBlockCmp, if_pos db]
    decide

theorem not_before_of_deleted (da : live a = false) : ¬ Before StartingBlockCmp a b := by
  simp only [live, decide_eq_false_iff_not, not_not] at da
  rintro ⟨less, -⟩
  rw [StartingBlockCmp, if_pos da] at less
  omega

theorem before_live (la : live a = true) (lb : live b = true) (ha : a.StartingBlock < 2 ^ 31)
    (hb : b.StartingBlock < 2 ^ 31) :
    Before StartingBlockCmp a b ↔ a.StartingBlock < b.StartingBlock := by
  simp only [live, decide_eq_true_eq] at la lb
  rw [Before, StartingBlockCmp, StartingBlockCmp, if_neg la, if_neg lb, if_neg lb, if_neg la,
    int32_of_range (by omega) (by unfold INT_MAX; omega),
    int32_of_range (by omega) (by unfold INT_MAX; omega)]
  omega

theorem orders (small : ∀ e ∈ l, e.StartingBlock < 2 ^ 31) : Orders StartingBlockCmp l := by
  intro a ha b hb c hc before
  cases la : live a with
  | false => exact absurd before (not_before_of_deleted la)
  | true =>
    cases lb : live b with
    | false => exact .inl (before_deleted la lb)
    | true =>
      cases lc : live c with
      | false => exact .inr (before_deleted lb lc)
      | true =>
        rw [before_live la lb (small a ha) (small b hb),
          before_live lb lc (small b hb) (small c hc)]
        rw [before_live la lc (small a ha) (small c hc)] at before
        omega

/-- Behind a deleted record there are only deleted ones. -/
theorem ordered_split (order : l.Pairwise fun a b => ¬ Before StartingBlockCmp b a) :
    l = l.filter live ++ l.filter fun e => !live e := by
  induction l with
  | nil => rfl
  | cons a l ih =>
    obtain ⟨first, rest⟩ := List.pairwise_cons.mp order
    cases la : live a with
    | true =>
      rw [List.filter_cons_of_pos la, List.filter_cons_of_neg (by simp [la]), List.cons_append,
        ← ih rest]
    | false =>
      have none : l.filter live = [] := by
        rw [List.filter_eq_nil_iff]
        intro b hb lb
        exact first b hb (before_deleted lb la)
      rw [List.filter_cons_of_neg (by simp [la]), List.filter_cons_of_pos (by simp [la]), none,
        List.nil_append]
      congr 1
      simpa [none] using ih rest

/-- The sorted records: the files by their place, and behind them what is deleted. -/
theorem sorted_split (sorts : Sorts qsort) (small : ∀ e ∈ l, e.StartingBlock < 2 ^ 31) :
    ∃ ls ds, qsort StartingBlockCmp l = ls ++ ds ∧ ls.Perm (l.filter live) ∧
      ds.Perm (l.filter fun e => !live e) ∧
      ls.Pairwise fun a b => a.StartingBlock ≤ b.StartingBlock := by
  have perm := sorts.perm StartingBlockCmp l (orders small)
  have order := sorts.order StartingBlockCmp l (orders small)
  refine ⟨_, _, ordered_split order, perm.filter _, perm.filter _, ?_⟩
  refine (order.filter _).imp_of_mem fun {a b} ha hb before => ?_
  obtain ⟨ha, la⟩ := List.mem_filter.mp ha
  obtain ⟨hb, lb⟩ := List.mem_filter.mp hb
  rw [before_live lb la (small b (perm.mem_iff.mp hb)) (small a (perm.mem_iff.mp ha))] at before
  omega

end

/-! The search. -/

section
variable {num_blocks blocks_requested prev p : Nat} {ls ds : List BMFSEntry}

/-- Whether a file of that size ends in front of the last block. -/
def Room (num_blocks blocks_requested start : Nat) : Prop :=
  start + blocks_requested ≤ num_blocks - 1

instance : Decidable (Room num_blocks blocks_requested p) := inferInstanceAs (Decidable (_ ≤ _))

theorem gap_iff {this_file_start prev_file_end : Nat} (le : prev_file_end ≤ this_file_start)
    (small : this_file_start < 2 ^ 64) :
    uint64 (this_file_start - prev_file_end : Int) ≥ blocks_requested ↔
      prev_file_end + blocks_requested ≤ this_file_start := by
  rw [uint64_of_range (by omega) (by omega)]
  omega

theorem lastBlock (two : 2 ≤ num_blocks) (small : num_blocks < 2 ^ 31) :
    uint64 (num_blocks - 1 : Int) = num_blocks - 1 := by
  rw [uint64_of_range (by omega) (by omega)]
  omega

/-- One turn for a file. -/
theorem searchGap_live {e : BMFSEntry} {rest : List BMFSEntry} (le : prev ≤ e.StartingBlock)
    (lv : live e = true) (stop : e.extent.stop < 2 ^ 31) :
    searchGap num_blocks blocks_requested prev (e :: rest) =
      if prev + blocks_requested ≤ e.StartingBlock then prev
      else searchGap num_blocks blocks_requested e.extent.stop rest := by
  simp only [live, decide_eq_true_eq] at lv
  have below : e.StartingBlock + e.ReservedBlocks < 2 ^ 31 := stop
  have stop' : uint64 ((e.StartingBlock : Int) + e.ReservedBlocks) = e.extent.stop := by
    rw [uint64_of_range (by omega) (by omega)]
    exact Int.toNat_natCast (e.StartingBlock + e.ReservedBlocks)
  rw [searchGap, if_neg lv, stop']
  simp only [gap_iff le (show e.StartingBlock < 2 ^ 64 by omega)]

/-- One turn for a deleted record. -/
theorem searchGap_deleted {e : BMFSEntry} {rest : List BMFSEntry} (two : 2 ≤ num_blocks)
    (blocks : num_blocks < 2 ^ 31) (le : prev ≤ num_blocks - 1) (gone : live e = false)
    (stop : e.extent.stop < 2 ^ 31) :
    searchGap num_blocks blocks_requested prev (e :: rest) =
      if Room num_blocks blocks_requested prev then prev
      else searchGap num_blocks blocks_requested e.extent.stop rest := by
  simp only [live, decide_eq_false_iff_not, not_not] at gone
  have below : e.StartingBlock + e.ReservedBlocks < 2 ^ 31 := stop
  have stop' : uint64 ((e.StartingBlock : Int) + e.ReservedBlocks) = e.extent.stop := by
    rw [uint64_of_range (by omega) (by omega)]
    exact Int.toNat_natCast (e.StartingBlock + e.ReservedBlocks)
  rw [searchGap, if_pos gone, stop', lastBlock two blocks]
  simp only [gap_iff le (show num_blocks - 1 < 2 ^ 64 by omega)]
  rfl

theorem searchGap_nil (two : 2 ≤ num_blocks) (blocks : num_blocks < 2 ^ 31)
    (le : prev ≤ num_blocks - 1) : searchGap num_blocks blocks_requested prev [] =
      if Room num_blocks blocks_requested prev then prev else 0 := by
  rw [searchGap, lastBlock two blocks]
  simp only [gap_iff le (show num_blocks - 1 < 2 ^ 64 by omega)]
  rfl

/-- The deleted records leave no trace of their files, but their ends are inside the disk. -/
def Gone (num_blocks : Nat) (ds : List BMFSEntry) : Prop :=
  ∀ d ∈ ds, live d = false ∧ d.extent.stop ≤ num_blocks - 1

theorem searchGap_room (two : 2 ≤ num_blocks) (blocks : num_blocks < 2 ^ 31)
    (le : prev ≤ num_blocks - 1) (gone : Gone num_blocks ds)
    (room : Room num_blocks blocks_requested prev) :
    searchGap num_blocks blocks_requested prev ds = prev := by
  cases ds with
  | nil => rw [searchGap_nil two blocks le, if_pos room]
  | cons d ds =>
    obtain ⟨dead, stop⟩ := gone d (by simp)
    rw [searchGap_deleted two blocks le dead (by omega), if_pos room]

/-- Behind the files the ends of the deleted records are tried. -/
theorem searchGap_gone (two : 2 ≤ num_blocks) (blocks : num_blocks < 2 ^ 31)
    (le : prev ≤ num_blocks - 1) (gone : Gone num_blocks ds)
    (full : ¬ Room num_blocks blocks_requested prev) :
    (∃ d ∈ ds, Room num_blocks blocks_requested d.extent.stop ∧
      searchGap num_blocks blocks_requested prev ds = d.extent.stop) ∨
    (∀ d ∈ ds, ¬ Room num_blocks blocks_requested d.extent.stop) ∧
      searchGap num_blocks blocks_requested prev ds = 0 := by
  induction ds generalizing prev with
  | nil => exact .inr ⟨by simp, by rw [searchGap_nil two blocks le, if_neg full]⟩
  | cons d ds ih =>
    obtain ⟨dead, stop⟩ := gone d (by simp)
    have gone' : Gone num_blocks ds := fun x hx => gone x (by simp [hx])
    rw [searchGap_deleted two blocks le dead (by omega), if_neg full]
    by_cases room : Room num_blocks blocks_requested d.extent.stop
    · exact .inl ⟨d, by simp, room, searchGap_room two blocks stop gone' room⟩
    · rcases ih stop gone' room with ⟨x, hx, fits, search⟩ | ⟨none, search⟩
      · exact .inl ⟨x, by simp [hx], fits, search⟩
      · refine .inr ⟨fun x hx => ?_, search⟩
        rcases List.mem_cons.mp hx with rfl | hx
        · exact room
        · exact none x hx

/-- The turns for the files find the first gap between them; without one, the search goes on
behind the last of them. -/
theorem searchGap_files (two : 2 ≤ num_blocks) (blocks : num_blocks < 2 ^ 31)
    (chain : Chain (num_blocks - 1) prev (ls.map BMFSEntry.extent))
    (lv : ∀ e ∈ ls, live e = true) (gone : Gone num_blocks ds) :
    searchGap num_blocks blocks_requested prev (ls ++ ds) =
      match firstGap (num_blocks - 1) blocks_requested prev (ls.map BMFSEntry.extent) with
      | some p => p
      | none => searchGap num_blocks blocks_requested (last prev (ls.map BMFSEntry.extent)) ds := by
  induction ls generalizing prev with
  | nil =>
    rw [List.nil_append, List.map_nil, firstGap]
    split <;> rename_i found
    · split at found <;> rename_i room
      · obtain rfl := Option.some.inj found
        exact searchGap_room two blocks chain gone room
      · cases found
    · rfl
  | cons e ls ih =>
    rw [List.map_cons] at chain
    have stop : e.extent.stop < 2 ^ 31 := by
      have := chain.2.le
      omega
    rw [List.cons_append, searchGap_live chain.1 (lv e (by simp)) stop, List.map_cons, firstGap,
      last_cons]
    by_cases room : prev + blocks_requested ≤ e.StartingBlock
    · rw [if_pos room, if_pos (show prev + blocks_requested ≤ e.extent.start from room)]
    · rw [if_neg room, if_neg (show ¬ prev + blocks_requested ≤ e.extent.start from room),
        ih chain.2 fun x hx => lv x (by simp [hx])]

/-- What the search finds: the leftmost gap; without a gap, the end of a deleted record in front
of which a file of that size would end in the disk; without either, nothing. -/
theorem searchGap_cases (blocks_requested : Nat) (two : 2 ≤ num_blocks)
    (blocks : num_blocks < 2 ^ 31)
    (chain : Chain (num_blocks - 1) prev (ls.map BMFSEntry.extent))
    (lv : ∀ e ∈ ls, live e = true) (gone : Gone num_blocks ds) :
    (∃ p, searchGap num_blocks blocks_requested prev (ls ++ ds) = p ∧
      Fits prev (num_blocks - 1) (ls.map BMFSEntry.extent) blocks_requested p ∧
      ∀ q, Fits prev (num_blocks - 1) (ls.map BMFSEntry.extent) blocks_requested q → p ≤ q) ∨
    (∀ q, ¬ Fits prev (num_blocks - 1) (ls.map BMFSEntry.extent) blocks_requested q) ∧
      ((∃ d ∈ ds, Room num_blocks blocks_requested d.extent.stop ∧
        searchGap num_blocks blocks_requested prev (ls ++ ds) = d.extent.stop) ∨
      (∀ d ∈ ds, ¬ Room num_blocks blocks_requested d.extent.stop) ∧
        searchGap num_blocks blocks_requested prev (ls ++ ds) = 0) := by
  rw [searchGap_files two blocks chain lv gone]
  cases found : firstGap (num_blocks - 1) blocks_requested prev (ls.map BMFSEntry.extent) with
  | some p =>
    obtain ⟨fits, least⟩ := firstGap_least chain found
    exact .inl ⟨p, rfl, fits, least⟩
  | none =>
    refine .inr ⟨fun q => firstGap_none chain found, ?_⟩
    exact searchGap_gone two blocks chain.last_le gone (firstGap_last found)

end

end BottlerOS.Bmfs
