import Mathlib.Data.List.Pairwise
import Mathlib.Data.Nat.Basic

/-! Extents of blocks, and the leftmost gap between extents that do not meet. -/

namespace BottlerOS.Extents

/-- The blocks from `start` on. -/
structure Extent where
  start : Nat
  length : Nat
  deriving DecidableEq

def Extent.stop (e : Extent) : Nat := e.start + e.length

def Apart (a b : Extent) : Prop := a.stop ≤ b.start ∨ b.stop ≤ a.start

/-- There is room for `n` blocks at `p` in front of `hi`, clear of the extents. -/
structure Fits (lo hi : Nat) (es : List Extent) (n p : Nat) : Prop where
  low : lo ≤ p
  high : p + n ≤ hi
  free : ∀ e ∈ es, Apart ⟨p, n⟩ e

/-- The extents follow each other from `lo` up to `hi`. -/
def Chain (hi : Nat) : (lo : Nat) → List Extent → Prop
  | lo, [] => lo ≤ hi
  | lo, e :: rest => lo ≤ e.start ∧ Chain hi e.stop rest

/-- The first gap of `n` blocks, from `lo` on. -/
def firstGap (hi n : Nat) : (lo : Nat) → List Extent → Option Nat
  | lo, [] => if lo + n ≤ hi then some lo else none
  | lo, e :: rest => if lo + n ≤ e.start then some lo else firstGap hi n e.stop rest

/-- Where the extents end. -/
def last (lo : Nat) (es : List Extent) : Nat := (es.getLast?.map Extent.stop).getD lo

section
variable {lo hi n p q : Nat} {e : Extent} {es rest : List Extent}

theorem Extent.start_le (e : Extent) : e.start ≤ e.stop := Nat.le_add_right ..

theorem Apart.symm {a b : Extent} (apart : Apart a b) : Apart b a := Or.symm apart

theorem last_cons : last lo (e :: rest) = last e.stop rest := by
  cases rest with
  | nil => rfl
  | cons x rest =>
    rw [last, last, List.getLast?_cons_cons, List.getLast?_cons]
    rfl

theorem Chain.le (chain : Chain hi lo es) : lo ≤ hi := by
  induction es generalizing lo with
  | nil => exact chain
  | cons e es ih =>
    exact Nat.le_trans chain.1 (Nat.le_trans e.start_le (ih chain.2))

/-- All of them lie behind `lo`. -/
theorem Chain.low (chain : Chain hi lo es) : ∀ x ∈ es, lo ≤ x.start := by
  induction es generalizing lo with
  | nil => simp
  | cons e es ih =>
    intro x hx
    rcases List.mem_cons.mp hx with rfl | hx
    · exact chain.1
    · exact Nat.le_trans chain.1 (Nat.le_trans e.start_le (ih chain.2 x hx))

theorem Chain.last_le (chain : Chain hi lo es) : last lo es ≤ hi := by
  induction es generalizing lo with
  | nil => exact chain
  | cons e es ih =>
    rw [last_cons]
    exact ih chain.2

/-- What is in ascending order and apart is a chain. -/
theorem chain_of_sorted (sorted : es.Pairwise fun a b => a.start ≤ b.start)
    (apart : es.Pairwise Apart) (inside : ∀ e ∈ es, lo ≤ e.start ∧ e.stop ≤ hi)
    (some : ∀ e ∈ es, 0 < e.length) (le : lo ≤ hi) : Chain hi lo es := by
  induction es generalizing lo with
  | nil => exact le
  | cons e es ih =>
    obtain ⟨first, sorted⟩ := List.pairwise_cons.mp sorted
    obtain ⟨clear, apart⟩ := List.pairwise_cons.mp apart
    obtain ⟨low, high⟩ := inside e (by simp)
    refine ⟨low, ih sorted apart (fun x hx => ⟨?_, (inside x (by simp [hx])).2⟩)
      (fun x hx => some x (by simp [hx])) high⟩
    have above := first x hx
    have long := some e (by simp)
    have long' := some x (by simp [hx])
    rcases clear x hx with before | behind
    · exact before
    · unfold Extent.stop at behind
      omega

/-- The gap found is one, and none lies further left. -/
theorem firstGap_least (chain : Chain hi lo es) (found : firstGap hi n lo es = some p) :
    Fits lo hi es n p ∧ ∀ q, Fits lo hi es n q → p ≤ q := by
  induction es generalizing lo with
  | nil =>
    rw [firstGap] at found
    split at found <;> rename_i room
    · obtain rfl := Option.some.inj found
      exact ⟨⟨Nat.le_refl _, room, by simp⟩, fun q fits => fits.low⟩
    · cases found
  | cons e es ih =>
    rw [firstGap] at found
    split at found <;> rename_i room
    · obtain rfl := Option.some.inj found
      refine ⟨⟨Nat.le_refl _, ?_, fun x hx => .inl ?_⟩, fun q fits => fits.low⟩
      · exact Nat.le_trans room (Nat.le_trans e.start_le chain.2.le)
      · change lo + n ≤ x.start
        rcases List.mem_cons.mp hx with rfl | hx
        · exact room
        · exact Nat.le_trans room (Nat.le_trans e.start_le (chain.2.low x hx))
    · obtain ⟨fits, least⟩ := ih chain.2 found
      have low := Nat.le_trans (Nat.le_trans chain.1 e.start_le) fits.low
      refine ⟨⟨low, fits.high, fun x hx => ?_⟩, fun q fits' => ?_⟩
      · rcases List.mem_cons.mp hx with rfl | hx
        · exact .inr fits.low
        · exact fits.free x hx
      · have low := fits'.low
        refine least q ⟨?_, fits'.high, fun x hx => fits'.free x (by simp [hx])⟩
        rcases fits'.free e (by simp) with before | behind
        · change q + n ≤ e.start at before
          omega
        · exact behind

/-- Where none is found there is none. -/
theorem firstGap_none (chain : Chain hi lo es) (none : firstGap hi n lo es = none) :
    ¬ Fits lo hi es n q := by
  induction es generalizing lo with
  | nil =>
    rw [firstGap] at none
    split at none <;> rename_i room
    · cases none
    · intro fits
      have := fits.low
      have := fits.high
      omega
  | cons e es ih =>
    rw [firstGap] at none
    split at none <;> rename_i room
    · cases none
    · intro fits
      have low := fits.low
      refine ih chain.2 none ⟨?_, fits.high, fun x hx => fits.free x (by simp [hx])⟩
      rcases fits.free e (by simp) with before | behind
      · change q + n ≤ e.start at before
        omega
      · exact behind

theorem firstGap_last (none : firstGap hi n lo es = none) : ¬ last lo es + n ≤ hi := by
  induction es generalizing lo with
  | nil =>
    rw [firstGap] at none
    split at none <;> rename_i room
    · cases none
    · exact room
  | cons e es ih =>
    rw [firstGap] at none
    split at none
    · cases none
    · rw [last_cons]
      exact ih none

theorem Fits.congr {es' : List Extent} (fits : Fits lo hi es n p) (same : ∀ e ∈ es', e ∈ es) :
    Fits lo hi es' n p :=
  ⟨fits.low, fits.high, fun e he => fits.free e (same e he)⟩

end

end BottlerOS.Extents
