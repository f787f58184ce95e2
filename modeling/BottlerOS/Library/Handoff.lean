import Mathlib.Data.Int.ModEq
import Mathlib.Data.List.Basic
import Mathlib.Tactic.Ring

/-! Counting semaphores with a FIFO queue and direct hand-off. A post that finds
somebody waiting gives the unit to the head of the queue, and nothing happens at
the semaphore until the head has taken it. Units are counted in a machine word:
modulo `M`. -/

namespace BottlerOS.Handoff

variable {ι : Type*} {M : Int}

structure Sem (ι : Type*) where
  units : Int
  waiting : List ι
  handed : Option ι

inductive Op (ι : Type*) where
  /-- A unit is taken at once. -/
  | take (i : ι)
  /-- There is no unit: one more waits. -/
  | join (i : ι)
  | post
  /-- The unit handed over is taken. -/
  | finish (i : ι)

inductive Step (M : Int) : Sem ι → Op ι → Sem ι → Prop where
  | take {u : Int} {w : List ι} {i : ι} (free : 0 < u) :
      Step M ⟨u, w, none⟩ (.take i) ⟨u - 1, w, none⟩
  | join {w : List ι} {i : ι} : Step M ⟨0, w, none⟩ (.join i) ⟨0, w ++ [i], none⟩
  | post {u : Int} : Step M ⟨u, [], none⟩ .post ⟨(u + 1) % M, [], none⟩
  | hand {w : List ι} {i : ι} : Step M ⟨0, i :: w, none⟩ .post ⟨0, w, some i⟩
  | finish {w : List ι} {i : ι} : Step M ⟨0, w, some i⟩ (.finish i) ⟨0, w, none⟩

/-- The operations of a run, the last one at the end. -/
inductive Run (M : Int) (s : Sem ι) : List (Op ι) → Sem ι → Prop where
  | refl : Run M s [] s
  | step {ops : List (Op ι)} {op : Op ι} {t u : Sem ι} (run : Run M s ops t)
      (step : Step M t op u) :
      Run M s (ops ++ [op]) u

/-- The units there are, the one being handed over included. -/
def Sem.value (s : Sem ι) : Int := s.units + if s.handed.isSome then 1 else 0

def Op.isPost : Op ι → Bool
  | .post => true
  | _ => false

/-- A wait that is over. -/
def Op.isTaken : Op ι → Bool
  | .take _ => true
  | .finish _ => true
  | _ => false

def posts (ops : List (Op ι)) : Int := ops.countP Op.isPost

def finished (ops : List (Op ι)) : Int := ops.countP Op.isTaken

/-- Those who have had to wait, in the order of their arrival. -/
def joins (ops : List (Op ι)) : List ι := ops.filterMap fun
  | .join i => some i
  | _ => none

/-- Those who have waited and taken a unit, in that order. -/
def finishes (ops : List (Op ι)) : List ι := ops.filterMap fun
  | .finish i => some i
  | _ => none

section
variable {s t u : Sem ι} {ops : List (Op ι)} {op : Op ι}

theorem Step.value (h : Step M s op t) :
    t.value ≡ s.value + posts [op] - finished [op] [ZMOD M] := by
  cases h with
  | take free => simp [Sem.value, posts, finished, Op.isPost, Op.isTaken, Int.ModEq]
  | join => simp [Sem.value, posts, finished, Op.isPost, Op.isTaken, Int.ModEq]
  | post => simp [Sem.value, posts, finished, Op.isPost, Op.isTaken, Int.ModEq]
  | hand => simp [Sem.value, posts, finished, Op.isPost, Op.isTaken, Int.ModEq]
  | finish => simp [Sem.value, posts, finished, Op.isPost, Op.isTaken, Int.ModEq]

/-- The count is right, up to the size of the word. -/
theorem Run.value (h : Run M s ops t) : t.value ≡ s.value + posts ops - finished ops [ZMOD M] := by
  induction h with
  | refl => simp [posts, finished, Int.ModEq.refl]
  | step _ step ih =>
    refine step.value.trans (((ih.add_right _).sub_right _).trans ?_)
    simp only [posts, finished, List.countP_append, Nat.cast_add]
    rw [show ∀ a b c d e : Int, a + b - c + d - e = a + (b + d) - (c + e) by intros; ring]

/-- Units are a word's. -/
theorem Step.units (h : Step M s op t) (pos : 0 < M) (bound : 0 ≤ s.units ∧ s.units < M) :
    0 ≤ t.units ∧ t.units < M := by
  cases h with
  | take free =>
    simp only at bound ⊢
    omega
  | join => exact bound
  | post => exact ⟨Int.emod_nonneg _ pos.ne', Int.emod_lt_of_pos _ pos⟩
  | hand => exact bound
  | finish => exact bound

theorem Run.units (h : Run M s ops t) (pos : 0 < M) (bound : 0 ≤ s.units ∧ s.units < M) :
    0 ≤ t.units ∧ t.units < M := by
  induction h with
  | refl => exact bound
  | step _ step ih => exact step.units pos ih

/-- Posts that overflow the word lose units, and nothing makes them. -/
theorem Step.value_le (h : Step M s op t) (pos : 0 < M) (bound : 0 ≤ s.units) :
    t.value ≤ s.value + posts [op] - finished [op] := by
  cases h with
  | take free => simp [Sem.value, posts, finished, Op.isPost, Op.isTaken]
  | join => simp [Sem.value, posts, finished, Op.isPost, Op.isTaken]
  | post =>
    rename_i u
    simp only at bound
    have quot : 0 ≤ M * ((u + 1) / M) :=
      Int.mul_nonneg pos.le (Int.ediv_nonneg (by omega) pos.le)
    have rest := Int.emod_def (u + 1) M
    simp only [Sem.value, posts, finished, Op.isPost, Op.isTaken, Option.isSome_none,
      List.countP_singleton, if_true, Bool.false_eq_true, if_false]
    omega
  | hand => simp [Sem.value, posts, finished, Op.isPost, Op.isTaken]
  | finish => simp [Sem.value, posts, finished, Op.isPost, Op.isTaken]

theorem Run.value_le (h : Run M s ops t) (pos : 0 < M) (bound : 0 ≤ s.units ∧ s.units < M) :
    t.value ≤ s.value + posts ops - finished ops := by
  induction h with
  | refl => simp [posts, finished]
  | step run step ih =>
    have one := step.value_le pos (run.units pos bound).1
    simp only [posts, finished, List.countP_append, Nat.cast_add] at one ih ⊢
    omega

/-- The number of waits that are over is at most the initial value and the posts. -/
theorem Run.finished_le (h : Run M s ops t) (pos : 0 < M) (bound : 0 ≤ s.units ∧ s.units < M) :
    finished ops ≤ s.value + posts ops := by
  have one := h.value_le pos bound
  have nonneg : 0 ≤ t.value := by
    have := (h.units pos bound).1
    unfold Sem.value
    split <;> omega
  omega

/-- First come, first served. -/
theorem Run.fifo (h : Run M s ops t) :
    s.handed.toList ++ s.waiting ++ joins ops = finishes ops ++ t.handed.toList ++ t.waiting := by
  induction h with
  | refl => simp [joins, finishes]
  | step _ step ih =>
    simp only [joins, finishes, List.filterMap_append] at ih ⊢
    rw [← List.append_assoc, ih]
    cases step <;> simp

end

end BottlerOS.Handoff
