import BottlerOS.Bmfs
import BottlerOS.Library.Numeral

/-! The size of a disk that `bmfs` is to set up: digits, and a unit behind them. Whatever is
accepted is the size that was asked for up to a multiple of 2^64, and a size that fits is never
refused; the checks against overflow let some sizes through that do not fit. -/

namespace BottlerOS.Bmfs
open Numeral

/-- What the digits stand for, behind a number. -/
def digitsFrom (d : Nat) (ds : List UInt8) : Nat :=
  (ds.map fun ch => ch.toNat - 48).foldl (fun n x => n * 10 + x) d

/-- A size that is asked for: digits, and perhaps a unit of 1024^k bytes. -/
structure Numeric (size : CString) (ds : List UInt8) (k : Nat) : Prop where
  nonempty : ds ≠ []
  digits : ∀ ch ∈ ds, isdigit ch = true
  suffix : size.1 = ds ∧ k = 0 ∨ ∃ ch, size.1 = ds ++ [ch] ∧ unit ch = some k

/-- The bytes that are asked for. -/
def asked (ds : List UInt8) (k : Nat) : Nat :=
  number 10 (ds.map fun ch => ch.toNat - 48) * 1024 ^ k

section
variable {size : CString} {ds rest : List UInt8} {ch : UInt8} {i d d' k : Nat}

theorem digitsFrom_cons :
    digitsFrom d (ch :: ds) = digitsFrom (d * 10 + (ch.toNat - 48)) ds := by
  rw [digitsFrom, digitsFrom, List.map_cons, List.foldl_cons]

theorem digitsFrom_mod (m d : Nat) (ds : List UInt8) :
    digitsFrom (d % m) ds % m = digitsFrom d ds % m := by
  induction ds generalizing d with
  | nil => exact Nat.mod_mod d m
  | cons ch ds ih =>
    have step : (d % m * 10 + (ch.toNat - 48)) % m = (d * 10 + (ch.toNat - 48)) % m := by
      rw [Nat.add_mod, Nat.mod_mul_mod, ← Nat.add_mod]
    rw [digitsFrom_cons, digitsFrom_cons, ← ih, step, ih]

theorem digitsFrom_mono (le : d ≤ d') : digitsFrom d ds ≤ digitsFrom d' ds := by
  induction ds generalizing d d' with
  | nil => exact le
  | cons ch ds ih =>
    rw [digitsFrom_cons, digitsFrom_cons]
    exact ih (by omega)

theorem le_digitsFrom : d ≤ digitsFrom d ds := by
  induction ds generalizing d with
  | nil => exact Nat.le_refl d
  | cons ch ds ih =>
    rw [digitsFrom_cons]
    exact Nat.le_trans (by omega) ih

/-- The loop over digits: it computes modulo 2^64, and stops only for what does not fit. -/
theorem parseFrom_digits (size : CString) (rest : List UInt8)
    (all : ∀ ch ∈ ds, isdigit ch = true) (small : d < 2 ^ 64) :
    parseFrom size (ds ++ rest) i d =
        parseFrom size rest (i + ds.length) (digitsFrom d ds % 2 ^ 64) ∨
      (∃ message, parseFrom size (ds ++ rest) i d = .error message) ∧
        2 ^ 64 ≤ digitsFrom d ds := by
  induction ds generalizing i d with
  | nil =>
    refine .inl ?_
    rw [digitsFrom, List.map_nil, List.foldl_nil, Nat.mod_eq_of_lt small]
    rfl
  | cons ch ds ih =>
    have digit := all ch (by simp)
    have low : ch.toNat - 48 ≤ 9 := by
      simp only [isdigit, decide_eq_true_eq, UInt8.le_iff_toNat_le] at digit
      have : ch.toNat ≤ 57 := digit.2
      omega
    have ih := fun i {d} (small : d < 2 ^ 64) =>
      @ih i d (fun x hx => all x (by simp [hx])) small
    rw [List.cons_append, parseFrom, if_pos digit, digitsFrom_cons, List.length_cons]
    dsimp only
    by_cases grows : d * 10 % 2 ^ 64 > d
    · have next : (d * 10 % 2 ^ 64 + (ch.toNat - 48)) % 2 ^ 64 =
          (d * 10 + (ch.toNat - 48)) % 2 ^ 64 := by omega
      rw [if_pos grows, next]
      rcases ih (i + 1) (Nat.mod_lt (d * 10 + (ch.toNat - 48)) (by decide)) with
        run | ⟨stops, large⟩
      · rw [digitsFrom_mod] at run
        exact .inl (run.trans (by rw [Nat.add_assoc, Nat.add_comm 1]))
      · exact .inr ⟨stops, Nat.le_trans large (digitsFrom_mono (Nat.mod_le _ _))⟩
    · rw [if_neg grows]
      by_cases zero : d = 0
      · rw [if_pos zero]
        subst zero
        rcases ih (i + 1) (show 0 + (ch.toNat - 48) < 2 ^ 64 by omega) with run | stops
        · exact .inl (run.trans (by rw [Nat.add_assoc, Nat.add_comm 1, Nat.zero_mul]))
        · exact .inr stops
      · rw [if_neg zero]
        refine .inr ⟨⟨_, rfl⟩, Nat.le_trans ?_ le_digitsFrom⟩
        by_contra fits
        rw [Nat.mod_eq_of_lt (by omega)] at grows
        omega

/-- The loop over the unit: the product modulo 2^64, if nothing is printed. -/
theorem scale_cases (pos : 0 < d) (small : d < 2 ^ 64) :
    ((scale k d).2 = [] → (scale k d).1 = d * 1024 ^ k % 2 ^ 64) ∧
      (d * 1024 ^ k < 2 ^ 64 → (scale k d).2 = []) := by
  induction k generalizing d with
  | zero =>
    rw [scale, Nat.pow_zero, Nat.mul_one]
    exact ⟨fun _ => (Nat.mod_eq_of_lt small).symm, fun _ => rfl⟩
  | succ k ih =>
    have power : d * 1024 ^ (k + 1) = d * 1024 * 1024 ^ k := by
      rw [Nat.pow_succ, Nat.mul_comm (1024 ^ k), Nat.mul_assoc]
    rw [scale, power]
    by_cases grows : d * 1024 % 2 ^ 64 > d
    · rw [if_pos grows]
      obtain ⟨exact_, fits⟩ := ih (show 0 < d * 1024 % 2 ^ 64 by omega) (Nat.mod_lt _ (by decide))
      refine ⟨fun none => ?_, fun lt => fits ?_⟩
      · rw [exact_ none, Nat.mod_mul_mod]
      · have le : d * 1024 ≤ d * 1024 * 1024 ^ k := Nat.le_mul_of_pos_right _ (by positivity)
        rwa [Nat.mod_eq_of_lt (by omega)]
    · rw [if_neg grows]
      refine ⟨fun none => absurd none (List.cons_ne_nil _ _), fun lt => ?_⟩
      have le : d * 1024 ≤ d * 1024 * 1024 ^ k := Nat.le_mul_of_pos_right _ (by positivity)
      rw [Nat.mod_eq_of_lt (by omega)] at grows
      omega

theorem unit_digit (here : unit ch = some k) : isdigit ch = false := by
  by_contra digit
  simp only [Bool.not_eq_false, isdigit, decide_eq_true_eq] at digit
  have upper : toupper ch = ch := if_neg fun h => absurd (UInt8.le_trans h.1 digit.2) (by decide)
  rw [unit, upper] at here
  split at here <;> first | exact absurd digit.2 (by decide) | cases here

/-- What the loop makes of a size that is asked for. -/
theorem parseFrom_numeric (numeric : Numeric size ds k) :
    parseFrom size size.1 0 0 = .ok (digitsFrom 0 ds % 2 ^ 64, k) ∨
      (∃ message, parseFrom size size.1 0 0 = .error message) ∧ 2 ^ 64 ≤ digitsFrom 0 ds := by
  have length := List.length_pos_iff.mpr numeric.nonempty
  rcases numeric.suffix with ⟨whole, rfl⟩ | ⟨ch, whole, here⟩
  · have run := parseFrom_digits size [] (i := 0) numeric.digits
      (show 0 < 2 ^ 64 by decide)
    rw [List.append_nil] at run
    rw [whole]
    exact run
  · have run := parseFrom_digits size [ch] (i := 0) numeric.digits
      (show 0 < 2 ^ 64 by decide)
    rw [parseFrom, unit_digit here, here] at run
    rw [whole]
    simpa [numeric.nonempty] using run

/-- What is accepted was asked for. -/
theorem numeric_of_parseFrom (some_ : size.1 ≠ [])
    (run : parseFrom size size.1 0 0 = .ok (d, k)) : ∃ ds, Numeric size ds k := by
  have split := List.takeWhile_append_dropWhile (p := isdigit) (l := size.1)
  have digits : ∀ ch ∈ size.1.takeWhile isdigit, isdigit ch = true := fun ch hch =>
    List.mem_takeWhile_imp hch
  generalize size.1.takeWhile isdigit = ds at split digits
  have other : ∀ ch ∈ (size.1.dropWhile isdigit).head?, isdigit ch = false := by
    intro ch hch
    have := List.head?_dropWhile_not isdigit size.1
    rw [hch] at this
    simpa using this
  generalize size.1.dropWhile isdigit = rest at split other
  have nonempty : ds ≠ [] := by
    rintro rfl
    rw [List.nil_append] at split
    rw [← split] at run some_
    obtain ⟨ch, rest', rfl⟩ := List.exists_cons_of_ne_nil some_
    rw [parseFrom, other ch rfl] at run
    cases run
  rw [← split] at run
  rcases parseFrom_digits size rest (i := 0) digits (show 0 < 2 ^ 64 by decide) with
    same | ⟨⟨message, stops⟩, -⟩
  · rw [same] at run
    cases rest with
    | nil =>
      rw [parseFrom] at run
      injection run with run
      injection run with _ zero
      exact ⟨ds, nonempty, digits, .inl ⟨by simpa using split.symm, zero.symm⟩⟩
    | cons ch rest =>
      have length := List.length_pos_iff.mpr nonempty
      rw [parseFrom, other ch rfl, if_neg (by decide), if_neg (by omega)] at run
      cases here : unit ch with
      | none =>
        rw [here] at run
        cases run
      | some factor =>
        rw [here] at run
        dsimp only at run
        by_cases more : rest ≠ []
        · rw [if_pos more] at run
          cases run
        · rw [if_neg more] at run
          injection run with run
          injection run with _ same
          subst same
          refine ⟨ds, nonempty, digits, .inr ⟨ch, ?_, here⟩⟩
          rw [← split, not_not.mp more]
  · rw [stops] at run
    cases run

/-- The size, once the loop has read it. -/
theorem sizeOf_parsed (run : parseFrom size size.1 0 0 = .ok (d, k)) (small : d < 2 ^ 64) :
    (∀ n, sizeOf size = .ok n → n = d * 1024 ^ k % 2 ^ 64 ∧ minimumDiskSize ≤ n) ∧
      (d * 1024 ^ k < 2 ^ 64 → minimumDiskSize ≤ d * 1024 ^ k →
        sizeOf size = .ok (d * 1024 ^ k)) := by
  obtain ⟨n, printed, scaled⟩ : ∃ n printed,
      (if d > 0 ∧ k > 0 then scale k d else (d, [])) = (n, printed) := ⟨_, _, rfl⟩
  have size_ : sizeOf size = if printed ≠ [] then .error printed
      else if n < minimumDiskSize then
        .error ["Error: Disk size must be at least " ++ toString minimumDiskSize ++ " bytes (" ++
          toString (minimumDiskSize / (1024 * 1024)) ++ "MiB)\n"]
      else .ok n := by
    rw [sizeOf, run]
    simp only [scaled]
  have value : (printed = [] → n = d * 1024 ^ k % 2 ^ 64) ∧
      (d * 1024 ^ k < 2 ^ 64 → printed = []) := by
    by_cases both : d > 0 ∧ k > 0
    · rw [if_pos both] at scaled
      have cases_ := scale_cases both.1 small (k := k)
      rwa [scaled] at cases_
    · rw [if_neg both] at scaled
      injection scaled with same none
      subst same none
      refine ⟨fun _ => ?_, fun _ => rfl⟩
      rcases Nat.eq_zero_or_pos k with rfl | pos
      · rw [Nat.pow_zero, Nat.mul_one, Nat.mod_eq_of_lt small]
      · rw [show d = 0 by omega, Nat.zero_mul, Nat.zero_mod]
  rw [size_]
  constructor
  · intro m accepted
    by_cases none : printed = []
    · rw [if_neg (not_not.mpr none)] at accepted
      split at accepted <;> rename_i large
      · cases accepted
      · obtain rfl := Except.ok.inj accepted
        exact ⟨value.1 none, not_lt.mp large⟩
    · rw [if_pos none] at accepted
      cases accepted
  · intro fits large
    have none := value.2 fits
    have exact_ := value.1 none
    rw [Nat.mod_eq_of_lt fits] at exact_
    rw [if_neg (not_not.mpr none), if_neg (by omega), exact_]

/-- The size is what was asked for, modulo 2^64, and what fits is accepted. -/
theorem sizeOf_asked (size : CString) :
    (∀ n, sizeOf size = .ok n → ∃ ds k, Numeric size ds k ∧ n = asked ds k % 2 ^ 64 ∧
      minimumDiskSize ≤ n) ∧
    ∀ ds k, Numeric size ds k → asked ds k < 2 ^ 64 → minimumDiskSize ≤ asked ds k →
      sizeOf size = .ok (asked ds k) := by
  constructor
  · intro n accepted
    cases run : parseFrom size size.1 0 0 with
    | error message =>
      rw [sizeOf, run] at accepted
      cases accepted
    | ok parsed =>
      obtain ⟨d, k⟩ := parsed
      have some_ : size.1 ≠ [] := by
        intro empty
        rw [sizeOf, empty] at accepted
        simp [parseFrom, minimumDiskSize] at accepted
      obtain ⟨ds, numeric⟩ := numeric_of_parseFrom some_ run
      rcases parseFrom_numeric numeric with run' | ⟨⟨message, stops⟩, -⟩
      · rw [run] at run'
        injection run' with run'
        injection run' with same
        obtain ⟨value, large⟩ := (sizeOf_parsed run
          (by rw [same]; exact Nat.mod_lt _ (by decide))).1 n accepted
        refine ⟨ds, k, numeric, ?_, large⟩
        rw [value, same, Nat.mod_mul_mod]
        rfl
      · rw [run] at stops
        cases stops
  · intro ds k numeric fits large
    have small : digitsFrom 0 ds < 2 ^ 64 :=
      Nat.lt_of_le_of_lt (Nat.le_mul_of_pos_right _ (by positivity)) fits
    rcases parseFrom_numeric numeric with run | ⟨-, overflow⟩
    · rw [Nat.mod_eq_of_lt small] at run
      exact (sizeOf_parsed run small).2 fits large
    · omega

/-- Ten times 2^62 bytes are accepted as 2^63. -/
example : sizeOf ⟨[52, 54, 49, 49, 54, 56, 54, 48, 49, 56, 52, 50, 55, 51, 56, 55, 57, 48, 52, 48],
    by decide⟩ = .ok (2 ^ 63) := by rfl

end

end BottlerOS.Bmfs
