import BottlerOS.TextInt

/-! `atoi` of `itoa`: the smallest `int` has no absolute value, so that its text has no digits. -/

namespace BottlerOS.IntRoundTrip
open Machine Numeral Yields IntText TextInt

/-- The string that `itoa` writes to the base 10 is written by the two others, with ten characters
or more, and read back by `atoi`. -/
def RoundTrips (v : Int) : Prop :=
  ∀ buffer : Buffer, ∃ l m, Yields (fun fuel => itoa fuel v buffer 10) m ∧ Text m 0 l ∧
    Yields (fun fuel => atoi fuel (l.length + 1) m) v ∧
    ∀ length : Int, 10 ≤ length → Yields (fun fuel => gtoa fuel v buffer 10 length) m ∧
      Yields (fun fuel => kernelItoa fuel v buffer 10 length) m

section
variable {l : List Int8} {buffer : Buffer} {v : Int}

theorem text_written (plain : 0 ∉ l) (buffer : Buffer) :
    Text (written buffer 0 (l ++ [0])) 0 l := by
  suffices all : ∀ (l : List Int8) (buffer : Buffer) (o : Nat), 0 ∉ l →
      Text (written buffer o (l ++ [0])) o l from all l buffer 0 plain
  intro l
  induction l with
  | nil =>
    intro buffer o _
    simp [Text, written]
  | cons c l ih =>
    intro buffer o plain
    obtain ⟨ne, plain⟩ := not_or.mp (List.mem_cons.not.mp plain)
    refine ⟨fun h => ne h.symm, by simp [written], ?_⟩
    rw [List.cons_append, written_cons]
    exact ih (Function.update buffer o c) (o + 1) plain

/-- Digits are no signs. -/
theorem walk_digits (digits : ∀ c ∈ l, isDigit c = true) : walk l = some 0 := by
  induction l using walk.induct with
  | case1 => rfl
  | case2 => exact absurd (digits 45 List.mem_cons_self) (by decide)
  | case3 c other => rw [walk, if_neg other]
  | case4 c l ih => exact absurd (digits 45 List.mem_cons_self) (by decide)
  | case5 c d l other ih =>
    rw [walk, if_neg other]
    exact ih fun b hb => digits b (List.mem_cons_of_mem c hb)

theorem numeral_digits (n : Nat) : numeral 10 n ≠ [] ∧ ∀ c ∈ numeral 10 n, isDigit c = true := by
  obtain ⟨ds, text, ne, -, small⟩ := numeral_eq 10 n
  rw [text]
  refine ⟨by simpa using ne, fun c hc => ?_⟩
  obtain ⟨d, hd, rfl⟩ := List.mem_map.mp hc
  have := small (by decide) d hd
  rw [isDigit_iff, digitChar_toInt (by omega), if_neg (by omega)]
  omega

/-- A value and its text. -/
theorem text_value (low : -2147483648 < v) (high : v ≤ 2147483647) :
    0 ∉ text v 10 ∧ value (text v 10) = v ∧ Harmless (text v 10) := by
  obtain ⟨ne, digits⟩ := numeral_digits v.natAbs
  have eq := text_numeral (b := 10) (by decide) (by decide) low high
  have nul : 0 ∉ numeral 10 v.natAbs := fun h => absurd (digits 0 h) (by decide)
  by_cases neg : v < 0
  · rw [if_pos ⟨neg, rfl⟩, List.singleton_append] at eq
    change text v 10 = _ at eq
    rw [eq]
    refine ⟨by simp [nul], ?_, 1, ?_, .inr (.inl ⟨rfl, rfl⟩)⟩
    · rw [value, List.head?_cons, if_pos rfl, List.tail_cons, leading_numeral]
      omega
    · cases rest : numeral 10 v.natAbs with
      | nil => exact absurd rest ne
      | cons d l =>
        rw [walk, if_pos rfl, walk_digits fun c hc => digits c (by rw [rest]; exact .tail d hc)]
        rfl
  · rw [if_neg (fun h => neg h.1), List.nil_append] at eq
    change text v 10 = _ at eq
    rw [eq]
    refine ⟨nul, ?_, 0, walk_digits digits, .inl rfl⟩
    have head : (numeral 10 v.natAbs).head? ≠ some 45 := fun h =>
      absurd (digits 45 (List.mem_of_mem_head? h)) (by decide)
    rw [value, if_neg head, leading_numeral]
    omega

/-- Ten characters are room enough for the digits of any `int`. -/
theorem itoa_yields (low : -2147483648 ≤ v) (high : v ≤ 2147483647) (buffer : Buffer) :
    Yields (fun fuel => itoa fuel v buffer 10) (written buffer 0 (text v 10 ++ [0])) ∧
      ∀ length : Int, 10 ≤ length →
        Yields (fun fuel => gtoa fuel v buffer 10 length) (written buffer 0 (text v 10 ++ [0])) ∧
        Yields (fun fuel => kernelItoa fuel v buffer 10 length)
          (written buffer 0 (text v 10 ++ [0])) := by
  have short := lowChars_ten low high
  constructor
  · exact convert_yields (b := 10) (by decide) (by decide) (abs_fits low high)
      (fun len h => by cases h) buffer
  · intro length room
    have wrote : Yields (fun fuel => convert (some length) fuel v buffer (10 : Nat))
        (written buffer 0 (text v (10 : Nat) ++ [0])) :=
      convert_yields (by decide) (by decide) (abs_fits low high)
        (fun len h => by rw [← Option.some.inj h]; omega) buffer
    exact ⟨wrote, wrote⟩

/-- The text of the smallest `int` is `-./,),(-*,(`. -/
theorem not_roundTrips : ¬ RoundTrips (-2147483648) := by
  intro trips
  obtain ⟨l, m, wrote, shown, back, -⟩ := trips fun _ => 0
  have plain : 0 ∉ text (-2147483648) 10 := by decide
  obtain ⟨fuel, run⟩ := wrote.exists
  obtain rfl := (itoa_yields (by decide) (by decide) _).1.eq run
  obtain rfl := shown.unique (text_written plain _)
  obtain ⟨fuel, run⟩ := back.exists
  have met : walk (text (-2147483648) 10) = some 2 := by decide
  exact absurd ((atoi_yields shown met).eq run) (by decide)

end

/-- Every `int` but the smallest goes through its text and back. -/
theorem roundTrips_iff (v : Int) (low : -2147483648 ≤ v) (high : v ≤ 2147483647) :
    RoundTrips v ↔ v ≠ -2147483648 := by
  constructor
  · rintro trips rfl
    exact not_roundTrips trips
  · intro ne buffer
    obtain ⟨plain, value, harmless⟩ := text_value (v := v) (by omega) high
    have shown := text_written plain buffer
    obtain ⟨r, back, right⟩ := harmless.reads shown
    obtain ⟨wrote, others⟩ := itoa_yields low high buffer
    rw [value] at right
    obtain rfl := right ⟨low, high⟩
    exact ⟨text r 10, _, wrote, shown, back, others⟩

theorem roundTrips_iff_seven : RoundTrips (-7) ↔ (-7 : Int) ≠ -2147483648 :=
  roundTrips_iff (-7) (by decide) (by decide)

theorem smallest_lost : ¬ ∀ v : Int, -2147483648 ≤ v → v ≤ 2147483647 → RoundTrips v :=
  fun always => not_roundTrips (always (-2147483648) (by decide) (by decide))

end BottlerOS.IntRoundTrip
