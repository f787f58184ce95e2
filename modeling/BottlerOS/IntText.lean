import BottlerOS.Machine
import BottlerOS.Library.Numeral
import BottlerOS.Library.Yields

/-! `itoa` and `gtoa` of `libc.c` and `itoa` of `Kernel/lib.c`: the digits by remainder, a sign, and
the characters reversed where they stand. A buffer is the memory from its first byte on. -/

namespace BottlerOS.IntText
open Machine Numeral Yields

abbrev Buffer := Nat → Int8

def abs (value : Int) : Int := if value < 0 then int32 (-value) else value

def charOf (r : Int) : Int8 := Int8.ofInt (if r ≥ 10 then 65 + (r - 10) else 48 + r)

/-- `i < length`, where there is a length. -/
def inside (length : Option Int) (i : Nat) : Bool := length.all fun l => decide ((i : Int) < l)

/-- The loop over the digits of `n`, with `i` of them stored. -/
def digitLoop (base : Int) (length : Option Int) :
    (fuel : Nat) → (i : Nat) → (n : Int) → Buffer → C (Nat × Buffer)
  | 0, _, _, _ => .error .hang
  | fuel + 1, i, n, buffer =>
      if n ≠ 0 ∧ inside length i then
        digitLoop base length fuel (i + 1) (n.tdiv base)
          (Function.update buffer i (charOf (n.tmod base)))
      else pure (i, buffer)

def swap (x y : Nat) (buffer : Buffer) : Buffer :=
  Function.update (Function.update buffer x (buffer y)) y (buffer x)

def reverse : (fuel : Nat) → Buffer → (i j : Nat) → C Buffer
  | 0, _, _, _ => .error .hang
  | fuel + 1, buffer, i, j =>
      if i < j then reverse fuel (swap i j buffer) (i + 1) (j - 1) else pure buffer

/-- The common body of the three functions. -/
def convert (length : Option Int) (fuel : Nat) (value : Int) (buffer : Buffer) (base : Int) :
    C Buffer :=
  if base < 2 ∨ base > 32 then pure buffer
  else do
    let (i, buffer) ← digitLoop base length fuel 0 (abs value) buffer
    let (i, buffer) := if i = 0 then (i + 1, Function.update buffer i 48) else (i, buffer)
    let (i, buffer) :=
      if value < 0 ∧ base = 10 then (i + 1, Function.update buffer i 45) else (i, buffer)
    let buffer := Function.update buffer i 0
    reverse fuel buffer 0 (i - 1)

def itoa (fuel : Nat) (value : Int) (buffer : Buffer) (base : Int) : C Buffer :=
  convert none fuel value buffer base

def gtoa (fuel : Nat) (value : Int) (buffer : Buffer) (base length : Int) : C Buffer :=
  convert (some length) fuel value buffer base

/-- `itoa` of the kernel. -/
def kernelItoa (fuel : Nat) (value : Int) (buffer : Buffer) (base length : Int) : C Buffer :=
  convert (some length) fuel value buffer base

/-! What they write. -/

/-- The characters of the `k` lowest digits at most. -/
def lowChars (base : Int) : (k : Nat) → Int → List Int8
  | 0, _ => []
  | k + 1, n => if n = 0 then [] else charOf (n.tmod base) :: lowChars base k (n.tdiv base)

/-- The buffer with characters stored from `i` on. -/
def written (buffer : Buffer) (i : Nat) (l : List Int8) : Buffer :=
  fun a => if i ≤ a then (l[a - i]?).getD (buffer a) else buffer a

/-- The text of a value. -/
def text (value base : Int) : List Int8 :=
  let digits := lowChars base 32 (abs value)
  ((if digits = [] then [48] else digits) ++
    if value < 0 ∧ base = 10 then [45] else []).reverse

section
variable {base n value : Int} {length : Option Int} {buffer : Buffer} {i j k : Nat}
  {c : Int8} {l l' : List Int8}

theorem written_nil (buffer : Buffer) (i : Nat) : written buffer i [] = buffer := by
  funext a
  simp [written]

theorem written_cons (buffer : Buffer) (i : Nat) (c : Int8) (l : List Int8) :
    written buffer i (c :: l) = written (Function.update buffer i c) (i + 1) l := by
  funext a
  rcases Nat.lt_trichotomy a i with lt | rfl | gt
  · simp [written, Nat.not_le.mpr lt, show ¬ i + 1 ≤ a by omega, Nat.ne_of_lt lt]
  · simp [written]
  · obtain ⟨d, rfl⟩ : ∃ d, a = i + (d + 1) := ⟨a - i - 1, by omega⟩
    have index : i + (d + 1) - (i + 1) = d := by omega
    have here : i + 1 ≤ i + (d + 1) := by omega
    simp [written, index, here]

theorem written_append (buffer : Buffer) (i : Nat) (l l' : List Int8) :
    written buffer i (l ++ l') = written (written buffer i l) (i + l.length) l' := by
  induction l generalizing buffer i with
  | nil => rw [List.nil_append, written_nil, List.length_nil, Nat.add_zero]
  | cons c l ih =>
    rw [List.cons_append, written_cons, written_cons, ih, List.length_cons, Nat.add_assoc,
      Nat.add_comm 1]

theorem update_written (buffer : Buffer) (l : List Int8) (c : Int8) :
    Function.update (written buffer 0 l) l.length c = written buffer 0 (l ++ [c]) := by
  rw [written_append, Nat.zero_add, written_cons, written_nil]

theorem written_get (h : j < l.length) : written buffer 0 l j = l[j] := by
  simp [written, h]

theorem written_behind (h : l.length ≤ j) : written buffer 0 l j = buffer j := by
  simp [written, h]

/-- The digits of the rest are one fewer. -/
theorem rest_lt {b m : Nat} (small : n.natAbs < b ^ (m + 1)) :
    (n.tdiv b).natAbs < b ^ m := by
  rw [Int.natAbs_tdiv, Int.natAbs_natCast]
  exact Nat.div_lt_of_lt_mul (by rwa [Nat.pow_succ, Nat.mul_comm] at small)

theorem lowChars_short {b m : Nat} (small : n.natAbs < b ^ m) (k : Nat) :
    (lowChars b k n).length ≤ m := by
  induction k generalizing n m with
  | zero => exact Nat.zero_le m
  | succ k ih =>
    rw [lowChars]
    by_cases zero : n = 0
    · rw [if_pos zero]
      exact Nat.zero_le m
    · cases m with
      | zero =>
        rw [Nat.pow_zero] at small
        omega
      | succ m =>
        rw [if_neg zero, List.length_cons]
        exact Nat.succ_le_succ (ih (rest_lt small))

/-- The loop stores the digits, the lowest first. -/
theorem digitLoop_yields {b : Nat} (small : n.natAbs < b ^ k)
    (room : ∀ len, length = some len → (i + (lowChars b k n).length : Int) ≤ len) :
    Yields (fun fuel => digitLoop b length fuel i n buffer)
      (i + (lowChars b k n).length, written buffer i (lowChars b k n)) := by
  have stop : ∀ n k i buffer, n = 0 → Yields (fun fuel => digitLoop b length fuel i n buffer)
      (i + (lowChars b k n).length, written buffer i (lowChars b k n)) := by
    intro n k i buffer zero
    have none : lowChars b k n = [] := by
      cases k with
      | zero => rfl
      | succ k => rw [lowChars, if_pos zero]
    rw [none, written_nil]
    apply Yields.step (g := fun _ => .ok (i, buffer)) (.of_ok rfl)
    · intro b h
      simp [digitLoop] at h
    · intro fuel
      rw [digitLoop, if_neg (by simp [zero])]
      rfl
  induction k generalizing n i buffer with
  | zero =>
    rw [Nat.pow_zero] at small
    exact stop n 0 i buffer (by omega)
  | succ k ih =>
    by_cases zero : n = 0
    · exact stop n (k + 1) i buffer zero
    · rw [lowChars, if_neg zero, List.length_cons] at room ⊢
      have more : inside length i = true := by
        cases length with
        | none => rfl
        | some len =>
          have := room len rfl
          simp only [inside, Option.all_some, decide_eq_true_eq]
          omega
      have rest := @ih (n.tdiv b) (Function.update buffer i (charOf (n.tmod b))) (i + 1)
        (rest_lt small) fun len h => by
          have := room len h
          push_cast at this ⊢
          omega
      rw [written_cons, show i + ((lowChars b k (n.tdiv b)).length + 1) =
        i + 1 + (lowChars b k (n.tdiv b)).length by omega]
      apply rest.step
      · intro b h
        simp [digitLoop] at h
      · intro fuel
        rw [digitLoop, if_pos ⟨zero, more⟩]

/-- The characters from `i` to `j` change places. -/
theorem reverse_yields (buffer : Buffer) (i j : Nat) :
    Yields (fun fuel => reverse fuel buffer i j)
      (fun a => if i ≤ a ∧ a ≤ j then buffer (i + j - a) else buffer a) := by
  induction d : j - i using Nat.strongRecOn generalizing buffer i j with
  | _ d ih =>
    by_cases lt : i < j
    · have rest := ih (j - 1 - (i + 1)) (by omega) (swap i j buffer) (i + 1) (j - 1) rfl
      have same : (fun a => if i + 1 ≤ a ∧ a ≤ j - 1 then swap i j buffer (i + 1 + (j - 1) - a)
          else swap i j buffer a) =
          fun a => if i ≤ a ∧ a ≤ j then buffer (i + j - a) else buffer a := by
        funext a
        unfold swap
        by_cases inner : i + 1 ≤ a ∧ a ≤ j - 1
        · rw [if_pos inner, if_pos (by omega), Function.update_of_ne (by omega),
            Function.update_of_ne (by omega), show i + 1 + (j - 1) - a = i + j - a by omega]
        · rw [if_neg inner]
          by_cases right : a = j
          · rw [right, Function.update_self, if_pos (by omega), Nat.add_sub_cancel]
          · rw [Function.update_of_ne right]
            by_cases left : a = i
            · rw [left, Function.update_self, if_pos (by omega), Nat.add_sub_cancel_left]
            · rw [Function.update_of_ne left, if_neg (by omega)]
      rw [same] at rest
      apply rest.step
      · intro b h
        simp [reverse] at h
      · intro fuel
        rw [reverse, if_pos lt]
    · have same : (fun a => if i ≤ a ∧ a ≤ j then buffer (i + j - a) else buffer a) = buffer := by
        funext a
        by_cases here : i ≤ a ∧ a ≤ j
        · rw [if_pos here, show i + j - a = a by omega]
        · rw [if_neg here]
      rw [same]
      apply Yields.step (g := fun _ => .ok buffer) (.of_ok rfl)
      · intro b h
        simp [reverse] at h
      · intro fuel
        rw [reverse, if_neg lt]
        rfl

theorem written_reverse (buffer : Buffer) (l : List Int8) (c : Int8) (ne : l ≠ []) :
    (fun a => if 0 ≤ a ∧ a ≤ l.length - 1 then written buffer 0 (l ++ [c]) (0 + (l.length - 1) - a)
      else written buffer 0 (l ++ [c]) a) = written buffer 0 (l.reverse ++ [c]) := by
  have pos := List.length_pos_iff.mpr ne
  funext a
  by_cases here : a ≤ l.length - 1
  · have lt : a < l.length := by omega
    rw [if_pos ⟨Nat.zero_le a, here⟩, written_get (by simp; omega), written_get (by simp; omega),
      List.getElem_append_left (by omega), List.getElem_append_left (by simpa using lt),
      List.getElem_reverse]
    congr 1
    omega
  · rw [if_neg (by omega)]
    have size : l.reverse.length = l.length := List.length_reverse
    by_cases last : a = l.length
    · rw [written_get (by simp; omega), written_get (by simp; omega),
        List.getElem_append_right (by omega), List.getElem_append_right (by omega)]
      simp [size]
    · rw [written_behind (by simp; omega), written_behind (by simp; omega)]


/-- A zero has a digit as well. -/
def padded (digits : List Int8) : List Int8 := if digits = [] then [48] else digits

def signed (value base : Int) (digits : List Int8) : List Int8 :=
  digits ++ if value < 0 ∧ base = 10 then [45] else []

theorem text_eq (value base : Int) :
    text value base = (signed value base (padded (lowChars base 32 (abs value)))).reverse := rfl

theorem signed_ne (value base : Int) (digits : List Int8) :
    signed value base (padded digits) ≠ [] := by
  rw [signed, padded]
  split
  · simp
  · simp_all

theorem stored_digit (buffer : Buffer) (digits : List Int8) :
    (if digits.length = 0 then
      (digits.length + 1, Function.update (written buffer 0 digits) digits.length 48)
    else (digits.length, written buffer 0 digits)) =
      ((padded digits).length, written buffer 0 (padded digits)) := by
  by_cases none : digits = []
  · rw [none]
    exact congrArg (Prod.mk 1) (update_written buffer [] 48)
  · simp [padded, none]

theorem stored_sign (buffer : Buffer) (digits : List Int8) :
    (if value < 0 ∧ base = 10 then
      (digits.length + 1, Function.update (written buffer 0 digits) digits.length 45)
    else (digits.length, written buffer 0 digits)) =
      ((signed value base digits).length, written buffer 0 (signed value base digits)) := by
  by_cases sign : value < 0 ∧ base = 10
  · rw [if_pos sign, signed, if_pos sign, update_written, List.length_append, List.length_singleton]
  · rw [if_neg sign, signed, if_neg sign, List.append_nil]

/-- The three functions write the text of the value and a NUL, where the length has room for its
digits. -/
theorem convert_yields {b : Nat} (lo : 2 ≤ b) (hi : b ≤ 32) (fits : (abs value).natAbs < 2 ^ 32)
    (room : ∀ len, length = some len → ((lowChars b 32 (abs value)).length : Int) ≤ len)
    (buffer : Buffer) :
    Yields (fun fuel => convert length fuel value buffer b)
      (written buffer 0 (text value b ++ [0])) := by
  have small : (abs value).natAbs < b ^ 32 := Nat.lt_of_lt_of_le fits (Nat.pow_le_pow_left lo 32)
  have digits := @digitLoop_yields (abs value) length buffer 0 32 b small
    fun len h => by simpa using room len h
  rw [Nat.zero_add] at digits
  have body := digits.bind (k := fun fuel (i, buffer) => do
    let (i, buffer) := if i = 0 then (i + 1, Function.update buffer i 48) else (i, buffer)
    let (i, buffer) :=
      if value < 0 ∧ (b : Int) = 10 then (i + 1, Function.update buffer i 45) else (i, buffer)
    let buffer := Function.update buffer i 0
    reverse fuel buffer 0 (i - 1)) (b := written buffer 0 (text value b ++ [0])) ?_
  · apply body.congr
    intro fuel
    rw [convert, if_neg (by omega)]
  · have shown := text_eq value b
    generalize lowChars b 32 (abs value) = digits at shown
    simp only [stored_digit]
    simp only [stored_sign]
    simp only [update_written]
    have back := reverse_yields (written buffer 0 (signed value b (padded digits) ++ [0])) 0
      ((signed value b (padded digits)).length - 1)
    rw [written_reverse buffer _ 0 (signed_ne value b digits), ← shown] at back
    exact back

theorem charOf_digit {d : Nat} (small : d < 32) : charOf d = digitChar d := by
  have all : ∀ d : Nat, d < 32 → charOf d = digitChar d := by decide
  exact all d small

theorem lowChars_digits {b m : Nat} (lo : 2 ≤ b) (hi : b ≤ 32) (small : m < b ^ k) :
    lowChars b k m = (Nat.digits b m).map digitChar := by
  induction k generalizing m with
  | zero =>
    rw [Nat.pow_zero] at small
    obtain rfl : m = 0 := by omega
    simp [lowChars]
  | succ k ih =>
    by_cases zero : m = 0
    · simp [lowChars, zero]
    · have rest : m / b < b ^ k :=
        Nat.div_lt_of_lt_mul (by rwa [Nat.pow_succ, Nat.mul_comm] at small)
      have digit := Nat.mod_lt m (show b > 0 by omega)
      rw [lowChars, if_neg (by omega), Nat.digits_def' (by omega) (by omega), List.map_cons,
        ← ih rest, ← charOf_digit (by omega)]
      rfl

theorem abs_nat (lo : -2147483648 < value) (hi : value ≤ 2147483647) :
    abs value = (value.natAbs : Int) := by
  unfold abs int32
  split <;> omega

/-- But for the smallest `int`, the text is the numeral, with its sign to the base 10. -/
theorem text_numeral {b : Nat} (lo : 2 ≤ b) (hi : b ≤ 32) (low : -2147483648 < value)
    (high : value ≤ 2147483647) :
    text value b = (if value < 0 ∧ (b : Int) = 10 then [45] else []) ++ numeral b value.natAbs := by
  have small : value.natAbs < b ^ 32 :=
    Nat.lt_of_lt_of_le (show value.natAbs < 2 ^ 32 by omega) (Nat.pow_le_pow_left lo 32)
  have digits : padded (lowChars b 32 (abs value)) = (numeral b value.natAbs).reverse := by
    rw [abs_nat low high, lowChars_digits lo hi small, padded, numeral]
    by_cases zero : value.natAbs = 0
    · rw [if_pos zero, zero, Nat.digits_zero]
      decide
    · have some := Nat.digits_ne_nil_iff_ne_zero (b := b) |>.mpr zero
      rw [if_neg zero, if_neg (by simpa using some), List.reverse_reverse]
  rw [text_eq, digits, signed, List.reverse_append, List.reverse_reverse]
  split <;> rfl

theorem abs_fits (lo : -2147483648 ≤ value) (hi : value ≤ 2147483647) :
    (abs value).natAbs < 2 ^ 32 := by
  unfold abs int32
  split <;> omega

/-- There is room for ten decimal digits. -/
theorem lowChars_ten (lo : -2147483648 ≤ value) (hi : value ≤ 2147483647) :
    (lowChars (10 : Nat) 32 (abs value)).length ≤ 10 := by
  apply lowChars_short
  unfold abs int32
  split <;> omega

end

end BottlerOS.IntText
