import BottlerOS.IntText

/-! `atoi` of `libc.c`. Its first loop moves the string along at each `-` that it meets, and looks
two characters further on. -/

namespace BottlerOS.TextInt
open Machine Numeral Yields IntText

/-- A character of a string that takes `size` bytes with its NUL. -/
def charAt (size o : Nat) (m : Buffer) : C Int8 :=
  if o < size then pure (m o) else .error .outOfBounds

/-- The loop over the signs. -/
def signLoop (size : Nat) : (fuel : Nat) → (str i : Nat) → (sign : Int) → Buffer → C (Nat × Int)
  | 0, _, _, _, _ => .error .hang
  | fuel + 1, str, i, sign, m => do
      let c ← charAt size (str + i) m
      if c ≠ 0 then
        if c = 45 then signLoop size fuel (str + 1) (i + 1) (-sign) m
        else signLoop size fuel str (i + 1) sign m
      else pure (str, sign)

/-- The loop over the digits. -/
def valLoop (size : Nat) : (fuel : Nat) → (str i : Nat) → (val : Int) → Buffer → C Int
  | 0, _, _, _, _ => .error .hang
  | fuel + 1, str, i, val, m => do
      let c ← charAt size (str + i) m
      if c ≥ 48 ∧ c ≤ 57 ∧ c ≠ 0 then
        let nbr := c.toInt - 48
        valLoop size fuel str (i + 1) (int32 (val * 10 + nbr)) m
      else pure val

def atoi (fuel size : Nat) (m : Buffer) : C Int := do
  let (str, sign) ← signLoop size fuel 0 0 1 m
  let val ← valLoop size fuel str 0 0 m
  pure (int32 (val * sign))

/-- The string at an offset. -/
def Text (m : Buffer) : Nat → List Int8 → Prop
  | o, [] => m o = 0
  | o, c :: l => c ≠ 0 ∧ m o = c ∧ Text m (o + 1) l

/-- How many `-` a walk meets that goes two characters on from a `-` and one from any other
character, if it ends on the NUL. -/
def walk : List Int8 → Option Nat
  | [] => some 0
  | [c] => if c = 45 then none else some 0
  | c :: d :: l => if c = 45 then (walk l).map (· + 1) else walk (d :: l)

/-- What the text stands for: a `-` that may lead, and the digits behind it. -/
def value (l : List Int8) : Int :=
  if l.head? = some 45 then -(leading l.tail : Int) else leading l

def Fits (x : Int) : Prop := -2147483648 ≤ x ∧ x ≤ 2147483647

/-- `atoi` reads nothing behind the NUL and returns what the text stands for, if that fits. -/
def Reads (m : Buffer) (l : List Int8) : Prop :=
  ∃ r, Yields (fun fuel => atoi fuel (l.length + 1) m) r ∧ (Fits (value l) → r = value l)

/-- The walk ends on the NUL, and it meets no `-` but one that leads; or those that it meets do not
matter to the number that begins behind as many characters. -/
def Harmless (l : List Int8) : Prop :=
  ∃ d, walk l = some d ∧ (d = 0 ∨ d = 1 ∧ l.head? = some 45 ∨ ¬ Fits (value l) ∨
    int32 ((-1) ^ d * leading (l.drop d)) = value l)

section
variable {m : Buffer} {size str i o : Nat} {sign val : Int} {l : List Int8}

theorem int32_mul (x y : Int) : int32 (int32 x * y) = int32 (x * y) := by
  have step : ∀ q, int32 (x - 4294967296 * q) = int32 x := by
    intro q
    unfold int32
    omega
  obtain ⟨q, hq⟩ : ∃ q, int32 x = x - 4294967296 * q := by
    refine ⟨(x + 2147483648) / 4294967296, ?_⟩
    unfold int32
    omega
  have same : int32 x * y = x * y - 4294967296 * (q * y) := by
    rw [hq, Int.sub_mul, Int.mul_assoc]
  rw [same]
  unfold int32
  omega

theorem charAt_text (text : Text m o l) (ends : o + l.length + 1 = size) :
    charAt size o m = .ok (l.headD 0) := by
  rw [charAt, if_pos (by omega)]
  cases l with
  | nil => exact congrArg Except.ok text
  | cons c l => exact congrArg Except.ok text.2.1

/-- One turn over the signs, at a character. -/
theorem signLoop_char {c : Int8} (text : Text m (str + i) (c :: l))
    (ends : str + i + (c :: l).length + 1 = size) (fuel : Nat) :
    signLoop size (fuel + 1) str i sign m =
      if c = 45 then signLoop size fuel (str + 1) (i + 1) (-sign) m
      else signLoop size fuel str (i + 1) sign m := by
  rw [signLoop, charAt_text text ends, ok_bind, List.headD_cons, if_pos text.1]

theorem signLoop_nul (text : Text m (str + i) []) (ends : str + i + 1 = size) :
    Yields (fun fuel => signLoop size fuel str i sign m) (str, sign) := by
  apply Yields.step (g := fun _ => .ok (str, sign)) (.of_ok rfl)
  · intro b h
    simp [signLoop] at h
  · intro fuel
    rw [signLoop, charAt_text text ends, ok_bind]
    rfl

theorem signLoop_next {c : Int8} {r : Nat × Int} (text : Text m (str + i) (c :: l))
    (ends : str + i + (c :: l).length + 1 = size) (other : c ≠ 45)
    (rest : Yields (fun fuel => signLoop size fuel str (i + 1) sign m) r) :
    Yields (fun fuel => signLoop size fuel str i sign m) r := by
  apply rest.step
  · intro b h
    simp [signLoop] at h
  · intro fuel
    rw [signLoop_char text ends, if_neg other]

theorem signLoop_minus {r : Nat × Int} (text : Text m (str + i) (45 :: l))
    (ends : str + i + (45 :: l).length + 1 = size)
    (rest : Yields (fun fuel => signLoop size fuel (str + 1) (i + 1) (-sign) m) r) :
    Yields (fun fuel => signLoop size fuel str i sign m) r := by
  apply rest.step
  · intro b h
    simp [signLoop] at h
  · intro fuel
    rw [signLoop_char text ends, if_pos rfl]

/-- The signs: as many as the walk meets. -/
theorem signLoop_yields {d : Nat} (text : Text m (str + i) l) (ends : str + i + l.length + 1 = size)
    (met : walk l = some d) :
    Yields (fun fuel => signLoop size fuel str i sign m) (str + d, (-1) ^ d * sign) := by
  induction l using walk.induct generalizing str i sign d with
  | case1 =>
    obtain rfl := Option.some.inj met
    simpa using signLoop_nul text ends
  | case2 =>
    simp [walk] at met
  | case3 c other =>
    rw [walk, if_neg other] at met
    obtain rfl := Option.some.inj met
    have last := @signLoop_nul m size str (i + 1) sign text.2.2 ends
    simpa using signLoop_next text ends other last
  | case4 c l ih =>
    rw [walk, if_pos rfl] at met
    obtain ⟨d, met', rfl⟩ := Option.map_eq_some_iff.mp met
    have rest := @ih (str + 1) (i + 1) (-sign) d
      (by rw [show str + 1 + (i + 1) = str + i + 1 + 1 by omega]; exact text.2.2.2.2)
      (by simp only [List.length_cons] at ends; omega) met'
    rw [show str + 1 + d = str + (d + 1) by omega,
      show (-1) ^ d * -sign = (-1) ^ (d + 1) * sign by rw [Int.pow_succ]; simp] at rest
    exact signLoop_minus text ends rest
  | case5 c d l other ih =>
    rw [walk, if_neg other] at met
    have rest := @ih str (i + 1) sign _ text.2.2
      (by simp only [List.length_cons] at ends ⊢; omega) met
    exact signLoop_next text ends other rest

theorem int32_step (v n : Int) : int32 (int32 v * 10 + n) = int32 (v * 10 + n) := by
  unfold int32
  omega

/-- The digits, up to the first other character. -/
theorem valLoop_yields (n : Nat) (text : Text m (str + i) l)
    (ends : str + i + l.length + 1 = size) :
    Yields (fun fuel => valLoop size fuel str i (int32 n) m)
      (int32 (((l.takeWhile isDigit).map fun c => (c.toInt - 48).toNat).foldl
        (fun n d => n * 10 + d) n : Nat)) := by
  induction l generalizing i n with
  | nil =>
    apply Yields.step (g := fun _ => .ok (int32 n)) (.of_ok rfl)
    · intro b h
      simp [valLoop] at h
    · intro fuel
      rw [valLoop, charAt_text text ends, ok_bind, if_neg (by decide)]
      rfl
  | cons c l ih =>
    by_cases digit : isDigit c = true
    · have bounds := isDigit_iff.mp digit
      have rest := ih (i := i + 1) (n * 10 + (c.toInt - 48).toNat) text.2.2
        (by simp only [List.length_cons] at ends; omega)
      have next : int32 (int32 n * 10 + (c.toInt - 48)) =
          int32 (n * 10 + (c.toInt - 48).toNat : Nat) := by
        rw [int32_step]
        congr 1
        omega
      rw [List.takeWhile_cons_of_pos digit, List.map_cons, List.foldl_cons]
      apply rest.step
      · intro b h
        simp [valLoop] at h
      · intro fuel
        have both : c ≥ 48 ∧ c ≤ 57 := by simpa [isDigit] using digit
        rw [valLoop, charAt_text text ends, ok_bind, List.headD_cons,
          if_pos ⟨both.1, both.2, text.1⟩]
        simp only [next]
    · rw [List.takeWhile_cons_of_neg digit]
      apply Yields.step (g := fun _ => .ok (int32 n)) (.of_ok rfl)
      · intro b h
        simp [valLoop] at h
      · intro fuel
        rw [valLoop, charAt_text text ends, ok_bind, List.headD_cons,
          if_neg fun h => digit (by simpa [isDigit] using And.intro h.1 h.2.1)]
        rfl

theorem walk_le {d : Nat} (met : walk l = some d) : d ≤ l.length := by
  induction l using walk.induct generalizing d with
  | case1 => simp_all [walk]
  | case2 => simp [walk] at met
  | case3 c other =>
    rw [walk, if_neg other] at met
    obtain rfl := Option.some.inj met
    exact Nat.zero_le _
  | case4 c l ih =>
    rw [walk, if_pos rfl] at met
    obtain ⟨d, met', rfl⟩ := Option.map_eq_some_iff.mp met
    have := ih met'
    simp only [List.length_cons]
    omega
  | case5 c d' l other ih =>
    rw [walk, if_neg other] at met
    have := ih met
    simp only [List.length_cons] at this ⊢
    omega

theorem Text.drop {k : Nat} (text : Text m o l) (le : k ≤ l.length) :
    Text m (o + k) (l.drop k) := by
  induction k generalizing o l with
  | zero => exact text
  | succ k ih =>
    cases l with
    | nil => cases le
    | cons c l =>
      rw [List.drop_succ_cons, show o + (k + 1) = o + 1 + k by omega]
      exact ih text.2.2 (Nat.le_of_succ_le_succ le)

theorem Text.unique {l' : List Int8} (text : Text m o l) (text' : Text m o l') : l = l' := by
  induction l generalizing o l' with
  | nil =>
    cases l' with
    | nil => rfl
    | cons c l' => exact absurd (text'.2.1.symm.trans text) text'.1
  | cons c l ih =>
    cases l' with
    | nil => exact absurd (text.2.1.symm.trans text') text.1
    | cons d l' => rw [← text.2.1, ← text'.2.1, ih text.2.2 text'.2.2]

/-- What `atoi` returns where its walk ends on the NUL. -/
theorem atoi_yields {d : Nat} (text : Text m 0 l) (met : walk l = some d) :
    Yields (fun fuel => atoi fuel (l.length + 1) m) (int32 ((-1) ^ d * leading (l.drop d))) := by
  have signs := @signLoop_yields m (l.length + 1) 0 0 1 l d text
    (show 0 + 0 + l.length + 1 = l.length + 1 by omega) met
  have digits := @valLoop_yields m (l.length + 1) d 0 (l.drop d) 0
    (by simpa using text.drop (walk_le met))
    (by rw [List.length_drop]; have := walk_le met; omega)
  have last : int32 (int32 (leading (l.drop d)) * (-1) ^ d) =
      int32 ((-1) ^ d * leading (l.drop d)) := by
    rw [int32_mul, Int.mul_comm]
  rw [← last]
  rw [Int.mul_one, Nat.zero_add] at signs
  refine signs.bind (k := fun fuel (str, sign) => do
    let val ← valLoop (l.length + 1) fuel str 0 0 m
    pure (int32 (val * sign))) ?_
  exact digits.bind (k := fun _ val => pure (int32 (val * (-1) ^ d))) (.of_ok rfl)

/-- Only a leading `-` is met first. -/
theorem walk_zero (met : walk l = some 0) : l.head? ≠ some 45 := by
  intro head
  cases l with
  | nil => cases head
  | cons c l =>
    obtain rfl := Option.some.inj head
    cases l with
    | nil => simp [walk] at met
    | cons d l =>
      rw [walk, if_pos rfl] at met
      obtain ⟨d, -, h⟩ := Option.map_eq_some_iff.mp met
      omega

theorem Harmless.reads (harmless : Harmless l) (text : Text m 0 l) : Reads m l := by
  obtain ⟨d, met, harmless⟩ := harmless
  refine ⟨_, atoi_yields text met, fun fits => ?_⟩
  rcases harmless with rfl | ⟨rfl, head⟩ | big | same
  · have plain : value l = leading l := if_neg (walk_zero met)
    rw [plain] at fits ⊢
    simpa using int32_of_range fits.1 fits.2
  · have minus : value l = -(leading l.tail : Int) := if_pos head
    rw [minus] at fits ⊢
    rw [List.drop_one]
    simpa using int32_of_range fits.1 fits.2
  · exact absurd fits big
  · exact same

end

end BottlerOS.TextInt
