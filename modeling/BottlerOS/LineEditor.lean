import BottlerOS.ShellWords
import BottlerOS.Library.Yields

/-! `scanfNoPrint` and the loop of `shell`. What `processInput` does to the memory does not matter
here: it is any function. -/

namespace BottlerOS.LineEditor
open Machine Shell ShellWords Yields

/-- `scanfNoPrint` on what `getChar` returns, from its index `i` on: the index it returns, the
memory, what it has echoed and what it has left. It waits where the values end. -/
def scanfNoPrint : List Int8 → (i : Nat) → (echo : List Int8) → Mem →
    Option (Nat × Mem × List Int8 × List Int8)
  | [], _, _, _ => none
  | c :: keys, i, echo, m =>
      if c ≠ 10 ∧ i < SIZE - 1 then
        if c ≠ -1 then
          if c = 8 ∧ i > 0 then
            scanfNoPrint keys (i - 1) (echo ++ [8]) (m.store (.byte (i - 1) 32))
          else if c ≠ 0 ∧ c ≠ 8 then
            scanfNoPrint keys (i + 1) (echo ++ [c]) (m.store (.byte i c))
          else scanfNoPrint keys i echo m
        else scanfNoPrint keys i echo m
      else some (i, m.store (.byte i 0), echo, keys)

inductive End where
  | waiting
  | returned
  deriving DecidableEq

/-- `shell`: the lines it has passed to `processInput`, and whether its loop has ended. -/
def shell (processInput : Mem → Mem) : (fuel : Nat) → List Int8 → Mem →
    C (List (List Int8) × End)
  | 0, _, _ => .error .hang
  | fuel + 1, keys, m =>
      match scanfNoPrint keys 0 [] m with
      | none => pure ([], .waiting)
      | some (n, m, _, keys) =>
          if n ≠ 0 then do
            let (lines, ends) ← shell processInput fuel keys (processInput m)
            pure (m.line :: lines, ends)
          else pure ([], .returned)

/-- One key of the line editor. -/
def press (line : List Int8) (c : Int8) : List Int8 :=
  if c = 8 then line.dropLast else if c = 0 ∨ c = -1 then line else line ++ [c]

def edit (keys : List Int8) : List Int8 := keys.foldl press []

/-- The keys of a line whose edited text never exceeds 98 characters. -/
def Typed (keys : List Int8) : Prop :=
  10 ∉ keys ∧ ∀ k, (edit (keys.take k)).length ≤ 98

/-- The characters of a line are the first ones of the buffer. -/
structure Shows (m : Mem) (line : List Int8) : Prop where
  chars : ∀ (j : Nat) (h : j < line.length), m.buffer j = (line)[j]
  plain : 0 ∉ line

/-- All stores were to the line buffer. -/
def Inside (m m' : Mem) : Prop :=
  ∃ sts : List Store, m'.log = m.log ++ sts ∧ ∀ st ∈ sts, ∃ o b, o < SIZE ∧ st = .byte o b

section
variable {m m' m'' : Mem} {line keys rest echo : List Int8} {c : Int8} {o : Nat} {b : Int8}

theorem Inside.refl (m : Mem) : Inside m m := ⟨[], by simp, by simp⟩

theorem Inside.store (inside : Inside (m.store (.byte o b)) m') (lt : o < SIZE) : Inside m m' := by
  obtain ⟨sts, log, all⟩ := inside
  refine ⟨.byte o b :: sts, by rw [log]; simp, ?_⟩
  simp only [List.forall_mem_cons]
  exact ⟨⟨o, b, lt, rfl⟩, all⟩

theorem Shows.push (there : Shows m line) (plain : c ≠ 0) :
    Shows (m.store (.byte line.length c)) (line ++ [c]) := by
  constructor
  · intro j h
    rw [store_byte, List.getElem_append]
    by_cases old : j < line.length
    · rw [dif_pos old, Function.update_of_ne (by omega), there.chars j old]
    · have last : j = line.length := by
        simp only [List.length_append, List.length_singleton] at h
        omega
      subst last
      simp
  · simp [there.plain, plain.symm]

theorem Shows.pop (there : Shows m line) :
    Shows (m.store (.byte (line.length - 1) 32)) line.dropLast := by
  constructor
  · intro j h
    rw [List.length_dropLast] at h
    rw [store_byte, Function.update_of_ne (by omega), List.getElem_dropLast,
      there.chars j (by omega)]
  · intro nul
    exact there.plain ((List.dropLast_sublist line).subset nul)

theorem Shows.holds (there : Shows m line) (short : line.length < SIZE) :
    Holds (m.store (.byte line.length 0)) 0 line := by
  suffices all : ∀ (rest front : List Int8), line = front ++ rest →
      Holds (m.store (.byte line.length 0)) front.length rest from all line [] rfl
  intro rest
  induction rest with
  | nil =>
    intro front split
    rw [List.append_nil] at split
    subst split
    exact ⟨short, by rw [store_byte, Function.update_self]⟩
  | cons c rest ih =>
    intro front split
    have size : line.length = front.length + (rest.length + 1) := by
      rw [split, List.length_append, List.length_cons]
    have here := there.chars front.length (by omega)
    refine ⟨fun zero => there.plain (by rw [split, zero]; simp), ?_, ?_⟩
    · rw [store_byte, Function.update_of_ne (by omega), here]
      simp [split]
    · have := ih (front ++ [c]) (by simp [split])
      rwa [List.length_append] at this

theorem Inside.trans (inside : Inside m m') (inside' : Inside m' m'') : Inside m m'' := by
  obtain ⟨sts, log, all⟩ := inside
  obtain ⟨sts', log', all'⟩ := inside'
  refine ⟨sts ++ sts', by rw [log', log, List.append_assoc], fun st hs => ?_⟩
  rcases List.mem_append.mp hs with hs | hs
  · exact all st hs
  · exact all' st hs

/-- One key, in front of the others. -/
theorem scanf_press (there : Shows m line) (other : c ≠ 10) (short : line.length ≤ 98) :
    ∃ echo' m', scanfNoPrint (c :: keys) line.length echo m =
        scanfNoPrint keys (press line c).length echo' m' ∧
      Shows m' (press line c) ∧ Inside m m' := by
  rw [scanfNoPrint, if_pos ⟨other, by unfold SIZE; omega⟩]
  by_cases eof : c = -1
  · subst eof
    exact ⟨echo, m, rfl, there, .refl m⟩
  · rw [if_pos eof]
    by_cases back : c = 8
    · subst back
      by_cases some : line.length > 0
      · rw [if_pos ⟨rfl, some⟩]
        refine ⟨echo ++ [8], m.store (.byte (line.length - 1) 32), ?_, there.pop,
          (Inside.refl _).store (by unfold SIZE; omega)⟩
        rw [press, if_pos rfl, List.length_dropLast]
      · obtain rfl : line = [] := List.length_eq_zero_iff.mp (by omega)
        exact ⟨echo, m, rfl, there, .refl m⟩
    · rw [if_neg fun h => back h.1]
      by_cases nul : c = 0
      · subst nul
        exact ⟨echo, m, rfl, there, .refl m⟩
      · have pressed : press line c = line ++ [c] := by
          rw [press, if_neg back, if_neg (by simp [nul, eof])]
        rw [if_pos ⟨nul, back⟩, pressed]
        refine ⟨echo ++ [c], m.store (.byte line.length c), ?_, there.push nul,
          (Inside.refl _).store (by unfold SIZE; omega)⟩
        rw [List.length_append, List.length_singleton]

theorem scanf_keys (there : Shows m line) (plain : 10 ∉ keys)
    (short : ∀ k, ((keys.take k).foldl press line).length ≤ 98) :
    ∃ echo' m', scanfNoPrint (keys ++ rest) line.length echo m =
        scanfNoPrint rest (keys.foldl press line).length echo' m' ∧
      Shows m' (keys.foldl press line) ∧ Inside m m' := by
  induction keys generalizing line echo m with
  | nil => exact ⟨echo, m, rfl, there, .refl m⟩
  | cons c keys ih =>
    obtain ⟨other, plain⟩ := not_or.mp (List.mem_cons.not.mp plain)
    obtain ⟨echo₁, m₁, first, there₁, inside₁⟩ := scanf_press
      there (Ne.symm other) (short 0)
    obtain ⟨echo₂, m₂, others, there₂, inside₂⟩ := ih there₁ plain
      fun k => short (k + 1)
    exact ⟨echo₂, m₂, first.trans others, there₂, inside₁.trans inside₂⟩

/-- A whole line. -/
theorem scanf_line (typed : Typed keys) (m : Mem) (rest : List Int8) :
    ∃ echo m', scanfNoPrint (keys ++ 10 :: rest) 0 [] m =
      some ((edit keys).length, m', echo, rest) ∧
      Holds m' 0 (edit keys) ∧ Inside m m' := by
  have nothing : Shows m [] := ⟨fun j h => absurd h (Nat.not_lt_zero j), by simp⟩
  obtain ⟨echo, m₁, types, there, inside⟩ := scanf_keys nothing
    typed.1 typed.2
  have whole := typed.2 keys.length
  rw [List.take_length] at whole
  have short : (edit keys).length < SIZE := by
    unfold SIZE
    omega
  refine ⟨echo, _, types.trans ?_, there.holds short, inside.trans ((Inside.refl _).store short)⟩
  rw [scanfNoPrint, if_neg (by simp)]
  rfl

end

/-- The keys of lines, each with its new line. -/
def keysOf (lines : List (List Int8)) : List Int8 := lines.flatMap fun keys => keys ++ [10]

theorem shell_turn (processInput : Mem → Mem) {keys : List Int8} (typed : Typed keys)
    (lines : List (List Int8)) (m : Mem) :
    ∃ m', m'.line = edit keys ∧ ∀ fuel, shell processInput (fuel + 1) (keysOf (keys :: lines)) m =
      if edit keys ≠ [] then do
        let (passed, ends) ← shell processInput fuel (keysOf lines) (processInput m')
        pure (m'.line :: passed, ends)
      else pure ([], .returned) := by
  obtain ⟨echo, m', types, holds, -⟩ := scanf_line typed m (keysOf lines)
  have split : keysOf (keys :: lines) = keys ++ 10 :: keysOf lines := by
    rw [keysOf, List.flatMap_cons, List.append_assoc]
    rfl
  refine ⟨m', holds.line, fun fuel => ?_⟩
  rw [shell, split, types]
  by_cases empty : edit keys = []
  · simp [empty]
  · have pos : (edit keys).length ≠ 0 := fun h => empty (List.length_eq_zero_iff.mp h)
    rw [if_pos empty]
    exact if_pos pos

theorem shell_passes (processInput : Mem → Mem) {lines : List (List Int8)} (m : Mem)
    (typed : ∀ keys ∈ lines, Typed keys) (full : ∀ keys ∈ lines, edit keys ≠ []) :
    Yields (fun fuel => shell processInput fuel (keysOf lines) m) (lines.map edit, .waiting) := by
  induction lines generalizing m with
  | nil =>
    apply Yields.step (g := fun _ => .ok ([], .waiting)) (.of_ok rfl)
    · intro b h
      simp [shell] at h
    · intro fuel
      rfl
  | cons keys lines ih =>
    rw [List.forall_mem_cons] at typed full
    obtain ⟨m', line, turn⟩ := shell_turn processInput typed.1 lines m
    have rest := (ih (processInput m') typed.2 full.2).bind
      (k := fun _ (passed, ends) => pure (m'.line :: passed, ends))
      (b := (edit keys :: lines.map edit, .waiting)) (.of_ok (by rw [line]; rfl))
    apply rest.step
    · intro b h
      simp [shell] at h
    · intro fuel
      rw [turn, if_pos full.1]

/-- A line that is empty after editing ends the shell. -/
theorem shell_returns (processInput : Mem → Mem) {lines : List (List Int8)} (m : Mem)
    (typed : ∀ keys ∈ lines, Typed keys) (empty : ∃ keys ∈ lines, edit keys = []) :
    ∃ passed,
      Yields (fun fuel => shell processInput fuel (keysOf lines) m) (passed, .returned) := by
  induction lines generalizing m with
  | nil => simp at empty
  | cons keys lines ih =>
    rw [List.forall_mem_cons] at typed
    obtain ⟨m', line, turn⟩ := shell_turn processInput typed.1 lines m
    by_cases here : edit keys = []
    · refine ⟨[], ?_⟩
      apply Yields.step (g := fun _ => .ok ([], .returned)) (.of_ok rfl)
      · intro b h
        simp [shell] at h
      · intro fuel
        rw [turn, if_neg (not_not.mpr here)]
        rfl
    · have later : ∃ keys ∈ lines, edit keys = [] := by
        simpa [here] using empty
      obtain ⟨passed, rest⟩ := ih (processInput m') typed.2 later
      refine ⟨m'.line :: passed, ?_⟩
      apply (rest.bind (k := fun _ (passed, ends) => pure (m'.line :: passed, ends))
        (.of_ok rfl)).step
      · intro b h
        simp [shell] at h
      · intro fuel
        rw [turn, if_pos here]

/-- `scanfNoPrint` stores the edited line of any keys, and `shell` passes every line on and goes on
waiting exactly if none of them is empty. -/
theorem shell_edits_iff (processInput : Mem → Mem) (lines : List (List Int8)) (m : Mem)
    (typed : ∀ keys ∈ lines, Typed keys) :
    (∀ keys ∈ lines, ∀ (m : Mem) (rest : List Int8), ∃ echo m',
      scanfNoPrint (keys ++ 10 :: rest) 0 [] m = some ((edit keys).length, m', echo, rest) ∧
      Holds m' 0 (edit keys) ∧ Inside m m') ∧
    (Yields (fun fuel => shell processInput fuel (keysOf lines) m) (lines.map edit, .waiting) ↔
      ∀ keys ∈ lines, edit keys ≠ []) := by
  refine ⟨fun keys hk m rest => scanf_line (typed keys hk) m rest, fun waits => ?_,
    shell_passes processInput m typed⟩
  by_contra none
  obtain ⟨passed, returns⟩ := shell_returns processInput m typed (by simpa using none)
  obtain ⟨fuel, run⟩ := waits.exists
  cases returns.eq run

/-- `a`, a backspace and `b`. -/
theorem shell_edits_iff_b :
    (∀ keys ∈ [[97, 8, 98]], ∀ (m : Mem) (rest : List Int8), ∃ echo m',
      scanfNoPrint (keys ++ 10 :: rest) 0 [] m = some ((edit keys).length, m', echo, rest) ∧
      Holds m' 0 (edit keys) ∧ Inside m m') ∧
    (Yields (fun fuel => shell id fuel (keysOf [[97, 8, 98]]) ⟨0, fun _ => 0, fun _ => 0, []⟩)
      ([[97, 8, 98]].map edit, .waiting) ↔ ∀ keys ∈ [[97, 8, 98]], edit keys ≠ []) := by
  refine shell_edits_iff id [[97, 8, 98]] ⟨0, fun _ => 0, fun _ => 0, []⟩ fun keys hk => ?_
  obtain rfl := List.mem_singleton.mp hk
  refine ⟨by decide, fun k => ?_⟩
  match k with
  | 0 => decide
  | 1 => decide
  | 2 => decide
  | k + 3 => simp [edit, press]

/-- An empty line ends the shell. -/
theorem empty_line_returns : ¬ ∀ (processInput : Mem → Mem) (lines : List (List Int8)) (m : Mem),
    (∀ keys ∈ lines, Typed keys) →
    Yields (fun fuel => shell processInput fuel (keysOf lines) m) (lines.map edit, .waiting) := by
  intro always
  have typed : ∀ keys ∈ [([] : List Int8)], Typed keys := by
    simp [Typed, edit]
  have waits := always id [[]] ⟨0, fun _ => 0, fun _ => 0, []⟩ typed
  obtain ⟨passed, returns⟩ := shell_returns id ⟨0, fun _ => 0, fun _ => 0, []⟩ typed
    ⟨[], List.mem_cons_self, rfl⟩
  obtain ⟨fuel, run⟩ := waits.exists
  cases returns.eq run

end BottlerOS.LineEditor
