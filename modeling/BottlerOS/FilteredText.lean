import BottlerOS.TextFilters

/-! What `cat` and `filter` print: the buffer is the list of the characters that it holds. -/

namespace BottlerOS.FilteredText
open TextFilters
open Machine (INT_MAX)

variable {b : Buffer} {s : Loop} {t l line keys : List Int8} {c : Int8} {piped : Bool}
  {a d m fuel : Nat} {p i len : Int} {e : List (List Int8)}

/-- The loop has `t` in its buffer; the line began at `a`, and `m` characters ago. -/
structure Shows (s : Loop) (t : List Int8) (a m : Nat) : Prop where
  cells : ∀ k : Nat, s.buffer k = t.getD k 0
  i : s.i = t.length
  j : s.j = m
  line : s.line = a

theorem store_cells (cells : ∀ k : Nat, b k = t.getD k 0) (room : t.length < 1000) :
    ∃ b', store t.length c b = some b' ∧ ∀ k : Nat, b' k = (t ++ [c]).getD k 0 := by
  refine ⟨_, if_pos ⟨by omega, by unfold SIZE; omega⟩, fun k => ?_⟩
  rcases lt_trichotomy k t.length with before | rfl | after
  · rw [Function.update_of_ne (by omega), List.getD_append _ _ _ _ before]
    exact cells k
  · rw [Function.update_self, List.getD_append_right _ _ _ _ le_rfl, Nat.sub_self]
    rfl
  · rw [Function.update_of_ne (by omega), cells k, List.getD_eq_default _ _ (by omega),
      List.getD_eq_default _ _ (by simp; omega)]

theorem push_shows (h : Shows s t a m) (room : t.length < 1000) (more : m < INT_MAX) :
    ∃ s', push c s = some s' ∧ Shows s' (t ++ [c]) a (m + 1) := by
  obtain ⟨b, stored, cells⟩ := store_cells (c := c) h.cells room
  have counted : incr s.j = some (m + 1) := by
    rw [h.j]
    exact if_pos more
  refine ⟨{ s with buffer := b, i := s.i + 1, j := m + 1 }, ?_, cells, ?_, rfl, h.line⟩
  · rw [push, h.i, stored, counted]
    rfl
  · change s.i + 1 = _
    rw [h.i, List.length_append]
    rfl

theorem load_first (cells : ∀ k : Nat, b (p + k) = l.getD k 0) (low : 0 ≤ p) (inside : p < SIZE) :
    load p b = some (l.getD 0 0) := by
  have first := cells 0
  rw [Int.natCast_zero, Int.add_zero] at first
  rw [load, if_pos ⟨low, inside⟩, first]

theorem cells_next (cells : ∀ k : Nat, b (p + k) = (c :: l).getD k 0) (k : Nat) :
    b (p + 1 + k) = l.getD k 0 := by
  have next := cells (k + 1)
  rwa [Int.natCast_add, Int.natCast_one, Int.add_comm k, ← Int.add_assoc,
    List.getD_cons_succ] at next

/-- The string at `p` is `l`, which ends in front of a NUL, or at the mark where a terminal
stops. -/
theorem taken_text (cells : ∀ k : Nat, b (p + k) = l.getD k 0) (low : 0 ≤ p)
    (full : ∀ c ∈ l, c ≠ 0)
    (room : p + l.length < SIZE ∨
      piped = false ∧ l.getLast? = some (-1) ∧ p + l.length ≤ SIZE)
    (limit : i + l.length ≤ len + 1) (enough : l.length < fuel) :
    ∃ piece, taken piped b len fuel p i = some piece ∧ text piece = text l := by
  induction l generalizing p i fuel with
  | nil =>
    cases fuel with
    | zero => cases enough
    | succ fuel =>
      have inside : p < SIZE := by simpa using room
      refine ⟨[], ?_, rfl⟩
      rw [taken, load_first cells low inside]
      rfl
  | cons c l ih =>
    rw [List.length_cons] at room limit enough
    cases fuel with
    | zero => cases enough
    | succ fuel =>
      have inside : p < SIZE := by omega
      have go : c ≠ 0 ∧ i ≤ len := ⟨full c List.mem_cons_self, by omega⟩
      rw [taken, load_first cells low inside, List.getD_cons_zero]
      change ∃ piece, (if c ≠ 0 ∧ i ≤ len then _ else _) = _ ∧ _
      rw [if_pos go]
      by_cases stops : c = -1 ∧ piped = false
      · rw [if_pos stops, stops.1]
        exact ⟨[], rfl, rfl⟩
      · rw [if_neg stops]
        have rest : p + 1 + l.length < SIZE ∨
            piped = false ∧ l.getLast? = some (-1) ∧ p + 1 + l.length ≤ SIZE := by
          rcases room with room | ⟨terminal, last, room⟩
          · exact .inl (by omega)
          · cases l with
            | nil => exact absurd ⟨Option.some.inj last, terminal⟩ stops
            | cons c' l => exact .inr ⟨terminal, last, by omega⟩
        have next : ∃ piece, taken piped b len fuel (p + 1) (i + 1) = some piece ∧
            text piece = text l :=
          ih (cells_next cells) (by omega) (fun c hc => full c (List.mem_cons_of_mem _ hc)) rest
            (by omega) (by omega)
        obtain ⟨piece, run, same⟩ := next
        refine ⟨c :: piece, ?_, ?_⟩
        · rw [run]
          rfl
        · rw [text, text, List.takeWhile_cons, List.takeWhile_cons]
          rw [text, text] at same
          rw [same]

theorem ne_zero (positive : 0 < c) : c ≠ 0 := by
  rintro rfl
  exact absurd positive (by decide)

theorem ne_mark (positive : 0 < c) : c ≠ -1 := by
  rintro rfl
  exact absurd positive (by decide)

theorem text_eq (positive : ∀ c ∈ l, 0 < c) : text l = l :=
  List.takeWhile_eq_self_iff.mpr fun c hc => decide_eq_true (ne_mark (positive c hc))

/-- There is room for one more character in the buffer. -/
structure Ready (s : Loop) (t : List Int8) (a m : Nat) : Prop extends Shows s t a m where
  room : t.length < 1000
  start : a < 1000
  positive : ∀ c ∈ t, 0 < c
  short : (t.drop a).length ≤ m

theorem Shows.from_start (h : Shows s t a m) (k : Nat) :
    s.buffer (s.line + k) = (t.drop a).getD k 0 := by
  have cell := h.cells (a + k)
  rw [Int.natCast_add, ← h.line] at cell
  rw [cell, List.getD_eq_getElem?_getD, List.getD_eq_getElem?_getD, List.getElem?_drop]

theorem Ready.printed (h : Ready s t a m) :
    ∃ piece, printStringLen piped s = some piece ∧ text piece = t.drop a := by
  have positive : ∀ c ∈ t.drop a, 0 < c := fun c hc => h.positive c (List.mem_of_mem_drop hc)
  have room := h.room
  have start := h.start
  have short := h.short
  rw [List.length_drop] at short
  have taken : ∃ piece, taken piped s.buffer s.j 1001 s.line 0 = some piece ∧
      text piece = text (t.drop a) := taken_text h.from_start
    (by rw [h.line]; omega) (fun c hc => ne_zero (positive c hc))
    (.inl (by rw [h.line, List.length_drop]; unfold SIZE; omega))
    (by rw [h.j, List.length_drop]; omega) (by rw [List.length_drop]; omega)
  rwa [text_eq positive] at taken

theorem drop_push (c : Int8) : (t ++ [c]).drop a = t.drop a ++ [c].drop (a - t.length) :=
  List.drop_append

theorem Ready.marked_ne_zero (h : Ready s t a m) : ∀ c ∈ (t ++ [-1]).drop a, c ≠ 0 := by
  intro c hc
  rcases List.mem_append.mp (List.mem_of_mem_drop hc) with hc | hc
  · exact ne_zero (h.positive c hc)
  · rw [List.mem_singleton.mp hc]
    decide

/-- The end of the input is marked behind the text. -/
theorem Ready.finished (h : Ready s t a m) (more : m < INT_MAX)
    (fits : t.length < if piped then 999 else 1000) :
    ∃ piece, finish piped (-1) s = some [piece, [10]] ∧ text piece = t.drop a := by
  obtain ⟨s', pushed, h'⟩ := push_shows (c := -1) h.toShows h.room more
  have positive : ∀ c ∈ t.drop a, 0 < c := fun c hc => h.positive c (List.mem_of_mem_drop hc)
  have short := h.short
  have room := h.room
  have start := h.start
  rw [List.length_drop] at short
  have length : ((t ++ [-1]).drop a).length = t.length + 1 - a := by
    rw [List.length_drop, List.length_append, List.length_singleton]
  have taken : ∃ piece, taken piped s'.buffer s'.j 1001 s'.line 0 = some piece ∧
      text piece = text ((t ++ [-1]).drop a) := taken_text h'.from_start
    (by rw [h'.line]; omega) h.marked_ne_zero
    (by
      rw [h'.line, length]
      by_cases behind : t.length < a
      · exact .inl (by unfold SIZE; omega)
      · cases piped with
        | true => exact .inl (by rw [if_pos rfl] at fits; unfold SIZE; omega)
        | false =>
          refine .inr ⟨rfl, ?_, by unfold SIZE; omega⟩
          rw [drop_push, Nat.sub_eq_zero_of_le (Nat.le_of_not_lt behind)]
          exact List.getLast?_concat)
    (by rw [h'.j, length]; omega) (by rw [length]; omega)
  obtain ⟨piece, run, printed⟩ := taken
  refine ⟨piece, ?_, ?_⟩
  · rw [finish, pushed]
    change (printStringLen piped s' >>= fun piece => some [piece, [10]]) = _
    rw [printStringLen, run]
    rfl
  · rw [printed, drop_push]
    by_cases behind : t.length < a
    · have none : [(-1 : Int8)].drop (a - t.length) = [] :=
        List.drop_eq_nil_of_le (by rw [List.length_singleton]; omega)
      rw [none, List.append_nil]
      exact text_eq positive
    · rw [Nat.sub_eq_zero_of_le (Nat.le_of_not_lt behind), text,
        List.takeWhile_append_of_pos fun c hc => decide_eq_true (ne_mark (positive c hc))]
      exact List.append_nil _

theorem Ready.pushed (h : Ready s t a m) (more : m < INT_MAX) (room : t.length < 999)
    (positive : 0 < c) : ∃ s', push c s = some s' ∧ Ready s' (t ++ [c]) a (m + 1) := by
  obtain ⟨s', run, h'⟩ := push_shows (c := c) h.toShows h.room more
  refine ⟨s', run, h', ?_, h.start, ?_, ?_⟩
  · rw [List.length_append, List.length_singleton]
    omega
  · intro x hx
    rcases List.mem_append.mp hx with hx | hx
    · exact h.positive x hx
    · rwa [List.mem_singleton.mp hx]
  · have short := h.short
    rw [List.length_drop] at short ⊢
    rw [List.length_append, List.length_singleton]
    omega

section
variable {turn : Int8 → Loop → Option (List (List Int8) × Loop)} {s' : Loop}

end

/-- The line that is being typed lies `d` places before `buffer + a`. -/
structure Cut (t line : List Int8) (a d : Nat) : Prop where
  drop : t.drop a = line.drop d
  length : t.length + d = a + line.length

theorem Cut.push (cut : Cut t line a d) (c : Int8) : Cut (t ++ [c]) (line ++ [c]) a d where
  drop := by
    have length := cut.length
    rw [List.drop_append, List.drop_append, cut.drop]
    congr 2
    omega
  length := by
    have length := cut.length
    rw [List.length_append, List.length_append, List.length_singleton]
    omega

theorem Cut.back (cut : Cut (t ++ [c]) line a d) :
    Cut t line.dropLast a (if line = [] then d + 1 else d) := by
  have drop := cut.drop
  have length := cut.length
  rw [List.length_append, List.length_singleton] at length
  by_cases empty : line = []
  · subst empty
    rw [if_pos rfl]
    rw [List.length_nil] at length
    constructor
    · rw [List.dropLast_nil, List.drop_nil]
      exact List.drop_eq_nil_of_le (by omega)
    · rw [List.dropLast_nil, List.length_nil]
      omega
  · have split := List.dropLast_concat_getLast empty
    rw [if_neg empty]
    rw [← split] at drop length
    rw [List.length_append, List.length_singleton] at length
    refine ⟨?_, by omega⟩
    by_cases behind : t.length < a
    · rw [List.drop_eq_nil_of_le (by omega), List.drop_eq_nil_of_le (by omega)]
    · rw [List.drop_append_of_le_length (by omega),
        List.drop_append_of_le_length (by omega)] at drop
      exact (List.append_inj' drop rfl).1

theorem consonants_vowel (vowel : isVocal c) : consonants (line ++ [c]) = consonants line := by
  simp [consonants, vowel]

theorem consonants_push (consonant : ¬ isVocal c) :
    consonants (line ++ [c]) = consonants line ++ [c] := by
  simp [consonants, consonant]

/-- The buffer holds the line without its vowels, or more. -/
def Held (t line : List Int8) (a : Nat) : Prop :=
  t.drop a = consonants line ∨ (consonants line).length < (t.drop a).length

theorem Held.push (held : Held t line a) (start : a ≤ t.length) (consonant : ¬ isVocal c) :
    Held (t ++ [c]) (line ++ [c]) a := by
  rw [Held, consonants_push consonant, List.drop_append_of_le_length start, List.length_append,
    List.length_append]
  rcases held with same | longer
  · exact .inl (by rw [same])
  · exact .inr (by omega)

/-- A backspace takes from the text what was in it. -/
theorem Held.back (held : Held t line a) :
    Held t line.dropLast a ∧ (t.drop a = consonants line.dropLast ↔
      t.drop a = consonants line ∧ ∀ x ∈ line.getLast?, isVocal x) := by
  rcases line.eq_nil_or_concat with rfl | ⟨line, x, rfl⟩
  · exact ⟨held, by simp⟩
  · rw [List.concat_eq_append] at *
    rw [List.dropLast_concat, List.getLast?_concat]
    by_cases vowel : isVocal x
    · rw [Held, consonants_vowel vowel] at held
      rw [consonants_vowel vowel]
      exact ⟨held, by simp [vowel]⟩
    · rw [Held, consonants_push vowel] at held
      have longer : (consonants line).length < (t.drop a).length := by
        rcases held with same | longer
        · rw [same, List.length_append]
          exact Nat.lt_succ_self _
        · rw [List.length_append] at longer
          omega
      refine ⟨.inr longer, ?_⟩
      constructor
      · intro same
        rw [same] at longer
        exact absurd longer (Nat.lt_irrefl _)
      · exact fun both => absurd (both.2 x rfl) vowel

end BottlerOS.FilteredText
