import Mathlib.Logic.Function.Basic
import BottlerOS.Library.TextGrid

/-! Text wrapped at `w` columns, and the last `h` of its rows on a grid. -/

namespace BottlerOS.WrappedText
open TextGrid

section
variable {α : Type}

/-- The rows of a line; behind a full row there is always one more. -/
def rows (w : Nat) (line : List α) : List (List α) :=
  (List.range (line.length / w + 1)).map fun k => (line.drop (k * w)).take w

def wrap [BEq α] (w : Nat) (newline : α) (text : List α) : List (List α) :=
  (text.splitOn newline).flatMap (rows w)

/-- The cells of the last `h` rows, blank where there is no text. -/
def view {w h : Nat} (blank : α) (R : List (List α)) (c : Cell w h) : α :=
  ((R.drop (R.length - h))[c.y]?.getD [])[c.x]?.getD blank

/-- One row up. -/
def scroll {w h : Nat} (blank : α) (g : Cell w h → α) (c : Cell w h) : α :=
  if low : c.y + 1 < h then g { c with y := c.y + 1, row := low } else blank

/-- The cursor behind the last of the rows. -/
def Behind {w h : Nat} (R : List (List α)) (c : Cell w h) : Prop :=
  c.y = min (R.length - 1) (h - 1) ∧ ∃ init last, R = init ++ [last] ∧ c.x = last.length

/-- A grid with a cursor. -/
structure Page (α : Type) (w h : Nat) where
  cells : Cell w h → α
  cursor : Cell w h

namespace Page
variable {w h : Nat}

def newLine (blank : α) (p : Page α w h) : Page α w h where
  cells := if p.cursor.y + 1 < h then p.cells else scroll blank p.cells
  cursor := p.cursor.newLine

/-- A glyph at the cursor; a full row ends at once. -/
def glyph [DecidableEq (Cell w h)] (blank b : α) (p : Page α w h) : Page α w h :=
  let cells := Function.update p.cells p.cursor b
  if p.cursor.x + 1 < w then { cells := cells, cursor := p.cursor.advance }
  else newLine blank { p with cells := cells }

def type [DecidableEq α] (blank newline : α) (p : Page α w h) (b : α) : Page α w h :=
  if b = newline then newLine blank p else glyph blank b p

/-- The page shows the end of the text, with the cursor behind it. -/
def Shows [BEq α] (blank newline : α) (text : List α) (p : Page α w h) : Prop :=
  p.cells = view blank (wrap w newline text) ∧ Behind (wrap w newline text) p.cursor

end Page

/-! The rows of a text with one more character. -/

theorem chunk_append {w k : Nat} {line : List α} (full : (k + 1) * w ≤ line.length)
    (rest : List α) :
    ((line ++ rest).drop (k * w)).take w = (line.drop (k * w)).take w := by
  rw [Nat.succ_mul] at full
  rw [List.drop_append_of_le_length (by omega), List.take_append_of_le_length]
  rw [List.length_drop]
  omega

/-- The rows of a line with one more character: only the last one changes, and may become full. -/
theorem rows_snoc {w : Nat} (pos : 0 < w) (line : List α) (b : α) : ∃ init last,
    rows w line = init ++ [last] ∧ last.length < w ∧
      rows w (line ++ [b]) =
        if last.length + 1 = w then init ++ [last ++ [b], []] else init ++ [last ++ [b]] := by
  obtain ⟨q, hq⟩ : ∃ q, line.length / w = q := ⟨_, rfl⟩
  have euclid : q * w + line.length % w = line.length := by
    rw [← hq, Nat.mul_comm]
    exact Nat.div_add_mod line.length w
  have small := Nat.mod_lt line.length pos
  have length : (line.drop (q * w)).length = line.length % w := by
    rw [List.length_drop]
    omega
  have same : (List.range q).map (fun k => ((line ++ [b]).drop (k * w)).take w) =
      (List.range q).map fun k => (line.drop (k * w)).take w := by
    refine List.map_congr_left fun k hk => chunk_append ?_ [b]
    have := Nat.mul_le_mul_right w (List.mem_range.mp hk)
    simp only [Nat.succ_eq_add_one] at this
    omega
  have tail : ((line ++ [b]).drop (q * w)).take w = line.drop (q * w) ++ [b] := by
    rw [List.drop_append_of_le_length (by omega), List.take_of_length_le]
    rw [List.length_append, length, List.length_singleton]
    omega
  refine ⟨(List.range q).map fun k => (line.drop (k * w)).take w, line.drop (q * w), ?_, ?_, ?_⟩
  · rw [rows, hq, List.range_succ, List.map_append, List.map_singleton, List.take_of_length_le]
    omega
  · omega
  · rw [rows, List.length_append, List.length_singleton, length]
    split <;> rename_i full
    · have next : (line.length + 1) / w = q + 1 := by
        refine Nat.div_eq_of_lt_le ?_ ?_ <;> simp only [Nat.succ_mul] <;> omega
      have past : (line ++ [b]).drop ((q + 1) * w) = [] := by
        rw [List.drop_eq_nil_iff, List.length_append, List.length_singleton, Nat.succ_mul]
        omega
      rw [next, List.range_succ, List.map_append, List.range_succ, List.map_append, same,
        List.map_singleton, List.map_singleton, tail, past, List.take_nil, List.append_assoc]
      rfl
    · have next : (line.length + 1) / w = q := by
        refine Nat.div_eq_of_lt_le ?_ ?_
        · omega
        · rw [Nat.succ_mul]
          omega
      rw [next, List.range_succ, List.map_append, same, List.map_singleton, tail]

theorem splitOn_snoc [BEq α] [LawfulBEq α] {newline b : α} (other : b ≠ newline) (text : List α) :
    ∃ init line, text.splitOn newline = init ++ [line] ∧
      (text ++ [b]).splitOn newline = init ++ [line ++ [b]] := by
  induction text with
  | nil => exact ⟨[], [], rfl, List.splitOn_eq_singleton (by simpa using other.symm)⟩
  | cons a text ih =>
    obtain ⟨init, line, before, after⟩ := ih
    rw [List.cons_append, List.splitOn_cons_eq_if_modifyHead, List.splitOn_cons_eq_if_modifyHead,
      before, after]
    split
    · exact ⟨[] :: init, line, rfl, rfl⟩
    · cases init with
      | nil => exact ⟨[], a :: line, rfl, rfl⟩
      | cons first init => exact ⟨(a :: first) :: init, line, rfl, rfl⟩

theorem wrap_newline [BEq α] [LawfulBEq α] {w : Nat} (newline : α) (text : List α) :
    wrap w newline (text ++ [newline]) = wrap w newline text ++ [[]] := by
  rw [wrap, List.splitOn_append_cons_self, List.flatMap_append]
  simp [wrap, rows]

theorem wrap_snoc [BEq α] [LawfulBEq α] {w : Nat} (pos : 0 < w) {newline b : α}
    (other : b ≠ newline) (text : List α) : ∃ init last,
      wrap w newline text = init ++ [last] ∧ last.length < w ∧
        wrap w newline (text ++ [b]) =
          if last.length + 1 = w then init ++ [last ++ [b], []] else init ++ [last ++ [b]] := by
  obtain ⟨lines, line, before, after⟩ := splitOn_snoc other text
  obtain ⟨init, last, here, short, next⟩ := rows_snoc pos line b
  refine ⟨lines.flatMap (rows w) ++ init, last, ?_, short, ?_⟩
  · rw [wrap, before, List.flatMap_append, List.flatMap_singleton, here, List.append_assoc]
  · rw [wrap, after, List.flatMap_append, List.flatMap_singleton, next]
    split <;> rw [List.append_assoc]

example : wrap 3 0 [1, 2, 3, 4, 0, 5, 6, 7] = [[1, 2, 3], [4], [5, 6, 7], []] := by decide

/-! The view of the rows. -/

variable {w h : Nat} {blank : α} {R : List (List α)} {c : Cell w h}

/-- One more character in the last row is one store at the cursor. -/
theorem view_extend {init : List (List α)} {last : List α} {b : α}
    (hc : Behind (init ++ [last]) c) :
    view (w := w) (h := h) blank (init ++ [last ++ [b]]) =
      Function.update (view blank (init ++ [last])) c b := by
  obtain ⟨y, init', last', split, x⟩ := hc
  obtain ⟨rfl, same⟩ := List.append_inj' split rfl
  obtain rfl := (List.cons.inj same).1
  rw [List.length_append, List.length_singleton] at y
  funext d
  have := d.row
  have := c.row
  unfold view
  simp only [List.length_append, List.length_singleton, List.getElem?_drop, Function.update_apply]
  rcases Nat.lt_trichotomy (init.length + 1 - h + d.y) init.length with above | here | below
  · have other : d ≠ c := by
      rintro rfl
      omega
    rw [if_neg other, List.getElem?_append_left above, List.getElem?_append_left above]
  · rw [here, List.getElem?_concat_length, List.getElem?_concat_length]
    simp only [Option.getD_some]
    by_cases at_ : d = c
    · rw [if_pos at_, at_, x, List.getElem?_concat_length, Option.getD_some]
    · rw [if_neg at_]
      have column : d.x ≠ last.length := fun e => at_ (Cell.ext (e.trans x.symm) (by omega))
      rcases Nat.lt_or_gt_of_ne column with left | right
      · rw [List.getElem?_append_left left]
      · rw [List.getElem?_eq_none (by simp; omega), List.getElem?_eq_none (by omega)]
  · have other : d ≠ c := by
      rintro rfl
      omega
    have far (l : List α) : (init ++ [l])[init.length + 1 - h + d.y]? = none := by
      rw [List.getElem?_eq_none]
      simp only [List.length_append, List.length_singleton]
      omega
    rw [if_neg other, far, far]

/-- One more row while there is room. -/
theorem view_row (room : R.length < h) :
    view (w := w) (h := h) blank (R ++ [[]]) = view blank R := by
  funext d
  unfold view
  rw [List.length_append, List.length_singleton, Nat.sub_eq_zero_of_le (Nat.le_of_lt room),
    Nat.sub_eq_zero_of_le room, List.drop_zero, List.drop_zero, List.getElem?_append]
  split <;> rename_i inside
  · rfl
  · rw [List.getElem?_eq_none (Nat.not_lt.mp inside)]
    cases d.y - R.length <;> rfl

/-- One more row when there is none left. -/
theorem view_scroll (full : h ≤ R.length) :
    view (w := w) (h := h) blank (R ++ [[]]) = scroll blank (view blank R) := by
  funext d
  have := d.row
  unfold scroll view
  simp only [List.length_append, List.length_singleton, List.getElem?_drop]
  split <;> rename_i low
  · rw [List.getElem?_append_left (by omega),
      show R.length + 1 - h + d.y = R.length - h + (d.y + 1) by omega]
  · rw [show R.length + 1 - h + d.y = R.length by omega, List.getElem?_concat_length]
    rfl

/-! Typing. -/

namespace Page
variable {p : Page α w h} {newline : α} {text : List α}

theorem newLine_rows (cells : p.cells = view blank R) (some : R ≠ [])
    (row : p.cursor.y = min (R.length - 1) (h - 1)) :
    (newLine blank p).cells = view blank (R ++ [[]]) ∧
      Behind (R ++ [[]]) (newLine blank p).cursor := by
  have := List.length_pos_iff.mpr some
  have := p.cursor.row
  constructor
  · unfold newLine
    simp only [cells]
    split
    · exact (view_row (by omega)).symm
    · exact (view_scroll (by omega)).symm
  · refine ⟨?_, R, [], rfl, rfl⟩
    simp only [newLine, Cell.newLine, List.length_append, List.length_singleton]
    omega

theorem shows_nil [BEq α] (pos : 0 < w) (high : 0 < h) :
    Shows blank newline [] (⟨fun _ => blank, ⟨0, 0, pos, high⟩⟩ : Page α w h) := by
  have empty : wrap w newline ([] : List α) = [[]] := by
    simp [wrap, rows]
  rw [Shows, empty]
  refine ⟨?_, by simp, [], [], rfl, rfl⟩
  funext d
  rw [view, List.length_singleton, Nat.sub_eq_zero_of_le high, List.drop_zero]
  cases d.y <;> rfl

/-- Typing one more character. -/
theorem Shows.type [DecidableEq α] (shows : Shows blank newline text p) (b : α) :
    Shows blank newline (text ++ [b]) (type blank newline p b) := by
  obtain ⟨cells, behind⟩ := shows
  unfold Page.type
  split <;> rename_i line
  · obtain ⟨row, init, last, split, -⟩ := behind
    rw [Shows, line, wrap_newline]
    exact newLine_rows cells (by rw [split]; simp) row
  · have pos := Nat.zero_lt_of_lt p.cursor.column
    obtain ⟨init, last, before, short, after⟩ := wrap_snoc pos line text
    rw [before] at cells behind
    have stored : Function.update p.cells p.cursor b = view blank (init ++ [last ++ [b]]) := by
      rw [view_extend behind, cells]
    obtain ⟨row, init', last', split, x⟩ := behind
    obtain ⟨rfl, same⟩ := List.append_inj' split rfl
    obtain rfl := (List.cons.inj same).1
    rw [List.length_append, List.length_singleton] at row
    rw [Shows, after]
    unfold glyph
    simp only
    split <;> rename_i room
    · rw [if_neg (by omega)]
      refine ⟨stored, ?_, init, last ++ [b], rfl, ?_⟩
      · simp only [Cell.advance, dif_pos room, List.length_append, List.length_singleton]
        exact row
      · simp only [Cell.advance, dif_pos room, List.length_append, List.length_singleton]
        omega
    · rw [if_pos (by omega), List.append_cons]
      exact newLine_rows (p := { p with cells := Function.update p.cells p.cursor b }) stored
        (by simp) (by simpa using row)

/-- Typing a text. -/
theorem Shows.foldl [DecidableEq α] (shows : Shows blank newline text p) (more : List α) :
    Shows blank newline (text ++ more) (more.foldl (Page.type blank newline) p) := by
  induction more generalizing text p with
  | nil => rwa [List.append_nil]
  | cons b more ih =>
    rw [List.append_cons]
    exact ih (shows.type b)

end Page

end

end BottlerOS.WrappedText
