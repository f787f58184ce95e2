import BottlerOS.Library.WrappedText
import BottlerOS.Video

/-! The characters on the screen of `Kernel/drivers/video.c`: printing types a text on a page. -/

namespace BottlerOS.ScreenText
open Machine TextGrid WrappedText Video

/-- The character byte of a cell. -/
def glyph (s : Screen) (c : Cell 80 25) : UInt8 := s.video (c.y * 160 + c.x * 2)

/-- The cells and the cursor of the screen. -/
structure Depicts (s : Screen) (p : Page UInt8 80 25) : Prop where
  cells : glyph s = p.cells
  cursor : At s p.cursor

section
variable {s t : Screen} {p : Page UInt8 80 25} {c : Cell 80 25}

theorem store_glyph {i : Int} {b : UInt8} (lo : 0 ≤ i) (hi : i < 4000) :
    ∃ t, store i b s = .ok t ∧ Stays s t ∧ t.video = Function.update s.video i b := by
  unfold store width height
  rw [if_pos ⟨lo, by omega⟩]
  exact ⟨_, rfl, ⟨rfl, rfl⟩, rfl⟩

/-- The rows from `i` on and the columns from `j` on are still to be copied. -/
structure Copied (s₀ : Screen) (i j : Int) (s : Screen) : Prop where
  stays : Stays s₀ s
  video : ∀ x y : Int, 0 ≤ x → x < 80 → 0 ≤ y → y < 25 → s.video (y * 160 + x * 2) =
    if y < i ∨ y = i ∧ x < j then s₀.video ((y + 1) * 160 + x * 2) else s₀.video (y * 160 + x * 2)

theorem Copied.turn {s₀ : Screen} {i j : Int} (h : Copied s₀ i j s) (low : 0 ≤ i) (high : i < 24)
    (left : 0 ≤ j) (right : j < 80) : ∃ t, (do
      let s ← store (i * width * 2 + j * 2) (s.video ((i + 1) * width * 2 + j * 2)) s
      store (i * width * 2 + j * 2 + 1) (s.video ((i + 1) * width * 2 + j * 2 + 1)) s) = .ok t ∧
      Copied s₀ i (j + 1) t := by
  obtain ⟨t, first, ht, byte⟩ := store_glyph (s := s) (i := i * width * 2 + j * 2)
    (b := s.video ((i + 1) * width * 2 + j * 2)) (by unfold width; omega) (by unfold width; omega)
  obtain ⟨u, second, hu, color⟩ := store_glyph (s := t) (i := i * width * 2 + j * 2 + 1)
    (b := t.video ((i + 1) * width * 2 + j * 2 + 1)) (by unfold width; omega)
    (by unfold width; omega)
  refine ⟨u, bind_ok.mpr ⟨t, first, second⟩, h.stays.trans (ht.trans hu), fun x y x0 x1 y0 y1 => ?_⟩
  have source := h.video j (i + 1) left right (by omega) (by omega)
  rw [if_neg (by omega)] at source
  rw [color, Function.update_of_ne (by unfold width; omega), byte, Function.update_apply]
  by_cases here : y = i ∧ x = j
  · obtain ⟨rfl, rfl⟩ := here
    rw [if_pos (by unfold width; omega), if_pos (by omega), ← source]
    congr 1
    unfold width
    omega
  · rw [if_neg (by unfold width; omega), h.video x y x0 x1 y0 y1]
    by_cases before : y < i ∨ y = i ∧ x < j
    · rw [if_pos before, if_pos (by omega)]
    · rw [if_neg before, if_neg (by omega)]

/-- A row has been copied. -/
theorem Copied.row {s₀ : Screen} {i : Int} (h : Copied s₀ i 80 s) : Copied s₀ (i + 1) 0 s := by
  refine ⟨h.stays, fun x y x0 x1 y0 y1 => ?_⟩
  rw [h.video x y x0 x1 y0 y1]
  by_cases before : y < i ∨ y = i ∧ x < 80
  · rw [if_pos before, if_pos (by omega)]
  · rw [if_neg before, if_neg (by omega)]

/-- The row `y` is blank up to the column `j`, and the other characters are as they were. -/
structure Blanked (s₀ : Screen) (y j : Int) (s : Screen) : Prop where
  stays : Stays s₀ s
  video : ∀ x z : Int, 0 ≤ x → x < 80 → 0 ≤ z → z < 25 → s.video (z * 160 + x * 2) =
    if z = y ∧ x < j then 32 else s₀.video (z * 160 + x * 2)

theorem Blanked.turn {s₀ : Screen} {y j : Int} (h : Blanked s₀ y j s) (low : 0 ≤ y) (high : y < 25)
    (left : 0 ≤ j) (right : j < 80) :
    ∃ t, store (y * width * 2 + j * 2) 32 s = .ok t ∧ Blanked s₀ y (j + 1) t := by
  obtain ⟨t, run, ht, byte⟩ := store_glyph (s := s) (i := y * width * 2 + j * 2) (b := 32)
    (by unfold width; omega) (by unfold width; omega)
  refine ⟨t, run, h.stays.trans ht, fun x z x0 x1 z0 z1 => ?_⟩
  rw [byte, Function.update_apply]
  by_cases here : z = y ∧ x = j
  · rw [if_pos (by unfold width; omega), if_pos (by omega)]
  · rw [if_neg (by unfold width; omega), h.video x z x0 x1 z0 z1]
    by_cases before : z = y ∧ x < j
    · rw [if_pos before, if_pos (by omega)]
    · rw [if_neg before, if_neg (by omega)]

/-- The loop over the columns of a row. -/
theorem blank_row (s : Screen) {y : Int} (low : 0 ≤ y) (high : y < 25) : ∃ t,
    forLoop limitX.1 limitX.2 (fun j => store (y * width * 2 + j * 2) 32) s = .ok t ∧
      Blanked s y 80 t :=
  forLoop_ind (Blanked s y) (by decide)
    (fun _ _ left right hu => hu.turn low high left right)
    ⟨.refl s, fun x z _ _ _ _ => by rw [if_neg (by simp only [limitX]; omega)]⟩

theorem scroll_glyph (s : Screen) :
    ∃ t, Video.scroll s = .ok t ∧ Stays s t ∧ glyph t = WrappedText.scroll 32 (glyph s) := by
  have start : Copied s 0 0 s := ⟨.refl s, fun x y _ _ _ _ => by rw [if_neg (by omega)]⟩
  have copy : ∃ t, forLoop limitY.1 (limitY.2 - 1) (fun i => forLoop limitX.1 limitX.2 fun j s => do
      let s ← store (i * width * 2 + j * 2) (s.video ((i + 1) * width * 2 + j * 2)) s
      store (i * width * 2 + j * 2 + 1) (s.video ((i + 1) * width * 2 + j * 2 + 1)) s) s = .ok t ∧
      Copied s (limitY.2 - 1) 0 t := by
    refine forLoop_ind (fun i => Copied s i 0) (by decide) (fun i u low high hu => ?_) start
    obtain ⟨v, run, hv⟩ := forLoop_ind (Copied s i) (show limitX.1 ≤ limitX.2 by decide)
      (fun j v left right hv => hv.turn low high left right) hu
    exact ⟨v, run, hv.row⟩
  obtain ⟨t, up, ht⟩ := copy
  obtain ⟨u, blank, hu⟩ := blank_row t (y := limitY.2 - 1) (by decide) (by decide)
  have ht : Copied s 24 0 t := ht
  have hu : Blanked t 24 80 u := hu
  refine ⟨u, bind_ok.mpr ⟨t, up, blank⟩, ht.stays.trans hu.stays, funext fun c => ?_⟩
  have := c.row
  have := c.column
  rw [glyph, hu.video c.x c.y (by omega) (by omega) (by omega) (by omega),
    ht.video c.x c.y (by omega) (by omega) (by omega) (by omega), WrappedText.scroll]
  by_cases low : c.y + 1 < 25
  · rw [if_neg (by omega), if_pos (by omega), dif_pos low, glyph]
    rfl
  · rw [if_pos (by omega), dif_neg low]

theorem clear_depicts (s : Screen) : ∃ t, clear s = .ok t ∧
    Depicts t ⟨fun _ => 32, ⟨0, 0, by decide, by decide⟩⟩ := by
  have blank : ∃ t, clear s = .ok t ∧ At t ⟨0, 0, by decide, by decide⟩ ∧ ∀ x y : Int,
      0 ≤ x → x < 80 → 0 ≤ y → y < limitY.2 → y < 25 → t.video (y * 160 + x * 2) = 32 := by
    refine forLoop_ind (fun i t => At t ⟨0, 0, by decide, by decide⟩ ∧ ∀ x y : Int,
      0 ≤ x → x < 80 → 0 ≤ y → y < i → y < 25 → t.video (y * 160 + x * 2) = 32) (by decide)
      (fun i u low high ⟨hc, hu⟩ => ?_)
      ⟨⟨rfl, rfl⟩, fun x y _ _ _ _ _ => by simp only [limitY] at *; omega⟩
    obtain ⟨v, run, hv⟩ := blank_row u low high
    refine ⟨v, run, hv.stays.at hc, fun x y x0 x1 y0 yi y1 => ?_⟩
    rw [hv.video x y x0 x1 y0 y1]
    by_cases here : y = i
    · rw [if_pos ⟨here, x1⟩]
    · rw [if_neg fun h => here h.1, hu x y x0 x1 y0 (by omega) y1]
  obtain ⟨t, run, hc, ht⟩ := blank
  refine ⟨t, run, funext fun c => ?_, hc⟩
  have := c.row
  have := c.column
  exact ht c.x c.y (by omega) (by omega) (by omega) (by simp only [limitY]; omega) (by omega)

theorem newLine_depicts (h : Depicts s p) :
    ∃ t, Video.newLine s = .ok t ∧ Depicts t (p.newLine 32) := by
  obtain ⟨cells, hx, hy⟩ := h
  have := p.cursor.row
  unfold Video.newLine
  simp only [limitX, limitY, hy]
  split <;> rename_i last
  · obtain ⟨t, run, ht, up⟩ := scroll_glyph { s with currentX := 0, currentY := p.cursor.y + 1 }
    refine ⟨_, bind_ok.mpr ⟨t, run, rfl⟩, ?_, ht.1, ?_⟩
    · rw [Page.newLine, if_neg (by omega), ← cells]
      exact up
    · simp only [Page.newLine, Cell.newLine]
      omega
  · refine ⟨_, rfl, ?_, rfl, ?_⟩
    · rw [Page.newLine, if_pos (by omega), ← cells]
      rfl
    · simp only [Page.newLine, Cell.newLine]
      omega

theorem increment_depicts {b : UInt8} (cells : glyph s = Function.update p.cells p.cursor b)
    (hc : At s p.cursor) : ∃ t, increment s = .ok t ∧ Depicts t (p.glyph 32 b) := by
  obtain ⟨hx, hy⟩ := hc
  have := p.cursor.row
  have := p.cursor.column
  unfold increment
  simp only [limitX, limitY, hx, hy, Page.glyph]
  by_cases room : p.cursor.x + 1 < 80
  · rw [if_neg (by omega), if_pos room]
    refine ⟨_, rfl, cells, ?_⟩
    simp only [Cell.advance, dif_pos room]
    exact ⟨rfl, rfl⟩
  · rw [if_pos (by omega), if_neg room]
    have line := newLine_depicts (s := s)
      (p := { p with cells := Function.update p.cells p.cursor b }) ⟨cells, hx, hy⟩
    unfold Video.newLine at line
    simp only [limitX, limitY, hy] at line
    split <;> rename_i last
    · rwa [if_pos (by omega)] at line
    · rwa [if_neg (by omega)] at line

/-- One byte of a print. -/
theorem glyph_depicts (h : Depicts s p) (b color : UInt8) : ∃ t, (do
    let s ← store s.here b s
    let s ← store (s.here + 1) color s
    increment s) = .ok t ∧ Depicts t (p.glyph 32 b) := by
  obtain ⟨cells, hc⟩ := h
  have := p.cursor.row
  have := p.cursor.column
  have here : ∀ {u}, At u p.cursor → u.here = p.cursor.y * 160 + p.cursor.x * 2 := by
    rintro u ⟨hx, hy⟩
    simp only [Screen.here, width, hx, hy]
    omega
  obtain ⟨t, first, ht, byte⟩ := store_glyph (s := s) (b := b) (i := s.here)
    (by rw [here hc]; omega) (by rw [here hc]; omega)
  have hc' := ht.at hc
  obtain ⟨u, second, hu, odd⟩ := store_glyph (s := t) (b := color) (i := t.here + 1)
    (by rw [here hc']; omega) (by rw [here hc']; omega)
  have written : glyph u = Function.update p.cells p.cursor b := by
    rw [← cells]
    funext d
    have := d.column
    rw [glyph, odd, Function.update_of_ne (by rw [here hc']; omega), byte, here hc,
      Function.update_apply, Function.update_apply]
    by_cases same : d = p.cursor
    · rw [if_pos (by rw [same]), if_pos same]
    · rw [if_neg fun e => same (Cell.ext (by omega) (by omega)), if_neg same]
      rfl
  obtain ⟨v, step, hv⟩ := increment_depicts written (hu.at hc')
  exact ⟨v, bind_ok.mpr ⟨t, first, bind_ok.mpr ⟨u, second, step⟩⟩, hv⟩

/-- The characters of a text. -/
def bytes (text : List Int8) : List UInt8 := text.map Int8.toUInt8

/-- A print that covers its string types it. -/
theorem printFrom_depicts {color maxLen i : Int} {string : List Int8} (h : Depicts s p)
    (all : ∀ b ∈ string, plain b = true) (covers : i + string.length ≤ maxLen) :
    ∃ j t, printFrom color maxLen string i s = .ok (j, t) ∧
      Depicts t ((bytes string).foldl (Page.type 32 10) p) := by
  induction string generalizing i s p with
  | nil => exact ⟨i, s, rfl, h⟩
  | cons b string ih =>
    obtain ⟨nul, erase, eof, esc⟩ := plain_iff.mp (all b List.mem_cons_self)
    rw [List.length_cons] at covers
    have rest := fun c hc => all c (List.mem_cons_of_mem _ hc)
    rw [bytes, List.map_cons, List.foldl_cons]
    unfold printFrom
    rw [if_pos ⟨nul, by omega⟩]
    by_cases line : b = 10
    · subst line
      obtain ⟨t, run, ht⟩ := newLine_depicts h
      obtain ⟨j, u, more, hu⟩ := ih (i := i + 1) ht rest (by omega)
      rw [if_pos rfl]
      exact ⟨j, u, bind_ok.mpr ⟨t, run, more⟩, hu⟩
    · obtain ⟨t, run, ht⟩ := glyph_depicts h b.toUInt8 (UInt8.ofInt color)
      obtain ⟨j, u, more, hu⟩ := ih (i := i + 1) ht rest (by omega)
      obtain ⟨v, first, run⟩ := bind_ok.mp run
      obtain ⟨w, second, run⟩ := bind_ok.mp run
      have other : b.toUInt8 ≠ 10 := fun e => line (by
        rw [← Int8.toInt8_toUInt8 b, e]
        rfl)
      refine ⟨j, u, ?_, ?_⟩
      · rw [if_neg line, if_neg erase, if_neg eof]
        simp [checkIfEscapeSequence, esc, first, second, run, more]
      · rw [Page.type, if_neg other]
        exact hu

end

/-- A call of `printStringLen`. -/
structure Piece where
  color : Int
  string : List Int8
  maxLen : Int

def Piece.call (p : Piece) : Call := .printStringLen p.color p.string p.maxLen

theorem run_depicts {s : Screen} {p : Page UInt8 80 25} {pieces : List Piece} (h : Depicts s p)
    (all : ∀ q ∈ pieces, ∀ b ∈ q.string, plain b = true)
    (covers : ∀ q ∈ pieces, q.string.length ≤ q.maxLen) :
    ∃ t, run (pieces.map Piece.call) s = .ok t ∧
      Depicts t ((bytes (pieces.flatMap Piece.string)).foldl (Page.type 32 10) p) := by
  induction pieces generalizing s p with
  | nil => exact ⟨s, rfl, h⟩
  | cons q pieces ih =>
    have covered : 0 + (q.string.length : Int) ≤ q.maxLen := by
      have := covers q List.mem_cons_self
      omega
    obtain ⟨j, t, first, ht⟩ := printFrom_depicts h (all q List.mem_cons_self) covered
    obtain ⟨u, rest, hu⟩ := ih ht (fun r hr => all r (List.mem_cons_of_mem _ hr))
      fun r hr => covers r (List.mem_cons_of_mem _ hr)
    refine ⟨u, bind_ok.mpr ⟨t, bind_ok.mpr ⟨(j, t), first, rfl⟩, rest⟩, ?_⟩
    rw [List.flatMap_cons, bytes, List.map_append, List.foldl_append]
    exact hu

/-- Any text printed in pieces after `clear` is on the screen as its last 25 wrapped rows, with
the cursor behind it. -/
theorem printed_text (s : Screen) (text : List Int8) (pieces : List Piece)
    (split : pieces.flatMap Piece.string = text) (all : ∀ b ∈ text, plain b = true)
    (covers : ∀ q ∈ pieces, q.string.length ≤ q.maxLen) :
    ∃ t c, run (.clear :: pieces.map Piece.call) s = .ok t ∧ At t c ∧
      Behind (wrap 80 10 (bytes text)) c ∧
      ∀ d, glyph t d = view 32 (wrap 80 10 (bytes text)) d := by
  obtain ⟨t, blank, ht⟩ := clear_depicts s
  obtain ⟨u, print, hu⟩ := run_depicts ht (fun q hq b hb => all b (by
    rw [← split]
    exact List.mem_flatMap.mpr ⟨q, hq, hb⟩)) covers
  rw [split] at hu
  obtain ⟨cells, behind⟩ :=
    (Page.shows_nil (w := 80) (h := 25) (by decide) (by decide)).foldl (bytes text)
  rw [List.nil_append] at cells behind
  exact ⟨u, _, bind_ok.mpr ⟨t, blank, print⟩, hu.cursor, behind,
    fun d => congrFun (hu.cells.trans cells) d⟩

theorem printed_text_hi : ∃ t c,
    run [.clear, .printStringLen 7 [104] 1, .printStringLen 7 [105, 10] 2] (boot fun _ => 0) =
      .ok t ∧ At t c ∧ Behind (wrap 80 10 (bytes [104, 105, 10])) c ∧
      ∀ d, glyph t d = view 32 (wrap 80 10 (bytes [104, 105, 10])) d :=
  printed_text _ [104, 105, 10] [⟨7, [104], 1⟩, ⟨7, [105, 10], 2⟩] rfl
    (List.all_eq_true.mp (by decide)) (by decide)

end BottlerOS.ScreenText
