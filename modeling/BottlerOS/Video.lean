import Mathlib.Data.List.Induction
import BottlerOS.Machine
import BottlerOS.Library.TextGrid

/-! `Kernel/drivers/video.c`: the text screen. A byte stored outside the buffer is a fault. -/

namespace BottlerOS.Video
open Machine TextGrid

def width : Int := 80
def height : Int := 25

/-- `limitX[0]`, `limitX[1]`; the kernel does not change them. -/
def limitX : Int × Int := (0, 80)
def limitY : Int × Int := (0, 25)

/-- The two counters and the bytes at `video`. -/
structure Screen where
  currentX : Int
  currentY : Int
  video : Int → UInt8

def boot (video : Int → UInt8) : Screen := { currentX := 0, currentY := 0, video := video }

/-- `*(video + i) = b` -/
def store (i : Int) (b : UInt8) (s : Screen) : C Screen :=
  if 0 ≤ i ∧ i < width * height * 2 then
    .ok { s with video := Function.update s.video i b }
  else .error .outOfBounds

/-- The offset of the byte under the cursor. -/
def Screen.here (s : Screen) : Int := s.currentY * width * 2 + s.currentX * 2

def scroll (s : Screen) : C Screen := do
  let s ← forLoop limitY.1 (limitY.2 - 1) (fun i => forLoop limitX.1 limitX.2 fun j s => do
    let s ← store (i * width * 2 + j * 2) (s.video ((i + 1) * width * 2 + j * 2)) s
    store (i * width * 2 + j * 2 + 1) (s.video ((i + 1) * width * 2 + j * 2 + 1)) s) s
  forLoop limitX.1 limitX.2 (fun j => store ((limitY.2 - 1) * width * 2 + j * 2) 32) s

def increment (s : Screen) : C Screen := do
  let s := { s with currentX := s.currentX + 1 }
  if s.currentX = limitX.2 then
    let s := { s with currentY := s.currentY + 1, currentX := limitX.1 }
    if s.currentY ≥ limitY.2 then
      let s ← scroll s
      pure { s with currentY := limitY.2 - 1 }
    else pure s
  else pure s

def backspace (s : Screen) : C Screen := do
  let s :=
    if s.here > 0 then
      let s := { s with currentX := s.currentX - 1 }
      if s.currentX < limitX.1 then
        let s := { s with currentX := limitX.2 }
        if s.currentY > limitY.1 then { s with currentY := s.currentY - 1 } else s
      else s
    else s
  store s.here 32 s

def newLine (s : Screen) : C Screen := do
  let s := { s with currentX := limitX.1, currentY := s.currentY + 1 }
  if s.currentY = limitY.2 then
    let s ← scroll s
    pure { s with currentY := limitY.2 - 1 }
  else pure s

def clear (s : Screen) : C Screen :=
  let s := { s with currentX := limitX.1, currentY := limitY.1 }
  forLoop limitY.1 limitY.2 (fun i => forLoop limitX.1 limitX.2 fun j =>
    store (i * width * 2 + j * 2) 32) s

/-- A string is the bytes before its NUL: there is always one more byte to read. -/
def checkIfEscapeSequence (c : Int8) (rest : List Int8) (s : Screen) : C (Bool × Screen) := do
  if c = 27 then
    if rest.head? = some 12 then
      let s ← clear s
      pure (true, s)
    else pure (true, s)
  else pure (false, s)

/-- The loop of `printStringLen`, from its index `i` on. -/
def printFrom (color maxLen : Int) : List Int8 → Int → Screen → C (Int × Screen)
  | [], i, s => pure (i, s)
  | c :: string, i, s =>
      if c ≠ 0 ∧ i ≤ maxLen then
        if c = 10 then do
          let s ← newLine s
          printFrom color maxLen string (i + 1) s
        else if c = 8 then do
          let s ← backspace s
          pure (i, s)
        else if c = -1 then pure (i, s)
        else do
          let (escape, s) ← checkIfEscapeSequence c string s
          if escape then pure (i, s)
          else
            let s ← store s.here c.toUInt8 s
            let s ← store (s.here + 1) (UInt8.ofInt color) s
            let s ← increment s
            printFrom color maxLen string (i + 1) s
      else pure (i, s)

def printStringLen (color : Int) (string : List Int8) (maxLen : Int) (s : Screen) :
    C (Int × Screen) :=
  printFrom color maxLen string 0 s

inductive Call where
  | printStringLen (color : Int) (string : List Int8) (maxLen : Int)
  | newLine
  | backspace
  | clear

def perform : Call → Screen → C Screen
  | .printStringLen color string maxLen, s => do
      let (_, s) ← printStringLen color string maxLen s
      pure s
  | .newLine, s => newLine s
  | .backspace, s => backspace s
  | .clear, s => clear s

/-- Calls one after the other. -/
def run : List Call → Screen → C Screen
  | [], s => pure s
  | c :: calls, s => do
      let s ← perform c s
      run calls s

/-- The cursor is on the grid. -/
def InRange (s : Screen) : Prop :=
  0 ≤ s.currentX ∧ s.currentX < 80 ∧ 0 ≤ s.currentY ∧ s.currentY < 25

/-- The cursor is at the cell. -/
def At (s : Screen) (c : Cell 80 25) : Prop := s.currentX = c.x ∧ s.currentY = c.y

/-- Bytes that move the cursor on: no NUL, backspace, end of file or escape. -/
def plain (b : Int8) : Bool := b ≠ 0 ∧ b ≠ 8 ∧ b ≠ -1 ∧ b ≠ 27

def typed (c : Cell 80 25) (b : Int8) : Cell 80 25 := if b = 10 then c.newLine else c.advance

/-- The bytes shown by a print of at most `n` bytes. -/
def shown (string : List Int8) (n : Nat) : List Int8 := (string.takeWhile plain).take n

/-- The bytes a print of at most `n` bytes stops at. -/
def stops (string : List Int8) (n : Nat) : List Int8 :=
  if (string.takeWhile plain).length < n then string.dropWhile plain else []

/-- Where the byte that stops a print leaves the cursor. -/
def stopped (c : Cell 80 25) (rest : List Int8) : Cell 80 25 :=
  if rest.head? = some 8 then c.back
  else if rest.take 2 = [27, 12] then c.home
  else c

/-- `printStringLen` prints up to `maxLen + 1` bytes. -/
def budget (maxLen : Int) : Nat := (maxLen + 1).toNat

/-- The cursor after a call. -/
def after (c : Cell 80 25) : Call → Cell 80 25
  | .printStringLen _ string maxLen =>
      stopped ((shown string (budget maxLen)).foldl typed c) (stops string (budget maxLen))
  | .newLine => c.newLine
  | .backspace => c.back
  | .clear => c.home

/-- The call erases before the first column of a row that is not the first. -/
def ErasesAtEdge (c : Cell 80 25) : Call → Prop
  | .printStringLen _ string maxLen =>
      (stops string (budget maxLen)).head? = some 8 ∧
        ((shown string (budget maxLen)).foldl typed c).AtEdge
  | .backspace => c.AtEdge
  | _ => False

section
variable {s t : Screen} {c : Cell 80 25}

theorem inRange_iff : InRange s ↔ ∃ c, At s c := by
  constructor
  · rintro ⟨hx, hw, hy, hh⟩
    refine ⟨⟨s.currentX.toNat, s.currentY.toNat, by omega, by omega⟩, ?_, ?_⟩ <;>
      simp only <;> omega
  · rintro ⟨c, hx, hy⟩
    have := c.column
    have := c.row
    refine ⟨?_, ?_, ?_, ?_⟩ <;> omega

/-- The cursor did not move. -/
def Stays (s t : Screen) : Prop := t.currentX = s.currentX ∧ t.currentY = s.currentY

theorem Stays.refl (s : Screen) : Stays s s := ⟨rfl, rfl⟩

theorem Stays.trans {u : Screen} (h : Stays s t) (h' : Stays t u) : Stays s u :=
  ⟨h'.1.trans h.1, h'.2.trans h.2⟩

theorem Stays.at (h : Stays s t) (hs : At s c) : At t c := ⟨h.1.trans hs.1, h.2.trans hs.2⟩

theorem store_ok {i : Int} {b : UInt8} (lo : 0 ≤ i) (hi : i < 4000) :
    ∃ t, store i b s = .ok t ∧ Stays s t := by
  unfold store width height
  rw [if_pos ⟨lo, by omega⟩]
  exact ⟨_, rfl, rfl, rfl⟩

/-- Loops over the cells of some rows, each turn storing in the row's cells. -/
theorem rows_ok (lo hi : Int) (body : Int → Int → Screen → C Screen)
    (one : ∀ i j s, lo ≤ i → i < hi → 0 ≤ j → j < 80 → ∃ t, body i j s = .ok t ∧ Stays s t) :
    ∃ t, forLoop lo hi (fun i => forLoop limitX.1 limitX.2 (body i)) s = .ok t ∧ Stays s t := by
  refine forLoop_ok (fun i u low high hu => forLoop_ok (fun j v left right hv => ?_) hu) (.refl s)
  obtain ⟨t, run, ht⟩ := one i j v low high left right
  exact ⟨t, run, hv.trans ht⟩

theorem scroll_ok (s : Screen) : ∃ t, scroll s = .ok t ∧ Stays s t := by
  obtain ⟨t, up, ht⟩ := rows_ok (s := s) limitY.1 (limitY.2 - 1)
    (fun i j s => do
      let s ← store (i * width * 2 + j * 2) (s.video ((i + 1) * width * 2 + j * 2)) s
      store (i * width * 2 + j * 2 + 1) (s.video ((i + 1) * width * 2 + j * 2 + 1)) s)
    fun i j s low high left right => by
      simp only [limitY, width] at low high ⊢
      obtain ⟨t, glyph, ht⟩ := store_ok (s := s)
        (b := s.video ((i + 1) * 80 * 2 + j * 2)) (i := i * 80 * 2 + j * 2) (by omega) (by omega)
      obtain ⟨u, color, hu⟩ := store_ok (s := t)
        (b := t.video ((i + 1) * 80 * 2 + j * 2 + 1)) (i := i * 80 * 2 + j * 2 + 1)
        (by omega) (by omega)
      exact ⟨u, bind_ok.mpr ⟨t, glyph, color⟩, ht.trans hu⟩
  have blank : ∃ u, forLoop limitX.1 limitX.2
      (fun j => store ((limitY.2 - 1) * width * 2 + j * 2) 32) t = .ok u ∧ Stays s u := by
    refine forLoop_ok (fun j v left right hv => ?_) ht
    simp only [limitX, limitY, width] at left right ⊢
    obtain ⟨w, run, hw⟩ := store_ok (s := v) (b := 32) (i := (25 - 1) * 80 * 2 + j * 2)
      (by omega) (by omega)
    exact ⟨w, run, hv.trans hw⟩
  obtain ⟨u, run, hu⟩ := blank
  exact ⟨u, bind_ok.mpr ⟨t, up, run⟩, hu⟩

theorem clear_ok (s : Screen) (c : Cell 80 25) : ∃ t, clear s = .ok t ∧ At t c.home := by
  obtain ⟨t, run, ht⟩ := rows_ok (s := { s with currentX := limitX.1, currentY := limitY.1 })
    limitY.1 limitY.2 (fun i j => store (i * width * 2 + j * 2) 32)
    fun i j s low high left right => by
      simp only [limitY, width] at low high ⊢
      exact store_ok (by omega) (by omega)
  exact ⟨t, run, ht.at ⟨rfl, rfl⟩⟩

theorem newLine_at (h : At s c) : ∃ t, newLine s = .ok t ∧ At t c.newLine := by
  obtain ⟨-, hy⟩ := h
  have := c.row
  unfold newLine
  simp only [limitX, limitY, hy]
  split
  · obtain ⟨t, run, ht⟩ := scroll_ok { s with currentX := 0, currentY := c.y + 1 }
    refine ⟨_, bind_ok.mpr ⟨t, run, rfl⟩, ht.1, ?_⟩
    simp only [Cell.newLine]
    omega
  · refine ⟨_, rfl, rfl, ?_⟩
    simp only [Cell.newLine]
    omega

theorem increment_at (h : At s c) : ∃ t, increment s = .ok t ∧ At t c.advance := by
  obtain ⟨hx, hy⟩ := h
  have := c.row
  have := c.column
  unfold increment
  simp only [limitX, limitY, hx, hy, Cell.advance]
  by_cases room : c.x + 1 < 80
  · rw [if_neg (by omega), dif_pos room]
    exact ⟨_, rfl, by simp, rfl⟩
  · rw [if_pos (by omega), dif_neg room]
    split
    · obtain ⟨t, run, ht⟩ := scroll_ok { s with currentX := 0, currentY := c.y + 1 }
      refine ⟨_, bind_ok.mpr ⟨t, run, rfl⟩, ht.1, ?_⟩
      simp only [Cell.newLine]
      omega
    · refine ⟨_, rfl, rfl, ?_⟩
      simp only [Cell.newLine]
      omega

theorem backspace_at (h : At s c) (inside : ¬ c.AtEdge) :
    ∃ t, backspace s = .ok t ∧ At t c.back := by
  obtain ⟨hx, hy⟩ := h
  have := c.row
  have := c.column
  unfold Cell.AtEdge at inside
  unfold backspace
  simp only [Screen.here, limitX, limitY, width, hx, hy, Cell.back]
  by_cases start : c.x = 0
  · have top : c.y = 0 := by omega
    rw [if_neg (by omega), hx, hy]
    obtain ⟨t, run, ht⟩ := store_ok (s := s) (b := 32) (i := c.y * 80 * 2 + c.x * 2)
      (by omega) (by omega)
    exact ⟨t, run, ht.at ⟨by simp only; omega, hy⟩⟩
  · rw [if_pos (by omega), if_neg (by omega)]
    obtain ⟨t, run, ht⟩ := store_ok (s := { s with currentX := c.x - 1 }) (b := 32)
      (i := c.y * 80 * 2 + (c.x - 1) * 2) (by omega) (by omega)
    refine ⟨t, by simpa [hy] using run, ?_⟩
    exact ht.at ⟨by simp only; omega, hy⟩

/-- Erasing over the edge of a row leaves the grid. -/
theorem backspace_edge (h : At s c) (edge : c.AtEdge) :
    ∃ t, backspace s = .ok t ∧ t.currentX = 80 := by
  obtain ⟨hx, hy⟩ := h
  obtain ⟨left, below⟩ := edge
  have := c.row
  unfold backspace
  simp only [Screen.here, limitX, limitY, width, hx, hy, left]
  rw [if_pos (by omega), if_pos (by omega), if_pos (by omega)]
  obtain ⟨t, run, ht⟩ := store_ok (s := { s with currentX := 80, currentY := c.y - 1 }) (b := 32)
    (i := (c.y - 1) * 80 * 2 + 80 * 2) (by omega) (by omega)
  exact ⟨t, by simpa using run, ht.1⟩

theorem plain_iff {b : Int8} : plain b = true ↔ b ≠ 0 ∧ b ≠ 8 ∧ b ≠ -1 ∧ b ≠ 27 := by
  simp [plain]

theorem shown_plain {b : Int8} (h : plain b = true) (string : List Int8) (n : Nat) :
    shown (b :: string) (n + 1) = b :: shown string n := by
  simp [shown, List.takeWhile_cons_of_pos h]

theorem stops_plain {b : Int8} (h : plain b = true) (string : List Int8) (n : Nat) :
    stops (b :: string) (n + 1) = stops string n := by
  simp [stops, List.takeWhile_cons_of_pos h, List.dropWhile_cons_of_pos h]

theorem shown_stop {b : Int8} (h : ¬ plain b = true) (string : List Int8) (n : Nat) :
    shown (b :: string) n = [] := by
  simp [shown, List.takeWhile_cons_of_neg h]

theorem stops_stop {b : Int8} (h : ¬ plain b = true) (string : List Int8) (n : Nat) :
    stops (b :: string) (n + 1) = b :: string := by
  simp [stops, List.takeWhile_cons_of_neg h, List.dropWhile_cons_of_neg h]

@[simp] theorem shown_nil (n : Nat) : shown [] n = [] := by simp [shown]

@[simp] theorem stops_nil (n : Nat) : stops [] n = [] := by
  unfold stops
  split <;> rfl

@[simp] theorem shown_zero (string : List Int8) : shown string 0 = [] := by
  simp [shown]

@[simp] theorem stops_zero (string : List Int8) : stops string 0 = [] := by
  simp [stops]

/-- One byte: the glyph, its color and the step of the cursor. -/
theorem glyph_at (h : At s c) (b color : UInt8) : ∃ t, (do
    let s ← store s.here b s
    let s ← store (s.here + 1) color s
    increment s) = .ok t ∧ At t c.advance := by
  have := c.row
  have := c.column
  have here : ∀ {u}, At u c → u.here = c.y * 160 + c.x * 2 := by
    rintro u ⟨hx, hy⟩
    simp only [Screen.here, width, hx, hy]
    omega
  obtain ⟨t, run, ht⟩ := store_ok (s := s) (b := b) (i := s.here)
    (by rw [here h]; omega) (by rw [here h]; omega)
  have ht := ht.at h
  obtain ⟨u, run', hu⟩ := store_ok (s := t) (b := color) (i := t.here + 1)
    (by rw [here ht]; omega) (by rw [here ht]; omega)
  obtain ⟨v, step, hv⟩ := increment_at (hu.at ht)
  exact ⟨v, bind_ok.mpr ⟨t, run, bind_ok.mpr ⟨u, run', step⟩⟩, hv⟩

/-- A byte that stops a print. -/
theorem printFrom_stop {color maxLen i : Int} {b : Int8} {string : List Int8} (h : At s c)
    (stop : ¬ plain b = true) (room : i ≤ maxLen) :
    ∃ j t, printFrom color maxLen (b :: string) i s = .ok (j, t) ∧
      (¬ (b = 8 ∧ c.AtEdge) → At t (stopped c (b :: string))) ∧
      (b = 8 ∧ c.AtEdge → t.currentX = 80) := by
  rw [plain_iff] at stop
  unfold printFrom
  by_cases nul : b = 0
  · subst nul
    rw [if_neg (by simp)]
    exact ⟨i, s, rfl, fun _ => h, by simp⟩
  by_cases erase : b = 8
  · subst erase
    rw [if_pos ⟨nul, room⟩, if_neg (by decide), if_pos rfl]
    by_cases edge : c.AtEdge
    · obtain ⟨t, run, ht⟩ := backspace_edge h edge
      exact ⟨i, t, bind_ok.mpr ⟨t, run, rfl⟩, fun no => absurd ⟨rfl, edge⟩ no, fun _ => ht⟩
    · obtain ⟨t, run, ht⟩ := backspace_at h edge
      exact ⟨i, t, bind_ok.mpr ⟨t, run, rfl⟩, fun _ => ht, fun yes => absurd yes.2 edge⟩
  by_cases eof : b = -1
  · subst eof
    rw [if_pos ⟨nul, room⟩, if_neg (by decide), if_neg erase, if_pos rfl]
    exact ⟨i, s, rfl, fun _ => h, by simp⟩
  have esc : b = 27 := by
    by_contra no
    exact stop ⟨nul, erase, eof, no⟩
  subst esc
  rw [if_pos ⟨nul, room⟩, if_neg (by decide), if_neg erase, if_neg eof]
  unfold checkIfEscapeSequence
  rw [if_pos rfl]
  cases string with
  | nil => exact ⟨i, s, rfl, fun _ => h, by simp⟩
  | cons d string =>
    by_cases feed : d = 12
    · subst feed
      obtain ⟨t, run, ht⟩ := clear_ok s c
      refine ⟨i, t, ?_, fun _ => ht, by simp⟩
      simp [run]
    · refine ⟨i, s, by simp [feed], fun _ => ?_, by simp⟩
      simpa [stopped, feed] using h

theorem printFrom_at {color maxLen : Int} (string : List Int8) (i : Int) (h : At s c) :
    ∃ j t, printFrom color maxLen string i s = .ok (j, t) ∧
      (¬ ErasesAtEdge c (.printStringLen color string (maxLen - i)) →
        At t (after c (.printStringLen color string (maxLen - i)))) ∧
      (ErasesAtEdge c (.printStringLen color string (maxLen - i)) → t.currentX = 80) := by
  simp only [after, ErasesAtEdge]
  induction string generalizing i s c with
  | nil => exact ⟨i, s, rfl, fun _ => by simpa [stopped] using h, by simp⟩
  | cons b string ih =>
    by_cases room : i ≤ maxLen
    · have left : budget (maxLen - i) = budget (maxLen - (i + 1)) + 1 := by
        unfold budget
        omega
      rw [left]
      by_cases hb : plain b = true
      · rw [shown_plain hb, stops_plain hb, List.foldl_cons]
        obtain ⟨nul, erase, eof, esc⟩ := plain_iff.mp hb
        unfold printFrom
        rw [if_pos ⟨nul, room⟩]
        by_cases line : b = 10
        · obtain ⟨t, run, ht⟩ := newLine_at h
          obtain ⟨j, u, rest, hu⟩ := ih (i + 1) ht
          refine ⟨j, u, ?_, by simpa only [typed, if_pos line] using hu⟩
          rw [if_pos line]
          exact bind_ok.mpr ⟨t, run, rest⟩
        · obtain ⟨t, run, ht⟩ := glyph_at h b.toUInt8 (UInt8.ofInt color)
          obtain ⟨j, u, rest, hu⟩ := ih (i + 1) ht
          refine ⟨j, u, ?_, by simpa only [typed, if_neg line] using hu⟩
          obtain ⟨v, first, run⟩ := bind_ok.mp run
          obtain ⟨w, second, run⟩ := bind_ok.mp run
          rw [if_neg line, if_neg erase, if_neg eof]
          simp [checkIfEscapeSequence, esc, first, second, run, rest]
      · rw [shown_stop hb, stops_stop hb]
        simp only [List.head?_cons, Option.some.injEq, List.foldl_nil]
        exact printFrom_stop h hb room
    · have none : budget (maxLen - i) = 0 := by
        unfold budget
        omega
      rw [none]
      unfold printFrom
      rw [if_neg fun yes => room yes.2]
      exact ⟨i, s, rfl, fun _ => by simpa [stopped] using h, by simp⟩

theorem perform_at (call : Call) (h : At s c) : ∃ t, perform call s = .ok t ∧
    (¬ ErasesAtEdge c call → At t (after c call)) ∧ (ErasesAtEdge c call → t.currentX = 80) := by
  cases call with
  | printStringLen color string maxLen =>
    obtain ⟨j, t, run, ht⟩ := @printFrom_at _ _ color maxLen string 0 h
    rw [Int.sub_zero] at ht
    exact ⟨t, bind_ok.mpr ⟨(j, t), run, rfl⟩, ht⟩
  | newLine =>
    obtain ⟨t, run, ht⟩ := newLine_at h
    exact ⟨t, run, fun _ => ht, False.elim⟩
  | backspace =>
    by_cases edge : c.AtEdge
    · obtain ⟨t, run, ht⟩ := backspace_edge h edge
      exact ⟨t, run, fun no => absurd edge no, fun _ => ht⟩
    · obtain ⟨t, run, ht⟩ := backspace_at h edge
      exact ⟨t, run, fun _ => ht, fun yes => absurd yes edge⟩
  | clear =>
    obtain ⟨t, run, ht⟩ := clear_ok s c
    exact ⟨t, run, fun _ => ht, False.elim⟩

theorem run_snoc (calls : List Call) (call : Call) :
    run (calls ++ [call]) s = run calls s >>= perform call := by
  induction calls generalizing s with
  | nil =>
    simp only [List.nil_append, run, pure_ok, ok_bind]
    cases perform call s <;> rfl
  | cons first calls ih =>
    simp only [List.cons_append, run]
    cases perform first s with
    | error e => rfl
    | ok t => exact ih

/-- Every call of a sequence leaves the cursor on the grid and stores in the buffer, exactly
if none erases at the edge. -/
theorem run_inRange (video : Int → UInt8) (calls : List Call) :
    (∀ first call last, calls = first ++ call :: last →
      ∃ t, run (first ++ [call]) (boot video) = .ok t ∧ InRange t) ↔
    ∀ first call last, calls = first ++ call :: last →
      ∀ s c, run first (boot video) = .ok s → At s c → ¬ ErasesAtEdge c call := by
  constructor
  · intro all first call last split s c before hc edge
    obtain ⟨t, run, -, hx, -⟩ := all first call last split
    rw [run_snoc, before] at run
    obtain ⟨u, run', -, out⟩ := perform_at call hc
    obtain rfl : u = t := Except.ok.inj (run'.symm.trans run)
    have := out edge
    omega
  · intro all
    have reached : ∀ first last, calls = first ++ last →
        ∃ s c, run first (boot video) = .ok s ∧ At s c := by
      intro first
      induction first using List.reverseRecOn with
      | nil => exact fun _ _ => ⟨boot video, ⟨0, 0, by decide, by decide⟩, rfl, rfl, rfl⟩
      | append_singleton first call ih =>
        intro last split
        rw [List.append_assoc] at split
        obtain ⟨s, c, before, hc⟩ := ih _ split
        obtain ⟨t, run, ht, -⟩ := perform_at call hc
        refine ⟨t, after c call, ?_, ht (all first call last split s c before hc)⟩
        rw [run_snoc, before]
        exact run
    intro first call last split
    obtain ⟨s, c, run, hc⟩ := reached (first ++ [call]) last (by simp [split])
    exact ⟨s, run, inRange_iff.mpr ⟨c, hc⟩⟩

/-- Erasing right after a new line puts the cursor behind the end of the first row. -/
theorem newLine_backspace_outside : ∃ s,
    run [.newLine, .backspace] (boot fun _ => 0) = .ok s ∧ ¬ InRange s := by
  have line : At (boot fun _ => 0) ⟨0, 0, by decide, by decide⟩ := ⟨rfl, rfl⟩
  obtain ⟨s, first, hs⟩ := newLine_at line
  obtain ⟨t, second, ht⟩ := backspace_edge hs ⟨rfl, by decide⟩
  refine ⟨t, bind_ok.mpr ⟨s, first, bind_ok.mpr ⟨t, second, rfl⟩⟩, fun inside => ?_⟩
  have := inside.2.1
  omega

end

end BottlerOS.Video
