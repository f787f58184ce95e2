import BottlerOS.Arguments
import BottlerOS.LineParse

/-! What `processInput` makes of a line of any number of words: its four variables behind the
loop that cuts the line up, and the `argv`s it stores. -/

namespace BottlerOS.LineSplit
open Machine Shell ShellWords LineParse Arguments

/-- The stores that fill `argv0` and `argv1`. -/
def fillArgv (mallocs : InputMallocs) (t : Split) (m : Mem) : C Mem :=
  if t.pipe ≠ -1 then do
    let m ← storeArgv mallocs.argv0 (t.tokens.take t.pipe.toNat) m
    storeArgv mallocs.argv1 ((t.tokens.take t.end_.toNat).drop (t.pipe.toNat + 1)) m
  else storeArgv mallocs.argv0 (t.tokens.take t.end_.toNat) m

/-- The variables behind the loop. -/
structure Cuts (ws : List (List Int8)) (t : Split) (m : Mem) : Prop where
  end_ : t.end_ = (command ws).length
  ampersand : t.ampersand = if Background ws then ((ws.length - 1 : Nat) : Int) else -1
  tokens : ∀ (i : Nat) (w : List Int8), (command ws)[i]? = some w →
    ∃ o : Nat, t.tokens[i]? = some o ∧ Holds m o w
  pipe : t.pipe = pipeAt ws

/-- The pointers at `argv` are to the words. -/
def Points (m : Mem) (argv : Option Nat) (ws : List (List Int8)) : Prop :=
  ∀ i w, ws[i]? = some w → ∃ a o, argv = some a ∧ m.heap (a + 8 * i) = m.base + o ∧ Holds m o w

/-- Two blocks for `n` and `k` pointers. -/
structure Room (mallocs : InputMallocs) (n k : Nat) : Prop where
  first : 0 < n → mallocs.argv0 ≠ none
  second : 0 < k → mallocs.argv1 ≠ none
  apart : ∀ a b, mallocs.argv0 = some a → mallocs.argv1 = some b → a + 8 * n ≤ b ∨ b + 8 * k ≤ a

/-- The stores give the words in front of the `|` and those behind it, or all of them. -/
def Fills (ws : List (List Int8)) (t : Split) (m : Mem) : Prop :=
  if t.pipe = -1 then
    ∀ mallocs, ((command ws) ≠ [] → mallocs.argv0 ≠ none) → ∃ m', fillArgv mallocs t m = .ok m' ∧
      Points m' mallocs.argv0 (command ws)
  else
    ∀ mallocs, Room mallocs t.pipe.toNat ((command ws).length - t.pipe.toNat - 1) →
      ∃ m', fillArgv mallocs t m = .ok m' ∧
        Points m' mallocs.argv0 ((command ws).take t.pipe.toNat) ∧
        Points m' mallocs.argv1 ((command ws).drop (t.pipe.toNat + 1))

/-- What the splitting of a line has to come to. The `argv`s are only stored when the line is not
refused, for a pipe in the background; stores outside the line buffer may come before. -/
def Splits (m : Mem) (line : List Int8) : Prop :=
  ∃ t m', tokenLoop m = .ok (t, m') ∧ Cuts (words line) t m' ∧
    (t.pipe = -1 ∨ t.ampersand < 0 → ∀ mem, mem.buffer = m'.buffer → Fills (words line) t mem)

section
variable {m m' : Mem} {line : List Int8} {ws : List (List Int8)} {t : Split}

/-! The pointers at `argv`. -/

theorem storeTokens_frame (m : Mem) (argv : Nat) (tokens : List Nat) {a : Nat}
    (outside : a < argv ∨ argv + 8 * tokens.length ≤ a) :
    (m.storeTokens argv tokens).heap a = m.heap a := by
  induction tokens generalizing m argv with
  | nil => rfl
  | cons t tokens ih =>
    rw [List.length_cons] at outside
    rw [Mem.storeTokens, ih _ _ (by omega)]
    exact Function.update_of_ne (by omega) _ _

theorem storeArgv_ok (argv : Option Nat) (tokens : List Nat) (m : Mem)
    (block : tokens ≠ [] → argv ≠ none) :
    ∃ m', storeArgv argv tokens m = .ok m' ∧ m'.base = m.base ∧ m'.buffer = m.buffer ∧
      (∀ i t, tokens[i]? = some t → ∃ a, argv = some a ∧ m'.heap (a + 8 * i) = m.base + t) ∧
      ∀ x, (∀ a, argv = some a → x < a ∨ a + 8 * tokens.length ≤ x) → m'.heap x = m.heap x := by
  by_cases empty : tokens = []
  · subst empty
    exact ⟨m, rfl, rfl, rfl, fun i t h => by simp at h, fun _ _ => rfl⟩
  · obtain ⟨a, rfl⟩ := Option.ne_none_iff_exists'.mp (block empty)
    obtain ⟨grows, buffer, -, pointers⟩ := storeTokens_spec m a tokens
    refine ⟨m.storeTokens a tokens, ?_, grows.base, buffer, fun i t h => ⟨a, rfl, pointers i t h⟩,
      fun x outside => storeTokens_frame m a tokens (outside a rfl)⟩
    rw [storeArgv, if_neg empty]
    rfl

/-- Pointers to the tokens are pointers to the words. -/
theorem points_of {argv : Option Nat} (tokens : List Nat)
    (texts : ∀ (i : Nat) (w : List Int8), ws[i]? = some w →
      ∃ o : Nat, tokens[i]? = some o ∧ Holds m o w)
    (buffer : m'.buffer = m.buffer)
    (pointers : ∀ i t, tokens[i]? = some t → ∃ a, argv = some a ∧
      m'.heap (a + 8 * i) = m'.base + t) : Points m' argv ws := by
  intro i w hw
  obtain ⟨o, ho, text⟩ := texts i w hw
  obtain ⟨a, ha, pointer⟩ := pointers i o ho
  exact ⟨a, o, ha, pointer, text.congr fun _ _ _ => by rw [buffer]⟩

theorem pipeAt_cases (ws : List (List Int8)) : pipeAt ws = -1 ∨
    ∃ i : Nat, pipeAt ws = i ∧ 1 ≤ i ∧ i < ws.length ∧ ws[i]? = some (chars "|") := by
  unfold pipeAt
  split <;> rename_i found
  · rename_i i
    have mem := List.mem_of_getLast? found
    obtain ⟨inside, here⟩ := List.mem_filter.mp mem
    have := of_decide_eq_true here
    exact .inr ⟨i, rfl, this.1, List.mem_range.mp inside, this.2⟩
  · exact .inl rfl

theorem Cuts.fills (cuts : Cuts ws t m) (calm : t.pipe = -1 ∨ t.ampersand < 0) : Fills ws t m := by
  have texts : ∀ (i : Nat) (w : List Int8), (command ws)[i]? = some w →
      ∃ o : Nat, (t.tokens.take t.end_.toNat)[i]? = some o ∧ Holds m o w := by
    intro i w hw
    obtain ⟨o, ho, text⟩ := cuts.tokens i w hw
    obtain ⟨inside, -⟩ := List.getElem?_eq_some_iff.mp hw
    refine ⟨o, ?_, text⟩
    rw [List.getElem?_take_of_lt (by rw [cuts.end_]; simpa using inside), ho]
  have short : (t.tokens.take t.end_.toNat).length ≤ (command ws).length := by
    rw [List.length_take, cuts.end_]
    exact Nat.min_le_left _ _
  unfold Fills
  split <;> rename_i pipe
  · intro mallocs block
    have block' : t.tokens.take t.end_.toNat ≠ [] → mallocs.argv0 ≠ none := by
      refine fun some => block fun none => some ?_
      rw [none] at short
      exact List.length_eq_zero_iff.mp (Nat.le_zero.mp short)
    obtain ⟨m', run, base, buffer, pointers, -⟩ := storeArgv_ok _ _ m block'
    refine ⟨m', ?_, points_of _ texts buffer fun i t h => ?_⟩
    · rw [fillArgv, if_neg (not_not.mpr pipe), run]
    · rw [base]
      exact pointers i t h
  · intro mallocs room
    have plain : command ws = ws := by
      have low := calm.resolve_left pipe
      rw [cuts.ampersand] at low
      rw [command, if_neg]
      intro bg
      rw [if_pos bg] at low
      omega
    obtain ⟨i, hi, pos, inside, here⟩ := (pipeAt_cases ws).resolve_left (cuts.pipe ▸ pipe)
    have at_ : t.pipe.toNat = i := by
      rw [cuts.pipe, hi]
      rfl
    have left : (t.tokens.take t.pipe.toNat).length ≤ t.pipe.toNat := by
      rw [List.length_take]
      exact Nat.min_le_left _ _
    have right : ((t.tokens.take t.end_.toNat).drop (t.pipe.toNat + 1)).length ≤
        (command ws).length - t.pipe.toNat - 1 := by
      rw [List.length_drop]
      omega
    obtain ⟨m₁, first, base₁, buffer₁, pointers₁, -⟩ := storeArgv_ok mallocs.argv0
      (t.tokens.take t.pipe.toNat) m fun _ => room.first (by omega)
    obtain ⟨m₂, second, base₂, buffer₂, pointers₂, frame⟩ := storeArgv_ok mallocs.argv1
      ((t.tokens.take t.end_.toNat).drop (t.pipe.toNat + 1)) m₁ fun some => by
        have := List.length_pos_iff.mpr some
        exact room.second (by omega)
    refine ⟨m₂, ?_, points_of (m := m) (t.tokens.take t.pipe.toNat) ?_
        (buffer₂.trans buffer₁) ?_,
      points_of (m := m) ((t.tokens.take t.end_.toNat).drop (t.pipe.toNat + 1)) ?_
        (buffer₂.trans buffer₁) ?_⟩
    · rw [fillArgv, if_pos pipe, first, ok_bind, second]
    · intro j w hw
      obtain ⟨bound, -⟩ := List.getElem?_eq_some_iff.mp hw
      rw [List.length_take] at bound
      rw [List.getElem?_take_of_lt (by omega)] at hw
      obtain ⟨o, ho, text⟩ := cuts.tokens j w hw
      exact ⟨o, by rw [List.getElem?_take_of_lt (by omega), ho], text⟩
    · intro j o ho
      obtain ⟨a, ha, pointer⟩ := pointers₁ j o ho
      obtain ⟨bound, -⟩ := List.getElem?_eq_some_iff.mp ho
      refine ⟨a, ha, ?_⟩
      rw [base₂, base₁, frame, pointer]
      intro b hb
      have := room.apart a b ha hb
      omega
    · intro j w hw
      rw [List.getElem?_drop] at hw
      obtain ⟨o, ho, text⟩ := texts _ w hw
      exact ⟨o, by rw [List.getElem?_drop, ho], text⟩
    · intro j o ho
      rw [base₂]
      exact pointers₂ j o ho

theorem command_words (ws : List (List Int8)) :
    ∃ rest, ws ++ [[]] = command ws ++ rest := by
  unfold command
  split <;> rename_i bg
  · have some : ws ≠ [] := by
      rintro rfl
      exact absurd bg.1 (by simp)
    refine ⟨[ws.getLast some, []], ?_⟩
    conv_lhs => rw [← List.dropLast_append_getLast some, List.append_assoc]
    rfl
  · exact ⟨_, rfl⟩

/-- The parsed variables of a line of few words are as they should be. -/
theorem Parses.cuts {p : Parsed} (parses : Parses t m p) (texts : p.texts = ws ++ [[]])
    (pipe : p.pipe = pipeAt ws) (end_ : p.end_ = (command ws).length)
    (ampersand : p.ampersand = if Background ws then ((ws.length - 1 : Nat) : Int) else -1) :
    Cuts ws t m := by
  refine ⟨parses.end_.trans end_, parses.ampersand.trans ampersand, fun i w hw => ?_,
    parses.pipe.trans pipe⟩
  obtain ⟨rest, whole⟩ := command_words ws
  obtain ⟨inside, here⟩ := List.getElem?_eq_some_iff.mp hw
  have same : p.texts[i]? = some w := by
    rw [texts, whole, List.getElem?_append_left inside, hw]
  obtain ⟨inside', here'⟩ := List.getElem?_eq_some_iff.mp same
  have bound : i < t.tokens.length := by
    rw [parses.tokens.length_eq]
    exact inside'
  refine ⟨t.tokens[i], List.getElem?_eq_getElem bound, ?_⟩
  rw [← here']
  exact parses.tokens.get bound inside'

/-- `processInput` cuts a line up as it should if and only if it has ten words at most. -/
theorem processInput_splits_iff (h : Holds m 0 line) (some : ∃ c ∈ line, c ≠ 32) :
    Splits m line ↔ (words line).length ≤ 10 := by
  obtain ⟨t, m', run, parses⟩ := tokenLoop_parses h
  constructor
  · rintro ⟨t', m₁, run', cuts, -⟩
    by_contra long
    obtain ⟨rfl, rfl⟩ := Prod.mk.inj (Except.ok.inj (run.symm.trans run'))
    have low := (parse_long some (Nat.not_le.mp long)).1
    have := cuts.end_
    rw [parses.end_, low] at this
    omega
  · intro few
    have parsed := parse_words some few
    have cuts : Cuts (words line) t m' := by
      refine Parses.cuts parses ?_ ?_ ?_ ?_ <;> rw [parsed]
    refine ⟨t, m', run, cuts, fun calm mem same => Cuts.fills ⟨cuts.end_, cuts.ampersand,
      fun i w hw => ?_, cuts.pipe⟩ calm⟩
    obtain ⟨o, ho, text⟩ := cuts.tokens i w hw
    exact ⟨o, ho, text.congr fun _ _ _ => by rw [same]⟩

/-! `processInput` does these two. -/

theorem processInput_tokenLoop (mallocs : InputMallocs) (s : Session) :
    processInput mallocs s = (do
      let (t, mem) ← tokenLoop s.mem
      let s' := { s with mem := mem }
      if t.pipe ≠ -1 ∧ t.ampersand ≥ 0 then
        pure { s' with out := s'.out ++ ["piped processes are not able to run in background\n"] }
      else do
        let fd1 ← deref mallocs.fd1
        let s' := { s' with mem := s'.mem.storeInts fd1 0 1 }
        if t.pipe ≠ -1 then processPiped mallocs fd1 t s.mem.line s'
        else processSingle mallocs fd1 t s.mem.line s') := by
  rw [processInput, tokenLoop, bind_assoc]

/-- Behind a line without a pipe the memory is as the filled `argv0` leaves it. -/
theorem processSingle_fillArgv {mallocs : InputMallocs} {fd1 : Nat} {s s' : Session}
    (single : t.pipe = -1) (run : processSingle mallocs fd1 t line s = .ok s') :
    fillArgv mallocs t s.mem = .ok s'.mem := by
  rw [fillArgv, if_neg (not_not.mpr single)]
  unfold processSingle at run
  obtain ⟨m₁, store, run⟩ := bind_ok.mp run
  rw [store]
  obtain ⟨token, -, run⟩ := bind_ok.mp run
  obtain ⟨comm0, -, run⟩ := bind_ok.mp run
  split at run
  · exact congrArg Except.ok (incorrectComm_spec run).1.symm
  · obtain ⟨c, -, run⟩ := bind_ok.mp run
    split at run
    all_goals
      obtain rfl := Except.ok.inj run
      rfl

/-- Behind a line with one, unless the pipe could not be opened, as both `argv`s leave it. -/
theorem processPiped_fillArgv {mallocs : InputMallocs} {fd1 : Nat} {s s' : Session}
    (piped : t.pipe ≠ -1) (run : processPiped mallocs fd1 t line s = .ok s') :
    s' = s ∨ ∃ mem, mem.buffer = s.mem.buffer ∧ fillArgv mallocs t mem = .ok s'.mem := by
  unfold processPiped at run
  obtain ⟨fd, -, run⟩ := bind_ok.mp run
  split at run
  · exact .inl (Except.ok.inj run).symm
  rename_i r v _
  obtain ⟨fd2, -, run⟩ := bind_ok.mp run
  obtain ⟨m₁, first, run⟩ := bind_ok.mp run
  obtain ⟨m₂, second, run⟩ := bind_ok.mp run
  have buffer := (storeInts_spec ((s.mem.storeInts fd r v).storeInts fd1 0 v) fd2 r 1).2.trans
    ((storeInts_spec (s.mem.storeInts fd r v) fd1 0 v).2.trans (storeInts_spec s.mem fd r v).2)
  refine .inr ⟨_, buffer, ?_⟩
  rw [fillArgv, if_pos piped, first, ok_bind, second]
  obtain ⟨token, -, run⟩ := bind_ok.mp run
  obtain ⟨token', -, run⟩ := bind_ok.mp run
  obtain ⟨comm0, -, run⟩ := bind_ok.mp run
  split at run
  · exact congrArg Except.ok (incorrectComm_spec run).1.symm
  obtain ⟨comm1, -, run⟩ := bind_ok.mp run
  split at run
  · exact congrArg Except.ok (incorrectComm_spec run).1.symm
  obtain ⟨head, -, run⟩ := bind_ok.mp run
  split at run
  · obtain rfl := Except.ok.inj run
    rfl
  obtain ⟨c0, -, run⟩ := bind_ok.mp run
  obtain ⟨c1, -, run⟩ := bind_ok.mp run
  obtain rfl := Except.ok.inj run
  rfl

end

/-- The line buffer with a text in it. -/
def typed (text : String) : Mem where
  base := 0
  buffer := fun o => (chars text)[o]?.getD 0
  heap := fun _ => 0
  log := []

theorem processInput_splits_ls : Splits (typed " cat  | wc ") (chars " cat  | wc ") ↔
    (words (chars " cat  | wc ")).length ≤ 10 :=
  processInput_splits_iff ((readString_iff (n := 100) (by decide)).mp (by decide +kernel))
    (by decide)

/-- Eleven words: `end` stays -1. -/
theorem eleven_words : ∃ t m', tokenLoop (typed "a b c d e f g h i j k") = .ok (t, m') ∧
    t.end_ = -1 ∧ ¬ Splits (typed "a b c d e f g h i j k") (chars "a b c d e f g h i j k") := by
  have h : (tokenLoop (typed "a b c d e f g h i j k")).toOption.map (fun x => x.1.end_) =
      some (-1) := by decide +kernel
  obtain ⟨⟨t, m'⟩, run, end_⟩ := Option.map_eq_some_iff.mp h
  have end_ : t.end_ = -1 := end_
  have run : tokenLoop (typed "a b c d e f g h i j k") = .ok (t, m') := by
    exact ok_of_toOption run
  refine ⟨t, m', run, end_, fun ⟨t', m₁, run', cuts, _⟩ => ?_⟩
  obtain ⟨rfl, rfl⟩ := Prod.mk.inj (Except.ok.inj (run.symm.trans run'))
  have := cuts.end_
  omega

end BottlerOS.LineSplit
