import Mathlib.Data.List.Forall2
import Mathlib.Data.List.TakeWhile
import BottlerOS.ShellWords

/-! What `processInput` sees of a line, as a function of its text alone: the strings of its
tokens, `pipe`, `end` and `ampersand`, for lines of any number of words. -/

namespace BottlerOS.LineParse
open Machine Shell ShellWords

/-- The first loop of `processInput`. -/
def tokenLoop (m : Mem) : C (Split × Mem) := do
  let start ← strstrip 0 32 m
  splitFrom (MAX_ARGS - 1) 1 { tokens := [start], pipe := -1, end_ := -1, ampersand := -1 } m

structure Parsed where
  texts : List (List Int8)
  pipe : Int
  end_ : Int
  ampersand : Int
  deriving DecidableEq

/-- The text in front of the first space. -/
def word (l : List Int8) : List Int8 := l.takeWhile (· ≠ 32)

/-- The text behind that word and the spaces. -/
def behind (l : List Int8) : List Int8 := (l.dropWhile (· ≠ 32)).dropWhile (· = 32)

/-- The turns of the loop that are left, from its index `i` on, with the `pipe` found so far. -/
def parseFrom : (n i : Nat) → (pipe : Int) → List Int8 → Parsed
  | 0, _, pipe, l => ⟨[l], pipe, -1, -1⟩
  | n + 1, i, pipe, l =>
      let pipe := if i > 1 ∧ word l = chars "|" then (i : Int) - 1 else pipe
      if behind l = [] then
        if i > 1 ∧ word l = chars "&" then ⟨[word l, []], pipe, (i : Int) - 1, (i : Int) - 1⟩
        else ⟨[word l, []], pipe, i, -1⟩
      else
        let p := parseFrom n (i + 1) pipe (behind l)
        { p with texts := word l :: p.texts }

def parse (line : List Int8) : Parsed :=
  parseFrom (MAX_ARGS - 1) 1 (-1) (line.dropWhile (· = 32))

/-- The last word is an `&` behind others. -/
def Background (ws : List (List Int8)) : Prop := 1 < ws.length ∧ ws.getLast? = some (chars "&")

instance (ws : List (List Int8)) : Decidable (Background ws) := inferInstanceAs (Decidable (_ ∧ _))

/-- The words without such an `&`. -/
def command (ws : List (List Int8)) : List (List Int8) :=
  if Background ws then ws.dropLast else ws

/-- The index of the last word `|` at 1 or later, or -1. -/
def pipeAt (ws : List (List Int8)) : Int :=
  match ((List.range ws.length).filter fun i => 1 ≤ i ∧ ws[i]? = some (chars "|")).getLast? with
  | some i => i
  | none => -1

/-- The loop's variables are the parsed line. -/
structure Parses (t : Split) (m : Mem) (p : Parsed) : Prop where
  tokens : List.Forall₂ (Holds m) t.tokens p.texts
  pipe : t.pipe = p.pipe
  end_ : t.end_ = p.end_
  ampersand : t.ampersand = p.ampersand

section
variable {m m' : Mem} {l l' w line : List Int8} {k n last : Nat} {t : Split}
  {done : List (Nat × List Int8)} {ws ds : List (List Int8)}

theorem word_of (split : l = w ++ (List.replicate k 32 ++ l')) (plain : 32 ∉ w)
    (apart : l' ≠ [] → 0 < k) : word l = w := by
  have inside : ∀ c ∈ w, decide (c ≠ 32) = true := by
    intro c hc
    exact decide_eq_true fun e => plain (e ▸ hc)
  rw [word, split, List.takeWhile_append_of_pos inside]
  cases k with
  | succ k => simp [List.replicate_succ]
  | zero =>
    obtain rfl : l' = [] := by
      by_contra h
      exact absurd (apart h) (Nat.lt_irrefl 0)
    simp

theorem dropSpaces (head : l.head? ≠ some 32) :
    (List.replicate k 32 ++ l).dropWhile (fun c => decide (c = 32)) = l := by
  have spaces : ∀ c ∈ List.replicate k (32 : Int8), decide (c = 32) = true := by
    intro c hc
    exact decide_eq_true (List.eq_of_mem_replicate hc)
  rw [List.dropWhile_append_of_pos spaces]
  cases l with
  | nil => rfl
  | cons c l =>
    have : c ≠ 32 := fun e => head (by rw [e]; rfl)
    rw [List.dropWhile_cons_of_neg (by simpa using this)]

theorem behind_of (split : l = w ++ (List.replicate k 32 ++ l')) (plain : 32 ∉ w)
    (apart : l' ≠ [] → 0 < k) (head : l'.head? ≠ some 32) : behind l = l' := by
  have inside : ∀ c ∈ w, decide (c ≠ 32) = true := by
    intro c hc
    exact decide_eq_true fun e => plain (e ▸ hc)
  have cut : l.dropWhile (fun c => decide (c ≠ 32)) = List.replicate k 32 ++ l' := by
    rw [split, List.dropWhile_append_of_pos inside]
    cases k with
    | succ k => simp [List.replicate_succ]
    | zero =>
      obtain rfl : l' = [] := by
        by_contra h
        exact absurd (apart h) (Nat.lt_irrefl 0)
      simp
  rw [behind, cut, dropSpaces head]

theorem texts_of {texts : List (List Int8)}
    (kept : ∀ p ∈ done, Holds m p.1 p.2 ∧ p.1 + p.2.length < last) {tokens : List Nat}
    (rest : List.Forall₂ (Holds m) tokens texts) :
    List.Forall₂ (Holds m) (done.map (·.1) ++ tokens) (done.map (·.2) ++ texts) := by
  induction done with
  | nil => exact rest
  | cons p done ih =>
    exact .cons (kept p List.mem_cons_self).1 (ih fun q hq => kept q (List.mem_cons_of_mem _ hq))

/-- The loop parses the rest of the line. The induction is as for `splitFrom_words`. -/
theorem splitFrom_parses (tokens : t.tokens = done.map (·.1) ++ [last]) (h : Holds m last l)
    (head : l.head? ≠ some 32)
    (before : ∀ p ∈ done, Holds m p.1 p.2 ∧ p.1 + p.2.length < last)
    (fresh : t.end_ = -1 ∧ t.ampersand = -1) :
    ∃ t' m', splitFrom n (done.length + 1) t m = .ok (t', m') ∧
      Parses t' m' { parseFrom n (done.length + 1) t.pipe l with
        texts := done.map (·.2) ++ (parseFrom n (done.length + 1) t.pipe l).texts } := by
  induction n generalizing m last l done t with
  | zero =>
    refine ⟨t, m, rfl, ?_, rfl, fresh.1, fresh.2⟩
    rw [tokens]
    exact texts_of before (.cons h .nil)
  | succ n ih =>
    obtain ⟨w, k, l', m₁, split, plain, apart, head', -, first, rest, kept, turn⟩ :=
      splitFrom_turn tokens h before
    have hw := word_of split plain apart
    have hb := behind_of split plain apart head'
    have texts : List.Forall₂ (Holds m₁) (done.map (·.1) ++ [last, last + w.length + k])
        (done.map (·.2) ++ [w, l']) := texts_of kept (.cons first (.cons rest .nil))
    have both : (Split.turn t (done.length + 1) (last + w.length + k) w).tokens =
        done.map (·.1) ++ [last, last + w.length + k] := by
      simp [Split.turn, tokens]
    rw [turn n, parseFrom, hw, hb]
    by_cases last' : l' = []
    · rw [if_pos last']
      simp only [if_pos last']
      rw [← both, last'] at texts
      by_cases ampersand : done.length + 1 > 1 ∧ w = chars "&"
      · rw [if_pos ampersand]
        simp only [if_pos ampersand]
        exact ⟨_, m₁, rfl, texts, rfl, rfl, rfl⟩
      · rw [if_neg ampersand]
        simp only [if_neg ampersand]
        exact ⟨_, m₁, rfl, texts, rfl, rfl, fresh.2⟩
    · rw [if_neg last']
      simp only [if_neg last']
      have tokens' : (Split.turn t (done.length + 1) (last + w.length + k) w).tokens =
          (done ++ [(last, w)]).map (·.1) ++ [last + w.length + k] := by
        simp [Split.turn, tokens]
      obtain ⟨t', m', run, parses⟩ := ih tokens' rest head'
        (before_snoc kept first (apart last')) fresh
      rw [List.length_append, List.length_singleton] at run parses
      refine ⟨t', m', run, ?_, parses.pipe, parses.end_, parses.ampersand⟩
      have := parses.tokens
      rw [List.map_append, List.append_assoc] at this
      exact this

theorem tokenLoop_start (h : Holds m 0 line) : ∃ k l', line = List.replicate k 32 ++ l' ∧
    l'.head? ≠ some 32 ∧ Holds m k l' ∧ tokenLoop m = splitFrom (MAX_ARGS - 1) 1
      { tokens := [k], pipe := -1, end_ := -1, ampersand := -1 } m := by
  obtain ⟨k, l', strip, split, head, rest⟩ := strstrip_holds h
  refine ⟨k, l', split, head, rest, ?_⟩
  rw [tokenLoop, strip, ok_bind]

/-- What `processInput` finds behind its first loop, for any line. -/
theorem tokenLoop_parses (h : Holds m 0 line) :
    ∃ t m', tokenLoop m = .ok (t, m') ∧ Parses t m' (parse line) := by
  obtain ⟨k, l', split, head, rest, loop⟩ := tokenLoop_start h
  obtain ⟨t, m', run, parses⟩ := splitFrom_parses (n := MAX_ARGS - 1)
    (t := { tokens := [k], pipe := -1, end_ := -1, ampersand := -1 })
    (show [k] = ([] : List (Nat × List Int8)).map (·.1) ++ [k] from rfl) rest head (by simp)
    ⟨rfl, rfl⟩
  refine ⟨t, m', loop.trans run, ?_⟩
  rw [parse, split, dropSpaces head]
  exact parses

/-! The parsed line and its words. -/

theorem pipeAt_snoc : pipeAt (ds ++ [w]) =
    if 0 < ds.length ∧ w = chars "|" then (ds.length : Int) else pipeAt ds := by
  have earlier : (List.range ds.length).filter
      (fun i => decide (1 ≤ i ∧ (ds ++ [w])[i]? = some (chars "|"))) =
      (List.range ds.length).filter fun i => decide (1 ≤ i ∧ ds[i]? = some (chars "|")) := by
    apply List.filter_congr
    intro i hi
    rw [List.getElem?_append_left (List.mem_range.mp hi)]
  have last : (ds ++ [w])[ds.length]? = some w := by
    rw [List.getElem?_append_right (Nat.le_refl _), Nat.sub_self]
    rfl
  unfold pipeAt
  rw [List.length_append, List.length_singleton, List.range_succ, List.filter_append, earlier]
  by_cases here : 0 < ds.length ∧ w = chars "|"
  · rw [if_pos here, List.filter_cons_of_pos (by simp [here.2]; omega), List.filter_nil,
      List.getLast?_concat]
  · rw [if_neg here, List.filter_cons_of_neg (by simp; grind), List.filter_nil,
      List.append_nil]

theorem background_snoc : Background (ds ++ [w]) ↔ 0 < ds.length ∧ w = chars "&" := by
  unfold Background
  rw [List.getLast?_concat, List.length_append, List.length_singleton, Option.some.injEq]
  constructor <;> rintro ⟨long, same⟩ <;> exact ⟨by omega, same⟩

theorem command_background (h : Background (ds ++ [w])) : command (ds ++ [w]) = ds := by
  rw [command, if_pos h, List.dropLast_concat]

theorem behind_head (l : List Int8) : (behind l).head? ≠ some 32 := by
  intro space
  have := List.head?_dropWhile_not (fun c : Int8 => decide (c = 32)) (l.dropWhile (· ≠ 32))
  rw [show (l.dropWhile (· ≠ 32)).dropWhile (fun c => decide (c = 32)) = behind l from rfl,
    space] at this
  simp at this

theorem word_plain (l : List Int8) : 32 ∉ word l := by
  intro space
  have := List.mem_takeWhile_imp space
  simp at this

theorem word_ne_nil (ne : l ≠ []) (head : l.head? ≠ some 32) : word l ≠ [] := by
  cases l with
  | nil => exact absurd rfl ne
  | cons c l =>
    have : c ≠ 32 := fun e => head (by rw [e]; rfl)
    rw [word, List.takeWhile_cons_of_pos (by simpa using this)]
    exact List.cons_ne_nil _ _

/-- A word, its spaces and what is behind them. -/
theorem split_word (l : List Int8) : ∃ k, l = word l ++ (List.replicate k 32 ++ behind l) ∧
    (behind l ≠ [] → 0 < k) := by
  have whole : l = word l ++ l.dropWhile (· ≠ 32) := List.takeWhile_append_dropWhile.symm
  have rest : l.dropWhile (· ≠ 32) =
      (l.dropWhile (· ≠ 32)).takeWhile (fun c => decide (c = 32)) ++ behind l :=
    List.takeWhile_append_dropWhile.symm
  have spaces : (l.dropWhile (· ≠ 32)).takeWhile (fun c => decide (c = 32)) = List.replicate
      ((l.dropWhile (· ≠ 32)).takeWhile (fun c => decide (c = 32))).length 32 := by
    refine List.eq_replicate_of_mem fun c hc => ?_
    simpa using List.mem_takeWhile_imp hc
  refine ⟨((l.dropWhile (· ≠ 32)).takeWhile (fun c => decide (c = 32))).length, ?_, fun some => ?_⟩
  · rw [← spaces, ← rest]
    exact whole
  · rcases Nat.eq_zero_or_pos ((l.dropWhile (· ≠ 32)).takeWhile (fun c => decide (c = 32))).length
      with zero | pos
    · rw [List.length_eq_zero_iff.mp zero, List.nil_append] at rest
      cases hr : l.dropWhile (· ≠ 32) with
      | nil => rw [rest] at hr; exact absurd hr some
      | cons c tail =>
        have first := List.head?_dropWhile_not (fun c : Int8 => decide (c ≠ 32)) l
        rw [hr] at first
        rw [hr, List.takeWhile_cons_of_pos (by simpa using first)] at zero
        cases zero
    · exact pos

theorem words_cut (ne : l ≠ []) (head : l.head? ≠ some 32) :
    words l = word l :: words (behind l) := by
  obtain ⟨k, split, apart⟩ := split_word l
  have := words_word (k := k) (word_ne_nil ne head) (word_plain l) apart
  rwa [← split] at this

/-- The rest of a line of few words, behind the words `ds`. -/
theorem parseFrom_words (ne : l ≠ []) (head : l.head? ≠ some 32) (fits : (words l).length ≤ n) :
    parseFrom n (ds.length + 1) (pipeAt ds) l = ⟨words l ++ [[]], pipeAt (ds ++ words l),
      (command (ds ++ words l)).length,
      if Background (ds ++ words l) then (((ds ++ words l).length - 1 : Nat) : Int) else -1⟩ := by
  induction n generalizing l ds with
  | zero =>
    have cut := words_cut ne head
    rw [List.length_eq_zero_iff.mp (Nat.le_zero.mp fits)] at cut
    cases cut
  | succ n ih =>
    have cut := words_cut ne head
    have pipe : (if ds.length + 1 > 1 ∧ word l = chars "|" then ((ds.length + 1 : Nat) : Int) - 1
        else pipeAt ds) = pipeAt (ds ++ [word l]) := by
      rw [pipeAt_snoc]
      by_cases here : 0 < ds.length ∧ word l = chars "|"
      · rw [if_pos here, if_pos ⟨by omega, here.2⟩]
        omega
      · rw [if_neg here, if_neg fun h => here ⟨by omega, h.2⟩]
    rw [parseFrom, pipe]
    by_cases last : behind l = []
    · rw [last, words_nil] at cut
      simp only [if_pos last]
      rw [cut]
      by_cases ampersand : ds.length + 1 > 1 ∧ word l = chars "&"
      · have bg : Background (ds ++ [word l]) := background_snoc.mpr ⟨by omega, ampersand.2⟩
        rw [if_pos ampersand, if_pos bg, command_background bg]
        simp
      · have bg : ¬ Background (ds ++ [word l]) :=
          fun h => ampersand ⟨by have := (background_snoc.mp h).1; omega, (background_snoc.mp h).2⟩
        rw [if_neg ampersand, if_neg bg, command, if_neg bg]
        simp
    · have rest : parseFrom n ((ds ++ [word l]).length + 1) (pipeAt (ds ++ [word l]))
          (behind l) = _ :=
        ih last (behind_head l) (by rw [cut, List.length_cons] at fits; omega)
      rw [List.length_append, List.length_singleton, List.append_assoc, List.singleton_append,
        ← cut] at rest
      simp only [if_neg last, rest]
      rw [cut]
      rfl

/-- The rest of a line of more words than turns. -/
theorem parseFrom_long {i : Nat} {pipe : Int} (ne : l ≠ []) (head : l.head? ≠ some 32)
    (long : n < (words l).length) :
    (parseFrom n i pipe l).end_ = -1 ∧ (parseFrom n i pipe l).ampersand = -1 := by
  induction n generalizing l i pipe with
  | zero => exact ⟨rfl, rfl⟩
  | succ n ih =>
    have cut := words_cut ne head
    rw [cut, List.length_cons] at long
    have last : behind l ≠ [] := by
      intro last
      rw [last, words_nil] at long
      exact absurd long (by simp)
    rw [parseFrom]
    simp only [if_neg last]
    exact ih last (behind_head l) (by omega)

/-- A line with a character other than a space. -/
theorem stripped (visible : ∃ c ∈ line, c ≠ 32) :
    line.dropWhile (fun c => decide (c = 32)) ≠ [] ∧
      (line.dropWhile (fun c => decide (c = 32))).head? ≠ some 32 ∧
      words (line.dropWhile (fun c => decide (c = 32))) = words line := by
  have spaces : line.takeWhile (fun c => decide (c = 32)) = List.replicate
      (line.takeWhile (fun c => decide (c = 32))).length 32 := by
    refine List.eq_replicate_of_mem fun c hc => ?_
    simpa using List.mem_takeWhile_imp hc
  have head : (line.dropWhile (fun c => decide (c = 32))).head? ≠ some 32 := by
    intro space
    have := List.head?_dropWhile_not (fun c : Int8 => decide (c = 32)) line
    rw [space] at this
    simp at this
  refine ⟨fun none => ?_, head, ?_⟩
  · obtain ⟨c, hc, other⟩ := visible
    rw [List.dropWhile_eq_nil_iff] at none
    exact other (of_decide_eq_true (none c hc))
  · have whole : line = line.takeWhile (fun c => decide (c = 32)) ++
        line.dropWhile (fun c => decide (c = 32)) := List.takeWhile_append_dropWhile.symm
    rw [spaces] at whole
    conv_rhs => rw [whole, words_space]

theorem parse_words (visible : ∃ c ∈ line, c ≠ 32) (few : (words line).length ≤ 10) :
    parse line = ⟨words line ++ [[]], pipeAt (words line), (command (words line)).length,
      if Background (words line) then (((words line).length - 1 : Nat) : Int) else -1⟩ := by
  obtain ⟨ne, head, same⟩ := stripped visible
  have parsed : parseFrom (MAX_ARGS - 1) (([] : List (List Int8)).length + 1) (pipeAt [])
      (line.dropWhile (· = 32)) = _ := parseFrom_words ne head (by rw [same, MAX_ARGS]; omega)
  rw [List.nil_append, same] at parsed
  exact parsed

theorem parse_long (visible : ∃ c ∈ line, c ≠ 32) (long : 10 < (words line).length) :
    (parse line).end_ = -1 ∧ (parse line).ampersand = -1 := by
  obtain ⟨ne, head, same⟩ := stripped visible
  exact parseFrom_long ne head (by rw [same, MAX_ARGS]; omega)

end

end BottlerOS.LineParse
