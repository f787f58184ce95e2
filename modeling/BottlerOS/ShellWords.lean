import BottlerOS.Shell

/-! How `processInput` cuts a line up: each token is a string of its own in the line buffer,
and the tokens are the words of the line. -/

namespace BottlerOS.ShellWords
open Machine Shell

/-- The words of a line. -/
def words (line : List Int8) : List (List Int8) := (line.splitOn 32).filter (· ≠ [])

theorem words_nil : words [] = [] := by
  simp [words]

theorem words_space (k : Nat) (l : List Int8) : words (List.replicate k 32 ++ l) = words l := by
  induction k with
  | zero => rfl
  | succ k ih =>
    rw [← ih, List.replicate_succ, List.cons_append]
    simp [words, List.splitOn_cons_eq_if_modifyHead]

theorem words_word {w l : List Int8} {k : Nat} (ne : w ≠ []) (plain : 32 ∉ w)
    (apart : l ≠ [] → 0 < k) : words (w ++ (List.replicate k 32 ++ l)) = w :: words l := by
  cases k with
  | zero =>
    obtain rfl : l = [] := by
      by_contra h
      exact absurd (apart h) (Nat.lt_irrefl 0)
    simp [words, List.splitOn_eq_singleton plain, ne]
  | succ k =>
    rw [← words_space k l, List.replicate_succ, List.cons_append]
    simp [words, List.splitOn_append_cons_self_of_not_mem plain, ne]

/-- The string at an offset of the buffer. -/
def Holds (m : Mem) : Nat → List Int8 → Prop
  | o, [] => o < SIZE ∧ m.buffer o = 0
  | o, c :: l => c ≠ 0 ∧ m.buffer o = c ∧ Holds m (o + 1) l

/-- Some stores further. -/
def Grows (m m' : Mem) : Prop := ∃ sts : List Store, m' = sts.foldl Mem.store m

section
variable {m m' : Mem} {o : Nat} {l w : List Int8}

theorem Grows.refl (m : Mem) : Grows m m := ⟨[], rfl⟩

theorem Grows.trans {m'' : Mem} (h : Grows m m') (h' : Grows m' m'') : Grows m m'' := by
  obtain ⟨a, rfl⟩ := h
  obtain ⟨b, rfl⟩ := h'
  exact ⟨a ++ b, by rw [List.foldl_append]⟩

theorem Grows.store (m : Mem) (st : Store) : Grows m (m.store st) := ⟨[st], rfl⟩

@[simp] theorem store_byte (m : Mem) (o : Nat) (b : Int8) :
    (m.store (.byte o b)).buffer = Function.update m.buffer o b := rfl

@[simp] theorem store_word (m : Mem) (a w : Nat) :
    (m.store (.word a w)).buffer = m.buffer := rfl

@[simp] theorem store_base (m : Mem) (st : Store) : (m.store st).base = m.base := by
  cases st <;> rfl

@[simp] theorem store_log (m : Mem) (st : Store) : (m.store st).log = m.log ++ [st] := rfl

theorem Grows.base (h : Grows m m') : m'.base = m.base := by
  obtain ⟨sts, rfl⟩ := h
  induction sts generalizing m with
  | nil => rfl
  | cons st sts ih => rw [List.foldl_cons, ih, store_base]

theorem Holds.bound (h : Holds m o l) : o + l.length < SIZE := by
  induction l generalizing o with
  | nil => exact h.1
  | cons c l ih =>
    have := ih h.2.2
    simp only [List.length_cons]
    omega

theorem Holds.inside (h : Holds m o l) : o < SIZE := by
  have := h.bound
  omega

theorem Holds.congr (h : Holds m o l)
    (same : ∀ a, o ≤ a → a ≤ o + l.length → m'.buffer a = m.buffer a) : Holds m' o l := by
  induction l generalizing o with
  | nil => exact ⟨h.1, (same o (Nat.le_refl o) (Nat.le_refl _)).trans h.2⟩
  | cons c l ih =>
    obtain ⟨ne, here, rest⟩ := h
    refine ⟨ne, (same o (Nat.le_refl o) (Nat.le_add_right ..)).trans here,
      ih rest fun a lo hi => ?_⟩
    exact same a (by omega) (by simp only [List.length_cons]; omega)

theorem Holds.read (h : Holds m o l) : m.read o = .ok (m.buffer o) := by
  unfold Mem.read
  rw [if_pos h.inside]
  rfl

theorem Holds.buffer_eq_zero (h : Holds m o l) : m.buffer o = 0 ↔ l = [] := by
  cases l with
  | nil => simp [h.2]
  | cons c l => simp [h.2.1, h.1]

/-- A NUL further on ends a string. -/
theorem exists_holds {i : Nat} (hi : i < SIZE) (h : m.buffer i = 0) (le : o ≤ i) :
    ∃ l, Holds m o l := by
  induction d : i - o generalizing o with
  | zero =>
    obtain rfl : o = i := by omega
    exact ⟨[], hi, h⟩
  | succ d ih =>
    by_cases zero : m.buffer o = 0
    · exact ⟨[], by omega, zero⟩
    · obtain ⟨l, hl⟩ := ih (o := o + 1) (by omega) (by omega)
      exact ⟨m.buffer o :: l, zero, rfl, hl⟩

theorem Holds.takeWhile (h : Holds m o l) :
    ((List.range' o (SIZE - o)).map m.buffer).takeWhile (· ≠ 0) = l := by
  induction l generalizing o with
  | nil =>
    obtain ⟨n, hn⟩ : ∃ n, SIZE - o = n + 1 := ⟨SIZE - o - 1, by have := h.1; omega⟩
    simp [hn, List.range'_succ, h.2]
  | cons c l ih =>
    obtain ⟨n, hn⟩ : ∃ n, SIZE - o = n + 1 := ⟨SIZE - o - 1, by have := h.inside; omega⟩
    have rest := ih h.2.2
    rw [show SIZE - (o + 1) = n by omega] at rest
    simpa [hn, List.range'_succ, h.2.1, h.1] using rest

theorem Holds.line (h : Holds m 0 l) : m.line = l := by
  rw [← h.takeWhile]
  simp [Mem.line, List.range_eq_range']

theorem strcmp_holds {literal : List Int8} (h : Holds m o w) (plain : 0 ∉ literal) :
    ∃ d, strcmp o literal m = .ok d ∧ (d = 0 ↔ w = literal) := by
  induction literal generalizing o w with
  | nil =>
    refine ⟨(m.buffer o).toInt, by simp [strcmp, h.read], ?_⟩
    rw [← h.buffer_eq_zero, ← Int8.toInt_inj]
    rfl
  | cons c literal ih =>
    obtain ⟨nul, plain⟩ := not_or.mp (List.mem_cons.not.mp plain)
    unfold strcmp
    rw [h.read, ok_bind]
    cases w with
    | nil =>
      rw [h.2, if_neg (by simp)]
      refine ⟨0 - c.toInt, rfl, ?_⟩
      constructor
      · intro e
        exact absurd (Int8.toInt_inj.mp (show (0 : Int8).toInt = c.toInt by simp; omega)) nul
      · rintro ⟨⟩
    | cons b w =>
      obtain ⟨ne, here, rest⟩ := h
      rw [here]
      by_cases same : b = c
      · obtain ⟨d, run, hd⟩ := ih rest plain
        rw [if_pos ⟨ne, same⟩]
        exact ⟨d, run, by rw [hd, same, List.cons.injEq, eq_self, true_and]⟩
      · rw [if_neg fun h => same h.2]
        refine ⟨b.toInt - c.toInt, rfl, ?_⟩
        constructor
        · intro e
          exact absurd (Int8.toInt_inj.mp (by omega)) same
        · intro e
          exact absurd (List.cons.inj e).1 same

theorem strstrip_holds (h : Holds m 0 l) : ∃ k l', strstrip 0 32 m = .ok k ∧
    l = List.replicate k 32 ++ l' ∧ l'.head? ≠ some 32 ∧ Holds m k l' := by
  suffices all : ∀ n o l, n + o = SIZE → Holds m o l → ∃ k l', strstripFrom n o 32 m = .ok (o + k) ∧
      l = List.replicate k 32 ++ l' ∧ l'.head? ≠ some 32 ∧ Holds m (o + k) l' by
    obtain ⟨k, l', run, rest⟩ := all SIZE 0 l rfl h
    rw [Nat.zero_add] at run rest
    exact ⟨k, l', run, rest⟩
  intro n
  induction n with
  | zero =>
    intro o l hn h
    have := h.inside
    omega
  | succ n ih =>
    intro o l hn h
    unfold strstripFrom
    cases l with
    | nil =>
      rw [h.2, if_neg (by simp)]
      exact ⟨0, [], rfl, rfl, by simp, h⟩
    | cons c l =>
      rw [h.2.1]
      by_cases space : c = 32
      · obtain ⟨k, l', run, split, head, rest⟩ := ih (o + 1) l (by omega) h.2.2
        rw [if_pos ⟨h.1, space⟩]
        rw [show o + 1 + k = o + (k + 1) by omega] at run rest
        exact ⟨k + 1, l', run, by rw [space, split]; rfl, head, rest⟩
      · rw [if_neg fun h => space h.2]
        exact ⟨0, c :: l, rfl, rfl, by simpa using space, h⟩

/-- Behind a word `strtok` ends the word and goes on to the next one. -/
theorem strtokFrom_spaces {n : Nat} (hn : n + o = SIZE) (h : Holds m o l) :
    ∃ k l' m', strtokFrom n true o 32 m = .ok (o + k, m') ∧ l = List.replicate k 32 ++ l' ∧
      l'.head? ≠ some 32 ∧ Grows m m' ∧ Holds m' (o + k) l' ∧ (0 < k → m'.buffer o = 0) ∧
      ∀ a, a < o → m'.buffer a = m.buffer a := by
  induction n generalizing o l m with
  | zero =>
    have := h.inside
    omega
  | succ n ih =>
    unfold strtokFrom
    cases l with
    | nil =>
      rw [h.2, if_neg (by simp)]
      exact ⟨0, [], m, rfl, rfl, by simp, .refl m, h, by omega, fun _ _ => rfl⟩
    | cons c l =>
      rw [h.2.1, if_pos h.1]
      by_cases space : c = 32
      · have kept : Holds (m.store (.byte o 0)) (o + 1) l := by
          refine h.2.2.congr fun a lo hi => ?_
          rw [store_byte, Function.update_of_ne (by omega)]
        obtain ⟨k, l', m', run, split, head, grows, rest, -, frame⟩ := ih (by omega) kept
        rw [if_pos space]
        rw [show o + 1 + k = o + (k + 1) by omega] at run rest
        refine ⟨k + 1, l', m', run, by rw [space, split]; rfl, head,
          (Grows.store m _).trans grows, rest, fun _ => ?_, fun a ha => ?_⟩
        · rw [frame o (by omega), store_byte, Function.update_self]
        · rw [frame a (by omega), store_byte, Function.update_of_ne (by omega)]
      · rw [if_neg space, if_pos rfl]
        exact ⟨0, c :: l, m, rfl, rfl, by simpa using space, .refl m, h, by omega, fun _ _ => rfl⟩

/-- `strtok` cuts the first word off. -/
theorem strtok_holds (h : Holds m o l) : ∃ w k l' m', strtok o 32 m = .ok (o + w.length + k, m') ∧
    l = w ++ (List.replicate k 32 ++ l') ∧ 32 ∉ w ∧ (l' ≠ [] → 0 < k) ∧ l'.head? ≠ some 32 ∧
    Grows m m' ∧ Holds m' o w ∧ Holds m' (o + w.length + k) l' ∧
    ∀ a, a < o → m'.buffer a = m.buffer a := by
  suffices all : ∀ n o l, n + o = SIZE → Holds m o l →
      ∃ w k l' m', strtokFrom n false o 32 m = .ok (o + w.length + k, m') ∧
      l = w ++ (List.replicate k 32 ++ l') ∧ 32 ∉ w ∧ (l' ≠ [] → 0 < k) ∧ l'.head? ≠ some 32 ∧
      Grows m m' ∧ Holds m' o w ∧ Holds m' (o + w.length + k) l' ∧
      ∀ a, a < o → m'.buffer a = m.buffer a from
    all (SIZE - o) o l (by have := h.inside; omega) h
  intro n
  induction n with
  | zero =>
    intro o l hn h
    have := h.inside
    omega
  | succ n ih =>
    intro o l hn h
    cases l with
    | nil =>
      unfold strtokFrom
      rw [h.2, if_neg (by simp)]
      exact ⟨[], 0, [], m, rfl, rfl, by simp, by simp, by simp, .refl m, h, h, fun _ _ => rfl⟩
    | cons c l =>
      by_cases space : c = 32
      · obtain ⟨k, l', m', run, split, head, grows, rest, nul, frame⟩ :=
          strtokFrom_spaces hn h
        have some : 0 < k := by
          rcases Nat.eq_zero_or_pos k with rfl | pos
          · rw [List.replicate_zero, List.nil_append] at split
            rw [← split] at head
            exact absurd (congrArg _ space) head
          · exact pos
        refine ⟨[], k, l', m', ?_, split, by simp, fun _ => some, head, grows,
          ⟨h.inside, nul some⟩, rest, frame⟩
        -- both loops begin with the NUL
        unfold strtokFrom at run ⊢
        rw [h.2.1, if_pos h.1, if_pos space] at run ⊢
        exact run
      · obtain ⟨w, k, l', m', run, split, plain, apart, head, grows, word, rest, frame⟩ :=
          ih (o + 1) l (by omega) h.2.2
        unfold strtokFrom
        rw [h.2.1, if_pos h.1, if_neg space, if_neg (by simp)]
        rw [show o + 1 + w.length + k = o + (c :: w).length + k by
          simp only [List.length_cons]; omega] at run rest
        refine ⟨c :: w, k, l', m', run, by rw [split]; rfl, ?_, apart, head, grows,
          ⟨h.1, (frame o (by omega)).trans h.2.1, word⟩, rest, fun a ha => frame a (by omega)⟩
        simp only [List.mem_cons, not_or]
        exact ⟨fun e => space e.symm, plain⟩

/-- A word that `strtok` cuts off in front of something, or off a line that is not empty. -/
theorem word_ne_nil {k : Nat} {l' : List Int8} (split : l = w ++ (List.replicate k 32 ++ l'))
    (ne : l ≠ []) (head : l.head? ≠ some 32) (apart : l' ≠ [] → 0 < k) : w ≠ [] := by
  rintro rfl
  cases k with
  | zero =>
    obtain rfl : l' = [] := by
      by_contra h
      exact absurd (apart h) (Nat.lt_irrefl 0)
    exact ne split
  | succ k =>
    rw [split] at head
    exact head rfl

theorem isWord_holds {i : Nat} {literal : String} (h : Holds m o w) (plain : 0 ∉ chars literal) :
    isWord i o literal m = .ok (decide (i > 1 ∧ w = chars literal)) := by
  unfold isWord
  by_cases later : i > 1
  · obtain ⟨d, run, same⟩ := strcmp_holds h plain
    simp [later, run, same]
  · simp [later]

/-- What a turn of the loop makes of the tokens: `last` is a word and `next` the one behind it. -/
def Split.turn (t : Split) (i next : Nat) (w : List Int8) : Split := { t with
  tokens := t.tokens ++ [next]
  pipe := if i > 1 ∧ w = chars "|" then (i : Int) - 1 else t.pipe }

/-- One turn of the loop, behind the words `done`. -/
theorem splitFrom_turn {last : Nat} {done : List (Nat × List Int8)} {t : Split}
    (tokens : t.tokens = done.map (·.1) ++ [last]) (h : Holds m last l)
    (before : ∀ p ∈ done, Holds m p.1 p.2 ∧ p.1 + p.2.length < last) :
    ∃ w k l' m₁, l = w ++ (List.replicate k 32 ++ l') ∧ 32 ∉ w ∧ (l' ≠ [] → 0 < k) ∧
      l'.head? ≠ some 32 ∧ Grows m m₁ ∧ Holds m₁ last w ∧ Holds m₁ (last + w.length + k) l' ∧
      (∀ p ∈ done, Holds m₁ p.1 p.2 ∧ p.1 + p.2.length < last) ∧
      ∀ n, splitFrom (n + 1) (done.length + 1) t m =
        if l' = [] then
          if done.length + 1 > 1 ∧ w = chars "&" then
            .ok ({ Split.turn t (done.length + 1) (last + w.length + k) w with
              ampersand := ((done.length + 1 : Nat) : Int) - 1
              end_ := ((done.length + 1 : Nat) : Int) - 1 }, m₁)
          else .ok ({ Split.turn t (done.length + 1) (last + w.length + k) w with
            end_ := (done.length + 1 : Nat) }, m₁)
        else splitFrom n (done.length + 1 + 1)
          (Split.turn t (done.length + 1) (last + w.length + k) w) m₁ := by
  obtain ⟨w, k, l', m₁, cut, split, plain, apart, head', grows, word, rest, frame⟩ :=
    strtok_holds h
  have fetch : t.tokens[done.length + 1 - 1]? = some last := by
    rw [tokens, Nat.add_sub_cancel, List.getElem?_append_right (by simp)]
    simp
  refine ⟨w, k, l', m₁, split, plain, apart, head', grows, word, rest, fun p hp => ?_, fun n => ?_⟩
  · obtain ⟨text, below⟩ := before p hp
    exact ⟨text.congr fun a _ hi => frame a (by omega), below⟩
  · rw [splitFrom]
    simp only [fetch, deref_some, ok_bind, cut, isWord_holds word (show 0 ∉ chars "|" by decide),
      isWord_holds word (show 0 ∉ chars "&" by decide), rest.read, rest.buffer_eq_zero,
      decide_eq_true_eq]
    rfl

theorem before_snoc {last k : Nat} {done : List (Nat × List Int8)}
    (kept : ∀ p ∈ done, Holds m p.1 p.2 ∧ p.1 + p.2.length < last) (word : Holds m last w)
    (pos : 0 < k) : ∀ p ∈ done ++ [(last, w)],
      Holds m p.1 p.2 ∧ p.1 + p.2.length < last + w.length + k := by
  intro p hp
  rcases List.mem_append.mp hp with hp | hp
  · obtain ⟨text, below⟩ := kept p hp
    exact ⟨text, by omega⟩
  · obtain rfl := List.mem_singleton.mp hp
    exact ⟨word, by simp only; omega⟩

/-- The tokens of a line that ends in `&` are its words before that. The induction is over the
turns left; `done` are the tokens with their words so far. -/
theorem splitFrom_words {n last : Nat} {done : List (Nat × List Int8)} {t : Split}
    (tokens : t.tokens = done.map (·.1) ++ [last]) (h : Holds m last l)
    (head : l.head? ≠ some 32)
    (before : ∀ p ∈ done, Holds m p.1 p.2 ∧ p.1 + p.2.length < last)
    (more : done ≠ [] → l ≠ []) (calm : t.ampersand < 0) :
    ∃ t' m', splitFrom n (done.length + 1) t m = .ok (t', m') ∧ Grows m m' ∧
      (t'.ampersand ≥ 0 → ∃ all : List (Nat × List Int8), all ≠ [] ∧ t'.end_ = all.length ∧
        t'.tokens.take all.length = all.map (·.1) ∧ (∀ p ∈ all, Holds m' p.1 p.2) ∧
        all.map (·.2) = (done.map (·.2) ++ words l).dropLast) := by
  induction n generalizing m last l done t with
  | zero => exact ⟨t, m, rfl, .refl m, fun h => by omega⟩
  | succ n ih =>
    obtain ⟨w, k, l', m₁, split, plain, apart, head', grows, word, rest, kept, turn⟩ :=
      splitFrom_turn tokens h before
    rw [turn n]
    by_cases last' : l' = []
    · subst last'
      rw [if_pos rfl]
      by_cases ampersand : done.length + 1 > 1 ∧ w = chars "&"
      · have first : done ≠ [] := List.length_pos_iff.mp (by omega)
        have ne := word_ne_nil split (more first) head apart
        rw [if_pos ampersand]
        refine ⟨_, m₁, rfl, grows,
          fun _ => ⟨done, first, by simp, ?_, fun p hp => (kept p hp).1, ?_⟩⟩
        · simp [Split.turn, tokens]
        · rw [split, words_word ne plain apart, words_nil, List.dropLast_concat]
      · rw [if_neg ampersand]
        exact ⟨_, m₁, rfl, grows, fun h => absurd h (Int.not_le.mpr calm)⟩
    · rw [if_neg last']
      have ne : w ≠ [] := by
        refine word_ne_nil split ?_ head apart
        rintro rfl
        simp [last'] at split
      have tokens' : (Split.turn t (done.length + 1) (last + w.length + k) w).tokens =
          (done ++ [(last, w)]).map (·.1) ++ [last + w.length + k] := by
        simp [Split.turn, tokens]
      obtain ⟨t', m', run, grows', all⟩ :=
        ih tokens' rest head' (before_snoc kept word (apart last'))
        (fun _ => last') calm
      rw [List.length_append, List.length_singleton] at run
      refine ⟨t', m', run, grows.trans grows', fun h => ?_⟩
      obtain ⟨done', some, end_, taken, texts, same⟩ := all h
      refine ⟨done', some, end_, taken, texts, ?_⟩
      rw [same, split, words_word ne plain apart, List.map_append, List.append_assoc]
      rfl

end

end BottlerOS.ShellWords
