import BottlerOS.Shell
import BottlerOS.Library.Yields

/-! `strstrip` and `strtok` of `libc.c` on a string of any length: the maximal runs between the
delimiters, each of them ended where it stands. -/

namespace BottlerOS.StringTokens
open Machine Shell Yields

/-- `strtok` again and again, until it is at the terminating NUL. -/
def strtoks (size : Nat) (delim : Int8) : (fuel : Nat) → (s : Nat) → Mem → C (List Nat × Mem)
  | 0, _, _ => .error .hang
  | fuel + 1, s, m =>
      if s < size then
        if m.buffer s = 0 then pure ([], m)
        else do
          let (next, m) ← strtokFrom (size - s) false s delim m
          let (tokens, m) ← strtoks size delim fuel next m
          pure (s :: tokens, m)
      else .error .outOfBounds

/-- The tokens of the string in the first `size` bytes; a read behind them is a fault. -/
def tokens (size : Nat) (delim : Int8) (fuel : Nat) (m : Mem) : C (List Nat × Mem) := do
  let s ← strstripFrom size 0 delim m
  strtoks size delim fuel s m

/-- A string of `n` characters at the beginning of the memory. -/
structure Spells (t : Nat → Int8) (n : Nat) : Prop where
  nul : t n = 0
  char : ∀ i, i < n → t i ≠ 0

/-- The characters from `p` to before `e` are a longest run without the delimiter. -/
structure Run (t : Nat → Int8) (n : Nat) (delim : Int8) (p e : Nat) : Prop where
  some : p < e
  inside : e ≤ n
  free : ∀ i, p ≤ i → i < e → t i ≠ delim
  before : p = 0 ∨ t (p - 1) = delim
  behind : e = n ∨ t e = delim

/-- The delimiters from `e` to before `q` have been stored over. -/
structure Cut (m m' : Mem) (e q : Nat) : Prop where
  nul : ∀ a, e ≤ a → a < q → m'.buffer a = 0
  rest : ∀ a, a < e ∨ q ≤ a → m'.buffer a = m.buffer a
  log : ∃ sts : List Store, m'.log = m.log ++ sts ∧
    ∀ st ∈ sts, ∃ a, e ≤ a ∧ a < q ∧ st = .byte a 0

section
variable {t : Nat → Int8} {m m' m'' : Mem} {n s e q : Nat} {delim : Int8}

theorem Cut.refl (m : Mem) (e : Nat) : Cut m m e e :=
  ⟨fun a lo hi => by omega, fun _ _ => rfl, [], by simp, by simp⟩

theorem Cut.store (cut : Cut (m.store (.byte e 0)) m' (e + 1) q) (le : e + 1 ≤ q) :
    Cut m m' e q := by
  refine ⟨fun a lo hi => ?_, fun a out => ?_, ?_⟩
  · by_cases here : a = e
    · rw [here, cut.rest e (by omega)]
      simp [Mem.store, Mem.apply]
    · exact cut.nul a (by omega) hi
  · rw [cut.rest a (by omega)]
    simp [Mem.store, Mem.apply, show a ≠ e by omega]
  · obtain ⟨sts, log, inside⟩ := cut.log
    refine ⟨.byte e 0 :: sts, by rw [log]; simp [Mem.store], ?_⟩
    simp only [List.forall_mem_cons]
    refine ⟨⟨e, by omega, by omega, rfl⟩, fun st hs => ?_⟩
    obtain ⟨a, lo, hi, rfl⟩ := inside st hs
    exact ⟨a, by omega, hi, rfl⟩

/-- Where the string still is as it was, `strstrip` finds the next character. -/
theorem strstripFrom_stops (spells : Spells t n) (le : s ≤ n)
    (same : ∀ a, s ≤ a → m.buffer a = t a) :
    ∃ q, strstripFrom (n + 1 - s) s delim m = .ok q ∧ s ≤ q ∧ q ≤ n ∧
      (∀ i, s ≤ i → i < q → t i = delim) ∧ (q < n → t q ≠ delim) := by
  induction d : n - s generalizing s with
  | zero =>
    obtain rfl : s = n := by omega
    rw [show s + 1 - s = 0 + 1 by omega, strstripFrom, same s (Nat.le_refl s), spells.nul,
      if_neg (by simp)]
    exact ⟨s, rfl, by omega, by omega, fun i lo hi => by omega, by omega⟩
  | succ d ih =>
    rw [show n + 1 - s = (n + 1 - (s + 1)) + 1 by omega, strstripFrom, same s (Nat.le_refl s)]
    by_cases here : t s = delim
    · obtain ⟨q, run, lo, hi, all, stop⟩ := ih (s := s + 1) (by omega)
        (fun a h => same a (by omega)) (by omega)
      rw [if_pos ⟨spells.char s (by omega), here⟩]
      refine ⟨q, run, by omega, hi, fun i low high => ?_, stop⟩
      by_cases first : i = s
      · rw [first, here]
      · exact all i (by omega) high
    · rw [if_neg fun h => here h.2]
      exact ⟨s, rfl, by omega, by omega, fun i lo hi => by omega, fun _ => here⟩

/-- Behind a run. -/
theorem strtokFrom_behind (spells : Spells t n) (le : s ≤ n)
    (same : ∀ a, s ≤ a → m.buffer a = t a) :
    ∃ q m', strtokFrom (n + 1 - s) true s delim m = .ok (q, m') ∧ s ≤ q ∧ q ≤ n ∧
      (∀ i, s ≤ i → i < q → t i = delim) ∧ (q < n → t q ≠ delim) ∧ Cut m m' s q := by
  induction d : n - s generalizing s m with
  | zero =>
    obtain rfl : s = n := by omega
    rw [show s + 1 - s = 0 + 1 by omega, strtokFrom, same s (Nat.le_refl s), spells.nul,
      if_neg (by simp)]
    exact ⟨s, m, rfl, by omega, by omega, fun i lo hi => by omega, by omega, Cut.refl m s⟩
  | succ d ih =>
    rw [show n + 1 - s = (n + 1 - (s + 1)) + 1 by omega, strtokFrom, same s (Nat.le_refl s),
      if_pos (spells.char s (by omega))]
    by_cases here : t s = delim
    · have kept : ∀ a, s + 1 ≤ a → (m.store (.byte s 0)).buffer a = t a := by
        intro a lo
        rw [← same a (by omega)]
        simp [Mem.store, Mem.apply, show a ≠ s by omega]
      obtain ⟨q, m', run, lo, hi, all, stop, cut⟩ := ih (s := s + 1) (by omega) kept (by omega)
      rw [if_pos here]
      refine ⟨q, m', run, by omega, hi, fun i low high => ?_, stop, cut.store lo⟩
      by_cases first : i = s
      · rw [first, here]
      · exact all i (by omega) high
    · rw [if_neg here, if_pos rfl]
      exact ⟨s, m, rfl, by omega, by omega, fun i lo hi => by omega, fun _ => here, Cut.refl m s⟩

/-- `strtok` ends the run it is in, and goes on to the next one. -/
theorem strtokFrom_run (spells : Spells t n) (le : s ≤ n)
    (same : ∀ a, s ≤ a → m.buffer a = t a) :
    ∃ e q m', strtokFrom (n + 1 - s) false s delim m = .ok (q, m') ∧ s ≤ e ∧ e ≤ q ∧ q ≤ n ∧
      (∀ i, s ≤ i → i < e → t i ≠ delim) ∧ (∀ i, e ≤ i → i < q → t i = delim) ∧
      (e < n → e < q) ∧ (q < n → t q ≠ delim) ∧ Cut m m' e q := by
  induction d : n - s generalizing s with
  | zero =>
    obtain rfl : s = n := by omega
    rw [show s + 1 - s = 0 + 1 by omega, strtokFrom, same s (Nat.le_refl s), spells.nul,
      if_neg (by simp)]
    exact ⟨s, s, m, rfl, by omega, by omega, by omega, fun i lo hi => by omega,
      fun i lo hi => by omega, by omega, by omega, Cut.refl m s⟩
  | succ d ih =>
    by_cases here : t s = delim
    · have first : strtokFrom (n + 1 - s) false s delim m =
          strtokFrom (n + 1 - s) true s delim m := by
        rw [show n + 1 - s = (n + 1 - (s + 1)) + 1 by omega, strtokFrom, strtokFrom,
          same s (Nat.le_refl s), if_pos here, if_pos here]
      obtain ⟨q, m', run, lo, hi, all, stop, cut⟩ :=
        strtokFrom_behind spells le same
      rw [first]
      refine ⟨s, q, m', run, by omega, lo, hi, fun i low high => by omega, all, fun _ => ?_,
        stop, cut⟩
      by_contra none
      obtain rfl : q = s := by omega
      exact stop (by omega) here
    · obtain ⟨e, q, m', run, lo, mid, hi, free, all, some, stop, cut⟩ := ih (s := s + 1) (by omega)
        (fun a h => same a (by omega)) (by omega)
      rw [show n + 1 - s = (n + 1 - (s + 1)) + 1 by omega, strtokFrom, same s (Nat.le_refl s),
        if_pos (spells.char s (by omega)), if_neg here, if_neg (by simp)]
      refine ⟨e, q, m', run, by omega, mid, hi, fun i low high => ?_, all, some, stop, cut⟩
      by_cases first : i = s
      · rw [first]
        exact here
      · exact free i (by omega) high

/-- The character at `s` begins a run, or the string ends there. -/
def Begins (t : Nat → Int8) (n : Nat) (delim : Int8) (s : Nat) : Prop :=
  s < n → t s ≠ delim ∧ (s = 0 ∨ t (s - 1) = delim)

theorem Run.unique {e' : Nat} (run : Run t n delim s e) (run' : Run t n delim s e') : e = e' := by
  have one : ∀ {e e'}, Run t n delim s e → Run t n delim s e' → ¬ e < e' := by
    intro e e' run run' lt
    rcases run.behind with ends | ends
    · have := run'.inside
      omega
    · exact run'.free e (Nat.le_of_lt run.some) lt ends
  exact Nat.le_antisymm (Nat.not_lt.mp (one run' run)) (Nat.not_lt.mp (one run run'))

/-- What the tokens from `s` on are, and what is left of the string. -/
structure Tokens (t : Nat → Int8) (n : Nat) (delim : Int8) (s : Nat) (m : Mem) (ps : List Nat)
    (m' : Mem) : Prop where
  order : ps.Pairwise (· < ·)
  runs : ∀ p, p ∈ ps ↔ s ≤ p ∧ ∃ e, Run t n delim p e
  ended : ∀ p e, s ≤ p → Run t n delim p e →
    m'.buffer e = 0 ∧ ∀ i, p ≤ i → i < e → m'.buffer i = t i
  rest : ∀ a, a < s ∨ n ≤ a → m'.buffer a = m.buffer a
  log : ∃ sts : List Store, m'.log = m.log ++ sts ∧ ∀ st ∈ sts, ∃ a, a < n ∧ st = .byte a 0

theorem Tokens.last (m : Mem) : Tokens t n delim n m [] m where
  order := .nil
  runs p := by
    simp only [List.not_mem_nil, false_iff]
    rintro ⟨le, e, run⟩
    have := run.some
    have := run.inside
    omega
  ended p e le run := by
    have := run.some
    have := run.inside
    omega
  rest _ _ := rfl
  log := ⟨[], by simp, by simp⟩

/-- One `strtok` in front of the others. -/
theorem Tokens.cons {ps : List Nat} (spells : Spells t n) (begins : Begins t n delim s)
    (lt : s < n) (same : ∀ a, s ≤ a → m.buffer a = t a) (mid : e ≤ q) (hi : q ≤ n)
    (run : Run t n delim s e) (all : ∀ i, e ≤ i → i < q → t i = delim) (some : e < n → e < q)
    (cut : Cut m m' e q) (tokens : Tokens t n delim q m' ps m'') :
    Tokens t n delim s m (s :: ps) m'' := by
  have short := run.some
  have none : ∀ p e', s < p → p < q → ¬ Run t n delim p e' := by
    intro p e' lo high run'
    by_cases inner : p < e
    · rcases run'.before with zero | before
      · omega
      · exact run.free (p - 1) (by omega) (by omega) before
    · exact run'.free p (Nat.le_refl p) run'.some (all p (by omega) high)
  refine ⟨List.pairwise_cons.mpr ⟨fun p hp => ?_, tokens.order⟩, fun p => ?_,
    fun p e' le run' => ?_, fun a out => ?_, ?_⟩
  · have := ((tokens.runs p).mp hp).1
    omega
  · rw [List.mem_cons, tokens.runs p]
    constructor
    · rintro (rfl | ⟨lo, some⟩)
      · exact ⟨Nat.le_refl p, e, run⟩
      · exact ⟨by omega, some⟩
    · rintro ⟨lo, e', run'⟩
      by_cases first : p = s
      · exact .inl first
      · by_cases high : p < q
        · exact absurd run' (none p e' (by omega) high)
        · exact .inr ⟨by omega, e', run'⟩
  · by_cases first : p = s
    · subst first
      obtain rfl := run.unique run'
      refine ⟨?_, fun i lo high => ?_⟩
      · by_cases ends : e < n
        · rw [tokens.rest e (.inl (some ends)), cut.nul e (Nat.le_refl e) (some ends)]
        · have : e = n := by omega
          rw [tokens.rest e (.inr (by omega)), cut.rest e (.inr (by omega)), same e (by omega),
            this, spells.nul]
      · rw [tokens.rest i (.inl (by omega)), cut.rest i (.inl high), same i lo]
    · by_cases high : p < q
      · exact absurd run' (none p e' (by omega) high)
      · exact tokens.ended p e' (by omega) run'
  · rw [tokens.rest a (by omega), cut.rest a (by omega)]
  · obtain ⟨sts, log, inside⟩ := cut.log
    obtain ⟨sts', log', inside'⟩ := tokens.log
    refine ⟨sts ++ sts', by rw [log', log, List.append_assoc], fun st hs => ?_⟩
    rcases List.mem_append.mp hs with hs | hs
    · obtain ⟨a, lo, high, rfl⟩ := inside st hs
      exact ⟨a, by omega, rfl⟩
    · exact inside' st hs

theorem strtoks_tokens (spells : Spells t n) (begins : Begins t n delim s) (le : s ≤ n)
    (same : ∀ a, s ≤ a → m.buffer a = t a) :
    ∃ ps m', Yields (fun fuel => strtoks (n + 1) delim fuel s m) (ps, m') ∧
      Tokens t n delim s m ps m' := by
  induction d : n - s using Nat.strongRecOn generalizing s m with
  | _ d ih =>
    by_cases ends : s = n
    · subst ends
      refine ⟨[], m, Yields.step (g := fun _ => .ok ([], m)) (.of_ok rfl) (fun _ => nofun)
        fun fuel => ?_, Tokens.last m⟩
      rw [strtoks, if_pos (Nat.lt_succ_self s), if_pos ((same s le).trans spells.nul)]
      rfl
    · obtain ⟨e, q, m₁, cutting, lo, mid, hi, free, all, some, stop, cut⟩ :=
        strtokFrom_run spells le same
      obtain ⟨here, before⟩ := begins (by omega)
      have short : s < e := by
        by_contra none
        obtain rfl : s = e := by omega
        exact here (all s (Nat.le_refl s) (some (by omega)))
      have run : Run t n delim s e := by
        refine ⟨short, by omega, free, before, ?_⟩
        by_cases last : e = n
        · exact .inl last
        · exact .inr (all e (Nat.le_refl e) (some (by omega)))
      have begins' : Begins t n delim q := fun lt =>
        ⟨stop lt, .inr (all (q - 1) (by have := some (by omega); omega) (by omega))⟩
      have same' : ∀ a, q ≤ a → m₁.buffer a = t a := fun a lo => by
        rw [cut.rest a (.inr lo), same a (by omega)]
      obtain ⟨ps, m', yields, tokens⟩ := ih (n - q) (by omega) begins' hi same' rfl
      refine ⟨s :: ps, m', Yields.step (g := fun fuel => do
          let (next, m) ← strtokFrom (n + 1 - s) false s delim m
          let (tokens, m) ← strtoks (n + 1) delim fuel next m
          pure (s :: tokens, m)) ?_ (fun _ => nofun) fun fuel => ?_,
        tokens.cons spells begins (by omega) same mid hi run all some cut⟩
      · rw [cutting]
        exact yields.bind (.of_ok rfl)
      · have char : m.buffer s ≠ 0 := same s (Nat.le_refl s) ▸ spells.char s (by omega)
        rw [strtoks, if_pos (by omega), if_neg char]

end

/-- Cutting a string of `n` characters up stays inside the string and its NUL, and gives the longest
runs between its delimiters in their order, each ended where it stands. -/
theorem tokens_runs (m : Mem) (n : Nat) (delim : Int8) (spells : Spells m.buffer n) :
    ∃ ps m', Yields (fun fuel => tokens (n + 1) delim fuel m) (ps, m') ∧
      ps.Pairwise (· < ·) ∧ (∀ p, p ∈ ps ↔ ∃ e, Run m.buffer n delim p e) ∧
      (∀ p e, Run m.buffer n delim p e →
        m'.buffer e = 0 ∧ ∀ i, p ≤ i → i < e → m'.buffer i = m.buffer i) ∧
      (∀ a, n ≤ a → m'.buffer a = m.buffer a) ∧
      ∃ sts : List Store, m'.log = m.log ++ sts ∧ ∀ st ∈ sts, ∃ a, a < n ∧ st = .byte a 0 := by
  obtain ⟨s, strip, -, le, all, stop⟩ := strstripFrom_stops spells (Nat.zero_le n)
    fun _ _ => rfl
  have begins : Begins m.buffer n delim s := by
    refine fun lt => ⟨stop lt, ?_⟩
    by_cases zero : s = 0
    · exact .inl zero
    · exact .inr (all (s - 1) (Nat.zero_le _) (by omega))
  obtain ⟨ps, m', yields, found⟩ := strtoks_tokens spells begins le fun _ _ => rfl
  -- in front of `s` there is nothing but delimiters
  have late : ∀ p e, Run m.buffer n delim p e → s ≤ p := by
    intro p e run
    by_contra early
    exact run.free p (Nat.le_refl p) run.some (all p (Nat.zero_le p) (by omega))
  refine ⟨ps, m', ?_, found.order, fun p => ?_, fun p e run => found.ended p e (late p e run) run,
    fun a out => found.rest a (.inr out), found.log⟩
  · have whole : ∀ fuel, tokens (n + 1) delim fuel m = strtoks (n + 1) delim fuel s m := by
      intro fuel
      rw [tokens, show n + 1 = n + 1 - 0 from rfl, strip, ok_bind]
    exact yields.congr whole
  · rw [found.runs p]
    exact ⟨fun h => h.2, fun ⟨e, run⟩ => ⟨late p e run, e, run⟩⟩

/-- ` ab  c ` -/
def spaced : Mem where
  base := 0
  buffer i := [32, 97, 98, 32, 32, 99, 32].getD i 0
  heap _ := 0
  log := []

theorem tokens_runs_spaced : ∃ ps m', Yields (fun fuel => tokens 8 32 fuel spaced) (ps, m') ∧
    ps.Pairwise (· < ·) ∧ (∀ p, p ∈ ps ↔ ∃ e, Run spaced.buffer 7 32 p e) ∧
    (∀ p e, Run spaced.buffer 7 32 p e →
      m'.buffer e = 0 ∧ ∀ i, p ≤ i → i < e → m'.buffer i = spaced.buffer i) ∧
    (∀ a, 7 ≤ a → m'.buffer a = spaced.buffer a) ∧
    ∃ sts : List Store, m'.log = spaced.log ++ sts ∧ ∀ st ∈ sts, ∃ a, a < 7 ∧ st = .byte a 0 :=
  tokens_runs spaced 7 32 ⟨rfl, by decide⟩

end BottlerOS.StringTokens
