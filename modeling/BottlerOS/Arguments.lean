import BottlerOS.ShellWords
import Mathlib.Logic.Relation

/-! The arguments of the processes that the shell starts in the background. Their strings lie
in the shell's only line buffer and their `argv` in a block that it has freed: they last until
somebody stores there. -/

namespace BottlerOS.Arguments
open Machine Shell ShellWords

/-- The bytes up to a NUL, with `n` bytes of the buffer left. -/
def readString : (n o : Nat) → Mem → Option (List Int8)
  | 0, _, _ => none
  | n + 1, o, m =>
      if m.buffer o = 0 then some [] else (readString n (o + 1) m).map (m.buffer o :: ·)

/-- The string a process reads through a pointer into the line buffer. -/
def cstr (m : Mem) (p : Nat) : Option (List Int8) :=
  if m.base ≤ p then readString (SIZE - (p - m.base)) (p - m.base) m else none

/-- A process started in the background reads the `argv` it was started with, and in it the
words of its own line. -/
def Intact (j : Job) (m : Mem) : Prop :=
  j.argc = j.tokens.length ∧
  (∃ argv, j.argv = some argv ∧
    ∀ i t, j.tokens[i]? = some t → m.heap (argv + 8 * i) = m.base + t) ∧
  j.tokens.map (fun t => cstr m (m.base + t)) = (words j.line).dropLast.map some

/-- The store changes a word of the process's `argv` or a byte of one of its strings. -/
def Spoils (j : Job) (m : Mem) : Store → Prop
  | .word a w => w ≠ m.heap a ∧ ∃ argv i, j.argv = some argv ∧ i < j.tokens.length ∧
      a = argv + 8 * i
  | .byte o b => b ≠ m.buffer o ∧ ∃ t ∈ j.tokens, ∃ w, cstr m (m.base + t) = some w ∧
      t ≤ o ∧ o ≤ t + w.length

section
variable {m m' : Mem} {o : Nat} {w : List Int8} {j : Job}

theorem readString_iff {n : Nat} (hn : n + o = SIZE) :
    readString n o m = some w ↔ Holds m o w := by
  induction n generalizing o w with
  | zero =>
    refine ⟨fun h => (Option.some_ne_none w h.symm).elim, fun h => ?_⟩
    have := h.inside
    omega
  | succ n ih =>
    unfold readString
    split <;> rename_i zero
    · constructor
      · rintro ⟨⟩
        exact ⟨by omega, zero⟩
      · intro h
        rw [(h.buffer_eq_zero).mp zero]
    · constructor
      · intro h
        obtain ⟨l, hl, rfl⟩ := Option.map_eq_some_iff.mp h
        exact ⟨zero, rfl, (ih (by omega)).mp hl⟩
      · intro h
        cases w with
        | nil => exact absurd h.2 zero
        | cons c l => rw [(ih (by omega)).mpr h.2.2, h.2.1, Option.map_some]

theorem cstr_iff (m : Mem) (t : Nat) (w : List Int8) :
    cstr m (m.base + t) = some w ↔ Holds m t w := by
  unfold cstr
  rw [if_pos (Nat.le_add_right ..), Nat.add_sub_cancel_left]
  by_cases inside : t < SIZE
  · exact readString_iff (by omega)
  · rw [show SIZE - t = 0 by omega]
    exact ⟨fun h => (Option.some_ne_none w h.symm).elim, fun h => absurd h.inside inside⟩

theorem Holds.same (h : Holds m o w) (h' : Holds m' o w) {a : Nat} (lo : o ≤ a)
    (hi : a ≤ o + w.length) : m'.buffer a = m.buffer a := by
  induction w generalizing o with
  | nil =>
    obtain rfl : a = o := by simp only [List.length_nil] at hi; omega
    exact h'.2.trans h.2.symm
  | cons c w ih =>
    rcases Nat.eq_or_lt_of_le lo with rfl | lo
    · exact h'.2.1.trans h.2.1.symm
    · exact ih h.2.2 h'.2.2 lo (by simp only [List.length_cons] at hi; omega)

/-- The strings of an intact process. -/
theorem Intact.text (h : Intact j m) {t : Nat} (ht : t ∈ j.tokens) : ∃ w, Holds m t w := by
  have member : cstr m (m.base + t) ∈ (words j.line).dropLast.map some := by
    rw [← h.2.2]
    exact List.mem_map_of_mem ht
  obtain ⟨w, -, hw⟩ := List.mem_map.mp member
  exact ⟨w, (cstr_iff m t w).mp hw.symm⟩

theorem Intact.of_heap (h : Intact j m) (base : m'.base = m.base)
    (heap : ∀ argv i, j.argv = some argv → i < j.tokens.length →
      m'.heap (argv + 8 * i) = m.heap (argv + 8 * i))
    (texts : ∀ t ∈ j.tokens, ∀ w, Holds m t w → Holds m' t w) : Intact j m' := by
  obtain ⟨argc, ⟨argv, hargv, pointers⟩, strings⟩ := h
  refine ⟨argc, ⟨argv, hargv, fun i t ht => ?_⟩, ?_⟩
  · obtain ⟨hi, -⟩ := List.getElem?_eq_some_iff.mp ht
    rw [heap argv i hargv hi, pointers i t ht, base]
  · rw [← strings]
    refine List.map_congr_left fun t ht => ?_
    obtain ⟨w, hw⟩ := Intact.text ⟨argc, ⟨argv, hargv, pointers⟩, strings⟩ ht
    rw [(cstr_iff m t w).mpr hw, (cstr_iff m' t w).mpr (texts t ht w hw)]

/-- The strings stay the same through two intact states. -/
theorem Intact.texts (h : Intact j m) (h' : Intact j m') {t : Nat} (ht : t ∈ j.tokens)
    (hw : Holds m t w) : Holds m' t w := by
  have maps := List.map_inj_left.mp (h.2.2.trans h'.2.2.symm) t ht
  rw [(cstr_iff m t w).mpr hw] at maps
  exact (cstr_iff m' t w).mp maps.symm

/-- A process stays intact through a store exactly if the store spoils nothing of it. -/
theorem Intact.store (h : Intact j m) (st : Store) :
    Intact j (m.store st) ↔ ¬ Spoils j m st := by
  cases st with
  | word a v =>
    constructor
    · rintro h' ⟨changed, argv, i, hargv, hi, rfl⟩
      obtain ⟨-, ⟨argv₀, hargv₀, pointers⟩, -⟩ := h
      obtain ⟨-, ⟨argv₁, hargv₁, pointers'⟩, -⟩ := h'
      obtain rfl := Option.some.inj (hargv.symm.trans hargv₀)
      obtain rfl := Option.some.inj (hargv.symm.trans hargv₁)
      have here := List.getElem?_eq_getElem hi
      have : v = m.base + j.tokens[i] := by
        rw [← store_base m (.word (argv + 8 * i) v), ← pointers' i _ here]
        exact (Function.update_self (argv + 8 * i) v m.heap).symm
      exact changed (this.trans (pointers i _ here).symm)
    · intro kept
      refine h.of_heap (store_base ..) (fun argv i hargv hi => ?_) fun t _ w hw =>
        hw.congr fun _ _ _ => rfl
      show Function.update m.heap a v (argv + 8 * i) = _
      by_cases here : argv + 8 * i = a
      · rw [here, Function.update_self]
        by_contra changed
        exact kept ⟨changed, argv, i, hargv, hi, here.symm⟩
      · rw [Function.update_of_ne here]
  | byte o b =>
    constructor
    · rintro h' ⟨changed, t, ht, w, hw, lo, hi⟩
      have hw := (cstr_iff m t w).mp hw
      have same := Holds.same hw (h.texts h' ht hw) lo hi
      rw [store_byte, Function.update_self] at same
      exact changed same
    · intro kept
      refine h.of_heap (store_base ..) (fun _ _ _ _ => rfl) fun t ht w hw =>
        hw.congr fun a lo hi => ?_
      rw [store_byte]
      by_cases here : a = o
      · subst here
        rw [Function.update_self]
        by_contra changed
        exact kept ⟨changed, t, ht, w, (cstr_iff m t w).mpr hw, lo, hi⟩
      · rw [Function.update_of_ne here]

/-! The shell's own steps. -/

theorem storeTokens_spec (m : Mem) (argv : Nat) (tokens : List Nat) :
    Grows m (m.storeTokens argv tokens) ∧ (m.storeTokens argv tokens).buffer = m.buffer ∧
    (∀ a, a < argv → (m.storeTokens argv tokens).heap a = m.heap a) ∧
    ∀ i t, tokens[i]? = some t → (m.storeTokens argv tokens).heap (argv + 8 * i) = m.base + t := by
  induction tokens generalizing m argv with
  | nil => exact ⟨.refl m, rfl, fun _ _ => rfl, fun i t h => by simp at h⟩
  | cons t tokens ih =>
    obtain ⟨grows, buffer, below, pointers⟩ := ih (m.store (.word argv (m.base + t))) (argv + 8)
    have stored : ∀ a, (m.store (.word argv (m.base + t))).heap a =
        if a = argv then m.base + t else m.heap a := by
      intro a
      show Function.update m.heap argv (m.base + t) a = _
      rw [Function.update_apply]
    refine ⟨(Grows.store m _).trans grows, buffer, fun a ha => ?_, fun i u h => ?_⟩
    · exact (below a (by omega)).trans ((stored a).trans (if_neg (by omega)))
    · cases i with
      | zero =>
        obtain rfl := Option.some.inj h
        exact (below argv (by omega)).trans ((stored argv).trans (if_pos rfl))
      | succ i =>
        have := pointers i u h
        rw [store_base] at this
        rw [show argv + 8 * (i + 1) = argv + 8 + 8 * i by omega]
        exact this

theorem storeArgv_spec {argv : Option Nat} {tokens : List Nat}
    (run : storeArgv argv tokens m = .ok m') :
    Grows m m' ∧ m'.buffer = m.buffer ∧ (tokens ≠ [] → ∃ a, argv = some a ∧
      ∀ i t, tokens[i]? = some t → m'.heap (a + 8 * i) = m.base + t) := by
  unfold storeArgv at run
  split at run <;> rename_i empty
  · obtain rfl := Except.ok.inj run
    exact ⟨.refl m, rfl, fun h => absurd empty h⟩
  · obtain ⟨a, ha, run⟩ := bind_ok.mp run
    obtain rfl := Except.ok.inj run
    obtain ⟨grows, buffer, -, pointers⟩ := storeTokens_spec m a tokens
    exact ⟨grows, buffer, fun _ => ⟨a, deref_ok.mp ha, pointers⟩⟩

theorem storeInts_spec (m : Mem) (fd x y : Nat) :
    Grows m (m.storeInts fd x y) ∧ (m.storeInts fd x y).buffer = m.buffer :=
  ⟨(Grows.store m _).trans (Grows.store _ _), rfl⟩

/-- What a step of the shell does: stores, and maybe starts processes. A process it starts in the
background is intact. -/
def Starts (s s' : Session) : Prop :=
  Grows s.mem s'.mem ∧ ∀ j ∈ s'.jobs, j ∈ s.jobs ∨
    (j.background = true → j.since = s'.mem.log.length ∧ Intact j s'.mem)

theorem Starts.of_jobs {s s' : Session} (grows : Grows s.mem s'.mem) (jobs : s'.jobs = s.jobs) :
    Starts s s' :=
  ⟨grows, fun j hj => .inl (by rw [← jobs]; exact hj)⟩

theorem incorrectComm_spec {token : Nat} {s s' : Session} (run : incorrectComm token s = .ok s') :
    s'.mem = s.mem ∧ s'.jobs = s.jobs := by
  obtain ⟨b, -, run⟩ := bind_ok.mp run
  split at run
  all_goals
    obtain rfl := Except.ok.inj run
    exact ⟨rfl, rfl⟩

theorem processPiped_starts {mallocs : InputMallocs} {fd1 : Nat} {t : Split} {line : List Int8}
    {s s' : Session} (run : processPiped mallocs fd1 t line s = .ok s') : Starts s s' := by
  unfold processPiped at run
  obtain ⟨fd, -, run⟩ := bind_ok.mp run
  split at run
  · obtain rfl := Except.ok.inj run
    exact .of_jobs (.refl _) rfl
  rename_i r v _
  obtain ⟨fd2, -, run⟩ := bind_ok.mp run
  obtain ⟨m₁, first, run⟩ := bind_ok.mp run
  obtain ⟨m₂, second, run⟩ := bind_ok.mp run
  have grows : Grows s.mem m₂ :=
    ((storeInts_spec s.mem fd r v).1.trans ((storeInts_spec _ fd1 0 v).1.trans
      (storeInts_spec _ fd2 r 1).1)).trans
      ((storeArgv_spec first).1.trans (storeArgv_spec second).1)
  obtain ⟨token, -, run⟩ := bind_ok.mp run
  obtain ⟨token', -, run⟩ := bind_ok.mp run
  obtain ⟨comm0, -, run⟩ := bind_ok.mp run
  split at run
  · obtain ⟨mem, jobs⟩ := incorrectComm_spec run
    exact .of_jobs (mem ▸ grows) jobs
  obtain ⟨comm1, -, run⟩ := bind_ok.mp run
  split at run
  · obtain ⟨mem, jobs⟩ := incorrectComm_spec run
    exact .of_jobs (mem ▸ grows) jobs
  obtain ⟨head, -, run⟩ := bind_ok.mp run
  split at run
  · obtain rfl := Except.ok.inj run
    exact .of_jobs grows rfl
  obtain ⟨c0, -, run⟩ := bind_ok.mp run
  obtain ⟨c1, -, run⟩ := bind_ok.mp run
  obtain rfl := Except.ok.inj run
  refine ⟨grows, fun j hj => ?_⟩
  simp only [Session.load, List.mem_append, List.mem_singleton] at hj
  rcases hj with (hj | rfl) | rfl
  · exact .inl hj
  · exact .inr fun h => absurd h (by simp)
  · exact .inr fun h => absurd h (by simp)

/-- The tokens of a line that ends in `&` are the strings of its words before that. -/
def Cut (t : Split) (line : List Int8) (m : Mem) : Prop :=
  t.ampersand ≥ 0 → ∃ all : List (Nat × List Int8), all ≠ [] ∧ t.end_ = all.length ∧
    t.tokens.take all.length = all.map (·.1) ∧ (∀ p ∈ all, Holds m p.1 p.2) ∧
    all.map (·.2) = (words line).dropLast

theorem processSingle_starts {mallocs : InputMallocs} {fd1 : Nat} {t : Split} {line : List Int8}
    {s s' : Session} (cut : Cut t line s.mem)
    (run : processSingle mallocs fd1 t line s = .ok s') : Starts s s' := by
  unfold processSingle at run
  obtain ⟨m₁, store, run⟩ := bind_ok.mp run
  obtain ⟨grows, buffer, pointers⟩ := storeArgv_spec store
  obtain ⟨token, -, run⟩ := bind_ok.mp run
  obtain ⟨comm0, -, run⟩ := bind_ok.mp run
  split at run
  · obtain ⟨mem, jobs⟩ := incorrectComm_spec run
    exact .of_jobs (mem ▸ grows) jobs
  obtain ⟨c, -, run⟩ := bind_ok.mp run
  split at run
  · obtain rfl := Except.ok.inj run
    exact .of_jobs grows rfl
  obtain rfl := Except.ok.inj run
  refine ⟨grows, fun j hj => ?_⟩
  rcases List.mem_append.mp hj with hj | hj
  · exact .inl hj
  refine .inr fun background => ?_
  obtain rfl := List.mem_singleton.mp hj
  obtain ⟨all, ne, end_, taken, texts, same⟩ := cut (of_decide_eq_true background)
  have tokens : t.tokens.take t.end_.toNat = all.map (·.1) := by
    rw [end_, Int.toNat_natCast, taken]
  obtain ⟨argv, hargv, stored⟩ := pointers (by rw [tokens]; simpa using ne)
  have argc : t.end_ = (t.tokens.take t.end_.toNat).length := by
    rw [tokens, List.length_map]
    exact end_
  refine ⟨rfl, argc, ⟨argv, hargv, fun i u hu => ?_⟩, ?_⟩
  · rw [← grows.base] at stored
    exact stored i u hu
  · show (t.tokens.take t.end_.toNat).map (fun t => cstr m₁ (m₁.base + t)) =
      (words line).dropLast.map some
    rw [tokens, ← same, List.map_map, List.map_map]
    refine List.map_congr_left fun p hp => ?_
    exact (cstr_iff m₁ p.1 p.2).mpr ((texts p hp).congr fun _ _ _ => by rw [buffer])

theorem processInput_starts {mallocs : InputMallocs} {s s' : Session} {line : List Int8}
    (h : Holds s.mem 0 line) (run : processInput mallocs s = .ok s') : Starts s s' := by
  unfold processInput at run
  obtain ⟨k, l, strip, split, head, rest⟩ := strstrip_holds h
  rw [strip, ok_bind] at run
  obtain ⟨t, m₁, cut, grows, tokens⟩ := splitFrom_words (n := MAX_ARGS - 1)
    (t := { tokens := [k], pipe := -1, end_ := -1, ampersand := -1 })
    (show [k] = ([] : List (Nat × List Int8)).map (·.1) ++ [k] from rfl) rest head (by simp)
    (by simp) (by simp)
  rw [List.length_nil, Nat.zero_add] at cut
  rw [cut, ok_bind] at run
  dsimp only at run
  split at run
  · obtain rfl := Except.ok.inj run
    exact .of_jobs grows rfl
  obtain ⟨fd1, -, run⟩ := bind_ok.mp run
  have grows' := grows.trans (storeInts_spec m₁ fd1 0 1).1
  split at run
  · obtain ⟨more, jobs⟩ := processPiped_starts run
    exact ⟨grows'.trans more, jobs⟩
  · have cut' : Cut t s.mem.line (m₁.storeInts fd1 0 1) := by
      intro h'
      obtain ⟨all, ne, end_, taken, texts, same⟩ := tokens h'
      refine ⟨all, ne, end_, taken, fun p hp => (texts p hp).congr fun _ _ _ => rfl, ?_⟩
      rw [same, h.line, split, words_space]
      rfl
    obtain ⟨more, jobs⟩ := processSingle_starts cut' run
    exact ⟨grows'.trans more, jobs⟩

theorem input_starts {c : Int8} {mallocs : InputMallocs} {s s' : Session} (room : s.i < SIZE)
    (run : input c mallocs s = .ok s') : Starts s s' ∧ s'.i < SIZE := by
  unfold SIZE at room ⊢
  unfold input at run
  split at run <;> rename_i more
  · have full := more.2
    unfold SIZE at full
    split at run
    · split at run <;> rename_i erase
      · obtain rfl := Except.ok.inj run
        exact ⟨.of_jobs (.store _ _) rfl, by simp only; omega⟩
      · split at run
        · obtain rfl := Except.ok.inj run
          exact ⟨.of_jobs (.store _ _) rfl, by simp only; omega⟩
        · obtain rfl := Except.ok.inj run
          exact ⟨.of_jobs (.refl _) rfl, room⟩
    · obtain rfl := Except.ok.inj run
      exact ⟨.of_jobs (.refl _) rfl, room⟩
  · dsimp only at run
    split at run
    · obtain ⟨t, process, run⟩ := bind_ok.mp run
      obtain rfl := Except.ok.inj run
      obtain ⟨line, h⟩ := exists_holds (m := s.mem.store (.byte s.i 0)) room
        (Function.update_self s.i 0 s.mem.buffer) (Nat.zero_le _)
      obtain ⟨grows, jobs⟩ := processInput_starts h process
      exact ⟨⟨(Grows.store _ _).trans grows, jobs⟩, by simp only; omega⟩
    · obtain rfl := Except.ok.inj run
      exact ⟨.of_jobs (.store _ _) rfl, room⟩

end

/-- A character for the shell, or a store by anybody else: into the heap, and into the line
buffer once the shell has returned. -/
inductive Event where
  | input (c : Int8) (m : InputMallocs)
  | other (st : Store)

def Enabled (s : Session) : Event → Prop
  | .input _ _ => s.exited = false
  | .other (.word _ _) => True
  | .other (.byte _ _) => s.exited = true

instance (s : Session) (e : Event) : Decidable (Enabled s e) := by
  rcases e with _ | _ | _ <;> unfold Enabled <;> infer_instance

def exec (s : Session) : Event → C Session
  | .input c m => Shell.input c m s
  | .other st => pure { s with mem := s.mem.store st }

def Step (s s' : Session) : Prop := ∃ e, Enabled s e ∧ exec s e = .ok s'

def Runs : Session → Session → Prop := Relation.ReflTransGen Step

/-- The memory after the first `t` stores of a run that began with `m₀`. -/
def memAt (m₀ m : Mem) (t : Nat) : Mem := (m.log.take t).foldl Mem.store m₀

section
variable {m₀ m m' : Mem} {t : Nat} {s s' : Session}

theorem foldl_log (sts : List Store) (m : Mem) : (sts.foldl Mem.store m).log = m.log ++ sts := by
  induction sts generalizing m with
  | nil => simp
  | cons st sts ih => rw [List.foldl_cons, ih, store_log, List.append_assoc, List.singleton_append]

theorem memAt_length (h : Grows m₀ m) (new : m₀.log = []) : memAt m₀ m m.log.length = m := by
  obtain ⟨sts, rfl⟩ := h
  unfold memAt
  rw [List.take_length, foldl_log, new, List.nil_append]

theorem memAt_grows (h : Grows m m') (ht : t ≤ m.log.length) : memAt m₀ m' t = memAt m₀ m t := by
  obtain ⟨sts, rfl⟩ := h
  unfold memAt
  rw [foldl_log, List.take_append_of_le_length ht]

theorem Grows.log_le (h : Grows m m') : m.log.length ≤ m'.log.length := by
  obtain ⟨sts, rfl⟩ := h
  rw [foldl_log, List.length_append]
  omega

/-- Every process started in the background was intact when it was started. -/
structure Started (m₀ : Mem) (s : Session) : Prop where
  room : s.i < SIZE
  grows : Grows m₀ s.mem
  intact : ∀ j ∈ s.jobs, j.background = true →
    j.since ≤ s.mem.log.length ∧ Intact j (memAt m₀ s.mem j.since)

theorem Started.step (h : Started m₀ s) (new : m₀.log = []) (step : Step s s') :
    Started m₀ s' := by
  obtain ⟨e, -, run⟩ := step
  have ⟨⟨grows, jobs⟩, room⟩ : Starts s s' ∧ s'.i < SIZE := by
    cases e with
    | input c mallocs => exact input_starts h.room run
    | other st =>
      obtain rfl := Except.ok.inj run
      exact ⟨.of_jobs (.store _ _) rfl, h.room⟩
  have all := h.grows.trans grows
  refine ⟨room, all, fun j hj background => ?_⟩
  rcases jobs j hj with old | fresh
  · obtain ⟨since, intact⟩ := h.intact j old background
    have := Grows.log_le grows
    exact ⟨by omega, by rw [memAt_grows grows since]; exact intact⟩
  · obtain ⟨since, intact⟩ := fresh background
    rw [since, memAt_length all new]
    exact ⟨Nat.le_refl _, intact⟩

end

/-- Events one after the other, as long as they are enabled and come back. -/
def play : List Event → Session → Option Session
  | [], s => some s
  | e :: rest, s =>
      if Enabled s e then
        match exec s e with
        | .error _ => none
        | .ok s' => play rest s'
      else none

/-- What is played is a run. -/
theorem play_runs {events : List Event} {s s' : Session} (h : play events s = some s') :
    Runs s s' := by
  induction events generalizing s with
  | nil =>
    obtain rfl := Option.some.inj h
    exact .refl
  | cons e rest ih =>
    unfold play at h
    split at h <;> rename_i enabled
    · split at h <;> rename_i run
      · cases h
      · exact .head ⟨e, enabled, run⟩ (ih h)
    · cases h

end BottlerOS.Arguments
