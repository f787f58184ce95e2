import BottlerOS.Keyboard

/-! The system call `read` of `Kernel/interruptions/systemCalls.c` on the memory of its caller,
for a process that reads the keyboard. Addresses are offsets from the caller's buffer. The
polls of the key buffer are a list; an empty one is 0. -/

namespace BottlerOS.ReadCall
open Machine Keyboard

def STDIN : Int := 0

/-- The variables of the loop, the memory, and the offsets that were written and those whose
bytes decided where the loop goes. -/
structure Loop where
  memory : Int → UInt8
  bufferAux : Int
  length : Nat
  readBytes : Int
  stored : List Int
  tested : List Int

/-- The body of the loop, with the key that was polled: whether it breaks. -/
def turn (c : UInt8) (s : Loop) : Bool × Loop :=
  let s := { s with
    length := s.length - 1
    memory := Function.update s.memory s.bufferAux c
    stored := s.stored ++ [s.bufferAux] }
  let s :=
    if s.memory s.bufferAux = 0 then { s with
      bufferAux := s.bufferAux - 1
      length := s.length + 1
      readBytes := int32 (s.readBytes - 1)
      tested := s.tested ++ [s.bufferAux] }
    else { s with tested := s.tested ++ [s.bufferAux] }
  (s.memory s.bufferAux = 255, { s with
    readBytes := int32 (s.readBytes + 1)
    bufferAux := s.bufferAux + 1
    tested := s.tested ++ [s.bufferAux] })

/-- The loop, as far as the polls take it: whether it has come to its end. -/
def run : List UInt8 → Loop → Bool × Loop
  | polls, s =>
      if s.length = 0 then (true, s) else
      match polls with
      | [] => (false, s)
      | c :: rest => if (turn c s).1 then (true, (turn c s).2) else run rest (turn c s).2

/-- The loop over the bytes that `readPipe` returns. -/
def runPipe : List UInt8 → Loop → Bool × Loop
  | bytes, s =>
      if s.length = 0 then (true, s) else
      match bytes with
      | [] => (false, s)
      | c :: rest =>
          let s := { s with
            length := s.length - 1
            memory := Function.update s.memory s.bufferAux c
            stored := s.stored ++ [s.bufferAux]
            tested := s.tested ++ [s.bufferAux] }
          if c = 0 then (true, s)
          else
            let s := { s with
              readBytes := int32 (s.readBytes + 1)
              bufferAux := s.bufferAux + 1
              tested := s.tested ++ [s.bufferAux] }
            if c = 255 then (true, s) else runPipe rest s

def start (memory : Int → UInt8) (length : Nat) : Loop := ⟨memory, 0, length, 0, [], []⟩

/-- `read` with what `getFdIn()` and `isForeground()` return, and the bytes that come: what it
returns, once it does, and the loop. -/
def read (fdIn foreground : Int) (memory : Int → UInt8) (length : Nat) (bytes : List UInt8) :
    Option Int × Loop :=
  if fdIn = STDIN ∧ foreground = 0 then (some 0, start memory length)
  else
    let (ended, s) :=
      if fdIn = STDIN then run bytes (start memory length)
      else runPipe bytes (start memory length)
    -- an `int` as an `uint64_t`
    (if ended then some (s.readBytes % 18446744073709551616) else none, s)

/-- The keys that a `read` of `n` bytes takes: up to `n` of them, and none behind a -1. -/
def taken : (n : Nat) → List UInt8 → List UInt8
  | 0, _ => []
  | _ + 1, [] => []
  | n + 1, c :: rest =>
      if c = 0 then taken (n + 1) rest
      else if c = 255 then [c]
      else c :: taken n rest

/-- `n` keys, or a -1. -/
def Complete (n : Nat) (keys : List UInt8) : Prop := keys.length = n ∨ 255 ∈ keys

/-- The memory with the bytes written from an offset on. -/
def overlay (memory : Int → UInt8) (a : Int) (keys : List UInt8) (i : Int) : UInt8 :=
  if a ≤ i ∧ i < a + keys.length then keys.getD (i - a).toNat 0 else memory i

/-- What the `read` of `n` bytes has to come to. -/
structure Reads (memory : Int → UInt8) (n : Nat) (polls : List UInt8) (result : Option Int)
    (s : Loop) : Prop where
  returns : Complete n (taken n polls) ↔ result ≠ none
  number : ∀ v, result = some v → v = (taken n polls).length
  keys : result ≠ none → s.memory = overlay memory 0 (taken n polls)
  stored : ∀ o ∈ s.stored, 0 ≤ o ∧ o < n
  tested : ∀ o ∈ s.tested, 0 ≤ o ∧ o < n

section
variable {memory : Int → UInt8} {s : Loop} {c : UInt8} {n : Nat} {polls keys : List UInt8} {a : Int}

theorem taken_zero (c : UInt8) (zero : c = 0) : taken n (c :: polls) = taken n polls := by
  cases n with
  | zero => simp [taken]
  | succ n => rw [taken, if_pos zero]

theorem overlay_cons : overlay (Function.update memory a c) (a + 1) keys =
    overlay memory a (c :: keys) := by
  funext i
  simp only [overlay, List.length_cons]
  by_cases first : i = a
  · subst first
    rw [if_neg (by omega), if_pos (by omega), Function.update_self, Int.sub_self]
    rfl
  by_cases inside : a + 1 ≤ i ∧ i < a + 1 + keys.length
  · rw [if_pos inside, if_pos (by omega)]
    obtain ⟨j, hj⟩ : ∃ j, (i - a).toNat = j + 1 := ⟨(i - a).toNat - 1, by omega⟩
    rw [hj, show (i - (a + 1)).toNat = j by omega, List.getD_cons_succ]
  · rw [if_neg inside, if_neg (by omega), Function.update_of_ne first]

/-- A byte that is overwritten anyway. -/
theorem overlay_update (pos : keys ≠ []) :
    overlay (Function.update memory a c) a keys = overlay memory a keys := by
  funext i
  unfold overlay
  by_cases first : i = a
  · subst first
    have := List.length_pos_iff.mpr pos
    rw [if_pos (by omega), if_pos (by omega)]
  · rw [Function.update_of_ne first]

theorem turn_key (key : c ≠ 0) : turn c s = (decide (c = 255), { s with
    memory := Function.update s.memory s.bufferAux c
    bufferAux := s.bufferAux + 1
    length := s.length - 1
    readBytes := int32 (s.readBytes + 1)
    stored := s.stored ++ [s.bufferAux]
    tested := s.tested ++ [s.bufferAux] ++ [s.bufferAux] }) := by
  rw [turn]
  simp only [Function.update_self, if_neg key]

theorem turn_empty (pos : s.length ≠ 0) : turn 0 s =
    (decide (s.memory (s.bufferAux - 1) = 255), { s with
      memory := Function.update s.memory s.bufferAux 0
      readBytes := int32 (int32 (s.readBytes - 1) + 1)
      stored := s.stored ++ [s.bufferAux]
      tested := s.tested ++ [s.bufferAux] ++ [s.bufferAux - 1] }) := by
  have apart : s.bufferAux - 1 ≠ s.bufferAux := by omega
  rw [turn]
  simp only [Function.update_self, if_true, Function.update_of_ne apart, Int.sub_add_cancel]
  rw [Nat.sub_add_cancel (by omega)]

/-- What the loop comes to from where a key has been stored, other than -1. -/
structure Goes (s : Loop) (polls : List UInt8) (r : Bool × Loop) : Prop where
  ended : r.1 = true ↔ Complete s.length (taken s.length polls)
  readBytes : r.1 = true →
    r.2.readBytes = int32 (s.readBytes + (taken s.length polls).length)
  memory : r.1 = true → r.2.memory = overlay s.memory s.bufferAux (taken s.length polls)
  stored : ∀ o ∈ r.2.stored, o ∈ s.stored ∨ s.bufferAux ≤ o ∧ o < s.bufferAux + s.length
  tested : ∀ o ∈ r.2.tested, o ∈ s.tested ∨ s.bufferAux - 1 ≤ o ∧ o < s.bufferAux + s.length

theorem int32_add (a b : Int) : int32 (int32 a + b) = int32 (a + b) := by
  unfold int32
  omega

theorem overlay_nil : overlay memory a [] = memory := by
  funext i
  unfold overlay
  rw [if_neg (by simp)]

/-- The loop stops in front of the next poll, or goes on with it. -/
theorem run_cons (pos : s.length ≠ 0) (c : UInt8) (polls : List UInt8) :
    run (c :: polls) s = if (turn c s).1 then (true, (turn c s).2) else run polls (turn c s).2 := by
  rw [run, if_neg pos]

theorem Goes.done (none : s.length = 0) (range : int32 s.readBytes = s.readBytes) :
    Goes s polls (true, s) where
  ended := by simp [none, Complete, taken]
  readBytes _ := by simp [none, taken, range]
  memory _ := by rw [none, taken, overlay_nil]
  stored _ h := .inl h
  tested _ h := .inl h

/-- One more offset, among those of the buffer. -/
theorem mem_push {o x low high : Int} {offsets : List Int} (h : o ∈ offsets ++ [x])
    (above : low ≤ x) (below : x < high) : o ∈ offsets ∨ low ≤ o ∧ o < high := by
  rcases List.mem_append.mp h with before | here
  · exact .inl before
  · rw [List.mem_singleton.mp here]
    exact .inr ⟨above, below⟩

/-- A key other than -1 takes the loop one byte on. -/
theorem Goes.key {r : Bool × Loop} (pos : s.length ≠ 0) (key : c ≠ 0) (more : c ≠ 255)
    (h : Goes (turn c s).2 polls r) : Goes s (c :: polls) r := by
  obtain ⟨n, hn⟩ : ∃ n, s.length = n + 1 := ⟨s.length - 1, by omega⟩
  have keys : taken s.length (c :: polls) = c :: taken n polls := by
    rw [hn, taken, if_neg key, if_neg more]
  have left : (turn c s).2.length = n := by
    rw [turn_key key, hn]
    rfl
  have place : (turn c s).2.bufferAux = s.bufferAux + 1 := by rw [turn_key key]
  have ended := h.ended
  have readBytes := h.readBytes
  have memory := h.memory
  have stored := h.stored
  have tested := h.tested
  rw [left] at ended readBytes memory stored tested
  rw [place] at memory stored tested
  refine ⟨ended.trans ?_, fun hr => ?_, fun hr => ?_, fun o ho => ?_, fun o ho => ?_⟩
  · rw [keys, hn, Complete, Complete, List.length_cons, List.mem_cons]
    have : (255 : UInt8) ≠ c := fun e => more e.symm
    simp [this]
  · rw [readBytes hr, keys, turn_key key, List.length_cons]
    simp only
    rw [int32_add]
    congr 1
    omega
  · rw [memory hr, keys, turn_key key]
    exact overlay_cons
  · rcases stored o ho with before | inside
    · rw [turn_key key] at before
      exact mem_push before (by omega) (by omega)
    · exact .inr (by omega)
  · rcases tested o ho with before | inside
    · rw [turn_key key] at before
      exact (mem_push before (by omega) (by omega)).elim
        (fun before => mem_push before (by omega) (by omega)) .inr
    · exact .inr (by omega)

/-- An empty poll leaves the loop where it is. -/
theorem Goes.empty {r : Bool × Loop} (pos : s.length ≠ 0)
    (h : Goes (turn 0 s).2 polls r) : Goes s (0 :: polls) r := by
  have keys : taken s.length (0 :: polls) = taken s.length polls := taken_zero 0 rfl
  have left : (turn 0 s).2.length = s.length := by rw [turn_empty pos]
  have place : (turn 0 s).2.bufferAux = s.bufferAux := by rw [turn_empty pos]
  have ended := h.ended
  have readBytes := h.readBytes
  have memory := h.memory
  have stored := h.stored
  have tested := h.tested
  rw [left] at ended readBytes memory stored tested
  rw [place] at memory stored tested
  refine ⟨ended.trans (by rw [keys]), fun hr => ?_, fun hr => ?_, fun o ho => ?_, fun o ho => ?_⟩
  · rw [readBytes hr, keys, turn_empty pos]
    simp only
    rw [int32_add, Int.add_assoc, int32_add]
    congr 1
    omega
  · rw [memory hr, keys, turn_empty pos]
    refine overlay_update fun none => ?_
    have complete := ended.mp hr
    rw [none] at complete
    rcases complete with all | last
    · exact pos all.symm
    · simp at last
  · rcases stored o ho with before | inside
    · rw [turn_empty pos] at before
      exact mem_push before (by omega) (by omega)
    · exact .inr inside
  · rcases tested o ho with before | inside
    · rw [turn_empty pos] at before
      exact (mem_push before (by omega) (by omega)).elim
        (fun before => mem_push before (by omega) (by omega)) .inr
    · exact .inr inside

theorem int32_int32 (a : Int) : int32 (int32 a) = int32 a := by
  have := int32_add a 0
  rwa [Int.add_zero, Int.add_zero] at this

/-- A -1 ends the loop. -/
theorem Goes.last (pos : s.length ≠ 0) : Goes s (255 :: polls) (true, (turn 255 s).2) := by
  obtain ⟨n, hn⟩ : ∃ n, s.length = n + 1 := ⟨s.length - 1, by omega⟩
  have keys : taken s.length (255 :: polls) = [255] := by
    rw [hn, taken, if_neg (by decide), if_pos rfl]
  rw [turn_key (by decide)]
  refine ⟨?_, fun _ => ?_, fun _ => ?_, fun o ho => ?_, fun o ho => ?_⟩
  · rw [keys]
    simp [Complete]
  · rw [keys]
    rfl
  · rw [keys, ← overlay_cons, overlay_nil]
  · exact mem_push ho (by omega) (by omega)
  · exact (mem_push ho (by omega) (by omega)).elim
      (fun before => mem_push before (by omega) (by omega)) .inr

/-- Behind a stored key the byte that an empty poll looks at is that key: it never ends the
loop. -/
theorem run_goes (behind : s.memory (s.bufferAux - 1) ≠ 255)
    (range : int32 s.readBytes = s.readBytes) : Goes s polls (run polls s) := by
  induction polls generalizing s with
  | nil =>
    rw [run]
    split <;> rename_i pos
    · exact .done pos range
    · refine ⟨?_, (fun h => by cases h), (fun h => by cases h), fun _ h => .inl h,
        fun _ h => .inl h⟩
      obtain ⟨n, hn⟩ : ∃ n, s.length = n + 1 := ⟨s.length - 1, by omega⟩
      simp [hn, taken, Complete]
  | cons c rest ih =>
    by_cases pos : s.length = 0
    · rw [run, if_pos pos]
      exact .done pos range
    rw [run_cons pos]
    by_cases empty : c = 0
    · subst empty
      have apart : s.bufferAux - 1 ≠ s.bufferAux := by omega
      rw [turn_empty pos, if_neg (by simpa using behind), ← turn_empty pos]
      refine .empty pos (ih ?_ ?_)
      · rw [turn_empty pos]
        simp only [Function.update_of_ne apart]
        exact behind
      · rw [turn_empty pos]
        exact int32_int32 _
    · by_cases last : c = 255
      · subst last
        rw [if_pos (by rw [turn_key (by decide)]; rfl)]
        exact .last pos
      · rw [if_neg (by rw [turn_key empty]; simpa using last)]
        refine .key pos empty last (ih ?_ ?_)
        · rw [turn_key empty]
          simp only [Int.add_sub_cancel, Function.update_self]
          exact last
        · rw [turn_key empty]
          exact int32_int32 _

/-- The number of keys in an `int` is the number of keys as an `uint64_t`. -/
theorem number_iff {n : Nat} (fits : n < 18446744073709551616) :
    int32 n % 18446744073709551616 = n ↔ n ≤ 2147483647 ∨ 18446744071562067968 ≤ n := by
  unfold int32
  omega

/-- When the first poll brings a key, the loop never looks in front of the buffer. -/
theorem run_start {n : Nat} (pos : n ≠ 0) (first : polls.head? ≠ some 0) :
    Goes (start memory n) polls (run polls (start memory n)) ∧
      ∀ o ∈ (run polls (start memory n)).2.tested, 0 ≤ o ∧ o < n := by
  cases polls with
  | nil =>
    have none : run [] (start memory n) = (false, start memory n) := if_neg pos
    rw [none]
    refine ⟨⟨?_, (fun h => by cases h), (fun h => by cases h), fun _ h => .inl h,
      fun _ h => .inl h⟩, by simp [start]⟩
    obtain ⟨m, rfl⟩ : ∃ m, n = m + 1 := ⟨n - 1, by omega⟩
    simp [start, taken, Complete]
  | cons c rest =>
    have key : c ≠ 0 := fun zero => first (by rw [zero]; rfl)
    rw [run_cons pos]
    by_cases last : c = 255
    · subst last
      rw [if_pos (by rw [turn_key (by decide)]; rfl)]
      refine ⟨.last pos, fun o ho => ?_⟩
      rw [turn_key (by decide)] at ho
      simp only [start, List.nil_append, List.mem_append, List.mem_singleton, or_self] at ho
      omega
    · rw [if_neg (by rw [turn_key key]; simpa using last)]
      have goes : Goes (turn c (start memory n)).2 rest (run rest (turn c (start memory n)).2) := by
        refine run_goes ?_ ?_
        · rw [turn_key key]
          simp only [Int.add_sub_cancel, Function.update_self]
          exact last
        · rw [turn_key key]
          exact int32_int32 _
      refine ⟨goes.key pos key last, fun o ho => ?_⟩
      have tested := goes.tested o ho
      rw [turn_key key] at tested
      simp only [start, List.nil_append, List.mem_append, List.mem_singleton, or_self] at tested
      omega

/-- An empty first poll has the loop look in front of the buffer. -/
theorem run_tests_before (memory : Int → UInt8) (polls : List UInt8) {n : Nat} (pos : n ≠ 0) :
    -1 ∈ (run (0 :: polls) (start memory n)).2.tested := by
  have grows : ∀ (polls : List UInt8) (s : Loop), -1 ∈ s.tested → -1 ∈ (run polls s).2.tested := by
    intro polls
    induction polls with
    | nil =>
      intro s h
      rw [run]
      split <;> exact h
    | cons c rest ih =>
      intro s h
      by_cases done : s.length = 0
      · rwa [run, if_pos done]
      have kept : -1 ∈ (turn c s).2.tested := by
        by_cases empty : c = 0
        · subst empty
          rw [turn_empty done]
          exact List.mem_append_left _ (List.mem_append_left _ h)
        · rw [turn_key empty]
          exact List.mem_append_left _ (List.mem_append_left _ h)
      rw [run_cons done]
      split
      · exact kept
      · exact ih _ kept
  have looked : -1 ∈ (turn 0 (start memory n)).2.tested := by
    rw [turn_empty pos]
    simp [start]
  rw [run_cons pos]
  split
  · exact looked
  · exact grows _ _ looked

theorem taken_length_le (n : Nat) (polls : List UInt8) : (taken n polls).length ≤ n := by
  induction polls generalizing n with
  | nil => cases n <;> simp [taken]
  | cons c rest ih =>
    cases n with
    | zero => simp [taken]
    | succ n =>
      rw [taken]
      split
      · exact ih (n + 1)
      · split
        · simp
        · have := ih n
          rw [List.length_cons]
          omega

/-- A foreground process that reads the keyboard gets its keys if and only if one of them is
there at the first poll, and their number fits. -/
theorem read_reads_iff {n : Nat} {foreground : Int} (hf : foreground ≠ 0) (pos : 1 ≤ n)
    (word : n < 18446744073709551616) (memory : Int → UInt8) (polls : List UInt8) :
    Reads memory n polls (read STDIN foreground memory n polls).1
        (read STDIN foreground memory n polls).2 ↔
      polls.head? ≠ some 0 ∧ (Complete n (taken n polls) →
        (taken n polls).length ≤ 2147483647 ∨ 18446744071562067968 ≤ (taken n polls).length) := by
  obtain ⟨r, hr⟩ : ∃ r, r = run polls (start memory n) := ⟨_, rfl⟩
  have result : read STDIN foreground memory n polls =
      (if r.1 then some (r.2.readBytes % 18446744073709551616) else none, r.2) := by
    rw [hr, read, if_neg fun h => hf h.2]
    rfl
  have fits := taken_length_le n polls
  have spec : polls.head? ≠ some 0 → Goes (start memory n) polls r ∧
      ∀ o ∈ r.2.tested, 0 ≤ o ∧ o < n := fun first => hr ▸ run_start (by omega) first
  have number : polls.head? ≠ some 0 → r.1 = true →
      r.2.readBytes = int32 (taken n polls).length := by
    intro first ended
    rw [(spec first).1.readBytes ended]
    simp [start]
  rw [result]
  constructor
  · intro reads
    have first : polls.head? ≠ some 0 := by
      intro empty
      obtain ⟨rest, rfl⟩ := List.head?_eq_some_iff.mp empty
      have looked := run_tests_before memory rest (n := n) (by omega)
      have := (reads.tested (-1) (hr ▸ looked)).1
      omega
    refine ⟨first, fun complete => ?_⟩
    have ended : r.1 = true := (spec first).1.ended.mpr complete
    have value := reads.number _ (if_pos ended)
    rw [number first ended] at value
    exact (number_iff (by omega)).mp value
  · rintro ⟨first, few⟩
    obtain ⟨goes, tested⟩ := spec first
    refine ⟨goes.ended.symm.trans (by cases r.1 <;> simp), fun v hv => ?_, fun some => ?_,
      fun o ho => ?_, tested⟩
    · split at hv <;> rename_i ended
      · obtain rfl := Option.some.inj hv
        rw [number first ended]
        exact (number_iff (by omega)).mpr (few (goes.ended.mp ended))
      · cases hv
    · refine goes.memory ?_
      by_contra waits
      exact some (if_neg waits)
    · rcases goes.stored o ho with before | inside
      · simp [start] at before
      · simp only [start] at inside
        omega

/-- What the loop of the keyboard's model stores up to its first empty poll are the keys taken
so far. -/
theorem readKeys_taken {k k' : Driver} {left : Option Nat} {n : Nat}
    (h : readKeys n k = .ok (keys, left, k')) :
    taken n keys = keys ∧ (Complete n keys ↔ left = none) := by
  induction n generalizing k keys left with
  | zero =>
    obtain ⟨rfl, e⟩ := Prod.mk.inj (Except.ok.inj h)
    obtain ⟨rfl, -⟩ := Prod.mk.inj e
    exact ⟨rfl, by simp [Complete]⟩
  | succ n ih =>
    obtain ⟨⟨c, d⟩, -, h⟩ := bind_ok.mp h
    simp only at h
    split at h <;> rename_i empty
    · obtain ⟨rfl, e⟩ := Prod.mk.inj (Except.ok.inj h)
      obtain ⟨rfl, -⟩ := Prod.mk.inj e
      exact ⟨rfl, by simp [Complete]⟩
    · split at h <;> rename_i last
      · obtain ⟨rfl, e⟩ := Prod.mk.inj (Except.ok.inj h)
        obtain ⟨rfl, -⟩ := Prod.mk.inj e
        rw [taken, if_neg empty, if_pos last, last]
        exact ⟨rfl, by simp [Complete]⟩
      · obtain ⟨⟨bytes, left', d'⟩, more, h⟩ := bind_ok.mp h
        obtain ⟨rfl, e⟩ := Prod.mk.inj (Except.ok.inj h)
        obtain ⟨rfl, rfl⟩ := Prod.mk.inj e
        obtain ⟨same, ends⟩ := ih more
        have other : (255 : UInt8) ≠ c := fun e => last e.symm
        rw [taken, if_neg empty, if_neg last, same, ← ends]
        exact ⟨rfl, by simp [Complete, other]⟩

end

/-- Two keys for a buffer of two, with nothing typed in between. -/
theorem read_reads_two :
    Reads (fun _ => 0) 2 [97, 0, 98] (read STDIN 1 (fun _ => 0) 2 [97, 0, 98]).1
        (read STDIN 1 (fun _ => 0) 2 [97, 0, 98]).2 ↔
      [97, 0, 98].head? ≠ some (0 : UInt8) ∧ (Complete 2 (taken 2 [97, 0, 98]) →
        (taken 2 [97, 0, 98]).length ≤ 2147483647 ∨
          18446744071562067968 ≤ (taken 2 [97, 0, 98]).length) :=
  read_reads_iff (by decide) (by decide) (by decide) _ _

/-- Nothing has been typed yet, and the byte in front of the buffer happens to be 0xFF: `read`
returns without a key. -/
theorem read_looks_before :
    (read STDIN 1 (fun _ => 255) 1 [0, 97]).1 = some 0 ∧
    ¬ Reads (fun _ => 255) 1 [0, 97] (read STDIN 1 (fun _ => 255) 1 [0, 97]).1
        (read STDIN 1 (fun _ => 255) 1 [0, 97]).2 := by
  refine ⟨by decide, fun reads => ?_⟩
  have outside := (reads.tested (-1) (by decide)).1
  omega

end BottlerOS.ReadCall
