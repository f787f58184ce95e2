import BottlerOS.LineSplit
import BottlerOS.ShellCalls

/-! What a line launches, and whether the shell waits for it, as a function of the line's text
and of `commands`; and `commands` behind a history of lines. -/

namespace BottlerOS.ShellOutcome
open Machine Shell ShellWords LineParse Arguments ShellCalls
open LineSplit (typed)

/-- The index of the first command of that name. -/
def find (w : List Int8) (table : List Cmd) : Option Nat :=
  (table.map (·.name)).findIdx? fun name => decide (chars name = w)

/-- The command that the text at an index names. -/
def named (p : Parsed) (k : Nat) (table : List Cmd) : Option Nat := p.texts[k]?.bind (find · table)

def isBuiltIn (table : List Cmd) (i : Nat) : Int := (table[i]?.map (·.isBuiltIn)).getD 0

def isForeground (table : List Cmd) (i : Nat) : Int := (table[i]?.map (·.isForeground)).getD 0

/-- `commands[i].isForeground = 0` -/
def background (i : Nat) (table : List Cmd) : List Cmd :=
  table.modify i fun c => { c with isForeground := 0 }

structure Outcome where
  loads : List (Nat × Int)
  waits : Bool
  table : List Cmd

def outcome (p : Parsed) (opened : Bool) (table : List Cmd) : Outcome :=
  match named p 0 table with
  | none => ⟨[], false, table⟩
  | some i =>
      if p.pipe = -1 then
        if isBuiltIn table i ≠ 0 then ⟨[], isForeground table i ≠ 0, table⟩
        else if 0 ≤ p.ampersand then ⟨[(i, 0)], false, background i table⟩
        else ⟨[(i, isForeground table i)], isForeground table i ≠ 0, table⟩
      else if 0 ≤ p.ampersand ∨ opened = false then ⟨[], false, table⟩
      else match named p (p.pipe + 1).toNat table with
        | none => ⟨[], false, table⟩
        | some j => ⟨[(i, isForeground table i), (j, 0)], isForeground table i ≠ 0, table⟩

/-- The turn shows this outcome. -/
structure Shows (r : Turn) (o : Outcome) : Prop where
  loads : launches r.calls = o.loads
  waits : .wait ∈ r.calls ↔ o.waits = true
  table : r.commands = o.table

/-- The lines that the shell has been given and what they have made of `commands`. The line
buffer is whatever it is at each prompt. -/
inductive History : List (List Int8) → List Cmd → Prop
  | start : History [] commands
  | line {lines : List (List Int8)} {table : List Cmd} {line : List Int8} {m : InputMallocs}
      {mem : Mem} {r : Turn} : History lines table → Holds mem 0 line →
      processInput m mem table = .ok r → History (lines ++ [line]) r.commands

/-- The line runs a command with `&`. -/
def Backgrounds (line : List Int8) (i : Nat) : Prop :=
  (parse line).pipe = -1 ∧ 0 ≤ (parse line).ampersand ∧ named (parse line) 0 commands = some i ∧
    isBuiltIn commands i = 0

/-- `commands` with the foreground flags of some commands at 0. -/
structure Flagged (ran : Nat → Prop) (table : List Cmd) : Prop where
  names : table.map (·.name) = commands.map (·.name)
  builtIns : table.map (·.isBuiltIn) = commands.map (·.isBuiltIn)
  flags : ∀ i c, table[i]? = some c →
    (ran i → c.isForeground = 0) ∧ (¬ ran i → c.isForeground = 1)

section
variable {m : InputMallocs} {mem : Mem} {line w : List Int8} {table : List Cmd} {r s : Turn}
  {p : Parsed} {t : Split} {fd1 comm0 token k o : Nat} {o' : Outcome}

@[simp] theorem launches_call (s : Turn) (c : Call) :
    launches (s.call c).calls = launches s.calls ++ c.launch?.toList := by
  rw [Turn.call, launches, List.filterMap_append]
  cases hc : c.launch? <;> simp [hc, launches]

@[simp] theorem wait_call (s : Turn) (c : Call) :
    .wait ∈ (s.call c).calls ↔ .wait ∈ s.calls ∨ c = .wait := by
  simp [Turn.call, eq_comm]

@[simp] theorem call_commands (s : Turn) (c : Call) : (s.call c).commands = s.commands := rfl

/-- The names of the table are C strings. -/
def Plain (table : List Cmd) : Prop := ∀ name ∈ table.map (·.name), 0 ∉ chars name

theorem lookup_find (h : Holds mem token w) (plain : Plain table) :
    lookup token mem table k = .ok ((find w table).map (· + k)) := by
  induction table generalizing k with
  | nil => rfl
  | cons c table ih =>
    obtain ⟨d, run, same⟩ := strcmp_holds h (plain c.name (by simp))
    rw [lookup, run, ok_bind, find, List.map_cons, List.findIdx?_cons]
    by_cases here : chars c.name = w
    · rw [if_pos (same.mpr here.symm), if_pos (by simpa using here)]
      simp
    · rw [if_neg fun h => here (same.mp h).symm, if_neg (by simpa using here)]
      rw [ih fun name hn => plain name (List.mem_cons_of_mem _ hn), find, Option.map_map]
      refine congrArg Except.ok (congrArg (Option.map · _) (funext fun i => ?_))
      simp only [Function.comp]
      omega

theorem Parses.congr {mem' : Mem} (parses : Parses t mem p) (same : mem'.buffer = mem.buffer) :
    Parses t mem' p := by
  refine ⟨parses.tokens.imp fun o w holds => ?_, parses.pipe, parses.end_, parses.ampersand⟩
  exact holds.congr fun _ _ _ => by rw [same]

/-- Looking a token up finds the command that its text names. -/
theorem lookup_named (parses : Parses t mem p) (plain : Plain table)
    (here : t.tokens[k]? = some token) : lookup token mem table 0 = .ok (named p k table) := by
  obtain ⟨inside, rfl⟩ := List.getElem?_eq_some_iff.mp here
  have inside' : k < p.texts.length := parses.tokens.length_eq ▸ inside
  have found := lookup_find (k := 0) (parses.tokens.get inside inside') plain
  rw [named, List.getElem?_eq_getElem inside']
  exact found.trans (congrArg Except.ok Option.map_id')

theorem incorrectComm_shows (run : ShellCalls.incorrectComm token s = .ok r) :
    launches r.calls = launches s.calls ∧ (.wait ∈ r.calls ↔ .wait ∈ s.calls) ∧
      r.commands = s.commands := by
  unfold ShellCalls.incorrectComm at run
  obtain ⟨b, -, run⟩ := bind_ok.mp run
  split at run
  all_goals
    obtain rfl := Except.ok.inj run
    simp [Call.launch?]

theorem finish_shows (run : finish m fd1 t comm0 s = .ok r) :
    launches r.calls = launches s.calls ∧
      (.wait ∈ r.calls ↔ .wait ∈ s.calls ∨ isForeground s.commands comm0 ≠ 0) ∧
      r.commands = s.commands := by
  unfold finish at run
  obtain ⟨c, hc, run⟩ := bind_ok.mp run
  have flag : isForeground s.commands comm0 = c.isForeground := by
    rw [isForeground, deref_ok.mp hc]
    rfl
  rw [flag]
  by_cases front : c.isForeground ≠ 0
  · simp only [if_pos front] at run
    split at run
    all_goals
      obtain rfl := Except.ok.inj run
      simp [Call.launch?, front]
  · simp only [if_neg front] at run
    split at run
    all_goals
      obtain rfl := Except.ok.inj run
      simp [Call.launch?, front]

theorem set_background {c : Cmd} {i : Nat} (here : table[i]? = some c) :
    table.set i { c with isForeground := 0 } = background i table := by
  refine List.ext_getElem? fun j => ?_
  obtain ⟨inside, rfl⟩ := List.getElem?_eq_some_iff.mp here
  rw [background, List.getElem?_set, List.getElem?_modify]
  by_cases same : i = j
  · subst same
    simp [inside]
  · simp [same]

theorem processSingle_shows (parses : Parses t s.mem p) (pipe : p.pipe = -1)
    (plain : Plain s.commands) (fresh : launches s.calls = [] ∧ .wait ∉ s.calls)
    (run : ShellCalls.processSingle m fd1 t s = .ok r) (opened : Bool) :
    Shows r (outcome p opened s.commands) := by
  unfold ShellCalls.processSingle at run
  obtain ⟨mem, store, run⟩ := bind_ok.mp run
  obtain ⟨token, htoken, run⟩ := bind_ok.mp run
  obtain ⟨found, hlookup, run⟩ := bind_ok.mp run
  have parses := Parses.congr parses (storeArgv_spec store).2.1
  obtain rfl := Except.ok.inj
    ((lookup_named parses plain (deref_ok.mp htoken)).symm.trans hlookup)
  rw [outcome]
  cases hn : named p 0 s.commands with
  | none =>
    rw [call_commands, hn] at run
    obtain ⟨loads, waits, table⟩ := incorrectComm_shows run
    exact ⟨by simp [loads, fresh.1, Call.launch?], by simp [waits, fresh.2], table⟩
  | some i =>
    rw [call_commands, hn] at run
    obtain ⟨c, hc, run⟩ := bind_ok.mp run
    have here : s.commands[i]? = some c := deref_ok.mp hc
    have builtIn : isBuiltIn s.commands i = c.isBuiltIn := by
      rw [isBuiltIn, here]
      rfl
    have front : isForeground s.commands i = c.isForeground := by
      rw [isForeground, here]
      rfl
    simp only [if_pos pipe, builtIn]
    split at run <;> rename_i own
    · obtain ⟨loads, waits, table⟩ := finish_shows run
      rw [if_pos own]
      exact ⟨by simp [loads, fresh.1, Call.launch?], by simp [waits, fresh.2, Turn.call], table⟩
    · obtain ⟨inside, -⟩ := List.getElem?_eq_some_iff.mp here
      rw [if_neg own]
      obtain ⟨loads, waits, table⟩ := finish_shows run
      rw [parses.ampersand] at loads waits table
      have set : isForeground (s.commands.set i (if p.ampersand ≥ 0 then
          { c with isForeground := 0 } else c)) i =
          (if p.ampersand ≥ 0 then { c with isForeground := 0 } else c).isForeground := by
        rw [isForeground, List.getElem?_set_self inside]
        rfl
      simp only [launches_call, wait_call, call_commands, set] at loads waits table
      by_cases low : 0 ≤ p.ampersand
      · rw [if_pos low]
        simp only [if_pos low, set_background here] at loads waits table
        exact ⟨by simp [loads, fresh.1, Call.launch?], by simp [waits, fresh.2], table⟩
      · obtain ⟨inside, rfl⟩ := List.getElem?_eq_some_iff.mp here
        rw [if_neg low, front]
        simp only [if_neg low, List.set_getElem_self] at loads waits table
        exact ⟨by simp [loads, fresh.1, Call.launch?], by simp [waits, fresh.2], table⟩

theorem processPiped_shows (parses : Parses t s.mem p) (pipe : p.pipe ≠ -1)
    (low : ¬ 0 ≤ p.ampersand) (head : isBuiltIn s.commands 0 = 0) (plain : Plain s.commands)
    (fresh : launches s.calls = [] ∧ .wait ∉ s.calls)
    (run : ShellCalls.processPiped m fd1 t s = .ok r) :
    Shows r (outcome p m.opened.isSome s.commands) := by
  unfold ShellCalls.processPiped at run
  obtain ⟨fd, -, run⟩ := bind_ok.mp run
  simp only [outcome, if_neg pipe]
  split at run <;> rename_i opened
  · obtain rfl := Except.ok.inj run
    simp only [opened, if_pos (Or.inr (Option.isSome_none (α := Nat × Nat)))]
    cases named p 0 s.commands
    all_goals exact ⟨by simp [fresh.1, Call.launch?], by simp [fresh.2], rfl⟩
  rename_i x w
  obtain ⟨fd2, -, run⟩ := bind_ok.mp run
  obtain ⟨mem₀, store₀, run⟩ := bind_ok.mp run
  obtain ⟨mem₁, store₁, run⟩ := bind_ok.mp run
  obtain ⟨first, hfirst, run⟩ := bind_ok.mp run
  obtain ⟨second, hsecond, run⟩ := bind_ok.mp run
  obtain ⟨found, hlookup, run⟩ := bind_ok.mp run
  have ints := (storeInts_spec ((s.mem.storeInts fd x w).storeInts fd1 0 w) fd2 x 1).2.trans
    ((storeInts_spec (s.mem.storeInts fd x w) fd1 0 w).2.trans (storeInts_spec s.mem fd x w).2)
  have parses := Parses.congr parses
    ((storeArgv_spec store₁).2.1.trans ((storeArgv_spec store₀).2.1.trans ints))
  simp only [call_commands] at hlookup
  obtain rfl := Except.ok.inj
    ((lookup_named parses plain (deref_ok.mp hfirst)).symm.trans hlookup)
  simp only [opened, Option.isSome_some, Bool.true_eq_false, or_false, if_neg low]
  cases hn : named p 0 s.commands with
  | none =>
    simp only [call_commands, hn] at run
    obtain ⟨loads, waits, table⟩ := incorrectComm_shows run
    exact ⟨by simp [loads, fresh.1, Call.launch?], by simp [waits, fresh.2], table⟩
  | some i =>
    simp only [call_commands, hn] at run
    obtain ⟨found, hlookup', run⟩ := bind_ok.mp run
    rw [parses.pipe] at hsecond
    obtain rfl := Except.ok.inj
      ((lookup_named parses plain (deref_ok.mp hsecond)).symm.trans hlookup')
    cases hn' : named p (p.pipe + 1).toNat s.commands with
    | none =>
      simp only [hn'] at run
      obtain ⟨loads, waits, table⟩ := incorrectComm_shows run
      exact ⟨by simp [loads, fresh.1, Call.launch?], by simp [waits, fresh.2], table⟩
    | some j =>
      simp only [hn'] at run
      obtain ⟨c, hc, run⟩ := bind_ok.mp run
      have own : c.isBuiltIn = 0 := by
        rw [isBuiltIn, deref_ok.mp hc] at head
        exact head
      rw [if_neg fun h => h.1 own] at run
      obtain ⟨c0, hc0, run⟩ := bind_ok.mp run
      have front : isForeground s.commands i = c0.isForeground := by
        rw [isForeground, deref_ok.mp hc0]
        rfl
      obtain ⟨loads, waits, table⟩ := finish_shows run
      simp only [launches_call, wait_call, call_commands] at loads waits table
      exact ⟨by simp [loads, fresh.1, front, Call.launch?], by simp [waits, fresh.2], table⟩

/-- Every line's launches and wait. -/
theorem processInput_outcome (h : Holds mem 0 line) (head : isBuiltIn table 0 = 0)
    (plain : Plain table) (run : ShellCalls.processInput m mem table = .ok r) :
    Shows r (outcome (parse line) m.opened.isSome table) := by
  obtain ⟨t, mem', loop, parses⟩ := tokenLoop_parses h
  rw [ShellCalls.processInput, loop, ok_bind] at run
  simp only [parses.pipe, parses.ampersand] at run
  split at run <;> rename_i refused
  · obtain rfl := Except.ok.inj run
    simp only [outcome, if_neg refused.1, if_pos (Or.inl refused.2)]
    cases named (parse line) 0 table
    all_goals exact ⟨by simp [launches, Call.launch?, Turn.call], by simp [Turn.call], rfl⟩
  · obtain ⟨fd1, -, run⟩ := bind_ok.mp run
    have parses : Parses t (mem'.storeInts fd1 0 1) (parse line) :=
      Parses.congr parses (storeInts_spec mem' fd1 0 1).2
    have fresh : launches [Call.malloc 8 m.fd1] = [] ∧ .wait ∉ [Call.malloc 8 m.fd1] :=
      ⟨rfl, by simp⟩
    split at run <;> rename_i piped
    · exact processPiped_shows (s := ⟨_, table, [.malloc 8 m.fd1]⟩) parses piped
        (fun low => refused ⟨piped, low⟩) head plain fresh run
    · exact processSingle_shows (s := ⟨_, table, [.malloc 8 m.fd1]⟩) parses (not_not.mp piped)
        plain fresh run _

/-! `commands` behind a history. -/

theorem commands_plain : Plain commands := by
  unfold Plain
  decide

theorem find_lt {i : Nat} (h : find w table = some i) : i < table.length := by
  obtain ⟨inside, -⟩ := List.findIdx?_eq_some_iff_getElem.mp h
  simpa using inside

theorem named_lt {i : Nat} (h : named p k table = some i) : i < table.length := by
  obtain ⟨w, -, found⟩ := Option.bind_eq_some_iff.mp h
  exact find_lt found

variable {ran : Nat → Prop} {lines : List (List Int8)}

theorem Flagged.plain (h : Flagged ran table) : Plain table := by
  intro name hn
  rw [h.names] at hn
  exact commands_plain name hn

theorem Flagged.named (h : Flagged ran table) : named p k table = named p k commands := by
  unfold ShellOutcome.named find
  rw [h.names]

theorem Flagged.isBuiltIn (h : Flagged ran table) (i : Nat) :
    isBuiltIn table i = isBuiltIn commands i := by
  have := congrArg (fun l => l[i]?.getD 0) h.builtIns
  simp only [List.getElem?_map] at this
  exact this

theorem Flagged.head (h : Flagged ran table) : ShellOutcome.isBuiltIn table 0 = 0 := by
  rw [h.isBuiltIn]
  rfl

theorem Flagged.isForeground {i : Nat} (h : Flagged ran table) (inside : i < commands.length) :
    (ran i → isForeground table i = 0) ∧ (¬ ran i → isForeground table i = 1) := by
  have length := congrArg List.length h.names
  rw [List.length_map, List.length_map] at length
  have here := List.getElem?_eq_getElem (length ▸ inside)
  rw [ShellOutcome.isForeground, here]
  exact h.flags i _ here

theorem Flagged.isForeground_eq {ran' : Nat → Prop} {table' : List Cmd} {i : Nat}
    (h : Flagged ran table) (h' : Flagged ran' table') (inside : i < commands.length) :
    ShellOutcome.isForeground table i = ShellOutcome.isForeground table' i ↔
      (ran i ↔ ran' i) := by
  obtain ⟨zero, one⟩ := h.isForeground inside
  obtain ⟨zero', one'⟩ := h'.isForeground inside
  by_cases hr : ran i <;> by_cases hr' : ran' i
  · simp [zero hr, zero' hr', hr, hr']
  · simp [zero hr, one' hr', hr, hr']
  · simp [one hr, zero' hr', hr, hr']
  · simp [one hr, one' hr', hr, hr']

theorem Flagged.background (h : Flagged ran table) (i : Nat) :
    Flagged (fun j => ran j ∨ j = i) (background i table) := by
  have kept : ∀ {β : Type} (f : Cmd → β), (∀ c, f { c with isForeground := 0 } = f c) →
      (ShellOutcome.background i table).map f = table.map f := by
    intro β f hf
    refine List.ext_getElem? fun j => ?_
    rw [ShellOutcome.background, List.getElem?_map, List.getElem?_map, List.getElem?_modify]
    cases table[j]? <;> simp
    split
    · exact hf _
    · rfl
  refine ⟨(kept _ fun _ => rfl).trans h.names, (kept _ fun _ => rfl).trans h.builtIns, ?_⟩
  intro j c hc
  rw [ShellOutcome.background, List.getElem?_modify] at hc
  cases hj : table[j]? with
  | none => rw [hj] at hc; cases hc
  | some d =>
    rw [hj] at hc
    obtain rfl := Option.some.inj hc
    obtain ⟨zero, one⟩ := h.flags j d hj
    simp only
    by_cases same : i = j
    · rw [if_pos same]
      exact ⟨fun _ => rfl, fun other => absurd (.inr same.symm) other⟩
    · rw [if_neg same]
      refine ⟨fun hr => zero (hr.resolve_right fun e => same e.symm), fun hr => one ?_⟩
      exact fun hr' => hr (.inl hr')

theorem Flagged.congr {ran' : Nat → Prop} (h : Flagged ran table) (same : ∀ i, ran i ↔ ran' i) :
    Flagged ran' table := by
  obtain rfl : ran = ran' := funext fun i => propext (same i)
  exact h

/-- One line's write to `commands`. -/
theorem Flagged.outcome (h : Flagged ran table) (opened : Bool) :
    Flagged (fun i => ran i ∨ Backgrounds line i) (outcome (parse line) opened table).table := by
  have calm : (∀ i, ¬ Backgrounds line i) → Flagged (fun i => ran i ∨ Backgrounds line i) table :=
    fun none => h.congr fun i => (or_iff_left (none i)).symm
  rw [ShellOutcome.outcome, h.named]
  cases hn : ShellOutcome.named (parse line) 0 commands with
  | none => exact calm fun i bg => by rw [Backgrounds, hn] at bg; cases bg.2.2.1
  | some i =>
    simp only
    by_cases pipe : (parse line).pipe = -1
    · rw [if_pos pipe, h.isBuiltIn]
      split <;> rename_i own
      · exact calm fun j bg => by
          rw [Backgrounds, hn] at bg
          obtain rfl := Option.some.inj bg.2.2.1
          exact own bg.2.2.2
      · split <;> rename_i low
        · refine (h.background i).congr fun j => or_congr_right ⟨?_, ?_⟩
          · rintro rfl
            exact ⟨pipe, low, hn, not_not.mp own⟩
          · rintro ⟨-, -, here, -⟩
            exact (Option.some.inj (hn.symm.trans here)).symm
        · exact calm fun j bg => low bg.2.1
    · rw [if_neg pipe]
      have none : ∀ j, ¬ Backgrounds line j := fun j bg => pipe bg.1
      split
      · exact calm none
      · split
        · exact calm none
        · exact calm none

theorem History.flagged (h : History lines table) :
    Flagged (fun i => ∃ l ∈ lines, Backgrounds l i) table := by
  induction h with
  | start =>
    refine ⟨rfl, rfl, fun i c hc => ⟨fun ⟨l, hl, _⟩ => absurd hl List.not_mem_nil, fun _ => ?_⟩⟩
    have all : ∀ c ∈ commands, c.isForeground = 1 := by decide
    exact all c (List.mem_of_getElem? hc)
  | line before held run ih =>
    rw [(processInput_outcome held ih.head ih.plain run).table]
    refine (ih.outcome _).congr fun i => ?_
    simp [or_and_right, exists_or]

/-! Built-in commands in a pipe. -/

/-- A pipe in the foreground between two commands. -/
def Pipes (p : Parsed) (i j : Nat) : Prop :=
  p.pipe ≠ -1 ∧ ¬ 0 ≤ p.ampersand ∧ named p 0 commands = some i ∧
    named p (p.pipe + 1).toNat commands = some j

/-- The line launches the command, first and without `&`. -/
def Fronts (p : Parsed) (opened : Bool) (i : Nat) : Prop :=
  (p.pipe = -1 ∧ ¬ 0 ≤ p.ampersand ∧ named p 0 commands = some i ∧ isBuiltIn commands i = 0) ∨
    (opened = true ∧ ∃ j, Pipes p i j)

theorem outcome_same {ran' : Nat → Prop} {table' : List Cmd} {opened opened' : Bool}
    (h : Flagged ran table) (h' : Flagged ran' table')
    (plain : ∀ i, ran i ∨ ran' i → isBuiltIn commands i = 0) :
    ((outcome p opened table).loads = (outcome p opened' table').loads ∧
        (outcome p opened table).waits = (outcome p opened' table').waits) ↔
      ((∃ i j, Pipes p i j) → opened = opened') ∧
        ∀ i, Fronts p opened i → (ran i ↔ ran' i) := by
  simp only [outcome, h.named, h.isBuiltIn, h'.named, h'.isBuiltIn, Pipes, Fronts]
  cases hi : named p 0 commands with
  | none => simp
  | some i =>
    have flags := h.isForeground_eq h' (named_lt hi)
    by_cases pipe : p.pipe = -1
    · simp only [if_pos pipe]
      by_cases own : isBuiltIn commands i ≠ 0
      · have same : ran i ↔ ran' i :=
          ⟨fun hr => absurd (plain i (.inl hr)) own, fun hr => absurd (plain i (.inr hr)) own⟩
        simp [pipe, own, flags.mpr same]
      · simp only [if_neg own]
        split <;> rename_i low
        · simp [pipe, low]
        · have own := not_not.mp own
          simp [pipe, low, own]
          grind
    · simp only [if_neg pipe]
      by_cases low : 0 ≤ p.ampersand
      · simp [pipe, low]
      cases hj : named p (p.pipe + 1).toNat commands with
      | none => simp [pipe]
      | some j =>
        simp [pipe, low]
        cases opened <;> cases opened' <;> simp
        grind

theorem outcome_builtIn (h : Flagged ran table) (opened : Bool) :
    (∀ l ∈ (outcome p opened table).loads, isBuiltIn table l.1 = 0) ↔
      ¬ (opened = true ∧ ∃ i j, Pipes p i j ∧
        (isBuiltIn commands i ≠ 0 ∨ isBuiltIn commands j ≠ 0)) := by
  simp only [outcome, h.named, h.isBuiltIn, Pipes]
  cases hi : named p 0 commands with
  | none => simp
  | some i =>
    by_cases pipe : p.pipe = -1
    · simp only [if_pos pipe]
      split <;> rename_i own
      · simp [pipe]
      · have own := not_not.mp own
        split <;> simp [pipe, own]
    · simp only [if_neg pipe]
      split <;> rename_i refused
      · rcases refused with low | closed <;> simp [*]
      · obtain ⟨low, opened⟩ := not_or.mp refused
        cases named p (p.pipe + 1).toNat commands with
        | none => simp
        | some j => simp [pipe, low, opened]

theorem named_words {ws : List (List Int8)} (texts : p.texts = ws ++ [[]]) :
    named p k commands = ws[k]?.bind (find · commands) := by
  rw [named, texts]
  rcases Nat.lt_or_ge k ws.length with inside | outside
  · rw [List.getElem?_append_left inside]
  · rw [List.getElem?_eq_none outside, List.getElem?_append_right outside]
    cases k - ws.length <;> rfl

/-- What `parse` gives for ten words or less. -/
theorem parse_few (few : (words line).length ≤ 10) :
    (∀ k, named (parse line) k commands = (words line)[k]?.bind (find · commands)) ∧
      (parse line).pipe = pipeAt (words line) ∧
      (0 ≤ (parse line).ampersand ↔ Background (words line)) := by
  by_cases visible : ∃ c ∈ line, c ≠ 32
  · rw [parse_words visible few]
    refine ⟨fun k => named_words rfl, rfl, ?_⟩
    simp only
    split <;> rename_i bg <;> simp [bg]
  · have blank : line = List.replicate line.length 32 :=
      List.eq_replicate_of_mem fun c hc => by
        by_contra other
        exact visible ⟨c, hc, other⟩
    have none : words line = [] := by
      rw [blank, ← List.append_nil (List.replicate _ _), words_space, words_nil]
    have parsed : parse line = ⟨[[], []], -1, 1, -1⟩ := by
      rw [parse, List.dropWhile_eq_nil_iff.mpr fun c hc => ?_]
      · rfl
      · by_contra other
        exact visible ⟨c, hc, by simpa using other⟩
    rw [none, parsed]
    refine ⟨fun k => ?_, rfl, by simp [Background]⟩
    rcases k with _ | _ | k <;> rfl

end

/-- A pipe in the foreground between two commands of which one is a built-in. -/
def BuiltInPiped (ws : List (List Int8)) : Prop :=
  ∃ k i j : Nat, pipeAt ws = k ∧ ¬ Background ws ∧ ws[0]?.bind (find · commands) = some i ∧
    ws[k + 1]?.bind (find · commands) = some j ∧
    (isBuiltIn commands i ≠ 0 ∨ isBuiltIn commands j ≠ 0)

/-- The built-in commands stay inside the shell if and only if the line does not pipe one. -/
theorem processInput_builtIn_iff {lines : List (List Int8)} {table : List Cmd} {line : List Int8}
    {m : InputMallocs} {mem : Mem} {r : Turn} (h : History lines table) (held : Holds mem 0 line)
    (few : (words line).length ≤ 10) (run : ShellCalls.processInput m mem table = .ok r) :
    (∀ l ∈ launches r.calls, isBuiltIn table l.1 = 0) ↔
      ¬ (m.opened.isSome = true ∧ BuiltInPiped (words line)) := by
  have flagged := h.flagged
  rw [(processInput_outcome held flagged.head flagged.plain run).loads, outcome_builtIn flagged]
  obtain ⟨texts, pipe, ampersand⟩ := parse_few few
  refine not_congr (and_congr_right fun _ => ?_)
  constructor
  · rintro ⟨i, j, ⟨some, low, first, second⟩, own⟩
    rw [texts] at first second
    rw [ampersand] at low
    rw [pipe] at some second
    obtain ⟨k, hk, -⟩ := (LineSplit.pipeAt_cases (words line)).resolve_left some
    rw [hk] at second
    exact ⟨k, i, j, hk, low, first, second, own⟩
  · rintro ⟨k, i, j, hk, low, first, second, own⟩
    refine ⟨i, j, ⟨by rw [pipe, hk]; omega, ampersand.not.mpr low, ?_, ?_⟩, own⟩
    · rw [texts, first]
    · rw [texts, pipe, hk]
      exact second

/-- Blocks for every request of a line, and a pipe. -/
def blocks : InputMallocs :=
  ⟨some 0x600010, some 0x600030, some (3, 4), some 0x600050, some 0x600070, some 0x600090⟩

theorem typed_holds {text : String} (short : readString SIZE 0 (typed text) = some (chars text)) :
    Holds (typed text) 0 (chars text) :=
  (readString_iff (n := SIZE) rfl).mp short

/-- A line whose calls have been evaluated. -/
theorem run_of {text : String} {loads : List (Nat × Int)} {table : List Cmd}
    (h : (ShellCalls.processInput blocks (typed text) table).toOption.map
      (fun r => launches r.calls) = some loads) :
    ∃ r, ShellCalls.processInput blocks (typed text) table = .ok r ∧ launches r.calls = loads := by
  obtain ⟨r, run, loads⟩ := Option.map_eq_some_iff.mp h
  exact ⟨r, ok_of_toOption run, loads⟩

theorem kill_cat : ∃ r, ShellCalls.processInput blocks (typed "kill | cat") commands = .ok r ∧
    launches r.calls = [(14, 1), (1, 0)] :=
  run_of (by decide +kernel)

theorem processInput_builtIn_kill : ∃ r,
    ShellCalls.processInput blocks (typed "kill | cat") commands = .ok r ∧
      ((∀ l ∈ launches r.calls, isBuiltIn commands l.1 = 0) ↔
        ¬ (blocks.opened.isSome = true ∧ BuiltInPiped (words (chars "kill | cat")))) := by
  obtain ⟨r, run, -⟩ := kill_cat
  exact ⟨r, run, processInput_builtIn_iff .start (typed_holds (by decide +kernel)) (by decide) run⟩

/-- `kill` on the left of a pipe becomes a process. -/
theorem built_in_launched : ∃ r, History [] commands ∧
    Holds (typed "kill | cat") 0 (chars "kill | cat") ∧ (words (chars "kill | cat")).length ≤ 10 ∧
    ShellCalls.processInput blocks (typed "kill | cat") commands = .ok r ∧
    ∃ l ∈ launches r.calls, isBuiltIn commands l.1 ≠ 0 := by
  obtain ⟨r, run, loads⟩ := kill_cat
  refine ⟨r, .start, typed_holds (by decide +kernel), by decide, run, (14, 1), ?_, by decide⟩
  rw [loads]
  exact List.mem_cons_self

/-! Two histories. -/

/-- Two histories lead to the same launches and the same wait if and only if the pipe is opened
behind both or neither, and a command that the line launches in the foreground has been run with
`&` in both or neither. -/
theorem processInput_history_iff {lines lines' : List (List Int8)} {table table' : List Cmd}
    {line : List Int8} {m m' : InputMallocs} {mem mem' : Mem} {r r' : Turn}
    (h : History lines table) (h' : History lines' table') (held : Holds mem 0 line)
    (held' : Holds mem' 0 line) (run : ShellCalls.processInput m mem table = .ok r)
    (run' : ShellCalls.processInput m' mem' table' = .ok r') :
    (launches r.calls = launches r'.calls ∧ (.wait ∈ r.calls ↔ .wait ∈ r'.calls)) ↔
      ((∃ i j, Pipes (parse line) i j) → m.opened.isSome = m'.opened.isSome) ∧
        ∀ i, Fronts (parse line) m.opened.isSome i →
          ((∃ l ∈ lines, Backgrounds l i) ↔ (∃ l ∈ lines', Backgrounds l i)) := by
  have flagged := h.flagged
  have flagged' := h'.flagged
  have shows := processInput_outcome held flagged.head flagged.plain run
  have shows' := processInput_outcome held' flagged'.head flagged'.plain run'
  rw [shows.loads, shows'.loads, shows.waits, shows'.waits, ← Bool.eq_iff_iff]
  refine outcome_same flagged flagged' fun i hr => ?_
  rcases hr with ⟨l, -, bg⟩ | ⟨l, -, bg⟩ <;> exact bg.2.2.2

/-- `cat &` and then `cat`. -/
theorem cat_twice : ∃ r r', ShellCalls.processInput blocks (typed "cat &") commands = .ok r ∧
    ShellCalls.processInput blocks (typed "cat") r.commands = .ok r' ∧
    launches r'.calls = [(1, 0)] := by
  have h : ((ShellCalls.processInput blocks (typed "cat &") commands).toOption.bind fun r =>
      (ShellCalls.processInput blocks (typed "cat") r.commands).toOption.map
        fun r => launches r.calls) = some [(1, 0)] := by
    decide +kernel
  obtain ⟨r, run, second⟩ := Option.bind_eq_some_iff.mp h
  obtain ⟨r', run', loads⟩ := run_of second
  exact ⟨r, r', ok_of_toOption run, run', loads⟩

theorem cat_alone : ∃ r, ShellCalls.processInput blocks (typed "cat") commands = .ok r ∧
    launches r.calls = [(1, 1)] :=
  run_of (by decide +kernel)

theorem cat_amp : Holds (typed "cat &") 0 (chars "cat &") := typed_holds (by decide +kernel)

theorem cat : Holds (typed "cat") 0 (chars "cat") := typed_holds (by decide +kernel)

theorem processInput_history_cat : ∃ r₁ r r',
    ShellCalls.processInput blocks (typed "cat &") commands = .ok r₁ ∧
    ShellCalls.processInput blocks (typed "cat") commands = .ok r ∧
    ShellCalls.processInput blocks (typed "cat") r₁.commands = .ok r' ∧
    ((launches r.calls = launches r'.calls ∧ (.wait ∈ r.calls ↔ .wait ∈ r'.calls)) ↔
      ((∃ i j, Pipes (parse (chars "cat")) i j) → blocks.opened.isSome = blocks.opened.isSome) ∧
        ∀ i, Fronts (parse (chars "cat")) blocks.opened.isSome i →
          ((∃ l ∈ ([] : List (List Int8)), Backgrounds l i) ↔
            (∃ l ∈ [] ++ [chars "cat &"], Backgrounds l i))) := by
  obtain ⟨r, run, -⟩ := cat_alone
  obtain ⟨r₁, r', run₁, run', -⟩ := cat_twice
  exact ⟨r₁, r, r', run₁, run, run',
    processInput_history_iff .start (.line .start cat_amp run₁) cat cat run run'⟩

/-- `cat` is launched in the background behind `cat &`, and in the foreground behind nothing. -/
theorem background_stays : ∃ lines lines' table table' r r', History lines table ∧
    History lines' table' ∧ Holds (typed "cat") 0 (chars "cat") ∧
    ShellCalls.processInput blocks (typed "cat") table = .ok r ∧
    ShellCalls.processInput blocks (typed "cat") table' = .ok r' ∧
    launches r.calls = [(1, 1)] ∧ launches r'.calls = [(1, 0)] := by
  obtain ⟨r, run, loads⟩ := cat_alone
  obtain ⟨r₁, r', run₁, run', loads'⟩ := cat_twice
  exact ⟨_, _, _, _, r, r', .start, .line .start cat_amp run₁, cat, run, run', loads, loads'⟩

end BottlerOS.ShellOutcome
