import BottlerOS.Kernel
import BottlerOS.Keyboard
import BottlerOS.SchedCalls

/-! What the keyboard saves and what one process reads, for any order of keys, timer ticks,
calls of the scheduler and reads. The driver keeps one character: it is lost if the next
one is saved before it is read, and only then. -/

namespace BottlerOS.Delivery
open Machine Scheduler SchedCalls Keyboard

inductive Event where
  | key (c : UInt8)
  | sched (e : SchedCalls.Event)
  | read (length : Nat) (before : UInt8) (now : Int) (rsp : Nat)
  | resume (now : Int) (rsp : Nat)

variable {layout : Layout} {reader : Int}

/-- The reader is the current process. -/
def Runs (reader : Int) (s : Sched) : Prop := (getPid s).toOption = some reader

instance (s : Sched) : Decidable (Runs reader s) := inferInstanceAs (Decidable (_ = _))

/-- The processor is inside `read`, with interrupts masked. -/
def Inside (reader : Int) (c : Console) : Prop := c.reading.isSome ∧ Runs reader c.sched

instance (c : Console) : Decidable (Inside reader c) := inferInstanceAs (Decidable (_ ∧ _))

def Enabled (reader : Int) (c : Console) : Event → Prop
  | .key _ => ¬ Inside reader c
  | .sched e => ¬ Inside reader c ∧ SchedCalls.Enabled c.sched e
  | .read _ _ _ _ => c.reading.isNone ∧ Runs reader c.sched
  | .resume _ _ => Inside reader c

instance (c : Console) (e : Event) : Decidable (Enabled reader c e) := by
  cases e <;> unfold Enabled <;> infer_instance

def exec (layout : Layout) (fuel : Nat) (c : Console) : Event → C Console
  | .key code => keyboardHandler fuel layout code c
  | .sched e => do
      let s ← SchedCalls.exec fuel c.sched e
      pure { c with sched := s }
  | .read length before now rsp => read fuel length before now rsp c
  | .resume now rsp => resume fuel now rsp c

def Step (layout : Layout) (reader : Int) (c : Console) (e : Event) (d : Console) : Prop :=
  Enabled reader c e ∧ ∃ fuel, exec layout fuel c e = .ok d

/-- A run, with the states and events of its steps. -/
inductive Run (layout : Layout) (reader : Int) (c : Console) :
    List (Console × Event) → Console → Prop where
  | boot : Run layout reader c [] c
  | step {steps : List (Console × Event)} {d d' : Console} {e : Event}
      (run : Run layout reader c steps d) (next : Step layout reader d e d') :
      Run layout reader c (steps ++ [(d, e)]) d'

/-- The console after boot. -/
def booted (s : Sched) : Console :=
  { sched := s, keyboard := reset, reading := none, returned := [] }

/-- The characters stored into the reader's buffers. -/
def received (c : Console) : List UInt8 :=
  c.returned ++ (c.reading.map (·.bytes)).getD []

/-- The character that waits in the driver. -/
def unread (k : Driver) : List UInt8 := if k.buffer 0 = 0 then [] else [k.buffer 0]

/-- The key whose code completes Alt and F1. -/
def AltF1 (k : Driver) (c : UInt8) : Prop :=
  (c = 0x38 ∨ k.flagChangeAlt = 0) ∧ (c = 0x3B ∨ k.flagChangeF1 = 0)

instance (k : Driver) (c : UInt8) : Decidable (AltF1 k c) := inferInstanceAs (Decidable (_ ∧ _))

/-- The table in use once the key is down. -/
def table (layout : Layout) (k : Driver) (c : UInt8) : List Char :=
  if (if c = 0x3A then ~~~(k.flag ||| 0xFE) else k.flag) = 0 then layout.kbd_sh else layout.kbd

/-- The character a key stands for. -/
def typed (layout : Layout) (k : Driver) (c : UInt8) : Option UInt8 :=
  if c ∈ [0x2A, 0x36, 0xAA, 0xB6] then none
  else if AltF1 k c then some 255
  else if c ∈ [0xB8, 0xBB] then none
  else
    let b := ((table layout k c)[c.toNat]?.getD '\x00').toUInt8
    if b = 0 then none else some b

/-- A key comes whose character takes the place of an unread one. -/
def Overwrites (layout : Layout) (c : Console) : Event → Prop
  | .key code => unread c.keyboard ≠ [] ∧ typed layout c.keyboard code ≠ none
  | _ => False

/-- Where the pointers of the one-character ring can be. -/
def Slot (k : Driver) : Prop := k.last = 0 ∧ k.current ≤ SIZE

section
variable {k k' : Driver}

theorem unread_of_ne {b : UInt8} (hb : b ≠ 0) (h : k.buffer 0 = b) : unread k = [b] := by
  unfold unread
  rw [h, if_neg hb]

theorem unread_of_zero (h : k.buffer 0 = 0) : unread k = [] := by
  unfold unread
  rw [if_pos h]

theorem unread_length (h : unread k ≠ []) : (unread k).length = 1 := by
  by_cases zero : k.buffer 0 = 0
  · exact absurd (unread_of_zero zero) h
  · rw [unread_of_ne zero rfl, List.length_singleton]

theorem saveChar_ok {c : UInt8} (slot : Slot k) (run : saveChar c k = .ok k') :
    Slot k' ∧ k'.saved = k.saved ++ [c] ∧ k'.buffer 0 = c := by
  unfold saveChar SIZE at run
  rw [slot.1, if_pos (by omega), if_pos rfl] at run
  obtain rfl := Except.ok.inj run
  exact ⟨⟨rfl, slot.2⟩, rfl, by simp⟩

theorem key_ok {layout : List Char} {c b : UInt8} (run : key layout c = .ok b) :
    b = (layout[c.toNat]?.getD '\x00').toUInt8 := by
  unfold key at run
  split at run
  · exact (Except.ok.inj run).symm
  · cases run

/-- What a key does to the driver. -/
def Typed (k : Driver) (b : Option UInt8) (k' : Driver) : Prop :=
  match b with
  | none => k'.saved = k.saved ∧ k'.buffer = k.buffer
  | some b => b ≠ 0 ∧ k'.saved = k.saved ++ [b] ∧ k'.buffer 0 = b

theorem testKeyboardInterrupt_typed {c : UInt8} (slot : Slot k)
    (run : testKeyboardInterrupt layout c k = .ok k') :
    Slot k' ∧ Typed k (typed layout k c) k' := by
  unfold testKeyboardInterrupt at run
  by_cases down : c = 0x2A ∨ c = 0x36
  · rw [if_pos down] at run
    obtain rfl := Except.ok.inj run
    have : typed layout k c = none := if_pos (by rcases down with rfl | rfl <;> simp)
    rw [this]
    exact ⟨slot, rfl, rfl⟩
  rw [if_neg down] at run
  by_cases up : c = 0xAA ∨ c = 0xB6
  · rw [if_pos up] at run
    obtain rfl := Except.ok.inj run
    have : typed layout k c = none := if_pos (by rcases up with rfl | rfl <;> simp)
    rw [this]
    exact ⟨slot, rfl, rfl⟩
  rw [if_neg up] at run
  have other : ¬ c ∈ [0x2A, 0x36, 0xAA, 0xB6] := by
    simp only [List.mem_cons, List.not_mem_nil, or_false]
    grind
  unfold typed
  rw [if_neg other]
  -- the driver with the flags of the key
  obtain ⟨d, hd⟩ : ∃ d, d =
      if c = 0x3A then { k with flag := ~~~(k.flag ||| 0xFE) }
      else if c = 0x38 then { k with flagChangeAlt := 0 }
      else if c = 0x3B then { k with flagChangeF1 := 0 }
      else k := ⟨_, rfl⟩
  have flags : Slot d ∧ d.saved = k.saved ∧ d.buffer = k.buffer ∧
      ((d.flagChangeAlt = 0 ∧ d.flagChangeF1 = 0) ↔ AltF1 k c) ∧
      d.flag = if c = 0x3A then ~~~(k.flag ||| 0xFE) else k.flag := by
    unfold AltF1
    rw [hd]
    by_cases caps : c = 0x3A
    · subst caps
      exact ⟨slot, rfl, rfl, by simp, rfl⟩
    by_cases alt : c = 0x38
    · subst alt
      exact ⟨slot, rfl, rfl, by simp, rfl⟩
    by_cases f1 : c = 0x3B
    · subst f1
      exact ⟨slot, rfl, rfl, by simp, rfl⟩
    simpa [caps, alt, f1] using slot
  obtain ⟨slot', saved, buffer, both, flag⟩ := flags
  simp only [← hd] at run
  by_cases altF1 : AltF1 k c
  · rw [if_pos (both.mpr altF1)] at run
    rw [if_pos altF1]
    obtain ⟨slot'', hs, hb⟩ := saveChar_ok (by exact slot') run
    exact ⟨slot'', by decide, by rw [hs, ← saved], hb⟩
  rw [if_neg fun h => altF1 (both.mp h)] at run
  rw [if_neg altF1]
  by_cases release : c = 0xB8 ∨ c = 0xBB
  · rw [if_pos (by simpa using release)]
    rcases release with rfl | rfl
    · rw [if_pos rfl] at run
      obtain rfl := Except.ok.inj run
      exact ⟨slot', saved, buffer⟩
    · rw [if_neg (by decide), if_pos rfl] at run
      obtain rfl := Except.ok.inj run
      exact ⟨slot', saved, buffer⟩
  rw [if_neg fun h => release (.inl h), if_neg fun h => release (.inr h)] at run
  rw [if_neg (by simpa using release)]
  have keys : ∃ b, key (table layout k c) c = .ok b ∧
      (if b ≠ 0 then saveChar b d else pure d) = .ok k' := by
    unfold table
    rw [← flag]
    split at run <;> rename_i shift
    · rw [if_pos shift]
      exact bind_ok.mp run
    · rw [if_neg shift]
      exact bind_ok.mp run
  obtain ⟨b, found, run⟩ := keys
  rw [key_ok found] at run
  split at run <;> rename_i empty
  · obtain ⟨slot'', hs, hb⟩ := saveChar_ok slot' run
    simp only [if_neg empty]
    exact ⟨slot'', empty, by rw [hs, saved], hb⟩
  · obtain rfl := Except.ok.inj run
    simp only [if_pos (not_not.mp empty)]
    exact ⟨slot', saved, buffer⟩

theorem getKeyFromBuffer_ok {c : UInt8} (slot : Slot k)
    (run : getKeyFromBuffer k = .ok (c, k')) :
    Slot k' ∧ k'.saved = k.saved ∧ c = k.buffer 0 ∧ k'.buffer 0 = 0 := by
  unfold getKeyFromBuffer SIZE at run
  have start : (if k.current = 1 then 0 else k.current) = 0 := by
    have := slot.2
    unfold SIZE at this
    split <;> omega
  simp only [start] at run
  rw [if_pos (by omega)] at run
  obtain ⟨rfl, rfl⟩ := Prod.mk.inj (Except.ok.inj run)
  exact ⟨⟨slot.1, Nat.le_refl 1⟩, rfl, rfl, by simp⟩

/-- `read` takes what waits in the driver. -/
theorem readKeys_ok {length : Nat} {bytes : List UInt8} {left : Option Nat} (slot : Slot k)
    (run : readKeys length k = .ok (bytes, left, k')) :
    Slot k' ∧ k'.saved = k.saved ∧ bytes ++ unread k' = unread k := by
  induction length generalizing k bytes left with
  | zero =>
    obtain ⟨rfl, rest⟩ := Prod.mk.inj (Except.ok.inj run)
    obtain ⟨-, rfl⟩ := Prod.mk.inj rest
    exact ⟨slot, rfl, rfl⟩
  | succ length ih =>
    obtain ⟨⟨c, k₁⟩, first, run⟩ := bind_ok.mp run
    obtain ⟨slot₁, saved, hc, taken⟩ := getKeyFromBuffer_ok slot first
    have none := unread_of_zero taken
    dsimp only at run
    split at run <;> rename_i zero
    · obtain ⟨rfl, rest⟩ := Prod.mk.inj (Except.ok.inj run)
      obtain ⟨-, rfl⟩ := Prod.mk.inj rest
      exact ⟨slot₁, saved, by rw [none, unread_of_zero (hc.symm.trans zero), List.append_nil]⟩
    have some := unread_of_ne zero hc.symm
    split at run
    · obtain ⟨rfl, rest⟩ := Prod.mk.inj (Except.ok.inj run)
      obtain ⟨-, rfl⟩ := Prod.mk.inj rest
      exact ⟨slot₁, saved, by rw [none, some, List.append_nil]⟩
    · obtain ⟨⟨bytes, left, k₂⟩, loop, run⟩ := bind_ok.mp run
      obtain ⟨rfl, rest⟩ := Prod.mk.inj (Except.ok.inj run)
      obtain ⟨-, rfl⟩ := Prod.mk.inj rest
      obtain ⟨slot₂, saved₂, all⟩ := ih slot₁ loop
      rw [none] at all
      exact ⟨slot₂, saved₂.trans saved, by rw [List.cons_append, all, some]⟩

end

/-- The characters received and the one that waits. -/
def held (c : Console) : List UInt8 := received c ++ unread c.keyboard

section
variable {c d : Console} {e : Event} {fuel : Nat} {now : Int} {rsp : Nat}

/-- Reading moves characters from the driver to the reader. -/
def Moves (c d : Console) : Prop :=
  Slot d.keyboard ∧ d.keyboard.saved = c.keyboard.saved ∧ held d = held c

theorem poll_moves {r : Reading} (slot : Slot c.keyboard)
    (bytes : c.returned ++ r.bytes = received c) (run : poll fuel now rsp r c = .ok d) :
    Moves c d := by
  obtain ⟨⟨more, left, k⟩, keys, run⟩ := bind_ok.mp run
  obtain ⟨slot', saved, all⟩ := readKeys_ok slot keys
  have moved : (c.returned ++ (r.bytes ++ more)) ++ unread k = held c := by
    unfold held
    rw [← bytes, ← all]
    simp only [List.append_assoc]
  cases left with
  | none =>
    obtain rfl := Except.ok.inj run
    refine ⟨slot', saved, ?_⟩
    rw [← moved]
    simp [held, received]
  | some length =>
    obtain ⟨⟨x, s⟩, -, run⟩ := bind_ok.mp run
    cases x with
    | ret code => cases run
    | forceTimer =>
      obtain ⟨s', -, run⟩ := bind_ok.mp run
      obtain rfl := Except.ok.inj run
      exact ⟨slot', saved, moved⟩

theorem step_moves (slot : Slot c.keyboard) (step : Step layout reader c e d) :
    (Moves c d ∧ ¬ Overwrites layout c e) ∨
      ∃ code b, e = .key code ∧ typed layout c.keyboard code = some b ∧
      Slot d.keyboard ∧ d.keyboard.saved = c.keyboard.saved ++ [b] ∧
      received d = received c ∧ unread d.keyboard = [b] := by
  obtain ⟨enabled, fuel, run⟩ := step
  cases e with
  | key code =>
    obtain ⟨s, -, run⟩ := bind_ok.mp run
    obtain ⟨k, keys, run⟩ := bind_ok.mp run
    obtain rfl := Except.ok.inj run
    obtain ⟨slot', same⟩ := testKeyboardInterrupt_typed slot keys
    cases h : typed layout c.keyboard code with
    | none =>
      rw [h] at same
      refine .inl ⟨⟨slot', same.1, ?_⟩, fun lost => lost.2 h⟩
      simp only [held, unread, same.2]
      rfl
    | some b =>
      rw [h] at same
      exact .inr ⟨code, b, rfl, h, slot', same.2.1, rfl, unread_of_ne same.1 same.2.2⟩
  | sched e =>
    obtain ⟨s, -, run⟩ := bind_ok.mp run
    obtain rfl := Except.ok.inj run
    exact .inl ⟨⟨slot, rfl, rfl⟩, id⟩
  | read length before now rsp =>
    obtain ⟨foreground, -, run⟩ := bind_ok.mp run
    split at run
    · obtain rfl := Except.ok.inj run
      exact .inl ⟨⟨slot, rfl, rfl⟩, id⟩
    · refine .inl ⟨poll_moves slot ?_ run, id⟩
      simp [received, Option.isNone_iff_eq_none.mp enabled.1]
  | resume now rsp =>
    change resume fuel now rsp c = .ok d at run
    unfold resume at run
    split at run <;> rename_i reading
    · obtain rfl := Except.ok.inj run
      exact .inl ⟨⟨slot, rfl, rfl⟩, id⟩
    · rename_i r
      have bytes : c.returned ++ r.bytes = received c := by simp [received, reading]
      split at run
      · obtain rfl := Except.ok.inj run
        refine .inl ⟨⟨slot, rfl, ?_⟩, id⟩
        simp [held, received, reading]
      · exact .inl ⟨poll_moves slot bytes run, id⟩

/-- In every run, what is read is what was saved, in order, with at most the last character
still waiting, exactly if no character is saved over an unread one. -/
theorem run_delivers {s : Sched} {steps : List (Console × Event)}
    (run : Run layout reader (booted s) steps c) :
    received c ++ unread c.keyboard = c.keyboard.saved ↔
      ∀ d e, (d, e) ∈ steps → ¬ Overwrites layout d e := by
  suffices all : Slot c.keyboard ∧ (held c).length ≤ c.keyboard.saved.length ∧
      (held c = c.keyboard.saved ↔ ∀ d e, (d, e) ∈ steps → ¬ Overwrites layout d e) from all.2.2
  induction run with
  | boot => exact ⟨⟨rfl, Nat.zero_le 1⟩, Nat.le_refl 0, fun _ _ _ h => (List.not_mem_nil h).elim,
      fun _ => rfl⟩
  | @step steps d d' e run next ih =>
    obtain ⟨slot, short, same⟩ := ih
    have last : (∀ p f, (p, f) ∈ steps ++ [(d, e)] → ¬ Overwrites layout p f) ↔
        held d = d.keyboard.saved ∧ ¬ Overwrites layout d e := by
      simp only [same, List.mem_append, List.mem_singleton, Prod.mk.injEq]
      grind
    rw [last]
    rcases step_moves slot next with ⟨⟨slot', saved, kept⟩, calm⟩ |
      ⟨code, b, rfl, hb, slot', saved, got, new⟩
    · refine ⟨slot', by rw [saved, kept]; exact short, ?_⟩
      rw [saved, kept]
      exact (and_iff_left calm).symm
    · by_cases waits : unread d.keyboard = []
      · have grown : held d' = held d ++ [b] := by
          unfold held
          rw [got, new, waits, List.append_nil]
        have : ¬ Overwrites layout d (.key code) := fun lost => lost.1 waits
        rw [saved, grown, List.append_cancel_right_eq]
        refine ⟨slot', ?_, ?_⟩
        · simp only [List.length_append, List.length_singleton]
          omega
        · grind
      · have lost : Overwrites layout d (.key code) := ⟨waits, by rw [hb]; simp⟩
        have replaced : (held d').length = (held d).length := by
          unfold held
          rw [List.length_append, List.length_append, got, unread_length waits, new,
            List.length_singleton]
        have longer : d'.keyboard.saved.length = d.keyboard.saved.length + 1 := by
          rw [saved, List.length_append, List.length_singleton]
        refine ⟨slot', by omega, fun h => ?_, fun h => absurd lost h.2⟩
        have := congrArg List.length h
        omega

end

/-- Events one after the other, as long as they are enabled and come back. -/
def play (layout : Layout) (reader : Int) (fuel : Nat) : List Event → Console → Option Console
  | [], c => some c
  | e :: rest, c =>
      if Enabled reader c e then
        match exec layout fuel c e with
        | .error _ => none
        | .ok d => play layout reader fuel rest d
      else none

theorem Run.head {c d c' : Console} {e : Event} {steps : List (Console × Event)}
    (first : Step layout reader c e d) (run : Run layout reader d steps c') :
    Run layout reader c ((c, e) :: steps) c' := by
  induction run with
  | boot => exact @Run.step _ _ _ [] _ _ _ .boot first
  | step _ next ih => exact .step ih next

/-- What is played is a run. -/
theorem play_run {fuel : Nat} {events : List Event} {c d : Console}
    (h : play layout reader fuel events c = some d) : ∃ steps, Run layout reader c steps d := by
  induction events generalizing c with
  | nil =>
    obtain rfl := Option.some.inj h
    exact ⟨[], .boot⟩
  | cons e rest ih =>
    unfold play at h
    split at h <;> rename_i enabled
    · split at h <;> rename_i run
      · cases h
      · obtain ⟨steps, tail⟩ := ih h
        exact ⟨_, .head ⟨enabled, fuel, run⟩ tail⟩
    · cases h

/-- A run from boot whose end has been evaluated. -/
theorem main_play {e : List Event} {v : List UInt8 × List UInt8 × List UInt8}
    (h : ((main 20 0 0 777 (Kernel.blocks 0) (Kernel.blocks 1)).toOption.bind fun s =>
      play english 2 20 e (booted s)).map
        (fun c => (received c, unread c.keyboard, c.keyboard.saved)) = some v) :
    ∃ s steps c, main 20 0 0 777 (Kernel.blocks 0) (Kernel.blocks 1) = .ok s ∧
      Run english 2 (booted s) steps c ∧
      received c = v.1 ∧ unread c.keyboard = v.2.1 ∧ c.keyboard.saved = v.2.2 := by
  obtain ⟨c, hc, rfl⟩ := Option.map_eq_some_iff.mp h
  obtain ⟨s, hs, run⟩ := Option.bind_eq_some_iff.mp hc
  obtain ⟨steps, run⟩ := play_run run
  refine ⟨s, steps, c, ?_, run, rfl, rfl, rfl⟩
  generalize main 20 0 0 777 (Kernel.blocks 0) (Kernel.blocks 1) = x at hs
  cases x with
  | error e => cases hs
  | ok s => exact congrArg Except.ok (Option.some.inj hs)

/-- The shell waits for keys while idle runs: `a` and `b` come before its next turn. -/
theorem second_key_overwrites : ∃ s steps c,
    main 20 0 0 777 (Kernel.blocks 0) (Kernel.blocks 1) = .ok s ∧
    Run english 2 (booted s) steps c ∧ c.keyboard.saved = [97, 98] ∧
    received c = [98] ∧ unread c.keyboard = [] := by
  obtain ⟨s, steps, c, hs, run, got, waits, saved⟩ := main_play (v := ([98], [], [97, 98]))
    (e := [.sched (.tick 0 0), .read 2 0 0 0, .key 0x1E, .key 0x30, .sched (.tick 0 0),
      .resume 0 0]) (by decide +kernel)
  exact ⟨s, steps, c, hs, run, saved, got, waits⟩

/-- The shell reads `a` and waits on. -/
theorem run_delivers_key : ∃ s steps c, Run english 2 (booted s) steps c ∧ received c = [97] ∧
    (received c ++ unread c.keyboard = c.keyboard.saved ↔
      ∀ d e, (d, e) ∈ steps → ¬ Overwrites english d e) := by
  obtain ⟨s, steps, c, -, run, got, -⟩ := main_play (v := ([97], [], [97]))
    (e := [.sched (.tick 0 0), .read 2 0 0 0, .key 0x1E, .sched (.tick 0 0), .resume 0 0])
    (by decide +kernel)
  exact ⟨s, steps, c, run, got, run_delivers run⟩

end BottlerOS.Delivery
