import BottlerOS.Delivery

/-! The modifier keys of `Kernel/drivers/keyboard.c` against what is held on the keyboard. One
`flag` stands for two shift keys and caps lock, so that it can lose what the others say. -/

namespace BottlerOS.KeyModifiers
open Machine Keyboard Delivery

def leftShift : UInt8 := 0x2A
def rightShift : UInt8 := 0x36
def capsLock : UInt8 := 0x3A
def alt : UInt8 := 0x38
def f1 : UInt8 := 0x3B

inductive Act where
  | press
  | again
  | release
  deriving DecidableEq

/-- What happens to a key. Its code and the one of its release index the tables. -/
structure Event where
  key : UInt8
  act : Act
  small : key < 0x7A

def Event.scancode (e : Event) : UInt8 :=
  match e.act with
  | .press | .again => e.key
  | .release => e.key + 0x80

/-- The keys that are down, the one that repeats, and how often caps lock has been pressed. -/
structure Keys where
  held : List UInt8
  latest : Option UInt8
  caps : Nat

def idle : Keys := ⟨[], none, 0⟩

/-- A key is pressed when it is up and released when it is down; only the one pressed last
repeats. -/
def Possible (ks : Keys) (e : Event) : Prop :=
  match e.act with
  | .press => e.key ∉ ks.held
  | .again => ks.latest = some e.key
  | .release => e.key ∈ ks.held

def Keys.next (ks : Keys) (e : Event) : Keys :=
  match e.act with
  | .press =>
      { held := e.key :: ks.held
        latest := some e.key
        caps := if e.key = capsLock then ks.caps + 1 else ks.caps }
  | .again => ks
  | .release =>
      { ks with
        held := ks.held.filter (· ≠ e.key)
        latest := if ks.latest = some e.key then none else ks.latest }

def Series (ks : Keys) : List Event → Prop
  | [] => True
  | e :: events => Possible ks e ∧ Series (ks.next e) events

/-- One call of `testKeyboardInterrupt`, with the keys before it. -/
structure Turn where
  keys : Keys
  before : Driver
  event : Event
  after : Driver

def run (layout : Layout) : List Event → Keys → Driver → C (List Turn)
  | [], _, _ => pure []
  | e :: events, ks, k => do
      let k' ← testKeyboardInterrupt layout e.scancode k
      let turns ← run layout events (ks.next e) k'
      pure (⟨ks, k, e, k'⟩ :: turns)

def Keys.shifts (ks : Keys) : Prop := leftShift ∈ ks.held ∨ rightShift ∈ ks.held
def Keys.capsOn (ks : Keys) : Prop := ks.caps % 2 = 1

/-- The shifted table is selected when a shift key is held or caps lock is on, but not both. -/
def Selects (ks : Keys) (k : Driver) : Prop := k.flag = 0 ↔ (ks.shifts ↔ ¬ ks.capsOn)

/-- End of input is saved only at a press after which Alt and F1 are held. -/
def EndsInput (ks : Keys) (k : Driver) (e : Event) (k' : Driver) : Prop :=
  ∃ saved, k'.saved = k.saved ++ saved ∧
    (255 ∈ saved → e.act = .press ∧ (e.key = alt ∨ e.key = f1) ∧
      alt ∈ (ks.next e).held ∧ f1 ∈ (ks.next e).held)

/-- A shift key goes down while caps lock is off, it comes up while the other one is held exactly
if caps lock is on, and caps lock does not repeat. -/
def Plain (ks : Keys) (e : Event) : Prop :=
  match e.act with
  | .press => e.key = leftShift ∨ e.key = rightShift → ¬ ks.capsOn
  | .again => (e.key = leftShift ∨ e.key = rightShift → ¬ ks.capsOn) ∧ e.key ≠ capsLock
  | .release =>
      (e.key = leftShift → (rightShift ∈ ks.held ↔ ks.capsOn)) ∧
        (e.key = rightShift → (leftShift ∈ ks.held ↔ ks.capsOn))

/-- How the driver's flags belong to the keys. -/
structure Linked (ks : Keys) (k : Driver) : Prop where
  slot : Slot k
  flag : k.flag = 0 ∨ k.flag = 1
  latest : ∀ c, ks.latest = some c → c ∈ ks.held
  altHeld : k.flagChangeAlt = 0 → alt ∈ ks.held ∧ ks.latest ≠ some f1
  f1Held : k.flagChangeF1 = 0 → f1 ∈ ks.held ∧ ks.latest ≠ some alt
  rested : ¬ (k.flagChangeAlt = 0 ∧ k.flagChangeF1 = 0)

/-- No key of the tables is end of input. -/
def Endless (layout : Layout) : Prop :=
  ∀ c ∈ layout.kbd ++ layout.kbd_sh, c.toUInt8 ≠ 255

/-- The driver has at most saved a key of its tables. -/
structure Struck (k k' : Driver) : Prop where
  slot : Slot k'
  flag : k'.flag = k.flag
  altFlag : k'.flagChangeAlt = k.flagChangeAlt
  f1Flag : k'.flagChangeF1 = k.flagChangeF1
  saved : ∃ saved, k'.saved = k.saved ++ saved ∧ 255 ∉ saved

section
variable {layout : Layout} {k k' : Driver} {c : UInt8} {ks : Keys} {e : Event}

theorem small_lt {c : UInt8} (small : c < 0x7A) : c.toNat < 250 ∧ (c + 0x80).toNat < 250 := by
  have lt : c.toNat < 122 := UInt8.lt_iff_toNat_lt.mp small
  rw [UInt8.toNat_add]
  have := Nat.mod_eq_of_lt (show c.toNat + 128 < 256 by omega)
  exact ⟨by omega, by change (c.toNat + 128) % 256 < 250; omega⟩

/-- The code of a release is the code of no press. -/
theorem release_ne {c d : UInt8} (small : c < 0x7A) (low : d < 0x7A) : c + 0x80 ≠ d := by
  have lt : c.toNat < 122 := UInt8.lt_iff_toNat_lt.mp small
  have lt' : d.toNat < 122 := UInt8.lt_iff_toNat_lt.mp low
  intro same
  have := congrArg UInt8.toNat same
  rw [UInt8.toNat_add] at this
  change (c.toNat + 128) % 256 = d.toNat at this
  omega

theorem press_ne {c d : UInt8} (small : c < 0x7A) (high : ¬ d < 0x7A) : c ≠ d := by
  rintro rfl
  exact high small

theorem release_eq {c d : UInt8} : c + 0x80 = d + 0x80 ↔ c = d := by
  constructor
  · intro same
    have := congrArg (· + 0x80) same
    simpa [UInt8.add_assoc] using this
  · rintro rfl
    rfl

theorem saved_struck (slot : Slot k) (plain : c ≠ 255) :
    ∃ k', saveChar c k = .ok k' ∧ Struck k k' := by
  unfold saveChar SIZE
  rw [slot.1, if_pos (by omega), if_pos rfl]
  exact ⟨_, rfl, ⟨rfl, slot.2⟩, rfl, rfl, rfl, [c], rfl, by simpa using plain.symm⟩

theorem looked_struck {table : List Char} (slot : Slot k) (inside : c.toNat < 250)
    (endless : ∀ d ∈ table, d.toUInt8 ≠ 255) :
    ∃ k', (do let c ← key table c; if c ≠ 0 then saveChar c k else pure k) = .ok k' ∧
      Struck k k' := by
  have plain : (table[c.toNat]?.getD '\x00').toUInt8 ≠ 255 := by
    cases entry : table[c.toNat]? with
    | none => decide
    | some d => exact endless d (List.mem_of_getElem? entry)
  rw [key, if_pos inside]
  simp only [pure_ok, ok_bind]
  split
  · exact saved_struck slot plain
  · exact ⟨k, rfl, slot, rfl, rfl, rfl, [], by simp, by simp⟩

/-- A code that is no modifier. -/
theorem lookup_struck (endless : Endless layout) (slot : Slot k) (inside : c.toNat < 250) :
    ∃ k', (if k.flag = 0 then do
        let c ← key layout.kbd_sh c
        if c ≠ 0 then saveChar c k else pure k
      else do
        let c ← key layout.kbd c
        if c ≠ 0 then saveChar c k else pure k) = .ok k' ∧ Struck k k' := by
  split
  · exact looked_struck slot inside fun d hd => endless d (List.mem_append_right _ hd)
  · exact looked_struck slot inside fun d hd => endless d (List.mem_append_left _ hd)

/-- The call that finds Alt and F1 both down. -/
def Both (k : Driver) (c : UInt8) : Prop :=
  c = alt ∧ k.flagChangeF1 = 0 ∨ c = f1 ∧ k.flagChangeAlt = 0

/-- What a press or a repeat does. -/
structure Pressed (k : Driver) (c : UInt8) (k' : Driver) : Prop where
  slot : Slot k'
  flag : k'.flag = if c = leftShift ∨ c = rightShift then 0
    else if c = capsLock then ~~~(k.flag ||| 0xFE) else k.flag
  both : Both k c → k'.flagChangeAlt = 1 ∧ k'.flagChangeF1 = 1
  single : ¬ Both k c → (k'.flagChangeAlt = if c = alt then 0 else k.flagChangeAlt) ∧
    (k'.flagChangeF1 = if c = f1 then 0 else k.flagChangeF1)
  saved : ∃ saved, k'.saved = k.saved ++ saved ∧ (255 ∈ saved → Both k c)

/-- What a release does. -/
structure Released (k : Driver) (c : UInt8) (k' : Driver) : Prop where
  slot : Slot k'
  flag : k'.flag = if c = leftShift ∨ c = rightShift then 1 else k.flag
  altFlag : k'.flagChangeAlt = if c = alt then 1 else k.flagChangeAlt
  f1Flag : k'.flagChangeF1 = if c = f1 then 1 else k.flagChangeF1
  saved : ∃ saved, k'.saved = k.saved ++ saved ∧ 255 ∉ saved

/-- The driver behind the first test, its flags already set. -/
theorem settle_ok (endless : Endless layout) (slot : Slot k) (inside : c.toNat < 250)
    (press : c ≠ 0xB8 ∧ c ≠ 0xBB) :
    ∃ k', (if k.flagChangeAlt = 0 ∧ k.flagChangeF1 = 0 then
        saveChar 255 { k with flagChangeAlt := 1, flagChangeF1 := 1 }
      else if c = 0xB8 then pure { k with flagChangeAlt := 1 }
      else if c = 0xBB then pure { k with flagChangeF1 := 1 }
      else if k.flag = 0 then do
        let c ← key layout.kbd_sh c
        if c ≠ 0 then saveChar c k else pure k
      else do
        let c ← key layout.kbd c
        if c ≠ 0 then saveChar c k else pure k) = .ok k' ∧
      Slot k' ∧ k'.flag = k.flag ∧
      (k.flagChangeAlt = 0 ∧ k.flagChangeF1 = 0 → k'.flagChangeAlt = 1 ∧ k'.flagChangeF1 = 1) ∧
      (¬ (k.flagChangeAlt = 0 ∧ k.flagChangeF1 = 0) →
        k'.flagChangeAlt = k.flagChangeAlt ∧ k'.flagChangeF1 = k.flagChangeF1) ∧
      ∃ saved, k'.saved = k.saved ++ saved ∧
        (255 ∈ saved → k.flagChangeAlt = 0 ∧ k.flagChangeF1 = 0) := by
  by_cases both : k.flagChangeAlt = 0 ∧ k.flagChangeF1 = 0
  · rw [if_pos both]
    unfold saveChar SIZE
    rw [if_pos (show k.last < 1 by rw [slot.1]; decide)]
    refine ⟨_, rfl, ⟨?_, slot.2⟩, rfl, fun _ => ⟨rfl, rfl⟩, fun single => absurd both single,
      [255], rfl, fun _ => both⟩
    simp [slot.1]
  · rw [if_neg both, if_neg press.1, if_neg press.2]
    obtain ⟨k', done, struck⟩ := lookup_struck endless slot inside
    obtain ⟨saved, rest, plain⟩ := struck.saved
    exact ⟨k', done, struck.slot, struck.flag, fun h => absurd h both,
      fun _ => ⟨struck.altFlag, struck.f1Flag⟩, saved, rest, fun end_ => absurd end_ plain⟩

theorem press_ok (endless : Endless layout) (slot : Slot k) (small : c < 0x7A)
    (rested : ¬ (k.flagChangeAlt = 0 ∧ k.flagChangeF1 = 0)) :
    ∃ k', testKeyboardInterrupt layout c k = .ok k' ∧ Pressed k c k' := by
  have inside := (small_lt small).1
  have high : ¬ ((0xAA : UInt8) < 0x7A) ∧ ¬ ((0xB6 : UInt8) < 0x7A) ∧ ¬ ((0xB8 : UInt8) < 0x7A) ∧
      ¬ ((0xBB : UInt8) < 0x7A) := by decide
  have ne := And.intro (press_ne small high.1) (press_ne small high.2.1)
  have ne' := And.intro (press_ne small high.2.2.1) (press_ne small high.2.2.2)
  unfold testKeyboardInterrupt
  by_cases shift : c = 0x2A ∨ c = 0x36
  · rw [if_pos shift]
    have other : c ≠ alt ∧ c ≠ f1 := by
      rcases shift with rfl | rfl <;> decide
    refine ⟨_, rfl, slot, (if_pos shift).symm, fun both => ?_, fun _ => ?_, [], by simp, by simp⟩
    · exact absurd both (by simp [Both, other])
    · rw [if_neg other.1, if_neg other.2]
      exact ⟨rfl, rfl⟩
  · rw [if_neg shift, if_neg (by simp [ne])]
    by_cases caps : c = 0x3A
    · subst caps
      obtain ⟨k', done, slot', flag, -, single, saved⟩ :=
        settle_ok (k := { k with flag := ~~~(k.flag ||| 0xFE) }) endless slot inside ne'
      refine ⟨k', done, slot', flag, fun both => ?_, fun _ => single rested, saved.imp fun s h =>
        ⟨h.1, fun end_ => absurd (h.2 end_) rested⟩⟩
      exact absurd both (by simp [Both, alt, f1])
    rw [if_neg caps]
    by_cases isAlt : c = 0x38
    · subst isAlt
      obtain ⟨k', done, slot', flag, both, single, saved⟩ :=
        settle_ok (k := { k with flagChangeAlt := 0 }) endless slot inside ne'
      have iff : Both k 0x38 ↔ k.flagChangeF1 = 0 := by simp [Both, alt, f1]
      refine ⟨k', done, slot', flag, fun h => both ⟨rfl, iff.mp h⟩,
        fun h => single fun zero => h (iff.mpr zero.2), saved.imp fun s h =>
        ⟨h.1, fun end_ => iff.mpr (h.2 end_).2⟩⟩
    rw [if_neg isAlt]
    by_cases isF1 : c = 0x3B
    · subst isF1
      obtain ⟨k', done, slot', flag, both, single, saved⟩ :=
        settle_ok (k := { k with flagChangeF1 := 0 }) endless slot inside ne'
      have iff : Both k 0x3B ↔ k.flagChangeAlt = 0 := by simp [Both, alt, f1]
      refine ⟨k', done, slot', flag, fun h => both ⟨iff.mp h, rfl⟩,
        fun h => single fun zero => h (iff.mpr zero.1), saved.imp fun s h =>
        ⟨h.1, fun end_ => iff.mpr (h.2 end_).1⟩⟩
    rw [if_neg isF1]
    obtain ⟨k', done, slot', flag, -, single, saved⟩ := settle_ok endless slot inside ne'
    have other : ¬ Both k c := by simp [Both, alt, f1, isAlt, isF1]
    refine ⟨k', done, slot', ?_, fun both => absurd both other, fun _ => ?_, saved.imp fun s h =>
      ⟨h.1, fun end_ => absurd (h.2 end_) rested⟩⟩
    · exact flag.trans ((if_neg shift).trans (if_neg caps)).symm
    · exact ⟨(single rested).1.trans (if_neg isAlt).symm,
        (single rested).2.trans (if_neg isF1).symm⟩

theorem release_ok (endless : Endless layout) (slot : Slot k) (small : c < 0x7A)
    (rested : ¬ (k.flagChangeAlt = 0 ∧ k.flagChangeF1 = 0)) :
    ∃ k', testKeyboardInterrupt layout (c + 0x80) k = .ok k' ∧ Released k c k' := by
  have inside := (small_lt small).2
  have shift : ¬ (c + 0x80 = 0x2A ∨ c + 0x80 = 0x36) := by
    rintro (same | same)
    · exact release_ne small (by decide) same
    · exact release_ne small (by decide) same
  have code : ∀ d : UInt8, c + 0x80 = d + 0x80 ↔ c = d := fun d => release_eq
  have isShift : (c + 0x80 = 0xAA ∨ c + 0x80 = 0xB6) ↔ c = leftShift ∨ c = rightShift :=
    or_congr (code 0x2A) (code 0x36)
  unfold testKeyboardInterrupt
  rw [if_neg shift]
  by_cases up : c = leftShift ∨ c = rightShift
  · rw [if_pos (isShift.mpr up)]
    have other : c ≠ alt ∧ c ≠ f1 := by
      rcases up with rfl | rfl <;> decide
    exact ⟨_, rfl, slot, (if_pos up).symm, (if_neg other.1).symm, (if_neg other.2).symm,
      [], by simp, by simp⟩
  rw [if_neg fun h => up (isShift.mp h), if_neg (release_ne small (by decide)),
    if_neg (release_ne small (by decide)), if_neg (release_ne small (by decide)), if_neg rested]
  by_cases isAlt : c = alt
  · subst isAlt
    exact ⟨_, rfl, slot, rfl, rfl, rfl, [], by simp, by simp⟩
  have notAlt : c + 0x80 ≠ 0xB8 := fun h => isAlt ((code 0x38).mp h)
  rw [if_neg notAlt]
  by_cases isF1 : c = f1
  · subst isF1
    exact ⟨_, rfl, slot, rfl, rfl, rfl, [], by simp, by simp⟩
  have notF1 : c + 0x80 ≠ 0xBB := fun h => isF1 ((code 0x3B).mp h)
  rw [if_neg notF1]
  obtain ⟨k', done, struck⟩ := lookup_struck endless slot inside
  refine ⟨k', done, struck.slot, ?_, ?_, ?_, struck.saved⟩
  · rw [if_neg up, struck.flag]
  · rw [if_neg isAlt, struck.altFlag]
  · rw [if_neg isF1, struck.f1Flag]

/-- The flags after a press or a repeat, with the keys `held` and the key `c` the latest. -/
theorem Pressed.linked {held : List UInt8} {caps : Nat} (linked : Linked ks k)
    (pressed : Pressed k c k') (down : c ∈ held) (sub : ∀ d ∈ ks.held, d ∈ held) :
    Linked ⟨held, some c, caps⟩ k' := by
  refine ⟨pressed.slot, ?_, fun d h => ?_, fun zero => ?_, fun zero => ?_, fun zero => ?_⟩
  · rw [pressed.flag]
    rcases linked.flag with flag | flag <;> rw [flag] <;> split <;> try split
    all_goals decide
  · obtain rfl := Option.some.inj h
    exact down
  · by_cases both : Both k c
    · rw [(pressed.both both).1] at zero
      exact absurd zero (by decide)
    · rw [(pressed.single both).1] at zero
      by_cases isAlt : c = alt
      · have other : c ≠ f1 := by rw [isAlt]; decide
        exact ⟨isAlt ▸ down, fun h => other (Option.some.inj h)⟩
      · rw [if_neg isAlt] at zero
        refine ⟨sub _ (linked.altHeld zero).1, fun h => both (.inr ⟨Option.some.inj h, zero⟩)⟩
  · by_cases both : Both k c
    · rw [(pressed.both both).2] at zero
      exact absurd zero (by decide)
    · rw [(pressed.single both).2] at zero
      by_cases isF1 : c = f1
      · have other : c ≠ alt := by rw [isF1]; decide
        exact ⟨isF1 ▸ down, fun h => other (Option.some.inj h)⟩
      · rw [if_neg isF1] at zero
        refine ⟨sub _ (linked.f1Held zero).1, fun h => both (.inl ⟨Option.some.inj h, zero⟩)⟩
  · by_cases both : Both k c
    · rw [(pressed.both both).1] at zero
      exact absurd zero.1 (by decide)
    · rw [(pressed.single both).1, (pressed.single both).2] at zero
      by_cases isAlt : c = alt
      · have other : c ≠ f1 := by rw [isAlt]; decide
        rw [if_neg other] at zero
        exact both (.inl ⟨isAlt, zero.2⟩)
      · rw [if_neg isAlt] at zero
        by_cases isF1 : c = f1
        · exact both (.inr ⟨isF1, zero.1⟩)
        · rw [if_neg isF1] at zero
          exact linked.rested zero

theorem Released.linked (linked : Linked ks k) (released : Released k c k') :
    Linked { ks with
      held := ks.held.filter (· ≠ c)
      latest := if ks.latest = some c then none else ks.latest } k' := by
  have stays : ∀ d ∈ ks.held, d ≠ c → d ∈ ks.held.filter (· ≠ c) := fun d hd ne =>
    List.mem_filter.mpr ⟨hd, by simpa using ne⟩
  have latest : ∀ d, (if ks.latest = some c then none else ks.latest) = some d →
      ks.latest = some d ∧ d ≠ c := by
    intro d h
    split at h
    · cases h
    · rename_i other
      exact ⟨h, by rintro rfl; exact other h⟩
  refine ⟨released.slot, ?_, fun d h => ?_, fun zero => ?_, fun zero => ?_, fun zero => ?_⟩
  · rw [released.flag]
    split
    · exact .inr rfl
    · exact linked.flag
  · exact stays d (linked.latest d (latest d h).1) (latest d h).2
  · rw [released.altFlag] at zero
    split at zero
    · exact absurd zero (by decide)
    · rename_i other
      exact ⟨stays _ (linked.altHeld zero).1 (Ne.symm other),
        fun h => (linked.altHeld zero).2 (latest _ h).1⟩
  · rw [released.f1Flag] at zero
    split at zero
    · exact absurd zero (by decide)
    · rename_i other
      exact ⟨stays _ (linked.f1Held zero).1 (Ne.symm other),
        fun h => (linked.f1Held zero).2 (latest _ h).1⟩
  · rw [released.altFlag, released.f1Flag] at zero
    split at zero
    · exact absurd zero.1 (by decide)
    · split at zero
      · exact absurd zero.2 (by decide)
      · exact linked.rested zero

/-- Caps lock turns the flag around. -/
theorem toggled (flag : k.flag = 0 ∨ k.flag = 1) : ~~~(k.flag ||| 0xFE) = 0 ↔ ¬ k.flag = 0 := by
  rcases flag with flag | flag <;> rw [flag] <;> decide

theorem selects_press (linked : Linked ks k) (pressed : Pressed k e.key k')
    (act : e.act = .press) (selects : Selects ks k) :
    Selects (ks.next e) k' ↔ Plain ks e := by
  have flag : k.flag = 0 ↔ (ks.shifts ↔ ¬ ks.capsOn) := selects
  have held : (ks.next e).shifts ↔ (e.key = leftShift ∨ e.key = rightShift) ∨ ks.shifts := by
    simp only [Keys.next, act, Keys.shifts, List.mem_cons]
    grind
  have plain : Plain ks e ↔ (e.key = leftShift ∨ e.key = rightShift → ¬ ks.capsOn) := by
    simp only [Plain, act]
  rw [Selects, held, plain, pressed.flag]
  by_cases shift : e.key = leftShift ∨ e.key = rightShift
  · have caps : (ks.next e).capsOn ↔ ks.capsOn := by
      have other : e.key ≠ capsLock := by
        rcases shift with h | h <;> rw [h] <;> decide
      simp [Keys.next, act, Keys.capsOn, other]
    simp [shift, caps]
  · rw [if_neg shift]
    by_cases isCaps : e.key = capsLock
    · have caps : (ks.next e).capsOn ↔ ¬ ks.capsOn := by
        simp only [Keys.next, act, Keys.capsOn, isCaps, if_true]
        omega
      rw [if_pos isCaps, toggled linked.flag, flag, caps]
      grind
    · have caps : (ks.next e).capsOn ↔ ks.capsOn := by
        simp [Keys.next, act, Keys.capsOn, isCaps]
      rw [if_neg isCaps, flag, caps]
      grind

theorem selects_again (linked : Linked ks k) (pressed : Pressed k e.key k')
    (act : e.act = .again) (down : e.key ∈ ks.held) (selects : Selects ks k) :
    Selects (ks.next e) k' ↔ Plain ks e := by
  have flag : k.flag = 0 ↔ (ks.shifts ↔ ¬ ks.capsOn) := selects
  have next : ks.next e = ks := by simp only [Keys.next, act]
  have plain : Plain ks e ↔ (e.key = leftShift ∨ e.key = rightShift → ¬ ks.capsOn) ∧
      e.key ≠ capsLock := by
    simp only [Plain, act]
  rw [next, plain, Selects, pressed.flag]
  by_cases shift : e.key = leftShift ∨ e.key = rightShift
  · have held : ks.shifts := by
      rcases shift with h | h
      · exact .inl (h ▸ down)
      · exact .inr (h ▸ down)
    have other : e.key ≠ capsLock := by
      rcases shift with h | h <;> rw [h] <;> decide
    simp [shift, held, other]
  · rw [if_neg shift]
    by_cases isCaps : e.key = capsLock
    · rw [if_pos isCaps, toggled linked.flag, flag]
      grind
    · rw [if_neg isCaps, flag]
      grind

theorem selects_release (released : Released k e.key k') (act : e.act = .release)
    (selects : Selects ks k) : Selects (ks.next e) k' ↔ Plain ks e := by
  have flag : k.flag = 0 ↔ (ks.shifts ↔ ¬ ks.capsOn) := selects
  have caps : (ks.next e).capsOn ↔ ks.capsOn := by simp only [Keys.next, act, Keys.capsOn]
  have held : (ks.next e).shifts ↔
      leftShift ∈ ks.held ∧ e.key ≠ leftShift ∨ rightShift ∈ ks.held ∧ e.key ≠ rightShift := by
    simp only [Keys.next, act, Keys.shifts, List.mem_filter, decide_eq_true_eq, ne_comm]
  have plain : Plain ks e ↔ (e.key = leftShift → (rightShift ∈ ks.held ↔ ks.capsOn)) ∧
      (e.key = rightShift → (leftShift ∈ ks.held ↔ ks.capsOn)) := by
    simp only [Plain, act]
  have apart : leftShift ≠ rightShift := by decide
  rw [Selects, held, caps, plain, released.flag]
  by_cases shift : e.key = leftShift ∨ e.key = rightShift
  · rw [if_pos shift]
    rcases shift with h | h <;> simp [h, apart, apart.symm]
    all_goals grind
  · rw [if_neg shift, flag, Keys.shifts]
    grind

/-- One scancode: what was right stays right exactly at a plain event. -/
theorem turn_ok (endless : Endless layout) (linked : Linked ks k) (possible : Possible ks e) :
    ∃ k', testKeyboardInterrupt layout e.scancode k = .ok k' ∧ Linked (ks.next e) k' ∧
      EndsInput ks k e k' ∧ (Selects ks k → (Selects (ks.next e) k' ↔ Plain ks e)) := by
  cases act : e.act with
  | press =>
    obtain ⟨k', done, pressed⟩ := press_ok endless linked.slot e.small linked.rested
    have code : e.scancode = e.key := by simp only [Event.scancode, act]
    have next : ks.next e = ⟨e.key :: ks.held, some e.key,
        if e.key = capsLock then ks.caps + 1 else ks.caps⟩ := by
      simp only [Keys.next, act]
    refine ⟨k', code ▸ done, ?_, ?_, selects_press linked pressed act⟩
    · rw [next]
      exact pressed.linked linked List.mem_cons_self fun d hd => List.mem_cons_of_mem _ hd
    · obtain ⟨saved, rest, ends⟩ := pressed.saved
      refine ⟨saved, rest, fun h => ⟨act, ?_⟩⟩
      rw [next]
      rcases ends h with ⟨isAlt, zero⟩ | ⟨isF1, zero⟩
      · exact ⟨.inl isAlt, isAlt ▸ List.mem_cons_self,
          List.mem_cons_of_mem _ (linked.f1Held zero).1⟩
      · exact ⟨.inr isF1, List.mem_cons_of_mem _ (linked.altHeld zero).1,
          isF1 ▸ List.mem_cons_self⟩
  | again =>
    obtain ⟨k', done, pressed⟩ := press_ok endless linked.slot e.small linked.rested
    have code : e.scancode = e.key := by simp only [Event.scancode, act]
    have latest : ks.latest = some e.key := by simpa only [Possible, act] using possible
    have down := linked.latest _ latest
    have next : ks.next e = ⟨ks.held, some e.key, ks.caps⟩ := by
      simp only [Keys.next, act, ← latest]
    have single : ¬ Both k e.key := by
      rintro (⟨isAlt, zero⟩ | ⟨isF1, zero⟩)
      · exact (linked.f1Held zero).2 (isAlt ▸ latest)
      · exact (linked.altHeld zero).2 (isF1 ▸ latest)
    refine ⟨k', code ▸ done, ?_, ?_, selects_again linked pressed act down⟩
    · rw [next]
      exact pressed.linked linked down fun d hd => hd
    · obtain ⟨saved, rest, ends⟩ := pressed.saved
      exact ⟨saved, rest, fun h => absurd (ends h) single⟩
  | release =>
    obtain ⟨k', done, released⟩ := release_ok endless linked.slot e.small linked.rested
    have code : e.scancode = e.key + 0x80 := by simp only [Event.scancode, act]
    refine ⟨k', code ▸ done, ?_, ?_, selects_release released act⟩
    · have := released.linked linked
      simpa only [Keys.next, act] using this
    · obtain ⟨saved, rest, plain⟩ := released.saved
      exact ⟨saved, rest, fun h => absurd h plain⟩

theorem run_goes (endless : Endless layout) (events : List Event) (linked : Linked ks k)
    (series : Series ks events) : ∃ turns, run layout events ks k = .ok turns := by
  induction events generalizing ks k with
  | nil => exact ⟨[], rfl⟩
  | cons e events ih =>
    obtain ⟨k', done, linked', -⟩ := turn_ok endless linked series.1
    obtain ⟨turns, rest⟩ := ih linked' series.2
    exact ⟨_, bind_ok.mpr ⟨k', done, bind_ok.mpr ⟨turns, rest, rfl⟩⟩⟩

end

end BottlerOS.KeyModifiers
