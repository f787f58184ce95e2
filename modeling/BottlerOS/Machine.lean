import Mathlib.Logic.Function.Basic

/-! The part of the C machine the kernel code rests on. Integers are `Int` and
wrap in two's complement where the code converts or counts; a pointer is an
address, NULL is `none`. What C leaves undefined on memory (following NULL,
touching a freed record, leaving an array) and a loop that never ends are
faults: the code does not come back from them. -/

namespace BottlerOS.Machine

abbrev Ptr := Nat

/-- The end of the heap: `initMemoryManager(0x600000)` with `configTOTAL_HEAP_SIZE` bytes. -/
def heapEnd : Nat := 0x600000 + 1024 * 1024 * 512

inductive Fault where
  | nullDeref
  | badPtr
  | outOfBounds
  | hang
  deriving DecidableEq, Repr

abbrev C (α : Type) := Except Fault α

def EXIT_SUCCESS : Int := 0
def EXIT_FAILURE : Int := 1

/-- Conversion to the signed 8-bit `char`. -/
def char (x : Int) : Int := (x + 128) % 256 - 128

/-- Conversion to the signed 32-bit `int`. -/
def int32 (x : Int) : Int := (x + 2147483648) % 4294967296 - 2147483648

def INT_MAX : Int := 2147483647

/-- Conversion to the unsigned 32-bit `unsigned int`. -/
def uint32 (x : Int) : Int := x % 4294967296

theorem char_of_range {x : Int} (lo : -128 ≤ x) (hi : x ≤ 127) : char x = x := by
  unfold char
  omega

theorem int32_of_range {x : Int} (lo : -2147483648 ≤ x) (hi : x ≤ INT_MAX) : int32 x = x := by
  unfold int32 INT_MAX at *
  omega

theorem uint32_of_range {x : Int} (lo : 0 ≤ x) (hi : x < 4294967296) : uint32 x = x := by
  unfold uint32
  omega

theorem uint32_lt (x : Int) : uint32 x < 4294967296 := by
  unfold uint32
  omega

theorem uint32_nonneg (x : Int) : 0 ≤ uint32 x := by
  unfold uint32
  omega

/-- `*p` for a pointer that may be NULL. -/
def deref {α : Type} : Option α → C α
  | none => .error .nullDeref
  | some p => .ok p

/-- The record at an address, if the block there is live. -/
def load {α : Type} (mem : Ptr → Option α) (p : Ptr) : C α :=
  match mem p with
  | none => .error .badPtr
  | some r => .ok r

/-- A block from `pvPortMalloc` for one more record: NULL is written through by
every caller below, and a block it returns lies in the heap and is not live. -/
def malloc {α : Type} (mem : Ptr → Option α) : Option Ptr → C Ptr
  | none => .error .nullDeref
  | some p => if mem p = none ∧ p < heapEnd then .ok p else .error .badPtr

section
variable {α β : Type} {x : C α} {f : α → C β} {b : β}

@[simp] theorem ok_bind (a : α) : (Except.ok a >>= f : C β) = f a := rfl

@[simp] theorem error_bind (e : Fault) : (Except.error e >>= f : C β) = .error e := rfl

@[simp] theorem pure_ok (a : α) : (pure a : C α) = .ok a := rfl

theorem bind_ok : (x >>= f) = .ok b ↔ ∃ a, x = .ok a ∧ f a = .ok b := by
  cases x <;> simp

theorem ok_of_toOption {a : α} (h : x.toOption = some a) : x = .ok a := by
  cases x with
  | error e => cases h
  | ok a' => exact congrArg Except.ok (Option.some.inj h)

end

@[simp] theorem deref_ok {α : Type} {p : Option α} {a : α} : deref p = .ok a ↔ p = some a := by
  cases p <;> simp [deref]

@[simp] theorem deref_some {α : Type} (a : α) : deref (some a) = .ok a := rfl

@[simp] theorem load_ok {α : Type} {mem : Ptr → Option α} {p : Ptr} {r : α} :
    load mem p = .ok r ↔ mem p = some r := by
  unfold load
  cases mem p <;> simp

theorem load_of {α : Type} {mem : Ptr → Option α} {p : Ptr} {r : α} (h : mem p = some r) :
    load mem p = .ok r := load_ok.mpr h

theorem malloc_ok {α : Type} {mem : Ptr → Option α} {m : Option Ptr} {p : Ptr} :
    malloc mem m = .ok p ↔ m = some p ∧ mem p = none ∧ p < heapEnd := by
  cases m with
  | none => simp [malloc]
  | some q =>
    simp only [malloc, Option.some.injEq]
    split <;> rename_i h
    · constructor
      · intro e
        obtain rfl := Except.ok.inj e
        exact ⟨rfl, h⟩
      · rintro ⟨rfl, -⟩
        rfl
    · constructor
      · simp
      · rintro ⟨rfl, hp⟩
        exact absurd hp h

section
variable {σ : Type} {body : Int → σ → C σ}

/-- `n` turns of a loop that counts up from `i`. -/
def forUp (body : Int → σ → C σ) : Nat → Int → σ → C σ
  | 0, _, s => pure s
  | n + 1, i, s => do
      let s ← body i s
      forUp body n (i + 1) s

/-- `for (int i = lo; i < hi; i++)`. -/
def forLoop (lo hi : Int) (body : Int → σ → C σ) (s : σ) : C σ :=
  forUp body (hi - lo).toNat lo s

theorem forUp_ok {Inv : σ → Prop} {n : Nat} {i : Int} {s : σ}
    (one : ∀ j s, i ≤ j → j < i + n → Inv s → ∃ t, body j s = .ok t ∧ Inv t) (h : Inv s) :
    ∃ t, forUp body n i s = .ok t ∧ Inv t := by
  induction n generalizing i s with
  | zero => exact ⟨s, rfl, h⟩
  | succ n ih =>
    obtain ⟨t, run, ht⟩ := one i s (by omega) (by omega) h
    obtain ⟨u, rest, hu⟩ := ih (i := i + 1) (fun j s lo hi => one j s (by omega) (by omega)) ht
    exact ⟨u, bind_ok.mpr ⟨t, run, rest⟩, hu⟩

/-- What every turn keeps, the loop keeps. -/
theorem forLoop_ok {Inv : σ → Prop} {lo hi : Int} {s : σ}
    (one : ∀ j s, lo ≤ j → j < hi → Inv s → ∃ t, body j s = .ok t ∧ Inv t) (h : Inv s) :
    ∃ t, forLoop lo hi body s = .ok t ∧ Inv t :=
  forUp_ok (fun j s low high => one j s low (by omega)) h

theorem forUp_ind {Inv : Int → σ → Prop} {n : Nat} {i : Int} {s : σ}
    (one : ∀ j s, i ≤ j → j < i + n → Inv j s → ∃ t, body j s = .ok t ∧ Inv (j + 1) t)
    (h : Inv i s) : ∃ t, forUp body n i s = .ok t ∧ Inv (i + n) t := by
  induction n generalizing i s with
  | zero => exact ⟨s, rfl, by simpa using h⟩
  | succ n ih =>
    obtain ⟨t, run, ht⟩ := one i s (by omega) (by omega) h
    obtain ⟨u, rest, hu⟩ := ih (i := i + 1) (fun j s lo hi => one j s (by omega) (by omega)) ht
    refine ⟨u, bind_ok.mpr ⟨t, run, rest⟩, ?_⟩
    rwa [show i + 1 + (n : Int) = i + (n + 1 : Nat) by omega] at hu

/-- An invariant of the index and the state. -/
theorem forLoop_ind (Inv : Int → σ → Prop) {lo hi : Int} {s : σ} (le : lo ≤ hi)
    (one : ∀ j s, lo ≤ j → j < hi → Inv j s → ∃ t, body j s = .ok t ∧ Inv (j + 1) t)
    (h : Inv lo s) : ∃ t, forLoop lo hi body s = .ok t ∧ Inv hi t := by
  obtain ⟨t, run, ht⟩ := forUp_ind (n := (hi - lo).toNat)
    (fun j s low high => one j s low (by omega)) h
  exact ⟨t, run, by rwa [show lo + ((hi - lo).toNat : Int) = hi by omega] at ht⟩

end

end BottlerOS.Machine
