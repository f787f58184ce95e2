import Mathlib.Algebra.Order.Ring.Nat
import Mathlib.Data.List.Basic

/-! A byte-addressed memory that remembers what has been read: lists of bytes that lie in it,
regions, and little-endian words of 32 bits. -/

namespace BottlerOS.ByteMemory

/-- The bytes, and the addresses read so far in order. -/
structure Memory where
  bytes : Nat → UInt8
  reads : List Nat

def Memory.load (a : Nat) (m : Memory) : UInt8 × Memory :=
  (m.bytes a, { m with reads := m.reads ++ [a] })

def Memory.store (a : Nat) (b : UInt8) (m : Memory) : Memory :=
  { m with bytes := fun x => if x = a then b else m.bytes x }

/-- The bytes lie at the address. -/
def Stored (f : Nat → UInt8) : Nat → List UInt8 → Prop
  | _, [] => True
  | a, b :: rest => f a = b ∧ Stored f (a + 1) rest

/-- The `n` bytes at `a` and the `k` bytes at `b` have none in common. -/
def Apart (a n b k : Nat) : Prop := ∀ x, a ≤ x → x < a + n → ¬ (b ≤ x ∧ x < b + k)

/-- `g` is `f` with the bytes written at `a`. -/
structure Overlaid (f g : Nat → UInt8) (a : Nat) (bs : List UInt8) : Prop where
  stored : Stored g a bs
  rest : ∀ x, ¬ (a ≤ x ∧ x < a + bs.length) → g x = f x

section
variable {f g h : Nat → UInt8} {a b n k : Nat} {xs ys : List UInt8}

theorem stored_append : Stored f a (xs ++ ys) ↔ Stored f a xs ∧ Stored f (a + xs.length) ys := by
  induction xs generalizing a with
  | nil => simp [Stored]
  | cons x xs ih =>
    have shift : a + (x :: xs).length = a + 1 + xs.length := by
      rw [List.length_cons]
      omega
    rw [List.cons_append, Stored, Stored, ih, shift, and_assoc]

theorem Stored.of_get (get : ∀ i (h : i < xs.length), f (a + i) = xs[i]) : Stored f a xs := by
  induction xs generalizing a with
  | nil => trivial
  | cons x xs ih =>
    refine ⟨get 0 (by simp), ih fun i h => ?_⟩
    rw [Nat.add_assoc, Nat.add_comm 1]
    exact get (i + 1) (by simpa using h)

theorem Stored.congr (stored : Stored f a xs)
    (same : ∀ x, a ≤ x → x < a + xs.length → g x = f x) : Stored g a xs := by
  induction xs generalizing a with
  | nil => trivial
  | cons x xs ih =>
    rw [List.length_cons] at same
    exact ⟨(same a (by omega) (by omega)).trans stored.1,
      ih stored.2 fun y lo hi => same y (by omega) (by omega)⟩

theorem Apart.symm (apart : Apart a n b k) : Apart b k a n :=
  fun x lo hi inside => apart x inside.1 inside.2 ⟨lo, hi⟩

theorem Apart.mono {a' n' b' k' : Nat} (apart : Apart a n b k) (lo : a ≤ a')
    (hi : a' + n' ≤ a + n) (lo' : b ≤ b') (hi' : b' + k' ≤ b + k) : Apart a' n' b' k' :=
  fun x low high inside =>
    apart x (by omega) (by omega) ⟨Nat.le_trans lo' inside.1, Nat.lt_of_lt_of_le inside.2 hi'⟩

theorem Overlaid.refl : Overlaid f f a [] := ⟨trivial, fun _ _ => rfl⟩

/-- Bytes outside the region written are as they were. -/
theorem Overlaid.keeps (written : Overlaid f g a xs) (apart : Apart b ys.length a xs.length)
    (stored : Stored f b ys) : Stored g b ys :=
  stored.congr fun x lo hi => written.rest x (apart x lo hi)

theorem Overlaid.append (first : Overlaid f g a xs) (second : Overlaid g h (a + xs.length) ys) :
    Overlaid f h a (xs ++ ys) := by
  refine ⟨stored_append.mpr ⟨second.keeps (fun x lo hi inside => ?_) first.stored, second.stored⟩,
    fun x out => ?_⟩
  · omega
  · rw [List.length_append] at out
    rw [second.rest x (by omega), first.rest x (by omega)]

theorem overlaid_store (m : Memory) (a : Nat) (x : UInt8) :
    Overlaid m.bytes (m.store a x).bytes a [x] := by
  refine ⟨⟨if_pos rfl, trivial⟩, fun y out => if_neg ?_⟩
  rw [List.length_singleton] at out
  omega

end

/-- The four bytes of a word, the lowest first. -/
def le32 (n : Nat) : List UInt8 :=
  [UInt8.ofNat n, UInt8.ofNat (n / 256), UInt8.ofNat (n / 65536), UInt8.ofNat (n / 16777216)]

def ofLe32 (b₀ b₁ b₂ b₃ : UInt8) : Nat :=
  b₀.toNat + b₁.toNat * 256 + b₂.toNat * 65536 + b₃.toNat * 16777216

theorem le32_length (n : Nat) : (le32 n).length = 4 := rfl

theorem ofLe32_le32 {n : Nat} (small : n < 2 ^ 32) :
    ofLe32 (UInt8.ofNat n) (UInt8.ofNat (n / 256)) (UInt8.ofNat (n / 65536))
      (UInt8.ofNat (n / 16777216)) = n := by
  simp only [ofLe32, UInt8.toNat_ofNat']
  omega

theorem le32_ofLe32 (b₀ b₁ b₂ b₃ : UInt8) : le32 (ofLe32 b₀ b₁ b₂ b₃) = [b₀, b₁, b₂, b₃] := by
  have h₀ := b₀.toNat_lt
  have h₁ := b₁.toNat_lt
  have h₂ := b₂.toNat_lt
  have h₃ := b₃.toNat_lt
  simp only [le32, List.cons.injEq, and_true]
  refine ⟨?_, ?_, ?_, ?_⟩ <;> apply UInt8.toNat_inj.mp <;> rw [UInt8.toNat_ofNat', ofLe32] <;> omega

/-- `*(uint32_t *) a`. -/
def Memory.load32 (a : Nat) (m : Memory) : Nat × Memory :=
  (ofLe32 (m.bytes a) (m.bytes (a + 1)) (m.bytes (a + 2)) (m.bytes (a + 3)),
    { m with reads := m.reads ++ List.range' a 4 })

/-- `*(uint32_t *) a = w`. -/
def Memory.store32 (a w : Nat) (m : Memory) : Memory :=
  { m with bytes := fun x => if a ≤ x then ((le32 w)[x - a]?).getD (m.bytes x) else m.bytes x }

theorem overlaid_store32 (m : Memory) (a w : Nat) :
    Overlaid m.bytes (m.store32 a w).bytes a (le32 w) := by
  constructor
  · simp [le32, Stored, Memory.store32, Nat.add_assoc]
  · intro x out
    rw [le32_length] at out
    unfold Memory.store32
    by_cases lo : a ≤ x
    · have short : (le32 w)[x - a]? = none := by
        rw [List.getElem?_eq_none_iff, le32_length]
        omega
      simp [lo, short]
    · exact if_neg lo

/-- A word that lies in memory is read. -/
theorem load32_stored {m : Memory} {a n : Nat} (small : n < 2 ^ 32)
    (stored : Stored m.bytes a (le32 n)) : (m.load32 a).1 = n := by
  obtain ⟨h₀, h₁, h₂, h₃, -⟩ := stored
  rw [Memory.load32, h₀, h₁, show a + 2 = a + 1 + 1 from rfl, h₂,
    show a + 3 = a + 1 + 1 + 1 from rfl, h₃]
  exact ofLe32_le32 small

/-- What is copied as a word is copied byte by byte. -/
theorem load32_bytes {m : Memory} {a : Nat} {b₀ b₁ b₂ b₃ : UInt8}
    (stored : Stored m.bytes a [b₀, b₁, b₂, b₃]) :
    le32 (m.load32 a).1 = [b₀, b₁, b₂, b₃] := by
  obtain ⟨rfl, rfl, rfl, rfl, -⟩ := stored
  exact le32_ofLe32 _ _ _ _

end BottlerOS.ByteMemory
