import Mathlib.Data.List.Forall2
import Mathlib.Data.Nat.Digits.Lemmas
import BottlerOS.Library.ByteBlock
import BottlerOS.Library.Decimal
import BottlerOS.Machine

/-! The texts of `Kernel/utils/sem.c` about its semaphores: `getSems` and `getEntering`. A store
outside the block or the local buffer is a fault. -/

namespace BottlerOS.SemReport
open Machine ByteBlock Decimal

def SEM_DATA_MAX_SIZE : Int := 100
def MIN_SIZE : Int := 32
def MAX_NAME_SIZE : Nat := 10
def MAX_ATTR_SIZE : Int := 6
def MAX_PID : Nat := 4

/-- A registered semaphore: its name, `value` and the pids of its queue. -/
structure Sem where
  name : List UInt8
  value : Int
  pids : List Int
  plain : 0 ∉ name

/-- The list at `firstSem`. `counter` is a `char`. -/
structure Registry where
  sems : List Sem
  counter : Int
  counted : counter = char sems.length

/-- `*(ans + p) = b` -/
def store (p : Int) (b : UInt8) (m : Block) : C Block :=
  if 0 ≤ p ∧ p < m.size then pure (m.write p.toNat [b]) else .error .outOfBounds

/-- `strcpy`, which returns the length. -/
def strcpy (out : Int) : List UInt8 → Block → C Block
  | [], m => store out 0 m
  | c :: text, m => do
      let m ← store out c m
      strcpy (out + 1) text m

/-- `addSpaces`, which returns `qty`. -/
def addSpaces (out : Int) : (qty : Nat) → Block → C Block
  | 0, m => pure m
  | qty + 1, m => do
      let m ← store out 32 m
      addSpaces (out + 1) qty m

/-- `itoa` to the base 10, into a buffer of `cap` bytes. -/
def itoa (value : Int) (length cap : Nat) : C (List UInt8) :=
  let n := if value < 0 then int32 (-value) else value
  let buffer := lowDigits length n
  let buffer := if buffer = [] then [48] else buffer
  let buffer := if value < 0 then buffer ++ [45] else buffer
  if buffer.length < cap then pure buffer.reverse else .error .outOfBounds

/-- `n` turns of the loop over the name, from its index `j` on. -/
def nameFrom (name : List UInt8) :
    (n j : Nat) → (flag : Bool) → (out : Int) → Block → C (Int × Block)
  | 0, _, _, out, m => pure (out, m)
  | n + 1, j, flag, out, m =>
      if flag = false ∧ name[j]?.getD 0 = 0 then nameFrom name n (j + 1) true out m
      else do
        let m ← store out (if flag then 32 else name[j]?.getD 0) m
        nameFrom name n (j + 1) flag (out + 1) m

/-- The loop over the queue. -/
def pidsFrom : List Int → (out written : Int) → Block → C (Int × Block)
  | [], _, written, m => pure (written, m)
  | pid :: pids, out, written, m => do
      let text ← itoa pid 10 10
      let m ← strcpy out text m
      let copied := char text.length
      let m ← addSpaces out 1 m
      let copied := char (copied + 1)
      pidsFrom pids (out + copied) (char (written + copied)) m

def getSemaphoresData (out : Int) (sem : Sem) (m : Block) : C (Int × Block) := do
  let (out, m) ← nameFrom sem.name MAX_NAME_SIZE 0 false out m
  let written := char MAX_NAME_SIZE
  let m ← addSpaces out 2 m
  let out := out + 2
  let written := char (written + 2)
  let text ← itoa (int32 sem.value) 2 10
  let m ← strcpy out text m
  let copied := char text.length
  let out := out + copied
  let m ← addSpaces out (MAX_ATTR_SIZE - copied).toNat m
  let out := out + (MAX_ATTR_SIZE - copied)
  let written := char (written + MAX_ATTR_SIZE)
  let m ← addSpaces out 2 m
  let out := out + 2
  let written := char (written + 2)
  pidsFrom sem.pids out written m

/-- The loop of `getSems`, which only passes nodes of the list; `none` where it returns NULL. -/
def rowsFrom : List Sem → (ans : Int) → Block → C (Option (Int × Block))
  | [], ans, m => pure (some (ans, m))
  | sem :: sems, ans, m => do
      let (written, m) ← getSemaphoresData ans sem m
      if written = EXIT_FAILURE then pure none
      else do
        let ans := ans + (written - 1)
        let m ← store ans 10 m
        rowsFrom sems (ans + 1) m

/-- The bytes of a string literal. -/
def bytes (s : String) : List UInt8 := s.toList.map Char.toUInt8

def info : List UInt8 := bytes "name       value   pidsWaiting\n"

/-- The block that `getSems` returns. `alloc` is `pvPortMalloc`: the bytes of a new block of that
many bytes. -/
def getSems (alloc : Nat → Option (Nat → UInt8)) (r : Registry) : C (Option Block) := do
  let size := ((MIN_SIZE + r.counter * SEM_DATA_MAX_SIZE) % 2 ^ 64).toNat
  let bytes ← deref (alloc size)
  let m ← strcpy 0 info { size := size, bytes := bytes }
  match ← rowsFrom r.sems info.length m with
  | none => pure none
  | some (ans, m) => do
      let m ← store (ans - 1) 0 m
      pure (some m)

/-- The loop of `getEntering`. -/
def enteringFrom : List Int → Block → C Block
  | [], m => pure m
  | pid :: pids, m => do
      let text ← itoa pid 3 MAX_PID
      let m ← strcpy 0 text m
      let m ← if pids ≠ [] then strcpy 0 (bytes " ") m else pure m
      enteringFrom pids m

/-- `sizeof(pid_t *)` bytes. -/
def getEntering (alloc : Nat → Option (Nat → UInt8)) (sem : Sem) : C Block := do
  let bytes ← deref (alloc 8)
  enteringFrom sem.pids { size := 8, bytes := bytes }

/-! What the texts are for. -/

/-- A name that fills the column is cut; behind another the column is one shorter. -/
def column (n : Nat) (name : List UInt8) : List UInt8 :=
  if name.length < n then name ++ List.replicate (n - 1 - name.length) 32 else name.take n

/-- The text that `itoa` leaves. -/
def itoaText (value : Int) (length : Nat) : List UInt8 :=
  let n := if value < 0 then int32 (-value) else value
  let buffer := lowDigits length n
  let buffer := if buffer = [] then [48] else buffer
  (if value < 0 then buffer ++ [45] else buffer).reverse

/-- The row up to the queue. -/
def heading (sem : Sem) : List UInt8 :=
  column MAX_NAME_SIZE sem.name ++ [32, 32] ++ itoaText (int32 sem.value) 2 ++
    List.replicate (8 - (itoaText (int32 sem.value) 2).length) 32

/-- The columns of a row in front of the queue. -/
def columns (sem : Sem) : List UInt8 := (heading sem).take 19

/-- The row length, without a bound. -/
def rowLength (sem : Sem) : Nat :=
  20 + (sem.pids.map fun pid => (itoaText pid 10).length + 1).sum

/-- `info` without its new line. -/
def headline : List UInt8 := bytes "name       value   pidsWaiting"

/-- The words between spaces. -/
def spaced (l : List UInt8) : List (List UInt8) := (l.splitOn 32).filter (· ≠ [])

/-- The row of a semaphore lists its queue. -/
def Lists (sem : Sem) (row : List UInt8) : Prop :=
  ∃ listing, row = columns sem ++ listing ∧ 10 ∉ listing ∧ spaced listing = sem.pids.map decimal

/-- `getSems` stays inside its block, its row lengths fit a `char`, and it returns a header and one
row for each semaphore. -/
def Reports (alloc : Nat → Option (Nat → UInt8)) (r : Registry) : Prop :=
  ∃ m, getSems alloc r = .ok (some m) ∧ (∀ sem ∈ r.sems, rowLength sem ≤ 127) ∧
    ∃ rows, Text m 0 (headline ++ rows.flatMap fun row => 10 :: row) ∧
      List.Forall₂ Lists r.sems rows

/-- `getEntering` stays inside its block and returns the queue. -/
def Entering (alloc : Nat → Option (Nat → UInt8)) (sem : Sem) : Prop :=
  ∃ m, getEntering alloc sem = .ok m ∧ Text m 0 ([32].intercalate (sem.pids.map decimal))

/-! What the calls write. -/

/-- Stores one after the other. -/
def stores (out : Int) : List UInt8 → Block → C Block
  | [], m => pure m
  | b :: bs, m => do
      let m ← store out b m
      stores (out + 1) bs m

/-- What is left of a pid: the space behind it is stored over its first digit, and its NUL
stays. -/
def shownPid (pid : Int) : List UInt8 := 32 :: ((itoaText pid 10).tail ++ [0])

/-- A row without the new line that is stored at its end, or over it where the name fills its
column. -/
def row (sem : Sem) : List UInt8 :=
  (heading sem ++ sem.pids.flatMap shownPid).take (rowLength sem - 1)

/-- The size of the block of `getSems`. -/
def blockSize (r : Registry) : Nat := ((MIN_SIZE + r.counter * SEM_DATA_MAX_SIZE) % 2 ^ 64).toNat

section
variable {m m' : Block} {out : Int} {o : Nat} {bs text : List UInt8} {sem : Sem} {w : Int}

theorem store_room {b : UInt8} (at_ : out = o) (room : o < m.size) :
    store out b m = .ok (m.write o [b]) := by
  subst at_
  rw [store, if_pos ⟨by omega, by omega⟩]
  rfl

theorem store_ok {b : UInt8} (at_ : out = o) (run : store out b m = .ok m') :
    m' = m.write o [b] ∧ o < m.size := by
  subst at_
  unfold store at run
  split at run <;> rename_i inside
  · exact ⟨(Except.ok.inj run).symm, by omega⟩
  · cases run

theorem write_cons (m : Block) (o : Nat) (b : UInt8) (bs : List UInt8) :
    (m.write o [b]).write (o + 1) bs = m.write o (b :: bs) :=
  write_append m rfl

theorem stores_room (at_ : out = o) (room : o + bs.length ≤ m.size) :
    stores out bs m = .ok (m.write o bs) := by
  induction bs generalizing out o m with
  | nil => simp [stores]
  | cons b bs ih =>
    rw [List.length_cons] at room
    rw [stores, store_room at_ (by omega), ok_bind, ih (o := o + 1) (by omega)
      (by rw [write_size]; omega), write_cons]

theorem stores_ok (at_ : out = o) (run : stores out bs m = .ok m') :
    m' = m.write o bs ∧ (bs ≠ [] → o + bs.length ≤ m.size) := by
  induction bs generalizing out o m with
  | nil =>
    obtain rfl := Except.ok.inj run
    exact ⟨(write_nil m o).symm, fun h => absurd rfl h⟩
  | cons b bs ih =>
    obtain ⟨m₁, first, run⟩ := bind_ok.mp run
    obtain ⟨rfl, inside⟩ := store_ok at_ first
    obtain ⟨rfl, rest⟩ := ih (o := o + 1) (by omega) run
    refine ⟨write_cons m o b bs, fun _ => ?_⟩
    rw [List.length_cons]
    cases bs with
    | nil => exact inside
    | cons c bs =>
      have := rest (List.cons_ne_nil _ _)
      rw [write_size] at this
      omega

theorem strcpy_stores (out : Int) (text : List UInt8) (m : Block) :
    strcpy out text m = stores out (text ++ [0]) m := by
  induction text generalizing out m with
  | nil =>
    rw [strcpy, List.nil_append, stores]
    cases store out 0 m <;> rfl
  | cons c text ih =>
    rw [strcpy, List.cons_append, stores]
    simp only [ih]

theorem addSpaces_stores (out : Int) (qty : Nat) (m : Block) :
    addSpaces out qty m = stores out (List.replicate qty 32) m := by
  induction qty generalizing out m with
  | zero => rfl
  | succ qty ih =>
    rw [addSpaces, List.replicate_succ, stores]
    simp only [ih]

theorem itoa_text (value : Int) (length cap : Nat) : itoa value length cap =
    if (itoaText value length).length < cap then .ok (itoaText value length)
    else .error .outOfBounds := by
  simp [itoa, itoaText]

theorem nameFrom_spaces (name : List UInt8) (n j : Nat) (out : Int) (m : Block) :
    nameFrom name n j true out m = (do
      let m ← stores out (List.replicate n 32) m
      pure (out + n, m)) := by
  induction n generalizing j out m with
  | zero => simp [nameFrom, stores]
  | succ n ih =>
    rw [nameFrom, if_neg (by simp), List.replicate_succ, stores, bind_assoc]
    simp only [if_true, ih]
    rw [show out + 1 + (n : Int) = out + (n + 1 : Nat) by omega]

theorem nameFrom_column {name : List UInt8} (plain : 0 ∉ name) (n j : Nat) (out : Int) (m : Block) :
    nameFrom name n j false out m = (do
      let m ← stores out (column n (name.drop j)) m
      pure (out + (column n (name.drop j)).length, m)) := by
  induction n generalizing j out m with
  | zero => simp [nameFrom, stores, column]
  | succ n ih =>
    cases hd : name.drop j with
    | nil =>
      have past : name[j]? = none := by
        rw [List.getElem?_eq_none]
        exact List.drop_eq_nil_iff.mp hd
      rw [nameFrom, past, if_pos ⟨rfl, rfl⟩, nameFrom_spaces]
      simp [column]
    | cons c rest =>
      have here : name[j]? = some c := by
        have := congrArg (·[0]?) hd
        rwa [List.getElem?_drop] at this
      have tail : name.drop (j + 1) = rest := by
        rw [← List.drop_drop, hd]
        rfl
      have visible : c ≠ 0 := fun zero => plain (zero ▸ List.mem_of_getElem? here)
      have more : column (n + 1) (c :: rest) = c :: column n rest := by
        unfold column
        by_cases short : rest.length < n
        · rw [if_pos short, if_pos (by simpa using short), List.cons_append, List.length_cons]
          rw [show n + 1 - 1 - (rest.length + 1) = n - 1 - rest.length by omega]
        · rw [if_neg short, if_neg (by simpa using short), List.take_succ_cons]
      rw [nameFrom, here, if_neg fun h => visible h.2, more, stores, bind_assoc]
      simp only [ih, tail, Bool.false_eq_true, if_false, Option.getD_some, List.length_cons]
      rw [show out + 1 + ((column n rest).length : Int) =
        out + ((column n rest).length + 1 : Nat) by omega]

theorem column_length (name : List UInt8) : (column MAX_NAME_SIZE name).length =
    if name.length < 10 then 9 else 10 := by
  unfold column MAX_NAME_SIZE
  split
  · rw [List.length_append, List.length_replicate]
    omega
  · rw [List.length_take]
    omega

theorem itoaText_length (value : Int) (length : Nat) :
    0 < (itoaText value length).length ∧ (itoaText value length).length ≤ max length 1 + 1 := by
  simp only [itoaText, List.length_reverse]
  generalize (if value < 0 then int32 (-value) else value) = n
  have all := lowDigits_length_le length n
  by_cases zero : lowDigits length n = []
  · rw [if_pos zero]
    split
    · simp only [List.length_append, List.length_singleton]
      omega
    · simp only [List.length_singleton]
      omega
  · rw [if_neg zero]
    have := List.length_pos_iff.mpr zero
    split
    · simp only [List.length_append, List.length_singleton]
      omega
    · omega

/-- No character of a number is a NUL, a new line or a space. -/
theorem itoaText_mem {value : Int} {length : Nat} {b : UInt8} (h : b ∈ itoaText value length) :
    39 ≤ b.toNat ∧ b.toNat ≤ 57 := by
  simp only [itoaText, List.mem_reverse] at h
  generalize (if value < 0 then int32 (-value) else value) = n at h
  have digits : b ∈ (if lowDigits length n = [] then [48] else lowDigits length n) →
      39 ≤ b.toNat ∧ b.toNat ≤ 57 := by
    intro h
    split at h
    · obtain rfl := List.mem_singleton.mp h
      decide
    · exact lowDigits_mem h
  split at h
  · rcases List.mem_append.mp h with h | h
    · exact digits h
    · obtain rfl := List.mem_singleton.mp h
      decide
  · exact digits h

theorem value_length (sem : Sem) : 0 < (itoaText (int32 sem.value) 2).length ∧
    (itoaText (int32 sem.value) 2).length ≤ 3 :=
  itoaText_length _ _

theorem heading_length (sem : Sem) :
    (heading sem).length = if sem.name.length < 10 then 19 else 20 := by
  have := value_length sem
  have := column_length sem.name
  simp only [heading, List.length_append, List.length_replicate, List.length_cons, List.length_nil]
  split <;> rename_i short <;> simp only [if_pos, if_neg, short, not_false_eq_true] at * <;> omega

/-- The row up to the queue, where there is room for it. -/
theorem getSemaphoresData_room (at_ : out = o) (room : o + (heading sem).length ≤ m.size) :
    getSemaphoresData out sem m =
      pidsFrom sem.pids (o + (heading sem).length : Nat) 20 (m.write o (heading sem)) := by
  subst at_
  obtain ⟨pos, few⟩ := value_length sem
  have fits : (itoaText (int32 sem.value) 2).length < 10 := by omega
  have written : char (char (char (char MAX_NAME_SIZE + 2) + MAX_ATTR_SIZE) + 2) = 20 := by decide
  rw [getSemaphoresData, nameFrom_column sem.plain, List.drop_zero, bind_assoc]
  simp only [pure_ok, ok_bind, addSpaces_stores, itoa_text, if_pos fits, strcpy_stores, written]
  unfold heading at room ⊢
  generalize column MAX_NAME_SIZE sem.name = name at room ⊢
  generalize itoaText (int32 sem.value) 2 = text at *
  have copied : char text.length = text.length := char_of_range (by omega) (by omega)
  have left : (MAX_ATTR_SIZE - (text.length : Int)).toNat = 6 - text.length := by
    unfold MAX_ATTR_SIZE
    omega
  simp only [List.length_append, List.length_replicate, List.length_cons, List.length_nil]
    at room ⊢
  rw [copied, left, stores_room rfl (by omega), ok_bind,
    stores_room (o := o + name.length) (by omega) (by simp; omega), ok_bind,
    stores_room (o := o + name.length + 2) (by omega) (by simp; omega), ok_bind,
    stores_room (o := o + name.length + 2 + text.length) (by omega) (by simp; omega), ok_bind,
    stores_room (o := o + name.length + 8) (by unfold MAX_ATTR_SIZE; omega) (by simp; omega),
    ok_bind]
  have first : (m.write o name).write (o + name.length) (List.replicate 2 32) =
      m.write o (name ++ [32, 32]) := write_append m rfl
  have block : ((m.write o (name ++ [32, 32])).write (o + name.length + 2) (text ++ [0])).write
      (o + name.length + 2 + text.length) (List.replicate (6 - text.length) 32) =
      m.write o (name ++ [32, 32] ++ text ++ List.replicate (6 - text.length) 32) := by
    rw [write_append m (by simp; omega), ← List.append_assoc,
      write_over m (by simp; omega) (by simp; omega)]
  have spaces : List.replicate (8 - text.length) (32 : UInt8) =
      List.replicate (6 - text.length) 32 ++ List.replicate 2 32 := by
    rw [List.replicate_append_replicate]
    congr 1
    omega
  rw [first, block, write_append m (by simp; omega), spaces,
    List.append_assoc _ _ (List.replicate 2 32)]
  congr 1
  unfold MAX_ATTR_SIZE
  omega

theorem getSemaphoresData_inside {r : Int × Block} (at_ : out = o)
    (run : getSemaphoresData out sem m = .ok r) : o + (heading sem).length ≤ m.size := by
  subst at_
  obtain ⟨pos, few⟩ := value_length sem
  have fits : (itoaText (int32 sem.value) 2).length < 10 := by omega
  rw [getSemaphoresData, nameFrom_column sem.plain, List.drop_zero, bind_assoc] at run
  simp only [pure_ok, ok_bind, addSpaces_stores, itoa_text, if_pos fits, strcpy_stores] at run
  unfold heading
  generalize column MAX_NAME_SIZE sem.name = name at run ⊢
  generalize itoaText (int32 sem.value) 2 = text at *
  have copied : char text.length = text.length := char_of_range (by omega) (by omega)
  rw [copied] at run
  obtain ⟨m₁, first, run⟩ := bind_ok.mp run
  obtain ⟨rfl, -⟩ := stores_ok rfl first
  obtain ⟨m₂, second, run⟩ := bind_ok.mp run
  obtain ⟨rfl, -⟩ := stores_ok (o := o + name.length) (by omega) second
  obtain ⟨m₃, third, run⟩ := bind_ok.mp run
  obtain ⟨rfl, -⟩ := stores_ok (o := o + name.length + 2) (by omega) third
  obtain ⟨m₄, fourth, run⟩ := bind_ok.mp run
  obtain ⟨rfl, -⟩ := stores_ok (o := o + name.length + 2 + text.length) (by omega) fourth
  obtain ⟨m₅, fifth, -⟩ := bind_ok.mp run
  obtain ⟨-, inside⟩ := stores_ok (o := o + name.length + 8) (by unfold MAX_ATTR_SIZE; omega) fifth
  have := inside (by simp)
  simp only [write_size, List.length_append, List.length_replicate, List.length_cons,
    List.length_nil] at this ⊢
  omega

/-- The bytes of the queue. -/
theorem pidsFrom_ok {pids : List Int} (at_ : out = o) (pos : 0 ≤ w)
    (short : w + (pids.map fun pid => (itoaText pid 10).length + 1).sum ≤ 127)
    {w' : Int} (run : pidsFrom pids out w m = .ok (w', m')) :
    m' = m.write o (pids.flatMap shownPid) ∧
      w' = w + (pids.map fun pid => (itoaText pid 10).length + 1).sum := by
  induction pids generalizing out o m w with
  | nil =>
    obtain ⟨rfl, rfl⟩ := Prod.mk.inj (Except.ok.inj run)
    simp
  | cons pid pids ih =>
    obtain ⟨text, number, run⟩ := bind_ok.mp run
    rw [itoa_text] at number
    split at number
    · obtain rfl := Except.ok.inj number
      have some := (itoaText_length pid 10).1
      have bound := (itoaText_length pid 10).2
      rw [List.map_cons, List.sum_cons] at short
      have copied : char (itoaText pid 10).length = (itoaText pid 10).length :=
        char_of_range (by omega) (by omega)
      have more : char ((itoaText pid 10).length + 1) = (itoaText pid 10).length + 1 :=
        char_of_range (by omega) (by omega)
      have sum : char (w + ((itoaText pid 10).length + 1)) = w + ((itoaText pid 10).length + 1) :=
        char_of_range (by omega) (by omega)
      simp only [strcpy_stores, addSpaces_stores, copied, more, sum] at run
      obtain ⟨m₁, first, run⟩ := bind_ok.mp run
      obtain ⟨rfl, -⟩ := stores_ok at_ first
      obtain ⟨m₂, second, run⟩ := bind_ok.mp run
      obtain ⟨rfl, -⟩ := stores_ok at_ second
      obtain ⟨rfl, rfl⟩ := ih (o := o + ((itoaText pid 10).length + 1)) (by omega) (by omega)
        (by omega) run
      have shown : (m.write o (itoaText pid 10 ++ [0])).write o (List.replicate 1 32) =
          m.write o (shownPid pid) := by
        obtain ⟨d, rest, split⟩ := List.exists_cons_of_length_pos some
        rw [shownPid, split]
        exact write_head m o d 32 (rest ++ [0])
      have length : (shownPid pid).length = (itoaText pid 10).length + 1 := by
        rw [shownPid, List.length_cons, List.length_append, List.length_tail, List.length_singleton]
        omega
      rw [shown, List.flatMap_cons, List.map_cons, List.sum_cons, write_append m (by rw [length])]
      exact ⟨rfl, by omega⟩
    · cases number

theorem shownPid_length (pid : Int) : (shownPid pid).length = (itoaText pid 10).length + 1 := by
  have some := (itoaText_length pid 10).1
  rw [shownPid, List.length_cons, List.length_append, List.length_tail, List.length_singleton]
  omega

theorem whole_length (sem : Sem) : (heading sem ++ sem.pids.flatMap shownPid).length + 1 =
    rowLength sem + if sem.name.length < 10 then 0 else 1 := by
  rw [List.length_append, heading_length, List.length_flatMap]
  simp only [shownPid_length, rowLength]
  split <;> omega

theorem rowLength_ge (sem : Sem) : 20 ≤ rowLength sem := Nat.le_add_right ..

theorem row_length (sem : Sem) : (row sem).length + 1 = rowLength sem := by
  have := whole_length sem
  have := rowLength_ge sem
  rw [row, List.length_take]
  split at * <;> omega

/-- The row and its new line. -/
theorem write_row (m : Block) (o : Nat) (sem : Sem) :
    (m.write o (heading sem ++ sem.pids.flatMap shownPid)).write (o + (rowLength sem - 1)) [10] =
      m.write o (row sem ++ [10]) := by
  have whole := whole_length sem
  have length := row_length sem
  have split := List.take_append_drop (rowLength sem - 1) (heading sem ++ sem.pids.flatMap shownPid)
  rw [← split]
  refine write_over m ?_ ?_
  · show o + (rowLength sem - 1) = o + (row sem).length
    omega
  · rw [List.length_drop, List.length_singleton]
    split at whole <;> omega

theorem rowsFrom_ok {sems : List Sem} (at_ : out = o) (short : ∀ sem ∈ sems, rowLength sem ≤ 127)
    {ans : Int} (run : rowsFrom sems out m = .ok (some (ans, m'))) :
    m' = m.write o (sems.flatMap fun sem => row sem ++ [10]) ∧
      ans = o + (sems.map rowLength).sum := by
  induction sems generalizing out o m with
  | nil =>
    obtain ⟨rfl, rfl⟩ := Prod.mk.inj (Option.some.inj (Except.ok.inj run))
    simp [at_]
  | cons sem sems ih =>
    obtain ⟨⟨w, m₁⟩, data, run⟩ := bind_ok.mp run
    have room := getSemaphoresData_inside at_ data
    rw [getSemaphoresData_room at_ room] at data
    have bound := short sem List.mem_cons_self
    obtain ⟨rfl, rfl⟩ := pidsFrom_ok rfl (by decide)
      (by have := bound; rw [rowLength] at this; omega) data
    have length : (20 : Int) + (sem.pids.map fun pid => (itoaText pid 10).length + 1).sum =
        rowLength sem := by
      rw [rowLength]
      omega
    have ge := rowLength_ge sem
    simp only [length] at run
    rw [if_neg (by unfold EXIT_FAILURE; omega)] at run
    obtain ⟨m₂, newline, run⟩ := bind_ok.mp run
    obtain ⟨rfl, -⟩ := store_ok (o := o + (rowLength sem - 1)) (by omega) newline
    rw [write_append m rfl, write_row] at run
    obtain ⟨rfl, rfl⟩ := ih (o := o + rowLength sem) (by omega)
      (fun x hx => short x (List.mem_cons_of_mem _ hx)) run
    rw [List.flatMap_cons, List.map_cons, List.sum_cons, write_append m (by
      rw [List.length_append, List.length_singleton, row_length])]
    exact ⟨rfl, by omega⟩

/-- Rows without pids, where there is room for them. -/
theorem rowsFrom_room {sems : List Sem} (at_ : out = o) (free : ∀ sem ∈ sems, sem.pids = [])
    (room : o + 20 * sems.length ≤ m.size) : rowsFrom sems out m =
      .ok (some (out + 20 * sems.length, m.write o (sems.flatMap fun sem => row sem ++ [10]))) := by
  induction sems generalizing out o m with
  | nil => simp [rowsFrom]
  | cons sem sems ih =>
    rw [List.length_cons] at room ⊢
    have empty := free sem List.mem_cons_self
    have length := heading_length sem
    have fits : o + (heading sem).length ≤ m.size := by
      split at length <;> omega
    have whole : heading sem = heading sem ++ sem.pids.flatMap shownPid := by
      rw [empty, List.flatMap_nil, List.append_nil]
    have twenty : rowLength sem = 20 := by
      rw [rowLength, empty]
      rfl
    have newline := write_row m o sem
    rw [← whole, twenty] at newline
    have := row_length sem
    rw [rowsFrom, getSemaphoresData_room at_ fits, empty]
    simp only [pidsFrom, pure_ok, ok_bind]
    rw [if_neg (by decide), store_room (o := o + 19) (by omega) (by rw [write_size]; omega),
      ok_bind, newline, ih (o := o + 20) (by omega) (fun x hx => free x (List.mem_cons_of_mem _ hx))
      (by rw [write_size]; omega), List.flatMap_cons, write_append m (by
      rw [List.length_append, List.length_singleton]; omega)]
    congr 3
    omega

theorem info_split : info = headline ++ [10] := by decide

theorem headline_length : headline.length = 30 := by decide

theorem newlines (sems : List Sem) : info ++ sems.flatMap (fun sem => row sem ++ [10]) =
    headline ++ sems.flatMap (fun sem => 10 :: row sem) ++ [10] := by
  suffices shift : [10] ++ sems.flatMap (fun sem => row sem ++ [10]) =
      sems.flatMap (fun sem => 10 :: row sem) ++ [10] by
    rw [info_split, List.append_assoc, shift, List.append_assoc]
  induction sems with
  | nil => rfl
  | cons sem sems ih =>
    rw [List.flatMap_cons, List.flatMap_cons, List.append_assoc (10 :: row sem), ← ih]
    simp

/-- The header and the rows, with a NUL over the last new line. -/
theorem finish_write (m : Block) (sems : List Sem) : ∃ rest,
    ((m.write 0 (info ++ [0])).write 31 (sems.flatMap fun sem => row sem ++ [10])).write
      (30 + (sems.flatMap fun sem => 10 :: row sem).length) [0] =
    m.write 0 (headline ++ sems.flatMap (fun sem => 10 :: row sem) ++ 0 :: rest) := by
  cases sems with
  | nil =>
    refine ⟨[0], ?_⟩
    rw [List.flatMap_nil, List.flatMap_nil, write_nil, List.append_nil, info_split,
      List.append_assoc, List.singleton_append]
    exact write_at m 10 0 (by rw [headline_length]; rfl)
  | cons sem sems =>
    refine ⟨[], ?_⟩
    rw [write_over m (by rw [info_split, List.length_append, headline_length]; rfl)
      (by simp; omega), newlines]
    exact write_at m 10 0 (by rw [List.length_append, headline_length]; omega)

theorem rows_length (sems : List Sem) :
    (sems.flatMap fun sem => 10 :: row sem).length = (sems.map rowLength).sum := by
  rw [List.length_flatMap]
  simp only [List.length_cons, row_length]

/-- What `getSems` returns. -/
theorem getSems_text {alloc : Nat → Option (Nat → UInt8)} {r : Registry}
    (short : ∀ sem ∈ r.sems, rowLength sem ≤ 127) (run : getSems alloc r = .ok (some m)) :
    alloc (blockSize r) ≠ none ∧ 31 + (r.sems.map rowLength).sum ≤ blockSize r ∧
      Text m 0 ((headline ++ r.sems.flatMap fun sem => 10 :: row sem).takeWhile (· ≠ 0)) := by
  obtain ⟨bytes, block, run⟩ := bind_ok.mp run
  have block : alloc (blockSize r) = some bytes := deref_ok.mp block
  obtain ⟨m₁, header, run⟩ := bind_ok.mp run
  rw [strcpy_stores] at header
  obtain ⟨rfl, -⟩ := stores_ok (o := 0) rfl header
  obtain ⟨found, rows, run⟩ := bind_ok.mp run
  cases found with
  | none => cases run
  | some x =>
    obtain ⟨ans, m₂⟩ := x
    obtain ⟨rfl, rfl⟩ := rowsFrom_ok (o := 31) (by decide) short rows
    obtain ⟨m₃, last, run⟩ := bind_ok.mp run
    obtain rfl := Option.some.inj (Except.ok.inj run)
    obtain ⟨rfl, inside⟩ := store_ok (o := 30 + (r.sems.map rowLength).sum) (by omega) last
    simp only [write_size] at inside
    have inside : 30 + (r.sems.map rowLength).sum < blockSize r := inside
    refine ⟨by rw [block]; simp, by omega, ?_⟩
    · obtain ⟨rest, whole⟩ := finish_write ⟨_, bytes⟩ r.sems
      rw [rows_length] at whole
      rw [whole]
      exact text_write _ (by
        rw [List.length_append, rows_length, headline_length]
        show _ < blockSize r
        omega) rest

theorem getSems_room {alloc : Nat → Option (Nat → UInt8)} {r : Registry}
    (block : alloc (blockSize r) ≠ none) (free : ∀ sem ∈ r.sems, sem.pids = [])
    (header : 32 ≤ blockSize r) (room : 31 + 20 * r.sems.length ≤ blockSize r) :
    ∃ m, getSems alloc r = .ok (some m) := by
  obtain ⟨bytes, block⟩ := Option.ne_none_iff_exists'.mp block
  have length : (info ++ [0]).length = 32 := by decide
  have start : strcpy 0 info ⟨blockSize r, bytes⟩ =
      .ok (Block.write 0 (info ++ [0]) ⟨blockSize r, bytes⟩) := by
    rw [strcpy_stores]
    exact stores_room (o := 0) rfl (by rw [length, Nat.zero_add]; exact header)
  have rows : rowsFrom r.sems info.length (Block.write 0 (info ++ [0]) ⟨blockSize r, bytes⟩) = _ :=
    rowsFrom_room (o := 31) (by decide) free room
  refine ⟨_, bind_ok.mpr ⟨bytes, deref_ok.mpr block, bind_ok.mpr ⟨_, start,
    bind_ok.mpr ⟨_, rows, bind_ok.mpr ⟨_, store_room (o := 30 + 20 * r.sems.length) ?_ ?_, rfl⟩⟩⟩⟩⟩
  · rw [show info.length = 31 by decide]
    omega
  · show _ < blockSize r
    omega

/-! The rows that are read back. -/

/-- Nothing more, or a new line. -/
def LineEnd (l : List UInt8) : Prop := l = [] ∨ ∃ more, l = 10 :: more

theorem lineEnd_flatMap {α : Type} (f : α → List UInt8) (xs : List α) :
    LineEnd (xs.flatMap fun x => 10 :: f x) := by
  cases xs with
  | nil => exact .inl rfl
  | cons x xs => exact .inr ⟨f x ++ xs.flatMap fun x => 10 :: f x, rfl⟩

theorem LineEnd.takeWhile {l : List UInt8} (h : LineEnd l) : LineEnd (l.takeWhile (· ≠ 0)) := by
  rcases h with rfl | ⟨more, rfl⟩
  · exact .inl rfl
  · exact .inr ⟨more.takeWhile (· ≠ 0), rfl⟩

/-- Two lines without new lines in them. -/
theorem line_inj {a b f g : List UInt8} (ha : 10 ∉ a) (hb : 10 ∉ b) (hf : LineEnd f)
    (hg : LineEnd g) (same : a ++ f = b ++ g) : a = b ∧ f = g := by
  induction a generalizing b with
  | nil =>
    cases b with
    | nil => exact ⟨rfl, same⟩
    | cons c b =>
      rcases hf with rfl | ⟨more, rfl⟩
      · cases same
      · rw [(List.cons.inj same).1] at hb
        exact absurd List.mem_cons_self hb
  | cons c a ih =>
    cases b with
    | nil =>
      rcases hg with rfl | ⟨more, rfl⟩
      · cases same
      · rw [← (List.cons.inj same).1] at ha
        exact absurd List.mem_cons_self ha
    | cons d b =>
      obtain ⟨rfl, rest⟩ := List.cons.inj same
      obtain ⟨rfl, rfl⟩ := ih (fun h => ha (List.mem_cons_of_mem _ h))
        (fun h => hb (List.mem_cons_of_mem _ h)) rest
      exact ⟨rfl, rfl⟩

theorem spaced_word {t : List UInt8} (plain : 32 ∉ t) (k : Nat) :
    spaced (List.replicate k 32 ++ t) = if t = [] then [] else [t] := by
  induction k with
  | zero =>
    rw [List.replicate_zero, List.nil_append, spaced, List.splitOn_eq_singleton plain]
    by_cases none : t = [] <;> simp [none]
  | succ k ih =>
    rw [← ih, List.replicate_succ, List.cons_append]
    simp [spaced, List.splitOn_cons_eq_if_modifyHead]

theorem itoaText_plain (value : Int) (length : Nat) {c : UInt8} (hc : c.toNat < 39) :
    c ∉ itoaText value length := by
  intro h
  have := (itoaText_mem h).1
  omega

theorem columns_plain (sem : Sem) : 0 ∉ columns sem := by
  intro zero
  have zero := List.mem_of_mem_take zero
  simp only [heading, List.mem_append, List.mem_replicate] at zero
  rcases zero with ((zero | zero) | zero) | zero
  · unfold column at zero
    split at zero
    · rcases List.mem_append.mp zero with zero | zero
      · exact sem.plain zero
      · exact absurd (List.eq_of_mem_replicate zero) (by decide)
    · exact sem.plain (List.mem_of_mem_take zero)
  · revert zero
    decide
  · exact itoaText_plain _ _ (by decide) zero
  · exact absurd zero.2 (by decide)

theorem row_free (free : sem.pids = []) : row sem = columns sem := by
  rw [row, free, List.flatMap_nil, List.append_nil, rowLength, free]
  rfl

/-- Behind the columns a row shows spaces, the first pid without its first digit, and a NUL, but
for the last row of one pid behind a name that fills its column. -/
theorem row_waiting {p : Int} {ps : List Int} (waiting : sem.pids = p :: ps) : ∃ k junk,
    row sem = columns sem ++ (List.replicate k 32 ++ (itoaText p 10).tail ++ junk) ∧
      (junk = [] ∨ ∃ more, junk = 0 :: more) := by
  have length := heading_length sem
  have whole := whole_length sem
  have ge := rowLength_ge sem
  have spaces : (heading sem).drop 19 = List.replicate ((heading sem).length - 19) 32 := by
    have := value_length sem
    have := column_length sem.name
    unfold heading
    rw [List.drop_append, List.drop_eq_nil_of_le, List.nil_append, List.drop_replicate]
    · congr 1
      simp only [List.length_append, List.length_replicate, List.length_cons, List.length_nil]
      split at this <;> omega
    · simp only [List.length_append, List.length_cons, List.length_nil]
      split at this <;> omega
  have parts : heading sem ++ sem.pids.flatMap shownPid = columns sem ++
      (List.replicate ((heading sem).length - 19 + 1) 32 ++ (itoaText p 10).tail ++
        0 :: ps.flatMap shownPid) := by
    conv_lhs => rw [← List.take_append_drop 19 (heading sem)]
    rw [spaces, waiting, List.flatMap_cons, List.replicate_succ']
    simp [columns, shownPid]
  have nineteen : (columns sem).length = 19 := by
    rw [columns, List.length_take]
    split at length <;> omega
  have total : (heading sem ++ sem.pids.flatMap shownPid).length = 19 + ((List.replicate
      ((heading sem).length - 19 + 1) 32 ++ (itoaText p 10).tail).length +
      ((ps.flatMap shownPid).length + 1)) := by
    rw [parts, List.length_append, nineteen, List.length_append, List.length_cons]
  refine ⟨(heading sem).length - 19 + 1, (0 :: ps.flatMap shownPid).take (rowLength sem - 20 -
    (List.replicate ((heading sem).length - 19 + 1) 32 ++ (itoaText p 10).tail).length), ?_, ?_⟩
  · have cut (l : List UInt8) : (columns sem ++ l).take (rowLength sem - 1) =
        columns sem ++ l.take (rowLength sem - 20) := by
      rw [List.take_append, List.take_of_length_le (by omega), nineteen,
        show rowLength sem - 1 - 19 = rowLength sem - 20 by omega]
    rw [row, parts, cut, List.take_append, List.take_of_length_le]
    have : (heading sem).length - 19 ≤ 1 := by split at length <;> omega
    split at length <;> split at whole <;> omega
  · cases rowLength sem - 20 - (List.replicate ((heading sem).length - 19 + 1) 32 ++
        (itoaText p 10).tail).length with
    | zero => exact .inl rfl
    | succ n => exact .inr ⟨_, rfl⟩

theorem decimal_length (p : Int) : (decimal p).length =
    (if p < 0 then 1 else 0) + (if p = 0 then 1 else (Nat.digits 10 p.natAbs).length) := by
  unfold decimal decimalNat
  by_cases neg : p < 0
  · rw [if_pos neg, if_pos neg, if_neg (by omega), if_neg (by omega)]
    simp
    omega
  · rw [if_neg neg, if_neg neg]
    by_cases zero : p = 0
    · simp [zero]
    · rw [if_neg (by omega), if_neg zero]
      simp

theorem int32_natAbs {x : Int} (pos : 0 ≤ x) : (int32 x).natAbs ≤ x.natAbs := by
  unfold int32
  omega

/-- `itoa` leaves no more characters than there are. -/
theorem itoaText_short (p : Int) (length : Nat) :
    (itoaText p length).length ≤ (decimal p).length := by
  rw [decimal_length]
  have digits : (lowDigits length (if p < 0 then int32 (-p) else p)).length ≤
      (Nat.digits 10 p.natAbs).length := by
    refine Nat.le_trans (lowDigits_length _ _) (Nat.le_length_digits_le 10 _ _ ?_)
    split
    · have := int32_natAbs (show 0 ≤ -p by omega)
      omega
    · exact Nat.le_refl _
  simp only [itoaText, List.length_reverse]
  generalize lowDigits length (if p < 0 then int32 (-p) else p) = low at digits ⊢
  have some : p ≠ 0 → 0 < (Nat.digits 10 p.natAbs).length := fun h =>
    List.length_pos_iff.mpr (Nat.digits_ne_nil_iff_ne_zero.mpr (by omega))
  by_cases zero : p = 0
  · subst zero
    rw [Int.natAbs_zero, Nat.digits_zero, List.length_nil, Nat.le_zero, List.length_eq_zero_iff]
      at digits
    simp [digits]
  · have := some zero
    rw [if_neg zero]
    by_cases none : low = []
    · rw [if_pos none]
      split
      · simp only [List.length_append, List.length_singleton]
        omega
      · exact Nat.le_add_left_of_le this
    · rw [if_neg none]
      split
      · simp only [List.length_append, List.length_singleton]
        omega
      · omega

/-- Rows that list their queues have none to list. -/
theorem rows_free {sems : List Sem} {rows : List (List UInt8)}
    (same : (sems.flatMap fun sem => 10 :: row sem).takeWhile (· ≠ 0) =
      rows.flatMap fun row => 10 :: row) (lists : List.Forall₂ Lists sems rows) :
    ∀ sem ∈ sems, sem.pids = [] := by
  induction lists with
  | nil => simp
  | @cons sem text sems rows here rest ih =>
    obtain ⟨listing, rfl, plain, list⟩ := here
    have ends := lineEnd_flatMap row sems
    have ends' := lineEnd_flatMap (fun row => row) rows
    have inside : ∀ b ∈ 10 :: columns sem, decide (b ≠ 0) = true := by
      intro b hb
      rcases List.mem_cons.mp hb with rfl | hb
      · decide
      · exact decide_eq_true fun e => columns_plain sem (e ▸ hb)
    have cut (shown : List UInt8) (hrow : row sem = columns sem ++ shown) :
        (shown ++ sems.flatMap fun sem => 10 :: row sem).takeWhile (· ≠ 0) =
          listing ++ rows.flatMap fun row => 10 :: row := by
      rw [List.flatMap_cons, List.flatMap_cons, hrow, ← List.cons_append, List.append_assoc,
        List.takeWhile_append_of_pos inside, ← List.cons_append, List.append_assoc] at same
      exact List.append_cancel_left same
    cases waiting : sem.pids with
    | nil =>
      have := cut [] (by rw [row_free waiting, List.append_nil])
      rw [List.nil_append] at this
      obtain ⟨-, more⟩ := line_inj List.not_mem_nil plain ends.takeWhile ends' this
      exact List.forall_mem_cons.mpr ⟨waiting, ih more⟩
    | cons p ps =>
      obtain ⟨k, junk, hrow, tail⟩ := row_waiting waiting
      have shown := cut _ hrow
      have visible : ∀ b ∈ List.replicate k 32 ++ (itoaText p 10).tail, b ≠ 0 ∧ b ≠ 10 := by
        intro b hb
        rcases List.mem_append.mp hb with hb | hb
        · obtain rfl := List.eq_of_mem_replicate hb
          decide
        · have hb := List.mem_of_mem_tail hb
          exact ⟨fun e => itoaText_plain p 10 (by decide) (e ▸ hb),
            fun e => itoaText_plain p 10 (by decide) (e ▸ hb)⟩
      rw [List.append_assoc, List.takeWhile_append_of_pos fun b hb =>
        decide_eq_true (visible b hb).1] at shown
      have ended : LineEnd ((junk ++ sems.flatMap fun sem => 10 :: row sem).takeWhile (· ≠ 0)) := by
        rcases tail with rfl | ⟨more, rfl⟩
        · exact ends.takeWhile
        · exact .inl rfl
      obtain ⟨same', -⟩ := line_inj (fun h => (visible 10 h).2 rfl) plain ended ends' shown
      have plain' : (32 : UInt8) ∉ (itoaText p 10).tail :=
        fun h => itoaText_plain p 10 (by decide) (List.mem_of_mem_tail h)
      rw [← same', spaced_word plain', waiting, List.map_cons] at list
      have := itoaText_short p 10
      have := (itoaText_length p 10).1
      split at list
      · cases list
      · have := congrArg List.length (List.cons.inj list).1
        rw [List.length_tail] at this
        omega

/-- `getSems` keeps its promises if and only if nobody waits and the block has room for the rows. -/
theorem getSems_iff (alloc : Nat → Option (Nat → UInt8)) (r : Registry) : Reports alloc r ↔
    (∀ sem ∈ r.sems, sem.pids = []) ∧ alloc (blockSize r) ≠ none ∧
      31 + 20 * r.sems.length ≤ blockSize r := by
  have total : (∀ sem ∈ r.sems, sem.pids = []) →
      (r.sems.map rowLength).sum = 20 * r.sems.length := by
    intro free
    have each : r.sems.map rowLength = r.sems.map fun _ => 20 :=
      List.map_congr_left fun sem hs => by rw [rowLength, free sem hs]; rfl
    rw [each, List.map_const', List.sum_replicate, Nat.nsmul_eq_mul, Nat.mul_comm]
  constructor
  · rintro ⟨m, run, short, rows, text, lists⟩
    obtain ⟨block, room, actual⟩ := getSems_text short run
    have inside : ∀ b ∈ headline, decide (b ≠ 0) = true := List.all_eq_true.mp (by decide)
    have same := actual.unique text
    rw [List.takeWhile_append_of_pos inside] at same
    have free := rows_free (List.append_cancel_left same) lists
    rw [total free] at room
    exact ⟨free, block, room⟩
  · rintro ⟨free, block, room⟩
    have header : 32 ≤ blockSize r := by
      cases none : r.sems with
      | nil =>
        have counted := r.counted
        rw [none] at counted
        rw [blockSize, counted]
        decide
      | cons sem sems =>
        rw [none, List.length_cons] at room
        omega
    obtain ⟨m, run⟩ := getSems_room block free header room
    have short : ∀ sem ∈ r.sems, rowLength sem ≤ 127 := by
      intro sem hs
      rw [rowLength, free sem hs]
      decide
    obtain ⟨-, -, actual⟩ := getSems_text short run
    refine ⟨m, run, short, r.sems.map columns, ?_, ?_⟩
    · have same : (r.sems.flatMap fun sem => 10 :: row sem) =
          (r.sems.map columns).flatMap fun row => 10 :: row := by
        rw [List.flatMap_map]
        exact List.flatMap_congr fun sem hs => by rw [row_free (free sem hs)]
      rw [same, List.takeWhile_eq_self_iff.mpr] at actual
      · exact actual
      · intro b hb
        refine decide_eq_true fun zero => ?_
        subst zero
        rcases List.mem_append.mp hb with hb | hb
        · revert hb
          decide
        · obtain ⟨text, ht, hb⟩ := List.mem_flatMap.mp hb
          obtain ⟨sem, -, rfl⟩ := List.mem_map.mp ht
          rcases List.mem_cons.mp hb with hb | hb
          · cases hb
          · exact columns_plain sem hb
    · rw [List.forall₂_map_right_iff, List.forall₂_same]
      intro sem hs
      exact ⟨[], (List.append_nil _).symm, List.not_mem_nil, by rw [free sem hs]; rfl⟩

/-! `getEntering`. -/

/-- A number short enough is written in full. -/
theorem itoaText_decimal {p : Int} (lo : -99 ≤ p) (hi : p ≤ 999) : itoaText p 3 = decimal p := by
  have low : lowDigits 3 (if p < 0 then int32 (-p) else p) =
      (Nat.digits 10 p.natAbs).map digit := by
    have value : (if p < 0 then int32 (-p) else p) = (p.natAbs : Int) := by
      unfold int32
      split <;> omega
    rw [value, lowDigits_nat, List.take_of_length_le]
    rw [Nat.digits_length_le_iff (by decide)]
    omega
  by_cases zero : p = 0
  · subst zero
    decide
  · have some : (Nat.digits 10 p.natAbs).map digit ≠ [] := by
      rw [ne_eq, List.map_eq_nil_iff, Nat.digits_eq_nil_iff_eq_zero]
      omega
    have nonzero : p.natAbs ≠ 0 := by omega
    simp only [itoaText, low, if_neg some, decimal, decimalNat, if_neg nonzero]
    by_cases neg : p < 0
    · rw [if_pos neg, if_pos neg, List.reverse_append]
      rfl
    · rw [if_neg neg, if_neg neg]

theorem enteringFrom_last {pids : List Int} {p : Int}
    (run : enteringFrom (pids ++ [p]) m = .ok m') : (itoaText p 3).length < 4 ∧
      (itoaText p 3).length < m.size ∧ Text m' 0 (itoaText p 3) := by
  induction pids generalizing m with
  | nil =>
    obtain ⟨text, number, run⟩ := bind_ok.mp run
    rw [itoa_text] at number
    split at number <;> rename_i fits
    · obtain rfl := Except.ok.inj number
      obtain ⟨m₁, copy, run⟩ := bind_ok.mp run
      rw [if_neg (not_not.mpr rfl)] at run
      rw [strcpy_stores] at copy
      obtain ⟨rfl, inside⟩ := stores_ok (o := 0) rfl copy
      obtain rfl := Except.ok.inj run
      have room := inside (by simp)
      rw [List.length_append, List.length_singleton, Nat.zero_add] at room
      have text := text_write (o := 0) m (by rw [Nat.zero_add]; exact room) []
      rw [List.takeWhile_eq_self_iff.mpr] at text
      · exact ⟨fits, room, text⟩
      · exact fun b hb => decide_eq_true fun e => itoaText_plain p 3 (by decide) (e ▸ hb)
    · cases number
  | cons q pids ih =>
    obtain ⟨text, -, run⟩ := bind_ok.mp run
    obtain ⟨m₁, copy, run⟩ := bind_ok.mp run
    rw [if_pos (by simp)] at run
    obtain ⟨m₂, space, run⟩ := bind_ok.mp run
    rw [strcpy_stores] at copy space
    obtain ⟨rfl, -⟩ := stores_ok (o := 0) rfl copy
    obtain ⟨rfl, -⟩ := stores_ok (o := 0) rfl space
    have last := ih (m := Block.write 0 (bytes " " ++ [0]) (Block.write 0 (text ++ [0]) m)) run
    exact last

/-- `getEntering` keeps its promise if and only if the queue is one pid of few digits, or is empty
and the block happens to start with a NUL. -/
theorem entering_iff (alloc : Nat → Option (Nat → UInt8)) (sem : Sem) : Entering alloc sem ↔
    ∃ bytes, alloc 8 = some bytes ∧
      (sem.pids = [] ∧ bytes 0 = 0 ∨ ∃ p, sem.pids = [p] ∧ -99 ≤ p ∧ p ≤ 999) := by
  constructor
  · rintro ⟨m, run, text⟩
    obtain ⟨bytes, block, run⟩ := bind_ok.mp run
    refine ⟨bytes, deref_ok.mp block, ?_⟩
    rcases List.eq_nil_or_concat sem.pids with none | ⟨pids, p, some⟩
    · rw [none] at run text
      obtain rfl := Except.ok.inj run
      exact .inl ⟨none, text.nul⟩
    · rw [some, List.concat_eq_append] at run text
      obtain ⟨short, -, last⟩ := enteringFrom_last run
      have same := last.unique text
      refine .inr ⟨p, ?_⟩
      cases pids with
      | nil =>
        have one : [32].intercalate (([] ++ [p]).map decimal) = decimal p := by
          simp [List.intercalate]
        rw [one] at same
        rw [same, decimal_length] at short
        have few (k : Nat) := Nat.digits_length_le_iff (b := 10) (k := k) (by decide) p.natAbs
        have two := few 2
        have three := few 3
        refine ⟨some, ?_⟩
        by_cases neg : p < 0
        · rw [if_pos neg, if_neg (by omega)] at short
          omega
        · rw [if_neg neg] at short
          split at short <;> omega
      | cons q pids =>
        have space : 32 ∈ [32].intercalate ((q :: pids ++ [p]).map decimal) := by
          rw [List.cons_append, List.map_cons]
          cases hl : (pids ++ [p]).map decimal with
          | nil => simp at hl
          | cons x l =>
            rw [List.intercalate_cons_cons]
            simp
        rw [← same] at space
        exact absurd space (itoaText_plain p 3 (by decide))
  · rintro ⟨bytes, block, ⟨none, nul⟩ | ⟨p, one, lo, hi⟩⟩
    · refine ⟨⟨8, bytes⟩, bind_ok.mpr ⟨bytes, deref_ok.mpr block, by rw [none]; rfl⟩, ?_⟩
      rw [none]
      exact ⟨List.not_mem_nil, show 0 + 0 < 8 by decide, by simp, nul⟩
    · have text := itoaText_decimal lo hi
      have short : (itoaText p 3).length < MAX_PID := by
        rw [text, decimal_length, MAX_PID]
        have := (Nat.digits_length_le_iff (b := 10) (k := if p < 0 then 2 else 3) (by decide)
          p.natAbs).mpr (by split <;> omega)
        split at this <;> split <;> split <;> omega
      have copy : strcpy 0 (itoaText p 3) ⟨8, bytes⟩ =
          .ok (Block.write 0 (itoaText p 3 ++ [0]) ⟨8, bytes⟩) := by
        rw [strcpy_stores]
        refine stores_room (o := 0) rfl ?_
        have := short
        rw [MAX_PID] at this
        rw [List.length_append, List.length_singleton]
        show 0 + (_ + 1) ≤ 8
        omega
      have run : enteringFrom [p] ⟨8, bytes⟩ =
          .ok (Block.write 0 (itoaText p 3 ++ [0]) ⟨8, bytes⟩) := by
        rw [enteringFrom, itoa_text, if_pos short, ok_bind, copy, ok_bind]
        rfl
      refine ⟨_, bind_ok.mpr ⟨bytes, deref_ok.mpr block, by rw [one]; exact run⟩, ?_⟩
      obtain ⟨-, -, last⟩ := enteringFrom_last (show enteringFrom ([] ++ [p]) _ = _ from run)
      rw [one, List.map_singleton, ← text]
      simpa [List.intercalate] using last

end

/-- Both texts, for any registry, any queue and any block that `pvPortMalloc` returns. -/
theorem semTexts_iff (alloc : Nat → Option (Nat → UInt8)) (r : Registry) :
    (Reports alloc r ↔ (∀ sem ∈ r.sems, sem.pids = []) ∧ alloc (blockSize r) ≠ none ∧
      31 + 20 * r.sems.length ≤ blockSize r) ∧
    ∀ sem, Entering alloc sem ↔ ∃ bytes, alloc 8 = some bytes ∧
      (sem.pids = [] ∧ bytes 0 = 0 ∨ ∃ p, sem.pids = [p] ∧ -99 ≤ p ∧ p ≤ 999) :=
  ⟨getSems_iff alloc r, entering_iff alloc⟩

/-- A semaphore that the processes 12 and 7 wait on. -/
def waited : Sem := ⟨bytes "s", 0, [12, 7], by decide⟩

/-- `getEntering` returns `7`, and neither text lists the queue. -/
theorem lost_pids : ∃ m, getEntering (fun _ => some fun _ => 0) waited = .ok m ∧
    Text m 0 (bytes "7") ∧ ¬ Entering (fun _ => some fun _ => 0) waited ∧
    ¬ Reports (fun _ => some fun _ => 0) ⟨[waited], 1, rfl⟩ := by
  obtain ⟨m, run⟩ : ∃ m, enteringFrom ([12] ++ [7]) ⟨8, fun _ => 0⟩ = .ok m := ⟨_, rfl⟩
  obtain ⟨-, -, last⟩ := enteringFrom_last run
  refine ⟨m, run, last, fun entering => ?_, fun reports => ?_⟩
  · obtain ⟨_, -, ⟨none, -⟩ | ⟨p, one, -⟩⟩ := (entering_iff _ _).mp entering
    · cases none
    · cases one
  · have free := ((getSems_iff _ _).mp reports).1 waited List.mem_cons_self
    cases free

end BottlerOS.SemReport
