import Mathlib.Data.List.Induction
import BottlerOS.Machine

/-! The registry of the blocks that a process got from `sys_malloc`, in the build with
`FREE_EXIT`: `processMallocs`, `processFrees` and the loop of `kill` in
`Kernel/utils/scheduler.c`, and the two system calls that use them. `mmRegs` is taken as an
array of the process's own. -/

namespace BottlerOS.MallocRegistry
open Machine

def MAX_MALLOCS : Int := 40
def NULL : Ptr := 0

/-- The fields of `processCDT` that the registry is. -/
structure Registry where
  mmRegs : Int → Ptr
  mmRegsQty : Int

def Registry.get (r : Registry) (i : Int) : C Ptr :=
  if 0 ≤ i ∧ i < MAX_MALLOCS then pure (r.mmRegs i) else .error .outOfBounds

def Registry.set (r : Registry) (i : Int) (ptr : Ptr) : C Registry :=
  if 0 ≤ i ∧ i < MAX_MALLOCS then pure { r with mmRegs := Function.update r.mmRegs i ptr }
  else .error .outOfBounds

/-- `processMallocs`, for the registry of `currentProcess` if there is one. -/
def processMallocs (ptr : Ptr) : Option Registry → C (Option Registry)
  | none => pure none
  | some r =>
      if r.mmRegsQty + 1 = MAX_MALLOCS then pure (some r)
      else do
        let r' ← r.set r.mmRegsQty ptr
        pure (some { r' with mmRegsQty := r.mmRegsQty + 1 })

/-- The body of the loop of `processFrees`, with its flag. -/
def freesTurn (ptr : Ptr) (i : Int) : Bool × Registry → C (Bool × Registry)
  | (flag, r) => do
      let x ← r.get i
      let flag := flag || x = ptr
      if flag then
        if i ≠ r.mmRegsQty - 1 then do
          let next ← r.get (i + 1)
          let r ← r.set i next
          pure (flag, r)
        else do
          let r ← r.set i NULL
          pure (flag, r)
      else pure (flag, r)

def processFrees (ptr : Ptr) : Option Registry → C (Option Registry)
  | none => pure none
  | some r => do
      let (flag, r) ← forLoop 0 r.mmRegsQty (freesTurn ptr) (false, r)
      pure (some (if flag then { r with mmRegsQty := r.mmRegsQty - 1 } else r))

/-- The loop of `kill`: what it passes to `vPortFree`. -/
def killFrees (r : Registry) : C (List Ptr) :=
  forLoop 0 r.mmRegsQty (fun i freed => do
    let x ← r.get i
    pure (freed ++ [x])) []

/-- A system call of the process on its memory, with what `pvPortMalloc` returns. -/
inductive Call where
  | sys_malloc (size : Nat) (result : Ptr)
  | sys_free (ptr : Ptr)

/-- Cases 8 and 9 of `systemCallsDispatcher`; `vPortFree` leaves the registry alone. -/
def dispatch (process : Option Registry) : Call → C (Option Registry)
  | .sys_malloc _ result => processMallocs result process
  | .sys_free ptr => processFrees ptr process

def runCalls : List Call → Option Registry → C (Option Registry)
  | [], process => pure process
  | c :: rest, process => do
      let process ← dispatch process c
      runCalls rest process

/-- The blocks that a process holds behind a call, in the order it got them. -/
def holds (xs : List Ptr) : Call → List Ptr
  | .sys_malloc _ result => if result = NULL then xs else xs ++ [result]
  | .sys_free ptr => xs.erase ptr

def outstanding (calls : List Call) : List Ptr := calls.foldl holds []

/-- The array holds the pointers from an index on. -/
def Entries (f : Int → Ptr) : Int → List Ptr → Prop
  | _, [] => True
  | i, x :: xs => f i = x ∧ Entries f (i + 1) xs

/-- The registry lists the pointers. -/
structure Lists (r : Registry) (xs : List Ptr) : Prop where
  qty : r.mmRegsQty = xs.length
  entries : Entries r.mmRegs 0 xs

/-- The first entries are the pointers, and `kill` frees them one by one. -/
def Exact (process : Option Registry) (xs : List Ptr) : Prop :=
  ∃ r, process = some r ∧ Lists r xs ∧ killFrees r = .ok xs

section
variable {r r' : Registry} {xs ys : List Ptr} {x ptr : Ptr} {i j : Int} {f g : Int → Ptr}
  {n : Nat}

theorem entries_append :
    Entries f i (xs ++ ys) ↔ Entries f i xs ∧ Entries f (i + xs.length) ys := by
  induction xs generalizing i with
  | nil => simp [Entries]
  | cons x xs ih =>
    have shift : i + ((x :: xs).length : Nat) = i + 1 + (xs.length : Nat) := by
      rw [List.length_cons]
      omega
    rw [List.cons_append, Entries, Entries, ih, shift, and_assoc]

theorem Entries.congr (h : Entries f i xs) (same : ∀ k, i ≤ k → k < i + xs.length → g k = f k) :
    Entries g i xs := by
  induction xs generalizing i with
  | nil => trivial
  | cons x xs ih =>
    rw [List.length_cons] at same
    exact ⟨(same i (by omega) (by omega)).trans h.1,
      ih h.2 fun k lo hi => same k (by omega) (by omega)⟩

theorem get_ok (lo : 0 ≤ i) (hi : i < MAX_MALLOCS) : r.get i = .ok (r.mmRegs i) :=
  if_pos ⟨lo, hi⟩

theorem set_ok (lo : 0 ≤ i) (hi : i < MAX_MALLOCS) :
    r.set i ptr = .ok { r with mmRegs := Function.update r.mmRegs i ptr } :=
  if_pos ⟨lo, hi⟩

/-- Behind the entry that goes, every entry takes the place of the one before it. -/
theorem freesTurn_shift (ptr : Ptr) (lo : 0 ≤ i) (full : r.mmRegsQty = i + xs.length)
    (room : r.mmRegsQty < MAX_MALLOCS) (h : Entries r.mmRegs i xs) :
    ∃ r', forUp (freesTurn ptr) xs.length i (true, r) = .ok (true, r') ∧
      r'.mmRegsQty = r.mmRegsQty ∧ Entries r'.mmRegs i xs.tail ∧
      ∀ k, k < i → r'.mmRegs k = r.mmRegs k := by
  induction xs generalizing i r with
  | nil => exact ⟨r, rfl, rfl, trivial, fun _ _ => rfl⟩
  | cons x xs ih =>
    rw [List.length_cons] at full
    obtain ⟨here, rest⟩ := h
    have inside : i < MAX_MALLOCS := by omega
    -- the value that the entry gets
    obtain ⟨v, turn, hv⟩ : ∃ v, freesTurn ptr i (true, r) =
        .ok (true, { r with mmRegs := Function.update r.mmRegs i v }) ∧
        ∀ y ys, xs = y :: ys → v = y := by
      rw [freesTurn, get_ok lo inside, ok_bind, Bool.true_or]
      simp only [if_true]
      by_cases last : i ≠ r.mmRegsQty - 1
      · rw [if_pos last, get_ok (by omega) (by omega), ok_bind, set_ok lo inside, ok_bind]
        refine ⟨_, rfl, fun y ys hxs => ?_⟩
        rw [hxs] at rest
        exact rest.1
      · rw [if_neg last, set_ok lo inside, ok_bind]
        refine ⟨_, rfl, fun y ys hxs => ?_⟩
        rw [hxs, List.length_cons] at full
        omega
    have after : Entries (Function.update r.mmRegs i v) (i + 1) xs :=
      rest.congr fun k lo _ => Function.update_of_ne (by omega) _ _
    obtain ⟨r', run, qty, entries, kept⟩ :=
      ih (r := { r with mmRegs := Function.update r.mmRegs i v }) (by omega)
        (by simp only; omega) room after
    refine ⟨r', ?_, qty, ?_, fun k hk => ?_⟩
    · rw [List.length_cons, forUp, turn, ok_bind, run]
    · cases xs with
      | nil => trivial
      | cons y ys =>
        refine ⟨?_, entries⟩
        exact ((kept i (by omega)).trans (Function.update_self i v r.mmRegs)).trans (hv y ys rfl)
    · exact (kept k (by omega)).trans (Function.update_of_ne (by omega) v r.mmRegs)

/-- The loop of `processFrees` takes the first entry that is the pointer out of the array. -/
theorem freesLoop (ptr : Ptr) (lo : 0 ≤ i) (full : r.mmRegsQty = i + xs.length)
    (room : r.mmRegsQty < MAX_MALLOCS) (h : Entries r.mmRegs i xs) :
    ∃ r', forUp (freesTurn ptr) xs.length i (false, r) = .ok (decide (ptr ∈ xs), r') ∧
      r'.mmRegsQty = r.mmRegsQty ∧ Entries r'.mmRegs i (xs.erase ptr) ∧
      ∀ k, k < i → r'.mmRegs k = r.mmRegs k := by
  induction xs generalizing i r with
  | nil => exact ⟨r, rfl, rfl, trivial, fun _ _ => rfl⟩
  | cons x xs ih =>
    by_cases here : x = ptr
    · subst here
      obtain ⟨r', run, qty, entries, kept⟩ := freesTurn_shift x lo full room h
      refine ⟨r', ?_, qty, ?_, kept⟩
      · have inside : i < MAX_MALLOCS := by
          rw [List.length_cons] at full
          omega
        have same : freesTurn x i (false, r) = freesTurn x i (true, r) := by
          rw [freesTurn, freesTurn, get_ok lo inside, ok_bind, ok_bind, h.1]
          simp
        rw [List.length_cons, forUp] at run ⊢
        rw [same, run]
        simp
      · rw [List.erase_cons_head]
        exact entries
    · rw [List.length_cons] at full
      obtain ⟨first, rest⟩ := h
      have turn : freesTurn ptr i (false, r) = .ok (false, r) := by
        rw [freesTurn, get_ok lo (by omega), ok_bind, first]
        simp [here]
      obtain ⟨r', run, qty, entries, kept⟩ := ih (by omega) (by omega) room rest
      refine ⟨r', ?_, qty, ?_, fun k hk => kept k (by omega)⟩
      · rw [List.length_cons, forUp, turn, ok_bind, run]
        have : ptr ≠ x := fun e => here e.symm
        simp [this]
      · rw [List.erase_cons_tail (by simpa using here)]
        exact ⟨(kept i (by omega)).trans first, entries⟩

theorem Lists.processFrees (h : Lists r xs) (room : r.mmRegsQty < MAX_MALLOCS) (ptr : Ptr) :
    ∃ r', processFrees ptr (some r) = .ok (some r') ∧ Lists r' (xs.erase ptr) := by
  have qty := h.qty
  obtain ⟨r', run, qty', entries, -⟩ := freesLoop ptr (Int.le_refl 0)
    (by rw [qty, Int.zero_add]) room h.entries
  have loop : forLoop 0 r.mmRegsQty (freesTurn ptr) (false, r) = .ok (decide (ptr ∈ xs), r') := by
    rw [forLoop, show (r.mmRegsQty - 0).toNat = xs.length by omega, run]
  by_cases mem : ptr ∈ xs
  · refine ⟨{ r' with mmRegsQty := r'.mmRegsQty - 1 }, ?_, ?_, entries⟩
    · rw [MallocRegistry.processFrees, loop, ok_bind]
      simp only [decide_eq_true mem, if_true, pure_ok]
    · have pos := List.length_pos_of_mem mem
      simp only
      rw [List.length_erase_of_mem mem, qty', qty]
      omega
  · refine ⟨r', ?_, ?_, entries⟩
    · rw [MallocRegistry.processFrees, loop, ok_bind]
      simp only [decide_eq_false mem, Bool.false_eq_true, if_false, pure_ok]
    · rw [List.erase_of_not_mem mem, qty', qty]

theorem Lists.processMallocs (h : Lists r xs) (room : r.mmRegsQty + 1 < MAX_MALLOCS)
    (ptr : Ptr) : ∃ r', processMallocs ptr (some r) = .ok (some r') ∧ Lists r' (xs ++ [ptr]) := by
  have qty := h.qty
  refine ⟨{ mmRegs := Function.update r.mmRegs r.mmRegsQty ptr, mmRegsQty := r.mmRegsQty + 1 },
    ?_, ?_, entries_append.mpr ⟨?_, ?_, trivial⟩⟩
  · rw [MallocRegistry.processMallocs, if_neg (by omega), set_ok (by omega) (by omega)]
    rfl
  · rw [List.length_append, List.length_singleton, qty]
    rfl
  · exact h.entries.congr fun k _ hi => Function.update_of_ne (by omega) _ _
  · rw [Int.zero_add, ← qty]
    exact Function.update_self _ _ _

theorem processMallocs_full (full : r.mmRegsQty + 1 = MAX_MALLOCS) (ptr : Ptr) :
    processMallocs ptr (some r) = .ok (some r) := if_pos full

theorem killLoop (lo : 0 ≤ i) (room : i + xs.length ≤ MAX_MALLOCS) (h : Entries r.mmRegs i xs)
    (freed : List Ptr) :
    forUp (fun i freed => do
      let x ← r.get i
      pure (freed ++ [x])) xs.length i freed = .ok (freed ++ xs) := by
  induction xs generalizing i freed with
  | nil =>
    rw [List.append_nil]
    rfl
  | cons x xs ih =>
    rw [List.length_cons] at room ⊢
    rw [forUp, get_ok lo (by omega), ok_bind, pure_ok, ok_bind, h.1,
      ih (by omega) (by omega) h.2, List.append_assoc, List.singleton_append]

theorem Lists.exact (h : Lists r xs) (room : r.mmRegsQty < MAX_MALLOCS) : Exact (some r) xs := by
  have qty := h.qty
  refine ⟨r, rfl, h, ?_⟩
  rw [killFrees, forLoop, show (r.mmRegsQty - 0).toNat = xs.length by omega,
    killLoop (Int.le_refl 0) (by omega) h.entries, List.nil_append]

theorem runCalls_append (calls rest : List Call) (process : Option Registry) :
    runCalls (calls ++ rest) process = runCalls calls process >>= runCalls rest := by
  induction calls generalizing process with
  | nil => rfl
  | cons c calls ih =>
    rw [List.cons_append, runCalls, runCalls]
    cases dispatch process c with
    | error e => rfl
    | ok process => exact ih process

theorem outstanding_append (calls : List Call) (c : Call) :
    outstanding (calls ++ [c]) = holds (outstanding calls) c := by
  rw [outstanding, List.foldl_append]
  rfl

theorem forall_malloc {size : Nat} {P : Ptr → Prop} :
    (∀ size' p, Call.sys_malloc size x = .sys_malloc size' p → P p) ↔ P x := by
  refine ⟨fun h => h size x rfl, fun h size' p e => ?_⟩
  cases e
  exact h

/-- One call, in whatever state the registry is: it never holds more than 39 pointers. -/
theorem dispatch_lists (h : Lists r xs) (room : r.mmRegsQty < MAX_MALLOCS) (c : Call) :
    ∃ r' ys, dispatch (some r) c = .ok (some r') ∧ Lists r' ys ∧ r'.mmRegsQty < MAX_MALLOCS ∧
      (ys = holds xs c ↔ ∀ size p, c = .sys_malloc size p → (p ≠ NULL ↔ xs.length < 39)) := by
  have qty := h.qty
  cases c with
  | sys_free ptr =>
    obtain ⟨r', run, lists⟩ := h.processFrees room ptr
    refine ⟨r', _, run, lists, ?_, fun _ _ _ e => (by cases e), fun _ => rfl⟩
    have := (xs.erase_sublist (a := ptr)).length_le
    rw [lists.qty]
    omega
  | sys_malloc size p =>
    by_cases full : r.mmRegsQty + 1 = MAX_MALLOCS
    · refine ⟨r, xs, processMallocs_full full p, h, room, ?_⟩
      have many : ¬ xs.length < 39 := by
        rw [MAX_MALLOCS] at full
        omega
      rw [forall_malloc]
      by_cases null : p = NULL
      · simp [holds, null, many]
      · simp [holds, null, many]
    · obtain ⟨r', run, lists⟩ := h.processMallocs (by omega) p
      have few : xs.length < 39 := by
        rw [MAX_MALLOCS] at full room
        omega
      refine ⟨r', _, run, lists, ?_, ?_⟩
      · rw [lists.qty, List.length_append, List.length_singleton, MAX_MALLOCS]
        omega
      · rw [forall_malloc]
        by_cases null : p = NULL
        · simp [holds, null, few]
        · simp [holds, null, few]

theorem entries_unique (hx : Entries f i xs) (hy : Entries f i ys)
    (len : xs.length = ys.length) : xs = ys := by
  induction xs generalizing i ys with
  | nil => exact (List.length_eq_zero_iff.mp len.symm).symm
  | cons x xs ih =>
    cases ys with
    | nil => cases len
    | cons y ys => rw [← hx.1, ← hy.1, ih hx.2 hy.2 (Nat.succ.inj len)]

theorem Lists.unique (h : Lists r xs) (h' : Lists r ys) : xs = ys := by
  refine entries_unique h.entries h'.entries ?_
  have := h.qty.symm.trans h'.qty
  omega

/-- The registry of a new process; nobody has written to the array. -/
def created (mmRegs : Int → Ptr) : Registry := ⟨mmRegs, 0⟩

theorem created_room (mmRegs : Int → Ptr) : (created mmRegs).mmRegsQty < MAX_MALLOCS := by
  change (0 : Int) < 40
  omega

variable {mmRegs : Int → Ptr} {calls : List Call}

theorem runCalls_snoc {process : Option Registry} (c : Call)
    (run : runCalls calls (some (created mmRegs)) = .ok process) :
    runCalls (calls ++ [c]) (some (created mmRegs)) = dispatch process c := by
  rw [runCalls_append, run, ok_bind, runCalls]
  cases dispatch process c with
  | error e => rfl
  | ok process => rfl

/-- Whatever a process calls, its registry lists some pointers, 39 at most. -/
theorem runCalls_lists (mmRegs : Int → Ptr) (calls : List Call) :
    ∃ r xs, runCalls calls (some (created mmRegs)) = .ok (some r) ∧ Lists r xs ∧
      r.mmRegsQty < MAX_MALLOCS := by
  induction calls using List.reverseRecOn with
  | nil => exact ⟨_, [], rfl, ⟨rfl, trivial⟩, created_room mmRegs⟩
  | append_singleton calls c ih =>
    obtain ⟨r, xs, run, lists, room⟩ := ih
    obtain ⟨r', ys, step, lists', room', -⟩ := dispatch_lists lists room c
    exact ⟨r', ys, (runCalls_snoc c run).trans step, lists', room'⟩

/-- The registry of a process follows its calls as long as every block it gets is one of 39, and
no further. -/
theorem runCalls_exact_iff (mmRegs : Int → Ptr) (calls : List Call) :
    (∀ pre, pre <+: calls → ∃ process, runCalls pre (some (created mmRegs)) = .ok process ∧
      Exact process (outstanding pre)) ↔
    ∀ pre size p, pre ++ [.sys_malloc size p] <+: calls →
      (p ≠ NULL ↔ (outstanding pre).length < 39) := by
  constructor
  · intro exact pre size p within
    obtain ⟨r, xs, run, lists, room⟩ := runCalls_lists mmRegs pre
    obtain ⟨process, run', r₁, rfl, lists₁, -⟩ := exact pre ((List.prefix_append _ _).trans within)
    obtain rfl := Option.some.inj (Except.ok.inj (run.symm.trans run'))
    obtain ⟨r', ys, step, lists', -, kept⟩ := dispatch_lists lists₁ room (.sys_malloc size p)
    obtain ⟨process', run₂, r₂, rfl, lists₂, -⟩ := exact _ within
    have last := (runCalls_snoc (.sys_malloc size p) run).trans step
    obtain rfl := Option.some.inj (Except.ok.inj (last.symm.trans run₂))
    rw [outstanding_append] at lists₂
    exact kept.mp (lists'.unique lists₂) size p rfl
  · intro fits
    have inv : ∀ pre, pre <+: calls → ∃ r, runCalls pre (some (created mmRegs)) = .ok (some r) ∧
        Lists r (outstanding pre) ∧ r.mmRegsQty < MAX_MALLOCS := by
      intro pre
      induction pre using List.reverseRecOn with
      | nil => exact fun _ => ⟨_, rfl, ⟨rfl, trivial⟩, created_room mmRegs⟩
      | append_singleton pre c ih =>
        intro within
        obtain ⟨r, run, lists, room⟩ := ih ((List.prefix_append _ _).trans within)
        obtain ⟨r', ys, step, lists', room', kept⟩ := dispatch_lists lists room c
        have same : ys = holds (outstanding pre) c :=
          kept.mpr fun size p e => fits pre size p (e ▸ within)
        refine ⟨r', (runCalls_snoc c run).trans step, ?_, room'⟩
        rw [outstanding_append, ← same]
        exact lists'
    intro pre within
    obtain ⟨r, run, lists, room⟩ := inv pre within
    exact ⟨_, run, lists.exact room⟩

end

/-- Forty blocks in a row. -/
def forty : List Call := (List.range 40).map fun i => .sys_malloc 16 (4096 + 32 * i)

/-- The fortieth is not registered, and `kill` does not free it. -/
theorem fortieth_outlives : ∃ r, runCalls forty (some (created fun _ => 0)) = .ok (some r) ∧
    5344 ∈ outstanding forty ∧ (∃ freed, killFrees r = .ok freed ∧ 5344 ∉ freed) ∧
    ¬ Exact (some r) (outstanding forty) := by
  obtain ⟨r, xs, run, lists, room⟩ := runCalls_lists (fun _ => 0) forty
  have qty : (runCalls forty (some (created fun _ => 0))).toOption.map
      (fun process => process.map Registry.mmRegsQty) = some (some 39) := by decide +kernel
  have freed : (runCalls forty (some (created fun _ => 0))).toOption.map
      (fun process => process.map fun r => (killFrees r).toOption) =
      some (some (some ((List.range 39).map fun i => 4096 + 32 * i))) := by decide +kernel
  rw [run] at qty freed
  have qty : r.mmRegsQty = 39 := Option.some.inj (Option.some.inj qty)
  have freed : (killFrees r).toOption = some ((List.range 39).map fun i => 4096 + 32 * i) :=
    Option.some.inj (Option.some.inj freed)
  refine ⟨r, run, by decide +kernel, ?_, ?_⟩
  · cases hk : killFrees r with
    | error e =>
      rw [hk] at freed
      cases freed
    | ok freed' =>
      rw [hk] at freed
      obtain rfl := Option.some.inj freed
      exact ⟨_, rfl, by decide +kernel⟩
  · rintro ⟨r', same, exact, -⟩
    obtain rfl := Option.some.inj same
    have := exact.qty.symm.trans qty
    rw [show (outstanding forty).length = 40 by decide +kernel] at this
    omega

end BottlerOS.MallocRegistry
