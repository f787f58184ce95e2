import BottlerOS.Machine
import BottlerOS.Library.ByteMemory

/-! The image file: `Toolchain/ModulePacker/main.c` writes it, `Kernel/moduleLoader.c` unpacks
what follows the kernel in it, with `memcpy` of `Kernel/lib.c`. A file is its bytes, and the
target is a file of its own. -/

namespace BottlerOS.PackedImage
open Machine ByteMemory

abbrev File := List UInt8

/-- `array_t`; its length is an `int`. -/
structure ArrayT where
  array : List File
  small : (array.length : Int) ≤ INT_MAX

def ArrayT.length (fileArray : ArrayT) : Int := fileArray.array.length

def ArrayT.get (fileArray : ArrayT) (i : Int) : C File :=
  match fileArray.array[i.toNat]? with
  | none => .error .outOfBounds
  | some file => .ok file

def BUFFER_SIZE : Nat := 128

/-- A stream that has been opened for reading. -/
structure Source where
  data : File
  pos : Nat
  eof : Bool

def fopen (file : File) : Source := ⟨file, 0, false⟩

/-- `fread(buffer, 1, n, source)`: reading past the end sets the end-of-file indicator. -/
def fread (n : Nat) (source : Source) : List UInt8 × Source :=
  let buffer := (source.data.drop source.pos).take n
  (buffer, { source with
    pos := source.pos + buffer.length
    eof := source.eof || decide (buffer.length < n) })

def write_file : (fuel : Nat) → (target : List UInt8) → Source → C (List UInt8)
  | 0, _, _ => .error .hang
  | fuel + 1, target, source =>
      if source.eof then pure target
      else
        let (buffer, source) := fread BUFFER_SIZE source
        write_file fuel (target ++ buffer) source

/-- `st.st_size` goes through a `uint32_t`. -/
def write_size (target : List UInt8) (file : File) : List UInt8 :=
  let size := (uint32 file.length).toNat
  target ++ le32 size

/-- `buildImage`: its result, and what it has written; `opens` says whether the target could be
opened. -/
def buildImage (fuel : Nat) (opens : Bool) (fileArray : ArrayT) : C (Bool × List UInt8) :=
  if !opens then pure (false, []) else do
    let kernel ← fileArray.get 0
    let target ← write_file fuel [] (fopen kernel)
    let extraBinaries := fileArray.length - 1
    let target := target ++ le32 (uint32 extraBinaries).toNat
    let target ← forLoop 1 fileArray.length (fun i target => do
      let file ← fileArray.get i
      write_file fuel (write_size target file) (fopen file)) target
    pure (true, target)

/-- The loop of `memcpy` over words. -/
def copyWords (destination source : Nat) : (n i : Nat) → Memory → Memory
  | 0, _, m => m
  | n + 1, i, m =>
      let (w, m) := m.load32 (source + 4 * i)
      copyWords destination source n (i + 1) (m.store32 (destination + 4 * i) w)

/-- The loop of `memcpy` over bytes. -/
def copyBytes (destination source : Nat) : (n i : Nat) → Memory → Memory
  | 0, _, m => m
  | n + 1, i, m =>
      let (b, m) := m.load (source + i)
      copyBytes destination source n (i + 1) (m.store (destination + i) b)

def memcpy (destination source length : Nat) (m : Memory) : Memory :=
  if destination % 4 = 0 ∧ source % 4 = 0 ∧ length % 4 = 0 then
    copyWords destination source (length / 4) 0 m
  else copyBytes destination source length 0 m

/-- `readUint32`: the word, and the address behind it. -/
def readUint32 (address : Nat) (m : Memory) : Nat × Nat × Memory :=
  let (result, m) := m.load32 address
  (result, address + 4, m)

def loadModule (module target : Nat) (m : Memory) : Nat × Memory :=
  let (moduleSize, module, m) := readUint32 module m
  let m := memcpy target module moduleSize m
  (module + moduleSize, m)

/-- The loop of `loadModules`, `n` modules before its end. -/
def loadModulesFrom (targetModuleAddress : List Nat) :
    (n i currentModule : Nat) → Memory → C Memory
  | 0, _, _, m => pure m
  | n + 1, i, currentModule, m =>
      match targetModuleAddress[i]? with
      | none => .error .outOfBounds
      | some target =>
          let (currentModule, m) := loadModule currentModule target m
          loadModulesFrom targetModuleAddress n (i + 1) currentModule m

def loadModules (payloadStart : Nat) (targetModuleAddress : List Nat) (m : Memory) : C Memory :=
  let (moduleCount, currentModule, m) := readUint32 payloadStart m
  loadModulesFrom targetModuleAddress moduleCount 0 currentModule m

/-! The packer. -/

/-- A module in the image: its size and its bytes. -/
def entry (file : File) : List UInt8 := le32 file.length ++ file

/-- What follows the kernel. -/
def payload (modules : List File) : List UInt8 :=
  le32 modules.length ++ modules.flatMap entry

section
variable {fuel : Nat} {target : List UInt8} {source : Source} {file : File} {modules : List File}

/-- The whole rest of the source goes to the target, in pieces of 128 bytes. -/
theorem write_file_rest (open_ : source.eof = false)
    (enough : (source.data.drop source.pos).length + 2 ≤ fuel) :
    write_file fuel target source = .ok (target ++ source.data.drop source.pos) := by
  induction fuel generalizing target source with
  | zero => omega
  | succ fuel ih =>
    have take := List.length_take (i := BUFFER_SIZE) (l := source.data.drop source.pos)
    rw [write_file, open_, if_neg (by simp), fread]
    by_cases last : (source.data.drop source.pos).length < BUFFER_SIZE
    · obtain ⟨fuel, rfl⟩ : ∃ k, fuel = k + 1 := ⟨fuel - 1, by omega⟩
      rw [List.take_of_length_le (by omega)]
      simp only [open_, last, decide_true, Bool.or_true, write_file, if_true, pure_ok]
    · have full : ((source.data.drop source.pos).take BUFFER_SIZE).length = BUFFER_SIZE := by
        omega
      have rest := List.take_append_drop BUFFER_SIZE (source.data.drop source.pos)
      rw [List.drop_drop] at rest
      have short : (source.data.drop (source.pos + BUFFER_SIZE)).length + BUFFER_SIZE =
          (source.data.drop source.pos).length := by
        rw [List.length_drop, List.length_drop] at *
        omega
      simp only [full]
      rw [ih (by simp [open_]) (by
        have size : BUFFER_SIZE = 128 := rfl
        change (source.data.drop (source.pos + BUFFER_SIZE)).length + 2 ≤ fuel
        omega)]
      change Except.ok (target ++ _ ++ source.data.drop (source.pos + BUFFER_SIZE)) = _
      rw [List.append_assoc, rest]

theorem write_file_fopen (target : List UInt8) (enough : file.length + 2 ≤ fuel) :
    write_file fuel target (fopen file) = .ok (target ++ file) :=
  write_file_rest rfl enough

theorem write_size_le32 (small : file.length < 2 ^ 32) :
    write_size target file = target ++ le32 file.length := by
  rw [write_size, uint32_of_range (by omega) (by omega)]
  rfl

theorem get_split {fileArray : ArrayT} {pre rest : List File}
    (split : fileArray.array = pre ++ file :: rest) : fileArray.get pre.length = .ok file := by
  simp [ArrayT.get, split]

/-- The loop of `buildImage` from its turn `pre.length` on. -/
theorem forUp_entries (target : List UInt8) {fileArray : ArrayT} (pre : List File)
    {rest : List File}
    (split : fileArray.array = pre ++ rest) (sizes : ∀ f ∈ rest, f.length < 2 ^ 32)
    (enough : ∀ f ∈ rest, f.length + 2 ≤ fuel) :
    forUp (fun i target => do
      let file ← fileArray.get i
      write_file fuel (write_size target file) (fopen file)) rest.length pre.length target =
      .ok (target ++ rest.flatMap entry) := by
  induction rest generalizing pre target with
  | nil => simp [forUp]
  | cons file rest ih =>
    have next : fileArray.array = (pre ++ [file]) ++ rest := by simpa using split
    have one := write_file_fopen (write_size target file) (enough file (by simp))
    have index : ((pre ++ [file]).length : Int) = pre.length + 1 := by simp
    rw [List.length_cons, forUp, get_split split, ok_bind, one, ok_bind, ← index,
      ih _ _ next (fun f hf => sizes f (List.mem_cons_of_mem _ hf))
        (fun f hf => enough f (List.mem_cons_of_mem _ hf)),
      write_size_le32 (sizes file (by simp)), List.flatMap_cons, entry]
    simp only [List.append_assoc]

/-- The image is the kernel and the payload. -/
theorem buildImage_payload {fileArray : ArrayT} {kernel : File}
    (packed : fileArray.array = kernel :: modules) (sizes : ∀ f ∈ modules, f.length < 2 ^ 32) :
    ∃ fuel, buildImage fuel true fileArray = .ok (true, kernel ++ payload modules) := by
  obtain ⟨fuel, enough⟩ : ∃ fuel, ∀ f ∈ kernel :: modules, f.length + 2 ≤ fuel := by
    generalize kernel :: modules = files
    induction files with
    | nil => exact ⟨0, by simp⟩
    | cons file files ih =>
      obtain ⟨fuel, enough⟩ := ih
      refine ⟨fuel + file.length + 2, fun f hf => ?_⟩
      rcases List.mem_cons.mp hf with rfl | hf
      · omega
      · have := enough f hf
        omega
  have split : fileArray.array = [] ++ kernel :: modules := packed
  have count : fileArray.length = modules.length + 1 := by
    rw [ArrayT.length, packed, List.length_cons]
    omega
  have small := fileArray.small
  rw [← ArrayT.length, count, INT_MAX] at small
  have loop := forUp_entries (kernel ++ le32 (uint32 (fileArray.length - 1)).toNat) [kernel] packed
    sizes (fun f hf => enough f (List.mem_cons_of_mem _ hf))
  refine ⟨fuel, ?_⟩
  have first := write_file_fopen [] (enough kernel (by simp))
  have turns : (fileArray.length - 1).toNat = modules.length := by omega
  rw [List.nil_append] at first
  rw [buildImage, if_neg (by simp), show (0 : Int) = ([] : List File).length from rfl,
    get_split split, ok_bind, first, ok_bind]
  simp only [forLoop, turns]
  rw [show (1 : Int) = [kernel].length from rfl] at loop ⊢
  rw [loop, ok_bind]
  rw [payload, show (uint32 (fileArray.length - [kernel].length)).toNat = modules.length by
    rw [count, List.length_singleton, uint32_of_range (by omega) (by omega)]
    omega, List.append_assoc]
  rfl

end

/-! `memcpy`, with nothing of the source in the destination. -/

section
variable {m : Memory} {d s n i : Nat} {bs : List UInt8}

theorem copyBytes_overlaid (size : bs.length = n) (stored : Stored m.bytes (s + i) bs)
    (apart : Apart (d + i) n (s + i) n) :
    Overlaid m.bytes (copyBytes d s n i m).bytes (d + i) bs ∧
      (copyBytes d s n i m).reads = m.reads ++ List.range' (s + i) n := by
  induction n generalizing m i bs with
  | zero =>
    obtain rfl := List.length_eq_zero_iff.mp size
    exact ⟨Overlaid.refl, by simp [copyBytes]⟩
  | succ n ih =>
    obtain ⟨b, rest, rfl⟩ := List.exists_cons_of_length_eq_add_one size
    obtain ⟨here, behind⟩ := stored
    have one := overlaid_store { m with reads := m.reads ++ [s + i] } (d + i) b
    have size' : rest.length = n := by simpa using size
    have still : Stored _ (s + i + 1) rest := one.keeps
      (apart.symm.mono (by omega) (by omega) (by omega) (by simp)) behind
    obtain ⟨copied, reads⟩ := ih (i := i + 1) size' still
      (apart.mono (by omega) (by omega) (by omega) (by omega))
    rw [copyBytes]
    simp only [Memory.load, here]
    refine ⟨show Overlaid _ _ _ ([b] ++ rest) from one.append copied, reads.trans ?_⟩
    rw [List.range'_succ]
    simp [Memory.store, Nat.add_assoc]

theorem copyWords_overlaid (size : bs.length = 4 * n) (stored : Stored m.bytes (s + 4 * i) bs)
    (apart : Apart (d + 4 * i) (4 * n) (s + 4 * i) (4 * n)) :
    Overlaid m.bytes (copyWords d s n i m).bytes (d + 4 * i) bs ∧
      (copyWords d s n i m).reads = m.reads ++ List.range' (s + 4 * i) (4 * n) := by
  induction n generalizing m i bs with
  | zero =>
    obtain rfl := List.length_eq_zero_iff.mp size
    exact ⟨Overlaid.refl, by simp [copyWords]⟩
  | succ n ih =>
    obtain ⟨b₀, b₁, b₂, b₃, rest, rfl⟩ :
        ∃ b₀ b₁ b₂ b₃ rest, bs = b₀ :: b₁ :: b₂ :: b₃ :: rest := by
      match bs, size with
      | b₀ :: b₁ :: b₂ :: b₃ :: rest, _ => exact ⟨b₀, b₁, b₂, b₃, rest, rfl⟩
      | [], size | [_], size | [_, _], size | [_, _, _], size =>
        simp only [List.length_cons, List.length_nil] at size
        omega
    have size' : rest.length = 4 * n := by
      simp only [List.length_cons] at size
      omega
    obtain ⟨word, behind⟩ := stored_append.mp
      (show Stored m.bytes (s + 4 * i) ([b₀, b₁, b₂, b₃] ++ rest) from stored)
    have one := overlaid_store32 { m with reads := m.reads ++ List.range' (s + 4 * i) 4 }
      (d + 4 * i) (m.load32 (s + 4 * i)).1
    rw [load32_bytes word] at one
    have still : Stored _ (s + 4 * (i + 1)) rest := one.keeps
      (apart.symm.mono (by omega) (by omega) (by omega) (by simp)) behind
    obtain ⟨copied, reads⟩ := ih (i := i + 1) size' still
      (apart.mono (by omega) (by omega) (by omega) (by omega))
    rw [copyWords]
    refine ⟨show Overlaid _ _ _ ([b₀, b₁, b₂, b₃] ++ rest) from one.append copied, reads.trans ?_⟩
    rw [show 4 * (n + 1) = 4 + 4 * n by omega, ← List.range'_append]
    simp [Memory.store32, Nat.add_assoc, Nat.mul_add]

/-- The bytes arrive, nothing else changes, and exactly the source is read. -/
theorem memcpy_overlaid (stored : Stored m.bytes s bs) (apart : Apart d bs.length s bs.length) :
    Overlaid m.bytes (memcpy d s bs.length m).bytes d bs ∧
      (memcpy d s bs.length m).reads = m.reads ++ List.range' s bs.length := by
  unfold memcpy
  split <;> rename_i aligned
  · have words : bs.length = 4 * (bs.length / 4) := by omega
    rw [words] at apart
    have copied := copyWords_overlaid (i := 0) words stored apart
    rw [← words] at copied
    exact copied
  · exact copyBytes_overlaid (i := 0) rfl stored apart

end

/-! The loader. -/

/-- The address is in the region of a module. -/
def Within (a : Nat) (x : Nat × File) : Prop := x.1 ≤ a ∧ a < x.1 + x.2.length

section
variable {m : Memory} {cur : Nat} {file : File}

theorem loadModule_overlaid (target : Nat) (small : file.length < 2 ^ 32)
    (stored : Stored m.bytes cur (entry file))
    (apart : Apart target file.length cur (entry file).length) :
    ∃ m', loadModule cur target m = (cur + (entry file).length, m') ∧
      Overlaid m.bytes m'.bytes target file ∧
      m'.reads = m.reads ++ List.range' cur (entry file).length := by
  obtain ⟨size, bytes⟩ := stored_append.mp stored
  have length : (entry file).length = 4 + file.length := List.length_append
  have read := load32_stored small size
  obtain ⟨copied, reads⟩ := memcpy_overlaid (m := (m.load32 cur).2) (d := target) bytes
    (apart.mono (by omega) (by omega) (by simp) (by rw [length, le32_length]; omega))
  refine ⟨memcpy target (cur + 4) file.length (m.load32 cur).2, ?_, copied, ?_⟩
  · simp only [loadModule, readUint32, read, length, Nat.add_assoc]
  · rw [length, ← List.range'_append]
    exact reads.trans (by simp [Memory.load32, le32_length])

/-- The modules from turn `pre.length` on. -/
theorem loadModulesFrom_loads {targets pre : List Nat} {pairs : List (Nat × File)}
    (split : targets = pre ++ pairs.map Prod.fst) (sizes : ∀ x ∈ pairs, x.2.length < 2 ^ 32)
    (stored : Stored m.bytes cur (pairs.flatMap fun x => entry x.2))
    (separate : pairs.Pairwise fun x y => Apart x.1 x.2.length y.1 y.2.length)
    (off : ∀ x ∈ pairs, Apart x.1 x.2.length cur (pairs.flatMap fun x => entry x.2).length) :
    ∃ m', loadModulesFrom targets pairs.length pre.length cur m = .ok m' ∧
      (∀ x ∈ pairs, Stored m'.bytes x.1 x.2) ∧
      (∀ a, (∀ x ∈ pairs, ¬ Within a x) → m'.bytes a = m.bytes a) ∧
      m'.reads = m.reads ++ List.range' cur (pairs.flatMap fun x => entry x.2).length := by
  induction pairs generalizing m cur pre with
  | nil => exact ⟨m, rfl, by simp, fun a _ => rfl, by simp⟩
  | cons x pairs ih =>
    obtain ⟨target, file⟩ := x
    obtain ⟨others, separate⟩ := List.pairwise_cons.mp separate
    simp only [List.flatMap_cons] at stored ⊢
    rw [List.length_append]
    obtain ⟨here, behind⟩ : Stored m.bytes cur (entry file) ∧
        Stored m.bytes (cur + (entry file).length) (pairs.flatMap fun x => entry x.2) :=
      stored_append.mp stored
    have off : ∀ x ∈ (target, file) :: pairs, Apart x.1 x.2.length cur
        ((entry file).length + (pairs.flatMap fun x => entry x.2).length) := by
      simpa only [List.flatMap_cons, List.length_append] using off
    have small : file.length < 2 ^ 32 := sizes _ List.mem_cons_self
    obtain ⟨m₁, run₁, copied, reads₁⟩ := loadModule_overlaid target small here
      ((off _ List.mem_cons_self).mono (by simp) (by simp) (by simp) (by omega))
    have still : Stored m₁.bytes (cur + (entry file).length)
        (pairs.flatMap fun x => entry x.2) := copied.keeps
      ((off _ List.mem_cons_self).symm.mono (by omega) (by omega) (by simp) (by simp)) behind
    have split' : targets = (pre ++ [target]) ++ pairs.map Prod.fst := by simpa using split
    obtain ⟨m₂, run₂, loaded, rest, reads₂⟩ := ih split'
      (fun y hy => sizes y (List.mem_cons_of_mem _ hy)) still separate
      (fun y hy => (off y (List.mem_cons_of_mem _ hy)).mono (by simp) (by simp) (by omega)
        (by omega))
    refine ⟨m₂, ?_, ?_, fun a out => ?_, ?_⟩
    · have index : targets[pre.length]? = some target := by simp [split]
      rw [List.length_cons, loadModulesFrom, index]
      simp only [run₁]
      rw [List.length_append, List.length_singleton] at run₂
      exact run₂
    · intro y hy
      rcases List.mem_cons.mp hy with rfl | hy
      -- the modules behind it leave this one alone
      · exact copied.stored.congr fun a lo hi =>
          rest a fun z hz inside => others z hz a lo hi inside
      · exact loaded y hy
    · rw [rest a fun y hy => out y (List.mem_cons_of_mem _ hy)]
      exact copied.rest a (out _ List.mem_cons_self)
    · rw [reads₂, reads₁, List.append_assoc, ← List.range'_append]
      simp

/-- For every kernel and every list of modules shorter than 4 GiB: the image begins with the
kernel, and wherever the rest of it lies in memory, unpacking it into regions that have nothing
in common with each other or with it leaves each module at its address, changes nothing else and
reads exactly the bytes of that rest, in order. -/
theorem image_roundTrip (fileArray : ArrayT) (kernel : File) (modules : List File)
    (packed : fileArray.array = kernel :: modules) (sizes : ∀ f ∈ modules, f.length < 2 ^ 32) :
    ∃ fuel image, buildImage fuel true fileArray = .ok (true, image) ∧
      image.take kernel.length = kernel ∧
      ∀ (targets : List Nat) (payloadStart : Nat) (m : Memory),
        targets.length = modules.length →
        Stored m.bytes payloadStart (image.drop kernel.length) →
        (targets.zip modules).Pairwise (fun x y => Apart x.1 x.2.length y.1 y.2.length) →
        (∀ x ∈ targets.zip modules,
          Apart x.1 x.2.length payloadStart (image.drop kernel.length).length) →
        ∃ m', loadModules payloadStart targets m = .ok m' ∧
          (∀ x ∈ targets.zip modules, Stored m'.bytes x.1 x.2) ∧
          (∀ a, (∀ x ∈ targets.zip modules, ¬ Within a x) → m'.bytes a = m.bytes a) ∧
          m'.reads = m.reads ++ List.range' payloadStart (image.drop kernel.length).length := by
  obtain ⟨fuel, image⟩ := buildImage_payload packed sizes
  refine ⟨fuel, _, image, List.take_left,
    fun targets payloadStart m asMany stored separate off => ?_⟩
  rw [List.drop_left] at stored off ⊢
  obtain ⟨count, bytes⟩ := stored_append.mp stored
  have length : (payload modules).length = 4 + (modules.flatMap entry).length :=
    List.length_append
  have fits : modules.length < 2 ^ 32 := by
    have small := fileArray.small
    rw [packed, List.length_cons, INT_MAX] at small
    omega
  have firsts : (targets.zip modules).map Prod.fst = targets :=
    List.map_fst_zip (Nat.le_of_eq asMany)
  have seconds : (targets.zip modules).flatMap (fun x => entry x.2) = modules.flatMap entry := by
    rw [← List.flatMap_map, List.map_snd_zip (Nat.le_of_eq asMany.symm)]
  obtain ⟨m', run, loaded, rest, reads⟩ := loadModulesFrom_loads
    (m := (m.load32 payloadStart).2)
    (show targets = [] ++ (targets.zip modules).map Prod.fst from firsts.symm)
    (fun x hx => sizes x.2 (List.of_mem_zip hx).2)
    (show Stored m.bytes (payloadStart + 4) _ by rw [seconds]; exact bytes) separate
    (fun x hx => (off x hx).mono (by simp) (by simp) (by omega) (by rw [seconds]; omega))
  refine ⟨m', ?_, loaded, rest, ?_⟩
  · rw [List.length_zip, asMany, Nat.min_self] at run
    simp only [loadModules, readUint32, load32_stored fits count]
    exact run
  · rw [reads, seconds, length, ← List.range'_append]
    simp [Memory.load32]

end

/-- A kernel of one byte and two modules, the second one empty, unpacked below the payload. -/
theorem image_roundTrip_two : ∃ fuel image m',
    buildImage fuel true ⟨[[7], [1, 2, 3], []], by decide⟩ = .ok (true, image) ∧
      loadModules 100 [0, 3] ⟨fun a => ((image.drop 1)[a - 100]?).getD 0, []⟩ = .ok m' ∧
      Stored m'.bytes 0 [1, 2, 3] := by
  obtain ⟨fuel, image, built, -, loads⟩ := image_roundTrip ⟨[[7], [1, 2, 3], []], by decide⟩ [7]
    [[1, 2, 3], []] rfl (by decide)
  obtain ⟨m', run, loaded, -⟩ := loads [0, 3] 100 ⟨fun a => ((image.drop 1)[a - 100]?).getD 0, []⟩
    rfl (Stored.of_get fun i h => by
      change ((image.drop 1)[100 + i - 100]?).getD 0 = _
      rw [Nat.add_sub_cancel_left]
      exact congrArg (Option.getD · 0) (List.getElem?_eq_getElem h))
    (by simp [Apart])
    (by
      intro x hx a lo hi inside
      have low : ∀ y ∈ [0, 3].zip [[1, 2, 3], ([] : File)], y.1 + y.2.length ≤ 3 := by decide
      have := low x hx
      omega)
  exact ⟨fuel, image, m', built, run, loaded (0, [1, 2, 3]) (by simp)⟩

end BottlerOS.PackedImage
