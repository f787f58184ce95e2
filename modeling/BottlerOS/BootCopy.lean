import BottlerOS.Boot

/-! What the boot record and `pure64.asm` copy: 256 KiB of the disk behind its directory to
0x60000, and of these the part behind Pure64 to 0x100000. -/

namespace BottlerOS.Boot
open Words ByteMemory

section
variable {disk m m' : Bytes} {r : Regs} {n a b k i ax cx fs es bx rsi rdi x : Nat}

theorem number_shift (same : ∀ i, i < k → m' (b + i) = m (a + i)) :
    number m' k b = number m k a := by
  induction k generalizing a b with
  | zero => rfl
  | succ k ih =>
    rw [number, number, show m' b = m a from same 0 (by omega), ih fun i hi => ?_]
    rw [Nat.add_assoc, Nat.add_assoc, Nat.add_comm 1]
    exact same (i + 1) (by omega)

theorem shift {p q : Nat} (le : q + k ≤ x) : p + k + (x - (q + k)) = p + (x - q) := by omega

/-! The boot record. -/

/-- Where the next sector goes: behind the last one, also over the end of a segment. -/
structure Loading (r : Regs) (p sector : Nat) : Prop where
  aligned : r.cx % 512 = 0
  small : r.cx < 65536
  segment : r.es % 4096 = 0
  at_ : 16 * r.es + r.cx = p
  sector : r.ebx = sector

theorem Loading.next {p sector : Nat} (disk m : Bytes) (loading : Loading r p sector) (room : p + 512 < 1048576)
    (sectors : sector + 1 < 4294967296) :
    Loading (readsector disk r m).1 (p + 512) (sector + 1) := by
  obtain ⟨aligned, small, segment, at_, here⟩ := loading
  have ebx : (readsector disk r m).1.ebx = (r.ebx + 1) % 4294967296 := by simp only [readsector]
  have cx : (readsector disk r m).1.cx = (r.cx + 512) % 65536 := by simp only [readsector]
  have es : (readsector disk r m).1.es =
      if 65536 ≤ r.cx + 512 then (r.es / 256 + 16) % 256 * 256 + r.es % 256 else r.es := by
    simp only [readsector, nextSegment]
  generalize (readsector disk r m).1 = r' at ebx cx es
  constructor <;> split at es <;> omega

/-- The sectors lie in memory one behind the other. -/
theorem load_nextsector_bytes {p sector : Nat} (loading : Loading r p sector)
    (room : p + 512 * n < 1048576) (sectors : sector + n < 4294967296) :
    (load_nextsector disk n r m).2 x =
      if p ≤ x ∧ x < p + 512 * n then disk (512 * sector + (x - p)) else m x := by
  induction n generalizing r m p sector with
  | zero => rw [load_nextsector, if_neg (by omega)]
  | succ n ih =>
    rw [Nat.mul_succ, ← Nat.add_assoc] at room ⊢
    have next := loading.next disk m (by omega) (by omega)
    have bytes : (readsector disk r m).2 x =
        if p ≤ x ∧ x < p + 512 then disk (512 * sector + (x - p)) else m x := by
      simp only [readsector, linear, loading.at_, loading.sector]
    rw [load_nextsector]
    generalize readsector disk r m = out at next bytes
    dsimp only
    rw [ih next (by omega) (by omega), bytes]
    by_cases later : p + 512 ≤ x ∧ x < p + 512 + 512 * n
    · rw [if_pos later, if_pos (by omega), Nat.mul_succ, shift later.1]
    · rw [if_neg later]
      by_cases here : p ≤ x ∧ x < p + 512
      · rw [if_pos here, if_pos (by omega)]
      · rw [if_neg here, if_neg (by omega)]

/-- The first 256 KiB behind the directory, as the boot record reads them. -/
theorem loaded_bytes : (load_nextsector disk 512 ⟨16, 0x8000, 0⟩ m).2 x =
    if 0x8000 ≤ x ∧ x < 0x48000 then disk (8192 + (x - 0x8000)) else m x := by
  have loading : Loading ⟨16, 0x8000, 0⟩ 0x8000 16 :=
    ⟨by decide, by decide, by decide, by decide, rfl⟩
  rw [load_nextsector_bytes loading (by decide) (by decide)]

theorem loaded_word : number (load_nextsector disk 512 ⟨16, 0x8000, 0⟩ m).2 4 0x8000 =
    number disk 4 8192 := by
  have bytes (x : Nat) := @loaded_bytes disk m x
  generalize (load_nextsector disk 512 ⟨16, 0x8000, 0⟩ m).2 = m' at bytes
  refine number_shift fun i hi => ?_
  rw [bytes, if_pos (by omega), Nat.add_sub_cancel_left]

theorem bmfs_mbr_eq : bmfs_mbr disk m = if number disk 4 8192 = magic then
    some (copy_payload_to_free_mem 4 0x0800 0x6000
      (load_nextsector disk 512 ⟨16, 0x8000, 0⟩ m).2) else none := by
  rw [← loaded_word (m := m)]
  unfold bmfs_mbr
  generalize load_nextsector disk 512 ⟨16, 0x8000, 0⟩ m = out
  rfl

/-- Without it the machine halts. -/
theorem bmfs_mbr_halts (other : number disk 4 8192 ≠ magic) : bmfs_mbr disk m = none :=
  bmfs_mbr_eq.trans (if_neg other)

/-! The copy of the kernel. -/

end

end BottlerOS.Boot
