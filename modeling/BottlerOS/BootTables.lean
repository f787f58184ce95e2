import BottlerOS.Boot

/-! The page tables of `pure64.asm`: every address below 64 GiB is mapped to itself, and once more
from 0xFFFF800000000000 on. -/

namespace BottlerOS.Boot
open Words PageWalk

section
variable {m : Bytes} {a b n k i edi eax step rdi rax w x : Nat}

/-- Two halves of an entry. -/
theorem stosd_pair (small : w < 2 ^ 32) : stosd (a + 4) 0 (stosd a w m) = store64 a w m := by
  funext x
  unfold stosd store64
  by_cases high : a + 4 ≤ x ∧ x < a + 4 + 4
  · obtain ⟨i, rfl⟩ : ∃ i, x = a + 4 + i := ⟨x - (a + 4), by omega⟩
    rw [if_pos high, if_pos (by omega), Nat.add_sub_cancel_left,
      show a + 4 + i - a = 4 + i by omega, Nat.pow_add, ← Nat.div_div_eq_div_mul,
      Nat.div_eq_of_lt (show w < 256 ^ 4 by omega), Nat.zero_div]
  · rw [if_neg high]
    by_cases low : a ≤ x ∧ x < a + 4
    · rw [if_pos low, if_pos (by omega)]
    · rw [if_neg low, if_neg (by omega)]

theorem stosd_outside (out : x < edi ∨ edi + 4 ≤ x) : stosd edi eax m x = m x :=
  if_neg (by omega)

/-- The stack is no table. -/
theorem stosd_stack (apart : a + 8 ≤ esp - 4 ∨ esp ≤ a) :
    load64 (stosd (esp - 4) eax m) a = load64 m a := by
  refine load64_congr fun x lo hi => stosd_outside ?_
  unfold esp at *
  omega

/-- One turn of the loops in 32-bit mode, but for the word on the stack. -/
theorem entry_written (small : eax < 2 ^ 32) (apart : edi + 8 ≤ esp - 4 ∨ esp ≤ edi) :
    load64 (stosd (edi + 4) 0 (stosd (esp - 4) eax (stosd edi eax m))) edi = eax := by
  have swap : stosd (edi + 4) 0 (stosd (esp - 4) eax (stosd edi eax m)) =
      stosd (esp - 4) eax (stosd (edi + 4) 0 (stosd edi eax m)) := by
    funext x
    unfold stosd esp at *
    by_cases high : edi + 4 ≤ x ∧ x < edi + 4 + 4
    · rw [if_pos high, if_neg (by omega), if_pos high]
    · rw [if_neg high, if_neg high]
  rw [swap, stosd_stack apart, stosd_pair small, load64_store64, Nat.mod_eq_of_lt (by omega)]

theorem entries_outside (out : x < edi ∨ edi + 8 * n ≤ x) (stack : x < esp - 4 ∨ esp ≤ x) :
    entries step n edi eax m x = m x := by
  induction n generalizing edi eax m with
  | zero => rfl
  | succ n ih =>
    rw [entries, ih (by omega), stosd_outside (by omega), stosd_outside (by unfold esp at *; omega),
      stosd_outside (by omega)]

/-- The entries that a loop leaves, as long as `eax` does not overflow. -/
theorem load64_entries (hi : i < n) (small : eax + i * step < 2 ^ 32)
    (apart : edi + 8 * n ≤ esp - 4 ∨ esp ≤ edi) :
    load64 (entries step n edi eax m) (edi + 8 * i) = eax + i * step := by
  induction n generalizing i edi eax m with
  | zero => omega
  | succ n ih =>
    rw [entries]
    cases i with
    | zero =>
      have kept : load64 (entries step n (edi + 8) ((eax + step) % 2 ^ 32)
          (stosd (edi + 4) 0 (stosd (esp - 4) eax (stosd edi eax m)))) (edi + 8 * 0) =
          load64 (stosd (edi + 4) 0 (stosd (esp - 4) eax (stosd edi eax m))) edi :=
        load64_congr fun x lo hi => entries_outside (by omega) (by unfold esp at *; omega)
      rw [kept, entry_written (by omega) (by omega), Nat.zero_mul, Nat.add_zero]
    | succ i =>
      rw [Nat.add_mul, Nat.one_mul] at small
      rw [Nat.mod_eq_of_lt (show eax + step < 2 ^ 32 by omega),
        show edi + 8 * (i + 1) = edi + 8 + 8 * i by omega, ih (by omega) (by omega) (by omega),
        Nat.add_mul]
      omega

theorem buildem_outside (out : x < rdi ∨ rdi + 8 * n ≤ x) : buildem n rdi rax m x = m x := by
  induction n generalizing rdi rax m with
  | zero => rfl
  | succ n ih => rw [buildem, ih (by omega), store64_of_outside (by omega)]

theorem load64_buildem (hi : i < n) (small : rax + n * 0x200000 < 2 ^ 64) :
    load64 (buildem n rdi rax m) (rdi + 8 * i) = rax + i * 0x200000 := by
  induction n generalizing i rdi rax m with
  | zero => omega
  | succ n ih =>
    rw [buildem, Nat.mod_eq_of_lt (show rax + 0x200000 < 2 ^ 64 by omega)]
    cases i with
    | zero =>
      have kept : load64 (buildem n (rdi + 8) (rax + 0x200000) (store64 rdi rax m))
          (rdi + 8 * 0) = load64 (store64 rdi rax m) rdi :=
        load64_congr fun x lo hi => buildem_outside (by omega)
      rw [kept, load64_store64, Nat.mod_eq_of_lt (by omega), Nat.zero_mul, Nat.add_zero]
    | succ i =>
      rw [show rdi + 8 * (i + 1) = rdi + 8 + 8 * i by omega, ih (by omega) (by omega)]
      omega

/-! The three levels. -/

theorem tables_pml4 (m : Bytes) (hi : i = 0 ∨ i = 256) :
    load64 (tables m) (0x2000 + 8 * i) = 0x3007 := by
  have later : load64 (tables m) (0x2000 + 8 * i) =
      load64 (stosd 0x2804 0 (stosd 0x2800 0x3007 (stosd 0x2004 0 (stosd 0x2000 0x3007
        (copy_gdt (clear 0x10000 65536 (clear 0 1024 m))))))) (0x2000 + 8 * i) := by
    refine load64_congr fun x lo hi => ?_
    rw [tables, buildem_outside (by omega), start32, pd_again,
      entries_outside (by omega) (by unfold esp; omega), create_pdpe,
      entries_outside (by omega) (by unfold esp; omega)]
  rw [later, show 0x2804 = 0x2800 + 4 from rfl, stosd_pair (by omega),
    show 0x2004 = 0x2000 + 4 from rfl, stosd_pair (by omega)]
  rcases hi with rfl | rfl
  · rw [load64_store64_apart (by omega), load64_store64]
    omega
  · rw [load64_store64]
    omega

theorem tables_pdpe (m : Bytes) (hi : i < 64) :
    load64 (tables m) (0x3000 + 8 * i) = 0x10007 + i * 0x1000 := by
  have later : load64 (tables m) (0x3000 + 8 * i) =
      load64 (create_pdpe 0x3000 0x10007 (stosd 0x2804 0 (stosd 0x2800 0x3007 (stosd 0x2004 0
        (stosd 0x2000 0x3007 (copy_gdt (clear 0x10000 65536 (clear 0 1024 m))))))))
        (0x3000 + 8 * i) := by
    refine load64_congr fun x lo hi => ?_
    rw [tables, buildem_outside (by omega), start32, pd_again,
      entries_outside (by omega) (by unfold esp; omega)]
  rw [later, create_pdpe]
  exact load64_entries hi (by omega) (by unfold esp; omega)

theorem tables_pde (m : Bytes) (hi : i < 32768) :
    load64 (tables m) (0x10000 + 8 * i) = 0x8F + i * 0x200000 := by
  by_cases low : i < 2048
  · have later : load64 (tables m) (0x10000 + 8 * i) =
        load64 (start32 m) (0x10000 + 8 * i) :=
      load64_congr fun x lo hi => buildem_outside (by omega)
    rw [later, start32, pd_again]
    exact load64_entries low (by omega) (by unfold esp; omega)
  · obtain ⟨j, rfl⟩ : ∃ j, i = 2048 + j := ⟨i - 2048, by omega⟩
    rw [show 0x10000 + 8 * (2048 + j) = 0x14000 + 8 * j by omega, tables,
      load64_buildem (by omega) (by omega)]
    omega

theorem frame_table (e : Nat) : frame 12 e = e / 4096 % 1099511627776 * 4096 := by simp [frame]

theorem frame_page (e : Nat) : frame 21 e = e / 2097152 % 2147483648 * 2097152 := by simp [frame]

/-- A table of the third level. -/
theorem pdpe_bits (j : Nat) (hj : j < 64) : Present (0x10007 + j * 0x1000) ∧
    ¬ Large (0x10007 + j * 0x1000) ∧ frame 12 (0x10007 + j * 0x1000) = 0x10000 + j * 0x1000 := by
  rw [frame_table]
  unfold Present Large
  omega

/-- A page of 2 MiB. -/
theorem pde_bits (i : Nat) (hi : i < 32768) : Present (0x8F + i * 0x200000) ∧
    Large (0x8F + i * 0x200000) ∧ frame 21 (0x8F + i * 0x200000) = i * 0x200000 := by
  rw [frame_page]
  unfold Present Large
  omega

/-- The walk from either entry of the first level. -/
theorem walk_tables (m : Bytes) {v : Nat} (canonical : Canonical v)
    (first : v / 2 ^ 39 % 512 = 0 ∨ v / 2 ^ 39 % 512 = 256) (below : v % 2 ^ 39 < 2 ^ 36) :
    walk (tables m) cr3 v = some (v % 2 ^ 39) := by
  have hj : v / 2 ^ 30 % 512 < 64 := by omega
  have hi : v % 2 ^ 39 / 2 ^ 21 < 32768 := by omega
  have same : 0x10000 + v / 2 ^ 30 % 512 * 0x1000 + 8 * (v / 2 ^ 21 % 512) =
      0x10000 + 8 * (v % 2 ^ 39 / 2 ^ 21) := by omega
  have whole : v % 2 ^ 39 / 2 ^ 21 * 0x200000 + v % 2 ^ 21 = v % 2 ^ 39 := by omega
  obtain ⟨present₂, table, base⟩ := pdpe_bits _ hj
  obtain ⟨present₃, large, page⟩ := pde_bits _ hi
  have one : entryOf (tables m) (frame 12 cr3) 39 v = 0x3007 := tables_pml4 m first
  have two : entryOf (tables m) (frame 12 0x3007) 30 v = 0x10007 + v / 2 ^ 30 % 512 * 0x1000 :=
    tables_pdpe m hj
  have three : entryOf (tables m) (frame 12 (0x10007 + v / 2 ^ 30 % 512 * 0x1000)) 21 v =
      0x8F + v % 2 ^ 39 / 2 ^ 21 * 0x200000 := by
    rw [base, entryOf, same]
    exact tables_pde m hi
  rw [walk_large canonical one two three (by decide) present₂ present₃ table large, page, whole]

/-- Whatever was in memory, each address below 64 GiB is mapped to itself, and a second time in
the higher half. -/
theorem tables_identity (m : Bytes) (v : Nat) (below : v < 64 * 2 ^ 30) :
    walk (tables m) cr3 v = some v ∧ walk (tables m) cr3 (0xFFFF800000000000 + v) = some v := by
  have low : v % 2 ^ 39 = v := by omega
  have high : (0xFFFF800000000000 + v) % 2 ^ 39 = v := by omega
  constructor
  · rw [walk_tables m (.inl (by omega)) (.inl (by omega)) (by omega), low]
  · rw [walk_tables m (.inr (by omega)) (.inr (by omega)) (by omega), high]

theorem tables_identity_kernel : walk (tables fun _ => 0xFF) cr3 0x100000 = some 0x100000 :=
  (tables_identity (fun _ => 0xFF) 0x100000 (by decide)).1

end

end BottlerOS.Boot
