import BottlerOS.ContextSwitch

/-! A system call on one processor: what `_systemCallsHandler` gives back. -/

namespace BottlerOS.Interrupts
open X86 Words

section
variable {X Y : Type} {u : Units X Y} {callee : Function → Machine X Y → Machine X Y}
  {m : Machine X Y} {data : Data} {a b x : Nat} {r : Reg}

/-- The word at `a` is outside of what the handler has on the stack. -/
def Apart (b a : Nat) : Prop := a + 8 ≤ fpuArea b - 8 ∨ b + 152 ≤ a

/-- What `saveFPU` has done. -/
structure FPUSaved (u : Units X Y) (data : Data) (m m' : Machine X Y) (b : Nat) : Prop where
  rsp : m'.reg .rsp = fpuArea b - 8
  pointer : load64 m'.mem (fpuArea b - 8) = b
  image : loadBytes m'.mem (fpuArea b) 108 = u.fsave m.x87
  above : ∀ x, b ≤ x → x < b + 152 → m'.mem x = m.mem x
  others : ∀ r, r ≠ .rsp → m'.reg r = m.reg r
  sse : m'.sse = m.sse

theorem saveFPU_saved (here : m.reg .rsp = b) (wide : 1024 ≤ b) (apart : Apart b data.auxRSI) :
    FPUSaved u data m (run u callee (saveFPU data) m) b := by
  subst here
  obtain ⟨low, high⟩ := fpuArea_bounds wide
  have at_ := computed wide (m.small .rsp)
  have small := m.small .rsp
  rw [Apart] at apart
  simp only [saveFPU, run]
  generalize e₁ : exec u callee m (.store data.auxRSI .rsi) = m₁
  generalize e₂ : exec u callee m₁ (.mov .rsi .rsp) = m₂
  generalize e₃ : exec u callee m₂ (.andNeg .rsp 16) = m₃
  generalize e₄ : exec u callee m₃ (.sub .rsp 108) = m₄
  generalize e₅ : exec u callee m₄ (.fsave .rsp) = m₅
  generalize e₆ : exec u callee m₅ (.push .rsi) = m₆
  generalize e₇ : exec u callee m₆ (.load .rsi data.auxRSI) = m₇
  have aux := exec_store e₁
  have mov := exec_mov e₂
  have align := exec_andNeg e₃
  have sub := exec_sub e₄
  obtain ⟨regs₅, mem₅, -, sse₅⟩ := exec_fsave e₅
  obtain ⟨rsp₆, others₆, mem₆, sse₆⟩ := exec_push e₆
  have load := exec_load e₇
  have reg₁ (q : Reg) : m₁.reg q = m.reg q := by rw [aux]
  have rsp₄ : m₄.reg .rsp = fpuArea (m.reg .rsp) := by
    rw [sub.here, align.here, mov.others _ (by decide), reg₁, at_.align, at_.fpu, at_.fpu_wrap]
  have rsi₄ : m₄.reg .rsi = m.reg .rsp := by
    rw [sub.others _ (by decide), align.others _ (by decide), mov.here, reg₁, at_.self]
  have frame : minus (fpuArea (m.reg .rsp)) 8 = fpuArea (m.reg .rsp) - 8 :=
    minus_of_le (by omega) (by omega)
  have x87₄ : m₄.x87 = m.x87 := by rw [sub.x87, align.x87, mov.x87, aux]
  have mem₄ : m₄.mem = store64 data.auxRSI (m.reg .rsi) m.mem := by
    rw [sub.mem, align.mem, mov.mem, aux]
  have mem : m₇.mem = store64 (fpuArea (m.reg .rsp) - 8) (m.reg .rsp)
      (storeBytes (fpuArea (m.reg .rsp)) (u.fsave m.x87)
        (store64 data.auxRSI (m.reg .rsi) m.mem)) := by
    rw [load.mem, mem₆, regs₅, rsp₄, rsi₄, frame, mem₅, rsp₄, x87₄, mem₄]
  have rsi : load64 m₆.mem data.auxRSI = m.reg .rsi := by
    rw [← load.mem, mem, load64_store64_apart (by omega)]
    have same : load64 (storeBytes (fpuArea (m.reg .rsp)) (u.fsave m.x87)
        (store64 data.auxRSI (m.reg .rsi) m.mem)) data.auxRSI =
        load64 (store64 data.auxRSI (m.reg .rsi) m.mem) data.auxRSI := by
      refine load64_congr fun x lo hi => storeBytes_outside ?_
      rw [u.fsave_length]
      omega
    rw [same, load64_store64, Nat.mod_eq_of_lt (m.small _)]
  refine ⟨?_, ?_, ?_, fun x lo hi => ?_, fun r notRsp => ?_, ?_⟩
  · rw [load.others _ (by decide), rsp₆, regs₅, rsp₄, frame, wrap_of_lt (by omega)]
  · rw [mem, load64_store64, Nat.mod_eq_of_lt small]
  · rw [mem]
    exact loadBytes_under (u.fsave_length _) (by omega)
  · rw [mem, store64_of_outside (by omega), storeBytes_outside, store64_of_outside (by omega)]
    rw [u.fsave_length]
    omega
  · by_cases same : r = .rsi
    · rw [same, load.here, rsi, wrap_of_lt (m.small _)]
    · rw [load.others r same, others₆ r notRsp, regs₅, sub.others r notRsp, align.others r notRsp,
        mov.others r same, reg₁]
  · rw [load.sse, sse₆, sse₅, sub.sse, align.sse, mov.sse, aux]

/-- What `restoreFPU` has done. -/
structure FPURestored (m m' : Machine X Y) (b : Nat) (x87 : X) : Prop where
  rsp : m'.reg .rsp = b
  above : ∀ x, b ≤ x → x < b + 152 → m'.mem x = m.mem x
  others : ∀ r, r ≠ .rsp → m'.reg r = m.reg r
  x87 : m'.x87 = x87
  sse : m'.sse = m.sse

theorem restoreFPU_restored {state : X} (here : m.reg .rsp = fpuArea b - 8) (wide : 1024 ≤ b)
    (small : b < 2 ^ 64) (pointer : load64 m.mem (fpuArea b - 8) = b)
    (image : loadBytes m.mem (fpuArea b) 108 = u.fsave state) (apart : Apart b data.auxRAX) :
    FPURestored m (run u callee (restoreFPU data) m) b state := by
  obtain ⟨low, high⟩ := fpuArea_bounds wide
  have at_ := computed wide small
  rw [Apart] at apart
  simp only [restoreFPU, run]
  generalize e₁ : exec u callee m (.pop .rsp) = m₁
  generalize e₂ : exec u callee m₁ (.store data.auxRAX .rax) = m₂
  generalize e₃ : exec u callee m₂ (.mov .rax .rsp) = m₃
  generalize e₄ : exec u callee m₃ (.andNeg .rsp 16) = m₄
  generalize e₅ : exec u callee m₄ (.sub .rsp 108) = m₅
  generalize e₆ : exec u callee m₅ (.frstor .rsp) = m₆
  generalize e₇ : exec u callee m₆ (.mov .rsp .rax) = m₇
  generalize e₈ : exec u callee m₇ (.load .rax data.auxRAX) = m₈
  have pop := exec_pop_rsp e₁
  have aux := exec_store e₂
  have mov := exec_mov e₃
  have align := exec_andNeg e₄
  have sub := exec_sub e₅
  obtain ⟨regs₆, mem₆, x87₆, sse₆⟩ := exec_frstor e₆
  have back := exec_mov e₇
  have load := exec_load e₈
  have rsp₁ : m₁.reg .rsp = b := by rw [pop.here, here, pointer, at_.self]
  have reg₂ (q : Reg) : m₂.reg q = m₁.reg q := by rw [aux]
  have rsp₅ : m₅.reg .rsp = fpuArea b := by
    rw [sub.here, align.here, mov.others _ (by decide), reg₂, rsp₁, at_.align, at_.fpu,
      at_.fpu_wrap]
  have rax₆ : m₆.reg .rax = b := by
    rw [regs₆, sub.others _ (by decide), align.others _ (by decide), mov.here, reg₂, rsp₁, at_.self]
  have mem₅ : m₅.mem = store64 data.auxRAX (m.reg .rax) m.mem := by
    rw [sub.mem, align.mem, mov.mem, aux, pop.others _ (by decide), pop.mem]
  have mem₇ : m₇.mem = store64 data.auxRAX (m.reg .rax) m.mem := by rw [back.mem, mem₆, mem₅]
  have kept : loadBytes m₅.mem (fpuArea b) 108 = loadBytes m.mem (fpuArea b) 108 := by
    rw [mem₅]
    exact loadBytes_congr fun x lo hi => store64_of_outside (by omega)
  refine ⟨?_, fun x lo hi => ?_, fun r notRsp => ?_, ?_, ?_⟩
  · rw [load.others _ (by decide), back.here, rax₆, at_.self]
  · rw [load.mem, mem₇, store64_of_outside (by omega)]
  · by_cases same : r = .rax
    · rw [same, load.here, mem₇, load64_store64, Nat.mod_eq_of_lt (m.small _),
        wrap_of_lt (m.small _)]
    · rw [load.others r same, back.others r notRsp, regs₆, sub.others r notRsp,
        align.others r notRsp, mov.others r same, reg₂, pop.others r notRsp]
  · rw [load.x87, back.x87, x87₆, rsp₅, kept, image, u.frstor_fsave]
  · rw [load.sse, back.sse, sse₆, sub.sse, align.sse, mov.sse, aux, pop.sse]

theorem poppedNoRax_length : poppedNoRax.length = 14 := rfl

theorem pushStateNoRax_eq : pushStateNoRax = poppedNoRax.reverse.map .push := rfl

theorem mem_returnedNoRax (r : Reg) : r ≠ .rax → r ∈ poppedNoRax ++ interruptFrame := by
  cases r <;> decide

/-- The registers of the interrupted program on the stack, but for `rax`. -/
structure Entry (m m' : Machine X Y) (b : Nat) : Prop where
  rsp : m'.reg .rsp = b
  holds : Holds m'.mem b ((poppedNoRax ++ interruptFrame).map m.reg)
  others : ∀ r, r ≠ .rsp → m'.reg r = m.reg r
  x87 : m'.x87 = m.x87
  sse : m'.sse = m.sse

theorem interrupt_entry (top : b + 152 = m.reg .rsp / 16 * 16) (wide : 1024 ≤ b) :
    Entry m (run u callee pushStateNoRax m.interrupt) b := by
  obtain ⟨rsp, frame, others, -, x87, sse⟩ := interrupt_interrupted (m := m) (by omega)
  have bottom : m.interrupt.reg .rsp = b + 8 * poppedNoRax.length := by
    rw [poppedNoRax_length]
    omega
  have same (r : Reg) (mem : r ∈ poppedNoRax) : m.interrupt.reg r = m.reg r := by
    refine others r ?_
    rintro rfl
    exact absurd mem (by decide)
  obtain ⟨pushed, here, holds⟩ :=
    run_pushed_over (u := u) poppedNoRax (by decide) bottom frame same
  rw [pushStateNoRax_eq]
  generalize run u callee (poppedNoRax.reverse.map .push) m.interrupt = m₁ at pushed here holds
  rw [← List.map_append] at holds
  refine ⟨here, holds, fun r other => ?_, pushed.x87.trans x87, pushed.sse.trans sse⟩
  rw [pushed.others r other, others r other]

/-- A system call gives every register back but `rax`, and the x87 unit. The SSE unit is as the
dispatcher leaves it. -/
theorem _systemCallsHandler_returns (top : b + 152 = m.reg .rsp / 16 * 16) (wide : 1024 ≤ b)
    (rsi : Apart b data.auxRSI) (rax : Apart b data.auxRAX)
    (rsp : ∀ k, k.reg .rsp = fpuArea b - 8 →
      (callee .systemCallsDispatcher k).reg .rsp = fpuArea b - 8)
    (kept : ∀ k, k.reg .rsp = fpuArea b - 8 → ∀ x, fpuArea b - 8 ≤ x → x < b + 152 →
      (callee .systemCallsDispatcher k).mem x = k.mem x) :
    ∃ k, (∀ r, r ≠ .rsp → k.reg r = m.reg r) ∧ k.sse = m.sse ∧
      (∀ r, (run u callee (_systemCallsHandler data) m.interrupt).reg r =
        if r = .rax then (callee .systemCallsDispatcher k).reg .rax else m.reg r) ∧
      (run u callee (_systemCallsHandler data) m.interrupt).x87 = m.x87 ∧
      (run u callee (_systemCallsHandler data) m.interrupt).sse =
        (callee .systemCallsDispatcher k).sse := by
  have small := m.small .rsp
  obtain ⟨low, high⟩ := fpuArea_bounds wide
  have code : _systemCallsHandler data = pushStateNoRax ++ (saveFPU data ++
      (([.call .systemCallsDispatcher] : Code) ++ (restoreFPU data ++
        (popStateNoRax ++ ([.iretq] : Code))))) := rfl
  have entry : Entry m (run u callee pushStateNoRax m.interrupt) b := interrupt_entry top wide
  rw [code, run_append, run_append, run_append, run_append, run_append]
  generalize run u callee pushStateNoRax m.interrupt = m₁ at entry
  have saved : FPUSaved u data m₁ (run u callee (saveFPU data) m₁) b :=
    saveFPU_saved entry.rsp wide rsi
  generalize run u callee (saveFPU data) m₁ = k at saved
  have called : run u callee ([.call .systemCallsDispatcher] : Code) k =
      callee .systemCallsDispatcher k := rfl
  have rsp₃ := rsp k saved.rsp
  have mem₃ := kept k saved.rsp
  rw [called]
  generalize result : callee .systemCallsDispatcher k = m₃ at rsp₃ mem₃
  have pointer : load64 m₃.mem (fpuArea b - 8) = b :=
    (load64_congr fun x lo hi => mem₃ x lo (by omega)).trans saved.pointer
  have image : loadBytes m₃.mem (fpuArea b) 108 = u.fsave m₁.x87 :=
    (loadBytes_congr fun x lo hi => mem₃ x (by omega) (by omega)).trans saved.image
  have restored : FPURestored m₃ (run u callee (restoreFPU data) m₃) b m₁.x87 :=
    restoreFPU_restored rsp₃ wide (by omega) pointer image rax
  generalize run u callee (restoreFPU data) m₃ = m₄ at restored
  have words : ((poppedNoRax ++ interruptFrame).map m.reg).length = 19 := rfl
  have holds : Holds m₄.mem b ((poppedNoRax ++ interruptFrame).map m.reg) :=
    entry.holds.congr fun x lo hi => by
      rw [words] at hi
      rw [restored.above x lo (by omega), mem₃ x (by omega) (by omega), saved.above x lo (by omega)]
  have back : Returned m₄ (run u callee popStateNoRax m₄).iretq poppedNoRax m.reg :=
    pops_returned (restored.rsp ▸ holds) m.small (by decide) (by
      rw [restored.rsp, poppedNoRax_length]
      omega)
  simp only [run, exec]
  refine ⟨k, fun r other => ?_, ?_, fun r => ?_, ?_, ?_⟩
  · rw [saved.others r other, entry.others r other]
  · rw [saved.sse, entry.sse]
  · rw [back.reg, result]
    by_cases isRax : r = .rax
    · subst isRax
      rw [if_neg (by decide), if_pos rfl, restored.others _ (by decide)]
    · rw [if_neg isRax, if_pos (mem_returnedNoRax r isRax)]
  · rw [back.x87, restored.x87, entry.x87]
  · rw [back.sse, restored.sse, result]

end

theorem _systemCallsHandler_returns_seven :
    let m := program 65536 (by decide) fun _ => 0
    let m' := run bitUnits (fun _ k => k.set .rax 7) (_systemCallsHandler ⟨131072, 131080⟩)
      m.interrupt
    m'.reg .rax = 7 ∧ (∀ r, r ≠ .rax → m'.reg r = m.reg r) ∧ m'.x87 = true := by
  intro m m'
  obtain ⟨k, -, -, regs, x87, -⟩ :=
    @_systemCallsHandler_returns Bool Unit bitUnits (fun _ k => k.set .rax 7) m
      ⟨131072, 131080⟩ 65384 (by decide) (by decide) (.inr (by decide)) (.inr (by decide))
      (fun _ here => here) fun _ _ _ _ _ => rfl
  refine ⟨?_, fun r other => ?_, x87⟩
  · rw [regs, if_pos rfl]
    exact wrap_of_lt (by decide)
  · rw [regs, if_neg other]

end BottlerOS.Interrupts
