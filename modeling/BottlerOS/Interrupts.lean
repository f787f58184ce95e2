import BottlerOS.Library.X86

/-! `Kernel/asm/interrupts.asm`. -/

namespace BottlerOS.Interrupts
open X86

/-- The functions in C that the handlers call. -/
inductive Function where
  | checkSleeping
  | irqDispatcher
  | nextProcess
  | systemCallsDispatcher

abbrev Code := List (Instr Function)

def pushState : Code :=
  [.rax, .rbx, .rcx, .rdx, .rbp, .rdi, .rsi, .r8, .r9, .r10, .r11, .r12, .r13, .r14, .r15].map .push

def popped : List Reg :=
  [.r15, .r14, .r13, .r12, .r11, .r10, .r9, .r8, .rsi, .rdi, .rbp, .rdx, .rcx, .rbx, .rax]

def popState : Code := popped.map .pop

def pushStateNoRax : Code :=
  [.rbx, .rcx, .rdx, .rbp, .rdi, .rsi, .r8, .r9, .r10, .r11, .r12, .r13, .r14, .r15].map .push

def poppedNoRax : List Reg :=
  [.r15, .r14, .r13, .r12, .r11, .r10, .r9, .r8, .rsi, .rdi, .rbp, .rdx, .rcx, .rbx]

def popStateNoRax : Code := poppedNoRax.map .pop

/-- The states of the x87 and SSE units go below the stack. -/
def saveUnits : Code :=
  [.mov .rsi .rsp, .andNeg .rsp 16, .sub .rsp 108, .fsave .rsp, .andNeg .rsp 16,
    .sub .rsp 512, .fxsave .rsp, .push .rsi]

def restoreUnits : Code :=
  [.pop .rsp, .mov .rax .rsp, .andNeg .rsp 16, .sub .rsp 108, .frstor .rsp, .andNeg .rsp 16,
    .sub .rsp 512, .fxrstor .rsp, .mov .rsp .rax]

def callScheduler : Code :=
  [.call .checkSleeping, .movImm .rdi 0, .call .irqDispatcher, .mov .rdi .rsp, .call .nextProcess,
    .mov .rsp .rax, .out 0x20 0x20]

def _irq00Handler : Code :=
  pushState ++ saveUnits ++ callScheduler ++ restoreUnits ++ popState ++ ([.iretq] : Code)

/-- The variables in `.bss` that a system call uses. -/
structure Data where
  auxRSI : Nat
  auxRAX : Nat

def saveFPU (data : Data) : Code :=
  [.store data.auxRSI .rsi, .mov .rsi .rsp, .andNeg .rsp 16, .sub .rsp 108, .fsave .rsp,
    .push .rsi, .load .rsi data.auxRSI]

def restoreFPU (data : Data) : Code :=
  [.pop .rsp, .store data.auxRAX .rax, .mov .rax .rsp, .andNeg .rsp 16, .sub .rsp 108,
    .frstor .rsp, .mov .rsp .rax, .load .rax data.auxRAX]

def _systemCallsHandler (data : Data) : Code :=
  pushStateNoRax ++ saveFPU data ++ ([.call .systemCallsDispatcher] : Code) ++ restoreFPU data ++
    popStateNoRax ++ ([.iretq] : Code)

/-! Where the units are saved below `b`. -/

def fpuArea (b : Nat) : Nat := b / 16 * 16 - 108

def sseArea (b : Nat) : Nat := fpuArea b / 16 * 16 - 512

/-- Where the address of the frame itself is. -/
def frameAt (b : Nat) : Nat := sseArea b - 8

section
variable {X Y : Type} {u : Units X Y} {callee : Function → Machine X Y → Machine X Y}
  {m : Machine X Y} {c : Context X Y} {f g : Words.Bytes} {b x : Nat}

theorem fpuArea_eq (b : Nat) : fpuArea b = b / 16 * 16 - 108 := rfl

theorem sseArea_eq (b : Nat) : sseArea b = fpuArea b / 16 * 16 - 512 := rfl

theorem frame_short (b : Nat) : b ≤ frameAt b + 1024 := by
  unfold frameAt sseArea fpuArea
  omega

theorem area_bounds (room : 1024 ≤ b) : frameAt b + 8 = sseArea b ∧
    sseArea b + 512 ≤ fpuArea b ∧ fpuArea b + 108 ≤ b := by
  unfold frameAt sseArea fpuArea
  omega

theorem fpuArea_bounds (room : 1024 ≤ b) : 512 ≤ fpuArea b ∧ fpuArea b + 108 ≤ b := by
  unfold fpuArea
  omega

attribute [irreducible] fpuArea sseArea frameAt

/-- A context that lies in memory, from `frameAt b` up: what the timer handler brings back. -/
structure Saved (u : Units X Y) (f : Words.Bytes) (b : Nat) (c : Context X Y) : Prop where
  room : 1024 ≤ b
  top : b + 160 < 2 ^ 64
  pointer : Words.load64 f (frameAt b) = b
  units : u.fxrstor (loadBytes f (sseArea b) 464) = (c.x87, c.sse)
  regs : Holds f b ((popped ++ interruptFrame).map c.reg)

theorem Saved.congr (saved : Saved u f b c)
    (same : ∀ x, frameAt b ≤ x → x < b + 160 → g x = f x) : Saved u g b c := by
  obtain ⟨low, mid, high⟩ := area_bounds saved.room
  have word : Words.load64 g (frameAt b) = Words.load64 f (frameAt b) :=
    Words.load64_congr fun x lo hi => same x lo (by omega)
  have bytes : loadBytes g (sseArea b) 464 = loadBytes f (sseArea b) 464 :=
    loadBytes_congr fun x lo hi => same x (by omega) (by omega)
  have regs : Holds g b ((popped ++ interruptFrame).map c.reg) :=
    saved.regs.congr fun x lo hi => same x (by omega) hi
  exact ⟨saved.room, saved.top, word.trans saved.pointer, by rw [bytes, saved.units], regs⟩

end

end BottlerOS.Interrupts
