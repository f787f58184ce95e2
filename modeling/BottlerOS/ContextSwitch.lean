import BottlerOS.Interrupts

/-! The timer handler on one processor: what it leaves of the program it interrupts, and what it
brings back. -/

namespace BottlerOS.Interrupts
open X86 Words

section
variable {X Y : Type} {u : Units X Y} {callee : Function → Machine X Y → Machine X Y}
  {m : Machine X Y} {c : Context X Y} {f g : Bytes} {a b x : Nat} {r : Reg}

/-- The addresses as the processor computes them. -/
structure Computed (b : Nat) : Prop where
  align : wrap (b / 16 * 16) = b / 16 * 16
  fpu : minus (b / 16 * 16) 108 = fpuArea b
  fpu_wrap : wrap (fpuArea b) = fpuArea b
  align_fpu : wrap (fpuArea b / 16 * 16) = fpuArea b / 16 * 16
  sse : minus (fpuArea b / 16 * 16) 512 = sseArea b
  sse_wrap : wrap (sseArea b) = sseArea b
  frame : minus (sseArea b) 8 = frameAt b
  frame_wrap : wrap (frameAt b) = frameAt b
  self : wrap b = b

theorem computed (room : 1024 ≤ b) (small : b < 2 ^ 64) : Computed b := by
  obtain ⟨low, mid, high⟩ := area_bounds room
  have fpu := fpuArea_eq b
  have sse := sseArea_eq b
  constructor
  · exact wrap_of_lt (by omega)
  · rw [minus_of_le (by omega) (by omega), fpu]
  · exact wrap_of_lt (by omega)
  · exact wrap_of_lt (by omega)
  · rw [minus_of_le (by omega) (by omega), sse]
  · exact wrap_of_lt (by omega)
  · rw [minus_of_le (by omega) (by omega)]
    omega
  · exact wrap_of_lt (by omega)
  · exact wrap_of_lt small

/-- What `saveUnits` has done. -/
structure UnitsSaved (u : Units X Y) (m m' : Machine X Y) : Prop where
  rsp : m'.reg .rsp = frameAt (m.reg .rsp)
  pointer : load64 m'.mem (frameAt (m.reg .rsp)) = m.reg .rsp
  image : loadBytes m'.mem (sseArea (m.reg .rsp)) 464 = u.fxsave (u.init m.x87) m.sse
  outside : ∀ x, x < frameAt (m.reg .rsp) ∨ m.reg .rsp ≤ x → m'.mem x = m.mem x
  others : ∀ r, r ≠ .rsp → r ≠ .rsi → m'.reg r = m.reg r

theorem saveUnits_saved (room : 1024 ≤ m.reg .rsp) :
    UnitsSaved u m (run u callee saveUnits m) := by
  obtain ⟨low, mid, high⟩ := area_bounds room
  have at_ := computed room (m.small .rsp)
  simp only [saveUnits, run]
  generalize e₁ : exec u callee m (.mov .rsi .rsp) = m₁
  generalize e₂ : exec u callee m₁ (.andNeg .rsp 16) = m₂
  generalize e₃ : exec u callee m₂ (.sub .rsp 108) = m₃
  generalize e₄ : exec u callee m₃ (.fsave .rsp) = m₄
  generalize e₅ : exec u callee m₄ (.andNeg .rsp 16) = m₅
  generalize e₆ : exec u callee m₅ (.sub .rsp 512) = m₆
  generalize e₇ : exec u callee m₆ (.fxsave .rsp) = m₇
  generalize e₈ : exec u callee m₇ (.push .rsi) = m₈
  have mov := exec_mov e₁
  have align := exec_andNeg e₂
  have sub := exec_sub e₃
  obtain ⟨regs₄, mem₄, x87₄, sse₄⟩ := exec_fsave e₄
  have align' := exec_andNeg e₅
  have sub' := exec_sub e₆
  obtain ⟨regs₇, mem₇⟩ := exec_fxsave e₇
  obtain ⟨rsp₈, others₈, mem₈, -⟩ := exec_push e₈
  -- the stack pointer, and the one that `rsi` keeps
  have rsp₂ : m₂.reg .rsp = m.reg .rsp / 16 * 16 := by
    rw [align.here, mov.others _ (by decide), at_.align]
  have rsp₃ : m₃.reg .rsp = fpuArea (m.reg .rsp) := by
    rw [sub.here, rsp₂, at_.fpu, at_.fpu_wrap]
  have rsp₆ : m₆.reg .rsp = sseArea (m.reg .rsp) := by
    rw [sub'.here, align'.here, regs₄, rsp₃, at_.align_fpu, at_.sse, at_.sse_wrap]
  have rsi₇ : m₇.reg .rsi = m.reg .rsp := by
    rw [regs₇, sub'.others _ (by decide), align'.others _ (by decide), regs₄,
      sub.others _ (by decide), align.others _ (by decide), mov.here, at_.self]
  have x87₆ : m₆.x87 = u.init m.x87 := by
    rw [sub'.x87, align'.x87, x87₄, sub.x87, align.x87, mov.x87]
  have sse₆ : m₆.sse = m.sse := by
    rw [sub'.sse, align'.sse, sse₄, sub.sse, align.sse, mov.sse]
  have mem₆ : m₆.mem = storeBytes (fpuArea (m.reg .rsp)) (u.fsave m.x87) m.mem := by
    rw [sub'.mem, align'.mem, mem₄, rsp₃, sub.x87, align.x87, mov.x87, sub.mem,
      align.mem, mov.mem]
  have mem : m₈.mem = store64 (frameAt (m.reg .rsp)) (m.reg .rsp)
      (storeBytes (sseArea (m.reg .rsp)) (u.fxsave (u.init m.x87) m.sse)
        (storeBytes (fpuArea (m.reg .rsp)) (u.fsave m.x87) m.mem)) := by
    rw [mem₈, rsi₇, mem₇, regs₇, rsp₆, at_.frame, x87₆, sse₆, mem₆]
  refine ⟨?_, ?_, ?_, fun x out => ?_, fun r notRsp notRsi => ?_⟩
  · rw [rsp₈, regs₇, rsp₆, at_.frame, at_.frame_wrap]
  · rw [mem, load64_store64, Nat.mod_eq_of_lt (m.small .rsp)]
  · rw [mem]
    exact loadBytes_under (u.fxsave_length _ _) (by omega)
  · rw [mem, store64_of_outside (by omega), storeBytes_outside, storeBytes_outside]
    · rw [u.fsave_length]
      omega
    · rw [u.fxsave_length]
      omega
  · rw [others₈ r notRsp, regs₇, sub'.others r notRsp, align'.others r notRsp, regs₄,
      sub.others r notRsp, align.others r notRsp, mov.others r notRsi]

/-- `restoreUnits` from a saved context. -/
structure UnitsRestored (m m' : Machine X Y) (b : Nat) (c : Context X Y) : Prop where
  rsp : m'.reg .rsp = b
  mem : m'.mem = m.mem
  units : (m'.x87, m'.sse) = (c.x87, c.sse)

theorem restoreUnits_restored (saved : Saved u m.mem b c) (here : m.reg .rsp = frameAt b) :
    UnitsRestored m (run u callee restoreUnits m) b c := by
  have at_ := computed saved.room (by have := saved.top; omega)
  simp only [restoreUnits, run]
  generalize e₁ : exec u callee m (.pop .rsp) = m₁
  generalize e₂ : exec u callee m₁ (.mov .rax .rsp) = m₂
  generalize e₃ : exec u callee m₂ (.andNeg .rsp 16) = m₃
  generalize e₄ : exec u callee m₃ (.sub .rsp 108) = m₄
  generalize e₅ : exec u callee m₄ (.frstor .rsp) = m₅
  generalize e₆ : exec u callee m₅ (.andNeg .rsp 16) = m₆
  generalize e₇ : exec u callee m₆ (.sub .rsp 512) = m₇
  generalize e₈ : exec u callee m₇ (.fxrstor .rsp) = m₈
  generalize e₉ : exec u callee m₈ (.mov .rsp .rax) = m₉
  have pop := exec_pop_rsp e₁
  have mov := exec_mov e₂
  have align := exec_andNeg e₃
  have sub := exec_sub e₄
  obtain ⟨regs₅, mem₅, -, -⟩ := exec_frstor e₅
  have align' := exec_andNeg e₆
  have sub' := exec_sub e₇
  obtain ⟨regs₈, mem₈, units₈⟩ := exec_fxrstor e₈
  have mov' := exec_mov e₉
  have rsp₁ : m₁.reg .rsp = b := by rw [pop.here, here, saved.pointer, at_.self]
  have rsp₇ : m₇.reg .rsp = sseArea b := by
    rw [sub'.here, align'.here, regs₅, sub.here, align.here, mov.others _ (by decide), rsp₁,
      at_.align, at_.fpu, at_.fpu_wrap, at_.align_fpu, at_.sse, at_.sse_wrap]
  have rax₈ : m₈.reg .rax = b := by
    rw [regs₈, sub'.others _ (by decide), align'.others _ (by decide), regs₅,
      sub.others _ (by decide), align.others _ (by decide), mov.here, rsp₁, at_.self]
  have mem₇ : m₇.mem = m.mem := by
    rw [sub'.mem, align'.mem, mem₅, sub.mem, align.mem, mov.mem, pop.mem]
  refine ⟨?_, ?_, ?_⟩
  · rw [mov'.here, rax₈, at_.self]
  · rw [mov'.mem, mem₈, mem₇]
  · rw [mov'.x87, mov'.sse, units₈, rsp₇, mem₇, saved.units]

theorem popped_length : popped.length = 15 := rfl

theorem pushState_eq : pushState = popped.reverse.map .push := rfl

/-- What an interrupt leaves is on the stack, and the registers and the units go below it. -/
structure Laid (u : Units X Y) (m m' : Machine X Y) (b : Nat) (c : Context X Y) : Prop where
  rsp : m'.reg .rsp = frameAt b
  saved : Saved u m'.mem b c
  outside : ∀ x, x < frameAt b ∨ b + 120 ≤ x → m'.mem x = m.mem x
  others : ∀ r, r ≠ .rsp → r ≠ .rsi → m'.reg r = m.reg r

theorem saveAll_laid (bottom : m.reg .rsp = b + 120) (wide : 1024 ≤ b) (top : b + 160 < 2 ^ 64)
    (frame : Holds m.mem (m.reg .rsp) (interruptFrame.map c.reg))
    (regs : ∀ r ∈ popped, m.reg r = c.reg r) (x87 : c.x87 = u.init m.x87) (sse : c.sse = m.sse) :
    Laid u m (run u callee (pushState ++ saveUnits) m) b c := by
  have bottom' : m.reg .rsp = b + 8 * popped.length := by
    rw [popped_length]
    omega
  obtain ⟨pushed, bottom₁, holds⟩ :=
    run_pushed_over (u := u) popped (by decide) bottom' frame regs
  rw [run_append, pushState_eq]
  generalize run u callee (popped.reverse.map .push) m = m₁ at pushed bottom₁ holds
  rw [← List.map_append] at holds
  have units : UnitsSaved u m₁ (run u callee saveUnits m₁) :=
    saveUnits_saved (bottom₁.symm ▸ wide)
  generalize run u callee saveUnits m₁ = m₂ at units
  obtain ⟨rsp, pointer, image, outside, others⟩ := units
  rw [bottom₁] at rsp pointer image outside
  obtain ⟨frame_le, sse_le, fpu_le⟩ := area_bounds wide
  refine ⟨rsp, ⟨wide, top, pointer, ?_, ?_⟩, fun x out => ?_, fun r notRsp notRsi => ?_⟩
  · rw [image, u.fxrstor_fxsave, pushed.x87, pushed.sse, x87, sse]
  · exact holds.congr fun x lo _ => outside x (.inr lo)
  · rw [outside x (by omega), pushed.outside x (by omega)]
  · rw [others r notRsp notRsi, pushed.others r notRsp]

/-- Where the registers of a program go that is interrupted with the stack pointer `sp`. -/
@[irreducible] def savedAt (sp : Nat) : Nat := sp / 16 * 16 - 160

theorem savedAt_add {sp : Nat} (room : 160 ≤ sp / 16 * 16) : savedAt sp + 160 = sp / 16 * 16 := by
  unfold savedAt
  exact Nat.sub_add_cancel room

/-- `fsave` initializes the x87 unit before `fxsave` reads it. -/
def paused (u : Units X Y) (c : Context X Y) : Context X Y := { c with x87 := u.init c.x87 }

/-- `m'` is `m`, interrupted and on its stack. -/
structure Suspended (u : Units X Y) (m m' : Machine X Y) : Prop where
  rsp : m'.reg .rsp = frameAt (savedAt (m.reg .rsp))
  saved : Saved u m'.mem (savedAt (m.reg .rsp)) (paused u m.toContext)
  outside : ∀ x, x < frameAt (savedAt (m.reg .rsp)) ∨ m.reg .rsp / 16 * 16 ≤ x → m'.mem x = m.mem x

theorem interrupt_suspends (room : 2048 ≤ m.reg .rsp) :
    Suspended u m (run u callee (pushState ++ saveUnits) m.interrupt) := by
  have small := m.small .rsp
  have top : savedAt (m.reg .rsp) + 160 = m.reg .rsp / 16 * 16 := savedAt_add (by omega)
  obtain ⟨rsp, frame, others, outside, x87, sse⟩ := interrupt_interrupted (m := m) (by omega)
  have laid : Laid u m.interrupt (run u callee (pushState ++ saveUnits) m.interrupt)
      (savedAt (m.reg .rsp)) (paused u m.toContext) := by
    refine saveAll_laid (by omega) (by omega) (by omega) frame (fun r mem => others r ?_)
      (congrArg u.init x87.symm) sse.symm
    rintro rfl
    exact absurd mem (by decide)
  obtain ⟨frame_le, sse_le, fpu_le⟩ := area_bounds (b := savedAt (m.reg .rsp)) (by omega)
  refine ⟨laid.rsp, laid.saved, fun x out => ?_⟩
  rw [laid.outside x (by omega), outside x (by omega)]

theorem mem_returned (r : Reg) : r ∈ popped ++ interruptFrame := by
  cases r <;> decide

/-- A saved context is brought back whole. -/
theorem resume (saved : Saved u m.mem b c) (here : m.reg .rsp = frameAt b) :
    run u callee (restoreUnits ++ popState ++ ([.iretq] : Code)) m = ⟨c, m.mem⟩ := by
  have restored : UnitsRestored m (run u callee restoreUnits m) b c :=
    restoreUnits_restored saved here
  rw [run_append, run_append]
  generalize run u callee restoreUnits m = m₁ at restored
  obtain ⟨rsp₁, mem₁, units₁⟩ := restored
  have top := saved.top
  have back : Returned m₁ (run u callee popState m₁).iretq popped c.reg :=
    pops_returned (by rw [rsp₁, mem₁]; exact saved.regs) c.small (by decide) (by
      rw [rsp₁, popped_length]
      omega)
  obtain ⟨x87, sse⟩ := Prod.mk.inj units₁
  simp only [run, exec]
  refine Machine.ext (funext fun r => ?_) ?_ ?_ ?_
  · rw [back.reg, if_pos (mem_returned r)]
  · rw [back.x87, x87]
  · rw [back.sse, sse]
  · rw [back.mem, mem₁]

/-- What the handler relies on in the functions it calls with the stack pointer `sp`: they give the
stack pointer back, they write to no place in `keep`, and `nextProcess` returns `next` of its
argument. -/
structure Serves (callee : Function → Machine X Y → Machine X Y) (sp : Nat) (keep : Nat → Prop)
    (next : Nat → Nat) : Prop where
  rsp : ∀ f k, k.reg .rsp = sp → (callee f k).reg .rsp = sp
  mem : ∀ f k, k.reg .rsp = sp → ∀ x, keep x → (callee f k).mem x = k.mem x
  next : ∀ k, k.reg .rsp = sp → (callee .nextProcess k).reg .rax = next (k.reg .rdi)

theorem callScheduler_run {sp : Nat} {keep : Nat → Prop} {next : Nat → Nat}
    (serves : Serves callee sp keep next) (here : m.reg .rsp = sp) :
    (run u callee callScheduler m).reg .rsp = next sp ∧
      ∀ x, keep x → (run u callee callScheduler m).mem x = m.mem x := by
  simp only [callScheduler, run]
  generalize e₁ : exec u callee m (.call .checkSleeping) = m₁
  generalize e₂ : exec u callee m₁ (.movImm .rdi 0) = m₂
  generalize e₃ : exec u callee m₂ (.call .irqDispatcher) = m₃
  generalize e₄ : exec u callee m₃ (.mov .rdi .rsp) = m₄
  generalize e₅ : exec u callee m₄ (.call .nextProcess) = m₅
  generalize e₆ : exec u callee m₅ (.mov .rsp .rax) = m₆
  generalize e₇ : exec u callee m₆ (.out 0x20 0x20) = m₇
  rw [exec] at e₁ e₃ e₅
  have zero := exec_movImm e₂
  have arg := exec_mov e₄
  have switch := exec_mov e₆
  have eoi := exec_out e₇
  have rsp₁ : m₁.reg .rsp = sp := e₁ ▸ serves.rsp _ _ here
  have rsp₂ : m₂.reg .rsp = sp := (zero.others _ (by decide)).trans rsp₁
  have rsp₃ : m₃.reg .rsp = sp := e₃ ▸ serves.rsp _ _ rsp₂
  have rsp₄ : m₄.reg .rsp = sp := (arg.others _ (by decide)).trans rsp₃
  have rdi₄ : m₄.reg .rdi = sp := by rw [arg.here, wrap_of_lt (m₃.small _), rsp₃]
  have rax₅ : m₅.reg .rax = next sp := by rw [← e₅, serves.next _ rsp₄, rdi₄]
  refine ⟨?_, fun x kept => ?_⟩
  · rw [eoi.others _ (by decide), switch.here, wrap_of_lt (m₅.small _), rax₅]
  · rw [eoi.mem, switch.mem, ← e₅, serves.mem _ _ rsp₄ x kept, arg.mem, ← e₃,
      serves.mem _ _ rsp₂ x kept, zero.mem, ← e₁, serves.mem _ _ here x kept]

/-- The timer interrupt puts the program it finds on that program's stack, and the processor runs
the one that `nextProcess` has chosen. -/
theorem _irq00Handler_switches {keep : Nat → Prop} {next : Nat → Nat}
    (room : 2048 ≤ m.reg .rsp)
    (serves : Serves callee (frameAt (savedAt (m.reg .rsp))) keep next)
    (chosen : next (frameAt (savedAt (m.reg .rsp))) = frameAt b)
    (kept : ∀ x, frameAt b ≤ x → x < b + 160 → keep x)
    (saved : ∀ m₁, Suspended u m m₁ → Saved u m₁.mem b c) :
    ∃ m₁, Suspended u m m₁ ∧ (run u callee _irq00Handler m.interrupt).toContext = c ∧
      ∀ x, keep x → (run u callee _irq00Handler m.interrupt).mem x = m₁.mem x := by
  have code : _irq00Handler = (pushState ++ saveUnits) ++ (callScheduler ++
      (restoreUnits ++ popState ++ ([.iretq] : Code))) := rfl
  have suspended : Suspended u m (run u callee (pushState ++ saveUnits) m.interrupt) :=
    interrupt_suspends room
  rw [code, run_append, run_append]
  generalize run u callee (pushState ++ saveUnits) m.interrupt = m₁ at suspended
  obtain ⟨rsp, mem⟩ := callScheduler_run (u := u) serves suspended.rsp
  generalize run u callee callScheduler m₁ = m₂ at rsp mem
  have there : Saved u m₂.mem b c :=
    (saved m₁ suspended).congr fun x lo hi => mem x (kept x lo hi)
  rw [resume there (rsp.trans chosen)]
  exact ⟨m₁, suspended, rfl, mem⟩

end

/-- Units of which only one bit of the x87 unit matters. -/
def bitUnits : Units Bool Unit where
  init _ := false
  fsave x := List.replicate 108 (if x then 1 else 0)
  frstor image := image.headD 0 == 1
  fxsave x _ := List.replicate 464 (if x then 1 else 0)
  fxrstor image := (image.headD 0 == 1, ())
  fsave_length _ := List.length_replicate
  fxsave_length _ _ := List.length_replicate
  frstor_fsave x := by cases x <;> rfl
  fxrstor_fxsave x _ := by cases x <;> rfl

/-- A program with a stack, and the bit of its x87 unit set. -/
def program (sp : Nat) (small : sp < 2 ^ 64) (mem : Bytes) : Machine Bool Unit where
  reg r := if r = .rsp then sp else 0
  small r := by
    split
    · exact small
    · decide
  x87 := true
  sse := ()
  mem := mem

end BottlerOS.Interrupts
