import BottlerOS.Library.Words
import Mathlib.Data.List.Basic

/-! The part of x86-64 that saves a program and brings it back: registers, the stack, the images of
the x87 and SSE units in memory, interrupts, and calls of functions given by what they do. The flags
of arithmetic instructions are left out. -/

namespace BottlerOS.X86
open Words

inductive Reg where
  | rax | rbx | rcx | rdx | rbp | rdi | rsi | r8 | r9 | r10 | r11 | r12 | r13 | r14 | r15
  | rsp | rip | cs | rflags | ss
  deriving DecidableEq, Repr

/-- The states `X` of the x87 unit and `Y` of the SSE unit, and their images in memory. -/
structure Units (X Y : Type) where
  init : X → X
  fsave : X → List UInt8
  frstor : List UInt8 → X
  fxsave : X → Y → List UInt8
  fxrstor : List UInt8 → X × Y
  fsave_length (x : X) : (fsave x).length = 108
  fxsave_length (x : X) (y : Y) : (fxsave x y).length = 464
  frstor_fsave (x : X) : frstor (fsave x) = x
  fxrstor_fxsave (x : X) (y : Y) : fxrstor (fxsave x y) = (x, y)

/-- What a program computes with, but for its memory. -/
@[ext] structure Context (X Y : Type) where
  reg : Reg → Nat
  small : ∀ r, reg r < 2 ^ 64
  x87 : X
  sse : Y

@[ext] structure Machine (X Y : Type) extends Context X Y where
  mem : Bytes

inductive Instr (F : Type) where
  | push (r : Reg)
  | pushImm (n : Nat)
  | pop (r : Reg)
  | mov (d s : Reg)
  | movImm (d : Reg) (n : Nat)
  /-- `and d, -k`, for a power of two -/
  | andNeg (d : Reg) (k : Nat)
  | sub (d : Reg) (n : Nat)
  /-- `mov d, [a]` -/
  | load (d : Reg) (a : Nat)
  /-- `mov [a], s` -/
  | store (a : Nat) (s : Reg)
  /-- `fsave [r]`, and so on -/
  | fsave (r : Reg)
  | frstor (r : Reg)
  | fxsave (r : Reg)
  | fxrstor (r : Reg)
  /-- `mov al, n` and `out port, al` -/
  | out (port n : Nat)
  | call (f : F)
  | ret
  | iretq

/-- A number in 64 bits. -/
@[irreducible] def wrap (v : Nat) : Nat := v % 2 ^ 64

@[irreducible] def minus (v n : Nat) : Nat := (v + 2 ^ 64 - n) % 2 ^ 64

theorem wrap_lt (v : Nat) : wrap v < 2 ^ 64 := by
  unfold wrap
  exact Nat.mod_lt _ (by decide)

theorem wrap_of_lt {v : Nat} (small : v < 2 ^ 64) : wrap v = v := by
  unfold wrap
  exact Nat.mod_eq_of_lt small

theorem minus_of_le {v n : Nat} (small : v < 2 ^ 64) (le : n ≤ v) : minus v n = v - n := by
  unfold minus
  omega

/-- Bytes in memory. -/
def storeBytes (a : Nat) (bs : List UInt8) (m : Bytes) : Bytes := fun x =>
  if a ≤ x ∧ x < a + bs.length then bs.getD (x - a) 0 else m x

def loadBytes (m : Bytes) (a n : Nat) : List UInt8 := (List.range n).map fun i => m (a + i)

/-- The words lie in memory from `a` up. -/
def Holds (m : Bytes) : (a : Nat) → List Nat → Prop
  | _, [] => True
  | a, w :: ws => load64 m a = w ∧ Holds m (a + 8) ws

section
variable {X Y F : Type}

namespace Machine

def set (r : Reg) (v : Nat) (m : Machine X Y) : Machine X Y where
  reg q := if q = r then wrap v else m.reg q
  small q := by
    split
    · exact wrap_lt v
    · exact m.small q
  mem := m.mem
  x87 := m.x87
  sse := m.sse

def push (v : Nat) (m : Machine X Y) : Machine X Y :=
  let sp := minus (m.reg .rsp) 8
  { m.set .rsp sp with mem := store64 sp v m.mem }

def pop (r : Reg) (m : Machine X Y) : Machine X Y :=
  (m.set .rsp (m.reg .rsp + 8)).set r (load64 m.mem (m.reg .rsp))

/-- What the processor pushes, from the aligned stack pointer down. -/
def interrupt (m : Machine X Y) : Machine X Y :=
  [m.reg .ss, m.reg .rsp, m.reg .rflags, m.reg .cs, m.reg .rip].foldl (fun m v => m.push v)
    (m.set .rsp (m.reg .rsp / 16 * 16))

def iretq (m : Machine X Y) : Machine X Y :=
  let a := m.reg .rsp
  ((((m.set .rip (load64 m.mem a)).set .cs (load64 m.mem (a + 8))).set .rflags
    (load64 m.mem (a + 16))).set .rsp (load64 m.mem (a + 24))).set .ss (load64 m.mem (a + 32))

end Machine

def exec (u : Units X Y) (callee : F → Machine X Y → Machine X Y) (m : Machine X Y) :
    Instr F → Machine X Y
  | .push r => m.push (m.reg r)
  | .pushImm n => m.push n
  | .pop r => m.pop r
  | .mov d s => m.set d (m.reg s)
  | .movImm d n => m.set d n
  | .andNeg d k => m.set d (m.reg d / k * k)
  | .sub d n => m.set d (minus (m.reg d) n)
  | .load d a => m.set d (load64 m.mem a)
  | .store a s => { m with mem := store64 a (m.reg s) m.mem }
  | .fsave r => { m with
      mem := storeBytes (m.reg r) (u.fsave m.x87) m.mem
      x87 := u.init m.x87 }
  | .frstor r => { m with x87 := u.frstor (loadBytes m.mem (m.reg r) 108) }
  | .fxsave r => { m with mem := storeBytes (m.reg r) (u.fxsave m.x87 m.sse) m.mem }
  | .fxrstor r =>
      let image := u.fxrstor (loadBytes m.mem (m.reg r) 464)
      { m with x87 := image.1, sse := image.2 }
  | .out _ n => m.set .rax (m.reg .rax / 256 * 256 + n)
  | .call f => callee f m
  | .ret => m.pop .rip
  | .iretq => m.iretq

def run (u : Units X Y) (callee : F → Machine X Y → Machine X Y) :
    List (Instr F) → Machine X Y → Machine X Y
  | [], m => m
  | i :: is, m => run u callee is (exec u callee m i)

variable {u : Units X Y} {callee : F → Machine X Y → Machine X Y} {m m' : Machine X Y}
  {f g : Bytes} {a b n : Nat} {r q : Reg} {v w : Nat} {vs ws : List Nat} {rs : List Reg}
  {is js : List (Instr F)} {bs : List UInt8} {x : Nat}

@[simp] theorem set_reg (m : Machine X Y) (r q : Reg) (v : Nat) :
    (m.set r v).reg q = if q = r then wrap v else m.reg q := rfl

@[simp] theorem set_mem (m : Machine X Y) (r : Reg) (v : Nat) : (m.set r v).mem = m.mem := rfl

@[simp] theorem set_x87 (m : Machine X Y) (r : Reg) (v : Nat) : (m.set r v).x87 = m.x87 := rfl

@[simp] theorem set_sse (m : Machine X Y) (r : Reg) (v : Nat) : (m.set r v).sse = m.sse := rfl

theorem run_append : run u callee (is ++ js) m = run u callee js (run u callee is m) := by
  induction is generalizing m with
  | nil => rfl
  | cons i is ih => exact ih

/-! Words and bytes in memory. -/

theorem holds_append : Holds f a (vs ++ ws) ↔ Holds f a vs ∧ Holds f (a + 8 * vs.length) ws := by
  induction vs generalizing a with
  | nil => simp [Holds]
  | cons v vs ih =>
    have shift : a + 8 * (v :: vs).length = a + 8 + 8 * vs.length := by
      rw [List.length_cons]
      omega
    rw [List.cons_append, Holds, Holds, ih, shift, and_assoc]

theorem Holds.congr (holds : Holds f a vs) (same : ∀ x, a ≤ x → x < a + 8 * vs.length → g x = f x) :
    Holds g a vs := by
  induction vs generalizing a with
  | nil => trivial
  | cons v vs ih =>
    rw [List.length_cons] at same
    exact ⟨(load64_congr fun x lo hi => same x lo (by omega)).trans holds.1,
      ih holds.2 fun x lo hi => same x (by omega) (by omega)⟩

theorem storeBytes_outside (out : x < a ∨ a + bs.length ≤ x) : storeBytes a bs f x = f x :=
  if_neg (by omega)

theorem loadBytes_congr (same : ∀ x, a ≤ x → x < a + n → g x = f x) :
    loadBytes g a n = loadBytes f a n := by
  refine List.map_congr_left fun i hi => same _ (by omega) ?_
  have := List.mem_range.mp hi
  omega

theorem loadBytes_storeBytes (size : bs.length = n) : loadBytes (storeBytes a bs f) a n = bs := by
  subst size
  apply List.ext_getElem
  · simp [loadBytes]
  · intro i hi hi'
    simp only [loadBytes, List.getElem_map, List.getElem_range, storeBytes, Nat.add_sub_cancel_left]
    rw [if_pos ⟨by omega, by omega⟩, List.getD_eq_getElem?_getD, List.getElem?_eq_getElem hi']
    rfl

/-- What lies under a word that is stored below it. -/
theorem loadBytes_under (size : bs.length = n) (below : b + 8 ≤ a) :
    loadBytes (store64 b v (storeBytes a bs f)) a n = bs :=
  (loadBytes_congr fun x lo _ => store64_of_outside (by omega)).trans (loadBytes_storeBytes size)

/-! Pushing and popping. -/

/-- `m'` is `m` with the words on its stack. -/
structure Pushed (m m' : Machine X Y) (vs : List Nat) : Prop where
  rsp : m'.reg .rsp + 8 * vs.length = m.reg .rsp
  others : ∀ r, r ≠ .rsp → m'.reg r = m.reg r
  holds : Holds m'.mem (m'.reg .rsp) vs.reverse
  outside : ∀ x, x < m'.reg .rsp ∨ m.reg .rsp ≤ x → m'.mem x = m.mem x
  x87 : m'.x87 = m.x87
  sse : m'.sse = m.sse

theorem push_reg (m : Machine X Y) (v : Nat) (r : Reg) : (m.push v).reg r =
    if r = .rsp then wrap (minus (m.reg .rsp) 8) else m.reg r := rfl

theorem push_mem (m : Machine X Y) (v : Nat) : (m.push v).mem =
    store64 (minus (m.reg .rsp) 8) v m.mem := rfl

theorem pop_reg (m : Machine X Y) (r q : Reg) : (m.pop r).reg q =
    if q = r then wrap (load64 m.mem (m.reg .rsp))
    else if q = .rsp then wrap (m.reg .rsp + 8) else m.reg q := rfl

theorem push_rsp (room : 8 ≤ m.reg .rsp) : (m.push v).reg .rsp = m.reg .rsp - 8 := by
  have small := m.small .rsp
  rw [push_reg, if_pos rfl, minus_of_le small room, wrap_of_lt (by omega)]

theorem push_pushed (small : v < 2 ^ 64) (room : 8 ≤ m.reg .rsp) : Pushed m (m.push v) [v] := by
  have rsp := push_rsp (v := v) room
  have mem : (m.push v).mem = store64 (m.reg .rsp - 8) v m.mem := by
    rw [push_mem, minus_of_le (m.small .rsp) room]
  refine ⟨?_, fun r hr => ?_, ⟨?_, trivial⟩, fun x out => ?_, rfl, rfl⟩
  · rw [rsp, List.length_singleton]
    omega
  · rw [push_reg, if_neg hr]
  · rw [rsp, mem, load64_store64, Nat.mod_eq_of_lt small]
  · rw [mem, store64_of_outside (by omega)]

theorem Pushed.refl (m : Machine X Y) : Pushed m m [] :=
  ⟨rfl, fun _ _ => rfl, trivial, fun _ _ => rfl, rfl, rfl⟩

theorem Pushed.append {m'' : Machine X Y} (first : Pushed m m' vs) (then_ : Pushed m' m'' ws) :
    Pushed m m'' (vs ++ ws) := by
  have rsp := first.rsp
  have rsp' := then_.rsp
  refine ⟨?_, fun r hr => (then_.others r hr).trans (first.others r hr), ?_, fun x out => ?_,
    then_.x87.trans first.x87, then_.sse.trans first.sse⟩
  · rw [List.length_append]
    omega
  · rw [List.reverse_append]
    refine holds_append.mpr ⟨then_.holds, ?_⟩
    rw [List.length_reverse, rsp']
    exact first.holds.congr fun x lo _ => then_.outside x (.inr lo)
  · rw [then_.outside x (by omega), first.outside x (by omega)]

/-- One push after the other. -/
theorem foldl_pushed (small : ∀ v ∈ vs, v < 2 ^ 64) (room : 8 * vs.length ≤ m.reg .rsp) :
    Pushed m (vs.foldl (fun m v => m.push v) m) vs := by
  induction vs generalizing m with
  | nil => exact .refl m
  | cons v vs ih =>
    rw [List.length_cons] at room
    have one := push_pushed (m := m) (small v (by simp)) (by omega)
    have rsp := one.rsp
    rw [List.length_singleton] at rsp
    exact one.append (ih (fun w hw => small w (List.mem_cons_of_mem _ hw)) (by omega))

theorem run_pushes (no : .rsp ∉ rs) : run u callee (rs.map .push) m =
    (rs.map m.reg).foldl (fun m v => m.push v) m := by
  induction rs generalizing m with
  | nil => rfl
  | cons r rs ih =>
    rw [List.mem_cons, not_or] at no
    have same : rs.map (m.push (m.reg r)).reg = rs.map m.reg := by
      refine List.map_congr_left fun q hq => ?_
      rw [push_reg, if_neg]
      rintro rfl
      exact no.2 hq
    rw [List.map_cons, run, exec, ih no.2, same, List.map_cons, List.foldl_cons]

/-- Registers that are pushed lie on the stack, the last one lowest. -/
theorem run_pushed (no : .rsp ∉ rs) (room : 8 * rs.length ≤ m.reg .rsp) :
    Pushed m (run u callee (rs.map .push) m) (rs.map m.reg) := by
  rw [run_pushes no]
  refine foldl_pushed (fun v hv => ?_) (by rwa [List.length_map])
  obtain ⟨r, -, rfl⟩ := List.mem_map.mp hv
  exact m.small r

/-- Registers go below what is on the stack. -/
theorem run_pushed_over (rs : List Reg) {regs : Reg → Nat} (no : .rsp ∉ rs)
    (bottom : m.reg .rsp = b + 8 * rs.length) (above : Holds m.mem (m.reg .rsp) vs)
    (same : ∀ r ∈ rs, m.reg r = regs r) :
    Pushed m (run u callee (rs.reverse.map .push) m) (rs.reverse.map m.reg) ∧
      (run u callee (rs.reverse.map .push) m).reg .rsp = b ∧
      Holds (run u callee (rs.reverse.map .push) m).mem b (rs.map regs ++ vs) := by
  have pushed : Pushed m (run u callee (rs.reverse.map .push) m) (rs.reverse.map m.reg) := by
    refine run_pushed (by rwa [List.mem_reverse]) ?_
    rw [List.length_reverse]
    omega
  generalize run u callee (rs.reverse.map .push) m = m' at pushed
  have here : m'.reg .rsp = b := by
    have rsp := pushed.rsp
    rw [List.length_map, List.length_reverse] at rsp
    omega
  have words : (rs.reverse.map m.reg).reverse = rs.map regs := by
    rw [← List.map_reverse, List.reverse_reverse]
    exact List.map_congr_left same
  have low := pushed.holds
  rw [words, here] at low
  refine ⟨pushed, here, holds_append.mpr ⟨low, ?_⟩⟩
  rw [List.length_map]
  rw [bottom] at above
  exact above.congr fun x lo _ => pushed.outside x (.inr (bottom ▸ lo))

/-! One instruction. -/

/-- `m'` is `m` with `v` in the register. -/
structure Sets (m m' : Machine X Y) (r : Reg) (v : Nat) : Prop where
  here : m'.reg r = wrap v
  others : ∀ q, q ≠ r → m'.reg q = m.reg q
  mem : m'.mem = m.mem
  x87 : m'.x87 = m.x87
  sse : m'.sse = m.sse

theorem set_sets (m : Machine X Y) (r : Reg) (v : Nat) : Sets m (m.set r v) r v :=
  ⟨if_pos rfl, fun _ other => if_neg other, rfl, rfl, rfl⟩

theorem exec_mov {d s : Reg} (step : exec u callee m (.mov d s) = m') :
    Sets m m' d (m.reg s) := step ▸ set_sets m d (m.reg s)

theorem exec_movImm {d : Reg} (step : exec u callee m (.movImm d n) = m') : Sets m m' d n :=
  step ▸ set_sets m d n

theorem exec_andNeg {d : Reg} {k : Nat} (step : exec u callee m (.andNeg d k) = m') :
    Sets m m' d (m.reg d / k * k) := step ▸ set_sets m d _

theorem exec_sub {d : Reg} (step : exec u callee m (.sub d n) = m') :
    Sets m m' d (minus (m.reg d) n) := step ▸ set_sets m d _

theorem exec_out {port : Nat} (step : exec u callee m (.out port n) = m') :
    Sets m m' .rax (m.reg .rax / 256 * 256 + n) := step ▸ set_sets m .rax _

theorem exec_load {d : Reg} (step : exec u callee m (.load d a) = m') :
    Sets m m' d (load64 m.mem a) := step ▸ set_sets m d _

theorem exec_store {s : Reg} (step : exec u callee m (.store a s) = m') :
    m' = { m with mem := store64 a (m.reg s) m.mem } := step.symm

theorem exec_push (step : exec u callee m (.push r) = m') :
    m'.reg .rsp = wrap (minus (m.reg .rsp) 8) ∧ (∀ q, q ≠ .rsp → m'.reg q = m.reg q) ∧
      m'.mem = store64 (minus (m.reg .rsp) 8) (m.reg r) m.mem ∧ m'.sse = m.sse := by
  subst step
  refine ⟨?_, fun q other => ?_, rfl, rfl⟩
  · rw [exec, push_reg, if_pos rfl]
  · rw [exec, push_reg, if_neg other]

/-- `pop rsp` does not move the stack pointer after it. -/
theorem exec_pop_rsp (step : exec u callee m (.pop .rsp) = m') :
    Sets m m' .rsp (load64 m.mem (m.reg .rsp)) := by
  subst step
  refine ⟨?_, fun q other => ?_, rfl, rfl, rfl⟩
  · rw [exec, pop_reg, if_pos rfl]
  · rw [exec, pop_reg, if_neg other, if_neg other]

theorem exec_fsave (step : exec u callee m (.fsave r) = m') :
    m'.reg = m.reg ∧ m'.mem = storeBytes (m.reg r) (u.fsave m.x87) m.mem ∧
      m'.x87 = u.init m.x87 ∧ m'.sse = m.sse := by
  subst step
  exact ⟨rfl, rfl, rfl, rfl⟩

theorem exec_fxsave (step : exec u callee m (.fxsave r) = m') :
    m'.reg = m.reg ∧ m'.mem = storeBytes (m.reg r) (u.fxsave m.x87 m.sse) m.mem := by
  subst step
  exact ⟨rfl, rfl⟩

theorem exec_frstor (step : exec u callee m (.frstor r) = m') :
    m'.reg = m.reg ∧ m'.mem = m.mem ∧ m'.x87 = u.frstor (loadBytes m.mem (m.reg r) 108) ∧
      m'.sse = m.sse := by
  subst step
  exact ⟨rfl, rfl, rfl, rfl⟩

theorem exec_fxrstor (step : exec u callee m (.fxrstor r) = m') :
    m'.reg = m.reg ∧ m'.mem = m.mem ∧
      (m'.x87, m'.sse) = u.fxrstor (loadBytes m.mem (m.reg r) 464) := by
  subst step
  exact ⟨rfl, rfl, rfl⟩

/-- `m'` is `m` with the registers `rs` read from its stack. -/
structure Popped (m m' : Machine X Y) (rs : List Reg) (regs : Reg → Nat) : Prop where
  rsp : m'.reg .rsp = m.reg .rsp + 8 * rs.length
  read : ∀ r ∈ rs, m'.reg r = regs r
  others : ∀ r, r ∉ rs → r ≠ .rsp → m'.reg r = m.reg r
  mem : m'.mem = m.mem
  x87 : m'.x87 = m.x87
  sse : m'.sse = m.sse

/-- Registers are popped from where they lie. -/
theorem run_popped {regs : Reg → Nat} (holds : Holds m.mem (m.reg .rsp) (rs.map regs))
    (small : ∀ r, regs r < 2 ^ 64) (no : .rsp ∉ rs) (room : m.reg .rsp + 8 * rs.length < 2 ^ 64) :
    Popped m (run u callee (rs.map .pop) m) rs regs := by
  induction rs generalizing m with
  | nil => exact ⟨rfl, fun _ h => (List.not_mem_nil h).elim, fun _ _ _ => rfl, rfl, rfl, rfl⟩
  | cons r rs ih =>
    rw [List.mem_cons, not_or] at no
    rw [List.length_cons] at room
    obtain ⟨here, behind⟩ := holds
    have rsp : (m.pop r).reg .rsp = m.reg .rsp + 8 := by
      rw [pop_reg, if_neg no.1, if_pos rfl, wrap_of_lt (by omega)]
    have read : (m.pop r).reg r = regs r := by
      rw [pop_reg, if_pos rfl, here, wrap_of_lt (small r)]
    have kept (q : Reg) (hq : q ≠ r) (hs : q ≠ .rsp) : (m.pop r).reg q = m.reg q := by
      rw [pop_reg, if_neg hq, if_neg hs]
    have rest := ih (m := m.pop r) (by rw [rsp]; exact behind) no.2 (by rw [rsp]; omega)
    refine ⟨?_, fun q hq => ?_, fun q hq hs => ?_, rest.mem, rest.x87, rest.sse⟩
    · have := rest.rsp
      rw [rsp] at this
      rw [List.length_cons]
      exact this.trans (by omega)
    · by_cases later : q ∈ rs
      · exact rest.read q later
      · obtain rfl := (List.mem_cons.mp hq).resolve_right later
        exact (rest.others q later (Ne.symm no.1)).trans read
    · rw [List.mem_cons, not_or] at hq
      exact (rest.others q hq.2 hs).trans (kept q hq.1 hs)

/-! Interrupts. -/

/-- What an interrupt leaves on the stack, from the lowest word up. -/
def interruptFrame : List Reg := [.rip, .cs, .rflags, .rsp, .ss]

theorem interrupt_pushed (room : 56 ≤ m.reg .rsp) :
    Pushed (m.set .rsp (m.reg .rsp / 16 * 16)) m.interrupt
      [m.reg .ss, m.reg .rsp, m.reg .rflags, m.reg .cs, m.reg .rip] := by
  have small := m.small .rsp
  refine foldl_pushed (fun v hv => ?_) ?_
  · simp only [List.mem_cons, List.not_mem_nil, or_false] at hv
    rcases hv with rfl | rfl | rfl | rfl | rfl <;> exact m.small _
  · rw [set_reg, if_pos rfl, wrap_of_lt (by omega)]
    simp only [List.length_cons, List.length_nil]
    omega

/-- `m'` is `m` after an interrupt. -/
structure Interrupted (m m' : Machine X Y) : Prop where
  rsp : m'.reg .rsp + 40 = m.reg .rsp / 16 * 16
  frame : Holds m'.mem (m'.reg .rsp) (interruptFrame.map m.reg)
  others : ∀ r, r ≠ .rsp → m'.reg r = m.reg r
  outside : ∀ x, x < m'.reg .rsp ∨ m.reg .rsp / 16 * 16 ≤ x → m'.mem x = m.mem x
  x87 : m'.x87 = m.x87
  sse : m'.sse = m.sse

theorem interrupt_interrupted (room : 56 ≤ m.reg .rsp) : Interrupted m m.interrupt := by
  have small := m.small .rsp
  have pushed := interrupt_pushed room
  have sp : (m.set .rsp (m.reg .rsp / 16 * 16)).reg .rsp = m.reg .rsp / 16 * 16 := by
    rw [set_reg, if_pos rfl, wrap_of_lt (by omega)]
  have bottom := pushed.rsp
  rw [sp] at bottom
  simp only [List.length_cons, List.length_nil] at bottom
  refine ⟨by omega, pushed.holds, fun r other => ?_, fun x out => ?_, ?_, ?_⟩
  · rw [pushed.others r other, set_reg, if_neg other]
  · rw [pushed.outside x (by rw [sp]; omega), set_mem]
  · rw [pushed.x87, set_x87]
  · rw [pushed.sse, set_sse]

/-- `iretq` takes back what an interrupt has left. -/
theorem iretq_reg {regs : Reg → Nat} (holds : Holds m.mem (m.reg .rsp) (interruptFrame.map regs))
    (small : ∀ r, regs r < 2 ^ 64) :
    m.iretq.reg r = if r ∈ interruptFrame then regs r else m.reg r := by
  obtain ⟨rip, cs, rflags, rsp, ss, -⟩ := holds
  have same (q : Reg) : wrap (regs q) = regs q := wrap_of_lt (small q)
  unfold Machine.iretq interruptFrame
  simp only [Nat.add_assoc, Nat.reduceAdd] at rip cs rflags rsp ss
  simp only [set_reg, rip, cs, rflags, rsp, ss, same]
  cases r <;> simp

theorem iretq_rest (m : Machine X Y) :
    m.iretq.mem = m.mem ∧ m.iretq.x87 = m.x87 ∧ m.iretq.sse = m.sse := ⟨rfl, rfl, rfl⟩

/-- What the registers `rs` and an interrupt have left on the stack is taken back. -/
structure Returned (m m' : Machine X Y) (rs : List Reg) (regs : Reg → Nat) : Prop where
  reg : ∀ r, m'.reg r = if r ∈ rs ++ interruptFrame then regs r else m.reg r
  mem : m'.mem = m.mem
  x87 : m'.x87 = m.x87
  sse : m'.sse = m.sse

theorem pops_returned {regs : Reg → Nat}
    (holds : Holds m.mem (m.reg .rsp) ((rs ++ interruptFrame).map regs))
    (small : ∀ r, regs r < 2 ^ 64) (no : .rsp ∉ rs) (room : m.reg .rsp + 8 * rs.length < 2 ^ 64) :
    Returned m (run u callee (rs.map .pop) m).iretq rs regs := by
  rw [List.map_append, holds_append, List.length_map] at holds
  obtain ⟨low, high⟩ := holds
  have pop : Popped m (run u callee (rs.map .pop) m) rs regs := run_popped low small no room
  generalize run u callee (rs.map .pop) m = m' at pop
  rw [← pop.rsp, ← pop.mem] at high
  obtain ⟨mem, x87, sse⟩ := iretq_rest m'
  refine ⟨fun r => ?_, mem.trans pop.mem, x87.trans pop.x87, sse.trans pop.sse⟩
  rw [iretq_reg high small]
  by_cases framed : r ∈ interruptFrame
  · rw [if_pos framed, if_pos (List.mem_append_right _ framed)]
  · rw [if_neg framed]
    by_cases popped : r ∈ rs
    · rw [if_pos (List.mem_append_left _ popped), pop.read r popped]
    · have stack : r ≠ .rsp := by
        rintro rfl
        exact framed (by decide)
      rw [if_neg (by rw [List.mem_append]; exact not_or.mpr ⟨popped, framed⟩),
        pop.others r popped stack]

end

end BottlerOS.X86
