import Mathlib.Data.Set.BooleanAlgebra
import Mathlib.Order.CompletePartialOrder
import BottlerOS.PipeOpens
import BottlerOS.ShellOutcome

/-! What a line that `processInput` rejects has asked of the kernel, and what it keeps. -/

namespace BottlerOS.RejectedLines
open Machine Shell ShellWords LineParse Arguments ShellCalls ShellOutcome
open Semaphore (Kernel SemMallocs searchSem)
open Pipe (PipeMallocs SEM_NAME FULL_SEM_NAME)
open LineSplit (typed)

/-- The kernel with the blocks that `pvPortMalloc` has returned and `vPortFree` has not been
given. -/
structure Held where
  kernel : Kernel
  blocks : Set Ptr

/-- The blocks that `semOpen` keeps: none if the semaphore is there. -/
def semBlocks (name : String) (m : SemMallocs) (k : Kernel) : Set Ptr :=
  match searchSem k.sems name k.firstSem with
  | .ok none => {p | some p ∈ [m.sem, m.node, m.name]}
  | _ => ∅

/-- The blocks that `openPipe` keeps. -/
def pipeBlocks (m : PipeMallocs) (k : Kernel) : Set Ptr :=
  {p | some p ∈ [m.pipe, m.name, m.buffer, m.node]} ∪ semBlocks SEM_NAME m.sem k ∪
    semBlocks FULL_SEM_NAME m.fullSem k

/-- The calls that launch nothing and give nothing back. -/
def asks : Call → Bool
  | .malloc .. | .openPipe .. | .print .. | .incorrectComm .. => true
  | _ => false

/-- What a call does to what is held. A block that is held is not returned again; behind the
launch of a command, and behind what follows a launch, anything may be held. -/
inductive Serves : Call → Held → Held → Prop
  | malloc {size : Int} {p : Option Ptr} {h : Held} : (∀ x, p = some x → x ∉ h.blocks) →
      Serves (.malloc size p) h { h with blocks := h.blocks ∪ {x | p = some x} }
  | openPipe {fd r w : Nat} {m : PipeMallocs} {k' : Kernel} {h : Held} :
      Pipe.openPipe "pipe" m h.kernel = .ok ((r, w), k') →
      Serves (.openPipe fd (some (r, w))) h ⟨k', h.blocks ∪ pipeBlocks m h.kernel⟩
  | print {text : String} {h : Held} : Serves (.print text) h h
  | incorrectComm {token : Nat} {h : Held} : Serves (.incorrectComm token) h h
  | other {c : Call} {h h' : Held} : asks c = false → Serves c h h'

inductive Served : List Call → Held → Held → Prop
  | nil {h : Held} : Served [] h h
  | cons {c : Call} {calls : List Call} {h h₁ h' : Held} : Serves c h h₁ → Served calls h₁ h' →
      Served (c :: calls) h h'

structure Same (h h' : Held) : Prop where
  pipes : h'.kernel.firstPipe = h.kernel.firstPipe
  registry : h'.kernel.firstSem = h.kernel.firstSem
  semaphores : h'.kernel.sems = h.kernel.sems
  blocks : h'.blocks = h.blocks

/-- The command that a word names. -/
def wordNamed (ws : List (List Int8)) (k : Nat) : Option Nat := ws[k]?.bind (find · commands)

/-- The words of a line in which no command is launched and no built-in is called. -/
def Rejected (ws : List (List Int8)) : Prop :=
  wordNamed ws 0 = none ∨
    pipeAt ws ≠ -1 ∧ (Background ws ∨ wordNamed ws (pipeAt ws + 1).toNat = none)

instance (ws : List (List Int8)) : Decidable (Rejected ws) :=
  inferInstanceAs (Decidable (_ ∨ _ ∧ (_ ∨ _)))

section
variable {m : InputMallocs} {mem : Mem} {line : List Int8} {table : List Cmd} {r s : Turn}
  {p : Parsed} {t : Split} {fd1 token : Nat} {c : Call} {calls : List Call} {h h₁ h' : Held}

/-- A turn has come to these calls and then launches nothing and gives nothing back. -/
def Asked (calls : List Call) (r : Turn) : Prop :=
  ∃ rest, r.calls = calls ++ rest ∧ ∀ c ∈ rest, asks c = true

theorem Asked.refl (r : Turn) : Asked r.calls r := ⟨[], (List.append_nil _).symm, by simp⟩

theorem Asked.of_call (own : asks c = true) (asked : Asked (calls ++ [c]) r) : Asked calls r := by
  obtain ⟨rest, all, others⟩ := asked
  refine ⟨c :: rest, ?_, ?_⟩
  · rw [all, List.append_assoc, List.singleton_append]
  · intro d hd
    cases hd with
    | head => exact own
    | tail _ hd => exact others d hd

theorem incorrectComm_asked (run : ShellCalls.incorrectComm token s = .ok r) :
    Asked s.calls r := by
  unfold ShellCalls.incorrectComm at run
  obtain ⟨b, -, run⟩ := bind_ok.mp run
  split at run
  · obtain rfl := Except.ok.inj run
    exact Asked.of_call (c := .incorrectComm token) rfl (Asked.refl _)
  · obtain rfl := Except.ok.inj run
    exact Asked.refl _

theorem processSingle_asked (parses : Parses t s.mem p) (plain : Plain s.commands)
    (unknown : named p 0 s.commands = none)
    (run : ShellCalls.processSingle m fd1 t s = .ok r) : Asked s.calls r := by
  unfold ShellCalls.processSingle at run
  obtain ⟨mem, store, run⟩ := bind_ok.mp run
  obtain ⟨token, htoken, run⟩ := bind_ok.mp run
  obtain ⟨found, hlookup, run⟩ := bind_ok.mp run
  have parses := Parses.congr parses (storeArgv_spec store).2.1
  obtain rfl := Except.ok.inj
    ((lookup_named parses plain (deref_ok.mp htoken)).symm.trans hlookup)
  rw [call_commands, unknown] at run
  exact Asked.of_call (c := .malloc (sizeofPointers t.end_) m.argv0) rfl (incorrectComm_asked run)

theorem processPiped_asked (parses : Parses t s.mem p) (plain : Plain s.commands)
    (unknown : named p 0 s.commands = none ∨ named p (p.pipe + 1).toNat s.commands = none)
    (run : ShellCalls.processPiped m fd1 t s = .ok r) :
    ∃ fd, Asked (s.calls ++ [.malloc 8 m.fd] ++ [.openPipe fd m.opened]) r := by
  unfold ShellCalls.processPiped at run
  obtain ⟨fd, -, run⟩ := bind_ok.mp run
  refine ⟨fd, ?_⟩
  split at run <;> rename_i opened
  · obtain rfl := Except.ok.inj run
    exact Asked.refl _
  rename_i x w
  obtain ⟨fd2, -, run⟩ := bind_ok.mp run
  obtain ⟨mem₀, store₀, run⟩ := bind_ok.mp run
  obtain ⟨mem₁, store₁, run⟩ := bind_ok.mp run
  obtain ⟨first, hfirst, run⟩ := bind_ok.mp run
  obtain ⟨second, hsecond, run⟩ := bind_ok.mp run
  obtain ⟨found, hlookup, run⟩ := bind_ok.mp run
  have ints := (storeInts_spec ((s.mem.storeInts fd x w).storeInts fd1 0 w) fd2 x 1).2.trans
    ((storeInts_spec (s.mem.storeInts fd x w) fd1 0 w).2.trans (storeInts_spec s.mem fd x w).2)
  have parses := Parses.congr parses
    ((storeArgv_spec store₁).2.1.trans ((storeArgv_spec store₀).2.1.trans ints))
  simp only [call_commands] at hlookup
  obtain rfl := Except.ok.inj
    ((lookup_named parses plain (deref_ok.mp hfirst)).symm.trans hlookup)
  apply Asked.of_call (c := .malloc 8 m.fd2) rfl
  apply Asked.of_call (c := .malloc (sizeofPointers t.pipe) m.argv0) rfl
  apply Asked.of_call (c := .malloc (sizeofPointers (t.end_ - t.pipe - 1)) m.argv1) rfl
  cases hn : named p 0 s.commands with
  | none =>
    simp only [call_commands, hn] at run
    exact incorrectComm_asked run
  | some i =>
    have missing := unknown.resolve_left fun none => by rw [hn] at none; cases none
    simp only [call_commands, hn] at run
    obtain ⟨found, hlookup', run⟩ := bind_ok.mp run
    rw [parses.pipe] at hsecond
    obtain rfl := Except.ok.inj
      ((lookup_named parses plain (deref_ok.mp hsecond)).symm.trans hlookup')
    simp only [missing] at run
    exact incorrectComm_asked run

/-- A line that is rejected behind its first block. -/
theorem processInput_asked (held : Holds mem 0 line) (plain : Plain table)
    (front : ¬ ((parse line).pipe ≠ -1 ∧ (parse line).ampersand ≥ 0))
    (unknown : named (parse line) 0 table = none ∨ (parse line).pipe ≠ -1 ∧
      named (parse line) ((parse line).pipe + 1).toNat table = none)
    (run : ShellCalls.processInput m mem table = .ok r) :
    ∃ fd1, Asked [.malloc 8 (some fd1)] r ∧ ((parse line).pipe ≠ -1 →
      ∃ fd, Asked [.malloc 8 (some fd1), .malloc 8 m.fd, .openPipe fd m.opened] r) := by
  obtain ⟨t, mem', loop, parses⟩ := tokenLoop_parses held
  rw [ShellCalls.processInput, loop, ok_bind] at run
  simp only [parses.pipe, parses.ampersand, if_neg front] at run
  obtain ⟨fd1, block, run⟩ := bind_ok.mp run
  have parses : Parses t (mem'.storeInts fd1 0 1) (parse line) :=
    Parses.congr parses (storeInts_spec mem' fd1 0 1).2
  refine ⟨fd1, ?_⟩
  rw [← deref_ok.mp block]
  split at run <;> rename_i piped
  · obtain ⟨fd, asked⟩ := processPiped_asked parses plain (unknown.imp_right And.right) run
    refine ⟨?_, fun _ => ⟨fd, asked⟩⟩
    apply Asked.of_call (c := .malloc 8 m.fd) rfl
    apply Asked.of_call (c := .openPipe fd m.opened) rfl
    exact asked
  · have unknown := unknown.resolve_right fun h => piped h.1
    exact ⟨processSingle_asked parses plain unknown run, fun some => absurd some piped⟩

/-- One more pipe is in the list. -/
theorem openPipe_length {m : PipeMallocs} {name : String} {fds : Int × Int} {k k' : Kernel}
    (run : Pipe.openPipe name m k = .ok (fds, k')) :
    k'.firstPipe.length = k.firstPipe.length + 1 := by
  obtain ⟨node, sem, full, k₁, k₂, p, -, first, second, -, -, -, -, opened⟩ :=
    PipeOpens.openPipe_cases run
  have same₁ : k₁.firstPipe = k.firstPipe := by
    obtain ⟨-, ⟨-, rfl⟩ | ⟨-, -, rfl⟩⟩ := SemCalls.semOpen_cases first <;> rfl
  have same₂ : k₂.firstPipe = k₁.firstPipe := by
    obtain ⟨-, ⟨-, rfl⟩ | ⟨-, -, rfl⟩⟩ := SemCalls.semOpen_cases second <;> rfl
  rw [opened, List.length_cons, same₂, same₁]

theorem Serves.grows (serves : Serves c h h') (own : asks c = true) :
    h.blocks ⊆ h'.blocks ∧ h.kernel.firstPipe.length ≤ h'.kernel.firstPipe.length := by
  cases serves with
  | malloc fresh => exact ⟨Set.subset_union_left, le_rfl⟩
  | openPipe run => exact ⟨Set.subset_union_left, by rw [openPipe_length run]; apply Nat.le_succ⟩
  | print => exact ⟨subset_rfl, le_rfl⟩
  | incorrectComm => exact ⟨subset_rfl, le_rfl⟩
  | other none =>
    rw [own] at none
    cases none

/-- Nothing is given back. -/
theorem Served.grows (served : Served calls h h') (own : ∀ c ∈ calls, asks c = true) :
    h.blocks ⊆ h'.blocks ∧ h.kernel.firstPipe.length ≤ h'.kernel.firstPipe.length := by
  induction served with
  | nil => exact ⟨subset_rfl, le_rfl⟩
  | cons serves _ ih =>
    obtain ⟨blocks, pipes⟩ := serves.grows (own _ List.mem_cons_self)
    obtain ⟨blocks', pipes'⟩ := ih fun c hc => own c (List.mem_cons_of_mem _ hc)
    exact ⟨blocks.trans blocks', pipes.trans pipes'⟩

/-- A line that starts with a block keeps it. -/
theorem Served.keeps {fd1 : Ptr} {size : Int}
    (served : Served (.malloc size (some fd1) :: calls) h h')
    (own : ∀ c ∈ calls, asks c = true) : fd1 ∉ h.blocks ∧ fd1 ∈ h'.blocks := by
  cases served with
  | cons serves rest =>
    obtain ⟨blocks, -⟩ := rest.grows own
    cases serves with
    | malloc fresh => exact ⟨fresh fd1 rfl, blocks (.inr rfl)⟩
    | other none => cases none

/-- A pipe that is opened stays in the list. -/
theorem Served.pipe {fd : Nat} {opened : Option (Nat × Nat)}
    (served : Served (.openPipe fd opened :: calls) h h') (own : ∀ c ∈ calls, asks c = true) :
    h.kernel.firstPipe.length < h'.kernel.firstPipe.length := by
  cases served with
  | cons serves rest =>
    obtain ⟨-, pipes⟩ := rest.grows own
    cases serves with
    | openPipe run =>
      simp only [openPipe_length run] at pipes
      exact pipes
    | other none => cases none

theorem parse_rejected (few : (words line).length ≤ 10) :
    Rejected (words line) ↔ named (parse line) 0 commands = none ∨ (parse line).pipe ≠ -1 ∧
      ((parse line).ampersand ≥ 0 ∨
        named (parse line) ((parse line).pipe + 1).toNat commands = none) := by
  obtain ⟨texts, pipe, ampersand⟩ := parse_few few
  rw [Rejected, wordNamed, wordNamed, ← texts, ← texts, ← pipe, ge_iff_le, ampersand]

/-- A rejected line that is not piped in the background leaves the kernel one block more at
least, and one pipe more if it has a pipe in it. -/
theorem rejected_leaves {lines : List (List Int8)} (past : History lines table)
    (held : Holds mem 0 line) (few : (words line).length ≤ 10) (rejected : Rejected (words line))
    (front : ¬ (pipeAt (words line) ≠ -1 ∧ Background (words line)))
    (run : ShellCalls.processInput m mem table = .ok r) (served : Served r.calls h h') :
    h.blocks ⊂ h'.blocks ∧ (pipeAt (words line) ≠ -1 →
      h.kernel.firstPipe.length < h'.kernel.firstPipe.length) := by
  have flagged := past.flagged
  rw [parse_rejected few] at rejected
  obtain ⟨-, pipe, ampersand⟩ := parse_few few
  rw [← pipe, ← ampersand] at front
  have unknown : named (parse line) 0 table = none ∨ (parse line).pipe ≠ -1 ∧
      named (parse line) ((parse line).pipe + 1).toNat table = none := by
    rw [flagged.named, flagged.named]
    refine rejected.imp_right fun h => ⟨h.1, h.2.resolve_left fun low => front ⟨h.1, low⟩⟩
  obtain ⟨fd1, ⟨rest, all, own⟩, piped⟩ := processInput_asked held flagged.plain front unknown run
  constructor
  · rw [all] at served
    obtain ⟨fresh, kept⟩ := served.keeps own
    obtain ⟨blocks, -⟩ := Served.grows served (by simpa [asks] using own)
    exact ⟨blocks, fun back => fresh (back kept)⟩
  · intro some
    obtain ⟨fd, rest, all, own⟩ := piped (pipe ▸ some)
    rw [all] at served
    cases served with
    | cons first served =>
      cases served with
      | cons second served =>
        have before := (first.grows rfl).2.trans (second.grows rfl).2
        exact before.trans_lt (served.pipe own)

/-- A line that is piped in the background asks for nothing. -/
theorem processInput_refused (held : Holds mem 0 line) (few : (words line).length ≤ 10)
    (refused : pipeAt (words line) ≠ -1 ∧ Background (words line))
    (run : ShellCalls.processInput m mem table = .ok r) :
    r.calls = [.print "piped processes are not able to run in background\n"] := by
  obtain ⟨t, mem', loop, parses⟩ := tokenLoop_parses held
  obtain ⟨-, pipe, ampersand⟩ := parse_few few
  rw [← pipe, ← ampersand] at refused
  rw [ShellCalls.processInput, loop, ok_bind] at run
  simp only [parses.pipe, parses.ampersand, if_pos refused] at run
  obtain rfl := Except.ok.inj run
  rfl

theorem Served.told {text : String} (served : Served [.print text] h h') : Same h h' := by
  cases served with
  | cons serves rest =>
    cases rest
    cases serves with
    | print => exact ⟨rfl, rfl, rfl, rfl⟩
    | other none => cases none

end

/-- A rejected line leaves the kernel's pipes, semaphores and blocks as they are if and only if it
is piped in the background. -/
theorem processInput_same_iff {lines : List (List Int8)} {table : List Cmd} {line : List Int8}
    {m : InputMallocs} {mem : Mem} {r : Turn} {h h' : Held} (past : History lines table)
    (held : Holds mem 0 line) (few : (words line).length ≤ 10) (rejected : Rejected (words line))
    (run : ShellCalls.processInput m mem table = .ok r) (served : Served r.calls h h') :
    Same h h' ↔ pipeAt (words line) ≠ -1 ∧ Background (words line) := by
  constructor
  · intro same
    by_contra front
    obtain ⟨-, more⟩ := (rejected_leaves past held few rejected front run served).1
    exact more same.blocks.subset
  · intro refused
    rw [processInput_refused held few refused run] at served
    exact served.told

/-- What `pvPortMalloc` gives `openPipe`. -/
def pipeMallocs : PipeMallocs where
  pipe := some 900
  name := some 901
  buffer := some 902
  bytes := fun _ => 0
  sem := ⟨some 903, some 904, some 905⟩
  fullSem := ⟨some 906, some 907, some 908⟩
  node := some 909

theorem openPipe_parlour :
    ∃ k, Pipe.openPipe "pipe" pipeMallocs SemSteps.parlour = .ok (((2 : Nat), (3 : Nat)), k) :=
  ⟨_, rfl⟩

/-- Blocks for a line behind `openPipe_parlour`. -/
def inputBlocks : InputMallocs := { blocks with opened := some (2, 3) }

theorem calls_of {text : String} {calls : List Call}
    (h : (ShellCalls.processInput inputBlocks (typed text) commands).toOption.map Turn.calls =
      some calls) :
    ∃ r, ShellCalls.processInput inputBlocks (typed text) commands = .ok r ∧ r.calls = calls := by
  obtain ⟨r, run, calls⟩ := Option.map_eq_some_iff.mp h
  exact ⟨r, ok_of_toOption run, calls⟩

theorem cat_foo : ∃ r, ShellCalls.processInput inputBlocks (typed "cat | foo") commands = .ok r ∧
    r.calls = [.malloc 8 (some 0x600010), .malloc 8 (some 0x600030),
      .openPipe 0x600030 (some (2, 3)), .malloc 8 (some 0x600050), .malloc 8 (some 0x600070),
      .malloc 8 (some 0x600090), .incorrectComm 6] :=
  calls_of (by decide +kernel)

theorem pipeBlocks_parlour {p : Ptr} (h : p ∈ pipeBlocks pipeMallocs SemSteps.parlour) :
    p < 910 := by
  have absent : ∀ name, name ≠ "s" →
      searchSem SemSteps.parlour.sems name SemSteps.parlour.firstSem = .ok none := by
    intro name other
    exact if_neg other.symm
  rw [pipeBlocks, semBlocks, semBlocks, absent SEM_NAME (by decide),
    absent FULL_SEM_NAME (by decide)] at h
  simp only [pipeMallocs, List.mem_cons, Option.some.injEq, List.not_mem_nil, or_false,
    Set.mem_union, Set.mem_ofPred_eq] at h
  rcases h with ((rfl | rfl | rfl | rfl) | rfl | rfl | rfl) | rfl | rfl | rfl <;> decide

/-- The calls of `cat | foo`, from no block held. -/
theorem cat_foo_served : ∃ r h',
    ShellCalls.processInput inputBlocks (typed "cat | foo") commands = .ok r ∧
      Served r.calls ⟨SemSteps.parlour, ∅⟩ h' := by
  obtain ⟨r, run, calls⟩ := cat_foo
  obtain ⟨k, opened⟩ := openPipe_parlour
  have apart : ∀ x, 910 ≤ x → x ∉ pipeBlocks pipeMallocs SemSteps.parlour := by
    intro x high h
    exact absurd (pipeBlocks_parlour h) (Nat.not_lt.mpr high)
  suffices all : ∃ h', Served r.calls ⟨SemSteps.parlour, ∅⟩ h' by
    obtain ⟨h', served⟩ := all
    exact ⟨r, h', run, served⟩
  rw [calls]
  apply Exists.intro
  apply Served.cons (Serves.malloc (by simp))
  apply Served.cons (Serves.malloc (by simp))
  apply Served.cons (Serves.openPipe (m := pipeMallocs) opened)
  apply Served.cons (Serves.malloc (by simp [apart]))
  apply Served.cons (Serves.malloc (by simp [apart]))
  apply Served.cons (Serves.malloc (by simp [apart]))
  apply Served.cons Serves.incorrectComm
  apply Served.nil

theorem processInput_same_cat : ∃ r h',
    ShellCalls.processInput inputBlocks (typed "cat | foo") commands = .ok r ∧
      (Same ⟨SemSteps.parlour, ∅⟩ h' ↔
        pipeAt (words (chars "cat | foo")) ≠ -1 ∧ Background (words (chars "cat | foo"))) := by
  obtain ⟨r, h', run, served⟩ := cat_foo_served
  exact ⟨r, h', run, processInput_same_iff .start (typed_holds (by decide +kernel)) (by decide)
    (by decide) run served⟩

/-- `cat | foo` leaves blocks and a pipe behind. -/
theorem rejected_keeps : ∃ r h', History [] commands ∧
    Holds (typed "cat | foo") 0 (chars "cat | foo") ∧ (words (chars "cat | foo")).length ≤ 10 ∧
    Rejected (words (chars "cat | foo")) ∧
    ShellCalls.processInput inputBlocks (typed "cat | foo") commands = .ok r ∧
    Served r.calls ⟨SemSteps.parlour, ∅⟩ h' ∧ ¬ Same ⟨SemSteps.parlour, ∅⟩ h' := by
  obtain ⟨r, h', run, served⟩ := cat_foo_served
  have held : Holds (typed "cat | foo") 0 (chars "cat | foo") := typed_holds (by decide +kernel)
  refine ⟨r, h', .start, held, by decide, by decide, run, served, ?_⟩
  intro same
  have leaves := rejected_leaves .start held (by decide) (by decide) (by decide) run served
  exact absurd same.blocks leaves.1.ne'

end BottlerOS.RejectedLines
