import BottlerOS.Machine

/-! `shell/commands/phylo.c`: the ring of philosophers and the commands that edit it. A block that
is freed keeps its contents until it is handed out again, and the code reads it after `sys_free`, so
the records are a memory of their own. -/

namespace BottlerOS.Philosophers
open Machine

def STARTING : Int := 5
def MAX_PHILO_SIZE : Int := 3

/-- `enum states` -/
inductive States where
  | eating
  | hungry
  | thinking
  deriving DecidableEq, Repr

structure Philosopher where
  argv : Ptr
  buffer : Ptr
  sem : Ptr
  pid : Int
  state : States
  left : Ptr
  right : Ptr

inductive Call where
  | semOpen (name : String)
  | loadProcess (phil : Ptr)
  | semClose (sem : Ptr)
  | free (block : Ptr)
  | kill (pid : Int)
  deriving DecidableEq

/-- `live` is the philosophers that have been allocated and not freed. -/
structure World where
  philos : Ptr → Philosopher
  live : List Ptr
  firstPhil : Option Ptr
  philoCount : Int
  running : Bool
  calls : List Call

/-- What `sys_malloc`, `sys_semOpen` and `sys_loadProcess` return for one philosopher. -/
structure Mallocs where
  phil : Option Ptr
  argv : Option Ptr
  buffer : Option Ptr
  aux : Option Ptr
  sem : Ptr
  pid : Int

namespace World

def left (w : World) (p : Ptr) : Ptr := (w.philos p).left

def right (w : World) (p : Ptr) : Ptr := (w.philos p).right

def put (w : World) (p : Ptr) (phil : Philosopher) : World :=
  { w with philos := Function.update w.philos p phil }

/-- `p->left = x` -/
def setLeft (w : World) (p x : Ptr) : World := w.put p { w.philos p with left := x }

/-- `p->right = x` -/
def setRight (w : World) (p x : Ptr) : World := w.put p { w.philos p with right := x }

/-- `p->pid = pid` -/
def setPid (w : World) (p : Ptr) (pid : Int) : World := w.put p { w.philos p with pid := pid }

def call (w : World) (c : Call) : World := { w with calls := w.calls ++ [c] }

/-- `sys_free` of a philosopher -/
def freed (w : World) (p : Ptr) : World :=
  { w.call (.free p) with live := w.live.filter (· ≠ p) }

end World

/-- `itoa(number, buffer, 10)` into `char buffer[2]` -/
def itoa (number : Int) : C String :=
  if (toString number).length < 2 then pure (toString number) else .error .outOfBounds

/-- What `phylo` and `addPhilo` do alike: the blocks, the semaphore and the fields but the links. -/
def newPhilo (m : Mallocs) (number : Int) (w : World) : C (Ptr × World) := do
  let phil ← deref m.phil
  let argv ← deref m.argv
  let buffer ← deref m.buffer
  let _ ← deref m.aux
  let name ← itoa number
  let record := { w.philos phil with
    argv := argv, buffer := buffer, sem := m.sem, state := .thinking }
  if phil ∈ w.live then .error .badPtr
  else
    let w := { (w.put phil record).call (.semOpen ("filosofo" ++ name)) with
      live := w.live ++ [phil] }
    pure (phil, w)

def addPhilo (m : Mallocs) (w : World) : C World := do
  let w := { w with philoCount := w.philoCount + 1 }
  let (new, w) ← newPhilo m w.philoCount w
  let f ← deref w.firstPhil
  let w := w.setLeft new (w.left f)
  let w := w.setRight new f
  let w := w.setRight (w.left f) new
  let w := w.setLeft f new
  pure ((w.setPid new m.pid).call (.loadProcess new))

def removePhilo (w : World) : C World := do
  let w := { w with philoCount := w.philoCount - 1 }
  let f ← deref w.firstPhil
  let del := w.left f
  let w := w.setRight (w.left del) (w.right del)
  let w := w.setLeft (w.right del) (w.left del)
  let w := w.call (.semClose (w.philos del).sem)
  let w := w.call (.free (w.philos del).buffer)
  let w := w.call (.free (w.philos del).argv)
  let w := w.freed del
  pure (w.call (.kill (w.philos del).pid))

/-- The links of a new philosopher in the building loop; `left` is the one of the turn before. -/
def attach (left : Option Ptr) (phil : Ptr) (w : World) : World :=
  let w := match left with
    | none => w
    | some left => (w.setLeft phil left).setRight left phil
  if w.firstPhil = none then { w with firstPhil := some phil } else w

/-- `phylo`'s building loop from `i` on. -/
def build (ms : Nat → Mallocs) :
    (n i : Nat) → (left : Option Ptr) → World → C (Option Ptr × World)
  | 0, _, left, w => pure (left, w)
  | n + 1, i, left, w => do
      let (phil, w) ← newPhilo (ms i) i w
      build ms n (i + 1) (some phil) (attach left phil w)

/-- `phylo`'s building loop, and the stores that close the ring. -/
def buildRing (ms : Nat → Mallocs) (w : World) : C (Ptr × World) := do
  let (left, w) ← build ms w.philoCount.toNat 0 none w
  let f ← deref w.firstPhil
  let left ← deref left
  let w := w.setLeft f left
  let w := w.setRight (w.left f) f
  pure (f, w)

/-- The loop that loads the processes, around the ring from `phil` on. -/
def launch (pids : Ptr → Int) (firstPhil : Ptr) : (fuel : Nat) → (phil : Ptr) → World → C World
  | 0, _, _ => .error .hang
  | fuel + 1, phil, w =>
      let w := (w.setPid phil (pids phil)).call (.loadProcess phil)
      if w.right phil ≠ firstPhil then launch pids firstPhil fuel (w.right phil) w else pure w

/-- The number of philosophers that `phylo` asks for; `number` is `atoi(argv[1])`. -/
def asked (argc number count : Int) : Int :=
  if argc = 1 then STARTING else if argc = 2 then number else count

/-- `phylo` exits at once. -/
def refuses (argc count : Int) : Prop :=
  argc = 2 ∧ (count < 1 ∨ count > MAX_PHILO_SIZE) ∨ argc ≠ 1 ∧ argc ≠ 2

instance (argc count : Int) : Decidable (refuses argc count) :=
  inferInstanceAs (Decidable (_ ∧ (_ ∨ _) ∨ _ ∧ _))

/-- `phylo` up to its input loop, or its `sys_exit` in front of it. -/
def phylo (argc number : Int) (ms : Nat → Mallocs) (pids : Ptr → Int) (fuel : Nat) (w : World) :
    C World := do
  let w := { w with philoCount := asked argc number w.philoCount }
  if refuses argc w.philoCount then pure w
  else do
    let (f, w) ← buildRing ms w
    let w ← launch pids f fuel f w
    pure { w with running := true }

def freePhilo (phil : Ptr) (w : World) : World :=
  let w := w.call (.semClose (w.philos phil).sem)
  let w := w.freed phil
  let w := w.call (.free (w.philos phil).buffer)
  let w := w.call (.free (w.philos phil).argv)
  w.call (.kill (w.philos phil).pid)

/-- `end`'s loop, from `phil` on. -/
def freeRing (firstPhil : Ptr) : (fuel : Nat) → (phil : Ptr) → World → C World
  | 0, _, _ => .error .hang
  | fuel + 1, phil, w =>
      let w := freePhilo phil w
      if w.right phil ≠ firstPhil then freeRing firstPhil fuel (w.right phil) w else pure w

def end_ (fuel : Nat) (w : World) : C World := do
  let f ← deref w.firstPhil
  let w ← freeRing f fuel (w.right f) w
  pure { freePhilo f w with running := false }

/-- A turn of `phylo`'s input loop, with what the calls for a new philosopher return. -/
def input (c : Int) (m : Mallocs) (fuel : Nat) (w : World) : C World :=
  if c ≠ 0 ∧ c ≠ -1 then
    if c = 97 then addPhilo m w
    else if c = 114 then removePhilo w
    else if c = 113 then end_ fuel w
    else pure w
  else pure { w with running := false }

inductive Event where
  | phylo (argc number : Int) (ms : Nat → Mallocs) (pids : Ptr → Int)
  | input (c : Int) (m : Mallocs)

def exec (fuel : Nat) : Event → World → C World
  | .phylo argc number ms pids, w => phylo argc number ms pids fuel w
  | .input c m, w => input c m fuel w

/-- `phylo` is started when it is not running, and reads its input when it is. -/
def Event.enabled (w : World) : Event → Prop
  | .phylo .. => w.running = false
  | .input .. => w.running = true

/-- The globals as the image has them, over any memory. -/
def booted (philos : Ptr → Philosopher) : World where
  philos := philos
  live := []
  firstPhil := none
  philoCount := STARTING
  running := false
  calls := []

/-- The states of the runs whose steps all meet a condition. -/
inductive Runs (ok : World → Event → Prop) : World → Prop
  | boot (philos : Ptr → Philosopher) : Runs ok (booted philos)
  | step {w w' : World} {e : Event} {fuel : Nat} : Runs ok w → e.enabled w → ok w e →
      exec fuel e w = .ok w' → Runs ok w'

end BottlerOS.Philosophers
