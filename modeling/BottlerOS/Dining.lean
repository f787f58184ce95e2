import BottlerOS.Philosophers

/-! The processes of `shell/commands/phylo.c`: the philosophers with their forks, and the process of
`phylo`, which edits the ring outside the mutex. A step is one access to what another process sees,
or one semaphore call; a process is named by its philosopher. `printState` and the sleeps, which
change nothing, are left out. -/

namespace BottlerOS.Dining
open Machine Philosophers

/-- The calls of `test`: the one of `take_fork`, and the two of `put_fork`. -/
inductive Site where
  | own
  | left
  | right
  deriving DecidableEq

/-- What a philosopher's process does next. `took` says that it is in `take_fork`; `q` is the
argument of `test`, `l` and `r` what it has read of `q->left` and `q->right`. -/
inductive Pc where
  | lock (took : Bool)
  | hungry
  | thinks
  | call (site : Site)
  | isHungry (site : Site) (q : Ptr)
  | left (site : Site) (q : Ptr)
  | leftEats (site : Site) (q l : Ptr)
  | right (site : Site) (q : Ptr)
  | rightEats (site : Site) (q r : Ptr)
  | eat (site : Site) (q : Ptr)
  | post (site : Site) (q : Ptr)
  | unlock (took : Bool)
  | wait

/-- What the process of `phylo` does next: it loads the processes, reads a key, or is in `addPhilo`
or `removePhilo`. -/
inductive Ctl where
  | launch (phil : Ptr)
  | ready
  | linkRight (new : Ptr)
  | linkLeft (new : Ptr)
  | load (new : Ptr)
  | unlink (del : Ptr)
  | free (del : Ptr)
  | kill (del : Ptr)
  deriving DecidableEq

structure Table where
  w : World
  mutex : Nat
  sems : Ptr → Nat
  pc : Ptr → Option Pc
  ctl : Ctl

/-- `p->state = s` -/
def setState (w : World) (p : Ptr) (s : States) : World := w.put p { w.philos p with state := s }

def state (w : World) (p : Ptr) : States := (w.philos p).state

def Table.go (t : Table) (p : Ptr) (c : Pc) : Table :=
  { t with pc := Function.update t.pc p (some c) }

/-- What follows `test`. -/
def after : Site → Pc
  | .own => .unlock true
  | .left => .call .right
  | .right => .unlock false

def argument (w : World) (p : Ptr) : Site → Ptr
  | .own => p
  | .left => w.left p
  | .right => w.right p

/-- `take_fork` and `put_fork` of the philosopher `p`, from `c` on; a semaphore that is 0 blocks. -/
def philosopher (p : Ptr) (t : Table) : Pc → Option Table
  | .lock took =>
      if 0 < t.mutex then
        some ({ t with mutex := t.mutex - 1 }.go p (if took then .hungry else .thinks))
      else none
  | .hungry => some ({ t with w := setState t.w p .hungry }.go p (.call .own))
  | .thinks => some ({ t with w := setState t.w p .thinking }.go p (.call .left))
  | .call site => some (t.go p (.isHungry site (argument t.w p site)))
  | .isHungry site q =>
      some (t.go p (if state t.w q = .hungry then .left site q else after site))
  | .left site q => some (t.go p (.leftEats site q (t.w.left q)))
  | .leftEats site q l =>
      some (t.go p (if state t.w l ≠ .eating then .right site q else after site))
  | .right site q => some (t.go p (.rightEats site q (t.w.right q)))
  | .rightEats site q r =>
      some (t.go p (if state t.w r ≠ .eating then .eat site q else after site))
  | .eat site q => some ({ t with w := setState t.w q .eating }.go p (.post site q))
  | .post site q =>
      let sem := (t.w.philos q).sem
      some ({ t with sems := Function.update t.sems sem (t.sems sem + 1) }.go p (after site))
  | .unlock took =>
      some ({ t with mutex := t.mutex + 1 }.go p (if took then .wait else .lock true))
  | .wait =>
      let sem := (t.w.philos p).sem
      if 0 < t.sems sem then
        some ({ t with sems := Function.update t.sems sem (t.sems sem - 1) }.go p (.lock false))
      else none

/-- `addPhilo` up to the store that links the new philosopher. -/
def enter (m : Mallocs) (t : Table) : Option Table := do
  let w := { t.w with philoCount := t.w.philoCount + 1 }
  let (new, w) ← (newPhilo m w.philoCount w).toOption
  let f ← w.firstPhil
  let w := w.setLeft new (w.left f)
  let w := w.setRight new f
  some { t with w := w, sems := Function.update t.sems m.sem 0, ctl := .linkRight new }

/-- `removePhilo` up to its first store. -/
def remove (t : Table) : Option Table := do
  let w := { t.w with philoCount := t.w.philoCount - 1 }
  let f ← w.firstPhil
  let del := w.left f
  some { t with w := w.setRight (w.left del) (w.right del), ctl := .unlink del }

/-- The process of `phylo` goes on; `sys_loadProcess` returns `pid`. -/
def next (pid : Int) (t : Table) : Option Table :=
  match t.ctl with
  | .ready => none
  | .launch phil => do
      let f ← t.w.firstPhil
      let t := { t with w := (t.w.setPid phil pid).call (.loadProcess phil) }.go phil (.lock true)
      some { t with ctl := if t.w.right phil ≠ f then .launch (t.w.right phil) else .ready }
  | .linkRight new => do
      let f ← t.w.firstPhil
      some { t with w := t.w.setRight (t.w.left f) new, ctl := .linkLeft new }
  | .linkLeft new => do
      let f ← t.w.firstPhil
      some { t with w := t.w.setLeft f new, ctl := .load new }
  | .load new =>
      some { { t with w := (t.w.setPid new pid).call (.loadProcess new) }.go new (.lock true) with
        ctl := .ready }
  | .unlink del =>
      some { t with w := t.w.setLeft (t.w.right del) (t.w.left del), ctl := .free del }
  | .free del =>
      let w := t.w.call (.semClose (t.w.philos del).sem)
      let w := w.call (.free (w.philos del).buffer)
      let w := w.call (.free (w.philos del).argv)
      some { t with w := w.freed del, ctl := .kill del }
  | .kill del =>
      some { t with
        w := t.w.call (.kill (t.w.philos del).pid)
        pc := Function.update t.pc del none
        ctl := .ready }

/-- A step of a philosopher's process, the keys `a` and `r`, and a step of `phylo`'s process. -/
inductive Event where
  | philosopher (p : Ptr)
  | addPhilo (m : Mallocs)
  | removePhilo
  | next (pid : Int)

def exec : Event → Table → Option Table
  | .philosopher p, t => do
      let c ← t.pc p
      philosopher p t c
  | .addPhilo m, t => if t.ctl = .ready then enter m t else none
  | .removePhilo, t => if t.ctl = .ready then remove t else none
  | .next pid, t => next pid t

/-- `removePhilo` leaves two philosophers. -/
def Leaves (t : Table) : Event → Prop
  | .removePhilo => 3 ≤ t.w.philoCount
  | _ => True

/-- The states of the runs whose steps all meet a condition: `phylo` builds a ring of at least two
philosophers, and no `removePhilo` leaves fewer. -/
inductive Runs (ok : Table → Event → Prop) : Table → Prop
  | start {ms : Nat → Mallocs} {w w' : World} {f : Ptr} : w.live = [] →
      (w.firstPhil = none ∨ w.firstPhil = (ms 0).phil) → 2 ≤ w.philoCount →
      buildRing ms w = .ok (f, w') → Runs ok ⟨w', 1, fun _ => 0, fun _ => none, .launch f⟩
  | step {t t' : Table} {e : Event} : Runs ok t → Leaves t e → ok t e →
      exec e t = some t' → Runs ok t'

def Eats (w : World) (p : Ptr) : Prop := state w p = .eating

/-- No two neighbours eat. -/
def Apart (w : World) : Prop :=
  ∀ p ∈ w.live, ∀ q ∈ w.live, p ≠ q → w.right p = q → w.left q = p → ¬ (Eats w p ∧ Eats w q)

/-- The philosopher that is tested. -/
def Pc.tested : Pc → Option Ptr
  | .isHungry _ q | .left _ q | .leftEats _ q _ | .right _ q | .rightEats _ q _ | .eat _ q => some q
  | _ => none

/-- The philosopher whose left link has been read in the test. -/
def Pc.sawLeft : Pc → Option Ptr
  | .leftEats _ q _ | .right _ q | .rightEats _ q _ | .eat _ q => some q
  | _ => none

/-- The philosopher whose right link has been read in the test. -/
def Pc.sawRight : Pc → Option Ptr
  | .rightEats _ q _ | .eat _ q => some q
  | _ => none

/-- Where `removePhilo` joins the neighbours of `del`, they do not eat both, nor does one eat while
a test of the other has read its link to `del`; and no process but its own tests `del`. -/
structure Joins (t : Table) (del : Ptr) : Prop where
  eaters : ¬ (Eats t.w (t.w.left del) ∧ Eats t.w (t.w.right del))
  seesLeft : ∀ p c, t.pc p = some c → c.sawLeft = some (t.w.right del) → ¬ Eats t.w (t.w.left del)
  seesRight : ∀ p c, t.pc p = some c → c.sawRight = some (t.w.left del) →
    ¬ Eats t.w (t.w.right del)
  tests : ∀ p c, t.pc p = some c → c.tested = some del → p = del

def Sparing (t : Table) : Event → Prop
  | .next _ => ∀ del, t.ctl = .unlink del → Joins t del
  | _ => True

end BottlerOS.Dining
