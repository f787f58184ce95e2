import BottlerOS.Library.LinkedList
import BottlerOS.Library.Yields
import BottlerOS.Semaphore

/-! `semClose` on the registry of `Kernel/utils/sem.c` as it lies in memory: the `node_t` list
at `firstSem`, and for each semaphore its record, its name and its queue of `pid_t`. -/

namespace BottlerOS.SemRegistry
open Machine Semaphore LinkedList Yields

/-- `pid_t`. -/
structure PidT where
  pid : Int
  next : Option Ptr

/-- `sem_t`; `name` is the address of its block. -/
structure Sem where
  value : Int
  name : Ptr
  entering : Option Ptr
  last : Option Ptr

/-- `node_t`. -/
structure Node where
  sem : Ptr
  next : Option Ptr

structure Registry where
  firstSem : Option Ptr
  nodes : Ptr → Option Node
  sems : Ptr → Option Sem
  names : Ptr → Option String
  pids : Ptr → Option PidT
  /-- A `char`. -/
  counter : Int
  semLock : Int

/-- `vPortFree` of a block that has to be live. -/
def free {α : Type} (mem : Ptr → Option α) (p : Ptr) : C (Ptr → Option α) := do
  let _ ← load mem p
  pure (Function.update mem p none)

/-- `enter_region(&semLock)`: with interrupts off nobody can release a lock that is taken. -/
def enter (r : Registry) : C Registry :=
  if r.semLock = 0 then pure { r with semLock := 1 } else .error .hang

def leave (r : Registry) : Registry := { r with semLock := 0 }

/-- The loop of `semClose` over the nodes behind the first one: the node that is unlinked. -/
def searchNext (sem : Ptr) (r : Registry) : Nat → Option Ptr → C (Option Ptr × Registry)
  | 0, _ => .error .hang
  | _ + 1, none => pure (none, r)
  | fuel + 1, some aux => do
      let node ← load r.nodes aux
      match node.next with
      | none => searchNext sem r fuel none
      | some del => do
          let next ← load r.nodes del
          if next.sem = sem then
            pure (some del, { r with
              nodes := Function.update r.nodes aux (some { node with next := next.next }) })
          else searchNext sem r fuel (some del)

/-- The loop that frees the queue. -/
def freePids : Nat → Option Ptr → (Ptr → Option PidT) → C (Ptr → Option PidT)
  | 0, _, _ => .error .hang
  | _ + 1, none, pids => pure pids
  | fuel + 1, some aux, pids => do
      let pid ← load pids aux
      let pids ← free pids aux
      freePids fuel pid.next pids

/-- `semClose` behind the search: the blocks of the semaphore and its node are freed. -/
def destroy (fuel : Nat) (sem del : Ptr) (r : Registry) : C Registry := do
  let x ← load r.sems sem
  let pids ← freePids fuel x.entering r.pids
  let names ← free r.names x.name
  let sems ← free r.sems sem
  let nodes ← free r.nodes del
  pure { r with pids := pids, names := names, sems := sems, nodes := nodes
                counter := char (r.counter - 1) }

/-- `searchSem`. -/
def searchSem (name : String) (r : Registry) : Nat → Option Ptr → C (Option Ptr)
  | 0, _ => .error .hang
  | _ + 1, none => pure none
  | fuel + 1, some aux => do
      let node ← load r.nodes aux
      let sem ← load r.sems node.sem
      let s ← load r.names sem.name
      if name = s then pure (some aux) else searchSem name r fuel node.next

def semOpen (fuel : Nat) (name : String) (value : Int) (m : SemMallocs) (r : Registry) :
    C (Ptr × Registry) := do
  let r ← enter r
  match ← searchSem name r fuel r.firstSem with
  | some aux => do
      let node ← load r.nodes aux
      pure (node.sem, leave r)
  | none => do
      let sem ← malloc r.sems m.sem
      let node ← malloc r.nodes m.node
      let block ← malloc r.names m.name
      let name ← copyName name
      pure (sem, leave { r with
        firstSem := some node
        nodes := Function.update r.nodes node (some { sem := sem, next := r.firstSem })
        sems := Function.update r.sems sem
          (some { value := uint32 value, name := block, entering := none, last := none })
        names := Function.update r.names block (some name)
        counter := char (r.counter + 1) })

/-- `semClose` up to its test of `del`. -/
def unlink (fuel : Nat) (sem : Ptr) (r : Registry) : C (Option Ptr × Registry) := do
  -- `firstSem->sem`, whether or not there is a first node
  let first ← deref r.firstSem
  let head ← load r.nodes first
  if head.sem = sem then pure (some first, { r with firstSem := head.next })
  else searchNext sem r fuel r.firstSem

def semClose (fuel : Nat) (sem : Option Ptr) (r : Registry) : C (Int × Registry) :=
  match sem with
  | none => pure (EXIT_FAILURE, r)
  | some sem => do
      let r ← enter r
      let (del, r) ← unlink fuel sem r
      match del with
      | none => pure (EXIT_FAILURE, leave r)
      | some del => do
          let r ← destroy fuel sem del r
          pure (EXIT_SUCCESS, leave r)

/-- A registered semaphore: the addresses of its blocks. -/
structure Entry where
  node : Ptr
  sem : Ptr
  name : Ptr
  queue : List Ptr

def nodeLink (r : Registry) (p : Ptr) : Option (Option Ptr) := (r.nodes p).map Node.next

def pidLink (r : Registry) (p : Ptr) : Option (Option Ptr) := (r.pids p).map PidT.next

/-- A registered semaphore has its blocks, and its queue comes to an end. -/
structure Entry.Live (r : Registry) (e : Entry) : Prop where
  node : ∃ n, r.nodes e.node = some n ∧ n.sem = e.sem
  sem : ∃ x, r.sems e.sem = some x ∧ x.name = e.name ∧
    Linked (pidLink r) x.entering e.queue none
  name : ∃ s, r.names e.name = some s

/-- The registry between two calls, with its semaphores in the order of the list. No block is
used twice. -/
structure Registered (r : Registry) (es : List Entry) : Prop where
  lock : r.semLock = 0
  links : Linked (nodeLink r) r.firstSem (es.map Entry.node) none
  live : ∀ e ∈ es, e.Live r
  nodes : (es.map Entry.node).Nodup
  sems : (es.map Entry.sem).Nodup
  names : (es.map Entry.name).Nodup
  queues : (es.flatMap Entry.queue).Nodup

/-- What `semClose(sem)` has to come to. -/
def Closes (r : Registry) (es : List Entry) (sem : Ptr) : Prop :=
  ∃ result r', Yields (fun fuel => semClose fuel (some sem) r) (result, r') ∧ r'.semLock = 0 ∧
    (sem ∉ es.map Entry.sem → result = EXIT_FAILURE ∧ r' = r) ∧
    (sem ∈ es.map Entry.sem → result = EXIT_SUCCESS ∧ r'.counter = char (r.counter - 1) ∧
      Registered r' (es.filter (·.sem ≠ sem)) ∧
      ∀ e ∈ es, e.sem ≠ sem → r'.sems e.sem = r.sems e.sem ∧ r'.names e.name = r.names e.name ∧
        ∀ p ∈ e.queue, r'.pids p = r.pids p)

section
variable {r r' : Registry} {es pre post : List Entry} {e a : Entry} {sem p del : Ptr}
  {link : Option Ptr}

theorem free_ok {α : Type} {mem : Ptr → Option α} {x : α} (h : mem p = some x) :
    free mem p = .ok (Function.update mem p none) := by
  rw [free, load_of h]
  rfl

theorem nodeLink_of {n : Node} (h : r.nodes p = some n) : nodeLink r p = some n.next := by
  rw [nodeLink, h]
  rfl

theorem nodeLink_update_ne {q : Ptr} {n : Node} (ne : q ≠ p) :
    nodeLink { r with nodes := Function.update r.nodes p (some n) } q = nodeLink r q := by
  simp only [nodeLink, Function.update_of_ne ne]

/-- The link of the first of some registered nodes. -/
theorem linked_first {rest : List Entry}
    (links : Linked (nodeLink r) link ((e :: rest).map Entry.node) none) (live : e.Live r) :
    link = some e.node ∧ ∃ n, r.nodes e.node = some n ∧ n.sem = e.sem ∧
      Linked (nodeLink r) n.next (rest.map Entry.node) none := by
  obtain ⟨rfl, next, hn, links⟩ := links
  obtain ⟨n, hnode, hsem⟩ := live.node
  obtain rfl := Option.some.inj ((nodeLink_of hnode).symm.trans hn)
  exact ⟨rfl, n, hnode, hsem, links⟩

/-- No node behind the first holds the semaphore. -/
theorem searchNext_absent (links : Linked (nodeLink r) link (es.map Entry.node) none)
    (live : ∀ e ∈ es, e.Live r) (absent : ∀ e ∈ es.tail, e.sem ≠ sem) :
    Yields (fun fuel => searchNext sem r fuel link) (none, r) := by
  have atEnd : Yields (fun fuel => searchNext sem r fuel none) (none, r) :=
    .step (.of_ok (x := .ok (none, r)) rfl) (fun _ h => by cases h) (fun _ => rfl)
  induction es generalizing link with
  | nil =>
    obtain rfl := linked_nil.mp links
    exact atEnd
  | cons e rest ih =>
    obtain ⟨rfl, n, hn, -, links⟩ := linked_first links (live e List.mem_cons_self)
    have liveRest : ∀ e ∈ rest, e.Live r := fun e he => live e (List.mem_cons_of_mem _ he)
    have next := ih links liveRest fun e he => absent e (List.mem_of_mem_tail he)
    refine next.step (fun _ h => by cases h) fun fuel => ?_
    rw [searchNext, load_of hn, ok_bind]
    cases rest with
    | nil =>
      rw [linked_nil.mp links]
    | cons b rest =>
      obtain ⟨hb, m, hm, hs, -⟩ := linked_first links (liveRest b List.mem_cons_self)
      have other : m.sem ≠ sem := hs ▸ absent b List.mem_cons_self
      rw [hb]
      simp only
      rw [load_of hm, ok_bind, if_neg other]

/-- The node behind `a` does, and none before it. -/
theorem searchNext_found
    (links : Linked (nodeLink r) link ((pre ++ a :: e :: post).map Entry.node) none)
    (live : ∀ x ∈ pre ++ a :: e :: post, x.Live r)
    (before : ∀ x ∈ (pre ++ [a]).tail, x.sem ≠ sem) (here : e.sem = sem) :
    ∃ n m, r.nodes a.node = some n ∧ r.nodes e.node = some m ∧
      Yields (fun fuel => searchNext sem r fuel link) (some e.node, { r with
        nodes := Function.update r.nodes a.node (some { n with next := m.next }) }) := by
  induction pre generalizing link with
  | nil =>
    obtain ⟨rfl, n, hn, -, links⟩ := linked_first links (live a (by simp))
    obtain ⟨he, m, hm, hs, -⟩ := linked_first links (live e (by simp))
    refine ⟨n, m, hn, hm, .step (.of_ok (x := .ok (some e.node, { r with
      nodes := Function.update r.nodes a.node (some { n with next := m.next }) })) rfl)
      (fun _ h => by cases h) fun fuel => ?_⟩
    rw [searchNext, load_of hn, ok_bind, he]
    simp only
    rw [load_of hm, ok_bind, if_pos (hs.trans here)]
    rfl
  | cons b pre ih =>
    obtain ⟨rfl, n, hn, -, links⟩ := linked_first links (live b (by simp))
    have links : Linked (nodeLink r) n.next ((pre ++ a :: e :: post).map Entry.node) none := links
    have liveRest : ∀ x ∈ pre ++ a :: e :: post, x.Live r :=
      fun x hx => live x (List.mem_cons_of_mem _ hx)
    obtain ⟨n', m, ha, hm, yields⟩ :=
      ih links liveRest fun x hx => before x (List.mem_of_mem_tail hx)
    refine ⟨n', m, ha, hm, yields.step (fun _ h => by cases h) fun fuel => ?_⟩
    rw [searchNext, load_of hn, ok_bind]
    obtain ⟨f, tl, hf⟩ : ∃ f tl, pre ++ a :: e :: post = f :: tl := by
      cases pre with
      | nil => exact ⟨a, e :: post, rfl⟩
      | cons f tl => exact ⟨f, _, rfl⟩
    have first : f ∈ pre ++ [a] := by
      cases pre with
      | nil => cases hf; simp
      | cons g tl => cases hf; simp
    rw [hf] at links
    obtain ⟨hb, m', hm', hs, -⟩ := linked_first links (liveRest f (hf ▸ List.mem_cons_self))
    have other : m'.sem ≠ sem := hs ▸ before f first
    rw [hb]
    simp only
    rw [load_of hm', ok_bind, if_neg other]

/-- What unlinking an entry leaves. -/
structure Unlinked (r r' : Registry) (e : Entry) (es : List Entry) : Prop where
  links : Linked (nodeLink r') r'.firstSem (es.map Entry.node) none
  holders : ∀ p, (r'.nodes p).map Node.sem = (r.nodes p).map Node.sem
  rest : r' = { r with firstSem := r'.firstSem, nodes := r'.nodes }

theorem unlink_absent (links : Linked (nodeLink r) r.firstSem ((e :: es).map Entry.node) none)
    (live : ∀ x ∈ e :: es, x.Live r) (absent : ∀ x ∈ e :: es, x.sem ≠ sem) :
    Yields (fun fuel => unlink fuel sem r) (none, r) := by
  obtain ⟨first, n, hn, hs, -⟩ := linked_first links (live e List.mem_cons_self)
  have other : n.sem ≠ sem := hs ▸ absent e List.mem_cons_self
  refine (searchNext_absent links live fun x hx => absent x (List.mem_of_mem_tail hx)).congr
    fun fuel => ?_
  rw [unlink, first, deref_some, ok_bind, load_of hn, ok_bind, if_neg other]

theorem unlink_found
    (links : Linked (nodeLink r) r.firstSem ((pre ++ e :: post).map Entry.node) none)
    (live : ∀ x ∈ pre ++ e :: post, x.Live r) (nodes : ((pre ++ e :: post).map Entry.node).Nodup)
    (before : ∀ x ∈ pre, x.sem ≠ sem) (here : e.sem = sem) :
    ∃ r', Yields (fun fuel => unlink fuel sem r) (some e.node, r') ∧
      Unlinked r r' e (pre ++ post) := by
  cases pre with
  | nil =>
    obtain ⟨first, n, hn, hs, rest⟩ := linked_first links (live e List.mem_cons_self)
    refine ⟨{ r with firstSem := n.next }, (Yields.of_ok rfl).congr fun fuel => ?_,
      rest, fun _ => rfl, rfl⟩
    rw [unlink, first, deref_some, ok_bind, load_of hn, ok_bind, if_pos (hs.trans here)]
    rfl
  | cons b pre =>
    obtain ⟨first, n, hn, hs, -⟩ := linked_first links (live b List.mem_cons_self)
    have other : n.sem ≠ sem := hs ▸ before b List.mem_cons_self
    obtain ⟨pre', a, hpre⟩ : ∃ pre' a, b :: pre = pre' ++ [a] :=
      ⟨_, _, (List.dropLast_append_getLast (List.cons_ne_nil b pre)).symm⟩
    have split : b :: pre ++ e :: post = pre' ++ a :: e :: post := by rw [hpre]; simp
    rw [split] at links live nodes
    obtain ⟨n', m, ha, hm, yields⟩ := searchNext_found links live
      (fun x hx => before x (hpre ▸ List.mem_of_mem_tail hx)) here
    refine ⟨_, yields.congr fun fuel => ?_, ?_, fun p => ?_, rfl⟩
    · rw [unlink, first, deref_some, ok_bind, load_of hn, ok_bind, if_neg other, ← first]
    · have ends : b :: pre ++ post = pre' ++ a :: post := by rw [hpre]; simp
      rw [ends, List.map_append, List.map_cons]
      rw [List.map_append, List.map_cons, List.map_cons] at links nodes
      exact linked_unlink links nodes (nodeLink_of hm) (fun x => nodeLink_update_ne)
        (nodeLink_of (n := { n' with next := m.next }) (Function.update_self _ _ _))
    · by_cases hp : p = a.node
      · subst hp
        simp only [Function.update_self, ha, Option.map_some]
      · simp only [Function.update_of_ne hp]

/-- The queue is freed from its first entry on. -/
theorem freePids_yields {pids : Ptr → Option PidT} {queue : List Ptr}
    (links : Linked (fun p => (pids p).map PidT.next) link queue none) (nodup : queue.Nodup) :
    Yields (fun fuel => freePids fuel link pids) (fun p => if p ∈ queue then none else pids p) := by
  induction queue generalizing link pids with
  | nil =>
    obtain rfl := linked_nil.mp links
    refine .step (.of_ok (x := .ok pids) ?_) (fun _ h => by cases h) fun _ => rfl
    simp
  | cons q rest ih =>
    obtain ⟨rfl, next, hq, links⟩ := links
    obtain ⟨hq', nodup⟩ := List.nodup_cons.mp nodup
    obtain ⟨x, hx, rfl⟩ := Option.map_eq_some_iff.mp hq
    have freed : Linked (fun p => (Function.update pids q none p).map PidT.next) x.next rest none :=
      linked_congr (fun y hy => by
        rw [Function.update_of_ne (ne_of_mem_of_not_mem hy hq')]) links
    have yields := ih freed nodup
    have same : (fun p => if p ∈ rest then none else Function.update pids q none p) =
        fun p => if p ∈ q :: rest then none else pids p := by
      funext p
      by_cases hp : p = q
      · subst hp
        simp
      · simp [hp]
    rw [← same]
    refine yields.step (fun _ h => by cases h) fun fuel => ?_
    rw [freePids, load_of hx, ok_bind, free_ok hx, ok_bind]

/-- The registry without the blocks of an entry that is not linked any more. -/
def cleared (r : Registry) (e : Entry) : Registry := { r with
  pids := fun p => if p ∈ e.queue then none else r.pids p
  names := Function.update r.names e.name none
  sems := Function.update r.sems e.sem none
  nodes := Function.update r.nodes e.node none
  counter := char (r.counter - 1) }

theorem destroy_yields (live : e.Live r) (queue : e.queue.Nodup) :
    Yields (fun fuel => destroy fuel e.sem e.node r) (cleared r e) := by
  obtain ⟨n, hn, -⟩ := live.node
  obtain ⟨x, hx, name, links⟩ := live.sem
  obtain ⟨str, hs⟩ := live.name
  refine ((freePids_yields links queue).bind (k := fun _ pids => do
    let names ← free r.names x.name
    let sems ← free r.sems e.sem
    let nodes ← free r.nodes e.node
    pure { r with pids := pids, names := names, sems := sems, nodes := nodes
                  counter := char (r.counter - 1) }) (.of_ok ?_)).congr fun fuel => ?_
  · rw [name, free_ok hs, ok_bind, free_ok hx, ok_bind, free_ok hn, ok_bind]
    rfl
  · rw [destroy, load_of hx, ok_bind]

theorem Entry.Live.locked (live : a.Live r) (lock : Int) : a.Live { r with semLock := lock } :=
  ⟨live.node, live.sem, live.name⟩

/-- No two entries of a registry share a block. -/
structure Entry.Apart (a e : Entry) : Prop where
  node : a.node ≠ e.node
  sem : a.sem ≠ e.sem
  name : a.name ≠ e.name
  queue : ∀ p ∈ a.queue, p ∉ e.queue

theorem Registered.apart (h : Registered r (pre ++ e :: post)) (ha : a ∈ pre ++ post) :
    a.Apart e := by
  have distinct : ∀ (f : Entry → Ptr), ((pre ++ e :: post).map f).Nodup → f a ≠ f e := by
    intro f nodup same
    rw [List.map_append, List.map_cons] at nodup
    apply (List.nodup_middle.mp nodup).notMem
    rw [← List.map_append, ← same]
    exact List.mem_map_of_mem ha
  refine ⟨distinct _ h.nodes, distinct _ h.sems, distinct _ h.names, fun p hp hp' => ?_⟩
  have queues := h.queues
  rw [List.flatMap_append, List.flatMap_cons, List.nodup_append, List.nodup_append] at queues
  obtain ⟨-, ⟨-, -, right⟩, left⟩ := queues
  rcases List.mem_append.mp ha with ha | ha
  · exact left p (List.mem_flatMap_of_mem ha hp) p (List.mem_append_left _ hp') rfl
  · exact right p hp' p (List.mem_flatMap_of_mem ha hp) rfl

/-- The blocks of other entries do not notice. -/
theorem Entry.Live.cleared (live : a.Live r) (apart : a.Apart e) : a.Live (cleared r e) := by
  obtain ⟨n, hn, hs⟩ := live.node
  obtain ⟨x, hx, hname, links⟩ := live.sem
  obtain ⟨str, hstr⟩ := live.name
  refine ⟨⟨n, (Function.update_of_ne apart.node _ _).trans hn, hs⟩,
    ⟨x, (Function.update_of_ne apart.sem _ _).trans hx, hname,
      linked_congr (fun p hp => ?_) links⟩,
    ⟨str, (Function.update_of_ne apart.name _ _).trans hstr⟩⟩
  simp only [pidLink, SemRegistry.cleared, if_neg (apart.queue p hp)]

theorem Entry.Live.unlinked (live : a.Live r) (u : Unlinked r r' e es) : a.Live r' := by
  obtain ⟨n, hn, hs⟩ := live.node
  have holder := u.holders a.node
  rw [hn] at holder
  obtain ⟨m, hm, same⟩ := Option.map_eq_some_iff.mp holder
  have sem := live.sem
  have name := live.name
  rw [u.rest]
  exact ⟨⟨m, hm, same.trans hs⟩, sem, name⟩

/-- Without the entry the registry is in order again. -/
theorem Registered.cleared (h : Registered r (pre ++ e :: post))
    (u : Unlinked { r with semLock := 1 } r' e (pre ++ post)) :
    Registered (leave (cleared r' e)) (pre ++ post) := by
  have sub : (pre ++ post).Sublist (pre ++ e :: post) :=
    List.Sublist.append (List.Sublist.refl _) (List.sublist_cons_self _ _)
  refine ⟨rfl, linked_congr (fun p hp => ?_) u.links, fun a ha => ?_,
    (sub.map _).nodup h.nodes, (sub.map _).nodup h.sems, (sub.map _).nodup h.names, ?_⟩
  · obtain ⟨a, ha, rfl⟩ := List.mem_map.mp hp
    have apart := (h.apart ha).node
    simp only [nodeLink, leave, SemRegistry.cleared, Function.update_of_ne apart]
  · exact ((((h.live a (sub.subset ha)).locked 1).unlinked u).cleared (h.apart ha)).locked 0
  · have queues := h.queues
    rw [List.flatMap_append, List.flatMap_cons] at queues
    rw [List.flatMap_append]
    exact (List.Sublist.append (List.Sublist.refl _) (List.sublist_append_right _ _)).nodup queues

theorem Registered.filter (h : Registered r (pre ++ e :: post)) :
    (pre ++ e :: post).filter (·.sem ≠ e.sem) = pre ++ post := by
  have others : ∀ a ∈ pre ++ post, a.sem ≠ e.sem := fun a ha => (h.apart ha).sem
  rw [List.filter_append, List.filter_cons_of_neg (by simp), ← List.filter_append,
    List.filter_eq_self.mpr]
  intro a ha
  exact decide_eq_true (others a ha)

theorem enter_free (lock : r.semLock = 0) : enter r = .ok { r with semLock := 1 } := by
  rw [enter, if_pos lock]
  rfl

theorem leave_enter (lock : r.semLock = 0) : leave { r with semLock := 1 } = r := by
  rw [leave, ← lock]

/-- A semaphore that is not in a registry of at least one. -/
theorem Registered.semClose_absent (h : Registered r (e :: es))
    (absent : sem ∉ (e :: es).map Entry.sem) :
    Yields (fun fuel => semClose fuel (some sem) r) (EXIT_FAILURE, r) := by
  have others : ∀ x ∈ e :: es, x.sem ≠ sem :=
    fun x hx same => absent (List.mem_map.mpr ⟨x, hx, same⟩)
  have yields := unlink_absent (r := { r with semLock := 1 }) h.links
    (fun x hx => (h.live x hx).locked 1) others
  refine (yields.bind (k := fun fuel x => match x.1 with
    | none => pure (EXIT_FAILURE, leave x.2)
    | some del => do
        let r ← destroy fuel sem del x.2
        pure (EXIT_SUCCESS, leave r)) (.of_ok ?_)).congr fun fuel => ?_
  · rw [leave_enter h.lock]
  · rw [semClose, enter_free h.lock, ok_bind]

/-- A registered one. -/
theorem Registered.semClose_found (h : Registered r (pre ++ e :: post)) :
    ∃ r', Unlinked { r with semLock := 1 } r' e (pre ++ post) ∧
      Yields (fun fuel => semClose fuel (some e.sem) r)
        (EXIT_SUCCESS, leave (SemRegistry.cleared r' e)) := by
  have here : e ∈ pre ++ e :: post := by simp
  have before : ∀ x ∈ pre, x.sem ≠ e.sem :=
    fun x hx => (h.apart (List.mem_append_left _ hx)).sem
  obtain ⟨r', yields, u⟩ := unlink_found (r := { r with semLock := 1 }) h.links
    (fun x hx => (h.live x hx).locked 1) h.nodes before rfl
  have queue : e.queue.Nodup := by
    have queues := h.queues
    rw [List.flatMap_append, List.flatMap_cons] at queues
    exact (List.nodup_append.mp (List.nodup_append.mp queues).2.1).1
  have destroyed := destroy_yields (((h.live e here).locked 1).unlinked u) queue
  refine ⟨r', u, (yields.bind (k := fun fuel x => match x.1 with
    | none => pure (EXIT_FAILURE, leave x.2)
    | some del => do
        let r ← destroy fuel e.sem del x.2
        pure (EXIT_SUCCESS, leave r)) (destroyed.bind
      (k := fun _ r => pure (EXIT_SUCCESS, leave r)) (.of_ok rfl))).congr fun fuel => ?_⟩
  rw [semClose, enter_free h.lock, ok_bind]

/-- Blocks that were not live. -/
theorem Entry.Live.fresh {node block : Ptr} {n : Node} {x : Sem} (str : String)
    (live : a.Live r) (hnode : r.nodes node = none) (hsem : r.sems sem = none)
    (hname : r.names block = none) (first : Option Ptr) (counter lock : Int) :
    a.Live { r with
      firstSem := first, counter := counter, semLock := lock
      nodes := Function.update r.nodes node (some n)
      sems := Function.update r.sems sem (some x)
      names := Function.update r.names block (some str) } := by
  obtain ⟨m, hm, hs⟩ := live.node
  obtain ⟨y, hy, links⟩ := live.sem
  obtain ⟨s, hstr⟩ := live.name
  have apart : a.node ≠ node ∧ a.sem ≠ sem ∧ a.name ≠ block := by
    refine ⟨?_, ?_, ?_⟩ <;> rintro rfl
    · rw [hnode] at hm; cases hm
    · rw [hsem] at hy; cases hy
    · rw [hname] at hstr; cases hstr
  exact ⟨⟨m, (Function.update_of_ne apart.1 _ _).trans hm, hs⟩,
    ⟨y, (Function.update_of_ne apart.2.1 _ _).trans hy, links⟩,
    ⟨s, (Function.update_of_ne apart.2.2 _ _).trans hstr⟩⟩

/-- `semOpen` finds the name or puts a new semaphore in front. -/
theorem Registered.semOpen (h : Registered r es) {fuel : Nat} {name : String} {value : Int}
    {m : SemMallocs} {q : Ptr} (run : semOpen fuel name value m r = .ok (q, r')) :
    Registered r' es ∧ r' = r ∨ ∃ e, e.sem = q ∧ Registered r' (e :: es) := by
  rw [SemRegistry.semOpen, enter_free h.lock, ok_bind] at run
  obtain ⟨found, -, run⟩ := bind_ok.mp run
  cases found with
  | some aux =>
    obtain ⟨node, -, run⟩ := bind_ok.mp run
    obtain ⟨-, rfl⟩ := Prod.mk.inj (Except.ok.inj run)
    rw [leave_enter h.lock]
    exact .inl ⟨h, rfl⟩
  | none =>
    obtain ⟨sem, hsem, run⟩ := bind_ok.mp run
    obtain ⟨node, hnode, run⟩ := bind_ok.mp run
    obtain ⟨block, hblock, run⟩ := bind_ok.mp run
    obtain ⟨str, -, run⟩ := bind_ok.mp run
    obtain ⟨rfl, rfl⟩ := Prod.mk.inj (Except.ok.inj run)
    have freeSem : r.sems sem = none := (malloc_ok.mp hsem).2.1
    have freeNode : r.nodes node = none := (malloc_ok.mp hnode).2.1
    have freeName : r.names block = none := (malloc_ok.mp hblock).2.1
    have live := fun a ha => (h.live a ha).fresh (n := ⟨sem, r.firstSem⟩)
      (x := ⟨uint32 value, block, none, none⟩) str freeNode freeSem freeName
      (some node) (char (r.counter + 1)) 0
    have apart : ∀ a ∈ es, a.node ≠ node ∧ a.sem ≠ sem ∧ a.name ≠ block := by
      intro a ha
      obtain ⟨m, hm, -⟩ := (h.live a ha).node
      obtain ⟨y, hy, -⟩ := (h.live a ha).sem
      obtain ⟨s, hs⟩ := (h.live a ha).name
      refine ⟨?_, ?_, ?_⟩ <;> rintro rfl
      · rw [freeNode] at hm; cases hm
      · rw [freeSem] at hy; cases hy
      · rw [freeName] at hs; cases hs
    refine .inr ⟨⟨node, sem, block, []⟩, rfl, rfl, ⟨rfl, r.firstSem, ?_, ?_⟩, ?_, ?_, ?_, ?_, ?_⟩
    · simp only [nodeLink, leave, Function.update_self, Option.map_some]
    · refine linked_congr (fun p hp => ?_) h.links
      obtain ⟨a, ha, rfl⟩ := List.mem_map.mp hp
      simp only [nodeLink, leave, Function.update_of_ne (apart a ha).1]
    · rw [List.forall_mem_cons]
      exact ⟨⟨⟨_, Function.update_self _ _ _, rfl⟩, ⟨_, Function.update_self _ _ _, rfl, rfl⟩,
        ⟨_, Function.update_self _ _ _⟩⟩, live⟩
    · refine List.nodup_cons.mpr ⟨fun mem => ?_, h.nodes⟩
      obtain ⟨a, ha, same⟩ := List.mem_map.mp mem
      exact (apart a ha).1 same
    · refine List.nodup_cons.mpr ⟨fun mem => ?_, h.sems⟩
      obtain ⟨a, ha, same⟩ := List.mem_map.mp mem
      exact (apart a ha).2.1 same
    · refine List.nodup_cons.mpr ⟨fun mem => ?_, h.names⟩
      obtain ⟨a, ha, same⟩ := List.mem_map.mp mem
      exact (apart a ha).2.2 same
    · exact h.queues

/-- `semClose` does what it has to, unless no semaphore is registered. -/
theorem semClose_closes_iff (h : Registered r es) (sem : Ptr) :
    Closes r es sem ↔ r.firstSem ≠ none := by
  cases es with
  | nil =>
    have first : r.firstSem = none := linked_nil.mp h.links
    refine ⟨fun ⟨result, r', yields, _⟩ => ?_, fun some => absurd first some⟩
    obtain ⟨fuel, run⟩ := yields.exists
    rw [semClose, enter_free h.lock, ok_bind, unlink, first] at run
    cases run
  | cons b rest =>
    have first : r.firstSem ≠ none := by
      rw [h.links.1]
      exact Option.some_ne_none _
    refine ⟨fun _ => first, fun _ => ?_⟩
    by_cases registered : sem ∈ (b :: rest).map Entry.sem
    · obtain ⟨e, he, rfl⟩ := List.mem_map.mp registered
      obtain ⟨pre, post, split⟩ := List.append_of_mem he
      rw [split] at h ⊢
      obtain ⟨r', u, yields⟩ := h.semClose_found
      refine ⟨_, _, yields, rfl, fun absent => absurd ?_ absent, fun _ => ⟨rfl, ?_, ?_, ?_⟩⟩
      · exact List.mem_map_of_mem (by simp)
      · rw [u.rest]
        rfl
      · rw [h.filter]
        exact h.cleared u
      · intro a ha other
        have mem : a ∈ pre ++ post := by
          rw [← h.filter]
          exact List.mem_filter.mpr ⟨ha, decide_eq_true other⟩
        have apart := h.apart mem
        rw [u.rest]
        exact ⟨Function.update_of_ne apart.sem _ _, Function.update_of_ne apart.name _ _,
          fun p hp => if_neg (apart.queue p hp)⟩
    · exact ⟨_, _, h.semClose_absent registered, h.lock, fun _ => ⟨rfl, rfl⟩,
        fun mem => absurd mem registered⟩

/-- `semClose` over the kernel's state, where the registry is the list of its semaphores, is
this one: it comes to an end when this one does, with the same result and the same list. -/
theorem Registered.semClose_list (h : Registered r es) {k : Kernel} (lock : k.semLock = 0)
    (first : k.firstSem = es.map Entry.sem) (live : ∀ s ∈ k.firstSem, ∃ x, k.sems s = some x)
    {result : Int} (yields : Yields (fun fuel => semClose fuel (some sem) r) (result, r')) :
    ∃ k', Semaphore.semClose (some sem) k = .ok (result, k') ∧
      k'.firstSem = (es.filter (·.sem ≠ sem)).map Entry.sem := by
  have entered : Semaphore.enter_region k = .ok { k with semLock := 1 } := by
    rw [Semaphore.enter_region, if_pos lock]
    rfl
  cases es with
  | nil =>
    obtain ⟨fuel, run⟩ := yields.exists
    rw [semClose, enter_free h.lock, ok_bind, unlink, show r.firstSem = none from h.links] at run
    cases run
  | cons b rest =>
    have head : k.firstSem.head? = some b.sem := by rw [first]; rfl
    have started : Semaphore.semClose (some sem) k =
        if sem ∉ k.firstSem then
          .ok (EXIT_FAILURE, Semaphore.leave_region { k with semLock := 1 })
        else (load k.sems sem).bind fun _ =>
          .ok (EXIT_SUCCESS, Semaphore.leave_region { k with
            semLock := 1
            firstSem := k.firstSem.erase sem
            sems := Function.update k.sems sem none }) := by
      rw [Semaphore.semClose, entered, ok_bind]
      simp only
      rw [head, deref_some, ok_bind]
      rfl
    by_cases mem : sem ∈ (b :: rest).map Entry.sem
    · obtain ⟨x, hx⟩ := live sem (first ▸ mem)
      obtain ⟨e, he, same⟩ := List.mem_map.mp mem
      obtain ⟨pre, post, split⟩ := List.append_of_mem he
      have found : ∃ r'', Yields (fun fuel => semClose fuel (some sem) r) (EXIT_SUCCESS, r'') := by
        rw [split] at h
        obtain ⟨r'', -, found⟩ := h.semClose_found
        exact ⟨_, same ▸ found⟩
      obtain ⟨r'', found⟩ := found
      obtain ⟨fuel, run⟩ := yields.exists
      obtain ⟨rfl, -⟩ := Prod.mk.inj (found.eq run)
      have closed := started.trans (if_neg (not_not.mpr (first ▸ mem)))
      rw [load_of hx] at closed
      refine ⟨_, closed, ?_⟩
      change k.firstSem.erase sem = _
      rw [first, h.sems.erase_eq_filter, List.filter_map]
      congr 1
      apply List.filter_congr
      intro a _
      rw [Function.comp_apply, bne, Bool.beq_eq_decide_eq, decide_not]
    · obtain ⟨fuel, run⟩ := yields.exists
      obtain ⟨rfl, rfl⟩ := Prod.mk.inj ((h.semClose_absent mem).eq run)
      refine ⟨_, (started.trans (if_pos (first ▸ mem))).trans rfl, ?_⟩
      have others : (b :: rest).filter (·.sem ≠ sem) = b :: rest := by
        apply List.filter_eq_self.mpr
        intro a ha
        exact decide_eq_true fun same => mem (List.mem_map.mpr ⟨a, ha, same⟩)
      rw [others]
      exact first

end

/-- The registry before the first `semOpen`. -/
def empty : Registry :=
  ⟨none, fun _ => none, fun _ => none, fun _ => none, fun _ => none, 0, 0⟩

theorem empty_registered : Registered empty [] :=
  ⟨rfl, rfl, by simp, .nil, .nil, .nil, .nil⟩

/-- Two semaphores, the first of them with a process in its queue. -/
def pair : Registry where
  firstSem := some 10
  nodes := fun p => if p = 10 then some ⟨20, some 11⟩ else if p = 11 then some ⟨21, none⟩ else none
  sems := fun p => if p = 20 then some ⟨0, 30, some 40, some 40⟩ else
    if p = 21 then some ⟨1, 31, none, none⟩ else none
  names := fun p => if p = 30 then some "a" else if p = 31 then some "b" else none
  pids := fun p => if p = 40 then some ⟨2, none⟩ else none
  counter := 2
  semLock := 0

theorem pair_registered : Registered pair [⟨10, 20, 30, [40]⟩, ⟨11, 21, 31, []⟩] where
  lock := rfl
  links := ⟨rfl, _, rfl, rfl, _, rfl, rfl⟩
  live := by
    simp only [List.forall_mem_cons]
    exact ⟨⟨⟨_, rfl, rfl⟩, ⟨_, rfl, rfl, rfl, _, rfl, rfl⟩, ⟨_, rfl⟩⟩,
      ⟨⟨_, rfl, rfl⟩, ⟨_, rfl, rfl, rfl⟩, ⟨_, rfl⟩⟩, by simp⟩
  nodes := by decide
  sems := by decide
  names := by decide
  queues := by decide

theorem semClose_closes_pair :
    Closes pair [⟨10, 20, 30, [40]⟩, ⟨11, 21, 31, []⟩] 21 ↔ pair.firstSem ≠ none :=
  semClose_closes_iff pair_registered 21

/-- With nothing registered, as behind the last `semClose`, the first node is read all the
same. -/
theorem semClose_follows_null : Registered empty [] ∧ ¬ Closes empty [] 4096 := by
  refine ⟨empty_registered, fun ⟨result, r', yields, _⟩ => ?_⟩
  obtain ⟨fuel, run⟩ := yields.exists
  cases run

end BottlerOS.SemRegistry
