import BottlerOS.SemRegistry
import BottlerOS.SemSteps

/-! `closePipe` on the blocks of `Kernel/utils/pipe.c` as they lie in memory. Every access to a
field of a pipe's record and every call of `vPortFree` is put down in a log. What a freed block
holds stays there until the heap hands it out again, so a read of it comes back. -/

namespace BottlerOS.PipeBlocks
open Machine Semaphore LinkedList Yields

/-- `pipe_t`, as far as closing it goes. `fd` is its first member: `pipe->fd` is the address of
the record. -/
structure Record where
  fd0 : Int
  fd1 : Int
  buffer : Ptr
  name : Ptr
  sem : Ptr
  fullSem : Ptr
  deriving DecidableEq

/-- `node_t`. -/
structure Node where
  pipe : Ptr
  next : Option Ptr

inductive Touch where
  /-- A field of the record at `pipe`. -/
  | field (pipe : Ptr)
  /-- `vPortFree(block)`. -/
  | freed (block : Ptr)
  deriving DecidableEq

structure Pipes where
  firstPipe : Option Ptr
  nodes : Ptr → Option Node
  records : Ptr → Option Record
  log : List Touch

/-- `node->pipe`, for one of its fields. -/
def fieldsOf (node : Ptr) (w : Pipes) : C (Ptr × Record × Pipes) := do
  let n ← load w.nodes node
  let x ← load w.records n.pipe
  pure (n.pipe, x, { w with log := w.log ++ [.field n.pipe] })

def vPortFree (block : Ptr) (w : Pipes) : Pipes := { w with log := w.log ++ [.freed block] }

/-- `searchPipe`: the node, and the one before it. -/
def searchPipe (fd : Int) : Nat → Option Ptr → Option Ptr → Pipes →
    C (Option Ptr × Option Ptr × Pipes)
  | 0, _, _, _ => .error .hang
  | _ + 1, _, none, w => pure (none, none, w)
  | fuel + 1, previous, some curr, w => do
      let (_, x, w) ← fieldsOf curr w
      if x.fd0 = fd ∨ x.fd1 = fd then pure (some curr, previous, w)
      else do
        let n ← load w.nodes curr
        searchPipe fd fuel (some curr) n.next w

/-- The five calls of `vPortFree`. -/
def freeBlocks (del : Ptr) (w : Pipes) : C Pipes := do
  let n ← load w.nodes del
  -- `del->pipe->fd` is an address: nothing is read at it
  let w := vPortFree n.pipe w
  let (_, x, w) ← fieldsOf del w
  let w := vPortFree x.name w
  let (_, x, w) ← fieldsOf del w
  let w := vPortFree x.buffer w
  let w := vPortFree n.pipe w
  pure (vPortFree del w)

/-- The node is taken off the list. -/
def relink (del : Ptr) (prev : Option Ptr) (w : Pipes) : C Pipes := do
  let n ← load w.nodes del
  match prev with
  | some prev => do
      let p ← load w.nodes prev
      pure { w with nodes := Function.update w.nodes prev (some { p with next := n.next }) }
  | none => pure { w with firstPipe := n.next }

/-- `closePipe`. `wait` is its call of `semWait` up to where that comes back: while the caller is
in the queue, the processes that run do what they like to the rest of the kernel. -/
def closePipe (wait : Ptr → Kernel → C Kernel) (fuel : Nat) (fd : Int) (k : Kernel) (w : Pipes) :
    C (Kernel × Pipes) := do
  let (found, prev, w) ← searchPipe fd fuel none w.firstPipe w
  match found with
  | none => pure (k, w)
  | some del => do
      let (_, x, w) ← fieldsOf del w
      let k ← wait x.sem k
      let w ← relink del prev w
      let (_, x, w) ← fieldsOf del w
      let (_, k) ← semClose (some x.sem) k
      let (_, x, w) ← fieldsOf del w
      let (_, k) ← semClose (some x.fullSem) k
      let w ← freeBlocks del w
      pure (k, w)

/-- An open pipe: where its node and its record are, and what the record holds. -/
structure Entry where
  node : Ptr
  pipe : Ptr
  record : Record
  deriving DecidableEq

/-- The blocks that `openPipe` takes for a pipe. -/
def Entry.blocks (e : Entry) : List Ptr := [e.pipe, e.record.name, e.record.buffer, e.node]

def Entry.has (fd : Int) (e : Entry) : Prop := e.record.fd0 = fd ∨ e.record.fd1 = fd

instance (fd : Int) : DecidablePred (Entry.has fd) := fun e =>
  inferInstanceAs (Decidable (e.record.fd0 = fd ∨ e.record.fd1 = fd))

def nodeLink (w : Pipes) (p : Ptr) : Option (Option Ptr) := (w.nodes p).map Node.next

structure Entry.Live (w : Pipes) (e : Entry) : Prop where
  node : ∃ n, w.nodes e.node = some n ∧ n.pipe = e.pipe
  record : w.records e.pipe = some e.record

/-- The open pipes, in the order of the list. No block is used twice. -/
structure Opened (w : Pipes) (es : List Entry) : Prop where
  links : Linked (nodeLink w) w.firstPipe (es.map Entry.node) none
  live : ∀ e ∈ es, e.Live w
  blocks : (es.flatMap Entry.blocks).Nodup

/-- Closing the pipe `e` has to touch its blocks like this. -/
structure Clean (es : List Entry) (e : Entry) (log : List Touch) : Prop where
  once : ∀ b ∈ e.blocks, log.count (.freed b) = 1
  others : ∀ a ∈ es, a ≠ e → ∀ b ∈ a.blocks, Touch.freed b ∉ log
  after : ∀ pre post, log = pre ++ .freed e.pipe :: post → Touch.field e.pipe ∉ post

/-- What `closePipe(fd)` has to come to. -/
def Closes (wait : Ptr → Kernel → C Kernel) (fd : Int) (k : Kernel) (w : Pipes)
    (es : List Entry) : Prop :=
  ∃ fuel k' w' log, closePipe wait fuel fd k w = .ok (k', w') ∧ w'.log = w.log ++ log ∧
    match es.find? (fun e => decide (e.has fd)) with
    | some e => Clean es e log ∧ Opened w' (es.erase e)
    | none => k' = k ∧ w' = { w with log := w'.log } ∧ ∀ b, Touch.freed b ∉ log

section
variable {w w' : Pipes} {es pre post : List Entry} {e a : Entry} {fd : Int} {k k' : Kernel}
  {link : Option Ptr} {wait : Ptr → Kernel → C Kernel} {fuel : Nat}

theorem nodeLink_of {p : Ptr} {n : Node} (h : w.nodes p = some n) : nodeLink w p = some n.next := by
  rw [nodeLink, h]
  rfl

theorem Entry.Live.fieldsOf (live : e.Live w) :
    fieldsOf e.node w = .ok (e.pipe, e.record, { w with log := w.log ++ [.field e.pipe] }) := by
  obtain ⟨n, hn, hp⟩ := live.node
  rw [PipeBlocks.fieldsOf, load_of hn, ok_bind, hp, load_of live.record]
  rfl

theorem Entry.Live.logged (live : e.Live w) (log : List Touch) : e.Live { w with log := log } :=
  ⟨live.node, live.record⟩

theorem linked_first {rest : List Entry}
    (links : Linked (nodeLink w) link ((e :: rest).map Entry.node) none) (live : e.Live w) :
    link = some e.node ∧ ∃ n, w.nodes e.node = some n ∧ n.pipe = e.pipe ∧
      Linked (nodeLink w) n.next (rest.map Entry.node) none := by
  obtain ⟨rfl, next, hn, links⟩ := links
  obtain ⟨n, hnode, hpipe⟩ := live.node
  obtain rfl := Option.some.inj ((nodeLink_of hnode).symm.trans hn)
  exact ⟨rfl, n, hnode, hpipe, links⟩

/-- What looking at the pipes of some nodes leaves. -/
def looked (w : Pipes) (es : List Entry) : Pipes :=
  { w with log := w.log ++ es.map fun e => .field e.pipe }

theorem looked_cons (w : Pipes) (e : Entry) (es : List Entry) :
    looked (looked w [e]) es = looked w (e :: es) := by
  simp only [looked, List.map_cons, List.map_nil, List.append_assoc, List.singleton_append]

theorem Entry.Live.looked (live : e.Live w) (es : List Entry) : e.Live (looked w es) :=
  live.logged _

/-- One turn of the search. -/
theorem searchPipe_turn {n : Node} (live : e.Live w) (hn : w.nodes e.node = some n) :
    searchPipe fd (fuel + 1) previous (some e.node) w =
      if e.has fd then .ok (some e.node, previous, looked w [e])
      else searchPipe fd fuel (some e.node) n.next (looked w [e]) := by
  have hn' : (looked w [e]).nodes e.node = some n := hn
  rw [searchPipe, live.fieldsOf, ok_bind]
  simp only
  split <;> rename_i has
  · exact (if_pos has).symm
  · rw [if_neg (show ¬ e.has fd from has)]
    rw [looked, List.map_cons, List.map_nil] at hn' ⊢
    rw [load_of hn', ok_bind]

theorem searchPipe_absent (previous : Option Ptr)
    (links : Linked (nodeLink w) link (es.map Entry.node) none)
    (live : ∀ e ∈ es, e.Live w) (absent : ∀ e ∈ es, ¬ e.has fd) :
    Yields (fun fuel => searchPipe fd fuel previous link w) (none, none, looked w es) := by
  induction es generalizing link previous w with
  | nil =>
    obtain rfl := linked_nil.mp links
    refine .step (.of_ok (x := .ok (none, none, looked w [])) rfl) (fun _ h => by cases h)
      fun _ => ?_
    rw [looked, List.map_nil, List.append_nil]
    rfl
  | cons e rest ih =>
    obtain ⟨rfl, n, hn, -, links⟩ := linked_first links (live e List.mem_cons_self)
    have next := ih (w := looked w [e]) (some e.node) links
      (fun a ha => (live a (List.mem_cons_of_mem _ ha)).looked _)
      fun a ha => absent a (List.mem_cons_of_mem _ ha)
    rw [looked_cons] at next
    refine next.step (fun _ h => by cases h) fun fuel => ?_
    rw [searchPipe_turn (live e List.mem_cons_self) hn, if_neg (absent e List.mem_cons_self)]

theorem searchPipe_found (previous : Option Ptr)
    (links : Linked (nodeLink w) link ((pre ++ e :: post).map Entry.node) none)
    (live : ∀ a ∈ pre ++ e :: post, a.Live w) (before : ∀ a ∈ pre, ¬ a.has fd)
    (here : e.has fd) :
    Yields (fun fuel => searchPipe fd fuel previous link w)
      (some e.node, (pre.getLast?.map Entry.node).or previous, looked w (pre ++ [e])) := by
  induction pre generalizing link previous w with
  | nil =>
    obtain ⟨rfl, n, hn, -, -⟩ := linked_first links (live e (by simp))
    refine .step (.of_ok (x := .ok (some e.node, previous, looked w [e])) rfl)
      (fun _ h => by cases h) fun fuel => ?_
    rw [searchPipe_turn (live e (by simp)) hn, if_pos here]
  | cons b pre ih =>
    obtain ⟨rfl, n, hn, -, links⟩ := linked_first links (live b (by simp))
    have next := ih (w := looked w [b]) (some b.node) links
      (fun a ha => (live a (List.mem_cons_of_mem _ ha)).looked _)
      fun a ha => before a (List.mem_cons_of_mem _ ha)
    rw [looked_cons] at next
    have last : ((b :: pre).getLast?.map Entry.node).or previous =
        (pre.getLast?.map Entry.node).or (some b.node) := by
      cases pre with
      | nil => rfl
      | cons c pre =>
        rw [List.getLast?_cons_cons, List.getLast?_cons]
        rfl
    rw [last]
    refine next.step (fun _ h => by cases h) fun fuel => ?_
    rw [searchPipe_turn (live b (by simp)) hn, if_neg (before b (by simp))]

/-- What `freeBlocks` touches: the record is freed first, and read twice after that. -/
def Entry.frees (e : Entry) : List Touch :=
  [.freed e.pipe, .field e.pipe, .freed e.record.name, .field e.pipe,
    .freed e.record.buffer, .freed e.pipe, .freed e.node]

theorem freeBlocks_ok (live : e.Live w) :
    freeBlocks e.node w = .ok { w with log := w.log ++ e.frees } := by
  obtain ⟨n, hn, hp⟩ := live.node
  have first := (live.logged (w.log ++ [Touch.freed e.pipe])).fieldsOf
  have second := (live.logged (w.log ++ [Touch.freed e.pipe] ++ [Touch.field e.pipe] ++
    [Touch.freed e.record.name])).fieldsOf
  rw [freeBlocks, load_of hn, ok_bind, hp]
  simp only [vPortFree]
  rw [first, ok_bind]
  simp only
  rw [second, ok_bind]
  simp only [Entry.frees, List.append_assoc, List.cons_append, List.nil_append, pure_ok]

theorem Opened.logged (h : Opened w es) (log : List Touch) : Opened { w with log := log } es :=
  ⟨h.links, fun a ha => (h.live a ha).logged log, h.blocks⟩

theorem Opened.nodes (h : Opened w es) : (es.map Entry.node).Nodup := by
  rw [List.Nodup, List.pairwise_map]
  refine (List.nodup_flatMap.mp h.blocks).2.imp fun {a e} apart same => ?_
  have mine : e.node ∈ e.blocks := by simp [Entry.blocks]
  have its : e.node ∈ a.blocks := by simp [Entry.blocks, ← same]
  exact apart its mine

theorem Opened.node_apart (h : Opened w (pre ++ e :: post)) (ha : a ∈ pre ++ post) :
    a.node ≠ e.node := by
  have nodes := h.nodes
  rw [List.map_append, List.map_cons, List.nodup_middle, List.nodup_cons,
    ← List.map_append] at nodes
  exact fun same => nodes.1 (same ▸ List.mem_map_of_mem ha)

theorem Opened.blocks_rest (h : Opened w (pre ++ e :: post)) :
    ((pre ++ post).flatMap Entry.blocks).Nodup := by
  have blocks := h.blocks
  rw [List.flatMap_append, List.flatMap_cons] at blocks
  rw [List.flatMap_append]
  exact (List.Sublist.append (List.Sublist.refl _) (List.sublist_append_right _ _)).nodup blocks

theorem nodeLink_update_ne {p q : Ptr} {n : Node} (ne : q ≠ p) :
    nodeLink { w with nodes := Function.update w.nodes p (some n) } q = nodeLink w q := by
  simp only [nodeLink, Function.update_of_ne ne]

/-- The node goes, and the others stay as they are. -/
theorem relink_opened (h : Opened w (pre ++ e :: post)) :
    ∃ w', relink e.node (pre.getLast?.map Entry.node) w = .ok w' ∧ w'.log = w.log ∧ e.Live w' ∧
      Opened w' (pre ++ post) := by
  have here : e ∈ pre ++ e :: post := by simp
  have sub : (pre ++ post).Sublist (pre ++ e :: post) :=
    List.Sublist.append (List.Sublist.refl _) (List.sublist_cons_self _ _)
  obtain ⟨-, r, hr, after⟩ := linked_split.mp (show Linked (nodeLink w) w.firstPipe
    (pre.map Entry.node ++ e.node :: post.map Entry.node) none by simpa using h.links)
  obtain ⟨n, hn, hp⟩ := (h.live e here).node
  obtain rfl := Option.some.inj ((nodeLink_of hn).symm.trans hr)
  rcases List.eq_nil_or_concat' pre with rfl | ⟨pre, b, rfl⟩
  · have live : ∀ a ∈ [] ++ e :: post, a.Live { w with firstPipe := n.next } :=
      fun a ha => ⟨(h.live a ha).node, (h.live a ha).record⟩
    refine ⟨{ w with firstPipe := n.next }, ?_, rfl, live e here, after,
      fun a ha => live a (sub.subset ha), h.blocks_rest⟩
    rw [relink, load_of hn]
    rfl
  · rw [List.append_assoc, List.singleton_append] at h
    have apart : ∀ a ∈ pre ++ e :: post, a.node ≠ b.node := fun a ha => h.node_apart ha
    obtain ⟨m, hm, hpm⟩ := (h.live b (by simp)).node
    have kept : ∀ a ∈ pre ++ b :: e :: post, a.Live { w with
        nodes := Function.update w.nodes b.node (some { m with next := n.next }) } := by
      intro a ha
      refine ⟨?_, (h.live a ha).record⟩
      by_cases same : a.node = b.node
      · have : a = b := by
          by_contra ne
          refine apart a ?_ same
          simpa [ne] using ha
        subst this
        exact ⟨_, Function.update_self _ _ _, hpm⟩
      · obtain ⟨x, hx, hxp⟩ := (h.live a ha).node
        exact ⟨x, (Function.update_of_ne same _ _).trans hx, hxp⟩
    refine ⟨{ w with nodes := Function.update w.nodes b.node (some { m with next := n.next }) },
      ?_, rfl, kept e (by simp), ?_, fun a ha => kept a ?_, ?_⟩
    · rw [relink, load_of hn, ok_bind, List.getLast?_concat, Option.map_some]
      simp only
      rw [load_of hm]
      rfl
    · rw [List.append_assoc, List.singleton_append, List.map_append, List.map_cons]
      have links := h.links
      have nodes := h.nodes
      rw [List.map_append, List.map_cons, List.map_cons] at links nodes
      exact linked_unlink links nodes (nodeLink_of hn) (fun x => nodeLink_update_ne)
        (nodeLink_of (n := { m with next := n.next }) (Function.update_self _ _ _))
    · simp only [List.append_assoc, List.singleton_append, List.mem_append, List.mem_cons] at ha ⊢
      exact ha.imp_right fun h => h.imp_right .inr
    · exact Opened.blocks_rest (show Opened w (pre ++ [b] ++ e :: post) by
        rwa [List.append_assoc, List.singleton_append])

/-- Everything that a call of `closePipe` that comes back does to the blocks. -/
theorem closePipe_found (h : Opened w (pre ++ e :: post)) (before : ∀ a ∈ pre, ¬ a.has fd)
    (here : e.has fd) (run : closePipe wait fuel fd k w = .ok (k', w')) :
    w'.log = w.log ++ ((pre ++ [e]).map fun a => Touch.field a.pipe) ++
      List.replicate 3 (Touch.field e.pipe) ++ e.frees ∧ Opened w' (pre ++ post) := by
  obtain ⟨x, search, run⟩ := bind_ok.mp run
  obtain rfl := (searchPipe_found none h.links h.live before here).eq search
  have live : e.Live (looked w (pre ++ [e])) := (h.live e (by simp)).looked _
  rw [Option.or_none] at run
  simp only at run
  rw [live.fieldsOf, ok_bind] at run
  obtain ⟨k₁, -, run⟩ := bind_ok.mp run
  obtain ⟨w₁, relinked, log, live₁, rest⟩ := relink_opened
    (h.logged (w.log ++ ((pre ++ [e]).map fun a => Touch.field a.pipe) ++ [Touch.field e.pipe]))
  obtain ⟨w₂, run₂, run⟩ := bind_ok.mp run
  obtain rfl := Except.ok.inj (relinked.symm.trans run₂)
  rw [live₁.fieldsOf, ok_bind] at run
  obtain ⟨⟨_, k₂⟩, -, run⟩ := bind_ok.mp run
  simp only at run
  rw [(live₁.logged _).fieldsOf, ok_bind] at run
  obtain ⟨⟨_, k₃⟩, -, run⟩ := bind_ok.mp run
  simp only at run
  rw [freeBlocks_ok ((live₁.logged _).logged _), ok_bind] at run
  obtain ⟨-, rfl⟩ := Prod.mk.inj (Except.ok.inj run)
  refine ⟨?_, rest.logged _⟩
  simp only [log, List.replicate, List.append_assoc, List.cons_append, List.nil_append]

/-- A pipe that is found is not closed cleanly: its record is read behind the `vPortFree` of its
first member. -/
theorem closePipe_notClean {log : List Touch} (h : Opened w (pre ++ e :: post))
    (before : ∀ a ∈ pre, ¬ a.has fd) (here : e.has fd)
    (run : closePipe wait fuel fd k w = .ok (k', w')) (hlog : w'.log = w.log ++ log) :
    ¬ Clean es e log := by
  intro clean
  have exact := (closePipe_found h before here run).1
  rw [hlog, List.append_assoc, List.append_assoc, List.append_cancel_left_eq,
    ← List.append_assoc] at exact
  have unread := clean.after _ _ exact
  exact unread (by simp)

/-- `closePipe` does what it has to where it has nothing to close. -/
theorem closePipe_closes_iff (h : Opened w es) (wait : Ptr → Kernel → C Kernel) (fd : Int)
    (k : Kernel) : Closes wait fd k w es ↔ ∀ e ∈ es, e.record.fd0 ≠ fd ∧ e.record.fd1 ≠ fd := by
  constructor
  · rintro ⟨fuel, k', w', log, run, hlog, closes⟩ e he
    by_contra open'
    cases found : es.find? (fun e => decide (e.has fd)) with
    | none =>
      have lacks := List.find?_eq_none.mp found e he
      rw [decide_eq_true_eq, Entry.has] at lacks
      grind
    | some b =>
      obtain ⟨has, pre, post, rfl, before⟩ := List.find?_eq_some_iff_append.mp found
      rw [found] at closes
      refine closePipe_notClean h (fun a ha => ?_) (of_decide_eq_true has) run hlog closes.1
      simpa using before a ha
  · intro unknown
    have lacks : ∀ e ∈ es, ¬ e.has fd := by
      rintro e he (has | has)
      · exact (unknown e he).1 has
      · exact (unknown e he).2 has
    obtain ⟨fuel, search⟩ := (searchPipe_absent none h.links h.live lacks).exists
    refine ⟨fuel, k, looked w es, es.map (fun e => .field e.pipe), ?_, rfl, ?_⟩
    · rw [closePipe, search, ok_bind]
      rfl
    · rw [List.find?_eq_none.mpr fun e he => by simpa using lacks e he]
      exact ⟨rfl, rfl, by simp⟩

end

/-- One open pipe, with the fds 2 and 3. -/
def single : Pipes where
  firstPipe := some 7009
  nodes := fun p => if p = 7009 then some ⟨7000, none⟩ else none
  records := fun p => if p = 7000 then some ⟨2, 3, 7002, 7001, 7003, 7006⟩ else none
  log := []

theorem single_opened : Opened single [⟨7009, 7000, ⟨2, 3, 7002, 7001, 7003, 7006⟩⟩] where
  links := ⟨rfl, _, rfl, rfl⟩
  live := by
    simp only [List.forall_mem_singleton]
    exact ⟨⟨_, rfl, rfl⟩, rfl⟩
  blocks := by decide

theorem closePipe_closes_single :
    Closes (fun _ k => pure k) 4 SemSteps.parlour single
      [⟨7009, 7000, ⟨2, 3, 7002, 7001, 7003, 7006⟩⟩] ↔
    ∀ e ∈ [(⟨7009, 7000, ⟨2, 3, 7002, 7001, 7003, 7006⟩⟩ : Entry)],
      e.record.fd0 ≠ 4 ∧ e.record.fd1 ≠ 4 :=
  closePipe_closes_iff single_opened _ 4 _

/-- The kernel around it: both semaphores are registered, and nobody holds the mutex. -/
def aroundSingle : Kernel :=
  { SemSteps.parlour with
    sems := fun p => if p = 7003 then some ⟨1, "Pipes", []⟩ else
      if p = 7006 then some ⟨0, "FullSem", []⟩ else none
    firstSem := [7006, 7003] }

/-- The record is freed twice, and its name and buffer are read off it in between. -/
theorem closePipe_frees_twice :
    (∃ k' w', closePipe (fun sem k => (semWait 0 none sem k).map Prod.snd) 1 2 aroundSingle single =
      .ok (k', w') ∧ w'.log.count (.freed 7000) = 2) ∧
    ¬ Closes (fun sem k => (semWait 0 none sem k).map Prod.snd) 2 aroundSingle single
      [⟨7009, 7000, ⟨2, 3, 7002, 7001, 7003, 7006⟩⟩] := by
  constructor
  · have h : (closePipe (fun sem k => (semWait 0 none sem k).map Prod.snd) 1 2 aroundSingle
        single).toOption.map (fun x => x.2.log.count (.freed 7000)) = some 2 := by decide +kernel
    obtain ⟨⟨k', w'⟩, run, twice⟩ := Option.map_eq_some_iff.mp h
    refine ⟨k', w', ?_, twice⟩
    exact ok_of_toOption run
  · rintro ⟨fuel, k', w', log, run, hlog, closes⟩
    exact closePipe_notClean (show Opened single ([] ++ _ :: []) from single_opened) (by simp)
      (.inl rfl) run hlog
      closes.1

end BottlerOS.PipeBlocks
