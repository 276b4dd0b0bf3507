import Mathlib.Algebra.Order.Ring.Nat
import Mathlib.Data.Multiset.Filter
import Mathlib.Tactic.CasesM

/-! Timing events and the weave phase of one domain. Events are named by `E` and
overflow blocks by numbers in order of allocation; cycles are 64-bit counters that do
not wrap. A failed assert or a null dereference is `none`. -/

namespace ZSim

/-- Event states. `EV_HELD` is left out: an event held by another object is still
running here, and released before it is done. -/
inductive EventState
  | EV_NONE | EV_QUEUED | EV_RUNNING | EV_DONE
  deriving DecidableEq

/-- The union of `TimingEvent`: nothing, one child or a block. -/
inductive ChildUnion (E : Type)
  | null
  | child (e : E)
  | children (block : Nat)

/-- `isDelay` tells a `DelayEvent` from other events. -/
structure TimingEvent (E : Type) where
  isDelay : Bool
  state : EventState
  cycle : Nat
  minStartCycle : Nat
  child : ChildUnion E
  numChildren : Nat
  numParents : Nat
  preDelay : Nat
  postDelay : Nat

structure TimingEventBlock (E : Type) where
  events : Nat → Option E
  next : Option Nat

structure EventHeap (E : Type) where
  events : E → TimingEvent E
  blocks : Nat → TimingEventBlock E
  numBlocks : Nat

def TimingEvent.init {E : Type} (isDelay : Bool) (minStartCycle preDelay postDelay : Nat) :
    TimingEvent E :=
  ⟨isDelay, .EV_NONE, 0, minStartCycle, .null, 0, 0, preDelay, postDelay⟩

namespace EventHeap

variable {E : Type} [DecidableEq E]

def setEvent (h : EventHeap E) (e : E) (ev : TimingEvent E) : EventHeap E :=
  { h with events := Function.update h.events e ev }

/-- `new (evRec) TimingEventBlock()`, filled in. -/
def newBlock (h : EventHeap E) (b : TimingEventBlock E) : EventHeap E :=
  { h with blocks := Function.update h.blocks h.numBlocks b, numBlocks := h.numBlocks + 1 }

/-- The part of `addChild` that stores the child. -/
def storeChild (h : EventHeap E) (p c : E) : Option (EventHeap E) :=
  let ev := h.events p
  if ev.numChildren = 0 then
    some (h.setEvent p { ev with numChildren := 1, child := .child c })
  else if ev.numChildren = 1 then
    match ev.child with
    | .child firstChild =>
      let events := Function.update (Function.update (fun _ => none) 0 (some firstChild)) 1 (some c)
      some ((h.newBlock ⟨events, none⟩).setEvent p
        { ev with numChildren := 2, child := .children h.numBlocks })
    | _ => none
  else
    match ev.child with
    | .children block =>
      let idx := ev.numChildren % 3
      if idx = 0 then
        some ((h.newBlock ⟨Function.update (fun _ => none) 0 (some c), some block⟩).setEvent p
          { ev with numChildren := ev.numChildren + 1, child := .children h.numBlocks })
      else
        let b := h.blocks block
        let b' := { b with events := Function.update b.events idx (some c) }
        some ({ h with blocks := Function.update h.blocks block b' }.setEvent p
          { ev with numChildren := ev.numChildren + 1 })
    | _ => none

def addChild (h : EventHeap E) (p c : E) : Option (EventHeap E) :=
  if ((h.events p).state = .EV_NONE ∨ (h.events p).state = .EV_QUEUED) ∧
      (h.events c).state = .EV_NONE then
    (storeChild h p c).map fun h =>
      h.setEvent c { h.events c with numParents := (h.events c).numParents + 1 }
  else none

/-- The loop over one block, which stops at the first null pointer. -/
def visitBlock (b : TimingEventBlock E) : List E :=
  (((List.range 3).map b.events).takeWhile Option.isSome).filterMap fun x => x

/-- The loop over the blocks; the first argument bounds its turns. -/
def visitBlocks (h : EventHeap E) : Nat → Option Nat → Option (List E)
  | _, none => some []
  | 0, some _ => none
  | k + 1, some block =>
    (visitBlocks h k (h.blocks block).next).map (visitBlock (h.blocks block) ++ ·)

/-- The children in the order `visitChildren` calls its argument on them. What it is
called with does not change the children of the event being visited. -/
def visitChildren (h : EventHeap E) (e : E) : Option (List E) :=
  let ev := h.events e
  if ev.numChildren = 0 then some []
  else if ev.numChildren = 1 then
    match ev.child with
    | .child c => some [c]
    | _ => none
  else
    match ev.child with
    | .children block =>
      (visitBlocks h (h.numBlocks + 1) (some block)).bind fun visited =>
        if visited.length = ev.numChildren then some visited else none
    | _ => none

end EventHeap

/-- One domain. `queue` is its priority queue, as the multiset it implements; the other
fields after `curCycle` are records of what happened: the pairs passed to `addChild`, the
calls of `queue` and of `simulate`, the cycle each event was done at, and the events
whose `numParents` was brought to zero. -/
structure Weave (E : Type) where
  heap : EventHeap E
  queue : Multiset (E × Nat)
  curCycle : Nat
  edges : List (E × E)
  queued : List (E × Nat)
  simulated : List (E × Nat)
  doneAt : E → Option Nat
  zeroed : List E

namespace Weave

variable {E : Type} [DecidableEq E]

def init (events : E → TimingEvent E) (curCycle : Nat) : Weave E :=
  ⟨⟨events, fun _ => ⟨fun _ => none, none⟩, 0⟩, 0, curCycle, [], [], [], fun _ => none, []⟩

def event (s : Weave E) (e : E) : TimingEvent E := s.heap.events e

def setEvent (s : Weave E) (e : E) (ev : TimingEvent E) : Weave E :=
  { s with heap := s.heap.setEvent e ev }

def addChild (s : Weave E) (p c : E) : Option (Weave E) :=
  (s.heap.addChild p c).map fun h => { s with heap := h, edges := (p, c) :: s.edges }

/-- `ContentionSim::enqueue`. The asserts that keep an event near the current phase are
left out: a drain may take several phases. -/
def enqueue (s : Weave E) (e : E) (cycle : Nat) : Option (Weave E) :=
  if s.curCycle ≤ cycle ∧ (s.event e).numParents = 0 then
    some { s with queue := (e, cycle) ::ₘ s.queue }
  else none

/-- `TimingEvent::queue`. -/
def queueRoot (s : Weave E) (e : E) (qCycle : Nat) : Option (Weave E) :=
  if (s.event e).state = .EV_NONE ∧ (s.event e).numParents = 0 then
    ((s.setEvent e { s.event e with state := .EV_QUEUED }).enqueue e qCycle).map fun s =>
      { s with queued := (e, qCycle) :: s.queued }
  else none

/-- The loop of `visitChildren` in `done`. -/
def deliver (parentDone : E → Nat → Weave E → Option (Weave E)) (startCycle : Nat) :
    List E → Weave E → Option (Weave E)
  | [], s => some s
  | c :: cs, s => (parentDone c startCycle s).bind (deliver parentDone startCycle cs)

def setDone (e : E) (doneCycle : Nat) (s : Weave E) : Weave E :=
  { s.setEvent e { s.event e with state := .EV_DONE } with
    doneAt := Function.update s.doneAt e (some doneCycle) }

/-- `TimingEvent::done`, over the `parentDone` its children are called with. -/
def doneWith (parentDone : E → Nat → Weave E → Option (Weave E)) (e : E) (doneCycle : Nat)
    (s : Weave E) : Option (Weave E) :=
  if (s.event e).state = .EV_RUNNING then
    (s.heap.visitChildren e).bind fun children =>
      deliver parentDone (doneCycle + (s.event e).postDelay) children (setDone e doneCycle s)
  else none

/-- `numParents--` on a `uint32_t`. -/
def decParents (n : Nat) : Nat := if n = 0 then 2 ^ 32 - 1 else n - 1

/-- Both versions of `parentDone` up to the test of `numParents`. -/
def arrive (e : E) (startCycle : Nat) (s : Weave E) : Weave E :=
  let ev := s.event e
  { s.setEvent e { ev with
      cycle := max ev.cycle startCycle
      numParents := decParents ev.numParents } with
    zeroed := if decParents ev.numParents = 0 then e :: s.zeroed else s.zeroed }

/-- `parentDone`; the first argument bounds the depth of the calls. -/
def parentDone : Nat → E → Nat → Weave E → Option (Weave E)
  | 0, _, _, _ => none
  | k + 1, e, startCycle, s =>
    let s₁ := arrive e startCycle s
    if (s.event e).isDelay then
      if (s₁.event e).numParents = 0 then
        doneWith (parentDone k) e ((s₁.event e).cycle + (s₁.event e).preDelay)
          (s₁.setEvent e { s₁.event e with state := .EV_RUNNING })
      else some s₁
    else if (s.event e).numParents = 0 then none
    else if (s₁.event e).numParents = 0 then
      if (s₁.event e).state = .EV_NONE then
        (s₁.setEvent e { s₁.event e with state := .EV_QUEUED }).enqueue e
          ((s₁.event e).cycle + (s₁.event e).preDelay)
      else none
    else some s₁

def done (k : Nat) (e : E) (doneCycle : Nat) (s : Weave E) : Option (Weave E) :=
  doneWith (parentDone k) e doneCycle s

/-- `run` of a dequeued event, up to what `simulate` does. A `DelayEvent` panics. -/
def run (e : E) (startCycle : Nat) (s : Weave E) : Option (Weave E) :=
  let ev := s.event e
  if (ev.state = .EV_NONE ∨ ev.state = .EV_QUEUED) ∧ ev.minStartCycle ≤ startCycle ∧
      ev.isDelay = false then
    some { s.setEvent e { ev with state := .EV_RUNNING } with
      simulated := (e, startCycle) :: s.simulated }
  else none

/-- `run` without its checks. -/
def simulate (e : E) (startCycle : Nat) (s : Weave E) : Option (Weave E) :=
  if (s.event e).isDelay = false then
    some { s.setEvent e { s.event e with state := .EV_RUNNING } with
      simulated := (e, startCycle) :: s.simulated }
  else none

/-- `dequeue` of the pair `x`, and the update of `curCycle`. -/
def dequeue (s : Weave E) (x : E × Nat) : Weave E :=
  { s with queue := s.queue.erase x, curCycle := x.2 }

end Weave

end ZSim
