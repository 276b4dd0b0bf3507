import ZSim.TimingEvent

/-! Crossings between the domains of the weave phase. A parent whose child is in another domain gets
a placeholder for it, and a crossing event in the child's domain polls the parent's domain until the
placeholder is done. Events are named by numbers in order of allocation, and recorders by their
source ids; cycles are 64-bit counters that do not wrap. A held event counts as running, and an
event that gets its domain from its parent has it from the start. -/

namespace ZSim

namespace Crossings

/-- The class of an event, as far as it overrides `parentDone` or is simulated here. -/
inductive Kind
  | other
  | delay
  | crossing
  | crossingSrc (ce : Nat)
  deriving DecidableEq

/-- A `TimingEvent`. Its children are listed as `visitChildren` visits them, and `minStartCycle` is
`none` if it is not set. -/
structure Event where
  kind : Kind
  state : EventState
  cycle : Nat
  minStartCycle : Option Nat
  children : List Nat
  domain : Nat
  numParents : Nat
  preDelay : Nat
  postDelay : Nat

/-- What a `CrossingEvent` has beside its placeholder, which is the event allocated with it. -/
structure CrossingEvent where
  srcDomain : Nat
  called : Bool
  doneCycle : Nat
  srcDomainCycleAtDone : Nat
  evRec : Nat
  origStartCycle : Nat
  parentEv : Nat
  preSlack : Nat
  postSlack : Nat

/-- The back of the crossing stack is the head of its list. -/
structure EventRecorder where
  crossingStack : List Nat
  lastGapCycles : Nat
  lastStartSlack : Nat

/-- A domain, and where its thread is: between `dequeue` and the update of `curCycle` after it, or
through with the phase. -/
structure Domain where
  pq : List (Nat × Nat)
  curCycle : Nat
  running : Bool
  finished : Bool

structure CrossingEventInfo where
  cycle : Nat
  ev : Option Nat

/-- What happened in a run: domain `d` ran event `e`, crossing `x` was queued again in domain `d`,
the placeholder of `x` was done, and `x` released its children. -/
inductive Entry
  | ran (d e cycle : Nat)
  | requeued (x d cycle : Nat)
  | marked (x cycle : Nat)
  | released (x cycle : Nat)
  deriving DecidableEq

structure Config where
  numDomains : Nat
  numCores : Nat
  phaseLength : Nat

/-- `trace` is not in the source. -/
structure ContentionSim where
  events : Nat → Event
  numEvents : Nat
  crossings : Nat → CrossingEvent
  recorders : Nat → EventRecorder
  domains : Nat → Domain
  lastCrossing : Nat × Nat × Nat → CrossingEventInfo
  limit : Nat
  lastLimit : Nat
  inCSim : Bool
  trace : List Entry

/-- What ends a run: a failed assert, the guards against events too far in the future, or an action
that its caller may not do there. -/
inductive Fault
  | assertion
  | tooFar
  | refused
  deriving DecidableEq

abbrev Result := Except Fault ContentionSim

def Event.new (kind : Kind) (state : EventState) (minStartCycle : Option Nat)
    (domain preDelay postDelay : Nat) : Event :=
  ⟨kind, state, 0, minStartCycle, [], domain, 0, preDelay, postDelay⟩

namespace ContentionSim

def init : ContentionSim where
  events _ := .new .other .EV_NONE none 0 0 0
  numEvents := 0
  crossings _ := ⟨0, false, 0, 0, 0, 0, 0, 0, 0⟩
  recorders _ := ⟨[], 0, 0⟩
  domains _ := ⟨[], 0, false, false⟩
  lastCrossing _ := ⟨0, none⟩
  limit := 0
  lastLimit := 0
  inCSim := false
  trace := []

variable (G : Config) (s : ContentionSim)

def setEvent (e : Nat) (ev : Event) : ContentionSim :=
  { s with events := Function.update s.events e ev }

def setDomain (d : Nat) (dom : Domain) : ContentionSim :=
  { s with domains := Function.update s.domains d dom }

def setCrossing (x : Nat) (ce : CrossingEvent) : ContentionSim :=
  { s with crossings := Function.update s.crossings x ce }

def setRecorder (r : Nat) (evRec : EventRecorder) : ContentionSim :=
  { s with recorders := Function.update s.recorders r evRec }

def log (entry : Entry) : ContentionSim := { s with trace := entry :: s.trace }

/-- A child goes into a block of three in front of the others, behind those already in it. -/
def addChild (p c : Nat) : Result :=
  let ev := s.events p
  if (ev.state = .EV_NONE ∨ ev.state = .EV_QUEUED) ∧ (s.events c).state = .EV_NONE then
    let s := s.setEvent p { ev with children := ev.children.insertIdx (ev.children.length % 3) c }
    .ok (s.setEvent c { s.events c with numParents := (s.events c).numParents + 1 })
  else .error .assertion

def push (e cycle : Nat) : ContentionSim :=
  let d := (s.events e).domain
  s.setDomain d { s.domains d with pq := (e, cycle) :: (s.domains d).pq }

/-- `ContentionSim::enqueue`. -/
def enqueue (e cycle : Nat) : Result :=
  if s.inCSim = true ∧ s.lastLimit ≤ cycle then
    if cycle < s.lastLimit + 10 * G.phaseLength + 1000000 then
      let d := (s.events e).domain
      if (s.domains d).curCycle ≤ cycle ∧ (s.events e).numParents = 0 ∧ d < G.numDomains then
        .ok (s.push e cycle)
      else .error .assertion
    else .error .tooFar
  else .error .assertion

def enqueueSynced (e cycle : Nat) : Result :=
  if s.inCSim = false ∧ (s.events e).domain < G.numDomains ∧ s.lastLimit ≤ cycle then
    if cycle < s.lastLimit + 10 * G.phaseLength + 10000 then
      if (s.events e).numParents = 0 then .ok (s.push e cycle) else .error .assertion
    else .error .tooFar
  else .error .assertion

/-- `TimingEvent::queue`. -/
def queue (e nextCycle : Nat) : Result :=
  let ev := s.events e
  if ev.state = .EV_NONE ∧ ev.numParents = 0 then
    (s.setEvent e { ev with state := .EV_QUEUED }).enqueueSynced G e nextCycle
  else .error .assertion

/-- `TimingEvent::requeue`. -/
def requeue (e nextCycle : Nat) : Result :=
  let ev := s.events e
  if ev.numParents = 0 ∧ ev.state = .EV_RUNNING then
    (s.setEvent e { ev with state := .EV_QUEUED }).enqueue G e nextCycle
  else .error .assertion

/-- The loop of `visitChildren` in `done`. -/
def deliver (parentDone : Nat → Nat → ContentionSim → Result) (startCycle : Nat) :
    List Nat → ContentionSim → Result
  | [], s => .ok s
  | c :: cs, s => (parentDone c startCycle s).bind (deliver parentDone startCycle cs)

/-- `TimingEvent::done`, over the `parentDone` its children are called with. -/
def doneWith (parentDone : Nat → Nat → ContentionSim → Result) (e doneCycle : Nat)
    (s : ContentionSim) : Result :=
  let ev := s.events e
  if ev.state = .EV_RUNNING then
    deliver parentDone (doneCycle + ev.postDelay) ev.children
      (s.setEvent e { ev with state := .EV_DONE })
  else .error .assertion

/-- `TimingEvent::parentDone`. -/
def timingParentDone (e startCycle : Nat) : Result :=
  let ev := s.events e
  if ev.numParents = 0 then .error .assertion
  else
    let ev := { ev with cycle := max ev.cycle startCycle, numParents := ev.numParents - 1 }
    if ev.numParents = 0 then
      if ev.state = .EV_NONE then
        (s.setEvent e { ev with state := .EV_QUEUED }).enqueue G e (ev.cycle + ev.preDelay)
      else .error .assertion
    else .ok (s.setEvent e ev)

/-- `CrossingEvent::markSrcEventDone`. -/
def markSrcEventDone (x cycle : Nat) : Result :=
  let ce := s.crossings x
  let srcDomainCycleAtDone := (s.domains ce.srcDomain).curCycle
  if ce.called = false ∧ srcDomainCycleAtDone ≤ cycle then
    .ok ((s.setCrossing x { ce with
      srcDomainCycleAtDone := srcDomainCycleAtDone
      doneCycle := cycle
      called := true }).log (.marked x cycle))
  else .error .assertion

/-- `CrossingEvent::parentDone`. -/
def crossingParentDone (x startCycle : Nat) : Result :=
  let ce := s.crossings x
  let cycle := max startCycle ((s.events x).minStartCycle.getD 0)
  if ce.called = true ∧ ce.doneCycle < cycle then
    (s.setCrossing x { ce with doneCycle := cycle }).timingParentDone G x cycle
  else s.timingParentDone G x cycle

/-- `parentDone`; the first argument bounds the depth of the calls. -/
def parentDone : Nat → Nat → Nat → ContentionSim → Result
  | 0, _, _, _ => .error .assertion
  | k + 1, e, startCycle, s =>
    let ev := s.events e
    match ev.kind with
    | .other => s.timingParentDone G e startCycle
    | .delay =>
      let ev := { ev with
        cycle := max ev.cycle startCycle, numParents := Weave.decParents ev.numParents }
      if ev.numParents = 0 then
        doneWith (parentDone k) e (ev.cycle + ev.preDelay)
          (s.setEvent e { ev with state := .EV_RUNNING })
      else .ok (s.setEvent e ev)
    | .crossing => s.crossingParentDone G e startCycle
    | .crossingSrc x =>
      if ev.numParents = 1 ∧ ev.children = [] then
        ((s.setEvent e { ev with numParents := 0 }).markSrcEventDone x startCycle).bind fun s =>
          if (s.events e).state = .EV_NONE then
            doneWith (parentDone k) e startCycle
              (s.setEvent e { s.events e with state := .EV_RUNNING })
          else .error .assertion
      else .error .assertion

/-- `TimingEvent::done`. Calls are no deeper than there are events. -/
def done (e doneCycle : Nat) : Result := doneWith (parentDone G (s.numEvents + 1)) e doneCycle s

/-- `EventRecorder::getSlack`. -/
def getSlack (r origStartCycle : Nat) : Nat :=
  (origStartCycle + (s.recorders r).lastStartSlack) % 2 ^ 64

/-- `CrossingEvent::simulate`. -/
def simulateCrossing (x simCycle : Nat) : Result :=
  let ce := s.crossings x
  if ce.called = true then
    let dCycle := max simCycle ce.doneCycle
    (s.log (.released x dCycle)).done G x dCycle
  else
    let curSrcCycle := (s.domains ce.srcDomain).curCycle + ce.preSlack + ce.postSlack
    let coreRelCycle := (s.getSlack ce.evRec ce.origStartCycle + ce.postSlack) % 2 ^ 64
    let nextCycle := max coreRelCycle (max curSrcCycle simCycle)
    let ev := s.events x
    ((s.setEvent x { ev with numParents := 0 }).requeue G x nextCycle).map
      (log · (.requeued x ev.domain nextCycle))

/-- `TimingEvent::run` of a dequeued event. Where the asserts fail for an event that is not a
crossing, or are left out, is up to this event. -/
def run (e startCycle : Nat) : Result :=
  let ev := s.events e
  match ev.kind with
  | .other => .ok (s.setEvent e { ev with state := .EV_RUNNING })
  | .crossing =>
    if (ev.state = .EV_NONE ∨ ev.state = .EV_QUEUED) ∧ ev.minStartCycle.any (· ≤ startCycle) then
      (s.setEvent e { ev with state := .EV_RUNNING }).simulateCrossing G e startCycle
    else .error .assertion
  | _ => .error .assertion

/-- The turn of a domain: the event `e` is dequeued at `cycle` and run. -/
def turn (d e cycle : Nat) : Result :=
  let dom := s.domains d
  if dom.curCycle ≤ cycle then
    ((s.setDomain d { dom with
      pq := dom.pq.erase (e, cycle)
      curCycle := cycle
      running := true }).log (.ran d e cycle)).run G e cycle
  else .error .assertion

/-- `pq.size()? pq.firstCycle() : limit`. -/
def nextCycle (d : Nat) : Nat := (((s.domains d).pq.map Prod.snd).min?).getD s.limit

def endTurn (d : Nat) : Result :=
  let dom := s.domains d
  if dom.curCycle ≤ s.nextCycle d then
    .ok (s.setDomain d { dom with curCycle := s.nextCycle d, running := false })
  else .error .assertion

/-- A crossing that is neither a response nor the first that the source can take now. -/
def chainCrossing (e cycle srcId srcDomain dstDomain : Nat) : Result :=
  let last := s.lastCrossing (srcId, srcDomain, dstDomain)
  let srcDomCycle := (s.domains srcDomain).curCycle
  let chained : Result :=
    if srcDomCycle < last.cycle ∧ last.cycle ≤ cycle then
      match last.ev with
      | some ev => s.addChild ev e
      | none => .error .assertion
    else if srcDomCycle ≤ cycle then s.enqueueSynced G e cycle
    else .error .assertion
  chained.map fun s => { s with
    lastCrossing := Function.update s.lastCrossing (srcId, srcDomain, dstDomain) ⟨cycle, some e⟩ }

/-- A response is chained to the parent of its request, another crossing to the last one that goes
the same way, or it is queued. -/
def enqueueCrossing (e cycle srcId srcDomain dstDomain : Nat) : Result :=
  let evRec := s.recorders srcId
  let request := evRec.crossingStack.head?.filter fun b =>
    (s.crossings b).srcDomain = (s.events e).domain ∧
      (s.events b).domain = (s.crossings e).srcDomain
  match request with
  | some req =>
    (s.setRecorder srcId { evRec with crossingStack := evRec.crossingStack.tail }).addChild
      (s.crossings req).parentEv e
  | none =>
    (s.setRecorder srcId { evRec with
      crossingStack := e :: evRec.crossingStack }).chainCrossing G e cycle srcId srcDomain dstDomain

/-- The constructor of `CrossingEvent`. -/
def newCrossing (parent child minStartCycle evRec : Nat) : Result :=
  let p := s.events parent
  let c := s.events child
  let x := s.numEvents
  let preSlack := if p.postDelay = 0 then 1 else p.postDelay
  let minStartCycle := if p.postDelay = 0 then minStartCycle + 1 else minStartCycle
  let cpe : Event := { Event.new (.crossingSrc x) .EV_NONE none p.domain 0 0 with numParents := 1 }
  let gapCycles := (s.recorders evRec).lastGapCycles
  let origStartCycle := (minStartCycle + (2 ^ 64 - gapCycles % 2 ^ 64)) % 2 ^ 64
  let s := { (s.setEvent x (.new .crossing .EV_NONE (some minStartCycle) c.domain 0 0)).setEvent
    (x + 1) cpe with numEvents := x + 2 }
  let s := s.setCrossing x
    ⟨p.domain, false, 0, 0, evRec, origStartCycle, parent, preSlack, c.preDelay⟩
  (s.addChild x child).bind fun s =>
    s.enqueueCrossing G x (max s.lastLimit minStartCycle) evRec p.domain c.domain

/-- What `produceCrossings` does about the `i`-th child of `p`, which is in another domain. -/
def handleCrossing (evRec p i c minStartCycle : Nat) : Result :=
  let child := s.events c
  if child.numParents = 0 then .error .assertion
  else
    let x := s.numEvents
    ((s.setEvent c { child with numParents := child.numParents - 1 }).newCrossing G p c
      (minStartCycle + (s.events p).postDelay) evRec).map fun s =>
        s.setEvent p { s.events p with children := (s.events p).children.set i (x + 1) }

end ContentionSim

/-- The steps of a run. In the bound phase the cores build events; in the weave phase domains take
turns, and in a turn events that are running in the domain are done or queued again. -/
inductive Action
  | newEvent (isDelay : Bool) (domain : Nat) (minStartCycle : Option Nat)
      (preDelay postDelay : Nat)
  | setRunning (e : Nat)
  | addChild (p c : Nat)
  | queue (e cycle : Nat)
  | handleCrossing (evRec p i : Nat)
  | clearStack (evRec : Nat)
  | setGapCycles (evRec gapCycles : Nat)
  | setStartSlack (evRec startSlack : Nat)
  | simulatePhase (limit : Nat)
  | turn (d e cycle : Nat)
  | done (e doneCycle : Nat)
  | requeue (e cycle : Nat)
  | endTurn (d : Nat)
  | finish (d : Nat)
  | phaseDone

namespace ContentionSim

variable (G : Config) (s : ContentionSim)

/-- Events of cores, caches and memories. -/
def Ordinary (e : Nat) : Prop :=
  e < s.numEvents ∧ ((s.events e).kind = .other ∨ (s.events e).kind = .delay)

def NotStarted (e : Nat) : Prop :=
  (s.events e).state = .EV_NONE ∨ (s.events e).state = .EV_QUEUED

/-- An event that a turn of its domain has in its hands. -/
def InTurn (e : Nat) : Prop :=
  e < s.numEvents ∧ (s.events e).kind = .other ∧ (s.events e).state = .EV_RUNNING ∧
    (s.domains (s.events e).domain).running = true

/-- What the callers keep to. Recorders call `produceCrossings` on what they have built, and clear
their stacks then; an event is done at a cycle, and queued again for one, that is not over for its
children and for itself; a turn takes a first event up to the limit. -/
def Allowed : Action → Prop
  | .newEvent _ domain _ _ _ => s.inCSim = false ∧ domain < G.numDomains
  | .setRunning e => s.inCSim = false ∧ e < s.numEvents ∧ (s.events e).kind = .other ∧
      (s.events e).state = .EV_NONE ∧ (s.events e).numParents = 0 ∧ (s.events e).children = []
  | .addChild p c => s.inCSim = false ∧ s.Ordinary p ∧ s.Ordinary c ∧ s.NotStarted p ∧
      (s.events c).state = .EV_NONE
  | .queue e cycle => s.inCSim = false ∧ e < s.numEvents ∧ (s.events e).kind = .other ∧
      (s.events e).state = .EV_NONE ∧ (s.events e).numParents = 0 ∧ s.lastLimit ≤ cycle
  | .handleCrossing evRec p i => s.inCSim = false ∧ evRec < G.numCores ∧ s.Ordinary p ∧
      s.NotStarted p ∧ (s.events p).minStartCycle.isSome = true ∧
      ((s.events p).children[i]?).any (fun c => (s.events c).domain ≠ (s.events p).domain) = true
  | .clearStack _ => s.inCSim = false
  | .setGapCycles _ _ => s.inCSim = false
  | .setStartSlack _ _ => True
  | .simulatePhase limit => s.inCSim = false ∧ s.lastLimit ≤ limit ∧
      (∀ r < G.numCores, (s.recorders r).crossingStack = []) ∧
      ∀ p < s.numEvents, (s.events p).state ≠ .EV_DONE →
        ∀ c ∈ (s.events p).children, (s.events c).domain = (s.events p).domain
  | .turn d e cycle => s.inCSim = true ∧ d < G.numDomains ∧ (s.domains d).running = false ∧
      (s.domains d).finished = false ∧ (e, cycle) ∈ (s.domains d).pq ∧
      (∀ x ∈ (s.domains d).pq, cycle ≤ x.2) ∧ cycle ≤ s.limit
  | .done e doneCycle => s.inCSim = true ∧ s.InTurn e ∧
      (s.domains (s.events e).domain).curCycle ≤ doneCycle + (s.events e).postDelay
  | .requeue e cycle => s.inCSim = true ∧ s.InTurn e ∧
      (s.domains (s.events e).domain).curCycle ≤ cycle
  | .endTurn d => s.inCSim = true ∧ d < G.numDomains ∧ (s.domains d).running = true
  | .finish d => s.inCSim = true ∧ d < G.numDomains ∧ (s.domains d).running = false ∧
      ∀ x ∈ (s.domains d).pq, s.limit ≤ x.2
  | .phaseDone => s.inCSim = true ∧ ∀ d < G.numDomains, (s.domains d).finished = true

instance (e : Nat) : Decidable (s.Ordinary e) := inferInstanceAs (Decidable (_ ∧ _))

instance (e : Nat) : Decidable (s.NotStarted e) := inferInstanceAs (Decidable (_ ∨ _))

instance (e : Nat) : Decidable (s.InTurn e) := inferInstanceAs (Decidable (_ ∧ _))

instance : (a : Action) → Decidable (s.Allowed G a)
  | .newEvent .. => inferInstanceAs (Decidable (_ ∧ _))
  | .setRunning .. => inferInstanceAs (Decidable (_ ∧ _))
  | .addChild .. => inferInstanceAs (Decidable (_ ∧ _))
  | .queue .. => inferInstanceAs (Decidable (_ ∧ _))
  | .handleCrossing .. => inferInstanceAs (Decidable (_ ∧ _))
  | .clearStack _ => inferInstanceAs (Decidable (_ = _))
  | .setGapCycles .. => inferInstanceAs (Decidable (_ = _))
  | .setStartSlack .. => inferInstanceAs (Decidable True)
  | .simulatePhase _ => inferInstanceAs (Decidable (_ ∧ _))
  | .turn .. => inferInstanceAs (Decidable (_ ∧ _))
  | .done .. => inferInstanceAs (Decidable (_ ∧ _))
  | .requeue .. => inferInstanceAs (Decidable (_ ∧ _))
  | .endTurn _ => inferInstanceAs (Decidable (_ ∧ _))
  | .finish _ => inferInstanceAs (Decidable (_ ∧ _))
  | .phaseDone => inferInstanceAs (Decidable (_ ∧ _))

/-- An action that is allowed. -/
def perform : Action → Result
  | .newEvent isDelay domain minStartCycle preDelay postDelay =>
    let kind := if isDelay then Kind.delay else .other
    .ok { s.setEvent s.numEvents (.new kind .EV_NONE minStartCycle domain preDelay postDelay) with
      numEvents := s.numEvents + 1 }
  | .setRunning e => .ok (s.setEvent e { s.events e with state := .EV_RUNNING })
  | .addChild p c => s.addChild p c
  | .queue e cycle => s.queue G e cycle
  | .handleCrossing evRec p i =>
    match (s.events p).children[i]?, (s.events p).minStartCycle with
    | some c, some minStartCycle => s.handleCrossing G evRec p i c minStartCycle
    | _, _ => .error .refused
  | .clearStack evRec => .ok (s.setRecorder evRec { s.recorders evRec with crossingStack := [] })
  | .setGapCycles evRec gapCycles =>
    .ok (s.setRecorder evRec { s.recorders evRec with lastGapCycles := gapCycles })
  | .setStartSlack evRec startSlack =>
    .ok (s.setRecorder evRec { s.recorders evRec with lastStartSlack := startSlack })
  | .simulatePhase limit =>
    .ok { s with
      limit := limit
      inCSim := true
      domains := fun d => { s.domains d with finished := false } }
  | .turn d e cycle => s.turn G d e cycle
  | .done e doneCycle => s.done G e doneCycle
  | .requeue e cycle => s.requeue G e cycle
  | .endTurn d => s.endTurn d
  | .finish d =>
    .ok (s.setDomain d { s.domains d with curCycle := s.limit, finished := true })
  | .phaseDone => .ok { s with inCSim := false, lastLimit := s.limit }

def act (a : Action) : Result := if s.Allowed G a then s.perform G a else .error .refused

def execute (actions : List Action) : Result := actions.foldlM (act G) init

end ContentionSim

end Crossings

end ZSim
