import ZSim.CoreRecorder

/-! The recorders of cores with the delays between their events, from the bound phase in which the
events are added to the weave phase that simulates them. -/

namespace ZSim

def toDelay (n : Int) : Nat := (n % 2 ^ 32).toNat

/-- An event of a recorder, or an access between two of them from its start event to its end
event. `delay` comes before the event starts and `postDelay` after it. -/
inductive EventLink where
  | event (delay postDelay : Nat)
  | access (latency : Nat)
  deriving DecidableEq

/-- The first event of a core that joins is queued; later ones start after the one before. -/
inductive Release where
  | queued (cycle : Nat)
  | after (cycle : Nat)
  deriving DecidableEq

namespace Release

def cycle : Release → Nat
  | queued cycle => cycle
  | after cycle => cycle

def admits (delay startCycle : Nat) : Release → Bool
  | queued cycle => startCycle = cycle + delay
  | after cycle => cycle + delay ≤ startCycle

end Release

/-- `links` are still to be simulated, in the order in which each is a child of the one before.
`startSlacks` has what `setStartSlack` was called with since the core joined, the last first. -/
structure EventChain where
  release : Release
  links : List EventLink
  startSlacks : List Int
  deriving DecidableEq

namespace EventChain

def init : EventChain := ⟨.after 0, [], []⟩

/-- The event of a core that joins, its `queue` included. -/
def queue (cycle : Nat) : EventChain := ⟨.queued cycle, [.event 0 0], []⟩

def addChildren (c : EventChain) (links : List EventLink) : EventChain :=
  { c with links := c.links ++ links }

/-- The domain of an event may run it late, but not before its parent is done. -/
def canStart (c : EventChain) (startCycle : Nat) : Bool :=
  match c.links with
  | .event delay _ :: _ => c.release.admits delay startCycle
  | _ => false

/-- An access takes at least its latency of the bound phase. -/
def canAccess (c : EventChain) (startCycle endCycle : Nat) : Bool :=
  match c.links, c.release with
  | .access latency :: _, .after cycle => cycle ≤ startCycle ∧ startCycle + latency ≤ endCycle
  | _, _ => false

def eventDone (c : EventChain) (startCycle : Nat) (zllStartCycle : Int) : EventChain :=
  match c.links with
  | .event _ postDelay :: links =>
    ⟨.after (startCycle + postDelay), links, (startCycle - zllStartCycle) :: c.startSlacks⟩
  | _ => c

def accessDone (c : EventChain) (endCycle : Nat) : EventChain :=
  { c with release := .after endCycle, links := c.links.tail }

end EventChain

/-- A `CoreRecorder` and the links of the events it adds. -/
structure ChainedCoreRecorder extends CoreRecorder where
  chain : EventChain

namespace ChainedCoreRecorder

def init : ChainedCoreRecorder := ⟨⟨.init, 0⟩, .init⟩

def notifyJoin (r : ChainedCoreRecorder) (globPhaseCycles curCycle : Nat) :
    Option (ChainedCoreRecorder × Nat) :=
  (r.toCoreRecorder.notifyJoin globPhaseCycles curCycle).map fun x =>
    (⟨x.1, if r.account.state = .halted then .queue globPhaseCycles else r.chain⟩, x.2)

def notifyLeave (r : ChainedCoreRecorder) (curCycle : Nat) : Option ChainedCoreRecorder :=
  (r.toCoreRecorder.notifyLeave curCycle).map fun x =>
    ⟨x, r.chain.addChildren
      [.event 0 (toDelay ((curCycle : Int) - r.prevRespCycle)), .event 0 0]⟩

def recordAccess (r : ChainedCoreRecorder) (tr : TimingRecord) (startCycle : Nat) :
    Option ChainedCoreRecorder :=
  (r.toCoreRecorder.recordAccess tr startCycle).map fun x =>
    ⟨x, if tr.isGet then
      r.chain.addChildren [.event 0 (toDelay ((tr.reqCycle : Int) - r.prevRespCycle)),
        .access (tr.respCycle - tr.reqCycle)]
      else r.chain⟩

def cSimStart (r : ChainedCoreRecorder) (nextPhaseCycle curCycle : Nat) :
    Option (ChainedCoreRecorder × Nat) :=
  (r.toCoreRecorder.cSimStart nextPhaseCycle curCycle).map fun x =>
    (⟨x.1, if r.account.state = .running then
      r.chain.addChildren
        ((if r.prevRespCycle < curCycle then
          [.event 0 (toDelay ((curCycle : Int) - r.prevRespCycle))] else []) ++ [.event 0 0])
      else r.chain⟩, x.2)

def reportEventSimulated (r : ChainedCoreRecorder) (startCycle : Nat) :
    Option ChainedCoreRecorder :=
  (r.toCoreRecorder.simulate [startCycle]).map fun x =>
    ⟨x, r.chain.eventDone startCycle x.account.lastOrigStartCycle⟩

def cSimEnd (r : ChainedCoreRecorder) (curCycle : Nat) : Option (ChainedCoreRecorder × Nat) :=
  (r.toCoreRecorder.cSimEnd curCycle).map fun x => (⟨x.1, r.chain⟩, x.2)

end ChainedCoreRecorder

/-- The response event is gone from its entry when it was simulated. -/
structure FutureResponse where
  zllStartCycle : Int
  ev : Option Nat
  deriving DecidableEq

/-- An `OOOCoreRecorder`, the links of its issue events, and the responses that are linked to
later ones. `futureResponses` is in the order of its heap, and `simulated` has the response events
that are done. Dispatch events hang off issue events and no issue event waits for one. -/
structure ChainedOOOCoreRecorder extends OOOCoreRecorder where
  chain : EventChain
  futureResponses : List FutureResponse
  simulated : List Nat
  curId : Nat

namespace ChainedOOOCoreRecorder

def init : ChainedOOOCoreRecorder := ⟨⟨.init⟩, .init, [], [], 0⟩

/-- An issue event is linked with the responses before it; the last of them is in `maxCycle`. -/
def linkResponses (lastZllStartCycle : Int) : List FutureResponse → Int → Option Int
  | [], maxCycle => some maxCycle
  | resp :: resps, maxCycle =>
    match resp.ev with
    | none => linkResponses lastZllStartCycle resps maxCycle
    | some _ =>
      if maxCycle ≤ resp.zllStartCycle ∧ lastZllStartCycle ≤ resp.zllStartCycle then
        linkResponses lastZllStartCycle resps resp.zllStartCycle
      else none

/-- The delay of an issue event from the last response. -/
def preDelay (maxCycle zllCycle : Int) : Int :=
  if maxCycle ≠ 0 ∧ maxCycle < zllCycle then zllCycle - maxCycle else 0

def linkIssueEvent (r : ChainedOOOCoreRecorder) (evCycle : Nat) :
    Option ChainedOOOCoreRecorder :=
  r.account.pending.getLast?.bind fun lastZllStartCycle =>
    let zllCycle : Int := evCycle - r.account.gapCycles
    let prior := r.futureResponses.takeWhile (·.zllStartCycle < zllCycle)
    (linkResponses lastZllStartCycle prior 0).map fun maxCycle =>
      let preDelay := toDelay (preDelay maxCycle zllCycle)
      let issueDelay := toDelay (zllCycle - lastZllStartCycle - preDelay)
      { r with
        futureResponses := r.futureResponses.dropWhile (·.zllStartCycle < zllCycle)
        chain := r.chain.addChildren [.event (issueDelay + preDelay) 0] }

def notifyJoin (r : ChainedOOOCoreRecorder) (globPhaseCycles curCycle : Nat) :
    Option (ChainedOOOCoreRecorder × Nat) :=
  (r.toOOOCoreRecorder.notifyJoin globPhaseCycles curCycle).bind fun x =>
    if r.account.state = .halted then
      some ({ r with toOOOCoreRecorder := x.1, chain := .queue globPhaseCycles }, x.2)
    else
      (r.linkIssueEvent curCycle).map fun r => ({ r with toOOOCoreRecorder := x.1 }, x.2)

def notifyLeave (r : ChainedOOOCoreRecorder) (curCycle : Nat) : Option ChainedOOOCoreRecorder :=
  (r.toOOOCoreRecorder.notifyLeave curCycle).bind fun x =>
    (r.linkIssueEvent curCycle).map fun r => { r with toOOOCoreRecorder := x }

def pushResponse (r : ChainedOOOCoreRecorder) (zllStartCycle : Int) : ChainedOOOCoreRecorder :=
  { r with
    futureResponses := r.futureResponses.orderedInsert
      (fun e₁ e₂ => e₁.zllStartCycle ≤ e₂.zllStartCycle) ⟨zllStartCycle, some r.curId⟩
    curId := r.curId + 1 }

def recordAccess (r : ChainedOOOCoreRecorder) (tr : TimingRecord) (curCycle respCycle : Nat) :
    Option ChainedOOOCoreRecorder :=
  if tr.isGet then
    (r.toOOOCoreRecorder.recordAccess tr curCycle).bind fun x =>
      (r.linkIssueEvent curCycle).bind fun r =>
        if tr.respCycle ≤ respCycle then
          some ({ r with toOOOCoreRecorder := x }.pushResponse (respCycle - x.account.gapCycles))
        else none
  else some r

def cSimStart (r : ChainedOOOCoreRecorder) (nextPhaseCycle curCycle : Nat) :
    Option (ChainedOOOCoreRecorder × Nat) :=
  (r.toOOOCoreRecorder.cSimStart nextPhaseCycle curCycle).bind fun x =>
    match r.account.state with
    | .halted => some (r, x.2)
    | .running =>
      if r.account.pending.getLast?.any (· < (nextPhaseCycle : Int) - r.account.gapCycles) then
        (r.linkIssueEvent nextPhaseCycle).map fun r => ({ r with toOOOCoreRecorder := x.1 }, x.2)
      else some (r, x.2)
    | .draining => some ({ r with futureResponses := [] }, x.2)

def reportIssueEventSimulated (r : ChainedOOOCoreRecorder) (startCycle : Nat) :
    Option ChainedOOOCoreRecorder :=
  (r.toOOOCoreRecorder.simulate [startCycle]).map fun x =>
    { r with
      toOOOCoreRecorder := x
      chain := r.chain.eventDone startCycle x.account.lastOrigStartCycle }

/-- Responses that are simulated are forgotten. -/
def cSimEnd (r : ChainedOOOCoreRecorder) (curCycle : Nat) :
    Option (ChainedOOOCoreRecorder × Nat) :=
  if r.account.state = .halted then some (r, curCycle)
  else
    (r.toOOOCoreRecorder.cSimEnd curCycle).bind fun x =>
      let futureResponses := r.futureResponses.map fun resp =>
        { resp with ev := resp.ev.filter (· ∉ r.simulated) }
      if x.1.account.state = .halted ∧ futureResponses ≠ [] then none
      else some ({ r with toOOOCoreRecorder := x.1, futureResponses }, x.2)

end ChainedOOOCoreRecorder

/-- What happens to a recorder: the calls of its core, and the events, accesses and responses that
the weave phase simulates between `cSimStart` and `cSimEnd`. -/
inductive RecorderOp where
  | join
  | leave
  | advance (cycles : Nat)
  | record (tr : TimingRecord) (respCycle : Nat)
  | cSimStart
  | event (startCycle : Nat)
  | access (startCycle endCycle : Nat)
  | response (id : Nat)
  | cSimEnd

/-- A core with a recorder. `joined` says that a thread runs on it. -/
structure RecorderRun (R : Type) where
  globPhaseCycles : Nat
  weaving : Bool
  joined : Bool
  curCycle : Nat
  cRec : R

namespace RecorderRun

variable {R : Type} (phaseLength : Nat)

def init (cRec : R) : RecorderRun R := ⟨0, false, false, 0, cRec⟩

def nextPhaseCycle (s : RecorderRun R) : Nat := s.globPhaseCycles + phaseLength

/-- The core and the weave phase keep to this. A core that runs has passed the end of the phase by
`slack` cycles at least, an access is requested and answered in the order of its cycles, events up
to the limit are simulated, and a queued one is not left behind. -/
def Allowed (chain : R → EventChain) (slack : Nat) (s : RecorderRun R) : RecorderOp → Prop
  | .join => s.weaving = false ∧ s.joined = false
  | .leave => s.weaving = false ∧ s.joined = true
  | .advance _ => s.weaving = false ∧ s.joined = true
  | .record tr respCycle => s.weaving = false ∧ s.joined = true ∧ s.curCycle ≤ tr.reqCycle ∧
      s.curCycle ≤ respCycle ∧
      (tr.isGet = true → tr.reqCycle ≤ tr.respCycle ∧ tr.respCycle ≤ respCycle)
  | .cSimStart => s.weaving = false ∧
      (s.joined = true → s.nextPhaseCycle phaseLength + slack ≤ s.curCycle)
  | .event startCycle => s.weaving = true ∧ (chain s.cRec).canStart startCycle = true ∧
      startCycle ≤ s.nextPhaseCycle phaseLength
  | .access startCycle endCycle => s.weaving = true ∧
      (chain s.cRec).canAccess startCycle endCycle = true
  | .response _ => s.weaving = true
  | .cSimEnd => s.weaving = true ∧
      ∀ cycle, (chain s.cRec).release = .queued cycle → s.nextPhaseCycle phaseLength ≤ cycle

/-- Every state of a run whose steps are allowed and keep to `fits`. -/
inductive Reachable (step : RecorderRun R → RecorderOp → Option (RecorderRun R))
    (allowed fits : RecorderRun R → RecorderOp → Prop) (s₀ : RecorderRun R) :
    RecorderRun R → Prop where
  | init : Reachable step allowed fits s₀ s₀
  | step {s s' : RecorderRun R} (op : RecorderOp) (h : Reachable step allowed fits s₀ s)
      (hop : allowed s op) (hfits : fits s op) (hstep : step s op = some s') :
      Reachable step allowed fits s₀ s'

theorem Reachable.invariant {step : RecorderRun R → RecorderOp → Option (RecorderRun R)}
    {allowed fits : RecorderRun R → RecorderOp → Prop} {s₀ s : RecorderRun R}
    {P : RecorderRun R → Prop} (h : Reachable step allowed fits s₀ s) (hinit : P s₀)
    (hstep : ∀ s op, P s → allowed s op → fits s op → ∃ s', step s op = some s' ∧ P s') : P s := by
  induction h with
  | init => exact hinit
  | step op _ hop hfits hs ih =>
    obtain ⟨s₁, hs₁, hP⟩ := hstep _ op ih hop hfits
    rw [hs] at hs₁
    cases hs₁
    exact hP

end RecorderRun

abbrev TimingRecorderRun := RecorderRun ChainedCoreRecorder

namespace TimingRecorderRun

def step (phaseLength : Nat) (s : TimingRecorderRun) : RecorderOp → Option TimingRecorderRun
  | .join => (s.cRec.notifyJoin s.globPhaseCycles s.curCycle).map fun x =>
      { s with joined := true, cRec := x.1, curCycle := x.2 }
  | .leave => (s.cRec.notifyLeave s.curCycle).map fun r => { s with joined := false, cRec := r }
  | .advance cycles => some { s with curCycle := s.curCycle + cycles }
  | .record tr respCycle => (s.cRec.recordAccess tr s.curCycle).map fun r =>
      { s with cRec := r, curCycle := respCycle }
  | .cSimStart => (s.cRec.cSimStart (s.nextPhaseCycle phaseLength) s.curCycle).map fun x =>
      { s with weaving := true, cRec := x.1, curCycle := x.2 }
  | .event startCycle => (s.cRec.reportEventSimulated startCycle).map fun r =>
      { s with cRec := r }
  | .access _ endCycle =>
    some { s with cRec := { s.cRec with chain := s.cRec.chain.accessDone endCycle } }
  | .response _ => some s
  | .cSimEnd => (s.cRec.cSimEnd s.curCycle).map fun x =>
      { s with
        globPhaseCycles := s.nextPhaseCycle phaseLength
        weaving := false
        cRec := x.1
        curCycle := x.2 }

end TimingRecorderRun

abbrev OOORecorderRun := RecorderRun ChainedOOOCoreRecorder

namespace OOORecorderRun

def step (phaseLength : Nat) (s : OOORecorderRun) : RecorderOp → Option OOORecorderRun
  | .join => (s.cRec.notifyJoin s.globPhaseCycles s.curCycle).map fun x =>
      { s with joined := true, cRec := x.1, curCycle := max s.curCycle x.2 }
  | .leave => (s.cRec.notifyLeave s.curCycle).map fun r => { s with joined := false, cRec := r }
  | .advance cycles => some { s with curCycle := s.curCycle + cycles }
  | .record tr respCycle => (s.cRec.recordAccess tr s.curCycle respCycle).map fun r =>
      { s with cRec := r }
  | .cSimStart => (s.cRec.cSimStart (s.nextPhaseCycle phaseLength) s.curCycle).map fun x =>
      { s with weaving := true, cRec := x.1, curCycle := x.2 }
  | .event startCycle => (s.cRec.reportIssueEventSimulated startCycle).map fun r =>
      { s with cRec := r }
  | .access _ _ => some s
  | .response id =>
    some { s with cRec := { s.cRec with simulated := id :: s.cRec.simulated } }
  | .cSimEnd => (s.cRec.cSimEnd s.curCycle).map fun x =>
      { s with
        globPhaseCycles := s.nextPhaseCycle phaseLength
        weaving := false
        cRec := x.1
        curCycle := x.2 }

end OOORecorderRun

end ZSim
