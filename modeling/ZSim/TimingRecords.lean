import ZSim.EventGraph
import ZSim.ParentCache

/-! The timing records of a cache that simulates contention, over the coherence of an inclusive
cache. An access is split where it calls the level above. Cycles and delays do not overflow. -/

namespace ZSim

inductive RecordedKind where
  | hit
  | missStart (lineAddr : Address) (lineId : Nat)
  | missResponse (mse : Nat)
  | missWriteback (mse : Nat) (lineAddr : Address)
  | replAccess (accsLeft : Nat)
  | delay
  | other

structure RecordedEvent where
  kind : RecordedKind
  minStartCycle : Nat

abbrev RecordGraph := EventGraph RecordedEvent

structure AccessRecord where
  addr : Nat
  reqCycle : Nat
  respCycle : Nat
  type : AccessType
  startEvent : Nat
  endEvent : Nat

namespace MESITopCC

/-- The cycle `sendInvalidates` returns: invalidations are sent in parallel. `invLat` has the
latency of each child, with the network. -/
def sendCycle (numChildren : Nat) (e : Entry) (type : InvType) (invLat : Nat → Nat)
    (cycle : Nat) : Nat :=
  if type = .INVX ∧ e.isExclusive = false then cycle
  else if e.isEmpty then cycle
  else (List.range numChildren).foldl
    (fun maxCycle c => if e.sharers c then max (cycle + invLat c) maxCycle else maxCycle) cycle

/-- The cycle `processAccess` returns. -/
def accessCycle (numChildren : Nat) (e : Entry) (type : AccessType) (childId : Nat)
    (haveExclusive : Bool) (flags : BitVec 32) (invLat : Nat → Nat) (cycle : Nat) : Nat :=
  match type with
  | .PUTX => cycle
  | .PUTS => cycle
  | .GETS =>
    if e.isEmpty ∧ haveExclusive ∧ flags &&& MemReq.NOEXCL = 0#32 then cycle
    else if e.isExclusive then sendCycle numChildren e .INVX invLat cycle
    else cycle
  | .GETX =>
    let e₁ := if e.sharers childId then
      { e.setSharer childId false with numSharers := e.numSharers - 1 } else e
    sendCycle numChildren e₁ .INV invLat cycle

end MESITopCC

structure RecordConfig where
  numChildren : Nat
  numLines : Nat
  lineBits : Nat
  accLat : Nat
  tagLat : Nat
  ways : Nat
  cands : Nat
  ways_pos : 0 < ways

/-- What the level above answers an access with: when, over which network latency, and the record
it leaves with its events, if any. -/
structure Answer where
  respCycle : Nat
  netLat : Nat
  record : Option AccessRecord
  graph : RecordGraph

/-- The locals of an access that waits for the level above, and the graph when it started. -/
structure Access where
  cycle : Nat
  evDoneCycle : Nat
  writebackRecord : Option AccessRecord
  graph : RecordGraph

/-- `evRec` is the record of the core that has its access served, and `respCycle` what the last
access returned. -/
structure RecordingCache where
  cache : ParentCache
  graph : RecordGraph
  evRec : Option AccessRecord
  access : Option Access
  respCycle : Nat

namespace RecordingCache

variable (G : RecordConfig)

/-- Ties two events to an optional record. -/
def connect (g : RecordGraph) (r : Option AccessRecord) (startEv endEv startCycle endCycle : Nat) :
    Option RecordGraph :=
  if startCycle ≤ endCycle then
    match r with
    | some r =>
      if startCycle ≤ r.reqCycle ∧ r.respCycle ≤ endCycle then
        let g := g.addDelayed ⟨.delay, startCycle⟩ startEv r.startEvent (r.reqCycle - startCycle)
        some (g.addDelayed ⟨.delay, r.respCycle⟩ r.endEvent endEv (endCycle - r.respCycle))
      else none
    | none => some (g.addDelayed ⟨.delay, startCycle⟩ startEv endEv (endCycle - startCycle))
  else none

/-- The loop over the candidate lookups, for at most `fuel` turns: the graph and the last event. -/
def lookups (cycle replLookups : Nat) :
    Nat → Nat → Nat → Nat → RecordGraph → Option (RecordGraph × Nat)
  | fuel, accsSoFar, fringeAccs, p, g =>
    if accsSoFar < replLookups then
      match fuel with
      | 0 => none
      | fuel + 1 =>
        let preDelay := if accsSoFar = 0 then G.tagLat else 0
        let postDelay := (G.tagLat + 2 ^ 32 - min ((G.tagLat + 2 ^ 32 - 1) % 2 ^ 32) fringeAccs) %
          2 ^ 32
        let accs := min fringeAccs (replLookups - accsSoFar)
        let raEv := g.size
        let g := (g.new ⟨.replAccess accs, cycle⟩ preDelay postDelay).addChild p raEv
        lookups cycle replLookups fuel (accsSoFar + accs) (fringeAccs * (G.ways - 1)) raEv g
    else some (g, p)

/-- The events of a swap, a read and a write, between two others. -/
def swap (cycle : Nat) (g : RecordGraph) (p mwe : Nat) : RecordGraph :=
  let rdEv := g.size
  let g := g.new ⟨.replAccess 1, cycle⟩ G.tagLat G.tagLat
  let wrEv := g.size
  let g := g.new ⟨.replAccess 1, cycle⟩ 0 0
  ((g.addChild p rdEv).addChild rdEv wrEv).addChild wrEv mwe

/-- The candidate lookups, a swap, and the writeback of the miss. -/
def replacement (cycle : Nat) (g : RecordGraph) (mse mwe : Nat) : Option RecordGraph :=
  let replLookups := (G.cands + (G.ways - 1)) / G.ways - 1
  if replLookups = 0 then none
  else
    (lookups G cycle replLookups replLookups 0 (G.ways - 1) mse g).map fun x =>
      swap G cycle x.1 x.2 mwe

/-- The events of an access and its record, once it is known when the line was there and when the
child has its response. -/
def record (g : RecordGraph) (lineAddr : Address) (type : AccessType) (lineId cycle evDoneCycle : Nat)
    (writebackRecord accessRecord : Option AccessRecord) (getDoneCycle respCycle : Nat) :
    Option (RecordGraph × AccessRecord) :=
  if getDoneCycle - cycle = G.accLat then
    if writebackRecord.isNone ∧ accessRecord.isNone then
      let ev := g.size
      some (g.new ⟨.hit, cycle⟩ 0 (respCycle - cycle),
        ⟨lineAddr <<< G.lineBits, cycle, respCycle, type, ev, ev⟩)
    else none
  else if getDoneCycle = respCycle then
    let mse := g.size
    let g := g.new ⟨.missStart lineAddr lineId, cycle⟩ 0 G.accLat
    let mre := g.size
    let g := g.new ⟨.missResponse mse, getDoneCycle⟩ 0 0
    let mwe := g.size
    let g := g.new ⟨.missWriteback mse lineAddr, max evDoneCycle getDoneCycle⟩ 0 G.accLat
    (connect g accessRecord mse mre (cycle + G.accLat) getDoneCycle).bind fun g =>
      let g := g.addChild mre mwe
      (if evDoneCycle = 0 then some g
        else connect g writebackRecord mse mwe (cycle + G.accLat) evDoneCycle).bind fun g =>
          (if evDoneCycle ≠ 0 ∧ G.ways < G.cands then replacement G cycle g mse mwe
            else some g).map fun g =>
              (g, ⟨lineAddr <<< G.lineBits, cycle, respCycle, type, mse, mre⟩)
  else none

def pushRecord (evRec : Option AccessRecord) (tr : AccessRecord) : Option (Option AccessRecord) :=
  if evRec.isNone then some (some tr) else none

/-- The end of an access that was not skipped. -/
def endAccess (T : RecordingCache) (cache : ParentCache) (r : Request) (type : AccessType)
    (lineId : Nat) (a : Access) (accessRecord : Option AccessRecord)
    (getDoneCycle respCycle : Nat) : Option RecordingCache :=
  (record G T.graph r.lineAddr type lineId a.cycle a.evDoneCycle a.writebackRecord accessRecord
      getDoneCycle respCycle).bind fun x =>
    (pushRecord T.evRec x.2).bind fun evRec =>
      if a.cycle ≤ respCycle then some ⟨cache, x.1, evRec, none, respCycle⟩ else none

/-- The cycle `MESICC::processAccess` returns, with the line there at `getDoneCycle`. -/
def processCycle (e : Entry) (c : Nat) (r : Request) (type : AccessType) (haveExclusive : Bool)
    (invLat : Nat → Nat) (getDoneCycle : Nat) : Nat :=
  if r.isPrefetch then getDoneCycle
  else MESITopCC.accessCycle G.numChildren e type c haveExclusive
    (r.flags &&& ~~~MemReq.PREFETCH) invLat getDoneCycle

/-- Steps of the cache, its children and the level above. The core takes its record and goes on in
`graph`. -/
inductive Op where
  | coherence (a : Action)
  | start (c victim : Nat) (deep : Nat → Bool) (cycle : Nat) (invLat : Nat → Nat)
  | resume (response : MESIState) (deep : Nat → Bool) (invLat : Nat → Nat) (answer : Answer)
  | popRecord (graph : RecordGraph)

/-- An access up to its first call of the level above. A new line is invalid, so the access goes
on to the level above after an eviction. -/
def start (T : RecordingCache) (cache : ParentCache) (c victim cycle : Nat) (invLat : Nat → Nat)
    (r : Request) : Option RecordingCache :=
  match checkForMESIRace r.type (T.cache.child c r.lineAddr) r.initialState with
  | none => none
  | some (_, true) => some { T with cache := cache, respCycle := cycle }
  | some (type, false) =>
    let a : Access := ⟨cycle, 0, none, T.graph⟩
    match ParentCache.lookup G.numLines T.cache r.lineAddr with
    | some lineId =>
      match MESIBottomCC.lookupAccess (T.cache.bcc lineId) type with
      | some (.hit state) =>
        endAccess G T cache r type lineId a none (cycle + G.accLat)
          (processCycle G (T.cache.tcc lineId) c r type state.isExclusive invLat (cycle + G.accLat))
      | _ => some { T with cache := cache, access := some a }
    | none =>
      let evCycle := MESITopCC.sendCycle G.numChildren (T.cache.tcc victim) .INV invLat
        (cycle + G.accLat)
      some { T with cache := cache, access := some { a with evDoneCycle := evCycle } }

/-- An access when the level above has answered. -/
def resume (T : RecordingCache) (cache : ParentCache) (response : MESIState) (invLat : Nat → Nat)
    (answer : Answer) : Option RecordingCache :=
  match T.cache.waiting, T.access with
  | some (.evict ..), some a => some { T with
      cache := cache
      graph := answer.graph
      access := some { a with
        evDoneCycle := answer.respCycle
        writebackRecord := answer.record } }
  | some (.fetch c lineId type _), some a =>
    (T.cache.req c).bind fun r =>
      let getDoneCycle := a.cycle + G.accLat + (answer.respCycle - (a.cycle + G.accLat)) +
        answer.netLat
      endAccess G { T with graph := answer.graph } cache r type lineId a answer.record getDoneCycle
        (processCycle G (T.cache.tcc lineId) c r type response.isExclusive invLat getDoneCycle)
  | _, _ => none

def step (T : RecordingCache) : Op → Option RecordingCache
  | .coherence a => (ParentCache.step G.numChildren G.numLines T.cache a).map fun cache =>
      { T with cache := cache }
  | .start c victim deep cycle invLat =>
    (ParentCache.step G.numChildren G.numLines T.cache (.start c victim deep)).bind fun cache =>
      (T.cache.req c).bind (start G T cache c victim cycle invLat)
  | .resume response deep invLat answer =>
    (ParentCache.step G.numChildren G.numLines T.cache (.resume response deep)).bind fun cache =>
      resume G T cache response invLat answer
  | .popRecord graph => some { T with graph := graph, evRec := none }

def init : RecordingCache :=
  ⟨ParentCache.init, ⟨0, fun _ => ⟨.other, 0⟩, fun _ => 0, fun _ => 0, fun _ => []⟩, none, none, 0⟩

end RecordingCache

end ZSim
