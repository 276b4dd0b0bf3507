import ZSim.AccessTracing
import ZSim.TopController

/-! The trace driver: the records of a trace are replayed against an inclusive parent, which calls
back into the children's stores. The reader is the list of records it still delivers. What is not
the driver's or the parent's doing is a script: victims, answers and invalidations of the level
above, and response cycles. A failed assert or panic is `none`. -/

namespace ZSim

namespace TraceDriver

open AccessTrace (AccessTraceWriter)

structure ChildInfo where
  cStore : Address → Option MESIState
  skew : BitVec 64
  lastReqCycle : BitVec 64
  profLat : BitVec 64
  profSelfInv : BitVec 64
  profCrossInv : BitVec 64
  profInvx : BitVec 64

structure Config where
  numChildren : Nat
  numLines : Nat
  useSkews : Bool
  playPuts : Bool
  playAllGets : Bool
  phaseLength : BitVec 64

/-- The driver's children and output trace, and the parent's lines. -/
structure System where
  children : Nat → ChildInfo
  atw : Option AccessTraceWriter
  array : Nat → Option Address
  bcc : Nat → MESIState
  tcc : Nat → Entry

structure InvReq where
  lineAddr : Address
  type : InvType
  srcId : Nat

/-- What happens around one record: invalidations sent to the parent before it and while the
parent waits, the line it gives up for a new one, whether the level above answers a GETS with E,
and the cycles of the responses. -/
structure Script (G : Config) where
  before : List InvReq
  victim : Fin G.numLines
  duringEviction : List InvReq
  duringFetch : List InvReq
  alone : Bool
  putCycle : BitVec 64
  respCycle : BitVec 64

variable (G : Config)

def ChildInfo.new (skew lastReqCycle : BitVec 64) : ChildInfo :=
  ⟨fun _ => none, skew, lastReqCycle, 0, 0, 0, 0⟩

/-- The constructor leaves `skew` and `lastReqCycle` as they are in memory. -/
def System.init (skew lastReqCycle : Nat → BitVec 64) (retrace : Bool) : System where
  children := fun c => .new (skew c) (lastReqCycle c)
  atw := if retrace then some (.new (BitVec.ofNat 32 G.numChildren)) else none
  array := fun _ => none
  bcc := fun _ => .I
  tcc := fun _ => Entry.clear

/-- `*reqWriteback` is what the call leaves in it. -/
def invalidate (srcId : Nat) (a : Address) : InvalidateChild (Nat → ChildInfo) := fun c type w =>
  if c < G.numChildren then
    match (w c).cStore a with
    | none => none
    | some state =>
      let it := w c
      let it' :=
        if type = .INVX then
          { it with cStore := Function.update it.cStore a (some .S), profInvx := it.profInvx + 1 }
        else if srcId = c then
          { it with cStore := Function.update it.cStore a none, profSelfInv := it.profSelfInv + 1 }
        else
          { it with cStore := Function.update it.cStore a none, profCrossInv := it.profCrossInv + 1 }
      some (Function.update w c it', state == .M)
  else none

namespace System

variable (w : System)

def setChild (c : Nat) (child : ChildInfo) : System :=
  { w with children := Function.update w.children c child }

def setStore (c : Nat) (a : Address) (state : Option MESIState) : System :=
  w.setChild c { w.children c with cStore := Function.update (w.children c).cStore a state }

/-- `array->lookup`. -/
def lookup (a : Address) : Option Nat :=
  (List.range G.numLines).find? fun i => w.array i == some a

/-- `Cache::invalidate`, called by the level above. -/
def invalidateLine (r : InvReq) : Option System :=
  match w.lookup G r.lineAddr with
  | none => none
  | some i =>
    match MESITopCC.processInval false G.numChildren (invalidate G r.srcId r.lineAddr) (w.tcc i)
        r.type false w.children with
    | none => none
    | some (e, children, _) =>
      (MESIBottomCC.processInval (w.bcc i) r.type).map fun x =>
        { w with
          tcc := Function.update w.tcc i e
          children := children
          bcc := Function.update w.bcc i x.1 }

/-- The level above invalidates only lines that it granted, with the permission it granted. -/
def mayInvalidate (r : InvReq) : Bool :=
  match w.lookup G r.lineAddr with
  | none => false
  | some i => invalidatable r.type (w.bcc i)

def invalidates (rs : List InvReq) : Option System :=
  rs.foldlM (fun w r => if mayInvalidate G w r then invalidateLine G w r else some w) w

/-- `MESICC::processAccess` after the bottom controller. -/
def finishAccess (i : Nat) (type : AccessType) (c : Nat) (a : Address) (state : MESIState) :
    Option (System × MESIState) :=
  match MESITopCC.processAccess G.numChildren (invalidate G c a) (w.tcc i) type c
      (w.bcc i).isExclusive state 0#32 false w.children with
  | none => none
  | some (e, state', children, lowerLevelWriteback) =>
    let w' := { w with tcc := Function.update w.tcc i e, children := children }
    if lowerLevelWriteback then
      (MESIBottomCC.processWritebackOnAccess (w.bcc i)).map fun b =>
        ({ w' with bcc := Function.update w.bcc i b }, state')
    else some (w', state')

variable {G}

/-- What the level above writes to the state of our line. -/
def response (script : Script G) : AccessType → MESIState
  | .GETX => .M
  | _ => if script.alone then .E else .S

/-- `MESICC::processAccess` on a line of the array. -/
def accessLine (script : Script G) (i : Nat) (type : AccessType) (c : Nat) (a : Address)
    (state : MESIState) : Option (System × MESIState) :=
  if isPut type ∧ w.bcc i = .I then none
  else
    match MESIBottomCC.lookupAccess (w.bcc i) type with
    | none => none
    | some (.hit b) => finishAccess G { w with bcc := Function.update w.bcc i b } i type c a state
    | some (.miss t) =>
      match w.invalidates G script.duringFetch with
      | none => none
      | some w' =>
        -- the level above has the race check too
        match checkForMESIRace t (w'.bcc i) (w.bcc i) with
        | some (_, false) => finishAccess G
            { w' with bcc := Function.update w'.bcc i (response script t) } i type c a state
        | _ => none

/-- `MESICC::processEviction` of the victim, for an access of child `c`. -/
def evictLine (script : Script G) (c : Nat) : Option System :=
  let v : Nat := script.victim
  match MESITopCC.processEviction false G.numChildren
      (invalidate G c ((w.array v).getD 0)) (w.tcc v) false w.children with
  | none => none
  | some (e, children, lowerLevelWriteback) =>
    match MESIBottomCC.evictState (w.bcc v) lowerLevelWriteback with
    | none => none
    | some state =>
      let w' := { w with
        tcc := Function.update w.tcc v e
        children := children
        bcc := Function.update w.bcc v state }
      match MESIBottomCC.evictRequest state with
      | none => some w'
      | some put =>
        match w'.invalidates G script.duringEviction with
        | none => none
        | some w'' =>
          match checkForMESIRace put (w''.bcc v) state with
          | none => none
          | some _ => some { w'' with bcc := Function.update w''.bcc v .I }

/-- `parent->access(req)`: the state it leaves in `*req.state`. -/
def access (script : Script G) (type : AccessType) (c : Nat) (a : Address)
    (state initialState : MESIState) : Option (System × MESIState) :=
  match checkForMESIRace type state initialState with
  | none => none
  | some (_, true) => some (w, state)
  | some (type, false) =>
    match w.lookup G a with
    | some i => w.accessLine script i type c a state
    | none =>
      -- shouldAllocate: a PUT to a line that is not here has lost inclusion
      if isGet type then
        match w.evictLine script c with
        | none => none
        | some w' =>
          accessLine { w' with array := Function.update w'.array script.victim (some a) } script
            script.victim type c a state
      else none

variable (G) in
/-- The end of `executeAccess`. -/
def finishRecord (acc : AccessTrace.AccessRecord) (lat : BitVec 64) : Option System :=
  let c := acc.childId.toNat
  let w := w.setChild c { w.children c with lastReqCycle := acc.reqCycle }
  match w.atw with
  | none => some w
  | some atw =>
    let wAcc := if G.useSkews then acc
      else { acc with reqCycle := acc.reqCycle + (w.children c).skew }
    (atw.write { wAcc with latency := lat.setWidth 32 }).map fun atw => { w with atw := some atw }

/-- The GET of a record whose child has the line in `state`, or I if it has not. -/
def executeGet (script : Script G) (acc : AccessTrace.AccessRecord) (state : MESIState) :
    Option System :=
  let c := acc.childId.toNat
  let a := acc.lineAddr.toNat
  match w.access script acc.type c a state state with
  | none => none
  | some (w', state') =>
    let lat := script.respCycle - acc.reqCycle
    let child := w'.children c
    if state' ≠ .I then
      let w'' := w'.setChild c { child with
        cStore := Function.update child.cStore a (some state')
        profLat := child.profLat + lat
        skew := child.skew + (lat - acc.latency.setWidth 64) }
      w''.finishRecord G acc lat
    else none

def executeAccess (script : Script G) (acc : AccessTrace.AccessRecord) : Option System :=
  let c := acc.childId.toNat
  let a := acc.lineAddr.toNat
  if c < G.numChildren then
    if isPut acc.type then
      if G.playPuts then
        match (w.children c).cStore a with
        | none => some w
        | some state =>
          match w.access script acc.type c a state state with
          | none => none
          | some (w', state') =>
            if state' = .I then
              (w'.setStore c a none).finishRecord G acc (script.putCycle - acc.reqCycle)
            else none
      else some w
    else
      match (w.children c).cStore a with
      | none => w.executeGet script acc .I
      | some state =>
        if state = .S ∧ acc.type = .GETX then w.executeGet script acc state
        else if G.playAllGets then
          match w.access script (if state = .M then .PUTX else .PUTS) c a state state with
          | none => none
          | some (w', state') =>
            if state' = .I then (w'.setStore c a (some .I)).executeGet script acc .I else none
        else some w
  else none

end System

/-- The cycle of a record is skewed when it is read. -/
def skewed (w : System) (acc : AccessTrace.AccessRecord) : AccessTrace.AccessRecord :=
  if G.useSkews then { acc with reqCycle := acc.reqCycle + (w.children acc.childId.toNat).skew }
  else acc

/-- A record executed: in which phase, as it was read, and the state it left. -/
structure Executed where
  phase : Nat
  acc : AccessTrace.AccessRecord
  after : System

/-- `log` is not in the source: the records executed, the last one at the end. -/
structure Driver where
  tr : List AccessTrace.AccessRecord
  lastAcc : Option AccessTrace.AccessRecord
  sys : System
  numPhases : Nat
  globPhaseCycles : BitVec 64
  log : List Executed

namespace Driver

variable {G} (script : Nat → Script G)

/-- The records that find the driver in a state that fails an assert, and that state. -/
abbrev Result (α : Type) := Except (Driver × AccessTrace.AccessRecord) α

def start (w : System) (tr : List AccessTrace.AccessRecord) : Driver := ⟨tr, none, w, 0, 0, []⟩

/-- `executeAccess` of the next record, after what happens before it. -/
def play (d : Driver) (acc : AccessTrace.AccessRecord) : Result Driver :=
  match (d.sys.invalidates G (script d.log.length).before).bind fun w =>
      w.executeAccess (script d.log.length) acc with
  | none => .error (d, acc)
  | some w => .ok { d with sys := w, log := d.log ++ [⟨d.numPhases, acc, w⟩] }

/-- The loop of `executePhase`, with `acc` read and `tr` left. -/
def executeUntil (limit : BitVec 64) :
    List AccessTrace.AccessRecord → AccessTrace.AccessRecord → Driver → Result (Driver × Bool)
  | tr, acc, d =>
    if acc.reqCycle < limit then
      match d.play script acc with
      | .error e => .error e
      | .ok d' =>
        match tr with
        | [] => .ok ({ d' with tr := [], lastAcc := none }, false)
        | next :: tr => executeUntil limit tr (skewed G d'.sys next) d'
    else .ok ({ d with tr := tr, lastAcc := some acc }, true)

/-- False if done, true otherwise. -/
def executePhase (d : Driver) : Result (Driver × Bool) :=
  let limit := d.globPhaseCycles + G.phaseLength
  match d.lastAcc with
  | some acc => executeUntil script limit d.tr acc d
  | none =>
    match d.tr with
    | [] => .ok (d, false)
    | acc :: tr => executeUntil script limit tr (skewed G d.sys acc) d

/-- The loop of the simulator, for at most `n` phases. -/
def simulate : Nat → Driver → Result Driver
  | 0, d => .ok d
  | n + 1, d =>
    match executePhase script d with
    | .error e => .error e
    | .ok (d', false) => .ok d'
    | .ok (d', true) => simulate n { d' with
        numPhases := d'.numPhases + 1, globPhaseCycles := d'.globPhaseCycles + G.phaseLength }

end Driver

end TraceDriver

end ZSim
