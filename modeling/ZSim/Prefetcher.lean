import ZSim.ParentCache

/-! The stream prefetcher between a child and its parent. Positions in a page are unsigned
and strides signed 32-bit integers; a zero stride, which only tables never allocated hold,
divides to 0. -/

namespace ZSim

/-- An entry of the table; `respCycle` is that of `times`. -/
structure StreamEntry where
  stride : BitVec 32
  conf : Nat
  respCycle : BitVec 32 → Nat
  valid : BitVec 32 → Bool
  lastPos : BitVec 32
  lastLastPos : BitVec 32
  lastPrefetchPos : BitVec 32
  lastCycle : Nat
  ts : Nat

namespace StreamEntry

def alloc (e : StreamEntry) (curCycle : Nat) : StreamEntry :=
  { e with
    stride := 1
    lastPos := 0
    lastLastPos := 0
    lastPrefetchPos := 0
    conf := 1
    valid := fun _ => false
    lastCycle := curCycle }

/-- `conf.pred()` of the saturating counter, whose maximum is 3. -/
def pred (e : StreamEntry) : Bool := decide (2 ≤ e.conf)

def inc (e : StreamEntry) : StreamEntry := { e with conf := min (e.conf + 1) 3 }

def dec (e : StreamEntry) : StreamEntry := { e with conf := e.conf - 1 }

/-- A demand access to a position that was prefetched waits for the prefetch. The result
holds the response cycle and `shortPrefetch`. -/
def prefetchHit (e : StreamEntry) (pos : BitVec 32) (respCycle : Nat) :
    StreamEntry × Nat × Bool :=
  if e.valid pos then
    let pfRespCycle := e.respCycle pos
    ({ e with
      valid := Function.update e.valid pos false
      lastCycle := max (max pfRespCycle respCycle) e.lastCycle },
      max pfRespCycle respCycle, decide (respCycle < pfRespCycle))
  else (e, respCycle, false)

/-- A stride that is not the predicted one; the prediction may switch to it. -/
def otherStride (e : StreamEntry) (pos stride : BitVec 32) : StreamEntry :=
  let e := e.dec
  let lastStride := e.lastPos - e.lastLastPos
  let e := if e.pred = false ∧ stride ≠ 0 ∧ stride ≠ e.stride ∧ stride = lastStride then
    { e with conf := 1, stride := stride } else e
  { e with lastPrefetchPos := pos }

/-- `fetchDepth` and `prefetchPos`. -/
def target (e : StreamEntry) (pos stride : BitVec 32) : Int × BitVec 32 :=
  let fetchDepth := ((e.lastPrefetchPos - e.lastPos) / stride).toInt
  if fetchDepth < 1 then (1, pos + stride) else (fetchDepth, e.lastPrefetchPos + stride)

/-- The positions to prefetch at a stride that is predicted with confidence. -/
def prefetches (e : StreamEntry) (pos stride : BitVec 32) (shortPrefetch : Bool) :
    List (BitVec 32) :=
  let (fetchDepth, prefetchPos) := e.target pos stride
  if prefetchPos < 64 ∧ e.valid prefetchPos = false then
    if shortPrefetch ∧ fetchDepth < 8 ∧ prefetchPos + stride < 64 ∧
        Function.update e.valid prefetchPos true (prefetchPos + stride) = false then
      [prefetchPos, prefetchPos + stride]
    else [prefetchPos]
  else []

/-- The record of a prefetch that was issued. -/
def fill (e : StreamEntry) (pos : BitVec 32) (respCycle : Nat) : StreamEntry :=
  { e with
    valid := Function.update e.valid pos true
    respCycle := Function.update e.respCycle pos respCycle
    lastPrefetchPos := pos }

def advance (e : StreamEntry) (pos : BitVec 32) : StreamEntry :=
  { e with lastLastPos := e.lastPos, lastPos := pos }

end StreamEntry

/-- The first 16 tags and entries are those of the prefetcher. -/
structure StreamPrefetcher where
  timestamp : Nat
  tag : Nat → Address
  array : Nat → StreamEntry

/-- The prefetcher, whose child and parent are those of `parent`, as child `childId`. -/
structure PrefetchSystem where
  childId : Nat
  pf : StreamPrefetcher
  parent : ParentCache

/-- How the parent and the level above answer a prefetch. -/
structure PrefetchEnv where
  victim : Nat
  deep : Nat → Bool
  response : MESIState
  respCycle : Nat

namespace StreamPrefetcher

/-- The last entry with the tag of the page. -/
def find? (pf : StreamPrefetcher) (pageAddr : Address) : Option Nat :=
  (List.range 16).reverse.find? fun i => pf.tag i = pageAddr

/-- The least recently used entry without warm prefetches. -/
def candidate (pf : StreamPrefetcher) (reqCycle : Nat) : Option Nat :=
  ((List.range 16).foldl (fun (best : Option Nat × Nat) i =>
    if (pf.array i).lastCycle > reqCycle + 500 then best
    else if (pf.array i).ts < best.2 then (some i, (pf.array i).ts)
    else best) (none, 2 ^ 64 - 1)).1

/-- A page that has no entry takes one, if there is a candidate. -/
def entryMiss (pf : StreamPrefetcher) (pageAddr : Address) (pos : BitVec 32) (reqCycle : Nat) :
    StreamPrefetcher :=
  match pf.candidate reqCycle with
  | none => pf
  | some idx =>
    { timestamp := pf.timestamp + 1
      tag := Function.update pf.tag idx pageAddr
      array := Function.update pf.array idx
        { (pf.array idx).alloc reqCycle with lastPos := pos, ts := pf.timestamp } }

def pageOf (lineAddr : Address) : Address := lineAddr / 64

def posOf (lineAddr : Address) : BitVec 32 := BitVec.ofNat 32 (lineAddr % 64)

/-- The entry of a page that has one, after the demand access has used its prefetch. -/
def entryHit (pf : StreamPrefetcher) (idx : Nat) (pos : BitVec 32) (respCycle : Nat) :
    StreamEntry × Nat × Bool :=
  ({ pf.array idx with ts := pf.timestamp } : StreamEntry).prefetchHit pos respCycle

/-- The positions that a demand access makes the prefetcher fetch. -/
def issued (pf : StreamPrefetcher) (lineAddr : Address) (respCycle : Nat) : List (BitVec 32) :=
  match pf.find? (pageOf lineAddr) with
  | none => []
  | some idx =>
    let pos := posOf lineAddr
    let (e, _, shortPrefetch) := pf.entryHit idx pos respCycle
    let stride := pos - e.lastPos
    if e.stride = stride ∧ e.inc.pred = true then e.inc.prefetches pos stride shortPrefetch
    else []

/-- The table after a demand access, when the prefetches it issued were answered. -/
def train (pf : StreamPrefetcher) (lineAddr : Address) (reqCycle respCycle : Nat)
    (answered : List (BitVec 32 × Nat)) : StreamPrefetcher :=
  let pos := posOf lineAddr
  match pf.find? (pageOf lineAddr) with
  | none => pf.entryMiss (pageOf lineAddr) pos reqCycle
  | some idx =>
    let (e, _, _) := pf.entryHit idx pos respCycle
    let stride := pos - e.lastPos
    let e := if e.stride = stride then
        answered.foldl (fun e a => e.fill a.1 a.2) e.inc
      else e.otherStride pos stride
    { pf with
      timestamp := pf.timestamp + 1
      array := Function.update pf.array idx (e.advance pos) }

/-- `pfReq`, for the line `pos` places from the start of the page. The second prefetch adds
the stride to the first one's address, which gives the same line. -/
def pfReq (lineAddr : Address) (childId reqCycle srcId : Nat) (childLock : Bool)
    (pos : BitVec 32) : MemReq Unit :=
  MemReq.aggregate ((lineAddr + pos.toNat + 2 ^ 64 - lineAddr % 64) % 2 ^ 64) .GETS childId ()
    reqCycle childLock .I srcId MemReq.PREFETCH

end StreamPrefetcher

namespace ParentCache

variable (numChildren numLines : Nat)

/-- The tail of `MESICC::processAccess` for a request whose state is not the child's own. -/
def finishSide (deep : Nat → Bool) (s : ParentCache) (c : Nat) (r : Request) (state : MESIState)
    (lineId : Nat) : Option (ParentCache × MESIState) :=
  if r.isPrefetch then some (s, state)
  else
    match MESITopCC.processAccess numChildren (childInvalidate r.lineAddr deep) (s.tcc lineId)
        r.type c (s.bcc lineId).isExclusive state (r.flags &&& ~~~MemReq.PREFETCH)
        false s.child with
    | none => none
    | some (e, state, w, lowerLevelWriteback) =>
      let done := { s with tcc := Function.update s.tcc lineId e, child := w }
      if lowerLevelWriteback then
        (MESIBottomCC.processWritebackOnAccess (s.bcc lineId)).map fun b =>
          ({ done with bcc := Function.update s.bcc lineId b }, state)
      else some (done, state)

def sideLine (env : PrefetchEnv) (s : ParentCache) (c : Nat) (r : Request) (state : MESIState)
    (lineId : Nat) : Option (ParentCache × MESIState) :=
  match MESIBottomCC.lookupAccess (s.bcc lineId) r.type with
  | none => none
  | some (.hit st) => finishSide numChildren env.deep
      { s with bcc := Function.update s.bcc lineId st } c r state lineId
  | some (.miss t) =>
    if MESIBottomCC.grantOk t env.response then
      finishSide numChildren env.deep
        { s with bcc := Function.update s.bcc lineId env.response } c r state lineId
    else none

/-- The eviction of `victim`, whose PUT the level above takes. -/
def sideEvict (env : PrefetchEnv) (s : ParentCache) : Option ParentCache :=
  match MESITopCC.processEviction false numChildren
      (childInvalidate ((s.array env.victim).getD 0) env.deep) (s.tcc env.victim) false
      s.child with
  | none => none
  | some (e, w, lowerLevelWriteback) =>
    (MESIBottomCC.evictState (s.bcc env.victim) lowerLevelWriteback).map fun _ =>
      { s with
        tcc := Function.update s.tcc env.victim e
        child := w
        bcc := Function.update s.bcc env.victim .I }

/-- A GETS that passes the address of a state of its own, `state`: a prefetch. The whole
access runs at once. -/
def sideAccess (env : PrefetchEnv) (s : ParentCache) (c : Nat) (r : Request)
    (state : MESIState) : Option (ParentCache × MESIState) :=
  match checkForMESIRace r.type state r.initialState with
  | some (_, false) =>
    match lookup numLines s r.lineAddr with
    | some lineId => sideLine numChildren env s c r state lineId
    | none => (sideEvict numChildren env s).bind fun s =>
        sideLine numChildren env
          { s with array := Function.update s.array env.victim (some r.lineAddr) } c r state
          env.victim
  | _ => none

end ParentCache

namespace PrefetchSystem

open StreamPrefetcher

variable (numChildren numLines : Nat)

def request (q : MemReq Unit) : Request := ⟨q.lineAddr, q.type, q.initialState, q.flags⟩

/-- The prefetches reach the parent one after the other, with one dummy state. -/
def prefetchAll (childId : Nat) : List (MemReq Unit × PrefetchEnv) → ParentCache → MESIState →
    Option (ParentCache × MESIState)
  | [], s, state => some (s, state)
  | (q, env) :: qs, s, state =>
    (s.sideAccess numChildren numLines env childId (request q) state).bind fun r =>
      prefetchAll childId qs r.1 r.2

/-- A GETS of the child that the parent has answered at `respCycle`. -/
structure Demand where
  lineAddr : Address
  reqCycle : Nat
  respCycle : Nat
  srcId : Nat
  childLock : Bool
  env : List PrefetchEnv

/-- The requests that the prefetcher issues after the demand. -/
def requests (s : PrefetchSystem) (d : Demand) : List (MemReq Unit) :=
  (s.pf.issued d.lineAddr d.respCycle).map
    (pfReq d.lineAddr s.childId d.reqCycle d.srcId d.childLock)

/-- The rest of `StreamPrefetcher::access`. -/
def access (s : PrefetchSystem) (d : Demand) : Option PrefetchSystem :=
  (prefetchAll numChildren numLines s.childId ((s.requests d).zip d.env) s.parent .I).bind
    fun r =>
      if r.2 = .I then
        some { s with
          parent := r.1
          pf := s.pf.train d.lineAddr d.reqCycle d.respCycle
            ((s.pf.issued d.lineAddr d.respCycle).zip (d.env.map (·.respCycle))) }
      else none

inductive Event
  | parent (a : Action)
  | access (d : Demand)

def step (s : PrefetchSystem) : Event → Option PrefetchSystem
  | .parent a => (s.parent.step numChildren numLines a).map fun p => { s with parent := p }
  | .access d => s.access numChildren numLines d

/-- The children make demand requests only. The child of the prefetcher has been answered
when the prefetcher goes on. -/
def Allowed (s : PrefetchSystem) : Event → Prop
  | .parent a => s.parent.Enabled numChildren numLines a ∧
      ∀ c r, a = .issue c r → r.isPrefetch = false
  | .access d => s.parent.req s.childId = none ∧ d.env.length = 2

end PrefetchSystem

end ZSim
