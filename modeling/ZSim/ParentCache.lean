import ZSim.TopController

/-! One MESICC cache (inclusive) with its children. A request is issued by a child
with the state it holds, and runs here once this cache's locks are free. While the
cache waits for the level above its bottom lock is open, so that invalidations from
above run in between. An assertion or panic is `none`. -/

namespace ZSim

/-- The part of a `MemReq` that this level reads. -/
structure Request where
  lineAddr : Address
  type : AccessType
  initialState : MESIState
  flags : BitVec 32
  deriving DecidableEq

def Request.isPrefetch (r : Request) : Bool := decide (r.flags &&& MemReq.PREFETCH ≠ 0#32)

/-- An access of this cache to the level above, made for a child's request. -/
inductive Waiting
  | evict (childId lineId : Nat) (put : AccessType) (initialState : MESIState)
  | fetch (childId lineId : Nat) (type : AccessType) (initialState : MESIState)
  deriving DecidableEq

/-- `array`, `bcc` and `tcc` are indexed by line id; `child c a` is the state child
`c` has for address `a`. -/
structure ParentCache where
  array : Nat → Option Address
  bcc : Nat → MESIState
  tcc : Nat → Entry
  child : Nat → Address → MESIState
  req : Nat → Option Request
  waiting : Option Waiting

/-- Steps of the parent, its children and the level above. `deep` says which
children in E hold dirty data further down, which their invalidation reports. -/
inductive Action
  | issue (childId : Nat) (r : Request)
  | silent (childId : Nat) (lineAddr : Address)
  | start (childId victim : Nat) (deep : Nat → Bool)
  | resume (response : MESIState) (deep : Nat → Bool)
  | inval (lineAddr : Address) (type : InvType) (deep : Nat → Bool)

/-- A child issues each request type only from the states it is meant for. -/
def issuable (type : AccessType) (state : MESIState) : Bool :=
  match type with
  | .GETS => state == .I
  | .GETX => !state.isExclusive
  | .PUTS => state == .S || state == .E
  | .PUTX => state == .M

namespace ParentCache

variable (numChildren numLines : Nat)

def init : ParentCache where
  array := fun _ => none
  bcc := fun _ => .I
  tcc := fun _ => Entry.clear
  child := fun _ _ => .I
  req := fun _ => none
  waiting := none

/-- `array->lookup`. -/
def lookup (s : ParentCache) (a : Address) : Option Nat :=
  (List.range numLines).find? fun i => s.array i == some a

def setChild (w : Nat → Address → MESIState) (c : Nat) (a : Address) (s : MESIState) :
    Nat → Address → MESIState :=
  Function.update w c (Function.update (w c) a s)

/-- `children[c]->invalidate(req)` on the children's states for one address. -/
def childInvalidate (a : Address) (deep : Nat → Bool) :
    InvalidateChild (Nat → Address → MESIState) := fun c type w =>
  (MESIBottomCC.processInval (w c a) type).map fun r =>
    (setChild w c a r.1, r.2 || (w c a == .E && deep c))

/-- `MESICC::processAccess` after the bottom controller: directory, response to the
child, and the E to M transition for an induced writeback. Prefetches skip it. -/
def finishAccess (deep : Nat → Bool) (s : ParentCache) (c : Nat) (r : Request)
    (type : AccessType) (lineId : Nat) : Option ParentCache :=
  let done := { s with req := Function.update s.req c none, waiting := none }
  if r.isPrefetch then some done
  else
    match MESITopCC.processAccess numChildren (childInvalidate r.lineAddr deep) (s.tcc lineId)
        type c (s.bcc lineId).isExclusive (s.child c r.lineAddr) (r.flags &&& ~~~MemReq.PREFETCH)
        false s.child with
    | none => none
    | some (e, state, w, lowerLevelWriteback) =>
      let done := { done with
        tcc := Function.update s.tcc lineId e
        child := setChild w c r.lineAddr state }
      if lowerLevelWriteback then
        (MESIBottomCC.processWritebackOnAccess (s.bcc lineId)).map fun b =>
          { done with bcc := Function.update s.bcc lineId b }
      else some done

/-- `MESICC::processAccess` on a line of the array. -/
def accessLine (deep : Nat → Bool) (s : ParentCache) (c : Nat) (r : Request)
    (type : AccessType) (lineId : Nat) : Option ParentCache :=
  if isPut type ∧ s.bcc lineId = .I then none
  else if r.isPrefetch ∧ type ≠ .GETS then none
  else
    match MESIBottomCC.lookupAccess (s.bcc lineId) type with
    | none => none
    | some (.hit state) => finishAccess numChildren deep
        { s with bcc := Function.update s.bcc lineId state } c r type lineId
    | some (.miss t) => some { s with waiting := some (.fetch c lineId t (s.bcc lineId)) }

/-- `postinsert`, then the access to the new line. -/
def insertLine (deep : Nat → Bool) (s : ParentCache) (c : Nat) (r : Request)
    (lineId : Nat) : Option ParentCache :=
  accessLine numChildren deep
    { s with array := Function.update s.array lineId (some r.lineAddr) } c r r.type lineId

/-- `preinsert` chose `victim`; `processEviction` clears it below and, if it is
valid, puts it to the level above. -/
def evictLine (deep : Nat → Bool) (s : ParentCache) (c : Nat) (r : Request)
    (victim : Nat) : Option ParentCache :=
  match MESITopCC.processEviction false numChildren
      (childInvalidate ((s.array victim).getD 0) deep) (s.tcc victim) false s.child with
  | none => none
  | some (e, w, lowerLevelWriteback) =>
    match MESIBottomCC.evictState (s.bcc victim) lowerLevelWriteback with
    | none => none
    | some state =>
      let s' := { s with
        tcc := Function.update s.tcc victim e
        child := w
        bcc := Function.update s.bcc victim state }
      match MESIBottomCC.evictRequest state with
      | none => insertLine numChildren deep s' c r victim
      | some put => some { s' with waiting := some (.evict c victim put state) }

/-- `Cache::access` of child `c`'s request up to the first access to the level above. -/
def startAccess (deep : Nat → Bool) (s : ParentCache) (c victim : Nat) (r : Request) :
    Option ParentCache :=
  match checkForMESIRace r.type (s.child c r.lineAddr) r.initialState with
  | none => none
  | some (_, true) => some { s with req := Function.update s.req c none }
  | some (type, false) =>
    match lookup numLines s r.lineAddr with
    | some lineId => accessLine numChildren deep s c r type lineId
    | none =>
      -- shouldAllocate: a PUT to a line that is not here has lost inclusion
      if isGet type then evictLine numChildren deep s c r victim else none

/-- The level above runs its own race check on our line and answers. -/
def resumeAccess (deep : Nat → Bool) (s : ParentCache) (response : MESIState) :
    Option ParentCache :=
  match s.waiting with
  | none => none
  | some (.evict c victim put initialState) =>
    match checkForMESIRace put (s.bcc victim) initialState, s.req c with
    | some _, some r =>
      insertLine numChildren deep
        { s with bcc := Function.update s.bcc victim .I, waiting := none } c r victim
    | _, _ => none
  | some (.fetch c lineId type initialState) =>
    match checkForMESIRace type (s.bcc lineId) initialState, s.req c with
    | some (_, false), some r =>
      if MESIBottomCC.grantOk type response then
        finishAccess numChildren deep
          { s with bcc := Function.update s.bcc lineId response } c r type lineId
      else none
    | _, _ => none

/-- `startInvalidate` and `finishInvalidate` of an invalidation from above. -/
def invalidate (deep : Nat → Bool) (s : ParentCache) (a : Address) (type : InvType) :
    Option ParentCache :=
  match lookup numLines s a with
  | none => none
  | some lineId =>
    match MESITopCC.processInval false numChildren (childInvalidate a deep) (s.tcc lineId) type
        false s.child with
    | none => none
    | some (e, w, _) =>
      (MESIBottomCC.processInval (s.bcc lineId) type).map fun r =>
        { s with
          tcc := Function.update s.tcc lineId e
          child := w
          bcc := Function.update s.bcc lineId r.1 }

def step (s : ParentCache) : Action → Option ParentCache
  | .issue c r => some { s with req := Function.update s.req c (some r) }
  | .silent c a => some { s with child := setChild s.child c a .M }
  | .start c victim deep =>
    match s.req c with
    | none => none
    | some r => startAccess numChildren numLines deep s c victim r
  | .resume response deep => resumeAccess numChildren deep s response
  | .inval a type deep => invalidate numChildren numLines deep s a type

/-- When a step may be taken. A child has one request in flight, whose locks keep
it from changing its own lines meanwhile; this cache serves one request at a time. -/
def Enabled (s : ParentCache) : Action → Prop
  | .issue c r => c < numChildren ∧ s.req c = none ∧ r.initialState = s.child c r.lineAddr ∧
      issuable r.type r.initialState = true ∧ (r.isPrefetch = true → r.type = .GETS)
  | .silent c a => c < numChildren ∧ s.req c = none ∧ s.child c a = .E
  | .start c victim _ => c < numChildren ∧ victim < numLines ∧ s.waiting = none ∧
      s.req c ≠ none
  | .resume response _ =>
    match s.waiting with
    | none => False
    | some (.evict ..) => True
    | some (.fetch _ _ type _) => MESIBottomCC.grantOk type response = true
  | .inval a type _ => ∃ i < numLines, s.array i = some a ∧ invalidatable type (s.bcc i) = true

inductive Reachable : ParentCache → Prop
  | init : Reachable init
  | step {s s' : ParentCache} {a : Action} : Reachable s → Enabled numChildren numLines s a →
      step numChildren numLines s a = some s' → Reachable s'

end ParentCache

end ZSim
