import ZSim.ParentCacheSafety

/-! A tree of caches of any depth, seen through one line. Every cache has at most one
access to its parent in flight; an access is a chain of segments, each run under the
locks of one cache, and segments of different caches interleave freely. Evictions of
the line may come at any time, since accesses to other lines cause them. -/

namespace ZSim

/-- A cache is named by its path to the root: child `c` of `p` is `c :: p`. -/
abbrev Path := List Nat

structure CacheTree where
  fanout : Path → Nat
  height : Nat
  nonInclusiveHack : Path → Bool
  lineAddr : Address
  bounded : ∀ p, fanout p ≠ 0 → p.length < height

/-- Why a cache waits for its parent: for an access of its core, for child `childId`
whose request became a `type`, to forward a non-inclusive writeback of that child, or
to evict the line. -/
inductive Purpose
  | core
  | serve (childId : Nat) (type : AccessType)
  | forward (childId : Nat)
  | evict
  deriving DecidableEq

/-- An access in flight. The state pointer of a filter cache (`dummyState`) is `none`.
`issuer` is the flags word of whoever made the request first. -/
structure Pending where
  req : MemReq (Option Path)
  issuer : BitVec 32
  purpose : Purpose

/-- What can be observed of a run: requests as they are passed to the parent and as it
takes them up once it has its locks, answers, invalidations, and stores of the cores.
Memory, or whatever is above the root, is `none`. -/
inductive Event
  | sent (cache : Path) (req : MemReq (Option Path)) (issuer : BitVec 32)
  | received (cache : Option Path) (req : MemReq (Option Path)) (issuer : BitVec 32) (skip : Bool)
  | answered (requester : Path) (type : AccessType) (issuer : BitVec 32) (state : MESIState)
  | invalidated (cache : Path) (type : InvType) (reqWriteback : Bool)
  | wrote (cache : Path)

/-- `st`, `dir` and `resident` are the bottom controllers, the directories and the
arrays; the log has its newest event first. -/
structure Hierarchy where
  st : Path → MESIState
  dir : Path → Entry
  resident : Path → Bool
  pend : Path → Option Pending
  log : List Event

namespace Hierarchy

def init : Hierarchy where
  st := fun _ => .I
  dir := fun _ => Entry.clear
  resident := fun _ => false
  pend := fun _ => none
  log := []

def record (s : Hierarchy) (e : Event) : Hierarchy := { s with log := e :: s.log }

def setState (s : Hierarchy) (p : Path) (x : MESIState) : Hierarchy :=
  { s with st := Function.update s.st p x }

def setDir (s : Hierarchy) (p : Path) (e : Entry) : Hierarchy :=
  { s with dir := Function.update s.dir p e }

def setResident (s : Hierarchy) (p : Path) (b : Bool) : Hierarchy :=
  { s with resident := Function.update s.resident p b }

def setPend (s : Hierarchy) (p : Path) (P : Option Pending) : Hierarchy :=
  { s with pend := Function.update s.pend p P }

/-- `parents[getParentId(lineAddr)]->access(req)`: the parent has the request, and `p`
waits. -/
def send (s : Hierarchy) (p : Path) (P : Pending) : Hierarchy :=
  (s.setPend p (some P)).record (.sent p P.req P.issuer)

/-- `*req.state`. -/
def readPtr (s : Hierarchy) : Option Path → MESIState
  | none => .I
  | some p => s.st p

def writePtr (s : Hierarchy) (ptr : Option Path) (x : MESIState) : Hierarchy :=
  match ptr with
  | none => s
  | some p => s.setState p x

/-- The `selfId` of a cache. -/
def selfId : Path → Nat
  | [] => 0
  | c :: _ => c

variable (T : CacheTree)

/-- `Cache::invalidate`: the levels below first, then our own state. -/
def invalidate : Nat → Path → InvType → Hierarchy → Option (Hierarchy × Bool)
  | 0, _, _, _ => none
  | k + 1, p, type, s =>
    if s.resident p then
      match (if T.fanout p = 0 then some (s.dir p, s, false) else
          MESITopCC.processInval (T.nonInclusiveHack p) (T.fanout p)
            (fun c t w => invalidate k (c :: p) t w) (s.dir p) type false s) with
      | none => none
      | some (e, s', wb) =>
        match MESIBottomCC.processInval (s'.st p) type with
        | none => none
        | some (state, dirty) =>
          some ((((s'.setDir p e).setState p state).record (.invalidated p type (wb || dirty))),
            wb || dirty)
    else none

/-- `children[c]->invalidate` as the top controller of `p` calls it. -/
def toChildren (p : Path) : InvalidateChild Hierarchy := fun c type s =>
  invalidate T T.height (c :: p) type s

/-- The request a cache sends to its parent for the state pointer `ptr`. -/
def request (s : Hierarchy) (p : Path) (type : AccessType) (ptr : Option Path)
    (cycle srcId : Nat) (flags : BitVec 32) : MemReq (Option Path) :=
  MemReq.aggregate T.lineAddr type (selfId p) ptr cycle true (s.readPtr ptr) srcId flags

/-- `MESICC::processAccess` after the bottom controller, for the request `Q` of child
`c`: directory, answer to the child, transition for an induced writeback. -/
def finishServe (p : Path) (c : Nat) (type : AccessType) (Q : Pending) (s : Hierarchy) :
    Option Hierarchy :=
  if Q.req.isSet MemReq.PREFETCH then some s
  else
    match MESITopCC.processAccess (T.fanout p) (toChildren T p) (s.dir p) type c
        (s.st p).isExclusive (s.readPtr Q.req.state) (Q.req.flags &&& ~~~MemReq.PREFETCH)
        false s with
    | none => none
    | some (e, state, s', lowerLevelWriteback) =>
      let s' := ((s'.setDir p e).writePtr Q.req.state state).record
        (.answered (c :: p) type Q.issuer state)
      if lowerLevelWriteback then
        (MESIBottomCC.processWritebackOnAccess (s'.st p)).map fun b => s'.setState p b
      else some s'

/-- An access of the core ends with the line in place; a GETX has written it. -/
def finishCore (p : Path) (type : AccessType) (s : Hierarchy) : Hierarchy :=
  if type = .GETX then s.record (.wrote p) else s

/-- Cache `p` goes on after its parent answered it, and answers its own child. -/
def resume : Nat → Path → Hierarchy → Option Hierarchy
  | 0, _, _ => none
  | k + 1, p, s =>
    match s.pend p with
    | none => none
    | some P =>
      match P.purpose with
      | .core =>
        if MESIBottomCC.grantOk P.req.type (s.st p) then
          some (finishCore p P.req.type (s.setPend p none))
        else none
      | .evict => if s.st p = .I then some ((s.setPend p none).setResident p false) else none
      | .forward c => resume k (c :: p) (s.setPend p none)
      | .serve c type =>
        match s.pend (c :: p) with
        | none => none
        | some Q =>
          if MESIBottomCC.grantOk P.req.type (s.st p) then
            match finishServe T p c type Q (s.setPend p none) with
            | none => none
            | some s' => resume k (c :: p) s'
          else none

/-- `MESITerminalCC::processAccess`: answer the core at once, or ask the parent first. -/
def coreLine (p : Path) (type : AccessType) (req : MemReq (Option Path)) (issuer : BitVec 32)
    (s : Hierarchy) : Option Hierarchy :=
  match MESIBottomCC.lookupAccess (s.st p) type with
  | none => none
  | some (.hit state) => some (finishCore p type (s.setState p state))
  | some (.miss t) => some (s.send p
      ⟨request T s p t (some p) req.cycle req.srcId req.flags, issuer, .core⟩)

/-- An access of the core to terminal cache `p`, issued by the filter cache. -/
def access (p : Path) (type : AccessType) (flags : BitVec 32) (cycle srcId : Nat)
    (s : Hierarchy) : Option Hierarchy :=
  let req := MemReq.aggregate T.lineAddr type 0 none cycle true .I srcId flags
  coreLine T p type req flags
    ((s.record (.received (some p) req flags false)).setResident p true)

/-- `lookup`, and `preinsert` to `postinsert` on a miss. The new line takes a slot
whose last line was cleared below; its exclusive flag may have stayed up. -/
def allocate (p : Path) (stale : Bool) (s : Hierarchy) : Hierarchy :=
  if s.resident p then s
  else (s.setResident p true).setDir p { Entry.clear with exclusive := stale }

/-- A writeback this cache has no valid line for. -/
def isBypass (p : Path) (type : AccessType) (s : Hierarchy) : Bool :=
  isPut type && (!s.resident p || s.st p == .I)

/-- `MESICC::processAccess` for child `c` on the line in cache `p`: answer at once, or
ask the parent first. -/
def serveLine (p : Path) (c : Nat) (type : AccessType) (Q : Pending) (s : Hierarchy) :
    Option Hierarchy :=
  if Q.req.isSet MemReq.PREFETCH ∧ type ≠ .GETS then none
  else
    match MESIBottomCC.lookupAccess (s.st p) type with
    | none => none
    | some (.hit state) =>
      match finishServe T p c type Q (s.setState p state) with
      | none => none
      | some s' => resume T (T.height + 1) (c :: p) s'
    | some (.miss t) => some (s.send p ⟨request T s p t (some p) Q.req.cycle Q.req.srcId
        (Q.req.flags &&& ~~~MemReq.PREFETCH), Q.issuer, .serve c type⟩)

/-- Cache `p` takes up the request of its child `c`. -/
def serve (p : Path) (c : Nat) (stale : Bool) (s : Hierarchy) : Option Hierarchy :=
  match s.pend (c :: p) with
  | none => none
  | some Q =>
    match checkForMESIRace Q.req.type (s.readPtr Q.req.state) Q.req.initialState with
    | none => none
    | some (type, true) => resume T (T.height + 1) (c :: p)
        (s.record (.received (some p) { Q.req with type := type } Q.issuer true))
    | some (type, false) =>
      let s := s.record (.received (some p) { Q.req with type := type } Q.issuer false)
      if isBypass p type s then
        -- shouldAllocate and processAccess both insist on nonInclusiveHack here
        if T.nonInclusiveHack p then
          some (s.send p ⟨request T s p type Q.req.state Q.req.cycle Q.req.srcId
            (Q.req.flags ||| MemReq.NONINCLWB), Q.issuer ||| MemReq.NONINCLWB, .forward c⟩)
        else none
      else serveLine T p c type Q (allocate p stale s)

/-- `processEviction` of the line in cache `p`. -/
def evict (p : Path) (cycle srcId : Nat) (s : Hierarchy) : Option Hierarchy :=
  match (if T.fanout p = 0 then some (s.dir p, s, false) else
      MESITopCC.processEviction (T.nonInclusiveHack p) (T.fanout p) (toChildren T p) (s.dir p)
        false s) with
  | none => none
  | some (e, s', lowerLevelWriteback) =>
    match MESIBottomCC.evictState (s'.st p) lowerLevelWriteback with
    | none => none
    | some state =>
      let s' := (s'.setDir p e).setState p state
      match MESIBottomCC.evictRequest state with
      | none => some (s'.setResident p false)
      | some put => some (s'.send p ⟨request T s' p put (some p) cycle srcId 0, 0, .evict⟩)

/-- What memory writes to `*req.state`; a cache above the root may have sharers and
then answers GETS with S. -/
def upperGrant (req : MemReq (Option Path)) (type : AccessType) (alone : Bool) : MESIState :=
  match type with
  | .GETS => if req.isSet MemReq.NOEXCL || !alone then .S else .E
  | .GETX => .M
  | _ => .I

/-- The level above the root answers its request. -/
def answer (alone : Bool) (s : Hierarchy) : Option Hierarchy :=
  match s.pend [] with
  | none => none
  | some P =>
    match checkForMESIRace P.req.type (s.readPtr P.req.state) P.req.initialState with
    | none => none
    | some (type, true) => resume T (T.height + 1) []
        (s.record (.received none { P.req with type := type } P.issuer true))
    | some (type, false) =>
      let state := upperGrant P.req type alone
      resume T (T.height + 1) []
        (((s.record (.received none { P.req with type := type } P.issuer false)).writePtr
          P.req.state state).record (.answered [] type P.issuer state))

inductive Action
  | access (cache : Path) (type : AccessType) (flags : BitVec 32) (cycle srcId : Nat)
  | serve (cache : Path) (childId : Nat) (stale : Bool)
  | evict (cache : Path) (cycle srcId : Nat)
  | answer (alone : Bool)
  | inval (type : InvType)

def step (s : Hierarchy) : Action → Option Hierarchy
  | .access p type flags cycle srcId => access T p type flags cycle srcId s
  | .serve p c stale => serve T p c stale s
  | .evict p cycle srcId => evict T p cycle srcId s
  | .answer alone => answer T alone s
  | .inval type => (invalidate T (T.height + 1) [] type s).map (·.1)

/-- When a step may be taken: a cache busy with an access starts no other, and the
level above invalidates with the permission it granted. -/
def Enabled (s : Hierarchy) : Action → Prop
  | .access p type _ _ _ => isGet type = true ∧ T.fanout p = 0 ∧ s.pend p = none
  | .serve p c _ => c < T.fanout p ∧ s.pend (c :: p) ≠ none ∧ s.pend p = none
  | .evict p _ _ => s.resident p = true ∧ s.pend p = none
  | .answer _ => s.pend [] ≠ none
  | .inval type => invalidatable type (s.st []) = true

inductive Reachable : Hierarchy → Prop
  | init : Reachable init
  | step {s s' : Hierarchy} {a : Action} : Reachable s → Enabled T s a →
      step T s a = some s' → Reachable s'

end Hierarchy

end ZSim
