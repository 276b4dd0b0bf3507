import ZSim.MemoryHierarchy

/-! The MESI controllers. An assertion or panic of the source is `none`. The
bottom controller keeps one state per line and calls up; the top controller keeps
the sharers of a line and calls down. Calls to another cache are parameters acting
on the rest of the hierarchy `w`, so that the same code serves one level with an
open environment and a whole tree. Latencies are left out. -/

namespace ZSim

variable {σ Ptr : Type}

/-- The race filter run once both parent locks are held. The result is the access
type, possibly weakened, and whether the access is skipped. -/
def checkForMESIRace (type : AccessType) (state initialState : MESIState) :
    Option (AccessType × Bool) :=
  if state = initialState then some (type, false)
  else match type with
    | .PUTS => if state = .I then some (.PUTS, true)
        else if state = .S then some (.PUTS, false) else none
    | .PUTX => if state = .I then some (.PUTX, true)
        else if state = .S then some (.PUTS, false) else none
    | .GETX => if initialState = .S ∧ state = .I then some (.GETX, false) else none
    | .GETS => none

namespace MESIBottomCC

/-- `processEviction` up to the call: a writeback found below needs exclusive
permission here and makes the line dirty. -/
def evictState (state : MESIState) (lowerLevelWriteback : Bool) : Option MESIState :=
  if lowerLevelWriteback then (if state.isExclusive then some .M else none) else some state

/-- The PUT an eviction issues; an invalid line issues none. -/
def evictRequest : MESIState → Option AccessType
  | .I => none
  | .S => some .PUTS
  | .E => some .PUTS
  | .M => some .PUTX

/-- What an access does with the state it finds: hit and leave a new state, or go
to the parent. -/
inductive Lookup
  | hit (state : MESIState)
  | miss (type : AccessType)
  deriving DecidableEq

/-- The switch of `processAccess`, up to the call of the parent. -/
def lookupAccess (state : MESIState) : AccessType → Option Lookup
  | .PUTS => if state = .I then none else some (.hit state)
  | .PUTX => if state.isExclusive then some (.hit .M) else none
  | .GETS => if state = .I then some (.miss .GETS) else some (.hit state)
  | .GETX => if state.isExclusive then some (.hit .M) else some (.miss .GETX)

/-- The assertions of `processAccess` on the state the parent wrote. -/
def grantOk (type : AccessType) (state : MESIState) : Bool :=
  match type with
  | .GETS => state == .S || state == .E
  | .GETX => state == .M
  | _ => true

/-- `processAccess`: `read` looks at this line's own state, which `parentAccess`
writes through the request's pointer, and `write` sets it. -/
def processAccess (parentAccess : AccessType → σ → Option σ) (read : σ → MESIState)
    (write : MESIState → σ → σ) (type : AccessType) (w : σ) : Option σ :=
  match lookupAccess (read w) type with
  | none => none
  | some (.hit state) => some (write state w)
  | some (.miss type) =>
    match parentAccess type w with
    | none => none
    | some w' => if grantOk type (read w') then some w' else none

/-- `processEviction`, with the closing assertion that the line ended invalid. -/
def processEviction (parentAccess : AccessType → σ → Option σ) (read : σ → MESIState)
    (write : MESIState → σ → σ) (lowerLevelWriteback : Bool) (w : σ) : Option σ :=
  match evictState (read w) lowerLevelWriteback with
  | none => none
  | some state =>
    match evictRequest state with
    | none => some (write state w)
    | some put =>
      match parentAccess put (write state w) with
      | none => none
      | some w' => if read w' = .I then some w' else none

def processWritebackOnAccess (state : MESIState) : Option MESIState :=
  if state.isExclusive then some .M else none

/-- The new state and whether `*reqWriteback` is pulled up. -/
def processInval (state : MESIState) : InvType → Option (MESIState × Bool)
  | .INVX => if state.isExclusive then some (.S, state == .M) else none
  | .INV => if state = .I then none else some (.I, state == .M)
  | .FWD => if state = .S then some (.S, false) else none

end MESIBottomCC

structure Entry where
  numSharers : Nat
  sharers : Nat → Bool
  exclusive : Bool

namespace Entry

def clear : Entry := ⟨0, fun _ => false, false⟩

def isEmpty (e : Entry) : Bool := e.numSharers == 0

def isExclusive (e : Entry) : Bool := e.numSharers == 1 && e.exclusive

def setSharer (e : Entry) (c : Nat) (b : Bool) : Entry :=
  { e with sharers := Function.update e.sharers c b }

end Entry

/-- `children[c]->invalidate(req)` as it acts on the levels below: the state it
leaves there and whether it pulled `*reqWriteback` up. -/
abbrev InvalidateChild (σ : Type) := Nat → InvType → σ → Option (σ × Bool)

namespace MESITopCC

/-- The loop of `sendInvalidates` over the children. -/
def sendLoop (invalidate : InvalidateChild σ) (type : InvType) :
    List Nat → Entry → σ → Bool → Nat → Option (Entry × σ × Bool × Nat)
  | [], e, w, reqWriteback, sentInvs => some (e, w, reqWriteback, sentInvs)
  | c :: cs, e, w, reqWriteback, sentInvs =>
    if e.sharers c then
      match invalidate c type w with
      | none => none
      | some (w', wb) =>
        sendLoop invalidate type cs (if type = .INV then e.setSharer c false else e) w'
          (reqWriteback || wb) (sentInvs + 1)
    else sendLoop invalidate type cs e w reqWriteback sentInvs

def sendInvalidates (numChildren : Nat) (invalidate : InvalidateChild σ) (e : Entry)
    (type : InvType) (reqWriteback : Bool) (w : σ) : Option (Entry × σ × Bool) :=
  if type = .INVX ∧ e.isExclusive = false then some (e, w, reqWriteback)
  else if e.isEmpty then some (e, w, reqWriteback)
  else
    match sendLoop invalidate type (List.range numChildren) e w reqWriteback 0 with
    | none => none
    | some (e', w', wb, sentInvs) =>
      if sentInvs = e'.numSharers then
        if type = .INV then some ({ e' with numSharers := 0 }, w', wb)
        else if e'.exclusive ∧ e'.numSharers = 1 then
          some ({ e' with exclusive := false }, w', wb)
        else none
      else none

def processEviction (nonInclusiveHack : Bool) (numChildren : Nat)
    (invalidate : InvalidateChild σ) (e : Entry) (reqWriteback : Bool) (w : σ) :
    Option (Entry × σ × Bool) :=
  if nonInclusiveHack then some (Entry.clear, w, reqWriteback)
  else sendInvalidates numChildren invalidate e .INV reqWriteback w

/-- The common tail of PUTX and PUTS: take the child out of the sharers. -/
def dropSharer (e : Entry) (childId : Nat) : Option (Entry × MESIState) :=
  if e.sharers childId then
    some ({ e.setSharer childId false with numSharers := e.numSharers - 1 }, .I)
  else none

/-- The result holds the entry and the state written through `childState`. -/
def processAccess (numChildren : Nat) (invalidate : InvalidateChild σ) (e : Entry)
    (type : AccessType) (childId : Nat) (haveExclusive : Bool) (childState : MESIState)
    (flags : BitVec 32) (inducedWriteback : Bool) (w : σ) :
    Option (Entry × MESIState × σ × Bool) :=
  match type with
  | .PUTX =>
    if e.isExclusive then
      if flags &&& MemReq.PUTX_KEEPEXCL ≠ 0#32 then
        if e.sharers childId ∧ childState = .M then some (e, .E, w, inducedWriteback) else none
      else (dropSharer e childId).map fun r => (r.1, r.2, w, inducedWriteback)
    else none
  | .PUTS => (dropSharer e childId).map fun r => (r.1, r.2, w, inducedWriteback)
  | .GETS =>
    if e.isEmpty ∧ haveExclusive ∧ flags &&& MemReq.NOEXCL = 0#32 then
      some ({ e.setSharer childId true with exclusive := true, numSharers := 1 }, .E, w,
        inducedWriteback)
    else if e.sharers childId then none
    else
      match (if e.isExclusive then
          sendInvalidates numChildren invalidate e .INVX inducedWriteback w
        else some (e, w, inducedWriteback)) with
      | none => none
      | some (e', w', wb) =>
        if e'.isExclusive then none
        else some ({ e'.setSharer childId true with
          numSharers := e'.numSharers + 1, exclusive := false }, .S, w', wb)
  | .GETX =>
    if haveExclusive then
      if e.sharers childId ∧ e.isExclusive then none
      else
        let e₁ := if e.sharers childId then
          { e.setSharer childId false with numSharers := e.numSharers - 1 } else e
        match sendInvalidates numChildren invalidate e₁ .INV inducedWriteback w with
        | none => none
        | some (e', w', wb) =>
          if e'.numSharers + 1 = 1 then
            some ({ e'.setSharer childId true with
              numSharers := e'.numSharers + 1, exclusive := true }, .M, w', wb)
          else none
    else none

def processInval (nonInclusiveHack : Bool) (numChildren : Nat)
    (invalidate : InvalidateChild σ) (e : Entry) (type : InvType) (reqWriteback : Bool) (w : σ) :
    Option (Entry × σ × Bool) :=
  if type = .FWD then (if nonInclusiveHack then none else some (e, w, reqWriteback))
  else sendInvalidates numChildren invalidate e type reqWriteback w

end MESITopCC

end ZSim
