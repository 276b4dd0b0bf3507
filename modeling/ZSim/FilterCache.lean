import ZSim.SetAssocLRU

/-! The filter cache, an L0 in front of a terminal cache, next to the plain cache it
extends. The rest of the hierarchy is `σ`: while it serves a request it may invalidate
lines of this cache and look at the answer, and the core may switch context. An
assertion that fails is `none`. Latencies are left out. -/

namespace ZSim

/-- Addresses have `64 - lineBits` bits within a process, and the process index is put
above them. -/
structure FilterConfig extends SetConfig where
  lineBits : Nat
  procIdx : Nat
  lineBits_pos : 0 < lineBits
  bits_le : setBits + lineBits ≤ 64

namespace FilterConfig

variable (G : FilterConfig)

def procMask : Address := G.procIdx * 2 ^ (64 - G.lineBits) % 2 ^ 64

def vLineAddr (vAddr : Address) : Address := vAddr >>> G.lineBits

def pLineAddr (vLineAddr : Address) : Address := G.procMask ||| vLineAddr

end FilterConfig

/-- `-1L` as an address. -/
def noAddr : Address := 2 ^ 64 - 1

structure FilterEntry where
  rdAddr : Address
  wrAddr : Address

def FilterEntry.clear : FilterEntry := ⟨0, 0⟩

/-- The array, the replacement policy and the states of the bottom controller, with the
filter array, which the plain cache does not use. `evicted` records what each
replacement evicts, newest first. -/
structure FilterCache (σ : Type) where
  array : Nat → Address
  rp : LRUReplPolicy
  state : Nat → MESIState
  evicted : List (Nat × Address)
  parent : σ
  filterArray : Nat → FilterEntry

/-- What the parent does with a request: invalidate lines here, which it hears the
outcome of, and in the end write the state of the requester. A context switch can come
in between. -/
inductive Service (σ : Type)
  | respond (state : MESIState) (parent : σ)
  | invalidate (lineAddr : Address) (type : InvType) (next : Bool → Service σ)
  | contextSwitch (next : Service σ)

/-- `access` of the parent, by line, request and the state the requester is in. -/
abbrev Parent (σ : Type) := Address → AccessType → MESIState → σ → Service σ

/-- The virtual functions in which the two caches differ. -/
structure Methods (σ : Type) where
  invalidate : Address → InvType → FilterCache σ → Option (FilterCache σ × Bool)
  contextSwitch : FilterCache σ → FilterCache σ

variable {σ : Type} (G : FilterConfig)

namespace FilterCache

def init (parent : σ) : FilterCache σ :=
  ⟨fun _ => 0, .init, fun _ => .I, [], parent, fun _ => .clear⟩

def setState (c : FilterCache σ) (lineId : Nat) (state : MESIState) : FilterCache σ :=
  { c with state := Function.update c.state lineId state }

def isValid (c : FilterCache σ) (lineId : Nat) : Bool := c.state lineId != .I

/-- `Cache::finishInvalidate`, and whether it pulled a writeback. -/
def finishInvalidate (lineAddr : Address) (type : InvType) (c : FilterCache σ) :
    Option (FilterCache σ × Bool) :=
  (SetAssocArray.lookup G.toSetConfig c.array lineAddr).bind fun lineId =>
    (MESIBottomCC.processInval (c.state lineId) type).map fun r => (c.setState lineId r.1, r.2)

def setEntry (c : FilterCache σ) (idx : Nat) (e : FilterEntry) : FilterCache σ :=
  { c with filterArray := Function.update c.filterArray idx e }

/-- Drop the filter entry of an invalidated line. -/
def dropEntry (lineAddr : Address) (c : FilterCache σ) : FilterCache σ :=
  let idx := lineAddr &&& G.setMask
  if (c.filterArray idx).rdAddr ||| G.procMask = lineAddr then
    c.setEntry idx ⟨noAddr, noAddr⟩
  else c

def invalidate (lineAddr : Address) (type : InvType) (c : FilterCache σ) :
    Option (FilterCache σ × Bool) :=
  finishInvalidate G lineAddr type (dropEntry G lineAddr c)

def contextSwitch (c : FilterCache σ) : FilterCache σ :=
  { c with filterArray := fun _ => .clear }

def methods : Methods σ := ⟨invalidate G, contextSwitch⟩

def cacheMethods : Methods σ := ⟨finishInvalidate G, id⟩

/-- The parent serves a request for `lineId`. -/
def serve (K : Methods σ) (lineId : Nat) : Service σ → FilterCache σ → Option (FilterCache σ)
  | .respond state parent, c => some { c.setState lineId state with parent := parent }
  | .invalidate lineAddr type next, c =>
    (K.invalidate lineAddr type c).bind fun r => serve K lineId (next r.2) r.1
  | .contextSwitch next, c => serve K lineId next (K.contextSwitch c)

/-- `parents[getParentId(lineAddr)]->access(req)` for the line in `lineId`. -/
def parentAccess (K : Methods σ) (P : Parent σ) (lineAddr : Address) (lineId : Nat)
    (type : AccessType) (c : FilterCache σ) : Option (FilterCache σ) :=
  serve K lineId (P lineAddr type (c.state lineId) c.parent) c

def updateRepl (c : FilterCache σ) (lineId : Nat) : FilterCache σ :=
  { c with rp := c.rp.update lineId }

/-- `preinsert`: the line to replace. -/
def candidate (lineAddr : Address) (c : FilterCache σ) : Nat :=
  c.rp.rank c.isValid (SetAssocArray.set G.toSetConfig lineAddr)

def postinsert (lineAddr : Address) (lineId : Nat) (c : FilterCache σ) : FilterCache σ :=
  { c with
    rp := (c.rp.replaced lineId).update lineId
    array := Function.update c.array lineId lineAddr }

/-- The part of `Cache::access` that finds the line or makes room for it. -/
def findLine (K : Methods σ) (P : Parent σ) (lineAddr : Address) (c : FilterCache σ) :
    Option (FilterCache σ × Nat) :=
  match SetAssocArray.lookup G.toSetConfig c.array lineAddr with
  | some lineId => some (c.updateRepl lineId, lineId)
  | none =>
    let lineId := candidate G lineAddr c
    let wbLineAddr := c.array lineId
    (MESIBottomCC.processEviction (parentAccess K P wbLineAddr lineId) (fun c => c.state lineId)
      (fun s c => c.setState lineId s) false
      { c with evicted := (lineId, wbLineAddr) :: c.evicted }).map
        fun c => (postinsert lineAddr lineId c, lineId)

/-- `Cache::access` over a terminal controller. The requester is the core: its state is
a dummy, so no race is seen. -/
def access (K : Methods σ) (P : Parent σ) (lineAddr : Address) (type : AccessType)
    (c : FilterCache σ) : Option (FilterCache σ) :=
  (findLine G K P lineAddr c).bind fun r =>
    MESIBottomCC.processAccess (parentAccess K P lineAddr r.2) (fun c => c.state r.2)
      (fun s c => c.setState r.2 s) type r.1

def replace (P : Parent σ) (vLineAddr : Address) (idx : Nat) (isLoad : Bool)
    (c : FilterCache σ) : Option (FilterCache σ) :=
  (access G (methods G) P (G.pLineAddr vLineAddr) (if isLoad then .GETS else .GETX) c).map fun c =>
    c.setEntry idx ⟨vLineAddr, if isLoad then noAddr else vLineAddr⟩

def load (P : Parent σ) (vAddr : Address) (c : FilterCache σ) : Option (FilterCache σ) :=
  let vLineAddr := G.vLineAddr vAddr
  let idx := vLineAddr &&& G.setMask
  if vLineAddr = (c.filterArray idx).rdAddr then some c else replace G P vLineAddr idx true c

def store (P : Parent σ) (vAddr : Address) (c : FilterCache σ) : Option (FilterCache σ) :=
  let vLineAddr := G.vLineAddr vAddr
  let idx := vLineAddr &&& G.setMask
  if vLineAddr = (c.filterArray idx).wrAddr then some c else replace G P vLineAddr idx false c

/-- An operation on the cache. After an invalidate from above the parent goes on from
the writeback it got. -/
inductive Op (σ : Type)
  | load (vAddr : Address)
  | store (vAddr : Address)
  | invalidate (lineAddr : Address) (type : InvType) (after : Bool → σ → σ)
  | contextSwitch

def afterInvalidate (after : Bool → σ → σ) (r : FilterCache σ × Bool) : FilterCache σ :=
  { r.1 with parent := after r.2 r.1.parent }

def step (P : Parent σ) : Op σ → FilterCache σ → Option (FilterCache σ)
  | .load vAddr, c => load G P vAddr c
  | .store vAddr, c => store G P vAddr c
  | .invalidate lineAddr type after, c =>
    (invalidate G lineAddr type c).map (afterInvalidate after)
  | .contextSwitch, c => some c.contextSwitch

def plainStep (P : Parent σ) : Op σ → FilterCache σ → Option (FilterCache σ)
  | .load vAddr, c => access G (cacheMethods G) P (G.pLineAddr (G.vLineAddr vAddr)) .GETS c
  | .store vAddr, c => access G (cacheMethods G) P (G.pLineAddr (G.vLineAddr vAddr)) .GETX c
  | .invalidate lineAddr type after, c =>
    (finishInvalidate G lineAddr type c).map (afterInvalidate after)
  | .contextSwitch, c => some c

end FilterCache

end ZSim
