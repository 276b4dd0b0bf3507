import ZSim.CoherenceCtrls
import ZSim.InListSpec
import ZSim.LRUStack

/-! The fully associative array with LRU replacement, and the LRU cache that it is. -/

namespace ZSim

/-- Line ids index `array`; `lineAddr` is a field of its entries. -/
structure IdealLRUArray where
  lineAddr : Nat → Address
  lruList : InLists Nat Unit
  lineMap : Address → Option Nat

namespace IdealLRUArray

variable (numLines : Nat)

/-- The constructor's loop, over the line ids. -/
def pushAll : List Nat → InLists Nat Unit → Option (InLists Nat Unit)
  | [], lruList => some lruList
  | i :: is, lruList => (lruList.push_front () i).bind (pushAll is)

def init : Option IdealLRUArray :=
  (pushAll (List.range numLines) .init).map fun lruList =>
    ⟨fun _ => 0, lruList, fun _ => none⟩

/-- `remove` and `push_front` of a line. -/
def updateRepl (s : IdealLRUArray) (lineId : Nat) : Option IdealLRUArray :=
  (s.lruList.remove () lineId).bind fun lruList =>
    (lruList.push_front () lineId).map fun lruList => { s with lruList := lruList }

/-- A miss gives `none` for `-1`. -/
def lookup (s : IdealLRUArray) (lineAddr : Address) (updateReplacement : Bool) :
    Option (Option Nat × IdealLRUArray) :=
  match s.lineMap lineAddr with
  | none => some (none, s)
  | some lineId =>
    if updateReplacement then (s.updateRepl lineId).map fun s => (some lineId, s)
    else some (some lineId, s)

/-- The line to replace and `*wbLineAddr`. Without lines `back` is null. -/
def preinsert (s : IdealLRUArray) : Option (Nat × Address) :=
  (s.lruList.back ()).map fun lineId => (lineId, s.lineAddr lineId)

def postinsert (s : IdealLRUArray) (lineAddr : Address) (lineId : Nat) : Option IdealLRUArray :=
  let lineMap := Function.update s.lineMap (s.lineAddr lineId) none
  if lineId < numLines ∧ lineMap lineAddr = none then
    { s with
      lineAddr := Function.update s.lineAddr lineId lineAddr
      lineMap := Function.update lineMap lineAddr (some lineId) }.updateRepl lineId
  else none

inductive Op where
  | lookup (lineAddr : Address) (updateReplacement : Bool)
  | preinsert (lineAddr : Address)
  | postinsert

/-- What it learns: whether it hits, and the address to write back. -/
inductive Out where
  | hit (h : Bool)
  | victim (wbLineAddr : Address)
  | done
deriving DecidableEq

/-- The array, and the address that is being inserted with the line it replaces. -/
structure Sys where
  array : IdealLRUArray
  pending : Option (Address × Nat)

def step (s : Sys) : Op → Option (Out × Sys)
  | .lookup lineAddr updateReplacement =>
    (s.array.lookup lineAddr updateReplacement).map fun r =>
      (.hit r.1.isSome, { s with array := r.2 })
  | .preinsert lineAddr =>
    s.array.preinsert.map fun r => (.victim r.2, { s with pending := some (lineAddr, r.1) })
  | .postinsert =>
    s.pending.bind fun p =>
      (s.array.postinsert numLines p.1 p.2).map fun array => (.done, ⟨array, none⟩)

def updated (s : Sys) : Op → List Nat
  | .lookup lineAddr true => (s.array.lineMap lineAddr).toList
  | .lookup _ false => []
  | .preinsert _ => []
  | .postinsert => (s.pending.map Prod.snd).toList

/-- Line addresses are nonzero, and an address is inserted after it missed. -/
def Allowed (s : Sys) : Op → Prop
  | .lookup lineAddr _ => lineAddr ≠ 0
  | .preinsert lineAddr => lineAddr ≠ 0 ∧ s.array.lineMap lineAddr = none ∧ s.pending = none
  | .postinsert => s.pending ≠ none

end IdealLRUArray

/-- A fully associative LRU cache: what it holds, the most recent address first, and the
insertion under way with the address that it replaces, 0 for a free line. -/
structure LRUCache where
  recent : List Address
  pending : Option (Address × Address)

namespace LRUCache

open IdealLRUArray LRUStack

variable (numLines : Nat)

def empty : LRUCache := ⟨[], none⟩

def victim (c : LRUCache) : Address :=
  if c.recent.length < numLines then 0 else c.recent.getLast?.getD 0

def step (c : LRUCache) : Op → Out × LRUCache
  | .lookup a updateReplacement =>
    (.hit (decide (a ∈ c.recent)),
      if updateReplacement ∧ a ∈ c.recent then { c with recent := use a c.recent } else c)
  | .preinsert a =>
    (.victim (c.victim numLines), { c with pending := some (a, c.victim numLines) })
  | .postinsert =>
    (.done, match c.pending with
      | some (a, v) => ⟨a :: c.recent.erase v, none⟩
      | none => c)

end LRUCache

namespace IdealLRUArray

variable (numLines : Nat)

/-- The states of the array with those of the LRU cache and all updates so far, the latest
first. The constructor pushes every line once. -/
inductive Reachable : Sys → LRUCache → List Nat → Prop
  | init {array : IdealLRUArray} (h : init numLines = some array) :
      Reachable ⟨array, none⟩ .empty (List.range numLines).reverse
  | step {s s' : Sys} {c : LRUCache} {updates : List Nat} {op : Op} {out : Out}
      (h : Reachable s c updates) (hop : Allowed s op)
      (hs : step numLines s op = some (out, s')) :
      Reachable s' (c.step numLines op).2 (updated s op ++ updates)

end IdealLRUArray

end ZSim
