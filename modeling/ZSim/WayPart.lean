import Mathlib.Algebra.Order.Ring.Nat
import ZSim.Lookahead
import ZSim.MemoryHierarchy
import ZSim.PartInfo

/-! The way-partitioning replacement policy. -/

namespace ZSim

/-- A bank has a 32-bit number of bytes, so that line ids fit into `int32_t`. -/
structure WayPartConfig where
  partitions : Nat
  totalSize : Nat
  ways : Nat
  testMode : Bool
  partitions_pos : 0 < partitions
  totalSize_lt : totalSize < 2 ^ 31
  ways_dvd : totalSize / ways * ways = totalSize

structure WayPartInfo where
  addr : Address
  ts : Nat
  p : Nat

/-- `bestId` is `none` for -1, `incomingLinePart` before the first replacement. -/
structure WayPartReplPolicy where
  partInfo : Nat → PartInfo
  array : Nat → WayPartInfo
  wayPartIndex : List Nat
  bestId : Option Nat
  candIdx : Nat
  incomingLinePart : Option Nat
  incomingLineAddr : Address
  timestamp : Nat

namespace WayPartReplPolicy

variable (G : WayPartConfig)

def waySize : Nat := G.totalSize / G.ways

def init : WayPartReplPolicy :=
  let wayPartIndex := (List.range G.ways).map fun w => w * G.partitions % 2 ^ 32 / G.ways
  { partInfo := fun p =>
      ⟨if p = 0 then G.totalSize else 0, wayPartIndex.count p * waySize G⟩
    array := fun _ => ⟨0, 0, 0⟩
    wayPartIndex := wayPartIndex
    bestId := none
    candIdx := 0
    incomingLinePart := none
    incomingLineAddr := 0
    timestamp := 1 }

def update (s : WayPartReplPolicy) (id : Nat) : Option WayPartReplPolicy :=
  let e := s.array id
  let timestamp := (s.timestamp + 1) % 2 ^ 64
  if 0 < e.ts then
    some { s with
      array := Function.update s.array id { e with ts := s.timestamp }
      timestamp := timestamp }
  else
    s.incomingLinePart.bind fun newPart =>
      (PartInfo.resize s.partInfo e.p newPart).map fun partInfo => { s with
        partInfo := partInfo
        array := Function.update s.array id { e with ts := s.timestamp, p := newPart }
        timestamp := timestamp }

def startReplacement (s : WayPartReplPolicy) (part : Nat) (lineAddr : Address) :
    Option WayPartReplPolicy :=
  if s.candIdx = 0 ∧ s.bestId = none then
    some { s with incomingLinePart := some part, incomingLineAddr := lineAddr }
  else none

/-- Whether the candidate `c` takes the place of `best`. -/
def wins (s : WayPartReplPolicy) (c best : Nat) : Bool :=
  let own := fun id => s.incomingLinePart = some (s.array id).p
  if G.testMode = true ∨ own c ∧ own best then decide ((s.array c).ts < (s.array best).ts)
  else if own c ∧ ¬ own best then false
  else if ¬ own c ∧ own best then true
  else decide ((s.array c).ts < (s.array best).ts)

def recordCandidate (s : WayPartReplPolicy) (id : Nat) : Option WayPartReplPolicy :=
  if s.candIdx < G.ways then
    let way := s.candIdx
    let s := { s with candIdx := s.candIdx + 1 }
    some (if G.testMode = true ∨ s.wayPartIndex[way]? = s.incomingLinePart then
      match s.bestId with
      | none => { s with bestId := some id }
      | some best => if wins G s id best then { s with bestId := some id } else s
    else s)
  else none

def recordAll : List Nat → WayPartReplPolicy → Option WayPartReplPolicy
  | [], s => some s
  | id :: cands, s => (recordCandidate G s id).bind (recordAll cands)

/-- `rank`, of a request of partition `part`; `assert(bestId >= 0)`. -/
def rank (s : WayPartReplPolicy) (part : Nat) (lineAddr : Address) (cands : List Nat) :
    Option (Nat × WayPartReplPolicy) :=
  (s.startReplacement part lineAddr).bind fun s =>
    (recordAll G cands s).bind fun s => s.bestId.map fun bestId => (bestId, s)

def replaced (s : WayPartReplPolicy) (id : Nat) : WayPartReplPolicy :=
  { s with
    candIdx := 0
    bestId := none
    array := Function.update s.array id { s.array id with ts := 0, addr := s.incomingLineAddr } }

/-- `setPartitionSizes` of the policy's own fields. -/
def repartition (s : WayPartReplPolicy) (waysPart : List Nat) : Option WayPartReplPolicy :=
  (setPartitionSizes G.partitions G.ways G.totalSize s.wayPartIndex waysPart).map fun r =>
    { s with
      wayPartIndex := r.1
      partInfo := fun p => { s.partInfo p with targetSize := r.2.getD p (s.partInfo p).targetSize } }

inductive Op where
  | update (id : Nat)
  | rank (part : Nat) (lineAddr : Address) (cands : List Nat)
  | replaced (id : Nat)
  | setPartitionSizes (waysPart : List Nat)

def step (s : WayPartReplPolicy) : Op → Option WayPartReplPolicy
  | .update id => s.update id
  | .rank part lineAddr cands => (s.rank G part lineAddr cands).map Prod.snd
  | .replaced id => some (s.replaced id)
  | .setPartitionSizes waysPart => s.repartition G waysPart

/-- A line without a timestamp is updated when it was replaced, so after some `rank`; a `rank`
is followed by `replaced` before the next one, and looks at a line of each way. -/
def Allowed (s : WayPartReplPolicy) : Op → Prop
  | .update id => id < G.totalSize ∧ ((s.array id).ts = 0 → s.incomingLinePart ≠ none)
  | .rank part _ cands => part < G.partitions ∧ cands.length = G.ways ∧
      (∀ id ∈ cands, id < G.totalSize) ∧ s.candIdx = 0
  | .replaced id => id < G.totalSize
  | .setPartitionSizes waysPart => waysPart.length = G.partitions ∧ waysPart.sum = G.ways ∧
      ∀ n ∈ waysPart, 0 < n

inductive Reachable : WayPartReplPolicy → Prop
  | init : Reachable (init G)
  | step {s s' : WayPartReplPolicy} {op : Op} (h : Reachable s) (hop : Allowed G s op)
      (hs : s.step G op = some s') : Reachable s'

/-- The candidates in the ways of `part`. -/
def owned (s : WayPartReplPolicy) (part : Nat) (cands : List Nat) : List Nat :=
  ((cands.zip s.wayPartIndex).filter fun x => x.2 = part).map Prod.fst

/-- `b` is a line of another partition if there is one, and the oldest of its kind. -/
structure Preferred (s : WayPartReplPolicy) (part : Nat) (ids : List Nat) (b : Nat) : Prop where
  mem : b ∈ ids
  other : (∃ c ∈ ids, (s.array c).p ≠ part) → (s.array b).p ≠ part
  oldest : ∀ c ∈ ids, ((s.array c).p = part ↔ (s.array b).p = part) →
    (s.array b).ts ≤ (s.array c).ts

end WayPartReplPolicy

end ZSim
