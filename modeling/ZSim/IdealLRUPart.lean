import Mathlib.Data.Rat.Floor
import Mathlib.Algebra.Order.Ring.Nat
import ZSim.InListSpec
import ZSim.LRUStack
import ZSim.PartInfo

/-! The ideal partitioned LRU policy: a list of lines for each partition. -/

namespace ZSim

/-- Division of doubles is exact division followed by rounding. -/
structure DoubleRounding where
  round : ℚ → ℚ
  monotone : Monotone round
  round_neg_one : round (-1) = -1

structure IdealPartConfig where
  partitions : Nat
  numLines : Nat
  numBuckets : Nat
  partitions_pos : 0 < partitions
  numLines_lt : numLines < 2 ^ 31

structure IdealPartEntry where
  p : Nat
  used : Bool

/-- The list of a partition has its number. -/
structure IdealLRUPartReplPolicy where
  array : Nat → IdealPartEntry
  partInfo : Nat → PartInfo
  lruList : InLists Nat Nat

namespace IdealLRUPartReplPolicy

variable (G : IdealPartConfig) (R : DoubleRounding)

/-- The entries of `partInfo` that the constructor's loop writes, one more than it allocates. -/
def constructed : List Nat := List.range (G.partitions + 1)

theorem constructed_past : ¬ ∀ p ∈ constructed G, p < G.partitions :=
  fun h => Nat.lt_irrefl _ (h G.partitions (List.mem_range.mpr (Nat.lt_succ_self _)))

/-- The constructor's loop over the lines, all in partition 0. -/
def pushAll : List Nat → InLists Nat Nat → Option (InLists Nat Nat)
  | [], lruList => some lruList
  | i :: is, lruList => (lruList.push_front 0 i).bind (pushAll is)

def init : Option IdealLRUPartReplPolicy :=
  (pushAll (List.range G.numLines) .init).map fun lruList => {
    array := fun _ => ⟨0, true⟩
    partInfo := fun p => ⟨if p = 0 then G.numLines else 0, G.numLines / G.partitions⟩
    lruList := lruList }

/-- `setPartitionSizes` divides by the number of buckets. -/
def setPartitionSizes (s : IdealLRUPartReplPolicy) (sizes : Nat → Nat) :
    Option IdealLRUPartReplPolicy :=
  if G.numBuckets = 0 then none
  else some { s with
    partInfo := fun p =>
      if p < G.partitions then
        { s.partInfo p with targetSize := sizes p * G.numLines % 2 ^ 32 / G.numBuckets }
      else s.partInfo p }

/-- `part` is the partition of the request. -/
def update (s : IdealLRUPartReplPolicy) (id part : Nat) : Option IdealLRUPartReplPolicy :=
  let e := s.array id
  if e.used then
    (s.lruList.remove e.p id).bind fun lruList =>
      (lruList.push_front e.p id).map fun lruList => { s with lruList := lruList }
  else
    (PartInfo.resize s.partInfo e.p part).bind fun partInfo =>
      (s.lruList.remove e.p id).bind fun lruList =>
        (lruList.push_front part id).map fun lruList =>
          ⟨Function.update s.array id ⟨part, true⟩, partInfo, lruList⟩

def replaced (s : IdealLRUPartReplPolicy) (id : Nat) : IdealLRUPartReplPolicy :=
  { s with array := Function.update s.array id { s.array id with used := false } }

/-- The difference of size and target, in `int32_t`, over the target plus one. -/
def diff (i : PartInfo) : ℚ :=
  R.round ((((i.size : Int) - i.targetSize).bmod (2 ^ 32) : Int) / ((i.targetSize : ℚ) + 1))

/-- The loop of `rank`: `victimPart` and `maxPartDiff`. -/
def rankFrom (s : IdealLRUPartReplPolicy) : List Nat → Nat × ℚ → Nat × ℚ
  | [], best => best
  | p :: ps, best =>
    rankFrom s ps
      (if best.2 < diff R (s.partInfo p) ∧ 0 < (s.partInfo p).size then
        (p, diff R (s.partInfo p)) else best)

def rank (s : IdealLRUPartReplPolicy) (part : Nat) : Option Nat :=
  let victimPart := (rankFrom R s (List.range G.partitions)
    (part, if (s.partInfo part).size = 0 then -2 else 0)).1
  if 0 < (s.partInfo victimPart).size ∧
      (s.partInfo victimPart).size = s.lruList.size victimPart then s.lruList.back victimPart
  else none

inductive Op where
  | update (id part : Nat)
  | replaced (id : Nat)
  | setPartitionSizes (sizes : Nat → Nat)

def Allowed : Op → Prop
  | .update id part => id < G.numLines ∧ part < G.partitions
  | .replaced id => id < G.numLines
  | .setPartitionSizes _ => G.numBuckets ≠ 0

def step (s : IdealLRUPartReplPolicy) : Op → Option IdealLRUPartReplPolicy
  | .update id part => s.update id part
  | .replaced id => some (s.replaced id)
  | .setPartitionSizes sizes => s.setPartitionSizes G sizes

def updated : Op → List Nat
  | .update id _ => [id]
  | _ => []

def run : List Op → IdealLRUPartReplPolicy → Option IdealLRUPartReplPolicy
  | [], s => some s
  | op :: ops, s => (s.step G op).bind (run ops)

/-- The states, with all updates so far, the latest first; `rank` changes nothing. -/
inductive Reachable : IdealLRUPartReplPolicy → List Nat → Prop
  | init {s : IdealLRUPartReplPolicy} (h : init G = some s) :
      Reachable s (List.range G.numLines).reverse
  | step {s s' : IdealLRUPartReplPolicy} {updates : List Nat} {op : Op}
      (h : Reachable s updates) (hop : Allowed G op) (hs : s.step G op = some s') :
      Reachable s' (updated op ++ updates)

end IdealLRUPartReplPolicy

end ZSim
