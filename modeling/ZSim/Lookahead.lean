import Mathlib.Algebra.BigOperators.Group.List.Basic
import Mathlib.Tactic

/-! The lookahead partitioner. 32-bit arithmetic wraps; a failed assert, an access
outside an array, or a bucket above `buckets` asked of the monitor is `none`. -/

namespace ZSim

/-- The arithmetic on doubles: `quotient a i` is `((double)a)/((double)i)`, which is above
`-1.0`, and `scaled x n` is `x*n` as a `uint32_t`. -/
structure Doubles (F : Type) [LinearOrder F] where
  minusOne : F
  quotient : Nat → Nat → F
  scaled : F → Nat → Nat
  minusOne_lt : ∀ a i, 0 < i → minusOne < quotient a i
  scaled_lt : ∀ x n, scaled x n < 2 ^ 32

structure LookaheadConfig (F : Type) where
  numPartitions : Nat
  buckets : Nat
  minAlloc : Nat
  allocPortion : F
  forbidden : Nat → Bool
  buckets_pos : 0 < buckets
  buckets_lt : buckets < 2 ^ 32

namespace Lookahead

variable {F : Type} [LinearOrder F] (fp : Doubles F) (buckets : Nat) (curves : Nat → Nat → Nat)

/-- `monitor.get`, on the curves the monitor has for its partitions. -/
def get (part bucket : Nat) : Option Nat :=
  if bucket ≤ buckets then some (curves part bucket) else none

/-- The loop of `getMaxMarginalUtility`, over its values of `i`. -/
def getMaxMarginalUtilityFrom (part partAlloc : Nat) : List Nat → F × Nat → Option (F × Nat)
  | [], best => some best
  | i :: is, best =>
    (get buckets curves part partAlloc).bind fun misses =>
      (get buckets curves part ((partAlloc + i) % 2 ^ 32)).bind fun misses' =>
        let mu := fp.quotient ((misses + 2 ^ 32 - misses') % 2 ^ 32) i
        getMaxMarginalUtilityFrom part partAlloc is (if best.1 < mu then (mu, i) else best)

def getMaxMarginalUtility (part partAlloc balance : Nat) : Option (F × Nat) :=
  getMaxMarginalUtilityFrom fp buckets curves part partAlloc
    ((List.range balance).map (· + 1)) (fp.minusOne, 0)

/-- The loop over the partitions: the best one so far, if any, with its `mu` and `alloc`. -/
def maxPartFrom (forbidden : Nat → Bool) (allocs : List Nat) (balance : Nat) :
    List Nat → F × Option Nat × Nat → Option (F × Option Nat × Nat)
  | [], best => some best
  | part :: parts, best =>
    if forbidden part then maxPartFrom forbidden allocs balance parts best
    else
      (allocs[part]?).bind fun partAlloc =>
        (getMaxMarginalUtility fp buckets curves part partAlloc balance).bind fun mu =>
          maxPartFrom forbidden allocs balance parts
            (if best.1 < mu.1 then (mu.1, some part, mu.2) else best)

/-- The loop `while (balance > 0)`; the first argument bounds its turns. -/
def allocateFrom (forbidden : Nat → Bool) : Nat → Nat → List Nat → Option (List Nat)
  | _, 0, allocs => some allocs
  | 0, _ + 1, _ => none
  | k + 1, balance + 1, allocs =>
    (maxPartFrom fp buckets curves forbidden allocs (balance + 1) (List.range allocs.length)
        (fp.minusOne, none, 0)).bind fun best =>
      best.2.1.bind fun part =>
        (allocs[part]?).bind fun alloc =>
          allocateFrom forbidden k ((balance + 1 + 2 ^ 32 - best.2.2) % 2 ^ 32)
            (allocs.set part ((alloc + best.2.2) % 2 ^ 32))

def computeBestPartitioning (forbidden : Nat → Bool) (numPartitions total minAlloc : Nat) :
    Option (List Nat) :=
  let balance := (total + 2 ^ 32 - minAlloc) % 2 ^ 32
  allocateFrom fp buckets curves forbidden balance balance
    (List.replicate numPartitions minAlloc)

def computePartitioningTotalUtility (parts : List Nat) : List Nat → Nat → Nat → Option Nat
  | [], noCacheMisses, curPartMisses => some ((noCacheMisses + 2 ^ 64 - curPartMisses) % 2 ^ 64)
  | p :: ps, noCacheMisses, curPartMisses =>
    (get buckets curves p 0).bind fun misses =>
      (parts[p]?).bind fun alloc =>
        (get buckets curves p alloc).bind fun misses' =>
          computePartitioningTotalUtility parts ps ((noCacheMisses + misses) % 2 ^ 64)
            ((curPartMisses + misses') % 2 ^ 64)

end Lookahead

namespace LookaheadPartitioner

open Lookahead

variable {F : Type} [LinearOrder F] (fp : Doubles F) (cfg : LookaheadConfig F)

/-- The allocation the partitioner is constructed with, of `buckets + 1` cells. -/
def init : List Nat := List.replicate ((cfg.buckets + 1) % 2 ^ 32) 0

/-- `partition`, from the allocations `curAllocs`. It always switches. -/
def partition (curves : Nat → Nat → Nat) (curAllocs : List Nat) : Option (List Nat) :=
  (computeBestPartitioning fp cfg.buckets curves cfg.forbidden cfg.numPartitions
      (fp.scaled cfg.allocPortion cfg.buckets)
      (cfg.minAlloc * cfg.numPartitions % 2 ^ 32)).bind fun bestAllocs =>
    (computePartitioningTotalUtility cfg.buckets curves bestAllocs
        (List.range cfg.numPartitions) 0 0).bind fun _ =>
      (computePartitioningTotalUtility cfg.buckets curves curAllocs
          (List.range cfg.numPartitions) 0 0).bind fun _ =>
        if cfg.numPartitions ≤ curAllocs.length then
          some (bestAllocs ++ curAllocs.drop cfg.numPartitions)
        else none

/-- Calls of `partition` one after the other, with what each leaves in `curAllocs`. -/
def partitions : List (Nat → Nat → Nat) → List Nat → Option (List (List Nat))
  | [], _ => some []
  | curves :: rest, curAllocs =>
    (partition fp cfg curves curAllocs).bind fun allocs =>
      (partitions rest allocs).map (allocs :: ·)

end LookaheadPartitioner

namespace WayPartReplPolicy

/-- `wayPartIndex[curWay++] = p`, `n` times. -/
def assignWays (p : Nat) : Nat → List Nat × Nat → Option (List Nat × Nat)
  | 0, s => some s
  | n + 1, (wayPartIndex, curWay) =>
    if curWay < wayPartIndex.length then
      assignWays p n (wayPartIndex.set curWay p, curWay + 1)
    else none

def assignFrom (waysPart : List Nat) : List Nat → List Nat × Nat → Option (List Nat × Nat)
  | [], s => some s
  | p :: ps, s =>
    (waysPart[p]?).bind fun n => (assignWays p n s).bind (assignFrom waysPart ps)

/-- `setPartitionSizes`: the partition of each way, and the target size of each
partition. -/
def setPartitionSizes (partitions ways totalSize : Nat) (wayPartIndex waysPart : List Nat) :
    Option (List Nat × List Nat) :=
  (assignFrom waysPart (List.range partitions) (wayPartIndex, 0)).bind fun s =>
    if s.2 = ways then
      some (s.1, (waysPart.take partitions).map fun n => totalSize * n % 2 ^ 32 / ways)
    else none

end WayPartReplPolicy

end ZSim
