import ZSim.LRUStack
import ZSim.LinkedList
import ZSim.MemoryHierarchy
import Mathlib.Data.Nat.Log

/-! Utility monitors. The nodes of a set are numbered by their place in `array[set]`;
the counters are 64-bit words that do not wrap. A failed assert, a null dereference or a
write outside an array is `none`. -/

namespace ZSim

structure UMonConfig where
  bankLines : Nat
  umonLines : Nat
  buckets : Nat
  buckets_pos : 0 < buckets
  sets_pos : buckets ≤ umonLines

namespace UMonConfig

variable (cfg : UMonConfig)

def samplingFactor : Nat := cfg.bankLines / cfg.umonLines

def sets : Nat := cfg.umonLines / cfg.buckets

/-- The loops `while (tmp >>= 1)` of the constructor. -/
def samplingFactorBits : Nat := Nat.log2 cfg.samplingFactor

def setsBits : Nat := Nat.log2 cfg.sets

end UMonConfig

/-- The fields of `UMon` that change, `heads`, `addr` and `next` by set. -/
structure UMon where
  heads : Nat → Option Nat
  addr : Nat → Nat → Address
  next : Nat → Nat → Option Nat
  curWayHits : Nat → Nat
  curMisses : Nat

namespace UMon

variable (cfg : UMonConfig) (hash : Nat → Address → Nat)

/-- The constructor: zeroed nodes, each linked to the one behind it. -/
def init : UMon where
  heads := fun _ => some 0
  addr := fun _ _ => 0
  next := fun _ j => if j + 1 < cfg.buckets then some (j + 1) else none
  curWayHits := fun _ => 0
  curMisses := 0

def sampled (lineAddr : Address) : Bool :=
  hash 0 lineAddr % 2 ^ cfg.samplingFactorBits == 0

def set (lineAddr : Address) : Nat := hash 1 lineAddr % 2 ^ cfg.setsBits

/-- The loop of `access` from turn `b`, with `turns` to go: what `prev` and `cur` are at
its end, and the position of the hit if there was one. -/
def scan (addr : Nat → Address) (next : Nat → Option Nat) (lineAddr : Address) :
    Nat → Nat → Option Nat → Option Nat → Option (Option Nat × Nat × Option Nat)
  | _, _, _, none => none
  | 0, _, prev, some cur => some (prev, cur, none)
  | turns + 1, b, prev, some cur =>
    if addr cur = lineAddr then some (prev, cur, some b)
    else if b < cfg.buckets - 1 then scan addr next lineAddr turns (b + 1) (some cur) (next cur)
    else scan addr next lineAddr turns (b + 1) prev (some cur)

/-- Moves `cur` to the MRU position of its set. -/
def moveToFront (u : UMon) (set : Nat) (prev : Option Nat) (cur : Nat) : UMon :=
  match prev with
  | none => u
  | some p =>
    let next := Function.update (Function.update (u.next set) p (u.next set cur)) cur (u.heads set)
    { u with
      next := Function.update u.next set next
      heads := Function.update u.heads set (some cur) }

def access (u : UMon) (lineAddr : Address) : Option UMon :=
  if sampled cfg hash lineAddr then
    let set := set cfg hash lineAddr
    match scan cfg (u.addr set) (u.next set) lineAddr cfg.buckets 0 none (u.heads set) with
    | none => none
    | some (prev, cur, some b) =>
      some (moveToFront { u with
        curWayHits := Function.update u.curWayHits b (u.curWayHits b + 1) } set prev cur)
    | some (prev, cur, none) =>
      if u.next set cur = none then
        some (moveToFront { u with
          curMisses := u.curMisses + 1
          addr := Function.update u.addr set (Function.update (u.addr set) cur lineAddr) }
          set prev cur)
      else none
  else some u

def startNextInterval (u : UMon) : UMon := { u with curMisses := 0, curWayHits := fun _ => 0 }

/-- `array[i] = v`. -/
def store (array : List Nat) (i v : Nat) : Option (List Nat) :=
  if i < array.length then some (array.set i v) else none

/-- The loop of `getMisses` with `k` turns to go, and the write after it. -/
def getMissesFrom (u : UMon) : Nat → Nat → List Nat → Option (List Nat)
  | 0, total, misses => store misses 0 total
  | k + 1, total, misses =>
    (store misses (k + 1) total).bind (getMissesFrom u k (total + u.curWayHits k))

def getMisses (u : UMon) (misses : List Nat) : Option (List Nat) :=
  getMissesFrom u cfg.buckets u.curMisses misses

def getNumAccesses (u : UMon) : Nat :=
  u.curMisses + ((List.range cfg.buckets).map u.curWayHits).sum

end UMon

end ZSim
