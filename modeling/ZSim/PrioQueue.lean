import ZSim.LinkedList
import Mathlib.Data.Multiset.Filter
import Mathlib.Data.BitVec

/-! The priority queue of the weave phase: a window of `B` blocks of 64 cycles that
starts at the current block, each slot a linked list, and a far map for the rest. A
failed assert and a null dereference are `none`; `uint64_t` arithmetic wraps. -/

namespace ZSim

/-- `__builtin_ctzl`, which the code calls on a nonzero word only. -/
def ctz (occ : BitVec 64) : Nat :=
  ((List.range 64).find? fun i => occ.getLsbD i).getD 64

/-- Bit `i` of `occ` is one if `array i` is populated. -/
structure PQBlock (T : Type) where
  array : Nat → Option T
  occ : BitVec 64

namespace PQBlock

variable {T : Type} [DecidableEq T]

def init : PQBlock T := ⟨fun _ => none, 0#64⟩

/-- The object, its offset, the block and the links after it. -/
def dequeue (b : PQBlock T) (next : T → Option T) :
    Option (T × Nat × PQBlock T × (T → Option T)) :=
  if b.occ = 0#64 then none
  else
    let pos := ctz b.occ
    match b.array pos with
    | none => none
    | some res =>
      some (res, pos,
        { array := Function.update b.array pos (next res)
          occ := if (next res).isNone then b.occ ^^^ (1#64 <<< pos) else b.occ },
        Function.update next res none)

def enqueue (b : PQBlock T) (next : T → Option T) (obj : T) (pos : Nat) :
    Option (PQBlock T × (T → Option T)) :=
  if next obj = none then
    some (⟨Function.update b.array pos (some obj), b.occ ||| (1#64 <<< pos)⟩,
      Function.update next obj (b.array pos))
  else none

end PQBlock

/-- `next` is the link field of the objects. `elems` counts objects of a 64-bit address
space, so it does not wrap. -/
structure PrioQueue (T : Type) where
  blocks : Nat → PQBlock T
  feMap : List (Nat × T)
  curBlock : Nat
  elems : Nat
  next : T → Option T

namespace PrioQueue

variable {T : Type} [DecidableEq T] (B : Nat)

def init : PrioQueue T := ⟨fun _ => .init, [], 0, 0, fun _ => none⟩

/-- A multimap keeps equal keys in insertion order. -/
def feInsert (x : Nat × T) : List (Nat × T) → List (Nat × T)
  | [] => [x]
  | y :: ys => if x.1 < y.1 then x :: y :: ys else y :: feInsert x ys

/-- Put `obj` into the slot of `cycle` in the window. -/
def place (q : PrioQueue T) (obj : T) (cycle : Nat) : Option (PrioQueue T) :=
  let i := cycle / 64 % B
  ((q.blocks i).enqueue q.next obj (cycle % 64)).map fun (b, next) =>
    { q with blocks := Function.update q.blocks i b, next := next }

def enqueue (q : PrioQueue T) (obj : T) (cycle : Nat) : Option (PrioQueue T) :=
  let absBlock := cycle / 64
  if absBlock < q.curBlock then none
  else if absBlock < (q.curBlock + B) % 2 ^ 64 then
    (place B q obj cycle).map fun q => { q with elems := q.elems + 1 }
  else some { q with feMap := feInsert (cycle, obj) q.feMap, elems := q.elems + 1 }

/-- Move the far elements below `topCycle` to their blocks. -/
def pullIn (topCycle : Nat) : List (Nat × T) → PrioQueue T → Option (PrioQueue T)
  | [], q => some { q with feMap := [] }
  | (cycle, obj) :: rest, q =>
    if cycle < topCycle then
      let absBlock := cycle / 64
      if q.curBlock ≤ absBlock ∧ absBlock < (q.curBlock + B) % 2 ^ 64 then
        (place B q obj cycle).bind (pullIn topCycle rest)
      else none
    else some { q with feMap := (cycle, obj) :: rest }

def topCycle (q : PrioQueue T) : Nat := (q.curBlock + B) % 2 ^ 64 * 64 % 2 ^ 64

/-- One turn of the search for a populated block. -/
def turn (q : PrioQueue T) : Option (PrioQueue T) :=
  let q := { q with curBlock := (q.curBlock + 1) % 2 ^ 64 }
  if q.curBlock % (B / 2) = 0 ∧ q.feMap ≠ [] then pullIn B (topCycle B q) q.feMap q
  else some q

def occAt (q : PrioQueue T) (n : Nat) : BitVec 64 := (q.blocks (n % B)).occ

/-- The search; the first argument bounds its turns. -/
def search : Nat → PrioQueue T → Option (PrioQueue T)
  | 0, _ => none
  | k + 1, q => if occAt B q q.curBlock = 0#64 then (turn B q).bind (search k) else some q

/-- Take the first object of the current block. -/
def take (q : PrioQueue T) : Option (T × Nat × PrioQueue T) :=
  let i := q.curBlock % B
  ((q.blocks i).dequeue q.next).map fun (obj, offset, b, next) =>
    (obj, (q.curBlock * 64 + offset) % 2 ^ 64,
      { q with blocks := Function.update q.blocks i b, next := next, elems := q.elems - 1 })

def dequeue (k : Nat) (q : PrioQueue T) : Option (T × Nat × PrioQueue T) :=
  if q.elems = 0 then none else (search B k q).bind (take B)

def size (q : PrioQueue T) : Nat := q.elems

/-- The first cycle of the `i`-th block of the window. -/
def cycleAt (q : PrioQueue T) (i : Nat) : Nat :=
  ((q.curBlock + i) * 64 + ctz (occAt B q (q.curBlock + i))) % 2 ^ 64

def firstCycle (q : PrioQueue T) : Option Nat :=
  if q.elems = 0 then none
  else
    match (List.range (B / 2)).find? fun i => occAt B q (q.curBlock + i) != 0#64 with
    | some i => some (cycleAt B q i)
    | none =>
      -- beyond B/2 blocks, there may be a far element that comes earlier
      match (List.range' (B / 2) (B - B / 2)).find? fun i =>
          occAt B q (q.curBlock + i) != 0#64 with
      | some i =>
        match q.feMap with
        | [] => some (cycleAt B q i)
        | f :: _ => some (min (cycleAt B q i) f.1)
      | none => q.feMap.head?.map (·.1)

end PrioQueue

end ZSim
