import ZSim.MemoryHierarchy

/-! The zcache array. A line id is found at the physical position the lookup array
gives it; an insertion walks a graph of positions and relocates lines along a path.
The candidates of a walk are the first `numCandidates` entries of the array on the
stack, and a write past the end of either scratch array is `none`. -/

namespace ZSim

/-- What the constructor of `ZArray` asserts about its arguments. -/
structure ZConfig where
  ways : Nat
  cands : Nat
  numSets : Nat
  hash : Nat → Address → Nat
  one_lt_ways : 1 < ways
  ways_le_cands : ways ≤ cands
  isPow2 : ∃ k, numSets = 2 ^ k

structure ZWalkInfo where
  pos : Nat
  lineId : Nat
  parentIdx : Option Nat

/-- `array` maps line ids to addresses, zero for none, and `lookupArray` positions to
line ids. -/
structure ZArray where
  array : Nat → Address
  lookupArray : Nat → Nat
  swapArray : List Nat
  lastCandIdx : Nat

namespace ZArray

variable (Z : ZConfig)

def numLines : Nat := Z.ways * Z.numSets

def setMask : Nat := Z.numSets - 1

/-- The position of `lineAddr` in way `w`. -/
def slot (w : Nat) (lineAddr : Address) : Nat :=
  w * Z.numSets + (Z.hash w lineAddr &&& setMask Z)

def init : ZArray := ⟨fun _ => 0, id, [], 0⟩

-- `lineAddr` is not zero: the source panics on it at once
def lookup (z : ZArray) (lineAddr : Address) : Option Nat :=
  ((List.range Z.ways).map fun w => z.lookupArray (slot Z w lineAddr)).find?
    fun lineId => z.array lineId == lineAddr

structure Walk where
  candidates : List ZWalkInfo
  allValid : Bool

def seeds (z : ZArray) (lineAddr : Address) : Walk :=
  let cs := (List.range Z.ways).map fun w =>
    (⟨slot Z w lineAddr, z.lookupArray (slot Z w lineAddr), none⟩ : ZWalkInfo)
  ⟨cs, cs.all fun x => z.array x.lineId != 0⟩

/-- One turn of the inner loop. The entry is written before it is known whether the
count goes up, so the write needs room either way. -/
def expandWay (z : ZArray) (fringeStart : Nat) (fringe : ZWalkInfo) (s : Walk) (w : Nat) :
    Option Walk :=
  let pos := slot Z w (z.array fringe.lineId)
  let lineId := z.lookupArray pos
  if s.candidates.length < Z.cands + Z.ways then
    some ⟨if lineId = fringe.lineId then s.candidates
        else s.candidates ++ [⟨pos, lineId, some fringeStart⟩],
      s.allValid && z.array lineId != 0⟩
  else none

def expandFringe (z : ZArray) (fringeStart : Nat) (fringe : ZWalkInfo) :
    List Nat → Walk → Option Walk
  | [], s => some s
  | w :: ws, s => (expandWay Z z fringeStart fringe s w).bind (expandFringe z fringeStart fringe ws)

/-- The breadth-first walk; the first argument bounds its turns. -/
def walk (z : ZArray) : Nat → Nat → Walk → Option Walk
  | 0, _, _ => none
  | k + 1, fringeStart, s =>
    if s.candidates.length < Z.cands ∧ s.allValid = true then
      match s.candidates[fringeStart]? with
      | none => none
      | some fringe =>
        if z.array fringe.lineId = 0 then none
        else (expandFringe Z z fringeStart fringe (List.range Z.ways) s).bind
          (walk z k (fringeStart + 1))
    else some s

/-- Positions from candidate `idx` up to its seed; `room` is what is left of the swap
array. -/
def swapPath (cs : List ZWalkInfo) : Nat → Nat → Option (List Nat)
  | 0, _ => none
  | room + 1, idx =>
    match cs[idx]? with
    | none => none
    | some x =>
      match x.parentIdx with
      | none => some [x.pos]
      | some f => (swapPath cs room f).map (x.pos :: ·)

/-- The state for `postinsert`, the candidate and `*wbLineAddr`. `rankCands` is the
choice of the replacement policy. -/
def preinsert (z : ZArray) (lineAddr : Address) (rankCands : List Nat → Nat) :
    Option (ZArray × Nat × Address) :=
  match walk Z z (Z.cands + 1) 0 (seeds Z z lineAddr) with
  | none => none
  | some s =>
    if s.allValid = true ∧ s.candidates.length < Z.cands then none
    else
      let offered := (s.candidates.take Z.cands).map (·.lineId)
      let bestCandidate := rankCands offered
      if bestCandidate < numLines Z then
        match offered.findIdx? (· == bestCandidate) with
        | none => none
        | some minIdx =>
          (swapPath s.candidates (Z.cands / Z.ways + 2) minIdx).map fun swaps =>
            ({ z with swapArray := swaps, lastCandIdx := minIdx }, bestCandidate,
              z.array bestCandidate)
      else none

/-- The swaps, front to back; the last position takes the candidate. -/
def relocate (lookupArray : Nat → Nat) (candidate : Nat) : List Nat → Nat → Nat
  | [] => lookupArray
  | [p] => Function.update lookupArray p candidate
  | p :: q :: ps => relocate (Function.update lookupArray p (lookupArray q)) candidate (q :: ps)

def postinsert (z : ZArray) (lineAddr : Address) (candidate : Nat) : Option ZArray :=
  match z.swapArray with
  | [] => none
  | p :: ps =>
    if z.lookupArray p = candidate then
      some { z with
        lookupArray := relocate z.lookupArray candidate (p :: ps)
        array := Function.update z.array candidate lineAddr }
    else none

end ZArray

end ZSim
