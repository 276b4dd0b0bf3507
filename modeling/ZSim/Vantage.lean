import Mathlib.Algebra.Order.Ring.Nat
import ZSim.MemoryHierarchy

/-! The Vantage replacement policy. The last partition is the unmanaged region. -/

namespace ZSim

/-- `randInt n` is between 0 and `n`. -/
structure MTRand where
  State : Type
  seed : State
  randInt : State → Nat → Nat × State
  randInt_le : ∀ s n, (randInt s n).1 ≤ n

inductive SetpointMove where
  | increase
  | decrease
  | keep

/-- `targetManagedSize` is the constructor's product of doubles, at most `totalSize`. `move`
compares `curIntervalDems` with `aperture*curIntervalCands`, from the target size, the size and
the two counters; it is `none` where `assert(slope > 0.0)` fails. A bank has a 32-bit number of
bytes, so that line ids fit into `int32_t`. -/
structure VantageConfig where
  partitions : Nat
  totalSize : Nat
  assoc : Nat
  targetManagedSize : Nat
  partGranularity : Nat
  smoothTransients : Bool
  move : Nat → Nat → Nat → Nat → Option SetpointMove
  partitions_pos : 0 < partitions
  totalSize_lt : totalSize < 2 ^ 31
  managed_le : targetManagedSize ≤ totalSize

structure VantagePartInfo where
  size : Nat
  targetSize : Nat
  curBts : Nat
  curBtsHits : Nat
  setpointBts : Nat
  curIntervalIns : Nat
  curIntervalDems : Nat
  curIntervalCands : Nat
  extendedSize : Nat
  longTermTargetSize : Nat

structure VantageLine where
  addr : Address
  ts : Nat
  bts : Nat
  p : Nat
  op : Nat

/-- `candList` holds the candidates recorded so far. -/
structure VantageReplPolicy (R : MTRand) where
  partInfo : Nat → VantagePartInfo
  array : Nat → VantageLine
  candList : List Nat
  incomingLineAddr : Address
  timestamp : Nat
  rng : R.State

namespace VantageReplPolicy

variable {R : MTRand} (G : VantageConfig)

def init : VantageReplPolicy R where
  partInfo := fun i =>
    let target := if i < G.partitions then G.targetManagedSize / G.partitions else 0
    let lines := if i = G.partitions then G.totalSize else 0
    ⟨lines, target, 0, 0, 0, 0, 0, 0, lines, target⟩
  array := fun _ => ⟨0, 0, 0, G.partitions, G.partitions⟩
  candList := []
  incomingLineAddr := 0
  timestamp := 1
  rng := R.seed

def setPart (s : VantageReplPolicy R) (p : Nat) (i : VantagePartInfo) : VantageReplPolicy R :=
  { s with partInfo := Function.update s.partInfo p i }

def setLine (s : VantageReplPolicy R) (id : Nat) (e : VantageLine) : VantageReplPolicy R :=
  { s with array := Function.update s.array id e }

def sizeInc (s : VantageReplPolicy R) (p : Nat) : VantageReplPolicy R :=
  s.setPart p { s.partInfo p with size := (s.partInfo p).size + 1 }

/-- A decrement of a zero counter is `none`. -/
def sizeDec (s : VantageReplPolicy R) (p : Nat) : Option (VantageReplPolicy R) :=
  if (s.partInfo p).size = 0 then none
  else some (s.setPart p { s.partInfo p with size := (s.partInfo p).size - 1 })

def extendedInc (s : VantageReplPolicy R) (p : Nat) : VantageReplPolicy R :=
  s.setPart p { s.partInfo p with extendedSize := (s.partInfo p).extendedSize + 1 }

def extendedDec (s : VantageReplPolicy R) (p : Nat) : Option (VantageReplPolicy R) :=
  if (s.partInfo p).extendedSize = 0 then none
  else some (s.setPart p { s.partInfo p with extendedSize := (s.partInfo p).extendedSize - 1 })

def insCount (s : VantageReplPolicy R) (p : Nat) : VantageReplPolicy R :=
  s.setPart p { s.partInfo p with curIntervalIns := ((s.partInfo p).curIntervalIns + 1) % 2 ^ 32 }

/-- `e->ts = timestamp++`. -/
def touch (s : VantageReplPolicy R) (id : Nat) : VantageReplPolicy R :=
  { s.setLine id { s.array id with ts := s.timestamp } with
    timestamp := (s.timestamp + 1) % 2 ^ 64 }

def hit (s : VantageReplPolicy R) (id part : Nat) : Option (VantageReplPolicy R) :=
  if (s.array id).p = G.partitions then
    let s := s.setLine id { s.array id with p := part }
    (((s.insCount part).sizeInc part).sizeDec G.partitions).map fun s => s.touch id
  else some (s.touch id)

/-- The update of a line that was replaced, up to the target sizes. -/
def fill (s : VantageReplPolicy R) (id part : Nat) : Option (VantageReplPolicy R) :=
  let s := s.touch id
  (s.sizeDec (s.array id).p).bind fun s =>
    (s.extendedDec (s.array id).op).map fun s =>
      let s := s.setLine id { s.array id with p := part, op := part }
      ((s.insCount part).sizeInc part).extendedInc part

/-- `targetSize - longTermTargetSize`, in `int32_t`, and no less than 0. -/
def left (i : VantagePartInfo) : Nat :=
  (((i.targetSize : Int) - i.longTermTargetSize).bmod (2 ^ 32)).toNat

def linesLeft (s : VantageReplPolicy R) : Nat :=
  ((List.range G.partitions).map fun p => left (s.partInfo p)).sum % 2 ^ 32

/-- The search of `takeOneLine`, with `curLines` so far. -/
def takeFrom (s : VantageReplPolicy R) (l : Nat) : List Nat → Nat → Option (VantageReplPolicy R)
  | [], _ => none
  | p :: ps, curLines =>
    let curLines := (curLines + left (s.partInfo p)) % 2 ^ 32
    if 0 < left (s.partInfo p) ∧ l < curLines then
      some (s.setPart p
        { s.partInfo p with targetSize := ((s.partInfo p).targetSize + 2 ^ 64 - 1) % 2 ^ 64 })
    else takeFrom s l ps curLines

def takeOneLine (s : VantageReplPolicy R) : Option (VantageReplPolicy R) :=
  if G.smoothTransients = true ∧ 0 < s.linesLeft G then
    let l := R.randInt s.rng (s.linesLeft G - 1)
    takeFrom { s with rng := l.2 } l.1 (List.range G.partitions) 0
  else none

/-- A partition below its long-term target takes a line from another one. -/
def grow (s : VantageReplPolicy R) (part : Nat) : Option (VantageReplPolicy R) :=
  let i := s.partInfo part
  if i.targetSize < i.longTermTargetSize then
    (s.setPart part { i with targetSize := i.targetSize + 1 }).takeOneLine G
  else some s

/-- The coarse-grain timestamp of the line, and the access counter of its partition. -/
def retime (s : VantageReplPolicy R) (id : Nat) : VantageReplPolicy R :=
  let i := s.partInfo (s.array id).p
  let hits := (i.curBtsHits + 1) % 2 ^ 32
  (s.setLine id { s.array id with bts := i.curBts }).setPart (s.array id).p
    (if i.size % 2 ^ 32 / 16 ≤ hits then
      { i with
        curBts := (i.curBts + 1) % 2 ^ 64
        setpointBts := (i.setpointBts + 1) % 2 ^ 64
        curBtsHits := 0 }
    else { i with curBtsHits := hits })

/-- The counters of lines in `update`. -/
def account (s : VantageReplPolicy R) (id part : Nat) : Option (VantageReplPolicy R) :=
  if 0 < (s.array id).ts then s.hit G id part else s.fill id part

/-- `part` is the partition of the request. -/
def update (s : VantageReplPolicy R) (id part : Nat) : Option (VantageReplPolicy R) :=
  let miss := (s.array id).ts = 0
  (s.account G id part).bind fun s =>
    (if miss then s.grow G part else some s).map fun s => s.retime id

def startReplacement (s : VantageReplPolicy R) (lineAddr : Address) : VantageReplPolicy R :=
  { s with incomingLineAddr := lineAddr }

def recordCandidate (s : VantageReplPolicy R) (id : Nat) : Option (VantageReplPolicy R) :=
  if s.candList.length < G.assoc then some { s with candList := s.candList ++ [id] } else none

def btsDistance (cur bts : Nat) : Nat := (cur + 2 ^ 64 - bts) % 2 ^ 64 % 256

/-- The end of a feedback interval of partition `p`. -/
def endInterval (s : VantageReplPolicy R) (p : Nat) : Option (VantageReplPolicy R) :=
  let i := s.partInfo p
  (G.move i.targetSize i.size i.curIntervalDems i.curIntervalCands).map fun m =>
    let setpointBts := match m with
      | .increase => if i.setpointBts < i.curBts then i.setpointBts + 1 else i.setpointBts
      | .decrease =>
        if (i.curBts + 2 ^ 64 - i.setpointBts) % 2 ^ 64 < 255 then
          (i.setpointBts + 2 ^ 64 - 1) % 2 ^ 64
        else i.setpointBts
      | .keep => i.setpointBts
    s.setPart p { i with
      setpointBts := setpointBts
      curIntervalCands := 0
      curIntervalIns := 0
      curIntervalDems := 0 }

/-- `e` goes from its partition `p` to the unmanaged region. -/
def demote (s : VantageReplPolicy R) (id p : Nat) : Option (VantageReplPolicy R) :=
  (s.sizeDec p).map fun s =>
    let s := (s.setLine id { s.array id with p := G.partitions }).sizeInc G.partitions
    s.setPart p
      { s.partInfo p with curIntervalDems := ((s.partInfo p).curIntervalDems + 1) % 2 ^ 32 }

/-- The first loop of `getBestCandidate`, for one candidate. -/
def examine (s : VantageReplPolicy R) (id : Nat) : Option (VantageReplPolicy R) :=
  let e := s.array id
  let i := s.partInfo e.p
  if e.ts = 0 ∨ e.p = G.partitions ∨ i.size % 2 ^ 32 ≤ i.targetSize then some s
  else
    (if btsDistance i.curBts i.setpointBts ≤ btsDistance i.curBts e.bts then s.demote G id e.p
      else some s).bind fun s =>
        let cands := ((s.partInfo e.p).curIntervalCands + 1) % 2 ^ 32
        let s := s.setPart e.p { s.partInfo e.p with curIntervalCands := cands }
        if 256 ≤ cands then s.endInterval G e.p else some s

def examineAll : List Nat → VantageReplPolicy R → Option (VantageReplPolicy R)
  | [], s => some s
  | id :: ids, s => (s.examine G id).bind (examineAll ids)

/-- Whether `e` takes the place of `best`: unmanaged lines first, then the oldest. -/
def wins (e best : VantageLine) : Bool :=
  if e.p = G.partitions ∧ best.p ≠ G.partitions then true
  else if e.p ≠ G.partitions ∧ best.p = G.partitions then false
  else decide (e.ts < best.ts)

/-- The second loop of `getBestCandidate`. -/
def bestFrom (s : VantageReplPolicy R) : List Nat → Nat → Nat
  | [], bestId => bestId
  | id :: ids, bestId =>
    if (s.array id).ts = 0 then id
    else bestFrom s ids (if wins G (s.array id) (s.array bestId) then id else bestId)

def getBestCandidate (s : VantageReplPolicy R) : Option (Nat × VantageReplPolicy R) :=
  match s.candList with
  | [] => none
  | id :: _ =>
    if s.candList.length ≤ G.assoc then
      (s.examineAll G s.candList).bind fun s =>
        let bestId := s.bestFrom G s.candList id
        if bestId < G.totalSize then some (bestId, s) else none
    else none

def replaced (s : VantageReplPolicy R) (id : Nat) : VantageReplPolicy R :=
  { s.setLine id { s.array id with ts := 0, bts := 0, addr := s.incomingLineAddr } with
    candList := [] }

/-- One turn of the loop of `setPartitionSizes`, with `linesToTakeAway` so far. -/
def resizePart (sizes : Nat → Nat) (s : VantageReplPolicy R) (linesToTakeAway p : Nat) :
    VantageReplPolicy R × Nat :=
  let lines := G.totalSize * sizes p % 2 ^ 32 / G.partGranularity
  let i := s.partInfo p
  if G.smoothTransients = true then
    if i.targetSize < lines then
      let newTarget := max i.targetSize (min lines (i.size + 1)) % 2 ^ 32
      (s.setPart p { i with longTermTargetSize := lines, targetSize := newTarget },
        (linesToTakeAway + newTarget + 2 ^ 32 - i.targetSize) % 2 ^ 32)
    else (s.setPart p { i with longTermTargetSize := lines }, linesToTakeAway)
  else (s.setPart p { i with targetSize := lines, longTermTargetSize := lines }, linesToTakeAway)

def resizeParts (sizes : Nat → Nat) :
    List Nat → VantageReplPolicy R × Nat → VantageReplPolicy R × Nat
  | [], r => r
  | p :: ps, r => resizeParts sizes ps (resizePart G sizes r.1 r.2 p)

def takeLines : Nat → VantageReplPolicy R → Option (VantageReplPolicy R)
  | 0, s => some s
  | n + 1, s => (s.takeOneLine G).bind (takeLines n)

/-- `setPartitionSizes` divides by the granularity. -/
def setPartitionSizes (s : VantageReplPolicy R) (sizes : Nat → Nat) :
    Option (VantageReplPolicy R) :=
  if G.partGranularity = 0 then none
  else
    let r := resizeParts G sizes (List.range G.partitions) (s, 0)
    takeLines G r.2 r.1

inductive Op where
  | update (id part : Nat)
  | startReplacement (lineAddr : Address)
  | recordCandidate (id : Nat)
  | getBestCandidate
  | replaced (id : Nat)
  | setPartitionSizes (sizes : Nat → Nat)

/-- What callers promise: lines and partitions that exist. -/
def Allowed : Op → Prop
  | .update id part => id < G.totalSize ∧ part < G.partitions
  | .recordCandidate id => id < G.totalSize
  | .replaced id => id < G.totalSize
  | _ => True

def step (s : VantageReplPolicy R) : Op → Option (VantageReplPolicy R)
  | .update id part => s.update G id part
  | .startReplacement lineAddr => some (s.startReplacement lineAddr)
  | .recordCandidate id => s.recordCandidate G id
  | .getBestCandidate => (s.getBestCandidate G).map Prod.snd
  | .replaced id => some (s.replaced id)
  | .setPartitionSizes sizes => s.setPartitionSizes G sizes

def run : List Op → VantageReplPolicy R → Option (VantageReplPolicy R)
  | [], s => some s
  | op :: ops, s => (s.step G op).bind (run ops)

/-- `P` holds in the state before every step and in the last one. -/
def AllStates (P : VantageReplPolicy R → Prop) : List Op → VantageReplPolicy R → Prop
  | [], s => P s
  | op :: ops, s => P s ∧ ∀ s', s.step G op = some s' → AllStates P ops s'

/-- `C` holds of every step and the state before it. -/
def AllSteps (C : VantageReplPolicy R → Op → Prop) : List Op → VantageReplPolicy R → Prop
  | [], _ => True
  | op :: ops, s => C s op ∧ ∀ s', s.step G op = some s' → AllSteps C ops s'

end VantageReplPolicy

end ZSim
