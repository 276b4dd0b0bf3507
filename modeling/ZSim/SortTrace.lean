import Mathlib.Data.Prod.Lex
import ZSim.AccessTracing
import ZSim.KWayMerge
import ZSim.WhileLoop

/-! The trace sorter: a merge of one queue of records for each child, filled from the trace as
far as needed. A failed assert, a panic, an access out of bounds or a division by zero is
`none`. -/

namespace ZSim.AccessTrace

/-- The pair pushed for the head of a queue, the negated cycle read as an `int64_t`. -/
def AccessRecord.headKey (acc : AccessRecord) : Int ×ₗ Nat :=
  toLex ((-acc.reqCycle).toInt, acc.childId.toNat)

/-- The percentages printed. -/
def printProgress (read written total : Nat) : Option (Nat × Nat) :=
  if total = 0 then none
  else some (read * 100 % 2 ^ 64 / total, written * 100 % 2 ^ 64 / total)

/-- A missing queue is a null pointer in `accs`. -/
structure SortState where
  tr : AccessTraceReader
  tw : AccessTraceWriter
  accs : Nat → Option (List AccessRecord)
  heads : List (Int ×ₗ Nat)
  readRecords : Nat
  writtenRecords : Nat

namespace SortState

def new (tr : AccessTraceReader) : SortState :=
  ⟨tr, .new tr.numChildren, fun _ => none, [], 0, 0⟩

def numChildren (s : SortState) : Nat := s.tr.numChildren.toNat

def totalRecords (s : SortState) : Nat := s.tr.numRecords

/-- The progress line after every 1024th record. -/
def progress (s : SortState) (count : Nat) : Option Unit :=
  if count % 1024 = 0 then (printProgress s.readRecords s.writtenRecords s.totalRecords).map fun _ => ()
  else some ()

/-- A record read goes to the back of its child's queue. -/
def enqueue (s : SortState) (acc : AccessRecord) : SortState :=
  let child := acc.childId.toNat
  match s.accs child with
  | none => { s with
      accs := Function.update s.accs child (some [acc])
      heads := acc.headKey :: s.heads }
  | some q => { s with accs := Function.update s.accs child (some (q ++ [acc])) }

def readOne (s : SortState) : Option SortState := do
  let (acc, tr) ← s.tr.read
  let s' := { s with tr := tr, readRecords := s.readRecords + 1 }
  s'.progress s'.readRecords
  if acc.childId.toNat < s.numChildren then some (s'.enqueue acc) else none

/-- The reads of one round, which stop at the end of the trace. -/
def readSome : Nat → SortState → Option SortState
  | 0, s => some s
  | n + 1, s => do
    let s' ← s.readOne
    if s'.tr.empty then some s' else readSome n s'

/-- The top of the heap leaves its queue for the output trace. -/
def emit (s : SortState) : Option SortState := do
  let next ← s.heads.max?
  let child := (ofLex next).2
  let q ← s.accs child
  match q with
  | [] => none
  | acc :: rest =>
    let tw ← s.tw.write acc
    let s' := { s with
      tw := tw, heads := s.heads.erase next, writtenRecords := s.writtenRecords + 1 }
    s'.progress s'.writtenRecords
    match rest with
    | [] => some { s' with accs := Function.update s.accs child none }
    | acc' :: _ => some { s' with
        accs := Function.update s.accs child (some rest), heads := acc'.headKey :: s'.heads }

/-- Every child has a head, or the trace has ended. -/
def mayEmit (s : SortState) : Bool :=
  s.heads.length = s.numChildren || s.tr.empty && 0 < s.heads.length

def round (fuel : Nat) (s : SortState) : Option SortState := do
  let s' ← if !s.tr.empty && s.heads.length < s.numChildren then readSome 1024 s else some s
  if s'.heads.length ≤ s'.numChildren then WhileLoop.whileM none mayEmit emit fuel s' else none

def unsorted (s : SortState) : Bool := !s.tr.empty || 0 < s.heads.length

end SortState

/-- The output trace, when no loop tests its condition more than `fuel` times. -/
def sorttrace (fuel : Nat) (input : TraceFile) : Option TraceFile := do
  let tr ← AccessTraceReader.new input
  let s ← WhileLoop.whileM none SortState.unsorted (SortState.round fuel) fuel (.new tr)
  let _ ← printProgress s.readRecords s.writtenRecords s.totalRecords
  if s.readRecords = s.writtenRecords ∧ s.readRecords = s.totalRecords then
    some (s.tw.dump false).file
  else none

end ZSim.AccessTrace
