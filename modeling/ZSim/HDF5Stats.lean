import Mathlib.Tactic

/-! The HDF5 backend of the stats: the type of a record, and the walk that dumps one. -/

namespace ZSim

inductive Stat where
  | scalar (name : String) (id : Nat)
  | vector (name : String) (id size : Nat)
  | aggregate (name : String) (isRegular : Bool) (children : List Stat)

namespace Stat

def name : Stat → String
  | .scalar name _ => name
  | .vector name _ _ => name
  | .aggregate name _ _ => name

def isAggregate : Stat → Bool
  | .aggregate _ _ _ => true
  | _ => false

def isVector : Stat → Bool
  | .vector _ _ _ => true
  | _ => false

end Stat

/-- What the scalars and vectors have to say at a dump. -/
structure StatValues where
  get : Nat → BitVec 64
  count : Nat → Nat → BitVec 64

mutual

inductive H5Type where
  | ulong
  | array (elem : H5Type) (dim : Nat)
  | compound (size : Nat) (members : H5Members)
  deriving DecidableEq

inductive H5Members where
  | nil
  | insert (name : String) (offset : Nat) (type : H5Type) (rest : H5Members)
  deriving DecidableEq

end

/-- `H5Tget_size`, in bytes. -/
def H5Type.size : H5Type → Nat
  | .ulong => 8
  | .array elem dim => elem.size * dim
  | .compound size _ => size

def insertMembers : List (String × H5Type) → Nat → H5Members
  | [], _ => .nil
  | (name, type) :: fields, offset =>
    .insert name offset type (insertMembers fields (offset + type.size))

/-- A compound type. The library has none without bytes, and none with two members of a name. -/
def compoundType (fields : List (String × H5Type)) : Option H5Type :=
  let size := (fields.map fun f => f.2.size).sum
  if size = 0 ∨ ¬ (fields.map Prod.fst).Nodup then none
  else some (.compound size (insertMembers fields 0))

def getBaseH5Type (size : Nat) : Option H5Type :=
  if 1 < size then some (.array .ulong size) else if size = 1 then some .ulong else none

/-- What the constructor gets. A root is an aggregate. -/
structure HDF5Backend where
  rootStat : Stat
  bytesPerWrite : Nat
  skipVectors : Bool
  sumRegularAggregates : Bool
  root_isAggregate : rootStat.isAggregate = true

/-- `dataBuf` in words of 64 bits, and the index that `curPtr` points to. -/
structure DumpState where
  dataBuf : Nat → BitVec 64
  curPtr : Nat

inductive DumpFault where
  | outOfBounds
  | assertion

/-- `startPtr[j] += tmpPtr[j]` for the first `sz` words. -/
def addRecord (startPtr tmpPtr : Nat) : Nat → (Nat → BitVec 64) → Nat → BitVec 64
  | 0, dataBuf => dataBuf
  | j + 1, dataBuf =>
    let dataBuf := addRecord startPtr tmpPtr j dataBuf
    Function.update dataBuf (startPtr + j) (dataBuf (startPtr + j) + dataBuf (tmpPtr + j))

namespace DumpState

/-- `*(curPtr++) = value`, where `dataBuf` has `capacity` words. -/
def write (capacity : Nat) (value : BitVec 64) (st : DumpState) : Except DumpFault DumpState :=
  if st.curPtr < capacity then
    .ok ⟨Function.update st.dataBuf st.curPtr value, st.curPtr + 1⟩
  else .error .outOfBounds

def writeAll (capacity : Nat) : List (BitVec 64) → DumpState → Except DumpFault DumpState
  | [], st => .ok st
  | value :: values, st => (st.write capacity value).bind (writeAll capacity values)

end DumpState

namespace HDF5Backend

variable (B : HDF5Backend)

def skipStat (s : Stat) : Bool := B.skipVectors && s.isVector

-- Types are equal where `H5Tequal` says so, as deduplication gives those the same identifier.
mutual

def getH5Type : Stat → Option H5Type
  | .scalar _ _ => getBaseH5Type 1
  | .vector _ _ size => getBaseH5Type size
  | .aggregate _ isRegular children =>
    if isRegular then getRegularType children else (getFields children).bind compoundType

def getRegularType : List Stat → Option H5Type
  | [] => none
  | child :: others =>
    if B.skipStat child then none
    else
      (getH5Type child).bind fun childType =>
        if haveType childType others then
          some (if B.sumRegularAggregates then childType
            else .array childType (others.length + 1))
        else none

def haveType (childType : H5Type) : List Stat → Bool
  | [] => true
  | child :: others => decide (getH5Type child = some childType) && haveType childType others

/-- The members of an irregular aggregate. -/
def getFields : List Stat → Option (List (String × H5Type))
  | [] => some []
  | child :: others =>
    if B.skipStat child then getFields others
    else
      (getH5Type child).bind fun childType =>
        (getFields others).map fun fields => (child.name, childType) :: fields

end

mutual

def dumpWalk (V : StatValues) (capacity : Nat) : Stat → DumpState → Except DumpFault DumpState
  | .scalar _ id, st => st.write capacity (V.get id)
  | .vector _ id size, st =>
    if B.skipVectors then .ok st
    else st.writeAll capacity ((List.range size).map (V.count id))
  | .aggregate _ isRegular children, st =>
    if isRegular && B.sumRegularAggregates then dumpSum V capacity children st
    else dumpEach V capacity children st

def dumpEach (V : StatValues) (capacity : Nat) :
    List Stat → DumpState → Except DumpFault DumpState
  | [], st => .ok st
  | child :: others, st => (dumpWalk V capacity child st).bind (dumpEach V capacity others)

def dumpSum (V : StatValues) (capacity : Nat) :
    List Stat → DumpState → Except DumpFault DumpState
  | [], _ => .error .outOfBounds
  | child :: others, st =>
    (dumpWalk V capacity child st).bind fun st' =>
      dumpOthers V capacity st.curPtr st'.curPtr others st'

/-- The other children go below the first one, and are added to it. -/
def dumpOthers (V : StatValues) (capacity startPtr tmpPtr : Nat) :
    List Stat → DumpState → Except DumpFault DumpState
  | [], st => .ok st
  | child :: others, st =>
    (dumpWalk V capacity child st).bind fun st' =>
      let sz := (tmpPtr - startPtr) % 2 ^ 32
      if st'.curPtr = tmpPtr + sz then
        dumpOthers V capacity startPtr tmpPtr others
          ⟨addRecord startPtr tmpPtr sz st'.dataBuf, tmpPtr⟩
      else .error .assertion

end

/-- In `uint32_t`. -/
def recordsPerWrite (recordSize : Nat) : Nat := (B.bytesPerWrite / recordSize + 1) % 2 ^ 32

/-- In bytes; the sum needs some space behind the records. -/
def bufSize (recordSize : Nat) : Nat :=
  B.recordsPerWrite recordSize * recordSize +
    if B.sumRegularAggregates then recordSize else 0

/-- `table` is what was appended to the table, a function from words to values for a record. -/
structure State where
  dataBuf : Nat → BitVec 64
  curPtr : Nat
  bufferedRecords : Nat
  table : List (Nat → BitVec 64)

/-- The first `n` records of the buffer. -/
def records (recordSize n : Nat) (dataBuf : Nat → BitVec 64) : List (Nat → BitVec 64) :=
  (List.range n).map fun k j => dataBuf (k * (recordSize / 8) + j)

def dump (recordSize : Nat) (V : StatValues) (buffered : Bool) (st : State) :
    Except DumpFault State :=
  (B.dumpWalk V (B.bufSize recordSize / 8) B.rootStat ⟨st.dataBuf, st.curPtr⟩).bind fun st' =>
    let bufferedRecords := (st.bufferedRecords + 1) % 2 ^ 32
    if bufferedRecords * recordSize / 8 = st'.curPtr then
      if bufferedRecords = B.recordsPerWrite recordSize ∨ buffered = false then
        .ok ⟨st'.dataBuf, 0, 0,
          st.table ++ records recordSize bufferedRecords st'.dataBuf⟩
      else .ok ⟨st'.dataBuf, st'.curPtr, bufferedRecords, st.table⟩
    else .error .assertion

def init (dataBuf : Nat → BitVec 64) : State := ⟨dataBuf, 0, 0, []⟩

def dumps (recordSize : Nat) : List (StatValues × Bool) → State → Except DumpFault State
  | [], st => .ok st
  | (V, buffered) :: rest, st => (B.dump recordSize V buffered st).bind (dumps recordSize rest)

end HDF5Backend

end ZSim
