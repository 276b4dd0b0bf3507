import ZSim.IdealLRUPart
import ZSim.VantageCounts
import ZSim.WayPart

/-! The partition mappers, and the entries of `partInfo` and of the monitors that the partitioned
policies use for the partitions they return. -/

namespace ZSim

/-- What the mappers read of `zinfo`. `groupIdx` is that of a process in `procArray`. -/
structure PartZInfo where
  numCores : Nat
  numProcs : Nat
  numProcGroups : Nat
  groupIdx : Nat → Nat

inductive PartMapper where
  | core (numCores : Nat)
  | instrData
  | instrDataCore (numCores : Nat)
  | process (numProcs : Nat)
  | instrDataProcess (numProcs : Nat)
  | processGroup

/-- The mapper a bank is configured with. -/
def newPartMapper (z : PartZInfo) (partMapper : String) : Option PartMapper :=
  if partMapper = "Core" then some (.core z.numCores)
  else if partMapper = "InstrData" then some .instrData
  else if partMapper = "InstrDataCore" then some (.instrDataCore z.numCores)
  else if partMapper = "Process" then some (.process z.numProcs)
  else if partMapper = "InstrDataProcess" then some (.instrDataProcess z.numProcs)
  else if partMapper = "ProcessGroup" then some .processGroup
  else none

namespace PartMapper

variable {Ptr : Type} (z : PartZInfo)

def getNumPartitions : PartMapper → Nat
  | core numCores => numCores
  | instrData => 2
  | instrDataCore numCores => 2 * numCores % 2 ^ 32
  | process numProcs => numProcs
  | instrDataProcess numProcs => 2 * numProcs % 2 ^ 32
  | processGroup => z.numProcGroups

/-- The partition of a request of process `procIdx`; a failed assert is `none`. -/
def getPartition (procIdx : Nat) (req : MemReq Ptr) : PartMapper → Option Nat
  | core _ => some req.srcId
  | instrData => some (req.flags &&& MemReq.IFETCH).toNat
  | instrDataCore numCores =>
    let instr := req.isSet MemReq.IFETCH
    some ((req.srcId + if instr then numCores else 0) % 2 ^ 32)
  | process numProcs => if procIdx < numProcs then some procIdx else none
  | instrDataProcess numProcs =>
    let instr := req.isSet MemReq.IFETCH
    if procIdx < numProcs then some ((procIdx + if instr then numProcs else 0) % 2 ^ 32) else none
  | processGroup =>
    if z.groupIdx procIdx < z.numProcGroups then some (z.groupIdx procIdx) else none

/-- What the mapper is named after. -/
def attributes (procIdx : Nat) (req : MemReq Ptr) : PartMapper → Nat × Bool
  | core _ => (req.srcId, false)
  | instrData => (0, req.isSet MemReq.IFETCH)
  | instrDataCore _ => (req.srcId, req.isSet MemReq.IFETCH)
  | process _ => (procIdx, false)
  | instrDataProcess _ => (procIdx, req.isSet MemReq.IFETCH)
  | processGroup => (z.groupIdx procIdx, false)

/-- Twice the number of cores or processes is still a `uint32_t`. -/
def Fits : PartMapper → Prop
  | instrDataCore numCores => 2 * numCores < 2 ^ 32
  | instrDataProcess numProcs => 2 * numProcs < 2 ^ 32
  | _ => True

/-- The mapper has the configured number of cores. -/
def OfCores : PartMapper → Prop
  | core numCores => numCores = z.numCores
  | instrDataCore numCores => numCores = z.numCores
  | _ => True

variable {z} {m : PartMapper} {procIdx procIdx' p p' : Nat} {req req' : MemReq Ptr}

theorem ofCores_of_new {name : String} (h : newPartMapper z name = some m) : m.OfCores z := by
  unfold newPartMapper at h
  split at h <;> [skip; split at h <;> [skip; split at h <;> [skip; split at h <;> [skip;
    split at h <;> [skip; split at h]]]]] <;> cases h <;> trivial

theorem land_two_pow (n k : Nat) : n &&& 2 ^ k = if n.testBit k then 2 ^ k else 0 := by
  refine Nat.eq_of_testBit_eq fun i => ?_
  rw [Nat.testBit_and, Nat.testBit_two_pow]
  by_cases hi : k = i
  · subst hi
    cases n.testBit k <;> simp
  · cases n.testBit k <;> simp [hi]

/-- The bit of instruction fetches is the second one. -/
theorem flags_and_ifetch (req : MemReq Ptr) :
    (req.flags &&& MemReq.IFETCH).toNat = if req.isSet MemReq.IFETCH then 2 else 0 := by
  have hand : (req.flags &&& MemReq.IFETCH).toNat = if req.flags.toNat.testBit 1 then 2 else 0 := by
    rw [BitVec.toNat_and]
    exact land_two_pow _ 1
  have hset : req.isSet MemReq.IFETCH = decide ((req.flags &&& MemReq.IFETCH).toNat ≠ 0) := by
    rw [MemReq.isSet, decide_eq_decide, Ne, Ne, ← BitVec.toNat_inj]
    rfl
  rw [hset, hand]
  cases req.flags.toNat.testBit 1 <;> rfl

/-- Instruction fetches are out of the two partitions of data and instructions. -/
theorem instrData_ifetch (h : req.isSet MemReq.IFETCH = true) :
    instrData.getPartition z procIdx req = some (instrData.getNumPartitions z) := by
  rw [getPartition, flags_and_ifetch, if_pos h, getNumPartitions]

/-- What a request may be for its partition to be in range: of a configured core and, where
instructions and data are told apart alone, no instruction fetch. -/
structure Ranged (z : PartZInfo) (m : PartMapper) (req : MemReq Ptr) : Prop where
  core : req.srcId < z.numCores
  ifetch : m = .instrData → req.isSet MemReq.IFETCH = false

theorem getPartition_lt (hm : m.OfCores z) (hfit : m.Fits) (hreq : Ranged z m req)
    (hp : m.getPartition z procIdx req = some p) : p < m.getNumPartitions z := by
  have hcore := hreq.core
  cases m with
  | core numCores =>
    cases hp
    exact Nat.lt_of_lt_of_eq hcore hm.symm
  | instrData =>
    rw [getPartition, flags_and_ifetch, hreq.ifetch rfl] at hp
    cases hp
    exact Nat.two_pos
  | instrDataCore numCores =>
    cases hp
    simp only [OfCores, Fits, getNumPartitions] at hm hfit ⊢
    split <;> omega
  | process numProcs =>
    rw [getPartition] at hp
    split at hp
    · next hlt =>
      cases hp
      exact hlt
    · cases hp
  | instrDataProcess numProcs =>
    rw [getPartition] at hp
    split at hp
    · next hlt =>
      cases hp
      simp only [Fits, getNumPartitions] at hfit ⊢
      split <;> omega
    · cases hp
  | processGroup =>
    rw [getPartition] at hp
    split at hp
    · next hlt =>
      cases hp
      exact hlt
    · cases hp

theorem getPartition_lt_iff (hm : m.OfCores z) (hfit : m.Fits) (hcore : req.srcId < z.numCores)
    (hp : m.getPartition z procIdx req = some p) :
    p < m.getNumPartitions z ↔ Ranged z m req := by
  constructor
  · intro hlt
    refine ⟨hcore, fun hinstr => ?_⟩
    subst hinstr
    by_contra hifetch
    rw [instrData_ifetch (Bool.eq_true_of_not_eq_false hifetch)] at hp
    cases hp
    exact Nat.lt_irrefl _ hlt
  · intro hreq
    exact getPartition_lt hm hfit hreq hp

/-- Requests share a partition when they share what the mapper is named after, and only then. -/
theorem getPartition_eq_iff (hm : m.OfCores z) (hfit : m.Fits) (hcore : req.srcId < z.numCores)
    (hcore' : req'.srcId < z.numCores) (hp : m.getPartition z procIdx req = some p)
    (hp' : m.getPartition z procIdx' req' = some p') :
    p = p' ↔ m.attributes z procIdx req = m.attributes z procIdx' req' := by
  cases m with
  | core numCores =>
    cases hp
    cases hp'
    simp [attributes]
  | instrData =>
    rw [getPartition, flags_and_ifetch] at hp hp'
    cases hp
    cases hp'
    rw [attributes, attributes]
    cases req.isSet MemReq.IFETCH <;> cases req'.isSet MemReq.IFETCH <;> simp
  | instrDataCore numCores =>
    cases hp
    cases hp'
    simp only [OfCores, Fits] at hm hfit
    rw [attributes, attributes, Prod.mk.injEq]
    cases req.isSet MemReq.IFETCH <;> cases req'.isSet MemReq.IFETCH <;> simp <;> omega
  | process numProcs =>
    rw [getPartition] at hp hp'
    split at hp <;> cases hp
    split at hp' <;> cases hp'
    simp [attributes]
  | instrDataProcess numProcs =>
    rw [getPartition] at hp hp'
    split at hp <;> cases hp
    split at hp' <;> cases hp'
    simp only [Fits] at hfit
    rw [attributes, attributes, Prod.mk.injEq]
    cases req.isSet MemReq.IFETCH <;> cases req'.isSet MemReq.IFETCH <;> simp <;> omega
  | processGroup =>
    rw [getPartition] at hp hp'
    split at hp <;> cases hp
    split at hp' <;> cases hp'
    simp [attributes]

end PartMapper

end ZSim
