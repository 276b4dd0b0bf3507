import Mathlib.Tactic

/-! Request and state types of the memory hierarchy. A `MemReq` points at the
coherence state of the requester; `Ptr` is the type of such pointers. -/

namespace ZSim

/-- Line addresses, unsigned 64-bit words. -/
abbrev Address := Nat

inductive AccessType
  | GETS | GETX | PUTS | PUTX
  deriving DecidableEq, Repr

inductive InvType
  | INV | INVX | FWD
  deriving DecidableEq, Repr

inductive MESIState
  | I | S | E | M
  deriving DecidableEq, Repr

def isGet (t : AccessType) : Bool := t == .GETS || t == .GETX

def isPut (t : AccessType) : Bool := t == .PUTS || t == .PUTX

/-- The test `*state == M || *state == E` of the assertions. -/
def MESIState.isExclusive (s : MESIState) : Bool := s == .E || s == .M

@[simp] theorem MESIState.isExclusive_I : MESIState.I.isExclusive = false := rfl
@[simp] theorem MESIState.isExclusive_S : MESIState.S.isExclusive = false := rfl
@[simp] theorem MESIState.isExclusive_E : MESIState.E.isExclusive = true := rfl
@[simp] theorem MESIState.isExclusive_M : MESIState.M.isExclusive = true := rfl

theorem MESIState.ne_I_of_isExclusive {s : MESIState} (h : s.isExclusive = true) : s ≠ .I := by
  rintro rfl
  simp at h

/-- The members stand in declaration order, `pmcs` and `signature` before
`flags`. The double `pmcs` only ever receives 32-bit integers, which it holds
exactly, so it is a rational here. `childLock` records whether a lock is passed. -/
structure MemReq (Ptr : Type) where
  lineAddr : Address
  type : AccessType
  childId : Nat
  state : Ptr
  cycle : Nat
  childLock : Bool
  initialState : MESIState
  srcId : Nat
  pmcs : ℚ
  signature : BitVec 32
  flags : BitVec 32
  deriving DecidableEq

namespace MemReq

variable {Ptr : Type}

def IFETCH : BitVec 32 := 1#32 <<< 1
def NOEXCL : BitVec 32 := 1#32 <<< 2
def NONINCLWB : BitVec 32 := 1#32 <<< 3
def PUTX_KEEPEXCL : BitVec 32 := 1#32 <<< 4
def PREFETCH : BitVec 32 := 1#32 <<< 5

/-- Aggregate initialisation `MemReq req = {a, b, ...}` with nine
initialisers: they fill the first nine members in declaration order and the
remaining members are zero. Every request of the hierarchy is built so. -/
def aggregate (lineAddr : Address) (type : AccessType) (childId : Nat) (state : Ptr)
    (cycle : Nat) (childLock : Bool) (initialState : MESIState) (srcId : Nat)
    (ninth : BitVec 32) : MemReq Ptr :=
  ⟨lineAddr, type, childId, state, cycle, childLock, initialState, srcId,
    (ninth.toNat : ℚ), 0, 0⟩

/-- `is` of the source; the name is a keyword there and a common word here. -/
def isSet (req : MemReq Ptr) (f : BitVec 32) : Bool :=
  decide (req.flags &&& f ≠ 0)

end MemReq

end ZSim
