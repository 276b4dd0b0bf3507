import ZSim.MemoryHierarchy

/-! The CARE replacement policy and the set-associative array that calls it. -/

namespace ZSim

def CARE_RC_MAX : Nat := 7
def CARE_PD_MAX : Nat := 7

def CARE_EPV_LOW_REUSE : Nat := 3
def CARE_EPV_MOD_LOW_COST : Nat := 2
def CARE_EPV_MOD_HIGH_COST : Nat := 1
def CARE_EPV_HIGH_REUSE : Nat := 0

structure SHTEntry where
  rc : Nat
  pd : Nat
  deriving DecidableEq

/-- `candArray` holds the candidates recorded so far. -/
structure CAREReplPolicy where
  shtEntries : Nat
  rc : Nat → Nat
  pd : Nat → Nat
  pmcs : Nat → Nat
  rBit : Nat → Bool
  epv : Nat → Nat
  lineAddr : Nat → Address
  sht : Nat → SHTEntry
  candArray : List Nat
  incomingAddr : Address

namespace CAREReplPolicy

def init (shtEntries : Nat) : CAREReplPolicy where
  shtEntries := shtEntries
  rc := fun _ => 0
  pd := fun _ => 0
  pmcs := fun _ => 0
  rBit := fun _ => false
  epv := fun _ => CARE_EPV_LOW_REUSE
  lineAddr := fun _ => 0
  sht := fun _ => ⟨0, 0⟩
  candArray := []
  incomingAddr := 0

def hashAddr (rp : CAREReplPolicy) (addr : Address) : Nat :=
  (addr ^^^ (addr >>> 10)) &&& (rp.shtEntries - 1)

def computeEPV (rcVal pdVal : Nat) : Nat :=
  if rcVal = 0 then CARE_EPV_LOW_REUSE
  else if rcVal = CARE_RC_MAX then CARE_EPV_HIGH_REUSE
  else if pdVal = 0 then CARE_EPV_MOD_LOW_COST
  else CARE_EPV_MOD_HIGH_COST

def satInc (n : Nat) : Nat := if n < CARE_RC_MAX then n + 1 else n

theorem satInc_eq_self {n : Nat} : satInc n = n ↔ CARE_RC_MAX ≤ n := by
  rw [satInc]
  split <;> omega

theorem satInc_le {n : Nat} (h : n ≤ 7) : satInc n ≤ 7 := by
  by_cases hlt : n < CARE_RC_MAX
  · rw [satInc, if_pos hlt]
    exact hlt
  · rw [satInc, if_neg hlt]
    exact h

theorem one_le_satInc (m : Nat) : 1 ≤ satInc m := by
  by_cases h : m < CARE_RC_MAX
  · rw [satInc, if_pos h]
    exact Nat.succ_pos m
  · rw [satInc, if_neg h]
    exact Nat.one_le_of_lt (Nat.lt_of_lt_of_le Nat.zero_lt_one
      (Nat.le_trans (Nat.le_of_ble_eq_true rfl : 1 ≤ CARE_RC_MAX) (Nat.not_lt.mp h)))

def update (rp : CAREReplPolicy) (id : Nat) : CAREReplPolicy :=
  if rp.rBit id = false then
    let idx := rp.hashAddr (rp.lineAddr id)
    { rp with
      rBit := Function.update rp.rBit id true
      rc := Function.update rp.rc id (satInc (rp.rc id))
      sht := Function.update rp.sht idx { rp.sht idx with rc := satInc (rp.sht idx).rc }
      epv := Function.update rp.epv id (computeEPV (satInc (rp.rc id)) (rp.pd id)) }
  else rp

def startReplacement (rp : CAREReplPolicy) (lineAddr : Address) : CAREReplPolicy :=
  { rp with candArray := [], incomingAddr := lineAddr }

def recordCandidate (rp : CAREReplPolicy) (id : Nat) : CAREReplPolicy :=
  { rp with candArray := rp.candArray ++ [id] }

/-- Whether `cand` takes the place of `best` in the search for the victim. -/
def better (rp : CAREReplPolicy) (cand best : Nat) : Bool :=
  if rp.epv cand > rp.epv best then true
  else if rp.epv cand = rp.epv best then
    if rp.rc cand < rp.rc best then true
    else if rp.rc cand = rp.rc best then decide (rp.pd cand < rp.pd best)
    else false
  else false

/-- The first candidate; with none, whatever `candArray` held, which is taken to be line 0. -/
def getBestCandidate (rp : CAREReplPolicy) : Nat :=
  rp.candArray.tail.foldl (fun best cand => if rp.better cand best then cand else best)
    (rp.candArray.headD 0)

/-- The SHT after the decay for the line that leaves slot `id`. -/
def decayed (rp : CAREReplPolicy) (id : Nat) : Nat → SHTEntry :=
  let evictIdx := rp.hashAddr (rp.lineAddr id)
  if rp.lineAddr id ≠ 0 ∧ 0 < (rp.sht evictIdx).rc then
    Function.update rp.sht evictIdx { rp.sht evictIdx with rc := (rp.sht evictIdx).rc - 1 }
  else rp.sht

/-- One step of an SHT entry's `pd` towards the `pd` of the slot. -/
def blend (pd : Nat) (e : SHTEntry) : SHTEntry :=
  if e.pd < pd ∧ e.pd < CARE_PD_MAX then { e with pd := e.pd + 1 }
  else if pd < e.pd ∧ 0 < e.pd then { e with pd := e.pd - 1 }
  else e

def replaced (rp : CAREReplPolicy) (id : Nat) : CAREReplPolicy :=
  let sht := rp.decayed id
  let inIdx := rp.hashAddr rp.incomingAddr
  let e := blend (rp.pd id) (sht inIdx)
  { rp with
    rc := Function.update rp.rc id (sht inIdx).rc
    sht := Function.update sht inIdx e
    pd := Function.update rp.pd id e.pd
    lineAddr := Function.update rp.lineAddr id rp.incomingAddr
    epv := Function.update rp.epv id (computeEPV (sht inIdx).rc e.pd)
    candArray := []
    rBit := Function.update rp.rBit id false
    pmcs := Function.update rp.pmcs id 0 }

/-- `rank` of the legacy policies, and the policy after it. -/
def rank (rp : CAREReplPolicy) (lineAddr : Address) (cands : List Nat) : CAREReplPolicy × Nat :=
  let rp := cands.foldl recordCandidate (rp.startReplacement lineAddr)
  (rp, rp.getBestCandidate)

theorem rank_policy (rp : CAREReplPolicy) (lineAddr : Address) (cands : List Nat) :
    (rp.rank lineAddr cands).1 = { rp with candArray := cands, incomingAddr := lineAddr } := by
  have hfold : ∀ (rp : CAREReplPolicy) (cands : List Nat),
      cands.foldl recordCandidate rp = { rp with candArray := rp.candArray ++ cands } := by
    intro rp cands
    induction cands generalizing rp with
    | nil => simp
    | cons id cands ih =>
      rw [List.foldl_cons, ih]
      simp [recordCandidate]
  rw [rank, hfold]
  rfl

end CAREReplPolicy

/-- The set-associative array over CARE. `hash` is `hf->hash(0, _)`. -/
structure CareArray where
  assoc : Nat
  setMask : Nat
  hash : Address → Nat
  array : Nat → Address
  rp : CAREReplPolicy

namespace CareArray

def init (assoc setMask shtEntries : Nat) (hash : Address → Nat) : CareArray where
  assoc := assoc
  setMask := setMask
  hash := hash
  array := fun _ => 0
  rp := .init shtEntries

def candidates (c : CareArray) (lineAddr : Address) : List Nat :=
  List.range' ((c.hash lineAddr &&& c.setMask) * c.assoc) c.assoc

def find? (c : CareArray) (lineAddr : Address) : Option Nat :=
  (c.candidates lineAddr).find? fun id => c.array id = lineAddr

def lookup (c : CareArray) (lineAddr : Address) (updateReplacement : Bool) :
    CareArray × Option Nat :=
  match c.find? lineAddr with
  | some id => (if updateReplacement then { c with rp := c.rp.update id } else c, some id)
  | none => (c, none)

def preinsert (c : CareArray) (lineAddr : Address) : CareArray × Nat :=
  let (rp, candidate) := c.rp.rank lineAddr (c.candidates lineAddr)
  ({ c with rp := rp }, candidate)

def postinsert (c : CareArray) (lineAddr : Address) (candidate : Nat) : CareArray :=
  { c with
    array := Function.update c.array candidate lineAddr
    rp := (c.rp.replaced candidate).update candidate }

/-- One access: a lookup, and an insertion when it misses. -/
def access (c : CareArray) (lineAddr : Address) : CareArray :=
  match c.lookup lineAddr true with
  | (c, some _) => c
  | (c, none) =>
    let (c, candidate) := c.preinsert lineAddr
    c.postinsert lineAddr candidate

/-- The slot that an access which misses fills. -/
def victim (c : CareArray) (lineAddr : Address) : Nat := (c.preinsert lineAddr).2

end CareArray

end ZSim
