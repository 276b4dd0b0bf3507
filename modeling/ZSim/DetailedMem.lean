import Mathlib.Algebra.Order.Ring.Nat
import Mathlib.Data.List.Sort
import Mathlib.Logic.Function.Basic
import Mathlib.Tactic

/-! The detailed memory model: one channel with its ranks and the log of its data bus. Cycles
are natural numbers; a failed assert, a division by zero and an index outside an array are
`none`. Addresses come decoded, and the power and burst counters are left out. -/

namespace ZSim

inductive MemAccessType
  | READ | WRITE
  deriving DecidableEq

inductive RowBufferPolicy
  | RB_OPEN | RB_CLOSE
  deriving DecidableEq

structure MemParam where
  bankCount : Nat
  accessLogDepth : Nat
  powerDownCycle : Nat
  rowBufferPolicy : RowBufferPolicy
  mergeContinuous : Bool
  tRC : Nat
  tRAS : Nat
  tRCD : Nat
  tRP : Nat
  tRPab : Nat
  tRTRS : Nat
  tRRD : Nat
  tWR : Nat
  tWTR : Nat
  tCAS : Nat
  tCWD : Nat
  tCCD : Nat
  tTrans : Nat
  tXP : Nat
  tREFI : Nat
  tRFC : Nat
  tFAW : Nat
  tRTP : Nat

namespace MemParam

/-- The parameters that an empty configuration file gives. -/
def default : MemParam where
  bankCount := 2
  accessLogDepth := 4
  powerDownCycle := 50
  rowBufferPolicy := .RB_CLOSE
  mergeContinuous := false
  tRC := 1
  tRAS := 1
  tRCD := 1
  tRP := 1
  tRPab := 1
  tRTRS := 1
  tRRD := 1
  tWR := 1
  tWTR := 1
  tCAS := 1
  tCWD := 1
  tCCD := 1
  tTrans := 4
  tXP := 1
  tREFI := 1
  tRFC := 1
  tFAW := 1
  tRTP := 1

variable (p : MemParam)

def tTransCrit : Nat := p.tTrans / 4

def getDataLatency : MemAccessType → Nat
  | .READ => p.tCAS
  | .WRITE => p.tCWD

def getDataDelay (type : MemAccessType) : Nat := p.getDataLatency type + p.tTransCrit

def getDataSlot (_ : MemAccessType) : Nat := p.tTrans

def getPreDelay : MemAccessType → Nat
  | .READ => p.tRTP
  | .WRITE => p.tCWD + p.tTrans + p.tWR

def getRefreshCycle : Nat :=
  match p.rowBufferPolicy with
  | .RB_OPEN => p.tRFC + p.tRPab
  | .RB_CLOSE => p.tRFC

/-- The table of `MakeConstraints`, at the index made of the last type and the type. -/
def getRdWrDelay (type lastType : MemAccessType) : Nat :=
  match lastType, type with
  | .READ, .READ => max p.tTrans p.tCCD
  -- the difference is taken in `uint32_t`
  | .READ, .WRITE => (p.tCAS + p.tCCD / 2 + 2 + 2 ^ 32 - p.tCWD) % 2 ^ 32
  | .WRITE, .READ => p.tCWD + p.tTrans + p.tWTR
  | .WRITE, .WRITE => max p.tCCD p.tTrans

end MemParam

structure MemRank where
  bankinfo : Nat → Bool
  lastType : Nat → MemAccessType
  lastRow : Nat → Nat
  lastActCycle : Nat → Nat
  lastRdWrCycle : Nat → Nat
  lastPreCycle : Nat → Nat
  tFAWCycle : Nat → Nat
  lastBank : Nat
  lastAccessCycle : Nat
  lastRefreshCycle : Nat
  accessInRefresh : Nat
  tFAWIndex : Nat

def MemRank.init : MemRank where
  bankinfo := fun _ => false
  lastType := fun _ => .READ
  lastRow := fun _ => 0
  lastActCycle := fun _ => 0
  lastRdWrCycle := fun _ => 0
  lastPreCycle := fun _ => 0
  tFAWCycle := fun _ => 0
  lastBank := 0
  lastAccessCycle := 0
  lastRefreshCycle := 0
  accessInRefresh := 0
  tFAWIndex := 0

/-- An access with its address decoded by `AddressMap`. -/
structure MemAccess where
  row : Nat
  rank : Nat
  bank : Nat
  type : MemAccessType
  arrivalCycle : Nat

namespace MemRank

variable (p : MemParam) (rk : MemRank)

def getFAWCycle : Option Nat :=
  if rk.tFAWIndex < p.bankCount then some (rk.tFAWCycle rk.tFAWIndex) else none

def setFAWCycle (cycle : Nat) : Option MemRank := do
  let last ← rk.getFAWCycle p
  guard (last ≤ cycle)
  some { rk with
    tFAWCycle := Function.update rk.tFAWCycle rk.tFAWIndex cycle
    tFAWIndex := (rk.tFAWIndex + 1) % 4 }

def setLastActCycle (bank cycle : Nat) : Option MemRank := do
  guard (rk.lastActCycle bank ≤ cycle)
  some { rk with lastActCycle := Function.update rk.lastActCycle bank cycle }

def setLastPreCycle (bank cycle : Nat) : Option MemRank := do
  guard (rk.lastPreCycle bank ≤ cycle)
  some { rk with lastPreCycle := Function.update rk.lastPreCycle bank cycle }

def access (accessCycle issuedCycle row bank : Nat) (type : MemAccessType) : Option MemRank := do
  guard (rk.lastRdWrCycle bank < issuedCycle)
  some { rk with
    lastAccessCycle := max rk.lastAccessCycle accessCycle
    lastRdWrCycle := Function.update rk.lastRdWrCycle bank issuedCycle
    lastRow := Function.update rk.lastRow bank row
    lastType := Function.update rk.lastType bank type
    lastBank := bank }

def refresh (lastCycle : Nat) : Option MemRank := do
  guard (rk.lastRefreshCycle < lastCycle)
  some { rk with bankinfo := fun _ => false, lastRefreshCycle := lastCycle }

def isRowBufferHit (row bank : Nat) : Bool := rk.bankinfo bank && rk.lastRow bank == row

def getPowerDownPenalty (arrivalCycle : Nat) : Nat :=
  if p.powerDownCycle ≠ 0 ∧ rk.lastAccessCycle + p.powerDownCycle < arrivalCycle then p.tXP else 0

/-- `UpdateRefreshNum`, in `uint32_t`. -/
def updateRefreshNum (arrivalCycle : Nat) : Option Nat :=
  if rk.lastRefreshCycle ≤ arrivalCycle then
    if p.tREFI = 0 then none
    else some ((arrivalCycle - rk.lastRefreshCycle) / p.tREFI % 2 ^ 32)
  else some 0

def updateLastRefreshCycle (refreshNum : Nat) : Option MemRank :=
  if 0 < refreshNum then rk.refresh (rk.lastRefreshCycle + p.tREFI * refreshNum % 2 ^ 32)
  else some rk

/-- The refreshes that came due before the access. -/
def refreshed (arrivalCycle : Nat) : Option (MemRank × Nat) := do
  let refreshNum ← rk.updateRefreshNum p arrivalCycle
  let rk ← rk.updateLastRefreshCycle p refreshNum
  some (rk, refreshNum)

def checkContinuousAccess (arrivalCycle bank row : Nat) : Bool :=
  p.mergeContinuous && (arrivalCycle < rk.lastPreCycle bank && rk.lastRow bank == row)

/-- How many accesses in a row found the last access of the rank inside a refresh. -/
def countInRefresh (refreshNum : Nat) : Nat :=
  let before := if refreshNum = 0 then 0 else rk.accessInRefresh
  if rk.lastRefreshCycle ≠ 0 ∧ rk.lastAccessCycle - rk.lastRefreshCycle ≤ p.getRefreshCycle ∧
      rk.lastRefreshCycle ≤ rk.lastAccessCycle then before + 1 else 0

def calcIntraIssueCycle (rowHit : Bool) (type : MemAccessType) (arrivalCycle refreshNum : Nat) :
    Nat :=
  let lastType := rk.lastType rk.lastBank
  let accessInRefresh := rk.countInRefresh p refreshNum
  if accessInRefresh ≠ 0 then
    let refOverlap := rk.lastAccessCycle - rk.lastRefreshCycle
    let issuableCycle :=
      max (rk.lastRefreshCycle + p.getRefreshCycle + refOverlap) arrivalCycle
    if 2 ≤ accessInRefresh then issuableCycle + p.getRdWrDelay type lastType else issuableCycle
  else
    let lastIssuedCycle := rk.lastRdWrCycle rk.lastBank
    if lastIssuedCycle ≠ 0 then
      max (lastIssuedCycle + if rowHit then p.getRdWrDelay type lastType else 1) arrivalCycle
    else arrivalCycle

/-- The write that `CalcIntraIssueCycle` leaves in the rank. -/
def noteInRefresh (refreshNum : Nat) : MemRank :=
  { rk with accessInRefresh := rk.countInRefresh p refreshNum }

def latestActCycle : Nat := (List.range p.bankCount).foldl (fun c i => max c (rk.lastActCycle i)) 0

def calcActConst (bank issuableCycle : Nat) : Option Nat :=
  if rk.lastActCycle bank = 0 then some issuableCycle
  else do
    let updateCycle := max issuableCycle (rk.lastActCycle bank + p.tRC)
    let updateCycle :=
      if rk.lastPreCycle bank ≠ 0 then max updateCycle (rk.lastPreCycle bank + p.tRP)
      else updateCycle
    let updateCycle := max updateCycle (rk.latestActCycle p + p.tRRD)
    let faw ← rk.getFAWCycle p
    some (max updateCycle (faw + p.tFAW))

def calcPreConst (bank : Nat) (type : MemAccessType) (issuableCycle : Nat) : Nat :=
  max (max issuableCycle (rk.lastRdWrCycle bank + p.getPreDelay type))
    (rk.lastActCycle bank + p.tRAS)

def calcRdWrConst (type : MemAccessType) (issuableCycle : Nat) : Nat :=
  max issuableCycle
    (rk.lastRdWrCycle rk.lastBank + p.getRdWrDelay type (rk.lastType rk.lastBank))

def issueActivate (bank issuedCycle : Nat) : Option MemRank := do
  let rk ← rk.setFAWCycle p issuedCycle
  let rk ← rk.setLastActCycle bank issuedCycle
  some { rk with bankinfo := Function.update rk.bankinfo bank true }

def issuePrecharge (bank issuedCycle : Nat) : Option MemRank := do
  let rk ← rk.setLastPreCycle bank issuedCycle
  some { rk with bankinfo := Function.update rk.bankinfo bank false }

/-- The row commands of an access up to the point where its activate may be issued: the rank,
the cycle of the activate if there is one, and whether the access continues the last one. -/
def prepareRow (a : MemAccess) (refreshNum : Nat) : Option (MemRank × Option Nat × Bool) :=
  let rowHit := rk.isRowBufferHit a.row a.bank
  let issueCycle := rk.calcIntraIssueCycle p rowHit a.type a.arrivalCycle refreshNum
  match p.rowBufferPolicy with
  | .RB_OPEN =>
    if rowHit then some (rk, none, false)
    else
      let rk := rk.noteInRefresh p refreshNum
      if rk.bankinfo a.bank then do
        let preIssueCycle := rk.calcPreConst p a.bank (rk.lastType a.bank) issueCycle
        guard (issueCycle ≤ preIssueCycle)
        let rk ← rk.issuePrecharge a.bank preIssueCycle
        some (rk, some (preIssueCycle + p.tRP), false)
      else some (rk, some issueCycle, false)
  | .RB_CLOSE => do
    guard (rowHit = false)
    if rk.checkContinuousAccess p a.arrivalCycle a.bank a.row then some (rk, none, true)
    else some (rk.noteInRefresh p refreshNum, some issueCycle, false)

def activateRow (a : MemAccess) : Option Nat → Option (MemRank × Option Nat)
  | none => some (rk, none)
  | some actIssueCycle => do
    let actIssueCycle ← rk.calcActConst p a.bank actIssueCycle
    let rk ← rk.issueActivate p a.bank actIssueCycle
    guard (a.arrivalCycle ≤ actIssueCycle)
    some (rk, some actIssueCycle)

/-- Where the search for a read or write slot starts. -/
def startRdWr (a : MemAccess) (refreshNum : Nat) (rowHit continuous : Bool) :
    Option Nat → Option (MemRank × Nat)
  | some actIssueCycle => some (rk, rk.calcRdWrConst p a.type (actIssueCycle + p.tRCD))
  | none =>
    if continuous then some (rk, rk.calcRdWrConst p a.type a.arrivalCycle)
    else do
      guard (rowHit = true ∧ p.rowBufferPolicy = .RB_OPEN)
      some (rk.noteInRefresh p refreshNum,
        rk.calcIntraIssueCycle p rowHit a.type a.arrivalCycle refreshNum)

/-- The precharge with which the closed-row policy ends each access. -/
def closeRow (a : MemAccess) (rdwrIssueCycle : Nat) : Option MemRank :=
  match p.rowBufferPolicy with
  | .RB_OPEN => some rk
  | .RB_CLOSE => do
    let preIssueCycle := rk.calcPreConst p a.bank a.type rdwrIssueCycle
    guard (rdwrIssueCycle ≤ preIssueCycle)
    rk.issuePrecharge a.bank preIssueCycle

end MemRank

/-- The order of `std::pair`. -/
def busLe (x y : Nat × Nat) : Prop := x.1 < y.1 ∨ x.1 = y.1 ∧ x.2 ≤ y.2

instance : DecidableRel busLe := fun _ _ => inferInstanceAs (Decidable (_ ∨ _))

/-- The loop of `CalcInterIssueCycle`: the first start from `tStart` on whose slot the log
leaves free. -/
def searchSlot (tRTRS tSlot : Nat) : List (Nat × Nat) → Nat → Nat
  | [], tStart => tStart
  | (busStart, busEnd) :: log, tStart =>
    if busStart < tStart + tSlot ∧ tStart + tSlot ≤ busEnd + tRTRS ∨
        busStart ≤ tStart ∧ tStart < busEnd + tRTRS then
      searchSlot tRTRS tSlot log (busEnd + tRTRS)
    else if tStart + tSlot < busStart then tStart
    else searchSlot tRTRS tSlot log tStart

theorem le_searchSlot {tRTRS tSlot : Nat} {log : List (Nat × Nat)} {tStart : Nat} :
    tStart ≤ searchSlot tRTRS tSlot log tStart := by
  induction log generalizing tStart with
  | nil => exact Nat.le_refl _
  | cons x log ih =>
    obtain ⟨busStart, busEnd⟩ := x
    rw [searchSlot]
    split_ifs with hbusy hlate
    · exact Nat.le_trans (by omega) ih
    · exact Nat.le_refl _
    · exact ih

structure MemChannel where
  ranks : Nat → MemRank
  accessLog : List (Nat × Nat)

/-- What an access issued: its activate if it had one, its read or write, the power-down
penalty it paid and the interval it recorded for the data bus. -/
structure MemIssue where
  arrivalCycle : Nat
  rank : Nat
  bank : Nat
  type : MemAccessType
  act : Option Nat
  rdwr : Nat
  pd_penalty : Nat
  bus : Nat × Nat
  latency : Nat

namespace MemChannel

variable (p : MemParam) (c : MemChannel)

def init : MemChannel := ⟨fun _ => MemRank.init, []⟩

def calcInterIssueCycle (type : MemAccessType) (arrivalCycle : Nat) : Nat :=
  let tWait := p.getDataLatency type
  searchSlot p.tRTRS (p.getDataSlot type + p.tRTRS) c.accessLog (arrivalCycle + tWait) - tWait

def updateDataBusCycle (start busEnd : Nat) : Option (List (Nat × Nat)) :=
  let log := (c.accessLog ++ [(start, busEnd)]).insertionSort busLe
  if p.accessLogDepth < log.length then
    match log.tail with
    | [] => none
    | x :: log => some ((0, x.2) :: log)
  else some log

/-- `LatencySimulate` up to the slot of the read or write: the rank with the row commands
issued, the cycle of the activate if there is one, and the cycle of the read or write. -/
def issueCommands (a : MemAccess) : Option (MemRank × Option Nat × Nat) := do
  let (rk, refreshNum) ← (c.ranks a.rank).refreshed p a.arrivalCycle
  let rowHit := rk.isRowBufferHit a.row a.bank
  let (rk, act, continuous) ← rk.prepareRow p a refreshNum
  let (rk, act) ← rk.activateRow p a act
  let (rk, rdwrStart) ← rk.startRdWr p a refreshNum rowHit continuous act
  guard (a.arrivalCycle ≤ rdwrStart)
  let rdwrIssueCycle := c.calcInterIssueCycle p a.type rdwrStart
  guard (a.arrivalCycle ≤ rdwrIssueCycle)
  some (rk, act, rdwrIssueCycle)

/-- The rest of `LatencySimulate`. -/
def recordAccess (a : MemAccess) (rk : MemRank) (act : Option Nat)
    (rdwrIssueCycle pd_penalty : Nat) : Option (MemChannel × MemIssue) := do
  let issueDelay := rdwrIssueCycle - a.arrivalCycle
  let latency := issueDelay + p.getDataDelay a.type + pd_penalty
  let latency_mem := latency + (p.tTrans - p.tTransCrit)
  let rk ← rk.access (a.arrivalCycle + latency_mem) rdwrIssueCycle a.row a.bank a.type
  let rk ← rk.closeRow p a rdwrIssueCycle
  let busEndCycle := a.arrivalCycle + latency_mem
  let busStartCycle := busEndCycle - p.getDataSlot a.type
  let log ← c.updateDataBusCycle p busStartCycle busEndCycle
  some (⟨Function.update c.ranks a.rank rk, log⟩,
    ⟨a.arrivalCycle, a.rank, a.bank, a.type, act, rdwrIssueCycle, pd_penalty,
      (busStartCycle, busEndCycle), latency⟩)

def latencySimulate (a : MemAccess) : Option (MemChannel × MemIssue) := do
  let pd_penalty := (c.ranks a.rank).getPowerDownPenalty p a.arrivalCycle
  let (rk, act, rdwrIssueCycle) ← c.issueCommands p a
  c.recordAccess p a rk act rdwrIssueCycle pd_penalty

variable {p c}

theorem le_calcInterIssueCycle {type : MemAccessType} {cycle : Nat} :
    cycle ≤ c.calcInterIssueCycle p type cycle :=
  Nat.le_sub_of_add_le le_searchSlot

/-- The data of an access end a transfer after their latency, and after the penalty. -/
theorem busEnd_eq {type : MemAccessType} {arrivalCycle rdwr penalty : Nat}
    (h : arrivalCycle ≤ rdwr) :
    arrivalCycle + (rdwr - arrivalCycle + p.getDataDelay type + penalty +
      (p.tTrans - p.tTransCrit)) = rdwr + p.getDataLatency type + p.tTrans + penalty := by
  have : p.tTransCrit ≤ p.tTrans := Nat.div_le_self _ _
  rw [MemParam.getDataDelay]
  omega

theorem updateDataBusCycle_eq_some (h : 0 < p.accessLogDepth) (start busEnd : Nat) :
    ∃ log, c.updateDataBusCycle p start busEnd = some log := by
  rw [updateDataBusCycle]
  split_ifs with hlen
  · cases htail : ((c.accessLog ++ [(start, busEnd)]).insertionSort busLe).tail with
    | nil =>
      have := congrArg List.length htail
      rw [List.length_tail, List.length_nil] at this
      omega
    | cons x log => exact ⟨_, rfl⟩
  · exact ⟨_, rfl⟩

/-- The access does not arrive before the ones issued. -/
def InOrder (issues : List MemIssue) (_ : MemChannel) (a : MemAccess) : Prop :=
  ∀ i ∈ issues, i.arrivalCycle ≤ a.arrivalCycle

/-- The runs of accesses that each meet a condition on the issues before, newest first, the
channel and the access. -/
inductive Run (p : MemParam) (Cond : List MemIssue → MemChannel → MemAccess → Prop) :
    MemChannel → List MemIssue → Prop
  | init : Run p Cond init []
  | step {c c' : MemChannel} {issues : List MemIssue} {a : MemAccess} {i : MemIssue} :
      Run p Cond c issues → a.bank < p.bankCount → Cond issues c a →
      c.latencySimulate p a = some (c', i) → Run p Cond c' (i :: issues)

end MemChannel

end ZSim
