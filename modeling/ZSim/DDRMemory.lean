import Mathlib.Algebra.Order.Ring.Nat
import Mathlib.Logic.Function.Basic
import Mathlib.Order.WithBot

/-! A single-channel DDR controller: its request queues, the commands it schedules, and the
scheduling events that wake it up. Cycles are natural numbers (the translations between
system and memory cycles are used within their 64-bit range) and `⊤` is the cycle `-1ul`. A
failed assert is `none`. -/

namespace ZSim

inductive DDRTech
  | DDR3_1333_CL10 | DDR3_1066_CL7 | DDR3_1066_CL8
  deriving DecidableEq

/-- The timing parameters, in memory cycles, with the asserts of `initTech` and `refresh`. -/
structure DDRTiming where
  tBL : Nat
  tCL : Nat
  tRCD : Nat
  tRTP : Nat
  tRP : Nat
  tRRD : Nat
  tRAS : Nat
  tFAW : Nat
  tWTR : Nat
  tWR : Nat
  tRFC : Nat
  tREFI : Nat
  set : ∀ t ∈ [tBL, tCL, tRCD, tRTP, tRP, tRRD, tRAS, tFAW, tWTR, tWR, tRFC, tREFI], 0 < t
  refresh : tRP ≤ tRFC

def DDRTech.memFreqKHz : DDRTech → Nat
  | .DDR3_1333_CL10 => 666666
  | .DDR3_1066_CL7 => 533333
  | .DDR3_1066_CL8 => 533333

/-- The parameters of a technology for lines of 64 bytes. -/
def DDRTech.timing : DDRTech → DDRTiming
  | .DDR3_1333_CL10 => ⟨4, 10, 10, 5, 10, 4, 24, 20, 5, 10, 74, 5200, by decide, by decide⟩
  | .DDR3_1066_CL7 => ⟨4, 7, 7, 4, 7, 4, 18, 18, 4, 7, 59, 4160, by decide, by decide⟩
  | .DDR3_1066_CL8 => ⟨4, 8, 8, 4, 8, 4, 20, 20, 4, 8, 59, 4160, by decide, by decide⟩

/-- The configuration, with the check of the constructor on the frequencies. -/
structure DDRConfig where
  timing : DDRTiming
  sysFreqKHz : Nat
  memFreqKHz : Nat
  ranksPerChannel : Nat
  banksPerRank : Nat
  colShift : Nat
  colMask : Nat
  rankShift : Nat
  rankMask : Nat
  bankShift : Nat
  bankMask : Nat
  rowShift : Nat
  controllerSysLatency : Nat
  queueDepth : Nat
  rowHitLimit : Nat
  deferredWrites : Bool
  closedPage : Bool
  memFreq_pos : 0 < memFreqKHz
  freq : memFreqKHz < sysFreqKHz / 2

structure AddrLoc where
  row : Nat
  bank : Nat
  rank : Nat
  col : Nat

def AddrLoc.pos (l : AddrLoc) : Nat × Nat := (l.rank, l.bank)

/-- A request. It is known by the number of its access event, which `ev` points to until the
event is answered. -/
structure DDRRequest where
  addr : Nat
  loc : AddrLoc
  write : Bool
  rowHitSeq : Nat
  arrivalCycle : Nat
  startSysCycle : Nat
  ev : Option Nat

namespace DDRConfig

variable (cfg : DDRConfig)

def sysToMemCycle (sysCycle : Nat) : Nat := sysCycle * cfg.memFreqKHz / cfg.sysFreqKHz + 1

def memToSysCycle (memCycle : Nat) : Nat := (memCycle + 1) * cfg.sysFreqKHz / cfg.memFreqKHz

def matchingMemToSysCycle (memCycle : Nat) : Nat :=
  (2 * memCycle - 1) * cfg.sysFreqKHz / cfg.memFreqKHz / 2

def minRdLatency : Nat :=
  cfg.controllerSysLatency + cfg.memToSysCycle (cfg.timing.tCL + cfg.timing.tBL - 1)

def minWrLatency : Nat := cfg.controllerSysLatency

def preDelay : Nat := cfg.controllerSysLatency

def postDelayRd : Nat := cfg.minRdLatency - cfg.preDelay

def postDelayWr (_ : DDRConfig) : Nat := 0

def mapLineAddr (lineAddr : Nat) : Option AddrLoc :=
  let l : AddrLoc :=
    { col := (lineAddr >>> cfg.colShift) &&& cfg.colMask
      rank := (lineAddr >>> cfg.rankShift) &&& cfg.rankMask
      bank := (lineAddr >>> cfg.bankShift) &&& cfg.bankMask
      row := lineAddr >>> cfg.rowShift }
  if l.rank < cfg.ranksPerChannel ∧ l.bank < cfg.banksPerRank then some l else none

end DDRConfig

/-- The circular buffer of the last activations of a rank. -/
structure ActWindow where
  size : Nat
  buf : Nat → Nat
  idx : Nat

namespace ActWindow

def init (size : Nat) : ActWindow := ⟨size, fun _ => 0, 0⟩

def inc (w : ActWindow) (i : Nat) : Nat := if i < w.size - 1 then i + 1 else 0

def dec (w : ActWindow) (i : Nat) : Nat := if i ≠ 0 then i - 1 else w.size - 1

def minActCycle (w : ActWindow) : Nat := w.buf w.idx

/-- The loop of `addActivation`. It ends at the latest when it is back at the oldest entry, after
as many turns as the buffer has entries. -/
def reorder (w : ActWindow) (actCycle : Nat) : Nat → (Nat → Nat) → Nat → (Nat → Nat) × Nat
  | 0, buf, cur => (buf, cur)
  | fuel + 1, buf, cur =>
    if actCycle < buf (w.dec cur) then
      let buf' := Function.update buf cur (buf (w.dec cur))
      if w.dec cur = w.idx then (buf', w.dec cur)
      else w.reorder actCycle fuel buf' (w.dec cur)
    else (buf, cur)

def addActivation (w : ActWindow) (actCycle : Nat) : Option ActWindow :=
  if w.buf w.idx ≤ actCycle then
    let (buf, cur) := w.reorder actCycle w.size w.buf w.idx
    some { w with buf := Function.update buf cur actCycle, idx := w.inc w.idx }
  else none

end ActWindow

structure Bank where
  openRow : Nat
  isOpen : Bool
  minPreCycle : Nat
  lastActCycle : Nat
  lastCmdCycle : Nat
  curRowHits : Nat

/-- The commands that the controller schedules: an ACT, a RD or WR, or the start of a
refresh. -/
inductive DDRCommand
  | act (pos : Nat × Nat) (row cycle : Nat)
  | col (pos : Nat × Nat) (row cycle : Nat)
  | ref (start : Nat)
  deriving DecidableEq

/-- The controller. `queues` and `bankQueues` hold the read requests at `false` and the write
requests at `true`. The last four fields are records: the events that were enqueued, the
responses with their cycles, the requests issued, and the commands, newest first. -/
structure DDRCtl where
  reqs : Nat → DDRRequest
  queues : Bool → List Nat
  bankQueues : Bool → Nat × Nat → List Nat
  overflowQueue : List Nat
  banks : Nat × Nat → Bank
  rankActWindows : Nat → ActWindow
  minRespCycle : Nat
  lastCmdWasWrite : Bool
  arrived : List Nat
  answered : List (Nat × Nat)
  served : List Nat
  cmds : List DDRCommand

namespace DDRCtl

variable (cfg : DDRConfig)

def init : DDRCtl where
  reqs := fun _ => ⟨0, ⟨0, 0, 0, 0⟩, false, 0, 0, 0, none⟩
  queues := fun _ => []
  bankQueues := fun _ _ => []
  overflowQueue := []
  banks := fun _ => ⟨0, false, 0, 0, 0, 0⟩
  rankActWindows := fun _ => ActWindow.init 4
  minRespCycle := cfg.timing.tCL + cfg.timing.tBL + 1
  lastCmdWasWrite := false
  arrived := []
  answered := []
  served := []
  cmds := []

def setReq (s : DDRCtl) (id : Nat) (r : DDRRequest) : DDRCtl :=
  { s with reqs := Function.update s.reqs id r }

def setBank (s : DDRCtl) (pos : Nat × Nat) (bank : Bank) : DDRCtl :=
  { s with banks := Function.update s.banks pos bank }

def setQueue (s : DDRCtl) (w : Bool) (q : List Nat) : DDRCtl :=
  { s with queues := Function.update s.queues w q }

def setBankQueue (s : DDRCtl) (w : Bool) (pos : Nat × Nat) (q : List Nat) : DDRCtl :=
  { s with bankQueues :=
      Function.update s.bankQueues w (Function.update (s.bankQueues w) pos q) }

def answer (s : DDRCtl) (ev cycle : Nat) : DDRCtl :=
  { s with answered := (ev, cycle) :: s.answered }

def empty (s : DDRCtl) (w : Bool) : Bool := (s.queues w).isEmpty

def full (s : DDRCtl) (w : Bool) : Bool := decide (cfg.queueDepth ≤ (s.queues w).length)

def useWrQueue (s : DDRCtl) (id : Nat) : Bool := cfg.deferredWrites && (s.reqs id).write

/-- A request is first in its bank (`!req->prev`). -/
def isFirst (s : DDRCtl) (w : Bool) (id : Nat) : Bool :=
  (s.bankQueues w (s.reqs id).loc.pos).head? == some id

/-- `InList::insertAfter`. -/
def insertAfter (m id : Nat) : List Nat → List Nat
  | [] => []
  | x :: q => if x = m then x :: id :: q else x :: insertAfter m id q

/-- The place of a new request in its bank queue, and its `rowHitSeq`: after the last access
to the same row, unless too many in a row hit it. -/
def place (s : DDRCtl) (id : Nat) (q : List Nat) : Nat × List Nat :=
  let r := s.reqs id
  let bank := s.banks r.loc.pos
  match q.reverse.find? (fun m => (s.reqs m).loc.row = r.loc.row) with
  | some m =>
    if (s.reqs m).rowHitSeq < cfg.rowHitLimit then
      ((s.reqs m).rowHitSeq + 1, insertAfter m id q)
    else (0, q ++ [id])
  | none =>
    if bank.isOpen ∧ r.loc.row = bank.openRow ∧ bank.curRowHits < cfg.rowHitLimit ∧ q = [] then
      (bank.curRowHits + 1, id :: q)
    else (0, q ++ [id])

/-- The response of a write, which comes as it is queued. -/
def respondWrite (s : DDRCtl) (id memCycle : Nat) : DDRCtl :=
  let r := s.reqs id
  match r.write, r.ev with
  | true, some ev =>
    let respCycle := cfg.memToSysCycle memCycle + cfg.minWrLatency
    (s.setReq id { r with ev := none }).answer ev (respCycle - cfg.preDelay - cfg.postDelayWr)
  | _, _ => s

def queue (s : DDRCtl) (id memCycle : Nat) : DDRCtl :=
  let s := s.respondWrite cfg id memCycle
  let w := s.useWrQueue cfg id
  let pos := (s.reqs id).loc.pos
  let (rowHitSeq, q) := s.place cfg id (s.bankQueues w pos)
  (s.setReq id { s.reqs id with arrivalCycle := memCycle, rowHitSeq := rowHitSeq }).setBankQueue
    w pos q

def rowHit (s : DDRCtl) (r : DDRRequest) : Bool :=
  decide (r.loc.row = (s.banks r.loc.pos).openRow) && (s.banks r.loc.pos).isOpen

def preCycle (s : DDRCtl) (r : DDRRequest) : Nat :=
  let bank := s.banks r.loc.pos
  if bank.isOpen then max r.arrivalCycle bank.minPreCycle else bank.minPreCycle

/-- The cycle of the ACT of a request that is not a row hit, which `findMinCmdCycle` and
`trySchedule` both compute. -/
def actCycle (s : DDRCtl) (r : DDRRequest) : Nat :=
  let bank := s.banks r.loc.pos
  max (max r.arrivalCycle
      (max (s.preCycle r + cfg.timing.tRP) (bank.lastActCycle + cfg.timing.tRRD)))
    ((s.rankActWindows r.loc.rank).minActCycle + cfg.timing.tFAW)

def findMinCmdCycle (s : DDRCtl) (r : DDRRequest) : Nat :=
  if s.rowHit r then max r.arrivalCycle ((s.banks r.loc.pos).lastCmdCycle + 1)
  else s.actCycle cfg r + cfg.timing.tRCD

/-- `std::min` with a cycle that is not `-1ul`. -/
def minCycle (a : WithTop Nat) (b : Nat) : WithTop Nat :=
  if WithTop.some b < a then WithTop.some b else a

/-- The scan of a queue for the first request in its bank that is ready, with the minimum of
the cycles it saw. -/
def findReady (s : DDRCtl) (w : Bool) (curCycle : Nat) :
    List Nat → WithTop Nat → Option Nat × WithTop Nat
  | [], minSchedCycle => (none, minSchedCycle)
  | id :: ir, minSchedCycle =>
    if s.isFirst w id then
      let minCmdCycle := s.findMinCmdCycle cfg (s.reqs id)
      if minCmdCycle ≤ curCycle then (some id, minCycle minSchedCycle minCmdCycle)
      else s.findReady w curCycle ir (minCycle minSchedCycle minCmdCycle)
    else s.findReady w curCycle ir minSchedCycle

def activate (s : DDRCtl) (r : DDRRequest) : Option DDRCtl :=
  let bank := s.banks r.loc.pos
  let actCycle := s.actCycle cfg r
  match (s.rankActWindows r.loc.rank).addActivation actCycle with
  | none => none
  | some window =>
    some { s.setBank r.loc.pos { bank with
          isOpen := true
          openRow := r.loc.row
          minPreCycle := if bank.isOpen then s.preCycle r + cfg.timing.tRAS else bank.minPreCycle
          lastActCycle := actCycle } with
      rankActWindows := Function.update s.rankActWindows r.loc.rank window
      cmds := .act r.loc.pos r.loc.row actCycle :: s.cmds }

/-- Whether the request after the first one of a bank queue is a row hit. -/
def nextHits (s : DDRCtl) : List Nat → Bool
  | _ :: next :: _ => (s.reqs next).rowHitSeq != 0
  | _ => false

/-- The response of a read; a write has none left. -/
def respondRead (s : DDRCtl) (id sysCycle : Nat) : Option DDRCtl :=
  let r := s.reqs id
  match r.ev with
  | none => some s
  | some ev =>
    let doneSysCycle := cfg.memToSysCycle s.minRespCycle + cfg.controllerSysLatency
    if r.write = false ∧ sysCycle ≤ doneSysCycle then
      some (s.answer ev (doneSysCycle - cfg.preDelay - cfg.postDelayRd))
    else none

/-- The bank after a RD or WR at `cmdCycle` for `r`, with its data done at `minRespCycle`. -/
def bankAfter (s : DDRCtl) (w : Bool) (r : DDRRequest) (cmdCycle minRespCycle : Nat) : Bank :=
  let bank := s.banks r.loc.pos
  { bank with
    isOpen := bank.isOpen && !(cfg.closedPage && !s.nextHits (s.bankQueues w r.loc.pos))
    minPreCycle := max bank.minPreCycle (max (bank.lastActCycle + cfg.timing.tRAS)
      (if r.write then minRespCycle + cfg.timing.tWR else cmdCycle + cfg.timing.tRTP))
    lastCmdCycle := cmdCycle
    curRowHits := r.rowHitSeq }

/-- The RD or WR of a request at the first cycle from `minCmdCycle`, its response, and its end
in the queues. -/
def access (s : DDRCtl) (w : Bool) (id minCmdCycle sysCycle : Nat) : Option DDRCtl :=
  let r := s.reqs id
  let cmdCycle := max minCmdCycle (s.minRespCycle - cfg.timing.tCL)
  let minRespCycle := cmdCycle + cfg.timing.tCL + cfg.timing.tBL
  if (s.banks r.loc.pos).lastCmdCycle < cmdCycle then
    let s' := { s.setBank r.loc.pos (s.bankAfter cfg w r cmdCycle minRespCycle) with
      minRespCycle := minRespCycle
      lastCmdWasWrite := r.write
      cmds := .col r.loc.pos r.loc.row cmdCycle :: s.cmds }
    (s'.respondRead cfg id sysCycle).map fun s' =>
      { (s'.setQueue w ((s'.queues w).erase id)).setBankQueue w r.loc.pos
          (s'.bankQueues w r.loc.pos).tail with
        served := id :: s'.served }
  else none

/-- `trySchedule` once it has found a request. -/
def issue (s : DDRCtl) (w : Bool) (id curCycle sysCycle : Nat) : Option DDRCtl :=
  let r := s.reqs id
  let minCmdCycle := max curCycle (s.minRespCycle - cfg.timing.tCL)
  let minCmdCycle := if s.lastCmdWasWrite && !r.write then
      max minCmdCycle (s.minRespCycle + cfg.timing.tWTR)
    else minCmdCycle
  if s.rowHit r then s.access cfg w id minCmdCycle sysCycle
  else
    match s.activate cfg r with
    | none => none
    | some s' => s'.access cfg w id (max minCmdCycle (s.actCycle cfg r + cfg.timing.tRCD)) sysCycle

/-- Whether `trySchedule` takes from the write queue. -/
def isWriteQueue (s : DDRCtl) : Bool :=
  let size := (s.queues true).length
  let prioWrites := decide (3 * cfg.queueDepth % 2 ^ 32 / 4 < size) ||
    s.lastCmdWasWrite && decide (cfg.queueDepth / 4 < size)
  s.empty false || prioWrites

def trySchedule (s : DDRCtl) (curCycle sysCycle : Nat) : Option (DDRCtl × WithTop Nat) :=
  if s.empty false && s.empty true then some (s, ⊤)
  else if curCycle + cfg.timing.tCL < s.minRespCycle then
    some (s, WithTop.some (s.minRespCycle - cfg.timing.tCL))
  else
    let w := s.isWriteQueue cfg
    if s.empty w then none
    else
      match s.findReady cfg w curCycle (s.queues w) ⊤ with
      | (none, minSchedCycle) => some (s, minSchedCycle)
      | (some id, _) =>
        (s.issue cfg w id curCycle sysCycle).map fun s' =>
          (s', if s'.empty false && s'.empty true then ⊤
            else WithTop.some (s'.minRespCycle - cfg.timing.tCL))

/-- The part of `tick` that takes a request from the overflow queue. -/
def drain (s : DDRCtl) (memCycle : Nat) (minSchedCycle : WithTop Nat) : DDRCtl × WithTop Nat :=
  match s.overflowQueue with
  | [] => (s, minSchedCycle)
  | id :: rest =>
    if !s.full cfg false && !s.full cfg true then
      let w := s.useWrQueue cfg id
      let s := { s with overflowQueue := rest }
      let s := (s.setQueue w (s.queues w ++ [id])).queue cfg id memCycle
      if s.isFirst w id then
        let minQueuedSchedCycle := max memCycle (s.minRespCycle - cfg.timing.tCL - cfg.timing.tBL)
        let minSchedCycle := if WithTop.some minQueuedSchedCycle < minSchedCycle then
            WithTop.some (max minQueuedSchedCycle (s.findMinCmdCycle cfg (s.reqs id)))
          else minSchedCycle
        (s, if WithTop.some minQueuedSchedCycle < minSchedCycle then
            WithTop.some minQueuedSchedCycle
          else minSchedCycle)
      else (s, minSchedCycle)
    else (s, minSchedCycle)

/-- The cycle that all banks can be refreshed from. -/
def minRefreshCycle (s : DDRCtl) (memCycle : Nat) : Nat :=
  (List.range cfg.ranksPerChannel).foldl (fun m rank =>
    (List.range cfg.banksPerRank).foldl (fun m bank =>
      max m (max (s.banks (rank, bank)).minPreCycle (s.banks (rank, bank)).lastCmdCycle)) m)
    memCycle

def refresh (s : DDRCtl) (sysCycle : Nat) : DDRCtl :=
  let start := s.minRefreshCycle cfg (cfg.sysToMemCycle sysCycle)
  let refreshDoneCycle := start + cfg.timing.tRFC
  { s with
    banks := fun pos =>
      if pos.1 < cfg.ranksPerChannel ∧ pos.2 < cfg.banksPerRank then
        { s.banks pos with
          minPreCycle := refreshDoneCycle - cfg.timing.tRP
          isOpen := false }
      else s.banks pos
    cmds := .ref start :: s.cmds }

/-- The first part of `enqueue`; the flag tells whether the request was queued. -/
def arrive (s : DDRCtl) (id addr : Nat) (write : Bool) (sysCycle : Nat) :
    Option (DDRCtl × Bool) :=
  (cfg.mapLineAddr addr).map fun loc =>
    let memCycle := cfg.sysToMemCycle sysCycle
    let overflow := s.full cfg false || s.full cfg true
    let s := { s.setReq id ⟨addr, loc, write, 0, memCycle, sysCycle, some id⟩ with
      arrived := id :: s.arrived }
    let w := s.useWrQueue cfg id
    if overflow then ({ s with overflowQueue := s.overflowQueue ++ [id] }, false)
    else ((s.setQueue w (s.queues w ++ [id])).queue cfg id memCycle, true)

end DDRCtl

inductive SchedEventState
  | IDLE | QUEUED | RUNNING | ANNULLED
  deriving DecidableEq

/-- The scheduling events. `eventFreelist` is the list linked by `next`, and `pending` holds
the events queued for simulation with their system cycles. -/
structure DDRSched where
  events : Nat → SchedEventState
  numEvents : Nat
  eventFreelist : List Nat
  nextSchedEvent : Option Nat
  nextSchedCycle : WithTop Nat
  pending : List (Nat × Nat)

namespace DDRSched

def init : DDRSched := ⟨fun _ => .IDLE, 0, [], none, ⊤, []⟩

def setState (s : DDRSched) (e : Nat) (state : SchedEventState) : DDRSched :=
  { s with events := Function.update s.events e state }

def requeue (s : DDRSched) (e cycle : Nat) : DDRSched :=
  { s with pending := (e, cycle) :: s.pending }

def annul (s : DDRSched) : Option DDRSched :=
  match s.nextSchedEvent with
  | none => some s
  | some e => if s.events e = .QUEUED then some (s.setState e .ANNULLED) else none

/-- An event from the free list, or a new one. -/
def alloc (s : DDRSched) : Nat × DDRSched :=
  match s.eventFreelist with
  | e :: rest => (e, { s with eventFreelist := rest })
  | [] => (s.numEvents, { s.setState s.numEvents .IDLE with numEvents := s.numEvents + 1 })

def enqueue (s : DDRSched) (e cycle : Nat) : Option DDRSched :=
  if s.events e = .IDLE then some ((s.setState e .QUEUED).requeue e cycle) else none

/-- `enqueue` of the controller moves its next event to `minSchedCycle`. -/
def reschedule (cfg : DDRConfig) (s : DDRSched) (minSchedCycle sysCycle : Nat) :
    Option DDRSched :=
  s.annul.bind fun s =>
    let (e, s) := s.alloc
    let enqSysCycle := max (cfg.matchingMemToSysCycle minSchedCycle) sysCycle
    (s.enqueue e enqSysCycle).map fun s =>
      { s with nextSchedEvent := some e, nextSchedCycle := WithTop.some minSchedCycle }

def recycleEvent (s : DDRSched) (e : Nat) : Option DDRSched :=
  if s.nextSchedEvent = some e then none
  else some { s.setState e .IDLE with eventFreelist := e :: s.eventFreelist }

end DDRSched

structure DDRMemory where
  ctl : DDRCtl
  sched : DDRSched

namespace DDRMemory

variable (cfg : DDRConfig)

def init : DDRMemory := ⟨.init cfg, .init⟩

def enqueue (s : DDRMemory) (id addr : Nat) (write : Bool) (sysCycle : Nat) :
    Option DDRMemory :=
  let memCycle := cfg.sysToMemCycle sysCycle
  match s.ctl.arrive cfg id addr write sysCycle with
  | none => none
  | some (ctl, queued) =>
    if queued && ctl.isFirst (ctl.useWrQueue cfg id) id then
      let minSchedCycle := max memCycle (ctl.minRespCycle - cfg.timing.tCL - cfg.timing.tBL)
      let minSchedCycle := if WithTop.some minSchedCycle < s.sched.nextSchedCycle then
          max minSchedCycle (ctl.findMinCmdCycle cfg (ctl.reqs id))
        else minSchedCycle
      if WithTop.some minSchedCycle < s.sched.nextSchedCycle then
        (s.sched.reschedule cfg minSchedCycle sysCycle).map fun sched => ⟨ctl, sched⟩
      else some ⟨ctl, s.sched⟩
    else some ⟨ctl, s.sched⟩

def tick (s : DDRMemory) (sysCycle : Nat) : Option (DDRMemory × Nat) :=
  let memCycle := cfg.sysToMemCycle sysCycle
  if s.sched.nextSchedCycle = WithTop.some memCycle then
    match s.ctl.trySchedule cfg memCycle sysCycle with
    | none => none
    | some (ctl, minSchedCycle) =>
      if WithTop.some memCycle ≤ minSchedCycle then
        let (ctl, minSchedCycle) := ctl.drain cfg memCycle minSchedCycle
        let sched := { s.sched with nextSchedCycle := minSchedCycle }
        match minSchedCycle with
        | ⊤ => some (⟨ctl, { sched with nextSchedEvent := none }⟩, 0)
        | WithTop.some cycle => some (⟨ctl, sched⟩, max (cfg.matchingMemToSysCycle cycle) sysCycle)
      else none
  else none

/-- `SchedEvent::simulate`. -/
def simulate (s : DDRMemory) (e startCycle : Nat) : Option DDRMemory :=
  match s.sched.events e with
  | .QUEUED =>
    match tick cfg { s with sched := s.sched.setState e .RUNNING } startCycle with
    | none => none
    | some (s, nextCycle) =>
      if nextCycle ≠ 0 then some { s with sched := (s.sched.requeue e nextCycle).setState e .QUEUED }
      else (s.sched.recycleEvent e).map fun sched => { s with sched := sched }
  | .ANNULLED => (s.sched.recycleEvent e).map fun sched => { s with sched := sched }
  | _ => none

def refresh (s : DDRMemory) (sysCycle : Nat) : DDRMemory :=
  { s with ctl := s.ctl.refresh cfg sysCycle }

/-- The events that the weave phase runs on the controller, each at its system cycle. -/
inductive Event
  | access (id addr : Nat) (write : Bool) (sysCycle : Nat)
  | sched (e sysCycle : Nat)
  | refresh (sysCycle : Nat)

def step (s : DDRMemory) : Event → Option DDRMemory
  | .access id addr write sysCycle => s.enqueue cfg id addr write sysCycle
  | .sched e sysCycle =>
    simulate cfg { s with sched := { s.sched with pending := s.sched.pending.erase (e, sysCycle) } }
      e sysCycle
  | .refresh sysCycle => some (s.refresh cfg sysCycle)

/-- An access event runs once, and a scheduling event when it is pending. -/
def Enabled (s : DDRMemory) : Event → Prop
  | .access id _ _ _ => id ∉ s.ctl.arrived
  | .sched e sysCycle => (e, sysCycle) ∈ s.sched.pending
  | .refresh _ => True

inductive Reachable : DDRMemory → Prop
  | init : Reachable (init cfg)
  | step {s s' : DDRMemory} (h : Reachable s) (e : Event) (he : s.Enabled e)
      (hs : s.step cfg e = some s') : Reachable s'

end DDRMemory

end ZSim
