import Mathlib.Algebra.Order.Ring.Nat
import Mathlib.Logic.Function.Basic

/-! The phase barrier. Each operation is atomic, up to the point where the thread waits;
a thread woken by another returns from its wait at once, in state RUNNING. A failed
assert, a panic or an access outside `runList` is `none`. -/

namespace ZSim

inductive BarrierState
  | OFFLINE | WAITING | RUNNING | LEFT
  deriving DecidableEq

structure PhaseEnd where
  runList : List Nat
  state : Nat → BarrierState
  synced : List Nat

/-- The last three fields are records: the threads that synced in this phase and have not
joined since, the threads woken since they were put in the list, and the calls of
`callback`. -/
structure Barrier where
  parallelThreads : Nat
  state : Nat → BarrierState
  futexWord : Nat → Nat
  lastIdx : Nat → Nat
  runList : List Nat
  curThreadIdx : Nat
  runningThreads : Nat
  leftThreads : Nat
  phaseCount : Nat
  synced : List Nat
  woken : Nat → Bool
  phaseEnds : List PhaseEnd

namespace Barrier

def init (parallelThreads : Nat) (lastIdx : Nat → Nat) : Barrier where
  parallelThreads := parallelThreads
  state := fun _ => .OFFLINE
  futexWord := fun _ => 0
  lastIdx := lastIdx
  runList := []
  curThreadIdx := 0
  runningThreads := 0
  leftThreads := 0
  phaseCount := 0
  synced := []
  woken := fun _ => false
  phaseEnds := []

def setState (b : Barrier) (tid : Nat) (state : BarrierState) : Barrier :=
  { b with state := Function.update b.state tid state }

/-- The wakeup of `wtid`, found at `idx`. -/
def wake (b : Barrier) (idx wtid : Nat) : Option Barrier :=
  if b.futexWord wtid = 1 then
    some { b with
      state := Function.update b.state wtid .RUNNING
      lastIdx := Function.update b.lastIdx wtid idx
      futexWord := Function.update b.futexWord wtid 0
      runningThreads := b.runningThreads + 1
      woken := Function.update b.woken wtid true }
  else none

/-- The loop of `checkRunList`; the first argument bounds its turns. -/
def checkRunListFrom : Nat → Barrier → Option Barrier
  | 0, b => some b
  | k + 1, b =>
    if b.runningThreads < b.parallelThreads ∧ b.curThreadIdx < b.runList.length then
      (b.runList[b.curThreadIdx]?).bind fun wtid =>
        if b.state wtid = .WAITING then
          (wake { b with curThreadIdx := b.curThreadIdx + 1 } b.curThreadIdx wtid).bind
            (checkRunListFrom k)
        else checkRunListFrom k { b with curThreadIdx := b.curThreadIdx + 1 }
    else some b

def checkRunList (b : Barrier) : Option Barrier :=
  checkRunListFrom (b.runList.length - b.curThreadIdx) b

/-- The cleanup pass from `idx`; the first argument bounds its turns. The list holds the
first `newSize` elements. -/
def cleanupFrom : Nat → Nat → Barrier → Option Barrier
  | 0, _, b => some b
  | k + 1, idx, b =>
    if idx < b.runList.length then
      (b.runList[idx]?).bind fun wtid =>
        if b.state wtid = .LEFT then
          (b.runList[b.runList.length - 1]?).bind fun stid =>
            cleanupFrom k idx { b.setState wtid .OFFLINE with
              runList := (b.runList.set idx stid).dropLast
              lastIdx := Function.update b.lastIdx stid idx }
        else cleanupFrom k (idx + 1) b
    else some b

/-- Swaps the threads at `i` and `j`, and says so in their `lastIdx`. -/
def swap (b : Barrier) (i j : Nat) : Option Barrier :=
  (b.runList[i]?).bind fun itid =>
    (b.runList[j]?).bind fun jtid =>
      some { b with
        runList := (b.runList.set i jtid).set j itid
        lastIdx := Function.update (Function.update b.lastIdx itid j) jtid i }

/-- The shuffle from `i` down; `rnd.randInt(i)` is the remainder of `rand i`. -/
def shuffleFrom (rand : Nat → Nat) : Nat → Barrier → Option Barrier
  | 0, b => some b
  | i + 1, b => (b.swap (i + 1) (rand (i + 1) % (i + 2))).bind (shuffleFrom rand i)

def cleanup (b : Barrier) : Option Barrier :=
  if 0 < b.runList.length then
    (cleanupFrom b.runList.length 0 b).bind fun b' =>
      if b.runList.length - b'.runList.length = b.leftThreads then
        some { b' with leftThreads := 0 }
      else none
  else none

def shuffle (rand : Nat → Nat) (b : Barrier) : Option Barrier :=
  if b.parallelThreads < b.runList.length then shuffleFrom rand (b.runList.length - 1) b
  else some b

def endPhase (rand : Nat → Nat) (b : Barrier) : Option Barrier :=
  let b' := { b with
    phaseEnds := ⟨b.runList, b.state, b.synced⟩ :: b.phaseEnds
    synced := []
    curThreadIdx := 0
    phaseCount := (b.phaseCount + 1) % 2 ^ 32 }
  (if b.phaseCount % 32 = 0 then b'.cleanup else some b').bind (shuffle rand)

def checkEndPhase (rand : Nat → Nat) (b : Barrier) : Option Barrier :=
  if b.curThreadIdx = b.runList.length ∧ b.runningThreads = 0 then
    if b.leftThreads = b.runList.length then some b else b.endPhase rand
  else some b

def tryWakeNext (rand : Nat → Nat) (b : Barrier) : Option Barrier :=
  b.checkRunList.bind fun b => (b.checkEndPhase rand).bind checkRunList

/-- A thread that rejoins and may have run in this phase is put next. -/
def rejoin (b : Barrier) (tid : Nat) : Option Barrier :=
  let b := { b with leftThreads := b.leftThreads - 1 }
  let lastIdx := b.lastIdx tid
  if lastIdx < b.curThreadIdx then
    if b.runList[lastIdx]? = some tid then
      ({ b with curThreadIdx := b.curThreadIdx - 1 }).swap lastIdx (b.curThreadIdx - 1)
    else none
  else some b

def join (rand : Nat → Nat) (b : Barrier) (tid : Nat) : Option Barrier :=
  (match b.state tid with
    | .OFFLINE => some { b with
        runList := b.runList ++ [tid]
        woken := Function.update b.woken tid false }
    | .LEFT => b.rejoin tid
    | _ => none).bind fun b =>
      tryWakeNext rand { b.setState tid .WAITING with
        futexWord := Function.update b.futexWord tid 1
        synced := b.synced.filter (· ≠ tid) }

def leave (rand : Nat → Nat) (b : Barrier) (tid : Nat) : Option Barrier :=
  match b.state tid with
  | .RUNNING =>
    tryWakeNext rand { b.setState tid .LEFT with
      leftThreads := b.leftThreads + 1
      runningThreads := b.runningThreads - 1 }
  | .WAITING => some { b.setState tid .LEFT with leftThreads := b.leftThreads + 1 }
  | _ => none

def sync (rand : Nat → Nat) (b : Barrier) (tid : Nat) : Option Barrier :=
  match b.state tid with
  | .RUNNING =>
    tryWakeNext rand { b.setState tid .WAITING with
      futexWord := Function.update b.futexWord tid 1
      runningThreads := b.runningThreads - 1
      synced := tid :: b.synced }
  | _ => none

end Barrier

end ZSim
