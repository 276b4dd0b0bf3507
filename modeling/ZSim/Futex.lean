import Mathlib.Algebra.BigOperators.Group.Finset.Basic
import Mathlib.Data.Int.Interval
import Mathlib.Data.Finset.Card

/-! The matching of futex wakes with the waiters they wake, as the scheduler counts it.
Counters are unsigned and counts of the guest signed 32-bit integers. A failed assert is
`none`. -/

namespace ZSim

def MAX_THREADS : Nat := 2048

inductive FutexJoinAction
  | NONE | WAKE | WAIT
  deriving DecidableEq

structure FutexJoinInfo where
  action : FutexJoinAction
  maxWakes : Nat
  wokenUp : Nat

/-- Where a thread is between its futex calls and its joins. `woken` is the number of
waiters the kernel woke for the call. -/
inductive FutexStage
  | idle
  | waiting
  | wokenUp
  | waitJoin
  | waking (val : Int)
  | wakeReturn (val : Int) (woken : Nat)
  | wakeJoin (woken : Nat)
  | matching (woken : Nat)
  deriving DecidableEq

structure FutexThread where
  futexJoin : FutexJoinInfo
  stage : FutexStage

/-- `joined` and `matched` are records: the waiters counted by `futexWaitJoin`, and those
that completed wake joins were for. -/
structure FutexState where
  maxAllowedFutexWakeups : Nat
  unmatchedFutexWakeups : Nat
  threads : Nat → FutexThread
  joined : Nat
  matched : Nat

/-- The conversion of an `int` to `uint32_t`. -/
def toUint32 (n : Int) : Nat := (n % 2 ^ 32).toNat

def sub32 (a b : Nat) : Nat := (a + 2 ^ 32 - b) % 2 ^ 32

namespace FutexState

def init : FutexState where
  maxAllowedFutexWakeups := 0
  unmatchedFutexWakeups := 0
  threads := fun _ => ⟨⟨.NONE, 0, 0⟩, .idle⟩
  joined := 0
  matched := 0

def setThread (s : FutexState) (tid : Nat) (th : FutexThread) : FutexState :=
  { s with threads := Function.update s.threads tid th }

def setJoin (s : FutexState) (tid : Nat) (info : FutexJoinInfo) : FutexState :=
  s.setThread tid { s.threads tid with futexJoin := info }

def setStage (s : FutexState) (tid : Nat) (stage : FutexStage) : FutexState :=
  s.setThread tid { s.threads tid with stage := stage }

/-- The cap on the wakes one call may be for. -/
def capWakes (maxWakes : Nat) : Nat := min maxWakes (2 ^ 24)

def notifyFutexWakeStart (s : FutexState) (tid maxWakes : Nat) : Option FutexState :=
  let info := (s.threads tid).futexJoin
  if info.action = .NONE then
    some ({ s with
      maxAllowedFutexWakeups :=
        (s.maxAllowedFutexWakeups + capWakes maxWakes) % 2 ^ 32 }.setJoin tid
      { info with maxWakes := capWakes maxWakes })
  else none

def notifyFutexWakeEnd (s : FutexState) (tid wokenUp : Nat) : FutexState :=
  s.setJoin tid { (s.threads tid).futexJoin with action := .WAKE, wokenUp := wokenUp }

def notifyFutexWaitWoken (s : FutexState) (tid : Nat) : FutexState :=
  s.setJoin tid ⟨.WAIT, 0, 0⟩

/-- `futexWakeJoin` up to its loop. -/
def futexWakeJoin (s : FutexState) (tid : Nat) : Option FutexState :=
  let info := (s.threads tid).futexJoin
  if info.action = .WAKE ∧ info.maxWakes ≤ s.maxAllowedFutexWakeups ∧
      info.wokenUp ≤ info.maxWakes then
    let maxAllowed := sub32 s.maxAllowedFutexWakeups (info.maxWakes - info.wokenUp)
    if s.unmatchedFutexWakeups ≤ maxAllowed then
      some { s with maxAllowedFutexWakeups := maxAllowed }
    else none
  else none

/-- The recheck of the loop of `futexWakeJoin` under the lock, and the end of the join when
it holds. -/
def futexWakeMatch (s : FutexState) (tid : Nat) : FutexState :=
  let info := (s.threads tid).futexJoin
  if info.wokenUp ≤ s.unmatchedFutexWakeups then
    ({ s with
      unmatchedFutexWakeups := s.unmatchedFutexWakeups - info.wokenUp
      maxAllowedFutexWakeups := sub32 s.maxAllowedFutexWakeups info.wokenUp
      matched := s.matched + info.wokenUp }.setJoin tid { info with action := .NONE }).setStage
      tid .idle
  else s

/-- `futexWaitJoin`; when the counters say that there is no waker, it only warns. -/
def futexWaitJoin (s : FutexState) (tid : Nat) : Option FutexState :=
  let info := (s.threads tid).futexJoin
  if info.action = .WAIT then
    let s := if s.maxAllowedFutexWakeups ≤ s.unmatchedFutexWakeups then s
      else { s with
        unmatchedFutexWakeups := (s.unmatchedFutexWakeups + 1) % 2 ^ 32
        joined := s.joined + 1 }
    some (s.setJoin tid { info with action := .NONE })
  else none

def prePatchFutex (s : FutexState) (tid : Nat) (val : Int) : Option FutexState :=
  s.notifyFutexWakeStart tid (toUint32 val)

/-- The exit of a wake call; an error is not reported. -/
def postPatchFutex (s : FutexState) (tid : Nat) (val res : Int) : FutexState :=
  if 0 ≤ res then s.notifyFutexWakeEnd tid (toUint32 (min res val)) else s

/-- The steps of a thread. `kernelWake` is the kernel's part of a wake call. -/
inductive Event
  | wait (tid : Nat)
  | waitFails (tid : Nat)
  | waitReturns (tid : Nat)
  | waitJoin (tid : Nat)
  | wake (tid : Nat) (val : Int)
  | kernelWake (tid : Nat) (waiters : Finset Nat)
  | wakeReturns (tid : Nat) (res : Int)
  | wakeJoin (tid : Nat)
  | wakeMatch (tid : Nat)

/-- The threads whose `FUTEX_WAIT` the kernel ends. -/
def wakeAll (s : FutexState) (waiters : Finset Nat) : FutexState :=
  { s with threads := fun x =>
      if x ∈ waiters then { s.threads x with stage := .wokenUp } else s.threads x }

def step (s : FutexState) : Event → Option FutexState
  | .wait tid => some (s.setStage tid .waiting)
  | .waitFails tid => some (s.setStage tid .idle)
  | .waitReturns tid => some ((s.notifyFutexWaitWoken tid).setStage tid .waitJoin)
  | .waitJoin tid => (s.futexWaitJoin tid).map (·.setStage tid .idle)
  | .wake tid val => (s.prePatchFutex tid val).map (·.setStage tid (.waking val))
  | .kernelWake tid waiters =>
    match (s.threads tid).stage with
    | .waking val => some ((s.wakeAll waiters).setStage tid (.wakeReturn val waiters.card))
    | _ => none
  | .wakeReturns tid res =>
    match (s.threads tid).stage with
    | .wakeReturn val woken => some ((s.postPatchFutex tid val res).setStage tid
        (if 0 ≤ res then .wakeJoin woken else .idle))
    | _ => none
  | .wakeJoin tid =>
    match (s.threads tid).stage with
    | .wakeJoin woken => (s.futexWakeJoin tid).map (·.setStage tid (.matching woken))
    | _ => none
  | .wakeMatch tid => some (s.futexWakeMatch tid)

/-- What the guest and the kernel do. The kernel wakes threads that wait, at most as many as
asked (the count is unsigned there), none if the call fails, and its result counts at least
those; a larger result is of threads requeued once all that were asked for are awake. -/
def Allowed (n : Nat) (s : FutexState) : Event → Prop
  | .wait tid => tid < n ∧ (s.threads tid).stage = .idle
  | .waitFails tid => tid < n ∧ (s.threads tid).stage = .waiting
  | .waitReturns tid => tid < n ∧ (s.threads tid).stage = .wokenUp
  | .waitJoin tid => tid < n ∧ (s.threads tid).stage = .waitJoin
  | .wake tid val => tid < n ∧ (s.threads tid).stage = .idle ∧ -2 ^ 31 ≤ val ∧ val < 2 ^ 31
  | .kernelWake tid waiters => tid < n ∧ (∃ val, (s.threads tid).stage = .waking val ∧
      waiters.card ≤ toUint32 val) ∧ ∀ x ∈ waiters, x < n ∧ (s.threads x).stage = .waiting
  | .wakeReturns tid res => tid < n ∧ ∃ val woken, (s.threads tid).stage = .wakeReturn val woken ∧
      -2 ^ 31 ≤ res ∧ res < 2 ^ 31 ∧ (res < 0 → woken = 0) ∧
      (0 ≤ res → woken ≤ res ∧ (res = woken ∨ woken = toUint32 val))
  | .wakeJoin tid => tid < n ∧ ∃ woken, (s.threads tid).stage = .wakeJoin woken
  | .wakeMatch tid => tid < n ∧ ∃ woken, (s.threads tid).stage = .matching woken

/-- The states of `n` threads reached by runs whose events all meet `ok`. -/
inductive Reachable (ok : FutexState → Event → Prop) (n : Nat) : FutexState → Prop
  | init : Reachable ok n init
  | step {s s' : FutexState} (h : Reachable ok n s) (e : Event) (ha : s.Allowed n e)
      (hok : ok s e) (hs : s.step e = some s') : Reachable ok n s'

end FutexState

end ZSim
