import Mathlib.Data.List.Perm.Basic
import Mathlib.Logic.Function.Basic

/-! The scheduler: threads, contexts and the queues between them. What a function does
under `schedLock` is one operation; `sync` is two, before and after the barrier. Threads
are named by their gids and contexts by their cids. A failed assert or a panic is `none`.
Statistics, the count of phases in `zinfo`, the futex wake matching and the calls to the
cores are left out. -/

namespace ZSim

inductive ThreadState
  | STARTED | RUNNING | OUT | BLOCKED | SLEEPING | QUEUED
  deriving DecidableEq

inductive ContextState
  | IDLE | USED
  deriving DecidableEq

/-- Where a scheduled thread is: in its program, in `bar.sync`, or past the end of the
phase it synced in but not yet back from `sync`. -/
inductive SyncPlace
  | program | inSync | synced
  deriving DecidableEq

/-- `place` is a record. -/
structure ThreadInfo where
  state : ThreadState
  cid : Nat
  handoffThread : Option Nat
  futexWord : Nat
  markedForSleep : Bool
  wakeupPhase : Nat
  mask : Nat → Bool
  fakeLeave : Bool
  place : SyncPlace

structure ContextInfo where
  state : ContextState
  curThread : Option Nat

/-- `gidMap` tells which gids are in the map, and `threads` what they point to. -/
structure Scheduler where
  numCores : Nat
  schedQuantum : Nat
  gidMap : Nat → Bool
  threads : Nat → ThreadInfo
  contexts : Nat → ContextInfo
  freeList : List Nat
  runQueue : List Nat
  outQueue : List Nat
  sleepQueue : List Nat
  curPhase : Nat
  scheduledThreads : Nat

def ThreadInfo.init (mask : Nat → Bool) : ThreadInfo :=
  ⟨.STARTED, 0, none, 0, false, 0, mask, false, .program⟩

namespace Scheduler

def init (numCores schedQuantum : Nat) : Scheduler where
  numCores := numCores
  schedQuantum := schedQuantum
  gidMap := fun _ => false
  threads := fun _ => .init fun _ => false
  contexts := fun _ => ⟨.IDLE, none⟩
  freeList := List.range numCores
  runQueue := []
  outQueue := []
  sleepQueue := []
  curPhase := 0
  scheduledThreads := 0

def setThread (s : Scheduler) (t : Nat) (th : ThreadInfo) : Scheduler :=
  { s with threads := Function.update s.threads t th }

/-- `owner` of a thread is not null. -/
def Owned (s : Scheduler) (t : Nat) : Prop := t ∈ s.runQueue ∨ t ∈ s.outQueue ∨ t ∈ s.sleepQueue

instance (s : Scheduler) (t : Nat) : Decidable (s.Owned t) :=
  inferInstanceAs (Decidable (_ ∨ _ ∨ _))

/-- The lists take in what no list has, and remove what they have themselves. -/
def pushRun (t : Nat) (s : Scheduler) : Option Scheduler :=
  if s.Owned t then none else some { s with runQueue := s.runQueue ++ [t] }

def pushOut (t : Nat) (s : Scheduler) : Option Scheduler :=
  if s.Owned t then none else some { s with outQueue := s.outQueue ++ [t] }

def pushFree (c : Nat) (s : Scheduler) : Option Scheduler :=
  if c ∈ s.freeList then none else some { s with freeList := s.freeList ++ [c] }

/-- The place of a thread in `sleepQueue`, by the deadlines `w`. -/
def insertAt (w : Nat → Nat) (t : Nat) : List Nat → List Nat
  | [] => [t]
  | u :: us => if w u ≤ w t then u :: insertAt w t us else t :: u :: us

def pushSleep (t : Nat) (s : Scheduler) : Option Scheduler :=
  if s.Owned t then none
  else some { s with sleepQueue := insertAt (fun u => (s.threads u).wakeupPhase) t s.sleepQueue }

def removeRun (t : Nat) (s : Scheduler) : Option Scheduler :=
  if t ∈ s.runQueue then some { s with runQueue := s.runQueue.erase t } else none

def removeOut (t : Nat) (s : Scheduler) : Option Scheduler :=
  if t ∈ s.outQueue then some { s with outQueue := s.outQueue.erase t } else none

def removeSleep (t : Nat) (s : Scheduler) : Option Scheduler :=
  if t ∈ s.sleepQueue then some { s with sleepQueue := s.sleepQueue.erase t } else none

def removeFree (c : Nat) (s : Scheduler) : Option Scheduler :=
  if c ∈ s.freeList then some { s with freeList := s.freeList.erase c } else none

def schedule (t c : Nat) (s : Scheduler) : Option Scheduler :=
  let th := s.threads t
  if (th.state = .STARTED ∨ th.state = .BLOCKED ∨ th.state = .QUEUED) ∧
      (s.contexts c).state = .IDLE ∧ (s.contexts c).curThread = none then
    some { s.setThread t { th with state := .RUNNING, cid := c, place := .program } with
      contexts := Function.update s.contexts c ⟨.USED, some t⟩
      scheduledThreads := s.scheduledThreads + 1 }
  else none

def deschedule (t c : Nat) (targetState : ThreadState) (s : Scheduler) : Option Scheduler :=
  let th := s.threads t
  if (th.state = .RUNNING ∨ th.state = .OUT) ∧ (s.contexts c).state = .USED ∧ c = th.cid ∧
      (s.contexts c).curThread = some t ∧
      (targetState = .BLOCKED ∨ targetState = .QUEUED ∨ targetState = .SLEEPING) then
    some { s.setThread t { th with state := targetState } with
      contexts := Function.update s.contexts c ⟨.IDLE, none⟩
      scheduledThreads := s.scheduledThreads - 1 }
  else none

/-- `waitForContext` up to the wait. Every `wakeup` clears `needsJoin`, so that nothing follows. -/
def waitForContext (t : Nat) (s : Scheduler) : Scheduler :=
  s.setThread t { s.threads t with futexWord := 1 }

def wakeup (t : Nat) (s : Scheduler) : Option Scheduler :=
  if (s.threads t).futexWord = 1 then some (s.setThread t { s.threads t with futexWord := 0 })
  else none

/-- The steal from `outQueue`. -/
def steal (t : Nat) (s : Scheduler) : Option (Option Nat × Scheduler) :=
  match s.outQueue.find? fun o => (s.threads t).mask (s.threads o).cid with
  | none => some (none, s)
  | some o =>
    let c := (s.threads o).cid
    ((removeOut o s).bind (deschedule o c .BLOCKED)).map fun s => (some c, s)

def schedThread (t : Nat) (s : Scheduler) : Option (Option Nat × Scheduler) :=
  let th := s.threads t
  if s.numCores ≤ th.cid then none
  else if (s.contexts th.cid).state = .IDLE ∧ th.mask th.cid then
    (removeFree th.cid s).map fun s => (some th.cid, s)
  else
    match s.freeList.find? th.mask with
    | some c => (removeFree c s).map fun s => (some c, s)
    | none => steal t s

def schedContext (c : Nat) (s : Scheduler) : Option (Option Nat × Scheduler) :=
  match s.runQueue.find? fun t => (s.threads t).mask c with
  | none => some (none, s)
  | some t => (removeRun t s).map fun s => (some t, s)

/-- The thread runs on a context `schedThread` found, or waits for one. -/
def scheduleOrWait (t : Nat) (s : Scheduler) : Option Scheduler :=
  (schedThread t s).bind fun (ctx, s) =>
    match ctx with
    | some c => schedule t c s
    | none =>
      (pushRun t (s.setThread t { s.threads t with state := .QUEUED })).map (waitForContext t)

def start (t : Nat) (mask : Nat → Bool) (s : Scheduler) : Option Scheduler :=
  if s.gidMap t = false ∧ (List.range s.numCores).any mask then
    some { s.setThread t (.init mask) with gidMap := Function.update s.gidMap t true }
  else none

/-- `join` of a thread that is neither sleeping nor in a fake leave. -/
def joinAwake (t : Nat) (s : Scheduler) : Option Scheduler :=
  let th := s.threads t
  if th.state = .OUT then
    removeOut t (s.setThread t { th with state := .RUNNING, place := .program })
  else if th.state = .BLOCKED ∨ th.state = .STARTED then scheduleOrWait t s
  else none

def finishFakeLeave (t : Nat) (s : Scheduler) : Option Scheduler :=
  if (s.threads t).fakeLeave = true ∧ (s.threads t).state = .RUNNING then
    some (s.setThread t { s.threads t with fakeLeave := false })
  else none

/-- SLEEPING to BLOCKED, before the deadline. -/
def endSleep (t : Nat) (s : Scheduler) : Option Scheduler :=
  removeSleep t (s.setThread t { s.threads t with state := .BLOCKED })

def join (t : Nat) (s : Scheduler) : Option Scheduler :=
  let th := s.threads t
  if s.gidMap t = false then none
  else if th.fakeLeave then finishFakeLeave t s
  else if th.markedForSleep then none
  else (if th.state = .SLEEPING then endSleep t s else some s).bind (joinAwake t)

/-- The context goes to a waiting thread, which needs no join as nobody left. -/
def handOver (t c : Nat) (s : Scheduler) : Option Scheduler :=
  (schedule t c s).bind (wakeup t)

def leave (t c : Nat) (s : Scheduler) : Option Scheduler :=
  let th := s.threads t
  if (s.contexts c).curThread = some t ∧ th.state = .RUNNING then
    if th.markedForSleep then
      (deschedule t c .SLEEPING (s.setThread t { th with markedForSleep := false })).bind fun s =>
        (pushSleep t s).bind fun s =>
          (schedContext c s).bind fun (inTh, s) =>
            match inTh with
            | some inTh => handOver inTh c s
            | none => pushFree c s
    else
      (schedContext c s).bind fun (inTh, s) =>
        match inTh with
        | some inTh => (deschedule t c .BLOCKED s).bind (handOver inTh c)
        | none => pushOut t (s.setThread t { s.threads t with state := .OUT })
  else none

/-- `sync` up to the barrier. -/
def syncStart (t c : Nat) (s : Scheduler) : Option Scheduler :=
  if (s.contexts c).curThread = some t ∧ (s.threads t).markedForSleep = false then
    some (s.setThread t { s.threads t with place := .inSync })
  else none

/-- The rest of `sync` for a thread told to hand off its context. The thread is QUEUED when
it looks for another. -/
def handOff (t d : Nat) (s : Scheduler) : Option Scheduler :=
  let c := (s.threads t).cid
  (deschedule t c .QUEUED (s.setThread t
    { s.threads t with handoffThread := none, place := .program })).bind fun s =>
    (handOver d c s).bind (scheduleOrWait t)

def syncEnd (t : Nat) (s : Scheduler) : Option Scheduler :=
  match (s.threads t).handoffThread with
  | some d => handOff t d s
  | none =>
    if (s.threads t).state = .RUNNING then
      some (s.setThread t { s.threads t with place := .program })
    else none

/-- The loop of the callback over the sleeping threads at the front. -/
def wakeSleepers : List Nat → Scheduler → Option Scheduler
  | [], s => some s
  | t :: ts, s =>
    if (s.threads t).wakeupPhase ≤ s.curPhase then
      if (s.threads t).wakeupPhase = s.curPhase then
        ((wakeup t (s.setThread t { s.threads t with state := .BLOCKED })).bind
          (removeSleep t)).bind (wakeSleepers ts)
      else none
    else some s

/-- The loop of `schedTick` over the run queue; `avail` holds the contexts left. -/
def tickFrom : List Nat → List Nat → Scheduler → Option Scheduler
  | [], _, s => some s
  | t :: ts, avail, s =>
    if avail = [] then some s
    else
      match avail.find? (s.threads t).mask with
      | none => tickFrom ts avail s
      | some c =>
        match (s.contexts c).curThread with
        | none => none
        | some v =>
          (removeRun t (s.setThread v { s.threads v with handoffThread := some t })).bind
            (tickFrom ts (avail.erase c))

/-- `printState` panics at a context whose thread is neither running nor out. -/
def printState (s : Scheduler) : Option Unit :=
  if ∀ c ∈ List.range s.numCores, (s.contexts c).state = .IDLE ∨
      ∃ t ∈ (s.contexts c).curThread, (s.threads t).state = .RUNNING ∨ (s.threads t).state = .OUT
  then some () else none

def schedTick (avail : List Nat) (s : Scheduler) : Option Scheduler :=
  (tickFrom s.runQueue avail s).bind fun s => (printState s).map fun _ => s

/-- The threads in the barrier are on their way out of it. -/
def passBarrier (s : Scheduler) : Scheduler :=
  { s with threads := fun t =>
      if (s.threads t).place = .inSync then { s.threads t with place := .synced } else s.threads t }

/-- The end of a phase. `avail` is the shuffle of all contexts. A `schedQuantum` of 0, where
the division traps, is not told apart. -/
def callback (avail : List Nat) (s : Scheduler) : Option Scheduler :=
  if s.scheduledThreads ≤ s.numCores then
    let s := { s.passBarrier with curPhase := s.curPhase + 1 }
    (wakeSleepers s.sleepQueue s).bind fun s =>
      if s.runQueue ≠ [] ∧ s.curPhase % s.schedQuantum = 0 then schedTick avail s else some s
  else none

def markForSleep (t wakeupPhase : Nat) (s : Scheduler) : Option Scheduler :=
  let th := s.threads t
  if s.gidMap t = true ∧ th.markedForSleep = false then
    some (s.setThread t { th with markedForSleep := true, wakeupPhase, futexWord := 1 })
  else none

def notifySleepEnd (t : Nat) (s : Scheduler) : Option Scheduler :=
  let th := s.threads t
  if s.gidMap t = true ∧ th.markedForSleep = false then
    if th.state = .BLOCKED then some s
    else if th.state = .SLEEPING then endSleep t s
    else none
  else none

def syscallLeave (t c : Nat) (blacklisted : Bool) (s : Scheduler) : Option Scheduler :=
  let th := s.threads t
  if (s.contexts c).curThread = some t ∧ th.cid = c ∧ th.state = .RUNNING then
    if blacklisted ∨ th.markedForSleep then leave t c s
    else if th.fakeLeave then none
    else some (s.setThread t { th with fakeLeave := true })
  else none

/-- The watchdog makes a leave out of a fake one. -/
def breakFakeLeave (t : Nat) (s : Scheduler) : Option Scheduler :=
  (finishFakeLeave t s).bind (leave t (s.threads t).cid)

/-- The thread is in no queue and its gid in no map. -/
def delete (t : Nat) (s : Scheduler) : Scheduler :=
  { s.setThread t (.init fun _ => false) with gidMap := Function.update s.gidMap t false }

/-- `finish` from the check of the state on. -/
def finishThread (t : Nat) (s : Scheduler) : Option Scheduler :=
  let th := s.threads t
  if th.state = .QUEUED then (removeRun t s).map (delete t)
  else if th.state = .STARTED ∨ th.state = .OUT ∨ th.state = .BLOCKED then
    if s.Owned t then
      ((removeOut t s).bind (deschedule t th.cid .BLOCKED)).bind fun s =>
        (pushFree th.cid s).map (delete t)
    else some (delete t s)
  else none

/-- One operation, though the lock is given up around `leave`. The gid stays in the map until
the thread is deleted. -/
def finish (t : Nat) (s : Scheduler) : Option Scheduler :=
  if s.gidMap t = false then none
  else
    (if (s.threads t).fakeLeave then breakFakeLeave t s else some s).bind fun s =>
      (if (s.threads t).state = .RUNNING then leave t (s.threads t).cid s else some s).bind
        (finishThread t)

end Scheduler

end ZSim
