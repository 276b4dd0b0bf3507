import ZSim.SchedulerEffects

/-! What the threads of the simulated programs run between instructions: the hooks that the
instrumentation calls when a thread starts, reaches an instrumentation point, ends a phase on
its core, enters or leaves a syscall, or finishes. They tell the scheduler where the thread is.
A thread is named by its gid. A failed assert of a hook is `none`. The start of a paused
process, `exec` and `fork`, and the ways out of `SimEnd` are left out. `finish` and the watchdog
give up `schedLock` for their `leave`; here nobody comes in between. -/

namespace ZSim

open Scheduler

/-- The functions that a thread has at its instrumentation points: those of its core, or one of
the sets that stand in for them. -/
inductive InstrFuncPtrs
  | analysisPtrs | joinPtrs | nopPtrs | retryPtrs | ffPtrs
  deriving DecidableEq

inductive FPtrType
  | FPTR_ANALYSIS | FPTR_JOIN | FPTR_NOP | FPTR_RETRY
  deriving DecidableEq

def InstrFuncPtrs.type : InstrFuncPtrs → FPtrType
  | analysisPtrs => .FPTR_ANALYSIS
  | joinPtrs => .FPTR_JOIN
  | nopPtrs | ffPtrs => .FPTR_NOP
  | retryPtrs => .FPTR_RETRY

/-- An entry of `cids`. -/
inductive Cid
  | UNINITIALIZED_CID | INVALID_CID | valid (cid : Nat)
  deriving DecidableEq

def clearCid : Cid → Option Cid
  | .INVALID_CID => none
  | _ => some .INVALID_CID

def setCid (numCores cid : Nat) : Cid → Option Cid
  | .INVALID_CID => if cid < numCores then some (.valid cid) else none
  | _ => none

inductive PostPatchAction
  | PPA_NOTHING | PPA_USE_RETRY_PTRS | PPA_USE_JOIN_PTRS
  deriving DecidableEq

/-- Where a thread is. `app` is outside of the hooks, `marked` in `SyscallEnter` after it has
been marked for sleep, and `waking` in the patch after a timed call, which has seen the thread
asleep; the others are in or between calls of the scheduler. -/
inductive HookPlace
  | unborn | app | marked (blacklisted : Bool) | waking
  | joining | syncing | resuming | leaving
  | ended
  deriving DecidableEq

structure HookThread where
  fPtrs : InstrFuncPtrs
  cid : Cid
  activeThread : Bool
  inSyscall : Bool
  inFakeTimeoutMode : Bool
  place : HookPlace

def HookThread.init : HookThread := ⟨.joinPtrs, .UNINITIALIZED_CID, false, false, false, .unborn⟩

/-- `mask` is that of a process. -/
structure HookConf where
  mask : Nat → Nat → Bool
  registerThreads : Bool
  blockingSyscalls : Bool

structure HookState where
  sched : Scheduler
  threads : Nat → HookThread
  isInFastForward : Nat → Bool
  terminationConditionMet : Bool

def HookState.init (numCores schedQuantum : Nat) (isInFastForward : Nat → Bool) : HookState :=
  ⟨.init numCores schedQuantum, fun _ => .init, isInFastForward, false⟩

def getPid (gid : Nat) : Nat := gid / 2 ^ 16

/-- How the patch of a syscall has it sleep: until the phase, and over again if the call is
`timed`. -/
structure SleepPatch where
  wakeupPhase : Nat
  timed : Bool

/-- What happens to a thread. `resume` is the end of a call to the scheduler. -/
inductive HookEvent
  | threadStart | instrument | registerThread | takeBarrier
  | syscallEnter (patch : Option SleepPatch) (blacklisted : Bool)
  | stillSleeping
  | syscallExit (ppa : PostPatchAction)
  | threadFini
  | resume

/-- The call to the scheduler that a hook makes, and the thread as it leaves it. -/
abbrev HookResult := Option (Option Op × HookThread)

section hooks

variable (conf : HookConf) (h : HookState) (t : Nat)

def simThreadStart (th : HookThread) : HookResult :=
  (clearCid th.cid).map fun cid =>
    (some (.start t (conf.mask (getPid t))),
      { th with fPtrs := .joinPtrs, cid, activeThread := true, place := .app })

def simThreadFini (th : HookThread) (fPtrs : InstrFuncPtrs) (place : HookPlace) :
    Option Op × HookThread :=
  (some (.finish t), { th with fPtrs, cid := .UNINITIALIZED_CID, activeThread := false, place })

def threadStart (th : HookThread) : HookResult :=
  if h.isInFastForward (getPid t) then some (none, { th with fPtrs := .ffPtrs, place := .app })
  else if conf.registerThreads then some (none, { th with fPtrs := .nopPtrs, place := .app })
  else simThreadStart conf t th

/-- An instrumentation point, with `ffPtrs` a basic block. -/
def instrument (th : HookThread) : HookResult :=
  match th.fPtrs with
  | .joinPtrs => some (some (.join t), { th with place := .joining })
  | .ffPtrs =>
    if h.isInFastForward (getPid t) then some (none, th) else simThreadStart conf t th
  | _ => some (none, th)

def handleRegisterThread (th : HookThread) : HookResult :=
  if conf.registerThreads ∧ th.fPtrs.type = .FPTR_NOP then simThreadStart conf t th
  else some (none, th)

/-- `Join` after the join. -/
def joined (th : HookThread) : HookResult :=
  let cid := (h.sched.threads t).cid
  (setCid h.sched.numCores cid th.cid).map fun cid' =>
    if h.terminationConditionMet then
      (some (.leave t cid), { th with cid := cid', place := .ended })
    else (none, { th with fPtrs := .analysisPtrs, cid := cid', place := .app })

def takeBarrier (th : HookThread) : HookResult :=
  match th.cid with
  | .valid cid => some (some (.syncStart t cid), { th with place := .syncing })
  | _ => none

/-- `TakeBarrier` after the sync. -/
def synced (th : HookThread) : HookResult :=
  let newCid := (h.sched.threads t).cid
  (clearCid th.cid).bind fun cid =>
    (setCid h.sched.numCores newCid cid).bind fun cid =>
      if h.isInFastForward (getPid t) then
        (clearCid cid).map fun cid => (some (.leave t newCid), { th with cid, place := .leaving })
      else if h.terminationConditionMet then
        some (some (.leave t newCid), { th with cid, place := .ended })
      else some (none, { th with fPtrs := .analysisPtrs, cid, place := .app })

/-- The end of `SyscallEnter`. -/
def leaveForSyscall (th : HookThread) (blacklisted : Bool) : HookResult :=
  if th.fPtrs.type ≠ .FPTR_JOIN ∧ conf.blockingSyscalls = false then
    match th.cid with
    | .valid cid => (clearCid th.cid).map fun cid' =>
        (some (.syscallLeave t cid blacklisted),
          { th with fPtrs := .joinPtrs, cid := cid', place := .app })
    | _ => none
  else some (none, { th with place := .app })

def syscallEnter (th : HookThread) (patch : Option SleepPatch) (blacklisted : Bool) : HookResult :=
  if th.inSyscall then none
  else
    let th := { th with inSyscall := true }
    if th.fPtrs.type = .FPTR_NOP ∨ th.fPtrs.type = .FPTR_RETRY then some (none, th)
    else
      match patch with
      | some patch =>
        if patch.timed ∧ th.inFakeTimeoutMode then none
        else some (some (.markForSleep t patch.wakeupPhase),
          { th with inFakeTimeoutMode := patch.timed, place := .marked blacklisted })
      | none => leaveForSyscall conf t th blacklisted

/-- The end of `SyscallExit`. -/
def returnFromSyscall (th : HookThread) (place : HookPlace) : HookResult :=
  if th.fPtrs.type = .FPTR_JOIN ∧ h.isInFastForward (getPid t) then
    if th.activeThread then some (simThreadFini t th .ffPtrs place) else none
  else some (none, { th with place })

def syscallExit (th : HookThread) (ppa : PostPatchAction) : HookResult :=
  if th.inSyscall then
    let th := { th with
      inSyscall := false
      inFakeTimeoutMode := decide (ppa = .PPA_USE_RETRY_PTRS)
      fPtrs := match ppa with
        | .PPA_USE_JOIN_PTRS => if conf.blockingSyscalls then .analysisPtrs else .joinPtrs
        | .PPA_USE_RETRY_PTRS => .retryPtrs
        | .PPA_NOTHING => th.fPtrs }
    returnFromSyscall h t th (if h.terminationConditionMet then .ended else .app)
  else none

def threadFini (th : HookThread) : HookResult :=
  if th.fPtrs.type = .FPTR_NOP then some (none, { th with place := .ended })
  else some (simThreadFini t th th.fPtrs .ended)

/-- A hook goes on after a call to the scheduler. -/
def resume (th : HookThread) : HookResult :=
  match th.place with
  | .marked blacklisted => leaveForSyscall conf t th blacklisted
  | .waking => some (some (.notifySleepEnd t), { th with place := .app })
  | .joining => joined h t th
  | .syncing => some (some (.syncEnd t), { th with place := .resuming })
  | .resuming => synced h t th
  | .leaving => some (simThreadFini t th .ffPtrs .app)
  | _ => none

def hook (th : HookThread) : HookEvent → HookResult
  | .threadStart => threadStart conf h t th
  | .instrument => instrument conf h t th
  | .registerThread => handleRegisterThread conf t th
  | .takeBarrier => takeBarrier t th
  | .syscallEnter patch blacklisted => syscallEnter conf t th patch blacklisted
  | .stillSleeping => some (none, { th with place := .waking })
  | .syscallExit ppa => syscallExit conf h t th ppa
  | .threadFini => threadFini t th
  | .resume => resume conf h t th

/-- What can happen to a thread next. A call of the scheduler that blocks comes to an end when
the thread runs again, and `sync` goes on when the barrier lets the thread out. -/
inductive Delivered (th : HookThread) : HookEvent → Prop
  | threadStart : th.place = .unborn → Delivered th .threadStart
  | instrument : th.place = .app → th.inSyscall = false → Delivered th .instrument
  | registerThread : th.place = .app → th.inSyscall = false → Delivered th .registerThread
  | takeBarrier : th.place = .app → th.inSyscall = false → th.fPtrs = .analysisPtrs →
      Delivered th .takeBarrier
  | syscallEnter {patch : Option SleepPatch} {blacklisted : Bool} : th.place = .app →
      th.inSyscall = false → (∀ p, patch = some p → h.sched.curPhase < p.wakeupPhase) →
      Delivered th (.syscallEnter patch blacklisted)
  | stillSleeping : th.place = .app → th.inSyscall = true → th.inFakeTimeoutMode = true →
      (h.sched.threads t).state = .SLEEPING → Delivered th .stillSleeping
  | syscallExit {ppa : PostPatchAction} : th.place = .app → th.inSyscall = true →
      (ppa ≠ .PPA_NOTHING ↔ th.inFakeTimeoutMode = true) → Delivered th (.syscallExit ppa)
  | threadFini : th.place = .app → Delivered th .threadFini
  | goOn : (∃ b, th.place = .marked b) ∨ th.place = .waking ∨ th.place = .leaving →
      Delivered th .resume
  | running : th.place = .joining ∨ th.place = .resuming → (h.sched.threads t).state = .RUNNING →
      Delivered th .resume
  | released : th.place = .syncing → (h.sched.threads t).place = .synced → Delivered th .resume

end hooks

def Scheduler.run (s : Scheduler) : Option Op → Option Scheduler
  | none => some s
  | some op => s.step op

/-- A thread of a process takes a step, its control thread turns fast-forwarding on or off, the
simulation is to end, the watchdog makes a leave out of a fake one, or a phase ends. `op` is
what the scheduler does in the step. A `join` of the thread itself, between the watchdog's
`finishFakeLeave` and its `leave`, would fail. -/
inductive HookStep (conf : HookConf) (ok : HookState → Op → Prop) (h : HookState) :
    Option Op → HookState → Prop
  | hook {t : Nat} {ev : HookEvent} {op : Option Op} {th : HookThread} {s : Scheduler} :
      Delivered h t (h.threads t) ev → hook conf h t (h.threads t) ev = some (op, th) →
      (∀ o, op = some o → ok h o) → h.sched.run op = some s →
      HookStep conf ok h op { h with sched := s, threads := Function.update h.threads t th }
  | fastForward (p : Nat) (b : Bool) : HookStep conf ok h none
      { h with isInFastForward := Function.update h.isInFastForward p b }
  | terminate : HookStep conf ok h none { h with terminationConditionMet := true }
  | watchdog {t : Nat} {s : Scheduler} : (h.sched.threads t).fakeLeave = true →
      h.sched.step (.breakFakeLeave t) = some s →
      HookStep conf ok h (some (.breakFakeLeave t)) { h with sched := s }
  | phaseEnd {avail : List Nat} {s : Scheduler} : Allowed h.sched (.callback avail) →
      h.sched.step (.callback avail) = some s →
      HookStep conf ok h (some (.callback avail)) { h with sched := s }

/-- A thread is marked for sleep while its core runs it, and finishes when it is awake. With
blocking syscalls no thread is marked. -/
def HookOrderly (conf : HookConf) (h : HookState) : Op → Prop
  | .finish t => (h.sched.threads t).state ≠ .SLEEPING
  | .markForSleep t _ =>
    (h.threads t).fPtrs = .analysisPtrs ∧ conf.blockingSyscalls = false
  | _ => True

inductive HookReachable (conf : HookConf) (ok : HookState → Op → Prop)
    (numCores schedQuantum : Nat) (isInFastForward : Nat → Bool) : HookState → Prop
  | init : HookReachable conf ok numCores schedQuantum isInFastForward
      (.init numCores schedQuantum isInFastForward)
  | step {h h' : HookState} {op : Option Op}
      (hreach : HookReachable conf ok numCores schedQuantum isInFastForward h)
      (hstep : HookStep conf ok h op h') :
      HookReachable conf ok numCores schedQuantum isInFastForward h'

section

variable {conf : HookConf} {h h' : HookState} {s s' : Scheduler} {t u c : Nat}
  {th : HookThread} {ev : HookEvent}

namespace HookThread

/-- The scheduler does not know the thread. -/
def Outside (s : Scheduler) (t : Nat) (th : HookThread) : Prop :=
  th.cid = .UNINITIALIZED_CID ∧ th.inFakeTimeoutMode = false ∧ s.gidMap t = false

/-- The thread has no core. -/
def OffCore (s : Scheduler) (t : Nat) (th : HookThread) : Prop :=
  th.cid = .INVALID_CID ∧ th.activeThread = true ∧ s.Gone t

/-- The thread holds that it has a core. -/
def OnCore (th : HookThread) (p : Nat → Prop) : Prop :=
  th.activeThread = true ∧ ∃ c, th.cid = .valid c ∧ p c

end HookThread

/-- A thread and the scheduler agree on where the thread is. -/
def HookOk (conf : HookConf) (s : Scheduler) (t : Nat) (th : HookThread) : Prop :=
  match th.place with
  | .unborn => th.Outside s t
  | .app =>
    match th.fPtrs with
    | .nopPtrs | .ffPtrs => th.Outside s t
    | .analysisPtrs => th.inFakeTimeoutMode = false ∧
        th.OnCore fun c => s.InProgram t c ∧ (s.threads t).markedForSleep = false
    | .joinPtrs => th.OffCore s t ∧
        (th.inFakeTimeoutMode = true → th.inSyscall = true ∧ conf.blockingSyscalls = false)
    | .retryPtrs => th.OffCore s t ∧
        (th.inFakeTimeoutMode = true → conf.blockingSyscalls = false)
  | .marked _ => th.fPtrs = .analysisPtrs ∧ conf.blockingSyscalls = false ∧
      th.inSyscall = true ∧ th.OnCore fun c => s.InProgram t c
  | .waking => (th.fPtrs = .joinPtrs ∨ th.fPtrs = .retryPtrs) ∧ conf.blockingSyscalls = false ∧
      th.inSyscall = true ∧ th.OffCore s t ∧
        ((s.threads t).state = .BLOCKED ∨ (s.threads t).state = .SLEEPING)
  | .joining => th.inFakeTimeoutMode = false ∧ th.cid = .INVALID_CID ∧ th.activeThread = true ∧
      s.gidMap t = true ∧ s.Waiting t
  | .syncing => th.inFakeTimeoutMode = false ∧ th.OnCore fun c => s.InSync t c
  | .resuming => th.inFakeTimeoutMode = false ∧ th.OnCore fun _ => s.gidMap t = true ∧ s.Waiting t
  | .leaving => th.inFakeTimeoutMode = false ∧ th.OffCore s t ∧
      (s.threads t).state ≠ .SLEEPING
  | .ended => True

/-- A thread's hooks need not hear of what others do. -/
theorem HookOk.drift (hinv : Inv none none s) (hok : HookOk conf s t th)
    (hmap : s'.gidMap t = s.gidMap t) (hd : Drift (s.threads t) (s'.threads t)) :
    HookOk conf s' t th := by
  unfold HookOk at hok ⊢
  split at hok
  · exact ⟨hok.1, hok.2.1, hmap.trans hok.2.2⟩
  · split at hok
    · exact ⟨hok.1, hok.2.1, hmap.trans hok.2.2⟩
    · exact ⟨hok.1, hok.2.1, hmap.trans hok.2.2⟩
    · obtain ⟨hfake, hact, c, hcid, hprog, hmark⟩ := hok
      exact ⟨hfake, hact, c, hcid, hd.inProgram hprog, hd.marked.trans hmark⟩
    · obtain ⟨⟨hcid, hact, hgone⟩, hfake⟩ := hok
      exact ⟨⟨hcid, hact, hd.gone hgone hmap⟩, hfake⟩
    · obtain ⟨⟨hcid, hact, hgone⟩, hfake⟩ := hok
      exact ⟨⟨hcid, hact, hd.gone hgone hmap⟩, hfake⟩
  · obtain ⟨hptrs, hblock, hsys, hact, c, hcid, hprog⟩ := hok
    exact ⟨hptrs, hblock, hsys, hact, c, hcid, hd.inProgram hprog⟩
  · obtain ⟨hptrs, hblock, hsys, ⟨hcid, hact, hgone⟩, hst⟩ := hok
    refine ⟨hptrs, hblock, hsys, ⟨hcid, hact, hd.gone hgone hmap⟩, ?_⟩
    obtain ⟨-, -, hmoved⟩ := hd
    grind
  · obtain ⟨hfake, hcid, hact, hin, hwait⟩ := hok
    exact ⟨hfake, hcid, hact, hmap.trans hin, hd.waiting hinv hwait⟩
  · obtain ⟨hfake, hact, c, hcid, hsync⟩ := hok
    exact ⟨hfake, hact, c, hcid, hd.inSync hsync⟩
  · obtain ⟨hfake, hact, c, hcid, hin, hwait⟩ := hok
    exact ⟨hfake, hact, c, hcid, hmap.trans hin, hd.waiting hinv hwait⟩
  · obtain ⟨hfake, ⟨hcid, hact, hgone⟩, hst⟩ := hok
    exact ⟨hfake, ⟨hcid, hact, hd.gone hgone hmap⟩, hd.awake hst⟩
  · trivial

/-- The hook fails no assert and makes only calls that the scheduler allows. An orderly call
is orderly for the scheduler too, and leaves the thread and the scheduler in agreement. -/
def Served (conf : HookConf) (h : HookState) (t : Nat) (result : HookResult) : Prop :=
  ∃ op th, result = some (op, th) ∧
    (∀ o, op = some o →
      Allowed h.sched o ∧ (HookOrderly conf h o → Orderly h.sched o)) ∧
    ((∀ o, op = some o → HookOrderly conf h o) → ∀ s, h.sched.run op = some s →
      Spares t h.sched s ∧ HookOk conf s t th)

theorem Served.idle (hok : HookOk conf h.sched t th) : Served conf h t (some (none, th)) := by
  refine ⟨none, th, rfl, by simp, fun _ s hs => ?_⟩
  cases hs
  exact ⟨Same.rfl.spares, hok⟩

theorem Served.call {op : Op} (ha : Allowed h.sched op)
    (ho : HookOrderly conf h op → Orderly h.sched op)
    (hs : HookOrderly conf h op → ∀ s, h.sched.step op = some s →
      Spares t h.sched s ∧ HookOk conf s t th) :
    Served conf h t (some (some op, th)) := by
  refine ⟨some op, th, rfl, ?_, fun hok => hs (hok op rfl)⟩
  rintro o ⟨⟩
  exact ⟨ha, ho⟩

theorem clearCid_valid (c : Nat) : clearCid (.valid c) = some .INVALID_CID := rfl

theorem syscallEnter_patched {p : SleepPatch} {blacklisted : Bool} (hsys : th.inSyscall = false)
    (hptrs : th.fPtrs = .analysisPtrs ∨ th.fPtrs = .joinPtrs)
    (hfake : th.inFakeTimeoutMode = false) :
    syscallEnter conf t th (some p) blacklisted = some (some (.markForSleep t p.wakeupPhase),
      { th with
        inSyscall := true, inFakeTimeoutMode := p.timed, place := .marked blacklisted }) := by
  rcases hptrs with hptrs | hptrs <;> simp [syscallEnter, hsys, hptrs, hfake, InstrFuncPtrs.type]

theorem syscallEnter_unpatched {blacklisted : Bool} (hsys : th.inSyscall = false)
    (hptrs : th.fPtrs = .analysisPtrs ∨ th.fPtrs = .joinPtrs) :
    syscallEnter conf t th none blacklisted =
      leaveForSyscall conf t { th with inSyscall := true } blacklisted := by
  rcases hptrs with hptrs | hptrs <;> simp [syscallEnter, hsys, hptrs, InstrFuncPtrs.type]

section events

variable (hinv : Inv none none h.sched) (hok : HookOk conf h.sched t th)

theorem simThreadStart_served (hmask : (List.range h.sched.numCores).any (conf.mask (getPid t)))
    (hth : th.Outside h.sched t) : Served conf h t (simThreadStart conf t th) := by
  obtain ⟨hcid, hfake, hmap⟩ := hth
  rw [simThreadStart, hcid]
  refine .call ⟨hmap, hmask⟩ (fun _ => trivial) fun _ s hs => ?_
  obtain ⟨hspares, hgone, -⟩ := start_spares hs
  exact ⟨hspares, ⟨rfl, rfl, hgone⟩, fun hf => by simp [hfake] at hf⟩

include hok in
theorem takeBarrier_served (hplace : th.place = .app) (hptrs : th.fPtrs = .analysisPtrs) :
    Served conf h t (takeBarrier t th) := by
  simp only [HookOk, hplace, hptrs] at hok
  obtain ⟨hfake, hact, c, hcid, hprog, hmark⟩ := hok
  rw [takeBarrier, hcid]
  refine .call ⟨hprog, hmark⟩ (fun _ => trivial) fun _ s hs => ?_
  obtain ⟨hspares, -, hsync⟩ := syncStart_self hprog hs
  exact ⟨hspares, hfake, hact, c, rfl, hsync⟩

include hinv

theorem simThreadFini_served {fPtrs : InstrFuncPtrs} {place : HookPlace}
    (hmap : h.sched.gidMap t = true) (hmark : (h.sched.threads t).markedForSleep = false)
    (hqueued : (h.sched.threads t).state ≠ .QUEUED)
    (hplace : place = .ended ∨ place = .app ∧ fPtrs = .ffPtrs ∧ th.inFakeTimeoutMode = false) :
    Served conf h t (some (simThreadFini t th fPtrs place)) := by
  refine .call hmap (fun ho => ⟨ho, hmark, fun hq => (hqueued hq).elim⟩) fun _ s hs => ?_
  obtain ⟨hspares, hout⟩ := finish_spares hinv hs
  refine ⟨hspares, ?_⟩
  rcases hplace with rfl | ⟨rfl, rfl, hfake⟩
  · trivial
  · exact ⟨rfl, hfake, hout⟩

/-- The core of a thread that runs. -/
theorem running_core (hwait : h.sched.Waiting t) (hrun : (h.sched.threads t).state = .RUNNING) :
    h.sched.InProgram t (h.sched.threads t).cid ∧
      (h.sched.threads t).markedForSleep = false ∧
        (h.sched.threads t).cid < h.sched.numCores := by
  obtain ⟨hmark, hqueued | ⟨c, hprog⟩⟩ := hwait
  · simp [hrun] at hqueued
  · refine ⟨?_, hmark, (hinv.contexts.owner t (.inl hrun)).1⟩
    rw [hprog.2.1]
    exact hprog

include hok

theorem joined_served (hplace : th.place = .joining)
    (hrun : (h.sched.threads t).state = .RUNNING) : Served conf h t (joined h t th) := by
  simp only [HookOk, hplace] at hok
  obtain ⟨hfake, hcid, hact, -, hwait⟩ := hok
  obtain ⟨hprog, hmark, hlt⟩ := running_core hinv hwait hrun
  rw [joined, hcid, setCid, if_pos hlt, Option.map_some]
  split
  · refine .call hprog (fun _ => trivial) fun _ s hs => ?_
    exact ⟨leave_spares hinv hs, trivial⟩
  · exact .idle ⟨hfake, hact, _, rfl, hprog, hmark⟩

theorem synced_served (hplace : th.place = .resuming)
    (hrun : (h.sched.threads t).state = .RUNNING) : Served conf h t (synced h t th) := by
  simp only [HookOk, hplace] at hok
  obtain ⟨hfake, hact, c, hcid, -, hwait⟩ := hok
  obtain ⟨hprog, hmark, hlt⟩ := running_core hinv hwait hrun
  rw [synced, hcid, clearCid_valid, Option.bind_some, setCid, if_pos hlt, Option.bind_some]
  split
  · rw [clearCid_valid, Option.map_some]
    refine .call hprog (fun _ => trivial) fun _ s hs => ?_
    obtain ⟨hspares, hgone, hst⟩ := leave_gone hinv hprog hs
    exact ⟨hspares, hfake, ⟨rfl, hact, hgone⟩, hst hmark⟩
  split
  · refine .call hprog (fun _ => trivial) fun _ s hs => ?_
    exact ⟨leave_spares hinv hs, trivial⟩
  · exact .idle ⟨hfake, hact, _, rfl, hprog, hmark⟩

theorem instrument_served (hmask : (List.range h.sched.numCores).any (conf.mask (getPid t)))
    (hplace : th.place = .app) (hsys : th.inSyscall = false) :
    Served conf h t (instrument conf h t th) := by
  have hidle := Served.idle hok
  simp only [HookOk, hplace] at hok
  rw [instrument]
  split
  · rename_i hptrs
    simp only [hptrs] at hok
    obtain ⟨⟨hcid, hact, hgone⟩, hfake⟩ := hok
    refine .call hgone (fun _ => trivial) fun _ s hs => ?_
    obtain ⟨hspares, hmap, hwait⟩ := join_spares hinv hgone hs
    refine ⟨hspares, ?_, hcid, hact, hmap.trans hgone.1, hwait⟩
    by_contra hf
    have := (hfake (by simpa using hf)).1
    rw [hsys] at this
    cases this
  · rename_i hptrs
    simp only [hptrs] at hok
    split
    · exact hidle
    · exact simThreadStart_served hmask hok
  · exact hidle

omit hok in
theorem leaveForSyscall_served {blacklisted : Bool} (hprog : h.sched.InProgram t c)
    (hcid : th.cid = .valid c) (hact : th.activeThread = true) (hsys : th.inSyscall = true)
    (hptrs : th.fPtrs = .analysisPtrs) (hblock : conf.blockingSyscalls = false) :
    Served conf h t (leaveForSyscall conf t th blacklisted) := by
  rw [leaveForSyscall, if_pos ⟨by simp [hptrs, InstrFuncPtrs.type], hblock⟩, hcid]
  refine .call hprog (fun _ => trivial) fun _ s hs => ?_
  obtain ⟨hspares, hgone⟩ := syscallLeave_gone hinv hprog hs
  exact ⟨hspares, ⟨rfl, hact, hgone⟩, fun _ => ⟨hsys, hblock⟩⟩

theorem syscallEnter_served {patch : Option SleepPatch} {blacklisted : Bool}
    (hth : h.threads t = th) (hplace : th.place = .app) (hsys : th.inSyscall = false)
    (hwake : ∀ p, patch = some p → h.sched.curPhase < p.wakeupPhase) :
    Served conf h t (syscallEnter conf t th patch blacklisted) := by
  obtain ⟨fPtrs, cid, active, sys, fake, place⟩ := th
  cases hplace
  cases hsys
  cases fPtrs with
  | nopPtrs => exact .idle hok
  | ffPtrs => exact .idle hok
  | retryPtrs => exact .idle hok
  | analysisPtrs =>
    obtain ⟨hfake, hact, c, hcid, hprog, hmark⟩ := hok
    cases hfake
    cases hcid
    cases patch with
    | some p =>
      rw [syscallEnter_patched rfl (.inl rfl) rfl]
      refine .call ⟨hprog.inMap hinv, hmark, hwake p rfl⟩ (fun _ => ⟨c, hprog⟩) fun ho s hs => ?_
      obtain ⟨hspares, -, hprog'⟩ := markForSleep_self hprog hs
      exact ⟨hspares, rfl, ho.2, rfl, hact, c, rfl, hprog'⟩
    | none =>
      cases hblock : conf.blockingSyscalls with
      | true =>
        rw [syscallEnter_unpatched rfl (.inl rfl), leaveForSyscall, if_neg (by simp [hblock])]
        exact .idle ⟨rfl, hact, c, rfl, hprog, hmark⟩
      | false => exact leaveForSyscall_served hinv hprog rfl hact rfl rfl hblock
  | joinPtrs =>
    obtain ⟨⟨hcid, hact, hgone⟩, hfake⟩ := hok
    have hnot : fake = false := by
      by_contra hf
      exact absurd (hfake (by simpa using hf)).1 (by simp)
    cases patch with
    | some p =>
      -- no thread is marked for sleep before it has joined
      rw [syscallEnter_patched rfl (.inr rfl) hnot]
      refine .call ⟨hgone.1, (hgone.idle hinv).1, hwake p rfl⟩ (fun ho => ?_) fun ho => ?_ <;>
        simp [HookOrderly, hth] at ho
    | none =>
      rw [syscallEnter_unpatched rfl (.inr rfl), leaveForSyscall,
        if_neg (by simp [InstrFuncPtrs.type])]
      exact .idle ⟨⟨hcid, hact, hgone⟩, fun hf => absurd hf (by simp [hnot])⟩

omit hinv in
/-- A thread in the middle of a timed call has no core. -/
theorem offCore_of_fake (hplace : th.place = .app) (hfake : th.inFakeTimeoutMode = true) :
    th.OffCore h.sched t ∧ conf.blockingSyscalls = false ∧
      (th.fPtrs = .joinPtrs ∨ th.fPtrs = .retryPtrs) := by
  obtain ⟨fPtrs, cid, active, sys, fake, place⟩ := th
  cases hplace
  cases hfake
  cases fPtrs with
  | joinPtrs => exact ⟨hok.1, (hok.2 rfl).2, .inl rfl⟩
  | retryPtrs => exact ⟨hok.1, hok.2 rfl, .inr rfl⟩
  | analysisPtrs => cases hok.1
  | nopPtrs | ffPtrs => cases hok.2.1

omit hok in
theorem returnFromSyscall_left (hptrs : th.fPtrs = .joinPtrs) (hfake : th.inFakeTimeoutMode = false)
    (hoff : th.OffCore h.sched t) {place : HookPlace} (hplace : place = .ended ∨ place = .app) :
    Served conf h t (returnFromSyscall h t th place) := by
  obtain ⟨hcid, hact, hgone⟩ := hoff
  rw [returnFromSyscall]
  split
  · obtain ⟨hmark, hqueued⟩ := hgone.idle hinv
    exact simThreadFini_served hinv hgone.1 hmark hqueued
      (hplace.imp_right fun happ => ⟨happ, rfl, hfake⟩)
  · rcases hplace with rfl | rfl
    · exact .idle trivial
    · apply Served.idle
      simp only [HookOk, hptrs]
      exact ⟨⟨hcid, hact, hgone⟩, fun hf => by simp [hfake] at hf⟩

omit hinv in
theorem returnFromSyscall_other (hptrs : th.fPtrs ≠ .joinPtrs) {place : HookPlace}
    (hplace : place = .ended ∨ place = .app ∧ th.place = .app) :
    Served conf h t (returnFromSyscall h t th place) := by
  obtain ⟨fPtrs, cid, active, sys, fake, at'⟩ := th
  rw [returnFromSyscall, if_neg (by cases fPtrs <;> simp_all [InstrFuncPtrs.type])]
  rcases hplace with rfl | ⟨rfl, rfl⟩
  · exact .idle trivial
  · exact .idle hok

theorem syscallExit_served {ppa : PostPatchAction} (hplace : th.place = .app)
    (hsys : th.inSyscall = true) (hppa : ppa ≠ .PPA_NOTHING ↔ th.inFakeTimeoutMode = true) :
    Served conf h t (syscallExit conf h t th ppa) := by
  have hend : (if h.terminationConditionMet then HookPlace.ended else .app) = .ended ∨
      (if h.terminationConditionMet then HookPlace.ended else .app) = .app := by
    split
    · exact .inl rfl
    · exact .inr rfl
  obtain ⟨fPtrs, cid, active, sys, fake, place⟩ := th
  cases hplace
  cases hsys
  unfold syscallExit
  rw [if_pos rfl]
  cases ppa with
  | PPA_NOTHING =>
    have hnot : fake = false := by simpa using hppa
    cases hnot
    cases fPtrs with
    | joinPtrs =>
      apply returnFromSyscall_left hinv rfl rfl _ hend
      exact hok.1
    | analysisPtrs | retryPtrs | nopPtrs | ffPtrs =>
      refine returnFromSyscall_other ?_ (by simp) (hend.imp_right fun happ => ⟨happ, rfl⟩)
      exact hok
  | PPA_USE_RETRY_PTRS =>
    have hfake : fake = true := by simpa using hppa
    obtain ⟨hoff, hblock, -⟩ := offCore_of_fake hok rfl hfake
    refine returnFromSyscall_other ?_ (by simp) (hend.imp_right fun happ => ⟨happ, rfl⟩)
    exact ⟨hoff, fun _ => hblock⟩
  | PPA_USE_JOIN_PTRS =>
    have hfake : fake = true := by simpa using hppa
    obtain ⟨hoff, hblock, -⟩ := offCore_of_fake hok rfl hfake
    simp only [hblock]
    apply returnFromSyscall_left hinv rfl rfl _ hend
    exact hoff

theorem threadFini_served (hplace : th.place = .app) : Served conf h t (threadFini t th) := by
  simp only [HookOk, hplace] at hok
  rw [threadFini]
  have hoff : th.OffCore h.sched t →
      Served conf h t (some (simThreadFini t th th.fPtrs .ended)) := by
    rintro ⟨-, -, hgone⟩
    obtain ⟨hmark, hqueued⟩ := hgone.idle hinv
    exact simThreadFini_served hinv hgone.1 hmark hqueued (.inl rfl)
  split
  · exact .idle trivial
  · cases hptrs : th.fPtrs <;> simp only [hptrs] at hok hoff
    · obtain ⟨-, -, c, -, hprog, hmark⟩ := hok
      exact simThreadFini_served hinv (hprog.inMap hinv) hmark (by simp [hprog.1]) (.inl rfl)
    · exact hoff hok.1
    · simp_all [InstrFuncPtrs.type]
    · exact hoff hok.1
    · simp_all [InstrFuncPtrs.type]

theorem hook_served (hmask : (List.range h.sched.numCores).any (conf.mask (getPid t)))
    (hth : h.threads t = th) (hdel : Delivered h t th ev) :
    Served conf h t (hook conf h t th ev) := by
  cases hdel with
  | threadStart hplace =>
    simp only [HookOk, hplace] at hok
    rw [hook, threadStart]
    split
    · exact .idle hok
    split
    · exact .idle hok
    · exact simThreadStart_served hmask hok
  | instrument hplace hsys => exact instrument_served hinv hok hmask hplace hsys
  | registerThread hplace hsys =>
    rw [hook, handleRegisterThread]
    split
    · rename_i htype
      apply simThreadStart_served hmask
      simp only [HookOk, hplace] at hok
      cases hptrs : th.fPtrs <;> simp_all [InstrFuncPtrs.type]
    · exact .idle hok
  | takeBarrier hplace hsys hptrs => exact takeBarrier_served hok hplace hptrs
  | syscallEnter hplace hsys hwake => exact syscallEnter_served hinv hok hth hplace hsys hwake
  | stillSleeping hplace hsys hfake hsleep =>
    obtain ⟨hoff, hblock, hptrs⟩ := offCore_of_fake hok hplace hfake
    exact .idle ⟨hptrs, hblock, hsys, hoff, .inr hsleep⟩
  | syscallExit hplace hsys hppa => exact syscallExit_served hinv hok hplace hsys hppa
  | threadFini hplace => exact threadFini_served hinv hok hplace
  | goOn hplace =>
    rw [hook, resume]
    rcases hplace with ⟨b, hplace⟩ | hplace | hplace <;> simp only [HookOk, hplace] at hok ⊢
    · obtain ⟨hptrs, hblock, hsys, hact, c, hcid, hprog⟩ := hok
      exact leaveForSyscall_served hinv hprog hcid hact hsys hptrs hblock
    · obtain ⟨hptrs, hblock, hsys, ⟨hcid, hact, hgone⟩, hst⟩ := hok
      refine .call ⟨hgone.1, hst⟩ (fun _ => trivial) fun _ s hs => ?_
      obtain ⟨hspares, hgone', -⟩ := notifySleepEnd_gone hgone.1 hs
      refine ⟨hspares, ?_⟩
      rcases hptrs with hptrs | hptrs <;> simp only [HookOk, hptrs]
      · exact ⟨⟨hcid, hact, hgone'⟩, fun _ => ⟨hsys, hblock⟩⟩
      · exact ⟨⟨hcid, hact, hgone'⟩, fun _ => hblock⟩
    · obtain ⟨hfake, ⟨-, -, hgone⟩, -⟩ := hok
      obtain ⟨hmark, hqueued⟩ := hgone.idle hinv
      exact simThreadFini_served hinv hgone.1 hmark hqueued (.inr ⟨rfl, rfl, hfake⟩)
  | running hplace hrun =>
    rw [hook, resume]
    rcases hplace with hplace | hplace <;> simp only [hplace]
    · exact joined_served hinv hok hplace hrun
    · exact synced_served hinv hok hplace hrun
  | released hplace hsynced =>
    simp only [HookOk, hplace] at hok
    obtain ⟨hfake, hact, c, hcid, hsync⟩ := hok
    rw [hook, resume]
    simp only [hplace]
    refine .call hsynced (fun _ => trivial) fun _ s hs => ?_
    obtain ⟨hspares, hmap, hwait⟩ := syncEnd_waiting hinv hsynced hs
    exact ⟨hspares, hfake, hact, c, hcid, hmap.trans (hinv.inMap (by simp [hsync.1])), hwait⟩

end events

/-- The watchdog comes only for threads that their hooks have let go. -/
theorem HookOk.unfake (hinv : Inv none none s) (hok : HookOk conf s t th)
    (hfake : (s.threads t).fakeLeave = true) (hs : s.breakFakeLeave t = some s') :
    HookOk conf s' t th := by
  obtain ⟨-, hgone', hst'⟩ := breakFakeLeave_gone hinv hfake hs
  have hrun := ((hinv.threads t).fake hfake).1
  have hmap : s.gidMap t = true := hinv.inMap (by simp [hrun])
  have hprog : ∀ c, ¬ s.InProgram t c := fun c hprog => by
    have hnot := hprog.2.2.2
    rw [hfake] at hnot
    cases hnot
  have hwait : ¬ s.Waiting t := by
    rintro ⟨-, hst | ⟨c, hc⟩⟩
    · simp [hrun] at hst
    · exact hprog c hc
  have hout : ¬ th.Outside s t := fun hout => by
    have hnot := hout.2.2
    rw [hmap] at hnot
    cases hnot
  unfold HookOk at hok ⊢
  split at hok
  · exact (hout hok).elim
  · split at hok
    · exact (hout hok).elim
    · exact (hout hok).elim
    · obtain ⟨-, -, c, -, hc, -⟩ := hok
      exact (hprog c hc).elim
    · obtain ⟨⟨hcid, hact, -⟩, htimed⟩ := hok
      exact ⟨⟨hcid, hact, hgone'⟩, htimed⟩
    · obtain ⟨⟨hcid, hact, -⟩, htimed⟩ := hok
      exact ⟨⟨hcid, hact, hgone'⟩, htimed⟩
  · obtain ⟨-, -, -, -, c, -, hc⟩ := hok
    exact (hprog c hc).elim
  · obtain ⟨-, -, -, -, hst | hst⟩ := hok <;> simp [hrun] at hst
  · exact (hwait hok.2.2.2.2).elim
  · obtain ⟨-, -, c, -, hc⟩ := hok
    exact (hc.2.2 ((hinv.threads t).fake hfake).2).elim
  · obtain ⟨-, -, c, -, -, hc⟩ := hok
    exact (hwait hc).elim
  · obtain ⟨htimed, ⟨hcid, hact, -⟩, -⟩ := hok
    exact ⟨htimed, ⟨hcid, hact, hgone'⟩, hst'⟩
  · trivial

/-- All threads agree with the scheduler, which has come to its state in an orderly way. -/
structure HookInv (conf : HookConf) (numCores schedQuantum : Nat) (h : HookState) : Prop where
  sched : Reachable Orderly numCores schedQuantum h.sched
  numCores : h.sched.numCores = numCores
  threads : ∀ t, HookOk conf h.sched t (h.threads t)

section runs

variable {numCores schedQuantum : Nat} {isInFastForward : Nat → Bool}

theorem HookInv.init :
    HookInv conf numCores schedQuantum (.init numCores schedQuantum isInFastForward) :=
  ⟨.init, rfl, fun _ => ⟨rfl, rfl, rfl⟩⟩

theorem HookInv.served (h₀ : HookInv conf numCores schedQuantum h)
    (hmask : ∀ p, (List.range numCores).any (conf.mask p)) (hdel : Delivered h t (h.threads t) ev) :
    Served conf h t (hook conf h t (h.threads t) ev) :=
  hook_served h₀.sched.inv (h₀.threads t) (by rw [h₀.numCores]; exact hmask _) rfl hdel

theorem HookInv.step {op : Option Op} (h₀ : HookInv conf numCores schedQuantum h)
    (hmask : ∀ p, (List.range numCores).any (conf.mask p))
    (hstep : HookStep conf (HookOrderly conf) h op h') :
    HookInv conf numCores schedQuantum h' := by
  have hinv := h₀.sched.inv
  cases hstep with
  | @hook t ev _ th s hdel hhook hcall hrun =>
    obtain ⟨op', th', heq, hallowed, hafter⟩ := h₀.served hmask hdel
    rw [hhook] at heq
    cases heq
    obtain ⟨hspares, hok⟩ := hafter hcall s hrun
    refine ⟨?_, hspares.numCores.trans h₀.numCores, fun u => ?_⟩
    · cases op with
      | none =>
        cases hrun
        exact h₀.sched
      | some o =>
        obtain ⟨ha, ho⟩ := hallowed o rfl
        exact h₀.sched.step o ha (ho (hcall o rfl)) hrun
    · change HookOk conf s u (Function.update h.threads t th u)
      by_cases hu : u = t
      · rw [hu, Function.update_self]
        exact hok
      · rw [Function.update_of_ne hu]
        exact (h₀.threads u).drift hinv (hspares.gidMap u hu) (hspares.drift u hu)
  | fastForward p b => exact ⟨h₀.sched, h₀.numCores, h₀.threads⟩
  | terminate => exact ⟨h₀.sched, h₀.numCores, h₀.threads⟩
  | @watchdog t s hfake hrun =>
    obtain ⟨hspares, -⟩ := breakFakeLeave_gone hinv hfake hrun
    refine ⟨h₀.sched.step (.breakFakeLeave t) hfake trivial hrun,
      hspares.numCores.trans h₀.numCores, fun u => ?_⟩
    by_cases hu : u = t
    · rw [hu]
      exact (h₀.threads t).unfake hinv hfake hrun
    · exact (h₀.threads u).drift hinv (hspares.gidMap u hu) (hspares.drift u hu)
  | @phaseEnd avail s hallowed hrun =>
    have hdrifts := callback_drifts hinv hrun
    exact ⟨h₀.sched.step (.callback avail) hallowed trivial hrun,
      hdrifts.numCores.trans h₀.numCores,
      fun u => (h₀.threads u).drift hinv (congrFun hdrifts.gidMap u)
        ((passBarrier_drift h.sched u).trans (hdrifts.drift u))⟩

theorem HookReachable.inv (hmask : ∀ p, (List.range numCores).any (conf.mask p))
    (hreach : HookReachable conf (HookOrderly conf) numCores schedQuantum isInFastForward h) :
    HookInv conf numCores schedQuantum h := by
  induction hreach with
  | init => exact .init
  | step _ hstep ih => exact ih.step hmask hstep

end runs

end

end ZSim
