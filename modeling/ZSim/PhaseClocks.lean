import ZSim.FilterCache
import ZSim.ThreadHooks

/-! The clocks of the cores in the bound phase. A core simulates on its own until its clock has
passed the end of the phase, and there its thread waits for those of all other cores. The cores
are of the kind `SimpleCore`. Whether a cache has a line, and when the levels above answer, is
left open. Cycles do not overflow. -/

namespace ZSim

open Scheduler

/-- A first-level cache, as its core sees it: the filter array, and when the line of each of its
entries is there. -/
structure TimedFilterCache extends FilterConfig where
  accLat : Nat
  filterArray : Nat → FilterEntry
  availCycle : Nat → Nat

/-- What the bottom controller does in an access, a miss being answered at `respCycle`. -/
inductive L1Access
  | hit
  | miss (respCycle netLat : Nat)

namespace TimedFilterCache

def init (G : FilterConfig) (accLat : Nat) : TimedFilterCache :=
  ⟨G, accLat, fun _ => .clear, fun _ => 0⟩

variable (l1 : TimedFilterCache)

/-- `MESIBottomCC::processAccess`. The latencies are of 32 bits. -/
def processAccess (cycle : Nat) : L1Access → Nat
  | .hit => cycle
  | .miss respCycle netLat =>
    let nextLevelLat := (respCycle + 2 ^ 64 - cycle) % 2 ^ 32
    cycle + (nextLevelLat + netLat) % 2 ^ 32

/-- `Cache::access` over a terminal controller, which skips no access of a core. -/
def access (cycle : Nat) (a : L1Access) : Nat := processAccess (cycle + l1.accLat) a

/-- `dropped` tells that the entry has been dropped while the access let go of `filterLock`. -/
def replace (vLineAddr : Address) (idx : Nat) (isLoad : Bool) (curCycle : Nat) (a : L1Access)
    (dropped : Bool) : Nat × TimedFilterCache :=
  let respCycle := l1.access curCycle a
  let oldAddr := if dropped then noAddr else (l1.filterArray idx).rdAddr
  (respCycle, { l1 with
    filterArray := Function.update l1.filterArray idx
      ⟨vLineAddr, if isLoad then noAddr else vLineAddr⟩
    availCycle :=
      if oldAddr ≠ vLineAddr then Function.update l1.availCycle idx respCycle
      else l1.availCycle })

def load (vAddr : Address) (curCycle : Nat) (a : L1Access) (dropped : Bool) :
    Nat × TimedFilterCache :=
  let vLineAddr := l1.vLineAddr vAddr
  let idx := vLineAddr &&& l1.setMask
  if vLineAddr = (l1.filterArray idx).rdAddr then (max curCycle (l1.availCycle idx), l1)
  else l1.replace vLineAddr idx true curCycle a dropped

def store (vAddr : Address) (curCycle : Nat) (a : L1Access) (dropped : Bool) :
    Nat × TimedFilterCache :=
  let vLineAddr := l1.vLineAddr vAddr
  let idx := vLineAddr &&& l1.setMask
  if vLineAddr = (l1.filterArray idx).wrAddr then (max curCycle (l1.availCycle idx), l1)
  else l1.replace vLineAddr idx false curCycle a dropped

/-- `procMask` is that of the process that invalidates. -/
def invalidate (procMask lineAddr : Address) : TimedFilterCache :=
  let idx := lineAddr &&& l1.setMask
  if (l1.filterArray idx).rdAddr ||| procMask = lineAddr then
    { l1 with filterArray := Function.update l1.filterArray idx ⟨noAddr, noAddr⟩ }
  else l1

def contextSwitch : TimedFilterCache :=
  { l1 with filterArray := fun _ => .clear, availCycle := fun _ => 0 }

/-- The lines of a basic block are loaded one after the other. -/
def fetch (bblAddr : Address) (access : Nat → L1Access × Bool) (fetches : List Nat)
    (curCycle : Nat) : Nat × TimedFilterCache :=
  fetches.foldl (fun r k =>
    r.2.load (bblAddr + k * 2 ^ l1.lineBits) r.1 (access k).1 (access k).2) (curCycle, l1)

end TimedFilterCache

structure SimpleCore where
  l1i : TimedFilterCache
  l1d : TimedFilterCache
  instrs : Nat
  curCycle : Nat
  phaseEndCycle : Nat
  haltedCycles : Nat

namespace SimpleCore

/-- The constructor does not set `phaseEndCycle`. -/
def init (l1i l1d : TimedFilterCache) (phaseEndCycle : Nat) : SimpleCore :=
  ⟨l1i, l1d, 0, 0, phaseEndCycle, 0⟩

def load (core : SimpleCore) (addr : Address) (a : L1Access) (dropped : Bool) : SimpleCore :=
  let r := core.l1d.load addr core.curCycle a dropped
  { core with l1d := r.2, curCycle := r.1 }

def store (core : SimpleCore) (addr : Address) (a : L1Access) (dropped : Bool) : SimpleCore :=
  let r := core.l1d.store addr core.curCycle a dropped
  { core with l1d := r.2, curCycle := r.1 }

def bbl (core : SimpleCore) (bblAddr : Address) (instrs bytes : Nat)
    (access : Nat → L1Access × Bool) : SimpleCore :=
  let lineSize := 2 ^ core.l1i.lineBits
  let r := core.l1i.fetch bblAddr access (List.range ((bytes + lineSize - 1) / lineSize))
    (core.curCycle + instrs)
  { core with l1i := r.2, instrs := core.instrs + instrs, curCycle := r.1 }

/-- Called with no thread when one is descheduled. -/
def contextSwitch (core : SimpleCore) : SimpleCore :=
  { core with l1i := core.l1i.contextSwitch, l1d := core.l1d.contextSwitch }

def join (core : SimpleCore) (globPhaseCycles phaseLength : Nat) : SimpleCore :=
  let core :=
    if core.curCycle < globPhaseCycles then
      { core with
        haltedCycles := core.haltedCycles + (globPhaseCycles - core.curCycle)
        curCycle := globPhaseCycles }
    else core
  { core with phaseEndCycle := globPhaseCycles + phaseLength }

/-- A turn of the loop of `BblFunc`, up to `TakeBarrier`. -/
def endPhase (core : SimpleCore) (globPhaseCycles phaseLength : Nat) : Option SimpleCore :=
  if core.phaseEndCycle = globPhaseCycles + phaseLength then
    some { core with phaseEndCycle := core.phaseEndCycle + phaseLength }
  else none

/-- The core simulates something. -/
inductive Runs (core : SimpleCore) : SimpleCore → Prop
  | load (addr : Address) (a : L1Access) (dropped : Bool) : Runs core (core.load addr a dropped)
  | store (addr : Address) (a : L1Access) (dropped : Bool) : Runs core (core.store addr a dropped)
  | bbl (bblAddr : Address) (instrs bytes : Nat) (access : Nat → L1Access × Bool) :
      Runs core (core.bbl bblAddr instrs bytes access)

/-- What others do to the caches of the core. -/
inductive Disturbed (core : SimpleCore) : SimpleCore → Prop
  | invalidateInstr (procMask lineAddr : Address) :
      Disturbed core { core with l1i := core.l1i.invalidate procMask lineAddr }
  | invalidateData (procMask lineAddr : Address) :
      Disturbed core { core with l1d := core.l1d.invalidate procMask lineAddr }
  | contextSwitch : Disturbed core core.contextSwitch

end SimpleCore

namespace Scheduler

/-- `leave` joins the core if a waiting thread gets it. -/
def leaveJoins (s : Scheduler) (c : Nat) : Option Nat :=
  (s.runQueue.find? fun t => (s.threads t).mask c).map fun _ => c

/-- The core whose `join` is called in an operation. -/
def joinedCore (s : Scheduler) : Op → Option Nat
  | .join t =>
    if (s.threads t).fakeLeave then none
    else
      (if (s.threads t).state = .SLEEPING then endSleep t s else some s).bind fun s =>
        if (s.threads t).state = .OUT then some (s.threads t).cid
        else (schedThread t s).bind Prod.fst
  | .leave _ c => leaveJoins s c
  | .syscallLeave t c blacklisted =>
    if blacklisted ∨ (s.threads t).markedForSleep then leaveJoins s c else none
  | .breakFakeLeave t => leaveJoins s (s.threads t).cid
  | .finish t =>
    if (s.threads t).fakeLeave ∨ (s.threads t).state = .RUNNING then
      leaveJoins s (s.threads t).cid
    else none
  | .syncEnd t =>
    match (s.threads t).handoffThread with
    | none => none
    | some d =>
      ((deschedule t (s.threads t).cid .QUEUED (s.setThread t
        { s.threads t with handoffThread := none, place := .program })).bind fun s' =>
          (handOver d (s.threads t).cid s').bind fun s' => (schedThread t s').bind Prod.fst)
  | _ => none

end Scheduler

def joinCore (cores : Nat → SimpleCore) (globPhaseCycles phaseLength : Nat) :
    Option Nat → Nat → SimpleCore
  | none => cores
  | some c => Function.update cores c ((cores c).join globPhaseCycles phaseLength)

structure BoundPhase where
  hooks : HookState
  cores : Nat → SimpleCore
  globPhaseCycles : Nat

def BoundPhase.init (numCores schedQuantum : Nat) (isInFastForward : Nat → Bool)
    (cores : Nat → SimpleCore) : BoundPhase :=
  ⟨.init numCores schedQuantum isInFastForward, cores, 0⟩

namespace BoundPhase

variable (phaseLength : Nat) (b : BoundPhase)

def coresAfter : Option Op → Option (Nat → SimpleCore)
  | none => some b.cores
  | some (.syncStart _ c) =>
    ((b.cores c).endPhase b.globPhaseCycles phaseLength).map (Function.update b.cores c)
  | some op =>
    some (joinCore b.cores b.globPhaseCycles phaseLength (b.hooks.sched.joinedCore op))

def globAfter : Option Op → Nat
  | some (.callback _) => b.globPhaseCycles + phaseLength
  | _ => b.globPhaseCycles

end BoundPhase

/-- A thread simulates on its core, something comes to the caches of a core, or a thread takes a
step of its hooks. It takes the barrier when its core has passed the end of the phase. -/
inductive BoundStep (conf : HookConf) (phaseLength : Nat) (b : BoundPhase) : BoundPhase → Prop
  | simulate {t c : Nat} {core : SimpleCore} : (b.hooks.threads t).place = .app →
      (b.hooks.threads t).fPtrs = .analysisPtrs → (b.hooks.threads t).cid = .valid c →
      (b.cores c).Runs core →
      BoundStep conf phaseLength b { b with cores := Function.update b.cores c core }
  | disturb {c : Nat} {core : SimpleCore} : (b.cores c).Disturbed core →
      BoundStep conf phaseLength b { b with cores := Function.update b.cores c core }
  | hook {op : Option Op} {h : HookState} {cores : Nat → SimpleCore} :
      HookStep conf (HookOrderly conf) b.hooks op h →
      (∀ t c, op = some (.syncStart t c) → (b.cores c).phaseEndCycle < (b.cores c).curCycle) →
      b.coresAfter phaseLength op = some cores →
      BoundStep conf phaseLength b ⟨h, cores, b.globAfter phaseLength op⟩

inductive BoundReachable (conf : HookConf) (phaseLength numCores schedQuantum : Nat)
    (isInFastForward : Nat → Bool) : BoundPhase → Prop
  | init (l1i l1d : Nat → FilterConfig × Nat) (phaseEndCycle : Nat → Nat) :
      BoundReachable conf phaseLength numCores schedQuantum isInFastForward
        (.init numCores schedQuantum isInFastForward fun c =>
          .init (.init (l1i c).1 (l1i c).2) (.init (l1d c).1 (l1d c).2) (phaseEndCycle c))
  | step {b b' : BoundPhase}
      (hreach : BoundReachable conf phaseLength numCores schedQuantum isInFastForward b)
      (hstep : BoundStep conf phaseLength b b') :
      BoundReachable conf phaseLength numCores schedQuantum isInFastForward b'

namespace Scheduler

variable {s s' s₁ s₂ s₃ : Scheduler} {j : Option Nat} {t u c d : Nat} {th : ThreadInfo}

/-- Who runs on which core after an operation that joins the core `j`: someone on `j`, and on
any other core someone who is at the barrier if and only if the one before was. -/
structure Moved (j : Option Nat) (s s' : Scheduler) : Prop where
  joined : ∀ c, j = some c → ∃ u, (s'.threads u).state = .RUNNING ∧ (s'.threads u).cid = c ∧
    (s'.threads u).place = .program
  running : ∀ u, (s'.threads u).state = .RUNNING → j = some (s'.threads u).cid ∨
    ∃ v, (s.threads v).state = .RUNNING ∧ (s.threads v).cid = (s'.threads u).cid ∧
      ((s.threads v).place = .inSync ↔ (s'.threads u).place = .inSync)

theorem Moved.trans (h : Moved none s₁ s₂) (h' : Moved j s₂ s₃) : Moved j s₁ s₃ := by
  refine ⟨h'.joined, fun u hu => ?_⟩
  rcases h'.running u hu with hj | ⟨v, hv, hcid, hplace⟩
  · exact .inl hj
  · rcases h.running v hv with hnone | ⟨w, hw, hcid', hplace'⟩
    · cases hnone
    · exact .inr ⟨w, hw, hcid'.trans hcid, hplace'.trans hplace⟩

theorem Same.moved (h : Same s s') : Moved none s s' := by
  refine ⟨by simp, fun u hu => .inr ⟨u, ?_⟩⟩
  rw [h.threads] at hu ⊢
  exact ⟨hu, .refl _, .rfl⟩

/-- The thread `t` has no core any more. -/
theorem Sets.moved_off (h : Sets t th s s') (hth : th.state ≠ .RUNNING) : Moved none s s' := by
  refine ⟨by simp, fun u hu => .inr ⟨u, ?_⟩⟩
  have hut : u ≠ t := by
    rintro rfl
    rw [h.self] at hu
    exact hth hu
  rw [h.others u hut] at hu ⊢
  exact ⟨hu, rfl, .rfl⟩

/-- The thread `t` gets a core. -/
theorem Sets.moved_on (h : Sets t th s s') (hth : th.state = .RUNNING)
    (hplace : th.place = .program) : Moved (some th.cid) s s' := by
  constructor
  · rintro c ⟨⟩
    refine ⟨t, ?_⟩
    rw [h.self]
    exact ⟨hth, rfl, hplace⟩
  · intro u hu
    by_cases hut : u = t
    · rw [hut, h.self]
      exact .inl rfl
    · rw [h.others u hut] at hu ⊢
      exact .inr ⟨u, hu, rfl, .rfl⟩

theorem Sets.moved_keep (h : Sets t th s s') (hst : th.state = (s.threads t).state)
    (hcid : th.cid = (s.threads t).cid)
    (hplace : (s.threads t).place = .inSync ↔ th.place = .inSync) : Moved none s s' := by
  refine ⟨by simp, fun u hu => .inr ?_⟩
  by_cases hut : u = t
  · rw [hut, h.self] at hu ⊢
    exact ⟨t, hst ▸ hu, hcid.symm, hplace⟩
  · rw [h.others u hut] at hu ⊢
    exact ⟨u, hu, rfl, .rfl⟩

theorem steal_moved {ctx : Option Nat} (hs : steal t s = some (ctx, s')) : Moved none s s' := by
  rw [steal] at hs
  split at hs
  · obtain ⟨-, rfl⟩ := Prod.mk.inj (Option.some.inj hs)
    exact Same.rfl.moved
  · obtain ⟨s₂, hs₂, heq⟩ := Option.map_eq_some_iff.mp hs
    obtain ⟨-, rfl⟩ := Prod.mk.inj heq
    obtain ⟨s₁, hs₁, hs₂⟩ := Option.bind_eq_some_iff.mp hs₂
    exact (removeOut_same hs₁).moved.trans ((deschedule_sets hs₂).1.moved_off (by simp))

theorem schedThread_moved {ctx : Option Nat} (hs : schedThread t s = some (ctx, s')) :
    Moved none s s' := by
  have hfree : ∀ c, (removeFree c s).map (fun s => (some c, s)) = some (ctx, s') →
      Moved none s s' := by
    intro c hc
    obtain ⟨s₁, hs₁, heq⟩ := Option.map_eq_some_iff.mp hc
    obtain ⟨-, rfl⟩ := Prod.mk.inj heq
    exact (removeFree_same hs₁).moved
  rw [schedThread] at hs
  split at hs
  · simp at hs
  split at hs
  · exact hfree _ hs
  split at hs
  · exact hfree _ hs
  · exact steal_moved hs

theorem scheduleOrWait_moved (hs : scheduleOrWait t s = some s') :
    Moved ((schedThread t s).bind Prod.fst) s s' := by
  obtain ⟨⟨ctx, s₁⟩, hs₁, hs'⟩ := Option.bind_eq_some_iff.mp hs
  rw [hs₁, Option.bind_some]
  refine (schedThread_moved hs₁).trans ?_
  cases ctx with
  | some c =>
    exact (schedule_sets hs').1.moved_on rfl rfl
  | none =>
    obtain ⟨s₂, hs₂, rfl⟩ := Option.map_eq_some_iff.mp hs'
    have hsets := (setThread_sets s₁ t _).same (pushRun_same hs₂)
    refine (hsets.moved_off (by simp)).trans ?_
    exact (setThread_sets s₂ t _).moved_keep rfl rfl .rfl

theorem join_moved (hs : join t s = some s') : Moved (s.joinedCore (.join t)) s s' := by
  rw [join] at hs
  split at hs
  · simp at hs
  rw [joinedCore]
  split at hs
  · rename_i hfake
    rw [if_pos hfake]
    exact (finishFakeLeave_sets hs).1.moved_keep rfl rfl .rfl
  rename_i hfake
  rw [if_neg hfake]
  split at hs
  · simp at hs
  obtain ⟨s₁, hs₁, hs'⟩ := Option.bind_eq_some_iff.mp hs
  have hfirst : Moved none s s₁ := by
    split at hs₁
    · have hsets := (setThread_sets s t { s.threads t with state := .BLOCKED }).same
        (removeSleep_same (t := t) (hs₁ : endSleep t s = some s₁))
      exact hsets.moved_off (by simp)
    · cases hs₁
      exact Same.rfl.moved
  rw [hs₁, Option.bind_some]
  refine hfirst.trans ?_
  rw [joinAwake] at hs'
  split at hs'
  · rename_i hout
    rw [if_pos hout]
    exact ((setThread_sets s₁ t _).same (removeOut_same hs')).moved_on rfl rfl
  · rename_i hout
    rw [if_neg hout]
    split at hs'
    · exact scheduleOrWait_moved hs'
    · simp at hs'

theorem Sets.mask (h : Sets t th s s') (hth : th.mask = (s.threads t).mask) (u : Nat) :
    (s'.threads u).mask = (s.threads u).mask := by
  by_cases hu : u = t
  · rw [hu, h.self, hth]
  · rw [h.others u hu]

theorem leaveJoins_congr (hrun : s'.runQueue = s.runQueue)
    (hmask : ∀ u, (s'.threads u).mask = (s.threads u).mask) :
    s'.leaveJoins c = s.leaveJoins c := by
  simp only [leaveJoins, hrun, hmask]

theorem leaveJoins_eq {inTh : Option Nat} (hs : schedContext c s = some (inTh, s')) :
    s.leaveJoins c = inTh.map fun _ => c := by
  rw [leaveJoins]
  rw [schedContext] at hs
  split at hs
  · cases hs
    simp_all
  · rename_i u hu
    obtain ⟨s₃, -, heq⟩ := Option.map_eq_some_iff.mp hs
    cases heq
    rw [hu]

theorem leave_moved (hs : leave t c s = some s') : Moved (s.leaveJoins c) s s' := by
  rw [leave] at hs
  split at hs
  swap
  · simp at hs
  split at hs
  · obtain ⟨s₁, hs₁, hs⟩ := Option.bind_eq_some_iff.mp hs
    obtain ⟨s₂, hs₂, hs⟩ := Option.bind_eq_some_iff.mp hs
    obtain ⟨⟨inTh, s₃⟩, hs₃, hs⟩ := Option.bind_eq_some_iff.mp hs
    obtain ⟨h₁, hrun₁, -⟩ := deschedule_sets hs₁
    have h₂ := ((setThread_sets s t _).trans h₁).same (pushSleep_same hs₂)
    rw [setThread_self] at h₂
    have hrun₂ : s₂.runQueue = s.runQueue := (pushSleep_sameQueues hs₂).1.trans hrun₁
    rw [← leaveJoins_congr hrun₂ (h₂.mask rfl), leaveJoins_eq hs₃]
    refine ((h₂.same (schedContext_same hs₃).1).moved_off (by simp)).trans ?_
    cases inTh with
    | none => exact (pushFree_same hs).moved
    | some u => exact (handOver_sets hs).1.moved_on rfl rfl
  · obtain ⟨⟨inTh, s₁⟩, hs₁, hs⟩ := Option.bind_eq_some_iff.mp hs
    rw [leaveJoins_eq hs₁]
    refine (schedContext_same hs₁).1.moved.trans ?_
    cases inTh with
    | none => exact ((setThread_sets s₁ t _).same (pushOut_same hs)).moved_off (by simp)
    | some u =>
      obtain ⟨s₂, hs₂, hs⟩ := Option.bind_eq_some_iff.mp hs
      exact ((deschedule_sets hs₂).1.moved_off (by simp)).trans
        ((handOver_sets hs).1.moved_on rfl rfl)

theorem breakFakeLeave_moved (hs : breakFakeLeave t s = some s') :
    Moved (s.leaveJoins (s.threads t).cid) s s' := by
  obtain ⟨s₁, hs₁, hs'⟩ := Option.bind_eq_some_iff.mp hs
  rw [finishFakeLeave] at hs₁
  split at hs₁
  swap
  · simp at hs₁
  cases hs₁
  have hsets := setThread_sets s t { s.threads t with fakeLeave := false }
  have hjoins : (s.setThread t { s.threads t with fakeLeave := false }).leaveJoins
      (s.threads t).cid = s.leaveJoins (s.threads t).cid := leaveJoins_congr rfl (hsets.mask rfl)
  rw [← hjoins]
  exact (hsets.moved_keep rfl rfl .rfl).trans (leave_moved hs')

/-- A thread that syncs passes on its core as it is. -/
theorem handOff_moved (hrun : (s.threads t).state = .RUNNING)
    (hplace : (s.threads t).place = .synced) (hdt : d ≠ t) (hs : handOff t d s = some s') :
    Moved ((deschedule t (s.threads t).cid .QUEUED (s.setThread t
      { s.threads t with handoffThread := none, place := .program })).bind fun s' =>
        (handOver d (s.threads t).cid s').bind fun s' =>
          (schedThread t s').bind Prod.fst) s s' := by
  obtain ⟨s₁, hs₁, hs'⟩ := Option.bind_eq_some_iff.mp hs
  obtain ⟨s₂, hs₂, hs''⟩ := Option.bind_eq_some_iff.mp hs'
  rw [hs₁, Option.bind_some, hs₂, Option.bind_some]
  refine .trans ⟨by simp, fun u hu => .inr ?_⟩ (scheduleOrWait_moved hs'')
  have h₁ := (setThread_sets s t _).trans (deschedule_sets hs₁).1
  obtain ⟨h₂, -⟩ := handOver_sets hs₂
  by_cases hud : u = d
  · rw [hud, h₂.self]
    exact ⟨t, hrun, rfl, by simp [hplace]⟩
  rw [h₂.others u hud] at hu ⊢
  have hut : u ≠ t := by
    rintro rfl
    rw [h₁.self] at hu
    cases hu
  rw [h₁.others u hut] at hu ⊢
  exact ⟨u, hu, rfl, .rfl⟩

theorem syncEnd_moved (h : Inv none none s) (ht : (s.threads t).place = .synced)
    (hs : syncEnd t s = some s') : Moved (s.joinedCore (.syncEnd t)) s s' := by
  have hrun : (s.threads t).state = .RUNNING :=
    (h.handoffs.syncing t (by simp [ht])).resolve_right (by simp)
  rw [syncEnd] at hs
  rw [joinedCore]
  cases hd : (s.threads t).handoffThread with
  | some d =>
    simp only [hd] at hs
    have hqueued := (h.handoffs.target t d hd).1
    refine handOff_moved hrun ht ?_ hs
    rintro rfl
    rw [hrun] at hqueued
    cases hqueued
  | none =>
    simp only [hd, hrun, if_true] at hs
    cases hs
    exact (setThread_sets s t _).moved_keep hrun.symm rfl (by simp [ht])

theorem Moved.others (h : Moved j s s₁) (ht : (s₁.threads t).state ≠ .RUNNING)
    (ht' : (s'.threads t).state ≠ .RUNNING) (hothers : ∀ u, u ≠ t → s'.threads u = s₁.threads u) :
    Moved j s s' := by
  constructor
  · intro c hc
    obtain ⟨u, hu, hcid, hplace⟩ := h.joined c hc
    have hut : u ≠ t := by
      rintro rfl
      exact ht hu
    refine ⟨u, ?_⟩
    rw [hothers u hut]
    exact ⟨hu, hcid, hplace⟩
  · intro u hu
    have hut : u ≠ t := by
      rintro rfl
      exact ht' hu
    rw [hothers u hut] at hu ⊢
    exact h.running u hu

theorem finishThread_moved (hmoved : Moved j s s₁) (hs : finishThread t s₁ = some s') :
    Moved j s s' := by
  have hdelete : ∀ {s₂ : Scheduler}, (s₁.threads t).state ≠ .RUNNING →
      (∀ u, u ≠ t → s₂.threads u = s₁.threads u) → Moved j s (delete t s₂) := by
    intro s₂ hst hothers
    refine hmoved.others hst ?_ fun u hu => (setThread_of_ne hu _).trans (hothers u hu)
    rw [delete, setThread_self]
    simp [ThreadInfo.init]
  rw [finishThread] at hs
  split at hs
  · rename_i hqueued
    obtain ⟨s₂, hs₂, rfl⟩ := Option.map_eq_some_iff.mp hs
    exact hdelete (by simp [hqueued]) fun u _ => by rw [(removeRun_same hs₂).threads]
  split at hs
  swap
  · simp at hs
  rename_i hst
  split at hs
  · obtain ⟨s₃, hs₃, hs⟩ := Option.bind_eq_some_iff.mp hs
    obtain ⟨s₂, hs₂, hs₃⟩ := Option.bind_eq_some_iff.mp hs₃
    obtain ⟨s₄, hs₄, rfl⟩ := Option.map_eq_some_iff.mp hs
    refine hdelete (by grind) fun u hu => ?_
    rw [(pushFree_same hs₄).threads, (deschedule_sets hs₃).1.others u hu,
      (removeOut_same hs₂).threads]
  · cases hs
    exact hdelete (by grind) fun _ _ => rfl

theorem finish_moved (h : Inv none none s) (hs : finish t s = some s') :
    Moved (s.joinedCore (.finish t)) s s' := by
  rw [finish] at hs
  split at hs
  · simp at hs
  obtain ⟨s₁, hs₁, hs⟩ := Option.bind_eq_some_iff.mp hs
  obtain ⟨s₂, hs₂, hs⟩ := Option.bind_eq_some_iff.mp hs
  refine finishThread_moved ?_ hs
  rw [joinedCore]
  split at hs₁
  · rename_i hfake
    rw [if_pos (.inl hfake)]
    obtain ⟨s₃, hs₃, -, -, hst⟩ := breakFakeLeave_inv h hfake
    rw [hs₁] at hs₃
    cases hs₃
    rw [if_neg (by grind)] at hs₂
    cases hs₂
    exact breakFakeLeave_moved hs₁
  · rename_i hfake
    cases hs₁
    split at hs₂
    · rename_i hrun
      rw [if_pos (.inr hrun)]
      exact leave_moved hs₂
    · rename_i hrun
      cases hs₂
      rw [if_neg (by simp [hfake, hrun])]
      exact Same.rfl.moved

/-- An operation other than the two at the barrier. -/
theorem step_moved {op : Op} (h : Inv none none s) (ha : Allowed s op)
    (hsync : ∀ t c, op ≠ .syncStart t c) (hend : ∀ avail, op ≠ .callback avail)
    (hs : s.step op = some s') : Moved (s.joinedCore op) s s' := by
  cases op with
  | start t mask =>
    have hs : start t mask s = some s' := hs
    rw [start] at hs
    split at hs
    · rename_i hnew
      cases hs
      refine Same.rfl.moved.others (t := t) ?_ ?_ fun u hu => setThread_of_ne hu _
      · simp [(h.threads t).absent hnew.1]
      · change ((s.setThread t (.init mask)).threads t).state ≠ .RUNNING
        simp [setThread_self, ThreadInfo.init]
    · simp at hs
  | join t => exact join_moved hs
  | leave t c => exact leave_moved hs
  | syscallLeave t c blacklisted =>
    have hs : syscallLeave t c blacklisted s = some s' := hs
    rw [syscallLeave] at hs
    rw [joinedCore]
    split at hs
    swap
    · simp at hs
    split at hs
    · rename_i hleave
      rw [if_pos hleave]
      exact leave_moved hs
    rename_i hleave
    rw [if_neg hleave]
    split at hs
    · simp at hs
    · cases hs
      exact (setThread_sets s t _).moved_keep rfl rfl .rfl
  | breakFakeLeave t => exact breakFakeLeave_moved hs
  | syncStart t c => exact (hsync t c rfl).elim
  | syncEnd t => exact syncEnd_moved h ha hs
  | finish t => exact finish_moved h hs
  | markForSleep t wakeupPhase =>
    have hs : markForSleep t wakeupPhase s = some s' := hs
    rw [markForSleep] at hs
    split at hs
    · cases hs
      exact (setThread_sets s t _).moved_keep rfl rfl .rfl
    · simp at hs
  | notifySleepEnd t =>
    have hs : notifySleepEnd t s = some s' := hs
    rw [notifySleepEnd] at hs
    split at hs
    swap
    · simp at hs
    split at hs
    · cases hs
      exact Same.rfl.moved
    split at hs
    · exact ((setThread_sets s t { s.threads t with state := .BLOCKED }).same
        (removeSleep_same (t := t) (hs : endSleep t s = some s'))).moved_off (by simp)
    · simp at hs
  | callback avail => exact (hend avail rfl).elim

end Scheduler

theorem HookStep.sched {conf : HookConf} {ok : HookState → Op → Prop} {h h' : HookState}
    {op : Option Op} (hstep : HookStep conf ok h op h') : h.sched.run op = some h'.sched := by
  cases hstep with
  | hook _ _ _ hrun => exact hrun
  | fastForward | terminate => rfl
  | watchdog _ hrun => exact hrun
  | phaseEnd _ hrun => exact hrun

section runs

variable {conf : HookConf} {phaseLength numCores schedQuantum : Nat}
  {isInFastForward : Nat → Bool} {h h' : HookState} {b b' : BoundPhase} {s s' : Scheduler}
  {core core' : SimpleCore} {glob t u c : Nat} {op : Option Op}

theorem HookInv.allowed {o : Op} (h₀ : HookInv conf numCores schedQuantum h)
    (hmask : ∀ p, (List.range numCores).any (conf.mask p))
    (hstep : HookStep conf (HookOrderly conf) h (some o) h') : Allowed h.sched o := by
  cases hstep with
  | hook hdel hhook _ _ =>
    obtain ⟨_, _, heq, hallowed, -⟩ := h₀.served hmask hdel
    rw [hhook] at heq
    cases heq
    exact (hallowed o rfl).1
  | watchdog hfake _ => exact hfake
  | phaseEnd hallowed _ => exact hallowed

theorem HookInv.curPhase (h₀ : HookInv conf numCores schedQuantum h)
    (hmask : ∀ p, (List.range numCores).any (conf.mask p))
    (hstep : HookStep conf (HookOrderly conf) h op h')
    (hend : ∀ avail, op ≠ some (.callback avail)) : h'.sched.curPhase = h.sched.curPhase := by
  cases hstep with
  | hook hdel hhook hcall hrun =>
    obtain ⟨_, _, heq, -, hafter⟩ := h₀.served hmask hdel
    rw [hhook] at heq
    cases heq
    exact (hafter hcall _ hrun).1.curPhase
  | fastForward | terminate => rfl
  | watchdog hfake hrun => exact (breakFakeLeave_gone h₀.sched.inv hfake hrun).1.curPhase
  | phaseEnd _ _ => exact (hend _ rfl).elim

namespace TimedFilterCache

variable (l1 : TimedFilterCache)

/-- An access is never answered before it was made, whatever the parent answers. -/
theorem le_access (cycle : Nat) (a : L1Access) : cycle ≤ l1.access cycle a := by
  have hacc : cycle ≤ cycle + l1.accLat := Nat.le_add_right _ _
  cases a with
  | hit => exact hacc
  | miss respCycle netLat => exact hacc.trans (Nat.le_add_right _ _)

theorem le_load (vAddr : Address) (curCycle : Nat) (a : L1Access) (dropped : Bool) :
    curCycle ≤ (l1.load vAddr curCycle a dropped).1 := by
  rw [load]
  split
  · exact le_max_left _ _
  · exact l1.le_access curCycle a

theorem le_store (vAddr : Address) (curCycle : Nat) (a : L1Access) (dropped : Bool) :
    curCycle ≤ (l1.store vAddr curCycle a dropped).1 := by
  rw [store]
  split
  · exact le_max_left _ _
  · exact l1.le_access curCycle a

theorem le_fetch (bblAddr : Address) (access : Nat → L1Access × Bool) (fetches : List Nat)
    (curCycle : Nat) : curCycle ≤ (l1.fetch bblAddr access fetches curCycle).1 := by
  suffices h : ∀ r : Nat × TimedFilterCache, r.1 ≤ (fetches.foldl (fun r k =>
      r.2.load (bblAddr + k * 2 ^ l1.lineBits) r.1 (access k).1 (access k).2) r).1 from
    h (curCycle, l1)
  induction fetches with
  | nil => exact fun _ => le_rfl
  | cons k ks ih => exact fun r => (r.2.le_load _ _ _ _).trans (ih _)

end TimedFilterCache

namespace SimpleCore

/-- The clock of a core whose thread is at `place`. -/
def InPhase (core : SimpleCore) (glob phaseLength : Nat) (place : SyncPlace) : Prop :=
  glob ≤ core.curCycle ∧
  (place = .inSync → core.phaseEndCycle = glob + phaseLength + phaseLength ∧
    glob + phaseLength < core.curCycle) ∧
  (place ≠ .inSync → core.phaseEndCycle = glob + phaseLength)

/-- The unhalted cycles and the instructions of a core never go back. -/
structure Later (core core' : SimpleCore) : Prop where
  curCycle : core.curCycle ≤ core'.curCycle
  instrs : core.instrs ≤ core'.instrs
  halted : core.haltedCycles ≤ core'.haltedCycles
  cycles : core'.instrs + core.curCycle + core'.haltedCycles ≤
    core.instrs + core'.curCycle + core.haltedCycles

theorem Later.rfl : Later core core := ⟨le_rfl, le_rfl, le_rfl, le_rfl⟩

theorem Later.trans {core'' : SimpleCore} (h₁ : Later core core') (h₂ : Later core' core'') :
    Later core core'' := by
  obtain ⟨hcur, hinstrs, hhalted, hcycles⟩ := h₁
  obtain ⟨hcur', hinstrs', hhalted', hcycles'⟩ := h₂
  exact ⟨by omega, by omega, by omega, by omega⟩

theorem Runs.later (h : core.Runs core') :
    core.Later core' ∧ core'.phaseEndCycle = core.phaseEndCycle := by
  cases h with
  | load addr a dropped =>
    have hle := core.l1d.le_load addr core.curCycle a dropped
    exact ⟨⟨hle, le_rfl, le_rfl, by simp only [SimpleCore.load]; omega⟩, rfl⟩
  | store addr a dropped =>
    have hle := core.l1d.le_store addr core.curCycle a dropped
    exact ⟨⟨hle, le_rfl, le_rfl, by simp only [SimpleCore.store]; omega⟩, rfl⟩
  | bbl bblAddr instrs bytes access =>
    have hle := core.l1i.le_fetch bblAddr access
      (List.range ((bytes + 2 ^ core.l1i.lineBits - 1) / 2 ^ core.l1i.lineBits))
      (core.curCycle + instrs)
    refine ⟨⟨?_, ?_, le_rfl, ?_⟩, rfl⟩ <;> simp only [SimpleCore.bbl] <;> omega

theorem Disturbed.later (h : core.Disturbed core') :
    core.Later core' ∧ core'.phaseEndCycle = core.phaseEndCycle := by
  cases h <;> exact ⟨⟨le_rfl, le_rfl, le_rfl, le_rfl⟩, rfl⟩

theorem join_later (core : SimpleCore) (glob phaseLength : Nat) :
    core.Later (core.join glob phaseLength) := by
  rw [join]
  split
  · exact ⟨by simp only; omega, le_rfl, by simp only; omega, by simp only; omega⟩
  · exact ⟨le_rfl, le_rfl, le_rfl, le_rfl⟩

theorem join_inPhase (core : SimpleCore) (glob phaseLength : Nat) {place : SyncPlace}
    (hplace : place ≠ .inSync) : (core.join glob phaseLength).InPhase glob phaseLength place := by
  rw [InPhase, join]
  split <;> exact ⟨by simp only; omega, fun hin => (hplace hin).elim, fun _ => rfl⟩

theorem InPhase.later {place : SyncPlace} (h : core.InPhase glob phaseLength place)
    (hlater : core.Later core') (hend : core'.phaseEndCycle = core.phaseEndCycle) :
    core'.InPhase glob phaseLength place := by
  have hcur := hlater.curCycle
  obtain ⟨hglob, hin, hout⟩ := h
  rw [InPhase, hend]
  refine ⟨by omega, fun hplace => ?_, hout⟩
  obtain ⟨hphase, hpast⟩ := hin hplace
  exact ⟨hphase, by omega⟩

end SimpleCore

/-- The cores are where the scheduler has their threads, all in the same phase, and none
retires more than one instruction in a cycle. -/
structure BoundInv (conf : HookConf) (phaseLength numCores schedQuantum : Nat) (b : BoundPhase) :
    Prop where
  hooks : HookInv conf numCores schedQuantum b.hooks
  glob : b.globPhaseCycles = b.hooks.sched.curPhase * phaseLength
  running : ∀ t, (b.hooks.sched.threads t).state = .RUNNING →
    (b.cores (b.hooks.sched.threads t).cid).InPhase b.globPhaseCycles phaseLength
      (b.hooks.sched.threads t).place
  cycles : ∀ c, (b.cores c).instrs + (b.cores c).haltedCycles ≤ (b.cores c).curCycle

theorem running_unique (hinv : Inv none none s) (ht : (s.threads t).state = .RUNNING)
    (hu : (s.threads u).state = .RUNNING) (hcid : (s.threads t).cid = (s.threads u).cid) :
    t = u := by
  have hcur := (hinv.contexts.owner t (.inl ht)).2.1
  rw [hcid, (hinv.contexts.owner u (.inl hu)).2.1] at hcur
  exact (Option.some.inj hcur).symm

/-- The clocks after an operation away from the barrier. -/
theorem inPhase_moved {cores : Nat → SimpleCore} {j : Option Nat} (hinv : Inv none none s')
    (hmoved : Moved j s s')
    (hrunning : ∀ t, (s.threads t).state = .RUNNING →
      (cores (s.threads t).cid).InPhase glob phaseLength (s.threads t).place)
    (hu : (s'.threads u).state = .RUNNING) :
    (joinCore cores glob phaseLength j (s'.threads u).cid).InPhase glob phaseLength
      (s'.threads u).place := by
  by_cases hj : j = some (s'.threads u).cid
  · obtain ⟨v, hv, hcid, hplace⟩ := hmoved.joined _ hj
    obtain rfl := running_unique hinv hv hu hcid
    rw [hj, joinCore, Function.update_self]
    exact SimpleCore.join_inPhase _ _ _ (by simp [hplace])
  · obtain ⟨v, hv, hcid, hplace⟩ := (hmoved.running u hu).resolve_left hj
    have hkeep := hrunning v hv
    rw [hcid, SimpleCore.InPhase, ne_eq, hplace] at hkeep
    have hsame : joinCore cores glob phaseLength j (s'.threads u).cid =
        cores (s'.threads u).cid := by
      cases j with
      | none => rfl
      | some c => exact Function.update_of_ne (fun heq => hj (congrArg some heq.symm)) _ _
    rw [hsame]
    exact hkeep

theorem BoundInv.init (l1i l1d : Nat → TimedFilterCache) (phaseEndCycle : Nat → Nat) :
    BoundInv conf phaseLength numCores schedQuantum
      (.init numCores schedQuantum isInFastForward fun c =>
        .init (l1i c) (l1d c) (phaseEndCycle c)) := by
  refine ⟨.init, ?_, fun t ht => ?_, fun _ => le_rfl⟩
  · simp [BoundPhase.init, HookState.init, Scheduler.init]
  · cases ht

theorem later_update {cores : Nat → SimpleCore} (hlater : (cores c).Later core) (d : Nat) :
    (cores d).Later (Function.update cores c core d) := by
  by_cases hd : d = c
  · rw [hd, Function.update_self]
    exact hlater
  · rw [Function.update_of_ne hd]
    exact .rfl

theorem joinCore_later (cores : Nat → SimpleCore) (j : Option Nat) (d : Nat) :
    (cores d).Later (joinCore cores glob phaseLength j d) := by
  cases j with
  | none => exact .rfl
  | some c => exact later_update (SimpleCore.join_later _ _ _) d

theorem coresAfter_later {cores : Nat → SimpleCore} (h : b.coresAfter phaseLength op = some cores)
    (d : Nat) : (b.cores d).Later (cores d) := by
  rw [BoundPhase.coresAfter.eq_def] at h
  split at h
  · cases h
    exact .rfl
  · obtain ⟨core, hcore, rfl⟩ := Option.map_eq_some_iff.mp h
    refine later_update ?_ d
    rw [SimpleCore.endPhase] at hcore
    split at hcore
    · cases hcore
      exact ⟨le_rfl, le_rfl, le_rfl, le_rfl⟩
    · cases hcore
  · cases h
    exact joinCore_later _ _ d

theorem BoundStep.later (hstep : BoundStep conf phaseLength b b') (c : Nat) :
    (b.cores c).Later (b'.cores c) := by
  cases hstep with
  | simulate _ _ _ hruns => exact later_update hruns.later.1 c
  | disturb hdist => exact later_update hdist.later.1 c
  | hook _ _ hcores => exact coresAfter_later hcores c

/-- The clocks after a core has gone on in its phase. -/
theorem BoundInv.update (h₀ : BoundInv conf phaseLength numCores schedQuantum b)
    (hlater : (b.cores c).Later core) (hend : core.phaseEndCycle = (b.cores c).phaseEndCycle)
    (ht : (b.hooks.sched.threads t).state = .RUNNING) :
    (Function.update b.cores c core (b.hooks.sched.threads t).cid).InPhase b.globPhaseCycles
      phaseLength (b.hooks.sched.threads t).place := by
  have hin := h₀.running t ht
  by_cases hc : (b.hooks.sched.threads t).cid = c
  · rw [hc] at hin ⊢
    rw [Function.update_self]
    exact hin.later hlater hend
  · rw [Function.update_of_ne hc]
    exact hin

/-- The thread `t` comes to the barrier. -/
theorem BoundInv.syncStart (h₀ : BoundInv conf phaseLength numCores schedQuantum b)
    (ht : b.hooks.sched.InProgram t c) (hs : b.hooks.sched.syncStart t c = some s)
    (hpast : (b.cores c).phaseEndCycle < (b.cores c).curCycle)
    (hcore : (b.cores c).endPhase b.globPhaseCycles phaseLength = some core)
    (hu : (s.threads u).state = .RUNNING) :
    (Function.update b.cores c core (s.threads u).cid).InPhase b.globPhaseCycles phaseLength
      (s.threads u).place := by
  obtain ⟨hrun, hcid, hplace, -⟩ := ht
  rw [Scheduler.syncStart] at hs
  split at hs
  swap
  · simp at hs
  cases hs
  rw [SimpleCore.endPhase] at hcore
  split at hcore
  swap
  · cases hcore
  rename_i hend
  cases hcore
  by_cases hut : u = t
  · rw [hut, setThread_self, hcid, Function.update_self]
    obtain ⟨hglob, -, -⟩ := h₀.running t hrun
    rw [hcid] at hglob
    rw [hend] at hpast
    exact ⟨hglob, fun _ => ⟨congrArg (· + phaseLength) hend, hpast⟩, fun hne => (hne rfl).elim⟩
  · rw [setThread_of_ne hut] at hu ⊢
    have hne : (b.hooks.sched.threads u).cid ≠ c := fun heq =>
      hut (running_unique h₀.hooks.sched.inv hu hrun (heq.trans hcid.symm))
    rw [Function.update_of_ne hne]
    exact h₀.running u hu

/-- A phase ends when the cores of all running threads have passed its end. -/
theorem BoundInv.phaseEnd {avail : List Nat}
    (h₀ : BoundInv conf phaseLength numCores schedQuantum b)
    (hsync : ∀ t, (b.hooks.sched.threads t).state = .RUNNING →
      (b.hooks.sched.threads t).place = .inSync)
    (hs : b.hooks.sched.callback avail = some s) (hu : (s.threads u).state = .RUNNING) :
    (b.cores (s.threads u).cid).InPhase (b.globPhaseCycles + phaseLength) phaseLength
      (s.threads u).place := by
  obtain ⟨hrun, hcid, hplace⟩ := callback_running h₀.hooks.sched.inv hs hu
  obtain ⟨-, hin, -⟩ := h₀.running u hrun
  obtain ⟨hphase, hlt⟩ := hin (hsync u hrun)
  rw [hcid]
  exact ⟨hlt.le, fun h => (hplace h).elim, fun _ => hphase⟩

theorem coresAfter_other {o : Op} (hsync : ∀ t c, o ≠ .syncStart t c) :
    b.coresAfter phaseLength (some o) =
      some (joinCore b.cores b.globPhaseCycles phaseLength (b.hooks.sched.joinedCore o)) := by
  cases o <;> first | rfl | exact (hsync _ _ rfl).elim

theorem globAfter_other (hend : ∀ avail, op ≠ some (.callback avail)) :
    b.globAfter phaseLength op = b.globPhaseCycles := by
  rw [BoundPhase.globAfter.eq_def]
  split
  · exact (hend _ rfl).elim
  · rfl

theorem BoundInv.hook {cores : Nat → SimpleCore}
    (h₀ : BoundInv conf phaseLength numCores schedQuantum b)
    (hmask : ∀ p, (List.range numCores).any (conf.mask p))
    (hhook : HookStep conf (HookOrderly conf) b.hooks op h)
    (hpast : ∀ t c, op = some (.syncStart t c) → (b.cores c).phaseEndCycle < (b.cores c).curCycle)
    (hcores : b.coresAfter phaseLength op = some cores) :
    b.globAfter phaseLength op = h.sched.curPhase * phaseLength ∧
    ∀ u, (h.sched.threads u).state = .RUNNING →
      (cores (h.sched.threads u).cid).InPhase (b.globAfter phaseLength op) phaseLength
        (h.sched.threads u).place := by
  have hinv := h₀.hooks.sched.inv
  have hrun := hhook.sched
  by_cases hend : ∃ avail, op = some (.callback avail)
  · obtain ⟨avail, rfl⟩ := hend
    obtain rfl := Option.some.inj hcores
    refine ⟨?_, fun u hu => h₀.phaseEnd (h₀.hooks.allowed hmask hhook).1 hrun hu⟩
    rw [(callback_drifts hinv hrun).curPhase, Nat.succ_mul, ← h₀.glob]
    rfl
  have hend : ∀ avail, op ≠ some (.callback avail) := fun avail h => hend ⟨avail, h⟩
  rw [globAfter_other hend, h₀.hooks.curPhase hmask hhook hend]
  refine ⟨h₀.glob, fun u hu => ?_⟩
  cases op with
  | none =>
    obtain rfl := Option.some.inj hcores
    obtain heq : b.hooks.sched = h.sched := Option.some.inj hrun
    rw [← heq] at hu ⊢
    exact h₀.running u hu
  | some o =>
    have ha := h₀.hooks.allowed hmask hhook
    by_cases hsync : ∃ t c, o = .syncStart t c
    · obtain ⟨t, c, rfl⟩ := hsync
      obtain ⟨core, hcore, rfl⟩ := Option.map_eq_some_iff.mp hcores
      exact h₀.syncStart ha.1 hrun (hpast t c rfl) hcore hu
    have hsync : ∀ t c, o ≠ .syncStart t c := fun t c h => hsync ⟨t, c, h⟩
    rw [coresAfter_other hsync] at hcores
    cases hcores
    have hmoved := step_moved hinv ha hsync (fun avail h => hend avail (congrArg some h)) hrun
    exact inPhase_moved (h₀.hooks.step hmask hhook).sched.inv hmoved h₀.running hu

theorem BoundInv.step (h₀ : BoundInv conf phaseLength numCores schedQuantum b)
    (hmask : ∀ p, (List.range numCores).any (conf.mask p))
    (hstep : BoundStep conf phaseLength b b') :
    BoundInv conf phaseLength numCores schedQuantum b' := by
  have hcycles : ∀ c, (b'.cores c).instrs + (b'.cores c).haltedCycles ≤ (b'.cores c).curCycle := by
    intro c
    have hle := h₀.cycles c
    have hlater := (hstep.later c).cycles
    omega
  cases hstep with
  | simulate _ _ _ hruns =>
    obtain ⟨hlater, hend⟩ := hruns.later
    exact ⟨h₀.hooks, h₀.glob, fun t ht => h₀.update hlater hend ht, hcycles⟩
  | disturb hdist =>
    obtain ⟨hlater, hend⟩ := hdist.later
    exact ⟨h₀.hooks, h₀.glob, fun t ht => h₀.update hlater hend ht, hcycles⟩
  | hook hhook hpast hcores =>
    obtain ⟨hglob, hrunning⟩ := h₀.hook hmask hhook hpast hcores
    exact ⟨h₀.hooks.step hmask hhook, hglob, hrunning, hcycles⟩

theorem BoundReachable.inv (hmask : ∀ p, (List.range numCores).any (conf.mask p))
    (hreach : BoundReachable conf phaseLength numCores schedQuantum isInFastForward b) :
    BoundInv conf phaseLength numCores schedQuantum b := by
  induction hreach with
  | init l1i l1d phaseEndCycle => exact .init _ _ phaseEndCycle
  | step _ hstep ih => exact ih.step hmask hstep

theorem later_of_run (hrun : Relation.ReflTransGen (BoundStep conf phaseLength) b b') (c : Nat) :
    (b.cores c).Later (b'.cores c) := by
  induction hrun with
  | refl => exact .rfl
  | tail _ hstep ih => exact ih.trans (hstep.later c)

/-- In every run in which no thread finishes asleep or is marked for sleep away from its core, the
cores that simulate are all in the same phase, whatever threads have moved between them, and the
assert of `BblFunc` holds. The phase ends when all running cores
have passed its end. A core retires at most one instruction in a cycle, and its clock and
counts never go back. -/
theorem bound_phase_aligned (hmask : ∀ p, (List.range numCores).any (conf.mask p))
    (hreach : BoundReachable conf phaseLength numCores schedQuantum isInFastForward b) :
    b.globPhaseCycles = b.hooks.sched.curPhase * phaseLength ∧
    (∀ t c, (b.hooks.threads t).place = .app → (b.hooks.threads t).fPtrs = .analysisPtrs →
      (b.hooks.threads t).cid = .valid c →
      (b.cores c).phaseEndCycle = b.globPhaseCycles + phaseLength ∧
        b.globPhaseCycles ≤ (b.cores c).curCycle ∧
        ∃ core, (b.cores c).endPhase b.globPhaseCycles phaseLength = some core) ∧
    (∀ avail, Allowed b.hooks.sched (.callback avail) → ∀ t,
      (b.hooks.sched.threads t).state = .RUNNING →
        b.globPhaseCycles + phaseLength < (b.cores (b.hooks.sched.threads t).cid).curCycle) ∧
    ∀ c, (b.cores c).instrs + (b.cores c).haltedCycles ≤ (b.cores c).curCycle ∧
      ∀ b', Relation.ReflTransGen (BoundStep conf phaseLength) b b' →
        (b.cores c).Later (b'.cores c) := by
  have h₀ := hreach.inv hmask
  refine ⟨h₀.glob, fun t c hplace hptrs hcid => ?_, fun avail ha t ht => ?_,
    fun c => ⟨h₀.cycles c, fun b' hrun => later_of_run hrun c⟩⟩
  · have hok := h₀.hooks.threads t
    simp only [HookOk, hplace, hptrs] at hok
    obtain ⟨-, -, d, hd, ⟨hrun, hsched, hprog, -⟩, -⟩ := hok
    obtain rfl : d = c := by
      rw [hcid] at hd
      exact (Cid.valid.inj hd).symm
    obtain ⟨hglob, -, hout⟩ := h₀.running t hrun
    rw [hsched] at hglob hout
    have hend := hout (by simp [hprog])
    exact ⟨hend, hglob, _, if_pos hend⟩
  · obtain ⟨-, hin, -⟩ := h₀.running t ht
    exact (hin (ha.1 t ht)).2

def sixteenSets : FilterConfig := ⟨⟨2, 4, Nat.two_pos⟩, 6, 0, Nat.succ_pos 5, Nat.le_add_left 10 54⟩

/-- The only core misses on a basic block, which ends after the phase, and ends the phase. -/
theorem bound_phase_aligned_next : ∃ b : BoundPhase,
    BoundReachable ⟨fun _ _ => true, false, false⟩ 10 1 1 (fun _ => false) b ∧
      (b.cores 0).curCycle = 15 ∧ b.globPhaseCycles = 10 ∧
      (b.cores 0).phaseEndCycle = 20 := by
  let conf : HookConf := ⟨fun _ _ => true, false, false⟩
  have h₀ : BoundReachable conf 10 1 1 (fun _ => false) _ :=
    .init (fun _ => (sixteenSets, 3)) (fun _ => (sixteenSets, 4)) fun _ => 0
  have h₁ := h₀.step (.hook (.hook (t := 0) (.threadStart rfl) rfl (by rintro _ ⟨⟩; trivial) rfl)
    (by rintro _ _ ⟨⟩) rfl)
  have h₂ := h₁.step (.hook (.hook (t := 0) (.instrument rfl rfl) rfl (by rintro _ ⟨⟩; trivial) rfl)
    (by rintro _ _ ⟨⟩) rfl)
  have h₃ := h₂.step (.hook (.hook (t := 0) (.running (.inl rfl) rfl) rfl (by rintro _ ⟨⟩) rfl)
    (by rintro _ _ ⟨⟩) rfl)
  have h₄ := h₃.step (.simulate (t := 0) rfl rfl rfl
    (.bbl 4096 8 30 fun _ => (.miss 13 2, false)))
  have h₅ := h₄.step (.hook (.hook (t := 0) (.takeBarrier rfl rfl rfl) rfl
    (by rintro _ ⟨⟩; trivial) rfl) (by rintro _ _ ⟨⟩; decide) rfl)
  have h₆ := h₅.step (.hook (.phaseEnd ⟨fun t ht => (by
    match t, ht with
    | 0, _ => rfl
    | _ + 1, ht => cases ht), .refl _⟩ rfl) (by rintro _ _ ⟨⟩) rfl)
  have h₇ := h₆.step (.hook (.hook (t := 0) (.released rfl rfl) rfl
    (by rintro _ ⟨⟩; trivial) rfl) (by rintro _ _ ⟨⟩) rfl)
  have h₈ := h₇.step (.hook (.hook (t := 0) (.running (.inr rfl) rfl) rfl
    (by rintro _ ⟨⟩) rfl) (by rintro _ _ ⟨⟩) rfl)
  obtain ⟨hglob, hcore, -⟩ := bound_phase_aligned (fun _ => rfl) h₈
  exact ⟨_, h₈, by decide +kernel, hglob, (hcore 0 0 rfl rfl rfl).1⟩

end runs

end ZSim
