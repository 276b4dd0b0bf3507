import ZSim.SchedulerCoherent

/-! What the operations of the scheduler do to the thread that calls them, and what to all
others. -/

namespace ZSim

namespace Scheduler

/-- What becomes of a thread while others call the scheduler: it gets the context that it waits
for, loses the one that it kept, wakes up or passes the barrier. -/
structure Drift (th th' : ThreadInfo) : Prop where
  fakeLeave : th'.fakeLeave = th.fakeLeave
  marked : th'.markedForSleep = th.markedForSleep
  moved : (th'.state = th.state ∧ th'.cid = th.cid ∧
      (th'.place = th.place ∨ th.place = .inSync ∧ th'.place = .synced)) ∨
    (th.state = .QUEUED ∧ th'.state = .RUNNING ∧ th'.place = .program) ∨
    (th.state = .OUT ∨ th.state = .SLEEPING) ∧ th'.state = .BLOCKED

theorem Drift.rfl {th : ThreadInfo} : Drift th th :=
  ⟨.refl _, .refl _, .inl ⟨.refl _, .refl _, .inl (.refl _)⟩⟩

theorem Drift.trans {th₁ th₂ th₃ : ThreadInfo} (h : Drift th₁ th₂) (h' : Drift th₂ th₃) :
    Drift th₁ th₃ := by
  obtain ⟨hfake, hmark, hmoved⟩ := h
  obtain ⟨hfake', hmark', hmoved'⟩ := h'
  refine ⟨hfake'.trans hfake, hmark'.trans hmark, ?_⟩
  rcases hmoved with ⟨hst, hcid, hplace⟩ | ⟨hst, hst₂, hplace⟩ | ⟨hst, hst₂⟩ <;>
    rcases hmoved' with ⟨hst', hcid', hplace'⟩ | ⟨hst', hst₃, hplace'⟩ | ⟨hst', hst₃⟩ <;> grind

/-- An operation of `t`, as the other threads see it. -/
structure Spares (t : Nat) (s s' : Scheduler) : Prop where
  numCores : s'.numCores = s.numCores
  curPhase : s'.curPhase = s.curPhase
  gidMap : ∀ u, u ≠ t → s'.gidMap u = s.gidMap u
  drift : ∀ u, u ≠ t → Drift (s.threads u) (s'.threads u)

variable {s s' s₁ s₂ s₃ : Scheduler} {dying : Option Nat} {t u c d : Nat} {th : ThreadInfo}
  {x : ThreadState}

theorem Spares.trans (h : Spares t s₁ s₂) (h' : Spares t s₂ s₃) : Spares t s₁ s₃ where
  numCores := h'.numCores.trans h.numCores
  curPhase := h'.curPhase.trans h.curPhase
  gidMap u hu := (h'.gidMap u hu).trans (h.gidMap u hu)
  drift u hu := (h.drift u hu).trans (h'.drift u hu)

/-- No thread and no gid changes. -/
structure Same (s s' : Scheduler) : Prop where
  numCores : s'.numCores = s.numCores
  curPhase : s'.curPhase = s.curPhase
  threads : s'.threads = s.threads
  gidMap : s'.gidMap = s.gidMap

theorem Same.rfl : Same s s := ⟨.refl _, .refl _, .refl _, .refl _⟩

theorem Same.spares (h : Same s s') : Spares t s s' := by
  refine ⟨h.numCores, h.curPhase, fun u _ => by rw [h.gidMap], fun u _ => ?_⟩
  rw [h.threads]
  exact .rfl

theorem removeRun_same (h : removeRun t s = some s') : Same s s' := by grind [removeRun, Same]

theorem removeOut_same (h : removeOut t s = some s') : Same s s' := by grind [removeOut, Same]

theorem removeSleep_same (h : removeSleep t s = some s') : Same s s' := by grind [removeSleep, Same]

theorem removeFree_same (h : removeFree c s = some s') : Same s s' := by grind [removeFree, Same]

theorem pushRun_same (h : pushRun t s = some s') : Same s s' := by grind [pushRun, Same]

theorem pushOut_same (h : pushOut t s = some s') : Same s s' := by grind [pushOut, Same]

theorem pushFree_same (h : pushFree c s = some s') : Same s s' := by grind [pushFree, Same]

theorem pushSleep_same (h : pushSleep t s = some s') : Same s s' := by grind [pushSleep, Same]

/-- Only the thread `t` changes, to `th`. -/
structure Sets (t : Nat) (th : ThreadInfo) (s s' : Scheduler) : Prop where
  numCores : s'.numCores = s.numCores
  curPhase : s'.curPhase = s.curPhase
  gidMap : s'.gidMap = s.gidMap
  self : s'.threads t = th
  others : ∀ u, u ≠ t → s'.threads u = s.threads u

theorem setThread_sets (s : Scheduler) (t : Nat) (th : ThreadInfo) :
    Sets t th s (s.setThread t th) :=
  ⟨rfl, rfl, rfl, setThread_self s t th, fun _ hu => setThread_of_ne hu th⟩

theorem Sets.spares (h : Sets t th s s') : Spares t s s' := by
  refine ⟨h.numCores, h.curPhase, fun u _ => by rw [h.gidMap], fun u hu => ?_⟩
  rw [h.others u hu]
  exact .rfl

theorem Sets.trans {th' : ThreadInfo} (h : Sets t th s₁ s₂) (h' : Sets t th' s₂ s₃) :
    Sets t th' s₁ s₃ :=
  ⟨h'.numCores.trans h.numCores, h'.curPhase.trans h.curPhase, h'.gidMap.trans h.gidMap, h'.self,
    fun u hu => (h'.others u hu).trans (h.others u hu)⟩

theorem Sets.same (h : Sets t th s₁ s₂) (h' : Same s₂ s₃) : Sets t th s₁ s₃ :=
  ⟨h'.numCores.trans h.numCores, h'.curPhase.trans h.curPhase, h'.gidMap.trans h.gidMap,
    h'.threads ▸ h.self, fun u hu => h'.threads ▸ h.others u hu⟩

/-- A change of one thread that any thread could see. -/
theorem Sets.spares_of_drift (h : Sets u th s s') (hth : Drift (s.threads u) th) :
    Spares t s s' := by
  refine ⟨h.numCores, h.curPhase, fun v _ => by rw [h.gidMap], fun v _ => ?_⟩
  by_cases hv : v = u
  · rw [hv, h.self]
    exact hth
  · rw [h.others v hv]
    exact .rfl

/-- The queues of waiting threads and of threads that are out stay. -/
def SameQueues (s s' : Scheduler) : Prop :=
  s'.runQueue = s.runQueue ∧ s'.outQueue = s.outQueue

theorem schedule_sets (h : schedule t c s = some s') :
    Sets t { s.threads t with state := .RUNNING, cid := c, place := .program } s s' ∧
      SameQueues s s' := by
  rw [schedule] at h
  split at h
  · obtain rfl := Option.some.inj h
    exact ⟨⟨rfl, rfl, rfl, setThread_self s t _, fun u hu => setThread_of_ne hu _⟩, rfl, rfl⟩
  · simp at h

theorem deschedule_sets (h : deschedule t c x s = some s') :
    Sets t { s.threads t with state := x } s s' ∧ SameQueues s s' := by
  rw [deschedule] at h
  split at h
  · obtain rfl := Option.some.inj h
    exact ⟨⟨rfl, rfl, rfl, setThread_self s t _, fun u hu => setThread_of_ne hu _⟩, rfl, rfl⟩
  · simp at h

theorem wakeup_sets (h : wakeup t s = some s') :
    Sets t { s.threads t with futexWord := 0 } s s' ∧ SameQueues s s' := by
  rw [wakeup] at h
  split at h
  · obtain rfl := Option.some.inj h
    exact ⟨setThread_sets s t _, rfl, rfl⟩
  · simp at h

theorem handOver_sets (h : handOver d c s = some s') :
    Sets d { s.threads d with state := .RUNNING, cid := c, place := .program, futexWord := 0 }
      s s' ∧ SameQueues s s' := by
  obtain ⟨s₁, hs₁, hs'⟩ := Option.bind_eq_some_iff.mp h
  obtain ⟨h₁, hrun₁, hout₁⟩ := schedule_sets hs₁
  obtain ⟨h₂, hrun₂, hout₂⟩ := wakeup_sets hs'
  rw [h₁.self] at h₂
  exact ⟨h₁.trans h₂, hrun₂.trans hrun₁, hout₂.trans hout₁⟩

theorem handOver_spares (h : handOver d c s = some s') (hd : (s.threads d).state = .QUEUED) :
    Spares t s s' :=
  (handOver_sets h).1.spares_of_drift ⟨rfl, rfl, .inr (.inl ⟨hd, rfl, rfl⟩)⟩

theorem steal_spares {ctx : Option Nat} (hout : ∀ o ∈ s.outQueue, (s.threads o).state = .OUT)
    (ht : (s.threads t).state ≠ .OUT) (hs : steal t s = some (ctx, s')) :
    (∀ u, Spares u s s') ∧ s'.threads t = s.threads t := by
  rw [steal] at hs
  split at hs
  · obtain ⟨-, rfl⟩ := Prod.mk.inj (Option.some.inj hs)
    exact ⟨fun u => Same.spares ⟨rfl, rfl, rfl, rfl⟩, rfl⟩
  · rename_i o hfind
    have ho := hout o (List.mem_of_find?_eq_some hfind)
    obtain ⟨s₂, hs₂, heq⟩ := Option.map_eq_some_iff.mp hs
    obtain ⟨-, rfl⟩ := Prod.mk.inj heq
    obtain ⟨s₁, hs₁, hs₂⟩ := Option.bind_eq_some_iff.mp hs₂
    have hsame := removeOut_same hs₁
    obtain ⟨hsets, -⟩ := deschedule_sets hs₂
    have hto : t ≠ o := by
      rintro rfl
      exact ht ho
    constructor
    · intro u
      refine hsame.spares.trans (hsets.spares_of_drift ⟨rfl, rfl, .inr (.inr ⟨.inl ?_, rfl⟩)⟩)
      rw [hsame.threads]
      exact ho
    · rw [hsets.others t hto, hsame.threads]

theorem schedThread_spares {ctx : Option Nat}
    (hout : ∀ o ∈ s.outQueue, (s.threads o).state = .OUT) (ht : (s.threads t).state ≠ .OUT)
    (hs : schedThread t s = some (ctx, s')) :
    (∀ u, Spares u s s') ∧ s'.threads t = s.threads t := by
  have hfree : ∀ c, (removeFree c s).map (fun s => (some c, s)) = some (ctx, s') →
      (∀ u, Spares u s s') ∧ s'.threads t = s.threads t := by
    intro c hc
    obtain ⟨s₁, hs₁, heq⟩ := Option.map_eq_some_iff.mp hc
    obtain ⟨-, rfl⟩ := Prod.mk.inj heq
    have hsame := removeFree_same hs₁
    exact ⟨fun u => hsame.spares, by rw [hsame.threads]⟩
  rw [schedThread] at hs
  split at hs
  · simp at hs
  split at hs
  · exact hfree _ hs
  split at hs
  · exact hfree _ hs
  · exact steal_spares hout ht hs

/-- The thread waits for a context, or runs its program on one. -/
def Waiting (s : Scheduler) (t : Nat) : Prop :=
  (s.threads t).markedForSleep = false ∧
    ((s.threads t).state = .QUEUED ∨ ∃ c, s.InProgram t c)

theorem scheduleOrWait_spares (hout : ∀ o ∈ s.outQueue, (s.threads o).state = .OUT)
    (ht : (s.threads t).state ≠ .OUT) (hmark : (s.threads t).markedForSleep = false)
    (hfake : (s.threads t).fakeLeave = false) (hs : scheduleOrWait t s = some s') :
    Spares t s s' ∧ s'.gidMap t = s.gidMap t ∧ s'.Waiting t := by
  obtain ⟨⟨ctx, s₁⟩, hs₁, hs'⟩ := Option.bind_eq_some_iff.mp hs
  obtain ⟨hspares, hself⟩ := schedThread_spares hout ht hs₁
  have hmap : s₁.gidMap t = s.gidMap t := (hspares (t + 1)).gidMap t (by omega)
  cases ctx with
  | some c =>
    obtain ⟨hsets, -⟩ := schedule_sets hs'
    rw [hself] at hsets
    refine ⟨(hspares t).trans hsets.spares, by rw [hsets.gidMap, hmap], ?_, .inr ⟨c, ?_⟩⟩
    · rw [hsets.self]
      exact hmark
    · rw [InProgram, hsets.self]
      exact ⟨rfl, rfl, rfl, hfake⟩
  | none =>
    obtain ⟨s₂, hs₂, rfl⟩ := Option.map_eq_some_iff.mp hs'
    have hsets := (setThread_sets s₁ t _).same (pushRun_same hs₂)
    have hwait : Sets t _ s₂ (waitForContext t s₂) := setThread_sets s₂ t _
    refine ⟨(hspares t).trans (hsets.trans hwait).spares, ?_, ?_, .inl ?_⟩
    · rw [hwait.gidMap, hsets.gidMap, hmap]
    · rw [hwait.self, hsets.self, hself]
      exact hmark
    · rw [hwait.self, hsets.self]

/-- The thread has no business in the simulation. -/
def Gone (s : Scheduler) (t : Nat) : Prop :=
  s.gidMap t = true ∧ ((s.threads t).fakeLeave = true ∨ s.Away t)

theorem Gone.idle (h : Inv none none s) (ht : s.Gone t) :
    (s.threads t).markedForSleep = false ∧ (s.threads t).state ≠ .QUEUED := by
  have hok := h.threads t
  rcases ht.2 with hfake | hst
  · constructor
    · by_contra hmark
      have hnot := (hok.marked (by simpa using hmark)).2.2.1
      rw [hfake] at hnot
      cases hnot
    · simp [(hok.fake hfake).1]
  · rw [Away] at hst
    exact ⟨(hok.unmarked (by grind)).1, by grind⟩

theorem start_spares {mask : Nat → Bool} (hs : start t mask s = some s') :
    Spares t s s' ∧ s'.Gone t ∧ (s'.threads t).state = .STARTED := by
  rw [start] at hs
  split at hs
  · obtain rfl := Option.some.inj hs
    have hself := setThread_self s t (.init mask)
    refine ⟨⟨rfl, rfl, fun u hu => Function.update_of_ne hu _ _,
        (setThread_sets s t _).spares.drift⟩,
      ⟨Function.update_self _ _ _, .inr (.inl ?_)⟩, ?_⟩
    · exact congrArg ThreadInfo.state hself
    · exact congrArg ThreadInfo.state hself
  · simp at hs

theorem finishFakeLeave_sets (hs : finishFakeLeave t s = some s') :
    Sets t { s.threads t with fakeLeave := false } s s' ∧ (s.threads t).state = .RUNNING := by
  rw [finishFakeLeave] at hs
  split at hs
  · rename_i hrun
    obtain rfl := Option.some.inj hs
    exact ⟨setThread_sets s t _, hrun.2⟩
  · simp at hs

theorem joinAwake_spares (h : Inv none none s) (hrun : (s.threads t).state ≠ .RUNNING)
    (hs : joinAwake t s = some s') : Spares t s s' ∧ s'.gidMap t = s.gidMap t ∧ s'.Waiting t := by
  obtain ⟨hmark, hfake⟩ := (h.threads t).unmarked hrun
  rw [joinAwake] at hs
  split at hs
  · have hsets := (setThread_sets s t _).same (removeOut_same hs)
    refine ⟨hsets.spares, by rw [hsets.gidMap], ?_, .inr ⟨(s.threads t).cid, ?_⟩⟩
    · rw [hsets.self]
      exact hmark
    · rw [InProgram, hsets.self]
      exact ⟨rfl, rfl, rfl, hfake⟩
  split at hs
  · exact scheduleOrWait_spares (fun o => (h.queues.out.mem o).mp) ‹_› hmark hfake hs
  · simp at hs

theorem join_spares (h : Inv none none s) (hgone : s.Gone t) (hs : join t s = some s') :
    Spares t s s' ∧ s'.gidMap t = s.gidMap t ∧ s'.Waiting t := by
  obtain ⟨hmark, -⟩ := hgone.idle h
  obtain ⟨hmap, hgone⟩ := hgone
  rw [join, if_neg (by simp [hmap])] at hs
  by_cases hfake : (s.threads t).fakeLeave = true
  · rw [if_pos hfake] at hs
    obtain ⟨hsets, hrun⟩ := finishFakeLeave_sets hs
    obtain ⟨-, hplace⟩ := (h.threads t).fake hfake
    refine ⟨hsets.spares, by rw [hsets.gidMap], ?_, .inr ⟨(s.threads t).cid, ?_⟩⟩
    · rw [hsets.self]
      exact hmark
    · rw [InProgram, hsets.self]
      exact ⟨hrun, rfl, hplace, rfl⟩
  have hrun : (s.threads t).state ≠ .RUNNING := by
    rcases hgone.resolve_left hfake with hst | hst | hst | hst <;> simp [hst]
  rw [if_neg hfake, if_neg (by simp [hmark])] at hs
  obtain ⟨s₁, hs₁, hs'⟩ := Option.bind_eq_some_iff.mp hs
  split at hs₁
  · rename_i hsleep
    obtain ⟨s₂, hs₂, h₂, -, -⟩ := endSleep_inv h hsleep
    have hsets := (setThread_sets s t { s.threads t with state := .BLOCKED }).same
      (removeSleep_same (t := t) (hs₁ : endSleep t s = some s₁))
    rw [hs₁] at hs₂
    cases hs₂
    obtain ⟨hspares, hmap', hwait⟩ := joinAwake_spares h₂ (by simp [hsets.self]) hs'
    exact ⟨hsets.spares.trans hspares, hmap'.trans (by rw [hsets.gidMap]), hwait⟩
  · cases hs₁
    exact joinAwake_spares h hrun hs'

theorem schedContext_same {inTh : Option Nat} (hs : schedContext c s = some (inTh, s')) :
    Same s s' ∧ ∀ u, inTh = some u → u ∈ s.runQueue := by
  rcases schedContext_cases s c with ⟨hnone, -⟩ | ⟨u, hu, -, hsched⟩
  · rw [hnone] at hs
    obtain ⟨rfl, rfl⟩ := Prod.mk.inj (Option.some.inj hs)
    exact ⟨.rfl, by simp⟩
  · rw [hsched] at hs
    obtain ⟨rfl, rfl⟩ := Prod.mk.inj (Option.some.inj hs)
    refine ⟨⟨rfl, rfl, rfl, rfl⟩, ?_⟩
    rintro _ ⟨⟩
    exact hu

theorem pushSleep_sameQueues (h : pushSleep t s = some s') : SameQueues s s' := by
  grind [pushSleep, SameQueues]

theorem leave_spares (h : Inv none dying s) (hs : leave t c s = some s') : Spares t s s' := by
  rw [leave] at hs
  split at hs
  swap
  · simp at hs
  rename_i hrun
  have hnot : ∀ u ∈ s.runQueue, u ≠ t := by
    rintro u hu rfl
    exact h.queues.run_not_mem (by simp [hrun.2]) hu
  split at hs
  · obtain ⟨s₁, hs₁, hs⟩ := Option.bind_eq_some_iff.mp hs
    obtain ⟨s₂, hs₂, hs⟩ := Option.bind_eq_some_iff.mp hs
    obtain ⟨⟨inTh, s₃⟩, hs₃, hs⟩ := Option.bind_eq_some_iff.mp hs
    obtain ⟨h₁, hrun₁, -⟩ := deschedule_sets hs₁
    have h₂ := ((setThread_sets s t _).trans h₁).same (pushSleep_same hs₂)
    obtain ⟨h₃, hin⟩ := schedContext_same hs₃
    have hrun₂ : s₂.runQueue = s.runQueue := (pushSleep_sameQueues hs₂).1.trans hrun₁
    refine (h₂.same h₃).spares.trans ?_
    cases inTh with
    | none => exact (pushFree_same hs).spares
    | some u =>
      have hu : u ∈ s.runQueue := hrun₂ ▸ hin u rfl
      apply handOver_spares hs
      rw [(h₂.same h₃).others u (hnot u hu)]
      exact h.queues.run u hu
  · obtain ⟨⟨inTh, s₁⟩, hs₁, hs⟩ := Option.bind_eq_some_iff.mp hs
    obtain ⟨h₁, hin⟩ := schedContext_same hs₁
    refine h₁.spares.trans ?_
    cases inTh with
    | none => exact ((setThread_sets s₁ t _).same (pushOut_same hs)).spares
    | some u =>
      have hu := hin u rfl
      obtain ⟨s₂, hs₂, hs⟩ := Option.bind_eq_some_iff.mp hs
      obtain ⟨h₂, -⟩ := deschedule_sets hs₂
      refine h₂.spares.trans ?_
      apply handOver_spares hs
      rw [h₂.others u (hnot u hu), h₁.threads]
      exact h.queues.run u hu

/-- What `leave` does to its own thread. -/
theorem leave_self (h : Inv none dying s) (ht : (s.threads t).state = .RUNNING)
    (hfake : (s.threads t).fakeLeave = false)
    (hplace : (s.threads t).place = .program ∨ dying = some t)
    (hdying : dying = none ∨ dying = some t) (hs : leave t (s.threads t).cid s = some s') :
    Inv none dying s' ∧ s.LeftBy t s' := by
  obtain ⟨s₁, hs₁, hinv, hleft⟩ := leave_inv h ht hfake hplace hdying
  rw [hs] at hs₁
  cases hs₁
  exact ⟨hinv, hleft⟩

theorem LeftBy.gone (h : s.LeftBy t s') (hmap : s.gidMap t = true) : s'.Gone t := by
  obtain ⟨hsame, hst⟩ := h
  refine ⟨by rw [hsame, hmap], .inr ?_⟩
  split at hst
  · exact .inr (.inr (.inr hst))
  · rcases hst with hst | hst
    · exact .inr (.inr (.inl hst))
    · exact .inr (.inl hst)

theorem InProgram.inMap (h : Inv none none s) (ht : s.InProgram t c) : s.gidMap t = true :=
  h.inMap (by simp [ht.1])

theorem leave_gone (h : Inv none none s) (ht : s.InProgram t c) (hs : leave t c s = some s') :
    Spares t s s' ∧ s'.Gone t ∧
      ((s.threads t).markedForSleep = false → (s'.threads t).state ≠ .SLEEPING) := by
  obtain ⟨hst, hcid, hplace, hfake⟩ := ht
  have hspares := leave_spares h hs
  rw [← hcid] at hs
  obtain ⟨-, hleft⟩ := leave_self h hst hfake (.inl hplace) (.inl rfl) hs
  refine ⟨hspares, hleft.gone (InProgram.inMap h ⟨hst, hcid, hplace, hfake⟩), fun hmark => ?_⟩
  have hst' := hleft.2
  rw [hmark] at hst'
  rcases hst' with hst' | hst' <;> simp [hst']

theorem syscallLeave_gone {blacklisted : Bool} (h : Inv none none s) (ht : s.InProgram t c)
    (hs : syscallLeave t c blacklisted s = some s') : Spares t s s' ∧ s'.Gone t := by
  have hmap := InProgram.inMap h ht
  rw [syscallLeave] at hs
  split at hs
  swap
  · simp at hs
  split at hs
  · obtain ⟨hspares, hgone, -⟩ := leave_gone h ht hs
    exact ⟨hspares, hgone⟩
  split at hs
  · simp at hs
  · cases hs
    have hsets := setThread_sets s t { s.threads t with fakeLeave := true }
    refine ⟨hsets.spares, hmap, .inl ?_⟩
    rw [hsets.self]

theorem breakFakeLeave_gone (h : Inv none none s) (hfake : (s.threads t).fakeLeave = true)
    (hs : breakFakeLeave t s = some s') :
    Spares t s s' ∧ s'.Gone t ∧ (s'.threads t).state ≠ .SLEEPING := by
  obtain ⟨s₁, hs₁, hs'⟩ := Option.bind_eq_some_iff.mp hs
  obtain ⟨s₂, hs₂, h₂, -, hmap⟩ := finishFakeLeave_inv h hfake
  rw [hs₁] at hs₂
  cases hs₂
  obtain ⟨s₃, hs₃, -, hmap₃, hst⟩ := breakFakeLeave_inv h hfake
  rw [hs] at hs₃
  cases hs₃
  have hsets := (finishFakeLeave_sets hs₁).1
  refine ⟨hsets.spares.trans (leave_spares h₂ hs'), ⟨?_, .inr ?_⟩, ?_⟩
  · rw [hmap₃]
    exact h.inMap (by simp [((h.threads t).fake hfake).1])
  · rcases hst with hst | hst
    · exact .inr (.inr (.inl hst))
    · exact .inr (.inl hst)
  · rcases hst with hst | hst <;> simp [hst]

/-- The thread is in the barrier, or past it. -/
def InSync (s : Scheduler) (t c : Nat) : Prop :=
  (s.threads t).state = .RUNNING ∧ (s.threads t).cid = c ∧ (s.threads t).place ≠ .program

theorem syncStart_self (ht : s.InProgram t c) (hs : syncStart t c s = some s') :
    Spares t s s' ∧ s'.gidMap t = s.gidMap t ∧ s'.InSync t c := by
  obtain ⟨hst, hcid, -, -⟩ := ht
  rw [syncStart] at hs
  split at hs
  · cases hs
    have hsets := setThread_sets s t { s.threads t with place := .inSync }
    refine ⟨hsets.spares, rfl, ?_⟩
    rw [InSync, hsets.self]
    exact ⟨hst, hcid, by simp⟩
  · simp at hs

theorem handOff_waiting (h : Inv none none s) (ht : (s.threads t).state = .RUNNING)
    (hd : (s.threads t).handoffThread = some d) (hs : handOff t d s = some s') :
    Spares t s s' ∧ s'.gidMap t = s.gidMap t ∧ s'.Waiting t := by
  have hplace := h.handoffs.from_synced t d hd
  obtain ⟨hqueued, -⟩ := h.handoffs.target t d hd
  obtain ⟨hmark, hfake⟩ := (h.threads t).in_sync (by simp [hplace])
  have hdt : d ≠ t := by
    rintro rfl
    rw [ht] at hqueued
    cases hqueued
  obtain ⟨s₁, hs₁, hs'⟩ := Option.bind_eq_some_iff.mp hs
  obtain ⟨s₂, hs₂, hs''⟩ := Option.bind_eq_some_iff.mp hs'
  obtain ⟨h₁, hq₁⟩ := deschedule_sets hs₁
  have h₁ := (setThread_sets s t _).trans h₁
  rw [setThread_self] at h₁
  obtain ⟨h₂, hq₂⟩ := handOver_sets hs₂
  have hd₁ : (s₁.threads d).state = .QUEUED := by
    rw [h₁.others d hdt]
    exact hqueued
  have ht₂ : s₂.threads t = s₁.threads t := h₂.others t hdt.symm
  have hout : ∀ o ∈ s₂.outQueue, (s₂.threads o).state = .OUT := by
    intro o ho
    rw [hq₂.2, hq₁.2] at ho
    have hst := (h.queues.out.mem o).mp ho
    have hod : o ≠ d := by
      rintro rfl
      rw [hqueued] at hst
      cases hst
    have hot : o ≠ t := by
      rintro rfl
      rw [ht] at hst
      cases hst
    rw [h₂.others o hod, h₁.others o hot]
    exact hst
  obtain ⟨hspares, hmap, hwait⟩ := scheduleOrWait_spares hout (by rw [ht₂, h₁.self]; simp)
    (by rw [ht₂, h₁.self]; exact hmark) (by rw [ht₂, h₁.self]; exact hfake) hs''
  refine ⟨h₁.spares.trans ((handOver_spares hs₂ hd₁).trans hspares), ?_, hwait⟩
  rw [hmap, h₂.gidMap, h₁.gidMap]

theorem syncEnd_waiting (h : Inv none none s) (ht : (s.threads t).place = .synced)
    (hs : syncEnd t s = some s') :
    Spares t s s' ∧ s'.gidMap t = s.gidMap t ∧ s'.Waiting t := by
  have hrun : (s.threads t).state = .RUNNING :=
    (h.handoffs.syncing t (by simp [ht])).resolve_right (by simp)
  obtain ⟨hmark, hfake⟩ := (h.threads t).in_sync (by simp [ht])
  rw [syncEnd] at hs
  split at hs
  · exact handOff_waiting h hrun ‹_› hs
  · rw [if_pos hrun] at hs
    cases hs
    have hsets := setThread_sets s t { s.threads t with place := .program }
    refine ⟨hsets.spares, rfl, ?_, .inr ⟨(s.threads t).cid, ?_⟩⟩
    · rw [hsets.self]
      exact hmark
    · rw [InProgram, hsets.self]
      exact ⟨hrun, rfl, rfl, hfake⟩

theorem delete_spares : Spares t s (delete t s) ∧ (delete t s).gidMap t = false := by
  refine ⟨⟨rfl, rfl, fun u hu => Function.update_of_ne hu _ _, ?_⟩, ?_⟩
  · exact (setThread_sets s t _).spares.drift
  exact Function.update_self _ _ _

theorem finishThread_spares (hs : finishThread t s = some s') :
    Spares t s s' ∧ s'.gidMap t = false := by
  rw [finishThread] at hs
  split at hs
  · obtain ⟨s₁, hs₁, rfl⟩ := Option.map_eq_some_iff.mp hs
    exact ⟨(removeRun_same hs₁).spares.trans delete_spares.1, delete_spares.2⟩
  split at hs
  swap
  · simp at hs
  split at hs
  · obtain ⟨s₂, hs₂, hs⟩ := Option.bind_eq_some_iff.mp hs
    obtain ⟨s₁, hs₁, hs₂⟩ := Option.bind_eq_some_iff.mp hs₂
    obtain ⟨s₃, hs₃, rfl⟩ := Option.map_eq_some_iff.mp hs
    refine ⟨?_, delete_spares.2⟩
    exact (removeOut_same hs₁).spares.trans ((deschedule_sets hs₂).1.spares.trans
      ((pushFree_same hs₃).spares.trans delete_spares.1))
  · cases hs
    exact delete_spares

theorem finish_spares (h : Inv none none s) (hs : finish t s = some s') :
    Spares t s s' ∧ s'.gidMap t = false := by
  rw [finish] at hs
  split at hs
  · simp at hs
  obtain ⟨s₁, hs₁, hs⟩ := Option.bind_eq_some_iff.mp hs
  obtain ⟨s₂, hs₂, hs⟩ := Option.bind_eq_some_iff.mp hs
  obtain ⟨hlast, hmap⟩ := finishThread_spares hs
  have hfirst : Spares t s s₁ ∧ Inv none none s₁ := by
    split at hs₁
    · rename_i hfake
      obtain ⟨s₃, hs₃, h₃, -⟩ := breakFakeLeave_inv h hfake
      rw [hs₁] at hs₃
      cases hs₃
      exact ⟨(breakFakeLeave_gone h hfake hs₁).1, h₃⟩
    · cases hs₁
      exact ⟨Same.rfl.spares, h⟩
  refine ⟨hfirst.1.trans (.trans ?_ hlast), hmap⟩
  split at hs₂
  · exact leave_spares hfirst.2 hs₂
  · cases hs₂
    exact Same.rfl.spares

theorem markForSleep_self {wakeupPhase : Nat} (ht : s.InProgram t c)
    (hs : markForSleep t wakeupPhase s = some s') :
    Spares t s s' ∧ s'.gidMap t = s.gidMap t ∧ s'.InProgram t c := by
  rw [markForSleep] at hs
  split at hs
  · cases hs
    have hsets := setThread_sets s t
      { s.threads t with markedForSleep := true, wakeupPhase, futexWord := 1 }
    refine ⟨hsets.spares, rfl, ?_⟩
    rw [InProgram, hsets.self]
    exact ht
  · simp at hs

theorem notifySleepEnd_gone (hmap : s.gidMap t = true) (hs : notifySleepEnd t s = some s') :
    Spares t s s' ∧ s'.Gone t ∧ (s'.threads t).state ≠ .SLEEPING := by
  rw [notifySleepEnd] at hs
  split at hs
  swap
  · simp at hs
  split at hs
  · rename_i hblocked
    cases hs
    exact ⟨Same.rfl.spares, ⟨hmap, .inr (.inr (.inr (.inl hblocked)))⟩, by simp [hblocked]⟩
  split at hs
  · have hsets := (setThread_sets s t { s.threads t with state := .BLOCKED }).same
      (removeSleep_same (t := t) (hs : endSleep t s = some s'))
    refine ⟨hsets.spares, ⟨by rw [hsets.gidMap, hmap], .inr (.inr (.inr (.inl ?_)))⟩, ?_⟩ <;>
      simp [hsets.self]
  · simp at hs

section drift

variable (hd : Drift (s.threads t) (s'.threads t))
include hd

theorem Drift.inProgram (ht : s.InProgram t c) : s'.InProgram t c := by
  obtain ⟨hst, hcid, hplace, hfake⟩ := ht
  obtain ⟨hfake', -, hmoved⟩ := hd
  refine ⟨?_, ?_, ?_, hfake'.trans hfake⟩ <;> grind

theorem Drift.inSync (ht : s.InSync t c) : s'.InSync t c := by
  obtain ⟨hst, hcid, hplace⟩ := ht
  obtain ⟨-, -, hmoved⟩ := hd
  refine ⟨?_, ?_, ?_⟩ <;> grind

theorem Drift.waiting (h : Inv none none s) (ht : s.Waiting t) : s'.Waiting t := by
  obtain ⟨hmark, hqueued | ⟨c, hprog⟩⟩ := ht
  · have hfake := ((h.threads t).unmarked (by simp [hqueued])).2
    refine ⟨hd.marked.trans hmark, ?_⟩
    rcases hd.moved with ⟨hst, -, -⟩ | ⟨-, hst, hplace⟩ | ⟨hst, -⟩
    · exact .inl (hst.trans hqueued)
    · exact .inr ⟨_, hst, .refl _, hplace, hd.fakeLeave.trans hfake⟩
    · simp [hqueued] at hst
  · exact ⟨hd.marked.trans hmark, .inr ⟨c, hd.inProgram hprog⟩⟩

theorem Drift.awake (ht : (s.threads t).state ≠ .SLEEPING) :
    (s'.threads t).state ≠ .SLEEPING := by
  obtain ⟨-, -, hmoved⟩ := hd
  grind

theorem Drift.gone (ht : s.Gone t) (hmap : s'.gidMap t = s.gidMap t) : s'.Gone t := by
  obtain ⟨hin, hgone⟩ := ht
  obtain ⟨hfake, -, hmoved⟩ := hd
  refine ⟨hmap.trans hin, ?_⟩
  grind [Away]

end drift

/-- The end of a phase, as all threads see it. -/
structure Drifts (s s' : Scheduler) : Prop where
  numCores : s'.numCores = s.numCores
  curPhase : s'.curPhase = s.curPhase
  gidMap : s'.gidMap = s.gidMap
  drift : ∀ u, Drift (s.threads u) (s'.threads u)
  running : ∀ u, (s'.threads u).state = .RUNNING → (s.threads u).state = .RUNNING

theorem Drifts.trans (h : Drifts s₁ s₂) (h' : Drifts s₂ s₃) : Drifts s₁ s₃ :=
  ⟨h'.numCores.trans h.numCores, h'.curPhase.trans h.curPhase, h'.gidMap.trans h.gidMap,
    fun u => (h.drift u).trans (h'.drift u), fun u hu => h.running u (h'.running u hu)⟩

theorem Same.drifts (h : Same s s') : Drifts s s' := by
  refine ⟨h.numCores, h.curPhase, h.gidMap, fun u => ?_, fun u => ?_⟩ <;> rw [h.threads]
  · exact .rfl
  · exact id

theorem Sets.drifts (h : Sets t th s s') (hth : Drift (s.threads t) th)
    (hrun : th.state = .RUNNING → (s.threads t).state = .RUNNING) : Drifts s s' := by
  refine ⟨h.numCores, h.curPhase, h.gidMap, fun u => ?_, fun u => ?_⟩ <;> by_cases hu : u = t
  · rw [hu, h.self]
    exact hth
  · rw [h.others u hu]
    exact .rfl
  · rw [hu, h.self]
    exact hrun
  · rw [h.others u hu]
    exact id

theorem passBarrier_drift (s : Scheduler) (u : Nat) :
    Drift (s.threads u) (s.passBarrier.threads u) := by
  obtain ⟨place, heq, hplace⟩ := passBarrier_eq s u
  rw [heq]
  refine ⟨rfl, rfl, .inl ⟨rfl, rfl, ?_⟩⟩
  rcases hplace with ⟨hin, hout⟩ | ⟨-, hsame⟩
  · exact .inr ⟨hin, hout⟩
  · exact .inl hsame

theorem wakeSleepers_drifts {ts : List Nat} (hts : ∀ t ∈ ts, (s.threads t).state = .SLEEPING)
    (hnodup : ts.Nodup) (hs : wakeSleepers ts s = some s') : Drifts s s' := by
  induction ts generalizing s with
  | nil =>
    cases hs
    exact Same.rfl.drifts
  | cons t ts ih =>
    obtain ⟨hnot, hnodup⟩ := List.nodup_cons.mp hnodup
    rw [wakeSleepers] at hs
    split at hs
    swap
    · cases hs
      exact Same.rfl.drifts
    split at hs
    swap
    · simp at hs
    obtain ⟨s₂, hs₂, hs⟩ := Option.bind_eq_some_iff.mp hs
    obtain ⟨s₁, hs₁, hs₂⟩ := Option.bind_eq_some_iff.mp hs₂
    have hsets := ((setThread_sets s t _).trans (wakeup_sets hs₁).1).same (removeSleep_same hs₂)
    rw [setThread_self] at hsets
    have hfirst : Drifts s s₂ :=
      hsets.drifts ⟨rfl, rfl, .inr (.inr ⟨.inr (hts t List.mem_cons_self), rfl⟩)⟩ (by simp)
    refine hfirst.trans (ih (fun u hu => ?_) hnodup hs)
    rw [hsets.others u fun he => hnot (he ▸ hu)]
    exact hts u (List.mem_cons_of_mem t hu)

theorem tickFrom_drifts {ts avail : List Nat} (hs : tickFrom ts avail s = some s') :
    Drifts s s' := by
  induction ts generalizing s avail with
  | nil =>
    cases hs
    exact Same.rfl.drifts
  | cons t ts ih =>
    rw [tickFrom] at hs
    split at hs
    · cases hs
      exact Same.rfl.drifts
    split at hs
    · exact ih hs
    split at hs
    · simp at hs
    · obtain ⟨s₁, hs₁, hs⟩ := Option.bind_eq_some_iff.mp hs
      refine .trans ?_ ((removeRun_same hs₁).drifts.trans (ih hs))
      exact (setThread_sets s _ _).drifts ⟨rfl, rfl, .inl ⟨rfl, rfl, .inl rfl⟩⟩ id

theorem schedTick_drifts {avail : List Nat} (hs : schedTick avail s = some s') : Drifts s s' := by
  obtain ⟨s₁, hs₁, hs⟩ := Option.bind_eq_some_iff.mp hs
  obtain ⟨_, -, rfl⟩ := Option.map_eq_some_iff.mp hs
  exact tickFrom_drifts hs₁

/-- The end of a phase, once the barrier has let all threads out. -/
theorem callback_drifts {avail : List Nat} (h : Inv none none s)
    (hs : callback avail s = some s') :
    Drifts { s.passBarrier with curPhase := s.curPhase + 1 } s' := by
  rw [callback] at hs
  split at hs
  swap
  · simp at hs
  obtain ⟨s₁, hs₁, hs⟩ := Option.bind_eq_some_iff.mp hs
  have hsleep : Drifts { s.passBarrier with curPhase := s.curPhase + 1 } s₁ := by
    refine wakeSleepers_drifts (fun t ht => ?_) h.queues.sleep.nodup hs₁
    change (s.passBarrier.threads t).state = _
    rw [passBarrier_field s t ThreadInfo.state fun _ _ => rfl]
    exact (h.queues.sleep.mem t).mp ht
  refine hsleep.trans ?_
  split at hs
  · exact schedTick_drifts hs
  · cases hs
    exact Same.rfl.drifts

/-- A thread that runs in the next phase has run in this one, and is past the barrier. -/
theorem callback_running {avail : List Nat} (h : Inv none none s)
    (hs : callback avail s = some s') (hu : (s'.threads u).state = .RUNNING) :
    (s.threads u).state = .RUNNING ∧ (s'.threads u).cid = (s.threads u).cid ∧
      (s'.threads u).place ≠ .inSync := by
  have hdrifts := callback_drifts h hs
  have hrun : (s.passBarrier.threads u).state = .RUNNING := hdrifts.running u hu
  have hmoved : Drift (s.passBarrier.threads u) (s'.threads u) := hdrifts.drift u
  obtain ⟨-, -, hmoved⟩ := hmoved
  obtain ⟨place, heq, hplace⟩ := passBarrier_eq s u
  rw [heq] at hrun hmoved
  rcases hmoved with ⟨-, hcid, hsame⟩ | ⟨hst, -, -⟩ | ⟨hst, -⟩
  · refine ⟨hrun, hcid, fun hin => ?_⟩
    simp only [hin] at hsame
    grind
  · rw [hrun] at hst
    cases hst
  · rw [hrun] at hst
    rcases hst with hst | hst <;> cases hst

end Scheduler

end ZSim
