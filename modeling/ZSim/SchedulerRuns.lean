import ZSim.SchedulerOps

/-! Threads start, join, leave, sync, sleep and finish: what each call does to the
invariant. -/

namespace ZSim

namespace Scheduler

variable {s s' : Scheduler} {spare dying : Option Nat} {t c : Nat} {th : ThreadInfo}

theorem Inv.setMap (h : Inv spare dying s) {b : Bool}
    (hok : ThreadOk s.numCores s.curPhase b (s.threads t)) :
    Inv spare dying { s with gidMap := Function.update s.gidMap t b } := by
  refine ⟨⟨h.contexts.used, h.contexts.cur, h.contexts.owner, h.contexts.free, h.contexts.spare,
      h.contexts.count⟩,
    ⟨h.queues.run_nodup, h.queues.run, h.queues.out, h.queues.sleep, h.queues.sorted⟩, h.waiting,
    ⟨h.handoffs.syncing, h.handoffs.from_synced, h.handoffs.target, h.handoffs.injective⟩,
    fun u => ?_⟩
  by_cases hut : u = t
  · rw [hut]
    change ThreadOk _ _ (Function.update s.gidMap t b t) _
    rw [Function.update_self]
    exact hok
  · change ThreadOk _ _ (Function.update s.gidMap t b u) _
    rw [Function.update_of_ne hut]
    exact h.threads u

theorem ThreadOk.init {numCores curPhase : Nat} {inMap : Bool} (mask : Nat → Bool)
    (hcores : inMap = true → 0 < numCores) :
    ThreadOk numCores curPhase inMap (ThreadInfo.init mask) where
  cid := hcores
  absent _ := rfl
  sleeping h := by cases h
  marked h := by cases h
  fake h := by cases h

/-- A thread that nobody knows of any more starts anew. -/
theorem Inv.reset (h : Inv none dying s)
    (ht : (s.threads t).state = .STARTED ∨ (s.threads t).state = .BLOCKED ∨
      (s.threads t).state = .QUEUED)
    (hrun : t ∉ s.runQueue) (hnot : ∀ v, (s.threads v).handoffThread ≠ some t)
    (hdying : ∀ u, u ≠ t → dying ≠ some u) (mask : Nat → Bool) {b : Bool}
    (hcores : 0 < s.numCores) :
    Inv none none { s.setThread t (.init mask) with gidMap := Function.update s.gidMap t b } := by
  have hidle : Inv none none (s.setThread t (.init mask)) :=
    h.setIdle ht hrun (.inl rfl) rfl rfl (fun u hu he => (hdying u hu he).elim) hnot
      (.init mask fun _ => hcores)
  refine hidle.setMap (t := t) ?_
  rw [setThread_self]
  exact .init mask fun _ => hcores

theorem start_inv (h : Inv none none s) (hmap : s.gidMap t = false) {mask : Nat → Bool}
    (hmask : (List.range s.numCores).any mask = true) :
    ∃ s', start t mask s = some s' ∧ Inv none none s' := by
  have hst := (h.threads t).absent hmap
  obtain ⟨c, hc, -⟩ := List.any_eq_true.mp hmask
  refine ⟨_, if_pos ⟨hmap, hmask⟩, h.reset (.inl hst) (h.queues.run_not_mem (by simp [hst]))
    (h.handoffs.not_target (by simp [hst])) (by simp) mask ?_⟩
  exact Nat.zero_lt_of_lt (List.mem_range.mp hc)

theorem finishFakeLeave_inv (h : Inv none none s) (hfake : (s.threads t).fakeLeave = true) :
    ∃ s', finishFakeLeave t s = some s' ∧ Inv none none s' ∧
      s'.threads t = { s.threads t with fakeLeave := false } ∧ s'.gidMap = s.gidMap := by
  have hok := h.threads t
  obtain ⟨hst, -⟩ := hok.fake hfake
  refine ⟨_, if_pos ⟨hfake, hst⟩, ?_, setThread_self s t _, rfl⟩
  refine h.setFlags rfl rfl rfl (fun _ => rfl) (fun _ => rfl) (.inl rfl) (fun _ => id)
    (h.handoffs.not_target (by simp [hst])) ⟨hok.cid, hok.absent, hok.sleeping, fun hm => ?_, ?_⟩
  · have hnone := (hok.marked hm).2.2.1
    rw [hfake] at hnone
    cases hnone
  · rintro ⟨⟩

theorem endSleep_inv (h : Inv none none s) (ht : (s.threads t).state = .SLEEPING) :
    ∃ s', endSleep t s = some s' ∧ Inv none none s' ∧
      s'.threads t = { s.threads t with state := .BLOCKED } ∧ s'.gidMap = s.gidMap := by
  have hne : (s.threads t).state ≠ .RUNNING := by simp [ht]
  obtain ⟨hmark, hfake⟩ := (h.threads t).unmarked hne
  have hplace := h.in_program hne (by simp)
  have hself := setThread_self s t { s.threads t with state := .BLOCKED }
  refine ⟨_, if_pos ((h.queues.sleep.mem t).mpr ht), ?_, hself, rfl⟩
  refine h.endSleep (t := t) ⟨fun u hu => setThread_of_ne hu _, rfl, rfl, rfl⟩ ht ?_ ?_ ?_ rfl rfl rfl
    rfl rfl rfl ?_
  · exact congrArg ThreadInfo.state hself
  · exact (congrArg ThreadInfo.place hself).trans hplace
  · exact (congrArg ThreadInfo.handoffThread hself).trans (h.no_handoff hplace)
  · change ThreadOk _ _ _ ((s.setThread t _).threads t)
    rw [hself]
    exact (h.threads t).block (by simp [ht]) hmark hfake (by simp)

theorem joinAwake_inv (h : Inv none none s) (hmap : s.gidMap t = true)
    (ht : (s.threads t).state = .STARTED ∨ (s.threads t).state = .OUT ∨
      (s.threads t).state = .BLOCKED) :
    ∃ s', joinAwake t s = some s' ∧ Inv none none s' := by
  rw [joinAwake]
  by_cases hout : (s.threads t).state = .OUT
  · have hne : (s.threads t).state ≠ .RUNNING := by simp [hout]
    obtain ⟨hmark, hfake⟩ := (h.threads t).unmarked hne
    have hself := setThread_self s t { s.threads t with state := .RUNNING, place := .program }
    rw [if_pos hout]
    refine ⟨_, if_pos ((h.queues.out.mem t).mpr hout), ?_⟩
    refine h.comeBack (t := t) ⟨fun u hu => setThread_of_ne hu _, rfl, rfl, rfl⟩ hout ?_ ?_ ?_ ?_ rfl
      rfl rfl rfl rfl rfl ?_
    · exact congrArg ThreadInfo.state hself
    · exact (congrArg ThreadInfo.cid hself :)
    · exact (congrArg ThreadInfo.mask hself :)
    · exact (congrArg ThreadInfo.handoffThread hself).trans
        (h.no_handoff (h.in_program hne (by simp)))
    · change ThreadOk _ _ _ ((s.setThread t _).threads t)
      rw [hself]
      exact ⟨(h.threads t).cid, fun hm => by simp [hmap] at hm, by simp,
        fun hm => absurd hm (by simp [hmark]), fun hf => absurd hf (by simp [hfake])⟩
  · have hidle : (s.threads t).state = .BLOCKED ∨ (s.threads t).state = .STARTED := by
      rcases ht with ht | ht | ht
      · exact .inr ht
      · exact (hout ht).elim
      · exact .inl ht
    have hnot : (s.threads t).state ≠ .QUEUED := by
      rcases hidle with hst | hst <;> simp [hst]
    rw [if_neg hout, if_pos hidle]
    refine scheduleOrWait_inv h ?_ hmap (h.queues.run_not_mem hnot)
      (h.handoffs.not_target fun hst => (hnot hst).elim)
    rcases hidle with hst | hst
    · exact .inr (.inl hst)
    · exact .inl hst

/-- The states of a thread that is not in the simulation and not waiting for a context. -/
def Away (s : Scheduler) (t : Nat) : Prop :=
  (s.threads t).state = .STARTED ∨ (s.threads t).state = .OUT ∨ (s.threads t).state = .BLOCKED ∨
    (s.threads t).state = .SLEEPING

theorem join_inv (h : Inv none none s) (hmap : s.gidMap t = true)
    (ht : (s.threads t).fakeLeave = true ∨ s.Away t) :
    ∃ s', join t s = some s' ∧ Inv none none s' := by
  rw [join, if_neg (by simp [hmap])]
  by_cases hfake : (s.threads t).fakeLeave = true
  · obtain ⟨s', hs', hinv, -⟩ := finishFakeLeave_inv h hfake
    rw [if_pos hfake]
    exact ⟨s', hs', hinv⟩
  have haway := ht.resolve_left hfake
  have hne : (s.threads t).state ≠ .RUNNING := by
    rcases haway with hst | hst | hst | hst <;> simp [hst]
  rw [if_neg hfake, if_neg (by simp [((h.threads t).unmarked hne).1])]
  by_cases hsleep : (s.threads t).state = .SLEEPING
  · obtain ⟨s₁, hs₁, hinv, hself, hmap₁⟩ := endSleep_inv h hsleep
    obtain ⟨s', hs', hinv'⟩ := joinAwake_inv (t := t) hinv (hmap₁ ▸ hmap)
      (.inr (.inr (by rw [hself])))
    refine ⟨s', ?_, hinv'⟩
    rw [if_pos hsleep, hs₁]
    exact hs'
  · rw [if_neg hsleep]
    refine joinAwake_inv h hmap ?_
    rcases haway with hst | hst | hst | hst
    · exact .inl hst
    · exact .inr (.inl hst)
    · exact .inr (.inr hst)
    · exact (hsleep hst).elim

/-- The thread runs its program on context `c`. -/
def InProgram (s : Scheduler) (t c : Nat) : Prop :=
  (s.threads t).state = .RUNNING ∧ (s.threads t).cid = c ∧ (s.threads t).place = .program ∧
    (s.threads t).fakeLeave = false

theorem leave_in_program (h : Inv none none s) (ht : s.InProgram t c) :
    ∃ s', leave t c s = some s' ∧ Inv none none s' := by
  obtain ⟨hst, rfl, hplace, hfake⟩ := ht
  obtain ⟨s', hs', hinv, -⟩ := leave_inv h hst hfake (.inl hplace) (.inl rfl)
  exact ⟨s', hs', hinv⟩

theorem syscallLeave_inv (h : Inv none none s) (ht : s.InProgram t c) (blacklisted : Bool) :
    ∃ s', syscallLeave t c blacklisted s = some s' ∧ Inv none none s' := by
  obtain ⟨hst, hcid, hplace, hfake⟩ := ht
  have hok := h.threads t
  have hcur := (h.contexts.owner t (.inl hst)).2.1
  rw [hcid] at hcur
  rw [syscallLeave, if_pos ⟨hcur, hcid, hst⟩]
  by_cases hreal : blacklisted = true ∨ (s.threads t).markedForSleep = true
  · rw [if_pos hreal]
    exact leave_in_program h ⟨hst, hcid, hplace, hfake⟩
  · have hmark : ¬ (s.threads t).markedForSleep = true := fun hm => hreal (.inr hm)
    rw [if_neg hreal, if_neg (by simp [hfake])]
    refine ⟨_, rfl, h.setFlags rfl rfl rfl (fun _ => rfl) (fun _ => rfl) (.inl rfl) (fun _ => id)
      (h.handoffs.not_target (by simp [hst]))
      ⟨hok.cid, hok.absent, hok.sleeping, fun hm => (hmark hm).elim, fun _ => ⟨hst, hplace⟩⟩⟩

theorem breakFakeLeave_inv (h : Inv none none s) (ht : (s.threads t).fakeLeave = true) :
    ∃ s', breakFakeLeave t s = some s' ∧ Inv none none s' ∧ s'.gidMap = s.gidMap ∧
      ((s'.threads t).state = .BLOCKED ∨ (s'.threads t).state = .OUT) := by
  have hok := h.threads t
  obtain ⟨hst, hplace⟩ := hok.fake ht
  have hmark : (s.threads t).markedForSleep = false := by
    by_contra hm
    have hfake := (hok.marked (by simpa using hm)).2.2.1
    rw [ht] at hfake
    cases hfake
  obtain ⟨s₁, hs₁, h₁, hself, hmap⟩ := finishFakeLeave_inv h ht
  obtain ⟨s', hs', hinv, hmap', hleft⟩ := leave_inv (t := t) h₁ (by rw [hself]; exact hst)
    (by rw [hself]) (.inl (by rw [hself]; exact hplace)) (.inl rfl)
  have hcid : (s₁.threads t).cid = (s.threads t).cid := by rw [hself]
  refine ⟨s', ?_, hinv, hmap'.trans hmap, ?_⟩
  · rw [breakFakeLeave, hs₁, Option.bind_some, ← hcid]
    exact hs'
  · rw [hself, if_neg (by simp [hmark])] at hleft
    exact hleft

theorem syncStart_inv (h : Inv none none s) (ht : s.InProgram t c)
    (hmark : (s.threads t).markedForSleep = false) :
    ∃ s', syncStart t c s = some s' ∧ Inv none none s' := by
  obtain ⟨hst, rfl, hplace, hfake⟩ := ht
  have hok := h.threads t
  refine ⟨_, if_pos ⟨(h.contexts.owner t (.inl hst)).2.1, hmark⟩, ?_⟩
  refine h.setFlags rfl rfl rfl (fun _ => rfl) (fun _ => rfl) (.inr ⟨hst, h.no_handoff hplace⟩)
    (fun _ => id) (h.handoffs.not_target (by simp [hst]))
    ⟨hok.cid, hok.absent, hok.sleeping, fun hm => ?_, fun hf => ?_⟩
  · exact absurd hm (by simp [hmark])
  · exact absurd hf (by simp [hfake])

theorem syncEnd_inv (h : Inv none none s) (ht : (s.threads t).place = .synced) :
    ∃ s', syncEnd t s = some s' ∧ Inv none none s' := by
  have hok := h.threads t
  have hst : (s.threads t).state = .RUNNING :=
    (h.handoffs.syncing t (by simp [ht])).resolve_right (by simp)
  rw [syncEnd]
  split
  · rename_i d hd
    exact handOff_inv h hst hd
  · rename_i hnone
    obtain ⟨hmark, hfake⟩ := hok.in_sync (by simp [ht])
    rw [if_pos hst]
    exact ⟨_, rfl, h.setFlags rfl rfl rfl (fun _ => rfl) (fun _ => rfl) (.inr ⟨hst, hnone⟩)
      (fun _ => id) (h.handoffs.not_target (by simp [hst]))
      ⟨hok.cid, hok.absent, hok.sleeping, fun hm => absurd hm (by simp [hmark]),
        fun hf => absurd hf (by simp [hfake])⟩⟩

theorem markForSleep_inv (h : Inv none none s) (hmap : s.gidMap t = true) (ht : s.InProgram t c)
    (hmark : (s.threads t).markedForSleep = false) {wakeupPhase : Nat}
    (hphase : s.curPhase < wakeupPhase) :
    ∃ s', markForSleep t wakeupPhase s = some s' ∧ Inv none none s' := by
  obtain ⟨hst, -, hplace, hfake⟩ := ht
  have hok := h.threads t
  refine ⟨_, if_pos ⟨hmap, hmark⟩, ?_⟩
  refine h.setFlags rfl rfl rfl (fun hin => ?_) (fun hsl => ?_) (.inl rfl) (fun _ => id)
    (h.handoffs.not_target (by simp [hst]))
    ⟨hok.cid, hok.absent, fun hsl => ?_, fun _ => ⟨hst, hplace, hfake, rfl, hphase⟩, hok.fake⟩
  · exact (h.queues.run_not_mem (by simp [hst]) hin).elim
  · exact absurd hsl (by simp [hst])
  · exact absurd hsl (by simp [hst])

theorem notifySleepEnd_inv (h : Inv none none s) (hmap : s.gidMap t = true)
    (ht : (s.threads t).state = .BLOCKED ∨ (s.threads t).state = .SLEEPING) :
    ∃ s', notifySleepEnd t s = some s' ∧ Inv none none s' := by
  have hne : (s.threads t).state ≠ .RUNNING := by
    rcases ht with hst | hst <;> simp [hst]
  rw [notifySleepEnd, if_pos ⟨hmap, ((h.threads t).unmarked hne).1⟩]
  by_cases hblocked : (s.threads t).state = .BLOCKED
  · rw [if_pos hblocked]
    exact ⟨s, rfl, h⟩
  · have hsleep := ht.resolve_left hblocked
    obtain ⟨s', hs', hinv, -⟩ := endSleep_inv h hsleep
    rw [if_neg hblocked, if_pos hsleep]
    exact ⟨s', hs', hinv⟩

theorem Inv.toDying (h : Inv none none s) (t : Nat) : Inv none (some t) s :=
  ⟨h.contexts, h.queues, h.waiting,
    ⟨fun u hu => .inl ((h.handoffs.syncing u hu).resolve_right (by simp)), h.handoffs.from_synced,
      h.handoffs.target, h.handoffs.injective⟩, h.threads⟩

/-- No waiting thread could have the context that a thread kept when it went out. -/
theorem Inv.out_unwanted (h : Inv none dying s) (ht : (s.threads t).state = .OUT) {u : Nat}
    (hu : u ∈ s.runQueue) : (s.threads u).mask (s.threads t).cid ≠ true := by
  intro hmask
  obtain ⟨hlt, hcur, -⟩ := h.contexts.owner t (.inr ht)
  obtain ⟨v, hv, hrun⟩ := (h.waiting u hu).2 _ hlt hmask (by simp)
  rw [hcur] at hv
  cases hv
  rw [ht] at hrun
  cases hrun

theorem finishThread_inv (h : Inv none dying s) (hdying : ∀ u, u ≠ t → dying ≠ some u)
    (hself : dying = none ∨ dying = some t) (hmap : s.gidMap t = true)
    (ht : (s.threads t).state = .STARTED ∨ (s.threads t).state = .OUT ∨
      (s.threads t).state = .BLOCKED ∨ (s.threads t).state = .QUEUED ∧ t ∈ s.runQueue) :
    ∃ s', finishThread t s = some s' ∧ Inv none none s' := by
  have hcores : 0 < s.numCores := Nat.zero_lt_of_lt ((h.threads t).cid hmap)
  rw [finishThread]
  by_cases hqueued : (s.threads t).state = .QUEUED
  · have hin : t ∈ s.runQueue := by
      rcases ht with hst | hst | hst | ⟨-, hin⟩
      · exact absurd hst (by simp [hqueued])
      · exact absurd hst (by simp [hqueued])
      · exact absurd hst (by simp [hqueued])
      · exact hin
    rw [if_pos hqueued, removeRun, if_pos hin]
    exact ⟨_, rfl, (h.removeRun t).reset (.inr (.inr hqueued))
      (fun hm => (h.queues.run_nodup.mem_erase_iff.mp hm).1 rfl)
      (h.handoffs.not_target fun _ => hin) hdying _ hcores⟩
  have hrun := h.queues.run_not_mem hqueued
  have hnot := h.handoffs.not_target (t := t) fun hst => (hqueued hst).elim
  have hst : (s.threads t).state = .STARTED ∨ (s.threads t).state = .OUT ∨
      (s.threads t).state = .BLOCKED := by
    rcases ht with hst | hst | hst | ⟨hst, -⟩
    · exact .inl hst
    · exact .inr (.inl hst)
    · exact .inr (.inr hst)
    · exact (hqueued hst).elim
  rw [if_neg hqueued, if_pos hst]
  by_cases hout : (s.threads t).state = .OUT
  · have hplace : (s.threads t).place = .program ∨ dying = some t := by
      rcases hself with hself | hself
      · exact .inl (h.in_program (by simp [hout]) (by simp [hself]))
      · exact .inr hself
    obtain ⟨s₁, hs₁, h₁, honly, hnew, hrun₁⟩ := h.evict hout hplace
    have hfree : (s.threads t).cid ∉ s₁.freeList :=
      fun hin => ((h₁.contexts.free.mem _).mp hin).2.2 rfl
    have h₂ := h₁.pushFree fun u hu => by
      rw [hrun₁] at hu
      rw [honly.others u fun he => hrun (he ▸ hu)]
      exact h.out_unwanted hout hu
    rw [if_pos (.inr (.inl ((h.queues.out.mem t).mpr hout))), hs₁, Option.bind_some, pushFree,
      if_neg hfree]
    refine ⟨_, rfl, h₂.reset (.inr (.inl ?_)) (hrun₁ ▸ hrun) (fun v hv => ?_) hdying _
      (honly.numCores ▸ hcores)⟩
    · exact (congrArg ThreadInfo.state hnew :)
    · by_cases hvt : v = t
      · have hv' : (s₁.threads v).handoffThread = some t := hv
        rw [hvt, hnew] at hv'
        exact hnot t hv'
      · exact hnot v ((congrArg ThreadInfo.handoffThread (honly.others v hvt)).symm.trans hv)
  · have hidle : (s.threads t).state = .STARTED ∨ (s.threads t).state = .BLOCKED :=
      hst.imp id fun hst => hst.resolve_left hout
    have hfree : ¬ s.Owned t := h.queues.not_owned hrun hout
      (by rcases hidle with hst | hst <;> simp [hst])
    rw [if_neg hfree]
    exact ⟨_, rfl, h.reset (hidle.imp id .inl) hrun hnot hdying _ hcores⟩

/-- The threads that `finish` can deal with. -/
def Finishable (s : Scheduler) (t : Nat) : Prop :=
  (s.threads t).state ≠ .SLEEPING ∧ (s.threads t).markedForSleep = false ∧
    ((s.threads t).state = .QUEUED → t ∈ s.runQueue)

theorem finish_inv (h : Inv none none s) (hmap : s.gidMap t = true) (ht : s.Finishable t) :
    ∃ s', finish t s = some s' ∧ Inv none none s' := by
  obtain ⟨hsleep, hmark, hqueued⟩ := ht
  rw [finish, if_neg (by simp [hmap])]
  by_cases hfake : (s.threads t).fakeLeave = true
  · obtain ⟨s₁, hs₁, h₁, hmap₁, hst⟩ := breakFakeLeave_inv h hfake
    obtain ⟨s', hs', hinv⟩ := finishThread_inv (t := t) h₁ (by simp) (.inl rfl) (hmap₁ ▸ hmap)
      (hst.elim (fun hst => .inr (.inr (.inl hst))) fun hst => .inr (.inl hst))
    refine ⟨s', ?_, hinv⟩
    rw [if_pos hfake, hs₁, Option.bind_some, if_neg (by rcases hst with hst | hst <;> simp [hst])]
    exact hs'
  rw [if_neg hfake, Option.bind_some]
  by_cases hrun : (s.threads t).state = .RUNNING
  · obtain ⟨s₁, hs₁, h₁, hmap₁, hst⟩ := leave_inv (h.toDying t) hrun (by simpa using hfake)
      (.inr rfl) (.inr rfl)
    rw [if_neg (by simp [hmark])] at hst
    obtain ⟨s', hs', hinv⟩ := finishThread_inv (t := t) h₁
      (fun u hu he => hu (Option.some.inj he).symm) (.inr rfl) (hmap₁ ▸ hmap)
      (hst.elim (fun hst => .inr (.inr (.inl hst))) fun hst => .inr (.inl hst))
    refine ⟨s', ?_, hinv⟩
    rw [if_pos hrun, hs₁]
    exact hs'
  · rw [if_neg hrun]
    refine finishThread_inv h (by simp) (.inl rfl) hmap ?_
    cases hst : (s.threads t).state with
    | STARTED => exact .inl rfl
    | RUNNING => exact (hrun hst).elim
    | OUT => exact .inr (.inl rfl)
    | BLOCKED => exact .inr (.inr (.inl rfl))
    | SLEEPING => exact (hsleep hst).elim
    | QUEUED => exact .inr (.inr (.inr ⟨rfl, hqueued hst⟩))

end Scheduler

end ZSim
