import ZSim.SchedulerMoves

/-! The operations of the scheduler, each with what it does to the invariant. None of them
fails. -/

namespace ZSim

namespace Scheduler

variable {s s' : Scheduler} {spare dying dying' : Option Nat} {t u c d : Nat} {th : ThreadInfo}
  {x : ThreadState}

theorem setThread_setThread (s : Scheduler) (t : Nat) (th th' : ThreadInfo) :
    (s.setThread t th).setThread t th' = s.setThread t th' := by
  rw [setThread, setThread, setThread, Function.update_idem]

theorem setThread_eq (h : th = s.threads t) : s.setThread t th = s := by
  rw [setThread, h, Function.update_eq_self]

/-- The thread can be given a context. -/
def Parked (s : Scheduler) (t : Nat) : Prop :=
  (s.threads t).state = .STARTED ∨ (s.threads t).state = .BLOCKED ∨ (s.threads t).state = .QUEUED

theorem deschedule_eq (h : Contexts none s) (ht : (s.threads t).Scheduled)
    (hx : x = .BLOCKED ∨ x = .QUEUED ∨ x = .SLEEPING) :
    deschedule t (s.threads t).cid x s =
      some { s.setThread t { s.threads t with state := x } with
        contexts := Function.update s.contexts (s.threads t).cid ⟨.IDLE, none⟩
        scheduledThreads := s.scheduledThreads - 1 } := by
  have hcur := (h.owner t ht).2.1
  exact if_pos ⟨ht, (h.cur _ t hcur).1, rfl, hcur, hx⟩

theorem schedule_eq (h : Contexts (some c) s) (ht : s.Parked t) :
    schedule t c s = some { s.setThread t
        { s.threads t with state := .RUNNING, cid := c, place := .program } with
      contexts := Function.update s.contexts c ⟨.USED, some t⟩
      scheduledThreads := s.scheduledThreads + 1 } := by
  have hidle := (h.spare c rfl).2
  exact if_pos ⟨ht, hidle, h.idle hidle⟩

/-- A thread that is awake and in no fake leave may give up its context. -/
theorem ThreadOk.block {numCores curPhase : Nat} {inMap : Bool}
    (h : ThreadOk numCores curPhase inMap th) (hst : th.state ≠ .STARTED)
    (hmark : th.markedForSleep = false) (hfake : th.fakeLeave = false) (hx : x ≠ .SLEEPING) :
    ThreadOk numCores curPhase inMap { th with state := x } where
  cid := h.cid
  absent hmap := (hst (h.absent hmap)).elim
  sleeping hsl := (hx hsl).elim
  marked hm := by
    rw [hmark] at hm
    cases hm
  fake hf := by
    rw [hfake] at hf
    cases hf

theorem ThreadOk.unmarked {numCores curPhase : Nat} {inMap : Bool}
    (h : ThreadOk numCores curPhase inMap th) (hst : th.state ≠ .RUNNING) :
    th.markedForSleep = false ∧ th.fakeLeave = false := by
  constructor
  · by_contra hm
    exact hst (h.marked (by simpa using hm)).1
  · by_contra hf
    exact hst (h.fake (by simpa using hf)).1

theorem ThreadOk.in_sync {numCores curPhase : Nat} {inMap : Bool}
    (h : ThreadOk numCores curPhase inMap th) (hplace : th.place ≠ .program) :
    th.markedForSleep = false ∧ th.fakeLeave = false := by
  constructor
  · by_contra hm
    exact hplace (h.marked (by simpa using hm)).2.1
  · by_contra hf
    exact hplace (h.fake (by simpa using hf)).2

/-- A thread with a context loses it, and its place in `outQueue`. -/
theorem Inv.block (h : Inv none dying s) (ht : (s.threads t).Scheduled)
    (hmark : (s.threads t).markedForSleep = false) (hfake : (s.threads t).fakeLeave = false)
    (hx : x = .BLOCKED ∨ x = .QUEUED)
    (hplace : (s.threads t).place = .program ∨ dying = some t) :
    Inv (some (s.threads t).cid) dying
      { s.setThread t { s.threads t with state := x } with
        contexts := Function.update s.contexts (s.threads t).cid ⟨.IDLE, none⟩
        scheduledThreads := s.scheduledThreads - 1
        outQueue := s.outQueue.erase t } := by
  have hself := setThread_self s t { s.threads t with state := x }
  have hst : (s.threads t).state ≠ .STARTED := by
    rcases ht with ht | ht <;> simp [ht]
  refine h.vacate (t := t) ⟨fun u hu => setThread_of_ne hu _, rfl, rfl, rfl⟩ ht ?_ rfl rfl rfl rfl ?_
    (fun _ _ => id) ?_ (fun d hd => ?_) ?_
  · change ¬ ((s.setThread t _).threads t).Scheduled
    rw [hself]
    rintro (hr | hr) <;> rcases hx with hx | hx <;> simp [hx] at hr
  · refine h.queues.block (t := t) ⟨fun u hu => setThread_of_ne hu _, rfl, rfl, rfl⟩ ht ?_ rfl rfl rfl
    change ((s.setThread t _).threads t).state = _ ∨ ((s.setThread t _).threads t).state = _
    rw [hself]
    exact hx
  · change ((s.setThread t _).threads t).place = _ ∨ _
    rw [hself]
    exact hplace
  · change ((s.setThread t _).threads t).handoffThread = some d at hd
    change _ ∧ ((s.setThread t _).threads t).place = _
    rw [hself] at hd ⊢
    exact ⟨hd, rfl⟩
  · change ThreadOk _ _ _ ((s.setThread t _).threads t)
    rw [hself]
    exact (h.threads t).block hst hmark hfake (by rcases hx with hx | hx <;> simp [hx])

/-- A running thread loses its context. -/
theorem Inv.deschedule (h : Inv none dying s) (ht : (s.threads t).state = .RUNNING)
    (hmark : (s.threads t).markedForSleep = false) (hfake : (s.threads t).fakeLeave = false)
    (hx : x = .BLOCKED ∨ x = .QUEUED)
    (hplace : (s.threads t).place = .program ∨ dying = some t) :
    ∃ s', s.deschedule t (s.threads t).cid x = some s' ∧ Inv (some (s.threads t).cid) dying s' ∧
      Only t s s' ∧ s'.threads t = { s.threads t with state := x } ∧ s'.runQueue = s.runQueue := by
  have hnot : t ∉ s.outQueue := by
    intro hin
    have hout := (h.queues.out.mem t).mp hin
    rw [ht] at hout
    cases hout
  have hinv := h.block (.inl ht) hmark hfake hx hplace
  rw [List.erase_of_not_mem hnot] at hinv
  exact ⟨_, deschedule_eq h.contexts (.inl ht) (hx.imp id .inl), hinv,
    ⟨fun u hu => setThread_of_ne hu _, rfl, rfl, rfl⟩, setThread_self s t _, rfl⟩

/-- A thread that is out loses its context. -/
theorem Inv.evict (h : Inv none dying s) (ht : (s.threads t).state = .OUT)
    (hplace : (s.threads t).place = .program ∨ dying = some t) :
    ∃ s', (s.removeOut t).bind (Scheduler.deschedule t (s.threads t).cid .BLOCKED) = some s' ∧
      Inv (some (s.threads t).cid) dying s' ∧ Only t s s' ∧
      s'.threads t = { s.threads t with state := .BLOCKED } ∧ s'.runQueue = s.runQueue := by
  obtain ⟨hmark, hfake⟩ := (h.threads t).unmarked (by simp [ht])
  have hmem := (h.queues.out.mem t).mpr ht
  have hctx : Contexts none { s with outQueue := s.outQueue.erase t } :=
    ⟨h.contexts.used, h.contexts.cur, h.contexts.owner, h.contexts.free, h.contexts.spare,
      h.contexts.count⟩
  refine ⟨_, ?_, h.block (.inr ht) hmark hfake (.inl rfl) hplace,
    ⟨fun u hu => setThread_of_ne hu _, rfl, rfl, rfl⟩, setThread_self s t _, rfl⟩
  rw [removeOut, if_pos hmem]
  exact deschedule_eq hctx (.inr ht) (.inl rfl)

/-- A context found for `t`, which is left as it was. -/
structure Grant (t c : Nat) (s s' : Scheduler) : Prop where
  inv : Inv (some c) none s'
  mask : (s.threads t).mask c = true
  self : s'.threads t = s.threads t
  gidMap : s'.gidMap = s.gidMap
  runQueue : s'.runQueue = s.runQueue
  handoffs : ∀ v, (s.threads v).handoffThread ≠ some t → (s'.threads v).handoffThread ≠ some t

theorem Inv.grant_free (h : Inv none none s) (hmask : (s.threads t).mask c = true)
    (hc : c ∈ s.freeList) : ∃ s', s.removeFree c = some s' ∧ Grant t c s s' :=
  ⟨_, if_pos hc, ⟨h.removeFree hc, hmask, rfl, rfl, rfl, fun _ => id⟩⟩

/-- A context is busy when it is not free and no thread that is out keeps it. -/
theorem Inv.busy (h : Inv none dying s) (hc : c < s.numCores) (hfree : c ∉ s.freeList)
    (hout : ∀ o ∈ s.outQueue, (s.threads o).cid ≠ c) : s.Busy c := by
  have hused : (s.contexts c).state = .USED := by
    cases hst : (s.contexts c).state with
    | USED => rfl
    | IDLE => exact (hfree ((h.contexts.free.mem c).mpr ⟨hc, hst, by simp⟩)).elim
  obtain ⟨v, hv⟩ := h.contexts.used c hc hused
  obtain ⟨-, hsched, hcid⟩ := h.contexts.cur c v hv
  refine ⟨v, hv, hsched.resolve_right fun ho => ?_⟩
  exact hout v ((h.queues.out.mem v).mpr ho) hcid

theorem schedThread_inv (h : Inv none none s) (ht : s.Parked t) (hmap : s.gidMap t = true) :
    (∃ c s', schedThread t s = some (some c, s') ∧ Grant t c s s') ∨
      (schedThread t s = some (none, s) ∧
        ∀ c < s.numCores, (s.threads t).mask c = true → s.Busy c) := by
  have hcid := (h.threads t).cid hmap
  rw [schedThread, if_neg (Nat.not_le.mpr hcid)]
  split
  · rename_i hlast
    have hfree := (h.contexts.free.mem _).mpr ⟨hcid, hlast.1, by simp⟩
    obtain ⟨s', hs', hgrant⟩ := h.grant_free hlast.2 hfree
    refine .inl ⟨_, s', ?_, hgrant⟩
    rw [hs']
    rfl
  split
  · rename_i c hfind
    obtain ⟨s', hs', hgrant⟩ := h.grant_free (List.find?_some hfind) (List.mem_of_find?_eq_some hfind)
    refine .inl ⟨c, s', ?_, hgrant⟩
    rw [hs']
    rfl
  · rename_i hnone
    rw [steal]
    split
    · rename_i hout
      refine .inr ⟨rfl, fun c hc hm => h.busy hc (fun hin => ?_) fun o ho hoc => ?_⟩
      · exact List.find?_eq_none.mp hnone c hin hm
      · refine List.find?_eq_none.mp hout o ho ?_
        rw [hoc]
        exact hm
    · rename_i o hfind
      have ho := (h.queues.out.mem o).mp (List.mem_of_find?_eq_some hfind)
      have hto : t ≠ o := by
        rintro rfl
        rcases ht with ht | ht | ht <;> rw [ho] at ht <;> cases ht
      have hplace := h.in_program (t := o) (by simp [ho]) (by simp)
      obtain ⟨s', hs', hinv, honly, hself, hrun⟩ := h.evict ho (.inl hplace)
      refine .inl ⟨_, s', ?_, ⟨hinv, ?_, honly.others t hto, honly.gidMap, hrun, fun v hv => ?_⟩⟩
      · simp only [hs', Option.map_some]
      · simpa using List.find?_some hfind
      · by_cases hvo : v = o
        · rw [hvo, hself]
          rw [hvo] at hv
          exact hv
        · rw [honly.others v hvo]
          exact hv

/-- A context goes to a thread that can be given one. -/
theorem Inv.schedule (h : Inv (some c) dying s) (ht : s.Parked t) (hmap : s.gidMap t = true)
    (hrun : t ∉ s.runQueue) (hnot : ∀ v, (s.threads v).handoffThread ≠ some t)
    (hmask : (s.threads t).mask c = true) (hdying : dying ≠ some t) (w : Nat) :
    ∃ s', s.schedule t c = some s' ∧ s'.runQueue = s.runQueue ∧ Only t s s' ∧
      s'.threads t = { s.threads t with state := .RUNNING, cid := c, place := .program } ∧
      Inv none dying (s'.setThread t { s'.threads t with futexWord := w }) := by
  have hne : (s.threads t).state ≠ .RUNNING := by
    rcases ht with ht | ht | ht <;> simp [ht]
  obtain ⟨hmark, hfake⟩ := (h.threads t).unmarked hne
  have hlt := (h.contexts.spare c rfl).1
  refine ⟨_, schedule_eq h.contexts ht, rfl, ⟨fun u hu => setThread_of_ne hu _, rfl, rfl, rfl⟩,
    setThread_self s t _, ?_⟩
  refine h.occupy (t := t) ⟨fun u hu => ?_, rfl, rfl, rfl⟩ ht hrun hnot ?_ ?_ ?_ ?_ rfl rfl rfl rfl
    rfl rfl ?_
  · exact (setThread_of_ne hu _).trans (setThread_of_ne hu _)
  all_goals
    rw [setThread_self]
    simp only [setThread_self]
  · exact hmask
  · exact h.no_handoff (h.in_program hne hdying)
  · refine ⟨fun _ => hlt, fun hm => ?_, by simp, fun hm => ?_, fun hf => ?_⟩
    · rw [hmap] at hm
      cases hm
    · exact absurd hm (by simp [hmark])
    · exact absurd hf (by simp [hfake])

theorem handOver_inv (h : Inv (some c) dying s) (ht : (s.threads t).state = .QUEUED)
    (hrun : t ∉ s.runQueue) (hnot : ∀ v, (s.threads v).handoffThread ≠ some t)
    (hmask : (s.threads t).mask c = true) (hword : (s.threads t).futexWord = 1)
    (hdying : dying ≠ some t) :
    ∃ s', handOver t c s = some s' ∧ Inv none dying s' ∧ Only t s s' ∧
      (s'.threads t).handoffThread = none ∧ s'.runQueue = s.runQueue := by
  obtain ⟨s₁, hs₁, hrunq, honly, hself, hinv⟩ :=
    h.schedule (.inr (.inr ht)) (h.inMap (by simp [ht])) hrun hnot hmask hdying 0
  refine ⟨_, ?_, hinv, ⟨fun u hu => ?_, honly.numCores, honly.curPhase, honly.gidMap⟩, ?_, hrunq⟩
  · rw [handOver, hs₁]
    exact if_pos ((congrArg ThreadInfo.futexWord hself).trans hword)
  · exact (setThread_of_ne hu _).trans (honly.others u hu)
  · rw [setThread_self, hself]
    exact h.no_handoff (h.in_program (by simp [ht]) hdying)

theorem scheduleOrWait_inv (h : Inv none none s) (ht : s.Parked t) (hmap : s.gidMap t = true)
    (hrun : t ∉ s.runQueue) (hnot : ∀ v, (s.threads v).handoffThread ≠ some t) :
    ∃ s', scheduleOrWait t s = some s' ∧ Inv none none s' := by
  have hne : (s.threads t).state ≠ .RUNNING := by
    rcases ht with ht | ht | ht <;> simp [ht]
  obtain ⟨hmark, hfake⟩ := (h.threads t).unmarked hne
  have hplace := h.in_program hne (by simp)
  have hhand := h.no_handoff hplace
  rcases schedThread_inv h ht hmap with ⟨c, s₁, hs₁, hgrant⟩ | ⟨hnone, hbusy⟩
  · have hparked : s₁.Parked t := by
      rw [Parked, hgrant.self]
      exact ht
    obtain ⟨s', hs', -, -, hself, hinv⟩ := hgrant.inv.schedule (t := t) hparked (hgrant.gidMap ▸ hmap)
      (hgrant.runQueue ▸ hrun) (fun v => hgrant.handoffs v (hnot v)) (hgrant.self ▸ hgrant.mask)
      (by simp) (s₁.threads t).futexWord
    refine ⟨s', ?_, ?_⟩
    · rw [scheduleOrWait, hs₁]
      exact hs'
    · rw [setThread_eq] at hinv
      · exact hinv
      · rw [hself]
  · have hinv : Inv none none (s.setThread t { s.threads t with state := .QUEUED, futexWord := 1 }) :=
      h.setIdle ht hrun (.inr (.inr rfl)) hplace hhand (fun _ _ => id) hnot
        ⟨(h.threads t).cid, fun hm => absurd hmap (by simp [hm]), by simp,
          fun hm => absurd hm (by simp [hmark]), fun hf => absurd hf (by simp [hfake])⟩
    have hself := setThread_self s t { s.threads t with state := .QUEUED, futexWord := 1 }
    refine ⟨_, ?_, hinv.pushRun (t := t) (by rw [hself]) hrun (fun v => ?_) (by rw [hself])
      fun c hc hm => ?_⟩
    · have hfree : ¬ s.Owned t := h.queues.not_owned hrun
        (by rcases ht with ht | ht | ht <;> simp [ht]) (by rcases ht with ht | ht | ht <;> simp [ht])
      have hpush : pushRun t (s.setThread t { s.threads t with state := .QUEUED }) =
          some { s.setThread t { s.threads t with state := .QUEUED } with
            runQueue := s.runQueue ++ [t] } := if_neg hfree
      rw [scheduleOrWait, hnone]
      change (pushRun t (s.setThread t { s.threads t with state := .QUEUED })).map
        (waitForContext t) = _
      rw [hpush, Option.map_some]
      change some { (s.setThread t _).setThread t { (s.setThread t _).threads t with futexWord := 1 }
        with runQueue := s.runQueue ++ [t] } = _
      rw [setThread_self, setThread_setThread]
      rfl
    · by_cases hvt : v = t
      · rw [hvt, hself]
        simp [hhand]
      · rw [setThread_of_ne hvt]
        exact hnot v
    · rw [hself] at hm
      refine (hbusy c hc hm).keep (t := t) ⟨fun u hu => setThread_of_ne hu _, rfl, rfl, rfl⟩
        (fun _ => rfl) (h.contexts.not_cur ?_ c)
      rintro (hr | ho)
      · exact hne hr
      · rcases ht with ht | ht | ht <;> rw [ht] at ho <;> cases ho

theorem schedContext_cases (s : Scheduler) (c : Nat) :
    (schedContext c s = some (none, s) ∧ ∀ u ∈ s.runQueue, (s.threads u).mask c ≠ true) ∨
      ∃ u ∈ s.runQueue, (s.threads u).mask c = true ∧
        schedContext c s = some (some u, { s with runQueue := s.runQueue.erase u }) := by
  rw [schedContext]
  split
  · rename_i hnone
    exact .inl ⟨rfl, fun u hu => List.find?_eq_none.mp hnone u hu⟩
  · rename_i u hfind
    have hu := List.mem_of_find?_eq_some hfind
    refine .inr ⟨u, hu, by simpa using List.find?_some hfind, ?_⟩
    rw [removeRun, if_pos hu]
    rfl

/-- A marked thread goes to sleep. -/
theorem Inv.sleep (h : Inv none dying s) (ht : (s.threads t).state = .RUNNING)
    (hmark : (s.threads t).markedForSleep = true) :
    ∃ s', (Scheduler.deschedule t (s.threads t).cid .SLEEPING
        (s.setThread t { s.threads t with markedForSleep := false })).bind (pushSleep t) = some s' ∧
      Inv (some (s.threads t).cid) dying s' ∧ Only t s s' ∧
      (s'.threads t).state = .SLEEPING ∧ s'.runQueue = s.runQueue := by
  obtain ⟨-, hplace, hfake, hword, hphase⟩ := (h.threads t).marked hmark
  have hself := setThread_self s t { s.threads t with markedForSleep := false }
  have hctx : Contexts none (s.setThread t { s.threads t with markedForSleep := false }) := by
    apply h.contexts.keep (t := t) ⟨fun u hu => setThread_of_ne hu _, rfl, rfl, rfl⟩ rfl rfl rfl <;>
      rw [hself]
    · exact Iff.rfl
    · exact fun _ => ⟨rfl, rfl⟩
  have hsched : ThreadInfo.Scheduled
      ((s.setThread t { s.threads t with markedForSleep := false }).threads t) := by
    rw [hself]
    exact .inl ht
  have hdesched := deschedule_eq hctx hsched (x := .SLEEPING) (by simp)
  rw [hself, setThread_setThread] at hdesched
  have hfree : ¬ s.Owned t :=
    h.queues.not_owned (h.queues.run_not_mem (by simp [ht])) (by simp [ht]) (by simp [ht])
  let s₁ := s.setThread t { s.threads t with state := .SLEEPING, markedForSleep := false }
  have hnew : s₁.threads t = _ := setThread_self s t _
  refine ⟨{ s₁ with
      contexts := Function.update s.contexts (s.threads t).cid ⟨.IDLE, none⟩
      scheduledThreads := s.scheduledThreads - 1
      sleepQueue := insertAt (fun u => (s₁.threads u).wakeupPhase) t s.sleepQueue },
    ?_, h.vacate (t := t) ⟨fun u hu => setThread_of_ne hu _, rfl, rfl, rfl⟩ (.inl ht) ?_ rfl rfl
    rfl rfl ?_ (fun _ _ => id) ?_ (fun d hd => ?_) ?_,
    ⟨fun u hu => setThread_of_ne hu _, rfl, rfl, rfl⟩, ?_, rfl⟩
  · rw [hdesched]
    exact if_neg hfree
  · change ¬ (s₁.threads t).Scheduled
    rw [hnew]
    rintro (hr | hr) <;> cases hr
  · refine h.queues.fallAsleep (t := t) ⟨fun u hu => setThread_of_ne hu _, rfl, rfl, rfl⟩ ht ?_
      (fun u => rfl) rfl rfl rfl
    exact congrArg ThreadInfo.state hnew
  · exact .inl ((congrArg ThreadInfo.place hnew).trans hplace)
  · exact ⟨(congrArg ThreadInfo.handoffThread hnew).symm.trans hd,
          (congrArg ThreadInfo.place hnew :)⟩
  · change ThreadOk _ _ _ (s₁.threads t)
    rw [hnew]
    refine ⟨(h.threads t).cid, fun hm => ?_, fun _ => ⟨hword, hphase⟩, by simp, fun hf => ?_⟩
    · have hst := (h.threads t).absent hm
      rw [ht] at hst
      cases hst
    · exact absurd hf (by simp [hfake])
  · exact congrArg ThreadInfo.state hnew

/-- The context goes to a waiting thread or becomes free. -/
theorem Inv.giveAway (h : Inv (some c) dying s) (hdying : ∀ u ∈ s.runQueue, dying ≠ some u) :
    ∃ s', ((schedContext c s).bind fun (inTh, s) =>
        match inTh with
        | some inTh => handOver inTh c s
        | none => s.pushFree c) = some s' ∧
      Inv none dying s' ∧ s'.gidMap = s.gidMap ∧
      ∀ u, u ∉ s.runQueue → s'.threads u = s.threads u := by
  rcases schedContext_cases s c with ⟨hs, hnone⟩ | ⟨v, hv, hmask, hs⟩
  · have hfree : c ∉ s.freeList := fun hin => ((h.contexts.free.mem c).mp hin).2.2 rfl
    refine ⟨_, ?_, h.pushFree hnone, rfl, fun _ _ => rfl⟩
    rw [hs]
    exact if_neg hfree
  · obtain ⟨s', hs', hinv, honly, -, -⟩ := handOver_inv (h.removeRun v) (h.queues.run v hv)
      (fun hin => (h.queues.run_nodup.mem_erase_iff.mp hin).1 rfl)
      (h.handoffs.not_target fun _ => hv) hmask (h.waiting v hv).1 (hdying v hv)
    refine ⟨s', ?_, hinv, honly.gidMap, fun u hu => honly.others u fun he => hu (he ▸ hv)⟩
    rw [hs]
    exact hs'

/-- The thread goes out, and keeps its context as no waiting thread can have it. -/
theorem Inv.keepContext (h : Inv none dying s) (ht : (s.threads t).state = .RUNNING)
    (hmark : (s.threads t).markedForSleep = false) (hfake : (s.threads t).fakeLeave = false)
    (hplace : (s.threads t).place = .program ∨ dying = some t)
    (hnone : ∀ u ∈ s.runQueue, (s.threads u).mask (s.threads t).cid ≠ true) :
    ∃ s', pushOut t (s.setThread t { s.threads t with state := .OUT }) = some s' ∧
      Inv none dying s' ∧ s'.gidMap = s.gidMap ∧ (s'.threads t).state = .OUT := by
  let s₁ := s.setThread t { s.threads t with state := .OUT }
  have hnew : s₁.threads t = _ := setThread_self s t _
  have hfree : ¬ s.Owned t := h.queues.not_owned (h.queues.run_not_mem (by simp [ht]))
    (by simp [ht]) (by simp [ht])
  refine ⟨{ s₁ with outQueue := s.outQueue ++ [t] }, if_neg hfree, h.goOut (t := t)
    ⟨fun u hu => setThread_of_ne hu _, rfl, rfl, rfl⟩ ht ?_ ?_ ?_ hnone (fun _ _ => id)
    ?_ (fun d hd => ?_) rfl rfl rfl rfl rfl rfl ?_, rfl, ?_⟩
  · exact congrArg ThreadInfo.state hnew
  · exact (congrArg ThreadInfo.cid hnew :)
  · exact (congrArg ThreadInfo.mask hnew :)
  · exact hplace.imp (congrArg ThreadInfo.place hnew).trans id
  · exact ⟨(congrArg ThreadInfo.handoffThread hnew).symm.trans hd,
      (congrArg ThreadInfo.place hnew :)⟩
  · change ThreadOk _ _ _ (s₁.threads t)
    rw [hnew]
    exact (h.threads t).block (by simp [ht]) hmark hfake (by simp)
  · exact congrArg ThreadInfo.state hnew

/-- The thread makes way for `u`, which waits for its context. -/
theorem Inv.replace (h : Inv none dying s) (ht : (s.threads t).state = .RUNNING)
    (hmark : (s.threads t).markedForSleep = false) (hfake : (s.threads t).fakeLeave = false)
    (hplace : (s.threads t).place = .program ∨ dying = some t) (hu : u ∈ s.runQueue)
    (hmask : (s.threads u).mask (s.threads t).cid = true) (hdying : dying ≠ some u) :
    ∃ s', (Scheduler.deschedule t (s.threads t).cid .BLOCKED
        { s with runQueue := s.runQueue.erase u }).bind (handOver u (s.threads t).cid) = some s' ∧
      Inv none dying s' ∧ s'.gidMap = s.gidMap ∧ (s'.threads t).state = .BLOCKED := by
  have hut : u ≠ t := by
    rintro rfl
    exact h.queues.run_not_mem (by simp [ht]) hu
  obtain ⟨s₁, hs₁, hinv, honly, hself, hrun⟩ :=
    (h.removeRun u).deschedule (x := .BLOCKED) ht hmark hfake (.inl rfl) hplace
  have hkeep : s₁.threads u = s.threads u := honly.others u hut
  have hgone : u ∉ s₁.runQueue := by
    rw [hrun]
    exact fun hin => (h.queues.run_nodup.mem_erase_iff.mp hin).1 rfl
  have hnone : ∀ v, (s₁.threads v).handoffThread ≠ some u := by
    intro v hv
    refine h.handoffs.not_target (fun _ => hu) v ?_
    by_cases hvt : v = t
    · rw [hvt, hself] at hv
      rw [hvt]
      exact hv
    · rw [honly.others v hvt] at hv
      exact hv
  obtain ⟨s', hs', hinv', honly', -, -⟩ :=
    handOver_inv hinv (hkeep ▸ h.queues.run u hu) hgone hnone (hkeep ▸ hmask)
      (hkeep ▸ (h.waiting u hu).1) hdying
  refine ⟨s', ?_, hinv', honly'.gidMap.trans honly.gidMap, ?_⟩
  · change Scheduler.deschedule t (s.threads t).cid .BLOCKED _ = _ at hs₁
    rw [hs₁]
    exact hs'
  · rw [honly'.others t hut.symm, hself]

/-- What `leave` does to the thread itself. -/
def LeftBy (s : Scheduler) (t : Nat) (s' : Scheduler) : Prop :=
  s'.gidMap = s.gidMap ∧ if (s.threads t).markedForSleep then (s'.threads t).state = .SLEEPING
    else (s'.threads t).state = .BLOCKED ∨ (s'.threads t).state = .OUT

theorem leave_inv (h : Inv none dying s) (ht : (s.threads t).state = .RUNNING)
    (hfake : (s.threads t).fakeLeave = false)
    (hplace : (s.threads t).place = .program ∨ dying = some t)
    (hdying : dying = none ∨ dying = some t) :
    ∃ s', leave t (s.threads t).cid s = some s' ∧ Inv none dying s' ∧ s.LeftBy t s' := by
  have hcur := (h.contexts.owner t (.inl ht)).2.1
  have hnot : t ∉ s.runQueue := h.queues.run_not_mem (by simp [ht])
  have hlive : ∀ u ∈ s.runQueue, dying ≠ some u := by
    rintro u hu rfl
    rcases hdying with hd | hd <;> cases hd
    exact hnot hu
  rw [leave, if_pos ⟨hcur, ht⟩]
  by_cases hmark : (s.threads t).markedForSleep = true
  · rw [if_pos hmark]
    obtain ⟨s₁, hs₁, hinv, honly, hst, hrun⟩ := h.sleep ht hmark
    obtain ⟨s', hs', hinv', hmap, hsame⟩ := hinv.giveAway (hrun ▸ hlive)
    refine ⟨s', ?_, hinv', hmap.trans honly.gidMap, ?_⟩
    · rw [← Option.bind_assoc, hs₁]
      exact hs'
    · rw [if_pos hmark, hsame t (hrun ▸ hnot)]
      exact hst
  · have hunmark : (s.threads t).markedForSleep = false := by simpa using hmark
    rw [if_neg hmark]
    rcases schedContext_cases s (s.threads t).cid with ⟨hs, hnone⟩ | ⟨u, hu, hmask, hs⟩
    · obtain ⟨s', hs', hinv, hmap, hst⟩ := h.keepContext ht hunmark hfake hplace hnone
      refine ⟨s', ?_, hinv, hmap, ?_⟩
      · rw [hs]
        exact hs'
      · rw [if_neg hmark]
        exact .inr hst
    · obtain ⟨s', hs', hinv, hmap, hst⟩ := h.replace ht hunmark hfake hplace hu hmask (hlive u hu)
      refine ⟨s', ?_, hinv, hmap, ?_⟩
      · rw [hs]
        exact hs'
      · rw [if_neg hmark]
        exact .inl hst

/-- The context of `t` goes to `d`, and `t` looks for another. -/
theorem handOff_inv (h : Inv none none s) (ht : (s.threads t).state = .RUNNING)
    (hd : (s.threads t).handoffThread = some d) :
    ∃ s', handOff t d s = some s' ∧ Inv none none s' := by
  have hplace := h.handoffs.from_synced t d hd
  obtain ⟨hqueued, hwaits, hword, hmask⟩ := h.handoffs.target t d hd
  have hnot : t ∉ s.runQueue := h.queues.run_not_mem (by simp [ht])
  have hdt : d ≠ t := by
    rintro rfl
    rw [ht] at hqueued
    cases hqueued
  obtain ⟨hmark, hfake⟩ := (h.threads t).in_sync (by simp [hplace])
  have hok := h.threads t
  let s₀ := s.setThread t { s.threads t with handoffThread := none, place := .program }
  have hnew : s₀.threads t = _ := setThread_self s t _
  have h₀ : Inv none none s₀ := h.setFlags rfl rfl rfl (fun _ => rfl) (fun _ => rfl)
    (.inr ⟨ht, rfl⟩) (by simp) (h.handoffs.not_target (by simp [ht]))
    ⟨hok.cid, hok.absent, hok.sleeping, fun hm => absurd hm (by simp [hmark]),
      fun hf => absurd hf (by simp [hfake])⟩
  obtain ⟨s₁, hs₁, h₁, honly₁, hself₁, hrun₁⟩ := h₀.deschedule (t := t) (x := .QUEUED)
    ((congrArg ThreadInfo.state hnew).trans ht)
    ((congrArg ThreadInfo.markedForSleep hnew).trans hmark)
    ((congrArg ThreadInfo.fakeLeave hnew).trans hfake) (.inr rfl) (.inl (congrArg _ hnew))
  have hkeep : ∀ u, u ≠ t → s₁.threads u = s.threads u :=
    fun u hu => (honly₁.others u hu).trans (setThread_of_ne hu _)
  have hcid : (s₀.threads t).cid = (s.threads t).cid := by
    rw [hnew]
  have hnone : (s₁.threads t).handoffThread = none := by
    rw [hself₁]
    exact congrArg ThreadInfo.handoffThread hnew
  rw [hcid] at hs₁ h₁
  have hfree : ∀ v, (s₁.threads v).handoffThread ≠ some d := by
    intro v hv
    by_cases hvt : v = t
    · rw [hvt, hnone] at hv
      cases hv
    · rw [hkeep v hvt] at hv
      exact hvt (h.handoffs.injective v t d hv hd)
  obtain ⟨s₂, hs₂, h₂, honly₂, hd₂, hrun₂⟩ := handOver_inv h₁ (hkeep d hdt ▸ hqueued)
    (hrun₁ ▸ hwaits) hfree (hkeep d hdt ▸ hmask ht) (hkeep d hdt ▸ hword) (by simp)
  have ht₂ : (s₂.threads t).state = .QUEUED := by
    rw [honly₂.others t hdt.symm, hself₁]
  have hfree₂ : ∀ v, (s₂.threads v).handoffThread ≠ some t := by
    intro v hv
    by_cases hvd : v = d
    · rw [hvd, hd₂] at hv
      cases hv
    rw [honly₂.others v hvd] at hv
    by_cases hvt : v = t
    · rw [hvt, hnone] at hv
      cases hv
    rw [hkeep v hvt] at hv
    exact h.handoffs.not_target (by simp [ht]) v hv
  obtain ⟨s', hs', hinv⟩ := scheduleOrWait_inv h₂ (.inr (.inr ht₂)) (h₂.inMap (by simp [ht₂]))
    (hrun₂ ▸ hrun₁ ▸ hnot) hfree₂
  refine ⟨s', ?_, hinv⟩
  rw [handOff, hs₁, Option.bind_some, hs₂]
  exact hs'

end Scheduler

end ZSim
