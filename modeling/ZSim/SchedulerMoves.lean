import ZSim.SchedulerInvariant

/-! What the steps of the scheduler's operations do to its invariant: a thread loses or takes
a context, enters or leaves a queue, or changes its flags. -/

namespace ZSim

namespace Scheduler

variable {s s' : Scheduler} {spare dying dying' : Option Nat} {t u c : Nat} {th : ThreadInfo}

theorem Inv.in_program (h : Inv spare dying s) (ht : (s.threads t).state ≠ .RUNNING)
    (hdying : dying ≠ some t) : (s.threads t).place = .program := by
  by_contra hplace
  exact (h.handoffs.syncing t hplace).elim ht hdying

theorem Inv.no_handoff (h : Inv spare dying s) (ht : (s.threads t).place = .program) :
    (s.threads t).handoffThread = none := by
  cases hd : (s.threads t).handoffThread with
  | none => rfl
  | some d =>
    have hsynced := h.handoffs.from_synced t d hd
    rw [ht] at hsynced
    cases hsynced

theorem Inv.inMap (h : Inv spare dying s) (ht : (s.threads t).state ≠ .STARTED) :
    s.gidMap t = true := by
  cases hmap : s.gidMap t with
  | true => rfl
  | false => exact (ht ((h.threads t).absent hmap)).elim

/-- The thread keeps its state, its context and its mask. -/
theorem Inv.setFlags (h : Inv spare dying s) (hst : th.state = (s.threads t).state)
    (hcid : th.cid = (s.threads t).cid) (hmask : th.mask = (s.threads t).mask)
    (hword : t ∈ s.runQueue → th.futexWord = (s.threads t).futexWord)
    (hphase : th.state = .SLEEPING → th.wakeupPhase = (s.threads t).wakeupPhase)
    (hplace : th.place = (s.threads t).place ∨ th.state = .RUNNING ∧ th.handoffThread = none)
    (hhand : ∀ d, th.handoffThread = some d → (s.threads t).handoffThread = some d)
    (hnot : ∀ v, (s.threads v).handoffThread ≠ some t)
    (hok : ThreadOk s.numCores s.curPhase (s.gidMap t) th) :
    Inv spare dying (s.setThread t th) := by
  have hself := setThread_self s t th
  have hs : Only t s (s.setThread t th) := ⟨fun u hu => setThread_of_ne hu th, rfl, rfl, rfl⟩
  have hsched : th.Scheduled ↔ (s.threads t).Scheduled := by
    rw [ThreadInfo.Scheduled, ThreadInfo.Scheduled, hst]
  constructor
  · apply h.contexts.keep hs rfl rfl rfl <;> rw [hself]
    · exact hsched
    · exact fun _ => ⟨hcid, hmask⟩
  · apply h.queues.keep hs rfl rfl rfl <;> rw [hself]
    · exact fun hin => hst.trans (h.queues.run t hin)
    · rw [hst]
    · rw [hst]
    · exact fun hsl => hphase (hst.trans hsl)
  · refine h.waiting.mono rfl (fun u hu => ?_) fun u hu c hc hm hne hbusy => ?_
    · by_cases hut : u = t
      · rw [hut] at hu ⊢
        rw [hself]
        exact ⟨hu, hword hu, hmask⟩
      · rw [hs.others u hut]
        exact ⟨hu, rfl, rfl⟩
    · obtain ⟨v, hv, hrun⟩ := hbusy hne
      refine ⟨v, hv, ?_⟩
      by_cases hvt : v = t
      · rw [hvt] at hrun ⊢
        rw [hself, hst]
        exact hrun
      · rw [hs.others v hvt]
        exact hrun
  · refine h.handoffs.keep hs (fun _ _ => id) ?_ (fun d hd => ?_) hnot fun _ _ => id
    · rw [hself]
      rcases hplace with hplace | ⟨hrun, -⟩
      · rw [hplace, hst]
        exact h.handoffs.syncing t
      · exact fun _ => .inl hrun
    · rw [hself] at hd ⊢
      have hold := hhand d hd
      rcases hplace with hplace | ⟨-, hnone⟩
      · rw [hst, hcid]
        exact ⟨hold, hplace, fun hrun => ⟨hrun, rfl⟩⟩
      · rw [hnone] at hd
        cases hd
  · apply threads_keep h.threads hs
    rw [hself]
    exact hok

/-- The thread is in no queue and has no context, before and after. -/
theorem Inv.setIdle (h : Inv spare dying s)
    (ht : (s.threads t).state = .STARTED ∨ (s.threads t).state = .BLOCKED ∨
      (s.threads t).state = .QUEUED)
    (hrun : t ∉ s.runQueue) (hst : th.state = .STARTED ∨ th.state = .BLOCKED ∨ th.state = .QUEUED)
    (hplace : th.place = .program) (hhand : th.handoffThread = none)
    (hdying : ∀ u, u ≠ t → dying = some u → dying' = some u)
    (hnot : ∀ v, (s.threads v).handoffThread ≠ some t)
    (hok : ThreadOk s.numCores s.curPhase (s.gidMap t) th) :
    Inv spare dying' (s.setThread t th) := by
  have hself := setThread_self s t th
  have hs : Only t s (s.setThread t th) := ⟨fun u hu => setThread_of_ne hu th, rfl, rfl, rfl⟩
  have hold : ¬ (s.threads t).Scheduled := by
    rintro (hr | ho) <;> simp_all
  have hnew : ¬ th.Scheduled := by
    rintro (hr | ho) <;> simp_all
  constructor
  · apply h.contexts.keep hs rfl rfl rfl <;> rw [hself]
    · exact iff_of_false hnew hold
    · exact fun hsched => (hold hsched).elim
  · apply h.queues.keep hs rfl rfl rfl <;> rw [hself]
    · exact fun hin => (hrun hin).elim
    · exact iff_of_false (fun ho => hnew (.inr ho)) fun ho => hold (.inr ho)
    · rcases ht with ht | ht | ht <;> rcases hst with hst | hst | hst <;> simp [ht, hst]
    · intro hsl
      rcases ht with ht | ht | ht <;> rw [ht] at hsl <;> cases hsl
  · refine h.waiting.mono rfl (fun u hu => ?_) fun u hu c hc hm hne hbusy => ?_
    · have hut : u ≠ t := by
        rintro rfl
        exact hrun hu
      rw [hs.others u hut]
      exact ⟨hu, rfl, rfl⟩
    · exact (hbusy hne).keep hs (fun _ => rfl) (h.contexts.not_cur hold c)
  · refine h.handoffs.keep hs hdying (fun hne => ?_) (fun d hd => ?_) hnot fun _ _ => id
    · rw [hself] at hne
      exact (hne hplace).elim
    · rw [hself, hhand] at hd
      cases hd
  · apply threads_keep h.threads hs
    rw [hself]
    exact hok

/-- The thread loses its context; `hq` is what becomes of the queues. -/
theorem Inv.vacate (h : Inv none dying s) (hs : Only t s s') (ht : (s.threads t).Scheduled)
    (hnew : ¬ (s'.threads t).Scheduled)
    (hctx : s'.contexts = Function.update s.contexts (s.threads t).cid ⟨.IDLE, none⟩)
    (hfree : s'.freeList = s.freeList) (hcount : s'.scheduledThreads = s.scheduledThreads - 1)
    (hrun : s'.runQueue = s.runQueue) (hq : Queues s')
    (hdying : ∀ u, u ≠ t → dying = some u → dying' = some u)
    (hplace : (s'.threads t).place = .program ∨ dying' = some t)
    (hhand : ∀ d, (s'.threads t).handoffThread = some d → (s.threads t).handoffThread = some d ∧
      (s'.threads t).place = (s.threads t).place)
    (hok : ThreadOk s.numCores s.curPhase (s.gidMap t) (s'.threads t)) :
    Inv (some (s.threads t).cid) dying' s' := by
  have hqueued : (s.threads t).state ≠ .QUEUED := by
    rcases ht with ht | ht <;> simp [ht]
  have hnot := h.queues.run_not_mem hqueued
  refine ⟨h.contexts.vacate hs ht hnew hctx hfree hcount, hq, ?_, ?_, threads_keep h.threads hs hok⟩
  · refine h.waiting.mono hs.numCores (fun u hu => ?_) fun u hu c hc hm hne hbusy => ?_
    · rw [hrun] at hu
      have hut : u ≠ t := by
        rintro rfl
        exact hnot hu
      rw [hs.others u hut]
      exact ⟨hu, rfl, rfl⟩
    · have hct : c ≠ (s.threads t).cid := by
        rintro rfl
        exact hne rfl
      refine (hbusy (by simp)).keep hs (fun _ => ?_) fun hcur => ?_
      · rw [hctx, Function.update_of_ne hct]
      · exact hct (h.contexts.cur c t hcur).2.2.symm
  · refine h.handoffs.keep hs hdying (fun hne => .inr (hplace.resolve_left hne)) (fun d hd => ?_)
      (h.handoffs.not_target fun hst => (hqueued hst).elim) fun d _ hd => ?_
    · obtain ⟨h₁, h₂⟩ := hhand d hd
      exact ⟨h₁, h₂, fun hst => (hnew (.inl hst)).elim⟩
    · rw [hrun] at hd
      exact hd

/-- The thread takes the spare context. -/
theorem Inv.occupy (h : Inv (some c) dying s) (hs : Only t s s')
    (ht : (s.threads t).state = .STARTED ∨ (s.threads t).state = .BLOCKED ∨
      (s.threads t).state = .QUEUED)
    (hrun : t ∉ s.runQueue) (hnot : ∀ v, (s.threads v).handoffThread ≠ some t)
    (hnew : (s'.threads t).state = .RUNNING) (hcid : (s'.threads t).cid = c)
    (hmask : (s'.threads t).mask c = true) (hhand : (s'.threads t).handoffThread = none)
    (hctx : s'.contexts = Function.update s.contexts c ⟨.USED, some t⟩)
    (hfree : s'.freeList = s.freeList) (hcount : s'.scheduledThreads = s.scheduledThreads + 1)
    (hrunq : s'.runQueue = s.runQueue) (houtq : s'.outQueue = s.outQueue)
    (hsleepq : s'.sleepQueue = s.sleepQueue)
    (hok : ThreadOk s.numCores s.curPhase (s.gidMap t) (s'.threads t)) : Inv none dying s' := by
  have hold : ¬ (s.threads t).Scheduled := by
    rintro (hr | ho) <;> simp_all
  refine ⟨h.contexts.occupy hs hold (.inl hnew) hcid hmask hctx hfree hcount, ?_, ?_, ?_,
    threads_keep h.threads hs hok⟩
  · apply h.queues.keep hs hrunq houtq hsleepq
    · exact fun hin => (hrun hin).elim
    · rw [hnew]
      exact iff_of_false (by simp) fun ho => hold (.inr ho)
    · rcases ht with ht | ht | ht <;> simp [ht, hnew]
    · intro hsl
      rcases ht with ht | ht | ht <;> rw [ht] at hsl <;> cases hsl
  · refine h.waiting.mono hs.numCores (fun u hu => ?_) fun u hu d hd hm hne hbusy => ?_
    · rw [hrunq] at hu
      have hut : u ≠ t := by
        rintro rfl
        exact hrun hu
      rw [hs.others u hut]
      exact ⟨hu, rfl, rfl⟩
    · by_cases hdc : d = c
      · refine ⟨t, ?_, hnew⟩
        rw [hctx, hdc, Function.update_self]
      · refine (hbusy fun he => hdc (Option.some.inj he).symm).keep hs (fun _ => ?_)
          (h.contexts.not_cur hold d)
        rw [hctx, Function.update_of_ne hdc]
  · refine h.handoffs.keep hs (fun _ _ => id) (fun _ => .inl hnew) (fun d hd => ?_) hnot
      fun d _ hd => ?_
    · rw [hhand] at hd
      cases hd
    · rw [hrunq] at hd
      exact hd

theorem Inv.pushFree (h : Inv (some c) dying s)
    (hmask : ∀ u ∈ s.runQueue, (s.threads u).mask c ≠ true) :
    Inv none dying { s with freeList := s.freeList ++ [c] } := by
  obtain ⟨hlt, hidle⟩ := h.contexts.spare c rfl
  refine ⟨⟨h.contexts.used, h.contexts.cur, h.contexts.owner, ?_, by simp, h.contexts.count⟩,
    ⟨h.queues.run_nodup, h.queues.run, h.queues.out, h.queues.sleep, h.queues.sorted⟩, ?_,
    ⟨h.handoffs.syncing, h.handoffs.from_synced, h.handoffs.target, h.handoffs.injective⟩,
    h.threads⟩
  · refine h.contexts.free.push (fun hc => hc.2.2 rfl) fun d => ?_
    by_cases hdc : d = c
    · simp [hdc, hlt, hidle]
    · simp [hdc, Ne.symm hdc]
  · intro u hu
    refine ⟨(h.waiting u hu).1, fun d hd hm _ => (h.waiting u hu).2 d hd hm ?_⟩
    rintro he
    cases he
    exact hmask u hu hm

theorem Inv.removeFree (h : Inv none dying s) (hc : c ∈ s.freeList) :
    Inv (some c) dying { s with freeList := s.freeList.erase c } := by
  obtain ⟨hlt, hidle, -⟩ := (h.contexts.free.mem c).mp hc
  refine ⟨⟨h.contexts.used, h.contexts.cur, h.contexts.owner, ?_, ?_, h.contexts.count⟩,
    ⟨h.queues.run_nodup, h.queues.run, h.queues.out, h.queues.sleep, h.queues.sorted⟩, ?_,
    ⟨h.handoffs.syncing, h.handoffs.from_synced, h.handoffs.target, h.handoffs.injective⟩,
    h.threads⟩
  · refine h.contexts.free.erase fun d => ?_
    by_cases hdc : d = c
    · simp [hdc]
    · simp [hdc, Ne.symm hdc]
  · intro d hd
    cases hd
    exact ⟨hlt, hidle⟩
  · exact fun u hu => ⟨(h.waiting u hu).1, fun d hd hm _ => (h.waiting u hu).2 d hd hm (by simp)⟩

theorem Inv.removeRun (h : Inv spare dying s) (t : Nat) :
    Inv spare dying { s with runQueue := s.runQueue.erase t } := by
  refine ⟨⟨h.contexts.used, h.contexts.cur, h.contexts.owner, h.contexts.free, h.contexts.spare,
      h.contexts.count⟩,
    ⟨h.queues.run_nodup.erase t, fun u hu => h.queues.run u (List.mem_of_mem_erase hu),
      h.queues.out, h.queues.sleep, h.queues.sorted⟩,
    fun u hu => h.waiting u (List.mem_of_mem_erase hu), ?_, h.threads⟩
  refine ⟨h.handoffs.syncing, h.handoffs.from_synced, fun v d hd => ?_, h.handoffs.injective⟩
  obtain ⟨h₁, h₂, h₃, h₄⟩ := h.handoffs.target v d hd
  exact ⟨h₁, fun hin => h₂ (List.mem_of_mem_erase hin), h₃, h₄⟩

/-- A thread that waits for no context joins `runQueue`. -/
theorem Inv.pushRun (h : Inv none dying s) (ht : (s.threads t).state = .QUEUED)
    (hrun : t ∉ s.runQueue) (hnot : ∀ v, (s.threads v).handoffThread ≠ some t)
    (hword : (s.threads t).futexWord = 1)
    (hbusy : ∀ c < s.numCores, (s.threads t).mask c = true → s.Busy c) :
    Inv none dying { s with runQueue := s.runQueue ++ [t] } := by
  refine ⟨⟨h.contexts.used, h.contexts.cur, h.contexts.owner, h.contexts.free, h.contexts.spare,
      h.contexts.count⟩,
    ⟨?_, fun u hu => ?_, h.queues.out, h.queues.sleep, h.queues.sorted⟩, fun u hu => ?_, ?_,
    h.threads⟩
  · exact List.nodup_append'.mpr ⟨h.queues.run_nodup, List.nodup_singleton t, by simpa using hrun⟩
  · rcases List.mem_append.mp hu with hu | hu
    · exact h.queues.run u hu
    · rw [List.mem_singleton.mp hu]
      exact ht
  · rcases List.mem_append.mp hu with hu | hu
    · exact h.waiting u hu
    · rw [List.mem_singleton.mp hu]
      exact ⟨hword, fun c hc hm _ => hbusy c hc hm⟩
  · refine ⟨h.handoffs.syncing, h.handoffs.from_synced, fun v d hd => ?_, h.handoffs.injective⟩
    obtain ⟨h₁, h₂, h₃, h₄⟩ := h.handoffs.target v d hd
    refine ⟨h₁, fun hin => ?_, h₃, h₄⟩
    rcases List.mem_append.mp hin with hin | hin
    · exact h₂ hin
    · rw [List.mem_singleton.mp hin] at hd
      exact hnot v hd

/-- A thread with a context becomes one without, and leaves `outQueue` if it was in it. -/
theorem Queues.block (h : Queues s) (hs : Only t s s') (ht : (s.threads t).Scheduled)
    (hnew : (s'.threads t).state = .BLOCKED ∨ (s'.threads t).state = .QUEUED)
    (hrun : s'.runQueue = s.runQueue) (hout : s'.outQueue = s.outQueue.erase t)
    (hsleep : s'.sleepQueue = s.sleepQueue) : Queues s' := by
  have hqueued : t ∉ s.runQueue := h.run_not_mem (by rcases ht with ht | ht <;> simp [ht])
  have hawake : t ∉ s.sleepQueue := h.sleep_not_mem (by rcases ht with ht | ht <;> simp [ht])
  have hother : ∀ u, u ≠ t ∨ u ∈ s.runQueue ∨ u ∈ s.sleepQueue → s'.threads u = s.threads u := by
    rintro u (hu | hu | hu)
    · exact hs.others u hu
    · exact hs.others u fun he => hqueued (he ▸ hu)
    · exact hs.others u fun he => hawake (he ▸ hu)
  refine ⟨hrun ▸ h.run_nodup, fun u hu => ?_, ?_, ?_, ?_⟩
  · rw [hrun] at hu
    rw [hother u (.inr (.inl hu))]
    exact h.run u hu
  · rw [hout]
    refine h.out.erase fun u => ?_
    by_cases hut : u = t
    · rw [hut]
      rcases hnew with hnew | hnew <;> simp [hnew]
    · simp [hut, hs.others u hut]
  · rw [hsleep]
    refine h.sleep.congr fun u => ?_
    by_cases hut : u = t
    · rw [hut]
      rcases ht with ht | ht <;> rcases hnew with hnew | hnew <;> simp [ht, hnew]
    · rw [hs.others u hut]
  · rw [hsleep]
    refine h.sorted.imp_of_mem fun ha hb hle => ?_
    rw [hother _ (.inr (.inr ha)), hother _ (.inr (.inr hb))]
    exact hle

theorem insertAt_perm (w : Nat → Nat) (t : Nat) (ts : List Nat) :
    (insertAt w t ts).Perm (t :: ts) := by
  induction ts with
  | nil => exact .refl _
  | cons u us ih =>
    rw [insertAt]
    split
    · exact (ih.cons u).trans (.swap t u us)
    · exact .refl _

theorem insertAt_sorted {w : Nat → Nat} {ts : List Nat} (t : Nat)
    (h : ts.Pairwise fun u v => w u ≤ w v) : (insertAt w t ts).Pairwise fun u v => w u ≤ w v := by
  induction ts with
  | nil => exact List.pairwise_singleton _ t
  | cons u us ih =>
    obtain ⟨hu, hus⟩ := List.pairwise_cons.mp h
    rw [insertAt]
    split
    · rename_i hle
      refine List.pairwise_cons.mpr ⟨fun v hv => ?_, ih hus⟩
      rcases List.mem_cons.mp ((insertAt_perm w t us).mem_iff.mp hv) with rfl | hv
      · exact hle
      · exact hu v hv
    · rename_i hgt
      refine List.pairwise_cons.mpr ⟨fun v hv => ?_, h⟩
      rcases List.mem_cons.mp hv with rfl | hv
      · omega
      · exact le_trans (by omega) (hu v hv)

/-- A running thread goes to sleep; `w` are the deadlines. -/
theorem Queues.fallAsleep (h : Queues s) (hs : Only t s s') (ht : (s.threads t).state = .RUNNING)
    (hnew : (s'.threads t).state = .SLEEPING) {w : Nat → Nat}
    (hw : ∀ u, (s'.threads u).wakeupPhase = w u)
    (hrun : s'.runQueue = s.runQueue) (hout : s'.outQueue = s.outQueue)
    (hsleep : s'.sleepQueue = insertAt w t s.sleepQueue) : Queues s' := by
  have hqueued : t ∉ s.runQueue := h.run_not_mem (by simp [ht])
  have hawake : t ∉ s.sleepQueue := h.sleep_not_mem (by simp [ht])
  have hperm := insertAt_perm w t s.sleepQueue
  refine ⟨hrun ▸ h.run_nodup, fun u hu => ?_, ?_, ⟨?_, fun u => ?_⟩, ?_⟩
  · rw [hrun] at hu
    rw [hs.others u fun he => hqueued (he ▸ hu)]
    exact h.run u hu
  · rw [hout]
    refine h.out.congr fun u => ?_
    by_cases hut : u = t
    · simp [hut, ht, hnew]
    · rw [hs.others u hut]
  · rw [hsleep]
    exact hperm.nodup_iff.mpr (List.nodup_cons.mpr ⟨hawake, h.sleep.nodup⟩)
  · rw [hsleep, hperm.mem_iff, List.mem_cons, h.sleep.mem]
    by_cases hut : u = t
    · simp [hut, hnew]
    · simp [hut, hs.others u hut]
  · rw [hsleep]
    have hold : s.sleepQueue.Pairwise fun u v => w u ≤ w v := by
      refine h.sorted.imp_of_mem fun ha hb hle => ?_
      rw [← hw, ← hw, hs.others _ fun he => hawake (he ▸ ha),
        hs.others _ fun he => hawake (he ▸ hb)]
      exact hle
    refine (insertAt_sorted t hold).imp fun hle => ?_
    rw [hw, hw]
    exact hle

/-- A running thread leaves and keeps a context that no waiting thread can have. -/
theorem Inv.goOut (h : Inv none dying s) (hs : Only t s s') (ht : (s.threads t).state = .RUNNING)
    (hnew : (s'.threads t).state = .OUT) (hcid : (s'.threads t).cid = (s.threads t).cid)
    (hmask : (s'.threads t).mask = (s.threads t).mask)
    (hnone : ∀ u ∈ s.runQueue, (s.threads u).mask (s.threads t).cid ≠ true)
    (hdying : ∀ u, u ≠ t → dying = some u → dying' = some u)
    (hplace : (s'.threads t).place = .program ∨ dying' = some t)
    (hhand : ∀ d, (s'.threads t).handoffThread = some d → (s.threads t).handoffThread = some d ∧
      (s'.threads t).place = (s.threads t).place)
    (hctx : s'.contexts = s.contexts) (hfree : s'.freeList = s.freeList)
    (hcount : s'.scheduledThreads = s.scheduledThreads) (hrun : s'.runQueue = s.runQueue)
    (hout : s'.outQueue = s.outQueue ++ [t]) (hsleep : s'.sleepQueue = s.sleepQueue)
    (hok : ThreadOk s.numCores s.curPhase (s.gidMap t) (s'.threads t)) : Inv none dying' s' := by
  have hnot : t ∉ s.runQueue := h.queues.run_not_mem (by simp [ht])
  have hne : ∀ {u}, u ∈ s.runQueue → u ≠ t := fun hu he => hnot (he ▸ hu)
  have hawake : ∀ {u}, u ∈ s.sleepQueue → u ≠ t :=
    fun hu he => h.queues.sleep_not_mem (by simp [ht]) (he ▸ hu)
  refine ⟨?_, ⟨hrun ▸ h.queues.run_nodup, fun u hu => ?_, ?_, ?_, ?_⟩, ?_, ?_,
    threads_keep h.threads hs hok⟩
  · exact h.contexts.keep hs hctx hfree hcount (iff_of_true (.inr hnew) (.inl ht))
      fun _ => ⟨hcid, hmask⟩
  · rw [hrun] at hu
    rw [hs.others u (hne hu)]
    exact h.queues.run u hu
  · rw [hout]
    refine h.queues.out.push (by simp [ht]) fun u => ?_
    by_cases hut : u = t
    · simp [hut, hnew]
    · simp [hut, hs.others u hut]
  · rw [hsleep]
    refine h.queues.sleep.congr fun u => ?_
    by_cases hut : u = t
    · simp [hut, ht, hnew]
    · rw [hs.others u hut]
  · rw [hsleep]
    refine h.queues.sorted.imp_of_mem fun ha hb hle => ?_
    rw [hs.others _ (hawake ha), hs.others _ (hawake hb)]
    exact hle
  · refine h.waiting.mono hs.numCores (fun u hu => ?_) fun u hu c hc hm _ hbusy => ?_
    · rw [hrun] at hu
      rw [hs.others u (hne hu)]
      exact ⟨hu, rfl, rfl⟩
    · rw [hrun] at hu
      have hct : c ≠ (s.threads t).cid := by
        rintro rfl
        exact hnone u hu hm
      refine (hbusy (by simp)).keep hs (fun _ => by rw [hctx]) fun hcur => ?_
      exact hct (h.contexts.cur c t hcur).2.2.symm
  · refine h.handoffs.keep hs hdying (fun hne => .inr (hplace.resolve_left hne)) (fun d hd => ?_)
      (h.handoffs.not_target (by simp [ht])) fun d _ hd => ?_
    · obtain ⟨h₁, h₂⟩ := hhand d hd
      exact ⟨h₁, h₂, by simp [hnew]⟩
    · rw [hrun] at hd
      exact hd

/-- A thread that is out comes back to its context. -/
theorem Inv.comeBack (h : Inv none dying s) (hs : Only t s s') (ht : (s.threads t).state = .OUT)
    (hnew : (s'.threads t).state = .RUNNING) (hcid : (s'.threads t).cid = (s.threads t).cid)
    (hmask : (s'.threads t).mask = (s.threads t).mask)
    (hhand : (s'.threads t).handoffThread = none)
    (hctx : s'.contexts = s.contexts) (hfree : s'.freeList = s.freeList)
    (hcount : s'.scheduledThreads = s.scheduledThreads) (hrun : s'.runQueue = s.runQueue)
    (hout : s'.outQueue = s.outQueue.erase t) (hsleep : s'.sleepQueue = s.sleepQueue)
    (hok : ThreadOk s.numCores s.curPhase (s.gidMap t) (s'.threads t)) : Inv none dying s' := by
  have hnot : t ∉ s.runQueue := h.queues.run_not_mem (by simp [ht])
  have hne : ∀ {u}, u ∈ s.runQueue → u ≠ t := fun hu he => hnot (he ▸ hu)
  have hawake : ∀ {u}, u ∈ s.sleepQueue → u ≠ t :=
    fun hu he => h.queues.sleep_not_mem (by simp [ht]) (he ▸ hu)
  refine ⟨?_, ⟨hrun ▸ h.queues.run_nodup, fun u hu => ?_, ?_, ?_, ?_⟩, ?_, ?_,
    threads_keep h.threads hs hok⟩
  · exact h.contexts.keep hs hctx hfree hcount (iff_of_true (.inl hnew) (.inr ht))
      fun _ => ⟨hcid, hmask⟩
  · rw [hrun] at hu
    rw [hs.others u (hne hu)]
    exact h.queues.run u hu
  · rw [hout]
    refine h.queues.out.erase fun u => ?_
    by_cases hut : u = t
    · simp [hut, hnew]
    · simp [hut, hs.others u hut]
  · rw [hsleep]
    refine h.queues.sleep.congr fun u => ?_
    by_cases hut : u = t
    · simp [hut, ht, hnew]
    · rw [hs.others u hut]
  · rw [hsleep]
    refine h.queues.sorted.imp_of_mem fun ha hb hle => ?_
    rw [hs.others _ (hawake ha), hs.others _ (hawake hb)]
    exact hle
  · refine h.waiting.mono hs.numCores (fun u hu => ?_) fun u hu c hc hm _ hbusy => ?_
    · rw [hrun] at hu
      rw [hs.others u (hne hu)]
      exact ⟨hu, rfl, rfl⟩
    · refine (hbusy (by simp)).keep hs (fun _ => by rw [hctx]) fun hcur => ?_
      obtain ⟨v, hv, hvrun⟩ := hbusy (by simp)
      rw [hcur] at hv
      cases hv
      rw [ht] at hvrun
      cases hvrun
  · refine h.handoffs.keep hs (fun _ _ => id) (fun _ => .inl hnew) (fun d hd => ?_)
      (h.handoffs.not_target (by simp [ht])) fun d _ hd => ?_
    · rw [hhand] at hd
      cases hd
    · rw [hrun] at hd
      exact hd

/-- A sleeping thread wakes up. -/
theorem Inv.endSleep (h : Inv spare dying s) (hs : Only t s s')
    (ht : (s.threads t).state = .SLEEPING) (hnew : (s'.threads t).state = .BLOCKED)
    (hplace : (s'.threads t).place = .program) (hhand : (s'.threads t).handoffThread = none)
    (hctx : s'.contexts = s.contexts) (hfree : s'.freeList = s.freeList)
    (hcount : s'.scheduledThreads = s.scheduledThreads) (hrun : s'.runQueue = s.runQueue)
    (hout : s'.outQueue = s.outQueue) (hsleep : s'.sleepQueue = s.sleepQueue.erase t)
    (hok : ThreadOk s.numCores s.curPhase (s.gidMap t) (s'.threads t)) : Inv spare dying s' := by
  have hnot : t ∉ s.runQueue := h.queues.run_not_mem (by simp [ht])
  have hne : ∀ {u}, u ∈ s.runQueue → u ≠ t := fun hu he => hnot (he ▸ hu)
  have hold : ¬ (s.threads t).Scheduled := by
    rintro (hr | ho) <;> simp_all
  have hsched : ¬ (s'.threads t).Scheduled := by
    rintro (hr | ho) <;> simp_all
  have hmem : ∀ {u}, u ∈ s.sleepQueue.erase t → u ≠ t := by
    rintro u hu rfl
    exact (h.queues.sleep.nodup.mem_erase_iff.mp hu).1 rfl
  refine ⟨?_, ⟨hrun ▸ h.queues.run_nodup, fun u hu => ?_, ?_, ?_, ?_⟩, ?_, ?_,
    threads_keep h.threads hs hok⟩
  · exact h.contexts.keep hs hctx hfree hcount (iff_of_false hsched hold) fun h => (hold h).elim
  · rw [hrun] at hu
    rw [hs.others u (hne hu)]
    exact h.queues.run u hu
  · rw [hout]
    refine h.queues.out.congr fun u => ?_
    by_cases hut : u = t
    · simp [hut, ht, hnew]
    · rw [hs.others u hut]
  · rw [hsleep]
    refine h.queues.sleep.erase fun u => ?_
    by_cases hut : u = t
    · simp [hut, hnew]
    · simp [hut, hs.others u hut]
  · rw [hsleep]
    refine (h.queues.sorted.sublist List.erase_sublist).imp_of_mem fun ha hb hle => ?_
    rw [hs.others _ (hmem ha), hs.others _ (hmem hb)]
    exact hle
  · refine h.waiting.mono hs.numCores (fun u hu => ?_) fun u hu c hc hm hne hbusy => ?_
    · rw [hrun] at hu
      rw [hs.others u (hne hu)]
      exact ⟨hu, rfl, rfl⟩
    · exact (hbusy hne).keep hs (fun _ => by rw [hctx]) (h.contexts.not_cur hold c)
  · refine h.handoffs.keep hs (fun _ _ => id) (fun hne => (hne hplace).elim) (fun d hd => ?_)
      (h.handoffs.not_target (by simp [ht])) fun d _ hd => ?_
    · rw [hhand] at hd
      cases hd
    · rw [hrun] at hd
      exact hd

end Scheduler

end ZSim
