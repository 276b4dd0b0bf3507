import Mathlib.Algebra.Order.BigOperators.Group.Finset
import ZSim.SchedulerRuns

/-! The end of a phase: sleeping threads wake up, and at the end of a quantum the waiting
threads are promised the contexts of threads that leave the barrier. -/

namespace ZSim

namespace Scheduler

variable {s s' : Scheduler} {spare : Option Nat} {t u c k : Nat}

/-- The threads that run are on their way out of the barrier. -/
def PhaseOver (s : Scheduler) : Prop :=
  ∀ t, (s.threads t).state = .RUNNING → (s.threads t).place = .synced

theorem passBarrier_eq (s : Scheduler) (t : Nat) : ∃ place, s.passBarrier.threads t =
      { s.threads t with place } ∧ ((s.threads t).place = .inSync ∧ place = .synced ∨
        (s.threads t).place ≠ .inSync ∧ place = (s.threads t).place) := by
  by_cases hplace : (s.threads t).place = .inSync
  · exact ⟨.synced, if_pos hplace, .inl ⟨hplace, rfl⟩⟩
  · exact ⟨(s.threads t).place, if_neg hplace, .inr ⟨hplace, rfl⟩⟩

/-- Only the places change. -/
theorem passBarrier_field {α : Type} (s : Scheduler) (t : Nat) (f : ThreadInfo → α)
    (hf : ∀ th place, f { th with place } = f th) :
    f (s.passBarrier.threads t) = f (s.threads t) := by
  obtain ⟨place, heq, -⟩ := passBarrier_eq s t
  rw [heq]
  exact hf _ place

theorem passBarrier_inv (h : Inv none none s) : Inv none none s.passBarrier := by
  have hst := fun t => passBarrier_field s t ThreadInfo.state fun _ _ => rfl
  have hcid := fun t => passBarrier_field s t ThreadInfo.cid fun _ _ => rfl
  have hmask := fun t => passBarrier_field s t ThreadInfo.mask fun _ _ => rfl
  have hword := fun t => passBarrier_field s t ThreadInfo.futexWord fun _ _ => rfl
  have hhand := fun t => passBarrier_field s t ThreadInfo.handoffThread fun _ _ => rfl
  have hphase := fun t => passBarrier_field s t ThreadInfo.wakeupPhase fun _ _ => rfl
  refine ⟨?_, ?_, ?_, ?_, fun t => ?_⟩
  · exact h.contexts.congr rfl rfl rfl rfl (fun t => by
      rw [ThreadInfo.Scheduled, ThreadInfo.Scheduled, hst]) fun t _ => ⟨hcid t, hmask t⟩
  · refine ⟨h.queues.run_nodup, fun t ht => (hst t).trans (h.queues.run t ht),
      h.queues.out.congr fun t => by rw [hst], h.queues.sleep.congr fun t => by rw [hst], ?_⟩
    refine h.queues.sorted.imp fun hle => ?_
    rw [hphase, hphase]
    exact hle
  · refine h.waiting.mono rfl (fun t ht => ⟨ht, hword t, hmask t⟩) fun t ht c hc hm hne hbusy => ?_
    obtain ⟨v, hv, hrun⟩ := hbusy hne
    exact ⟨v, hv, (hst v).trans hrun⟩
  · refine ⟨fun t ht => ?_, fun t d hd => ?_, fun t d hd => ?_, fun t u d ht hu => ?_⟩
    · obtain ⟨place, heq, hplace⟩ := passBarrier_eq s t
      rw [hst]
      rw [heq] at ht
      refine h.handoffs.syncing t ?_
      rcases hplace with ⟨hin, -⟩ | ⟨-, hsame⟩
      · simp [hin]
      · exact hsame ▸ ht
    · rw [hhand] at hd
      have hsynced := h.handoffs.from_synced t d hd
      obtain ⟨place, heq, hplace⟩ := passBarrier_eq s t
      rw [heq]
      rcases hplace with ⟨-, hnew⟩ | ⟨-, hsame⟩
      · exact hnew
      · exact hsame.trans hsynced
    · rw [hhand] at hd
      rw [hst, hst, hword, hmask, hcid]
      exact h.handoffs.target t d hd
    · rw [hhand] at ht hu
      exact h.handoffs.injective t u d ht hu
  · obtain ⟨place, heq, hplace⟩ := passBarrier_eq s t
    have hok := h.threads t
    change ThreadOk s.numCores s.curPhase (s.gidMap t) (s.passBarrier.threads t)
    rw [heq]
    refine ⟨hok.cid, hok.absent, hok.sleeping, fun hm => ?_, fun hf => ?_⟩
    · obtain ⟨hrun, hprog, hrest⟩ := hok.marked hm
      refine ⟨hrun, ?_, hrest⟩
      rcases hplace with ⟨hin, -⟩ | ⟨-, hsame⟩
      · rw [hin] at hprog
        cases hprog
      · exact hsame.trans hprog
    · obtain ⟨hrun, hprog⟩ := hok.fake hf
      refine ⟨hrun, ?_⟩
      rcases hplace with ⟨hin, -⟩ | ⟨-, hsame⟩
      · rw [hin] at hprog
        cases hprog
      · exact hsame.trans hprog

theorem passBarrier_over
    (hall : ∀ t, (s.threads t).state = .RUNNING → (s.threads t).place = .inSync) :
    PhaseOver s.passBarrier := by
  intro t ht
  obtain ⟨place, heq, hplace⟩ := passBarrier_eq s t
  rw [heq] at ht ⊢
  rcases hplace with ⟨-, hnew⟩ | ⟨hnot, -⟩
  · exact hnew
  · exact (hnot (hall t ht)).elim

/-- In the new phase no thread is marked, and all deadlines that were due have been met. -/
theorem Inv.advance (h : Inv none none { s with curPhase := k }) (hcur : s.curPhase = k + 1)
    (hover : PhaseOver s)
    (hlate : ∀ t, (s.threads t).state = .SLEEPING → k + 1 < (s.threads t).wakeupPhase) :
    Inv none none s := by
  refine ⟨⟨h.contexts.used, h.contexts.cur, h.contexts.owner, h.contexts.free, h.contexts.spare,
      h.contexts.count⟩,
    ⟨h.queues.run_nodup, h.queues.run, h.queues.out, h.queues.sleep, h.queues.sorted⟩, h.waiting,
    ⟨h.handoffs.syncing, h.handoffs.from_synced, h.handoffs.target, h.handoffs.injective⟩,
    fun t => ?_⟩
  have hok := h.threads t
  refine ⟨hok.cid, hok.absent, fun hsl => ?_, fun hm => ?_, hok.fake⟩
  · rw [hcur]
    exact ⟨(hok.sleeping hsl).1, hlate t hsl⟩
  · obtain ⟨hrun, hprog, -⟩ := hok.marked hm
    have hsynced := hover t hrun
    rw [hsynced] at hprog
    cases hprog

/-- One thread that sleeps until this phase. -/
theorem wakeSleeper_inv (h : Inv none none { s with curPhase := k }) (hover : PhaseOver s)
    (ht : (s.threads t).state = .SLEEPING) :
    ∃ s', (wakeup t (s.setThread t { s.threads t with state := .BLOCKED })).bind (removeSleep t) =
        some s' ∧ Inv none none { s' with curPhase := k } ∧ PhaseOver s' ∧
      s'.sleepQueue = s.sleepQueue.erase t ∧ s'.curPhase = s.curPhase ∧
      s'.numCores = s.numCores := by
  have hok : ThreadOk s.numCores k (s.gidMap t) (s.threads t) := h.threads t
  obtain ⟨hmark, hfake⟩ := hok.unmarked (by simp [ht])
  have hplace : (s.threads t).place = .program := h.in_program (t := t) (by simp [ht]) (by simp)
  have hself := setThread_self s t { s.threads t with state := .BLOCKED, futexWord := 0 }
  refine ⟨{ s.setThread t { s.threads t with state := .BLOCKED, futexWord := 0 } with
    sleepQueue := s.sleepQueue.erase t }, ?_, ?_, fun u hu => ?_, rfl, rfl, rfl⟩
  · have hword :
        ((s.setThread t { s.threads t with state := .BLOCKED }).threads t).futexWord = 1 := by
      rw [setThread_self]
      exact (hok.sleeping ht).1
    rw [wakeup, if_pos hword, Option.bind_some, setThread_self, setThread_setThread]
    exact if_pos ((h.queues.sleep.mem t).mpr ht)
  · refine h.endSleep (t := t) ⟨fun u hu => setThread_of_ne hu _, rfl, rfl, rfl⟩ ht ?_ ?_ ?_ rfl rfl
      rfl rfl rfl rfl ?_
    · exact (congrArg ThreadInfo.state hself :)
    · exact (congrArg ThreadInfo.place hself).trans hplace
    · exact (congrArg ThreadInfo.handoffThread hself).trans (h.no_handoff hplace)
    · change ThreadOk _ _ _ ((s.setThread t _).threads t)
      rw [hself]
      exact ⟨hok.cid, fun hm => absurd (hok.absent hm) (by simp [ht]), by simp,
        fun hm => absurd hm (by simp [hmark]), fun hf => absurd hf (by simp [hfake])⟩
  · change ((s.setThread t _).threads u).state = _ at hu
    change ((s.setThread t _).threads u).place = _
    by_cases hut : u = t
    · rw [hut, hself] at hu
      cases hu
    · rw [setThread_of_ne hut] at hu ⊢
      exact hover u hu

theorem wakeSleepers_inv (ts : List Nat) (h : Inv none none { s with curPhase := k })
    (hcur : s.curPhase = k + 1) (hover : PhaseOver s) (hts : s.sleepQueue = ts) :
    ∃ s', wakeSleepers ts s = some s' ∧ Inv none none s' ∧ PhaseOver s' ∧
      s'.numCores = s.numCores := by
  induction ts generalizing s with
  | nil =>
    refine ⟨s, rfl, h.advance hcur hover fun t ht => ?_, hover, rfl⟩
    have hin : t ∈ s.sleepQueue := (h.queues.sleep.mem t).mpr ht
    rw [hts] at hin
    cases hin
  | cons t ts ih =>
    have hhead : t ∈ s.sleepQueue := hts ▸ List.mem_cons_self
    have ht : (s.threads t).state = .SLEEPING := (h.queues.sleep.mem t).mp hhead
    have hdue : k < (s.threads t).wakeupPhase := ((h.threads t).sleeping ht).2
    rw [wakeSleepers]
    by_cases hle : (s.threads t).wakeupPhase ≤ s.curPhase
    · obtain ⟨s₁, hs₁, h₁, hover₁, hrest, hcur₁, hcores₁⟩ := wakeSleeper_inv h hover ht
      rw [hts, List.erase_cons_head] at hrest
      rw [if_pos hle, if_pos (by omega), hs₁, ← hcores₁]
      exact ih h₁ (hcur₁.trans hcur) hover₁ hrest
    · refine ⟨s, if_neg hle, h.advance hcur hover fun u hu => ?_, hover, rfl⟩
      have hin : u ∈ s.sleepQueue := (h.queues.sleep.mem u).mpr hu
      have hsorted := h.queues.sorted
      change s.sleepQueue.Pairwise _ at hsorted
      rw [hts] at hin hsorted
      rcases List.mem_cons.mp hin with rfl | hin
      · omega
      · have hge := (List.pairwise_cons.mp hsorted).1 u hin
        have hge : (s.threads t).wakeupPhase ≤ (s.threads u).wakeupPhase := hge
        omega

/-- A thread on its way out of the barrier is told to hand off its context to a thread that
waits outside of `runQueue`. -/
theorem Handoffs.promise (h : Handoffs none s) (ht : (s.threads t).state = .RUNNING)
    (hplace : (s.threads t).place = .synced) (hqueued : (s.threads u).state = .QUEUED)
    (hgone : u ∉ s.runQueue) (hword : (s.threads u).futexWord = 1)
    (hmask : (s.threads u).mask (s.threads t).cid = true)
    (hnot : ∀ v, (s.threads v).handoffThread ≠ some u) :
    Handoffs none (s.setThread t { s.threads t with handoffThread := some u }) := by
  let th := { s.threads t with handoffThread := some u }
  have hself : (s.setThread t th).threads t = th := setThread_self s t th
  have hother : ∀ v, (s.threads v).state = .QUEUED → v ≠ t := by
    rintro v hv rfl
    rw [ht] at hv
    cases hv
  have hback : ∀ v d, ((s.setThread t th).threads v).handoffThread = some d →
      v = t ∧ d = u ∨ v ≠ t ∧ (s.threads v).handoffThread = some d := by
    intro v d hd
    by_cases hvt : v = t
    · rw [hvt, hself] at hd
      exact .inl ⟨hvt, (Option.some.inj hd).symm⟩
    · rw [setThread_of_ne hvt] at hd
      exact .inr ⟨hvt, hd⟩
  refine ⟨fun v hv => ?_, fun v d hd => ?_, fun v d hd => ?_, fun v w d hv hw => ?_⟩
  · by_cases hvt : v = t
    · rw [hvt]
      exact .inl ((congrArg ThreadInfo.state hself).trans ht)
    · rw [setThread_of_ne hvt] at hv ⊢
      exact h.syncing v hv
  · by_cases hvt : v = t
    · rw [hvt]
      exact (congrArg ThreadInfo.place hself).trans hplace
    · rw [setThread_of_ne hvt] at hd ⊢
      exact h.from_synced v d hd
  · rcases hback v d hd with ⟨rfl, rfl⟩ | ⟨hvt, hold⟩
    · rw [hself, setThread_of_ne (hother d hqueued)]
      exact ⟨hqueued, hgone, hword, fun _ => hmask⟩
    · have hdt := hother d (h.target v d hold).1
      rw [setThread_of_ne hvt, setThread_of_ne hdt]
      exact h.target v d hold
  · rcases hback v d hv with ⟨hvt, hd⟩ | ⟨-, hold⟩ <;>
      rcases hback w d hw with ⟨hwt, hd'⟩ | ⟨-, hold'⟩
    · rw [hvt, hwt]
    · exact (hnot w (hd ▸ hold')).elim
    · exact (hnot v (hd' ▸ hold)).elim
    · exact h.injective v w d hold hold'

/-- A waiting thread is taken out of `runQueue` and promised a context. -/
theorem Inv.promise (h : Inv none none s) (ht : (s.threads t).state = .RUNNING)
    (hplace : (s.threads t).place = .synced) (hu : u ∈ s.runQueue)
    (hmask : (s.threads u).mask (s.threads t).cid = true) :
    Inv none none { s.setThread t { s.threads t with handoffThread := some u } with
      runQueue := s.runQueue.erase u } := by
  have h' := h.removeRun u
  have hok := h.threads t
  let s₁ : Scheduler := { s with runQueue := s.runQueue.erase u }
  let th := { s.threads t with handoffThread := some u }
  have hself : (s₁.setThread t th).threads t = th := setThread_self s₁ t th
  have hs : Only t s₁ (s₁.setThread t th) := ⟨fun v hv => setThread_of_ne hv _, rfl, rfl, rfl⟩
  change Inv none none (s₁.setThread t th)
  refine ⟨?_, ?_, ?_, ?_, threads_keep h'.threads hs ?_⟩
  · apply h'.contexts.keep hs rfl rfl rfl <;> rw [hself]
    · exact Iff.rfl
    · exact fun _ => ⟨rfl, rfl⟩
  · apply h'.queues.keep hs rfl rfl rfl <;> rw [hself]
    · exact fun hin => h'.queues.run t hin
    · exact fun _ => rfl
  · refine h'.waiting.mono rfl (fun v hv => ?_) fun v hv c hc hm hne hbusy => ?_
    · have hvt : v ≠ t := by
        rintro rfl
        exact h'.queues.run_not_mem (t := v) (by change (s.threads v).state ≠ _; simp [ht]) hv
      rw [hs.others v hvt]
      exact ⟨hv, rfl, rfl⟩
    · obtain ⟨w, hw, hrun⟩ := hbusy hne
      refine ⟨w, hw, ?_⟩
      by_cases hwt : w = t
      · rw [hwt, hself]
        exact ht
      · rw [hs.others w hwt]
        exact hrun
  · exact h'.handoffs.promise ht hplace (h.queues.run u hu)
      (fun hin => (h.queues.run_nodup.mem_erase_iff.mp hin).1 rfl) (h.waiting u hu).1 hmask
      (h.handoffs.not_target fun _ => hu)
  · rw [hself]
    exact ⟨hok.cid, hok.absent, hok.sleeping, hok.marked, hok.fake⟩

theorem tickFrom_inv (ts : List Nat) {avail : List Nat} (h : Inv none none s)
    (hover : PhaseOver s) (hnodup : ts.Nodup) (hts : ∀ u ∈ ts, u ∈ s.runQueue)
    (hlt : ∀ c ∈ avail, c < s.numCores) :
    ∃ s', tickFrom ts avail s = some s' ∧ Inv none none s' := by
  induction ts generalizing s avail with
  | nil => exact ⟨s, rfl, h⟩
  | cons u ts ih =>
    obtain ⟨hu, hnodup⟩ := List.nodup_cons.mp hnodup
    have huq := hts u List.mem_cons_self
    rw [tickFrom]
    split
    · exact ⟨s, rfl, h⟩
    split
    · exact ih h hover hnodup (fun v hv => hts v (List.mem_cons_of_mem _ hv)) hlt
    rename_i c hfind
    have hc := List.mem_of_find?_eq_some hfind
    have hmask : (s.threads u).mask c = true := List.find?_some hfind
    -- the context is busy, as the thread waits for it
    obtain ⟨t, hcur, hrun⟩ := (h.waiting u huq).2 c (hlt c hc) hmask (by simp)
    have hcid := (h.contexts.cur c t hcur).2.2
    have h₁ := h.promise hrun (hover t hrun) huq (hcid ▸ hmask)
    let th := { s.threads t with handoffThread := some u }
    have hin : u ∈ (s.setThread t th).runQueue := huq
    rw [hcur]
    change ∃ s', (removeRun u (s.setThread t th)).bind _ = _ ∧ _
    rw [removeRun, if_pos hin, Option.bind_some]
    refine ih h₁ (fun v hv => ?_) hnodup (fun v hv => ?_)
      fun d hd => hlt d (List.mem_of_mem_erase hd)
    · change ((s.setThread t th).threads v).place = _
      change ((s.setThread t th).threads v).state = _ at hv
      by_cases hvt : v = t
      · rw [hvt, setThread_self]
        exact hover t hrun
      · rw [setThread_of_ne hvt] at hv ⊢
        exact hover v hv
    · refine (List.mem_erase_of_ne fun he : v = u => hu (he ▸ hv)).mpr ?_
      exact hts v (List.mem_cons_of_mem _ hv)

theorem Contexts.printState (h : Contexts none s) : s.printState = some () := by
  refine if_pos fun c hc => ?_
  cases hst : (s.contexts c).state with
  | IDLE => exact .inl rfl
  | USED =>
    obtain ⟨t, ht⟩ := h.used c (List.mem_range.mp hc) hst
    exact .inr ⟨t, ht, (h.cur c t ht).2.1⟩

/-- `avail` is the shuffle of all contexts. -/
theorem schedTick_inv {avail : List Nat} (h : Inv none none s) (hover : PhaseOver s)
    (havail : avail.Perm (List.range s.numCores)) :
    ∃ s', schedTick avail s = some s' ∧ Inv none none s' := by
  obtain ⟨s', hs', hinv⟩ := tickFrom_inv s.runQueue h hover h.queues.run_nodup (fun _ => id)
    fun c hc => List.mem_range.mp (havail.mem_iff.mp hc)
  refine ⟨s', ?_, hinv⟩
  rw [schedTick, hs', Option.bind_some, hinv.contexts.printState]
  rfl

theorem Contexts.scheduled_le (h : Contexts spare s) : s.scheduledThreads ≤ s.numCores := by
  rw [h.count]
  calc ∑ c ∈ Finset.range s.numCores, (s.contexts c).load
      ≤ ∑ _c ∈ Finset.range s.numCores, 1 := Finset.sum_le_sum fun c _ => by
        rw [ContextInfo.load]
        split <;> omega
    _ = s.numCores := by simp

theorem callback_inv {avail : List Nat} (h : Inv none none s)
    (hall : ∀ t, (s.threads t).state = .RUNNING → (s.threads t).place = .inSync)
    (havail : avail.Perm (List.range s.numCores)) :
    ∃ s', callback avail s = some s' ∧ Inv none none s' := by
  let s₀ : Scheduler := { s.passBarrier with curPhase := s.curPhase + 1 }
  obtain ⟨s₁, hs₁, h₁, hover, hcores⟩ := wakeSleepers_inv (s := s₀) (k := s.curPhase) s.sleepQueue
    (passBarrier_inv h) rfl (passBarrier_over hall) rfl
  rw [callback, if_pos h.contexts.scheduled_le]
  change ∃ s', (wakeSleepers s.sleepQueue s₀).bind _ = _ ∧ _
  rw [hs₁, Option.bind_some]
  split
  · exact schedTick_inv h₁ hover (hcores ▸ havail)
  · exact ⟨s₁, rfl, h₁⟩

end Scheduler

end ZSim
