import ZSim.SchedulerPhase

/-! The scheduler over whole runs: threads come and go in any order, and phases end whenever
all running threads have synced. -/

namespace ZSim

namespace Scheduler

variable {s s' : Scheduler} {t : Nat}

inductive Op
  | start (tid : Nat) (mask : Nat → Bool)
  | join (tid : Nat)
  | leave (tid cid : Nat)
  | syscallLeave (tid cid : Nat) (blacklisted : Bool)
  | breakFakeLeave (tid : Nat)
  | syncStart (tid cid : Nat)
  | syncEnd (tid : Nat)
  | finish (tid : Nat)
  | markForSleep (tid wakeupPhase : Nat)
  | notifySleepEnd (tid : Nat)
  | callback (avail : List Nat)

def step (s : Scheduler) : Op → Option Scheduler
  | .start tid mask => s.start tid mask
  | .join tid => s.join tid
  | .leave tid cid => s.leave tid cid
  | .syscallLeave tid cid blacklisted => s.syscallLeave tid cid blacklisted
  | .breakFakeLeave tid => s.breakFakeLeave tid
  | .syncStart tid cid => s.syncStart tid cid
  | .syncEnd tid => s.syncEnd tid
  | .finish tid => s.finish tid
  | .markForSleep tid wakeupPhase => s.markForSleep tid wakeupPhase
  | .notifySleepEnd tid => s.notifySleepEnd tid
  | .callback avail => s.callback avail

/-- What the callers see to: a thread joins when it has left and leaves or syncs when it has
joined, it sleeps into a later phase and leaves once it is marked, and the barrier ends a
phase when all running threads have synced. -/
def Allowed (s : Scheduler) : Op → Prop
  | .start tid mask => s.gidMap tid = false ∧ (List.range s.numCores).any mask = true
  | .join tid => s.gidMap tid = true ∧ ((s.threads tid).fakeLeave = true ∨ s.Away tid)
  | .leave tid cid => s.InProgram tid cid
  | .syscallLeave tid cid _ => s.InProgram tid cid
  | .breakFakeLeave tid => (s.threads tid).fakeLeave = true
  | .syncStart tid cid => s.InProgram tid cid ∧ (s.threads tid).markedForSleep = false
  | .syncEnd tid => (s.threads tid).place = .synced
  | .finish tid => s.gidMap tid = true
  | .markForSleep tid wakeupPhase => s.gidMap tid = true ∧
      (s.threads tid).markedForSleep = false ∧ s.curPhase < wakeupPhase
  | .notifySleepEnd tid => s.gidMap tid = true ∧
      ((s.threads tid).state = .BLOCKED ∨ (s.threads tid).state = .SLEEPING)
  | .callback avail => (∀ t, (s.threads t).state = .RUNNING → (s.threads t).place = .inSync) ∧
      avail.Perm (List.range s.numCores)

/-- A thread is marked for sleep while it runs, and finishes when it is awake, not marked and
not promised a context. -/
def Orderly (s : Scheduler) : Op → Prop
  | .finish tid => s.Finishable tid
  | .markForSleep tid _ => ∃ cid, s.InProgram tid cid
  | _ => True

theorem Inv.step (h : Inv none none s) {op : Op} (ha : Allowed s op) (ho : Orderly s op) :
    ∃ s', s.step op = some s' ∧ Inv none none s' := by
  cases op with
  | start tid mask => exact start_inv h ha.1 ha.2
  | join tid => exact join_inv h ha.1 ha.2
  | leave tid cid => exact leave_in_program h ha
  | syscallLeave tid cid blacklisted => exact syscallLeave_inv h ha blacklisted
  | breakFakeLeave tid =>
    obtain ⟨s', hs', hinv, -⟩ := breakFakeLeave_inv h ha
    exact ⟨s', hs', hinv⟩
  | syncStart tid cid => exact syncStart_inv h ha.1 ha.2
  | syncEnd tid => exact syncEnd_inv h ha
  | finish tid => exact finish_inv h ha ho
  | markForSleep tid wakeupPhase =>
    obtain ⟨cid, hprog⟩ := ho
    exact markForSleep_inv h ha.1 hprog ha.2.1 ha.2.2
  | notifySleepEnd tid => exact notifySleepEnd_inv h ha.1 ha.2
  | callback avail => exact callback_inv h ha.1 ha.2

/-- The schedulers reached by runs whose operations all meet `ok`. -/
inductive Reachable (ok : Scheduler → Op → Prop) (numCores schedQuantum : Nat) : Scheduler → Prop
  | init : Reachable ok numCores schedQuantum (init numCores schedQuantum)
  | step {s s' : Scheduler} (h : Reachable ok numCores schedQuantum s) (op : Op)
      (ha : Allowed s op) (hok : ok s op) (hstep : s.step op = some s') :
      Reachable ok numCores schedQuantum s'

theorem init_inv (numCores schedQuantum : Nat) : Inv none none (init numCores schedQuantum) := by
  refine ⟨?_, ?_, ?_, ?_, fun t => .init _ fun hm => by cases hm⟩
  · constructor
    · intro c _ hc
      cases hc
    · intro c t hc
      cases hc
    · rintro t (ht | ht) <;> cases ht
    · refine ⟨List.nodup_range, fun c => ?_⟩
      simp [Scheduler.init]
    · intro c hc
      cases hc
    · simp [Scheduler.init, ContextInfo.load]
  · constructor <;> simp [Scheduler.init]
    · exact ⟨List.nodup_nil, fun t => by simp [ThreadInfo.init]⟩
    · exact ⟨List.nodup_nil, fun t => by simp [ThreadInfo.init]⟩
  · intro t ht
    cases ht
  · constructor <;> simp [Scheduler.init, ThreadInfo.init]

theorem Reachable.inv {numCores schedQuantum : Nat}
    (h : Reachable Orderly numCores schedQuantum s) : Inv none none s := by
  induction h with
  | init => exact init_inv _ _
  | step _ _ ha hok hstep ih =>
    obtain ⟨s₁, hs₁, h₁⟩ := ih.step ha hok
    rw [hstep] at hs₁
    cases hs₁
    exact h₁

/-- The contexts, the threads and the queues fit together. -/
structure Coherent (s : Scheduler) : Prop where
  used : ∀ c < s.numCores, (s.contexts c).state = .USED ↔
    ∃! t, (s.threads t).Scheduled ∧ (s.threads t).cid = c
  curThread : ∀ t, (s.threads t).Scheduled → (s.threads t).cid < s.numCores ∧
    (s.contexts (s.threads t).cid).curThread = some t
  idle : ∀ c < s.numCores, (s.contexts c).state = .IDLE ↔ c ∈ s.freeList
  runQueue : ∀ t ∈ s.runQueue, (s.threads t).state = .QUEUED
  outQueue : ∀ t, t ∈ s.outQueue ↔ (s.threads t).state = .OUT
  sleepQueue : ∀ t, t ∈ s.sleepQueue ↔ (s.threads t).state = .SLEEPING
  nodup : s.freeList.Nodup ∧ s.runQueue.Nodup ∧ s.outQueue.Nodup ∧ s.sleepQueue.Nodup
  sorted : s.sleepQueue.Pairwise fun t u => (s.threads t).wakeupPhase ≤ (s.threads u).wakeupPhase
  scheduledThreads : s.scheduledThreads =
    ((Finset.range s.numCores).filter fun c => (s.contexts c).state = .USED).card
  mask : ∀ t, (s.threads t).Scheduled → (s.threads t).mask (s.threads t).cid = true
  waiting : ∀ t ∈ s.runQueue, ∀ c < s.numCores, (s.threads t).mask c = true →
    (s.contexts c).state ≠ .IDLE ∧ ∀ o, (s.threads o).state = .OUT → (s.threads o).cid ≠ c

theorem Inv.coherent (h : Inv none none s) : s.Coherent where
  used c hc := by
    constructor
    · intro hused
      obtain ⟨t, ht⟩ := h.contexts.used c hc hused
      obtain ⟨-, hsched, hcid⟩ := h.contexts.cur c t ht
      refine ⟨t, ⟨hsched, hcid⟩, ?_⟩
      rintro u ⟨hu, rfl⟩
      have hcur := (h.contexts.owner u hu).2.1
      exact Option.some.inj (hcur.symm.trans ht)
    · rintro ⟨t, ⟨ht, rfl⟩, -⟩
      exact (h.contexts.cur _ t (h.contexts.owner t ht).2.1).1
  curThread t ht := ⟨(h.contexts.owner t ht).1, (h.contexts.owner t ht).2.1⟩
  idle c hc := by
    rw [h.contexts.free.mem]
    simp [hc]
  runQueue := h.queues.run
  outQueue := h.queues.out.mem
  sleepQueue := h.queues.sleep.mem
  nodup := ⟨h.contexts.free.nodup, h.queues.run_nodup, h.queues.out.nodup, h.queues.sleep.nodup⟩
  sorted := h.queues.sorted
  scheduledThreads := h.contexts.count.trans (Finset.card_filter _ _).symm
  mask t ht := (h.contexts.owner t ht).2.2
  waiting t ht c hc hm := by
    obtain ⟨v, hv, hrun⟩ := (h.waiting t ht).2 c hc hm (by simp)
    constructor
    · rw [(h.contexts.cur c v hv).1]
      simp
    · rintro o ho rfl
      have hcur := (h.contexts.owner o (.inr ho)).2.1
      rw [hv] at hcur
      cases hcur
      rw [ho] at hrun
      cases hrun

/-- The asserts of `finish` fail on all other threads. -/
theorem finish_fails (h : Inv none none s) (hmap : s.gidMap t = true) (ht : ¬ s.Finishable t) :
    s.finish t = none := by
  have hok := h.threads t
  rw [finish, if_neg (by simp [hmap])]
  by_cases hmark : (s.threads t).markedForSleep = true
  · obtain ⟨hrun, hplace, hfake, -⟩ := hok.marked hmark
    obtain ⟨s₁, hs₁, -, -, hst⟩ := leave_inv h hrun hfake (.inl hplace) (.inl rfl)
    rw [if_pos hmark] at hst
    rw [if_neg (by simp [hfake]), Option.bind_some, if_pos hrun, hs₁, Option.bind_some,
      finishThread, if_neg (by simp [hst]), if_neg (by simp [hst])]
  · have hasleep : (s.threads t).state = .SLEEPING ∨
        (s.threads t).state = .QUEUED ∧ t ∉ s.runQueue := by
      by_contra hcon
      refine ht ⟨fun hsl => hcon (.inl hsl), by simpa using hmark, fun hq => ?_⟩
      by_contra hin
      exact hcon (.inr ⟨hq, hin⟩)
    have hne : (s.threads t).state ≠ .RUNNING := by
      rcases hasleep with hst | ⟨hst, -⟩ <;> simp [hst]
    rw [if_neg (by simp [(hok.unmarked hne).2]), Option.bind_some, if_neg hne, Option.bind_some,
      finishThread]
    rcases hasleep with hst | ⟨hst, hnot⟩
    · rw [if_neg (by simp [hst]), if_neg (by simp [hst])]
    · rw [if_pos hst, removeRun, if_neg hnot]
      rfl

/-- The phase of a single context ends when its thread has synced. -/
theorem Inv.single_synced (h : Inv none none s) (hone : s.numCores = 1)
    (hcur : (s.contexts 0).curThread = some t) (hplace : (s.threads t).place = .inSync) :
    Allowed s (.callback [0]) := by
  refine ⟨fun u hu => ?_, by rw [hone]; exact List.Perm.refl _⟩
  obtain ⟨hlt, hown, -⟩ := h.contexts.owner u (.inl hu)
  have hzero : (s.threads u).cid = 0 := by omega
  rw [hzero, hcur] at hown
  cases hown
  exact hplace

/-- Thread 1 runs on the only context and thread 2 waits for it. A phase ends, and thread 1
is told to hand off its context. -/
theorem promised_run : ∃ s, Reachable Orderly 1 1 s ∧ s.gidMap 2 = true ∧
    s.step (.finish 2) = none ∧ (s.threads 1).place = .synced ∧
    ∃ s', s.step (.syncEnd 1) = some s' ∧ (s'.threads 1).state = .QUEUED ∧
      (s'.threads 2).state = .RUNNING := by
  have h₀ : Reachable Orderly 1 1 (init 1 1) := .init
  have h₁ := h₀.step (.start 1 fun _ => true) ⟨rfl, rfl⟩ trivial rfl
  have h₂ := h₁.step (.start 2 fun _ => true) ⟨rfl, rfl⟩ trivial rfl
  have h₃ := h₂.step (.join 1) ⟨rfl, .inr (.inl rfl)⟩ trivial rfl
  have h₄ := h₃.step (.join 2) ⟨rfl, .inr (.inl rfl)⟩ trivial rfl
  have h₅ := h₄.step (.syncStart 1 0) ⟨⟨rfl, rfl, rfl, rfl⟩, rfl⟩ trivial rfl
  have h₆ := h₅.step (.callback [0]) (h₅.inv.single_synced rfl (t := 1) rfl rfl) trivial rfl
  exact ⟨_, h₆, rfl, rfl, rfl, _, rfl, rfl, rfl⟩

/-- In every run whose operations are orderly the scheduler is coherent and no assert or
panic fires. A `finish` that is not orderly fails. -/
theorem schedule_coherent {numCores schedQuantum : Nat}
    (h : Reachable Orderly numCores schedQuantum s) :
    s.Coherent ∧ (∀ op, Allowed s op → Orderly s op → ∃ s', s.step op = some s') ∧
      ∀ t, s.gidMap t = true → (s.step (.finish t) = none ↔ ¬ s.Finishable t) := by
  refine ⟨h.inv.coherent, fun op ha ho => ?_, fun t hmap => ⟨fun hfail ht => ?_, ?_⟩⟩
  · obtain ⟨s', hs', -⟩ := h.inv.step ha ho
    exact ⟨s', hs'⟩
  · obtain ⟨s', hs', -⟩ := finish_inv h.inv hmap ht
    change s.finish t = none at hfail
    rw [hs'] at hfail
    cases hfail
  · exact finish_fails h.inv hmap

/-- The handoff takes place. -/
theorem schedule_coherent_handoff :
    ∃ s, Reachable Orderly 1 1 s ∧ (s.threads 2).state = .RUNNING ∧ s.Coherent := by
  obtain ⟨s, h, -, -, hplace, s', hs', -, hrun⟩ := promised_run
  have h' := h.step (.syncEnd 1) hplace trivial hs'
  exact ⟨s', h', hrun, (schedule_coherent h').1⟩

theorem Reachable.mono {ok ok' : Scheduler → Op → Prop} {numCores schedQuantum : Nat}
    (h : Reachable ok numCores schedQuantum s) (hok : ∀ s op, ok s op → ok' s op) :
    Reachable ok' numCores schedQuantum s := by
  induction h with
  | init => exact .init
  | step _ op ha hop hstep ih => exact ih.step op ha (hok _ op hop) hstep

/-- Thread 2 finishes before it gets the context that it was promised. -/
theorem promised_finish_fails :
    ∃ s, Reachable (fun _ _ => True) 1 1 s ∧ Allowed s (.finish 2) ∧ s.step (.finish 2) = none := by
  obtain ⟨s, h, hmap, hfail, -⟩ := promised_run
  exact ⟨s, h.mono fun _ _ _ => trivial, hmap, hfail⟩

end Scheduler

end ZSim
