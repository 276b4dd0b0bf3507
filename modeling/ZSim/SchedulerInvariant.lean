import Mathlib.Data.List.Nodup
import ZSim.Scheduler
import ZSim.SumUpdate

/-! The invariant of the scheduler: who has a context, who is in which queue, whom a waiting
thread waits for, and who is about to hand off its context. -/

namespace ZSim

/-- The queue has exactly the members that `p` names, each once. -/
structure Members (queue : List Nat) (p : Nat → Prop) : Prop where
  nodup : queue.Nodup
  mem : ∀ t, t ∈ queue ↔ p t

theorem Members.congr {queue : List Nat} {p p' : Nat → Prop} (h : Members queue p)
    (hp : ∀ u, p' u ↔ p u) : Members queue p' :=
  ⟨h.nodup, fun u => (h.mem u).trans (hp u).symm⟩

theorem Members.push {queue : List Nat} {p p' : Nat → Prop} {t : Nat} (h : Members queue p)
    (ht : ¬ p t) (hp : ∀ u, p' u ↔ p u ∨ u = t) : Members (queue ++ [t]) p' := by
  have hnot : t ∉ queue := fun hin => ht ((h.mem t).mp hin)
  constructor
  · exact List.nodup_append'.mpr ⟨h.nodup, List.nodup_singleton t, by simpa using hnot⟩
  · intro u
    rw [List.mem_append, List.mem_singleton, h.mem, hp]

theorem Members.erase {queue : List Nat} {p p' : Nat → Prop} {t : Nat} (h : Members queue p)
    (hp : ∀ u, p' u ↔ u ≠ t ∧ p u) : Members (queue.erase t) p' := by
  refine ⟨h.nodup.erase t, fun u => ?_⟩
  rw [h.nodup.mem_erase_iff, h.mem, hp]

/-- The thread has a context. -/
def ThreadInfo.Scheduled (th : ThreadInfo) : Prop := th.state = .RUNNING ∨ th.state = .OUT

def ContextInfo.load (ctx : ContextInfo) : Nat := if ctx.state = .USED then 1 else 0

namespace Scheduler

/-- `spare` is an idle context that is not in `freeList`, in the middle of an operation. -/
structure Contexts (spare : Option Nat) (s : Scheduler) : Prop where
  used : ∀ c < s.numCores, (s.contexts c).state = .USED → ∃ t, (s.contexts c).curThread = some t
  cur : ∀ c t, (s.contexts c).curThread = some t →
    (s.contexts c).state = .USED ∧ (s.threads t).Scheduled ∧ (s.threads t).cid = c
  owner : ∀ t, (s.threads t).Scheduled → (s.threads t).cid < s.numCores ∧
    (s.contexts (s.threads t).cid).curThread = some t ∧ (s.threads t).mask (s.threads t).cid = true
  free : Members s.freeList fun c => c < s.numCores ∧ (s.contexts c).state = .IDLE ∧ spare ≠ some c
  spare : ∀ c, spare = some c → c < s.numCores ∧ (s.contexts c).state = .IDLE
  count : s.scheduledThreads = ∑ c ∈ Finset.range s.numCores, (s.contexts c).load

structure Queues (s : Scheduler) : Prop where
  run_nodup : s.runQueue.Nodup
  run : ∀ t ∈ s.runQueue, (s.threads t).state = .QUEUED
  out : Members s.outQueue fun t => (s.threads t).state = .OUT
  sleep : Members s.sleepQueue fun t => (s.threads t).state = .SLEEPING
  sorted : s.sleepQueue.Pairwise fun t u => (s.threads t).wakeupPhase ≤ (s.threads u).wakeupPhase

/-- The context is neither idle nor kept by a thread that is out. -/
def Busy (s : Scheduler) (c : Nat) : Prop :=
  ∃ v, (s.contexts c).curThread = some v ∧ (s.threads v).state = .RUNNING

/-- Waiting threads can be woken, and no context they could have is to be had. -/
def Waits (spare : Option Nat) (s : Scheduler) : Prop :=
  ∀ t ∈ s.runQueue, (s.threads t).futexWord = 1 ∧
    ∀ c < s.numCores, (s.threads t).mask c = true → spare ≠ some c → s.Busy c

/-- `dying` is a thread on its way through `finish`. -/
structure Handoffs (dying : Option Nat) (s : Scheduler) : Prop where
  syncing : ∀ t, (s.threads t).place ≠ .program →
    (s.threads t).state = .RUNNING ∨ dying = some t
  from_synced : ∀ t d, (s.threads t).handoffThread = some d → (s.threads t).place = .synced
  target : ∀ t d, (s.threads t).handoffThread = some d → (s.threads d).state = .QUEUED ∧
    d ∉ s.runQueue ∧ (s.threads d).futexWord = 1 ∧
      ((s.threads t).state = .RUNNING → (s.threads d).mask (s.threads t).cid = true)
  injective : ∀ t u d, (s.threads t).handoffThread = some d →
    (s.threads u).handoffThread = some d → t = u

/-- What holds of each thread by itself. -/
structure ThreadOk (numCores curPhase : Nat) (inMap : Bool) (th : ThreadInfo) : Prop where
  cid : inMap = true → th.cid < numCores
  absent : inMap = false → th.state = .STARTED
  sleeping : th.state = .SLEEPING → th.futexWord = 1 ∧ curPhase < th.wakeupPhase
  marked : th.markedForSleep = true → th.state = .RUNNING ∧ th.place = .program ∧
    th.fakeLeave = false ∧ th.futexWord = 1 ∧ curPhase < th.wakeupPhase
  fake : th.fakeLeave = true → th.state = .RUNNING ∧ th.place = .program

structure Inv (spare dying : Option Nat) (s : Scheduler) : Prop where
  contexts : Contexts spare s
  queues : Queues s
  waiting : Waits spare s
  handoffs : Handoffs dying s
  threads : ∀ t, ThreadOk s.numCores s.curPhase (s.gidMap t) (s.threads t)

variable {s s' : Scheduler} {spare dying : Option Nat} {t u c : Nat} {th : ThreadInfo}

/-- Everything but the thread `t`, the contexts and the queues is as it was. -/
structure Only (t : Nat) (s s' : Scheduler) : Prop where
  others : ∀ u, u ≠ t → s'.threads u = s.threads u
  numCores : s'.numCores = s.numCores
  curPhase : s'.curPhase = s.curPhase
  gidMap : s'.gidMap = s.gidMap

theorem setThread_self (s : Scheduler) (t : Nat) (th : ThreadInfo) :
    (s.setThread t th).threads t = th := Function.update_self _ _ _

theorem setThread_of_ne (hu : u ≠ t) (th : ThreadInfo) :
    (s.setThread t th).threads u = s.threads u := Function.update_of_ne hu _ _

/-- The threads with a context keep what the contexts depend on. -/
theorem Contexts.congr (h : Contexts spare s) (hcores : s'.numCores = s.numCores)
    (hctx : s'.contexts = s.contexts) (hfree : s'.freeList = s.freeList)
    (hcount : s'.scheduledThreads = s.scheduledThreads)
    (hst : ∀ t, (s'.threads t).Scheduled ↔ (s.threads t).Scheduled)
    (hcid : ∀ t, (s.threads t).Scheduled →
      (s'.threads t).cid = (s.threads t).cid ∧ (s'.threads t).mask = (s.threads t).mask) :
    Contexts spare s' := by
  constructor
  · rw [hcores, hctx]
    exact h.used
  · intro c t hcur
    rw [hctx] at hcur ⊢
    obtain ⟨h₁, h₂, h₃⟩ := h.cur c t hcur
    exact ⟨h₁, (hst t).mpr h₂, (hcid t h₂).1.trans h₃⟩
  · intro t hnew
    have hold := (hst t).mp hnew
    rw [hcores, hctx, (hcid t hold).1, (hcid t hold).2]
    exact h.owner t hold
  · rw [hfree, hcores, hctx]
    exact h.free
  · rw [hcores, hctx]
    exact h.spare
  · rw [hcores, hctx, hcount]
    exact h.count

theorem Contexts.keep (h : Contexts spare s) (hs : Only t s s') (hctx : s'.contexts = s.contexts)
    (hfree : s'.freeList = s.freeList) (hcount : s'.scheduledThreads = s.scheduledThreads)
    (hst : (s'.threads t).Scheduled ↔ (s.threads t).Scheduled)
    (hcid : (s.threads t).Scheduled →
      (s'.threads t).cid = (s.threads t).cid ∧ (s'.threads t).mask = (s.threads t).mask) :
    Contexts spare s' := by
  refine h.congr hs.numCores hctx hfree hcount (fun u => ?_) fun u hu => ?_
  · by_cases hut : u = t
    · rw [hut]
      exact hst
    · rw [hs.others u hut]
  · by_cases hut : u = t
    · rw [hut] at hu ⊢
      exact hcid hu
    · rw [hs.others u hut]
      exact ⟨rfl, rfl⟩

theorem Contexts.idle (h : Contexts spare s) (hidle : (s.contexts c).state = .IDLE) :
    (s.contexts c).curThread = none := by
  cases hcur : (s.contexts c).curThread with
  | none => rfl
  | some t =>
    have hused := (h.cur c t hcur).1
    rw [hidle] at hused
    cases hused

/-- A thread that is not scheduled has no context. -/
theorem Contexts.not_cur (h : Contexts spare s) (ht : ¬ (s.threads t).Scheduled) (c : Nat) :
    (s.contexts c).curThread ≠ some t :=
  fun hcur => ht (h.cur c t hcur).2.1

/-- The thread `t` loses its context. -/
theorem Contexts.vacate (h : Contexts none s) (hs : Only t s s') (ht : (s.threads t).Scheduled)
    (hnew : ¬ (s'.threads t).Scheduled)
    (hctx : s'.contexts = Function.update s.contexts (s.threads t).cid ⟨.IDLE, none⟩)
    (hfree : s'.freeList = s.freeList) (hcount : s'.scheduledThreads = s.scheduledThreads - 1) :
    Contexts (some (s.threads t).cid) s' := by
  obtain ⟨hlt, hcur, -⟩ := h.owner t ht
  have hused := (h.cur _ t hcur).1
  have hsum := sum_update hlt ContextInfo.load s.contexts ⟨.IDLE, none⟩
  constructor
  · intro c hc
    rw [hs.numCores] at hc
    rw [hctx]
    by_cases hct : c = (s.threads t).cid
    · rw [hct, Function.update_self]
      intro hused
      cases hused
    · rw [Function.update_of_ne hct]
      exact h.used c hc
  · intro c u
    rw [hctx]
    by_cases hct : c = (s.threads t).cid
    · rw [hct, Function.update_self]
      intro hu
      cases hu
    · rw [Function.update_of_ne hct]
      intro hu
      have hold := h.cur c u hu
      have hut : u ≠ t := by
        rintro rfl
        exact hct hold.2.2.symm
      rw [hs.others u hut]
      exact hold
  · intro u hu
    have hut : u ≠ t := by
      rintro rfl
      exact hnew hu
    rw [hs.others u hut] at hu ⊢
    obtain ⟨h₁, h₂, h₃⟩ := h.owner u hu
    have hne : (s.threads u).cid ≠ (s.threads t).cid := by
      intro he
      rw [he, hcur] at h₂
      exact hut (Option.some.inj h₂).symm
    rw [hs.numCores, hctx, Function.update_of_ne hne]
    exact ⟨h₁, h₂, h₃⟩
  · rw [hfree]
    refine h.free.congr fun c => ?_
    rw [hs.numCores, hctx]
    by_cases hct : c = (s.threads t).cid
    · simp [hct, hused]
    · simp [Function.update_of_ne hct, Ne.symm hct]
  · intro c hc
    cases hc
    rw [hs.numCores, hctx, Function.update_self]
    exact ⟨hlt, rfl⟩
  · have hload : (s.contexts (s.threads t).cid).load = 1 := if_pos hused
    have hnone : ContextInfo.load ⟨.IDLE, none⟩ = 0 := rfl
    rw [hload, hnone] at hsum
    rw [hcount, hs.numCores, hctx, h.count]
    omega

/-- The thread `t` takes the spare context. -/
theorem Contexts.occupy (h : Contexts (some c) s) (hs : Only t s s')
    (ht : ¬ (s.threads t).Scheduled) (hnew : (s'.threads t).Scheduled)
    (hcid : (s'.threads t).cid = c) (hmask : (s'.threads t).mask c = true)
    (hctx : s'.contexts = Function.update s.contexts c ⟨.USED, some t⟩)
    (hfree : s'.freeList = s.freeList) (hcount : s'.scheduledThreads = s.scheduledThreads + 1) :
    Contexts none s' := by
  obtain ⟨hlt, hidle⟩ := h.spare c rfl
  have hsum := sum_update hlt ContextInfo.load s.contexts ⟨.USED, some t⟩
  constructor
  · intro d hd
    rw [hs.numCores] at hd
    rw [hctx]
    by_cases hdc : d = c
    · rw [hdc, Function.update_self]
      exact fun _ => ⟨t, rfl⟩
    · rw [Function.update_of_ne hdc]
      exact h.used d hd
  · intro d u
    rw [hctx]
    by_cases hdc : d = c
    · rw [hdc, Function.update_self]
      intro hu
      cases hu
      exact ⟨rfl, hnew, hcid⟩
    · rw [Function.update_of_ne hdc]
      intro hu
      have hut : u ≠ t := by
        rintro rfl
        exact h.not_cur ht d hu
      rw [hs.others u hut]
      exact h.cur d u hu
  · intro u hu
    by_cases hut : u = t
    · rw [hut, hcid, hs.numCores, hctx, Function.update_self]
      exact ⟨hlt, rfl, hmask⟩
    · rw [hs.others u hut] at hu ⊢
      obtain ⟨h₁, h₂, h₃⟩ := h.owner u hu
      have hne : (s.threads u).cid ≠ c := by
        intro he
        rw [he, h.idle hidle] at h₂
        cases h₂
      rw [hs.numCores, hctx, Function.update_of_ne hne]
      exact ⟨h₁, h₂, h₃⟩
  · rw [hfree]
    refine h.free.congr fun d => ?_
    rw [hs.numCores, hctx]
    by_cases hdc : d = c
    · simp [hdc]
    · simp [Function.update_of_ne hdc, Ne.symm hdc]
  · intro d hd
    cases hd
  · have hload : (s.contexts c).load = 0 := if_neg (by simp [hidle])
    have hone : ContextInfo.load ⟨.USED, some t⟩ = 1 := rfl
    rw [hload, hone] at hsum
    rw [hcount, hs.numCores, hctx, h.count]
    omega

theorem Queues.run_not_mem (h : Queues s) (ht : (s.threads t).state ≠ .QUEUED) : t ∉ s.runQueue :=
  fun hin => ht (h.run t hin)

theorem Queues.sleep_not_mem (h : Queues s) (ht : (s.threads t).state ≠ .SLEEPING) :
    t ∉ s.sleepQueue := fun hin => ht ((h.sleep.mem t).mp hin)

theorem Queues.not_owned (h : Queues s) (hrun : t ∉ s.runQueue)
    (hout : (s.threads t).state ≠ .OUT) (hsleep : (s.threads t).state ≠ .SLEEPING) :
    ¬ s.Owned t := by
  rintro (hin | hin | hin)
  · exact hrun hin
  · exact hout ((h.out.mem t).mp hin)
  · exact hsleep ((h.sleep.mem t).mp hin)

/-- A thread changes and the queues do not. -/
theorem Queues.keep (h : Queues s) (hs : Only t s s') (hrun : s'.runQueue = s.runQueue)
    (hout : s'.outQueue = s.outQueue) (hsleep : s'.sleepQueue = s.sleepQueue)
    (hqueued : t ∈ s.runQueue → (s'.threads t).state = .QUEUED)
    (hst : (s'.threads t).state = .OUT ↔ (s.threads t).state = .OUT)
    (hasleep : (s'.threads t).state = .SLEEPING ↔ (s.threads t).state = .SLEEPING)
    (hphase : (s.threads t).state = .SLEEPING →
      (s'.threads t).wakeupPhase = (s.threads t).wakeupPhase) : Queues s' := by
  constructor
  · rw [hrun]
    exact h.run_nodup
  · intro u hu
    rw [hrun] at hu
    by_cases hut : u = t
    · rw [hut] at hu ⊢
      exact hqueued hu
    · rw [hs.others u hut]
      exact h.run u hu
  · rw [hout]
    refine h.out.congr fun u => ?_
    by_cases hut : u = t
    · rw [hut]
      exact hst
    · rw [hs.others u hut]
  · rw [hsleep]
    refine h.sleep.congr fun u => ?_
    by_cases hut : u = t
    · rw [hut]
      exact hasleep
    · rw [hs.others u hut]
  · rw [hsleep]
    have hw : ∀ u ∈ s.sleepQueue, (s'.threads u).wakeupPhase = (s.threads u).wakeupPhase := by
      intro u hu
      by_cases hut : u = t
      · rw [hut] at hu ⊢
        exact hphase ((h.sleep.mem t).mp hu)
      · rw [hs.others u hut]
    refine h.sorted.imp_of_mem fun ha hb hle => ?_
    rw [hw _ ha, hw _ hb]
    exact hle

theorem Waits.mono (h : Waits spare s) {spare' : Option Nat}
    (hcores : s'.numCores = s.numCores)
    (hrun : ∀ u ∈ s'.runQueue, u ∈ s.runQueue ∧ (s'.threads u).futexWord = (s.threads u).futexWord ∧
      (s'.threads u).mask = (s.threads u).mask)
    (hbusy : ∀ u ∈ s'.runQueue, ∀ c < s.numCores, (s.threads u).mask c = true → spare' ≠ some c →
      (spare ≠ some c → s.Busy c) → s'.Busy c) :
    Waits spare' s' := by
  intro u hu
  obtain ⟨hmem, hword, hmask⟩ := hrun u hu
  obtain ⟨h₁, h₂⟩ := h u hmem
  refine ⟨hword.trans h₁, fun c hc hm hne => ?_⟩
  rw [hcores] at hc
  rw [hmask] at hm
  exact hbusy u hu c hc hm hne (h₂ c hc hm)

theorem Busy.keep (h : s.Busy c) (hs : Only t s s')
    (hctx : (s.contexts c).curThread ≠ some t →
      (s'.contexts c).curThread = (s.contexts c).curThread)
    (ht : (s.contexts c).curThread ≠ some t) : s'.Busy c := by
  obtain ⟨v, hv, hrun⟩ := h
  have hvt : v ≠ t := by
    rintro rfl
    exact ht hv
  refine ⟨v, (hctx ht).trans hv, ?_⟩
  rw [hs.others v hvt]
  exact hrun

/-- The thread `t`, which no thread hands off to, keeps its own handoff or loses it. -/
theorem Handoffs.keep (h : Handoffs dying s) {dying' : Option Nat} (hs : Only t s s')
    (hdying : ∀ u, u ≠ t → dying = some u → dying' = some u)
    (hplace : (s'.threads t).place ≠ .program → (s'.threads t).state = .RUNNING ∨ dying' = some t)
    (hself : ∀ d, (s'.threads t).handoffThread = some d → (s.threads t).handoffThread = some d ∧
      (s'.threads t).place = (s.threads t).place ∧
      ((s'.threads t).state = .RUNNING → (s.threads t).state = .RUNNING ∧
        (s'.threads t).cid = (s.threads t).cid))
    (hnot : ∀ v, (s.threads v).handoffThread ≠ some t)
    (hrun : ∀ d, d ≠ t → d ∈ s'.runQueue → d ∈ s.runQueue) : Handoffs dying' s' := by
  have hback : ∀ v d, (s'.threads v).handoffThread = some d →
      (s.threads v).handoffThread = some d := by
    intro v d hd
    by_cases hvt : v = t
    · rw [hvt] at hd ⊢
      exact (hself d hd).1
    · rw [← hs.others v hvt]
      exact hd
  constructor
  · intro v
    by_cases hvt : v = t
    · rw [hvt]
      exact hplace
    · rw [hs.others v hvt]
      exact fun hv => (h.syncing v hv).imp id (hdying v hvt)
  · intro v d hd
    by_cases hvt : v = t
    · rw [hvt] at hd ⊢
      obtain ⟨hold, hsame, -⟩ := hself d hd
      exact hsame.trans (h.from_synced t d hold)
    · rw [hs.others v hvt]
      exact h.from_synced v d (hback v d hd)
  · intro v d hd
    obtain ⟨h₁, h₂, h₃, h₄⟩ := h.target v d (hback v d hd)
    have hdt : d ≠ t := by
      rintro rfl
      exact hnot v (hback v d hd)
    rw [hs.others d hdt]
    refine ⟨h₁, fun hin => h₂ (hrun d hdt hin), h₃, fun hst => ?_⟩
    by_cases hvt : v = t
    · rw [hvt] at hd hst h₄ ⊢
      obtain ⟨-, -, hstill⟩ := hself d hd
      rw [(hstill hst).2]
      exact h₄ (hstill hst).1
    · rw [hs.others v hvt] at hst ⊢
      exact h₄ hst
  · intro v u d hv hu
    exact h.injective v u d (hback v d hv) (hback u d hu)

theorem Handoffs.not_target (h : Handoffs dying s)
    (ht : (s.threads t).state = .QUEUED → t ∈ s.runQueue) (v : Nat) :
    (s.threads v).handoffThread ≠ some t := by
  intro hv
  obtain ⟨hst, hnot, -⟩ := h.target v t hv
  exact hnot (ht hst)

theorem threads_keep (h : ∀ u, ThreadOk s.numCores s.curPhase (s.gidMap u) (s.threads u))
    (hs : Only t s s')
    (hself : ThreadOk s.numCores s.curPhase (s.gidMap t) (s'.threads t)) (u : Nat) :
    ThreadOk s'.numCores s'.curPhase (s'.gidMap u) (s'.threads u) := by
  rw [hs.numCores, hs.curPhase, hs.gidMap]
  by_cases hut : u = t
  · rw [hut]
    exact hself
  · rw [hs.others u hut]
    exact h u

end Scheduler

end ZSim
