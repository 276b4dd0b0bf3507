import Mathlib.Data.List.Perm.Basic
import ZSim.DetailedMem

/-! The read and write queues of the memory scheduler. A write waits in the write queue, and when
it is issued its address stays in the done queue, until it is written again or dropped. -/

namespace ZSim

structure MemAccessEvent where
  id : Nat
  addr : Nat
  type : MemAccessType
  deriving DecidableEq

/-- A queue entry is an event, or for writes the address alone. -/
structure MemScheduler where
  prioritizedAccessType : MemAccessType
  wrQueueSize : Nat
  wrQueueHighWatermark : Nat
  wrQueueLowWatermark : Nat
  rdQueue : List MemAccessEvent
  wrQueue : List Nat
  wrDoneQueue : List Nat

namespace MemScheduler

def init (schedulerQueueCount : Nat) : MemScheduler where
  prioritizedAccessType := .READ
  wrQueueSize := schedulerQueueCount
  wrQueueHighWatermark := schedulerQueueCount * 2 % 2 ^ 32 / 3
  wrQueueLowWatermark := schedulerQueueCount * 1 / 3
  rdQueue := []
  wrQueue := []
  wrDoneQueue := []

variable (s : MemScheduler)

/-- The entries that the capacity is about. -/
def total : Nat := s.wrQueue.length + s.wrDoneQueue.length

/-- A write that fills the queues drops the oldest write that is done, if there is one. -/
def trim : MemScheduler :=
  if s.total = s.wrQueueSize then { s with wrDoneQueue := s.wrDoneQueue.tail } else s

/-- The state after the call, and whether it was a hit. -/
def checkSetEvent (ev : MemAccessEvent) : MemScheduler × Bool :=
  if ev.addr ∈ s.wrQueue then
    match ev.type with
    | .WRITE => ({ s with wrQueue := s.wrQueue.erase ev.addr ++ [ev.addr] }, true)
    | .READ => (s, true)
  else if ev.addr ∈ s.wrDoneQueue then
    match ev.type with
    | .READ => ({ s with wrDoneQueue := s.wrDoneQueue.erase ev.addr ++ [ev.addr] }, true)
    | .WRITE =>
      ({ s with
        wrDoneQueue := s.wrDoneQueue.erase ev.addr
        wrQueue := s.wrQueue ++ [ev.addr] }, true)
  else
    match ev.type with
    | .READ => ({ s with rdQueue := s.rdQueue ++ [ev] }, false)
    | .WRITE => (trim { s with wrQueue := s.wrQueue ++ [ev.addr] }, false)

/-- The first entry whose row is open, else the first one. -/
def findBestRequest {α : Type} (isRowBufferHit : α → Bool) (queue : List α) : Option Nat :=
  if queue = [] then none else some ((queue.findIdx? isRowBufferHit).getD 0)

/-- The entry at the index found, and the queue without it. -/
def takeBest {α : Type} (isRowBufferHit : α → Bool) (queue : List α) : Option (α × List α) := do
  let idx ← findBestRequest isRowBufferHit queue
  let e ← queue[idx]?
  some (e, queue.eraseIdx idx)

def checkPriority : MemAccessType :=
  if s.wrQueueHighWatermark ≤ s.wrQueue.length then .WRITE
  else if s.wrQueue.length ≤ s.wrQueueLowWatermark then .READ
  else s.prioritizedAccessType

/-- What `GetEvent` hands out: a read with its event, or the address of a write. -/
inductive Issue
  | read (ev : MemAccessEvent)
  | write (addr : Nat)

/-- `isRowBufferHit` is what the channel says of an address at the time of the call. -/
def getEvent (isRowBufferHit : Nat → Bool) : MemScheduler × Option Issue :=
  let s := { s with prioritizedAccessType := s.checkPriority }
  let rd := if s.prioritizedAccessType = .READ then
    takeBest (fun ev : MemAccessEvent => isRowBufferHit ev.addr) s.rdQueue else none
  match rd with
  | some (ev, rest) => ({ s with rdQueue := rest }, some (.read ev))
  | none =>
    match takeBest isRowBufferHit s.wrQueue with
    | some (addr, rest) =>
      ({ s with wrQueue := rest, wrDoneQueue := s.wrDoneQueue ++ [addr] }, some (.write addr))
    | none => (s, none)

end MemScheduler

inductive WriteLog
  | wrote (addr : Nat)
  | dropped (addr : Nat)

/-- The address was written, and not dropped after that. The log has its last entry first. -/
def Held (addr : Nat) : List WriteLog → Prop
  | [] => False
  | .wrote a :: log => addr = a ∨ Held addr log
  | .dropped a :: log => addr ≠ a ∧ Held addr log

/-- The scheduler with what happened so far: the reads that missed and those that were returned,
the writes that came into the write queue and those that were issued. -/
structure SchedRun where
  s : MemScheduler
  missed : List MemAccessEvent
  returned : List MemAccessEvent
  entered : List Nat
  issued : List Nat
  log : List WriteLog

inductive SchedOp
  | checkSet (ev : MemAccessEvent)
  | get (isRowBufferHit : Nat → Bool)

namespace SchedRun

variable (r : SchedRun)

def init (schedulerQueueCount : Nat) : SchedRun := ⟨.init schedulerQueueCount, [], [], [], [], []⟩

/-- A write that is new to the queues and fills them drops the oldest write that is done. -/
def drops (ev : MemAccessEvent) : List WriteLog :=
  if ev.addr ∉ r.s.wrQueue ∧ ev.addr ∉ r.s.wrDoneQueue ∧ r.s.total + 1 = r.s.wrQueueSize then
    (r.s.wrDoneQueue.take 1).map .dropped
  else []

def step : SchedOp → SchedRun
  | .checkSet ev =>
    let c := r.s.checkSetEvent ev
    match ev.type with
    | .READ => { r with s := c.1, missed := if c.2 then r.missed else r.missed ++ [ev] }
    | .WRITE =>
      { r with
        s := c.1
        entered := if ev.addr ∈ r.s.wrQueue then r.entered else r.entered ++ [ev.addr]
        log := r.drops ev ++ .wrote ev.addr :: r.log }
  | .get isRowBufferHit =>
    let c := r.s.getEvent isRowBufferHit
    match c.2 with
    | none => { r with s := c.1 }
    | some (.read ev) => { r with s := c.1, returned := r.returned ++ [ev] }
    | some (.write addr) => { r with s := c.1, issued := r.issued ++ [addr] }

/-- The states of the runs whose steps meet a condition. -/
inductive Reachable (Cond : SchedRun → SchedOp → Prop) (schedulerQueueCount : Nat) :
    SchedRun → Prop
  | init : Reachable Cond schedulerQueueCount (init schedulerQueueCount)
  | step {r : SchedRun} {op : SchedOp} (hr : Reachable Cond schedulerQueueCount r)
      (hc : Cond r op) : Reachable Cond schedulerQueueCount (r.step op)

/-- A write to an address that is in neither queue finds an entry free. -/
def FindsRoom : SchedOp → Prop
  | .checkSet ev => ev.type = .WRITE → ev.addr ∉ r.s.wrQueue → ev.addr ∉ r.s.wrDoneQueue →
      r.s.total < r.s.wrQueueSize
  | .get _ => True

structure Coherent : Prop where
  nodup : (r.s.wrQueue ++ r.s.wrDoneQueue).Nodup
  hit : ∀ ev, (r.s.checkSetEvent ev).2 = true ↔ Held ev.addr r.log
  reads : r.missed.Perm (r.returned ++ r.s.rdQueue)
  writes : r.entered.Perm (r.issued ++ r.s.wrQueue)

structure Inv : Prop where
  nodup : (r.s.wrQueue ++ r.s.wrDoneQueue).Nodup
  held : ∀ a, a ∈ r.s.wrQueue ++ r.s.wrDoneQueue ↔ Held a r.log
  reads : r.missed.Perm (r.returned ++ r.s.rdQueue)
  writes : r.entered.Perm (r.issued ++ r.s.wrQueue)

end SchedRun

namespace MemScheduler

theorem takeBest_perm {α : Type} {hit : α → Bool} {queue rest : List α} {e : α}
    (h : takeBest hit queue = some (e, rest)) : queue.Perm (e :: rest) := by
  obtain ⟨idx, -, h⟩ := Option.bind_eq_some_iff.mp h
  obtain ⟨e', he, h⟩ := Option.bind_eq_some_iff.mp h
  rw [Option.some.injEq, Prod.mk.injEq] at h
  obtain ⟨rfl, rfl⟩ := h
  obtain ⟨hlt, rfl⟩ := List.getElem?_eq_some_iff.mp he
  exact (List.getElem_cons_eraseIdx_perm hlt).symm

theorem erase_append_perm {a : Nat} {l : List Nat} (h : a ∈ l) : (l.erase a ++ [a]).Perm l :=
  List.perm_append_comm.trans (List.perm_cons_erase h).symm

theorem hit_iff (s : MemScheduler) (ev : MemAccessEvent) :
    (s.checkSetEvent ev).2 = true ↔ ev.addr ∈ s.wrQueue ++ s.wrDoneQueue := by
  rw [checkSetEvent, List.mem_append]
  by_cases hwr : ev.addr ∈ s.wrQueue
  · rw [if_pos hwr]
    cases ev.type with
    | READ => exact iff_of_true rfl (Or.inl hwr)
    | WRITE => exact iff_of_true rfl (Or.inl hwr)
  · rw [if_neg hwr]
    by_cases hdone : ev.addr ∈ s.wrDoneQueue
    · rw [if_pos hdone]
      cases ev.type with
      | READ => exact iff_of_true rfl (Or.inr hdone)
      | WRITE => exact iff_of_true rfl (Or.inr hdone)
    · rw [if_neg hdone]
      have hnot : ¬ (ev.addr ∈ s.wrQueue ∨ ev.addr ∈ s.wrDoneQueue) := not_or.mpr ⟨hwr, hdone⟩
      cases ev.type with
      | READ => exact iff_of_false Bool.false_ne_true hnot
      | WRITE => exact iff_of_false Bool.false_ne_true hnot

end MemScheduler

namespace SchedRun

variable {r : SchedRun}

theorem Inv.read (hi : r.Inv) {ev : MemAccessEvent} (htype : ev.type = .READ) :
    (r.step (.checkSet ev)).Inv := by
  simp only [step, htype, MemScheduler.checkSetEvent]
  by_cases hwr : ev.addr ∈ r.s.wrQueue
  · simp only [hwr, if_true]
    exact ⟨hi.nodup, hi.held, hi.reads, hi.writes⟩
  · by_cases hdone : ev.addr ∈ r.s.wrDoneQueue
    · have hperm := (MemScheduler.erase_append_perm hdone).append_left r.s.wrQueue
      simp only [hwr, hdone, if_true, if_false]
      exact ⟨hperm.nodup_iff.mpr hi.nodup, fun a => hperm.mem_iff.trans (hi.held a), hi.reads,
        hi.writes⟩
    · simp only [hwr, hdone, if_false, Bool.false_eq_true]
      refine ⟨hi.nodup, hi.held, ?_, hi.writes⟩
      rw [← List.append_assoc]
      exact hi.reads.append_right _

theorem Inv.rewrite (hi : r.Inv) {ev : MemAccessEvent} (htype : ev.type = .WRITE)
    (hmem : ev.addr ∈ r.s.wrQueue ++ r.s.wrDoneQueue) : (r.step (.checkSet ev)).Inv := by
  have hdrops : r.drops ev = [] := by
    refine if_neg fun h => ?_
    rcases List.mem_append.mp hmem with hwr | hdone
    · exact h.1 hwr
    · exact h.2.1 hdone
  have hlog : ∀ a, a ∈ r.s.wrQueue ++ r.s.wrDoneQueue ↔ Held a (.wrote ev.addr :: r.log) := by
    intro a
    rw [Held, ← hi.held a]
    refine ⟨Or.inr, fun h => h.elim ?_ id⟩
    rintro rfl
    exact hmem
  simp only [step, htype, hdrops, List.nil_append, MemScheduler.checkSetEvent]
  by_cases hwr : ev.addr ∈ r.s.wrQueue
  · have hmoved := MemScheduler.erase_append_perm hwr
    have hperm := hmoved.append_right r.s.wrDoneQueue
    simp only [hwr, if_true]
    exact ⟨hperm.nodup_iff.mpr hi.nodup, fun a => hperm.mem_iff.trans (hlog a), hi.reads,
      hi.writes.trans (hmoved.symm.append_left _)⟩
  · have hdone : ev.addr ∈ r.s.wrDoneQueue := (List.mem_append.mp hmem).resolve_left hwr
    have hperm : ((r.s.wrQueue ++ [ev.addr]) ++ r.s.wrDoneQueue.erase ev.addr).Perm
        (r.s.wrQueue ++ r.s.wrDoneQueue) := by
      rw [List.append_assoc]
      exact (List.perm_cons_erase hdone).symm.append_left _
    simp only [hwr, hdone, if_true, if_false]
    refine ⟨hperm.nodup_iff.mpr hi.nodup, fun a => hperm.mem_iff.trans (hlog a), hi.reads, ?_⟩
    rw [← List.append_assoc]
    exact hi.writes.append_right _

/-- A write that is new to the queues, before the oldest write is dropped. -/
theorem Inv.newWrite (hi : r.Inv) {addr : Nat} (hmem : addr ∉ r.s.wrQueue ++ r.s.wrDoneQueue) :
    ((r.s.wrQueue ++ [addr]) ++ r.s.wrDoneQueue).Nodup ∧
      ∀ a, a ∈ (r.s.wrQueue ++ [addr]) ++ r.s.wrDoneQueue ↔ Held a (.wrote addr :: r.log) := by
  have hperm : ((r.s.wrQueue ++ [addr]) ++ r.s.wrDoneQueue).Perm
      (addr :: (r.s.wrQueue ++ r.s.wrDoneQueue)) := by
    rw [List.append_assoc]
    exact List.perm_middle
  refine ⟨hperm.nodup_iff.mpr (List.nodup_cons.mpr ⟨hmem, hi.nodup⟩), fun a => ?_⟩
  rw [hperm.mem_iff, List.mem_cons, Held, hi.held a]

theorem Inv.write_miss (hi : r.Inv) {ev : MemAccessEvent} (htype : ev.type = .WRITE)
    (hmem : ev.addr ∉ r.s.wrQueue ++ r.s.wrDoneQueue) : (r.step (.checkSet ev)).Inv := by
  obtain ⟨hnodup, hheld⟩ := hi.newWrite hmem
  have hwrites : (r.entered ++ [ev.addr]).Perm (r.issued ++ (r.s.wrQueue ++ [ev.addr])) := by
    rw [← List.append_assoc]
    exact hi.writes.append_right _
  have hnot := hmem
  rw [List.mem_append, not_or] at hnot
  have htotal : MemScheduler.total { r.s with wrQueue := r.s.wrQueue ++ [ev.addr] } =
      r.s.total + 1 := by
    simp only [MemScheduler.total, List.length_append, List.length_singleton]
    omega
  simp only [step, htype, MemScheduler.checkSetEvent, hnot.1, hnot.2, if_false, MemScheduler.trim,
    htotal, drops, not_false_iff, true_and]
  by_cases hfull : r.s.total + 1 = r.s.wrQueueSize
  · simp only [hfull, if_true]
    cases hdone : r.s.wrDoneQueue with
    | nil =>
      rw [hdone] at hnodup hheld
      exact ⟨hnodup, hheld, hi.reads, hwrites⟩
    | cons d rest =>
      rw [hdone] at hnodup hheld
      have hperm : ((r.s.wrQueue ++ [ev.addr]) ++ d :: rest).Perm
          (d :: ((r.s.wrQueue ++ [ev.addr]) ++ rest)) := List.perm_middle
      have hcons := List.nodup_cons.mp (hperm.nodup_iff.mp hnodup)
      refine ⟨hcons.2, fun a => ?_, hi.reads, hwrites⟩
      have ha := hheld a
      rw [hperm.mem_iff, List.mem_cons] at ha
      show a ∈ (r.s.wrQueue ++ [ev.addr]) ++ rest ↔ a ≠ d ∧ Held a (.wrote ev.addr :: r.log)
      rw [← ha]
      refine ⟨fun h => ⟨?_, Or.inr h⟩, fun h => h.2.resolve_left h.1⟩
      rintro rfl
      exact hcons.1 h
  · simp only [hfull, if_false, List.nil_append]
    exact ⟨hnodup, hheld, hi.reads, hwrites⟩

theorem Inv.get (hi : r.Inv) (isRowBufferHit : Nat → Bool) : (r.step (.get isRowBufferHit)).Inv := by
  have hget : ∀ c, r.s.getEvent isRowBufferHit = c → (r.step (.get isRowBufferHit)).Inv := by
    intro c hc
    simp only [step, hc]
    rw [MemScheduler.getEvent] at hc
    split at hc
    case h_1 ev rest hrd =>
      subst hc
      split at hrd
      case isFalse => cases hrd
      case isTrue =>
        refine ⟨hi.nodup, hi.held, ?_, hi.writes⟩
        rw [List.append_assoc]
        exact hi.reads.trans ((MemScheduler.takeBest_perm hrd).append_left _)
    case h_2 =>
      split at hc
      case h_1 addr rest hwr =>
        subst hc
        have htake : r.s.wrQueue.Perm (addr :: rest) := MemScheduler.takeBest_perm hwr
        have hperm : (rest ++ (r.s.wrDoneQueue ++ [addr])).Perm
            (r.s.wrQueue ++ r.s.wrDoneQueue) := by
          rw [← List.append_assoc]
          exact List.perm_append_comm.trans (htake.symm.append_right _)
        refine ⟨hperm.nodup_iff.mpr hi.nodup, fun a => hperm.mem_iff.trans (hi.held a), hi.reads,
          ?_⟩
        rw [List.append_assoc]
        exact hi.writes.trans (htake.append_left _)
      case h_2 =>
        subst hc
        exact ⟨hi.nodup, hi.held, hi.reads, hi.writes⟩
  exact hget _ rfl

theorem Inv.step (hi : r.Inv) (op : SchedOp) : (r.step op).Inv := by
  cases op with
  | get isRowBufferHit => exact hi.get isRowBufferHit
  | checkSet ev =>
    cases htype : ev.type with
    | READ => exact hi.read htype
    | WRITE =>
      by_cases hmem : ev.addr ∈ r.s.wrQueue ++ r.s.wrDoneQueue
      · exact hi.rewrite htype hmem
      · exact hi.write_miss htype hmem

theorem inv_init (schedulerQueueCount : Nat) : (init schedulerQueueCount).Inv :=
  ⟨List.nodup_nil, fun _ => iff_of_false List.not_mem_nil id, List.Perm.refl _, List.Perm.refl _⟩

variable {Cond : SchedRun → SchedOp → Prop} {schedulerQueueCount : Nat}

theorem Reachable.inv (hr : Reachable Cond schedulerQueueCount r) : r.Inv := by
  induction hr with
  | init => exact inv_init _
  | step _ _ ih => exact ih.step _

theorem step_checkSet (r : SchedRun) (ev : MemAccessEvent) :
    (r.step (.checkSet ev)).s = (r.s.checkSetEvent ev).1 := by
  rw [SchedRun.step]
  cases ev.type with
  | READ => rfl
  | WRITE => rfl

theorem step_get (r : SchedRun) (isRowBufferHit : Nat → Bool) :
    (r.step (.get isRowBufferHit)).s = (r.s.getEvent isRowBufferHit).1 := by
  rw [SchedRun.step]
  split <;> rfl

end SchedRun

namespace MemScheduler

variable {s : MemScheduler}

theorem wrQueueSize_checkSetEvent (ev : MemAccessEvent) :
    (s.checkSetEvent ev).1.wrQueueSize = s.wrQueueSize := by
  rw [checkSetEvent]
  split_ifs
  · cases ev.type <;> rfl
  · cases ev.type <;> rfl
  · cases ev.type with
    | READ => rfl
    | WRITE =>
      simp only [trim]
      split <;> rfl

/-- Only a write that is new to the queues changes how many entries they have. -/
theorem total_checkSetEvent {ev : MemAccessEvent}
    (h : ev.type = .READ ∨ ev.addr ∈ s.wrQueue ++ s.wrDoneQueue) :
    (s.checkSetEvent ev).1.total = s.total := by
  rw [checkSetEvent]
  by_cases hwr : ev.addr ∈ s.wrQueue
  · rw [if_pos hwr]
    cases ev.type with
    | READ => rfl
    | WRITE => exact congrArg (· + _) (erase_append_perm hwr).length_eq
  · rw [if_neg hwr]
    by_cases hdone : ev.addr ∈ s.wrDoneQueue
    · have hlen := (erase_append_perm hdone).length_eq
      rw [if_pos hdone]
      cases ev.type with
      | READ => exact congrArg (_ + ·) hlen
      | WRITE =>
        simp only [total, List.length_append, List.length_singleton] at hlen ⊢
        omega
    · have hread : ev.type = .READ :=
        h.resolve_right fun hmem => (List.mem_append.mp hmem).elim hwr hdone
      rw [if_neg hdone, hread]
      rfl

theorem total_write_miss {ev : MemAccessEvent} (htype : ev.type = .WRITE)
    (hmem : ev.addr ∉ s.wrQueue ++ s.wrDoneQueue) (hle : s.total ≤ s.wrQueueSize) :
    (s.checkSetEvent ev).1.total ≤ s.wrQueueSize ↔ s.total < s.wrQueueSize := by
  have htotal : total { s with wrQueue := s.wrQueue ++ [ev.addr] } = s.total + 1 := by
    simp only [total, List.length_append, List.length_singleton]
    omega
  rw [List.mem_append, not_or] at hmem
  simp only [checkSetEvent, hmem.1, hmem.2, if_false, htype, trim, htotal]
  by_cases hfull : s.total + 1 = s.wrQueueSize
  · rw [if_pos hfull]
    refine iff_of_true ?_ (by omega)
    simp only [total, List.length_append, List.length_singleton, List.length_tail] at hfull ⊢
    omega
  · rw [if_neg hfull, htotal]
    omega

theorem total_getEvent (isRowBufferHit : Nat → Bool) :
    (s.getEvent isRowBufferHit).1.total = s.total ∧
      (s.getEvent isRowBufferHit).1.wrQueueSize = s.wrQueueSize := by
  rw [getEvent]
  split
  case h_1 => exact ⟨rfl, rfl⟩
  case h_2 =>
    split
    case h_1 addr rest hwr =>
      have hlen : s.wrQueue.length = rest.length + 1 := (takeBest_perm hwr).length_eq
      refine ⟨?_, rfl⟩
      simp only [total, List.length_append, List.length_singleton]
      omega
    case h_2 => exact ⟨rfl, rfl⟩

end MemScheduler

namespace SchedRun

variable {r : SchedRun} {Cond : SchedRun → SchedOp → Prop} {schedulerQueueCount : Nat}

theorem wrQueueSize_step (op : SchedOp) : (r.step op).s.wrQueueSize = r.s.wrQueueSize := by
  cases op with
  | get isRowBufferHit =>
    rw [step_get]
    exact (MemScheduler.total_getEvent isRowBufferHit).2
  | checkSet ev =>
    rw [step_checkSet]
    exact MemScheduler.wrQueueSize_checkSetEvent ev

theorem total_step (hle : r.s.total ≤ r.s.wrQueueSize) (op : SchedOp) :
    (r.step op).s.total ≤ r.s.wrQueueSize ↔ r.FindsRoom op := by
  cases op with
  | get isRowBufferHit =>
    rw [step_get, (MemScheduler.total_getEvent isRowBufferHit).1]
    exact iff_of_true hle trivial
  | checkSet ev =>
    rw [step_checkSet]
    by_cases h : ev.type = .READ ∨ ev.addr ∈ r.s.wrQueue ++ r.s.wrDoneQueue
    · rw [MemScheduler.total_checkSetEvent h]
      refine iff_of_true hle fun htype hwr hdone => ?_
      rcases h with hread | hmem
      · rw [hread] at htype
        cases htype
      · exact absurd (List.mem_append.mp hmem) (not_or.mpr ⟨hwr, hdone⟩)
    · rw [not_or] at h
      have htype : ev.type = .WRITE := by
        cases hev : ev.type with
        | READ => exact absurd hev h.1
        | WRITE => rfl
      rw [MemScheduler.total_write_miss htype h.2 hle]
      refine ⟨fun hlt _ _ _ => hlt, fun hroom => ?_⟩
      have hnot := h.2
      rw [List.mem_append, not_or] at hnot
      exact hroom htype hnot.1 hnot.2

theorem Reachable.wrQueueSize_eq (hr : Reachable Cond schedulerQueueCount r) :
    r.s.wrQueueSize = schedulerQueueCount := by
  induction hr with
  | init => rfl
  | step _ _ ih => exact (wrQueueSize_step _).trans ih

theorem Reachable.total_le (hr : Reachable FindsRoom schedulerQueueCount r) :
    r.s.total ≤ schedulerQueueCount := by
  induction hr with
  | init => exact Nat.zero_le _
  | step hr hroom ih =>
    have hsize := hr.wrQueueSize_eq
    rw [← hsize] at ih ⊢
    exact (total_step ih _).mpr hroom

/-- What the queues hold is right on every run. They hold no more than they should as long as
writes find room, and not a step longer. -/
theorem write_queues_coherent (hr : Reachable Cond schedulerQueueCount r) :
    r.Coherent ∧
      (Reachable FindsRoom schedulerQueueCount r → r.s.total ≤ schedulerQueueCount) ∧
      ∀ op, r.s.total ≤ schedulerQueueCount →
        ((r.step op).s.total ≤ schedulerQueueCount ↔ r.FindsRoom op) := by
  have hi := hr.inv
  have hsize := hr.wrQueueSize_eq
  refine ⟨⟨hi.nodup, fun ev => ?_, hi.reads, hi.writes⟩, fun hroom => hroom.total_le,
    fun op hle => ?_⟩
  · rw [MemScheduler.hit_iff]
    exact hi.held ev.addr
  · rw [← hsize] at hle ⊢
    exact total_step hle op

def writeTo (addr : Nat) : SchedOp := .checkSet ⟨addr, addr, .WRITE⟩

/-- Two writes, the first of which is issued and then written again. -/
theorem write_queues_coherent_rewrite :
    ∃ r, Reachable FindsRoom 3 r ∧ r.s.wrQueue = [8, 7] ∧ r.issued = [7] ∧ r.Coherent ∧
      r.s.total ≤ 3 := by
  have h₁ := @Reachable.step _ _ _ (writeTo 7) (@Reachable.init FindsRoom 3)
    fun _ _ _ => by decide
  have h₂ := @Reachable.step _ _ _ (writeTo 8) h₁ fun _ _ _ => by decide
  have h₃ := @Reachable.step _ _ _ (.get fun _ => false) h₂ trivial
  have h₄ := @Reachable.step _ _ _ (writeTo 7) h₃ fun _ _ _ => by decide
  obtain ⟨hcoherent, htotal, -⟩ := write_queues_coherent h₄
  exact ⟨_, h₄, rfl, rfl, hcoherent, htotal h₄⟩

/-- A burst of writes without a tick in between. -/
theorem third_write_overflows : ¬ ∀ schedulerQueueCount r,
    Reachable (fun _ _ => True) schedulerQueueCount r → r.s.total ≤ schedulerQueueCount := by
  intro hall
  have hthree := hall 2 _ (@Reachable.step _ _ _ (writeTo 9) (@Reachable.step _ _ _ (writeTo 8)
    (@Reachable.step _ _ _ (writeTo 7) .init trivial) trivial) trivial)
  exact absurd hthree (by decide)

end SchedRun

end ZSim
