import ZSim.Crossing
import ZSim.SumUpdate
import Mathlib.Data.List.Perm.Basic

/-! The invariant of crossings, and what setting an event, queueing, marking and releasing do to
it. -/

namespace ZSim

namespace Crossings

open Finset

/-- A result that no failed assert has led to, and that meets `P` if there is a state. -/
def Yields (P : ContentionSim → Prop) : Result → Prop
  | .ok s => P s
  | .error f => f ≠ .assertion

theorem Yields.bind {P Q : ContentionSim → Prop} {r : Result} {f : ContentionSim → Result}
    (h : Yields Q r) (hf : ∀ s, Q s → Yields P (f s)) : Yields P (r.bind f) := by
  cases r with
  | ok s => exact hf s h
  | error f => exact h

theorem Yields.map {P Q : ContentionSim → Prop} {r : Result} {f : ContentionSim → ContentionSim}
    (h : Yields Q r) (hf : ∀ s, Q s → P (f s)) : Yields P (r.map f) := by
  cases r with
  | ok s => exact hf s h
  | error f => exact h

theorem Yields.mono {P Q : ContentionSim → Prop} {r : Result} (h : Yields Q r)
    (hPQ : ∀ s, Q s → P s) : Yields P r := by
  cases r with
  | ok s => exact hPQ s h
  | error f => exact h

/-- How often `e` is a child of an event that is still to be done. -/
def weight (ev : Event) (e : Nat) : Nat := if ev.state = .EV_DONE then 0 else ev.children.count e

def parents (s : ContentionSim) (e : Nat) : Nat :=
  ∑ p ∈ range s.numEvents, weight (s.events p) e

/-- What a new entry is to those before it. -/
def EntryOk (events : Nat → Event) (trace : List Entry) : Entry → Prop
  | .ran d _ cycle => ∀ e' cycle', .ran d e' cycle' ∈ trace → cycle' ≤ cycle
  | .requeued x d cycle => d = (events x).domain ∧
      (∀ cycle', .marked x cycle' ∉ trace) ∧ (∀ cycle', .released x cycle' ∉ trace) ∧
      ∀ d' cycle', .requeued x d' cycle' ∈ trace → cycle' ≤ cycle
  | .marked x _ => ∀ cycle', .marked x cycle' ∉ trace
  | .released x cycle => (∀ cycle', .released x cycle' ∉ trace) ∧
      (∃ doneCycle, .marked x doneCycle ∈ trace ∧ doneCycle ≤ cycle) ∧
      ∃ minStartCycle, (events x).minStartCycle = some minStartCycle ∧ minStartCycle ≤ cycle

/-- A domain runs its events at cycles that never decrease. A crossing waits in its own domain at
cycles that never decrease, and releases its children at most once, after its placeholder was done,
no earlier than this and than its first cycle. -/
def Orderly (events : Nat → Event) : List Entry → Prop
  | [] => True
  | entry :: trace => EntryOk events trace entry ∧ Orderly events trace

/-- The crossing an entry is about. -/
def Entry.crossing? : Entry → Option Nat
  | .ran .. => none
  | .requeued x _ _ => some x
  | .marked x _ => some x
  | .released x _ => some x

/-- A domain in the weave phase. -/
structure DomainOk (lastLimit limit : Nat) (dom : Domain) : Prop where
  lastLimit_le : lastLimit ≤ dom.curCycle
  running : dom.running = true → dom.curCycle ≤ limit
  finished : dom.finished = true → dom.curCycle = limit ∧ dom.running = false

section Invariant

variable (G : Config) (s : ContentionSim)

/-- `numParents` counts the parents that are still to be done, and the calls of `parentDone` that
are `pending` for those that are. While a child is handed over it has been counted down already, and
its placeholder is counted that is not a child yet. -/
structure Graph (pending handed : List Nat) : Prop where
  child_lt : ∀ p < s.numEvents, ∀ c ∈ (s.events p).children, c < s.numEvents
  counts : ∀ e < s.numEvents,
    (s.events e).numParents + handed.count e = parents s e + pending.count e
  fresh : ∀ e < s.numEvents, (s.events e).numParents ≠ 0 → (s.events e).state = .EV_NONE
  domain_lt : ∀ e < s.numEvents, (s.events e).domain < G.numDomains

/-- The state of an event in the queue. A crossing is queued without a change of its state when it
has no parents. -/
structure Queued (d e cycle : Nat) : Prop where
  lt : e < s.numEvents
  domain : (s.events e).domain = d
  noParents : (s.events e).numParents = 0
  state : (s.events e).state = .EV_QUEUED ∧ (s.events e).kind = .other ∨
    s.NotStarted e ∧ (s.events e).kind = .crossing
  start : (s.events e).kind = .crossing →
    ∃ minStartCycle, (s.events e).minStartCycle = some minStartCycle ∧ minStartCycle ≤ cycle
  requeued : ∀ d' cycle', .requeued e d' cycle' ∈ s.trace → cycle' ≤ cycle

structure CrossingOk (x : Nat) : Prop where
  start : (s.events x).minStartCycle.isSome = true
  called : (s.crossings x).called = true →
    ∃ cycle, .marked x cycle ∈ s.trace ∧ cycle ≤ (s.crossings x).doneCycle
  notCalled : (s.crossings x).called = false → ∀ cycle, .marked x cycle ∉ s.trace
  released : ∀ cycle, .released x cycle ∈ s.trace → (s.events x).state = .EV_DONE
  requeued : ∀ d cycle, .requeued x d cycle ∈ s.trace → (s.events x).numParents = 0

/-- The placeholder `e` of the crossing `x`. -/
structure SourceOk (e x : Nat) : Prop where
  eq : e = x + 1
  kind : (s.events x).kind = .crossing
  children : (s.events e).children = []
  domain : (s.events e).domain = (s.crossings x).srcDomain
  waiting : (s.events e).state = .EV_NONE →
    (s.crossings x).called = false ∧ (s.events e).numParents = 1

/-- The cycle up to which domains may have run. -/
def bar : Nat := if s.inCSim = true then s.limit else s.lastLimit

/-- The last crossing `x` on its way has not run. -/
structure LastOk (dstDomain cycle x : Nat) : Prop where
  lt : x < s.numEvents
  kind : (s.events x).kind = .crossing
  domain : (s.events x).domain = dstDomain
  notStarted : s.NotStarted x
  start : ∃ minStartCycle, (s.events x).minStartCycle = some minStartCycle ∧ cycle ≤ minStartCycle

/-- The request `b` on a stack, whose parent may still get children. -/
structure StackOk (b : Nat) : Prop where
  lt : b < s.numEvents
  children : (s.events (s.crossings b).parentEv).children ≠ []
  ordinary : s.Ordinary (s.crossings b).parentEv
  notStarted : s.NotStarted (s.crossings b).parentEv
  domain : (s.events (s.crossings b).parentEv).domain = (s.crossings b).srcDomain

structure Timely : Prop where
  queue : ∀ d, ∀ x ∈ (s.domains d).pq, (s.domains d).curCycle ≤ x.2 ∧ Queued s d x.1 x.2
  nodup : ∀ d, ((s.domains d).pq.map Prod.fst).Nodup
  crossing : ∀ x < s.numEvents, (s.events x).kind = .crossing → CrossingOk s x
  source : ∀ e < s.numEvents, ∀ x, (s.events e).kind = .crossingSrc x → SourceOk s e x
  bound : s.inCSim = false →
    ∀ d < G.numDomains, (s.domains d).curCycle = s.lastLimit ∧ (s.domains d).running = false
  weave : s.inCSim = true → s.lastLimit ≤ s.limit ∧
    ∀ d < G.numDomains, DomainOk s.lastLimit s.limit (s.domains d)
  within : s.inCSim = true → ∀ p < s.numEvents, (s.events p).state ≠ .EV_DONE →
    ∀ c ∈ (s.events p).children, (s.events c).domain = (s.events p).domain
  stack : ∀ r, ∀ b ∈ (s.recorders r).crossingStack,
    s.inCSim = false ∧ r < G.numCores ∧ StackOk s b
  last : ∀ key, bar s < (s.lastCrossing key).cycle →
    ∃ x, (s.lastCrossing key).ev = some x ∧ LastOk s key.2.2 (s.lastCrossing key).cycle x
  ran : ∀ d e cycle, .ran d e cycle ∈ s.trace → cycle ≤ (s.domains d).curCycle ∧ cycle ≤ bar s
  known : ∀ entry ∈ s.trace, ∀ x ∈ entry.crossing?, x < s.numEvents ∧ (s.events x).kind = .crossing
  orderly : Orderly s.events s.trace
  bridged : ∀ p < s.numEvents, ∀ c ∈ (s.events p).children,
    s.Ordinary c ∨ (s.events c).domain = (s.events p).domain

structure Inv (pending : List Nat) : Prop where
  graph : Graph G s pending []
  timely : Timely G s

end Invariant

section Congr

variable {s s' : ContentionSim} {d e x b cycle : Nat}

theorem Graph.congr {G : Config} {pending handed : List Nat} (h : Graph G s pending handed)
    (hevents : s'.events = s.events) (hnum : s'.numEvents = s.numEvents) :
    Graph G s' pending handed where
  child_lt := by
    rw [hevents, hnum]
    exact h.child_lt
  counts e he := by
    have hparents : parents s' e = parents s e := by rw [parents, parents, hevents, hnum]
    rw [hparents, hevents]
    exact h.counts e (hnum ▸ he)
  fresh := by
    rw [hevents, hnum]
    exact h.fresh
  domain_lt := by
    rw [hevents, hnum]
    exact h.domain_lt

theorem Queued.congr (h : Queued s d e cycle) (hnum : s.numEvents ≤ s'.numEvents)
    (hev : s'.events e = s.events e) (htrace : s'.trace = s.trace) : Queued s' d e cycle where
  lt := h.lt.trans_le hnum
  domain := hev ▸ h.domain
  noParents := hev ▸ h.noParents
  state := by
    rw [ContentionSim.NotStarted, hev]
    exact h.state
  start := hev ▸ h.start
  requeued := htrace ▸ h.requeued

theorem CrossingOk.congr (h : CrossingOk s x) (hev : s'.events x = s.events x)
    (hcross : s'.crossings x = s.crossings x) (htrace : s'.trace = s.trace) : CrossingOk s' x where
  start := hev ▸ h.start
  called := by
    rw [hcross, htrace]
    exact h.called
  notCalled := by
    rw [hcross, htrace]
    exact h.notCalled
  released := by
    rw [hev, htrace]
    exact h.released
  requeued := by
    rw [hev, htrace]
    exact h.requeued

theorem SourceOk.lt (h : SourceOk s e x) (he : e < s.numEvents) : x < s.numEvents := by
  have heq := h.eq
  omega

theorem SourceOk.congr (h : SourceOk s e x) (hev : s'.events e = s.events e)
    (hevx : s'.events x = s.events x) (hcross : s'.crossings x = s.crossings x) :
    SourceOk s' e x where
  eq := h.eq
  kind := hevx ▸ h.kind
  children := hev ▸ h.children
  domain := by
    rw [hev, hcross]
    exact h.domain
  waiting := by
    rw [hev, hcross]
    exact h.waiting

theorem LastOk.congr (h : LastOk s d cycle x) (hnum : s.numEvents ≤ s'.numEvents)
    (hev : s'.events x = s.events x) : LastOk s' d cycle x where
  lt := h.lt.trans_le hnum
  kind := hev ▸ h.kind
  domain := hev ▸ h.domain
  notStarted := by
    rw [ContentionSim.NotStarted, hev]
    exact h.notStarted
  start := hev ▸ h.start

theorem StackOk.congr (h : StackOk s b) (hnum : s.numEvents ≤ s'.numEvents)
    (hcross : s'.crossings b = s.crossings b)
    (hev : s'.events (s.crossings b).parentEv = s.events (s.crossings b).parentEv) :
    StackOk s' b where
  lt := h.lt.trans_le hnum
  children := by
    rw [hcross, hev]
    exact h.children
  ordinary := by
    rw [hcross, ContentionSim.Ordinary, hev]
    exact ⟨h.ordinary.1.trans_le hnum, h.ordinary.2⟩
  notStarted := by
    rw [hcross, ContentionSim.NotStarted, hev]
    exact h.notStarted
  domain := by
    rw [hcross, hev]
    exact h.domain

end Congr

section SetEvent

variable {G : Config} {s : ContentionSim} {d e e' x cycle : Nat} {ev : Event}

@[simp] theorem setEvent_events (e' : Nat) :
    (s.setEvent e ev).events e' = if e' = e then ev else s.events e' :=
  Function.update_apply s.events e ev e'

@[simp] theorem setEvent_crossings : (s.setEvent e ev).crossings = s.crossings := rfl

/-- A new record for event `e` that the invariant allows, its counts apart. -/
structure Change (s : ContentionSim) (e : Nat) (ev : Event) : Prop where
  kind : ev.kind = (s.events e).kind
  domain : ev.domain = (s.events e).domain
  start : ev.minStartCycle = (s.events e).minStartCycle
  children : ev.children = (s.events e).children ∨
    s.inCSim = false ∧ (∀ x, (s.events e).kind ≠ .crossingSrc x) ∧ ev.children ≠ [] ∧
      ∀ c ∈ ev.children, s.Ordinary c ∨ (s.events c).domain = (s.events e).domain
  notDone : (s.events e).state ≠ .EV_DONE
  queued : ∀ d cycle, (e, cycle) ∈ (s.domains d).pq →
    ev.state = (s.events e).state ∧ ev.numParents = (s.events e).numParents
  released : ∀ cycle, .released e cycle ∈ s.trace → ev.state = .EV_DONE
  requeued : ∀ d cycle, .requeued e d cycle ∈ s.trace → ev.numParents = 0
  source : ∀ x, (s.events e).kind = .crossingSrc x → ev.state = .EV_NONE →
    (s.crossings x).called = false ∧ ev.numParents = 1
  last : (s.events e).kind = .crossing → (ev.state = .EV_NONE ∨ ev.state = .EV_QUEUED) ∨
    ∃ minStartCycle, (s.events e).minStartCycle = some minStartCycle ∧ minStartCycle ≤ bar s
  stack : s.inCSim = true ∨ (ev.state = .EV_NONE ∨ ev.state = .EV_QUEUED) ∨
    (s.events e).children = []

namespace Change

theorem kind_eq (h : Change s e ev) (e' : Nat) :
    ((s.setEvent e ev).events e').kind = (s.events e').kind := by
  by_cases he : e' = e <;> simp [he, h.kind]

theorem domain_eq (h : Change s e ev) (e' : Nat) :
    ((s.setEvent e ev).events e').domain = (s.events e').domain := by
  by_cases he : e' = e <;> simp [he, h.domain]

theorem start_eq (h : Change s e ev) (e' : Nat) :
    ((s.setEvent e ev).events e').minStartCycle = (s.events e').minStartCycle := by
  by_cases he : e' = e <;> simp [he, h.start]

end Change

theorem EntryOk.congr {events events' : Nat → Event} {trace : List Entry} {entry : Entry}
    (h : EntryOk events trace entry)
    (heq : ∀ x ∈ entry.crossing?, (events' x).domain = (events x).domain ∧
      (events' x).minStartCycle = (events x).minStartCycle) : EntryOk events' trace entry := by
  cases entry with
  | ran d e cycle => exact h
  | requeued x d cycle => exact ⟨h.1.trans (heq x rfl).1.symm, h.2⟩
  | marked x cycle => exact h
  | released x cycle =>
    obtain ⟨hrel, hmark, m, hm, hle⟩ := h
    exact ⟨hrel, hmark, m, (heq x rfl).2.trans hm, hle⟩

theorem Orderly.congr {events events' : Nat → Event} {trace : List Entry}
    (h : Orderly events trace)
    (heq : ∀ entry ∈ trace, ∀ x ∈ entry.crossing?, (events' x).domain = (events x).domain ∧
      (events' x).minStartCycle = (events x).minStartCycle) : Orderly events' trace := by
  induction trace with
  | nil => trivial
  | cons entry trace ih =>
    exact ⟨h.1.congr (heq entry List.mem_cons_self),
      ih h.2 fun entry' hentry => heq entry' (List.mem_cons_of_mem _ hentry)⟩

theorem Queued.setEvent (h : Queued s d e' cycle) (hc : Change s e ev)
    (hmem : (e', cycle) ∈ (s.domains d).pq) : Queued (s.setEvent e ev) d e' cycle := by
  refine ⟨h.lt, (hc.domain_eq _).trans h.domain, ?_, ?_, fun hk => ?_, h.requeued⟩
  · by_cases he : e' = e
    · obtain ⟨-, hn⟩ := hc.queued d cycle (he ▸ hmem)
      simpa [he, hn] using he ▸ h.noParents
    · simpa [he] using h.noParents
  · have hstate : ((s.setEvent e ev).events e').state = (s.events e').state := by
      by_cases he : e' = e
      · simpa [he] using (hc.queued d cycle (he ▸ hmem)).1
      · simp [he]
    rw [ContentionSim.NotStarted, hstate, hc.kind_eq]
    exact h.state
  · rw [hc.start_eq]
    exact h.start ((hc.kind_eq _).symm.trans hk)

theorem CrossingOk.setEvent (h : CrossingOk s x) (hc : Change s e ev) :
    CrossingOk (s.setEvent e ev) x := by
  refine ⟨by rw [hc.start_eq]; exact h.start, h.called, h.notCalled, fun cycle hr => ?_,
    fun d cycle hr => ?_⟩
  · by_cases he : x = e
    · simpa [he] using hc.released cycle (he ▸ hr)
    · simpa [he] using h.released cycle hr
  · by_cases he : x = e
    · simpa [he] using hc.requeued d cycle (he ▸ hr)
    · simpa [he] using h.requeued d cycle hr

theorem SourceOk.setEvent (h : SourceOk s e' x) (hc : Change s e ev)
    (hk : (s.events e').kind = .crossingSrc x) : SourceOk (s.setEvent e ev) e' x := by
  refine ⟨h.eq, (hc.kind_eq x).trans h.kind, ?_, (hc.domain_eq e').trans h.domain, fun hs => ?_⟩
  · by_cases he : e' = e
    · have hchild : ev.children = (s.events e).children := by
        rcases hc.children with hsame | ⟨-, hno, -⟩
        · exact hsame
        · exact absurd (he ▸ hk) (hno x)
      simpa [he, hchild] using he ▸ h.children
    · simpa [he] using h.children
  · by_cases he : e' = e
    · rw [he] at hk
      simpa [he] using hc.source x hk (by simpa [he] using hs)
    · simpa [he] using h.waiting (by simpa [he] using hs)

theorem StackOk.setEvent {b : Nat} (h : StackOk s b) (hc : Change s e ev)
    (hsim : s.inCSim = false) : StackOk (s.setEvent e ev) b := by
  refine ⟨h.lt, ?_, ⟨h.ordinary.1, ?_⟩, ?_, (hc.domain_eq _).trans h.domain⟩
  · by_cases he : (s.crossings b).parentEv = e
    · have hne : ev.children ≠ [] := by
        rcases hc.children with hsame | ⟨-, -, hne, -⟩
        · exact hsame ▸ he ▸ h.children
        · exact hne
      simpa [ContentionSim.setEvent, he] using hne
    · simpa [ContentionSim.setEvent, he] using h.children
  · have hk := hc.kind_eq (s.crossings b).parentEv
    exact h.ordinary.2.imp hk.trans hk.trans
  · by_cases he : (s.crossings b).parentEv = e
    · rcases hc.stack with hyes | hstate | hnil
      · exact absurd (hsim.symm.trans hyes) (by decide)
      · simpa [ContentionSim.NotStarted, ContentionSim.setEvent, he] using hstate
      · exact absurd hnil (he ▸ h.children)
    · have hns := h.notStarted
      simpa [ContentionSim.NotStarted, ContentionSim.setEvent, he] using hns

theorem LastOk.setEvent (h : LastOk s d cycle x) (hc : Change s e ev) (hbar : bar s < cycle) :
    LastOk (s.setEvent e ev) d cycle x := by
  refine ⟨h.lt, (hc.kind_eq x).trans h.kind, (hc.domain_eq x).trans h.domain, ?_, ?_⟩
  · by_cases he : x = e
    · rcases hc.last (he ▸ h.kind) with hstate | ⟨m, hm, hle⟩
      · simpa [ContentionSim.NotStarted, he] using hstate
      · obtain ⟨m', hm', hle'⟩ := h.start
        rw [he, hm] at hm'
        cases hm'
        exact absurd (hle'.trans hle) (Nat.not_le.mpr hbar)
    · have hns := h.notStarted
      simpa [ContentionSim.NotStarted, he] using hns
  · rw [hc.start_eq]
    exact h.start

theorem Timely.setEvent (h : Timely G s) (hc : Change s e ev) : Timely G (s.setEvent e ev) where
  queue d x hx := by
    obtain ⟨hle, hq⟩ := h.queue d x hx
    exact ⟨hle, hq.setEvent hc hx⟩
  nodup := h.nodup
  crossing x hx hk := (h.crossing x hx ((hc.kind_eq x).symm.trans hk)).setEvent hc
  source e' he' x hk := by
    have hk' := (hc.kind_eq e').symm.trans hk
    exact (h.source e' he' x hk').setEvent hc hk'
  bound := h.bound
  weave := h.weave
  within hsim p hp hs c hchild := by
    rw [hc.domain_eq, hc.domain_eq]
    by_cases he : p = e
    · subst he
      rcases hc.children with hsame | ⟨hno, -⟩
      · refine h.within hsim p hp hc.notDone c ?_
        simpa [hsame] using hchild
      · exact absurd (hno.symm.trans hsim) (by decide)
    · simp only [setEvent_events, he, if_false] at hs hchild
      exact h.within hsim p hp hs c hchild
  stack r b hb := by
    obtain ⟨hsim, hr, hok⟩ := h.stack r b hb
    exact ⟨hsim, hr, hok.setEvent hc hsim⟩
  last key hbar := by
    obtain ⟨x, hx, hok⟩ := h.last key hbar
    exact ⟨x, hx, hok.setEvent hc hbar⟩
  ran := h.ran
  known entry hentry x hx :=
    ⟨(h.known entry hentry x hx).1, (hc.kind_eq x).trans (h.known entry hentry x hx).2⟩
  orderly := h.orderly.congr fun _ _ x _ => ⟨hc.domain_eq x, hc.start_eq x⟩
  bridged p hp c hchild := by
    rw [ContentionSim.Ordinary, hc.kind_eq, hc.domain_eq, hc.domain_eq]
    by_cases he : p = e
    · subst he
      simp only [setEvent_events, if_true] at hchild
      rcases hc.children with hsame | ⟨-, -, -, hnew⟩
      · exact h.bridged p hp c (hsame ▸ hchild)
      · exact hnew c hchild
    · simp only [setEvent_events, he, if_false] at hchild
      exact h.bridged p hp c hchild

end SetEvent

section SetDomain

variable {G : Config} {s : ContentionSim} {d e x cycle : Nat} {dom : Domain}

@[simp] theorem setDomain_domains (d' : Nat) :
    (s.setDomain d dom).domains d' = if d' = d then dom else s.domains d' :=
  Function.update_apply s.domains d dom d'

theorem Timely.setDomain (h : Timely G s)
    (hqueue : ∀ x ∈ dom.pq, dom.curCycle ≤ x.2 ∧ Queued s d x.1 x.2)
    (hnodup : (dom.pq.map Prod.fst).Nodup)
    (hbound : s.inCSim = false → d < G.numDomains →
      dom.curCycle = s.lastLimit ∧ dom.running = false)
    (hweave : s.inCSim = true → d < G.numDomains → DomainOk s.lastLimit s.limit dom)
    (hran : ∀ e cycle, .ran d e cycle ∈ s.trace → cycle ≤ dom.curCycle) :
    Timely G (s.setDomain d dom) where
  queue d' x hx := by
    by_cases hd : d' = d
    · simp only [setDomain_domains, hd, if_true] at hx ⊢
      obtain ⟨hle, hq⟩ := hqueue x hx
      exact ⟨hle, hq.congr (Nat.le_refl _) rfl rfl⟩
    · simp only [setDomain_domains, hd, if_false] at hx ⊢
      obtain ⟨hle, hq⟩ := h.queue d' x hx
      exact ⟨hle, hq.congr (Nat.le_refl _) rfl rfl⟩
  nodup d' := by
    by_cases hd : d' = d
    · simpa [hd] using hnodup
    · simpa [hd] using h.nodup d'
  crossing x hx hk := (h.crossing x hx hk).congr rfl rfl rfl
  source e he x hk := (h.source e he x hk).congr rfl rfl rfl
  bound hsim d' hd' := by
    by_cases hd : d' = d
    · simp only [setDomain_domains, hd, if_true]
      exact hbound hsim (hd ▸ hd')
    · simp only [setDomain_domains, hd, if_false]
      exact h.bound hsim d' hd'
  weave hsim := by
    refine ⟨(h.weave hsim).1, fun d' hd' => ?_⟩
    by_cases hd : d' = d
    · simp only [setDomain_domains, hd, if_true]
      exact hweave hsim (hd ▸ hd')
    · simp only [setDomain_domains, hd, if_false]
      exact (h.weave hsim).2 d' hd'
  within := h.within
  stack r b hb := by
    obtain ⟨hsim, hr, hok⟩ := h.stack r b hb
    exact ⟨hsim, hr, hok.congr (Nat.le_refl _) rfl rfl⟩
  last key hbar := by
    obtain ⟨x, hx, hok⟩ := h.last key hbar
    exact ⟨x, hx, hok.congr (Nat.le_refl _) rfl⟩
  ran d' e cycle hr := by
    refine ⟨?_, (h.ran d' e cycle hr).2⟩
    by_cases hd : d' = d
    · simpa [hd] using hran e cycle (hd ▸ hr)
    · simpa [hd] using (h.ran d' e cycle hr).1
  known := h.known
  orderly := h.orderly
  bridged := h.bridged

/-- An event that is not in the queue goes there. -/
theorem Timely.push (h : Timely G s) (hq : Queued s (s.events e).domain e cycle)
    (hle : (s.domains (s.events e).domain).curCycle ≤ cycle)
    (hnot : ∀ d cycle', (e, cycle') ∉ (s.domains d).pq) : Timely G (s.push e cycle) := by
  refine h.setDomain (fun x hx => ?_) ?_ (fun hsim hd => h.bound hsim _ hd) (fun hsim hd => ?_)
    fun e' cycle' hr => (h.ran _ e' cycle' hr).1
  · rcases List.mem_cons.mp hx with rfl | hx
    · exact ⟨hle, hq⟩
    · exact h.queue _ x hx
  · refine List.nodup_cons.mpr ⟨fun hmem => ?_, h.nodup _⟩
    obtain ⟨y, hy, rfl⟩ := List.mem_map.mp hmem
    exact hnot _ y.2 hy
  · obtain ⟨hlast, hrun, hfin⟩ := (h.weave hsim).2 _ hd
    exact ⟨hlast, hrun, hfin⟩

end SetDomain

section Log

variable {G : Config} {s : ContentionSim} {d e x cycle : Nat} {entry : Entry}

theorem Timely.log (h : Timely G s) (hok : EntryOk s.events s.trace entry)
    (hknown : ∀ x ∈ entry.crossing?, x < s.numEvents ∧ (s.events x).kind = .crossing)
    (hran : ∀ d e cycle, entry = .ran d e cycle → cycle ≤ (s.domains d).curCycle ∧ cycle ≤ bar s)
    (hrequeued : ∀ x d cycle, entry = .requeued x d cycle → (s.events x).numParents = 0 ∧
      ∀ d' cycle', (x, cycle') ∈ (s.domains d').pq → cycle ≤ cycle')
    (hmarked : ∀ x cycle, entry ≠ .marked x cycle)
    (hreleased : ∀ x cycle, entry = .released x cycle → (s.events x).state = .EV_DONE) :
    Timely G (s.log entry) where
  queue d x hx := by
    obtain ⟨hle, hq⟩ := h.queue d x hx
    refine ⟨hle, hq.lt, hq.domain, hq.noParents, hq.state, hq.start, fun d' cycle hr => ?_⟩
    rcases List.mem_cons.mp hr with he | hr
    · exact (hrequeued _ _ _ he.symm).2 d x.2 hx
    · exact hq.requeued d' cycle hr
  nodup := h.nodup
  crossing x hx hk := by
    obtain ⟨hstart, hcalled, hnot, hrel, hreq⟩ := h.crossing x hx hk
    refine ⟨hstart, fun hc => ?_, fun hc cycle hm => ?_, fun cycle hr => ?_, fun d cycle hr => ?_⟩
    · obtain ⟨cycle, hm, hle⟩ := hcalled hc
      exact ⟨cycle, List.mem_cons_of_mem _ hm, hle⟩
    · rcases List.mem_cons.mp hm with he | hm
      · exact hmarked x cycle he.symm
      · exact hnot hc cycle hm
    · rcases List.mem_cons.mp hr with he | hr
      · exact hreleased x cycle he.symm
      · exact hrel cycle hr
    · rcases List.mem_cons.mp hr with he | hr
      · exact (hrequeued x d cycle he.symm).1
      · exact hreq d cycle hr
  source e he x hk := (h.source e he x hk).congr rfl rfl rfl
  bound := h.bound
  weave := h.weave
  within := h.within
  stack r b hb := by
    obtain ⟨hsim, hr, hok⟩ := h.stack r b hb
    exact ⟨hsim, hr, hok.congr (Nat.le_refl _) rfl rfl⟩
  last key hbar := by
    obtain ⟨x, hx, hok⟩ := h.last key hbar
    exact ⟨x, hx, hok.congr (Nat.le_refl _) rfl⟩
  ran d e cycle hr := by
    rcases List.mem_cons.mp hr with he | hr
    · exact hran d e cycle he.symm
    · exact h.ran d e cycle hr
  known entry' hentry := by
    rcases List.mem_cons.mp hentry with rfl | hentry
    · exact hknown
    · exact h.known entry' hentry
  orderly := ⟨hok, h.orderly⟩
  bridged := h.bridged

/-- What may be new about a crossing in the weave phase: that it is done later, or that its
placeholder is done. -/
inductive CrossingStep (s : ContentionSim) (x : Nat) (ce : CrossingEvent) : List Entry → Prop
  | later (hcalled : ce.called = (s.crossings x).called)
      (hdone : (s.crossings x).doneCycle ≤ ce.doneCycle) : CrossingStep s x ce s.trace
  | marked (hnot : (s.crossings x).called = false) (hcalled : ce.called = true)
      (hsource : ∀ e < s.numEvents, (s.events e).kind = .crossingSrc x →
        (s.events e).state ≠ .EV_NONE) : CrossingStep s x ce (.marked x ce.doneCycle :: s.trace)

section SetCrossing

variable {ce : CrossingEvent} {trace : List Entry}

theorem CrossingStep.mem_imp (h : CrossingStep s x ce trace) (hmem : entry ∈ trace) :
    entry ∈ s.trace ∨ ∃ cycle, entry = .marked x cycle := by
  cases h with
  | later => exact .inl hmem
  | marked => exact (List.mem_cons.mp hmem).symm.imp id fun he => ⟨_, he⟩

theorem CrossingStep.subset (h : CrossingStep s x ce trace) : s.trace ⊆ trace := by
  cases h with
  | later => exact List.Subset.refl _
  | marked => exact List.subset_cons_self ..

theorem setCrossing_of_ne {x' : Nat} (hx : x' ≠ x) :
    (s.setCrossing x ce).crossings x' = s.crossings x' := Function.update_of_ne hx _ _

theorem setCrossing_self : (s.setCrossing x ce).crossings x = ce := Function.update_self ..

theorem CrossingOk.setCrossing {x' : Nat} (h : CrossingOk s x')
    (hstep : CrossingStep s x ce trace) :
    CrossingOk { s.setCrossing x ce with trace := trace } x' := by
  have hold (entry : Entry) (hmem : entry ∈ trace) (hno : ∀ cycle, entry ≠ .marked x cycle) :
      entry ∈ s.trace :=
    (hstep.mem_imp hmem).resolve_right fun he => he.elim fun cycle he => hno cycle he
  refine ⟨h.start, fun hc => ?_, fun hc cycle hm => ?_,
    fun cycle hr => h.released cycle (hold _ hr fun _ he => Entry.noConfusion he),
    fun d cycle hr => h.requeued d cycle (hold _ hr fun _ he => Entry.noConfusion he)⟩
  · change ((s.setCrossing x ce).crossings x').called = true at hc
    change ∃ cycle, Entry.marked x' cycle ∈ trace ∧
      cycle ≤ ((s.setCrossing x ce).crossings x').doneCycle
    by_cases hx : x' = x
    · subst hx
      rw [setCrossing_self] at hc ⊢
      cases hstep with
      | later hcalled hdone =>
        obtain ⟨cycle, hm, hle⟩ := h.called (hcalled ▸ hc)
        exact ⟨cycle, hm, hle.trans hdone⟩
      | marked => exact ⟨_, List.mem_cons_self, Nat.le_refl _⟩
    · rw [setCrossing_of_ne hx] at hc ⊢
      obtain ⟨cycle, hm, hle⟩ := h.called hc
      exact ⟨cycle, hstep.subset hm, hle⟩
  · change ((s.setCrossing x ce).crossings x').called = false at hc
    by_cases hx : x' = x
    · subst hx
      rw [setCrossing_self] at hc
      cases hstep with
      | later hcalled => exact h.notCalled (hcalled ▸ hc) cycle hm
      | marked _ hcalled => exact absurd (hc.symm.trans hcalled) (by decide)
    · rw [setCrossing_of_ne hx] at hc
      exact h.notCalled hc cycle (hold _ hm fun _ he => hx (Entry.marked.inj he).1)

theorem SourceOk.setCrossing {x' : Nat} (h : SourceOk s e x') (hstep : CrossingStep s x ce trace)
    (hsrc : ce.srcDomain = (s.crossings x).srcDomain) (he : e < s.numEvents)
    (hk : (s.events e).kind = .crossingSrc x') :
    SourceOk { s.setCrossing x ce with trace := trace } e x' := by
  by_cases hx : x' = x
  · subst hx
    have hself : (s.setCrossing x' ce).crossings x' = ce := setCrossing_self
    refine ⟨h.eq, h.kind, h.children, ?_, fun hs => ?_⟩
    · change _ = ((s.setCrossing x' ce).crossings x').srcDomain
      rw [hself, hsrc]
      exact h.domain
    · change ((s.setCrossing x' ce).crossings x').called = false ∧ _
      rw [hself]
      cases hstep with
      | later hcalled => exact ⟨hcalled.trans (h.waiting hs).1, (h.waiting hs).2⟩
      | marked _ _ hsource => exact absurd hs (hsource e he hk)
  · exact h.congr rfl rfl (setCrossing_of_ne hx)

/-- New data of the crossing `x`, and what is logged with it. -/
theorem Timely.setCrossing (h : Timely G s) (hstep : CrossingStep s x ce trace)
    (hk : (s.events x).kind = .crossing) (hlt : x < s.numEvents) (hsim : s.inCSim = true)
    (hsrc : ce.srcDomain = (s.crossings x).srcDomain) :
    Timely G { s.setCrossing x ce with trace := trace } where
  queue d y hy := by
    obtain ⟨hle, hq⟩ := h.queue d y hy
    refine ⟨hle, hq.lt, hq.domain, hq.noParents, hq.state, hq.start, fun d' cycle hr => ?_⟩
    rcases hstep.mem_imp hr with hr | ⟨_, he⟩
    · exact hq.requeued d' cycle hr
    · cases he
  nodup := h.nodup
  crossing x' hx' hk' := (h.crossing x' hx' hk').setCrossing hstep
  source e he x' hk' := (h.source e he x' hk').setCrossing hstep hsrc he hk'
  bound := h.bound
  weave := h.weave
  within := h.within
  stack r b hb := absurd ((h.stack r b hb).1.symm.trans hsim) (by decide)
  last key hbar := by
    obtain ⟨x, hx, hok⟩ := h.last key hbar
    exact ⟨x, hx, hok.congr (Nat.le_refl _) rfl⟩
  ran d e cycle hr := by
    rcases hstep.mem_imp hr with hr | ⟨_, he⟩
    · exact h.ran d e cycle hr
    · cases he
  known entry hentry x' hx' := by
    rcases hstep.mem_imp hentry with hentry | ⟨_, rfl⟩
    · exact h.known entry hentry x' hx'
    · cases hx'
      exact ⟨hlt, hk⟩
  orderly := by
    cases hstep with
    | later => exact h.orderly
    | marked hnot => exact ⟨(h.crossing x hlt hk).notCalled hnot, h.orderly⟩
  bridged := h.bridged

end SetCrossing

end Log

end Crossings

end ZSim
