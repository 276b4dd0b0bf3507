import ZSim.CrossingTurns

/-! The steps of the bound phase keep the invariant, and fail no assert. -/

namespace ZSim

namespace Crossings

open Finset

variable {G : Config} {s s' : ContentionSim} {e x p c d r cycle : Nat} {ev : Event}
variable {pending pending' handed : List Nat}

/-- A new event at the end of the pool. -/
def alloc (s : ContentionSim) (ev : Event) : ContentionSim :=
  { s.setEvent s.numEvents ev with numEvents := s.numEvents + 1 }

theorem alloc_events_lt (he : e < s.numEvents) : (alloc s ev).events e = s.events e := by
  simp [alloc, Nat.ne_of_lt he]

@[simp] theorem alloc_events_self : (alloc s ev).events s.numEvents = ev := by simp [alloc]

@[simp] theorem alloc_numEvents : (alloc s ev).numEvents = s.numEvents + 1 := rfl

theorem Graph.alloc (h : Graph G s pending handed) (hchildren : ev.children = [])
    (hdomain : ev.domain < G.numDomains) (hstate : ev.state = .EV_NONE)
    (hcount : ev.numParents + handed.count s.numEvents = pending'.count s.numEvents)
    (hother : ∀ e < s.numEvents, pending'.count e = pending.count e) :
    Graph G (alloc s ev) pending' handed := by
  have hweight (e : Nat) : weight ev e = 0 := by
    rw [weight, hchildren]
    split <;> rfl
  have hparents (e : Nat) : parents (Crossings.alloc s ev) e = parents s e := by
    rw [parents, parents, alloc_numEvents, sum_range_succ, alloc_events_self, hweight, add_zero]
    exact sum_congr rfl fun p hp => by rw [alloc_events_lt (mem_range.mp hp)]
  have hnone : parents s s.numEvents = 0 := by
    refine sum_eq_zero fun p hp => ?_
    rw [weight]
    split
    · rfl
    · refine List.count_eq_zero.mpr fun hmem => ?_
      exact Nat.lt_irrefl _ (h.child_lt p (mem_range.mp hp) _ hmem)
  constructor
  · intro p hp c hc
    rcases Nat.lt_succ_iff_lt_or_eq.mp hp with hp | rfl
    · rw [alloc_events_lt hp] at hc
      exact Nat.lt_succ_of_lt (h.child_lt p hp c hc)
    · rw [alloc_events_self, hchildren] at hc
      cases hc
  · intro e he
    rw [hparents]
    rcases Nat.lt_succ_iff_lt_or_eq.mp he with he | rfl
    · rw [alloc_events_lt he, hother e he]
      exact h.counts e he
    · rw [alloc_events_self, hnone]
      omega
  · intro e he hne
    rcases Nat.lt_succ_iff_lt_or_eq.mp he with he | rfl
    · rw [alloc_events_lt he] at hne ⊢
      exact h.fresh e he hne
    · rw [alloc_events_self]
      exact hstate
  · intro e he
    rcases Nat.lt_succ_iff_lt_or_eq.mp he with he | rfl
    · rw [alloc_events_lt he]
      exact h.domain_lt e he
    · rw [alloc_events_self]
      exact hdomain

theorem alloc_ordinary (h : s.Ordinary e) : (alloc s ev).Ordinary e := by
  refine ⟨Nat.lt_succ_of_lt h.1, ?_⟩
  rw [alloc_events_lt h.1]
  exact h.2

theorem Timely.alloc (h : Timely G s) (hg : Graph G s pending handed) (hsim : s.inCSim = false)
    (hchildren : ev.children = [])
    (hcrossing : ev.kind = .crossing →
      ev.minStartCycle.isSome = true ∧ (s.crossings s.numEvents).called = false)
    (hsource : ∀ x, ev.kind = .crossingSrc x → s.numEvents = x + 1 ∧
      (s.events x).kind = .crossing ∧ ev.domain = (s.crossings x).srcDomain ∧
        (s.crossings x).called = false ∧ ev.numParents = 1) : Timely G (alloc s ev) := by
  have hknown (entry : Entry) (hentry : entry ∈ s.trace) (x : Nat) (hx : x ∈ entry.crossing?) :
      x < s.numEvents := (h.known entry hentry x hx).1
  constructor
  · intro d y hy
    obtain ⟨hle, hq⟩ := h.queue d y hy
    exact ⟨hle, hq.congr (Nat.le_succ _) (alloc_events_lt hq.lt) rfl⟩
  · exact h.nodup
  · intro x hx hk
    rcases Nat.lt_succ_iff_lt_or_eq.mp hx with hx | rfl
    · rw [alloc_events_lt hx] at hk
      exact (h.crossing x hx hk).congr (alloc_events_lt hx) rfl rfl
    · rw [alloc_events_self] at hk
      obtain ⟨hstart, hcalled⟩ := hcrossing hk
      refine ⟨by rw [alloc_events_self]; exact hstart, fun hc => ?_, fun _ cycle hm => ?_,
        fun cycle hr => ?_, fun d cycle hr => ?_⟩
      · exact absurd (hcalled.symm.trans hc) (by decide)
      · exact absurd (hknown _ hm _ rfl) (Nat.lt_irrefl _)
      · exact absurd (hknown _ hr _ rfl) (Nat.lt_irrefl _)
      · exact absurd (hknown _ hr _ rfl) (Nat.lt_irrefl _)
  · intro e he x hk
    rcases Nat.lt_succ_iff_lt_or_eq.mp he with he | rfl
    · rw [alloc_events_lt he] at hk
      have hok := h.source e he x hk
      have hx : x < s.numEvents := hok.lt he
      exact hok.congr (alloc_events_lt he) (alloc_events_lt hx) rfl
    · rw [alloc_events_self] at hk
      obtain ⟨heq, hkind, hdom, hcalled, hone⟩ := hsource x hk
      have hx : x < s.numEvents := by omega
      refine ⟨heq, ?_, ?_, ?_, fun _ => ⟨hcalled, ?_⟩⟩
      · rw [alloc_events_lt hx]
        exact hkind
      · rw [alloc_events_self]
        exact hchildren
      · rw [alloc_events_self]
        exact hdom
      · rw [alloc_events_self]
        exact hone
  · exact h.bound
  · exact h.weave
  · exact fun hyes => absurd (hsim.symm.trans hyes) (by decide)
  · intro r b hb
    obtain ⟨-, hr, hok⟩ := h.stack r b hb
    exact ⟨hsim, hr, hok.congr (Nat.le_succ _) rfl (alloc_events_lt hok.ordinary.1)⟩
  · intro key hbar
    obtain ⟨x, hx, hok⟩ := h.last key hbar
    exact ⟨x, hx, hok.congr (Nat.le_succ _) (alloc_events_lt hok.lt)⟩
  · exact h.ran
  · intro entry hentry x hx
    have hlt := hknown entry hentry x hx
    refine ⟨Nat.lt_succ_of_lt hlt, ?_⟩
    rw [alloc_events_lt hlt]
    exact (h.known entry hentry x hx).2
  · refine h.orderly.congr fun entry hentry x hx => ?_
    rw [alloc_events_lt (hknown entry hentry x hx)]
    exact ⟨rfl, rfl⟩
  · intro p hp c hc
    rcases Nat.lt_succ_iff_lt_or_eq.mp hp with hp | rfl
    · rw [alloc_events_lt hp] at hc ⊢
      have hlt := hg.child_lt p hp c hc
      rw [alloc_events_lt hlt]
      exact (h.bridged p hp c hc).imp_left alloc_ordinary
    · rw [alloc_events_self, hchildren] at hc
      cases hc

/-- The data of a crossing that is to be allocated. -/
theorem Timely.setFresh (h : Timely G s) (hx : s.numEvents ≤ x) (ce : CrossingEvent) :
    Timely G (s.setCrossing x ce) := by
  have hcross (x' : Nat) (hx' : x' < s.numEvents) :
      (s.setCrossing x ce).crossings x' = s.crossings x' :=
    Function.update_of_ne (Nat.ne_of_lt (hx'.trans_le hx)) _ _
  constructor
  · intro d y hy
    obtain ⟨hle, hq⟩ := h.queue d y hy
    exact ⟨hle, hq.congr (Nat.le_refl _) rfl rfl⟩
  · exact h.nodup
  · exact fun x' hx' hk => (h.crossing x' hx' hk).congr rfl (hcross x' hx') rfl
  · intro e he x' hk
    have hok := h.source e he x' hk
    have hx' : x' < s.numEvents := hok.lt he
    exact hok.congr rfl rfl (hcross x' hx')
  · exact h.bound
  · exact h.weave
  · exact h.within
  · intro r b hb
    obtain ⟨hsim, hr, hok⟩ := h.stack r b hb
    exact ⟨hsim, hr, hok.congr (Nat.le_refl _) (hcross b hok.lt) rfl⟩
  · intro key hbar
    obtain ⟨x', hx', hok⟩ := h.last key hbar
    exact ⟨x', hx', hok.congr (Nat.le_refl _) rfl⟩
  · exact h.ran
  · exact h.known
  · exact h.orderly
  · exact h.bridged

/-- The state once `c` is a child of `p`. -/
def added (s : ContentionSim) (p c : Nat) : ContentionSim :=
  let ev := s.events p
  let s := s.setEvent p { ev with children := ev.children.insertIdx (ev.children.length % 3) c }
  s.setEvent c { s.events c with numParents := (s.events c).numParents + 1 }

theorem mem_insertIdx_block {c c' : Nat} {children : List Nat} :
    c' ∈ children.insertIdx (children.length % 3) c ↔ c' = c ∨ c' ∈ children :=
  List.mem_insertIdx (Nat.mod_le _ _)

theorem added_events (he : e ≠ p) (he' : e ≠ c) : (added s p c).events e = s.events e := by
  simp [added, he, he']

/-- Records of one event that may differ in its children, its parents and its cycle. -/
structure Similar (ev ev' : Event) : Prop where
  kind : ev'.kind = ev.kind
  state : ev'.state = ev.state
  start : ev'.minStartCycle = ev.minStartCycle
  domain : ev'.domain = ev.domain

theorem Similar.setEvent (h : Similar (s.events e) ev) (e' : Nat) :
    Similar (s.events e') ((s.setEvent e ev).events e') := by
  by_cases he : e' = e
  · simpa [he] using h
  · simpa [he] using ⟨rfl, rfl, rfl, rfl⟩

theorem added_similar (e : Nat) : Similar (s.events e) ((added s p c).events e) := by
  let ev : Event := { s.events p with
    children := (s.events p).children.insertIdx ((s.events p).children.length % 3) c }
  let ev' : Event := { (s.setEvent p ev).events c with
    numParents := ((s.setEvent p ev).events c).numParents + 1 }
  have hev : Similar (s.events p) ev := ⟨rfl, rfl, rfl, rfl⟩
  have hev' : Similar ((s.setEvent p ev).events c) ev' := ⟨rfl, rfl, rfl, rfl⟩
  have hp := hev.setEvent e
  have hc := hev'.setEvent e
  exact ⟨hc.kind.trans hp.kind, hc.state.trans hp.state, hc.start.trans hp.start,
    hc.domain.trans hp.domain⟩

theorem Graph.added (h : Graph G s pending handed) (hp : p < s.numEvents) (hc : c < s.numEvents)
    (hnotDone : (s.events p).state ≠ .EV_DONE) (hnone : (s.events c).state = .EV_NONE) :
    Graph G (added s p c) pending handed := by
  let ev : Event := { s.events p with
    children := (s.events p).children.insertIdx ((s.events p).children.length % 3) c }
  have hcount (e' : Nat) : weight ev e' = weight (s.events p) e' + [c].count e' := by
    have hperm := List.perm_insertIdx c (s.events p).children
      (Nat.mod_le (s.events p).children.length 3)
    rw [weight, weight, if_neg hnotDone, if_neg hnotDone, hperm.count_eq, ← List.singleton_append,
      List.count_append, Nat.add_comm]
  have hfirst : Graph G (s.setEvent p ev) pending (c :: handed) := by
    refine h.update hp (fun c' hc' => ?_) rfl (h.fresh p hp) fun e' => ?_
    · rcases mem_insertIdx_block.mp hc' with rfl | hc'
      · exact hc
      · exact h.child_lt p hp c' hc'
    · have hn : ((s.setEvent p ev).events e').numParents = (s.events e').numParents := by
        by_cases hee : e' = p <;> simp [hee, ev]
      rw [hn, hcount, ← List.singleton_append, List.count_append]
      omega
  have hstate : ((s.setEvent p ev).events c).state = .EV_NONE := by
    by_cases hcp : c = p
    · simpa [hcp, ev] using hcp ▸ hnone
    · simpa [hcp] using hnone
  refine hfirst.setEvent hc rfl rfl Iff.rfl (fun _ => hstate) ?_ fun e' hee => ?_
  · rw [List.count_cons_self]
    change ((s.setEvent p ev).events c).numParents + 1 + _ + _ = _
    omega
  · rw [List.count_cons_of_ne (Ne.symm hee)]

/-- An event that has not started gets other children. -/
theorem Timely.setChildren {children : List Nat} (h : Timely G s) (hsim : s.inCSim = false)
    (hstart : s.NotStarted p) (hkind : ∀ x, (s.events p).kind ≠ .crossingSrc x)
    (hne : children ≠ [])
    (hbridge : ∀ c ∈ children, s.Ordinary c ∨ (s.events c).domain = (s.events p).domain) :
    Timely G (s.setEvent p { s.events p with children := children }) := by
  have hnotDone : (s.events p).state ≠ .EV_DONE := by
    rcases hstart with hs | hs <;> simp [hs]
  refine h.setEvent ⟨rfl, rfl, rfl, .inr ⟨hsim, hkind, hne, hbridge⟩, hnotDone,
    fun _ _ _ => ⟨rfl, rfl⟩, fun cycle hr => ?_, fun d cycle hr => ?_,
    fun x hx => absurd hx (hkind x), fun _ => .inl hstart, .inr (.inl hstart)⟩
  · exact absurd hr (h.not_released hnotDone cycle)
  · obtain ⟨hlt, hk⟩ := h.known _ hr p rfl
    exact (h.crossing p hlt hk).requeued d cycle hr

theorem Timely.added (h : Timely G s) (hsim : s.inCSim = false) (hp : p < s.numEvents)
    (hstart : s.NotStarted p) (hkind : ∀ x, (s.events p).kind ≠ .crossingSrc x)
    (hnone : (s.events c).state = .EV_NONE) (hkind' : ∀ x, (s.events c).kind ≠ .crossingSrc x)
    (hbridge : s.Ordinary c ∨ (s.events c).domain = (s.events p).domain)
    (hnq : ∀ d cycle, (c, cycle) ∉ (s.domains d).pq)
    (hnr : ∀ d cycle, .requeued c d cycle ∉ s.trace) : Timely G (added s p c) := by
  let ev : Event := { s.events p with
    children := (s.events p).children.insertIdx ((s.events p).children.length % 3) c }
  have hmem : c ∈ ev.children := mem_insertIdx_block.mpr (.inl rfl)
  have hfirst : Timely G (s.setEvent p ev) := by
    refine h.setChildren hsim hstart hkind (List.ne_nil_of_mem hmem) fun c' hc' => ?_
    rcases mem_insertIdx_block.mp hc' with rfl | hc'
    · exact hbridge
    · exact h.bridged p hp c' hc'
  have hstate : ((s.setEvent p ev).events c).state = .EV_NONE := by
    by_cases hcp : c = p
    · simpa [hcp, ev] using hcp ▸ hnone
    · simpa [hcp] using hnone
  have hk : ((s.setEvent p ev).events c).kind = (s.events c).kind := by
    by_cases hcp : c = p <;> simp [hcp, ev]
  have hnotDone' : ((s.setEvent p ev).events c).state ≠ .EV_DONE := by
    rw [hstate]
    decide
  exact hfirst.setEvent ⟨rfl, rfl, rfl, .inl rfl, hnotDone',
    fun d cycle hq => absurd hq (hnq d cycle),
    fun cycle hr => absurd hr (hfirst.not_released hnotDone' cycle),
    fun d cycle hr => absurd hr (hnr d cycle), fun x hx => absurd (hk.symm.trans hx) (hkind' x),
    fun _ => .inl (.inl hstate), .inr (.inl (.inl hstate))⟩

theorem addChild_eq (hstart : s.NotStarted p) (hnone : (s.events c).state = .EV_NONE) :
    s.addChild p c = .ok (added s p c) := if_pos ⟨hstart, hnone⟩

theorem enqueueSynced_spec (hg : Graph G s pending handed) (h : Timely G s)
    (hsim : s.inCSim = false) (he : e < s.numEvents) (hq : Queued s (s.events e).domain e cycle)
    (hle : s.lastLimit ≤ cycle) (hnot : ∀ d cycle', (e, cycle') ∉ (s.domains d).pq) :
    Yields (fun s' => s' = s.push e cycle ∧ Graph G s' pending handed ∧ Timely G s')
      (s.enqueueSynced G e cycle) := by
  have hd := hg.domain_lt e he
  rw [ContentionSim.enqueueSynced, if_pos ⟨hsim, hd, hle⟩]
  split
  · rw [if_pos hq.noParents]
    refine ⟨rfl, hg.congr rfl rfl, h.push hq ?_ hnot⟩
    rw [(h.bound hsim _ hd).1]
    exact hle
  · exact nofun

theorem Timely.setRecorder {evRec : EventRecorder} (h : Timely G s)
    (hstack : ∀ b ∈ evRec.crossingStack, s.inCSim = false ∧ r < G.numCores ∧ StackOk s b) :
    Timely G (s.setRecorder r evRec) where
  queue d y hy := by
    obtain ⟨hle, hq⟩ := h.queue d y hy
    exact ⟨hle, hq.congr (Nat.le_refl _) rfl rfl⟩
  nodup := h.nodup
  crossing x hx hk := (h.crossing x hx hk).congr rfl rfl rfl
  source e he x hk := (h.source e he x hk).congr rfl rfl rfl
  bound := h.bound
  weave := h.weave
  within := h.within
  stack r' b hb := by
    have hold : s.inCSim = false ∧ r' < G.numCores ∧ StackOk s b := by
      by_cases hr : r' = r
      · subst hr
        refine hstack b ?_
        simpa [ContentionSim.setRecorder] using hb
      · refine h.stack r' b ?_
        simpa [ContentionSim.setRecorder, hr] using hb
    obtain ⟨hsim, hr, hok⟩ := hold
    exact ⟨hsim, hr, hok.congr (Nat.le_refl _) rfl rfl⟩
  last key hbar := by
    obtain ⟨x, hx, hok⟩ := h.last key hbar
    exact ⟨x, hx, hok.congr (Nat.le_refl _) rfl⟩
  ran := h.ran
  known := h.known
  orderly := h.orderly
  bridged := h.bridged

/-- The crossing `x` is the last one that goes from the source `key` on. -/
theorem Timely.setLast {key : Nat × Nat × Nat} (h : Timely G s)
    (hlast : bar s < cycle → LastOk s key.2.2 cycle x) :
    Timely G { s with lastCrossing := Function.update s.lastCrossing key ⟨cycle, some x⟩ } where
  queue d y hy := by
    obtain ⟨hle, hq⟩ := h.queue d y hy
    exact ⟨hle, hq.congr (Nat.le_refl _) rfl rfl⟩
  nodup := h.nodup
  crossing x hx hk := (h.crossing x hx hk).congr rfl rfl rfl
  source e he x hk := (h.source e he x hk).congr rfl rfl rfl
  bound := h.bound
  weave := h.weave
  within := h.within
  stack r b hb := by
    obtain ⟨hsim, hr, hok⟩ := h.stack r b hb
    exact ⟨hsim, hr, hok.congr (Nat.le_refl _) rfl rfl⟩
  last key' hbar := by
    by_cases hkey : key' = key
    · subst hkey
      simp only [Function.update_self] at hbar ⊢
      have hok := hlast hbar
      exact ⟨x, rfl, hok.congr (Nat.le_refl _) rfl⟩
    · simp only [Function.update_of_ne hkey] at hbar ⊢
      obtain ⟨x', hx', hok⟩ := h.last key' hbar
      exact ⟨x', hx', hok.congr (Nat.le_refl _) rfl⟩
  ran := h.ran
  known := h.known
  orderly := h.orderly
  bridged := h.bridged

/-- A crossing that has just been built, with its child. -/
structure New (s : ContentionSim) (x minStartCycle : Nat) : Prop where
  lt : x < s.numEvents
  kind : (s.events x).kind = .crossing
  state : (s.events x).state = .EV_NONE
  noParents : (s.events x).numParents = 0
  start : (s.events x).minStartCycle = some minStartCycle
  notQueued : ∀ d cycle, (x, cycle) ∉ (s.domains d).pq
  notRequeued : ∀ d cycle, .requeued x d cycle ∉ s.trace

/-- What queueing or chaining a crossing of the domain `d` leaves alone. -/
structure Beside (s s' : ContentionSim) (d : Nat) : Prop where
  numEvents : s'.numEvents = s.numEvents
  inCSim : s'.inCSim = s.inCSim
  events : ∀ e, (s.events e).domain ≠ d → s'.events e = s.events e
  domain : ∀ e, (s'.events e).domain = (s.events e).domain

theorem Beside.added (hp : (s.events p).domain = d) (hc : (s.events c).domain = d) :
    Beside s (added s p c) d where
  numEvents := rfl
  inCSim := rfl
  events _ hd := added_events (fun he => hd (he ▸ hp)) fun he => hd (he ▸ hc)
  domain e := (added_similar e).domain

/-- A new crossing becomes a child of an event of its domain that has not started. -/
theorem chain_spec {m : Nat} (hg : Graph G s pending handed) (h : Timely G s)
    (hsim : s.inCSim = false) (hx : New s x m) (hp : p < s.numEvents) (hstart : s.NotStarted p)
    (hkind : ∀ x, (s.events p).kind ≠ .crossingSrc x)
    (hdomain : (s.events p).domain = (s.events x).domain) :
    Yields (fun s' => Graph G s' pending handed ∧ Timely G s' ∧
      Beside s s' (s.events x).domain ∧ s' = added s p x) (s.addChild p x) := by
  have hnotDone : (s.events p).state ≠ .EV_DONE := by
    rcases hstart with hs | hs <;> simp [hs]
  rw [addChild_eq hstart hx.state]
  refine ⟨hg.added hp hx.lt hnotDone hx.state, ?_, .added hdomain rfl, rfl⟩
  exact h.added hsim hp hstart hkind hx.state (by simp [hx.kind]) (.inr hdomain.symm) hx.notQueued
    hx.notRequeued

/-- The new crossing is the last one on its way, if it is not queued for what is over. -/
theorem New.last {m : Nat} (hx : New s x m) (hsim : s.inCSim = false)
    (hbar : bar s < max s.lastLimit m) : LastOk s (s.events x).domain (max s.lastLimit m) x := by
  have hlast : bar s = s.lastLimit := if_neg (by simp [hsim])
  exact ⟨hx.lt, hx.kind, rfl, .inl hx.state, m, hx.start, by omega⟩

theorem LastOk.added (h : LastOk s d cycle x) : LastOk (added s p c) d cycle x := by
  have hsim : Similar (s.events x) ((Crossings.added s p c).events x) := added_similar x
  refine ⟨h.lt, hsim.kind.trans h.kind, hsim.domain.trans h.domain, ?_, ?_⟩
  · rw [ContentionSim.NotStarted, hsim.state]
    exact h.notStarted
  · rw [hsim.start]
    exact h.start

theorem chainCrossing_spec {m srcId srcDomain : Nat} (hg : Graph G s pending handed)
    (h : Timely G s) (hsim : s.inCSim = false) (hx : New s x m) (hsrc : srcDomain < G.numDomains) :
    Yields (fun s' => Graph G s' pending handed ∧ Timely G s' ∧ Beside s s' (s.events x).domain)
      (s.chainCrossing G x (max s.lastLimit m) srcId srcDomain (s.events x).domain) := by
  have hcur := (h.bound hsim srcDomain hsrc).1
  have hbar : bar s = s.lastLimit := if_neg (by simp [hsim])
  rw [ContentionSim.chainCrossing]
  refine Yields.map (Q := fun s' => Graph G s' pending handed ∧ Timely G s' ∧
    Beside s s' (s.events x).domain ∧ (bar s' < max s.lastLimit m →
      LastOk s' (s.events x).domain (max s.lastLimit m) x)) ?_ fun s' hs' => ?_
  · split
    · next hlast =>
      obtain ⟨y, hy, hok⟩ := h.last (srcId, srcDomain, (s.events x).domain)
        (by rw [hbar, ← hcur]; exact hlast.1)
      rw [hy]
      refine (chain_spec hg h hsim hx hok.lt hok.notStarted (by simp [hok.kind]) hok.domain).mono
        fun s' hs' => ?_
      obtain ⟨hg', ht', hbeside, rfl⟩ := hs'
      exact ⟨hg', ht', hbeside, fun hlt => (hx.last hsim hlt).added⟩
    · rw [if_pos (hcur.le.trans (Nat.le_max_left ..))]
      have hq : Queued s (s.events x).domain x (max s.lastLimit m) :=
        ⟨hx.lt, rfl, hx.noParents, .inr ⟨.inl hx.state, hx.kind⟩,
          fun _ => ⟨m, hx.start, Nat.le_max_right ..⟩,
          fun d cycle hr => absurd hr (hx.notRequeued d cycle)⟩
      refine (enqueueSynced_spec hg h hsim hx.lt hq (Nat.le_max_left ..) hx.notQueued).mono
        fun s' hs' => ?_
      obtain ⟨rfl, hg', ht'⟩ := hs'
      refine ⟨hg', ht', ⟨rfl, rfl, fun _ _ => rfl, fun _ => rfl⟩, fun hlt => ?_⟩
      exact (hx.last hsim hlt).congr (Nat.le_refl _) rfl
  · obtain ⟨hg', ht', hbeside, hlast⟩ := hs'
    refine ⟨hg'.congr rfl rfl, ht'.setLast hlast, ?_⟩
    exact ⟨hbeside.numEvents, hbeside.inCSim, hbeside.events, hbeside.domain⟩

theorem New.setRecorder {m : Nat} {evRec : EventRecorder} (hx : New s x m) :
    New (s.setRecorder r evRec) x m :=
  ⟨hx.lt, hx.kind, hx.state, hx.noParents, hx.start, hx.notQueued, hx.notRequeued⟩

theorem enqueueCrossing_spec {m : Nat} (hg : Graph G s pending handed) (h : Timely G s)
    (hsim : s.inCSim = false) (hx : New s x m) (hr : r < G.numCores) (hstack : StackOk s x)
    (hsrc : (s.crossings x).srcDomain < G.numDomains) :
    Yields (fun s' => Graph G s' pending handed ∧ Timely G s' ∧ Beside s s' (s.events x).domain)
      (s.enqueueCrossing G x (max s.lastLimit m) r (s.crossings x).srcDomain
        (s.events x).domain) := by
  rw [ContentionSim.enqueueCrossing]
  split
  · next b hb =>
    obtain ⟨hhead, hcond⟩ := Option.filter_eq_some_iff.mp hb
    obtain ⟨hback, -⟩ := of_decide_eq_true hcond
    obtain ⟨-, -, hok⟩ := h.stack r b (List.mem_of_head? hhead)
    let evRec : EventRecorder := { s.recorders r with
      crossingStack := (s.recorders r).crossingStack.tail }
    have hpop : Timely G (s.setRecorder r evRec) :=
      h.setRecorder fun b' hb' => h.stack r b' (List.mem_of_mem_tail hb')
    have hkind (x' : Nat) :
        ((s.setRecorder r evRec).events (s.crossings b).parentEv).kind ≠ .crossingSrc x' := by
      have hk : (s.events (s.crossings b).parentEv).kind ≠ .crossingSrc x' := by
        rcases hok.ordinary.2 with hk | hk <;> simp [hk]
      exact hk
    have hg' : Graph G (s.setRecorder r evRec) pending handed := hg.congr rfl rfl
    refine (chain_spec hg' hpop hsim hx.setRecorder hok.ordinary.1 hok.notStarted
      hkind (hok.domain.trans hback)).mono fun s' hs' => ?_
    obtain ⟨hg', ht', hbeside, -⟩ := hs'
    exact ⟨hg', ht', hbeside.numEvents, hbeside.inCSim, hbeside.events, hbeside.domain⟩
  · let evRec : EventRecorder := { s.recorders r with
      crossingStack := x :: (s.recorders r).crossingStack }
    have hpush : Timely G (s.setRecorder r evRec) := by
      refine h.setRecorder fun b hb => ?_
      rcases List.mem_cons.mp hb with rfl | hb
      · exact ⟨hsim, hr, hstack⟩
      · exact h.stack r b hb
    have hg' : Graph G (s.setRecorder r evRec) pending handed := hg.congr rfl rfl
    refine (chainCrossing_spec hg' hpush hsim hx.setRecorder hsrc).mono
      fun s' hs' => ?_
    obtain ⟨hg', ht', hbeside⟩ := hs'
    exact ⟨hg', ht', hbeside.numEvents, hbeside.inCSim, hbeside.events, hbeside.domain⟩

theorem ordinary_ne_crossing (h : s.Ordinary e) : (s.events e).kind ≠ .crossing := by
  rcases h.2 with hk | hk <;> simp [hk]

theorem ordinary_ne_crossingSrc (h : s.Ordinary e) (x : Nat) :
    (s.events e).kind ≠ .crossingSrc x := by
  rcases h.2 with hk | hk <;> simp [hk]

/-- An event of a core, cache or memory is in the queue only if its state says so. -/
theorem Timely.ordinary_not_queued (h : Timely G s) (he : s.Ordinary e)
    (hnone : (s.events e).state = .EV_NONE) (d cycle : Nat) : (e, cycle) ∉ (s.domains d).pq := by
  intro hmem
  rcases (h.queue d _ hmem).2.state with ⟨hs, -⟩ | ⟨-, hk⟩
  · exact absurd (hnone.symm.trans hs) (by decide)
  · exact ordinary_ne_crossing he hk

theorem Timely.ordinary_not_requeued (h : Timely G s) (he : s.Ordinary e) (d cycle : Nat) :
    .requeued e d cycle ∉ s.trace :=
  fun hr => ordinary_ne_crossing he (h.known _ hr e rfl).2

/-- The crossing and its placeholder are allocated. -/
def allocCrossing (s : ContentionSim) (ce : CrossingEvent) (minStartCycle domain : Nat) :
    ContentionSim :=
  alloc (alloc (s.setCrossing s.numEvents ce)
    (.new .crossing .EV_NONE (some minStartCycle) domain 0 0))
      { Event.new (.crossingSrc s.numEvents) .EV_NONE none ce.srcDomain 0 0 with numParents := 1 }

section AllocCrossing

variable {ce : CrossingEvent} {m : Nat}

theorem allocCrossing_lt (he : e < s.numEvents) :
    (allocCrossing s ce m d).events e = s.events e :=
  (alloc_events_lt (Nat.lt_succ_of_lt he)).trans (alloc_events_lt he)

theorem allocCrossing_self :
    (allocCrossing s ce m d).events s.numEvents = .new .crossing .EV_NONE (some m) d 0 0 :=
  (alloc_events_lt (Nat.lt_succ_self _)).trans alloc_events_self

theorem allocCrossing_source :
    (allocCrossing s ce m d).events (s.numEvents + 1) =
      { Event.new (.crossingSrc s.numEvents) .EV_NONE none ce.srcDomain 0 0 with
        numParents := 1 } :=
  alloc_events_self

theorem allocCrossing_spec (hg : Graph G s [] [c]) (h : Timely G s) (hsim : s.inCSim = false)
    (hc : c < s.numEvents) (hd : d < G.numDomains) (hsrc : ce.srcDomain < G.numDomains)
    (hcalled : ce.called = false) :
    Graph G (allocCrossing s ce m d) [s.numEvents + 1] [c] ∧
      Timely G (allocCrossing s ce m d) := by
  let x := s.numEvents
  let evx : Event := .new .crossing .EV_NONE (some m) d 0 0
  let s₁ := alloc (s.setCrossing x ce) evx
  have hevx : s₁.events x = evx := alloc_events_self
  have hce : s₁.crossings x = ce := Function.update_self ..
  have hg₀ : Graph G (s.setCrossing x ce) [] [c] := hg.congr rfl rfl
  have hg₁ : Graph G s₁ [] [c] := by
    refine hg₀.alloc rfl hd rfl ?_ fun _ _ => rfl
    have hne : x ≠ c := Nat.ne_of_gt hc
    have hzero : [c].count x = 0 := List.count_eq_zero.mpr (by simpa using hne)
    exact (Nat.zero_add _).trans hzero
  have ht₁ : Timely G s₁ :=
    (h.setFresh (Nat.le_refl _) ce).alloc hg₀ hsim rfl
      (fun _ => ⟨rfl, (congrArg CrossingEvent.called hce).trans hcalled⟩) nofun
  constructor
  · refine hg₁.alloc rfl hsrc rfl ?_ fun e he => ?_
    · have hne : x + 1 ≠ c := Nat.ne_of_gt (Nat.lt_succ_of_lt hc)
      change 1 + [c].count (x + 1) = [x + 1].count (x + 1)
      rw [List.count_singleton_self, List.count_eq_zero.mpr (by simpa using hne)]
    · have hne : e ≠ x + 1 := Nat.ne_of_lt he
      exact List.count_eq_zero.mpr (by simpa using hne)
  · refine ht₁.alloc hg₁ hsim rfl nofun fun x' hx' => ?_
    have hxx : x = x' := Kind.crossingSrc.inj hx'
    subst hxx
    rw [hce, hevx]
    exact ⟨rfl, rfl, rfl, hcalled, rfl⟩

/-- The crossing that has been allocated, once it has its child. -/
theorem New.child (h : Timely G s) (hc : c < s.numEvents) :
    New (Crossings.added (allocCrossing s ce m d) s.numEvents c) s.numEvents m := by
  have hsim : Similar ((allocCrossing s ce m d).events s.numEvents)
    ((Crossings.added (allocCrossing s ce m d) s.numEvents c).events s.numEvents) :=
      added_similar s.numEvents
  rw [allocCrossing_self] at hsim
  refine ⟨Nat.lt_succ_of_lt (Nat.lt_succ_self _), hsim.kind, hsim.state, ?_, hsim.start,
    fun d cycle hq => ?_, fun d cycle hr => ?_⟩
  · simp [Crossings.added, Nat.ne_of_gt hc, allocCrossing_self, Event.new]
  · exact absurd (h.queue d _ hq).2.lt (Nat.lt_irrefl _)
  · exact absurd (h.known _ hr s.numEvents rfl).1 (Nat.lt_irrefl _)

/-- The crossing that has been allocated is a request whose parent may get children. -/
theorem StackOk.child (hp : s.Ordinary p) (hps : s.NotStarted p)
    (hchildren : (s.events p).children ≠ []) (hpc : p ≠ c) (hparent : ce.parentEv = p)
    (hsrc : ce.srcDomain = (s.events p).domain) :
    StackOk (Crossings.added (allocCrossing s ce m d) s.numEvents c) s.numEvents := by
  have hev : (Crossings.added (allocCrossing s ce m d) s.numEvents c).events p = s.events p :=
    (added_events (Nat.ne_of_lt hp.1) hpc).trans (allocCrossing_lt hp.1)
  have hce : (Crossings.added (allocCrossing s ce m d) s.numEvents c).crossings s.numEvents = ce :=
    Function.update_self ..
  constructor
  · exact Nat.lt_succ_of_lt (Nat.lt_succ_self _)
  · rw [hce, hparent, hev]
    exact hchildren
  · rw [hce, hparent, ContentionSim.Ordinary, hev]
    exact ⟨Nat.lt_succ_of_lt (Nat.lt_succ_of_lt hp.1), hp.2⟩
  · rw [hce, hparent, ContentionSim.NotStarted, hev]
    exact hps
  · rw [hce, hparent, hev, hsrc]

end AllocCrossing

/-- The constructor of a crossing: it waits in its domain, or behind another event there. -/
theorem newCrossing_spec {m : Nat} (hg : Graph G s [] [c]) (h : Timely G s)
    (hsim : s.inCSim = false) (hp : s.Ordinary p) (hps : s.NotStarted p)
    (hchildren : (s.events p).children ≠ []) (hc : s.Ordinary c)
    (hcs : (s.events c).state = .EV_NONE) (hdom : (s.events p).domain ≠ (s.events c).domain)
    (hr : r < G.numCores) :
    Yields (fun s' => Graph G s' [s.numEvents + 1] [c] ∧ Timely G s' ∧ s'.inCSim = false ∧
        s'.numEvents = s.numEvents + 2 ∧ s'.events p = s.events p ∧
        (s'.events (s.numEvents + 1)).domain = (s.events p).domain)
      (s.newCrossing G p c m r) := by
  let x := s.numEvents
  let m' := if (s.events p).postDelay = 0 then m + 1 else m
  let ce : CrossingEvent := ⟨(s.events p).domain, false, 0, 0, r,
    (m' + (2 ^ 64 - (s.recorders r).lastGapCycles % 2 ^ 64)) % 2 ^ 64, p,
    if (s.events p).postDelay = 0 then 1 else (s.events p).postDelay, (s.events c).preDelay⟩
  let s₁ := allocCrossing s ce m' (s.events c).domain
  have hevx : s₁.events x = .new .crossing .EV_NONE (some m') (s.events c).domain 0 0 :=
    allocCrossing_self
  obtain ⟨hg₁, ht₁⟩ : Graph G s₁ [x + 1] [c] ∧ Timely G s₁ :=
    allocCrossing_spec hg h hsim hc.1 (hg.domain_lt c hc.1) (hg.domain_lt p hp.1) rfl
  -- its child is added
  have hpc : p ≠ c := fun he => hdom (he ▸ rfl)
  have hx : s₁.NotStarted x := .inl (by rw [hevx]; rfl)
  have hc₁ : s₁.Ordinary c := alloc_ordinary (alloc_ordinary hc)
  have hcs₁ : (s₁.events c).state = .EV_NONE := by
    rw [allocCrossing_lt hc.1]
    exact hcs
  have hxlt : x < s₁.numEvents := Nat.lt_succ_of_lt (Nat.lt_succ_self _)
  have hg₂ : Graph G (added s₁ x c) [x + 1] [c] := hg₁.added hxlt hc₁.1 (by rw [hevx]; nofun) hcs₁
  have ht₂ : Timely G (added s₁ x c) :=
    ht₁.added hsim hxlt hx (fun x' => by rw [hevx]; nofun) hcs₁ (ordinary_ne_crossingSrc hc₁)
      (.inl hc₁) (h.ordinary_not_queued hc hcs) (h.ordinary_not_requeued hc)
  have hp₂ : (added s₁ x c).events p = s.events p :=
    (added_events (Nat.ne_of_lt hp.1) hpc).trans (allocCrossing_lt hp.1)
  have hd₂ : ((added s₁ x c).events x).domain = (s.events c).domain := by
    rw [(added_similar x).domain, hevx]
    rfl
  -- it is queued or chained
  have hce : (added s₁ x c).crossings x = ce := Function.update_self ..
  have hsrc : ((added s₁ x c).crossings x).srcDomain = (s.events p).domain := by rw [hce]
  have hspec := enqueueCrossing_spec hg₂ ht₂ hsim (New.child h hc.1) hr
    (.child hp hps hchildren hpc rfl rfl) (hsrc ▸ hg.domain_lt p hp.1)
  rw [hsrc, hd₂] at hspec
  change Yields _ ((s₁.addChild x c).bind fun s' =>
    s'.enqueueCrossing G x (max s'.lastLimit m') r (s.events p).domain (s.events c).domain)
  rw [addChild_eq hx hcs₁]
  refine Yields.mono hspec fun s' hs' => ?_
  obtain ⟨hg', ht', hbeside⟩ := hs'
  refine ⟨hg', ht', hbeside.inCSim.trans hsim, hbeside.numEvents, ?_, ?_⟩
  · rw [hbeside.events p (by rw [hp₂]; exact hdom), hp₂]
  · rw [hbeside.domain, (added_similar (x + 1)).domain, allocCrossing_source]
    rfl

theorem Graph.waits (h : Graph G s [] []) (hp : p < s.numEvents)
    (hnotDone : (s.events p).state ≠ .EV_DONE) (hc : c ∈ (s.events p).children) :
    (s.events c).numParents ≠ 0 := by
  have hcount := h.counts c (h.child_lt p hp c hc)
  have hle : weight (s.events p) c ≤ parents s c :=
    single_le_sum (f := fun p => weight (s.events p) c) (fun _ _ => Nat.zero_le _)
      (mem_range.mpr hp)
  have hpos : 0 < weight (s.events p) c := by
    rw [weight, if_neg hnotDone]
    exact List.count_pos_iff.mpr hc
  simp only [List.count_nil] at hcount
  omega

theorem count_set_add {children : List Nat} {i b : Nat} (h : children[i]? = some c) :
    (children.set i x).count b + [c].count b = children.count b + [x].count b := by
  induction children generalizing i with
  | nil => cases h
  | cons y children ih =>
    cases i with
    | zero =>
      cases h
      simp only [List.set_cons_zero, List.count_cons, List.count_nil]
      omega
    | succ i =>
      have hrest := ih h
      simp only [List.set_cons_succ, List.count_cons, List.count_nil] at hrest ⊢
      omega

/-- A child is counted down that is to be the child of a crossing. -/
theorem handOver_spec (h : Inv G s []) (hc : s.Ordinary c) (hne : (s.events c).numParents ≠ 0)
    (hev : ev = { s.events c with numParents := (s.events c).numParents - 1 }) :
    Graph G (s.setEvent c ev) [] [c] ∧ Timely G (s.setEvent c ev) := by
  subst hev
  have hcs := h.graph.fresh c hc.1 hne
  have hnotDone : (s.events c).state ≠ .EV_DONE := by simp [hcs]
  constructor
  · refine h.graph.setEvent hc.1 rfl rfl Iff.rfl (fun _ => hcs) ?_ fun e' hee => ?_
    · rw [List.count_singleton_self, List.count_nil]
      change (s.events c).numParents - 1 + 1 + 0 = _
      omega
    · rw [List.count_eq_zero.mpr (by simpa using hee), List.count_nil]
  · exact h.timely.setEvent ⟨rfl, rfl, rfl, .inl rfl, hnotDone,
      fun d cycle hq => absurd hq (h.timely.not_queued (.inl hne) d cycle),
      fun cycle hr => absurd hr (h.timely.not_released hnotDone cycle),
      fun d cycle hr => absurd hr (h.timely.not_requeued hne d cycle),
      fun x hx => absurd hx (ordinary_ne_crossingSrc hc x), fun _ => .inl (.inl hcs),
      .inr (.inl (.inl hcs))⟩

/-- The placeholder `x` takes the place of the child that was handed over. -/
theorem replaceChild_spec {i : Nat} (hg : Graph G s [x] [c]) (h : Timely G s)
    (hsim : s.inCSim = false) (hp : s.Ordinary p) (hps : s.NotStarted p)
    (hc : (s.events p).children[i]? = some c) (hx : x < s.numEvents)
    (hdom : (s.events x).domain = (s.events p).domain) :
    Inv G (s.setEvent p { s.events p with children := (s.events p).children.set i x }) [] where
  graph := by
    have hnotDone : (s.events p).state ≠ .EV_DONE := by
      rcases hps with hs | hs <;> simp [hs]
    refine hg.update hp.1 (fun c' hc' => ?_) rfl (hg.fresh p hp.1) fun e' => ?_
    · rcases List.mem_or_eq_of_mem_set hc' with hc' | rfl
      · exact hg.child_lt p hp.1 c' hc'
      · exact hx
    · let ev : Event := { s.events p with children := (s.events p).children.set i x }
      have hn : ((s.setEvent p ev).events e').numParents = (s.events e').numParents := by
        by_cases hee : e' = p <;> simp [hee, ev]
      have hold : weight (s.events p) e' = (s.events p).children.count e' := if_neg hnotDone
      have hnew : weight ev e' = ((s.events p).children.set i x).count e' := if_neg hnotDone
      have hcount : ((s.events p).children.set i x).count e' + [c].count e' =
        (s.events p).children.count e' + [x].count e' := count_set_add hc
      rw [hn, hold, hnew, List.count_nil]
      omega
  timely := by
    refine h.setChildren hsim hps (ordinary_ne_crossingSrc hp) ?_ fun c' hc' => ?_
    · refine List.ne_nil_of_length_pos ?_
      rw [List.length_set]
      exact List.length_pos_of_mem (List.mem_of_getElem? hc)
    · rcases List.mem_or_eq_of_mem_set hc' with hc' | rfl
      · exact h.bridged p hp.1 c' hc'
      · exact .inr hdom

theorem handleCrossing_spec {i m : Nat} (h : Inv G s []) (hsim : s.inCSim = false)
    (hr : r < G.numCores) (hp : s.Ordinary p) (hps : s.NotStarted p)
    (hc : (s.events p).children[i]? = some c)
    (hdom : (s.events c).domain ≠ (s.events p).domain) :
    Yields (fun s' => Inv G s' []) (s.handleCrossing G r p i c m) := by
  have hmem : c ∈ (s.events p).children := List.mem_of_getElem? hc
  have hnotDone : (s.events p).state ≠ .EV_DONE := by
    rcases hps with hs | hs <;> simp [hs]
  have hne := h.graph.waits hp.1 hnotDone hmem
  have hcs := h.graph.fresh c (h.graph.child_lt p hp.1 c hmem) hne
  have hco : s.Ordinary c := (h.timely.bridged p hp.1 c hmem).resolve_right hdom
  have hpc : p ≠ c := fun he => hdom (he ▸ rfl)
  let ev : Event := { s.events c with numParents := (s.events c).numParents - 1 }
  let s₁ := s.setEvent c ev
  have hp₁ : s₁.events p = s.events p := by simp [s₁, hpc]
  have hc₁ : s₁.events c = ev := by simp [s₁]
  obtain ⟨hg₁, ht₁⟩ : Graph G s₁ [] [c] ∧ Timely G s₁ := handOver_spec h hco hne rfl
  have hpo : s₁.Ordinary p := by
    rw [ContentionSim.Ordinary, hp₁]
    exact hp
  have hps₁ : s₁.NotStarted p := by
    rw [ContentionSim.NotStarted, hp₁]
    exact hps
  have hco₁ : s₁.Ordinary c := by
    rw [ContentionSim.Ordinary, hc₁]
    exact hco
  have hspec := newCrossing_spec (m := m + (s.events p).postDelay) hg₁ ht₁ hsim hpo hps₁
    (by rw [hp₁]; exact List.ne_nil_of_mem hmem) hco₁ (by rw [hc₁]; exact hcs)
    (by rw [hp₁, hc₁]; exact Ne.symm hdom) hr
  rw [ContentionSim.handleCrossing, if_neg hne]
  refine hspec.map fun s' hs' => ?_
  obtain ⟨hg', ht', hsim', hnum, hp', hsrc⟩ := hs'
  rw [hp₁] at hp' hsrc
  refine replaceChild_spec hg' ht' hsim' ⟨?_, ?_⟩ ?_ ?_ ?_ ?_
  · exact hnum ▸ Nat.lt_succ_of_lt (Nat.lt_succ_of_lt hp.1)
  · rw [hp']
    exact hp.2
  · rw [ContentionSim.NotStarted, hp']
    exact hps
  · rw [hp']
    exact hc
  · exact hnum ▸ Nat.lt_succ_self _
  · rw [hp']
    exact hsrc

end Crossings

end ZSim
