import ZSim.CrossingInvariant
import Mathlib.Algebra.Order.BigOperators.Group.Finset

/-! What `done` does in a turn: it delivers to the children of the event, in its own domain. -/

namespace ZSim

namespace Crossings

open Finset

variable {G : Config} {s s' s'' : ContentionSim} {e x d cycle : Nat} {ev : Event}
variable {pending pending' handed handed' : List Nat}

theorem parents_setEvent (ev : Event) (he : e < s.numEvents) (e' : Nat) :
    parents (s.setEvent e ev) e' + weight (s.events e) e' = parents s e' + weight ev e' :=
  sum_update he (fun ev => weight ev e') s.events ev

/-- A new record for the event `e`, whose new children are what the counts account for. -/
theorem Graph.update (h : Graph G s pending handed) (he : e < s.numEvents)
    (hchildren : ∀ c ∈ ev.children, c < s.numEvents) (hdomain : ev.domain = (s.events e).domain)
    (hfresh : ev.numParents ≠ 0 → ev.state = .EV_NONE)
    (hcount : ∀ e', ((s.setEvent e ev).events e').numParents + handed'.count e' +
      weight (s.events e) e' + pending.count e' =
        (s.events e').numParents + handed.count e' + weight ev e' + pending'.count e') :
    Graph G (s.setEvent e ev) pending' handed' where
  child_lt p hp c hc := by
    by_cases hpe : p = e
    · exact hchildren c (by simpa [hpe] using hc)
    · exact h.child_lt p hp c (by simpa [hpe] using hc)
  counts e' he' := by
    have hold := h.counts e' he'
    have hnew := hcount e'
    have hsum := parents_setEvent ev he e'
    omega
  fresh e' he' hne := by
    by_cases hee : e' = e
    · simp only [hee, setEvent_events, if_true] at hne ⊢
      exact hfresh hne
    · simp only [hee, setEvent_events, if_false] at hne ⊢
      exact h.fresh e' he' hne
  domain_lt e' he' := by
    by_cases hee : e' = e
    · simpa [hee, hdomain] using h.domain_lt e he
    · simpa [hee] using h.domain_lt e' he'

/-- A new record with the children that the event had, as far as they wait for it. -/
theorem Graph.setEvent (h : Graph G s pending handed) (he : e < s.numEvents)
    (hchildren : ev.children = (s.events e).children) (hdomain : ev.domain = (s.events e).domain)
    (hdone : ev.state = .EV_DONE ↔ (s.events e).state = .EV_DONE)
    (hfresh : ev.numParents ≠ 0 → ev.state = .EV_NONE)
    (hcount : ev.numParents + handed'.count e + pending.count e =
      (s.events e).numParents + handed.count e + pending'.count e)
    (hother : ∀ e' ≠ e, handed'.count e' + pending.count e' =
      handed.count e' + pending'.count e') :
    Graph G (s.setEvent e ev) pending' handed' := by
  refine h.update he (fun c hc => h.child_lt e he c (hchildren ▸ hc)) hdomain hfresh fun e' => ?_
  have hw : weight (s.events e) e' = weight ev e' := by
    rw [weight, weight, hchildren]
    by_cases hs : (s.events e).state = .EV_DONE
    · rw [if_pos hs, if_pos (hdone.mpr hs)]
    · rw [if_neg hs, if_neg fun hd => hs (hdone.mp hd)]
  by_cases hee : e' = e
  · subst hee
    simp only [setEvent_events, if_true]
    omega
  · have hsame := hother e' hee
    simp only [hee, setEvent_events, if_false]
    omega

/-- An event is done, and its children are to be told. -/
theorem Graph.setDone (h : Graph G s pending handed) (he : e < s.numEvents)
    (hrunning : (s.events e).state = .EV_RUNNING) :
    Graph G (s.setEvent e { s.events e with state := .EV_DONE })
      ((s.events e).children ++ pending) handed := by
  have hzero : (s.events e).numParents = 0 := by
    by_contra hne
    rw [h.fresh e he hne] at hrunning
    cases hrunning
  refine h.update he (h.child_lt e he) rfl (absurd hzero) fun e' => ?_
  have hw : weight (s.events e) e' = (s.events e).children.count e' := by
    rw [weight, if_neg (by rw [hrunning]; decide)]
  have hz : weight { s.events e with state := .EV_DONE } e' = 0 := if_pos rfl
  have hn : ((s.setEvent e { s.events e with state := .EV_DONE }).events e').numParents =
      (s.events e').numParents := by
    by_cases hee : e' = e <;> simp [hee]
  rw [hn, List.count_append]
  omega

/-- How many events are still to be done. -/
def notDone (s : ContentionSim) : Nat :=
  ∑ p ∈ range s.numEvents, if (s.events p).state = .EV_DONE then 0 else 1

theorem notDone_le (s : ContentionSim) : notDone s ≤ s.numEvents := by
  have hle := sum_le_card_nsmul (range s.numEvents)
    (fun p => if (s.events p).state = .EV_DONE then 0 else 1) 1 fun p _ => by split <;> omega
  simpa [notDone] using hle

theorem notDone_setEvent (ev : Event) (he : e < s.numEvents) :
    notDone (s.setEvent e ev) + (if (s.events e).state = .EV_DONE then 0 else 1) =
      notDone s + if ev.state = .EV_DONE then 0 else 1 :=
  sum_update he (fun ev : Event => if ev.state = .EV_DONE then 0 else 1) s.events ev

/-- What the delivery in one domain leaves alone. -/
structure Frame (s s' : ContentionSim) : Prop where
  numEvents : s'.numEvents = s.numEvents
  inCSim : s'.inCSim = s.inCSim
  curCycle : ∀ d, (s'.domains d).curCycle = (s.domains d).curCycle
  domain : ∀ e, (s'.events e).domain = (s.events e).domain
  notDone_le : notDone s' ≤ notDone s

theorem Frame.refl (s : ContentionSim) : Frame s s :=
  ⟨rfl, rfl, fun _ => rfl, fun _ => rfl, Nat.le_refl _⟩

theorem Frame.trans (h : Frame s s') (h' : Frame s' s'') : Frame s s'' where
  numEvents := h'.numEvents.trans h.numEvents
  inCSim := h'.inCSim.trans h.inCSim
  curCycle d := (h'.curCycle d).trans (h.curCycle d)
  domain e := (h'.domain e).trans (h.domain e)
  notDone_le := h'.notDone_le.trans h.notDone_le

theorem Frame.setEvent (he : e < s.numEvents) (hdomain : ev.domain = (s.events e).domain)
    (hdone : ev.state ≠ .EV_DONE → (s.events e).state ≠ .EV_DONE) : Frame s (s.setEvent e ev) where
  numEvents := rfl
  inCSim := rfl
  curCycle _ := rfl
  domain e' := by by_cases hee : e' = e <;> simp [hee, hdomain]
  notDone_le := by
    have hsum := notDone_setEvent ev he
    by_cases hd : ev.state = .EV_DONE
    · rw [if_pos hd] at hsum
      omega
    · rw [if_neg hd, if_neg (hdone hd)] at hsum
      omega

theorem Frame.push (cycle : Nat) : Frame s (s.push e cycle) where
  numEvents := rfl
  inCSim := rfl
  curCycle d := by
    simp only [ContentionSim.push, setDomain_domains]
    split
    · next hd => rw [hd]
    · rfl
  domain _ := rfl
  notDone_le := Nat.le_refl _

theorem Timely.not_released (h : Timely G s) (hs : (s.events e).state ≠ .EV_DONE) (cycle : Nat) :
    .released e cycle ∉ s.trace := by
  intro hr
  obtain ⟨hlt, hk⟩ := h.known _ hr e rfl
  exact hs ((h.crossing e hlt hk).released cycle hr)

theorem Timely.not_requeued (h : Timely G s) (hn : (s.events e).numParents ≠ 0) (d cycle : Nat) :
    .requeued e d cycle ∉ s.trace := by
  intro hr
  obtain ⟨hlt, hk⟩ := h.known _ hr e rfl
  exact hn ((h.crossing e hlt hk).requeued d cycle hr)

theorem Timely.not_queued (h : Timely G s)
    (hne : (s.events e).numParents ≠ 0 ∨ (s.events e).state = .EV_RUNNING) (d cycle : Nat) :
    (e, cycle) ∉ (s.domains d).pq := by
  intro hmem
  obtain ⟨-, hq⟩ := h.queue d _ hmem
  rcases hne with hn | hr
  · exact hn hq.noParents
  · have hq' := hq.state
    simp [ContentionSim.NotStarted, hr] at hq'

/-- An event whose `parentDone` is called has not started. -/
theorem Graph.waiting (h : Graph G s (e :: pending) []) (he : e < s.numEvents) :
    (s.events e).numParents ≠ 0 ∧ (s.events e).state = .EV_NONE := by
  have hc := h.counts e he
  rw [List.count_cons_self] at hc
  have hne : (s.events e).numParents ≠ 0 := by
    simp only [List.count_nil] at hc
    omega
  exact ⟨hne, h.fresh e he hne⟩

theorem enqueue_spec (h : Inv G s pending) (hsim : s.inCSim = true) (he : e < s.numEvents)
    (hq : Queued s (s.events e).domain e cycle)
    (hle : (s.domains (s.events e).domain).curCycle ≤ cycle)
    (hnot : ∀ d cycle', (e, cycle') ∉ (s.domains d).pq) :
    Yields (fun s' => s' = s.push e cycle ∧ Inv G s' pending) (s.enqueue G e cycle) := by
  have hd := h.graph.domain_lt e he
  have hlast : s.lastLimit ≤ cycle := ((h.timely.weave hsim).2 _ hd).lastLimit_le.trans hle
  rw [ContentionSim.enqueue, if_pos ⟨hsim, hlast⟩]
  split
  · rw [if_pos ⟨hle, hq.noParents, hd⟩]
    exact ⟨rfl, h.graph.congr rfl rfl,
      h.timely.push hq hle hnot⟩
  · exact nofun

/-- The last parent of an event is done at a cycle that is not over, or another one. -/
theorem timingParentDone_spec (h : Inv G s (e :: pending)) (he : e < s.numEvents)
    (hsim : s.inCSim = true) (hk : (s.events e).kind = .other ∨ (s.events e).kind = .crossing)
    (hle : (s.domains (s.events e).domain).curCycle ≤ cycle)
    (hstart : (s.events e).kind = .crossing →
      ∃ minStartCycle, (s.events e).minStartCycle = some minStartCycle ∧ minStartCycle ≤ cycle) :
    Yields (fun s' => Inv G s' pending ∧ Frame s s') (s.timingParentDone G e cycle) := by
  obtain ⟨hne, hnone⟩ := h.graph.waiting he
  have hnotDone : (s.events e).state ≠ .EV_DONE := by simp [hnone]
  have hnq := h.timely.not_queued (.inl hne)
  have hkx (x : Nat) : (s.events e).kind ≠ .crossingSrc x := by
    rcases hk with hk | hk <;> simp [hk]
  have hinv (ev : Event) (hkind : ev.kind = (s.events e).kind)
      (hdom : ev.domain = (s.events e).domain)
      (hmin : ev.minStartCycle = (s.events e).minStartCycle)
      (hchild : ev.children = (s.events e).children)
      (hs : ev.state = .EV_NONE ∨ ev.state = .EV_QUEUED)
      (hn : ev.numParents = (s.events e).numParents - 1)
      (hfresh : ev.numParents ≠ 0 → ev.state = .EV_NONE) : Inv G (s.setEvent e ev) pending := by
    constructor
    · refine h.graph.setEvent he hchild hdom ?_ hfresh ?_ fun e' hee => ?_
      · rcases hs with hs | hs <;> simp [hs, hnotDone]
      · rw [List.count_cons_self]
        omega
      · rw [List.count_cons_of_ne (Ne.symm hee)]
    · exact h.timely.setEvent ⟨hkind, hdom, hmin, .inl hchild, hnotDone,
        fun d c hq => absurd hq (hnq d c), fun c hr => absurd hr (h.timely.not_released hnotDone c),
        fun d c hr => absurd hr (h.timely.not_requeued hne d c), fun x hx => absurd hx (hkx x),
        fun _ => .inl hs, .inl hsim⟩
  rw [ContentionSim.timingParentDone, if_neg hne]
  by_cases hzero : (s.events e).numParents - 1 = 0
  · simp only [hzero, if_true, hnone]
    let ev : Event := { s.events e with
      state := .EV_QUEUED, cycle := max (s.events e).cycle cycle, numParents := 0 }
    have hev := hinv ev rfl rfl rfl rfl (.inr rfl) hzero.symm (absurd rfl)
    have hmax : cycle ≤ max (s.events e).cycle cycle + (s.events e).preDelay := by omega
    have hself : (s.setEvent e ev).events e = ev := by simp
    have hq : Queued (s.setEvent e ev) ((s.setEvent e ev).events e).domain e
        (max (s.events e).cycle cycle + (s.events e).preDelay) := by
      rw [hself]
      refine ⟨he, by rw [hself], by rw [hself], ?_, ?_, ?_⟩
      · rcases hk with hk | hk
        · exact .inl ⟨by rw [hself], by rw [hself]; exact hk⟩
        · exact .inr ⟨.inr (by rw [hself]), by rw [hself]; exact hk⟩
      · rw [hself]
        intro hk'
        obtain ⟨m, hm, hmle⟩ := hstart hk'
        exact ⟨m, hm, hmle.trans hmax⟩
      · exact fun d' c hr => absurd hr (h.timely.not_requeued hne d' c)
    refine (enqueue_spec hev hsim he hq ?_ fun d c => hnq d c).mono fun s' hs' => ⟨hs'.2, ?_⟩
    · rw [hself]
      exact hle.trans hmax
    · have hframe : Frame s (s.setEvent e ev) := .setEvent he rfl fun _ => hnotDone
      rw [hs'.1]
      exact hframe.trans (.push _)
  · simp only [hzero, if_false]
    exact ⟨hinv _ rfl rfl rfl rfl (.inl hnone) rfl fun _ => hnone,
      .setEvent he rfl fun _ => hnotDone⟩

theorem crossingParentDone_spec (h : Inv G s (x :: pending)) (hx : x < s.numEvents)
    (hsim : s.inCSim = true) (hk : (s.events x).kind = .crossing)
    (hle : (s.domains (s.events x).domain).curCycle ≤ cycle) :
    Yields (fun s' => Inv G s' pending ∧ Frame s s') (s.crossingParentDone G x cycle) := by
  obtain ⟨m, hm⟩ := Option.isSome_iff_exists.mp (h.timely.crossing x hx hk).start
  have hlate : m ≤ max cycle m := Nat.le_max_right ..
  have hle' := hle.trans (Nat.le_max_left cycle m)
  simp only [ContentionSim.crossingParentDone, hm, Option.getD_some]
  split
  · next hc =>
    have hstep : CrossingStep s x { s.crossings x with doneCycle := max cycle m } s.trace :=
      .later rfl hc.2.le
    have ht := h.timely.setCrossing hstep hk hx hsim rfl
    refine (timingParentDone_spec ⟨?_, ht⟩ hx hsim (.inr hk) hle' fun _ => ⟨m, hm, hlate⟩).mono
      fun s' hs' => ⟨hs'.1, ?_⟩
    · exact h.graph.congr rfl rfl
    · exact ⟨hs'.2.numEvents, hs'.2.inCSim, hs'.2.curCycle, hs'.2.domain, hs'.2.notDone_le⟩
  · exact timingParentDone_spec h hx hsim (.inr hk) hle' fun _ => ⟨m, hm, hlate⟩

@[simp] theorem setEvent_setEvent (ev' : Event) :
    (s.setEvent e ev).setEvent e ev' = s.setEvent e ev' := by
  simp [ContentionSim.setEvent]

/-- The last parent of an event is done, and the event with it. -/
theorem Inv.arriveDone (h : Inv G s (e :: pending)) (he : e < s.numEvents) (hsim : s.inCSim = true)
    (hlast : (s.events e).numParents = 1) (hk : (s.events e).kind ≠ .crossing)
    (hev : ev = { s.events e with cycle := cycle, numParents := 0, state := .EV_DONE }) :
    Inv G (s.setEvent e ev) ((s.events e).children ++ pending) := by
  obtain ⟨hne, hnone⟩ := h.graph.waiting he
  have hnotDone : (s.events e).state ≠ .EV_DONE := by simp [hnone]
  subst hev
  constructor
  · let ev : Event := { s.events e with cycle := cycle, numParents := 0, state := .EV_RUNNING }
    have hrun : Graph G (s.setEvent e ev) pending [] := by
      refine h.graph.setEvent he rfl rfl ?_ (absurd rfl) ?_ fun e' hee => ?_
      · simp [ev, hnotDone]
      · rw [List.count_cons_self, hlast]
        exact (Nat.zero_add _).trans (Nat.add_comm _ 1)
      · rw [List.count_cons_of_ne (Ne.symm hee)]
    have hself : (s.setEvent e ev).events e = ev := by simp
    have hdone := hrun.setDone he (by rw [hself])
    rw [hself, setEvent_setEvent] at hdone
    exact hdone
  · exact h.timely.setEvent ⟨rfl, rfl, rfl, .inl rfl, hnotDone,
      fun d c hq => absurd hq (h.timely.not_queued (.inl hne) d c), fun _ _ => rfl,
      fun _ _ _ => rfl, fun _ _ => nofun, fun hk' => absurd hk' hk, .inl hsim⟩

/-- A running event is done. -/
theorem Inv.runDone (h : Inv G s pending) (he : e < s.numEvents) (hsim : s.inCSim = true)
    (hrunning : (s.events e).state = .EV_RUNNING)
    (hk : (s.events e).kind = .other ∨ ∃ minStartCycle,
      (s.events e).minStartCycle = some minStartCycle ∧ minStartCycle ≤ bar s) :
    Inv G (s.setEvent e { s.events e with state := .EV_DONE })
      ((s.events e).children ++ pending) where
  graph := h.graph.setDone he hrunning
  timely := by
    have hzero : (s.events e).numParents = 0 := by
      by_contra hne
      rw [h.graph.fresh e he hne] at hrunning
      cases hrunning
    refine h.timely.setEvent ⟨rfl, rfl, rfl, .inl rfl, by simp [hrunning],
      fun d c hq => absurd hq (h.timely.not_queued (.inr hrunning) d c), fun _ _ => rfl,
      fun _ _ _ => hzero, fun _ _ => nofun, fun hk' => ?_, .inl hsim⟩
    rcases hk with hk | hstart
    · rw [hk] at hk'
      cases hk'
    · exact .inr hstart

/-- The placeholder of a crossing is done. -/
theorem Inv.mark (h : Inv G s (e :: pending)) (he : e < s.numEvents) (hsim : s.inCSim = true)
    (hk : (s.events e).kind = .crossingSrc x)
    (hle : (s.domains (s.events e).domain).curCycle ≤ cycle) (k : Nat) :
    Yields (fun s' => Inv G s' pending ∧ Frame s s')
      (ContentionSim.parentDone G (k + 1) e cycle s) := by
  obtain ⟨hne, hnone⟩ := h.graph.waiting he
  obtain ⟨heq, hkx, hchild, hdom, hwait⟩ := h.timely.source e he x hk
  obtain ⟨hcalled, hone⟩ := hwait hnone
  have hxe : x ≠ e := by omega
  have hx : x < s.numEvents := by omega
  let ev : Event := { s.events e with numParents := 0, state := .EV_DONE }
  let ce : CrossingEvent := { s.crossings x with
    srcDomainCycleAtDone := (s.domains (s.crossings x).srcDomain).curCycle
    doneCycle := cycle
    called := true }
  have hev : Inv G (s.setEvent e ev) pending := by
    have hinv : Inv G (s.setEvent e ev) ((s.events e).children ++ pending) :=
      h.arriveDone he hsim hone (by simp [hk]) rfl
    rwa [hchild] at hinv
  have hmark : Timely G { (s.setEvent e ev).setCrossing x ce with
      trace := .marked x cycle :: s.trace } := by
    refine hev.timely.setCrossing (.marked hcalled rfl fun e' he' hk' => ?_) ?_ hx hsim rfl
    · have he'' : e' = e := ((hev.timely.source e' he' x hk').eq).trans heq.symm
      simp [he'', ev]
    · simpa [hxe] using hkx
  have hresult : ContentionSim.parentDone G (k + 1) e cycle s = .ok
      { (s.setEvent e ev).setCrossing x ce with trace := .marked x cycle :: s.trace } := by
    rw [ContentionSim.parentDone]
    simp only [hk, hone, hchild, and_self, if_true]
    rw [ContentionSim.markSrcEventDone, if_pos ⟨hcalled, hdom ▸ hle⟩]
    simp [Except.bind, ContentionSim.log, ContentionSim.doneWith, ContentionSim.setCrossing,
      ContentionSim.setEvent, ContentionSim.deliver, hnone, hchild, hk, ev, ce]
  rw [hresult]
  refine ⟨⟨hev.graph.congr rfl rfl, hmark⟩, ?_⟩
  have hframe : Frame s (s.setEvent e ev) := .setEvent he rfl fun hd => absurd rfl hd
  exact ⟨hframe.numEvents, hframe.inCSim, hframe.curCycle, hframe.domain, hframe.notDone_le⟩

/-- `parentDone` of an event of the domain `d`, called at a cycle that is not over there. -/
def Delivers (G : Config) (parentDone : Nat → Nat → ContentionSim → Result) (k : Nat) : Prop :=
  ∀ e cycle s pending, Inv G s (e :: pending) → e < s.numEvents → s.inCSim = true →
    (s.domains (s.events e).domain).curCycle ≤ cycle → notDone s < k →
      Yields (fun s' => Inv G s' pending ∧ Frame s s') (parentDone e cycle s)

theorem deliver_spec {k : Nat} {parentDone : Nat → Nat → ContentionSim → Result}
    (hrec : Delivers G parentDone k) {cs : List Nat} (h : Inv G s (cs ++ pending))
    (hsim : s.inCSim = true)
    (hcs : ∀ c ∈ cs, c < s.numEvents ∧ (s.events c).domain = d)
    (hle : (s.domains d).curCycle ≤ cycle) (hk : notDone s < k) :
    Yields (fun s' => Inv G s' pending ∧ Frame s s')
      (ContentionSim.deliver parentDone cycle cs s) := by
  induction cs generalizing s with
  | nil => exact ⟨h, .refl s⟩
  | cons c cs ih =>
    obtain ⟨hc, hd⟩ := hcs c List.mem_cons_self
    have hfirst := hrec c cycle s (cs ++ pending) h hc hsim (hd ▸ hle) hk
    refine hfirst.bind fun s₁ hs₁ => ?_
    obtain ⟨hinv, hframe⟩ := hs₁
    have hrest := ih hinv (hframe.inCSim.trans hsim)
      (fun c' hc' => ?_) (by rw [hframe.curCycle]; exact hle)
      (Nat.lt_of_le_of_lt hframe.notDone_le hk)
    · exact hrest.mono fun s' hs' => ⟨hs'.1, hframe.trans hs'.2⟩
    · obtain ⟨hlt, hd'⟩ := hcs c' (List.mem_cons_of_mem _ hc')
      exact ⟨hframe.numEvents ▸ hlt, (hframe.domain c').trans hd'⟩

/-- The last parent of a delay is done, and the delay with it, or another one. -/
theorem delayParentDone_spec {k : Nat} (hrec : Delivers G (ContentionSim.parentDone G k) k)
    (h : Inv G s (e :: pending)) (he : e < s.numEvents) (hsim : s.inCSim = true)
    (hkind : (s.events e).kind = .delay)
    (hle : (s.domains (s.events e).domain).curCycle ≤ cycle) (hk : notDone s < k + 1) :
    Yields (fun s' => Inv G s' pending ∧ Frame s s')
      (ContentionSim.parentDone G (k + 1) e cycle s) := by
  obtain ⟨hne, hnone⟩ := h.graph.waiting he
  have hnotDone : (s.events e).state ≠ .EV_DONE := by simp [hnone]
  rw [ContentionSim.parentDone]
  simp only [hkind, Weave.decParents, if_neg hne]
  by_cases hone : (s.events e).numParents = 1
  · simp only [hone, Nat.sub_self, if_true]
    let ev : Event := { s.events e with
      kind := .delay
      cycle := max (s.events e).cycle cycle
      numParents := 0
      state := .EV_DONE }
    have hinv : Inv G (s.setEvent e ev) ((s.events e).children ++ pending) :=
      h.arriveDone he hsim hone (by simp [hkind]) (by simp only [ev, hkind]; rfl)
    have hframe : Frame s (s.setEvent e ev) := .setEvent he rfl fun hd => absurd rfl hd
    have hlt : notDone (s.setEvent e ev) < k := by
      have hsum := notDone_setEvent ev he
      rw [if_neg hnotDone, if_pos rfl] at hsum
      omega
    have hchildren : ∀ c ∈ (s.events e).children,
        c < (s.setEvent e ev).numEvents ∧
          ((s.setEvent e ev).events c).domain = (s.events e).domain := fun c hc =>
      ⟨h.graph.child_lt e he c hc,
        (hframe.domain c).trans (h.timely.within hsim e he hnotDone c hc)⟩
    have hlate : ((s.setEvent e ev).domains (s.events e).domain).curCycle ≤
        max (s.events e).cycle cycle + (s.events e).preDelay + (s.events e).postDelay := by
      change (s.domains (s.events e).domain).curCycle ≤ _
      omega
    have hspec := deliver_spec hrec hinv hsim hchildren hlate hlt
    simp only [ContentionSim.doneWith, setEvent_events, if_true, setEvent_setEvent]
    exact hspec.mono fun s' hs' => ⟨hs'.1, hframe.trans hs'.2⟩
  · have hpos : (s.events e).numParents - 1 ≠ 0 := by omega
    rw [if_neg hpos]
    refine ⟨⟨?_, ?_⟩, .setEvent he rfl fun _ => hnotDone⟩
    · refine h.graph.setEvent he rfl rfl Iff.rfl (fun _ => hnone) ?_ fun e' hee => ?_
      · rw [List.count_cons_self]
        change (s.events e).numParents - 1 + _ + _ = _
        omega
      · rw [List.count_cons_of_ne (Ne.symm hee)]
    · exact h.timely.setEvent ⟨hkind.symm, rfl, rfl, .inl rfl, hnotDone,
        fun d c hq => absurd hq (h.timely.not_queued (.inl hne) d c),
        fun c hr => absurd hr (h.timely.not_released hnotDone c),
        fun d c hr => absurd hr (h.timely.not_requeued hne d c),
        fun x hx => by simp [hkind] at hx, fun _ => .inl (.inl hnone), .inl hsim⟩

theorem parentDone_spec (k : Nat) : Delivers G (ContentionSim.parentDone G k) k := by
  induction k with
  | zero => exact fun _ _ _ _ _ _ _ _ hk => absurd hk (Nat.not_lt_zero _)
  | succ k ih =>
    intro e cycle s pending h he hsim hle hk
    cases hkind : (s.events e).kind with
    | other =>
      rw [ContentionSim.parentDone]
      simp only [hkind]
      exact timingParentDone_spec h he hsim (.inl hkind) hle (by simp [hkind])
    | delay => exact delayParentDone_spec ih h he hsim hkind hle hk
    | crossing =>
      rw [ContentionSim.parentDone]
      simp only [hkind]
      exact crossingParentDone_spec h he hsim hkind hle
    | crossingSrc x => exact h.mark he hsim hkind hle k

/-- A running event is done, with children that start no earlier than the current cycle. -/
theorem done_spec (h : Inv G s []) (he : e < s.numEvents) (hsim : s.inCSim = true)
    (hrunning : (s.events e).state = .EV_RUNNING)
    (hk : (s.events e).kind = .other ∨ ∃ minStartCycle,
      (s.events e).minStartCycle = some minStartCycle ∧ minStartCycle ≤ bar s)
    (hle : (s.domains (s.events e).domain).curCycle ≤ cycle + (s.events e).postDelay) :
    Yields (fun s' => Inv G s' [] ∧ Frame s s') (s.done G e cycle) := by
  let ev : Event := { s.events e with state := .EV_DONE }
  have hnotDone : (s.events e).state ≠ .EV_DONE := by simp [hrunning]
  have hinv := h.runDone he hsim hrunning hk
  have hframe : Frame s (s.setEvent e ev) := .setEvent he rfl fun hd => absurd rfl hd
  have hlt : notDone (s.setEvent e ev) < s.numEvents + 1 :=
    Nat.lt_succ_of_le (hframe.notDone_le.trans (notDone_le s))
  have hchildren : ∀ c ∈ (s.events e).children,
      c < (s.setEvent e ev).numEvents ∧
        ((s.setEvent e ev).events c).domain = (s.events e).domain := fun c hc =>
    ⟨h.graph.child_lt e he c hc,
      (hframe.domain c).trans (h.timely.within hsim e he hnotDone c hc)⟩
  have hspec := deliver_spec (parentDone_spec (s.numEvents + 1)) hinv hsim hchildren hle hlt
  rw [ContentionSim.done, ContentionSim.doneWith]
  simp only [hrunning, if_true]
  exact hspec.mono fun s' hs' => ⟨hs'.1, hframe.trans hs'.2⟩

end Crossings

end ZSim
