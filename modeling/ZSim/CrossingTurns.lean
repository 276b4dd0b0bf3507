import ZSim.CrossingDelivery

/-! The steps of the weave phase keep the invariant, and fail no assert. -/

namespace ZSim

namespace Crossings

variable {G : Config} {s s' : ContentionSim} {e x d cycle : Nat} {ev : Event}
variable {pending handed : List Nat}

theorem Graph.running (h : Graph G s pending handed) (he : e < s.numEvents)
    (hrunning : (s.events e).state = .EV_RUNNING) : (s.events e).numParents = 0 := by
  by_contra hne
  rw [h.fresh e he hne] at hrunning
  cases hrunning

theorem mem_push {y : Nat × Nat} (hy : y ∈ ((s.push e cycle).domains d).pq) :
    y = (e, cycle) ∨ y ∈ (s.domains d).pq := by
  simp only [ContentionSim.push, setDomain_domains] at hy
  split at hy
  · next hd =>
    rw [hd]
    exact List.mem_cons.mp hy
  · exact .inr hy

/-- A running event is queued again, at a cycle that is not over. -/
theorem requeue_spec (h : Inv G s []) (he : e < s.numEvents) (hsim : s.inCSim = true)
    (hrunning : (s.events e).state = .EV_RUNNING)
    (hk : (s.events e).kind = .other ∨ (s.events e).kind = .crossing)
    (hle : (s.domains (s.events e).domain).curCycle ≤ cycle)
    (hstart : (s.events e).kind = .crossing →
      ∃ minStartCycle, (s.events e).minStartCycle = some minStartCycle ∧ minStartCycle ≤ cycle)
    (hearlier : ∀ d cycle', .requeued e d cycle' ∈ s.trace → cycle' ≤ cycle) :
    Yields (fun s' => s' = (s.setEvent e { s.events e with state := .EV_QUEUED }).push e cycle ∧
      Inv G s' []) (s.requeue G e cycle) := by
  have hzero := h.graph.running he hrunning
  have hnotDone : (s.events e).state ≠ .EV_DONE := by simp [hrunning]
  have hnq := h.timely.not_queued (.inr hrunning)
  let ev : Event := { s.events e with state := .EV_QUEUED }
  have hev : Inv G (s.setEvent e ev) [] := by
    constructor
    · exact h.graph.setEvent he rfl rfl (by simp [ev, hnotDone]) (absurd hzero) rfl fun _ _ => rfl
    · exact h.timely.setEvent ⟨rfl, rfl, rfl, .inl rfl, hnotDone,
        fun d c hq => absurd hq (hnq d c), fun c hr => absurd hr (h.timely.not_released hnotDone c),
        fun _ _ _ => hzero, fun _ _ => nofun, fun _ => .inl (.inr rfl), .inl hsim⟩
  have hself : (s.setEvent e ev).events e = ev := by simp
  have hq : Queued (s.setEvent e ev) ((s.setEvent e ev).events e).domain e cycle := by
    rw [hself]
    refine ⟨he, by rw [hself], by rw [hself]; exact hzero, ?_, ?_, hearlier⟩
    · rcases hk with hk | hk
      · exact .inl ⟨by rw [hself], by rw [hself]; exact hk⟩
      · exact .inr ⟨.inr (by rw [hself]), by rw [hself]; exact hk⟩
    · rw [hself]
      exact hstart
  rw [ContentionSim.requeue, if_pos ⟨hzero, hrunning⟩]
  exact enqueue_spec hev hsim he hq (by rw [hself]; exact hle) fun d c => hnq d c

/-- A crossing whose placeholder is done releases its children. -/
theorem releaseCrossing_spec {dCycle m : Nat} (h : Inv G s []) (hx : x < s.numEvents)
    (hsim : s.inCSim = true) (hk : (s.events x).kind = .crossing)
    (hrunning : (s.events x).state = .EV_RUNNING) (hcalled : (s.crossings x).called = true)
    (hcur : (s.domains (s.events x).domain).curCycle ≤ dCycle)
    (hdone : (s.crossings x).doneCycle ≤ dCycle) (hm : (s.events x).minStartCycle = some m)
    (hstart : m ≤ dCycle) (hbar : m ≤ bar s) :
    Yields (fun s' => Inv G s' []) ((s.log (.released x dCycle)).done G x dCycle) := by
  have hnotDone : (s.events x).state ≠ .EV_DONE := by simp [hrunning]
  obtain ⟨doneCycle, hmark, hle⟩ := (h.timely.crossing x hx hk).called hcalled
  have hinv := h.runDone hx hsim hrunning (.inr ⟨m, hm, hbar⟩)
  let ev : Event := { s.events x with state := .EV_DONE }
  let s₁ := (s.setEvent x ev).log (.released x dCycle)
  have hinv₁ : Inv G s₁ ((s.events x).children ++ []) := by
    refine ⟨hinv.graph.congr rfl rfl, ?_⟩
    refine hinv.timely.log ⟨h.timely.not_released hnotDone, ⟨doneCycle, hmark, hle.trans hdone⟩, m,
      ?_, hstart⟩ ?_ (fun _ _ _ he => Entry.noConfusion he)
        (fun _ _ _ he => Entry.noConfusion he) (fun _ _ he => Entry.noConfusion he) ?_
    · simpa using hm
    · rintro _ ⟨⟩
      exact ⟨hx, by simpa using hk⟩
    · rintro _ _ ⟨⟩
      simp
  have hchildren : ∀ c ∈ (s.events x).children,
      c < s₁.numEvents ∧ (s₁.events c).domain = (s.events x).domain := fun c hc => by
    refine ⟨h.graph.child_lt x hx c hc, ?_⟩
    have hd := h.timely.within hsim x hx hnotDone c hc
    by_cases hcx : c = x
    · simp [s₁, ContentionSim.log, hcx, ev]
    · simpa [s₁, ContentionSim.log, hcx] using hd
  have hlate : (s₁.domains (s.events x).domain).curCycle ≤ dCycle + (s.events x).postDelay := by
    change (s.domains (s.events x).domain).curCycle ≤ _
    omega
  have hspec := deliver_spec (parentDone_spec (s.numEvents + 1)) hinv₁ hsim hchildren hlate
    (Nat.lt_succ_of_le (notDone_le s₁))
  have hstate : ((s.log (.released x dCycle)).events x).state = .EV_RUNNING := hrunning
  rw [ContentionSim.done, ContentionSim.doneWith]
  simp only [hstate, if_true]
  exact hspec.mono fun s' hs' => hs'.1

/-- A crossing whose placeholder is not done is queued again, no earlier than it ran. -/
theorem pollCrossing_spec {nextCycle m : Nat} (h : Inv G s []) (hx : x < s.numEvents)
    (hsim : s.inCSim = true) (hk : (s.events x).kind = .crossing)
    (hrunning : (s.events x).state = .EV_RUNNING) (hcalled : (s.crossings x).called = false)
    (hcur : (s.domains (s.events x).domain).curCycle ≤ nextCycle)
    (hm : (s.events x).minStartCycle = some m) (hstart : m ≤ nextCycle)
    (hearlier : ∀ d cycle', .requeued x d cycle' ∈ s.trace → cycle' ≤ nextCycle) :
    Yields (fun s' => Inv G s' [])
      (((s.setEvent x { s.events x with numParents := 0 }).requeue G x nextCycle).map
        (ContentionSim.log · (.requeued x (s.events x).domain nextCycle))) := by
  have hok := h.timely.crossing x hx hk
  have hnotDone : (s.events x).state ≠ .EV_DONE := by simp [hrunning]
  have hzero := h.graph.running hx hrunning
  -- the count of its parents is set to what it is
  have hsame : s.setEvent x { s.events x with numParents := 0 } = s := by
    have hev : ({ s.events x with numParents := 0 } : Event) = s.events x := by rw [← hzero]
    rw [hev, ContentionSim.setEvent, Function.update_eq_self]
  rw [hsame]
  refine (requeue_spec h hx hsim hrunning (.inr hk) hcur (fun _ => ⟨m, hm, hstart⟩) hearlier).map
    fun s' hs' => ?_
  obtain ⟨hs', hinv⟩ := hs'
  refine ⟨hinv.graph.congr rfl rfl, ?_⟩
  subst hs'
  refine hinv.timely.log ⟨?_, hok.notCalled hcalled, h.timely.not_released hnotDone, hearlier⟩ ?_
    (fun _ _ _ he => Entry.noConfusion he) ?_ (fun _ _ he => Entry.noConfusion he)
      fun _ _ he => Entry.noConfusion he
  · simp [ContentionSim.push, ContentionSim.setDomain]
  · rintro _ ⟨⟩
    refine ⟨hx, ?_⟩
    simpa [ContentionSim.push, ContentionSim.setDomain] using hk
  · rintro _ _ _ ⟨⟩
    refine ⟨by simp [ContentionSim.push, ContentionSim.setDomain, hzero], fun d' c hmem => ?_⟩
    rcases mem_push hmem with he | hmem
    · exact (Prod.mk.inj he).2.ge
    · exact absurd hmem (h.timely.not_queued (.inr hrunning) d' c)

/-- A crossing that is run releases its children, or is queued again. -/
theorem simulateCrossing_spec (h : Inv G s []) (hx : x < s.numEvents) (hsim : s.inCSim = true)
    (hk : (s.events x).kind = .crossing) (hrunning : (s.events x).state = .EV_RUNNING)
    (hcur : (s.domains (s.events x).domain).curCycle = cycle) (hbar : cycle ≤ bar s)
    (hstart : ∃ minStartCycle,
      (s.events x).minStartCycle = some minStartCycle ∧ minStartCycle ≤ cycle)
    (hearlier : ∀ d cycle', .requeued x d cycle' ∈ s.trace → cycle' ≤ cycle) :
    Yields (fun s' => Inv G s' []) (s.simulateCrossing G x cycle) := by
  obtain ⟨m, hm, hle⟩ := hstart
  rw [ContentionSim.simulateCrossing]
  by_cases hcalled : (s.crossings x).called = true
  · simp only [hcalled, if_true]
    have hmax : cycle ≤ max cycle (s.crossings x).doneCycle := Nat.le_max_left ..
    exact releaseCrossing_spec h hx hsim hk hrunning hcalled (hcur.le.trans hmax)
      (Nat.le_max_right ..) hm (hle.trans hmax) (hle.trans hbar)
  · have hfalse : (s.crossings x).called = false := by simpa using hcalled
    simp only [hfalse, Bool.false_eq_true, if_false]
    generalize hnext : max _ (max _ cycle) = nextCycle
    have hlater : cycle ≤ nextCycle := by omega
    exact pollCrossing_spec h hx hsim hk hrunning hfalse (hcur.le.trans hlater) hm
      (hle.trans hlater) fun d c hr => (hearlier d c hr).trans hlater

theorem run_spec (h : Inv G s []) (he : e < s.numEvents) (hsim : s.inCSim = true)
    (hnq : ∀ d c, (e, c) ∉ (s.domains d).pq) (hq : Queued s (s.events e).domain e cycle)
    (hcur : (s.domains (s.events e).domain).curCycle = cycle) (hbar : cycle ≤ bar s) :
    Yields (fun s' => Inv G s' []) (s.run G e cycle) := by
  have hnotDone : (s.events e).state ≠ .EV_DONE := by
    rcases hq.state with ⟨hs, -⟩ | ⟨hs | hs, -⟩ <;> simp [hs]
  let ev : Event := { s.events e with state := .EV_RUNNING }
  have hself : (s.setEvent e ev).events e = ev := by simp
  have hrun (hk : (s.events e).kind = .other ∨ (s.events e).kind = .crossing) :
      Inv G (s.setEvent e ev) [] := by
    constructor
    · exact h.graph.setEvent he rfl rfl (by simp [ev, hnotDone]) (absurd hq.noParents) rfl
        fun _ _ => rfl
    · refine h.timely.setEvent ⟨rfl, rfl, rfl, .inl rfl, hnotDone,
        fun d c hmem => absurd hmem (hnq d c),
        fun c hr => absurd hr (h.timely.not_released hnotDone c), fun _ _ _ => hq.noParents,
        fun _ _ => nofun, fun hk => ?_, .inl hsim⟩
      obtain ⟨m, hm, hle⟩ := hq.start hk
      exact .inr ⟨m, hm, hle.trans hbar⟩
  rw [ContentionSim.run]
  rcases hq.state with ⟨-, hk⟩ | ⟨hs, hk⟩
  · have hinv := hrun (.inl hk)
    simp only [ev, hk] at hinv ⊢
    exact hinv
  · have hinv := hrun (.inr hk)
    obtain ⟨m, hm, hle⟩ := hq.start hk
    have hspec := simulateCrossing_spec hinv he hsim (by rw [hself]; exact hk) (by rw [hself])
      (by rw [hself]; exact hcur) hbar ⟨m, by rw [hself]; exact hm, hle⟩ hq.requeued
    simp only [ev, hk] at hspec ⊢
    rwa [if_pos ⟨hs, by simp [hm, hle]⟩]

theorem turn_spec (h : Inv G s []) (hallowed : s.Allowed G (.turn d e cycle)) :
    Yields (fun s' => Inv G s' []) (s.turn G d e cycle) := by
  obtain ⟨hsim, hd, hrunning, hfin, hmem, hfirst, hlimit⟩ := hallowed
  obtain ⟨hle, hq⟩ := h.timely.queue d _ hmem
  have hbar : bar s = s.limit := if_pos hsim
  have hdom := (h.timely.weave hsim).2 d hd
  let dom : Domain := { s.domains d with
    pq := (s.domains d).pq.erase (e, cycle), curCycle := cycle, running := true }
  let s₁ := (s.setDomain d dom).log (.ran d e cycle)
  have hset : Timely G (s.setDomain d dom) := by
    refine h.timely.setDomain (fun x hx => ?_) ?_ (fun hno => ?_) (fun _ _ => ?_) fun e' c hr => ?_
    · have hx' := List.mem_of_mem_erase hx
      exact ⟨hfirst x hx', (h.timely.queue d x hx').2⟩
    · exact (List.erase_sublist.map Prod.fst).nodup (h.timely.nodup d)
    · exact absurd (hno.symm.trans hsim) (by decide)
    · exact ⟨hdom.lastLimit_le.trans hle, fun _ => hlimit,
        fun hf => absurd (hf.symm.trans hfin) (by decide)⟩
    · exact (h.timely.ran d e' c hr).1.trans hle
  have hinv : Inv G s₁ [] := by
    refine ⟨h.graph.congr rfl rfl, ?_⟩
    refine hset.log (fun e' c hr => (h.timely.ran d e' c hr).1.trans hle) nofun ?_ nofun nofun nofun
    rintro _ _ _ ⟨⟩
    refine ⟨by simp [dom], ?_⟩
    change cycle ≤ bar s
    rw [hbar]
    exact hlimit
  have hnq (d' c : Nat) : (e, c) ∉ (s₁.domains d').pq := by
    intro hx
    by_cases hdd : d' = d
    · have hx' : (e, c) ∈ (s.domains d).pq.erase (e, cycle) := by
        simpa [s₁, ContentionSim.log, hdd, dom] using hx
      have hnd := (((List.perm_cons_erase hmem).map Prod.fst).nodup_iff.mp (h.timely.nodup d))
      exact (List.nodup_cons.mp hnd).1 (List.mem_map.mpr ⟨_, hx', rfl⟩)
    · have hx' : (e, c) ∈ (s.domains d').pq := by
        simpa [s₁, ContentionSim.log, hdd] using hx
      exact hdd ((h.timely.queue d' _ hx').2.domain.symm.trans hq.domain)
  rw [ContentionSim.turn]
  simp only [if_pos hle]
  refine run_spec hinv hq.lt hsim hnq ?_ ?_ ?_
  · refine ⟨hq.lt, rfl, hq.noParents, hq.state, hq.start, fun d' c hr => ?_⟩
    rcases List.mem_cons.mp hr with he | hr
    · cases he
    · exact hq.requeued d' c hr
  · have hd' : (s₁.events e).domain = d := hq.domain
    rw [hd']
    change ((s.setDomain d dom).domains d).curCycle = cycle
    rw [setDomain_domains, if_pos rfl]
  · change cycle ≤ bar s
    rw [hbar]
    exact hlimit

theorem endTurn_spec (h : Inv G s []) (hallowed : s.Allowed G (.endTurn d)) :
    Yields (fun s' => Inv G s' []) (s.endTurn d) := by
  obtain ⟨hsim, hd, hrunning⟩ := hallowed
  have hdom := (h.timely.weave hsim).2 d hd
  have hnext : (s.domains d).curCycle ≤ s.nextCycle d ∧
      ∀ x ∈ (s.domains d).pq, s.nextCycle d ≤ x.2 := by
    rw [ContentionSim.nextCycle]
    cases hmin : ((s.domains d).pq.map Prod.snd).min? with
    | none =>
      have hnil := List.map_eq_nil_iff.mp (List.min?_eq_none_iff.mp hmin)
      exact ⟨hdom.running hrunning, by simp [hnil]⟩
    | some c =>
      obtain ⟨hmem, hle⟩ := List.min?_eq_some_iff.mp hmin
      obtain ⟨x, hx, rfl⟩ := List.mem_map.mp hmem
      exact ⟨(h.timely.queue d x hx).1, fun y hy => hle _ (List.mem_map_of_mem hy)⟩
  rw [ContentionSim.endTurn]
  simp only [if_pos hnext.1]
  refine ⟨h.graph.congr rfl rfl, ?_⟩
  refine h.timely.setDomain (fun x hx => ⟨hnext.2 x hx, (h.timely.queue d x hx).2⟩)
    (h.timely.nodup d) (fun hno => ?_) (fun _ _ => ?_) fun e' c hr => ?_
  · exact absurd (hno.symm.trans hsim) (by decide)
  · refine ⟨hdom.lastLimit_le.trans hnext.1, nofun, fun hf => ?_⟩
    exact absurd (hrunning.symm.trans (hdom.finished hf).2) (by decide)
  · exact (h.timely.ran d e' c hr).1.trans hnext.1

theorem finish_spec (h : Inv G s []) (hallowed : s.Allowed G (.finish d)) :
    Inv G (s.setDomain d { s.domains d with curCycle := s.limit, finished := true }) [] := by
  obtain ⟨hsim, hd, hrunning, hlater⟩ := hallowed
  have hbar : bar s = s.limit := if_pos hsim
  refine ⟨h.graph.congr rfl rfl, ?_⟩
  refine h.timely.setDomain (fun x hx => ⟨hlater x hx, (h.timely.queue d x hx).2⟩)
    (h.timely.nodup d) (fun hno => ?_) (fun _ _ => ?_) fun e' c hr => ?_
  · exact absurd (hno.symm.trans hsim) (by decide)
  · exact ⟨(h.timely.weave hsim).1, fun hr => absurd (hr.symm.trans hrunning) (by decide),
      fun _ => ⟨rfl, hrunning⟩⟩
  · exact hbar ▸ (h.timely.ran d e' c hr).2

theorem simulatePhase_spec {limit : Nat} (h : Inv G s [])
    (hallowed : s.Allowed G (.simulatePhase limit)) :
    Inv G { s with
      limit := limit
      inCSim := true
      domains := fun d => { s.domains d with finished := false } } [] := by
  obtain ⟨hsim, hlimit, hstack, hwithin⟩ := hallowed
  have hbar : bar s = s.lastLimit := if_neg (by simp [hsim])
  refine ⟨h.graph.congr rfl rfl, ?_⟩
  constructor
  · intro d x hx
    obtain ⟨hle, hq⟩ := h.timely.queue d x hx
    exact ⟨hle, hq.congr (Nat.le_refl _) rfl rfl⟩
  · exact h.timely.nodup
  · exact fun x hx hk => (h.timely.crossing x hx hk).congr rfl rfl rfl
  · exact fun e he x hk => (h.timely.source e he x hk).congr rfl rfl rfl
  · exact nofun
  · refine fun _ => ⟨hlimit, fun d hd => ?_⟩
    obtain ⟨hcur, hrun⟩ := h.timely.bound hsim d hd
    exact ⟨hcur.ge, fun hr => absurd (hr.symm.trans hrun) (by decide), nofun⟩
  · exact fun _ => hwithin
  · intro r b hb
    have hr := (h.timely.stack r b hb).2.1
    have hb' : b ∈ (s.recorders r).crossingStack := hb
    rw [hstack r hr] at hb'
    cases hb'
  · intro key hlt
    obtain ⟨x, hx, hok⟩ := h.timely.last key (hbar ▸ hlimit.trans_lt hlt)
    exact ⟨x, hx, hok.congr (Nat.le_refl _) rfl⟩
  · intro d e c hr
    obtain ⟨hle, hle'⟩ := h.timely.ran d e c hr
    exact ⟨hle, (hbar ▸ hle').trans hlimit⟩
  · exact h.timely.known
  · exact h.timely.orderly
  · exact h.timely.bridged

theorem phaseDone_spec (h : Inv G s []) (hallowed : s.Allowed G .phaseDone) :
    Inv G { s with inCSim := false, lastLimit := s.limit } [] := by
  obtain ⟨hsim, hfin⟩ := hallowed
  have hbar : bar s = s.limit := if_pos hsim
  refine ⟨h.graph.congr rfl rfl, ?_⟩
  constructor
  · intro d x hx
    obtain ⟨hle, hq⟩ := h.timely.queue d x hx
    exact ⟨hle, hq.congr (Nat.le_refl _) rfl rfl⟩
  · exact h.timely.nodup
  · exact fun x hx hk => (h.timely.crossing x hx hk).congr rfl rfl rfl
  · exact fun e he x hk => (h.timely.source e he x hk).congr rfl rfl rfl
  · exact fun _ d hd => ((h.timely.weave hsim).2 d hd).finished (hfin d hd)
  · exact nofun
  · exact nofun
  · exact fun r b hb => absurd ((h.timely.stack r b hb).1.symm.trans hsim) (by decide)
  · intro key hlt
    obtain ⟨x, hx, hok⟩ := h.timely.last key (hbar ▸ hlt)
    exact ⟨x, hx, hok.congr (Nat.le_refl _) rfl⟩
  · intro d e c hr
    exact ⟨(h.timely.ran d e c hr).1, hbar ▸ (h.timely.ran d e c hr).2⟩
  · exact h.timely.known
  · exact h.timely.orderly
  · exact h.timely.bridged

end Crossings

end ZSim
