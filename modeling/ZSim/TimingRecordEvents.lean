import ZSim.TimingRecords

/-! The events of a miss take as long as its record says, if the records it is made of do. -/

namespace ZSim

open EventGraph

/-- The record of an access called at `cycle` that returned `respCycle`, with its events made from
`lo` on: without contention they take the time between its cycles. -/
structure Recorded (lo : Nat) (g : RecordGraph) (cycle respCycle : Nat) (tr : AccessRecord) :
    Prop where
  req : cycle ≤ tr.reqCycle
  le : tr.reqCycle ≤ tr.respCycle
  resp : tr.respCycle ≤ respCycle
  startEvent : lo ≤ tr.startEvent ∧ tr.startEvent < g.size
  endEvent : lo ≤ tr.endEvent ∧ tr.endEvent < g.size
  first : g.parents tr.startEvent = []
  takes : g.Takes tr.startEvent tr.endEvent (tr.respCycle - tr.reqCycle)

namespace RecordingCache

variable {G : RecordConfig} {g g' : RecordGraph} {K : Nat → Prop} {r : Option AccessRecord}
  {lo s e sc ec : Nat}

theorem connect_isSome (hle : sc ≤ ec) (hr : ∀ x ∈ r, sc ≤ x.reqCycle ∧ x.respCycle ≤ ec) :
    ∃ g', connect g r s e sc ec = some g' := by
  cases r with
  | none => exact ⟨_, if_pos hle⟩
  | some x => exact ⟨_, (if_pos hle).trans (if_pos (hr x rfl))⟩

theorem connect_cases (h : connect g r s e sc ec = some g') :
    (r = none ∧ g' = g.addDelayed ⟨.delay, sc⟩ s e (ec - sc)) ∨
      ∃ x, r = some x ∧ g' = (g.addDelayed ⟨.delay, sc⟩ s x.startEvent (x.reqCycle - sc)).addDelayed
        ⟨.delay, x.respCycle⟩ x.endEvent e (ec - x.respCycle) := by
  cases r with
  | none =>
    simp only [connect] at h
    split at h
    · cases h
      exact .inl ⟨rfl, rfl⟩
    · cases h
  | some x =>
    simp only [connect] at h
    split at h
    · split at h
      · cases h
        exact .inr ⟨x, rfl, rfl⟩
      · cases h
    · cases h

theorem connect_grows (h : connect g r s e sc ec = some g') (he : ¬ K e)
    (hr : ∀ x ∈ r, ¬ K x.startEvent) : Grows K g g' := by
  rcases connect_cases h with ⟨rfl, rfl⟩ | ⟨x, rfl, rfl⟩
  · exact .addDelayed he
  · exact (Grows.addDelayed (hr x rfl)).trans (.addDelayed he)

theorem connect_closed (h : connect g r s e sc ec = some g') (hg : Closed lo g)
    (hs : lo ≤ s ∧ s < g.size) (hr : ∀ x ∈ r, lo ≤ x.endEvent ∧ x.endEvent < g.size) :
    Closed lo g' := by
  rcases connect_cases h with ⟨rfl, rfl⟩ | ⟨x, rfl, rfl⟩
  · exact hg.addDelayed hs.1 hs.2
  · have hmid := @Closed.addDelayed _ _ _ s x.startEvent (x.reqCycle - sc) ⟨.delay, sc⟩ hg hs.1 hs.2
    have hgrows : Grows (fun _ => False) g
        (g.addDelayed ⟨.delay, sc⟩ s x.startEvent (x.reqCycle - sc)) := .addDelayed id
    exact hmid.addDelayed (hr x rfl).1 ((hr x rfl).2.trans_le hgrows.size)

theorem connect_fresh (h : connect g r s e sc ec = some g') (hg : Fresh g) (he : e < g.size)
    (hr : ∀ x ∈ r, x.startEvent < g.size) : Fresh g' := by
  rcases connect_cases h with ⟨rfl, rfl⟩ | ⟨x, rfl, rfl⟩
  · exact hg.addDelayed he
  · have hmid := @Fresh.addDelayed _ _ s x.startEvent (x.reqCycle - sc) ⟨.delay, sc⟩ hg (hr x rfl)
    have hgrows : Grows (fun _ => False) g
        (g.addDelayed ⟨.delay, sc⟩ s x.startEvent (x.reqCycle - sc)) := .addDelayed id
    exact hmid.addDelayed (he.trans_le hgrows.size)

theorem connect_childless {q : Nat} (h : connect g r s e sc ec = some g') (hg : Childless lo g q)
    (hq : q < g.size) (hs : s ≠ q) (hr : ∀ x ∈ r, x.endEvent ≠ q) : Childless lo g' q := by
  rcases connect_cases h with ⟨rfl, rfl⟩ | ⟨x, rfl, rfl⟩
  · exact hg.addDelayed hs hq
  · have hgrows : Grows (fun _ => False) g
        (g.addDelayed ⟨.delay, sc⟩ s x.startEvent (x.reqCycle - sc)) := .addDelayed id
    exact (hg.addDelayed hs hq).addDelayed (hr x rfl) (hq.trans_le hgrows.size)

/-- The end of a connection starts with its cycles after the start. -/
theorem connect_starts {ga : RecordGraph} {cyc : Nat} (h : connect g r s e sc ec = some g')
    (hle : sc ≤ ec) (hga : Grows (fun _ => True) ga g) (hca : Closed lo ga) (hcg : Closed lo g)
    (hrec : ∀ x ∈ r, Recorded lo ga sc ec x) (hfresh : Fresh g) (hs : ga.size ≤ s ∧ s < g.size)
    (he : ga.size ≤ e ∧ e < g.size) (hlo : lo ≤ ga.size) (hse : s ≠ e) (hps : g.parents s = [])
    (hpe : g.parents e = []) (hchild : Childless lo g e) :
    StartsAt g' s cyc e (cyc + g.preDelay s + g.postDelay s + (ec - sc) + g.preDelay e) := by
  rcases connect_cases h with ⟨rfl, rfl⟩ | ⟨x, rfl, rfl⟩
  · have hgrows : Grows (fun _ => False) g (g.addDelayed ⟨.delay, sc⟩ s e (ec - sc)) :=
      .addDelayed id
    apply startsAt_addDelayed hfresh hpe he.2 hs.2
    rw [← hgrows.preDelay s hs.2]
    exact .first
  · have hx := hrec x rfl
    have hxs : x.startEvent < g.size := hx.startEvent.2.trans_le hga.size
    have hxe : x.endEvent < g.size := hx.endEvent.2.trans_le hga.size
    have hxse : x.startEvent ≠ e := (hx.startEvent.2.trans_le he.1).ne
    have hxss : s ≠ x.startEvent := (hx.startEvent.2.trans_le hs.1).ne'
    have hpx : g.parents x.startEvent = [] := by
      rw [hga.parents _ hx.startEvent.2 trivial]
      exact hx.first
    let g₁ := g.addDelayed ⟨.delay, sc⟩ s x.startEvent (x.reqCycle - sc)
    let g₂ := g₁.addDelayed ⟨.delay, x.respCycle⟩ x.endEvent e (ec - x.respCycle)
    have hg₁ : Grows (fun i => i ≠ x.startEvent) g g₁ := .addDelayed fun hne => hne rfl
    have hg₂ : Grows (fun i => i ≠ e) g₁ g₂ := .addDelayed fun hne => hne rfl
    have hfresh₁ : Fresh g₁ := hfresh.addDelayed hxs
    have hclosed₁ : Closed lo g₁ := hcg.addDelayed (hlo.trans hs.1) hs.2
    have hchild₁ : Childless lo g₁ e := hchild.addDelayed hse he.2
    -- the record is due when the delay before it is over
    have hdue₁ : StartsAt g₁ s cyc x.startEvent
        (cyc + g.preDelay s + g.postDelay s + (x.reqCycle - sc) + g.preDelay x.startEvent) := by
      apply startsAt_addDelayed hfresh hpx hxs hs.2
      rw [← hg₁.preDelay s hs.2]
      exact .first
    have hdue₂ : StartsAt g₂ s cyc x.startEvent
        (cyc + g.preDelay s + g.postDelay s + (x.reqCycle - sc) + g.preDelay x.startEvent) := by
      have hgrows : Grows (fun i => (lo ≤ i ∧ i ≠ e) ∧ i ≠ s) g₁ g₂ := hg₂.mono fun i hi => hi.1.2
      apply hgrows.graft
      · intro i _ hi p hp
        have hpar := hclosed₁ i hi.1 p hp
        refine ⟨⟨hpar.1, ?_⟩, hpar.2⟩
        rintro rfl
        exact hchild₁ i hi.1 hp
      · rw [hg₁.parents s hs.2 hxss, hps]
      · rw [← hg₂.preDelay s (hs.2.trans_le hg₁.size)]
        exact .first
      · exact hdue₁
      · exact ⟨hx.startEvent.1, hxse⟩
      · exact hxs.trans_le hg₁.size
    -- it runs as it did before it was connected
    obtain ⟨⟨t, ht⟩, htakes⟩ := hx.takes (cyc + g.preDelay s + g.postDelay s + (x.reqCycle - sc))
    have hend : StartsAt g₂ s cyc x.endEvent t := by
      have hgrows : Grows (fun i => (lo ≤ i ∧ i < ga.size) ∧ i ≠ x.startEvent) ga g₂ := by
        refine (hga.mono fun _ _ => trivial).trans ((hg₁.mono fun i hi => hi.2).trans
          (hg₂.mono fun i hi => ?_))
        exact (hi.1.2.trans_le he.1).ne
      apply hgrows.graft
      · intro i _ hi p hp
        have hpar := hca i hi.1 p hp
        exact ⟨hpar, hpar.2⟩
      · exact hx.first
      · rw [← hga.preDelay _ hx.startEvent.2]
        exact hdue₂
      · exact ht
      · exact hx.endEvent
      · exact hx.endEvent.2
    have hresp := startsAt_addDelayed (l := ⟨.delay, x.respCycle⟩) hfresh₁
      ((hg₁.parents e he.2 hxse.symm).trans hpe) (he.2.trans_le hg₁.size)
      (hxe.trans_le hg₁.size) hend
    have htime := htakes t ht
    have hpost : g₁.postDelay x.endEvent = ga.postDelay x.endEvent := by
      rw [hg₁.postDelay _ hxe, hga.postDelay _ hx.endEvent.2]
    have hsum : t + g₁.postDelay x.endEvent + (ec - x.respCycle) + g₁.preDelay e =
        cyc + g.preDelay s + g.postDelay s + (ec - sc) + g.preDelay e := by
      have h₁ := hx.req
      have h₂ := hx.le
      have h₃ := hx.resp
      rw [hpost, hg₁.preDelay e he.2]
      omega
    rwa [hsum] at hresp

/-- Events were made and tied, with no parent more for those in `K`. -/
structure Built (K : Nat → Prop) (lo : Nat) (g g' : RecordGraph) : Prop where
  grows : Grows K g g'
  closed : Closed lo g'
  fresh : Fresh g'

theorem Built.trans {g'' : RecordGraph} (h : Built K lo g g') (h' : Built K lo g' g'') :
    Built K lo g g'' :=
  ⟨h.grows.trans h'.grows, h'.closed, h'.fresh⟩

theorem Built.newChild {l : RecordedEvent} {pre post p : Nat} (hc : Closed lo g) (hf : Fresh g)
    (hp : lo ≤ p ∧ p < g.size) : Built K lo g ((g.new l pre post).addChild p g.size) :=
  ⟨.newChild, hc.new.addChild hp.1 (hp.2.trans (Nat.lt_succ_self _)),
    hf.new.addChild (Nat.lt_succ_self _)⟩

variable {cycle repl fuel accs fringe p : Nat}

theorem lookups_spec (hways : 2 ≤ G.ways) (hfringe : 0 < fringe) (hfuel : repl ≤ accs + fuel)
    (hc : Closed lo g) (hf : Fresh g) (hp : lo ≤ p ∧ p < g.size) :
    ∃ g' p', lookups G cycle repl fuel accs fringe p g = some (g', p') ∧ Built K lo g g' ∧
      lo ≤ p' ∧ p' < g'.size := by
  induction fuel generalizing accs fringe p g with
  | zero =>
    refine ⟨g, p, ?_, ⟨.refl K g, hc, hf⟩, hp⟩
    rw [lookups, if_neg (by omega)]
  | succ fuel ih =>
    by_cases hlt : accs < repl
    · have hfringe' : 0 < fringe * (G.ways - 1) := Nat.mul_pos hfringe (by omega)
      have hbuilt := fun l pre post => @Built.newChild g K lo l pre post p hc hf hp
      obtain ⟨g', p', heq, hbuilt', hp'⟩ := @ih _ (accs + min fringe (repl - accs)) _ g.size hfringe'
        (by omega) (hbuilt _ _ _).closed (hbuilt _ _ _).fresh
        ⟨hp.1.trans hp.2.le, Nat.lt_succ_self _⟩
      refine ⟨g', p', ?_, (hbuilt _ _ _).trans hbuilt', hp'⟩
      rw [lookups, if_pos hlt]
      exact heq
    · refine ⟨g, p, ?_, ⟨.refl K g, hc, hf⟩, hp⟩
      rw [lookups, if_neg hlt]

theorem lookups_direct (hlt : accs < repl) : lookups G cycle repl fuel accs 0 p g = none := by
  induction fuel generalizing accs p g with
  | zero => rw [lookups, if_pos hlt]
  | succ fuel ih =>
    rw [lookups, if_pos hlt, Nat.zero_min, Nat.zero_mul]
    exact ih hlt

theorem replLookups_pos (h : G.ways < G.cands) : 0 < (G.cands + (G.ways - 1)) / G.ways - 1 := by
  have hpos := G.ways_pos
  have hle : 2 ≤ (G.cands + (G.ways - 1)) / G.ways := by
    rw [Nat.le_div_iff_mul_le hpos]
    omega
  omega

theorem swap_built {mwe : Nat} (hc : Closed lo g) (hf : Fresh g) (hp : lo ≤ p ∧ p < g.size)
    (hmwe : mwe < g.size) (hK : ¬ K mwe) : Built K lo g (swap G cycle g p mwe) := by
  have hnew : Grows K g ((g.new ⟨.replAccess 1, cycle⟩ G.tagLat G.tagLat).new
      ⟨.replAccess 1, cycle⟩ 0 0) := (Grows.new g _ _ _).trans (.new _ _ _ _)
  have hsize := hp.1.trans hp.2.le
  refine ⟨⟨hnew.size, hnew.preDelay, hnew.postDelay, fun e he hKe => ?_⟩, ?_, ?_⟩
  · have hemwe : e ≠ mwe := fun heq => hK (heq ▸ hKe)
    have hewr : e ≠ g.size + 1 := by omega
    have herd : e ≠ g.size := he.ne
    exact (addChild_parents_of_ne hemwe).trans
      ((addChild_parents_of_ne hewr).trans (addChild_parents_of_ne herd))
  · apply Closed.addChild
    · apply Closed.addChild
      · exact hc.new.new.addChild hp.1 (hp.2.trans (Nat.lt_add_of_pos_right Nat.two_pos))
      · exact hsize
      · exact Nat.lt_add_of_pos_right Nat.two_pos
    · exact hsize.trans (Nat.le_succ _)
    · exact Nat.lt_succ_self _
  · apply Fresh.addChild
    · apply Fresh.addChild
      · exact hf.new.new.addChild (Nat.lt_add_of_pos_right Nat.two_pos)
      · exact Nat.lt_succ_self _
    · exact hmwe.trans (Nat.lt_add_of_pos_right Nat.two_pos)

theorem replacement_spec {mse mwe : Nat} (hways : 2 ≤ G.ways) (hcands : G.ways < G.cands)
    (hc : Closed lo g) (hf : Fresh g) (hmse : lo ≤ mse ∧ mse < g.size) (hmwe : mwe < g.size)
    (hK : ¬ K mwe) :
    ∃ g', replacement G cycle g mse mwe = some g' ∧ Built K lo g g' := by
  have hpos := @replLookups_pos G hcands
  obtain ⟨g₁, p₁, heq, hbuilt, hp₁⟩ := @lookups_spec G g K lo cycle
    ((G.cands + (G.ways - 1)) / G.ways - 1) ((G.cands + (G.ways - 1)) / G.ways - 1) 0 (G.ways - 1)
    mse hways (by omega) (by omega) hc hf hmse
  refine ⟨swap G cycle g₁ p₁ mwe, ?_, hbuilt.trans (swap_built hbuilt.closed hbuilt.fresh hp₁
    (hmwe.trans_le hbuilt.grows.size) hK)⟩
  rw [replacement, if_neg hpos.ne', heq]
  rfl

theorem replacement_direct {mse mwe : Nat} (hways : G.ways = 1) (hcands : G.ways < G.cands) :
    replacement G cycle g mse mwe = none := by
  have hpos := @replLookups_pos G hcands
  have hw : G.ways - 1 = 0 := by omega
  rw [hw] at hpos
  rw [replacement, hw, if_neg hpos.ne', lookups_direct hpos]
  rfl

/-- What the level above answers an access at `cycle` with. Its record is right, and its events
are new ones. -/
structure Answered (g : RecordGraph) (cycle respCycle : Nat) (record : Option AccessRecord)
    (g' : RecordGraph) : Prop where
  le : cycle ≤ respCycle
  built : Built (fun _ => True) g.size g g'
  record : ∀ tr ∈ record, Recorded g.size g' cycle respCycle tr

variable {lineAddr lineId evDoneCycle getDoneCycle respCycle mid : Nat} {type : AccessType}
  {wb acc : Option AccessRecord} {gs : RecordGraph}

theorem record_hit (hlat : cycle ≤ respCycle) (hc : Closed gs.size g) (hf : Fresh g)
    (hgs : Grows (fun _ => True) gs g) (hget : getDoneCycle - cycle = G.accLat) :
    ∃ g' tr, record G g lineAddr type lineId cycle evDoneCycle none none getDoneCycle respCycle =
        some (g', tr) ∧ tr.reqCycle = cycle ∧ tr.respCycle = respCycle ∧
        Answered gs cycle respCycle (some tr) g' := by
  refine ⟨_, _, (if_pos hget).trans (if_pos ⟨rfl, rfl⟩), rfl, rfl, hlat,
    ⟨hgs.trans (.new _ _ _ _), hc.new, hf.new⟩, fun tr htr => ?_⟩
  obtain rfl := Option.some.inj htr
  have hfirst := hf g.size le_rfl
  refine ⟨le_rfl, hlat, le_rfl, ⟨hgs.size, Nat.lt_succ_self _⟩, ⟨hgs.size, Nat.lt_succ_self _⟩,
    hfirst, .of_exists hfirst fun c => ⟨_, .first, ?_⟩⟩
  simp

theorem record_hit_isSome (hget : getDoneCycle - cycle = G.accLat)
    (h : (record G g lineAddr type lineId cycle evDoneCycle wb acc getDoneCycle
      respCycle).isSome) : wb = none ∧ acc = none := by
  rw [record, if_pos hget] at h
  split at h
  · next hnone => simpa using hnone
  · cases h

theorem eviction_built {mse mwe : Nat} (hc : Closed lo g) (hf : Fresh g)
    (hmse : lo ≤ mse ∧ mse < g.size) (hmwe : mwe < g.size) (hK : ¬ K mwe)
    (hev : evDoneCycle ≠ 0 → cycle + G.accLat ≤ evDoneCycle)
    (hwb : ∀ x ∈ wb, cycle + G.accLat ≤ x.reqCycle ∧ x.respCycle ≤ evDoneCycle ∧
      ¬ K x.startEvent ∧ x.startEvent < g.size ∧ lo ≤ x.endEvent ∧ x.endEvent < g.size) :
    ∃ g', (if evDoneCycle = 0 then some g
        else connect g wb mse mwe (cycle + G.accLat) evDoneCycle) = some g' ∧
      Built K lo g g' := by
  by_cases hz : evDoneCycle = 0
  · exact ⟨g, if_pos hz, .refl K g, hc, hf⟩
  · obtain ⟨g', hg'⟩ := @connect_isSome g wb mse mwe _ _ (hev hz)
      fun x hx => ⟨(hwb x hx).1, (hwb x hx).2.1⟩
    refine ⟨g', (if_neg hz).trans hg', connect_grows hg' hK fun x hx => (hwb x hx).2.2.1,
      connect_closed hg' hc hmse fun x hx => (hwb x hx).2.2.2.2,
      connect_fresh hg' hf hmwe fun x hx => (hwb x hx).2.2.2.1⟩

/-- The replacement path, if the cache has more candidates than ways. -/
theorem replacement_built {mse mwe : Nat} (hc : Closed lo g) (hf : Fresh g)
    (hmse : lo ≤ mse ∧ mse < g.size) (hmwe : mwe < g.size) (hK : ¬ K mwe)
    (hways : evDoneCycle ≠ 0 → G.ways < G.cands → G.ways ≠ 1) :
    ∃ g', (if evDoneCycle ≠ 0 ∧ G.ways < G.cands then replacement G cycle g mse mwe
        else some g) = some g' ∧ Built K lo g g' := by
  by_cases hr : evDoneCycle ≠ 0 ∧ G.ways < G.cands
  · have hpos := G.ways_pos
    have hne := hways hr.1 hr.2
    obtain ⟨g', hg', hbuilt⟩ := @replacement_spec G g K lo cycle mse mwe (by omega) hr.2 hc hf hmse
      hmwe hK
    exact ⟨g', (if_pos hr).trans hg', hbuilt⟩
  · exact ⟨g, if_neg hr, .refl K g, hc, hf⟩

/-- The record of a miss: the start, the record of the level above if it left one, and the
response, with an eviction and a replacement on the side. -/
theorem record_miss (hgs : Grows (fun _ => True) gs g) (hc : Closed gs.size g) (hf : Fresh g)
    (hmid : gs.size ≤ mid ∧ mid ≤ g.size) (hcm : Closed mid g)
    (hget : cycle + G.accLat < getDoneCycle)
    (hacc : ∀ x ∈ acc, Recorded mid g (cycle + G.accLat) getDoneCycle x)
    (hev : evDoneCycle ≠ 0 → cycle + G.accLat ≤ evDoneCycle)
    (hwb : ∀ x ∈ wb, cycle + G.accLat ≤ x.reqCycle ∧ x.respCycle ≤ evDoneCycle ∧
      gs.size ≤ x.startEvent ∧ x.startEvent < mid ∧ gs.size ≤ x.endEvent ∧ x.endEvent < mid)
    (hways : evDoneCycle ≠ 0 → G.ways < G.cands → G.ways ≠ 1) :
    ∃ g' tr, record G g lineAddr type lineId cycle evDoneCycle wb acc getDoneCycle getDoneCycle =
        some (g', tr) ∧ tr.reqCycle = cycle ∧ tr.respCycle = getDoneCycle ∧
        Answered gs cycle getDoneCycle (some tr) g' := by
  let g₁ := g.new ⟨.missStart lineAddr lineId, cycle⟩ 0 G.accLat
  let g₂ := g₁.new ⟨.missResponse g.size, getDoneCycle⟩ 0 0
  let g₃ := g₂.new ⟨.missWriteback g.size lineAddr, max evDoneCycle getDoneCycle⟩ 0 G.accLat
  have hg₃ : Grows (fun _ => True) g g₃ := ((Grows.new g _ _ _).trans (.new g₁ _ _ _)).trans
    (.new g₂ _ _ _)
  have hs₃ : g₃.size = g.size + 3 := rfl
  have hc₃ : Closed gs.size g₃ := hc.new.new.new
  have hcm₃ : Closed mid g₃ := hcm.new.new.new
  have hf₃ : Fresh g₃ := hf.new.new.new
  have hmse : g₃.parents g.size = [] := hf g.size le_rfl
  have hmre : g₃.parents (g.size + 1) = [] := hf _ (Nat.le_succ _)
  have hmresp : Childless mid g₃ (g.size + 1) := hcm.childless (Nat.le_succ _)
  have hmwe : Childless mid g₃ (g.size + 2) := hcm.childless (by omega)
  have hpre : g₃.preDelay g.size = 0 := by
    simp [g₁, g₂, g₃, EventGraph.new, Function.update_apply]
  have hpost : g₃.postDelay g.size = G.accLat := by
    simp [g₁, g₂, g₃, EventGraph.new, Function.update_apply]
  have hpreResp : g₃.preDelay (g.size + 1) = 0 := by
    simp [g₁, g₂, g₃, EventGraph.new]
  have hpostResp : g₃.postDelay (g.size + 1) = 0 := by
    simp [g₁, g₂, g₃, EventGraph.new]
  have hle : gs.size ≤ g.size := hgs.size
  have haccStart : ∀ x ∈ acc, mid ≤ x.startEvent ∧ x.startEvent < g.size :=
    fun x hx => (hacc x hx).startEvent
  have haccEnd : ∀ x ∈ acc, mid ≤ x.endEvent ∧ x.endEvent < g.size :=
    fun x hx => (hacc x hx).endEvent
  -- the get path
  obtain ⟨g₄, hg₄⟩ := @connect_isSome g₃ acc g.size (g.size + 1) _ _ hget.le
    fun x hx => ⟨(hacc x hx).req, (hacc x hx).resp⟩
  have hold₄ : Grows (fun i => i < gs.size) g₃ g₄ := by
    apply connect_grows hg₄
    · omega
    · intro x hx
      have := haccStart x hx
      omega
  have hmse₄ : Grows (fun i => i = g.size) g₃ g₄ := by
    apply connect_grows hg₄
    · omega
    · intro x hx
      exact (haccStart x hx).2.ne
  have hs₄ : g.size + 3 ≤ g₄.size := hmse₄.size
  have hc₄ : Closed gs.size g₄ := by
    apply connect_closed hg₄ hc₃
    · omega
    · intro x hx
      have := haccEnd x hx
      omega
  have hcm₄ : Closed mid g₄ := by
    apply connect_closed hg₄ hcm₃
    · omega
    · intro x hx
      have := haccEnd x hx
      omega
  have hf₄ : Fresh g₄ := by
    apply connect_fresh hg₄ hf₃
    · omega
    · intro x hx
      have := haccStart x hx
      omega
  have hmwe₄ : Childless mid g₄ (g.size + 2) := by
    apply connect_childless hg₄ hmwe
    · omega
    · omega
    · intro x hx
      have := haccEnd x hx
      omega
  have hstart₄ : ∀ c, StartsAt g₄ g.size c (g.size + 1)
      (c + G.accLat + (getDoneCycle - (cycle + G.accLat))) := by
    intro c
    have hstart := @connect_starts g₃ g₄ acc mid g.size (g.size + 1) _ _ g c hg₄ hget.le hg₃ hcm
      hcm₃ hacc hf₃ (by omega) (by omega) hmid.2 (by omega) hmse hmre hmresp
    rw [hpre, hpost, hpreResp] at hstart
    simpa using hstart
  -- the other paths, which only tie events to the writeback of the miss
  let K := fun i => i < gs.size ∨ mid ≤ i ∧ i ≠ g.size + 2
  have hKmwe : ¬ K (g.size + 2) := by
    simp only [K]
    omega
  have hb₅ : Built K gs.size g₄ (g₄.addChild (g.size + 1) (g.size + 2)) :=
    ⟨.addChild hKmwe, hc₄.addChild (by omega) (by omega), hf₄.addChild (by omega)⟩
  have hs₅ := hb₅.grows.size
  obtain ⟨g₆, hg₆, hb₆⟩ := @eviction_built G _ K gs.size cycle evDoneCycle wb g.size (g.size + 2)
    hb₅.closed hb₅.fresh (by omega) (by omega) hKmwe hev (by
      intro x hx
      obtain ⟨h₁, h₂, h₃, h₄, h₅, h₆⟩ := hwb x hx
      refine ⟨h₁, h₂, ?_, by omega, by omega, by omega⟩
      simp only [K]
      omega)
  have hs₆ := hb₆.grows.size
  obtain ⟨g₇, hg₇, hb₇⟩ := @replacement_built G g₆ K gs.size cycle evDoneCycle g.size (g.size + 2)
    hb₆.closed hb₆.fresh (by omega) (by omega) hKmwe hways
  have hs₇ := hb₇.grows.size
  have hside : Grows K g₄ g₇ := hb₅.grows.trans (hb₆.grows.trans hb₇.grows)
  have hold : Grows (fun i => i < gs.size) gs g₇ :=
    (hgs.mono fun _ _ => trivial).trans ((hg₃.mono fun _ _ => trivial).trans
      (hold₄.trans (hside.mono fun _ hi => .inl hi)))
  have hfirst₄ : g₄.parents g.size = [] := (hmse₄.parents g.size (by omega) rfl).trans hmse
  have hfirst : g₇.parents g.size = [] :=
    (hside.parents g.size (by omega) (.inr (by omega))).trans hfirst₄
  have hpost₇ : g₇.postDelay (g.size + 1) = 0 := by
    rw [hside.postDelay _ (by omega), hmse₄.postDelay _ (by omega), hpostResp]
  have hend₇ : ∀ c, StartsAt g₇ g.size c (g.size + 1)
      (c + G.accLat + (getDoneCycle - (cycle + G.accLat))) := by
    intro c
    have hgrows : Grows (fun i => (mid ≤ i ∧ i ≠ g.size + 2) ∧ i ≠ g.size) g₄ g₇ :=
      hside.mono fun i hi => .inr hi.1
    apply hgrows.graft
    · intro i _ hi p hp
      have hpar := hcm₄ i hi.1 p hp
      refine ⟨⟨hpar.1, ?_⟩, hpar.2⟩
      rintro rfl
      exact hmwe₄ i hi.1 hp
    · exact hfirst₄
    · rw [← hside.preDelay g.size (by omega)]
      exact .first
    · exact hstart₄ c
    · omega
    · omega
  refine ⟨g₇, ⟨lineAddr <<< G.lineBits, cycle, getDoneCycle, type, g.size, g.size + 1⟩, ?_, rfl, rfl,
    by omega, ⟨hold.all, hb₇.closed, hb₇.fresh⟩, fun tr htr => ?_⟩
  · rw [record, if_neg (by omega), if_pos rfl]
    refine Option.bind_eq_some_iff.mpr ⟨g₄, hg₄, Option.bind_eq_some_iff.mpr ⟨g₆, hg₆, ?_⟩⟩
    exact Option.map_eq_some_iff.mpr ⟨g₇, hg₇, rfl⟩
  · obtain rfl := Option.some.inj htr
    have htakes : g₇.Takes g.size (g.size + 1) (getDoneCycle - cycle) :=
      .of_exists hfirst fun c => ⟨_, hend₇ c, by omega⟩
    have hcycle : cycle ≤ getDoneCycle := by omega
    exact ⟨le_rfl, hcycle, le_rfl, ⟨hle, (by omega : g.size < g₇.size)⟩,
      ⟨(by omega : gs.size ≤ g.size + 1), (by omega : g.size + 1 < g₇.size)⟩, hfirst, htakes⟩

theorem record_miss_isSome (hget : cycle + G.accLat < getDoneCycle)
    (h : (record G g lineAddr type lineId cycle evDoneCycle wb acc getDoneCycle
      respCycle).isSome) :
    getDoneCycle = respCycle ∧ (evDoneCycle ≠ 0 → G.ways < G.cands → G.ways ≠ 1) := by
  rw [record, if_neg (by omega)] at h
  split at h
  · next heq =>
    refine ⟨heq, fun hne hcands hone => ?_⟩
    obtain ⟨x, hx⟩ := Option.isSome_iff_exists.mp h
    obtain ⟨g₄, -, h₄⟩ := Option.bind_eq_some_iff.mp hx
    obtain ⟨g₆, -, h₆⟩ := Option.bind_eq_some_iff.mp h₄
    rw [if_pos ⟨hne, hcands⟩, replacement_direct hone hcands] at h₆
    cases h₆
  · cases h

end RecordingCache

end ZSim
