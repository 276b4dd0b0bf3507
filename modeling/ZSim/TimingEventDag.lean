import ZSim.TimingEventDelivery

/-! Runs of a weave over a DAG of events. The DAG is built with `addChild` in any order,
roots may be queued at any time, and an event that is simulated is done then or later. -/

namespace ZSim

namespace Weave

open EventHeap

variable {E : Type} [DecidableEq E] {rank : E → Nat} {s s' : Weave E} {e : E}
  {t d : Nat} {todo : Multiset (E × Nat)}

/-- The invariant between calls, with the calls of `parentDone` that are owed. -/
structure Inv (rank : E → Nat) (s : Weave E) (todo : Multiset (E × Nat)) : Prop where
  counts : Counts rank s todo
  states : States none s

/-- A computation keeps the invariant and the cycle, and returns if its bound is enough. -/
def Delivers (rank : E → Nat) (s : Weave E) (r : Option (Weave E)) (todo : Multiset (E × Nat))
    (enough : Prop) : Prop :=
  (∀ s', r = some s' → Inv rank s' todo ∧ s'.curCycle = s.curCycle) ∧ (enough → r ≠ none)

theorem deliver_spec {f : E → Nat → Weave E → Option (Weave E)} {l : List E} {enough : Prop}
    (hf : ∀ s c todo, c ∈ l → Inv rank s ((c, t) ::ₘ todo) →
      Delivers rank s (f c t s) todo (enough ∧ s.curCycle ≤ t))
    (h : Inv rank s (↑(l.map fun c => (c, t)) + todo)) :
    Delivers rank s (deliver f t l s) todo (enough ∧ s.curCycle ≤ t) := by
  induction l generalizing s with
  | nil =>
    refine ⟨fun s' hs => ?_, fun _ => by simp [deliver]⟩
    cases hs
    rw [List.map_nil, Multiset.coe_nil, Multiset.zero_add] at h
    exact ⟨h, rfl⟩
  | cons c l ih =>
    rw [List.map_cons, ← Multiset.cons_coe, Multiset.cons_add] at h
    obtain ⟨hinv, htotal⟩ := hf s c _ List.mem_cons_self h
    have htail : ∀ s₁, f c t s = some s₁ →
        Delivers rank s₁ (deliver f t l s₁) todo (enough ∧ s₁.curCycle ≤ t) :=
      fun s₁ hs =>
        ih (fun s c todo hc => hf s c todo (List.mem_cons_of_mem _ hc)) (hinv s₁ hs).1
    rw [deliver]
    constructor
    · intro s' hs
      obtain ⟨s₁, hs₁, hs⟩ := Option.bind_eq_some_iff.mp hs
      obtain ⟨h', hcur⟩ := (htail s₁ hs₁).1 s' hs
      exact ⟨h', hcur.trans (hinv s₁ hs₁).2⟩
    · rintro ⟨hen, hle⟩
      obtain ⟨s₁, hs₁⟩ := Option.ne_none_iff_exists'.mp (htotal ⟨hen, hle⟩)
      rw [hs₁, Option.bind_some]
      rw [← (hinv s₁ hs₁).2] at hle
      exact (htail s₁ hs₁).2 ⟨hen, hle⟩

/-- `done` of a running event, given what `parentDone` does to its children. -/
theorem doneWith_spec {f : E → Nat → Weave E → Option (Weave E)} {enough : Prop}
    (hf : ∀ s c t todo, rank e < rank c → Inv rank s ((c, t) ::ₘ todo) →
      Delivers rank s (f c t s) todo (enough ∧ s.curCycle ≤ t))
    (h : Inv rank s todo) (hrun : (s.event e).state = .EV_RUNNING)
    (hdelay : (s.event e).isDelay = true → HasParent s e ∧ (s.event e).numParents = 0 ∧
      d = (s.event e).cycle + (s.event e).preDelay) :
    Delivers rank s (doneWith f e d s) todo (enough ∧ s.curCycle ≤ d) := by
  obtain ⟨chains, hok⟩ := h.counts.children
  obtain ⟨v, hv, hperm⟩ := hok.visit e
  have hnone : s.doneAt e = none := by
    by_contra hne
    have hst := (h.states.done e).mpr hne
    rw [hrun] at hst
    cases hst
  have hinv : Inv rank (setDone e d s)
      (↑(v.map fun c => (c, d + (s.event e).postDelay)) + todo) := by
    have hdel : (↑(v.map fun c => (c, d + (s.event e).postDelay)) : Multiset (E × Nat)) =
        deliveries s e d := Multiset.coe_eq_coe.mpr (hperm.map _)
    rw [hdel]
    exact ⟨h.counts.setDone hnone d, h.states.setDone hrun hdelay⟩
  rw [doneWith, if_pos hrun, hv, Option.bind_some]
  have hdeliver := deliver_spec (f := f) (fun s' c todo hc hs => hf s' c _ todo ?_ hs) hinv
  · refine ⟨hdeliver.1, fun ⟨hen, hle⟩ => hdeliver.2 ⟨hen, ?_⟩⟩
    exact hle.trans (Nat.le_add_right _ _)
  · have hmem : (c, d + (s.event e).postDelay) ∈ deliveries s e d :=
      Multiset.mem_coe.mpr (List.mem_map.mpr ⟨c, hperm.mem_iff.mp hc, rfl⟩)
    exact h.counts.ranked _ (mem_deliveries.mp hmem).1

theorem Counts.setState (h : Counts rank s todo) (e : E) (st : EventState) :
    Counts rank (s.setEvent e { s.event e with state := st }) todo := by
  refine h.congr rfl rfl (fun x => ?_) rfl rfl rfl
  rw [event_setEvent]
  by_cases hx : x = e
  · rw [if_pos hx, hx]
    exact ⟨_, rfl⟩
  · rw [if_neg hx]
    exact ⟨(s.event x).state, rfl⟩

/-- The queue and the cycle do not matter to the counts, nor what is recorded of them. -/
theorem Counts.records (h : Counts rank s todo) (q : Multiset (E × Nat)) (c : Nat)
    (qs sim : List (E × Nat)) :
    Counts rank { s with queue := q, curCycle := c, queued := qs, simulated := sim } todo :=
  h.congr rfl rfl (fun x => ⟨(s.event x).state, rfl⟩) rfl rfl rfl

/-- One call of `parentDone`, with all the calls nested in it through delay events. -/
theorem parentDone_spec (k : Nat) :
    ∀ {s : Weave E} {e : E} {t : Nat} {todo : Multiset (E × Nat)},
      Inv rank s ((e, t) ::ₘ todo) →
      Delivers rank s (parentDone k e t s) todo ((∀ x, rank x < k + rank e) ∧ s.curCycle ≤ t) := by
  induction k with
  | zero =>
    intro s e t todo _
    refine ⟨(fun s' hs => by cases hs), fun ⟨hk, _⟩ => ?_⟩
    have := hk e
    omega
  | succ k ih =>
    intro s e t todo h
    have hpos := h.counts.pos_of_owed
    have hne : (s.event e).numParents ≠ 0 := by omega
    have hw := h.states.waits (h.states.waiting e hne)
    have hc₁ := h.counts.arrive
    have hs₁ := h.states.arrive (t := t) hne
    set s₁ := arrive e t s with hs₁def
    have hev : s₁.event e = { s.event e with
        cycle := max (s.event e).cycle t
        numParents := decParents (s.event e).numParents } := by
      rw [hs₁def, event_arrive, if_pos rfl]
    have hw₁ : Waits s₁ e := ⟨by rw [hev]; exact hw.state, hw.queue, hw.simulated, hw.doneAt⟩
    have hparent : HasParent s₁ e := by
      obtain ⟨x, hx, hxe, _⟩ := h.counts.owed _ (Multiset.mem_cons_self _ _)
      exact ⟨x, hx, hxe⟩
    have hdelayed : (s₁.event e).isDelay = (s.event e).isDelay := by rw [hev]
    have hcur : s.curCycle ≤ t → s.curCycle ≤ (s₁.event e).cycle + (s₁.event e).preDelay := by
      intro hle
      rw [hev]
      show s.curCycle ≤ max (s.event e).cycle t + _
      have := Nat.le_max_right (s.event e).cycle t
      omega
    rw [parentDone, ← hs₁def]
    by_cases hlast : (s₁.event e).numParents = 0
    · have hdec : decParents (s.event e).numParents = 0 := by rwa [hev] at hlast
      rw [if_pos hdec] at hs₁
      cases hdelay : (s.event e).isDelay with
      | true =>
        have hs₂ := hs₁.wake hw₁ hlast (.inr ⟨rfl, rfl, hdelayed.trans hdelay⟩)
        have hc₂ := hc₁.setState e .EV_RUNNING
        set s₂ := s₁.setEvent e { s₁.event e with state := .EV_RUNNING }
        have hev₂ : s₂.event e = { s₁.event e with state := .EV_RUNNING } := by
          rw [event_setEvent, if_pos rfl]
        rw [if_pos rfl, if_pos hlast]
        have hchild : ∀ s' c t' todo', rank e < rank c → Inv rank s' ((c, t') ::ₘ todo') →
            Delivers rank s' (parentDone k c t' s') todo'
              ((∀ x, rank x < k + 1 + rank e) ∧ s'.curCycle ≤ t') := by
          intro s' c t' todo' hlt hs'
          obtain ⟨h1, h2⟩ := ih hs'
          exact ⟨h1, fun ⟨hk, ht⟩ => h2 ⟨fun x => (hk x).trans_le (by omega), ht⟩⟩
        have hdone := doneWith_spec hchild ⟨hc₂, hs₂⟩ (by rw [hev₂])
          fun _ => ⟨hparent, by rw [hev₂]; exact hlast, by rw [hev₂]⟩
        exact ⟨hdone.1, fun ⟨hle, ht⟩ => hdone.2 ⟨hle, hcur ht⟩⟩
      | false =>
        rw [if_neg (by simp), if_neg hne, if_pos hlast, if_pos hw₁.state, enqueue]
        have hready : ((s₁.setEvent e { s₁.event e with state := .EV_QUEUED }).event e).numParents
            = 0 := by
          rw [event_setEvent, if_pos rfl]
          exact hlast
        split
        · next hcheck =>
          refine ⟨fun s₂ hs => ?_, fun _ hnone => by cases hnone⟩
          cases hs
          have hnodelay : (s₁.event e).isDelay = true → ¬ HasParent s₁ e := by
            rw [hdelayed, hdelay]
            nofun
          have hstart : StartsAt s₁ e ((s₁.event e).cycle + (s₁.event e).preDelay) :=
            ⟨hlast, fun _ => rfl, fun hno => absurd hparent hno⟩
          exact ⟨⟨(hc₁.setState e .EV_QUEUED).records _ _ _ _,
            hs₁.wake hw₁ hlast (.inl ⟨rfl, _, rfl, hcheck.1, hstart, hnodelay⟩)⟩, rfl⟩
        · next hcheck =>
          refine ⟨fun s₂ hs => (by cases hs), fun ⟨_, ht⟩ _ => hcheck ⟨hcur ht, hready⟩⟩
    · have hdec : decParents (s.event e).numParents ≠ 0 := by rwa [hev] at hlast
      rw [if_neg hdec] at hs₁
      rw [if_neg hlast, if_neg hne, if_neg hlast, ite_self]
      refine ⟨fun s' hs => ?_, fun _ hs => by cases hs⟩
      cases hs
      exact ⟨⟨hc₁, hs₁⟩, rfl⟩

end Weave

end ZSim
