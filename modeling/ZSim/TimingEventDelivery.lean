import ZSim.TimingEventInvariant

/-! What one call of `parentDone` and one of `done` do to the invariant. The calls are
nested through delay events; the induction is on their depth, and the calls still owed
are those of all the loops that are under way. -/

namespace ZSim

namespace Weave

open EventHeap

variable {E : Type} [DecidableEq E] {rank : E → Nat} {s s' : Weave E} {e : E} {t : Nat}
  {todo : Multiset (E × Nat)}

theorem event_arrive (e : E) (t : Nat) (s : Weave E) (x : E) :
    (arrive e t s).event x = if x = e then { s.event e with
      cycle := max (s.event e).cycle t
      numParents := decParents (s.event e).numParents } else s.event x :=
  event_setEvent s e x _

theorem Counts.pos_of_owed (h : Counts rank s ((e, t) ::ₘ todo)) :
    (s.event e).numParents = pending s e + owedTo todo e + 1 := by
  rw [h.numParents e, owedTo_cons_self]
  rfl

theorem Counts.arrive (h : Counts rank s ((e, t) ::ₘ todo)) : Counts rank (arrive e t s) todo := by
  have hpos := h.pos_of_owed
  have hdec : decParents (s.event e).numParents = pending s e + owedTo todo e := by
    rw [decParents, if_neg (by omega), hpos]
    rfl
  have hte := h.owed _ (Multiset.mem_cons_self _ _)
  have hpost : ∀ x, ((Weave.arrive e t s).event x).postDelay = (s.event x).postDelay := by
    intro x
    rw [event_arrive]
    split
    · next hx => rw [hx]
    · rfl
  have harr : ∀ x c, Arrives (Weave.arrive e t s) x c ↔ Arrives s x c := by
    intro x c
    simp only [Arrives, hpost]
    rfl
  constructor
  · obtain ⟨chains, hok⟩ := h.children
    refine ⟨chains, hok.congr rfl rfl fun x => ?_⟩
    show ((Weave.arrive e t s).event x).child = _ ∧ ((Weave.arrive e t s).event x).numChildren = _
    rw [event_arrive]
    split
    · next hx => rw [hx]; exact ⟨rfl, rfl⟩
    · exact ⟨rfl, rfl⟩
  · exact h.ranked
  · intro x
    rw [event_arrive]
    by_cases hx : x = e
    · subst hx
      rw [if_pos rfl]
      exact hdec
    · rw [if_neg hx, h.numParents x, owedTo_cons_of_ne hx]
      rfl
  · intro x hx d hd
    rw [hpost, event_arrive]
    rcases h.arrived x hx d hd with hle | hmem
    · left
      split
      · next hxe =>
        rw [hxe] at hle
        exact hle.trans (Nat.le_max_left _ _)
      · exact hle
    · rcases Multiset.mem_cons.mp hmem with heq | hmem
      · left
        obtain ⟨hxe, ht⟩ := Prod.mk.inj heq
        rw [if_pos hxe, ht]
        exact Nat.le_max_right _ _
      · exact .inr hmem
  · intro x
    rw [harr, event_arrive]
    by_cases hx : x = e
    · subst hx
      rw [if_pos rfl]
      rcases Nat.le_total t (s.event x).cycle with hle | hle
      · simp only [Nat.max_eq_left hle]
        exact h.attained x
      · simp only [Nat.max_eq_right hle]
        exact .inr hte
    · rw [if_neg hx]
      exact h.attained x
  · intro x hx
    rw [harr]
    exact h.owed x (Multiset.mem_cons_of_mem hx)
  · intro x
    have hz := h.zeroed x
    rw [event_arrive]
    show x ∈ (if decParents (s.event e).numParents = 0 then e :: s.zeroed else s.zeroed) ↔
      HasParent s x ∧ _
    by_cases hx : x = e
    · subst hx
      rw [if_pos rfl]
      have hout : x ∉ s.zeroed := fun hm => by
        have := (hz.mp hm).2
        omega
      have hhas : HasParent s x := by
        obtain ⟨y, hy, hyx, -⟩ := hte
        exact ⟨y, hy, hyx⟩
      split
      · next h0 => exact ⟨fun _ => ⟨hhas, h0⟩, fun _ => List.mem_cons_self⟩
      · next h0 => exact ⟨fun hm => absurd hm hout, fun hh => absurd hh.2 h0⟩
    · rw [if_neg hx, ← hz]
      split
      · rw [List.mem_cons]
        exact ⟨fun hm => hm.resolve_left hx, .inr⟩
      · exact Iff.rfl
  · show (if decParents (s.event e).numParents = 0 then e :: s.zeroed else s.zeroed).Nodup
    split
    · refine List.nodup_cons.mpr ⟨fun hm => ?_, h.zeroed_nodup⟩
      have := ((h.zeroed e).mp hm).2
      omega
    · exact h.zeroed_nodup

/-- An event that waits is neither queued, running nor done. -/
structure Waits (s : Weave E) (e : E) : Prop where
  state : (s.event e).state = .EV_NONE
  queue : ∀ x ∈ s.queue, x.1 ≠ e
  simulated : ∀ x ∈ s.simulated, x.1 ≠ e
  doneAt : s.doneAt e = none

omit [DecidableEq E] in
theorem States.waits {out : Option E} (h : States out s) (hn : (s.event e).state = .EV_NONE) :
    Waits s e := by
  refine ⟨hn, fun x hx hxe => ?_, fun x hx hxe => ?_, ?_⟩
  · have hq := (h.queued e).mpr ⟨x.2, by rw [← hxe]; exact hx⟩
    rw [hn] at hq
    cases hq
  · have hst := (h.simulated_at x hx).2.2
    rw [hxe, hn] at hst
    rcases hst with hst | hst
    · cases hst
    · cases hst
  · by_contra hne
    have hd := (h.done e).mpr hne
    rw [hn] at hd
    cases hd

theorem States.arrive (h : States none s) (hpos : (s.event e).numParents ≠ 0) :
    States (if decParents (s.event e).numParents = 0 then some e else none) (arrive e t s) := by
  have hw := h.waits (h.waiting e hpos)
  have hstate : ∀ x, ((Weave.arrive e t s).event x).state = (s.event x).state := by
    intro x
    rw [event_arrive]
    split
    · next hx => rw [hx]
    · rfl
  have hother : ∀ x, x ≠ e → (Weave.arrive e t s).event x = s.event x := fun x hx => by
    rw [event_arrive, if_neg hx]
  have hstart : ∀ x c, x ≠ e → StartsAt s x c → StartsAt (Weave.arrive e t s) x c := by
    intro x c hx hs
    constructor
    · rw [hother x hx]
      exact hs.ready
    · rw [hother x hx]
      exact hs.child
    · exact hs.root
  constructor
  · intro x hx
    rw [hstate]
    by_cases hxe : x = e
    · rw [hxe]
      exact hw.state
    · rw [hother x hxe] at hx
      exact h.waiting x hx
  · intro x hout hn h0
    rw [hstate] at hn
    by_cases hxe : x = e
    · subst hxe
      rw [event_arrive, if_pos rfl] at h0
      rw [if_pos h0] at hout
      exact absurd rfl hout
    · rw [hother x hxe] at h0
      exact h.idle x (by simp) hn h0
  · intro x
    rw [hstate]
    exact h.done x
  · intro x
    rw [hstate]
    exact h.queued x
  · exact h.queue_nodup
  · intro x hx
    obtain ⟨hc, hs⟩ := h.queue_at x hx
    exact ⟨hc, hstart _ _ (hw.queue x hx) hs⟩
  · exact h.simulated_nodup
  · intro x hx
    obtain ⟨hs, hst⟩ := h.simulated_at x hx
    rw [hother x.1 (hw.simulated x hx)]
    exact ⟨hstart _ _ (hw.simulated x hx) hs, hst⟩
  · intro x hx hd
    rw [hstate] at hx
    have hxe : x ≠ e := by
      rintro rfl
      rw [hw.state] at hx
      rcases hx with hx | hx
      · cases hx
      · cases hx
    rw [hother x hxe] at hd
    exact h.simulated_of x hx hd
  · intro x hx _
    rw [hstate]
    exact h.rooted x hx (by simp)
  · intro x hx
    rw [hother x.1 (hw.queue x hx)]
    exact h.queue_delay x hx
  · intro x d hd hdone
    have hxe : x ≠ e := by
      rintro rfl
      have hnone : s.doneAt x = some d := hdone
      rw [hw.doneAt] at hnone
      cases hnone
    rw [hother x hxe] at hd ⊢
    exact h.delay_at x d hd hdone

/-- An event whose last parent arrived is queued, or if it is a delay runs at once. -/
theorem States.wake (h : States (some e) s) (hw : Waits s e) (hready : (s.event e).numParents = 0)
    {st : EventState} {queue : Multiset (E × Nat)}
    (hst : (st = .EV_QUEUED ∧ ∃ c, queue = (e, c) ::ₘ s.queue ∧ s.curCycle ≤ c ∧ StartsAt s e c ∧
        ((s.event e).isDelay = true → ¬ HasParent s e)) ∨
      (st = .EV_RUNNING ∧ queue = s.queue ∧ (s.event e).isDelay = true)) :
    States none { s.setEvent e { s.event e with state := st } with queue := queue } := by
  set s' : Weave E := { s.setEvent e { s.event e with state := st } with queue := queue } with hs'
  have hev : ∀ x, s'.event x = if x = e then { s.event e with state := st } else s.event x :=
    fun x => event_setEvent s e x _
  have hself : s'.event e = { s.event e with state := st } := by rw [hev, if_pos rfl]
  have hother : ∀ x, x ≠ e → s'.event x = s.event x := fun x hx => by rw [hev, if_neg hx]
  have hne : st ≠ .EV_NONE ∧ st ≠ .EV_DONE := by
    rcases hst with ⟨rfl, -⟩ | ⟨rfl, -⟩
    · exact ⟨by decide, by decide⟩
    · exact ⟨by decide, by decide⟩
  have hstart : ∀ x c, StartsAt s x c → StartsAt s' x c := by
    intro x c hs
    by_cases hx : x = e
    · subst hx
      exact ⟨by rw [hself]; exact hs.ready, by rw [hself]; exact hs.child, hs.root⟩
    · exact ⟨by rw [hother x hx]; exact hs.ready, by rw [hother x hx]; exact hs.child, hs.root⟩
  have hmem : ∀ x, x ∈ queue → x ∈ s.queue ∨
      (x.1 = e ∧ s.curCycle ≤ x.2 ∧ StartsAt s x.1 x.2 ∧
        ((s.event e).isDelay = true → ¬ HasParent s e)) := by
    intro x hx
    rcases hst with ⟨-, c, rfl, hc, hs⟩ | ⟨-, rfl, -⟩
    · rcases Multiset.mem_cons.mp hx with rfl | hx
      · exact .inr ⟨rfl, hc, hs⟩
      · exact .inl hx
    · exact .inl hx
  constructor
  · intro x hx
    by_cases hxe : x = e
    · subst hxe
      rw [hself] at hx
      exact absurd hready hx
    · rw [hother x hxe] at hx ⊢
      exact h.waiting x hx
  · intro x _ hn h0
    by_cases hxe : x = e
    · subst hxe
      rw [hself] at hn
      exact absurd hn hne.1
    · rw [hother x hxe] at hn h0
      exact h.idle x (fun he => hxe (Option.some.inj he)) hn h0
  · intro x
    by_cases hxe : x = e
    · subst hxe
      rw [hself]
      exact ⟨fun hd => absurd hd hne.2, fun hd => absurd hw.doneAt hd⟩
    · rw [hother x hxe]
      exact h.done x
  · intro x
    by_cases hxe : x = e
    · subst hxe
      rw [hself]
      rcases hst with ⟨rfl, c, rfl, -⟩ | ⟨rfl, rfl, -⟩
      · exact ⟨fun _ => ⟨c, Multiset.mem_cons_self _ _⟩, fun _ => rfl⟩
      · refine ⟨nofun, ?_⟩
        rintro ⟨c, hc⟩
        exact absurd rfl (hw.queue _ hc)
    · rw [hother x hxe, h.queued x]
      constructor
      · rintro ⟨c, hc⟩
        rcases hst with ⟨-, c', hq, -⟩ | ⟨-, hq, -⟩
        · exact ⟨c, by rw [hs', hq]; exact Multiset.mem_cons_of_mem hc⟩
        · exact ⟨c, by rw [hs', hq]; exact hc⟩
      · rintro ⟨c, hc⟩
        rcases hmem _ hc with hc | ⟨hc, -⟩
        · exact ⟨c, hc⟩
        · exact absurd hc hxe
  · rcases hst with ⟨-, c, rfl, -⟩ | ⟨-, rfl, -⟩
    · rw [Multiset.map_cons, Multiset.nodup_cons]
      refine ⟨fun hm => ?_, h.queue_nodup⟩
      obtain ⟨x, hx, hxe⟩ := Multiset.mem_map.mp hm
      exact hw.queue x hx hxe
    · exact h.queue_nodup
  · intro x hx
    rcases hmem x hx with hx | ⟨-, hc, hs, -⟩
    · obtain ⟨hc, hs⟩ := h.queue_at x hx
      exact ⟨hc, hstart _ _ hs⟩
    · exact ⟨hc, hstart _ _ hs⟩
  · exact h.simulated_nodup
  · intro x hx
    obtain ⟨hs, hrest⟩ := h.simulated_at x hx
    rw [hother x.1 (hw.simulated x hx)]
    exact ⟨hstart _ _ hs, hrest⟩
  · intro x hx hd
    by_cases hxe : x = e
    · subst hxe
      rw [hself] at hx hd
      rcases hst with ⟨rfl, -⟩ | ⟨-, -, hdelay⟩
      · rcases hx with hx | hx
        · cases hx
        · cases hx
      · rw [hdelay] at hd
        cases hd
    · rw [hother x hxe] at hx hd
      exact h.simulated_of x hx hd
  · intro x hx _
    by_cases hxe : x.1 = e
    · rw [hxe, hself]
      exact hne.1
    · rw [hother x.1 hxe]
      exact h.rooted x hx fun he => hxe (Option.some.inj he)
  · intro x hx hd
    by_cases hxe : x.1 = e
    · rcases hmem x hx with hx | ⟨-, -, -, hp⟩
      · exact absurd hxe (hw.queue x hx)
      · rw [hxe, hself] at hd
        rw [hxe]
        exact hp hd
    · rcases hmem x hx with hx | ⟨hx, -⟩
      · rw [hother x.1 hxe] at hd
        exact h.queue_delay x hx hd
      · exact absurd hx hxe
  · intro x d hd hdone
    have hxe : x ≠ e := by
      rintro rfl
      have hsome : s.doneAt x = some d := hdone
      rw [hw.doneAt] at hsome
      cases hsome
    rw [hother x hxe] at hd ⊢
    exact h.delay_at x d hd hdone

theorem event_setDone (e : E) (d : Nat) (s : Weave E) (x : E) :
    (setDone e d s).event x =
      if x = e then { s.event e with state := .EV_DONE } else s.event x :=
  event_setEvent s e x _

theorem States.setDone (h : States none s) (hrun : (s.event e).state = .EV_RUNNING) {d : Nat}
    (hdelay : (s.event e).isDelay = true → HasParent s e ∧ (s.event e).numParents = 0 ∧
      d = (s.event e).cycle + (s.event e).preDelay) : States none (setDone e d s) := by
  have hself : (Weave.setDone e d s).event e = { s.event e with state := .EV_DONE } := by
    rw [event_setDone, if_pos rfl]
  have hother : ∀ x, x ≠ e → (Weave.setDone e d s).event x = s.event x := fun x hx => by
    rw [event_setDone, if_neg hx]
  have hstart : ∀ x c, StartsAt s x c → StartsAt (Weave.setDone e d s) x c := by
    intro x c hs
    by_cases hx : x = e
    · subst hx
      exact ⟨by rw [hself]; exact hs.ready, by rw [hself]; exact hs.child, hs.root⟩
    · exact ⟨by rw [hother x hx]; exact hs.ready, by rw [hother x hx]; exact hs.child, hs.root⟩
  constructor
  · intro x hx
    by_cases hxe : x = e
    · subst hxe
      rw [hself] at hx
      have hn := h.waiting x hx
      rw [hrun] at hn
      cases hn
    · rw [hother x hxe] at hx ⊢
      exact h.waiting x hx
  · intro x hout hn h0
    by_cases hxe : x = e
    · subst hxe
      rw [hself] at hn
      cases hn
    · rw [hother x hxe] at hn h0
      exact h.idle x hout hn h0
  · intro x
    show _ ↔ Function.update s.doneAt e (some d) x ≠ none
    by_cases hxe : x = e
    · subst hxe
      rw [hself, Function.update_self]
      exact ⟨fun _ => by simp, fun _ => rfl⟩
    · rw [hother x hxe, Function.update_of_ne hxe]
      exact h.done x
  · intro x
    have hq := h.queued x
    by_cases hxe : x = e
    · subst hxe
      rw [hself]
      rw [hrun] at hq
      exact ⟨nofun, fun hd => nomatch hq.mpr hd⟩
    · rw [hother x hxe]
      exact hq
  · exact h.queue_nodup
  · intro x hx
    obtain ⟨hc, hs⟩ := h.queue_at x hx
    exact ⟨hc, hstart _ _ hs⟩
  · exact h.simulated_nodup
  · intro x hx
    obtain ⟨hs, hd, hst⟩ := h.simulated_at x hx
    refine ⟨hstart _ _ hs, ?_⟩
    by_cases hxe : x.1 = e
    · rw [hxe, hself]
      rw [hxe] at hd
      exact ⟨hd, .inr rfl⟩
    · rw [hother x.1 hxe]
      exact ⟨hd, hst⟩
  · intro x hx hd
    by_cases hxe : x = e
    · subst hxe
      rw [hself] at hd
      exact h.simulated_of x (.inl hrun) hd
    · rw [hother x hxe] at hx hd
      exact h.simulated_of x hx hd
  · intro x hx _
    by_cases hxe : x.1 = e
    · rw [hxe, hself]
      nofun
    · rw [hother x.1 hxe]
      exact h.rooted x hx (by simp)
  · intro x hx hd
    apply h.queue_delay x hx
    by_cases hxe : x.1 = e
    · rw [hxe, hself] at hd
      rw [hxe]
      exact hd
    · rw [hother x.1 hxe] at hd
      exact hd
  · intro x d' hd hdone
    have hdone' : Function.update s.doneAt e (some d) x = some d' := hdone
    by_cases hxe : x = e
    · subst hxe
      rw [Function.update_self] at hdone'
      cases hdone'
      rw [hself] at hd ⊢
      exact hdelay hd
    · rw [Function.update_of_ne hxe] at hdone'
      rw [hother x hxe] at hd ⊢
      exact h.delay_at x d' hd hdone'

/-- The calls `e` owes its children once it is done. -/
def deliveries (s : Weave E) (e : E) (d : Nat) : Multiset (E × Nat) :=
  ↑((kids s e).map fun c => (c, d + (s.event e).postDelay))

theorem mem_deliveries {d : Nat} {x : E × Nat} : x ∈ deliveries s e d ↔
    (e, x.1) ∈ s.edges ∧ x.2 = d + (s.event e).postDelay := by
  obtain ⟨c, t⟩ := x
  simp only [deliveries, kids, Multiset.mem_coe, List.mem_map, List.mem_reverse, List.mem_filter,
    decide_eq_true_eq, Prod.mk.injEq]
  constructor
  · rintro ⟨_, ⟨⟨p, c'⟩, ⟨hx, rfl⟩, rfl⟩, rfl, rfl⟩
    exact ⟨hx, rfl⟩
  · rintro ⟨hx, rfl⟩
    exact ⟨c, ⟨(e, c), ⟨hx, rfl⟩, rfl⟩, rfl, rfl⟩

theorem owedTo_deliveries (s : Weave E) (e : E) (d : Nat) (x : E) :
    owedTo (deliveries s e d) x = s.edges.countP fun y => y.1 = e ∧ y.2 = x := by
  rw [owedTo, deliveries, Multiset.coe_countP, kids, List.map_reverse, List.countP_reverse,
    List.map_map, List.countP_map, List.countP_filter]
  apply List.countP_congr
  intro y _
  simp [and_comm]

theorem pending_setDone {d : Nat} (hnone : s.doneAt e = none) (x : E) :
    pending s x = pending (setDone e d s) x + owedTo (deliveries s e d) x := by
  rw [owedTo_deliveries, pending, pending]
  show _ = s.edges.countP (fun y => y.2 = x ∧ Function.update s.doneAt e (some d) y.1 = none) + _
  induction s.edges with
  | nil => rfl
  | cons y ys ih =>
    rw [List.countP_cons, List.countP_cons, List.countP_cons, ih]
    by_cases hy : y.1 = e
    · simp only [hy, Function.update_self, hnone]
      by_cases hyx : y.2 = x <;> simp [hyx]
      omega
    · simp only [hy, Function.update_of_ne hy]
      simp
      omega

theorem Counts.setDone (h : Counts rank s todo) (hnone : s.doneAt e = none) (d : Nat) :
    Counts rank (setDone e d s) (deliveries s e d + todo) := by
  have hev : ∀ x, ∃ st, (Weave.setDone e d s).event x = { s.event x with state := st } := by
    intro x
    rw [event_setDone]
    by_cases hx : x = e
    · rw [if_pos hx, hx]
      exact ⟨_, rfl⟩
    · rw [if_neg hx]
      exact ⟨(s.event x).state, rfl⟩
  have hparents : ∀ x, ((Weave.setDone e d s).event x).numParents = (s.event x).numParents := by
    intro x
    obtain ⟨st, hx⟩ := hev x
    rw [hx]
  have hcycle : ∀ x, ((Weave.setDone e d s).event x).cycle = (s.event x).cycle := by
    intro x
    obtain ⟨st, hx⟩ := hev x
    rw [hx]
  have hpost : ∀ x, ((Weave.setDone e d s).event x).postDelay = (s.event x).postDelay := by
    intro x
    obtain ⟨st, hx⟩ := hev x
    rw [hx]
  have hdone : ∀ x c, s.doneAt x = some c → (Weave.setDone e d s).doneAt x = some c := by
    intro x c hx
    have hne : x ≠ e := by
      rintro rfl
      rw [hnone] at hx
      cases hx
    show Function.update s.doneAt e (some d) x = some c
    rw [Function.update_of_ne hne]
    exact hx
  have harr : ∀ x c, Arrives s x c → Arrives (Weave.setDone e d s) x c := by
    rintro x c ⟨y, hy, hyx, d', hd', rfl⟩
    exact ⟨y, hy, hyx, d', hdone _ _ hd', by rw [hpost]⟩
  constructor
  · obtain ⟨chains, hok⟩ := h.children
    refine ⟨chains, hok.congr rfl rfl fun x => ?_⟩
    obtain ⟨st, hx⟩ := hev x
    show ((Weave.setDone e d s).event x).child = _ ∧ ((Weave.setDone e d s).event x).numChildren = _
    rw [hx]
    exact ⟨rfl, rfl⟩
  · exact h.ranked
  · intro x
    rw [hparents, h.numParents x, pending_setDone (d := d) hnone x, owedTo, owedTo, owedTo,
      Multiset.countP_add, Nat.add_assoc]
  · intro x hx c hc
    rw [hpost, hcycle]
    by_cases hxe : x.1 = e
    · have hc' : Function.update s.doneAt e (some d) x.1 = some c := hc
      rw [hxe, Function.update_self] at hc'
      cases hc'
      right
      rw [Multiset.mem_add, mem_deliveries, hxe]
      exact .inl ⟨by rw [← hxe]; exact hx, rfl⟩
    · have hc' : Function.update s.doneAt e (some d) x.1 = some c := hc
      rw [Function.update_of_ne hxe] at hc'
      rcases h.arrived x hx c hc' with hle | hmem
      · exact .inl hle
      · exact .inr (Multiset.mem_add.mpr (.inr hmem))
  · intro x
    rw [hcycle]
    exact (h.attained x).imp_right (harr x _)
  · intro x hx
    rcases Multiset.mem_add.mp hx with hx | hx
    · obtain ⟨hedge, ht⟩ := mem_deliveries.mp hx
      exact ⟨(e, x.1), hedge, rfl, d, Function.update_self _ _ _, by rw [hpost]; exact ht⟩
    · exact harr _ _ (h.owed x hx)
  · intro x
    rw [hparents]
    exact h.zeroed x
  · exact h.zeroed_nodup

end Weave

end ZSim
