import ZSim.TimingEventDag
import Mathlib.Order.Bounds.Basic

/-! Runs of one domain. Events may be added below others and roots queued at any time,
the first event of the queue is simulated, and a simulated event is done then or later. -/

namespace ZSim

namespace Weave

open EventHeap

variable {E : Type} [DecidableEq E] {rank : E → Nat} {s s' : Weave E} {e p c : E} {t : Nat}

/-- `rank` says that what is built is acyclic. -/
inductive Step (rank : E → Nat) (s s' : Weave E) : Prop
  | addChild (p c : E) (hrank : rank p < rank c) (hs : s.addChild p c = some s')
  | queueRoot (e : E) (qCycle : Nat) (hs : s.queueRoot e qCycle = some s')
  | run (e : E) (c : Nat) (hx : (e, c) ∈ s.queue) (hfirst : ∀ x ∈ s.queue, c ≤ x.2)
      (hs : run e c (s.dequeue (e, c)) = some s')
  | done (k : Nat) (e : E) (d : Nat) (hevent : (s.event e).isDelay = false)
      (hs : done k e d s = some s')

inductive Reachable (rank : E → Nat) : Weave E → Prop
  | init (events : E → TimingEvent E) (curCycle : Nat)
      (hnew : ∀ e, ∃ isDelay start pre post, events e = .init isDelay start pre post) :
      Reachable rank (init events curCycle)
  | step {s s' : Weave E} (hs : Reachable rank s) (hstep : Step rank s s') : Reachable rank s'

theorem Inv.init {events : E → TimingEvent E} (curCycle : Nat)
    (hnew : ∀ e, ∃ isDelay start pre post, events e = .init isDelay start pre post) :
    Inv rank (init events curCycle) 0 := by
  have hev : ∀ e, ∃ isDelay start pre post,
      (Weave.init events curCycle).event e = .init isDelay start pre post := hnew
  have hstate : ∀ e, ((Weave.init events curCycle).event e).state = .EV_NONE := by
    intro e
    obtain ⟨_, _, _, _, he⟩ := hev e
    rw [he]
    rfl
  have hparents : ∀ e, ((Weave.init events curCycle).event e).numParents = 0 := by
    intro e
    obtain ⟨_, _, _, _, he⟩ := hev e
    rw [he]
    rfl
  have hnone : ∀ e, ¬ HasParent (Weave.init events curCycle) e := by
    rintro e ⟨x, hx, -⟩
    cases hx
  have hkids : ∀ e, kids (Weave.init events curCycle) e = [] := fun _ => rfl
  constructor
  · constructor
    · refine ⟨fun _ => [], ?_, fun _ => List.nodup_nil, ?_, ?_⟩
      · intro e
        obtain ⟨_, _, _, _, he⟩ := hev e
        constructor
        · show ((Weave.init events curCycle).event e).numChildren = _
          rw [he]
          rfl
        · intro c hc
          rw [hkids] at hc
          cases hc
        · intro _
          rfl
        · intro hlen
          rw [hkids] at hlen
          cases hlen
      · intro e b hb
        cases hb
      · intro e e' _ b hb
        cases hb
    · intro x hx
      cases hx
    · intro e
      rw [hparents]
      rfl
    · intro x hx
      cases hx
    · intro e
      obtain ⟨_, _, _, _, he⟩ := hev e
      rw [he]
      exact .inl rfl
    · intro x hx
      exact absurd hx (Multiset.notMem_zero x)
    · intro e
      constructor
      · intro hz
        cases hz
      · intro hz
        exact absurd hz.1 (hnone e)
    · exact List.nodup_nil
  · constructor
    · intro e _
      exact hstate e
    · intro e _ _ _
      exact hnone e
    · intro e
      rw [hstate]
      constructor
      · intro hs
        cases hs
      · intro hs
        exact absurd rfl hs
    · intro e
      rw [hstate]
      constructor
      · intro hs
        cases hs
      · rintro ⟨c, hc⟩
        exact absurd hc (Multiset.notMem_zero _)
    · exact Multiset.nodup_zero
    · intro x hx
      exact absurd hx (Multiset.notMem_zero x)
    · exact List.nodup_nil
    · intro x hx
      cases hx
    · intro e he
      rw [hstate] at he
      rcases he with he | he
      · cases he
      · cases he
    · intro x hx
      cases hx
    · intro x hx
      exact absurd hx (Multiset.notMem_zero x)
    · intro e d _ hd
      cases hd

/-- What a successful `addChild` does, given that storing the child succeeds. -/
theorem addChild_spec (h : Counts rank s 0) (hpc : p ≠ c) (hs : s.addChild p c = some s') :
    ((s.event p).state = .EV_NONE ∨ (s.event p).state = .EV_QUEUED) ∧
    (s.event c).state = .EV_NONE ∧
    (∃ chains, ChildrenOk s'.heap chains (Function.update (kids s) p (kids s p ++ [c]))) ∧
    (∃ ch n, s'.event p = { s.event p with child := ch, numChildren := n }) ∧
    s'.event c = { s.event c with numParents := (s.event c).numParents + 1 } ∧
    (∀ e, e ≠ p → e ≠ c → s'.event e = s.event e) ∧
    ∃ heap, s' = { s with heap := heap, edges := (p, c) :: s.edges } := by
  obtain ⟨heap, hheap, rfl⟩ := Option.map_eq_some_iff.mp hs
  rw [EventHeap.addChild] at hheap
  split at hheap
  · next hstate =>
    obtain ⟨chains, hok⟩ := h.children
    obtain ⟨h₁, chains', ch, n, hstore, hok', hevents⟩ := hok.storeChild p c
    rw [hstore, Option.map_some] at hheap
    cases hheap
    have hc : h₁.events c = s.event c := by
      rw [hevents]
      exact Function.update_of_ne (Ne.symm hpc) _ _
    have hset : ∀ e, (h₁.setEvent c { h₁.events c with
        numParents := (h₁.events c).numParents + 1 }).events e =
        if e = c then { h₁.events c with numParents := (h₁.events c).numParents + 1 }
        else h₁.events e :=
      fun e => Function.update_apply h₁.events c _ e
    refine ⟨hstate.1, hstate.2, ⟨chains', hok'.congr rfl rfl fun e => ?_⟩, ⟨ch, n, ?_⟩, ?_,
      fun e hp hec => ?_, _, rfl⟩
    · rw [hset]
      split
      · next he => rw [he]; exact ⟨rfl, rfl⟩
      · exact ⟨rfl, rfl⟩
    · rw [Weave.event, hset, if_neg hpc, hevents, Function.update_self]
      rfl
    · rw [Weave.event, hset, if_pos rfl, hc]
    · rw [Weave.event, hset, if_neg hec, hevents, Function.update_of_ne hp]
      rfl
  · cases hheap

omit [DecidableEq E] in
theorem hasParent_cons {heap : EventHeap E} (hpc : e ≠ c) :
    HasParent { s with heap := heap, edges := (p, c) :: s.edges } e ↔ HasParent s e := by
  constructor
  · rintro ⟨x, hx, hxe⟩
    rcases List.mem_cons.mp hx with rfl | hx
    · exact absurd hxe.symm hpc
    · exact ⟨x, hx, hxe⟩
  · rintro ⟨x, hx, hxe⟩
    exact ⟨x, List.mem_cons_of_mem _ hx, hxe⟩

theorem Inv.addChild (h : Inv rank s 0) (hrank : rank p < rank c)
    (hs : s.addChild p c = some s') : Inv rank s' 0 := by
  have hpc : p ≠ c := by
    rintro rfl
    exact Nat.lt_irrefl _ hrank
  obtain ⟨hp, hc, hkids, ⟨ch, n, hevp⟩, hevc, hother, heap, heq⟩ := addChild_spec h.counts hpc hs
  have hedges : s'.edges = (p, c) :: s.edges := by rw [heq]
  have hdoneAt : s'.doneAt = s.doneAt := by rw [heq]
  have hparents : ∀ e, e ≠ c → (HasParent s' e ↔ HasParent s e) := by
    intro e he
    rw [heq]
    exact hasParent_cons he
  -- what is the same for every event, and for every event but the child
  have hsame : ∀ e, (s'.event e).state = (s.event e).state ∧ (s'.event e).cycle = (s.event e).cycle ∧
      (s'.event e).isDelay = (s.event e).isDelay ∧
      (s'.event e).preDelay = (s.event e).preDelay ∧
      (s'.event e).postDelay = (s.event e).postDelay := by
    intro e
    by_cases he : e = p
    · rw [he, hevp]
      exact ⟨rfl, rfl, rfl, rfl, rfl⟩
    · by_cases hec : e = c
      · rw [hec, hevc]
        exact ⟨rfl, rfl, rfl, rfl, rfl⟩
      · rw [hother e he hec]
        exact ⟨rfl, rfl, rfl, rfl, rfl⟩
  have hnum : ∀ e, e ≠ c → (s'.event e).numParents = (s.event e).numParents := by
    intro e hec
    by_cases he : e = p
    · rw [he, hevp]
    · rw [hother e he hec]
  have hw := h.states.waits hc
  have hpdone : s.doneAt p = none := by
    by_contra hne
    have hst := (h.states.done p).mpr hne
    rw [hst] at hp
    rcases hp with hp | hp
    · cases hp
    · cases hp
  have harr : ∀ e t, Arrives s e t → Arrives s' e t := by
    rintro e t ⟨x, hx, hxe, d, hd, rfl⟩
    refine ⟨x, by rw [hedges]; exact List.mem_cons_of_mem _ hx, hxe, d, by rw [hdoneAt]; exact hd,
      ?_⟩
    rw [(hsame x.1).2.2.2.2]
  have hstart : ∀ e t, e ≠ c → StartsAt s e t → StartsAt s' e t := by
    intro e t he hst
    constructor
    · rw [hnum e he]
      exact hst.ready
    · rw [hparents e he, (hsame e).2.1, (hsame e).2.2.2.1]
      exact hst.child
    · rw [hparents e he, show s'.queued = s.queued by rw [heq]]
      exact hst.root
  constructor
  · constructor
    · obtain ⟨chains, hok⟩ := hkids
      refine ⟨chains, ?_⟩
      have hk : kids s' = Function.update (kids s) p (kids s p ++ [c]) := by
        funext e
        rw [kids, hedges]
        by_cases he : e = p
        · rw [he, Function.update_self, List.filter_cons_of_pos (by simp)]
          simp [kids]
        · rw [Function.update_of_ne he, List.filter_cons_of_neg (by simp [Ne.symm he])]
          rfl
      rw [hk]
      exact hok
    · rw [hedges]
      intro x hx
      rcases List.mem_cons.mp hx with rfl | hx
      · exact hrank
      · exact h.counts.ranked x hx
    · intro e
      have hn := h.counts.numParents e
      rw [pending, hedges, hdoneAt]
      by_cases he : e = c
      · rw [he] at hn ⊢
        rw [List.countP_cons_of_pos (by simp [hpdone]), hevc, hn]
        rfl
      · rw [List.countP_cons_of_neg (by simp [Ne.symm he]), hnum e he, hn]
        rfl
    · intro x hx d hd
      rw [hdoneAt] at hd
      rw [hedges] at hx
      rcases List.mem_cons.mp hx with rfl | hx
      · rw [hpdone] at hd
        cases hd
      · rw [(hsame x.1).2.2.2.2, (hsame x.2).2.1]
        exact h.counts.arrived x hx d hd
    · intro e
      rw [(hsame e).2.1]
      exact (h.counts.attained e).imp_right (harr e _)
    · exact fun x hx => absurd hx (Multiset.notMem_zero x)
    · intro e
      have hz := h.counts.zeroed e
      rw [show s'.zeroed = s.zeroed by rw [heq]]
      by_cases he : e = c
      · rw [he] at hz ⊢
        constructor
        · intro hm
          obtain ⟨hpar, h0⟩ := hz.mp hm
          exact absurd hpar (h.states.idle c (by simp) hc h0)
        · rintro ⟨-, h0⟩
          rw [hevc] at h0
          cases h0
      · rw [hparents e he, hnum e he]
        exact hz
    · rw [show s'.zeroed = s.zeroed by rw [heq]]
      exact h.counts.zeroed_nodup
  · constructor
    · intro e he
      rw [(hsame e).1]
      by_cases hec : e = c
      · rw [hec]
        exact hc
      · rw [hnum e hec] at he
        exact h.states.waiting e he
    · intro e _ hst h0
      rw [(hsame e).1] at hst
      by_cases hec : e = c
      · rw [hec, hevc] at h0
        cases h0
      · rw [hnum e hec] at h0
        rw [hparents e hec]
        exact h.states.idle e (by simp) hst h0
    · intro e
      rw [(hsame e).1, hdoneAt]
      exact h.states.done e
    · intro e
      rw [(hsame e).1, show s'.queue = s.queue by rw [heq]]
      exact h.states.queued e
    · rw [show s'.queue = s.queue by rw [heq]]
      exact h.states.queue_nodup
    · intro x hx
      rw [show s'.queue = s.queue by rw [heq]] at hx
      obtain ⟨hle, hst⟩ := h.states.queue_at x hx
      rw [show s'.curCycle = s.curCycle by rw [heq]]
      exact ⟨hle, hstart _ _ (hw.queue x hx) hst⟩
    · rw [show s'.simulated = s.simulated by rw [heq]]
      exact h.states.simulated_nodup
    · intro x hx
      rw [show s'.simulated = s.simulated by rw [heq]] at hx
      obtain ⟨hst, hrest⟩ := h.states.simulated_at x hx
      rw [(hsame x.1).1, (hsame x.1).2.2.1]
      exact ⟨hstart _ _ (hw.simulated x hx) hst, hrest⟩
    · intro e he hd
      rw [(hsame e).1] at he
      rw [(hsame e).2.2.1] at hd
      rw [show s'.simulated = s.simulated by rw [heq]]
      exact h.states.simulated_of e he hd
    · intro x hx hout
      rw [show s'.queued = s.queued by rw [heq]] at hx
      rw [(hsame x.1).1]
      exact h.states.rooted x hx hout
    · intro x hx hd
      rw [show s'.queue = s.queue by rw [heq]] at hx
      rw [(hsame x.1).2.2.1] at hd
      rw [hparents x.1 (hw.queue x hx)]
      exact h.states.queue_delay x hx hd
    · intro e d hd hdone
      rw [hdoneAt] at hdone
      have hec : e ≠ c := by
        rintro rfl
        rw [hw.doneAt] at hdone
        cases hdone
      rw [(hsame e).2.2.1] at hd
      rw [hparents e hec, hnum e hec, (hsame e).2.1, (hsame e).2.2.2.1]
      exact h.states.delay_at e d hd hdone

theorem Inv.queueRoot (h : Inv rank s 0) {qCycle : Nat}
    (hs : s.queueRoot e qCycle = some s') : Inv rank s' 0 := by
  rw [Weave.queueRoot] at hs
  split at hs
  · next hcheck =>
    obtain ⟨hst, h0⟩ := hcheck
    obtain ⟨s₁, hs₁, rfl⟩ := Option.map_eq_some_iff.mp hs
    rw [enqueue] at hs₁
    split at hs₁
    · next hen =>
      cases hs₁
      have hw := h.states.waits hst
      have hroot := h.states.idle e (by simp) hst h0
      -- the call is on record before the event is queued
      have hrec : States (some e) { s with queued := (e, qCycle) :: s.queued } := by
        have hstart : ∀ x t, StartsAt s x t →
            StartsAt { s with queued := (e, qCycle) :: s.queued } x t :=
          fun x t hx => ⟨hx.ready, hx.child, fun hno => List.mem_cons_of_mem _ (hx.root hno)⟩
        refine { h.states with
          idle := fun x _ => h.states.idle x (by simp)
          queue_at := fun x hx => ⟨(h.states.queue_at x hx).1, hstart _ _ (h.states.queue_at x hx).2⟩
          simulated_at := fun x hx =>
            ⟨hstart _ _ (h.states.simulated_at x hx).1, (h.states.simulated_at x hx).2⟩
          rooted := fun x hx hne => ?_ }
        rcases List.mem_cons.mp hx with rfl | hx
        · exact absurd rfl hne
        · exact h.states.rooted x hx (by simp)
      have hstart : StartsAt { s with queued := (e, qCycle) :: s.queued } e qCycle :=
        ⟨h0, fun hpar => absurd hpar hroot, fun _ => List.mem_cons_self⟩
      constructor
      · exact (h.counts.setState e .EV_QUEUED).records _ _ _ _
      · exact hrec.wake ⟨hw.state, hw.queue, hw.simulated, hw.doneAt⟩ h0
          (.inl ⟨rfl, qCycle, rfl, hen.1, hstart, fun _ => hroot⟩)
    · cases hs₁
  · cases hs

theorem simulate_of_run (hs : run e t s = some s') : simulate e t s = some s' := by
  rw [run] at hs
  split at hs
  · next hcheck =>
    rw [simulate, if_pos hcheck.2.2]
    exact hs
  · cases hs

theorem Inv.simulate (h : Inv rank s 0) (hx : (e, t) ∈ s.queue) (hfirst : ∀ x ∈ s.queue, t ≤ x.2)
    (hs : simulate e t (s.dequeue (e, t)) = some s') : Inv rank s' 0 := by
  rw [Weave.simulate] at hs
  split at hs
  · next hnodelay =>
    cases hs
    change (s.event e).isDelay = false at hnodelay
    obtain ⟨-, hstart⟩ := h.states.queue_at _ hx
    have hst := (h.states.queued e).mpr ⟨t, hx⟩
    have hout : ∀ y ∈ s.queue.erase (e, t), y.1 ≠ e := by
      intro y hy hye
      have hcons := Multiset.cons_erase hx
      have hnd := h.states.queue_nodup
      rw [← hcons, Multiset.map_cons, Multiset.nodup_cons] at hnd
      exact hnd.1 (Multiset.mem_map.mpr ⟨y, hy, hye⟩)
    constructor
    · exact (h.counts.setState e .EV_RUNNING).records _ _ _ _
    set s' : Weave E := { (s.dequeue (e, t)).setEvent e { (s.dequeue (e, t)).event e with
      state := .EV_RUNNING } with simulated := (e, t) :: s.simulated } with hs'
    show States none s'
    have hself : s'.event e = { s.event e with state := .EV_RUNNING } := by
      rw [hs']
      exact (event_setEvent _ e e _).trans (if_pos rfl)
    have hother : ∀ x, x ≠ e → s'.event x = s.event x := by
      intro x hxe
      rw [hs']
      exact (event_setEvent _ e x _).trans (if_neg hxe)
    have hstarts : ∀ x c, StartsAt s x c → StartsAt s' x c := by
      intro x c hsx
      by_cases hxe : x = e
      · subst hxe
        exact ⟨by rw [hself]; exact hsx.ready, by rw [hself]; exact hsx.child, hsx.root⟩
      · exact ⟨by rw [hother x hxe]; exact hsx.ready, by rw [hother x hxe]; exact hsx.child,
          hsx.root⟩
    have hdelay : ∀ x, (s'.event x).isDelay = (s.event x).isDelay := by
      intro x
      by_cases hxe : x = e
      · rw [hxe, hself]
      · rw [hother x hxe]
    constructor
    · intro x hx0
      by_cases hxe : x = e
      · rw [hxe, hself] at hx0
        exact absurd hstart.ready hx0
      · rw [hother x hxe] at hx0 ⊢
        exact h.states.waiting x hx0
    · intro x hne hn h0
      by_cases hxe : x = e
      · rw [hxe, hself] at hn
        cases hn
      · rw [hother x hxe] at hn h0
        exact h.states.idle x hne hn h0
    · intro x
      have hd := h.states.done x
      by_cases hxe : x = e
      · rw [hxe, hst] at hd
        rw [hxe, hself]
        exact ⟨nofun, fun hdone => nomatch hd.mpr hdone⟩
      · rw [hother x hxe]
        exact hd
    · intro x
      by_cases hxe : x = e
      · rw [hxe, hself]
        exact ⟨nofun, fun ⟨c, hc⟩ => absurd rfl (hout _ hc)⟩
      · rw [hother x hxe, h.states.queued x]
        constructor
        · rintro ⟨c, hc⟩
          exact ⟨c, (Multiset.mem_erase_of_ne fun he => hxe (congrArg Prod.fst he)).mpr hc⟩
        · rintro ⟨c, hc⟩
          exact ⟨c, Multiset.mem_of_mem_erase hc⟩
    · exact Multiset.nodup_of_le (Multiset.map_le_map (Multiset.erase_le _ _)) h.states.queue_nodup
    · intro x hxq
      have hxs := Multiset.mem_of_mem_erase hxq
      exact ⟨hfirst x hxs, hstarts _ _ (h.states.queue_at x hxs).2⟩
    · rw [hs', List.map_cons, List.nodup_cons]
      refine ⟨fun hm => ?_, h.states.simulated_nodup⟩
      obtain ⟨x, hxs, hxe⟩ := List.mem_map.mp hm
      have hbad := (h.states.simulated_at x hxs).2.2
      rw [show x.1 = e from hxe, hst] at hbad
      rcases hbad with hbad | hbad
      · cases hbad
      · cases hbad
    · intro x hxs
      rw [hdelay]
      rcases List.mem_cons.mp hxs with rfl | hxs
      · exact ⟨hstarts _ _ hstart, hnodelay, .inl (by rw [hself])⟩
      · obtain ⟨hsx, hd, hsim⟩ := h.states.simulated_at x hxs
        refine ⟨hstarts _ _ hsx, hd, ?_⟩
        by_cases hxe : x.1 = e
        · rw [hxe, hself]
          exact .inl rfl
        · rw [hother x.1 hxe]
          exact hsim
    · intro x hsim hd
      by_cases hxe : x = e
      · rw [hxe]
        exact ⟨t, List.mem_cons_self⟩
      · rw [hother x hxe] at hsim hd
        obtain ⟨c, hc⟩ := h.states.simulated_of x hsim hd
        exact ⟨c, List.mem_cons_of_mem _ hc⟩
    · intro x hxq hne
      by_cases hxe : x.1 = e
      · rw [hxe, hself]
        nofun
      · rw [hother x.1 hxe]
        exact h.states.rooted x hxq hne
    · intro x hxq hd
      rw [hdelay] at hd
      exact h.states.queue_delay x (Multiset.mem_of_mem_erase hxq) hd
    · intro x d hd hdone
      rw [hdelay] at hd
      have hxe : x ≠ e := by
        rintro rfl
        rw [hnodelay] at hd
        cases hd
      rw [hother x hxe]
      exact h.states.delay_at x d hd hdone
  · cases hs

theorem Inv.run (h : Inv rank s 0) (hx : (e, t) ∈ s.queue) (hfirst : ∀ x ∈ s.queue, t ≤ x.2)
    (hs : run e t (s.dequeue (e, t)) = some s') : Inv rank s' 0 :=
  h.simulate hx hfirst (simulate_of_run hs)

theorem done_running {k d : Nat} (hs : done k e d s = some s') :
    (s.event e).state = .EV_RUNNING := by
  rw [done, doneWith] at hs
  by_contra hrun
  rw [if_neg hrun] at hs
  cases hs

/-- `done` of a simulated event keeps the invariant, and returns if its bound is enough. -/
theorem Inv.done (h : Inv rank s 0) (k : Nat) {d : Nat}
    (hrun : (s.event e).state = .EV_RUNNING) (hevent : (s.event e).isDelay = false) :
    Delivers rank s (done k e d s) 0 ((∀ x, rank x < k + 1 + rank e) ∧ s.curCycle ≤ d) := by
  apply doneWith_spec _ h hrun
  · rw [hevent]
    nofun
  · intro s₁ c t todo hlt hs₁
    obtain ⟨h1, h2⟩ := parentDone_spec k hs₁
    exact ⟨h1, fun ⟨hk, ht⟩ => h2 ⟨fun x => (hk x).trans_le (by omega), ht⟩⟩

theorem Step.inv (h : Inv rank s 0) (hstep : Step rank s s') :
    Inv rank s' 0 := by
  cases hstep with
  | addChild p c hrank hs => exact h.addChild hrank hs
  | queueRoot e qCycle hs => exact h.queueRoot hs
  | run e c hx hfirst hs => exact h.run hx hfirst hs
  | done k e d hevent hs => exact ((h.done k (done_running hs) hevent).1 s' hs).1

theorem Reachable.inv (hs : Reachable rank s) : Inv rank s 0 := by
  induction hs with
  | init events curCycle hnew => exact Inv.init curCycle hnew
  | step hs hstep ih => exact hstep.inv ih

def ParentsDone (s : Weave E) (e : E) : Prop := ∀ x ∈ s.edges, x.2 = e → s.doneAt x.1 ≠ none

/-- `m` is the maximum of `done(p) + postDelay(p)` over the parents `p` of `e`. -/
def Latest (s : Weave E) (e : E) (m : Nat) : Prop := IsGreatest {t | Arrives s e t} m

/-- Nothing is left to do: the queue is empty, what was simulated is done, and every event
above others has parents or was queued. -/
structure Drained (s : Weave E) : Prop where
  queue : s.queue = 0
  running : ∀ e, (s.event e).state ≠ .EV_RUNNING
  roots : ∀ x ∈ s.edges, HasParent s x.1 ∨ ∃ c, (x.1, c) ∈ s.queued

/-- `cycle` of an event all of whose parents have arrived is the latest arrival. -/
theorem Inv.latest (h : Inv rank s 0) (hready : (s.event e).numParents = 0) :
    ParentsDone s e ∧ (HasParent s e → Latest s e (s.event e).cycle) := by
  have hall := h.counts.all_arrived hready
  have hle : ∀ t, Arrives s e t → t ≤ (s.event e).cycle := by
    rintro t ⟨x, hx, hxe, d, hd, rfl⟩
    obtain ⟨d', hd', hle⟩ := hall x hx hxe
    rw [hd] at hd'
    cases hd'
    exact hle
  constructor
  · intro x hx hxe
    obtain ⟨d, hd, -⟩ := hall x hx hxe
    rw [hd]
    nofun
  · rintro ⟨x, hx, hxe⟩
    refine ⟨?_, hle⟩
    rcases h.counts.attained e with h0 | ha
    · -- then every arrival is at cycle 0, and there is one
      obtain ⟨d, hd, hd0⟩ := hall x hx hxe
      exact ⟨x, hx, hxe, d, hd, by omega⟩
    · exact ha

theorem Inv.drained (h : Inv rank s 0) (hd : Drained s)
    (he : HasParent s e ∨ ∃ c, (e, c) ∈ s.queued) :
    (s.event e).state = .EV_DONE ∧ (s.event e).numParents = 0 := by
  induction hr : rank e using Nat.strong_induction_on generalizing e with
  | _ r ih =>
    have hparents : ∀ x ∈ s.edges, x.2 = e → s.doneAt x.1 ≠ none := by
      intro x hx hxe
      have hlt := h.counts.ranked x hx
      rw [hxe, hr] at hlt
      exact (h.states.done x.1).mp (ih _ hlt (hd.roots x hx) rfl).1
    have h0 : (s.event e).numParents = 0 := by
      rw [h.counts.numParents e, show owedTo 0 e = 0 from Multiset.countP_zero _, pending,
        Nat.add_zero, List.countP_eq_zero]
      intro x hx hboth
      simp only [decide_eq_true_eq] at hboth
      exact hparents x hx hboth.1 hboth.2
    refine ⟨?_, h0⟩
    cases hst : (s.event e).state with
    | EV_DONE => rfl
    | EV_RUNNING => exact absurd hst (hd.running e)
    | EV_QUEUED =>
      obtain ⟨c, hc⟩ := (h.states.queued e).mp hst
      rw [hd.queue] at hc
      exact absurd hc (Multiset.notMem_zero _)
    | EV_NONE =>
      rcases he with hpar | ⟨c, hc⟩
      · exact absurd hpar (h.states.idle e (by simp) hst h0)
      · exact absurd hst (h.states.rooted _ hc (by simp))

/-- A running event can be done at any cycle from the current one on. -/
theorem reachable_done_returns (hs : Reachable rank s) {k d : Nat} (hk : ∀ x, rank x ≤ k)
    (hrun : (s.event e).state = .EV_RUNNING) (hevent : (s.event e).isDelay = false)
    (hd : s.curCycle ≤ d) : done k e d s ≠ none :=
  (hs.inv.done k hrun hevent).2 ⟨fun x => (Nat.lt_succ_of_le (hk x)).trans_le (by omega), hd⟩

/-- The semantics of a DAG of events, in every state of every run. -/
theorem reachable_dag (hs : Reachable rank s) :
    (∀ e, s.doneAt e = none → ∃ visited, s.heap.visitChildren e = some visited ∧
      visited.Perm (kids s e)) ∧
    (s.simulated.map Prod.fst).Nodup ∧
    (∀ x ∈ s.simulated, (s.event x.1).isDelay = false ∧ ParentsDone s x.1 ∧
      (HasParent s x.1 → ∃ m, Latest s x.1 m ∧ x.2 = m + (s.event x.1).preDelay) ∧
      (¬ HasParent s x.1 → x ∈ s.queued)) ∧
    (∀ e, HasParent s e → (s.event e).isDelay = true → (∀ x ∈ s.queue, x.1 ≠ e) ∧
      ∀ d, s.doneAt e = some d →
        ParentsDone s e ∧ ∃ m, Latest s e m ∧ d = m + (s.event e).preDelay) ∧
    (s.zeroed.Nodup ∧ ∀ e, e ∈ s.zeroed ↔ HasParent s e ∧ (s.event e).numParents = 0) ∧
    (Drained s → ∀ e, HasParent s e ∨ (∃ c, (e, c) ∈ s.queued) →
      (∃ d, s.doneAt e = some d) ∧
      ((s.event e).isDelay = false → (s.simulated.map Prod.fst).count e = 1) ∧
      (HasParent s e → s.zeroed.count e = 1)) := by
  have h := hs.inv
  refine ⟨fun e _ => ?_, h.states.simulated_nodup, fun x hx => ?_, fun e hpar hdelay => ⟨?_, ?_⟩,
    ⟨h.counts.zeroed_nodup, h.counts.zeroed⟩, fun hd e he => ⟨?_, ?_, ?_⟩⟩
  · obtain ⟨chains, hok⟩ := h.counts.children
    exact hok.visit e
  · obtain ⟨hst, hevent, -⟩ := h.states.simulated_at x hx
    obtain ⟨hdone, hlatest⟩ := h.latest hst.ready
    exact ⟨hevent, hdone, fun hpar => ⟨_, hlatest hpar, hst.child hpar⟩, hst.root⟩
  · rintro x hx rfl
    exact h.states.queue_delay x hx hdelay hpar
  · intro d hdone
    obtain ⟨-, h0, hd⟩ := h.states.delay_at e d hdelay hdone
    obtain ⟨hparents, hlatest⟩ := h.latest h0
    exact ⟨hparents, _, hlatest hpar, hd⟩
  · have hst := (h.drained hd he).1
    exact Option.ne_none_iff_exists'.mp ((h.states.done e).mp hst)
  · intro hevent
    obtain ⟨c, hc⟩ := h.states.simulated_of e (.inr (h.drained hd he).1) hevent
    exact List.count_eq_one_of_mem h.states.simulated_nodup (List.mem_map.mpr ⟨_, hc, rfl⟩)
  · intro hpar
    have hz := (h.counts.zeroed e).mpr ⟨hpar, (h.drained hd he).2⟩
    exact List.count_eq_one_of_mem h.counts.zeroed_nodup hz

theorem Step.run_single (hq : s.queue = {(e, t)})
    (hs : Weave.run e t (s.dequeue (e, t)) = some s') :
    Step rank s s' := by
  refine .run e t ?_ ?_ hs
  · rw [hq]
    exact Multiset.mem_singleton_self _
  · intro x hx
    rw [hq] at hx
    rw [Multiset.mem_singleton.mp hx]

/-- Event `false` with a `postDelay` of 2 over the `DelayEvent` `true` of 1 cycle. -/
def delayed : Weave Bool :=
  init (fun e => .init e 0 (if e then 1 else 0) (if e then 0 else 2)) 0

theorem delayed_run : ∃ s₁ s₂ s₃ s : Weave Bool, delayed.addChild false true = some s₁ ∧
    s₁.queueRoot false 5 = some s₂ ∧ s₂.queue = {(false, 5)} ∧
    run false 5 (s₂.dequeue (false, 5)) = some s₃ ∧ (s₃.event false).isDelay = false ∧
    done 1 false 7 s₃ = some s ∧ s.queue = 0 ∧ s.queued = [(false, 5)] ∧
    s.edges = [(false, true)] ∧ s.simulated = [(false, 5)] ∧ s.doneAt true = some 10 ∧
    (s.event true).isDelay = true ∧ (s.event true).preDelay = 1 ∧
    (s.event false).state = .EV_DONE ∧ (s.event true).state = .EV_DONE :=
  ⟨_, _, _, _, rfl, rfl, rfl, rfl, rfl, rfl, rfl, rfl, rfl, rfl, rfl, rfl, rfl, rfl, rfl⟩

theorem reachable_dag_delay : ∃ (rank : Bool → Nat) (s : Weave Bool), Reachable rank s ∧
    Drained s ∧ s.simulated = [(false, 5)] ∧ s.doneAt true = some 10 ∧ Latest s true 9 := by
  obtain ⟨s₁, s₂, s₃, s, hadd, hroot, hfirst, hrun, hevent, hs, hqueue, hqueued, hedges,
    hsimulated, hdone, hdelay, hpre, hroot', hstate⟩ := delayed_run
  have h₀ : Reachable (fun e => if e then 1 else 0) delayed := .init _ _ fun e => ⟨_, _, _, _, rfl⟩
  have h₁ := h₀.step (.addChild false true (by decide) hadd)
  have h₂ := h₁.step (.queueRoot false 5 hroot)
  have h₃ := h₂.step (.run_single hfirst hrun)
  have h₄ := h₃.step (.done 1 false 7 hevent hs)
  have hdrained : Drained s := by
    refine ⟨hqueue, fun e => ?_, fun x hx => ?_⟩
    · cases e
      · rw [hroot']
        nofun
      · rw [hstate]
        nofun
    · rw [hedges] at hx
      rw [hqueued, List.mem_singleton.mp hx]
      exact .inr ⟨5, List.mem_cons_self⟩
  have hpar : HasParent s true := ⟨(false, true), by rw [hedges]; exact List.mem_cons_self, rfl⟩
  obtain ⟨-, -, -, hdag, -⟩ := reachable_dag h₄
  obtain ⟨-, m, hm, hm10⟩ := (hdag true hpar hdelay).2 10 hdone
  rw [hpre] at hm10
  have hm9 : m = 9 := Nat.succ.inj hm10.symm
  exact ⟨_, s, h₄, hdrained, hsimulated, hdone, hm9 ▸ hm⟩

end Weave

end ZSim
