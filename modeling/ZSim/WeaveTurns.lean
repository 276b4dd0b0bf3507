import ZSim.PrioQueueRefinement
import ZSim.TimingEventRun
import Mathlib.Data.Finset.Max

/-! One turn of the weave phase on a domain: the first event of the queue is taken and
simulated, and the cycle of the domain moves to what is then the first. -/

namespace ZSim

namespace Weave

variable {E : Type} {rank : E → Nat} {s s' s₁ s₂ : Weave E} {limit : Nat} {e : E} {c : Nat}

/-- `firstCycle` of the queue, and `⊤` for an empty one. -/
def firstCycle (s : Weave E) : WithTop Nat := (s.queue.map Prod.snd).toFinset.min

def setCycle (s : Weave E) (c : Nat) : Weave E := { s with curCycle := c }

/-- `pq.size()? pq.firstCycle() : limit`. -/
def nextCycle (limit : Nat) (s : Weave E) : Nat := s.firstCycle.untopD limit

theorem mem_cycles : c ∈ (s.queue.map Prod.snd).toFinset ↔ ∃ e, (e, c) ∈ s.queue := by
  rw [Multiset.mem_toFinset, Multiset.mem_map]
  constructor
  · rintro ⟨x, hx, rfl⟩
    exact ⟨x.1, hx⟩
  · rintro ⟨e, he⟩
    exact ⟨_, he, rfl⟩

theorem firstCycle_le {x : E × Nat} (hx : x ∈ s.queue) : s.firstCycle ≤ WithTop.some x.2 :=
  Finset.min_le (mem_cycles.mpr ⟨x.1, hx⟩)

theorem le_firstCycle {a : WithTop Nat} :
    a ≤ s.firstCycle ↔ ∀ x ∈ s.queue, a ≤ WithTop.some x.2 := by
  constructor
  · exact fun h x hx => h.trans (firstCycle_le hx)
  · intro h
    refine Finset.le_min fun c hc => ?_
    obtain ⟨e, he⟩ := mem_cycles.mp hc
    exact h _ he

theorem exists_first (hc : s.firstCycle = WithTop.some c) : ∃ e, (e, c) ∈ s.queue :=
  mem_cycles.mp (Finset.mem_of_min hc)

theorem first_le (hc : s.firstCycle = WithTop.some c) {x : E × Nat} (hx : x ∈ s.queue) :
    c ≤ x.2 := by
  have hle := firstCycle_le hx
  rw [hc] at hle
  exact WithTop.coe_le_coe.mp hle

theorem firstCycle_eq (h : PrioQueue.IsFirst s.queue c) : s.firstCycle = WithTop.some c := by
  obtain ⟨⟨x, hx, rfl⟩, hmin⟩ := h
  refine le_antisymm (firstCycle_le hx) (le_firstCycle.mpr fun y hy => ?_)
  exact WithTop.coe_le_coe.mpr (hmin y hy)

theorem nextCycle_le {x : E × Nat} (hx : x ∈ s.queue) : nextCycle limit s ≤ x.2 := by
  have hle := firstCycle_le hx
  rw [nextCycle]
  cases hc : s.firstCycle with
  | top =>
    rw [hc] at hle
    exact absurd (top_le_iff.mp hle) WithTop.coe_ne_top
  | coe c => exact first_le hc hx

theorem le_nextCycle (hlimit : c ≤ limit) (hq : ∀ x ∈ s.queue, c ≤ x.2) :
    c ≤ nextCycle limit s := by
  rw [nextCycle]
  cases hc : s.firstCycle with
  | top => exact hlimit
  | coe c' =>
    obtain ⟨e, he⟩ := exists_first hc
    exact hq _ he

theorem exists_cycle_le (h : ¬ WithTop.some limit < s.firstCycle) :
    ∃ c, s.firstCycle = WithTop.some c ∧ c ≤ limit := by
  cases hc : s.firstCycle with
  | top =>
    rw [hc] at h
    exact absurd (WithTop.coe_lt_top limit) h
  | coe c =>
    rw [hc] at h
    exact ⟨c, rfl, Nat.le_of_not_lt fun hlt => h (WithTop.coe_lt_coe.mpr hlt)⟩

theorem exists_cycle_lt (h : ¬ WithTop.some limit ≤ s.firstCycle) :
    ∃ c, s.firstCycle = WithTop.some c ∧ c < limit := by
  obtain ⟨c, hc, hle⟩ := exists_cycle_le fun hlt => h (le_of_lt hlt)
  refine ⟨c, hc, Nat.lt_of_le_of_ne hle ?_⟩
  rintro rfl
  exact h (le_of_eq hc.symm)

/-- The records that `done` leaves alone, and the queue, which it only adds to. -/
structure Kept (s s' : Weave E) : Prop where
  simulated : s'.simulated = s.simulated
  edges : s'.edges = s.edges
  queued : s'.queued = s.queued
  curCycle : s'.curCycle = s.curCycle
  queue : s.queue ≤ s'.queue

theorem Kept.refl (s : Weave E) : Kept s s := ⟨rfl, rfl, rfl, rfl, le_refl _⟩

theorem Kept.trans (h₁ : Kept s s₁) (h₂ : Kept s₁ s₂) : Kept s s₂ :=
  ⟨h₂.simulated.trans h₁.simulated, h₂.edges.trans h₁.edges, h₂.queued.trans h₁.queued,
    h₂.curCycle.trans h₁.curCycle, h₁.queue.trans h₂.queue⟩

variable [DecidableEq E] {may : Weave E → Weave E → Prop} {act : Weave E → Weave E}
  {cs : List Nat}

/-- What `simulate` does besides setting records: some running events are done, at
cycles of its own choice. An event that is held is done in a later turn. -/
def Dones : Weave E → Weave E → Prop :=
  Relation.ReflTransGen fun s s' =>
    ∃ k e d, (s.event e).isDelay = false ∧ done k e d s = some s'

/-- The event `e` is taken from the queue at its first cycle `c`. `start` is `run`, or
`simulate` where the code calls that one itself. -/
inductive Turn (start : E → Nat → Weave E → Option (Weave E)) (limit : Nat) (s : Weave E)
    (e : E) (c : Nat) : Weave E → Prop
  | intro {s₁ s₂ : Weave E} (hx : (e, c) ∈ s.queue) (hfirst : s.firstCycle = WithTop.some c)
      (hstart : start e c (s.dequeue (e, c)) = some s₁) (hdones : Dones s₁ s₂) :
      Turn start limit s e c (s₂.setCycle (nextCycle limit s₂))

/-- The turns of a domain in a phase, with their cycles, the last one first. `may` says
what a turn may make of a domain. -/
inductive Turns (may : Weave E → Weave E → Prop) (limit : Nat) (s : Weave E) :
    List Nat → Weave E → Prop
  | refl : Turns may limit s [] s
  | turn {cs : List Nat} {s₁ s₂ : Weave E} {e : E} {c : Nat} (hs : Turns may limit s cs s₁)
      (ht : Turn simulate limit s₁ e c s₂) (hmay : may s₁ s₂) : Turns may limit s (c :: cs) s₂

/-- Each turn does what `act` says. -/
def Does (act : Weave E → Weave E) (s s' : Weave E) : Prop := s' = act s

/-- The priority queue behind `queue` answers `size` and `firstCycle` as the tests of the
loops read it, and what it dequeues is a first event. -/
theorem prioQueue_first {B : Nat} {q : PrioQueue E} {N : Multiset (E × Nat)}
    (h : PrioQueue.Inv B q N s.queue) (hB : 2 ≤ B) (hB' : B < 2 ^ 32) :
    (q.size = 0 ∧ s.firstCycle = ⊤) ∨
      ∃ c, PrioQueue.firstCycle B q = some c ∧ s.firstCycle = WithTop.some c ∧
        ∃ e q' N' k₀, (∀ k, k₀ ≤ k → PrioQueue.dequeue B k q = some (e, c, q')) ∧
          (e, c) ∈ s.queue ∧ PrioQueue.Inv B q' N' (s.dequeue (e, c)).queue := by
  by_cases hempty : s.queue = 0
  · refine .inl ⟨h.elems.trans ?_, ?_⟩
    · rw [hempty, Multiset.card_zero]
    · rw [firstCycle, hempty]
      rfl
  · obtain ⟨c, hc, hfirst⟩ := h.firstCycle hB hempty
    obtain ⟨e, c', q', N', k₀, hk, hmem, hfirst', hinv⟩ := h.dequeue hB hB' hempty
    have hcc : c' = c := by
      have heq := (firstCycle_eq hfirst').symm.trans (firstCycle_eq hfirst)
      exact WithTop.coe_injective heq
    subst hcc
    exact .inr ⟨c', hc, firstCycle_eq hfirst, e, q', N', k₀, hk, hmem, hinv⟩

theorem Turn.weaken (h : Turn run limit s e c s') : Turn simulate limit s e c s' := by
  cases h with
  | intro hx hfirst hstart hdones => exact .intro hx hfirst (simulate_of_run hstart) hdones

omit [DecidableEq E] in
theorem deliver_kept {f : E → Nat → Weave E → Option (Weave E)} {t : Nat}
    (hf : ∀ c t s s', f c t s = some s' → Kept s s') {l : List E}
    (hs : deliver f t l s = some s') : Kept s s' := by
  induction l generalizing s with
  | nil =>
    cases hs
    exact .refl _
  | cons c l ih =>
    rw [deliver] at hs
    obtain ⟨s₁, hs₁, hs⟩ := Option.bind_eq_some_iff.mp hs
    exact (hf c t s s₁ hs₁).trans (ih hs)

theorem doneWith_kept {f : E → Nat → Weave E → Option (Weave E)} {d : Nat}
    (hf : ∀ c t s s', f c t s = some s' → Kept s s') (hs : doneWith f e d s = some s') :
    Kept s s' := by
  rw [doneWith] at hs
  split at hs
  · obtain ⟨l, -, hs⟩ := Option.bind_eq_some_iff.mp hs
    have hset : Kept s (setDone e d s) := ⟨rfl, rfl, rfl, rfl, le_refl _⟩
    exact hset.trans (deliver_kept hf hs)
  · cases hs

theorem parentDone_kept (k : Nat) {t : Nat} (hs : parentDone k e t s = some s') : Kept s s' := by
  induction k generalizing e t s s' with
  | zero => cases hs
  | succ k ih =>
    have harrive : Kept s (arrive e t s) := ⟨rfl, rfl, rfl, rfl, le_refl _⟩
    have hset : ∀ ev, Kept s ((arrive e t s).setEvent e ev) := fun _ =>
      ⟨rfl, rfl, rfl, rfl, le_refl _⟩
    simp only [parentDone] at hs
    split at hs
    · split at hs
      · exact (hset _).trans (doneWith_kept (fun c t s s' => ih) hs)
      · cases hs
        exact harrive
    · split at hs
      · cases hs
      · split at hs
        · split at hs
          · rw [enqueue] at hs
            split at hs
            · cases hs
              exact ⟨rfl, rfl, rfl, rfl, Multiset.le_cons_self _ _⟩
            · cases hs
          · cases hs
        · cases hs
          exact harrive

theorem Dones.kept (h : Dones s s') : Kept s s' := by
  induction h with
  | refl => exact .refl _
  | tail hs hstep ih =>
    obtain ⟨k, e, d, -, hdone⟩ := hstep
    exact ih.trans (doneWith_kept (fun c t s s' => parentDone_kept k) hdone)

theorem Dones.inv (h : Dones s s') (hinv : Inv rank s 0) : Inv rank s' 0 := by
  induction h with
  | refl => exact hinv
  | tail hs hstep ih =>
    obtain ⟨k, e, d, hevent, hdone⟩ := hstep
    exact ((ih.done k (done_running hdone) hevent).1 _ hdone).1

theorem Inv.setCycle (h : Inv rank s 0) (hc : ∀ x ∈ s.queue, c ≤ x.2) :
    Inv rank (s.setCycle c) 0 := by
  have hstart : ∀ e t, StartsAt s e t → StartsAt (s.setCycle c) e t :=
    fun e t hst => ⟨hst.ready, hst.child, hst.root⟩
  refine ⟨h.counts.records _ _ _ _, { h.states with
    queue_at := fun x hx => ⟨hc x hx, hstart _ _ (h.states.queue_at x hx).2⟩
    simulated_at := fun x hx =>
      ⟨hstart _ _ (h.states.simulated_at x hx).1, (h.states.simulated_at x hx).2⟩ }⟩

/-- What a turn does to a domain, seen from outside. -/
structure Advanced (rank : E → Nat) (s : Weave E) (e : E) (c : Nat) (s' : Weave E) : Prop where
  inv : Inv rank s' 0
  simulated : s'.simulated = (e, c) :: s.simulated
  edges : s'.edges = s.edges
  queued : s'.queued = s.queued
  queue : ∀ x ∈ s.queue, x = (e, c) ∨ x ∈ s'.queue
  later : ∀ x ∈ s'.queue, c ≤ x.2

theorem Turn.simulated_eq (h : Turn simulate limit s e c s') :
    s'.simulated = (e, c) :: s.simulated := by
  cases h with
  | @intro s₁ s₂ hx hfirst hstart hdones =>
    rw [simulate] at hstart
    split at hstart
    · cases hstart
      exact hdones.kept.simulated
    · cases hstart

theorem Turn.advanced (hinv : Inv rank s 0) (h : Turn simulate limit s e c s') :
    Advanced rank s e c s' := by
  have hsim := h.simulated_eq
  cases h with
  | @intro s₁ s₂ hx hfirst hstart hdones =>
    have hinv₁ := hinv.simulate hx (fun x hx => first_le hfirst hx) hstart
    have hinv₂ := hdones.inv hinv₁
    have hkept := hdones.kept
    rw [simulate] at hstart
    split at hstart
    · cases hstart
      refine ⟨hinv₂.setCycle fun x hx => nextCycle_le hx, hsim, hkept.edges, hkept.queued,
        fun x hxq => ?_, fun x hxq => ?_⟩
      · by_cases hxe : x = (e, c)
        · exact .inl hxe
        · exact .inr (Multiset.mem_of_le hkept.queue ((Multiset.mem_erase_of_ne hxe).mpr hxq))
      · have hle := (hinv₂.states.queue_at x hxq).1
        rw [hkept.curCycle] at hle
        exact hle
    · cases hstart

/-- What the turns of a phase have done so far. -/
structure Worked (rank : E → Nat) (s : Weave E) (cs : List Nat) (s' : Weave E) : Prop where
  inv : Inv rank s' 0
  simulated : ∃ new : List (E × Nat), s'.simulated = new ++ s.simulated ∧ new.map Prod.snd = cs
  edges : s'.edges = s.edges
  queued : s'.queued = s.queued
  queue : ∀ x ∈ s.queue, x ∈ s'.simulated ∨ x ∈ s'.queue

theorem Turns.worked (hinv : Inv rank s 0) (h : Turns may limit s cs s') :
    Worked rank s cs s' := by
  induction h with
  | refl => exact ⟨hinv, ⟨[], rfl, rfl⟩, rfl, rfl, fun x hx => .inr hx⟩
  | @turn cs s₁ s₂ e c hs ht hmay ih =>
    have hadv := ht.advanced ih.inv
    obtain ⟨new, hsim, hcs⟩ := ih.simulated
    refine ⟨hadv.inv, ⟨(e, c) :: new, ?_, ?_⟩, hadv.edges.trans ih.edges,
      hadv.queued.trans ih.queued, fun x hx => ?_⟩
    · rw [hadv.simulated, hsim, List.cons_append]
    · rw [List.map_cons, hcs]
    · rw [hadv.simulated]
      rcases ih.queue x hx with hx | hx
      · exact .inl (List.mem_cons_of_mem _ hx)
      · rcases hadv.queue x hx with rfl | hx
        · exact .inl List.mem_cons_self
        · exact .inr hx

/-- Every simulated event is a child or a root. -/
theorem Inv.simulated_length (h : Inv rank s 0) :
    s.simulated.length ≤ s.edges.length + s.queued.length := by
  have hsub : s.simulated.map Prod.fst ⊆ s.edges.map Prod.snd ++ s.queued.map Prod.fst := by
    intro e he
    obtain ⟨x, hx, rfl⟩ := List.mem_map.mp he
    obtain ⟨hst, -⟩ := h.states.simulated_at x hx
    by_cases hpar : HasParent s x.1
    · obtain ⟨y, hy, hye⟩ := hpar
      exact List.mem_append_left _ (List.mem_map.mpr ⟨y, hy, hye⟩)
    · exact List.mem_append_right _ (List.mem_map.mpr ⟨_, hst.root hpar, rfl⟩)
  have hle := (h.states.simulated_nodup.subperm hsub).length_le
  rw [List.length_append, List.length_map, List.length_map, List.length_map] at hle
  exact hle

/-- The events below `limit` run, in the order of their cycles, and no others do. -/
structure Weaved (limit : Nat) (s s' : Weave E) : Prop where
  executed : ∀ x ∈ s'.simulated, x ∈ s.simulated ∨ x.2 < limit
  due : ∀ x ∈ s.queue, x.2 < limit → x ∈ s'.simulated
  released : ∀ e, (s'.event e).isDelay = false → (s'.event e).numParents = 0 →
    (HasParent s' e ∨ ∃ c, (e, c) ∈ s'.queued) →
    (∃ c, (e, c) ∈ s'.simulated) ∨ ∃ c, limit ≤ c ∧ (e, c) ∈ s'.queue
  left : ∀ x ∈ s.queue, limit ≤ x.2 → x ∈ s'.queue
  first : ∀ x ∈ s'.queue, limit ≤ x.2
  curCycle : s'.curCycle = limit

/-- What the thread of a single domain does to it in a phase. -/
def Alone (may : Weave E → Weave E → Prop) (limit : Nat) (s s' : Weave E) : Prop :=
  ∃ cs s₁, Turns may limit s cs s₁ ∧ (∀ c ∈ cs, c < limit) ∧
    WithTop.some limit ≤ s₁.firstCycle ∧ s' = s₁.setCycle limit

/-- An event whose parents have all arrived has run or waits in the queue. -/
theorem Inv.ready (h : Inv rank s 0) (hevent : (s.event e).isDelay = false)
    (h0 : (s.event e).numParents = 0) (he : HasParent s e ∨ ∃ c, (e, c) ∈ s.queued) :
    (∃ c, (e, c) ∈ s.simulated) ∨ ∃ c, (e, c) ∈ s.queue := by
  cases hst : (s.event e).state with
  | EV_NONE =>
    rcases he with hpar | ⟨c, hc⟩
    · exact absurd hpar (h.states.idle e (by simp) hst h0)
    · exact absurd hst (h.states.rooted _ hc (by simp))
  | EV_QUEUED => exact .inr ((h.states.queued e).mp hst)
  | EV_RUNNING => exact .inl (h.states.simulated_of e (.inl hst) hevent)
  | EV_DONE => exact .inl (h.states.simulated_of e (.inr hst) hevent)

theorem Inv.not_simulated (h : Inv rank s 0) {x : E × Nat} (hx : x ∈ s.queue) :
    x ∉ s.simulated := by
  intro hsim
  have hst := (h.states.queued x.1).mpr ⟨x.2, hx⟩
  have hbad := (h.states.simulated_at x hsim).2.2
  rw [hst] at hbad
  rcases hbad with hbad | hbad
  · cases hbad
  · cases hbad

/-- Turns up to the limit do what a phase is for exactly if none is at the limit. -/
theorem Turns.weaved_iff (hinv : Inv rank s 0) (h : Turns may limit s cs s')
    (hcs : ∀ c ∈ cs, c ≤ limit) (hend : WithTop.some limit ≤ s'.firstCycle) :
    Weaved limit s (s'.setCycle limit) ↔ ∀ c ∈ cs, c ≠ limit := by
  have hw := h.worked hinv
  obtain ⟨new, hsim, hnew⟩ := hw.simulated
  have hfirst : ∀ x ∈ s'.queue, limit ≤ x.2 := fun x hx =>
    WithTop.coe_le_coe.mp (le_firstCycle.mp hend x hx)
  constructor
  · rintro hp c hc rfl
    rw [← hnew] at hc
    obtain ⟨x, hx, hxc⟩ := List.mem_map.mp hc
    rcases hp.executed x (by rw [setCycle, hsim]; exact List.mem_append_left _ hx) with hold | hlt
    · -- an event is simulated once
      have hnd := hw.inv.states.simulated_nodup
      rw [hsim, List.map_append, List.nodup_append] at hnd
      exact hnd.2.2 _ (List.mem_map_of_mem hx) _ (List.mem_map_of_mem hold) rfl
    · exact absurd hxc (Nat.ne_of_lt hlt)
  · intro hne
    have hexec : ∀ x ∈ s'.simulated, x ∈ s.simulated ∨ x.2 < limit := by
      intro x hx
      rw [hsim] at hx
      rcases List.mem_append.mp hx with hx | hx
      · have hc : x.2 ∈ cs := by
          rw [← hnew]
          exact List.mem_map_of_mem hx
        exact .inr (Nat.lt_of_le_of_ne (hcs _ hc) (hne _ hc))
      · exact .inl hx
    refine ⟨hexec, fun x hx hlt => ?_, fun e hevent h0 he => ?_, fun x hx hle => ?_, hfirst, rfl⟩
    · rcases hw.queue x hx with hx | hx
      · exact hx
      · exact absurd (hfirst x hx) (Nat.not_le_of_lt hlt)
    · rcases hw.inv.ready hevent h0 he with hran | ⟨c, hc⟩
      · exact .inl hran
      · exact .inr ⟨c, hfirst _ hc, hc⟩
    · rcases hw.queue x hx with hx' | hx'
      · rcases hexec x hx' with hold | hlt
        · exact absurd hold (hinv.not_simulated hx)
        · exact absurd hle (Nat.not_le_of_lt hlt)
      · exact hx'

/-- A phase that does nothing. -/
theorem Inv.weaved_self_iff (hinv : Inv rank s 0) :
    Weaved limit s s ↔ s.curCycle = limit ∧ ∀ x ∈ s.queue, limit ≤ x.2 := by
  constructor
  · exact fun h => ⟨h.curCycle, h.first⟩
  · rintro ⟨hcur, hq⟩
    refine ⟨fun x hx => .inl hx, fun x hx hlt => ?_, fun e hevent h0 he => ?_,
      fun x hx _ => hx, hq, hcur⟩
    · exact absurd (hq x hx) (Nat.not_le_of_lt hlt)
    · rcases hinv.ready hevent h0 he with hran | ⟨c, hc⟩
      · exact .inl hran
      · exact .inr ⟨c, hq _ hc, hc⟩

theorem Turns.iterate (h : Turns (Does act) limit s cs s') : s' = act^[cs.length] s := by
  induction h with
  | refl => rfl
  | turn hs ht hmay ih =>
    rw [List.length_cons, Function.iterate_succ_apply', ← ih]
    exact hmay

theorem Turns.firstCycle_iterate (h : Turns (Does act) limit s cs s') {j : Nat}
    (hj : j < cs.length) : ∃ c ∈ cs, (act^[j] s).firstCycle = WithTop.some c := by
  induction h with
  | refl => cases hj
  | @turn cs s₁ s₂ e c hs ht hmay ih =>
    rcases Nat.lt_succ_iff_lt_or_eq.mp hj with hj | rfl
    · obtain ⟨c', hc', hfirst⟩ := ih hj
      exact ⟨c', List.mem_cons_of_mem _ hc', hfirst⟩
    · rw [← hs.iterate]
      cases ht with
      | intro hx hfirst hstart hdones => exact ⟨c, List.mem_cons_self, hfirst⟩

/-- Turns with the same `act` are as many, if each ends before what the other does not
reach. -/
theorem Turns.length_le {cs₁ cs₂ : List Nat} (h₁ : Turns (Does act) limit s cs₁ s₁)
    (h₂ : Turns (Does act) limit s cs₂ s₂)
    (hend : ∀ c ∈ cs₂, WithTop.some c < s₁.firstCycle) : cs₂.length ≤ cs₁.length := by
  by_contra hlt
  obtain ⟨c, hc, hfirst⟩ := h₂.firstCycle_iterate (Nat.lt_of_not_le hlt)
  rw [← h₁.iterate] at hfirst
  have hbad := hend c hc
  rw [hfirst] at hbad
  exact absurd hbad (lt_irrefl _)

theorem Alone.unique {w w' : Weave E} (h : Alone (Does act) limit s w)
    (h' : Alone (Does act) limit s w') : w = w' := by
  obtain ⟨cs₁, s₁, ht₁, hcs₁, hend₁, rfl⟩ := h
  obtain ⟨cs₂, s₂, ht₂, hcs₂, hend₂, rfl⟩ := h'
  have hle₁ := ht₂.length_le ht₁ fun c hc =>
    (WithTop.coe_lt_coe.mpr (hcs₁ c hc)).trans_le hend₂
  have hle₂ := ht₁.length_le ht₂ fun c hc =>
    (WithTop.coe_lt_coe.mpr (hcs₂ c hc)).trans_le hend₁
  rw [ht₁.iterate, ht₂.iterate, Nat.le_antisymm hle₁ hle₂]

/-- The turns before the first one at the limit. -/
theorem Turns.before_limit (h : Turns may limit s cs s') (hcs : ∀ c ∈ cs, c ≤ limit)
    (hmem : limit ∈ cs) : ∃ cs₁ s₁, Turns may limit s cs₁ s₁ ∧ (∀ c ∈ cs₁, c < limit) ∧
      s₁.firstCycle = WithTop.some limit := by
  induction h with
  | refl => cases hmem
  | @turn cs s₁ s₂ e c hs ht hmay ih =>
    by_cases hearly : limit ∈ cs
    · exact ih (fun c hc => hcs c (List.mem_cons_of_mem _ hc)) hearly
    · rcases List.mem_cons.mp hmem with rfl | hbad
      · cases ht with
        | intro hx hfirst hstart hdones =>
          refine ⟨cs, s₁, hs, fun c hc => ?_, hfirst⟩
          refine Nat.lt_of_le_of_ne (hcs c (List.mem_cons_of_mem _ hc)) ?_
          rintro rfl
          exact hearly hc
      · exact absurd hbad hearly

/-- Whether a domain that takes turns up to the limit takes one at it shows in what is left
of the domain when it takes those below. -/
theorem Turns.limit_mem_iff (h : Turns (Does act) limit s cs s') (hcs : ∀ c ∈ cs, c ≤ limit)
    (hend : WithTop.some limit < s'.firstCycle) :
    limit ∈ cs ↔ ∃ w e, Alone (Does act) limit s w ∧ (e, limit) ∈ w.queue := by
  constructor
  · intro hmem
    obtain ⟨cs₁, s₁, ht, hlt, hfirst⟩ := h.before_limit hcs hmem
    obtain ⟨e, he⟩ := exists_first hfirst
    exact ⟨_, e, ⟨cs₁, s₁, ht, hlt, le_of_eq hfirst.symm, rfl⟩, he⟩
  · rintro ⟨_, e, ⟨cs₁, s₁, ht, hlt, hle, rfl⟩, he⟩
    have hfirst : s₁.firstCycle = WithTop.some limit := le_antisymm (firstCycle_le he) hle
    by_contra hnot
    have hbelow : ∀ c ∈ cs, c < limit := by
      intro c hc
      refine Nat.lt_of_le_of_ne (hcs c hc) ?_
      rintro rfl
      exact hnot hc
    -- below the limit there are as many turns as in the phase, which leaves nothing at it
    have hle₁ := h.length_le ht fun c hc => (WithTop.coe_lt_coe.mpr (hlt c hc)).trans hend
    have hle₂ := ht.length_le h fun c hc => by
      rw [hfirst]
      exact WithTop.coe_lt_coe.mpr (hbelow c hc)
    rw [h.iterate, Nat.le_antisymm hle₂ hle₁, ← ht.iterate, hfirst] at hend
    exact absurd hend (lt_irrefl _)

end Weave

end ZSim
