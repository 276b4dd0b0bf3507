import ZSim.TimingEventChildren

/-! The invariant of a weave. `todo` holds the calls of `parentDone` that the events done
so far owe to their children; `numParents` counts the parents not done and the calls
owed, and `cycle` is the latest arrival. -/

namespace ZSim

namespace Weave

open EventHeap

variable {E : Type} [DecidableEq E] {rank : E → Nat} {s s' : Weave E} {e : E}
  {todo : Multiset (E × Nat)}

/-- The children of `e` in the order they were added. -/
def kids (s : Weave E) (e : E) : List E :=
  ((s.edges.filter fun x => x.1 = e).map Prod.snd).reverse

def HasParent (s : Weave E) (e : E) : Prop := ∃ x ∈ s.edges, x.2 = e

/-- The edges into `e` from parents that are not done. -/
def pending (s : Weave E) (e : E) : Nat :=
  s.edges.countP fun x => x.2 = e ∧ s.doneAt x.1 = none

/-- The calls of `parentDone` owed to `e`. -/
def owedTo (todo : Multiset (E × Nat)) (e : E) : Nat := todo.countP fun x => x.1 = e

theorem owedTo_cons_self (e : E) (t : Nat) (todo : Multiset (E × Nat)) :
    owedTo ((e, t) ::ₘ todo) e = owedTo todo e + 1 :=
  Multiset.countP_cons_of_pos (p := fun x : E × Nat => x.1 = e) todo rfl

theorem owedTo_cons_of_ne {x : E} (hx : x ≠ e) (t : Nat) (todo : Multiset (E × Nat)) :
    owedTo ((e, t) ::ₘ todo) x = owedTo todo x :=
  Multiset.countP_cons_of_neg (p := fun y : E × Nat => y.1 = x) todo (Ne.symm hx)

/-- A parent of `e` is done, and `e` hears of it at cycle `t`. -/
def Arrives (s : Weave E) (e : E) (t : Nat) : Prop :=
  ∃ x ∈ s.edges, x.2 = e ∧ ∃ d, s.doneAt x.1 = some d ∧ t = d + (s.event x.1).postDelay

/-- When an event that no longer waits starts: with its parents, or when it was queued. -/
structure StartsAt (s : Weave E) (e : E) (c : Nat) : Prop where
  ready : (s.event e).numParents = 0
  child : HasParent s e → c = (s.event e).cycle + (s.event e).preDelay
  root : ¬ HasParent s e → (e, c) ∈ s.queued

structure Counts (rank : E → Nat) (s : Weave E) (todo : Multiset (E × Nat)) : Prop where
  children : ∃ chains, ChildrenOk s.heap chains (kids s)
  ranked : ∀ x ∈ s.edges, rank x.1 < rank x.2
  numParents : ∀ e, (s.event e).numParents = pending s e + owedTo todo e
  arrived : ∀ x ∈ s.edges, ∀ d, s.doneAt x.1 = some d →
    d + (s.event x.1).postDelay ≤ (s.event x.2).cycle ∨
      (x.2, d + (s.event x.1).postDelay) ∈ todo
  attained : ∀ e, (s.event e).cycle = 0 ∨ Arrives s e (s.event e).cycle
  owed : ∀ x ∈ todo, Arrives s x.1 x.2
  zeroed : ∀ e, e ∈ s.zeroed ↔ HasParent s e ∧ (s.event e).numParents = 0
  zeroed_nodup : s.zeroed.Nodup

/-- `out` is the event `parentDone` is working on, if its last parent just arrived. -/
structure States (out : Option E) (s : Weave E) : Prop where
  waiting : ∀ e, (s.event e).numParents ≠ 0 → (s.event e).state = .EV_NONE
  idle : ∀ e, some e ≠ out → (s.event e).state = .EV_NONE → (s.event e).numParents = 0 →
    ¬ HasParent s e
  done : ∀ e, (s.event e).state = .EV_DONE ↔ s.doneAt e ≠ none
  queued : ∀ e, (s.event e).state = .EV_QUEUED ↔ ∃ c, (e, c) ∈ s.queue
  queue_nodup : (s.queue.map Prod.fst).Nodup
  queue_at : ∀ x ∈ s.queue, s.curCycle ≤ x.2 ∧ StartsAt s x.1 x.2
  simulated_nodup : (s.simulated.map Prod.fst).Nodup
  simulated_at : ∀ x ∈ s.simulated, StartsAt s x.1 x.2 ∧ (s.event x.1).isDelay = false ∧
    ((s.event x.1).state = .EV_RUNNING ∨ (s.event x.1).state = .EV_DONE)
  simulated_of : ∀ e, (s.event e).state = .EV_RUNNING ∨ (s.event e).state = .EV_DONE →
    (s.event e).isDelay = false → ∃ c, (e, c) ∈ s.simulated
  rooted : ∀ x ∈ s.queued, some x.1 ≠ out → (s.event x.1).state ≠ .EV_NONE
  queue_delay : ∀ x ∈ s.queue, (s.event x.1).isDelay = true → ¬ HasParent s x.1
  delay_at : ∀ e d, (s.event e).isDelay = true → s.doneAt e = some d →
    HasParent s e ∧ (s.event e).numParents = 0 ∧
      d = (s.event e).cycle + (s.event e).preDelay

theorem event_setEvent (s : Weave E) (e x : E) (ev : TimingEvent E) :
    (s.setEvent e ev).event x = if x = e then ev else s.event x :=
  Function.update_apply s.heap.events e ev x

/-- The counts do not look at the states of events, nor at the queue. -/
theorem Counts.congr (h : Counts rank s todo) (hblocks : s'.heap.blocks = s.heap.blocks)
    (hnum : s'.heap.numBlocks = s.heap.numBlocks)
    (hev : ∀ e, ∃ st, s'.event e = { s.event e with state := st }) (hedges : s'.edges = s.edges)
    (hdone : s'.doneAt = s.doneAt) (hzeroed : s'.zeroed = s.zeroed) : Counts rank s' todo := by
  have hchild : ∀ e, (s'.event e).child = (s.event e).child ∧
      (s'.event e).numChildren = (s.event e).numChildren := by
    intro e
    obtain ⟨st, he⟩ := hev e
    rw [he]
    exact ⟨rfl, rfl⟩
  have hparents : ∀ e, (s'.event e).numParents = (s.event e).numParents := by
    intro e
    obtain ⟨st, he⟩ := hev e
    rw [he]
  have hcycle : ∀ e, (s'.event e).cycle = (s.event e).cycle := by
    intro e
    obtain ⟨st, he⟩ := hev e
    rw [he]
  have hpost : ∀ e, (s'.event e).postDelay = (s.event e).postDelay := by
    intro e
    obtain ⟨st, he⟩ := hev e
    rw [he]
  have hkids : kids s' = kids s := by
    funext e
    rw [kids, kids, hedges]
  have harr : ∀ e t, Arrives s' e t ↔ Arrives s e t := by
    intro e t
    simp only [Arrives, hedges, hdone, hpost]
  have hhas : ∀ e, HasParent s' e ↔ HasParent s e := by
    intro e
    rw [HasParent, HasParent, hedges]
  constructor
  · obtain ⟨chains, hok⟩ := h.children
    rw [hkids]
    exact ⟨chains, hok.congr hblocks hnum hchild⟩
  · rw [hedges]
    exact h.ranked
  · intro e
    rw [hparents, pending, hedges, hdone]
    exact h.numParents e
  · intro x hx d hd
    rw [hedges] at hx
    rw [hdone] at hd
    rw [hpost, hcycle]
    exact h.arrived x hx d hd
  · intro e
    rw [hcycle, harr]
    exact h.attained e
  · intro x hx
    rw [harr]
    exact h.owed x hx
  · intro e
    rw [hzeroed, hhas, hparents]
    exact h.zeroed e
  · rw [hzeroed]
    exact h.zeroed_nodup

/-- An event whose parents have all arrived: they are done, and `cycle` is the latest. -/
theorem Counts.all_arrived (h : Counts rank s todo) (hready : (s.event e).numParents = 0) :
    ∀ x ∈ s.edges, x.2 = e → ∃ d, s.doneAt x.1 = some d ∧
      d + (s.event x.1).postDelay ≤ (s.event e).cycle := by
  have hn := h.numParents e
  rw [hready] at hn
  have hpend : pending s e = 0 := by omega
  have howed : owedTo todo e = 0 := by omega
  rintro ⟨p, x⟩ hx rfl
  have hdone : s.doneAt p ≠ none := by
    rw [pending, List.countP_eq_zero] at hpend
    intro hnone
    exact hpend _ hx (by simp [hnone])
  obtain ⟨d, hd⟩ := Option.ne_none_iff_exists'.mp hdone
  refine ⟨d, hd, (h.arrived _ hx d hd).resolve_right fun hmem => ?_⟩
  rw [owedTo, Multiset.countP_eq_zero] at howed
  exact howed _ hmem rfl

end Weave

end ZSim
