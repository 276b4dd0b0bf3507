import Mathlib.Tactic

/-! Graphs of events with delays before and after them, and when the events start if nothing but
the delays holds them up. Events are numbered as they are made. -/

namespace ZSim

structure EventGraph (L : Type) where
  size : Nat
  label : Nat → L
  preDelay : Nat → Nat
  postDelay : Nat → Nat
  parents : Nat → List Nat

namespace EventGraph

variable {L : Type} {g g' g'' : EventGraph L} {K : Nat → Prop}
  {lo first root cycle cycle' e p q c t t' d : Nat} {l : L}

/-- The new event is number `g.size`. -/
def new (g : EventGraph L) (l : L) (preDelay postDelay : Nat) : EventGraph L :=
  { g with
    size := g.size + 1
    label := Function.update g.label g.size l
    preDelay := Function.update g.preDelay g.size preDelay
    postDelay := Function.update g.postDelay g.size postDelay }

def addChild (g : EventGraph L) (p c : Nat) : EventGraph L :=
  { g with parents := Function.update g.parents c (p :: g.parents c) }

/-- A child with an event for the delay between, if there is one. -/
def addDelayed (g : EventGraph L) (l : L) (p c delay : Nat) : EventGraph L :=
  if delay = 0 then g.addChild p c
  else ((g.new l delay 0).addChild p g.size).addChild g.size c

/-- The last of the parents, which start at `times`, is done. -/
def arrival (g : EventGraph L) (times : Nat → Nat) (parents : List Nat) : Nat :=
  parents.foldr (fun p cycle => max (times p + g.postDelay p) cycle) 0

/-- When an event starts, if `first` is due at `cycle`. -/
inductive StartsAt (g : EventGraph L) (first cycle : Nat) : Nat → Nat → Prop where
  | first : StartsAt g first cycle first (cycle + g.preDelay first)
  | next {e : Nat} {times : Nat → Nat} (some : g.parents e ≠ [])
      (parents : ∀ p ∈ g.parents e, StartsAt g first cycle p (times p)) :
      StartsAt g first cycle e (g.arrival times (g.parents e) + g.preDelay e)

/-- `last` is done `d` cycles after `first` is due, whenever that is. -/
def Takes (g : EventGraph L) (first last d : Nat) : Prop :=
  ∀ cycle, (∃ t, StartsAt g first cycle last t) ∧
    ∀ t, StartsAt g first cycle last t → t + g.postDelay last = cycle + d

@[simp] theorem new_preDelay {pre post : Nat} : (g.new l pre post).preDelay g.size = pre := by
  simp [new]

@[simp] theorem new_postDelay {pre post : Nat} : (g.new l pre post).postDelay g.size = post := by
  simp [new]

@[simp] theorem addChild_parents_self : (g.addChild p c).parents c = p :: g.parents c :=
  Function.update_self c _ _

theorem addChild_parents_of_ne (h : e ≠ c) : (g.addChild p c).parents e = g.parents e :=
  Function.update_of_ne h _ _

theorem arrival_congr {times times' : Nat → Nat} {ps : List Nat}
    (htimes : ∀ p ∈ ps, times p = times' p) (hpost : ∀ p ∈ ps, g'.postDelay p = g.postDelay p) :
    g'.arrival times ps = g.arrival times' ps := by
  induction ps with
  | nil => rfl
  | cons p ps ih =>
    have hrest := ih (fun q hq => htimes q (List.mem_cons_of_mem p hq))
      fun q hq => hpost q (List.mem_cons_of_mem p hq)
    simp only [arrival, List.foldr_cons] at hrest ⊢
    rw [hrest, htimes p List.mem_cons_self, hpost p List.mem_cons_self]

theorem StartsAt.unique (hfirst : g.parents first = []) (h : StartsAt g first cycle e t)
    (h' : StartsAt g first cycle e t') : t = t' := by
  induction h generalizing t' with
  | first =>
    cases h' with
    | first => rfl
    | next hne => exact absurd hfirst hne
  | next hne _ ih =>
    cases h' with
    | first => exact absurd hfirst hne
    | next _ hp =>
      rw [arrival_congr (fun p hm => ih p hm (hp p hm)) fun _ _ => rfl]

theorem StartsAt.only (hp : g.parents e = [p]) (h : StartsAt g first cycle p t) :
    StartsAt g first cycle e (t + g.postDelay p + g.preDelay e) := by
  have hnext : StartsAt g first cycle e (g.arrival (fun _ => t) (g.parents e) + g.preDelay e) := by
    apply StartsAt.next
    · simp [hp]
    · intro q hq
      rw [hp, List.mem_singleton] at hq
      rwa [hq]
  simpa [hp, arrival] using hnext

theorem Takes.of_exists (hfirst : g.parents first = [])
    (h : ∀ cycle, ∃ t, StartsAt g first cycle e t ∧ t + g.postDelay e = cycle + d) :
    Takes g first e d := by
  intro cycle
  obtain ⟨t, ht, heq⟩ := h cycle
  refine ⟨⟨t, ht⟩, fun t' ht' => ?_⟩
  rwa [← ht.unique hfirst ht']

/-- The graph has more events, and those in `K` have no more parents. -/
structure Grows (K : Nat → Prop) (g g' : EventGraph L) : Prop where
  size : g.size ≤ g'.size
  preDelay : ∀ e < g.size, g'.preDelay e = g.preDelay e
  postDelay : ∀ e < g.size, g'.postDelay e = g.postDelay e
  parents : ∀ e < g.size, K e → g'.parents e = g.parents e

namespace Grows

theorem refl (K : Nat → Prop) (g : EventGraph L) : Grows K g g :=
  ⟨le_rfl, fun _ _ => rfl, fun _ _ => rfl, fun _ _ _ => rfl⟩

theorem trans (h : Grows K g g') (h' : Grows K g' g'') : Grows K g g'' := by
  constructor
  · exact h.size.trans h'.size
  · intro e he
    rw [h'.preDelay e (he.trans_le h.size), h.preDelay e he]
  · intro e he
    rw [h'.postDelay e (he.trans_le h.size), h.postDelay e he]
  · intro e he hK
    rw [h'.parents e (he.trans_le h.size) hK, h.parents e he hK]

theorem mono {K' : Nat → Prop} (h : Grows K g g') (hK : ∀ e, K' e → K e) : Grows K' g g' :=
  ⟨h.size, h.preDelay, h.postDelay, fun e he hK' => h.parents e he (hK e hK')⟩

theorem all (h : Grows (fun e => e < g.size) g g') : Grows K g g' :=
  ⟨h.size, h.preDelay, h.postDelay, fun e he _ => h.parents e he he⟩

theorem new (g : EventGraph L) (l : L) (pre post : Nat) : Grows K g (g.new l pre post) := by
  constructor
  · exact Nat.le_succ g.size
  · intro e he
    exact Function.update_of_ne he.ne _ _
  · intro e he
    exact Function.update_of_ne he.ne _ _
  · intro e _ _
    rfl

theorem addChild (hc : ¬ K c) : Grows K g (g.addChild p c) := by
  refine ⟨le_rfl, fun _ _ => rfl, fun _ _ => rfl, fun e he hK => Function.update_of_ne ?_ _ _⟩
  intro hec
  exact hc (hec ▸ hK)

theorem newChild {pre post : Nat} : Grows K g ((g.new l pre post).addChild p g.size) := by
  have hnew : Grows K g (g.new l pre post) := .new g l pre post
  exact ⟨hnew.size, hnew.preDelay, hnew.postDelay, fun e he _ => addChild_parents_of_ne he.ne⟩

theorem addDelayed (hc : ¬ K c) : Grows K g (g.addDelayed l p c d) := by
  rw [EventGraph.addDelayed]
  split
  · exact addChild hc
  · exact newChild.trans (addChild hc)

end Grows

/-- Events that take some time take it in a graph with more events too, when the first of them
gets parents. -/
theorem Grows.graft (hg : Grows (fun e => K e ∧ e ≠ first) g g')
    (hclosed : ∀ e < g.size, K e → ∀ p ∈ g.parents e, K p ∧ p < g.size)
    (hparents : g.parents first = [])
    (hfirst : StartsAt g' root cycle' first (cycle + g.preDelay first))
    (h : StartsAt g first cycle e t) (hK : K e) (he : e < g.size) :
    StartsAt g' root cycle' e t := by
  induction h with
  | first => exact hfirst
  | @next e times hne _ ih =>
    have hef : e ≠ first := by
      rintro rfl
      exact hne hparents
    have hpar := hg.parents e he ⟨hK, hef⟩
    have hnext : StartsAt g' root cycle' e
        (g'.arrival times (g'.parents e) + g'.preDelay e) := by
      apply StartsAt.next
      · rwa [hpar]
      · intro p hp
        rw [hpar] at hp
        exact ih p hp (hclosed e he hK p hp).1 (hclosed e he hK p hp).2
    rw [hpar, hg.preDelay e he] at hnext
    rwa [arrival_congr (fun _ _ => rfl) fun p hp => hg.postDelay p (hclosed e he hK p hp).2]
      at hnext

/-- Events from `lo` on have parents that were made from `lo` on. -/
def Closed (lo : Nat) (g : EventGraph L) : Prop :=
  ∀ e, lo ≤ e → ∀ p ∈ g.parents e, lo ≤ p ∧ p < g.size

/-- Events that are still to be made have no parents. -/
def Fresh (g : EventGraph L) : Prop := ∀ e, g.size ≤ e → g.parents e = []

theorem Closed.new {pre post : Nat} (h : Closed lo g) : Closed lo (g.new l pre post) :=
  fun e he p hp => ⟨(h e he p hp).1, (h e he p hp).2.trans (Nat.lt_succ_self _)⟩

theorem Closed.addChild (h : Closed lo g) (hp : lo ≤ p) (hlt : p < g.size) :
    Closed lo (g.addChild p c) := by
  intro e he q hq
  by_cases hec : e = c
  · subst hec
    rw [addChild_parents_self] at hq
    rcases List.mem_cons.mp hq with rfl | hq
    · exact ⟨hp, hlt⟩
    · exact h e he q hq
  · rw [addChild_parents_of_ne hec] at hq
    exact h e he q hq

theorem Closed.addDelayed (h : Closed lo g) (hp : lo ≤ p) (hlt : p < g.size) :
    Closed lo (g.addDelayed l p c d) := by
  rw [EventGraph.addDelayed]
  split
  · exact h.addChild hp hlt
  · have hmid : Closed lo ((g.new l d 0).addChild p g.size) :=
      h.new.addChild hp (hlt.trans (Nat.lt_succ_self _))
    exact hmid.addChild (hp.trans hlt.le) (Nat.lt_succ_self _)

theorem Closed.extend (h : Closed lo g) (hle : lo ≤ g.size) (hg : Grows (fun _ => True) g g')
    (h' : Closed g.size g') : Closed lo g' := by
  intro e he p hp
  by_cases hlt : e < g.size
  · rw [hg.parents e hlt trivial] at hp
    exact ⟨(h e he p hp).1, (h e he p hp).2.trans_le hg.size⟩
  · have hpar := h' e (Nat.le_of_not_lt hlt) p hp
    exact ⟨hle.trans hpar.1, hpar.2⟩

theorem Fresh.closed (h : Fresh g) : Closed g.size g := by
  intro e he p hp
  rw [h e he] at hp
  cases hp

theorem Fresh.new {pre post : Nat} (h : Fresh g) : Fresh (g.new l pre post) :=
  fun e he => h e (Nat.le_of_succ_le he)

theorem Fresh.addChild (h : Fresh g) (hc : c < g.size) : Fresh (g.addChild p c) := by
  intro e he
  have hne : e ≠ c := by
    rintro rfl
    exact absurd hc (Nat.not_lt.mpr he)
  exact (addChild_parents_of_ne hne).trans (h e he)

theorem Fresh.addDelayed (h : Fresh g) (hc : c < g.size) : Fresh (g.addDelayed l p c d) := by
  rw [EventGraph.addDelayed]
  split
  · exact h.addChild hc
  · have hmid : Fresh ((g.new l d 0).addChild p g.size) := h.new.addChild (Nat.lt_succ_self _)
    exact hmid.addChild (hc.trans (Nat.lt_succ_self _))

/-- The event is a parent of none from `lo` on. -/
def Childless (lo : Nat) (g : EventGraph L) (p : Nat) : Prop := ∀ e, lo ≤ e → p ∉ g.parents e

theorem Closed.childless (h : Closed lo g) (hq : g.size ≤ q) : Childless lo g q :=
  fun e he hp => absurd (h e he q hp).2 (Nat.not_lt.mpr hq)

theorem Childless.addChild (h : Childless lo g q) (hpq : p ≠ q) :
    Childless lo (g.addChild p c) q := by
  intro e he hq
  by_cases hec : e = c
  · subst hec
    rw [addChild_parents_self] at hq
    rcases List.mem_cons.mp hq with rfl | hq
    · exact hpq rfl
    · exact h e he hq
  · rw [addChild_parents_of_ne hec] at hq
    exact h e he hq

theorem Childless.addDelayed (h : Childless lo g q) (hpq : p ≠ q) (hq : q < g.size) :
    Childless lo (g.addDelayed l p c d) q := by
  rw [EventGraph.addDelayed]
  split
  · exact h.addChild hpq
  · have hnew : Childless lo (g.new l d 0) q := h
    exact (hnew.addChild hpq).addChild hq.ne'

theorem startsAt_addDelayed (hfresh : Fresh g) (hc : g.parents c = []) (hcs : c < g.size)
    (hps : p < g.size)
    (h : StartsAt (g.addDelayed l p c d) first cycle p t) :
    StartsAt (g.addDelayed l p c d) first cycle c (t + g.postDelay p + d + g.preDelay c) := by
  have hgrows : Grows (fun e => e ≠ c) g (g.addDelayed l p c d) := .addDelayed (by simp)
  by_cases hd : d = 0
  · subst hd
    have hpar : (g.addDelayed l p c 0).parents c = [p] := by
      simp [addDelayed, EventGraph.addChild, hc]
    have honly := h.only hpar
    rwa [hgrows.postDelay p hps, hgrows.preDelay c hcs] at honly
  · have hne : g.size ≠ c := by omega
    have heq : g.addDelayed l p c d = ((g.new l d 0).addChild p g.size).addChild g.size c :=
      if_neg hd
    rw [heq] at h hgrows ⊢
    have hmid : (((g.new l d 0).addChild p g.size).addChild g.size c).parents g.size = [p] := by
      rw [addChild_parents_of_ne hne, addChild_parents_self]
      exact congrArg (List.cons p) (hfresh g.size le_rfl)
    have hpar : (((g.new l d 0).addChild p g.size).addChild g.size c).parents c = [g.size] := by
      rw [addChild_parents_self, addChild_parents_of_ne hne.symm]
      exact congrArg (List.cons g.size) hc
    have hpre : (((g.new l d 0).addChild p g.size).addChild g.size c).preDelay g.size = d :=
      @new_preDelay L g l d 0
    have hpost : (((g.new l d 0).addChild p g.size).addChild g.size c).postDelay g.size = 0 :=
      @new_postDelay L g l d 0
    have honly := (h.only hmid).only hpar
    rwa [hpre, hpost, hgrows.postDelay p hps, hgrows.preDelay c hcs] at honly

end EventGraph

end ZSim
