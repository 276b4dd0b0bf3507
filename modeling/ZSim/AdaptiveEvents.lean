import ZSim.EventQueue

/-! An adaptive event in a queue with others: when it is checked, and when it fires. -/

namespace ZSim

def EventQueue.Event.asAdaptive : EventQueue.Event → Option AdaptiveEvent
  | .adaptive e => some e
  | .other _ _ => none

namespace EventQueue

open Multimap

variable {C : Callbacks} {q q' : EventQueue} {m : Multimap Event} {phase key fuel : Nat}
  {e : AdaptiveEvent} {ev : Event}

def adaptives (m : Multimap Event) : List (Nat × AdaptiveEvent) :=
  m.filterMap fun x => x.2.asAdaptive.map fun e => (x.1, e)

@[simp] theorem adaptives_nil : adaptives [] = [] := rfl

@[simp] theorem adaptives_adaptive : adaptives ((key, .adaptive e) :: m) =
    (key, e) :: adaptives m := rfl

@[simp] theorem adaptives_other {id period : Nat} :
    adaptives ((key, .other id period) :: m) = adaptives m := rfl

theorem adaptives_requeue_other {id period : Nat} :
    (adaptives (requeue phase (.other id period) m)).Perm (adaptives m) := by
  rw [requeue]
  split
  · exact .refl _
  · exact insert_perm.filterMap _

theorem adaptives_insert :
    (adaptives (Multimap.insert key ev m)).Perm (adaptives ((key, ev) :: m)) :=
  insert_perm.filterMap _

/-- Events of the queue are for the current phase or for later ones. -/
structure Ready (q : EventQueue) : Prop where
  sorted : Sorted q.evMap
  le : ∀ x ∈ q.evMap, q.numPhases ≤ x.1
  lt : q.numPhases < 2 ^ 64

/-- What the loop of `tick` leaves. -/
structure Drained (q q' : EventQueue) : Prop where
  sorted : Sorted q'.evMap
  lt : ∀ x ∈ q'.evMap, q.numPhases < x.1
  numPhases : q'.numPhases = q.numPhases

theorem drain_late {x : Nat × Event} (hm : q.evMap = x :: m) (hx : q.numPhases < x.1) :
    q.drain C (fuel + 1) = .ok q := by
  obtain ⟨phase, ev⟩ := x
  simp only [drain, hm]
  exact if_pos hx

theorem drain_due (hm : q.evMap = (q.numPhases, ev) :: m) {r : Event × Bool}
    (hr : ev.callback C q.numPhases = some r) :
    q.drain C (fuel + 1) = drain C fuel
      { q with
        evMap := requeue q.numPhases r.1 m
        fires := if r.2 then q.fires ++ [q.numPhases] else q.fires } := by
  simp [drain, hm, hr]

theorem Ready.tail (h : Ready q) {x : Nat × Event} (hm : q.evMap = x :: m) :
    Sorted m ∧ (∀ y ∈ m, q.numPhases ≤ y.1) ∧ ∀ y ∈ m, x.1 ≤ y.1 := by
  have hs := h.sorted
  rw [hm] at hs
  obtain ⟨hle, hsorted⟩ := List.pairwise_cons.mp hs
  exact ⟨hsorted, fun y hy => h.le y (by simp [hm, hy]), hle⟩

/-- The queue after a callback, when its event goes back to a later phase or not at all. -/
theorem Ready.requeue (h : Ready q) {x : Nat × Event} (hm : q.evMap = x :: m)
    (hfits : q.numPhases + ev.getPeriod < 2 ^ 64) (fires : List Nat) :
    Ready { q with evMap := requeue q.numPhases ev m, fires := fires } ∧
      due q.numPhases (EventQueue.requeue q.numPhases ev m) = due q.numPhases m := by
  obtain ⟨hsorted, hle, -⟩ := h.tail hm
  rw [EventQueue.requeue, Nat.mod_eq_of_lt hfits]
  split
  · exact ⟨⟨hsorted, hle, h.lt⟩, rfl⟩
  · next hpos =>
    have hlt : q.numPhases < q.numPhases + ev.getPeriod := by omega
    refine ⟨⟨sorted_insert hsorted, fun y hy => ?_, h.lt⟩, due_insert hlt⟩
    rcases mem_insert.mp hy with rfl | hy
    · exact hlt.le
    · exact hle y hy

/-- A tick before the adaptive events are due leaves them alone. -/
theorem drain_idle (h : Ready q) (hfuel : due q.numPhases q.evMap < fuel)
    (hidle : ∀ x ∈ adaptives q.evMap, q.numPhases < x.1) :
    ∃ q', q.drain C fuel = .ok q' ∧ Drained q q' ∧
      (adaptives q'.evMap).Perm (adaptives q.evMap) ∧ q'.fires = q.fires := by
  induction fuel generalizing q with
  | zero => omega
  | succ fuel ih =>
    cases hm : q.evMap with
    | nil =>
      refine ⟨q, by simp [drain, hm], ⟨h.sorted, ?_, rfl⟩, by rw [hm], rfl⟩
      simp [hm]
    | cons x m =>
      obtain ⟨hsorted, hle, hhead⟩ := h.tail hm
      by_cases hx : q.numPhases < x.1
      · refine ⟨q, drain_late hm hx, ⟨h.sorted, fun y hy => ?_, rfl⟩, by rw [hm], rfl⟩
        rw [hm] at hy
        rcases List.mem_cons.mp hy with rfl | hy
        · exact hx
        · exact hx.trans_le (hhead y hy)
      · have hxle := h.le x (by simp [hm])
        obtain ⟨key, ev⟩ := x
        have hkey : key = q.numPhases := by
          simp only at hx hxle
          omega
        subst hkey
        cases ev with
        | adaptive e =>
          have := hidle (q.numPhases, e) (by simp [hm])
          simp at this
        | other id period =>
          let ev : Event := .other id (C.period id q.numPhases)
          have hfits : q.numPhases + ev.getPeriod < 2 ^ 64 := C.period_fits id _ h.lt
          obtain ⟨h₁, hdue⟩ := h.requeue hm hfits q.fires
          have hadaptives : (adaptives (requeue q.numPhases ev m)).Perm (adaptives m) :=
            adaptives_requeue_other
          rw [hm, due_cons (le_refl _)] at hfuel
          rw [hm, adaptives_other] at hidle
          obtain ⟨q', hq', hd, hp, hf⟩ := ih h₁ (by rw [hdue]; omega)
            fun x hx => hidle x (hadaptives.mem_iff.mp hx)
          refine ⟨q', ?_, ⟨hd.sorted, hd.lt, hd.numPhases⟩, ?_, hf⟩
          · rw [drain_due hm rfl]
            exact hq'
          · exact hp.trans hadaptives

/-- In the phase of its check a tick gets to the adaptive event. -/
theorem drain_to_check (h : Ready q) (hfuel : due q.numPhases q.evMap < fuel)
    (he : adaptives q.evMap = [(q.numPhases, e)]) :
    ∃ q₁ fuel₁ m, q.drain C fuel = q₁.drain C (fuel₁ + 1) ∧ Ready q₁ ∧
      q₁.evMap = (q₁.numPhases, .adaptive e) :: m ∧ adaptives m = [] ∧
      due q₁.numPhases m < fuel₁ ∧ q₁.numPhases = q.numPhases ∧ q₁.fires = q.fires := by
  induction fuel generalizing q with
  | zero => omega
  | succ fuel ih =>
    cases hm : q.evMap with
    | nil => simp [hm] at he
    | cons x m =>
      obtain ⟨hsorted, hle, hhead⟩ := h.tail hm
      obtain ⟨key, ev⟩ := x
      rw [hm] at he hfuel
      have hkey : key = q.numPhases := by
        have hxle : q.numPhases ≤ key := h.le (key, ev) (by simp [hm])
        have hmem : (q.numPhases, Event.adaptive e) ∈ (key, ev) :: m := by
          have hin : (q.numPhases, e) ∈ adaptives ((key, ev) :: m) := by simp [he]
          obtain ⟨⟨k, ev'⟩, hy, hev⟩ := List.mem_filterMap.mp hin
          cases ev' with
          | adaptive e' =>
            simp [Event.asAdaptive] at hev
            rwa [← hev.1, ← hev.2]
          | other => simp [Event.asAdaptive] at hev
        rcases List.mem_cons.mp hmem with heq | hmem
        · exact (Prod.mk.inj heq).1.symm
        · exact le_antisymm (hhead _ hmem) hxle
      subst hkey
      rw [due_cons (le_refl _)] at hfuel
      cases ev with
      | adaptive e' =>
        rw [adaptives_adaptive, List.cons.injEq] at he
        obtain ⟨heq, hnil⟩ := he
        cases heq
        exact ⟨q, fuel, m, rfl, h, hm, hnil, by omega, rfl, rfl⟩
      | other id period =>
        let ev : Event := .other id (C.period id q.numPhases)
        have hfits : q.numPhases + ev.getPeriod < 2 ^ 64 := C.period_fits id _ h.lt
        obtain ⟨h₁, hdue⟩ := h.requeue hm hfits q.fires
        have he₁ : adaptives (requeue q.numPhases ev m) = [(q.numPhases, e)] :=
          List.perm_singleton.mp (adaptives_requeue_other.trans (by rw [← he]; rfl))
        obtain ⟨q₁, fuel₁, m₁, hrun, hrest⟩ := ih h₁ (by rw [hdue]; omega) he₁
        refine ⟨q₁, fuel₁, m₁, ?_, hrest⟩
        rw [drain_due hm rfl]
        exact hrun

theorem drain_fails (h : Ready q) (hfuel : due q.numPhases q.evMap < fuel)
    (he : adaptives q.evMap = [(q.numPhases, e)])
    (hr : e.callback (C.get q.numPhases) = none) : q.drain C fuel = .error .assertion := by
  obtain ⟨q₁, fuel₁, m, hrun, -, hm, -, -, hn, -⟩ :=
    @drain_to_check C q fuel e h hfuel he
  rw [hrun]
  rw [← hn] at hr
  simp [drain, hm, Event.callback, hr]

theorem drain_check (h : Ready q) (hfuel : due q.numPhases q.evMap < fuel)
    (he : adaptives q.evMap = [(q.numPhases, e)]) {r : AdaptiveEvent × Bool}
    (hr : e.callback (C.get q.numPhases) = some r)
    (hfits : q.numPhases + r.1.period < 2 ^ 64) :
    ∃ q', q.drain C fuel = .ok q' ∧ Drained q q' ∧
      adaptives q'.evMap =
        (if r.1.period = 0 then [] else [(q.numPhases + r.1.period, r.1)]) ∧
      q'.fires = if r.2 then q.fires ++ [q.numPhases] else q.fires := by
  obtain ⟨q₁, fuel₁, m, hrun, h₁, hm, hnil, hfuel₁, hn, hf⟩ :=
    @drain_to_check C q fuel e h hfuel he
  rw [← hn] at hr hfits
  let ev : Event := .adaptive r.1
  obtain ⟨h₂, hdue⟩ := @Ready.requeue q₁ m ev h₁ _ hm hfits
    (if r.2 then q₁.fires ++ [q₁.numPhases] else q₁.fires)
  have hadaptives : (adaptives (requeue q₁.numPhases ev m)).Perm
      (if r.1.period = 0 then [] else [(q₁.numPhases + r.1.period, r.1)]) := by
    rw [requeue]
    change (adaptives (if r.1.period = 0 then m else _)).Perm _
    split
    · rw [hnil]
    · change (adaptives (Multimap.insert ((q₁.numPhases + r.1.period) % 2 ^ 64) ev m)).Perm _
      rw [Nat.mod_eq_of_lt hfits, ← hnil]
      exact adaptives_insert
  obtain ⟨q', hq', hd, hp, hf'⟩ := @drain_idle C _ fuel₁ h₂ (by rw [hdue]; exact hfuel₁) (by
    intro x hx
    have hx' := hadaptives.mem_iff.mp hx
    split at hx'
    · cases hx'
    · rw [List.mem_singleton] at hx'
      subst hx'
      simp only
      omega)
  refine ⟨q', ?_, ⟨hd.sorted, ?_, ?_⟩, ?_, ?_⟩
  · rw [hrun, drain_due hm (r := (ev, r.2)) (by simp [Event.callback, hr, ev])]
    exact hq'
  · rw [← hn]
    exact hd.lt
  · exact hd.numPhases.trans hn
  · have hall := hp.trans hadaptives
    rw [hn] at hall
    by_cases hz : r.1.period = 0
    · rw [if_pos hz] at hall ⊢
      exact List.perm_nil.mp hall
    · rw [if_neg hz] at hall ⊢
      exact List.perm_singleton.mp hall
  · rw [hf', hf, hn]

theorem drain_wraps (h : Ready q) (hfuel : due q.numPhases q.evMap < fuel)
    (he : adaptives q.evMap = [(q.numPhases, e)]) {r : AdaptiveEvent × Bool}
    (hr : e.callback (C.get q.numPhases) = some r) (hperiod : r.1.period < 2 ^ 64)
    (hwraps : 2 ^ 64 ≤ q.numPhases + r.1.period) :
    q.drain C fuel = .error .missedPhase := by
  obtain ⟨q₁, fuel₁, m, hrun, h₁, hm, hnil, hfuel₁, hn, hf⟩ :=
    @drain_to_check C q fuel e h hfuel he
  rw [← hn] at hr hwraps
  obtain ⟨hsorted, hle, -⟩ := h₁.tail hm
  let ev : Event := .adaptive r.1
  have hlt := h₁.lt
  have hkey : (q₁.numPhases + r.1.period) % 2 ^ 64 < q₁.numPhases := by omega
  have hfirst : requeue q₁.numPhases ev m =
      ((q₁.numPhases + r.1.period) % 2 ^ 64, ev) :: m := by
    have hpos : ev.getPeriod ≠ 0 := by
      change r.1.period ≠ 0
      omega
    rw [requeue, if_neg hpos]
    exact insert_of_lt fun x hx => hkey.trans_le (hle x hx)
  obtain ⟨n, rfl⟩ : ∃ n, fuel₁ = n + 1 := ⟨fuel₁ - 1, by omega⟩
  rw [hrun, drain_due hm (r := (ev, r.2)) (by simp [Event.callback, hr, ev])]
  simp only [drain, hfirst]
  rw [if_neg (Nat.not_lt.mpr hkey.le), if_pos (Nat.ne_of_lt hkey)]

end EventQueue

end ZSim
