import ZSim.AdaptiveEvents

/-! Adaptive events fire on time as long as no tick before the first check reaches the target. -/

namespace ZSim

theorem checkPeriod_pos (distance maxRate : Nat) : 0 < checkPeriod distance maxRate := by
  rw [checkPeriod]
  generalize distance / maxRate = d
  split <;> omega

/-- Before its check the counter does not go the whole distance. -/
theorem checkPeriod_mul_lt {distance maxRate : Nat} (hd : 0 < distance) :
    (checkPeriod distance maxRate - 1) * maxRate < distance := by
  rw [checkPeriod]
  split
  · simpa using hd
  · next hpos =>
    have hle := Nat.div_mul_le_self distance maxRate
    have hrate : 0 < maxRate := by
      by_contra hz
      simp [Nat.eq_zero_of_not_pos hz] at hpos
    rw [Nat.sub_mul, Nat.one_mul]
    have : maxRate ≤ distance / maxRate * maxRate :=
      Nat.le_mul_of_pos_left _ (Nat.pos_of_ne_zero hpos)
    omega

theorem checkPeriod_lt {distance maxRate : Nat} (hd : distance < 2 ^ 64) :
    checkPeriod distance maxRate < 2 ^ 64 := by
  have hle := Nat.div_le_self distance maxRate
  rw [checkPeriod]
  split <;> omega

/-- A counter that grows by at most `maxRate` a phase, from `start` at the registration in
`phase`. -/
structure Registration (C : Callbacks) where
  start : Nat
  target : Nat
  maxRate : Nat
  phase : Nat
  maxRate_pos : 0 < maxRate
  start_le : start ≤ target
  target_lt : target < 2 ^ 64
  first_ge : start ≤ C.get phase
  first_le : C.get phase ≤ start + maxRate
  grows : ∀ p ≥ phase, C.get p ≤ C.get (p + 1) ∧ C.get (p + 1) ≤ C.get p + maxRate

namespace Registration

variable {C : Callbacks} {p n j : Nat}

def firstPeriod (W : Registration C) : Nat := checkPeriod (W.target - W.start) W.maxRate

def checkPhase (W : Registration C) : Nat → Nat
  | 0 => W.phase + W.firstPeriod
  | j + 1 =>
    checkPhase W j + checkPeriod (W.target - C.get (checkPhase W j)) W.maxRate

variable (W : Registration C)

theorem get_mono (hp : W.phase ≤ p) : C.get p ≤ C.get (p + n) := by
  induction n with
  | zero => exact le_refl _
  | succ n ih => exact ih.trans (W.grows (p + n) (by omega)).1

theorem get_le_get {p' : Nat} (hp : W.phase ≤ p) (hle : p ≤ p') : C.get p ≤ C.get p' := by
  obtain ⟨n, rfl⟩ := Nat.exists_eq_add_of_le hle
  exact W.get_mono hp

theorem get_add_le (hp : W.phase ≤ p) : C.get (p + n) ≤ C.get p + n * W.maxRate := by
  induction n with
  | zero => simp
  | succ n ih =>
    have := (W.grows (p + n) (by omega)).2
    rw [Nat.succ_mul]
    rw [Nat.add_assoc] at this
    omega

theorem checkPhase_lt_succ : W.checkPhase j < W.checkPhase (j + 1) :=
  Nat.lt_add_of_pos_right (checkPeriod_pos _ _)

theorem checkPhase_mono {i : Nat} (hij : i ≤ j) : W.checkPhase i ≤ W.checkPhase j :=
  @monotone_nat_of_le_succ _ _ W.checkPhase (fun _ => W.checkPhase_lt_succ.le) i j hij

theorem phase_lt_checkPhase : W.phase < W.checkPhase j :=
  (Nat.lt_add_of_pos_right (checkPeriod_pos _ _)).trans_le (W.checkPhase_mono (Nat.zero_le j))

theorem get_before_check (hj : C.get (W.checkPhase j) < W.target) :
    C.get (W.checkPhase (j + 1) - 1) < W.target := by
  have hpos := checkPeriod_pos (W.target - C.get (W.checkPhase j)) W.maxRate
  have hle := @get_add_le C (W.checkPhase j)
    (checkPeriod (W.target - C.get (W.checkPhase j)) W.maxRate - 1) W W.phase_lt_checkPhase.le
  have hlt := @checkPeriod_mul_lt (W.target - C.get (W.checkPhase j)) W.maxRate (by omega)
  have heq : W.checkPhase (j + 1) - 1 = W.checkPhase j +
      (checkPeriod (W.target - C.get (W.checkPhase j)) W.maxRate - 1) := by
    rw [checkPhase]
    omega
  rw [heq]
  omega

/-- Up to the last tick but one before the first check the counter is before the target. -/
theorem get_before_first (hp : W.phase ≤ p) (hlt : p + 1 < W.checkPhase 0) :
    C.get p < W.target := by
  obtain ⟨n, rfl⟩ := Nat.exists_eq_add_of_le hp
  have hle := @get_add_le C W.phase n W (le_refl _)
  have hfirst := W.first_le
  have hperiod : n + 1 < checkPeriod (W.target - W.start) W.maxRate := by
    rw [checkPhase, firstPeriod] at hlt
    omega
  have hd : 0 < W.target - W.start := by
    by_contra hz
    have hz' : W.target - W.start = 0 := by omega
    rw [hz', checkPeriod] at hperiod
    simp at hperiod
  have hmul := @checkPeriod_mul_lt (W.target - W.start) W.maxRate hd
  have hrate : (n + 1) * W.maxRate ≤
      (checkPeriod (W.target - W.start) W.maxRate - 1) * W.maxRate :=
    Nat.mul_le_mul_right _ (by omega)
  rw [Nat.succ_mul] at hrate
  omega

end Registration

namespace EventQueue

variable {C : Callbacks} {q q' : EventQueue} (W : Registration C)

/-- The adaptive event waits for its check `j`, or has fired at it. -/
structure Tracked (q : EventQueue) (j : Nat) : Prop where
  ready : Ready q
  phase_le : W.phase ≤ q.numPhases
  checkPhase_lt : W.checkPhase j < 2 ^ 64
  before : ∀ i < j, W.checkPhase i < q.numPhases ∧ C.get (W.checkPhase i) < W.target
  waits : (∃ period, adaptives q.evMap = [(W.checkPhase j, ⟨period, W.target, W.maxRate⟩)] ∧
      q.numPhases ≤ W.checkPhase j ∧ q.fires = []) ∨
    adaptives q.evMap = [] ∧ W.checkPhase j < q.numPhases ∧
      W.target ≤ C.get (W.checkPhase j) ∧ q.fires = [W.checkPhase j]

/-- Check `j` fails: the counter is too far beyond the target, or the next check does not fit into
64 bits. -/
def CheckFails (j : Nat) : Prop :=
  W.target + W.maxRate < C.get (W.checkPhase j) ∨
    C.get (W.checkPhase j) < W.target ∧ 2 ^ 64 ≤ W.checkPhase (j + 1)

variable {W} {j : Nat}

theorem callback_of_reached {period cur : Nat} (hcur : W.target ≤ cur)
    (hle : cur ≤ W.target + W.maxRate) :
    AdaptiveEvent.callback ⟨period, W.target, W.maxRate⟩ cur =
      some (⟨0, W.target, W.maxRate⟩, true) := by
  rw [AdaptiveEvent.callback, if_pos hcur, if_pos (by simp only; omega)]

theorem callback_of_overshoot {period cur : Nat} (hcur : W.target + W.maxRate < cur) :
    AdaptiveEvent.callback ⟨period, W.target, W.maxRate⟩ cur = none := by
  rw [AdaptiveEvent.callback, if_pos (by simp only; omega), if_neg (by simp only; omega)]

theorem callback_of_before {period cur : Nat} (hcur : cur < W.target) :
    AdaptiveEvent.callback ⟨period, W.target, W.maxRate⟩ cur =
      some (⟨checkPeriod (W.target - cur) W.maxRate, W.target, W.maxRate⟩, false) :=
  if_neg (Nat.not_le.mpr hcur)

theorem due_lt : Multimap.due q.numPhases q.evMap < q.evMap.length + 1 :=
  Nat.lt_succ_of_le (List.countP_le_length ..)

theorem Drained.ready (h : Drained q q') (hlt : q.numPhases + 1 < 2 ^ 64) :
    Ready { q' with numPhases := (q'.numPhases + 1) % 2 ^ 64 } ∧
      (q'.numPhases + 1) % 2 ^ 64 = q.numPhases + 1 := by
  have heq : (q'.numPhases + 1) % 2 ^ 64 = q.numPhases + 1 := by
    rw [h.numPhases]
    exact Nat.mod_eq_of_lt hlt
  refine ⟨⟨h.sorted, fun x hx => ?_, ?_⟩, heq⟩
  · simp only [heq]
    exact h.lt x hx
  · simp only [heq]
    exact hlt

theorem endPhase_idle (h : Ready q) (hlt : q.numPhases + 1 < 2 ^ 64)
    (hidle : ∀ x ∈ adaptives q.evMap, q.numPhases < x.1) :
    ∃ q', q.endPhase C = .ok q' ∧ Ready q' ∧ q'.numPhases = q.numPhases + 1 ∧
      (adaptives q'.evMap).Perm (adaptives q.evMap) ∧ q'.fires = q.fires := by
  obtain ⟨q', hq', hd, hp, hf⟩ := @drain_idle C q _ h due_lt hidle
  obtain ⟨hr, heq⟩ := hd.ready hlt
  refine ⟨_, ?_, hr, heq, hp, hf⟩
  rw [endPhase, tick, hq']
  rfl

theorem endPhase_check (h : Ready q) (hlt : q.numPhases + 1 < 2 ^ 64) {e : AdaptiveEvent}
    (he : adaptives q.evMap = [(q.numPhases, e)]) {r : AdaptiveEvent × Bool}
    (hr : e.callback (C.get q.numPhases) = some r)
    (hfits : q.numPhases + r.1.period < 2 ^ 64) :
    ∃ q', q.endPhase C = .ok q' ∧ Ready q' ∧ q'.numPhases = q.numPhases + 1 ∧
      adaptives q'.evMap =
        (if r.1.period = 0 then [] else [(q.numPhases + r.1.period, r.1)]) ∧
      q'.fires = if r.2 then q.fires ++ [q.numPhases] else q.fires := by
  obtain ⟨q', hq', hd, ha, hf⟩ := drain_check h due_lt he hr hfits
  obtain ⟨hready, heq⟩ := hd.ready hlt
  refine ⟨_, ?_, hready, heq, ha, hf⟩
  rw [endPhase, tick, hq']
  rfl

/-- What the queue has to keep at the end of a phase, apart from its events. -/
theorem Tracked.next (h : Tracked W q j) (hr : Ready q')
    (heq : q'.numPhases = q.numPhases + 1)
    (hwaits : (∃ period, adaptives q'.evMap =
        [(W.checkPhase j, ⟨period, W.target, W.maxRate⟩)] ∧
        q'.numPhases ≤ W.checkPhase j ∧ q'.fires = []) ∨
      adaptives q'.evMap = [] ∧ W.checkPhase j < q'.numPhases ∧
        W.target ≤ C.get (W.checkPhase j) ∧ q'.fires = [W.checkPhase j]) :
    Tracked W q' j := by
  refine ⟨hr, ?_, h.checkPhase_lt, fun i hi => ?_, hwaits⟩
  · have := h.phase_le
    omega
  · have := h.before i hi
    exact ⟨by omega, this.2⟩

/-- In the phase of its check the event fires, goes on to the next one, or fails. -/
theorem Tracked.check (h : Tracked W q j) (hlt : q.numPhases + 1 < 2 ^ 64) {period : Nat}
    (ha : adaptives q.evMap = [(W.checkPhase j, ⟨period, W.target, W.maxRate⟩)])
    (hnow : q.numPhases = W.checkPhase j) (hf : q.fires = []) :
    (∃ q' j', q.endPhase C = .ok q' ∧ Tracked W q' j' ∧ q'.numPhases = q.numPhases + 1) ∨
      (∃ f, q.endPhase C = .error f) ∧ CheckFails W j := by
  rw [← hnow] at ha
  rcases Nat.lt_or_ge (C.get q.numPhases) W.target with hcur | hcur
  · let next := checkPeriod (W.target - C.get q.numPhases) W.maxRate
    have hcall := @callback_of_before C W period _ hcur
    have hnext : W.checkPhase (j + 1) = q.numPhases + next := by
      rw [Registration.checkPhase, ← hnow]
    have hpos : 0 < next := checkPeriod_pos ..
    rcases Nat.lt_or_ge (q.numPhases + next) (2 ^ 64) with hfits | hwraps
    · obtain ⟨q', hq', hr, heq, ha', hf'⟩ := endPhase_check h.ready hlt ha hcall hfits
      refine .inl ⟨q', j + 1, hq', ⟨hr, ?_, ?_, ?_, .inl ⟨next, ?_, ?_, ?_⟩⟩, heq⟩
      · have := h.phase_le
        omega
      · rw [hnext]
        exact hfits
      · intro i hi
        rcases Nat.lt_or_eq_of_le (Nat.le_of_lt_succ hi) with hi | rfl
        · have := h.before i hi
          exact ⟨by omega, this.2⟩
        · rw [← hnow]
          exact ⟨by omega, hcur⟩
      · rw [hnext]
        exact ha'.trans (if_neg (Nat.ne_of_gt hpos))
      · omega
      · exact hf'.trans hf
    · refine .inr ⟨⟨.missedPhase, ?_⟩, .inr ⟨by rwa [← hnow], by rwa [hnext]⟩⟩
      have hperiod : next < 2 ^ 64 :=
        checkPeriod_lt ((Nat.sub_le _ _).trans_lt W.target_lt)
      rw [EventQueue.endPhase, tick, drain_wraps h.ready due_lt ha hcall hperiod hwraps]
      rfl
  · rcases Nat.lt_or_ge (W.target + W.maxRate) (C.get q.numPhases) with hover | hfire
    · refine .inr ⟨⟨.assertion, ?_⟩, .inl (by rwa [← hnow])⟩
      rw [EventQueue.endPhase, tick,
        drain_fails h.ready due_lt ha (callback_of_overshoot hover)]
      rfl
    · have hcall := @callback_of_reached C W period _ hcur hfire
      obtain ⟨q', hq', hr, heq, ha', hf'⟩ := endPhase_check h.ready hlt ha hcall h.ready.lt
      refine .inl ⟨q', j, hq', h.next hr heq (.inr ⟨ha', ?_, ?_, ?_⟩), heq⟩
      · omega
      · rwa [← hnow]
      · rw [← hnow, hf', hf]
        rfl

theorem Tracked.endPhase (h : Tracked W q j) (hlt : q.numPhases + 1 < 2 ^ 64) :
    (∃ q' j', q.endPhase C = .ok q' ∧ Tracked W q' j' ∧ q'.numPhases = q.numPhases + 1) ∨
      (∃ f, q.endPhase C = .error f) ∧ W.checkPhase j = q.numPhases ∧ CheckFails W j := by
  rcases h.waits with ⟨period, ha, hle, hf⟩ | ⟨ha, hfired, hreached, hf⟩
  · rcases Nat.lt_or_eq_of_le hle with hbefore | hnow
    · obtain ⟨q', hq', hr, heq, hp, hf'⟩ :=
        endPhase_idle h.ready hlt (by simp [ha, hbefore])
      refine .inl ⟨q', j, hq', h.next hr heq (.inl ⟨period, ?_, ?_, ?_⟩), heq⟩
      · rw [ha] at hp
        exact List.perm_singleton.mp hp
      · omega
      · rw [hf', hf]
    · rcases h.check hlt ha hnow hf with hok | ⟨herror, hfails⟩
      · exact .inl hok
      · exact .inr ⟨herror, hnow.symm, hfails⟩
  · obtain ⟨q', hq', hr, heq, hp, hf'⟩ := endPhase_idle h.ready hlt (by simp [ha])
    refine .inl ⟨q', j, hq', h.next hr heq (.inr ⟨?_, ?_, hreached, ?_⟩), heq⟩
    · rw [ha] at hp
      exact List.perm_nil.mp hp
    · omega
    · rw [hf', hf]

theorem insert_spec (h : Ready q) {ev : Event} {startDelay : Int}
    (hphase : q.numPhases ≤ q.eventPhase ev startDelay) :
    ∃ q', q.insert ev startDelay = .ok q' ∧ Ready q' ∧ q'.numPhases = q.numPhases ∧
      (adaptives q'.evMap).Perm
        (adaptives ((q.eventPhase ev startDelay, ev) :: q.evMap)) ∧ q'.fires = q.fires := by
  refine ⟨_, if_pos hphase, ⟨Multimap.sorted_insert h.sorted, fun x hx => ?_, h.lt⟩, rfl,
    adaptives_insert, rfl⟩
  rcases Multimap.mem_insert.mp hx with rfl | hx
  · exact hphase
  · exact h.le x hx

theorem eventPhase_of_legal {id period : Nat} {startDelay : Int}
    (hlegal : startDelay = -1 ∧ q.numPhases + period < 2 ^ 64 ∨
      0 ≤ startDelay ∧ q.numPhases + startDelay < 2 ^ 64) :
    q.numPhases ≤ q.eventPhase (.other id period) startDelay := by
  rw [eventPhase]
  rcases hlegal with ⟨rfl, hlt⟩ | ⟨hnonneg, hlt⟩
  · rw [if_pos rfl]
    change _ ≤ (q.numPhases + period) % 2 ^ 64
    rw [Nat.mod_eq_of_lt hlt]
    exact Nat.le_add_right ..
  · rw [if_neg (by omega), Int.emod_eq_of_lt (by omega) (by omega)]
    omega

def phases : List Op → Nat
  | [] => 0
  | .insert _ _ _ :: ops => phases ops
  | .endPhase :: ops => phases ops + 1

theorem run_others {ops : List Op} (h : Ready q) (hops : Legal ops q.numPhases)
    (ha : adaptives q.evMap = []) :
    ∃ q', run C ops q = .ok q' ∧ Ready q' ∧ q'.numPhases = q.numPhases + phases ops ∧
      adaptives q'.evMap = [] ∧ q'.fires = q.fires := by
  induction ops generalizing q with
  | nil => exact ⟨q, rfl, h, rfl, ha, rfl⟩
  | cons op ops ih =>
    have hstep : ∃ q₁, q.step C op = .ok q₁ ∧ Ready q₁ ∧ Legal ops q₁.numPhases ∧
        q₁.numPhases + phases ops = q.numPhases + phases (op :: ops) ∧
        adaptives q₁.evMap = [] ∧ q₁.fires = q.fires := by
      cases op with
      | insert id period startDelay =>
        obtain ⟨q₁, hq₁, h₁, hn, hp, hf⟩ := insert_spec h (eventPhase_of_legal hops.1)
        rw [adaptives_other, ha] at hp
        exact ⟨q₁, hq₁, h₁, hn ▸ hops.2, by rw [hn, phases], List.perm_nil.mp hp, hf⟩
      | endPhase =>
        obtain ⟨q₁, hq₁, h₁, hn, hp, hf⟩ := @endPhase_idle C q h hops.1 (by simp [ha])
        rw [ha] at hp
        exact ⟨q₁, hq₁, h₁, hn ▸ hops.2, by rw [hn, phases]; omega, List.perm_nil.mp hp, hf⟩
    obtain ⟨q₁, hq₁, h₁, hops₁, hn₁, ha₁, hf₁⟩ := hstep
    obtain ⟨q', hq', h', hn', ha', hf'⟩ := ih h₁ hops₁ ha₁
    refine ⟨q', ?_, h', hn'.trans hn₁, ha', hf'.trans hf₁⟩
    rw [run, hq₁]
    exact hq'

theorem Tracked.insert (h : Tracked W q j) {id period : Nat} {startDelay : Int}
    (hlegal : startDelay = -1 ∧ q.numPhases + period < 2 ^ 64 ∨
      0 ≤ startDelay ∧ q.numPhases + startDelay < 2 ^ 64) :
    ∃ q', q.insert (.other id period) startDelay = .ok q' ∧ Tracked W q' j ∧
      q'.numPhases = q.numPhases := by
  obtain ⟨q', hq', hr, hn, hp, hf⟩ := insert_spec h.ready (@eventPhase_of_legal q id _ _ hlegal)
  rw [adaptives_other] at hp
  refine ⟨q', hq', ⟨hr, hn ▸ h.phase_le, h.checkPhase_lt, fun i hi => hn ▸ h.before i hi, ?_⟩, hn⟩
  rw [hn, hf]
  rcases h.waits with ⟨period', ha, hw⟩ | ⟨ha, hw⟩
  · rw [ha] at hp
    exact .inl ⟨period', List.perm_singleton.mp hp, hw⟩
  · rw [ha] at hp
    exact .inr ⟨List.perm_nil.mp hp, hw⟩

/-- A run after the registration goes on to its end, or to a check that fails. -/
theorem Tracked.run {ops : List Op} (h : Tracked W q j) (hops : Legal ops q.numPhases) :
    (∃ q' j', run C ops q = .ok q' ∧ Tracked W q' j' ∧
        q'.numPhases = q.numPhases + phases ops) ∨
      (∃ f, EventQueue.run C ops q = .error f) ∧
        ∃ j', W.checkPhase j' < q.numPhases + phases ops ∧ CheckFails W j' ∧
          ∀ i < j', C.get (W.checkPhase i) < W.target := by
  induction ops generalizing q j with
  | nil => exact .inl ⟨q, j, rfl, h, rfl⟩
  | cons op ops ih =>
    have goOn {q₁ : EventQueue} {j₁ : Nat} (hq₁ : q.step C op = .ok q₁) (h₁ : Tracked W q₁ j₁)
        (hops₁ : Legal ops q₁.numPhases)
        (hn : q₁.numPhases + phases ops = q.numPhases + phases (op :: ops)) :
        (∃ q' j', EventQueue.run C (op :: ops) q = .ok q' ∧ Tracked W q' j' ∧
            q'.numPhases = q.numPhases + phases (op :: ops)) ∨
          (∃ f, EventQueue.run C (op :: ops) q = .error f) ∧
            ∃ j', W.checkPhase j' < q.numPhases + phases (op :: ops) ∧ CheckFails W j' ∧
              ∀ i < j', C.get (W.checkPhase i) < W.target := by
      rw [← hn, EventQueue.run, hq₁]
      exact ih h₁ hops₁
    cases op with
    | insert id period startDelay =>
      obtain ⟨q₁, hq₁, h₁, hn⟩ := @Tracked.insert C q W j h id _ _ hops.1
      exact goOn hq₁ h₁ (hn ▸ hops.2) (by rw [hn, phases])
    | endPhase =>
      rcases h.endPhase hops.1 with ⟨q₁, j₁, hq₁, h₁, hn⟩ | ⟨⟨f, hf⟩, hj, hfails⟩
      · exact goOn hq₁ h₁ (hn ▸ hops.2) (by rw [hn, phases]; omega)
      · refine .inr ⟨⟨f, ?_⟩, j, ?_, hfails, fun i hi => (h.before i hi).2⟩
        · rw [EventQueue.run, EventQueue.step, hf]
          rfl
        · rw [hj, phases]
          omega

/-- The adaptive event is made and inserted. -/
def register (W : Registration C) (q : EventQueue) : Except Fault EventQueue :=
  match makeAdaptiveEvent W.start W.target W.maxRate with
  | none => .error .assertion
  | some e => q.insert (.adaptive e) (-1)

theorem register_eq : register W q =
    q.insert (.adaptive ⟨W.firstPeriod, W.target, W.maxRate⟩) (-1) := by
  rw [register, makeAdaptiveEvent, if_pos W.start_le]
  rfl

theorem register_fits (h : Ready q) (ha : adaptives q.evMap = []) (hf : q.fires = [])
    (hphase : W.phase = q.numPhases) (hfits : W.checkPhase 0 < 2 ^ 64) :
    ∃ q', register W q = .ok q' ∧ Tracked W q' 0 ∧ q'.numPhases = q.numPhases := by
  let e : AdaptiveEvent := ⟨W.firstPeriod, W.target, W.maxRate⟩
  have hcheck : W.checkPhase 0 = q.numPhases + W.firstPeriod := by
    rw [Registration.checkPhase, hphase]
  have hkey : q.eventPhase (.adaptive e) (-1) = W.checkPhase 0 := by
    rw [hcheck] at hfits ⊢
    rw [eventPhase, if_pos rfl]
    exact Nat.mod_eq_of_lt hfits
  have hle : q.numPhases ≤ q.eventPhase (.adaptive e) (-1) := by
    rw [hkey, hcheck]
    exact Nat.le_add_right ..
  obtain ⟨q', hq', hr, hn, hp, hf'⟩ := insert_spec h hle
  rw [hkey, adaptives_adaptive, ha] at hp
  refine ⟨q', ?_, ⟨hr, ?_, hfits, ?_, .inl ⟨W.firstPeriod, List.perm_singleton.mp hp, ?_, ?_⟩⟩, hn⟩
  · rw [register_eq]
    exact hq'
  · rw [hn, hphase]
  · intro i hi
    cases hi
  · rw [hn, hcheck]
    exact Nat.le_add_right ..
  · rw [hf', hf]

theorem register_wraps (h : Ready q) (hphase : W.phase = q.numPhases)
    (hwraps : 2 ^ 64 ≤ W.checkPhase 0) : register W q = .error .assertion := by
  have hlt := h.lt
  have hperiod : W.firstPeriod < 2 ^ 64 :=
    checkPeriod_lt ((Nat.sub_le _ _).trans_lt W.target_lt)
  rw [Registration.checkPhase, hphase] at hwraps
  rw [register_eq]
  refine if_neg ?_
  rw [eventPhase, if_pos rfl]
  change ¬ q.numPhases ≤ (q.numPhases + W.firstPeriod) % 2 ^ 64
  omega

variable (W)

/-- The registration, with other events before and after it. -/
def registered (before after : List Op) : Except Fault EventQueue :=
  ((run C before init).bind (register W)).bind (run C after)

/-- The run goes through, and `fire` is called once, at the first tick at which the counter has
reached the target, or not at all. -/
def FiresOnTime (before after : List Op) : Prop :=
  ∃ q', registered W before after = .ok q' ∧ q'.fires =
    ((List.range' W.phase (phases after)).find? fun p => decide (W.target ≤ C.get p)).toList

/-- Over `n` phases no check is for a phase beyond 64 bits. -/
def ChecksFit (n : Nat) : Prop :=
  W.checkPhase 0 < 2 ^ 64 ∧ ∀ j, W.checkPhase j < W.phase + n →
    C.get (W.checkPhase j) < W.target → W.checkPhase (j + 1) < 2 ^ 64

variable {W}

theorem ready_init : Ready init := by
  constructor
  · exact List.Pairwise.nil
  · intro x hx
    cases hx
  · decide

theorem Tracked.checksFit {n : Nat} (h : Tracked W q j) (hn : q.numPhases = W.phase + n) :
    ChecksFit W n := by
  refine ⟨(W.checkPhase_mono (Nat.zero_le j)).trans_lt h.checkPhase_lt, fun i hi hget => ?_⟩
  rcases Nat.lt_or_ge i j with hij | hij
  · exact (W.checkPhase_mono hij).trans_lt h.checkPhase_lt
  · have hle := W.checkPhase_mono hij
    rcases h.waits with ⟨-, -, hw, -⟩ | ⟨-, -, hreached, -⟩
    · omega
    · have := W.get_le_get W.phase_lt_checkPhase.le hle
      omega

theorem get_before {n : Nat} (hfirst : W.firstPeriod ≤ n →
      C.get (W.phase + W.firstPeriod - 1) < W.target)
    (hn : W.checkPhase 0 ≤ W.phase + n) (hbefore : ∀ i < j, C.get (W.checkPhase i) < W.target) :
    C.get (W.checkPhase j - 1) < W.target := by
  cases j with
  | zero =>
    rw [Registration.checkPhase] at hn
    exact hfirst (by omega)
  | succ j => exact W.get_before_check (hbefore j (Nat.lt_succ_self j))

theorem not_checkFails {n : Nat} (hfirst : W.firstPeriod ≤ n →
      C.get (W.phase + W.firstPeriod - 1) < W.target)
    (hfit : ChecksFit W n) (hn : W.checkPhase j < W.phase + n)
    (hbefore : ∀ i < j, C.get (W.checkPhase i) < W.target) : ¬ CheckFails W j := by
  rintro (hover | ⟨hget, hwraps⟩)
  · have hlt := get_before hfirst ((W.checkPhase_mono (Nat.zero_le j)).trans hn.le) hbefore
    have hphase := @Registration.phase_lt_checkPhase C j W
    have hgrow := (W.grows (W.checkPhase j - 1) (by omega)).2
    rw [Nat.sub_add_cancel (by omega)] at hgrow
    omega
  · have := hfit.2 j hn hget
    omega

/-- Where no tick before the first check reaches the target, the event fires on time. -/
theorem Tracked.fires {n : Nat} (h : Tracked W q j) (hn : q.numPhases = W.phase + n)
    (hfirst : W.firstPeriod ≤ n → C.get (W.phase + W.firstPeriod - 1) < W.target) :
    q.fires = ((List.range' W.phase n).find? fun p => decide (W.target ≤ C.get p)).toList := by
  have hbefore : ∀ i < j, C.get (W.checkPhase i) < W.target := fun i hi => (h.before i hi).2
  have hearlier (p : Nat) (hp : W.phase ≤ p) (hlt : p < W.checkPhase j) (hpn : p < W.phase + n) :
      C.get p < W.target := by
    rcases Nat.lt_or_ge (p + 1) (W.checkPhase 0) with hp0 | hp0
    · exact W.get_before_first hp hp0
    · exact (W.get_le_get hp (by omega)).trans_lt (get_before hfirst (by omega) hbefore)
  rcases h.waits with ⟨-, -, hle, hf⟩ | ⟨-, hlt, hreached, hf⟩
  · have hnone : ((List.range' W.phase n).find? fun p => decide (W.target ≤ C.get p)) = none := by
      rw [List.find?_range'_eq_none]
      intro p hp hpn
      have := hearlier p hp (by omega) hpn
      simpa using this
    rw [hf, hnone]
    rfl
  · have hsome : ((List.range' W.phase n).find? fun p => decide (W.target ≤ C.get p)) =
        some (W.checkPhase j) := by
      rw [List.find?_range'_eq_some]
      refine ⟨by simpa using hreached, ?_, fun p hp hpj => ?_⟩
      · have := @Registration.phase_lt_checkPhase C j W
        rw [List.mem_range'_1]
        omega
      · have := hearlier p hp hpj (by omega)
        simpa using this
    rw [hf, hsome]
    rfl

theorem run_before {before : List Op} (hbefore : Legal before 0)
    (hphase : W.phase = phases before) :
    ∃ q, run C before init = .ok q ∧ Ready q ∧ W.phase = q.numPhases ∧
      adaptives q.evMap = [] ∧ q.fires = [] := by
  obtain ⟨q, hq, hr, hn, ha, hf⟩ := @run_others C init before ready_init hbefore rfl
  refine ⟨q, hq, hr, ?_, ha, hf⟩
  rw [hphase, hn]
  exact (Nat.zero_add _).symm

/-- An adaptive event fires once and on time if and only if the tick before its first check is
before the target, and its checks are for phases of 64 bits. -/
theorem fires_on_time_iff (W : Registration C) {before after : List Op}
    (hbefore : Legal before 0) (hphase : W.phase = phases before)
    (hafter : Legal after W.phase) :
    FiresOnTime W before after ↔
      (W.firstPeriod ≤ phases after → C.get (W.phase + W.firstPeriod - 1) < W.target) ∧
        ChecksFit W (phases after) := by
  obtain ⟨q, hq, hr, hnum, ha, hf⟩ := run_before hbefore hphase
  have hregistered : registered W before after = (register W q).bind (run C after) := by
    rw [registered, hq]
    rfl
  constructor
  · rintro ⟨q', hrun, hfires⟩
    rw [hregistered] at hrun
    rcases Nat.lt_or_ge (W.checkPhase 0) (2 ^ 64) with hfits | hwraps
    · obtain ⟨q₁, hq₁, h₁, hn₁⟩ := register_fits hr ha hf hnum hfits
      rw [hq₁] at hrun
      rcases h₁.run (by rwa [hn₁, ← hnum]) with ⟨q₂, j, hq₂, h₂, hn₂⟩ | ⟨⟨f, hfail⟩, -⟩
      · have heq : q₂ = q' := Except.ok.inj (hq₂.symm.trans hrun)
        subst heq
        have hend : q₂.numPhases = W.phase + phases after := by rw [hn₂, hn₁, hnum]
        refine ⟨fun hn => ?_, h₂.checksFit hend⟩
        by_contra hreached
        -- the tick before the first check is in the run, so that the event should have fired
        have hpos : 0 < W.firstPeriod := checkPeriod_pos ..
        have hmem : ∃ p, W.phase ≤ p ∧ p < W.phase + W.firstPeriod ∧ q₂.fires = [p] := by
          cases hfind : (List.range' W.phase (phases after)).find?
              fun p => decide (W.target ≤ C.get p) with
          | none =>
            have := List.find?_range'_eq_none.mp hfind (W.phase + W.firstPeriod - 1) (by omega)
              (by omega)
            simp at this
            omega
          | some p =>
            obtain ⟨-, hp, hfirst⟩ := List.find?_range'_eq_some.mp hfind
            refine ⟨p, (List.mem_range'_1.mp hp).1, ?_, by rw [hfires, hfind]; rfl⟩
            by_contra hlate
            have := hfirst (W.phase + W.firstPeriod - 1) (by omega) (by omega)
            simp at this
            omega
        obtain ⟨p, -, hp, hfire⟩ := hmem
        have hcheck : W.phase + W.firstPeriod ≤ W.checkPhase j := W.checkPhase_mono (Nat.zero_le j)
        rcases h₂.waits with ⟨-, -, -, hw⟩ | ⟨-, -, -, hw⟩
        · rw [hw] at hfire
          cases hfire
        · rw [hw, List.cons.injEq] at hfire
          omega
      · exact absurd (hfail.symm.trans hrun) (by simp)
    · rw [register_wraps hr hnum hwraps] at hrun
      cases hrun
  · rintro ⟨hfirst, hfit⟩
    obtain ⟨q₁, hq₁, h₁, hn₁⟩ := register_fits hr ha hf hnum hfit.1
    rw [FiresOnTime, hregistered, hq₁]
    rcases h₁.run (by rwa [hn₁, ← hnum]) with ⟨q₂, j, hq₂, h₂, hn₂⟩ | ⟨-, j, hj, hfails, hb⟩
    · exact ⟨q₂, hq₂, h₂.fires (by rw [hn₂, hn₁, hnum]) hfirst⟩
    · rw [hn₁, ← hnum] at hj
      exact absurd hfails (not_checkFails hfirst hfit hj hb)

/-- A counter of `rate` steps a phase, and other events that go every third phase. -/
def steadyCounter (rate : Nat) : Callbacks where
  get p := rate * (p + 1)
  period _ phase := if phase + 3 < 2 ^ 64 then 3 else 0
  period_fits := by
    intro _ phase hphase
    split <;> omega

/-- From 0 at the start, with `maxRate` 4. -/
def fromZero (rate target : Nat) (hrate : rate ≤ 4) (htarget : target < 2 ^ 64) :
    Registration (steadyCounter rate) where
  start := 0
  target := target
  maxRate := 4
  phase := 0
  maxRate_pos := by decide
  start_le := Nat.zero_le _
  target_lt := htarget
  first_ge := Nat.zero_le _
  first_le := by simpa [steadyCounter] using hrate
  grows := by
    intro p _
    simp only [steadyCounter, Nat.mul_succ]
    omega

def slow : Registration (steadyCounter 1) := fromZero 1 10 (by decide) (by decide)

def fast : Registration (steadyCounter 4) := fromZero 4 1 (by decide) (by decide)

theorem fires_on_time_iff_slow :
    FiresOnTime slow [.insert 0 2 (-1)] (List.replicate 12 .endPhase) ↔
      (slow.firstPeriod ≤ 12 →
        (steadyCounter 1).get (slow.phase + slow.firstPeriod - 1) < slow.target) ∧
        ChecksFit slow 12 :=
  fires_on_time_iff slow (by simp [Legal]) rfl (by simp [Legal, slow, fromZero])

example : (registered slow [.insert 0 2 (-1)] (List.replicate 12 .endPhase)).toOption.map
    fires = some [9] := rfl

/-- The target is reached by the first tick, and the first check is at the second one. -/
theorem fast_fails : ¬ FiresOnTime fast [] [.endPhase, .endPhase] := by
  have hrun : registered fast [] [.endPhase, .endPhase] = .error .assertion := rfl
  rintro ⟨q', hq', -⟩
  rw [hrun] at hq'
  cases hq'

end EventQueue

end ZSim
