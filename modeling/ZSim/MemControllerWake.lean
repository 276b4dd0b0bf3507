import ZSim.MemController

/-! When a memory access wakes its children: the delays of an event and what the paths of the
controller add to its cycle, over runs of the weave phase. -/

namespace ZSim

theorem le_add_mod_iff {a y n : Nat} (h : a < n) : a ≤ (a + y) % n ↔ a + y % n < n := by
  have hy : y % n < n := Nat.mod_lt _ (by omega)
  rw [← Nat.add_mod_mod]
  by_cases hlt : a + y % n < n
  · rw [Nat.mod_eq_of_lt hlt]
    exact iff_of_true (Nat.le_add_right _ _) hlt
  · rw [Nat.mod_eq_sub_mod (Nat.not_lt.mp hlt), Nat.mod_eq_of_lt (by omega)]
    omega

namespace MemControllerParam

variable {p : MemControllerParam}

theorem memToSysCycle_lt (memCycle : Nat) : p.memToSysCycle memCycle < 2 ^ 64 :=
  Nat.lt_of_le_of_lt (Nat.div_le_self _ _) (Nat.mod_lt _ (by decide))

theorem minLatency_lt (type : MemAccessType) : p.minLatency type < 2 ^ 32 :=
  Nat.mod_lt _ (by decide)

/-- The argument of `done` and the delay that follows are off by the delay that went
before. -/
theorem wake_eq (a credit : Nat) (type : MemAccessType) :
    ((sub64 a (p.minLatency type) + credit) % 2 ^ 64 + p.postDelay type) % 2 ^ 64 =
      (a + credit + (2 ^ 64 - p.preDelay type)) % 2 ^ 64 := by
  have hlt := p.minLatency_lt type
  simp only [sub64, postDelay, preDelay]
  omega

/-- A step is in time when the delay before it is made up for. -/
theorem le_wake_iff {cycle credit : Nat} {type : MemAccessType} (hc : cycle < 2 ^ 64)
    (h : p.preDelay type ≤ cycle) :
    cycle ≤ (cycle + credit + (2 ^ 64 - p.preDelay type)) % 2 ^ 64 ↔
      p.preDelay type ≤ credit ∧ cycle + (credit - p.preDelay type) % 2 ^ 64 < 2 ^ 64 := by
  by_cases hle : p.preDelay type ≤ credit
  · have hsum : cycle + credit + (2 ^ 64 - p.preDelay type) =
        cycle + (credit - p.preDelay type) + 2 ^ 64 := by omega
    rw [hsum, Nat.add_mod_right, le_add_mod_iff hc]
    exact (and_iff_right hle).symm
  · have hsum : cycle + credit + (2 ^ 64 - p.preDelay type) =
        cycle + credit - p.preDelay type + 2 ^ 64 := by omega
    rw [hsum, Nat.add_mod_right, Nat.mod_eq_of_lt (by omega)]
    exact iff_of_false (by omega) fun h => hle h.1

/-- Half of the least latency is made up for by any latency of the channels. -/
theorem preDelay_le (hq : p.schedulerQueueCount = 0) {type : MemAccessType} {latency : Nat}
    (h : p.memMinLatency type ≤ latency) :
    p.preDelay type ≤ latency + p.controllerLatency := by
  simp only [memMinLatency] at h
  simp only [preDelay, minLatency, if_pos hq]
  omega

end MemControllerParam

namespace MemScheduler

variable {s : MemScheduler} {ev ev' : MemAccessEvent}

theorem mem_rdQueue_checkSetEvent (h : ev' ∈ (s.checkSetEvent ev).1.rdQueue) :
    ev' ∈ s.rdQueue ∨ ev' = ev ∧ ev.type = .READ := by
  rw [checkSetEvent] at h
  cases htype : ev.type with
  | READ =>
    simp only [htype] at h
    split_ifs at h
    · exact .inl h
    · exact .inl h
    · simpa using h
  | WRITE =>
    simp only [htype, trim] at h
    split_ifs at h <;> exact .inl h

theorem takeBest_mem {α : Type} {hit : α → Bool} {queue rest : List α} {e : α}
    (h : takeBest hit queue = some (e, rest)) : e ∈ queue ∧ ∀ x ∈ rest, x ∈ queue := by
  have hperm := takeBest_perm h
  simp only [hperm.mem_iff]
  exact ⟨List.mem_cons_self, fun x => List.mem_cons_of_mem e⟩

theorem getEvent_reads {hit : Nat → Bool} :
    (∀ x ∈ (s.getEvent hit).1.rdQueue, x ∈ s.rdQueue) ∧
      ∀ x, (s.getEvent hit).2 = some (.read x) → x ∈ s.rdQueue := by
  simp only [getEvent]
  split
  · next ev rest hrd =>
    split_ifs at hrd
    obtain ⟨hmem, hrest⟩ := takeBest_mem hrd
    refine ⟨hrest, fun x hx => ?_⟩
    cases hx
    exact hmem
  · split
    · exact ⟨fun x => id, fun x hx => by cases hx⟩
    · exact ⟨fun x => id, fun x hx => by cases hx⟩

end MemScheduler

namespace MemController

variable {p : MemControllerParam} {c c' : MemController} {cur : Nat}

variable (p c) in
/-- The latency that `LatencySimulate` returns. -/
def latency (lineAddr sysCycle : Nat) (type : MemAccessType) : Option Nat :=
  (c.latencySimulate p lineAddr sysCycle type).map Prod.snd

/-- The controllers of the weave phase, with the cycle of the last step. Steps come in the
order of their cycles, and an event starts after its `preDelay`. -/
inductive Reachable (p : MemControllerParam) : MemController → Nat → Prop
  | init : Reachable p (init p) 0
  | enqueue {c c' : MemController} {cur cycle : Nat} {ev : MemAccessEvent} {d : Option DoneEvent}
      (h : Reachable p c cur) (hcur : cur ≤ cycle) (hc : cycle < 2 ^ 64)
      (hpre : p.preDelay ev.type ≤ cycle) (hstep : c.enqueue p ev cycle = some (c', d)) :
      Reachable p c' cycle
  | turn {c c' : MemController} {cur sysCycle i : Nat} {d : Option DoneEvent}
      (h : Reachable p c cur) (hcur : cur ≤ sysCycle) (hc : sysCycle < 2 ^ 64)
      (hstep : c.tickChannel p i sysCycle = some (c', d)) : Reachable p c' sysCycle

/-- The events that wait are reads, and their `preDelay` is over. -/
def Waiting (p : MemControllerParam) (c : MemController) (cur : Nat) : Prop :=
  ∀ i, ∀ ev ∈ (c.sches i).rdQueue, ev.type = .READ ∧ p.preDelay .READ ≤ cur

theorem Waiting.mono {cycle : Nat} (h : Waiting p c cur) (hle : cur ≤ cycle) :
    Waiting p c cycle :=
  fun i ev hev => ⟨(h i ev hev).1, Nat.le_trans (h i ev hev).2 hle⟩

theorem Waiting.setScheduler (h : Waiting p c cur) {i : Nat} {sch : MemScheduler}
    (hsch : ∀ ev ∈ sch.rdQueue, ev.type = .READ ∧ p.preDelay .READ ≤ cur) :
    Waiting p (c.setScheduler i sch) cur := by
  intro j ev hev
  by_cases hj : j = i
  · subst hj
    exact hsch ev (by simpa [MemController.setScheduler] using hev)
  · exact h j ev (by simpa [MemController.setScheduler, hj] using hev)

theorem latencySimulate_eq_some {lineAddr sysCycle latency : Nat} {type : MemAccessType}
    (h : c.latencySimulate p lineAddr sysCycle type = some (c', latency)) :
    c'.sches = c.sches ∧ p.memMinLatency type ≤ latency ∧ latency < 2 ^ 64 ∧
      latency ∈ c.latency p lineAddr sysCycle type := by
  have hmem : latency ∈ c.latency p lineAddr sysCycle type := by
    rw [Option.mem_def, MemController.latency, h]
    rfl
  simp only [latencySimulate, Option.bind_eq_bind, Option.bind_eq_some_iff] at h
  obtain ⟨channel, -, loc, -, ⟨chnl, issue⟩, -, u, hmin, h⟩ := h
  simp only [Option.some.injEq, Prod.mk.injEq] at h
  obtain ⟨rfl, rfl⟩ := h
  exact ⟨rfl, (by simpa using hmin), p.memToSysCycle_lt _, hmem⟩

/-- The channels do not look at the schedulers. -/
theorem latency_setScheduler {i lineAddr sysCycle : Nat} {sch : MemScheduler}
    {type : MemAccessType} :
    latency p (c.setScheduler i sch) lineAddr sysCycle type =
      latency p c lineAddr sysCycle type := by
  simp only [latency, latencySimulate, Option.bind_eq_bind, Option.map_bind, Function.comp_def]
  rfl

theorem Waiting.of_sches (h : Waiting p c cur) (hsches : c'.sches = c.sches) :
    Waiting p c' cur := by
  intro i ev hev
  rw [hsches] at hev
  exact h i ev hev

theorem Waiting.checkSetEvent (h : Waiting p c cur) {ev : MemAccessEvent}
    (hpre : p.preDelay ev.type ≤ cur) (i : Nat) :
    Waiting p (c.setScheduler i ((c.sches i).checkSetEvent ev).1) cur := by
  refine h.setScheduler fun ev' hev' => ?_
  rcases MemScheduler.mem_rdQueue_checkSetEvent hev' with hold | ⟨rfl, htype⟩
  · exact h i ev' hold
  · exact ⟨htype, htype ▸ hpre⟩

theorem Waiting.enqueue (h : Waiting p c cur) {ev : MemAccessEvent} {d : Option DoneEvent}
    (hpre : p.preDelay ev.type ≤ cur) (hstep : c.enqueue p ev cur = some (c', d)) :
    Waiting p c' cur := by
  simp only [MemController.enqueue, Option.bind_eq_bind] at hstep
  split at hstep
  · obtain ⟨⟨c₁, latency⟩, hsim, hstep⟩ := Option.bind_eq_some_iff.mp hstep
    cases hstep
    exact h.of_sches (latencySimulate_eq_some hsim).1
  · obtain ⟨channel, -, hstep⟩ := Option.bind_eq_some_iff.mp hstep
    have hset := h.checkSetEvent hpre channel
    split at hstep <;> cases hstep <;> exact hset

theorem Waiting.getEvent (h : Waiting p c cur) (i : Nat) (hit : Nat → Bool) :
    Waiting p (c.setScheduler i ((c.sches i).getEvent hit).1) cur :=
  h.setScheduler fun ev hev => h i ev (MemScheduler.getEvent_reads.1 ev hev)

theorem Waiting.tickChannel (h : Waiting p c cur) {i : Nat} {d : Option DoneEvent}
    (hstep : c.tickChannel p i cur = some (c', d)) : Waiting p c' cur := by
  have hget := h.getEvent i (c.isRowBufferHit p i)
  simp only [MemController.tickChannel] at hstep
  split at hstep
  · cases hstep
    exact hget
  · obtain ⟨⟨c₁, latency⟩, hsim, hstep⟩ := Option.map_eq_some_iff.mp hstep
    cases hstep
    exact hget.of_sches (latencySimulate_eq_some hsim).1
  · obtain ⟨⟨c₁, latency⟩, hsim, hstep⟩ := Option.map_eq_some_iff.mp hstep
    cases hstep
    exact hget.of_sches (latencySimulate_eq_some hsim).1

theorem Reachable.waiting (h : Reachable p c cur) : Waiting p c cur := by
  induction h with
  | init =>
    intro i ev hev
    cases hev
  | enqueue _ hcur _ hpre hstep ih => exact (ih.mono hcur).enqueue hpre hstep
  | turn _ hcur _ hstep ih => exact (ih.mono hcur).tickChannel hstep

variable (p c) in
/-- The cycle at which a channel starts on an access that does not wait. -/
def startCycle (type : MemAccessType) (cycle : Nat) : Nat :=
  (sub64 cycle (p.preDelay type) + p.controllerLatency) % 2 ^ 64

variable (p c) in
/-- Without a scheduler an access takes the latency of its channel, and only the cycle count
can wrap. With one a hit, and any write, takes `controllerLatency`, which has to make up for half of a
memory cycle and of itself. -/
def EnqueueInTime (ev : MemAccessEvent) (cycle : Nat) : Prop :=
  if p.schedulerQueueCount = 0 then
    ∀ latency ∈ c.latency p ev.addr (startCycle p ev.type cycle) ev.type,
      cycle + (latency + p.controllerLatency - p.preDelay ev.type) % 2 ^ 64 < 2 ^ 64
  else
    p.preDelay ev.type ≤ p.controllerLatency ∧
      cycle + (p.controllerLatency - p.preDelay ev.type) < 2 ^ 64

variable (p c) in
/-- A read that waited takes the latency of its channel, without `controllerLatency`. -/
def TurnInTime (i sysCycle : Nat) : Prop :=
  ∀ ev, ((c.sches i).getEvent (c.isRowBufferHit p i)).2 = some (.read ev) →
    ∀ latency ∈ c.latency p ev.addr sysCycle .READ,
      p.preDelay .READ ≤ latency ∧ sysCycle + (latency - p.preDelay .READ) < 2 ^ 64

/-- The end of `enqueue` in the presence of a scheduler. -/
theorem hit_wake_iff {ev : MemAccessEvent} {cycle : Nat} (hq : p.schedulerQueueCount ≠ 0)
    (hc : cycle < 2 ^ 64) (hpre : p.preDelay ev.type ≤ cycle) :
    cycle ≤ p.wakeCycle
        ⟨ev, (sub64 cycle (p.minLatency ev.type) + p.controllerLatency) % 2 ^ 64⟩ ↔
      EnqueueInTime p c ev cycle := by
  have hlt := p.controllerLatency_lt
  have hmod : (p.controllerLatency - p.preDelay ev.type) % 2 ^ 64 =
      p.controllerLatency - p.preDelay ev.type := Nat.mod_eq_of_lt (by omega)
  rw [MemControllerParam.wakeCycle, MemControllerParam.wake_eq,
    MemControllerParam.le_wake_iff hc hpre, EnqueueInTime, if_neg hq, hmod]

theorem enqueue_wake_iff {ev : MemAccessEvent} {cycle : Nat} {d : DoneEvent} (hc : cycle < 2 ^ 64)
    (hpre : p.preDelay ev.type ≤ cycle) (hstep : c.enqueue p ev cycle = some (c', some d)) :
    cycle ≤ p.wakeCycle d ↔ EnqueueInTime p c ev cycle := by
  simp only [enqueue, Option.bind_eq_bind] at hstep
  split at hstep
  · next hq =>
    obtain ⟨⟨c₁, latency⟩, hsim, hstep⟩ := Option.bind_eq_some_iff.mp hstep
    obtain ⟨-, hmin, -, hmem⟩ := latencySimulate_eq_some hsim
    cases hstep
    have hsum : ((cycle + latency) % 2 ^ 64 + p.controllerLatency +
        (2 ^ 64 - p.preDelay ev.type)) % 2 ^ 64 =
          (cycle + (latency + p.controllerLatency) + (2 ^ 64 - p.preDelay ev.type)) % 2 ^ 64 := by
      omega
    have hle := MemControllerParam.preDelay_le hq hmin
    rw [MemControllerParam.wakeCycle, MemControllerParam.wake_eq, hsum,
      MemControllerParam.le_wake_iff hc hpre, EnqueueInTime, if_pos hq, and_iff_right hle]
    refine ⟨fun h latency' hmem' => ?_, fun h => h latency hmem⟩
    cases Option.mem_unique hmem hmem'
    exact h
  · next hq =>
    obtain ⟨channel, -, hstep⟩ := Option.bind_eq_some_iff.mp hstep
    have hd : d = ⟨ev, (sub64 cycle (p.minLatency ev.type) + p.controllerLatency) % 2 ^ 64⟩ := by
      split at hstep
      · split_ifs at hstep <;> cases hstep
        rfl
      · cases hstep
        rfl
    rw [hd]
    exact hit_wake_iff hq hc hpre

theorem turn_wake_iff {i sysCycle : Nat} {d : DoneEvent} (hwait : Waiting p c sysCycle)
    (hc : sysCycle < 2 ^ 64) (hstep : c.tickChannel p i sysCycle = some (c', some d)) :
    sysCycle ≤ p.wakeCycle d ↔ TurnInTime p c i sysCycle := by
  simp only [tickChannel] at hstep
  split at hstep
  · cases hstep
  · obtain ⟨⟨c₁, latency⟩, hsim, hstep⟩ := Option.map_eq_some_iff.mp hstep
    cases hstep
  · next ev hissue =>
    obtain ⟨⟨c₁, latency⟩, hsim, hstep⟩ := Option.map_eq_some_iff.mp hstep
    obtain ⟨-, -, hlt, hmem⟩ := latencySimulate_eq_some hsim
    rw [latency_setScheduler] at hmem
    cases hstep
    obtain ⟨htype, hpre⟩ := hwait i ev (MemScheduler.getEvent_reads.2 ev hissue)
    have hmod : (latency - p.preDelay .READ) % 2 ^ 64 = latency - p.preDelay .READ :=
      Nat.mod_eq_of_lt (by omega)
    rw [MemControllerParam.wakeCycle, htype, MemControllerParam.wake_eq,
      MemControllerParam.le_wake_iff hc hpre, hmod]
    refine ⟨fun h ev' hissue' latency' hmem' => ?_, fun h => h ev hissue latency hmem⟩
    rw [hissue] at hissue'
    cases hissue'
    cases Option.mem_unique hmem hmem'
    exact h

/-- The loop of `TickScheduler` takes the turns of the channels. -/
theorem Reachable.tickFrom {sysCycle : Nat} (hc : sysCycle < 2 ^ 64) (n i : Nat)
    {ds : List DoneEvent} (h : Reachable p c cur) (hcur : cur ≤ sysCycle)
    (hstep : c.tickFrom p sysCycle n i = some (c', ds)) :
    ∀ d ∈ ds, ∃ cur' j c₁ c₂, Reachable p c₁ cur' ∧ cur' ≤ sysCycle ∧
      c₁.tickChannel p j sysCycle = some (c₂, some d) := by
  induction n generalizing c cur i ds with
  | zero =>
    cases hstep
    intro d hd
    cases hd
  | succ n ih =>
    simp only [MemController.tickFrom, Option.bind_eq_bind] at hstep
    obtain ⟨⟨c₁, d₁⟩, hturn, hstep⟩ := Option.bind_eq_some_iff.mp hstep
    obtain ⟨⟨c₂, ds₂⟩, hrest, hstep⟩ := Option.bind_eq_some_iff.mp hstep
    cases hstep
    intro d hd
    rcases List.mem_append.mp hd with hd | hd
    · have hd₁ : d₁ = some d := by simpa using hd
      exact ⟨cur, i, c, c₁, h, hcur, hd₁ ▸ hturn⟩
    · exact ih (i + 1) (h.turn hcur hc hturn) (Nat.le_refl _) hrest d hd

/-- At every step of the weave phase, the cycle at which an access that is done wakes its
children is not before the step if and only if the path it took is in time. -/
theorem wake_in_time_iff (h : Reachable p c cur) {cycle : Nat} (hcur : cur ≤ cycle)
    (hc : cycle < 2 ^ 64) :
    (∀ ev c' d, p.preDelay ev.type ≤ cycle → c.enqueue p ev cycle = some (c', some d) →
      (cycle ≤ p.wakeCycle d ↔ EnqueueInTime p c ev cycle)) ∧
    (∀ i c' d, c.tickChannel p i cycle = some (c', some d) →
      (cycle ≤ p.wakeCycle d ↔ TurnInTime p c i cycle)) ∧
    ∀ c' ds, c.tick p cycle = some (c', ds) → ∀ d ∈ ds, ∃ cur' i c₁ c₂, Reachable p c₁ cur' ∧
      cur' ≤ cycle ∧ c₁.tickChannel p i cycle = some (c₂, some d) ∧
      (cycle ≤ p.wakeCycle d ↔ TurnInTime p c₁ i cycle) := by
  refine ⟨fun ev c' d hpre => enqueue_wake_iff hc hpre,
    fun i c' d => turn_wake_iff (h.waiting.mono hcur) hc, fun c' ds hstep d hd => ?_⟩
  rw [tick] at hstep
  split at hstep
  · cases hstep
    cases hd
  · obtain ⟨cur', i, c₁, c₂, h₁, hle, hturn⟩ := h.tickFrom hc _ _ hcur hstep d hd
    exact ⟨cur', i, c₁, c₂, h₁, hle, hturn, turn_wake_iff (h₁.waiting.mono hle) hc hturn⟩

/-- A scheduler, and three system cycles to the memory cycle. -/
def threeToOne (controllerLatency : Nat) (h : controllerLatency < 2 ^ 32) :
    MemControllerParam where
  mem := .default
  addr := ⟨1, 0, 64, 64, 8, 10, 1, Nat.one_pos, Nat.one_pos⟩
  controllerLatency := controllerLatency
  schedulerQueueCount := 16
  sysFreqKHz := 2400000
  memFreqKHz := 800000
  controllerLatency_lt := h
  sysFreq_pos := by decide
  memFreq_pos := by decide

/-- Four cycles of the controller make up for the half of seven. -/
theorem wake_in_time_iff_write : ∃ c' d,
    (init (threeToOne 4 (by decide))).enqueue (threeToOne 4 (by decide)) ⟨0, 0, .WRITE⟩ 100 =
      some (c', some d) ∧ 100 ≤ (threeToOne 4 (by decide)).wakeCycle d := by
  refine ⟨_, _, rfl, ?_⟩
  have hinit : Reachable (threeToOne 4 (by decide)) (init (threeToOne 4 (by decide))) 0 := .init
  have hiff := (wake_in_time_iff hinit (Nat.zero_le 100) (by decide)).1
    ⟨0, 0, .WRITE⟩ _ _ (by decide) rfl
  exact hiff.mpr (by rw [EnqueueInTime, if_neg (by decide)]; decide)

/-- Without a latency of the controller a write that is queued at cycle 100 wakes its children
at cycle 99. -/
theorem write_wakes_back : ∃ c' d, Reachable (threeToOne 0 (by decide)) c' 100 ∧
    (init (threeToOne 0 (by decide))).enqueue (threeToOne 0 (by decide)) ⟨0, 0, .WRITE⟩ 100 =
      some (c', some d) ∧ (threeToOne 0 (by decide)).wakeCycle d = 99 := by
  have hstep : ∃ c' d, (init (threeToOne 0 (by decide))).enqueue (threeToOne 0 (by decide))
      ⟨0, 0, .WRITE⟩ 100 = some (c', some d) ∧ (threeToOne 0 (by decide)).wakeCycle d = 99 :=
    ⟨_, _, rfl, by decide⟩
  obtain ⟨c', d, hstep, hwake⟩ := hstep
  exact ⟨c', d, .enqueue .init (Nat.zero_le _) (by decide) (by decide) hstep, hstep, hwake⟩

end MemController

end ZSim
