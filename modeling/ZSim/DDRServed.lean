import ZSim.DDRWakeup

/-! Every request is served once, and a tick is pending while one waits, over all runs of the
controller. -/

namespace ZSim

namespace DDRCtl

variable {cfg : DDRConfig} {s : DDRCtl} {id memCycle sysCycle : Nat} {w : Bool}

theorem Inv.isFirst_of_only {hand : List Nat} (h : Inv cfg hand s) (hq : s.queues w = [id]) :
    s.isFirst w id = true := by
  obtain ⟨x, hx, hfirst⟩ := h.exists_first (w := w) (by rw [hq]; exact List.cons_ne_nil _ _)
  rw [hq] at hx
  rwa [List.mem_singleton.mp hx] at hfirst

theorem full_ne_nil (hdepth : 0 < cfg.queueDepth) (hfull : s.full cfg w = true) :
    s.queues w ≠ [] := by
  have hle : cfg.queueDepth ≤ (s.queues w).length := of_decide_eq_true hfull
  intro hnil
  rw [hnil] at hle
  exact absurd hle (Nat.not_le_of_lt hdepth)

/-- The controller after a request in hand was queued. -/
def queued (cfg : DDRConfig) (s : DDRCtl) (id memCycle : Nat) : DDRCtl :=
  (s.setQueue (s.useWrQueue cfg id) (s.queues (s.useWrQueue cfg id) ++ [id])).queue cfg id memCycle

theorem Inv.queued_spec (h : Inv cfg [id] s) :
    Queued cfg (s.setQueue (s.useWrQueue cfg id) (s.queues (s.useWrQueue cfg id) ++ [id]))
      (s.queued cfg id memCycle) id :=
  queue_spec (h.held id (.inl (List.mem_singleton_self id)))

theorem Inv.queued_queues (h : Inv cfg [id] s) :
    (s.queued cfg id memCycle).queues = Function.update s.queues (s.useWrQueue cfg id)
      (s.queues (s.useWrQueue cfg id) ++ [id]) :=
  h.queued_spec.queues

theorem Inv.mem_queued (h : Inv cfg [id] s) :
    id ∈ (s.queued cfg id memCycle).queues (s.useWrQueue cfg id) := by
  rw [h.queued_queues, Function.update_self]
  exact List.mem_append_right _ (List.mem_singleton_self id)

theorem Inv.isFirst_queued (h : Inv cfg [id] s) (hempty : ∀ w, s.queues w = []) :
    (s.queued cfg id memCycle).isFirst (s.useWrQueue cfg id) id = true := by
  have hinv : Inv cfg [] (s.queued cfg id memCycle) := h.queue
  apply hinv.isFirst_of_only
  rw [h.queued_queues, Function.update_self, hempty]
  rfl

/-- `drain` keeps the next tick no earlier than the cycle it runs in, and wants none only if no
request is queued. -/
theorem Inv.drain (h : Inv cfg [] s) {m : WithTop Nat} (hle : WithTop.some memCycle ≤ m)
    (htop : m = ⊤ → ∀ w, s.queues w = []) :
    Inv cfg [] (s.drain cfg memCycle m).1 ∧
      WithTop.some memCycle ≤ (s.drain cfg memCycle m).2 ∧
      ((s.drain cfg memCycle m).2 = ⊤ → ∀ w, (s.drain cfg memCycle m).1.queues w = []) ∧
      (0 < cfg.queueDepth → (s.drain cfg memCycle m).1.overflowQueue ≠ [] →
        ∃ w, (s.drain cfg memCycle m).1.queues w ≠ []) := by
  rw [DDRCtl.drain]
  match hov : s.overflowQueue with
  | [] => exact ⟨h, hle, htop, fun _ hne => absurd hov hne⟩
  | id :: rest =>
    dsimp only
    by_cases hroom : (!s.full cfg false && !s.full cfg true) = true
    · rw [if_pos hroom]
      have hhand := h.unflow hov
      set t : DDRCtl := { s with overflowQueue := rest } with ht
      have hinv : Inv cfg [] (t.queued cfg id memCycle) := hhand.queue
      have hsome : ∃ w, (t.queued cfg id memCycle).queues w ≠ [] :=
        ⟨_, List.ne_nil_of_mem hhand.mem_queued⟩
      have hfold : (t.setQueue (s.useWrQueue cfg id) (t.queues (s.useWrQueue cfg id) ++ [id])).queue
          cfg id memCycle = t.queued cfg id memCycle := rfl
      rw [hfold]
      by_cases hfirst : (t.queued cfg id memCycle).isFirst (s.useWrQueue cfg id) id = true
      · rw [if_pos hfirst]
        set q := max memCycle ((t.queued cfg id memCycle).minRespCycle - cfg.timing.tCL -
          cfg.timing.tBL) with hq
        have hqle : WithTop.some memCycle ≤ WithTop.some q := WithTop.coe_le_coe.mpr (Nat.le_max_left _ _)
        have hsplit : ∀ m' : WithTop Nat, WithTop.some memCycle ≤ m' →
            WithTop.some memCycle ≤ (if WithTop.some q < m' then WithTop.some q else m') ∧
              (if WithTop.some q < m' then WithTop.some q else m') ≠ ⊤ := by
          intro m' hm'
          split
          · exact ⟨hqle, WithTop.coe_ne_top⟩
          · rename_i hnot
            exact ⟨hm', ne_top_of_le_ne_top WithTop.coe_ne_top (not_lt.mp hnot)⟩
        have hm' : WithTop.some memCycle ≤ (if WithTop.some q < m then
            WithTop.some (max q ((t.queued cfg id memCycle).findMinCmdCycle cfg
              ((t.queued cfg id memCycle).reqs id))) else m) := by
          split
          · exact le_trans hqle (WithTop.coe_le_coe.mpr (Nat.le_max_left _ _))
          · exact hle
        exact ⟨hinv, (hsplit _ hm').1, fun hbad => absurd hbad (hsplit _ hm').2, fun _ _ => hsome⟩
      · rw [if_neg hfirst]
        refine ⟨hinv, hle, ?_, fun _ _ => hsome⟩
        intro hm
        exact absurd (hhand.isFirst_queued (htop hm)) hfirst
    · rw [if_neg hroom]
      refine ⟨h, hle, htop, ?_⟩
      intro hdepth _
      rw [Bool.and_eq_true, Bool.not_eq_true', Bool.not_eq_true'] at hroom
      by_cases hfull : s.full cfg false = true
      · exact ⟨false, full_ne_nil hdepth hfull⟩
      · refine ⟨true, full_ne_nil hdepth ?_⟩
        by_contra hnot
        exact hroom ⟨Bool.eq_false_of_not_eq_true hfull, Bool.eq_false_of_not_eq_true hnot⟩

theorem Inv.arrive_spec (h : Inv cfg [] s) (hnew : id ∉ s.arrived) {addr : Nat} {write : Bool}
    {s' : DDRCtl} {b : Bool} (hs : s.arrive cfg id addr write sysCycle = some (s', b)) :
    Inv cfg [] s' ∧
      (b = false → s'.queues = s.queues ∧ (s.full cfg false || s.full cfg true) = true) ∧
      (b = true → s'.overflowQueue = s.overflowQueue ∧ s'.queues (s'.useWrQueue cfg id) ≠ [] ∧
        ((∀ w, s.queues w = []) → s'.isFirst (s'.useWrQueue cfg id) id = true)) := by
  rw [DDRCtl.arrive] at hs
  obtain ⟨loc, hloc, heq⟩ := Option.map_eq_some_iff.mp hs
  dsimp only at heq
  have hhand := @Inv.arrive cfg s id (cfg.sysToMemCycle sysCycle) sysCycle h addr write loc hnew hloc
  set t : DDRCtl := { s.setReq id ⟨addr, loc, write, 0, cfg.sysToMemCycle sysCycle, sysCycle,
    some id⟩ with arrived := id :: s.arrived } with ht
  by_cases hover : (s.full cfg false || s.full cfg true) = true
  · rw [if_pos hover] at heq
    cases heq
    refine ⟨hhand.overflow, fun _ => ⟨rfl, hover⟩, ?_⟩
    intro hb
    cases hb
  · rw [if_neg hover] at heq
    have hq : t.queued cfg id (cfg.sysToMemCycle sysCycle) = s' := congrArg Prod.fst heq
    have hb : true = b := congrArg Prod.snd heq
    have hw : s'.useWrQueue cfg id = t.useWrQueue cfg id := by
      rw [← hq]
      exact congrArg (cfg.deferredWrites && ·) hhand.queued_spec.write
    have hov : s'.overflowQueue = s.overflowQueue := by
      rw [← hq]
      exact hhand.queued_spec.overflowQueue
    refine ⟨?_, ?_, ?_⟩
    · rw [← hq]
      exact hhand.queue
    · intro hfalse
      rw [hfalse] at hb
      cases hb
    · intro _
      refine ⟨hov, ?_, ?_⟩
      · rw [hw, ← hq]
        exact List.ne_nil_of_mem hhand.mem_queued
      · intro hempty
        rw [hw, ← hq]
        exact hhand.isFirst_queued hempty

end DDRCtl

namespace DDRMemory

variable {cfg : DDRConfig} {s s' : DDRMemory}

/-- The queues, the scheduling events, and the tick that is pending for a request that waits. -/
structure Inv (cfg : DDRConfig) (s : DDRMemory) : Prop where
  ctl : s.ctl.Inv cfg []
  sched : s.sched.Inv cfg
  awake : s.sched.nextSchedCycle = ⊤ → ∀ w, s.ctl.queues w = []
  overflow : 0 < cfg.queueDepth → s.ctl.overflowQueue ≠ [] → ∃ w, s.ctl.queues w ≠ []

theorem inv_init : Inv cfg (init cfg) where
  ctl := DDRCtl.inv_init
  sched := DDRSched.inv_init
  awake := fun _ _ => rfl
  overflow := fun _ h => absurd rfl h

theorem Inv.enqueue (h : Inv cfg s) {id addr sysCycle : Nat} {write : Bool}
    (hnew : id ∉ s.ctl.arrived) (hs : s.enqueue cfg id addr write sysCycle = some s') :
    Inv cfg s' := by
  rw [DDRMemory.enqueue] at hs
  dsimp only at hs
  split at hs
  · cases hs
  · rename_i ctl b harr
    obtain ⟨hctl, hfalse, htrue⟩ := h.ctl.arrive_spec hnew harr
    have hoverflow : 0 < cfg.queueDepth → ctl.overflowQueue ≠ [] → ∃ w, ctl.queues w ≠ [] := by
      intro hdepth hov
      cases b with
      | false =>
        obtain ⟨hq, hfull⟩ := hfalse rfl
        rw [hq]
        rcases Bool.or_eq_true_iff.mp hfull with hfull | hfull
        · exact ⟨false, DDRCtl.full_ne_nil hdepth hfull⟩
        · exact ⟨true, DDRCtl.full_ne_nil hdepth hfull⟩
      | true => exact ⟨_, (htrue rfl).2.1⟩
    have hkeep : (b && ctl.isFirst (ctl.useWrQueue cfg id) id) ≠ true →
        s.sched.nextSchedCycle = ⊤ → ∀ w, ctl.queues w = [] := by
      intro hnot htop
      cases b with
      | false =>
        rw [(hfalse rfl).1]
        exact h.awake htop
      | true =>
        rw [(htrue rfl).2.2 (h.awake htop)] at hnot
        exact absurd rfl hnot
    split at hs
    · have hbound : ∀ n : Nat, cfg.sysToMemCycle sysCycle ≤ n →
          (if WithTop.some n < s.sched.nextSchedCycle then
            (s.sched.reschedule cfg n sysCycle).map fun sched => (⟨ctl, sched⟩ : DDRMemory)
          else some ⟨ctl, s.sched⟩) = some s' → Inv cfg s' := by
        intro n hn hs
        split at hs
        · obtain ⟨sched, hsched, hinv, hnext⟩ := h.sched.reschedule hn
          rw [hsched] at hs
          cases hs
          refine ⟨hctl, hinv, ?_, hoverflow⟩
          intro htop
          rw [hnext] at htop
          exact absurd htop WithTop.coe_ne_top
        · rename_i hnot
          cases hs
          refine ⟨hctl, h.sched, ?_, hoverflow⟩
          intro htop
          rw [htop] at hnot
          exact absurd (WithTop.coe_lt_top n) hnot
      set q := max (cfg.sysToMemCycle sysCycle)
        (ctl.minRespCycle - cfg.timing.tCL - cfg.timing.tBL) with hq
      have hle : cfg.sysToMemCycle sysCycle ≤ q := Nat.le_max_left _ _
      have hn : cfg.sysToMemCycle sysCycle ≤ (if WithTop.some q < s.sched.nextSchedCycle then
          max q (ctl.findMinCmdCycle cfg (ctl.reqs id)) else q) := by
        split
        · exact le_trans hle (Nat.le_max_left _ _)
        · exact hle
      exact hbound _ hn hs
    · rename_i hnot
      cases hs
      exact ⟨hctl, h.sched, hkeep hnot, hoverflow⟩

/-- A tick, with the state of the events as the run of the next one begins. -/
theorem Inv.tick (h : Inv cfg s) {startCycle nextCycle : Nat} {sched : DDRSched}
    (hs : DDRMemory.tick cfg ⟨s.ctl, sched⟩ startCycle = some (s', nextCycle)) :
    s'.ctl.Inv cfg [] ∧
      (0 < cfg.queueDepth → s'.ctl.overflowQueue ≠ [] → ∃ w, s'.ctl.queues w ≠ []) ∧
      (nextCycle = 0 ∧ (∀ w, s'.ctl.queues w = []) ∧
          s'.sched = { sched with nextSchedEvent := none, nextSchedCycle := ⊤ } ∨
        ∃ n : Nat, cfg.sysToMemCycle startCycle ≤ n ∧ nextCycle ≠ 0 ∧
          nextCycle = max (cfg.matchingMemToSysCycle n) startCycle ∧
          s'.sched = { sched with nextSchedCycle := WithTop.some n }) := by
  rw [DDRMemory.tick] at hs
  dsimp only at hs
  split at hs
  · split at hs
    · cases hs
    · rename_i ctl m htry
      obtain ⟨hinv, -, htop⟩ := h.ctl.trySchedule htry
      split at hs
      · rename_i hle
        obtain ⟨hdrained, hge, hawake, hover⟩ :=
          @DDRCtl.Inv.drain cfg ctl (cfg.sysToMemCycle startCycle) hinv m hle htop
        split at hs
        · rename_i hm
          cases hs
          refine ⟨hdrained, hover, .inl ⟨rfl, hawake hm, ?_⟩⟩
          rw [hm]
          rfl
        · rename_i n hm
          cases hs
          have hn : cfg.sysToMemCycle startCycle ≤ n := by
            rw [hm] at hge
            exact WithTop.coe_le_coe.mp hge
          have hpos := @DDRConfig.matchingMemToSysCycle_pos cfg n
            (Nat.lt_of_lt_of_le (Nat.succ_pos _) hn)
          refine ⟨hdrained, hover, .inr ⟨n, hn, ?_, rfl, ?_⟩⟩
          · omega
          · rw [hm]
            rfl
      · cases hs
  · cases hs

theorem Inv.simulate (h : Inv cfg s) {e c : Nat} (he : (e, c) ∈ s.sched.pending)
    (hs : DDRMemory.simulate cfg
      { s with sched := { s.sched with pending := s.sched.pending.erase (e, c) } } e c = some s') :
    Inv cfg s' := by
  rw [DDRMemory.simulate] at hs
  dsimp only at hs
  rcases h.sched.pending e c he with hann | ⟨hq, hnext, -⟩
  · rw [hann] at hs
    dsimp only at hs
    have hne : s.sched.nextSchedEvent ≠ some e := by
      intro hn
      have hq := (h.sched.next e hn).1
      rw [hann] at hq
      cases hq
    rw [DDRSched.recycleEvent, if_neg hne] at hs
    cases hs
    refine ⟨h.ctl, ?_, h.awake, h.overflow⟩
    exact h.sched.recycle he (fun x hx => Function.update_of_ne hx ..) (Function.update_self ..)
      (.inr ⟨rfl, rfl, hne⟩)
  · rw [hq] at hs
    dsimp only at hs
    split at hs
    · cases hs
    · rename_i t nextCycle htick
      obtain ⟨hctl, hover, ⟨hzero, hempty, hsched⟩ | ⟨n, hn, hne, hcyc, hsched⟩⟩ := h.tick htick
      · rw [if_neg (not_not.mpr hzero), hsched, DDRSched.recycleEvent, if_neg (by simp)] at hs
        cases hs
        refine ⟨hctl, ?_, fun _ => hempty, hover⟩
        apply h.sched.recycle he _ (Function.update_self ..) (.inl ⟨rfl, rfl, hnext⟩)
        intro x hx
        exact (Function.update_of_ne hx ..).trans (Function.update_of_ne hx ..)
      · rw [if_pos hne, hsched, hcyc] at hs
        cases hs
        refine ⟨hctl, ?_, fun htop => absurd htop WithTop.coe_ne_top, hover⟩
        have hrequeue := @DDRSched.Inv.requeue cfg s.sched h.sched e c n c he hnext hn
          (Function.update (Function.update s.sched.events e .RUNNING) e .QUEUED)
          (fun x hx => (Function.update_of_ne hx ..).trans (Function.update_of_ne hx ..))
          (Function.update_self ..)
        rw [← hnext] at hrequeue
        exact hrequeue

theorem Inv.step (h : Inv cfg s) {e : Event} (he : s.Enabled e) (hs : s.step cfg e = some s') :
    Inv cfg s' := by
  cases e with
  | access id addr write sysCycle => exact h.enqueue he hs
  | sched e c => exact h.simulate he hs
  | refresh sysCycle =>
    cases hs
    exact ⟨h.ctl.refresh, h.sched, h.awake, h.overflow⟩

theorem Reachable.inv (h : Reachable cfg s) : Inv cfg s := by
  induction h with
  | init => exact inv_init
  | step _ e he hs ih => exact ih.step he hs

/-- Every request is served once, and none loses its wakeup. -/
structure Served (cfg : DDRConfig) (s : DDRMemory) : Prop where
  wakeup : (∃ w, s.ctl.queues w ≠ []) → ∃ e c, (e, c) ∈ s.sched.pending ∧
    s.sched.events e ≠ .ANNULLED ∧
    s.sched.nextSchedCycle = WithTop.some (cfg.sysToMemCycle c)
  ticks : ∀ e c, (e, c) ∈ s.sched.pending → s.sched.events e ≠ .ANNULLED →
    s.sched.nextSchedCycle = WithTop.some (cfg.sysToMemCycle c)
  overflow : s.ctl.overflowQueue ≠ [] → ∃ w, s.ctl.queues w ≠ []
  banks : ∀ w pos x, (s.ctl.bankQueues w pos).count x =
    if (s.ctl.reqs x).loc.pos = pos then (s.ctl.queues w).count x else 0
  placed : ∀ x ∈ s.ctl.arrived, s.ctl.overflowQueue.count x +
    ((s.ctl.queues false).count x + (s.ctl.queues true).count x) + s.ctl.served.count x = 1
  answered : ∀ x ∈ s.ctl.arrived, (s.ctl.answered.map Prod.fst).count x = s.ctl.served.count x +
    if (s.ctl.reqs x).write then (s.ctl.queues false).count x + (s.ctl.queues true).count x else 0

theorem Inv.served (h : Inv cfg s)
    (hdepth : s.ctl.overflowQueue ≠ [] → 0 < cfg.queueDepth) : Served cfg s where
  wakeup := by
    rintro ⟨w, hw⟩
    match hn : s.sched.nextSchedEvent with
    | none => exact absurd (h.awake (h.sched.idle hn) w) hw
    | some e =>
      obtain ⟨hq, c, hc⟩ := h.sched.next e hn
      refine ⟨e, c, hc, ?_, ?_⟩
      · rw [hq]
        decide
      · rcases h.sched.pending e c hc with hann | ⟨-, -, hcyc⟩
        · rw [hq] at hann
          cases hann
        · exact hcyc
  ticks := by
    intro e c hc hann
    rcases h.sched.pending e c hc with hbad | ⟨-, -, hcyc⟩
    · exact absurd hbad hann
    · exact hcyc
  overflow := fun hov => h.overflow (hdepth hov) hov
  banks := h.ctl.bank
  placed := by
    intro x hx
    have hp := h.ctl.placed x
    have hone := List.nodup_iff_count.mp h.ctl.fresh x
    have hpos := List.count_pos_iff.mpr hx
    rw [List.count_nil] at hp
    omega
  answered := fun x _ => h.ctl.answered x

/-- With queues of no entries, a request stays in the overflow queue. -/
theorem exists_overflow (hdepth : cfg.queueDepth = 0) (hranks : 0 < cfg.ranksPerChannel)
    (hbanks : 0 < cfg.banksPerRank) :
    ∃ s, Reachable cfg s ∧ s.ctl.overflowQueue = [0] ∧ ∀ w, s.ctl.queues w = [] := by
  have hmap : cfg.mapLineAddr 0 = some ⟨0, 0, 0, 0⟩ := by
    rw [DDRConfig.mapLineAddr]
    simp only [Nat.zero_shiftRight, Nat.zero_and]
    exact if_pos ⟨hranks, hbanks⟩
  have hfull : (init cfg).ctl.full cfg false = true := by
    show decide (cfg.queueDepth ≤ 0) = true
    exact decide_eq_true (Nat.le_of_eq hdepth)
  have hs : (init cfg).step cfg (.access 0 0 false 0) = some
      ⟨{ (DDRCtl.init cfg).setReq 0
          ⟨0, ⟨0, 0, 0, 0⟩, false, 0, cfg.sysToMemCycle 0, 0, some 0⟩ with
        arrived := [0]
        overflowQueue := [0] }, .init⟩ := by
    show DDRMemory.enqueue cfg (init cfg) 0 0 false 0 = some _
    rw [DDRMemory.enqueue, DDRCtl.arrive, hmap, hfull]
    rfl
  exact ⟨_, .step .init (.access 0 0 false 0) List.not_mem_nil hs, rfl, fun _ => rfl⟩

/-- The requests are served in every run exactly when the queues can hold one, or no address
maps to a bank. -/
theorem served_iff : (∀ s, Reachable cfg s → Served cfg s) ↔
    0 < cfg.queueDepth ∨ cfg.ranksPerChannel = 0 ∨ cfg.banksPerRank = 0 := by
  constructor
  · intro hall
    by_contra hnot
    rw [not_or, not_or] at hnot
    obtain ⟨hdepth, hranks, hbanks⟩ := hnot
    obtain ⟨s, hs, hov, hempty⟩ := exists_overflow (Nat.eq_zero_of_not_pos hdepth)
      (Nat.pos_of_ne_zero hranks) (Nat.pos_of_ne_zero hbanks)
    obtain ⟨w, hw⟩ := (hall s hs).overflow (by rw [hov]; exact List.cons_ne_nil _ _)
    exact hw (hempty w)
  · intro hcfg s hs
    have hinv := hs.inv
    apply hinv.served
    intro hov
    rcases hcfg with hdepth | hzero
    · exact hdepth
    · obtain ⟨x, hx⟩ := List.exists_mem_of_ne_nil _ hov
      have hp := hinv.ctl.placed x
      have hpos := List.count_pos_iff.mpr hx
      have harr : x ∈ s.ctl.arrived := List.count_pos_iff.mp (by omega)
      have hrange := hinv.ctl.inRange x harr
      omega

/-- A channel whose queues have no entries. -/
def noQueues : DDRConfig where
  timing := DDRTech.DDR3_1333_CL10.timing
  sysFreqKHz := 2000000
  memFreqKHz := DDRTech.DDR3_1333_CL10.memFreqKHz
  ranksPerChannel := 4
  banksPerRank := 8
  colShift := 3
  colMask := 127
  rankShift := 10
  rankMask := 3
  bankShift := 0
  bankMask := 7
  rowShift := 12
  controllerSysLatency := 10
  queueDepth := 0
  rowHitLimit := 4
  deferredWrites := true
  closedPage := true
  memFreq_pos := by decide
  freq := by decide

theorem not_served : ¬ ∀ s, Reachable noQueues s → Served noQueues s := by
  intro hall
  obtain ⟨s, hs, hov, hempty⟩ := @exists_overflow noQueues rfl (by decide) (by decide)
  obtain ⟨w, hw⟩ := (hall s hs).overflow (by rw [hov]; exact List.cons_ne_nil _ _)
  exact hw (hempty w)

end DDRMemory

end ZSim
