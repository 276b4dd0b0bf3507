import ZSim.DDRServed
import ZSim.DDRLegal

/-! The commands of every run of the controller respect the timing of the device, and no
assert of the controller fails. -/

namespace ZSim

namespace DDRCtl

variable {cfg : DDRConfig} {s s' : DDRCtl} {id memCycle sysCycle : Nat}

theorem Timed.queued (h : Timed cfg s) (hhand : s.Inv cfg [id]) :
    Timed cfg (s.queued cfg id memCycle) := by
  have hk := @Inv.queued_spec cfg s id memCycle hhand
  exact h.congr hk.banks hk.rankActWindows hk.minRespCycle hk.cmds

theorem Timed.drain (h : Timed cfg s) (hinv : s.Inv cfg []) (m : WithTop Nat) :
    Timed cfg (s.drain cfg memCycle m).1 := by
  rw [DDRCtl.drain]
  cases hov : s.overflowQueue with
  | nil => exact h
  | cons id rest =>
    dsimp only
    split
    · have hhand := hinv.unflow hov
      have hrest : Timed cfg { s with overflowQueue := rest } := h.congr rfl rfl rfl rfl
      split
      · exact hrest.queued hhand
      · exact hrest.queued hhand
    · exact h

theorem Timed.arrive (h : Timed cfg s) (hinv : s.Inv cfg []) (hnew : id ∉ s.arrived)
    {addr : Nat} {write b : Bool} (hs : s.arrive cfg id addr write sysCycle = some (s', b)) :
    Timed cfg s' := by
  rw [DDRCtl.arrive] at hs
  obtain ⟨loc, hloc, heq⟩ := Option.map_eq_some_iff.mp hs
  have hhand := @Inv.arrive cfg s id (cfg.sysToMemCycle sysCycle) sysCycle hinv addr write loc
    hnew hloc
  set t : DDRCtl := { s.setReq id ⟨addr, loc, write, 0, cfg.sysToMemCycle sysCycle, sysCycle,
    some id⟩ with arrived := id :: s.arrived } with ht
  have htimed : Timed cfg t := h.congr rfl rfl rfl rfl
  dsimp only at heq
  split at heq
  · cases heq
    exact htimed.congr rfl rfl rfl rfl
  · cases heq
    exact htimed.queued hhand

theorem isWriteQueue_ne_nil (h : ¬ (s.empty false && s.empty true) = true) :
    s.queues (s.isWriteQueue cfg) ≠ [] := by
  rw [Bool.and_eq_true, empty_iff, empty_iff] at h
  rw [isWriteQueue]
  by_cases hread : s.queues false = []
  · rw [empty_iff.mpr hread, Bool.true_or]
    exact fun hwrite => h ⟨hread, hwrite⟩
  · have hne : s.empty false = false := Bool.eq_false_of_not_eq_true (fun he => hread (empty_iff.mp he))
    rw [hne, Bool.false_or]
    match hprio : decide (3 * cfg.queueDepth % 2 ^ 32 / 4 < (s.queues true).length) ||
        s.lastCmdWasWrite && decide (cfg.queueDepth / 4 < (s.queues true).length) with
    | false => exact hread
    | true =>
      intro hnil
      rw [hnil] at hprio
      rcases Bool.or_eq_true_iff.mp hprio with hbig | hbig
      · exact absurd (of_decide_eq_true hbig) (Nat.not_lt_zero _)
      · exact absurd (of_decide_eq_true (Bool.and_eq_true_iff.mp hbig).2) (Nat.not_lt_zero _)

theorem Timed.trySchedule (h : Timed cfg s) (hinv : s.Inv cfg []) (sysCycle : Nat) :
    ∃ s' m, s.trySchedule cfg (cfg.sysToMemCycle sysCycle) sysCycle = some (s', m) ∧
      Timed cfg s' ∧ WithTop.some (cfg.sysToMemCycle sysCycle) ≤ m := by
  rw [DDRCtl.trySchedule]
  by_cases hempty : (s.empty false && s.empty true) = true
  · rw [if_pos hempty]
    exact ⟨s, ⊤, rfl, h, le_top⟩
  · rw [if_neg hempty]
    by_cases hahead : cfg.sysToMemCycle sysCycle + cfg.timing.tCL < s.minRespCycle
    · rw [if_pos hahead]
      have hle : cfg.sysToMemCycle sysCycle ≤ s.minRespCycle - cfg.timing.tCL := by omega
      exact ⟨s, _, rfl, h, WithTop.coe_le_coe.mpr hle⟩
    · rw [if_neg hahead]
      have hne := @isWriteQueue_ne_nil cfg s hempty
      dsimp only
      rw [if_neg (fun he => hne (empty_iff.mp he))]
      rcases hfind : s.findReady cfg (s.isWriteQueue cfg) (cfg.sysToMemCycle sysCycle)
          (s.queues (s.isWriteQueue cfg)) ⊤ with ⟨_ | id, m⟩
      · exact ⟨s, m, rfl, h, le_of_lt ((findReady_none hfind).1 (WithTop.coe_lt_top _))⟩
      · obtain ⟨hid, -, hready⟩ := findReady_some hfind
        obtain ⟨s', hs', ht, hresp⟩ := h.issue hinv hid hready
        dsimp only
        rw [hs']
        refine ⟨s', _, rfl, ht, ?_⟩
        split
        · exact le_top
        · exact WithTop.coe_le_coe.mpr hresp

end DDRCtl

namespace DDRMemory

open DDRCommand

variable {cfg : DDRConfig} {s s' : DDRMemory}

/-- The timing that commands respect, newest first. -/
structure Legal (cfg : DDRConfig) (cmds : List DDRCommand) : Prop where
  after : cmds.Pairwise (After cfg.timing)
  rows : OpenRows cfg.timing cmds
  refresh : ∀ start pos row a, .ref start ∈ cmds → .act pos row a ∈ cmds →
    a < start ∨ start + cfg.timing.tRFC ≤ a
  fourActivates : ∀ (rank : Nat) (l : List Nat), l.Perm (activations rank cmds) →
    l.Pairwise (· ≤ ·) → ∀ i, (hi : i + 4 < l.length) → l[i] + cfg.timing.tFAW ≤ l[i + 4]

theorem legal_of_timed (h : s.ctl.Timed cfg) : Legal cfg s.ctl.cmds where
  after := h.pairwise
  rows := h.rows
  refresh := by
    intro start pos row a href hact
    have hboth : ∀ x ∈ s.ctl.cmds, ∀ y ∈ s.ctl.cmds,
        x = y ∨ After cfg.timing x y ∨ After cfg.timing y x := by
      intro x hx y hy
      obtain ⟨i, hi, rfl⟩ := List.mem_iff_getElem.mp hx
      obtain ⟨j, hj, rfl⟩ := List.mem_iff_getElem.mp hy
      have hpair := List.pairwise_iff_getElem.mp h.pairwise
      rcases Nat.lt_trichotomy i j with hij | rfl | hij
      · exact .inr (.inl (hpair i j hi hj hij))
      · exact .inl rfl
      · exact .inr (.inr (hpair j i hj hi hij))
    rcases hboth _ href _ hact with heq | hbefore | hafter
    · cases heq
    · exact .inl hbefore
    · exact .inr hafter
  fourActivates := by
    intro rank l hl hsorted i hi
    obtain ⟨hsize, htracks⟩ := h.windows rank
    exact htracks.five hsize hl hsorted hi

/-- An access is to an address that maps to a bank. -/
def Mapped (cfg : DDRConfig) : Event → Prop
  | .access _ addr _ _ => (cfg.mapLineAddr addr).isSome
  | _ => True

theorem enqueue_timed (h : Inv cfg s) (ht : s.ctl.Timed cfg) {id addr sysCycle : Nat}
    {write : Bool} (hnew : id ∉ s.ctl.arrived) (hmap : (cfg.mapLineAddr addr).isSome) :
    ∃ s', s.enqueue cfg id addr write sysCycle = some s' ∧ s'.ctl.Timed cfg := by
  obtain ⟨loc, hloc⟩ := Option.isSome_iff_exists.mp hmap
  have harr : ∃ ctl b, s.ctl.arrive cfg id addr write sysCycle = some (ctl, b) := by
    rw [DDRCtl.arrive, hloc]
    exact ⟨_, _, rfl⟩
  obtain ⟨ctl, b, harr⟩ := harr
  have htimed := ht.arrive h.ctl hnew harr
  rw [DDRMemory.enqueue, harr]
  dsimp only
  split
  · set q := max (cfg.sysToMemCycle sysCycle)
      (ctl.minRespCycle - cfg.timing.tCL - cfg.timing.tBL) with hq
    have hle : cfg.sysToMemCycle sysCycle ≤ q := Nat.le_max_left _ _
    have hn : cfg.sysToMemCycle sysCycle ≤ (if WithTop.some q < s.sched.nextSchedCycle then
        max q (ctl.findMinCmdCycle cfg (ctl.reqs id)) else q) := by
      split
      · exact le_trans hle (Nat.le_max_left _ _)
      · exact hle
    have hany : ∀ n : Nat, cfg.sysToMemCycle sysCycle ≤ n →
        ∃ s', (if WithTop.some n < s.sched.nextSchedCycle then
          (s.sched.reschedule cfg n sysCycle).map fun sched => (⟨ctl, sched⟩ : DDRMemory)
        else some ⟨ctl, s.sched⟩) = some s' ∧ s'.ctl.Timed cfg := by
      intro n hn
      split
      · obtain ⟨sched, hsched, -⟩ := h.sched.reschedule hn
        rw [hsched]
        exact ⟨_, rfl, htimed⟩
      · exact ⟨_, rfl, htimed⟩
    exact hany _ hn
  · exact ⟨_, rfl, htimed⟩

theorem tick_timed (h : Inv cfg s) (ht : s.ctl.Timed cfg) {startCycle : Nat} {sched : DDRSched}
    (hcycle : sched.nextSchedCycle = WithTop.some (cfg.sysToMemCycle startCycle)) :
    ∃ s' nextCycle, DDRMemory.tick cfg ⟨s.ctl, sched⟩ startCycle = some (s', nextCycle) ∧
      s'.ctl.Timed cfg := by
  obtain ⟨ctl, m, htry, htimed, hle⟩ := ht.trySchedule h.ctl startCycle
  have hdrained := @DDRCtl.Timed.drain cfg ctl (cfg.sysToMemCycle startCycle) htimed
    (h.ctl.trySchedule htry).1 m
  rw [DDRMemory.tick]
  dsimp only
  rw [if_pos hcycle, htry]
  dsimp only
  rw [if_pos hle]
  split
  · exact ⟨_, _, rfl, hdrained⟩
  · exact ⟨_, _, rfl, hdrained⟩

theorem step_timed (h : Inv cfg s) (ht : s.ctl.Timed cfg) {e : Event} (he : s.Enabled e)
    (hmap : Mapped cfg e) : ∃ s', s.step cfg e = some s' ∧ s'.ctl.Timed cfg := by
  cases e with
  | access id addr write sysCycle => exact enqueue_timed h ht he hmap
  | sched e c =>
    show ∃ s', DDRMemory.simulate cfg _ e c = some s' ∧ _
    rw [DDRMemory.simulate]
    dsimp only
    rcases h.sched.pending e c he with hann | ⟨hq, hnext, hcycle⟩
    · have hne : s.sched.nextSchedEvent ≠ some e := by
        intro hn
        have hq := (h.sched.next e hn).1
        rw [hann] at hq
        cases hq
      rw [hann, DDRSched.recycleEvent, if_neg hne]
      exact ⟨_, rfl, ht⟩
    · rw [hq]
      obtain ⟨t, nextCycle, htick, htimed⟩ := @tick_timed cfg s h ht c
        ({ s.sched with pending := s.sched.pending.erase (e, c) }.setState e .RUNNING) hcycle
      dsimp only
      rw [htick]
      dsimp only
      split
      · exact ⟨_, rfl, htimed⟩
      · rename_i hzero
        obtain ⟨-, -, ⟨-, -, hsched⟩ | ⟨n, -, hpos, -, -⟩⟩ := h.tick htick
        · rw [hsched, DDRSched.recycleEvent, if_neg (by simp)]
          exact ⟨_, rfl, htimed⟩
        · exact absurd hpos hzero
  | refresh sysCycle => exact ⟨_, rfl, ht.refresh sysCycle⟩

theorem Reachable.timed (h : Reachable cfg s) : s.ctl.Timed cfg := by
  induction h with
  | init => exact DDRCtl.timed_init
  | @step t t' hr e he hs ih =>
    have hmap : Mapped cfg e := by
      cases e with
      | access id addr write sysCycle =>
        show (cfg.mapLineAddr addr).isSome
        by_contra hnone
        have harr : t.ctl.arrive cfg id addr write sysCycle = none := by
          rw [DDRCtl.arrive, Option.not_isSome_iff_eq_none.mp hnone]
          rfl
        have hbad : t.enqueue cfg id addr write sysCycle = none := by
          rw [DDRMemory.enqueue, harr]
        rw [DDRMemory.step, hbad] at hs
        cases hs
      | sched e c => trivial
      | refresh c => trivial
    obtain ⟨s', hs', ht⟩ := step_timed hr.inv ih he hmap
    rw [hs] at hs'
    cases hs'
    exact ht

/-- In every run the commands respect the timing of the device, and no assert fails. -/
theorem ddr_commands_legal (h : Reachable cfg s) :
    Legal cfg s.ctl.cmds ∧
      ∀ e, s.Enabled e → Mapped cfg e → (s.step cfg e).isSome := by
  refine ⟨legal_of_timed h.timed, ?_⟩
  intro e he hmap
  obtain ⟨s', hs', -⟩ := step_timed h.inv h.timed he hmap
  rw [hs']
  rfl

/-- A channel whose queues have 16 entries. -/
def channel : DDRConfig := { noQueues with queueDepth := 16 }

/-- Reads of two banks, and of another row of the first. -/
theorem exists_reads : ∃ s, Reachable channel s ∧
    s.ctl.cmds = [.col (0, 5) 2 78, .act (0, 5) 2 68, .col (0, 6) 0 48, .act (0, 6) 0 34,
      .col (0, 5) 0 44, .act (0, 5) 0 34] := by
  have h₁ := @Reachable.step channel _ _ .init (.access 0 5 false 100) List.not_mem_nil rfl
  have h₂ := h₁.step (.access 1 6 false 101) (show 1 ∉ [0] by decide) rfl
  have h₃ := h₂.step (.access 2 8197 false 102) (show 2 ∉ [1, 0] by decide) rfl
  have h₄ := h₃.step (.sched 0 130) List.mem_cons_self rfl
  have h₅ := h₄.step (.sched 0 142) List.mem_cons_self rfl
  have h₆ := h₅.step (.sched 0 154) List.mem_cons_self rfl
  have h₇ := h₆.step (.sched 0 232) List.mem_cons_self rfl
  exact ⟨_, h₇, rfl⟩

theorem ddr_commands_legal_reads :
    ∃ s : DDRMemory, s.ctl.cmds = [.col (0, 5) 2 78, .act (0, 5) 2 68, .col (0, 6) 0 48,
        .act (0, 6) 0 34, .col (0, 5) 0 44, .act (0, 5) 0 34] ∧
      Legal channel s.ctl.cmds ∧ (s.step channel (.refresh 300)).isSome := by
  obtain ⟨s, hs, hcmds⟩ := exists_reads
  obtain ⟨hlegal, hsteps⟩ := ddr_commands_legal hs
  exact ⟨s, hcmds, hlegal, hsteps (.refresh 300) trivial trivial⟩

end DDRMemory

end ZSim
