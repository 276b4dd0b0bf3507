import ZSim.DDRLegalRuns
import ZSim.DDRMoves

/-! The distances between the activates of a rank. The controller keeps `tRRD` from the last
activate of the bank. The activates of other banks are `tRRD` away only when the other bounds of
the cycle make them so. -/

namespace ZSim

/-- Two cycles are `t` apart, in either order. -/
def Apart (t a b : Nat) : Prop := a + t ≤ b ∨ b + t ≤ a

namespace DDRCommand

/-- Any two activates of a rank are `tRRD` apart. -/
def Spaced (t : DDRTiming) (cmds : List DDRCommand) : Prop :=
  ∀ rank, (activations rank cmds).Pairwise (Apart t.tRRD)

variable {t : DDRTiming} {cmds : List DDRCommand} {pos : Nat × Nat} {row a c start : Nat}

theorem mem_activations {rank : Nat} :
    a ∈ activations rank cmds ↔ ∃ pos row, .act pos row a ∈ cmds ∧ pos.1 = rank := by
  induction cmds with
  | nil => simp [activations]
  | cons x cmds ih =>
    cases x with
    | act p r b =>
      rw [activations]
      split
      · rename_i hp
        rw [List.mem_cons, ih]
        constructor
        · rintro (rfl | ⟨pos, row, hmem, hpos⟩)
          · exact ⟨p, r, List.mem_cons_self, hp⟩
          · exact ⟨pos, row, List.mem_cons_of_mem _ hmem, hpos⟩
        · rintro ⟨pos, row, hmem, hpos⟩
          rcases List.mem_cons.mp hmem with heq | hmem
          · cases heq
            exact .inl rfl
          · exact .inr ⟨pos, row, hmem, hpos⟩
      · rename_i hp
        rw [ih]
        constructor
        · rintro ⟨pos, row, hmem, hpos⟩
          exact ⟨pos, row, List.mem_cons_of_mem _ hmem, hpos⟩
        · rintro ⟨pos, row, hmem, hpos⟩
          rcases List.mem_cons.mp hmem with heq | hmem
          · cases heq
            exact absurd hpos hp
          · exact ⟨pos, row, hmem, hpos⟩
    | col p r b =>
      rw [activations, ih]
      simp
    | ref b =>
      rw [activations, ih]
      simp

theorem spaced_nil : Spaced t [] := fun _ => List.Pairwise.nil

theorem spaced_col : Spaced t (.col pos row c :: cmds) ↔ Spaced t cmds := Iff.rfl

theorem spaced_ref : Spaced t (.ref start :: cmds) ↔ Spaced t cmds := Iff.rfl

theorem spaced_act : Spaced t (.act pos row a :: cmds) ↔
    Spaced t cmds ∧ ∀ b ∈ activations pos.1 cmds, Apart t.tRRD a b := by
  constructor
  · intro h
    have hrank := h pos.1
    rw [activations, if_pos rfl, List.pairwise_cons] at hrank
    refine ⟨?_, hrank.1⟩
    intro rank
    have hany := h rank
    rw [activations] at hany
    split at hany
    · exact hany.of_cons
    · exact hany
  · rintro ⟨h, hnew⟩ rank
    rw [activations]
    split
    · rename_i hp
      subst hp
      exact List.pairwise_cons.mpr ⟨hnew, h _⟩
    · exact h rank

end DDRCommand

namespace DDRCtl

open DDRCommand

variable {cfg : DDRConfig} {s s' : DDRCtl} {r : DDRRequest} {id curCycle sysCycle : Nat} {w : Bool}

/-- The cycles that the ACT of a request has to wait for: its arrival, the precharge of its bank,
the last ACT of its bank and the window of its rank. -/
def actBounds (cfg : DDRConfig) (s : DDRCtl) (r : DDRRequest) : List Nat :=
  [r.arrivalCycle, s.preCycle r + cfg.timing.tRP,
    (s.banks r.loc.pos).lastActCycle + cfg.timing.tRRD,
    (s.rankActWindows r.loc.rank).minActCycle + cfg.timing.tFAW]

/-- Against each ACT of another bank of its rank, a request waits `tRRD` after it for another
reason, or has nothing to wait for from `tRRD` before it on. -/
def Waits (cfg : DDRConfig) (s : DDRCtl) (r : DDRRequest) : Prop :=
  ∀ pos row a, .act pos row a ∈ s.cmds → pos.1 = r.loc.rank → pos ≠ r.loc.pos →
    (∃ b ∈ s.actBounds cfg r, a + cfg.timing.tRRD ≤ b) ∨
      ∀ b ∈ s.actBounds cfg r, b + cfg.timing.tRRD ≤ a

/-- The request that `trySchedule` takes. -/
def chosen (cfg : DDRConfig) (s : DDRCtl) (curCycle : Nat) : Option Nat :=
  if s.empty false && s.empty true then none
  else if curCycle + cfg.timing.tCL < s.minRespCycle then none
  else (s.findReady cfg (s.isWriteQueue cfg) curCycle (s.queues (s.isWriteQueue cfg)) ⊤).1

theorem le_actCycle_iff {x : Nat} :
    x ≤ s.actCycle cfg r ↔ ∃ b ∈ s.actBounds cfg r, x ≤ b := by
  simp only [actCycle, actBounds, List.mem_cons, List.not_mem_nil, or_false, exists_eq_or_imp,
    exists_eq_left, le_max_iff, or_assoc]

theorem actCycle_add_le_iff {x t : Nat} :
    s.actCycle cfg r + t ≤ x ↔ ∀ b ∈ s.actBounds cfg r, b + t ≤ x := by
  simp only [actCycle, actBounds, List.mem_cons, List.not_mem_nil, or_false, forall_eq_or_imp,
    forall_eq]
  omega

theorem Timed.apart_own (h : Timed cfg s) {row a : Nat} (ha : .act r.loc.pos row a ∈ s.cmds) :
    a + cfg.timing.tRRD ≤ s.actCycle cfg r := by
  have hlast := (h.acts _ _ _ ha).1
  refine le_actCycle_iff.mpr ⟨(s.banks r.loc.pos).lastActCycle + cfg.timing.tRRD, ?_, ?_⟩
  · simp [actBounds]
  · omega

theorem Timed.apart_iff (h : Timed cfg s) :
    (∀ a ∈ activations r.loc.rank s.cmds, Apart cfg.timing.tRRD (s.actCycle cfg r) a) ↔
      s.Waits cfg r := by
  constructor
  · intro hapart pos row a ha hrank hne
    rcases hapart a (mem_activations.mpr ⟨pos, row, ha, hrank⟩) with hbefore | hafter
    · exact .inr (actCycle_add_le_iff.mp hbefore)
    · exact .inl (le_actCycle_iff.mp hafter)
  · intro hwaits a ha
    obtain ⟨pos, row, hmem, hrank⟩ := mem_activations.mp ha
    by_cases hpos : pos = r.loc.pos
    · rw [hpos] at hmem
      exact .inr (h.apart_own hmem)
    · rcases hwaits pos row a hmem hrank hpos with hafter | hbefore
      · exact .inr (le_actCycle_iff.mpr hafter)
      · exact .inl (actCycle_add_le_iff.mpr hbefore)

theorem Timed.activate_spaced (h : Timed cfg s) (hs : s.activate cfg r = some s') :
    Spaced cfg.timing s'.cmds ↔ Spaced cfg.timing s.cmds ∧ s.Waits cfg r := by
  rw [DDRCtl.activate] at hs
  dsimp only at hs
  split at hs
  · cases hs
  · cases hs
    rw [spaced_act, ← h.apart_iff]
    rfl

theorem access_cmds {minCmdCycle : Nat} (h : s.access cfg w id minCmdCycle sysCycle = some s') :
    ∃ pos row c, s'.cmds = .col pos row c :: s.cmds := by
  rw [access] at h
  dsimp only at h
  split at h
  · obtain ⟨t, ht, rfl⟩ := Option.map_eq_some_iff.mp h
    rw [respondRead] at ht
    dsimp only at ht
    split at ht
    · cases ht
      exact ⟨_, _, _, rfl⟩
    · split at ht
      · cases ht
        exact ⟨_, _, _, rfl⟩
      · cases ht
  · cases h

theorem access_spaced {minCmdCycle : Nat} (h : s.access cfg w id minCmdCycle sysCycle = some s') :
    Spaced cfg.timing s'.cmds ↔ Spaced cfg.timing s.cmds := by
  obtain ⟨pos, row, c, hcmds⟩ := access_cmds h
  rw [hcmds]
  exact spaced_col

theorem Timed.issue_spaced (h : Timed cfg s) (hs : s.issue cfg w id curCycle sysCycle = some s') :
    Spaced cfg.timing s'.cmds ↔
      Spaced cfg.timing s.cmds ∧ (s.rowHit (s.reqs id) = false → s.Waits cfg (s.reqs id)) := by
  rw [DDRCtl.issue] at hs
  cases hhit : s.rowHit (s.reqs id) with
  | true =>
    rw [hhit, if_pos rfl] at hs
    rw [access_spaced hs]
    exact ⟨fun hsp => ⟨hsp, fun hne => absurd hne (by decide)⟩, fun hsp => hsp.1⟩
  | false =>
    rw [hhit, if_neg (by decide)] at hs
    split at hs
    · cases hs
    · rename_i t ht
      rw [access_spaced hs, h.activate_spaced ht]
      exact ⟨fun hsp => ⟨hsp.1, fun _ => hsp.2⟩, fun hsp => ⟨hsp.1, hsp.2 rfl⟩⟩

theorem Timed.trySchedule_spaced (h : Timed cfg s) {m : WithTop Nat}
    (hs : s.trySchedule cfg curCycle sysCycle = some (s', m)) :
    Spaced cfg.timing s'.cmds ↔ Spaced cfg.timing s.cmds ∧ ∀ id, s.chosen cfg curCycle = some id →
      s.rowHit (s.reqs id) = false → s.Waits cfg (s.reqs id) := by
  rw [DDRCtl.trySchedule] at hs
  rw [chosen]
  split at hs
  · rename_i hempty
    cases hs
    rw [if_pos hempty]
    simp
  · rename_i hempty
    rw [if_neg hempty]
    split at hs
    · rename_i hahead
      cases hs
      rw [if_pos hahead]
      simp
    · rename_i hahead
      rw [if_neg hahead]
      dsimp only at hs
      split at hs
      · cases hs
      · split at hs
        · rename_i hfind
          cases hs
          rw [hfind]
          simp
        · rename_i id _ hfind
          obtain ⟨t, ht, heq⟩ := Option.map_eq_some_iff.mp hs
          cases heq
          rw [hfind, h.issue_spaced ht]
          simp

theorem Takes.spaced (h : Takes cfg s s') :
    Spaced cfg.timing s'.cmds ↔ Spaced cfg.timing s.cmds := by
  cases h with
  | keep => exact Iff.rfl
  | overflow hnew hseq => exact Iff.rfl
  | @queue t id memCycle hhand hinv =>
    rw [hinv.queued_spec.cmds]
    show Spaced cfg.timing t.cmds ↔ _
    rw [hhand.cmds]
  | refresh => exact spaced_ref

end DDRCtl

namespace DDRMemory

open DDRCommand

variable {cfg : DDRConfig} {s s' : DDRMemory}

/-- A request that the step activates a row for waits for the rank. -/
def Meets (cfg : DDRConfig) (s : DDRMemory) : Event → Prop
  | .sched e c => s.sched.events e = .QUEUED →
    ∀ id, s.ctl.chosen cfg (cfg.sysToMemCycle c) = some id →
      s.ctl.rowHit (s.ctl.reqs id) = false → s.ctl.Waits cfg (s.ctl.reqs id)
  | .access _ _ _ _ => True
  | .refresh _ => True

/-- A run to a state, with the state and the event of each of its steps, newest first. -/
inductive Run (cfg : DDRConfig) : List (DDRMemory × Event) → DDRMemory → Prop
  | init : Run cfg [] (init cfg)
  | step {steps : List (DDRMemory × Event)} {s s' : DDRMemory} (h : Run cfg steps s) (e : Event)
      (he : s.Enabled e) (hs : s.step cfg e = some s') : Run cfg ((s, e) :: steps) s'

theorem Run.reachable {steps : List (DDRMemory × Event)} (h : Run cfg steps s) :
    Reachable cfg s := by
  induction h with
  | init => exact .init
  | step _ e he hs ih => exact .step ih e he hs

/-- A step keeps the distances exactly when it meets the condition. -/
theorem step_spaced (h : Inv cfg s) (ht : s.ctl.Timed cfg) {e : Event} (he : s.Enabled e)
    (hs : s.step cfg e = some s') :
    Spaced cfg.timing s'.ctl.cmds ↔ Spaced cfg.timing s.ctl.cmds ∧ Meets cfg s e := by
  cases e with
  | access id addr write sysCycle =>
    obtain ⟨b, harr⟩ := enqueue_ctl hs
    rw [(h.ctl.arrive_takes he harr).spaced]
    exact (and_iff_left trivial).symm
  | refresh sysCycle =>
    cases hs
    exact (and_iff_left trivial).symm
  | sched e c =>
    have hstep : DDRMemory.simulate cfg
        { s with sched := { s.sched with pending := s.sched.pending.erase (e, c) } } e c =
          some s' := hs
    rw [DDRMemory.simulate] at hstep
    dsimp only at hstep
    split at hstep
    · rename_i hqueued
      split at hstep
      · cases hstep
      · rename_i t nextCycle htick
        have hctl : s'.ctl = t.ctl := by
          split at hstep
          · cases hstep
            rfl
          · obtain ⟨sched, -, rfl⟩ := Option.map_eq_some_iff.mp hstep
            rfl
        obtain ⟨ctl, m, htry, hdrained⟩ := tick_ctl htick
        obtain ⟨hinv, -⟩ := h.ctl.trySchedule htry
        rw [hctl, hdrained, (hinv.drain_takes m).spaced, ht.trySchedule_spaced htry]
        exact and_congr_right fun _ => ⟨fun hw _ => hw, fun hw => hw hqueued⟩
    · rename_i hannulled
      obtain ⟨sched, -, rfl⟩ := Option.map_eq_some_iff.mp hstep
      refine (and_iff_left ?_).symm
      intro hqueued
      rw [hannulled] at hqueued
      cases hqueued
    · cases hstep

/-- Any two activates of a rank are `tRRD` apart exactly in the runs whose steps all meet the
condition. -/
theorem activates_spaced_iff {steps : List (DDRMemory × Event)} (h : Run cfg steps s) :
    Spaced cfg.timing s.ctl.cmds ↔ ∀ x ∈ steps, Meets cfg x.1 x.2 := by
  induction h with
  | init =>
    refine ⟨?_, fun _ => spaced_nil⟩
    intro _ x hx
    cases hx
  | @step steps s s' h e he hs ih =>
    rw [step_spaced h.reachable.inv h.reachable.timed he hs, ih, List.forall_mem_cons, and_comm]

/-- A read of another bank arrives a hundred system cycles after the first. -/
theorem exists_apart : ∃ steps s, Run channel steps s ∧ s.ctl.cmds =
    [.col (0, 6) 0 77, .act (0, 6) 0 67, .col (0, 5) 0 44, .act (0, 5) 0 34] := by
  refine ⟨_, _, .step (.step (.step (.step .init (.access 0 5 false 100) List.not_mem_nil rfl)
    (.sched 0 130) List.mem_cons_self rfl) (.access 1 6 false 200) ?_ rfl)
    (.sched 0 229) List.mem_cons_self rfl, rfl⟩
  show 1 ∉ [0]
  decide

theorem activates_spaced_apart : ∃ (steps : List (DDRMemory × Event)) (s : DDRMemory),
    s.ctl.cmds.length = 4 ∧
      (Spaced channel.timing s.ctl.cmds ↔ ∀ x ∈ steps, Meets channel x.1 x.2) := by
  obtain ⟨steps, s, hrun, hcmds⟩ := exists_apart
  refine ⟨steps, s, ?_, activates_spaced_iff hrun⟩
  rw [hcmds]
  rfl

/-- Two reads of one rank arrive in one cycle, and both of their rows are activated in it. -/
theorem exists_together : ∃ steps s, Run channel steps s ∧ s.ctl.cmds =
    [.col (0, 6) 0 48, .act (0, 6) 0 34, .col (0, 5) 0 44, .act (0, 5) 0 34] := by
  refine ⟨_, _, .step (.step (.step (.step .init (.access 0 5 false 100) List.not_mem_nil rfl)
    (.access 1 6 false 100) ?_ rfl) (.sched 0 130) List.mem_cons_self rfl)
    (.sched 0 142) List.mem_cons_self rfl, rfl⟩
  show 1 ∉ [0]
  decide

theorem activates_together : ¬ ∀ (cfg : DDRConfig) (steps : List (DDRMemory × Event))
    (s : DDRMemory), Run cfg steps s → Spaced cfg.timing s.ctl.cmds := by
  intro h
  obtain ⟨steps, s, hrun, hcmds⟩ := exists_together
  have hspaced := h channel steps s hrun
  rw [hcmds, spaced_col, spaced_act] at hspaced
  have hapart := hspaced.2 34 (List.mem_singleton.mpr rfl)
  rcases hapart with hle | hle
  · exact absurd hle (by decide)
  · exact absurd hle (by decide)

end DDRMemory

end ZSim
