import ZSim.RecorderSkew

/-! The clocks of the bound and weave phases over the runs of a recorder. -/

namespace ZSim

/-- What an operation does to the clocks of a recorder. -/
structure ClockStep (op : RecorderOp) (curCycle : Nat) (a a' : CycleAccount) : Prop where
  gap : a.state = .halted ∧ op = .join ∨ a.gapCycles ≤ a'.gapCycles
  skew : op = .cSimEnd → a.state ≠ .halted →
    ∃ skew, a.skew curCycle = some skew ∧ a'.gapCycles = a.gapCycles + skew
  halts : a.state = .draining → (a'.state = .halted ↔ op = .cSimEnd ∧ a.pending = [])

theorem ClockStep.of_eq {op : RecorderOp} {cc : Nat} {a a' : CycleAccount} (hop : op ≠ .cSimEnd)
    (hgap : a'.gapCycles = a.gapCycles) (hstate : a.state ≠ .halted → a'.state ≠ .halted) :
    ClockStep op cc a a' := by
  constructor
  · exact .inr hgap.ge
  · intro h
    exact absurd h hop
  · intro hs
    constructor
    · intro hs'
      exact absurd hs' (hstate (by simp [hs]))
    · intro h
      exact absurd h.1 hop

theorem Resting.mono {glob glob' : Nat} {a : CycleAccount} {c : EventChain}
    (h : Resting glob a c) (hglob : glob ≤ glob') : Resting glob' a c :=
  ⟨h.state, h.pending, h.links, h.produced, h.last.trans hglob, h.sorted⟩

theorem Resting.canStart {glob startCycle : Nat} {a : CycleAccount} {c : EventChain}
    (h : Resting glob a c) : c.canStart startCycle = false := by
  rw [EventChain.canStart, h.links]

theorem Resting.canAccess {glob startCycle endCycle : Nat} {a : CycleAccount} {c : EventChain}
    (h : Resting glob a c) : c.canAccess startCycle endCycle = false := by
  rw [EventChain.canAccess, h.links]

namespace ChainedCoreRecorder

variable {r : ChainedCoreRecorder} {glob limit cc startCycle : Nat} {tr : TimingRecord}

def zllRespCycle (r : ChainedCoreRecorder) : Int := (r.prevRespCycle : Int) - r.account.gapCycles

theorem notifyJoin_halted (h : Resting glob r.account r.chain) :
    ∃ r', r.notifyJoin glob cc = some (r', glob) ∧ r'.prevRespCycle = glob ∧
      r'.account.state = .running ∧
      BoundLive glob glob true r'.account r'.chain r'.zllRespCycle := by
  obtain ⟨a, ha, hgap, -, hstate, -, hbound⟩ := h.join (Nat.le_refl glob)
  refine ⟨⟨⟨a, glob⟩, .queue glob⟩, ?_, rfl, hstate, ?_⟩
  · simp [notifyJoin, CoreRecorder.notifyJoin, h.state, ha]
  · simpa [zllRespCycle, hgap] using hbound

theorem notifyJoin_draining (h : BoundLive glob cc false r.account r.chain r.zllRespCycle) :
    ∃ r', r.notifyJoin glob cc = some (r', cc) ∧ r'.prevRespCycle = r.prevRespCycle ∧
      r'.account.gapCycles = r.account.gapCycles ∧ r'.account.state = .running ∧
      BoundLive glob cc true r'.account r'.chain r'.zllRespCycle := by
  have hstate : r.account.state = .draining := h.state
  refine ⟨⟨⟨{ r.account with state := .running }, r.prevRespCycle⟩, r.chain⟩, ?_, rfl, rfl, rfl,
    ?_⟩
  · simp [notifyJoin, CoreRecorder.notifyJoin, hstate, h.now]
  · constructor
    · exact h.live.congr rfl rfl rfl rfl (Nat.le_refl glob)
    · rfl
    · exact h.gap
    · exact h.queued
    · exact h.produced
    · exact h.own
    · intro hf
      cases hf
    · exact h.now

theorem notifyLeave_running (h : BoundLive glob cc true r.account r.chain r.zllRespCycle)
    (hresp : r.prevRespCycle ≤ cc) (hfits : cc < r.prevRespCycle + 2 ^ 32) :
    ∃ r', r.notifyLeave cc = some r' ∧ r'.prevRespCycle = cc ∧
      r'.account.gapCycles = r.account.gapCycles ∧ r'.account.state = .draining ∧
      BoundLive glob cc false r'.account r'.chain r'.zllRespCycle := by
  have hdelay : (toDelay ((cc : Int) - r.prevRespCycle) : Int) = cc - r.prevRespCycle :=
    toDelay_eq (by omega) (by omega)
  have hlinked : Spanned ((cc : Int) - r.account.gapCycles) r.zllRespCycle
      [(r.prevRespCycle : Int) - r.account.gapCycles, (cc : Int) - r.account.gapCycles]
      [.event 0 (toDelay ((cc : Int) - r.prevRespCycle)), .event 0 0] := by
    refine .event (by simp [zllRespCycle]) (.event (by rw [hdelay]; simp) ?_)
    simpa using Spanned.nil
  refine ⟨⟨⟨{ (r.account.addEvent r.prevRespCycle).addEvent cc with state := .draining }, cc⟩,
    r.chain.addChildren [.event 0 (toDelay ((cc : Int) - r.prevRespCycle)), .event 0 0]⟩,
    ?_, rfl, rfl, rfl, ?_⟩
  · rw [notifyLeave, CoreRecorder.notifyLeave, if_pos ⟨h.state, h.produced⟩]
    rfl
  · refine h.append ?_ rfl rfl rfl hlinked rfl ?_ ?_ ?_ h.now
    · simp [CycleAccount.addEvent]
    · simp
    · intro _
      exact CycleAccount.addEvent_pending
    · intro _
      exact ⟨rfl, closed_addChildren [_]⟩

theorem recordAccess_running (h : BoundLive glob cc true r.account r.chain r.zllRespCycle)
    (hresp : r.prevRespCycle ≤ cc) (hreq : cc ≤ tr.reqCycle)
    (hget : tr.isGet = true →
      tr.reqCycle ≤ tr.respCycle ∧ tr.reqCycle < r.prevRespCycle + 2 ^ 32) :
    ∃ r', r.recordAccess tr cc = some r' ∧
      r'.prevRespCycle = (if tr.isGet then tr.respCycle else r.prevRespCycle) ∧
      r'.account.gapCycles = r.account.gapCycles ∧ r'.account.state = .running ∧
      BoundLive glob cc true r'.account r'.chain r'.zllRespCycle := by
  have hstate : r.account.state = .running := h.state
  have hasserts := And.intro hresp (And.intro hreq h.produced)
  cases htype : tr.isGet with
  | false =>
    refine ⟨r, ?_, rfl, rfl, hstate, h⟩
    rw [recordAccess, CoreRecorder.recordAccess, if_pos hasserts, htype]
    rfl
  | true =>
    obtain ⟨hlat, hfits⟩ := hget htype
    have hdelay : (toDelay ((tr.reqCycle : Int) - r.prevRespCycle) : Int) =
        tr.reqCycle - r.prevRespCycle := toDelay_eq (by omega) (by omega)
    have hlinked : Spanned ((tr.respCycle : Int) - r.account.gapCycles) r.zllRespCycle
        [(r.prevRespCycle : Int) - r.account.gapCycles]
        [.event 0 (toDelay ((tr.reqCycle : Int) - r.prevRespCycle)),
          .access (tr.respCycle - tr.reqCycle)] := by
      refine .event (by simp [zllRespCycle]) (.access ?_)
      have hsum : (r.prevRespCycle : Int) - r.account.gapCycles +
          toDelay ((tr.reqCycle : Int) - r.prevRespCycle) + (tr.respCycle - tr.reqCycle : Nat) =
          tr.respCycle - r.account.gapCycles := by omega
      rw [hsum]
      exact .nil
    refine ⟨⟨⟨{ r.account.addEvent r.prevRespCycle with lastProduced := .response },
      tr.respCycle⟩, r.chain.addChildren
        [.event 0 (toDelay ((tr.reqCycle : Int) - r.prevRespCycle)),
          .access (tr.respCycle - tr.reqCycle)]⟩, ?_, rfl, rfl, hstate, ?_⟩
    · rw [recordAccess, CoreRecorder.recordAccess, if_pos hasserts, htype]
      rfl
    · refine h.append ?_ rfl rfl rfl hlinked hstate ?_ ?_ ?_ h.now
      · simp [CycleAccount.addEvent]
      · simp
      · intro hown
        cases hown
      · intro hf
        cases hf

theorem cSimStart_running (h : BoundLive glob cc true r.account r.chain r.zllRespCycle)
    (hresp : r.prevRespCycle ≤ cc) (hfits : cc < r.prevRespCycle + 2 ^ 32)
    (hglob : glob ≤ limit) (hlimit : limit ≤ cc) :
    ∃ r', r.cSimStart limit cc = some (r', cc) ∧ r'.prevRespCycle = cc ∧
      r'.account.gapCycles = r.account.gapCycles ∧ r'.account.state = .running ∧
      WeaveLive glob limit cc true r'.account r'.chain r'.zllRespCycle := by
  have hstate : r.account.state = .running := h.state
  by_cases hlt : r.prevRespCycle < cc
  · have hdelay : (toDelay ((cc : Int) - r.prevRespCycle) : Int) = cc - r.prevRespCycle :=
      toDelay_eq (by omega) (by omega)
    have hlinked : Spanned ((cc : Int) - r.account.gapCycles) r.zllRespCycle
        [(r.prevRespCycle : Int) - r.account.gapCycles, (cc : Int) - r.account.gapCycles]
        [.event 0 (toDelay ((cc : Int) - r.prevRespCycle)), .event 0 0] := by
      refine .event (by simp [zllRespCycle]) (.event (by rw [hdelay]; simp) ?_)
      simpa using Spanned.nil
    refine ⟨⟨⟨(r.account.addEvent r.prevRespCycle).addEvent cc, cc⟩, r.chain.addChildren
      [.event 0 (toDelay ((cc : Int) - r.prevRespCycle)), .event 0 0]⟩, ?_, rfl, rfl, hstate, ?_⟩
    · simp [cSimStart, CoreRecorder.cSimStart, hstate, hlimit, h.produced, hlt]
    · refine h.weave_running ?_ hstate rfl rfl rfl hlinked rfl (closed_addChildren [_])
        ?_ ?_ hglob hlimit
      · simp [CycleAccount.addEvent]
      · simp [CycleAccount.addEvent, zllRespCycle]
      · simp only [zllRespCycle, CycleAccount.addEvent]
        omega
  · obtain rfl : r.prevRespCycle = cc := by omega
    have hlinked : Spanned r.zllRespCycle r.zllRespCycle
        [(r.prevRespCycle : Int) - r.account.gapCycles] [.event 0 0] := by
      refine .event (by simp [zllRespCycle]) ?_
      simpa [zllRespCycle] using Spanned.nil
    refine ⟨⟨⟨r.account.addEvent r.prevRespCycle, r.prevRespCycle⟩,
      r.chain.addChildren [.event 0 0]⟩, ?_, rfl, rfl, hstate, ?_⟩
    · simp [cSimStart, CoreRecorder.cSimStart, hstate, hlimit, h.produced]
    · refine h.weave_running ?_ hstate rfl rfl rfl hlinked rfl (closed_addChildren [])
        ?_ ?_ hglob hlimit
      · simp [CycleAccount.addEvent]
      · simp [CycleAccount.addEvent, zllRespCycle]
      · simp only [zllRespCycle, CycleAccount.addEvent]
        omega

theorem reportEventSimulated_weave {joined : Bool}
    (h : WeaveLive glob limit cc joined r.account r.chain r.zllRespCycle)
    (hstart : r.chain.canStart startCycle = true) (hlt : startCycle < limit) :
    ∃ r', r.reportEventSimulated startCycle = some r' ∧ r'.prevRespCycle = r.prevRespCycle ∧
      r'.account.gapCycles = r.account.gapCycles ∧ r'.account.state = r.account.state ∧
      WeaveLive glob limit cc joined r'.account r'.chain r'.zllRespCycle := by
  obtain ⟨a, ha, hgap, hstate, -, hdrain, hweave⟩ := h.event hstart hlt
  refine ⟨⟨⟨a, r.prevRespCycle⟩, r.chain.eventDone startCycle a.lastOrigStartCycle⟩, ?_, rfl,
    hgap, hstate, ?_⟩
  · have hassert : ¬(r.account.lastProduced ≠ .none ∧ a.lastProduced = .none ∧
        a.state ≠ .draining) := by
      rintro ⟨-, hnone, hne⟩
      exact hne (hdrain hnone)
    simp [reportEventSimulated, CoreRecorder.simulate, CycleAccount.simulate, ha, hassert]
  · simpa [zllRespCycle, hgap] using hweave

theorem cSimEnd_weave {joined : Bool} {n : Nat}
    (h : WeaveLive glob limit cc joined r.account r.chain r.zllRespCycle)
    (hr : r.chain.release = .after n) :
    ∃ skew r', r.cSimEnd cc = some (r', cc + skew) ∧
      r'.prevRespCycle = r.prevRespCycle + skew ∧
      r'.account.gapCycles = r.account.gapCycles + skew ∧ r.account.skew cc = some skew ∧
      ((r.account.pending = [] ∧ joined = false ∧ Resting limit r'.account r'.chain) ∨
        r.account.pending ≠ [] ∧ r'.account.state = r.account.state ∧
          BoundLive limit (cc + skew) joined r'.account r'.chain r'.zllRespCycle) := by
  obtain ⟨skew, a, hskew, ha, hgap, hend⟩ := h.cSimEnd hr
  refine ⟨skew, ⟨⟨a, r.prevRespCycle + skew⟩, r.chain⟩, ?_, rfl, hgap, hskew, ?_⟩
  · simp [cSimEnd, CoreRecorder.cSimEnd, h.not_halted, hskew, ha]
  · rcases hend with hrest | ⟨hp, rfl, hbound⟩
    · exact .inl hrest
    · refine .inr ⟨hp, rfl, ?_⟩
      have hzll : ChainedCoreRecorder.zllRespCycle
          ⟨⟨r.account.addGap skew, r.prevRespCycle + skew⟩, r.chain⟩ = r.zllRespCycle := by
        simp only [zllRespCycle, CycleAccount.addGap]
        omega
      rw [hzll]
      exact hbound

end ChainedCoreRecorder

namespace TimingRecorderRun

variable {phaseLength : Nat} {s s' : TimingRecorderRun} {op : RecorderOp}

/-- No delay gets longer than its 32 bits, and no event is simulated at the limit itself. -/
def Fits (phaseLength : Nat) (s : TimingRecorderRun) : RecorderOp → Prop
  | .leave => s.curCycle < s.cRec.prevRespCycle + 2 ^ 32
  | .record tr _ => tr.isGet = true → tr.reqCycle < s.cRec.prevRespCycle + 2 ^ 32
  | .cSimStart => s.joined = true → s.curCycle < s.cRec.prevRespCycle + 2 ^ 32
  | .event startCycle => startCycle < s.nextPhaseCycle phaseLength
  | _ => True

abbrev Reachable (phaseLength : Nat) : TimingRecorderRun → Prop :=
  RecorderRun.Reachable (step phaseLength)
    (RecorderRun.Allowed phaseLength ChainedCoreRecorder.chain 0) (Fits phaseLength) (.init .init)

inductive Clocked (phaseLength : Nat) (s : TimingRecorderRun) : Prop where
  | resting (hj : s.joined = false)
      (h : Resting s.globPhaseCycles s.cRec.account s.cRec.chain)
  | bound (hw : s.weaving = false) (hresp : s.cRec.prevRespCycle ≤ s.curCycle)
      (h : BoundLive s.globPhaseCycles s.curCycle s.joined s.cRec.account s.cRec.chain
        s.cRec.zllRespCycle)
  | weave (hw : s.weaving = true) (hresp : s.cRec.prevRespCycle ≤ s.curCycle)
      (h : WeaveLive s.globPhaseCycles (s.nextPhaseCycle phaseLength) s.curCycle s.joined
        s.cRec.account s.cRec.chain s.cRec.zllRespCycle)

theorem Clocked.sorted (h : Clocked phaseLength s) :
    s.cRec.chain.startSlacks.Pairwise (· ≥ ·) := by
  cases h with
  | resting _ h => exact h.sorted
  | bound _ _ h => exact h.live.sorted
  | weave _ _ h => exact h.live.sorted

theorem init_clocked : Clocked phaseLength (.init .init) :=
  .resting rfl ⟨rfl, rfl, rfl, rfl, Nat.le_refl 0, List.Pairwise.nil⟩

/-- Only a core in the bound phase joins, leaves, goes on or accesses memory. -/
theorem Clocked.bound_of_joined (h : Clocked phaseLength s) (hw : s.weaving = false)
    (hj : s.joined = true) :
    s.cRec.prevRespCycle ≤ s.curCycle ∧
      BoundLive s.globPhaseCycles s.curCycle true s.cRec.account s.cRec.chain
        s.cRec.zllRespCycle := by
  cases h with
  | resting hj' _ =>
    rw [hj] at hj'
    cases hj'
  | bound _ hresp h =>
    rw [hj] at h
    exact ⟨hresp, h⟩
  | weave hw' _ _ =>
    rw [hw] at hw'
    cases hw'

theorem step_clocked (hphase : 0 < phaseLength) (h : Clocked phaseLength s)
    (hop : s.Allowed phaseLength ChainedCoreRecorder.chain 0 op) (hfits : Fits phaseLength s op) :
    ∃ s', step phaseLength s op = some s' ∧ Clocked phaseLength s' ∧
      ClockStep op s.curCycle s.cRec.account s'.cRec.account := by
  have hglob : s.globPhaseCycles ≤ s.nextPhaseCycle phaseLength := Nat.le_add_right _ _
  cases op with
  | join =>
    obtain ⟨hw, hj⟩ := hop
    cases h with
    | resting _ h =>
      obtain ⟨r, hr, hresp, hstate, hbound⟩ := ChainedCoreRecorder.notifyJoin_halted h
      refine ⟨_, Option.map_eq_some_iff.mpr ⟨_, hr, rfl⟩, .bound hw hresp.le hbound, ?_⟩
      constructor
      · exact .inl ⟨h.state, rfl⟩
      · intro hf
        cases hf
      · intro hs
        rw [h.state] at hs
        cases hs
    | bound _ hresp h =>
      rw [hj] at h
      obtain ⟨r, hr, hresp', hgap, hstate, hbound⟩ := ChainedCoreRecorder.notifyJoin_draining h
      refine ⟨_, Option.map_eq_some_iff.mpr ⟨_, hr, rfl⟩, .bound hw (hresp'.le.trans hresp) hbound,
        .of_eq (by simp) hgap ?_⟩
      intro _
      simp [hstate]
    | weave hw' _ _ =>
      rw [hw] at hw'
      cases hw'
  | leave =>
    obtain ⟨hw, hj⟩ := hop
    obtain ⟨hresp, hb⟩ := h.bound_of_joined hw hj
    obtain ⟨r, hr, hresp', hgap, hstate, hbound⟩ :=
      ChainedCoreRecorder.notifyLeave_running hb hresp hfits
    refine ⟨_, Option.map_eq_some_iff.mpr ⟨_, hr, rfl⟩, .bound hw hresp'.le hbound, .of_eq (by simp) hgap ?_⟩
    intro _
    simp [hstate]
  | advance cycles =>
    obtain ⟨hw, hj⟩ := hop
    obtain ⟨hresp, hb⟩ := h.bound_of_joined hw hj
    refine ⟨_, rfl, .bound hw (hresp.trans (Nat.le_add_right _ _)) ?_, .of_eq (by simp) rfl id⟩
    rw [hj]
    exact hb.congr (Nat.le_add_right _ _)
  | record tr respCycle =>
    obtain ⟨hw, hj, hreq, hcc, hget⟩ := hop
    obtain ⟨hresp, hb⟩ := h.bound_of_joined hw hj
    obtain ⟨r, hr, hresp', hgap, hstate, hbound⟩ := ChainedCoreRecorder.recordAccess_running hb
      hresp hreq fun htype => ⟨(hget htype).1, hfits htype⟩
    refine ⟨_, Option.map_eq_some_iff.mpr ⟨_, hr, rfl⟩, .bound hw ?_ ?_, .of_eq (by simp) hgap ?_⟩
    · simp only [hresp']
      split
      · next htype => exact (hget htype).2
      · exact hresp.trans hcc
    · simp only [hj]
      exact hbound.congr hcc
    · intro _
      simp [hstate]
  | cSimStart =>
    obtain ⟨hw, hcc⟩ := hop
    cases h with
    | resting hj h =>
      have hr : s.cRec.cSimStart (s.nextPhaseCycle phaseLength) s.curCycle =
          some (s.cRec, s.curCycle) := by
        simp [ChainedCoreRecorder.cSimStart, CoreRecorder.cSimStart, h.state]
      exact ⟨_, Option.map_eq_some_iff.mpr ⟨_, hr, rfl⟩, .resting hj h, .of_eq (by simp) rfl id⟩
    | bound _ hresp h =>
      cases hj : s.joined with
      | true =>
        rw [hj] at h
        obtain ⟨r, hr, hresp', hgap, hstate, hweave⟩ :=
          ChainedCoreRecorder.cSimStart_running h hresp (hfits hj) hglob (hcc hj)
        refine ⟨_, Option.map_eq_some_iff.mpr ⟨_, hr, rfl⟩, .weave rfl hresp'.le ?_, .of_eq (by simp) hgap ?_⟩
        · simp only [hj]
          exact hweave
        · intro _
          simp [hstate]
      | false =>
        rw [hj] at h
        have hstate : s.cRec.account.state = .draining := h.state
        have hr : s.cRec.cSimStart (s.nextPhaseCycle phaseLength) s.curCycle =
            some (s.cRec, max s.curCycle (s.nextPhaseCycle phaseLength)) := by
          simp [ChainedCoreRecorder.cSimStart, CoreRecorder.cSimStart, hstate]
        refine ⟨_, Option.map_eq_some_iff.mpr ⟨_, hr, rfl⟩,
          .weave rfl (hresp.trans (Nat.le_max_left _ _)) ?_, .of_eq (by simp) rfl id⟩
        simp only [hj]
        exact h.weave_draining hglob (Nat.le_max_right _ _)
    | weave hw' _ _ =>
      rw [hw] at hw'
      cases hw'
  | event startCycle =>
    obtain ⟨hw, hstart, -⟩ := hop
    cases h with
    | resting _ h =>
      rw [h.canStart] at hstart
      cases hstart
    | bound hw' _ _ =>
      rw [hw] at hw'
      cases hw'
    | weave _ hresp h =>
      obtain ⟨r, hr, hresp', hgap, hstate, hweave⟩ :=
        ChainedCoreRecorder.reportEventSimulated_weave h hstart hfits
      refine ⟨_, Option.map_eq_some_iff.mpr ⟨_, hr, rfl⟩, .weave hw (hresp'.le.trans hresp) hweave,
        .of_eq (by simp) hgap ?_⟩
      intro hs
      simpa [hstate] using hs
  | access startCycle endCycle =>
    obtain ⟨hw, haccess⟩ := hop
    cases h with
    | resting _ h =>
      rw [h.canAccess] at haccess
      cases haccess
    | bound hw' _ _ =>
      rw [hw] at hw'
      cases hw'
    | weave _ hresp h =>
      exact ⟨_, rfl, .weave hw hresp (h.access haccess), .of_eq (by simp) rfl id⟩
  | response _ => exact ⟨s, rfl, h, .of_eq (by simp) rfl id⟩
  | cSimEnd =>
    obtain ⟨hw, hqueued⟩ := hop
    cases h with
    | resting hj h =>
      have hr : s.cRec.cSimEnd s.curCycle = some (s.cRec, s.curCycle) := by
        simp [ChainedCoreRecorder.cSimEnd, CoreRecorder.cSimEnd, h.state]
      refine ⟨_, Option.map_eq_some_iff.mpr ⟨_, hr, rfl⟩, .resting hj (h.mono hglob), ?_⟩
      constructor
      · exact .inr (le_refl _)
      · intro _ hs
        exact absurd h.state hs
      · intro hs
        rw [h.state] at hs
        cases hs
    | bound hw' _ _ =>
      rw [hw] at hw'
      cases hw'
    | weave _ hresp h =>
      obtain ⟨n, hn⟩ := h.release_after hqueued (Nat.lt_add_of_pos_right hphase)
      obtain ⟨skew, r, hr, hresp', hgap, hskew, hend⟩ := ChainedCoreRecorder.cSimEnd_weave h hn
      have hle : r.prevRespCycle ≤ s.curCycle + skew := by omega
      refine ⟨_, Option.map_eq_some_iff.mpr ⟨_, hr, rfl⟩, ?_, ?_⟩
      · rcases hend with ⟨_, hj, hrest⟩ | ⟨_, _, hbound⟩
        · exact .resting hj hrest
        · exact .bound rfl hle hbound
      · constructor
        · exact .inr (by simp [hgap])
        · intro _ _
          exact ⟨skew, hskew, hgap⟩
        · intro _
          rcases hend with ⟨hp, _, hrest⟩ | ⟨hp, hstate, hbound⟩
          · simp [hrest.state, hp]
          · simp [hp, hstate, h.not_halted]

theorem Reachable.clocked (hphase : 0 < phaseLength) (h : Reachable phaseLength s) :
    Clocked phaseLength s := by
  refine RecorderRun.Reachable.invariant h init_clocked ?_
  intro s op hs hop hfits
  obtain ⟨s', hstep, hs', -⟩ := step_clocked hphase hs hop hfits
  exact ⟨s', hstep, hs'⟩

end TimingRecorderRun

end ZSim
