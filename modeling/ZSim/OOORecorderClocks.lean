import ZSim.RecorderClocks

/-! The clocks of the bound and weave phases over the runs of the recorder of an out-of-order
core, whose issue events also wait for responses. -/

namespace ZSim

namespace ChainedOOOCoreRecorder

variable {r : ChainedOOOCoreRecorder} {glob limit cc ev startCycle : Nat} {joined : Bool}
  {e last maxCycle zllCycle : Int} {resps : List FutureResponse} {tr : TimingRecord}

/-- The delays of an issue event fit in their 32 bits. -/
def IssueFits (r : ChainedOOOCoreRecorder) (evCycle : Nat) : Prop :=
  ∀ last ∈ r.account.pending.getLast?, ∀ maxCycle ∈ linkResponses last
    (r.futureResponses.takeWhile (·.zllStartCycle < (evCycle : Int) - r.account.gapCycles)) 0,
    preDelay maxCycle ((evCycle : Int) - r.account.gapCycles) < 2 ^ 32 ∧
      (evCycle : Int) - r.account.gapCycles - last -
        preDelay maxCycle ((evCycle : Int) - r.account.gapCycles) < 2 ^ 32

/-- The responses of the heap come in order, so that the asserts about them hold. -/
theorem linkResponses_isSome (hsorted : resps.Pairwise (·.zllStartCycle ≤ ·.zllStartCycle))
    (hmax : ∀ resp ∈ resps, maxCycle ≤ resp.zllStartCycle)
    (hlast : ∀ resp ∈ resps, last ≤ resp.zllStartCycle) :
    ∃ m, linkResponses last resps maxCycle = some m ∧ (m = maxCycle ∨ last ≤ m) := by
  induction resps generalizing maxCycle with
  | nil => exact ⟨maxCycle, rfl, .inl rfl⟩
  | cons resp resps ih =>
    obtain ⟨hfirst, hrest⟩ := List.pairwise_cons.mp hsorted
    have hl : last ≤ resp.zllStartCycle := hlast resp List.mem_cons_self
    have hlast' : ∀ r ∈ resps, last ≤ r.zllStartCycle := fun r hr =>
      hlast r (List.mem_cons_of_mem _ hr)
    cases hev : resp.ev with
    | none =>
      obtain ⟨m, hm, hle⟩ := ih hrest (fun r hr => hmax r (List.mem_cons_of_mem _ hr)) hlast'
      exact ⟨m, by rw [linkResponses, hev]; exact hm, hle⟩
    | some n =>
      obtain ⟨m, hm, hle⟩ := ih hrest hfirst hlast'
      refine ⟨m, ?_, ?_⟩
      · simp only [linkResponses, hev]
        rw [if_pos ⟨hmax resp List.mem_cons_self, hl⟩]
        exact hm
      · rcases hle with rfl | hle
        · exact .inr hl
        · exact .inr hle

theorem preDelay_bounds (hzll : last ≤ zllCycle) (hm : maxCycle = 0 ∨ last ≤ maxCycle) :
    0 ≤ preDelay maxCycle zllCycle ∧ preDelay maxCycle zllCycle ≤ zllCycle - last := by
  rw [preDelay]
  split
  · omega
  · omega

theorem le_of_mem_dropWhile (hsorted : resps.Pairwise (·.zllStartCycle ≤ ·.zllStartCycle)) :
    ∀ resp ∈ resps.dropWhile (·.zllStartCycle < zllCycle), zllCycle ≤ resp.zllStartCycle := by
  induction resps with
  | nil => simp
  | cons resp resps ih =>
    obtain ⟨hfirst, hrest⟩ := List.pairwise_cons.mp hsorted
    by_cases hlt : resp.zllStartCycle < zllCycle
    · simpa [List.dropWhile_cons, hlt] using ih hrest
    · rw [List.dropWhile_cons, if_neg (by simpa using hlt)]
      intro r hr
      rcases List.mem_cons.mp hr with rfl | hr
      · exact Int.not_lt.mp hlt
      · exact (Int.not_lt.mp hlt).trans (hfirst r hr)

/-- The issue events of a recorder up to `e` in the clock without gaps, and the responses after
it. -/
structure Issued (cc : Nat) (r : ChainedOOOCoreRecorder) (e : Int) : Prop where
  last : r.account.pending ≠ [] → r.account.pending.getLast? = some e
  own : r.account.lastProduced ≠ .response
  closed : r.chain.Closed
  nonneg : 0 ≤ e
  le : e + r.account.gapCycles ≤ cc
  sorted : r.futureResponses.Pairwise (·.zllStartCycle ≤ ·.zllStartCycle)
  later : ∀ resp ∈ r.futureResponses, e ≤ resp.zllStartCycle

theorem Issued.mono {cc' : Nat} (h : Issued cc r e) (hcc : cc ≤ cc') : Issued cc' r e := by
  have hle : (cc : Int) ≤ cc' := by omega
  exact ⟨h.last, h.own, h.closed, h.nonneg, h.le.trans hle, h.sorted, h.later⟩

theorem Issued.pending (h : Issued cc r e) (hb : BoundLive glob cc joined r.account r.chain e) :
    r.account.pending.getLast? = some e ∧ r.account.lastProduced = .own := by
  have hown : r.account.lastProduced = .own := by
    cases hl : r.account.lastProduced with
    | none => exact absurd hl hb.produced
    | own => rfl
    | response => exact absurd hl h.own
  exact ⟨h.last (hb.own hown), hown⟩

/-- The issue event added at a cycle, on a recorder whose account is `a` afterwards. -/
def issued (r : ChainedOOOCoreRecorder) (evCycle delay : Nat) (a : CycleAccount) :
    ChainedOOOCoreRecorder :=
  { r with
    account := a
    futureResponses := r.futureResponses.dropWhile
      (·.zllStartCycle < (evCycle : Int) - r.account.gapCycles)
    chain := r.chain.addChildren [.event delay 0] }

/-- The two delays of an issue event cover all of the cycles since the one before. -/
theorem linkIssueEvent_spec (h : Issued cc r e) (hlast : r.account.pending.getLast? = some e)
    (hle : e ≤ (ev : Int) - r.account.gapCycles) (hfits : r.IssueFits ev) :
    ∃ delay : Nat, r.linkIssueEvent ev = some (r.issued ev delay r.account) ∧
      (ev : Int) - r.account.gapCycles = e + delay := by
  have hprior : ∀ resp ∈ r.futureResponses.takeWhile
      (·.zllStartCycle < (ev : Int) - r.account.gapCycles), e ≤ resp.zllStartCycle :=
    fun resp hresp => h.later resp ((List.takeWhile_sublist _).mem hresp)
  obtain ⟨m, hm, hmax⟩ := linkResponses_isSome
    (h.sorted.sublist (List.takeWhile_sublist _))
    (fun resp hresp => h.nonneg.trans (hprior resp hresp)) hprior
  obtain ⟨hpre, hissue⟩ := hfits e hlast m hm
  obtain ⟨hnonneg, hbound⟩ := preDelay_bounds hle hmax
  have hpre' := toDelay_eq hnonneg hpre
  have hissue' : (toDelay ((ev : Int) - r.account.gapCycles - e -
      toDelay (preDelay m ((ev : Int) - r.account.gapCycles))) : Int) =
      (ev : Int) - r.account.gapCycles - e - preDelay m ((ev : Int) - r.account.gapCycles) := by
    rw [hpre']
    exact toDelay_eq (by omega) hissue
  refine ⟨toDelay ((ev : Int) - r.account.gapCycles - e -
      toDelay (preDelay m ((ev : Int) - r.account.gapCycles))) +
      toDelay (preDelay m ((ev : Int) - r.account.gapCycles)), ?_, ?_⟩
  · rw [linkIssueEvent, hlast]
    simp only [Option.bind_some, hm, Option.map_some]
    rfl
  · push_cast
    rw [hissue', hpre']
    ring

theorem issued_issued {a : CycleAccount} {delay : Nat} (h : Issued cc r e)
    (hle : e ≤ (ev : Int) - r.account.gapCycles)
    (hp : a.pending = r.account.pending ++ [(ev : Int) - r.account.gapCycles])
    (hown : a.lastProduced = .own) (hgap : a.gapCycles = r.account.gapCycles) (hcc : ev ≤ cc) :
    Issued cc (r.issued ev delay a) ((ev : Int) - r.account.gapCycles) := by
  have hsub : (r.issued ev delay a).futureResponses.Sublist r.futureResponses :=
    List.dropWhile_sublist _
  constructor
  · intro _
    simp [issued, hp]
  · simp [issued, hown]
  · exact closed_addChildren []
  · exact h.nonneg.trans hle
  · simp only [issued, hgap]
    omega
  · exact h.sorted.sublist hsub
  · exact le_of_mem_dropWhile h.sorted

theorem linked_issue {delay : Nat} (h : zllCycle = e + delay) :
    Spanned zllCycle e [zllCycle] [.event delay 0] := by
  refine .event h.le ?_
  simpa using Spanned.nil

/-- `addIssueEvent` at a cycle that has not passed the last issue event. -/
theorem addIssueEvent_bound (ev : Nat) (h : Issued cc r e)
    (hb : BoundLive glob cc joined r.account r.chain e)
    (hle : e ≤ (ev : Int) - r.account.gapCycles) :
    r.toOOOCoreRecorder.addIssueEvent ev = some ⟨r.account.addEvent ev⟩ := by
  obtain ⟨hlast, hown⟩ := h.pending hb
  rw [OOOCoreRecorder.addIssueEvent, if_pos]
  refine ⟨by simp [hown], ?_⟩
  intro z hz
  rw [hlast] at hz
  cases hz
  exact hle

/-- The recorder after an issue event at the current cycle, whether the core runs then or not. -/
theorem issue_bound (joined' : Bool) {a : CycleAccount} (h : Issued cc r e)
    (hb : BoundLive glob cc joined r.account r.chain e) (hfits : r.IssueFits cc)
    (ha : a = { r.account.addEvent cc with state := if joined' then .running else .draining }) :
    ∃ delay e', r.linkIssueEvent cc = some (r.issued cc delay r.account) ∧
      BoundLive glob cc joined' a (r.issued cc delay a).chain e' ∧
      Issued cc (r.issued cc delay a) e' ∧ e' = (cc : Int) - r.account.gapCycles := by
  have hle : e ≤ (cc : Int) - r.account.gapCycles := by
    have hle := h.le
    omega
  obtain ⟨hlast, -⟩ := h.pending hb
  obtain ⟨delay, hlink, hdelay⟩ := linkIssueEvent_spec h hlast hle hfits
  subst ha
  refine ⟨delay, _, hlink, ?_, issued_issued h hle rfl rfl rfl (Nat.le_refl cc), rfl⟩
  refine hb.append rfl rfl rfl rfl (linked_issue hdelay) rfl ?_ ?_ ?_ hb.now
  · simp
  · intro _
    exact CycleAccount.addEvent_pending
  · intro _
    exact ⟨rfl, closed_addChildren []⟩

theorem notifyJoin_halted (h : Resting glob r.account r.chain) (hresp : r.futureResponses = []) :
    ∃ r', r.notifyJoin glob cc = some (r', glob) ∧ r'.account.state = .running ∧
      BoundLive glob (max cc glob) true r'.account r'.chain glob ∧
      Issued (max cc glob) r' glob := by
  obtain ⟨a, ha, hgap, hp, hstate, hown, hbound⟩ := h.join (Nat.le_max_right cc glob)
  refine ⟨{ r with account := a, chain := .queue glob }, ?_, hstate, hbound, ?_⟩
  · simp [notifyJoin, OOOCoreRecorder.notifyJoin, h.state, ha]
  · constructor
    · intro _
      simp [hp]
    · simp [hown]
    · intro latency hl
      simp [EventChain.queue] at hl
    · exact Int.natCast_nonneg glob
    · simp [hgap]
    · simp [hresp]
    · simp [hresp]

theorem notifyJoin_draining (h : Issued cc r e)
    (hb : BoundLive glob cc false r.account r.chain e) (hfits : r.IssueFits cc) :
    ∃ r' e', r.notifyJoin glob cc = some (r', cc) ∧
      r'.account.gapCycles = r.account.gapCycles ∧ r'.account.state = .running ∧
      BoundLive glob cc true r'.account r'.chain e' ∧ Issued cc r' e' := by
  have hle := h.le
  have hstate : r.account.state = .draining := hb.state
  have hadd := addIssueEvent_bound cc h hb (by omega)
  obtain ⟨delay, e', hlink, hbound, hissued, -⟩ := issue_bound true h hb hfits rfl
  refine ⟨r.issued cc delay { r.account.addEvent cc with state := .running }, e', ?_, rfl, rfl,
    hbound, hissued⟩
  simp [notifyJoin, OOOCoreRecorder.notifyJoin, hstate, hb.now, hadd, hlink, issued]

theorem notifyLeave_running (h : Issued cc r e)
    (hb : BoundLive glob cc true r.account r.chain e) (hfits : r.IssueFits cc) :
    ∃ r' e', r.notifyLeave cc = some r' ∧
      r'.account.gapCycles = r.account.gapCycles ∧ r'.account.state = .draining ∧
      BoundLive glob cc false r'.account r'.chain e' ∧ Issued cc r' e' := by
  have hle := h.le
  have hstate : r.account.state = .running := hb.state
  obtain ⟨hlast, hown⟩ := h.pending hb
  have hadd : OOOCoreRecorder.addIssueEvent ⟨{ r.account with state := .draining }⟩ cc =
      some ⟨{ r.account.addEvent cc with state := .draining }⟩ := by
    rw [OOOCoreRecorder.addIssueEvent, if_pos]
    · rfl
    · refine ⟨by simp [hown], ?_⟩
      intro z hz
      rw [hlast] at hz
      cases hz
      show e ≤ (cc : Int) - r.account.gapCycles
      omega
  obtain ⟨delay, e', hlink, hbound, hissued, -⟩ := issue_bound false h hb hfits rfl
  refine ⟨r.issued cc delay { r.account.addEvent cc with state := .draining }, e', ?_, rfl, rfl,
    hbound, hissued⟩
  simp [notifyLeave, OOOCoreRecorder.notifyLeave, hstate, hadd, hlink, issued]

theorem pushResponse_issued {zll : Int} (h : Issued cc r e) (hle : e ≤ zll) :
    Issued cc (r.pushResponse zll) e := by
  have hperm := List.perm_orderedInsert
    (fun e₁ e₂ : FutureResponse => e₁.zllStartCycle ≤ e₂.zllStartCycle)
    ⟨zll, some r.curId⟩ r.futureResponses
  constructor
  · exact h.last
  · exact h.own
  · exact h.closed
  · exact h.nonneg
  · exact h.le
  · have : Std.Total fun e₁ e₂ : FutureResponse => e₁.zllStartCycle ≤ e₂.zllStartCycle :=
      ⟨fun _ _ => le_total _ _⟩
    have : IsTrans FutureResponse fun e₁ e₂ => e₁.zllStartCycle ≤ e₂.zllStartCycle :=
      ⟨fun _ _ _ => le_trans⟩
    exact h.sorted.orderedInsert _ _
  · intro resp hresp
    rcases List.mem_cons.mp (hperm.mem_iff.mp hresp) with rfl | hresp
    · exact hle
    · exact h.later resp hresp

theorem recordAccess_running {respCycle : Nat} (h : Issued cc r e)
    (hb : BoundLive glob cc true r.account r.chain e) (hcc : cc ≤ respCycle)
    (hget : tr.isGet = true → tr.respCycle ≤ respCycle ∧ r.IssueFits cc) :
    ∃ r' e', r.recordAccess tr cc respCycle = some r' ∧
      r'.account.gapCycles = r.account.gapCycles ∧ r'.account.state = .running ∧
      BoundLive glob cc true r'.account r'.chain e' ∧ Issued cc r' e' := by
  have hstate : r.account.state = .running := hb.state
  cases htype : tr.isGet with
  | false =>
    refine ⟨r, e, ?_, rfl, hstate, hb, h⟩
    simp [recordAccess, htype]
  | true =>
    obtain ⟨hresp, hfits⟩ := hget htype
    have hle := h.le
    have hadd := addIssueEvent_bound cc h hb (by omega)
    have ha : r.account.addEvent cc = { r.account.addEvent cc with
        state := if true then RecorderState.running else RecorderState.draining } := by
      simp [CycleAccount.addEvent, hstate]
    obtain ⟨delay, e', hlink, hbound, hissued, he'⟩ := issue_bound true h hb hfits ha
    refine ⟨(r.issued cc delay (r.account.addEvent cc)).pushResponse
      (respCycle - r.account.gapCycles), e', ?_, rfl, hstate, hbound,
      pushResponse_issued hissued (by omega)⟩
    simp [recordAccess, OOOCoreRecorder.recordAccess, htype, hadd, hlink, hresp, issued,
      CycleAccount.addEvent]

/-- The phase of a core that runs is tapered at its end, unless an event after that is there. -/
theorem cSimStart_running (h : Issued cc r e)
    (hb : BoundLive glob cc true r.account r.chain e) (hglob : glob ≤ limit) (hlimit : limit < cc)
    (hfits : e < (limit : Int) - r.account.gapCycles → r.IssueFits limit) :
    ∃ r' e', r.cSimStart limit cc = some (r', cc) ∧
      r'.account.gapCycles = r.account.gapCycles ∧ r'.account.state = .running ∧
      WeaveLive glob limit cc true r'.account r'.chain e' ∧ Issued cc r' e' := by
  have hle := h.le
  have hstate : r.account.state = .running := hb.state
  obtain ⟨hlast, hown⟩ := h.pending hb
  have hzll : e ≤ (cc : Int) - r.account.gapCycles := by omega
  by_cases hlt : e < (limit : Int) - r.account.gapCycles
  · have hadd := addIssueEvent_bound limit h hb hlt.le
    obtain ⟨delay, hlink, hdelay⟩ := linkIssueEvent_spec h hlast hlt.le (hfits hlt)
    refine ⟨r.issued limit delay (r.account.addEvent limit),
      (limit : Int) - r.account.gapCycles, ?_, rfl, hstate, ?_,
      issued_issued h hlt.le rfl rfl rfl hlimit.le⟩
    · simp [cSimStart, OOOCoreRecorder.cSimStart, hstate, hlast, hlimit, hzll, hlt, hadd, hlink,
        issued]
    · refine hb.weave_running rfl hstate rfl rfl rfl (linked_issue hdelay) rfl
        (closed_addChildren []) ?_ ?_ hglob hlimit.le
      · simp [issued, CycleAccount.addEvent]
      · omega
  · refine ⟨r, e, ?_, rfl, hstate, ?_, h⟩
    · simp [cSimStart, OOOCoreRecorder.cSimStart, hstate, hlast, hlimit, hzll, hlt]
    · have hnil : r.chain.addChildren [] = r.chain := by simp [EventChain.addChildren]
      have hweave : WeaveLive glob limit cc true r.account (r.chain.addChildren []) e :=
        hb.weave_running (List.append_nil _).symm hstate rfl rfl rfl .nil hown
          (hnil.symm ▸ h.closed) hlast (by omega) hglob hlimit.le
      rwa [hnil] at hweave

theorem cSimStart_draining (h : Issued cc r e)
    (hb : BoundLive glob cc false r.account r.chain e) (hglob : glob ≤ limit) :
    r.cSimStart limit cc = some ({ r with futureResponses := [] }, max cc limit) ∧
      WeaveLive glob limit (max cc limit) false r.account r.chain e ∧
      Issued (max cc limit) { r with futureResponses := [] } e := by
  have hstate : r.account.state = .draining := hb.state
  refine ⟨?_, hb.weave_draining hglob (Nat.le_max_right _ _), ?_⟩
  · simp [cSimStart, OOOCoreRecorder.cSimStart, hstate]
  · have hm := h.mono (Nat.le_max_left cc limit)
    exact ⟨hm.last, hm.own, hm.closed, hm.nonneg, hm.le, List.Pairwise.nil, by simp⟩

theorem reportIssueEventSimulated_weave (h : Issued cc r e)
    (hb : WeaveLive glob limit cc joined r.account r.chain e)
    (hstart : r.chain.canStart startCycle = true) (hlt : startCycle < limit) :
    ∃ r', r.reportIssueEventSimulated startCycle = some r' ∧
      r'.futureResponses = r.futureResponses ∧
      r'.account.gapCycles = r.account.gapCycles ∧ r'.account.state = r.account.state ∧
      WeaveLive glob limit cc joined r'.account r'.chain e ∧ Issued cc r' e := by
  obtain ⟨a, ha, hgap, hstate, htail, -, hweave⟩ := hb.event hstart hlt
  refine ⟨{ r with
    account := a
    chain := r.chain.eventDone startCycle a.lastOrigStartCycle }, ?_, rfl, hgap, hstate, hweave,
    ?_⟩
  · simp [reportIssueEventSimulated, OOOCoreRecorder.simulate, CycleAccount.simulate, ha]
  · constructor
    · intro hp
      have hne : r.account.pending ≠ [] := by
        intro hnil
        rw [hnil] at htail
        exact hp htail
      obtain ⟨zll, hzll⟩ := Option.isSome_iff_exists.mp (List.getLast?_isSome.mpr hp)
      rw [htail] at hzll
      have hlast := (h.last hne).symm.trans (getLast?_of_tail hzll)
      rw [htail, hzll]
      exact hlast.symm
    · rw [hweave.produced]
      split
      · simp
      · simp
    · exact hweave.closed
    · exact h.nonneg
    · simpa [hgap] using h.le
    · exact h.sorted
    · exact h.later

theorem cSimEnd_weave {n : Nat} (h : Issued cc r e)
    (hb : WeaveLive glob limit cc joined r.account r.chain e)
    (hr : r.chain.release = .after n) (hresp : joined = false → r.futureResponses = []) :
    ∃ skew r', r.cSimEnd cc = some (r', cc + skew) ∧
      r'.account.gapCycles = r.account.gapCycles + skew ∧ r.account.skew cc = some skew ∧
      ((r.account.pending = [] ∧ joined = false ∧ r'.futureResponses = [] ∧
          Resting limit r'.account r'.chain) ∨
        r.account.pending ≠ [] ∧ r'.account.state = r.account.state ∧
          BoundLive limit (cc + skew) joined r'.account r'.chain e ∧ Issued (cc + skew) r' e) := by
  obtain ⟨skew, a, hskew, ha, hgap, hend⟩ := hb.cSimEnd hr
  have hempty : a.state = .halted → r.futureResponses = [] := by
    intro hs
    rcases hend with ⟨-, hj, -⟩ | ⟨-, rfl, -⟩
    · exact hresp hj
    · exact absurd hs hb.not_halted
  refine ⟨skew, { r with
    account := a
    futureResponses := r.futureResponses.map fun resp =>
      { resp with ev := resp.ev.filter (· ∉ r.simulated) } }, ?_, hgap, hskew, ?_⟩
  · simp [cSimEnd, OOOCoreRecorder.cSimEnd, hb.not_halted, hskew, ha]
    exact hempty
  · rcases hend with ⟨hp, hj, hrest⟩ | ⟨hp, rfl, hbound⟩
    · exact .inl ⟨hp, hj, by simp [hresp hj], hrest⟩
    · refine .inr ⟨hp, rfl, hbound, ?_⟩
      constructor
      · exact h.last
      · exact h.own
      · exact h.closed
      · exact h.nonneg
      · have hle := h.le
        simp only [hgap]
        push_cast
        omega
      · exact List.pairwise_map.mpr h.sorted
      · intro resp hresp
        obtain ⟨resp', hmem, rfl⟩ := List.mem_map.mp hresp
        exact h.later resp' hmem

end ChainedOOOCoreRecorder

namespace OOORecorderRun

variable {phaseLength : Nat} {s s' : OOORecorderRun} {op : RecorderOp}

/-- No delay gets longer than its 32 bits, and no event is simulated at the limit itself. -/
def Fits (phaseLength : Nat) (s : OOORecorderRun) : RecorderOp → Prop
  | .join => s.cRec.account.state = .draining → s.cRec.IssueFits s.curCycle
  | .leave => s.cRec.IssueFits s.curCycle
  | .record tr _ => tr.isGet = true → s.cRec.IssueFits s.curCycle
  | .cSimStart => s.joined = true → ∀ last ∈ s.cRec.account.pending.getLast?,
      last < (s.nextPhaseCycle phaseLength : Int) - s.cRec.account.gapCycles →
      s.cRec.IssueFits (s.nextPhaseCycle phaseLength)
  | .event startCycle => startCycle < s.nextPhaseCycle phaseLength
  | _ => True

abbrev Reachable (phaseLength : Nat) : OOORecorderRun → Prop :=
  RecorderRun.Reachable (step phaseLength)
    (RecorderRun.Allowed phaseLength ChainedOOOCoreRecorder.chain 1) (Fits phaseLength)
    (.init .init)

inductive Clocked (phaseLength : Nat) (s : OOORecorderRun) : Prop where
  | resting (hj : s.joined = false) (hresp : s.cRec.futureResponses = [])
      (h : Resting s.globPhaseCycles s.cRec.account s.cRec.chain)
  | bound (hw : s.weaving = false) (e : Int)
      (h : BoundLive s.globPhaseCycles s.curCycle s.joined s.cRec.account s.cRec.chain e)
      (hi : s.cRec.Issued s.curCycle e)
  | weave (hw : s.weaving = true) (e : Int)
      (h : WeaveLive s.globPhaseCycles (s.nextPhaseCycle phaseLength) s.curCycle s.joined
        s.cRec.account s.cRec.chain e)
      (hi : s.cRec.Issued s.curCycle e)
      (hresp : s.joined = false → s.cRec.futureResponses = [])

theorem Clocked.sorted (h : Clocked phaseLength s) :
    s.cRec.chain.startSlacks.Pairwise (· ≥ ·) := by
  cases h with
  | resting _ _ h => exact h.sorted
  | bound _ _ h _ => exact h.live.sorted
  | weave _ _ h _ _ => exact h.live.sorted

theorem init_clocked : Clocked phaseLength (.init .init) :=
  .resting rfl rfl ⟨rfl, rfl, rfl, rfl, Nat.le_refl 0, List.Pairwise.nil⟩

/-- Only a core in the bound phase joins, leaves, goes on or accesses memory. -/
theorem Clocked.bound_of_joined (h : Clocked phaseLength s) (hw : s.weaving = false)
    (hj : s.joined = true) :
    ∃ e, BoundLive s.globPhaseCycles s.curCycle true s.cRec.account s.cRec.chain e ∧
      s.cRec.Issued s.curCycle e := by
  cases h with
  | resting hj' _ _ =>
    rw [hj] at hj'
    cases hj'
  | bound _ e h hi =>
    rw [hj] at h
    exact ⟨e, h, hi⟩
  | weave hw' _ _ _ _ =>
    rw [hw] at hw'
    cases hw'

theorem step_clocked (hphase : 0 < phaseLength) (h : Clocked phaseLength s)
    (hop : s.Allowed phaseLength ChainedOOOCoreRecorder.chain 1 op)
    (hfits : Fits phaseLength s op) :
    ∃ s', step phaseLength s op = some s' ∧ Clocked phaseLength s' ∧
      ClockStep op s.curCycle s.cRec.account s'.cRec.account := by
  have hglob : s.globPhaseCycles ≤ s.nextPhaseCycle phaseLength := Nat.le_add_right _ _
  cases op with
  | join =>
    obtain ⟨hw, hj⟩ := hop
    cases h with
    | resting _ hresp h =>
      obtain ⟨r, hr, hstate, hbound, hissued⟩ :=
        ChainedOOOCoreRecorder.notifyJoin_halted h hresp
      refine ⟨_, Option.map_eq_some_iff.mpr ⟨_, hr, rfl⟩, .bound hw _ hbound hissued, ?_⟩
      constructor
      · exact .inl ⟨h.state, rfl⟩
      · intro hf
        cases hf
      · intro hs
        rw [h.state] at hs
        cases hs
    | bound _ e h hi =>
      rw [hj] at h
      obtain ⟨r, e', hr, hgap, hstate, hbound, hissued⟩ :=
        ChainedOOOCoreRecorder.notifyJoin_draining hi h (hfits h.state)
      refine ⟨_, Option.map_eq_some_iff.mpr ⟨_, hr, rfl⟩, .bound hw e' ?_ ?_,
        .of_eq (by simp) hgap ?_⟩
      · simpa using hbound
      · simpa using hissued
      · intro _
        simp [hstate]
    | weave hw' _ _ _ _ =>
      rw [hw] at hw'
      cases hw'
  | leave =>
    obtain ⟨hw, hj⟩ := hop
    obtain ⟨e, hb, hi⟩ := h.bound_of_joined hw hj
    obtain ⟨r, e', hr, hgap, hstate, hbound, hissued⟩ :=
      ChainedOOOCoreRecorder.notifyLeave_running hi hb hfits
    refine ⟨_, Option.map_eq_some_iff.mpr ⟨_, hr, rfl⟩, .bound hw e' hbound hissued,
      .of_eq (by simp) hgap ?_⟩
    intro _
    simp [hstate]
  | advance cycles =>
    obtain ⟨hw, hj⟩ := hop
    obtain ⟨e, hb, hi⟩ := h.bound_of_joined hw hj
    refine ⟨_, rfl, .bound hw e ?_ (hi.mono (Nat.le_add_right _ _)), .of_eq (by simp) rfl id⟩
    simp only [hj]
    exact hb.congr (Nat.le_add_right _ _)
  | record tr respCycle =>
    obtain ⟨hw, hj, hreq, hcc, hget⟩ := hop
    obtain ⟨e, hb, hi⟩ := h.bound_of_joined hw hj
    obtain ⟨r, e', hr, hgap, hstate, hbound, hissued⟩ :=
      ChainedOOOCoreRecorder.recordAccess_running hi hb hcc
        fun htype => ⟨(hget htype).2, hfits htype⟩
    refine ⟨_, Option.map_eq_some_iff.mpr ⟨_, hr, rfl⟩, .bound hw e' ?_ hissued,
      .of_eq (by simp) hgap ?_⟩
    · simp only [hj]
      exact hbound
    · intro _
      simp [hstate]
  | cSimStart =>
    obtain ⟨hw, hcc⟩ := hop
    cases h with
    | resting hj hresp h =>
      have hr : s.cRec.cSimStart (s.nextPhaseCycle phaseLength) s.curCycle =
          some (s.cRec, s.curCycle) := by
        simp [ChainedOOOCoreRecorder.cSimStart, OOOCoreRecorder.cSimStart, h.state]
      exact ⟨_, Option.map_eq_some_iff.mpr ⟨_, hr, rfl⟩, .resting hj hresp h,
        .of_eq (by simp) rfl id⟩
    | bound _ e h hi =>
      cases hj : s.joined with
      | true =>
        rw [hj] at h
        obtain ⟨r, e', hr, hgap, hstate, hweave, hissued⟩ :=
          ChainedOOOCoreRecorder.cSimStart_running hi h hglob (hcc hj)
            (hfits hj e (hi.pending h).1)
        refine ⟨_, Option.map_eq_some_iff.mpr ⟨_, hr, rfl⟩, .weave rfl e' ?_ hissued ?_,
          .of_eq (by simp) hgap ?_⟩
        · simp only [hj]
          exact hweave
        · intro hf
          simp only [hj] at hf
          cases hf
        · intro _
          simp [hstate]
      | false =>
        rw [hj] at h
        obtain ⟨hr, hweave, hissued⟩ := ChainedOOOCoreRecorder.cSimStart_draining hi h hglob
        refine ⟨_, Option.map_eq_some_iff.mpr ⟨_, hr, rfl⟩, .weave rfl e ?_ hissued fun _ => rfl,
          .of_eq (by simp) rfl id⟩
        simp only [hj]
        exact hweave
    | weave hw' _ _ _ _ =>
      rw [hw] at hw'
      cases hw'
  | event startCycle =>
    obtain ⟨hw, hstart, -⟩ := hop
    cases h with
    | resting _ _ h =>
      rw [h.canStart] at hstart
      cases hstart
    | bound hw' _ _ _ =>
      rw [hw] at hw'
      cases hw'
    | weave _ e h hi hresp =>
      obtain ⟨r, hr, hsame, hgap, hstate, hweave, hissued⟩ :=
        ChainedOOOCoreRecorder.reportIssueEventSimulated_weave hi h hstart hfits
      refine ⟨_, Option.map_eq_some_iff.mpr ⟨_, hr, rfl⟩,
        .weave hw e hweave hissued fun hj => hsame.trans (hresp hj), .of_eq (by simp) hgap ?_⟩
      intro hs
      simpa [hstate] using hs
  | access startCycle endCycle => exact ⟨s, rfl, h, .of_eq (by simp) rfl id⟩
  | response _ =>
    refine ⟨_, rfl, ?_, .of_eq (by simp) rfl id⟩
    cases h with
    | resting hj hresp h => exact .resting hj hresp h
    | bound hw e h hi =>
      exact .bound hw e h ⟨hi.last, hi.own, hi.closed, hi.nonneg, hi.le, hi.sorted, hi.later⟩
    | weave hw e h hi hresp =>
      exact .weave hw e h ⟨hi.last, hi.own, hi.closed, hi.nonneg, hi.le, hi.sorted, hi.later⟩ hresp
  | cSimEnd =>
    obtain ⟨hw, hqueued⟩ := hop
    cases h with
    | resting hj hresp h =>
      have hr : s.cRec.cSimEnd s.curCycle = some (s.cRec, s.curCycle) := by
        simp [ChainedOOOCoreRecorder.cSimEnd, h.state]
      refine ⟨_, Option.map_eq_some_iff.mpr ⟨_, hr, rfl⟩, .resting hj hresp (h.mono hglob), ?_⟩
      constructor
      · exact .inr (le_refl _)
      · intro _ hs
        exact absurd h.state hs
      · intro hs
        rw [h.state] at hs
        cases hs
    | bound hw' _ _ _ =>
      rw [hw] at hw'
      cases hw'
    | weave _ e h hi hresp =>
      obtain ⟨n, hn⟩ := h.release_after hqueued (Nat.lt_add_of_pos_right hphase)
      obtain ⟨skew, r, hr, hgap, hskew, hend⟩ :=
        ChainedOOOCoreRecorder.cSimEnd_weave hi h hn hresp
      refine ⟨_, Option.map_eq_some_iff.mpr ⟨_, hr, rfl⟩, ?_, ?_⟩
      · rcases hend with ⟨_, hj, hnil, hrest⟩ | ⟨_, _, hbound, hissued⟩
        · exact .resting hj hnil hrest
        · exact .bound rfl e hbound hissued
      · constructor
        · exact .inr (by simp [hgap])
        · intro _ _
          exact ⟨skew, hskew, hgap⟩
        · intro _
          rcases hend with ⟨hp, _, _, hrest⟩ | ⟨hp, hstate, _, _⟩
          · simp [hrest.state, hp]
          · simp [hp, hstate, h.not_halted]

theorem Reachable.clocked (hphase : 0 < phaseLength) (h : Reachable phaseLength s) :
    Clocked phaseLength s := by
  refine RecorderRun.Reachable.invariant h init_clocked ?_
  intro s op hs hop hfits
  obtain ⟨s', hstep, hs', -⟩ := step_clocked hphase hs hop hfits
  exact ⟨s', hstep, hs'⟩

end OOORecorderRun

/-- Over every run of either recorder in which delays fit and no event is simulated at the limit:
the slacks of successive events never decrease, no assert or panic fires, and each step does to
the clocks what it should. -/
theorem clocks_consistent {phaseLength : Nat} (hphase : 0 < phaseLength) :
    (∀ s, TimingRecorderRun.Reachable phaseLength s →
      s.cRec.chain.startSlacks.Pairwise (· ≥ ·) ∧
      ∀ op, s.Allowed phaseLength ChainedCoreRecorder.chain 0 op →
        TimingRecorderRun.Fits phaseLength s op →
        ∃ s', TimingRecorderRun.step phaseLength s op = some s' ∧
          ClockStep op s.curCycle s.cRec.account s'.cRec.account) ∧
    ∀ s, OOORecorderRun.Reachable phaseLength s →
      s.cRec.chain.startSlacks.Pairwise (· ≥ ·) ∧
      ∀ op, s.Allowed phaseLength ChainedOOOCoreRecorder.chain 1 op →
        OOORecorderRun.Fits phaseLength s op →
        ∃ s', OOORecorderRun.step phaseLength s op = some s' ∧
          ClockStep op s.curCycle s.cRec.account s'.cRec.account := by
  constructor
  · intro s h
    have hs := h.clocked hphase
    refine ⟨hs.sorted, ?_⟩
    intro op hop hfits
    obtain ⟨s', hstep, -, hclocks⟩ := TimingRecorderRun.step_clocked hphase hs hop hfits
    exact ⟨s', hstep, hclocks⟩
  · intro s h
    have hs := h.clocked hphase
    refine ⟨hs.sorted, ?_⟩
    intro op hop hfits
    obtain ⟨s', hstep, -, hclocks⟩ := OOORecorderRun.step_clocked hphase hs hop hfits
    exact ⟨s', hstep, hclocks⟩

/-- An access that takes 20 cycles more in the weave phase skews the clock at its end. -/
theorem clocks_consistent_contended :
    ∃ s, TimingRecorderRun.Reachable 100 s ∧ s.cRec.chain.startSlacks = [20, 0, 0] ∧
      ∃ s', TimingRecorderRun.step 100 s .cSimEnd = some s' ∧
        ClockStep .cSimEnd s.curCycle s.cRec.account s'.cRec.account := by
  have h₀ : TimingRecorderRun.Reachable 100 (.init .init) := .init
  have h₁ := h₀.step .join ⟨rfl, rfl⟩ trivial rfl
  have h₂ := h₁.step (.record ⟨true, 5, 40⟩ 40)
    ⟨rfl, rfl, by decide, by decide, fun _ => by decide⟩ (fun _ => by decide) rfl
  have h₃ := h₂.step (.advance 80) ⟨rfl, rfl⟩ trivial rfl
  have h₄ := h₃.step .cSimStart ⟨rfl, fun _ => by decide⟩ (fun _ => by decide) rfl
  have h₅ := h₄.step (.event 0) ⟨rfl, rfl, by decide⟩ (show 0 < 100 by decide) rfl
  have h₆ := h₅.step (.event 0) ⟨rfl, rfl, by decide⟩ (show 0 < 100 by decide) rfl
  have h₇ := h₆.step (.access 5 60) ⟨rfl, rfl⟩ trivial rfl
  have h₈ := h₇.step (.event 60) ⟨rfl, rfl, by decide⟩ (show 60 < 100 by decide) rfl
  refine ⟨_, h₈, rfl, ((clocks_consistent (by decide)).1 _ h₈).2 .cSimEnd ?_ trivial⟩
  refine ⟨rfl, ?_⟩
  intro cycle hcycle
  cases hcycle

/-- Events at the limit itself are simulated where a thread has several domains, so that a phase
that was tapered there ends without its last event; and the delay of a phase of 2^32 cycles is
kept as 0. -/
theorem taper_simulated :
    (∃ s : OOORecorderRun, RecorderRun.Reachable (OOORecorderRun.step 100)
        (RecorderRun.Allowed 100 ChainedOOOCoreRecorder.chain 1) (fun _ _ => True)
        (.init .init) s ∧
      s.Allowed 100 ChainedOOOCoreRecorder.chain 1 .cSimEnd ∧
      OOORecorderRun.step 100 s .cSimEnd = none) ∧
    ∃ s : TimingRecorderRun, RecorderRun.Reachable (TimingRecorderRun.step (2 ^ 32 - 1))
        (RecorderRun.Allowed (2 ^ 32 - 1) ChainedCoreRecorder.chain 0) (fun _ _ => True)
        (.init .init) s ∧
      s.Allowed (2 ^ 32 - 1) ChainedCoreRecorder.chain 0 (.event 0) ∧
      TimingRecorderRun.step (2 ^ 32 - 1) s (.event 0) = none := by
  constructor
  · have h₀ : RecorderRun.Reachable (OOORecorderRun.step 100)
        (RecorderRun.Allowed 100 ChainedOOOCoreRecorder.chain 1) (fun _ _ => True)
        (.init .init) (.init .init) := .init
    have h₁ := h₀.step .join ⟨rfl, rfl⟩ trivial rfl
    have h₂ := h₁.step (.advance 101) ⟨rfl, rfl⟩ trivial rfl
    have h₃ := h₂.step .cSimStart ⟨rfl, fun _ => by decide⟩ trivial rfl
    have h₄ := h₃.step (.event 0) ⟨rfl, rfl, by decide⟩ trivial rfl
    have h₅ := h₄.step (.event 100) ⟨rfl, rfl, by decide⟩ trivial rfl
    refine ⟨_, h₅, ⟨rfl, ?_⟩, rfl⟩
    intro cycle hcycle
    cases hcycle
  · have h₀ : RecorderRun.Reachable (TimingRecorderRun.step (2 ^ 32 - 1))
        (RecorderRun.Allowed (2 ^ 32 - 1) ChainedCoreRecorder.chain 0) (fun _ _ => True)
        (.init .init) (.init .init) := .init
    have h₁ := h₀.step .join ⟨rfl, rfl⟩ trivial rfl
    have h₂ := h₁.step (.advance (2 ^ 32)) ⟨rfl, rfl⟩ trivial rfl
    have h₃ := h₂.step .cSimStart ⟨rfl, fun _ => by decide⟩ trivial rfl
    have h₄ := h₃.step (.event 0) ⟨rfl, rfl, by decide⟩ trivial rfl
    have h₅ := h₄.step (.event 0) ⟨rfl, rfl, by decide⟩ trivial rfl
    exact ⟨_, h₅, ⟨rfl, rfl, by decide⟩, rfl⟩

end ZSim
