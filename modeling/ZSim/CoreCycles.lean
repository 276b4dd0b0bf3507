import ZSim.CoreRecorder

/-! What each operation does to the unhalted cycles of a core. -/

namespace ZSim

namespace CycleAccount

variable {a a' a₁ a₂ : CycleAccount} {glob cc cc' cc₁ n : Nat} {starts : List Nat}

theorem unhalted_of_halted (h : a.state = .halted) :
    a.getUnhaltedCycles glob cc = a.lastUnhaltedCycle - a.totalHaltedCycles := by
  rw [getUnhaltedCycles, if_pos h]
  ring

theorem unhalted_of_not_halted (h : a.state ≠ .halted) :
    a.getUnhaltedCycles glob cc = (max cc glob : Nat) - a.totalHaltedCycles := by
  rw [getUnhaltedCycles, if_neg h, add_zero]

/-- How an operation may change the account of a core, with its cycle from `cc` to `cc'`. -/
inductive Move (glob cc cc' : Nat) (a a' : CycleAccount) : Prop where
  | counts (state : a.state ≠ .halted) (state' : a'.state ≠ .halted)
      (total : a'.totalHaltedCycles = a.totalHaltedCycles) (cycle : cc ≤ cc')
  | rests (state : a.state = .halted) (state' : a'.state = .halted)
      (total : a'.totalHaltedCycles = a.totalHaltedCycles)
      (last : a'.lastUnhaltedCycle = a.lastUnhaltedCycle)
  | joins (state : a.state = .halted) (state' : a'.state ≠ .halted)
      (last : a.lastUnhaltedCycle ≤ glob)
      (total : a'.totalHaltedCycles = a.totalHaltedCycles + (glob - a.lastUnhaltedCycle))
      (cycle : glob ≤ cc')

theorem Move.le (h : Move glob cc cc' a a') :
    a.getUnhaltedCycles glob cc ≤ a'.getUnhaltedCycles glob cc' := by
  cases h with
  | counts hs hs' htotal hcycle =>
    rw [unhalted_of_not_halted hs, unhalted_of_not_halted hs', htotal]
    omega
  | rests hs hs' htotal hlast =>
    rw [unhalted_of_halted hs, unhalted_of_halted hs', htotal, hlast]
  | joins hs hs' hlast htotal hcycle =>
    rw [unhalted_of_halted hs, unhalted_of_not_halted hs', htotal]
    omega

theorem unhalted_le_glob {glob' : Nat} (hglob : glob ≤ glob') :
    a.getUnhaltedCycles glob cc ≤ a.getUnhaltedCycles glob' cc := by
  by_cases hs : a.state = .halted
  · rw [unhalted_of_halted hs, unhalted_of_halted hs]
  · rw [unhalted_of_not_halted hs, unhalted_of_not_halted hs]
    omega

/-- A halted core has no events, and one that drains has its last one to come. -/
structure Ready (a : CycleAccount) : Prop where
  halted : a.state = .halted → a.pending = [] ∧ a.lastProduced = .none
  draining : a.state = .draining → a.pending ≠ [] ∧ a.lastProduced = .own

theorem ready_of_running (h : a.state = .running) : Ready a := by
  constructor
  · intro hs
    rw [h] at hs
    cases hs
  · intro hs
    rw [h] at hs
    cases hs

theorem simulate_frame (h : a.simulate starts = some a') :
    a'.state = a.state ∧ a'.totalHaltedCycles = a.totalHaltedCycles ∧
      a'.lastUnhaltedCycle = a.lastUnhaltedCycle := by
  induction starts generalizing a with
  | nil =>
    cases h
    exact ⟨rfl, rfl, rfl⟩
  | cons start starts ih =>
    obtain ⟨a₁, h₁, h'⟩ := Option.bind_eq_some_iff.mp h
    rw [reportSimulated] at h₁
    split at h₁
    · cases h₁
    · next z pending _ =>
      obtain rfl := Option.some.inj h₁
      have hrest := ih h'
      exact hrest

theorem simulate_of_nil (ha : a.pending = []) (h : a.simulate starts = some a') :
    starts = [] ∧ a' = a := by
  cases starts with
  | nil =>
    cases h
    exact ⟨rfl, rfl⟩
  | cons start starts => simp [simulate, reportSimulated, ha] at h

/-- A core that drains has its last event simulated, or still has events to come. -/
theorem simulate_own (ha : a.pending ≠ []) (hown : a.lastProduced = .own)
    (h : a.simulate starts = some a') :
    (starts.length = a.pending.length ∧ a'.pending = [] ∧ a'.lastProduced = .none ∧
        starts.getLast? = some a'.lastStartCycle) ∨
      starts.length ≠ a.pending.length ∧ a'.pending ≠ [] ∧ a'.lastProduced = .own := by
  induction starts generalizing a with
  | nil =>
    cases h
    exact .inr ⟨fun hlen => ha (List.eq_nil_of_length_eq_zero hlen.symm), ha, hown⟩
  | cons start starts ih =>
    obtain ⟨a₁, h₁, h'⟩ := Option.bind_eq_some_iff.mp h
    cases hp : a.pending with
    | nil => exact absurd hp ha
    | cons z pending =>
      rw [reportSimulated, hp] at h₁
      cases h₁
      by_cases hnil : pending = []
      · subst hnil
        obtain ⟨rfl, rfl⟩ := simulate_of_nil rfl h'
        exact .inl ⟨rfl, rfl, if_pos ⟨rfl, hown⟩, rfl⟩
      · have hown' : (if pending = [] ∧ a.lastProduced = .own then LastProduced.none
            else a.lastProduced) = .own := by rw [if_neg fun h => hnil h.1, hown]
        rcases ih hnil hown' h' with ⟨hlen, hpend, hlast, hget⟩ | ⟨hlen, hrest⟩
        · refine .inl ⟨by simpa using hlen, hpend, hlast, ?_⟩
          cases starts with
          | nil => simp at hget
          | cons start' starts => rwa [List.getLast?_cons_cons]
        · exact .inr ⟨by simpa using hlen, hrest⟩

theorem taper_cases (h : a.taper = some a') :
    (a.lastProduced = .none ∧ a.state = .draining ∧ a'.state = .halted ∧
        a'.pending = a.pending ∧ a'.lastProduced = .none ∧
        a'.totalHaltedCycles = a.totalHaltedCycles ∧
        a'.lastUnhaltedCycle = a.lastStartCycle) ∨
      a.lastProduced ≠ .none ∧ a' = a := by
  rw [taper] at h
  split at h
  · next hlast =>
    split at h
    · next hstate =>
      cases h
      exact .inl ⟨hlast, hstate, rfl, rfl, hlast, rfl, rfl⟩
    · cases h
  · next hlast =>
    cases h
    exact .inr ⟨hlast, rfl⟩

/-- A phase of a core: it is brought up to the cycle `cc₁`, events are simulated, and its cycle
is skewed. -/
structure PhaseRun (starts : List Nat) (a a' : CycleAccount) (cc cc' : Nat) : Prop where
  run : ∃ a₁ a₂ cc₁, a₁.state = a.state ∧ a₁.totalHaltedCycles = a.totalHaltedCycles ∧
    a₁.lastUnhaltedCycle = a.lastUnhaltedCycle ∧ (a.state ≠ .running → a₁ = a) ∧ cc ≤ cc₁ ∧
    a₁.simulate starts = some a₂ ∧
    (a₂.state = .halted ∧ a' = a₂ ∨
      a₂.state ≠ .halted ∧ ∃ skew, (a₂.addGap skew).taper = some a' ∧ cc' = cc₁ + skew)

/-- What a phase does: a move of a core that does not get done draining, or the end of it at the
start of the last event. -/
theorem PhaseRun.cases (hready : Ready a) (h : PhaseRun starts a a' cc cc') :
    Ready a' ∧
      ((Move glob cc cc' a a' ∧ (a.state = .draining → starts.length ≠ a.pending.length)) ∨
        a.state = .draining ∧ starts.length = a.pending.length ∧ a'.state = .halted ∧
          a'.totalHaltedCycles = a.totalHaltedCycles ∧
          starts.getLast? = some a'.lastUnhaltedCycle) := by
  obtain ⟨a₁, a₂, cc₁, hstate, htotal, hlast, hsame, hcc, hsim, hend⟩ := h.run
  obtain ⟨hstate₂, htotal₂, hlast₂⟩ := simulate_frame hsim
  rw [hstate] at hstate₂
  rw [htotal] at htotal₂
  rw [hlast] at hlast₂
  rcases hend with ⟨hhalted, rfl⟩ | ⟨hnot, skew, htaper, rfl⟩
  · have ha : a.state = .halted := hstate₂ ▸ hhalted
    have ha₁ : a₁ = a := hsame (by rw [ha]; decide)
    subst ha₁
    obtain ⟨-, rfl⟩ := simulate_of_nil (hready.halted ha).1 hsim
    refine ⟨hready, .inl ⟨.rests ha ha rfl rfl, fun hd => ?_⟩⟩
    rw [ha] at hd
    cases hd
  · have ha : a.state ≠ .halted := hstate₂ ▸ hnot
    rcases taper_cases htaper with ⟨hnone, hdrain, hs, hp, hl, ht, hu⟩ | ⟨hsome, rfl⟩
    · have hd : a.state = .draining := hstate₂ ▸ hdrain
      have ha₁ : a₁ = a := hsame (by rw [hd]; decide)
      subst ha₁
      obtain ⟨hpend, hown⟩ := hready.draining hd
      rcases simulate_own hpend hown hsim with ⟨hlen, hpend₂, -, hget⟩ | ⟨-, -, hown₂⟩
      · refine ⟨⟨fun _ => ⟨hp.trans hpend₂, hl⟩, fun hd' => ?_⟩,
          .inr ⟨hd, hlen, hs, ht.trans htotal₂, hget.trans (congrArg some hu.symm)⟩⟩
        rw [hs] at hd'
        cases hd'
      · exact absurd (hnone.symm.trans hown₂) (by decide)
    · have hmove : Move glob cc (cc₁ + skew) a (a₂.addGap skew) :=
        .counts ha hnot htotal₂ (by omega)
      by_cases hd : a.state = .draining
      · have ha₁ : a₁ = a := hsame (by rw [hd]; decide)
        subst ha₁
        obtain ⟨hpend, hown⟩ := hready.draining hd
        rcases simulate_own hpend hown hsim with ⟨-, -, hnone, -⟩ | ⟨hlen, hpend₂, hown₂⟩
        · exact absurd hnone hsome
        · refine ⟨⟨fun hh => absurd hh hnot, fun _ => ⟨hpend₂, hown₂⟩⟩, .inl ⟨hmove, fun _ => hlen⟩⟩
      · refine ⟨⟨fun hh => absurd hh hnot, fun hd' => ?_⟩, .inl ⟨hmove, fun hd' => absurd hd' hd⟩⟩
        exact absurd (hstate₂ ▸ hd' : a.state = .draining) hd

@[simp] theorem addEvent_state : (a.addEvent n).state = a.state := rfl

@[simp] theorem addEvent_lastProduced : (a.addEvent n).lastProduced = .own := rfl

theorem addEvent_pending : (a.addEvent n).pending ≠ [] := by
  simp [addEvent]

/-- A core that joins again counts on from the beginning of the phase. -/
theorem joinHalted_move (hs : a.state = .halted) (h : a.joinHalted glob = some a')
    (hcc : glob ≤ cc') : Ready a' ∧ Move glob cc cc' a a' := by
  rw [joinHalted] at h
  split at h
  · next hlast =>
    cases h
    exact ⟨ready_of_running rfl, .joins hs (by simp [addEvent]) hlast.2 rfl hcc⟩
  · cases h

theorem Move.running (hs : a.state = .running) (hs' : a'.state = .running)
    (htotal : a'.totalHaltedCycles = a.totalHaltedCycles) (hcc : cc ≤ cc') :
    Ready a' ∧ Move glob cc cc' a a' := by
  exact ⟨ready_of_running hs', .counts (by simp [hs]) (by simp [hs']) htotal hcc⟩

end CycleAccount

open CycleAccount

variable {glob nextPhase : Nat} {starts : List Nat} {op : CoreOp}

namespace CoreRecorder

variable {r r' : CoreRecorder} {tr : TimingRecord} {cc cc' : Nat}

theorem notifyJoin_move {x : CoreRecorder × Nat} (h : r.notifyJoin glob cc = some x) :
    Ready x.1.account ∧ Move glob cc x.2 r.account x.1.account := by
  cases hs : r.account.state with
  | halted =>
    rw [notifyJoin, hs] at h
    obtain ⟨a, ha, rfl⟩ := Option.map_eq_some_iff.mp h
    exact joinHalted_move hs ha (Nat.le_refl glob)
  | running =>
    rw [notifyJoin, hs] at h
    cases h
  | draining =>
    simp only [notifyJoin, hs] at h
    split at h
    · cases h
      exact ⟨ready_of_running rfl, .counts (by simp [hs]) (by simp) rfl (Nat.le_refl cc)⟩
    · cases h

theorem notifyLeave_move (h : r.notifyLeave cc = some r') :
    Ready r'.account ∧ Move glob cc cc r.account r'.account := by
  rw [notifyLeave] at h
  split at h
  · next hs =>
    cases h
    exact ⟨⟨by simp, fun _ => ⟨addEvent_pending, rfl⟩⟩,
      .counts (by simp [hs.1]) (by simp) rfl (Nat.le_refl cc)⟩
  · cases h

theorem recordAccess_frame (h : r.recordAccess tr cc = some r') :
    r'.account.state = r.account.state ∧
      r'.account.totalHaltedCycles = r.account.totalHaltedCycles := by
  rw [recordAccess] at h
  split at h
  · split at h
    · cases h
      exact ⟨rfl, rfl⟩
    · cases h
      exact ⟨rfl, rfl⟩
  · cases h

theorem cSimStart_frame {x : CoreRecorder × Nat} (h : r.cSimStart nextPhase cc = some x) :
    x.1.account.state = r.account.state ∧
      x.1.account.totalHaltedCycles = r.account.totalHaltedCycles ∧
      x.1.account.lastUnhaltedCycle = r.account.lastUnhaltedCycle ∧
      (r.account.state ≠ .running → x.1.account = r.account) ∧ cc ≤ x.2 := by
  cases hs : r.account.state with
  | halted =>
    rw [cSimStart, hs] at h
    cases h
    exact ⟨hs, rfl, rfl, fun _ => rfl, Nat.le_refl cc⟩
  | running =>
    simp only [cSimStart, hs] at h
    split at h
    · split at h
      · cases h
        exact ⟨hs, rfl, rfl, fun hne => absurd rfl hne, Nat.le_refl cc⟩
      · cases h
        exact ⟨hs, rfl, rfl, fun hne => absurd rfl hne, Nat.le_refl cc⟩
    · cases h
  | draining =>
    rw [cSimStart, hs] at h
    cases h
    exact ⟨hs, rfl, rfl, fun _ => rfl, Nat.le_max_left cc nextPhase⟩

theorem simulate_account (h : r.simulate starts = some r') :
    r.account.simulate starts = some r'.account := by
  obtain ⟨a, ha, h'⟩ := Option.bind_eq_some_iff.mp h
  split at h'
  · cases h'
  · cases h'
    exact ha

theorem cSimEnd_cases {x : CoreRecorder × Nat} (h : r.cSimEnd cc = some x) :
    r.account.state = .halted ∧ x.1.account = r.account ∨
      r.account.state ≠ .halted ∧
        ∃ skew, (r.account.addGap skew).taper = some x.1.account ∧ x.2 = cc + skew := by
  rw [cSimEnd] at h
  split at h
  · next hs =>
    cases h
    exact .inl ⟨hs, rfl⟩
  · next hs =>
    obtain ⟨skew, -, h'⟩ := Option.bind_eq_some_iff.mp h
    obtain ⟨a, ha, rfl⟩ := Option.map_eq_some_iff.mp h'
    exact .inr ⟨hs, skew, ha, rfl⟩

end CoreRecorder

namespace TimingCore

variable {c c' : TimingCore}

theorem step_move (h : c.step glob op = some c') :
    (Ready c'.cRec.account ∧
      Move glob c.curCycle c'.curCycle c.cRec.account c'.cRec.account) ∧ c.instrs ≤ c'.instrs := by
  cases op with
  | join =>
    obtain ⟨x, hx, rfl⟩ := Option.map_eq_some_iff.mp h
    exact ⟨CoreRecorder.notifyJoin_move hx, Nat.le_refl _⟩
  | leave =>
    obtain ⟨r, hr, rfl⟩ := Option.map_eq_some_iff.mp h
    exact ⟨CoreRecorder.notifyLeave_move hr, Nat.le_refl _⟩
  | access tr cycles =>
    simp only [step] at h
    split at h
    · next hs =>
      obtain ⟨r, hr, rfl⟩ := Option.map_eq_some_iff.mp h
      refine ⟨?_, Nat.le_refl _⟩
      cases tr with
      | none =>
        cases hr
        exact Move.running hs hs rfl (Nat.le_add_right _ _)
      | some tr =>
        obtain ⟨hs', htotal⟩ := CoreRecorder.recordAccess_frame hr
        exact Move.running hs (hs'.trans hs) htotal (Nat.le_add_right _ _)
    · cases h
  | bbl instrs cycles =>
    simp only [step] at h
    split at h
    · next hs =>
      cases h
      exact ⟨Move.running hs hs rfl (Nat.le_add_right _ _), Nat.le_add_right _ _⟩
    · cases h

theorem simulatePhase_run (h : c.simulatePhase nextPhase starts = some c') :
    PhaseRun starts c.cRec.account c'.cRec.account c.curCycle c'.curCycle ∧
      c'.instrs = c.instrs := by
  obtain ⟨x, hx, h₁⟩ := Option.bind_eq_some_iff.mp h
  obtain ⟨cRec, hsim, h₂⟩ := Option.bind_eq_some_iff.mp h₁
  obtain ⟨y, hy, rfl⟩ := Option.map_eq_some_iff.mp h₂
  obtain ⟨hs, htotal, hlast, hsame, hcc⟩ := CoreRecorder.cSimStart_frame hx
  exact ⟨⟨x.1.account, cRec.account, x.2, hs, htotal, hlast, hsame, hcc,
    CoreRecorder.simulate_account hsim, CoreRecorder.cSimEnd_cases hy⟩, rfl⟩

end TimingCore

namespace OOOCoreRecorder

variable {r r' : OOOCoreRecorder} {tr : TimingRecord} {cc cc' ev : Nat}

theorem addIssueEvent_account (h : r.addIssueEvent ev = some r') :
    r'.account = r.account.addEvent ev := by
  rw [addIssueEvent] at h
  split at h
  · cases h
    rfl
  · cases h

theorem notifyJoin_move {x : OOOCoreRecorder × Nat} (h : r.notifyJoin glob cc = some x)
    (hcc : cc ≤ cc') (hx : x.2 ≤ cc') :
    Ready x.1.account ∧ Move glob cc cc' r.account x.1.account := by
  cases hs : r.account.state with
  | halted =>
    rw [notifyJoin, hs] at h
    obtain ⟨a, ha, rfl⟩ := Option.map_eq_some_iff.mp h
    exact joinHalted_move hs ha hx
  | running =>
    rw [notifyJoin, hs] at h
    cases h
  | draining =>
    simp only [notifyJoin, hs] at h
    split at h
    · obtain ⟨r₁, hr₁, rfl⟩ := Option.map_eq_some_iff.mp h
      have ha := addIssueEvent_account hr₁
      refine ⟨ready_of_running rfl, .counts (by simp [hs]) (by simp) ?_ hcc⟩
      simp only [ha]
      rfl
    · cases h

theorem notifyLeave_move (h : r.notifyLeave cc = some r') :
    Ready r'.account ∧ Move glob cc cc r.account r'.account := by
  rw [notifyLeave] at h
  split at h
  · next hs =>
    have ha := addIssueEvent_account h
    have hstate : r'.account.state = .draining := by rw [ha, addEvent_state]
    refine ⟨⟨?_, fun _ => ?_⟩, .counts (by simp [hs]) (by simp [hstate]) ?_ (Nat.le_refl cc)⟩
    · simp [hstate]
    · rw [ha]
      exact ⟨addEvent_pending, rfl⟩
    · rw [ha]
      rfl
  · cases h

theorem recordAccess_frame (h : r.recordAccess tr cc = some r') :
    r'.account.state = r.account.state ∧
      r'.account.totalHaltedCycles = r.account.totalHaltedCycles := by
  rw [recordAccess] at h
  split at h
  · rw [addIssueEvent_account h]
    exact ⟨rfl, rfl⟩
  · cases h
    exact ⟨rfl, rfl⟩

theorem cSimStart_frame {x : OOOCoreRecorder × Nat} (h : r.cSimStart nextPhase cc = some x) :
    x.1.account.state = r.account.state ∧
      x.1.account.totalHaltedCycles = r.account.totalHaltedCycles ∧
      x.1.account.lastUnhaltedCycle = r.account.lastUnhaltedCycle ∧
      (r.account.state ≠ .running → x.1.account = r.account) ∧ cc ≤ x.2 := by
  cases hs : r.account.state with
  | halted =>
    rw [cSimStart, hs] at h
    cases h
    exact ⟨hs, rfl, rfl, fun _ => rfl, Nat.le_refl cc⟩
  | running =>
    simp only [cSimStart, hs] at h
    split at h
    · cases h
    · split at h
      · split at h
        · obtain ⟨r₁, hr₁, rfl⟩ := Option.map_eq_some_iff.mp h
          rw [addIssueEvent_account hr₁]
          exact ⟨hs, rfl, rfl, fun hne => absurd rfl hne, Nat.le_refl cc⟩
        · cases h
          exact ⟨hs, rfl, rfl, fun _ => rfl, Nat.le_refl cc⟩
      · cases h
  | draining =>
    rw [cSimStart, hs] at h
    cases h
    exact ⟨hs, rfl, rfl, fun _ => rfl, Nat.le_max_left cc nextPhase⟩

theorem cSimEnd_cases {x : OOOCoreRecorder × Nat} (h : r.cSimEnd cc = some x) :
    r.account.state = .halted ∧ x.1.account = r.account ∨
      r.account.state ≠ .halted ∧
        ∃ skew, (r.account.addGap skew).taper = some x.1.account ∧ x.2 = cc + skew := by
  rw [cSimEnd] at h
  split at h
  · next hs =>
    cases h
    exact .inl ⟨hs, rfl⟩
  · next hs =>
    obtain ⟨skew, -, h'⟩ := Option.bind_eq_some_iff.mp h
    obtain ⟨a, ha, rfl⟩ := Option.map_eq_some_iff.mp h'
    exact .inr ⟨hs, skew, ha, rfl⟩

end OOOCoreRecorder

namespace OOOCore

variable {c c' : OOOCore}

theorem step_move (h : c.step glob op = some c') :
    (Ready c'.cRec.account ∧
      Move glob c.curCycle c'.curCycle c.cRec.account c'.cRec.account) ∧ c.instrs ≤ c'.instrs := by
  cases op with
  | join =>
    obtain ⟨x, hx, rfl⟩ := Option.map_eq_some_iff.mp h
    exact ⟨OOOCoreRecorder.notifyJoin_move hx (Nat.le_max_left _ _) (Nat.le_max_right _ _),
      Nat.le_refl _⟩
  | leave =>
    obtain ⟨r, hr, rfl⟩ := Option.map_eq_some_iff.mp h
    exact ⟨OOOCoreRecorder.notifyLeave_move hr, Nat.le_refl _⟩
  | access tr cycles =>
    simp only [step] at h
    split at h
    · next hs =>
      obtain ⟨r, hr, rfl⟩ := Option.map_eq_some_iff.mp h
      refine ⟨?_, Nat.le_refl _⟩
      cases tr with
      | none =>
        cases hr
        exact Move.running hs hs rfl (Nat.le_add_right _ _)
      | some tr =>
        obtain ⟨hs', htotal⟩ := OOOCoreRecorder.recordAccess_frame hr
        exact Move.running hs (hs'.trans hs) htotal (Nat.le_add_right _ _)
    · cases h
  | bbl instrs cycles =>
    simp only [step] at h
    split at h
    · next hs =>
      cases h
      exact ⟨Move.running hs hs rfl (Nat.le_add_right _ _), Nat.le_add_right _ _⟩
    · cases h

theorem simulatePhase_run (h : c.simulatePhase nextPhase starts = some c') :
    PhaseRun starts c.cRec.account c'.cRec.account c.curCycle c'.curCycle ∧
      c'.instrs = c.instrs := by
  obtain ⟨x, hx, h₁⟩ := Option.bind_eq_some_iff.mp h
  obtain ⟨cRec, hsim, h₂⟩ := Option.bind_eq_some_iff.mp h₁
  obtain ⟨y, hy, rfl⟩ := Option.map_eq_some_iff.mp h₂
  obtain ⟨hs, htotal, hlast, hsame, hcc⟩ := OOOCoreRecorder.cSimStart_frame hx
  obtain ⟨a, ha, rfl⟩ := Option.map_eq_some_iff.mp hsim
  exact ⟨⟨x.1.account, a, x.2, hs, htotal, hlast, hsame, hcc, ha,
    OOOCoreRecorder.cSimEnd_cases hy⟩, rfl⟩

end OOOCore

namespace Core

variable {c c' : Core}

def Ready (c : Core) : Prop := c.account.Ready

/-- Whatever a thread does, the cycles and the instructions of its core do not go back. -/
theorem step_le (h : c.step glob op = some c') :
    c'.Ready ∧ c.getCycles glob ≤ c'.getCycles glob ∧ c.getInstrs ≤ c'.getInstrs := by
  cases c with
  | timing c =>
    obtain ⟨d, hd, rfl⟩ := Option.map_eq_some_iff.mp h
    obtain ⟨⟨hready, hmove⟩, hinstrs⟩ := TimingCore.step_move hd
    exact ⟨hready, hmove.le, hinstrs⟩
  | ooo c =>
    obtain ⟨d, hd, rfl⟩ := Option.map_eq_some_iff.mp h
    obtain ⟨⟨hready, hmove⟩, hinstrs⟩ := OOOCore.step_move hd
    exact ⟨hready, hmove.le, hinstrs⟩

theorem simulatePhase_run (h : c.simulatePhase nextPhase starts = some c') :
    PhaseRun starts c.account c'.account c.curCycle c'.curCycle ∧
      c'.getInstrs = c.getInstrs := by
  cases c with
  | timing c =>
    obtain ⟨d, hd, rfl⟩ := Option.map_eq_some_iff.mp h
    exact TimingCore.simulatePhase_run hd
  | ooo c =>
    obtain ⟨d, hd, rfl⟩ := Option.map_eq_some_iff.mp h
    exact OOOCore.simulatePhase_run hd

/-- If a core that drains has its last event simulated, it starts at the core's cycle or later. -/
def MeetsDrain (c : Core) (glob : Nat) (starts : List Nat) : Prop :=
  c.account.state = .draining → starts.length = c.account.pending.length →
    ∀ start ∈ starts.getLast?, max c.curCycle glob ≤ start

/-- A phase moves a core back if it is done draining with a last event that starts too early. -/
theorem simulatePhase_le_iff (hready : c.Ready) (h : c.simulatePhase nextPhase starts = some c') :
    c'.Ready ∧ (c.getCycles glob ≤ c'.getCycles glob ↔ c.MeetsDrain glob starts) := by
  obtain ⟨hrun, -⟩ := simulatePhase_run h
  obtain ⟨hready', hmove⟩ := @PhaseRun.cases _ _ glob _ _ _ hready hrun
  refine ⟨hready', ?_⟩
  rcases hmove with ⟨hmove, hlen⟩ | ⟨hdrain, hlen, hhalted, htotal, hlast⟩
  · exact ⟨fun _ hd hl => absurd hl (hlen hd), fun _ => hmove.le⟩
  · have hnot : c.account.state ≠ .halted := by simp [hdrain]
    rw [getCycles, getCycles, unhalted_of_not_halted hnot, unhalted_of_halted hhalted, htotal]
    constructor
    · intro hle hd hl start hstart
      rw [hlast] at hstart
      obtain rfl := Option.some.inj hstart
      omega
    · intro hmeets
      have hle := hmeets hdrain hlen _ hlast
      omega

end Core

end ZSim
