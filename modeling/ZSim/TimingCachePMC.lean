import ZSim.TimingCacheMSHR

/-! The pure miss contribution: each cycle is shared evenly by the misses that hold an MSHR
in it. The code charges the cycles between two changes to the misses that are there after
the second, and one cycle to the first miss of all. -/

namespace ZSim

/-- The miss holds an MSHR in cycle `n`. -/
def Miss.Holds (m : Miss) (n : Nat) : Prop :=
  m.start ≤ n ∧ ∀ x ∈ m.finish, n < x.1

instance (m : Miss) (n : Nat) : Decidable (m.Holds n) :=
  inferInstanceAs (Decidable (_ ∧ _))

/-- The MSHRs held in cycle `n`. -/
def held (misses : List Miss) (n : Nat) : Nat := misses.countP fun m => m.Holds n

/-- The pure miss contribution of a miss from `start` to `finish`. -/
def contribution (misses : List Miss) (start finish : Nat) : ℚ :=
  ∑ n ∈ Finset.Ico start finish, 1 / (held misses n : ℚ)

/-- The cycles before `now` with at least one miss outstanding. -/
def busyCycles (misses : List Miss) (now : Nat) : Nat :=
  ((Finset.range now).filter fun n => 0 < held misses n).card

namespace TimingRun

open TimingCache

/-- The PMCs of the completed and the outstanding misses. -/
def totalPMC (s : TimingRun) : ℚ :=
  ((s.misses.filterMap (·.finish)).map (·.2)).sum + ((validEntries s.cache.mshrList).map (·.PMC)).sum

/-- The PMCs handed to DTRM are the contributions of their misses. -/
def HandedLaw (s : TimingRun) : Prop :=
  ∀ m ∈ s.misses, ∀ x ∈ m.finish,
    x.2 = contribution s.misses m.start x.1 ∧ x.2 ≤ (x.1 - m.start : Nat)

/-- All PMCs add up to the busy cycles, as of a cycle in which a miss started or ended. -/
def TotalLaw (s : TimingRun) (now : Nat) : Prop := s.totalPMC = busyCycles s.misses now

/-- The events can occur one after the other. -/
def Runs (s : TimingRun) : List CacheEvent → Prop
  | [] => True
  | e :: es => s.Allowed e ∧ ∃ s', s.step e = some s' ∧ s'.Runs es

/-- Every state that the events lead to obeys the laws. -/
def Lawful (s : TimingRun) : List CacheEvent → Prop
  | [] => True
  | e :: es => ∀ s', s.step e = some s' →
      s'.HandedLaw ∧ (s'.misses ≠ s.misses → s'.TotalLaw e.cycle) ∧ s'.Lawful es

def isMissStart : CacheEvent → Bool
  | .missStart .. => true
  | _ => false

structure Fresh (s : TimingRun) : Prop where
  numMSHRs : 0 < s.cache.numMSHRs
  misses : s.misses = []
  active : s.cache.activeMisses = 0
  list : s.cache.mshrList = List.replicate s.cache.numMSHRs ⟨0, false, 0, 0, 0⟩
  recorded : s.cache.lastRecordedCycle = 0

variable {s s' : TimingRun}

theorem Fresh.hit (h : Fresh s) {ev cycle : Nat} (hs : s.step (.hit ev cycle) = some s') :
    Fresh s' := by
  obtain ⟨r, hr, rfl⟩ := Option.map_eq_some_iff.mp hs
  have hlt : s.cache.activeMisses < s.cache.numMSHRs := by
    rw [h.active]
    exact h.numMSHRs
  rw [simulateHit, if_pos hlt] at hr
  obtain ⟨q, hq, rfl⟩ := Option.map_eq_some_iff.mp hr
  obtain ⟨acc, free, hports⟩ := highPrioAccess_spec hq
  show Fresh ⟨q.1, s.misses⟩
  rw [hports]
  exact ⟨h.numMSHRs, h.misses, h.active, h.list, h.recorded⟩

/-- With one miss active since cycle 0, one cycle is charged to it. -/
theorem PCMUpdate_first {c : TimingCache} {e : MSHR} {n : Nat} (cycle : Nat)
    (hlist : c.mshrList = e :: List.replicate n ⟨0, false, 0, 0, 0⟩) (hvalid : e.valid = true)
    (hactive : c.activeMisses = 1) (hrecorded : c.lastRecordedCycle = 0) :
    validEntries (c.PCMUpdate cycle).mshrList = [{ e with PMC := e.PMC + 1 }] := by
  have hdiff : clockDiff c.lastRecordedCycle cycle = 1 := if_pos hrecorded
  have hcharge : charge 1 1 = 1 := by norm_num [charge]
  rw [PCMUpdate]
  have hneg : ¬ (1 : Int) < 0 := by decide
  have hpos : (0 : Int) < 1 := by decide
  simp only [hdiff, if_neg hneg, if_pos hpos, hlist, hactive, hcharge]
  rw [List.map_cons, if_pos hvalid, List.map_replicate]
  have hv : ({ e with PMC := e.PMC + 1 } : MSHR).valid = true := hvalid
  rw [validEntries_cons_pos hv]
  congr 1
  rw [validEntries, List.filter_eq_nil_iff]
  intro x hx
  rw [(List.mem_replicate.mp hx).2]
  simp

theorem Fresh.start (h : Fresh s) {mse : MissStartEvent} {cycle : Nat}
    (hs : s.step (.missStart mse cycle) = some s') :
    s'.misses = [⟨mse, cycle, none⟩] ∧ s'.totalPMC = 1 := by
  obtain ⟨r, hr, rfl⟩ := Option.map_eq_some_iff.mp hs
  have hlt : s.cache.activeMisses < s.cache.numMSHRs := by
    rw [h.active]
    exact h.numMSHRs
  rw [simulateMissStart, if_pos hlt] at hr
  obtain ⟨q, hq, rfl⟩ := Option.map_eq_some_iff.mp hr
  obtain ⟨acc, free, hports⟩ := highPrioAccess_spec hq
  have hmisses : (if s.cache.activeMisses < s.cache.numMSHRs then s.misses ++ [⟨mse, cycle, none⟩]
      else s.misses) = [(⟨mse, cycle, none⟩ : Miss)] := by
    rw [if_pos hlt, h.misses]
    rfl
  refine ⟨hmisses, ?_⟩
  obtain ⟨n, hn⟩ : ∃ n, s.cache.numMSHRs = n + 1 := Nat.exists_eq_succ_of_ne_zero h.numMSHRs.ne'
  have hlist : ((s.cache.setActive (s.cache.activeMisses + 1)).MSHRAdd mse.lineAddr
      mse.lineId).mshrList = ⟨mse.lineAddr, true, mse.lineId, 0, s.cache.care.hashAddr mse.lineAddr⟩
        :: List.replicate n ⟨0, false, 0, 0, 0⟩ := by
    have hfree : s.cache.mshrList =
        ⟨0, false, 0, 0, 0⟩ :: List.replicate n ⟨0, false, 0, 0, 0⟩ := by
      rw [h.list, hn, List.replicate_succ]
    rw [MSHRAdd]
    have hset : (s.cache.setActive (s.cache.activeMisses + 1)).mshrList = s.cache.mshrList := rfl
    rw [hset, hfree]
    rfl
  have hfields : ((s.cache.setActive (s.cache.activeMisses + 1)).MSHRAdd mse.lineAddr
      mse.lineId).activeMisses = 1 ∧ ((s.cache.setActive (s.cache.activeMisses + 1)).MSHRAdd
      mse.lineAddr mse.lineId).lastRecordedCycle = 0 := by
    rw [MSHRAdd, h.active]
    split
    · exact ⟨rfl, h.recorded⟩
    · exact ⟨rfl, h.recorded⟩
  have hvalid := PCMUpdate_first cycle hlist rfl hfields.1 hfields.2
  rw [totalPMC, hports]
  show (((ite _ _ _ : List Miss).filterMap (·.finish)).map (·.2)).sum +
    ((validEntries (TimingCache.PCMUpdate _ cycle).mshrList).map (·.PMC)).sum = 1
  rw [hmisses, hvalid]
  norm_num

theorem busyCycles_start {mse : MissStartEvent} {cycle : Nat} :
    busyCycles [⟨mse, cycle, none⟩] cycle = 0 := by
  rw [busyCycles, Finset.card_eq_zero, Finset.filter_eq_empty_iff]
  intro n hn hpos
  rw [held, List.countP_pos_iff] at hpos
  obtain ⟨m, hm, hholds⟩ := hpos
  rw [List.mem_singleton] at hm
  have hle : cycle ≤ n := by
    have := (of_decide_eq_true hholds).1
    rwa [hm] at this
  have hlt := Finset.mem_range.mp hn
  omega

theorem Fresh.lawful_iff {es : List CacheEvent} (h : Fresh s) (hruns : s.Runs es) :
    s.Lawful es ↔ ∀ e ∈ es, isMissStart e = false := by
  induction es generalizing s with
  | nil => simp [Lawful]
  | cons e es ih =>
    obtain ⟨ha, s', hs, hrest⟩ := hruns
    rw [List.forall_mem_cons]
    cases e with
    | hit ev cycle =>
      have h' := h.hit hs
      rw [← ih h' hrest]
      constructor
      · intro hl
        exact ⟨rfl, (hl s' hs).2.2⟩
      · rintro ⟨-, hl⟩ s'' hs''
        rw [hs] at hs''
        cases hs''
        refine ⟨?_, ?_, hl⟩
        · intro m hm
          rw [h'.misses] at hm
          cases hm
        · intro hne
          exact absurd (h'.misses.trans h.misses.symm) hne
    | missStart mse cycle =>
      obtain ⟨hmisses, htotal⟩ := h.start hs
      constructor
      · intro hl
        have hlaw := (hl s' hs).2.1 (by rw [hmisses, h.misses]; exact List.cons_ne_nil _ _)
        rw [TotalLaw, htotal, hmisses] at hlaw
        have hbusy : busyCycles [⟨mse, cycle, none⟩] cycle = 0 := busyCycles_start
        rw [show (CacheEvent.missStart mse cycle).cycle = cycle from rfl, hbusy] at hlaw
        norm_num at hlaw
      · rintro ⟨hno, -⟩
        cases hno
    | missWriteback ev cycle i =>
      obtain ⟨m, hm, -⟩ := ha
      rw [h.misses] at hm
      cases hm

/-- The contributions are right in a run only if no miss ever starts in it. -/
theorem lawful_iff_no_miss {numMSHRs : Nat} {care : CAREReplPolicy} {es : List CacheEvent}
    (hpos : 0 < numMSHRs) (hruns : (init numMSHRs care).Runs es) :
    (init numMSHRs care).Lawful es ↔ ∀ e ∈ es, isMissStart e = false := by
  have hfresh : Fresh (init numMSHRs care) := ⟨hpos, rfl, rfl, rfl, rfl⟩
  exact hfresh.lawful_iff hruns

theorem lawful_iff_no_miss_hit : (init 2 (.init 4)).Runs [.hit 0 10, .missStart ⟨1, 5, 0⟩ 12] ∧
    ((init 2 (.init 4)).Lawful [.hit 0 10, .missStart ⟨1, 5, 0⟩ 12] ↔
      ∀ e ∈ [CacheEvent.hit 0 10, .missStart ⟨1, 5, 0⟩ 12], isMissStart e = false) := by
  have hruns : (init 2 (.init 4)).Runs [.hit 0 10, .missStart ⟨1, 5, 0⟩ 12] :=
    ⟨trivial, _, rfl, trivial, _, rfl, trivial⟩
  exact ⟨hruns, lawful_iff_no_miss (by decide) hruns⟩

/-- A miss is outstanding from cycle 10 to cycle 20, and the writeback hands 1 to DTRM. -/
theorem handed_first_miss : ∃ s t : TimingRun,
    (init 1 (.init 4)).step (.missStart ⟨0, 5, 0⟩ 10) = some s ∧
      s.misses = [⟨⟨0, 5, 0⟩, 10, none⟩] ∧ s.step (.missWriteback 1 20 0) = some t ∧
      t.misses = [⟨⟨0, 5, 0⟩, 10, some (20, 1)⟩] := by
  have hcharge : 0 + charge 1 1 = 1 := by norm_num [charge]
  have hmisses : [(⟨⟨0, 5, 0⟩, 10, some (20, 0 + charge 1 1)⟩ : Miss)] =
      [⟨⟨0, 5, 0⟩, 10, some (20, 1)⟩] := by rw [hcharge]
  exact ⟨_, _, rfl, rfl, rfl, hmisses⟩

/-- The contribution of that miss is 10. -/
theorem one_miss_unlawful : ∃ s t : TimingRun,
    (init 1 (.init 4)).step (.missStart ⟨0, 5, 0⟩ 10) = some s ∧
      s.step (.missWriteback 1 20 0) = some t ∧
      t.misses = [⟨⟨0, 5, 0⟩, 10, some (20, 1)⟩] ∧ contribution t.misses 10 20 = 10 ∧
      (init 1 (.init 4)).Runs [.missStart ⟨0, 5, 0⟩ 10, .missWriteback 1 20 0] ∧
      ¬ (init 1 (.init 4)).Lawful [.missStart ⟨0, 5, 0⟩ 10, .missWriteback 1 20 0] := by
  obtain ⟨s, t, hs, hout, ht, hmisses⟩ := handed_first_miss
  have hten : contribution [⟨⟨0, 5, 0⟩, 10, some (20, 1)⟩] 10 20 = 10 := by decide +kernel
  rw [← hmisses] at hten
  have hallowed : s.Allowed (.missWriteback 1 20 0) := ⟨_, by rw [hout]; rfl, rfl⟩
  refine ⟨s, t, hs, ht, hmisses, hten, ⟨trivial, s, hs, hallowed, t, ht, trivial⟩, fun hl => ?_⟩
  have hlaw : t.HandedLaw := ((hl s hs).2.2 t ht).1
  have hmem : ⟨⟨0, 5, 0⟩, 10, some (20, 1)⟩ ∈ t.misses := by
    rw [hmisses]
    exact List.mem_singleton_self _
  have hone := (hlaw _ hmem (20, 1) rfl).1
  rw [hten] at hone
  norm_num at hone

end TimingRun

end ZSim
