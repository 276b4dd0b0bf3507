import ZSim.DetailedMem

/-! The data bus of the detailed memory model. The log holds the intervals of the last accesses
in order, its first entry standing for all the earlier ones, and the search for a slot keeps
clear of every entry. The power-down penalty is added after the search. -/

namespace ZSim

/-- Two intervals of the data bus that do not overlap. -/
def BusDisjoint (x y : Nat × Nat) : Prop := x.2 ≤ y.1 ∨ y.2 ≤ x.1

theorem BusDisjoint.symm {x y : Nat × Nat} (h : BusDisjoint x y) : BusDisjoint y x := Or.symm h

instance : Std.Total busLe where
  total x y := by
    unfold busLe
    omega

instance : IsTrans (Nat × Nat) busLe where
  trans x y z := by
    unfold busLe
    omega

/-- A log of separate intervals in order, none shorter than a transfer, and only the ones from
cycle zero longer. -/
structure BusLog (tTrans : Nat) (log : List (Nat × Nat)) : Prop where
  sep : log.Pairwise fun x y => x.2 ≤ y.1
  long : ∀ x ∈ log, x.1 + tTrans ≤ x.2
  exact : ∀ x ∈ log, x.1 ≠ 0 → x.2 = x.1 + tTrans

variable {tTrans tRTRS tStart : Nat} {x : Nat × Nat} {log : List (Nat × Nat)}

theorem BusLog.tail (h : BusLog tTrans (x :: log)) : BusLog tTrans log :=
  ⟨h.sep.of_cons, fun y hy => h.long y (List.mem_cons_of_mem x hy),
    fun y hy => h.exact y (List.mem_cons_of_mem x hy)⟩

/-- The search stays where every entry of the log comes after its slot. -/
theorem searchSlot_of_late (hpos : 0 < tTrans)
    (h : ∀ y ∈ log, tStart + (tTrans + tRTRS) ≤ y.1) :
    searchSlot tRTRS (tTrans + tRTRS) log tStart = tStart := by
  induction log with
  | nil => rfl
  | cons x log ih =>
    obtain ⟨busStart, busEnd⟩ := x
    have hx := h (busStart, busEnd) List.mem_cons_self
    simp only at hx
    have hfree : ¬(busStart < tStart + (tTrans + tRTRS) ∧
        tStart + (tTrans + tRTRS) ≤ busEnd + tRTRS ∨
        busStart ≤ tStart ∧ tStart < busEnd + tRTRS) := by omega
    rw [searchSlot, if_neg hfree, ih fun y hy => h y (List.mem_cons_of_mem _ hy), ite_self]

/-- The slot found is free: each entry of the log ends a turnaround before it or starts a
turnaround after it. -/
theorem BusLog.searchSlot_free (h : BusLog tTrans log) (hpos : 0 < tTrans) :
    ∀ y ∈ log, y.2 + tRTRS ≤ searchSlot tRTRS (tTrans + tRTRS) log tStart ∨
      searchSlot tRTRS (tTrans + tRTRS) log tStart + (tTrans + tRTRS) ≤ y.1 := by
  induction log generalizing tStart with
  | nil =>
    intro y hy
    cases hy
  | cons x log ih =>
    obtain ⟨busStart, busEnd⟩ := x
    have hlong := h.long (busStart, busEnd) List.mem_cons_self
    have hexact := h.exact (busStart, busEnd) List.mem_cons_self
    have hsep : ∀ z ∈ log, busEnd ≤ z.1 := fun z hz => List.rel_of_pairwise_cons h.sep hz
    simp only at hlong hexact
    intro y hy
    rw [searchSlot]
    split_ifs with hbusy hlate
    · rcases List.mem_cons.mp hy with rfl | hy
      · exact .inl le_searchSlot
      · exact ih h.tail y hy
    · rcases List.mem_cons.mp hy with rfl | hy
      · exact .inr hlate.le
      · have := hsep y hy
        omega
    · by_cases hpast : busEnd + tRTRS ≤ tStart
      · rcases List.mem_cons.mp hy with rfl | hy
        · exact .inl (hpast.trans le_searchSlot)
        · exact ih h.tail y hy
      -- an entry that is neither busy nor past starts at the end of the slot
      · have hnext : busStart = tStart + (tTrans + tRTRS) := by omega
        have hstay := @searchSlot_of_late tTrans tRTRS tStart log hpos fun z hz => by
          have := hsep z hz
          omega
        rw [hstay]
        rcases List.mem_cons.mp hy with rfl | hy
        · exact .inr hnext.ge
        · have := hsep y hy
          omega

/-- The log covers the intervals recorded. -/
def BusCovers (log ints : List (Nat × Nat)) : Prop :=
  ∀ g ∈ ints, ∃ y ∈ log, y.1 ≤ g.1 ∧ g.2 ≤ y.2

theorem BusLog.insert (h : BusLog tTrans log) (hpos : 0 < tTrans)
    (hfree : ∀ y ∈ log, BusDisjoint y (tStart, tStart + tTrans)) :
    BusLog tTrans ((log ++ [(tStart, tStart + tTrans)]).insertionSort busLe) := by
  have hmem : ∀ y ∈ (log ++ [(tStart, tStart + tTrans)]).insertionSort busLe,
      y ∈ log ∨ y = (tStart, tStart + tTrans) := by
    intro y hy
    rw [List.mem_insertionSort] at hy
    simpa using hy
  have hlong : ∀ y ∈ (log ++ [(tStart, tStart + tTrans)]).insertionSort busLe,
      y.1 + tTrans ≤ y.2 := by
    intro y hy
    rcases hmem y hy with hy | rfl
    · exact h.long y hy
    · exact Nat.le_refl _
  have hdis : (log ++ [(tStart, tStart + tTrans)]).Pairwise BusDisjoint := by
    apply List.pairwise_append.mpr
    refine ⟨h.sep.imp Or.inl, List.pairwise_singleton _ _, ?_⟩
    intro y hy z hz
    rw [List.mem_singleton.mp hz]
    exact hfree y hy
  refine ⟨?_, hlong, ?_⟩
  · have hdis' := ((List.perm_insertionSort busLe _).pairwise_iff
      BusDisjoint.symm).mpr hdis
    refine (hdis'.and (List.pairwise_insertionSort busLe _)).imp_of_mem ?_
    intro y z hy hz hyz
    have := hlong y hy
    have := hlong z hz
    obtain ⟨hyz, hle⟩ := hyz
    unfold BusDisjoint at hyz
    unfold busLe at hle
    omega
  · intro y hy hy0
    rcases hmem y hy with hy | rfl
    · exact h.exact y hy hy0
    · rfl

/-- Cutting the oldest entry of a full log, whose second entry then stands for both. -/
theorem BusLog.cut {y : Nat × Nat} (h : BusLog tTrans (x :: y :: log)) :
    BusLog tTrans ((0, y.2) :: log) := by
  have hlong := h.long y (by simp)
  refine ⟨?_, ?_, ?_⟩
  · have hsep := h.tail.sep
    exact List.Pairwise.cons (fun z hz => List.rel_of_pairwise_cons hsep hz) hsep.of_cons
  · intro z hz
    rcases List.mem_cons.mp hz with rfl | hz
    · simp only
      omega
    · exact h.long z (by simp [hz])
  · intro z hz hz0
    rcases List.mem_cons.mp hz with rfl | hz
    · exact absurd rfl hz0
    · exact h.exact z (by simp [hz]) hz0

theorem BusCovers.cut {y : Nat × Nat} {ints : List (Nat × Nat)} (hlog : BusLog tTrans (x :: y :: log))
    (h : BusCovers (x :: y :: log) ints) : BusCovers ((0, y.2) :: log) ints := by
  intro g hg
  obtain ⟨z, hz, hle, hge⟩ := h g hg
  have hxy : x.2 ≤ y.1 := List.rel_of_pairwise_cons hlog.sep List.mem_cons_self
  have hlong := hlog.long y (by simp)
  rcases List.mem_cons.mp hz with rfl | hz
  · exact ⟨_, List.mem_cons_self, Nat.zero_le _, by simp only; omega⟩
  · rcases List.mem_cons.mp hz with rfl | hz
    · exact ⟨_, List.mem_cons_self, Nat.zero_le _, hge⟩
    · exact ⟨z, List.mem_cons_of_mem _ hz, hle, hge⟩

/-- The interval that `CalcInterIssueCycle` found for the access. -/
def MemIssue.slot (p : MemParam) (i : MemIssue) : Nat × Nat :=
  (i.rdwr + p.getDataLatency i.type, i.rdwr + p.getDataLatency i.type + p.getDataSlot i.type)

namespace MemChannel

variable {p : MemParam} {c c' : MemChannel} {issues : List MemIssue} {a : MemAccess} {i : MemIssue}

/-- The data bus of a channel and the intervals recorded, which do not overlap. -/
structure BusInv (p : MemParam) (c : MemChannel) (ints : List (Nat × Nat)) : Prop where
  log : BusLog p.tTrans c.accessLog
  covers : BusCovers c.accessLog ints
  disjoint : ints.Pairwise BusDisjoint

theorem BusInv.init : BusInv p init [] := by
  refine ⟨⟨List.Pairwise.nil, ?_, ?_⟩, ?_, List.Pairwise.nil⟩
  · intro y hy
    cases hy
  · intro y hy
    cases hy
  · intro g hg
    cases hg

theorem BusInv.updateDataBusCycle {ints : List (Nat × Nat)} (h : BusInv p c ints)
    (hpos : 0 < p.tTrans) {start : Nat}
    (hfree : ∀ y ∈ c.accessLog, BusDisjoint y (start, start + p.tTrans))
    (hlog : c.updateDataBusCycle p start (start + p.tTrans) = some c'.accessLog) :
    BusInv p c' ((start, start + p.tTrans) :: ints) := by
  have hins := h.log.insert hpos hfree
  have hcov : BusCovers ((c.accessLog ++ [(start, start + p.tTrans)]).insertionSort busLe)
      ((start, start + p.tTrans) :: ints) := by
    intro g hg
    rcases List.mem_cons.mp hg with rfl | hg
    · exact ⟨_, by simp, Nat.le_refl _, Nat.le_refl _⟩
    · obtain ⟨y, hy, hle⟩ := h.covers g hg
      exact ⟨y, by simp [hy], hle⟩
  have hdis : ((start, start + p.tTrans) :: ints).Pairwise BusDisjoint := by
    apply List.Pairwise.cons _ h.disjoint
    intro g hg
    obtain ⟨y, hy, hle, hge⟩ := h.covers g hg
    have := hfree y hy
    unfold BusDisjoint at this ⊢
    omega
  rw [MemChannel.updateDataBusCycle] at hlog
  generalize (c.accessLog ++ [(start, start + p.tTrans)]).insertionSort busLe = sorted
    at hlog hins hcov
  split_ifs at hlog with hlen
  · cases sorted with
    | nil => cases hlog
    | cons x log =>
      cases log with
      | nil => cases hlog
      | cons y log =>
        rw [List.tail_cons, Option.some.injEq] at hlog
        exact ⟨hlog ▸ hins.cut, hlog ▸ hcov.cut hins, hdis⟩
  · rw [Option.some.injEq] at hlog
    exact ⟨hlog ▸ hins, hlog ▸ hcov, hdis⟩

theorem issueCommands_slot {rk : MemRank} {act : Option Nat} {rdwr : Nat}
    (h : c.issueCommands p a = some (rk, act, rdwr)) :
    a.arrivalCycle ≤ rdwr ∧ ∃ start, rdwr = c.calcInterIssueCycle p a.type start := by
  simp only [issueCommands, guard, Option.bind_eq_bind, Option.bind_eq_some_iff, Prod.exists] at h
  obtain ⟨rk1, n, -, rk2, act0, cont, -, rk3, act1, -, rk4, start, -, _, -, _, hguard, heq⟩ := h
  simp only [Option.some.injEq, Prod.mk.injEq] at heq
  obtain ⟨-, -, rfl⟩ := heq
  split at hguard
  · exact ⟨‹_›, start, rfl⟩
  · cases hguard

/-- The interval recorded is the one found, later by the penalty. -/
theorem latencySimulate_bus (h : c.latencySimulate p a = some (c', i)) :
    i.pd_penalty = (c.ranks a.rank).getPowerDownPenalty p a.arrivalCycle ∧
      (∃ start, i.rdwr = c.calcInterIssueCycle p i.type start) ∧
      i.bus = ((i.slot p).1 + i.pd_penalty, (i.slot p).2 + i.pd_penalty) ∧
      c.updateDataBusCycle p i.bus.1 i.bus.2 = some c'.accessLog := by
  simp only [latencySimulate, Option.bind_eq_bind, Option.bind_eq_some_iff, Prod.exists] at h
  obtain ⟨rk, act, rdwr, hissue, h⟩ := h
  obtain ⟨harr, start, hstart⟩ := issueCommands_slot hissue
  simp only [recordAccess, Option.bind_eq_bind, Option.bind_eq_some_iff] at h
  obtain ⟨rk1, -, rk2, -, log, hlog, h⟩ := h
  rw [Option.some.injEq, Prod.mk.injEq] at h
  obtain ⟨rfl, rfl⟩ := h
  have hend := @busEnd_eq p a.type _ _ ((c.ranks a.rank).getPowerDownPenalty p a.arrivalCycle) harr
  refine ⟨rfl, ⟨start, hstart⟩, ?_, hlog⟩
  simp only [MemIssue.slot, MemParam.getDataSlot, hend, Prod.mk.injEq, and_true]
  omega

/-- The accesses whose rank is not powered down. -/
def Awake (p : MemParam) (_ : List MemIssue) (c : MemChannel) (a : MemAccess) : Prop :=
  (c.ranks a.rank).getPowerDownPenalty p a.arrivalCycle = 0

theorem BusInv.step (h : BusInv p c (issues.map MemIssue.bus)) (hpos : 0 < p.tTrans)
    (hawake : Awake p issues c a) (hsim : c.latencySimulate p a = some (c', i)) :
    BusInv p c' ((i :: issues).map MemIssue.bus) := by
  obtain ⟨hpen, ⟨start, hslot⟩, hbus, hlog⟩ := latencySimulate_bus hsim
  rw [hpen, hawake] at hbus
  have hbus : i.bus = i.slot p := hbus
  rw [hbus] at hlog
  rw [List.map_cons, hbus]
  apply h.updateDataBusCycle hpos _ hlog
  intro y hy
  have hfree := @BusLog.searchSlot_free p.tTrans p.tRTRS (start + p.getDataLatency i.type) _ h.log
    hpos y hy
  have hle : start + p.getDataLatency i.type ≤ searchSlot p.tRTRS (p.tTrans + p.tRTRS) c.accessLog
    (start + p.getDataLatency i.type) := le_searchSlot
  have hrdwr : i.rdwr + p.getDataLatency i.type =
      searchSlot p.tRTRS (p.tTrans + p.tRTRS) c.accessLog (start + p.getDataLatency i.type) := by
    rw [hslot, calcInterIssueCycle, MemParam.getDataSlot]
    omega
  have hfst : (i.slot p).1 = i.rdwr + p.getDataLatency i.type := rfl
  unfold BusDisjoint
  simp only
  omega

/-- What the log should keep: each interval recorded is the one found, and they do not overlap. -/
def BusExclusive (p : MemParam) (issues : List MemIssue) : Prop :=
  (∀ i ∈ issues, i.bus = i.slot p) ∧ issues.Pairwise fun i j => BusDisjoint i.bus j.bus

theorem Run.busInv (h : Run p (Awake p) c issues) (hpos : 0 < p.tTrans) :
    BusInv p c (issues.map MemIssue.bus) := by
  induction h with
  | init => exact BusInv.init
  | step _ _ hawake hsim ih => exact ih.step hpos hawake hsim

theorem Run.slots (h : Run p (Awake p) c issues) : ∀ i ∈ issues, i.bus = i.slot p := by
  induction h with
  | init =>
    intro i hi
    cases hi
  | step _ _ hawake hsim ih =>
    obtain ⟨hpen, -, hbus, -⟩ := latencySimulate_bus hsim
    rw [hpen, hawake] at hbus
    exact List.forall_mem_cons.mpr ⟨hbus, ih⟩

/-- The bus is exclusive over exactly the runs whose accesses find their rank awake. -/
theorem busExclusive_iff (h : Run p (fun _ _ _ => True) c issues) :
    BusExclusive p issues ↔ Run p (Awake p) c issues := by
  constructor
  · intro hex
    induction h with
    | init => exact Run.init
    | step _ hb _ hsim ih =>
      obtain ⟨hbus, hslots⟩ := List.forall_mem_cons.mp hex.1
      obtain ⟨hpen, -, hbus', -⟩ := latencySimulate_bus hsim
      apply Run.step (ih ⟨hslots, hex.2.of_cons⟩) hb _ hsim
      rw [hbus, Prod.ext_iff] at hbus'
      unfold Awake
      omega
  · intro hrun
    have hslots := hrun.slots
    refine ⟨hslots, ?_⟩
    by_cases hpos : 0 < p.tTrans
    · exact List.pairwise_map.mp (hrun.busInv hpos).disjoint
    · apply List.pairwise_of_forall_mem_list
      intro i hi j hj
      rw [hslots i hi, hslots j hj]
      simp only [BusDisjoint, MemIssue.slot, MemParam.getDataSlot]
      omega

/-- Ranks that take longer to wake up than a transfer and a turnaround. -/
def slowWakeup : MemParam := { MemParam.default with tXP := 6, tREFI := 5200 }

theorem busExclusive_iff_awake : ∃ c issues, Run slowWakeup (fun _ _ _ => True) c issues ∧
    issues.length = 2 ∧ BusExclusive slowWakeup issues := by
  have h0 := @Run.init slowWakeup fun _ _ _ => True
  have h1 := h0.step (a := ⟨0, 0, 0, .READ, 10⟩) (by decide) trivial rfl
  have h2 := h1.step (a := ⟨0, 0, 1, .READ, 20⟩) (by decide) trivial rfl
  refine ⟨_, _, h2, rfl, (busExclusive_iff h2).mpr ?_⟩
  have w0 := @Run.init slowWakeup (Awake slowWakeup)
  have w1 := w0.step (a := ⟨0, 0, 0, .READ, 10⟩) (by decide) rfl rfl
  exact w1.step (a := ⟨0, 0, 1, .READ, 20⟩) (by decide) rfl rfl

/-- Two ranks that wake up together record the same interval. -/
theorem wakeups_overlap : ¬ ∀ (p : MemParam) (c : MemChannel) (issues : List MemIssue),
    Run p (fun _ _ _ => True) c issues → BusExclusive p issues := by
  intro h
  have h0 := @Run.init slowWakeup fun _ _ _ => True
  have h1 := h0.step (a := ⟨0, 0, 0, .READ, 1000⟩) (by decide) trivial rfl
  have h2 := h1.step (a := ⟨0, 1, 0, .READ, 1000⟩) (by decide) trivial rfl
  have hdis := List.rel_of_pairwise_cons (h _ _ _ h2).2 List.mem_cons_self
  unfold BusDisjoint at hdis
  revert hdis
  decide

end MemChannel

end ZSim
