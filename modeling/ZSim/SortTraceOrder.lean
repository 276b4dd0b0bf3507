import ZSim.SortTraceMerge

/-! When the trace the sorter writes is sorted. The heap compares negated cycles as signed numbers,
so a cycle above `2 ^ 63` comes before every other one. -/

namespace ZSim.AccessTrace

open KWayMerge

namespace AccessRecord

def low (acc : AccessRecord) : Prop := acc.reqCycle.toNat ≤ 2 ^ 63

theorem toInt_neg_reqCycle (acc : AccessRecord) :
    (-acc.reqCycle).toInt =
      if acc.reqCycle.toNat ≤ 2 ^ 63 then -(acc.reqCycle.toNat : Int)
      else 2 ^ 64 - (acc.reqCycle.toNat : Int) := by
  have hlt := acc.reqCycle.isLt
  rw [BitVec.toInt_eq_toNat_cond, BitVec.toNat_neg]
  split <;> split <;> omega

theorem headKey_le_iff {a b : AccessRecord} :
    b.headKey ≤ a.headKey ↔ (-b.reqCycle).toInt < (-a.reqCycle).toInt ∨
      (-b.reqCycle).toInt = (-a.reqCycle).toInt ∧ b.childId.toNat ≤ a.childId.toNat :=
  Prod.Lex.toLex_le_toLex

/-- The heap hands out records of one side of `2 ^ 63` in the order of their cycles. -/
theorem reqCycle_le {a b : AccessRecord} (hside : a.low ↔ b.low) (h : b.headKey ≤ a.headKey) :
    a.reqCycle.toNat ≤ b.reqCycle.toNat := by
  rw [headKey_le_iff, toInt_neg_reqCycle, toInt_neg_reqCycle] at h
  unfold low at hside
  split at h <;> split at h <;> omega

theorem not_headKey_le {a b : AccessRecord} (ha : a.low) (hb : ¬ b.low) :
    ¬ b.headKey ≤ a.headKey := by
  have hlt := b.reqCycle.isLt
  unfold low at ha hb
  rw [headKey_le_iff, toInt_neg_reqCycle, toInt_neg_reqCycle, if_neg hb, if_pos ha]
  omega

theorem childId_le {a b : AccessRecord} (hcycle : a.reqCycle.toNat = b.reqCycle.toNat)
    (h : b.headKey ≤ a.headKey) : b.childId.toNat ≤ a.childId.toNat := by
  rw [headKey_le_iff, BitVec.eq_of_toNat_eq hcycle] at h
  omega

end AccessRecord

/-- No record above `2 ^ 63` is at the head of its queue while another child has one below. -/
def NoOvertake (q : Nat → List AccessRecord) : Prop :=
  ∀ i j, ∀ r ∈ q i, ∀ h ∈ q j, r.low → ¬ h.low →
    i = j ∨ ∃ r' ∈ q j, r'.low ∧ r'.headKey ≤ r.headKey

def CycleSorted (T : List AccessRecord) : Prop :=
  T.Pairwise fun a b => a.reqCycle.toNat ≤ b.reqCycle.toNat

section

variable {q : Nat → List AccessRecord} {i : Nat} {a : AccessRecord} {rest : List AccessRecord}

theorem NoOvertake.head_le (h : NoOvertake q) (hsorted : ∀ j, CycleSorted (q j))
    (hi : q i = a :: rest) (hmax : ∀ j b bs, q j = b :: bs → b.headKey ≤ a.headKey) {j : Nat}
    {b : AccessRecord} (hb : b ∈ q j) : a.reqCycle.toNat ≤ b.reqCycle.toNat := by
  have hfirst := hsorted i
  rw [hi] at hfirst
  have hfront : ∀ c ∈ rest, a.reqCycle.toNat ≤ c.reqCycle.toNat := fun c hc =>
    List.rel_of_pairwise_cons hfirst hc
  obtain ⟨c, cs, hj⟩ := List.exists_cons_of_ne_nil (List.ne_nil_of_mem hb)
  have hcb : c.reqCycle.toNat ≤ b.reqCycle.toNat := by
    have hj' := hsorted j
    rw [hj] at hj' hb
    rcases List.mem_cons.mp hb with rfl | hb
    · exact Nat.le_refl _
    · exact List.rel_of_pairwise_cons hj' hb
  by_cases hij : i = j
  · subst hij
    rw [hi] at hb
    rcases List.mem_cons.mp hb with rfl | hb
    · exact Nat.le_refl _
    · exact hfront b hb
  by_cases hlow : a.low
  · -- the head `c` of the other queue is below too, since its key is no greater
    have hc : c.low := by
      by_contra hc
      exact AccessRecord.not_headKey_le hlow hc (hmax j c cs hj)
    exact Nat.le_trans (AccessRecord.reqCycle_le (by tauto) (hmax j c cs hj)) hcb
  · -- a record below in the other queue would have one of this queue before the head `a`
    have hhigh : ¬ c.low := by
      intro hc
      obtain hji | ⟨r', hr', hlow', -⟩ := h j i c (hj ▸ List.mem_cons_self) a
        (hi ▸ List.mem_cons_self) hc hlow
      · exact hij hji.symm
      · rw [hi] at hr'
        rcases List.mem_cons.mp hr' with rfl | hr'
        · exact hlow hlow'
        · exact hlow (Nat.le_trans (hfront r' hr') hlow')
    exact Nat.le_trans (AccessRecord.reqCycle_le (by tauto) (hmax j c cs hj)) hcb

theorem NoOvertake.tail (h : NoOvertake q) (hown : ∀ j, ∀ b ∈ q j, b.childId.toNat = j)
    (hsorted : ∀ j, CycleSorted (q j))
    (hi : q i = a :: rest) (hmax : ∀ j b bs, q j = b :: bs → b.headKey ≤ a.headKey)
    (hfirst : ∀ j, ∀ b ∈ q j, a.reqCycle.toNat ≤ b.reqCycle.toNat) :
    NoOvertake (Function.update q i rest) := by
  intro j k r hr b hb hlow hhigh
  have hr' := mem_of_mem_update hi hr
  obtain hjk | ⟨r', hmem, hlow', hle⟩ := h j k r hr' b (mem_of_mem_update hi hb) hlow hhigh
  · exact .inl hjk
  rcases mem_update hi hmem with hmem | ⟨rfl, rfl⟩
  · exact .inr ⟨r', hmem, hlow', hle⟩
  · -- the head that left stood for a record of its own cycle, which is its own child's then
    obtain ⟨c, cs, hj⟩ := List.exists_cons_of_ne_nil (List.ne_nil_of_mem hr')
    have hrc : c.reqCycle.toNat ≤ r.reqCycle.toNat := by
      have hj' := hsorted j
      rw [hj] at hj' hr'
      rcases List.mem_cons.mp hr' with rfl | hr'
      · exact Nat.le_refl _
      · exact List.rel_of_pairwise_cons hj' hr'
    have hra : r.reqCycle.toNat ≤ r'.reqCycle.toNat :=
      AccessRecord.reqCycle_le (iff_of_true hlow hlow') hle
    have hac := hfirst j c (hj ▸ List.mem_cons_self)
    have hj_le := AccessRecord.childId_le (by omega) (hmax j c cs hj)
    have hle_j := AccessRecord.childId_le (by omega) hle
    rw [hown j c (hj ▸ List.mem_cons_self), hown k r' hmem] at hj_le
    rw [hown j r hr', hown k r' hmem] at hle_j
    exact .inl (Nat.le_antisymm hj_le hle_j)

theorem NoOvertake.of_tail (h : NoOvertake (Function.update q i rest))
    (hi : q i = a :: rest) (hmax : ∀ j b bs, q j = b :: bs → b.headKey ≤ a.headKey)
    (hfirst : ∀ j, ∀ b ∈ q j, a.reqCycle.toNat ≤ b.reqCycle.toNat) : NoOvertake q := by
  intro j k r hr b hb hlow hhigh
  rcases mem_update hi hb with hb' | ⟨rfl, rfl⟩
  · rcases mem_update hi hr with hr' | ⟨rfl, rfl⟩
    · obtain hjk | ⟨r', hmem, hlow', hle⟩ := h j k r hr' b hb' hlow hhigh
      · exact .inl hjk
      · exact .inr ⟨r', mem_of_mem_update hi hmem, hlow', hle⟩
    · obtain ⟨c, cs, hk⟩ := List.exists_cons_of_ne_nil (List.ne_nil_of_mem hb)
      have hc : c.low := by
        by_contra hc
        exact AccessRecord.not_headKey_le hlow hc (hmax k c cs hk)
      exact .inr ⟨c, hk ▸ List.mem_cons_self, hc, hmax k c cs hk⟩
  · exact absurd (Nat.le_trans (hfirst j r hr) hlow) hhigh

/-- The merge is sorted by cycle exactly when no record above overtakes one below. -/
theorem sorted_iff {out : List AccessRecord} (h : Merges AccessRecord.headKey q out)
    (hown : ∀ j, ∀ b ∈ q j, b.childId.toNat = j) (hsorted : ∀ j, CycleSorted (q j)) :
    CycleSorted out ↔ NoOvertake q := by
  induction h with
  | nil h =>
    refine iff_of_true List.Pairwise.nil fun i j r hr => ?_
    simp [h i] at hr
  | @cons q i a rest out hi hmax hrest ih =>
    have hrest' : CycleSorted rest := (List.pairwise_cons.mp (hi ▸ hsorted i)).2
    have ih := ih (fun j b hb => hown j b (mem_of_mem_update hi hb)) fun j => by
      by_cases hij : j = i
      · subst hij
        rwa [Function.update_self]
      · rw [Function.update_of_ne hij]
        exact hsorted j
    have hmem : ∀ b, b ∈ out ↔ ∃ j, b ∈ Function.update q i rest j := fun _ => hrest.mem_iff
    rw [CycleSorted, List.pairwise_cons]
    constructor
    · rintro ⟨hfirst, hout⟩
      refine (ih.mp hout).of_tail hi hmax fun j b hb => ?_
      rcases mem_update hi hb with hb | ⟨rfl, -⟩
      · exact hfirst b ((hmem b).mpr ⟨j, hb⟩)
      · exact Nat.le_refl _
    · intro hno
      have hfirst : ∀ j, ∀ b ∈ q j, a.reqCycle.toNat ≤ b.reqCycle.toNat := fun j b hb =>
        hno.head_le hsorted hi hmax hb
      refine ⟨fun b hb => ?_, ih.mpr (hno.tail hown hsorted hi hmax hfirst)⟩
      obtain ⟨j, hj⟩ := (hmem b).mp hb
      exact hfirst j b (mem_of_mem_update hi hj)

end

theorem childAccs_owner {T : List AccessRecord} (i : Nat) :
    ∀ acc ∈ childAccs T i, acc.childId.toNat = i := fun _ hacc => (mem_childAccs.mp hacc).2

theorem cycleSorted_childAccs {T : List AccessRecord} (h : T.Pairwise fun a b =>
    a.childId = b.childId → a.reqCycle.toNat ≤ b.reqCycle.toNat) (i : Nat) :
    CycleSorted (childAccs T i) :=
  List.pairwise_filter.mpr (h.imp fun hab ha hb => hab (BitVec.eq_of_toNat_eq
    ((of_decide_eq_true ha).trans (of_decide_eq_true hb).symm)))

/-- Each child with a record above `2 ^ 63` has a record below it that is not written before any
record below of another child. -/
def LowRecordsFirst (T : List AccessRecord) : Prop :=
  ∀ r ∈ T, ∀ h ∈ T, r.reqCycle.toNat ≤ 2 ^ 63 → 2 ^ 63 < h.reqCycle.toNat →
    r.childId = h.childId ∨ ∃ r' ∈ T, r'.childId = h.childId ∧ r'.reqCycle.toNat ≤ 2 ^ 63 ∧
      (r.reqCycle.toNat < r'.reqCycle.toNat ∨
        r.reqCycle = r'.reqCycle ∧ r'.childId.toNat ≤ r.childId.toNat)

theorem AccessRecord.headKey_le_low {a b : AccessRecord} (ha : a.low) (hb : b.low) :
    b.headKey ≤ a.headKey ↔ a.reqCycle.toNat < b.reqCycle.toNat ∨
      a.reqCycle = b.reqCycle ∧ b.childId.toNat ≤ a.childId.toNat := by
  unfold low at ha hb
  rw [headKey_le_iff, toInt_neg_reqCycle, toInt_neg_reqCycle, if_pos ha, if_pos hb,
    ← BitVec.toNat_inj]
  omega

theorem noOvertake_childAccs {T : List AccessRecord} :
    NoOvertake (childAccs T) ↔ LowRecordsFirst T := by
  constructor
  · intro hno r hr h hh hlow hhigh
    obtain hij | ⟨r', hr', hlow', hle⟩ := hno _ _ r (mem_childAccs.mpr ⟨hr, rfl⟩) h
      (mem_childAccs.mpr ⟨hh, rfl⟩) hlow (Nat.not_le_of_lt hhigh)
    · exact .inl (BitVec.eq_of_toNat_eq hij)
    · obtain ⟨hmem, hown⟩ := mem_childAccs.mp hr'
      exact .inr ⟨r', hmem, BitVec.eq_of_toNat_eq hown, hlow',
        (AccessRecord.headKey_le_low hlow hlow').mp hle⟩
  · intro hlows i j r hr h hh hlow hhigh
    obtain ⟨hrT, rfl⟩ := mem_childAccs.mp hr
    obtain ⟨hhT, rfl⟩ := mem_childAccs.mp hh
    obtain hij | ⟨r', hr', hown, hlow', hbefore⟩ := hlows r hrT h hhT hlow (Nat.lt_of_not_le hhigh)
    · exact .inl (congrArg BitVec.toNat hij)
    · exact .inr ⟨r', mem_childAccs.mpr ⟨hr', congrArg BitVec.toNat hown⟩, hlow',
        (AccessRecord.headKey_le_low hlow hlow').mpr hbefore⟩

/-- `out` has the records of `T` sorted by cycle, those of each child in the order they had. -/
structure SortedMerge (T out : List AccessRecord) : Prop where
  perm : out.Perm T
  sorted : CycleSorted out
  stable : ∀ i, childAccs out i = childAccs T i

/-- The progress line divides by the number of records. -/
theorem sorttrace_nil {input : TraceFile} (h : input.Holds []) (fuel : Nat) :
    sorttrace fuel input = none := by
  obtain ⟨tr, hnew, hgood, hrest, hrecords, -⟩ := AccessTraceReader.new_spec h.finished
  have haccs : input.accs = [] := h.accs_eq.1
  have hempty : tr.empty = true := hgood.empty_iff.mpr (hrest.trans haccs)
  have hzero : tr.numRecords = 0 := by rw [hrecords, haccs, List.length_nil]
  cases fuel with
  | zero => simp [sorttrace, hnew, WhileLoop.whileM]
  | succ fuel =>
    have hstop : SortState.unsorted (.new tr) = false := by
      simp [SortState.unsorted, SortState.new, hempty]
    have hloop : WhileLoop.whileM none SortState.unsorted (SortState.round (fuel + 1)) (fuel + 1)
        (.new tr) = some (.new tr) := by simp [WhileLoop.whileM, hstop]
    have hprint : printProgress 0 0 (SortState.totalRecords (.new tr)) = none := by
      simp [printProgress, SortState.totalRecords, SortState.new, hzero]
    rw [sorttrace, hnew, Option.bind_eq_bind, Option.bind_some, hloop, Option.bind_eq_bind,
      Option.bind_some]
    simp only [SortState.new] at hprint ⊢
    rw [hprint]
    rfl

theorem sorttrace_sorts_iff {fuel : Nat} {input : TraceFile} {T : List AccessRecord}
    (h : input.Holds T) (hsorted : ∀ i, CycleSorted (childAccs T i)) (hfuel : T.length < fuel) :
    (∃ output out, sorttrace fuel input = some output ∧ output.Holds out ∧ SortedMerge T out) ↔
      T ≠ [] ∧ LowRecordsFirst T := by
  constructor
  · rintro ⟨output, out, hrun, hout, hmerge⟩
    have hne : T ≠ [] := by
      rintro rfl
      simp [sorttrace_nil h] at hrun
    obtain ⟨output', out', hrun', hout', -, -, hmerges⟩ := sorttrace_merges h hne hfuel
    obtain rfl : output = output' := Option.some_inj.mp (hrun.symm.trans hrun')
    obtain rfl : out = out' := Option.some_inj.mp (hout.records.symm.trans hout'.records)
    refine ⟨hne, noOvertake_childAccs.mp ?_⟩
    exact (sorted_iff hmerges (fun i => childAccs_owner i) hsorted).mp hmerge.sorted
  · rintro ⟨hne, hlows⟩
    obtain ⟨output, out, hrun, hout, -, hkeep, hmerges⟩ := sorttrace_merges h hne hfuel
    have hno := noOvertake_childAccs.mpr hlows
    exact ⟨output, out, hrun, hout, perm_of_filter_eq (fun acc => acc.childId.toNat) hkeep,
      (sorted_iff hmerges (fun i => childAccs_owner i) hsorted).mpr hno, hkeep⟩

theorem sorttrace_sorts_three_records :
    (∃ output out, sorttrace 4 ⟨[⟨1, 10, 5, 0, 0⟩, ⟨2, 5, 5, 1, 1⟩, ⟨3, 20, 5, 0, 2⟩], 2, 1⟩ = some output ∧
      output.Holds out ∧
      SortedMerge [⟨1, 10, 5, 0, .GETS⟩, ⟨2, 5, 5, 1, .GETX⟩, ⟨3, 20, 5, 0, .PUTS⟩] out) ↔
    [(⟨1, 10, 5, 0, .GETS⟩ : AccessRecord), ⟨2, 5, 5, 1, .GETX⟩, ⟨3, 20, 5, 0, .PUTS⟩] ≠ [] ∧
      LowRecordsFirst [⟨1, 10, 5, 0, .GETS⟩, ⟨2, 5, 5, 1, .GETX⟩, ⟨3, 20, 5, 0, .PUTS⟩] :=
  sorttrace_sorts_iff ⟨by decide, by decide, by decide⟩
    (cycleSorted_childAccs (by decide)) (by decide)

theorem empty_trace_fails :
    ¬ ∀ (fuel : Nat) (input : TraceFile) (T : List AccessRecord), input.Holds T →
      (∀ i, CycleSorted (childAccs T i)) → T.length < fuel →
      ∃ output out, sorttrace fuel input = some output ∧ output.Holds out ∧ SortedMerge T out := by
  intro hall
  have hempty : TraceFile.Holds ⟨[], 1, 1⟩ [] := ⟨by decide, rfl, by simp⟩
  obtain ⟨output, out, hrun, -⟩ := hall 1 ⟨[], 1, 1⟩ [] hempty (fun _ => .nil) Nat.one_pos
  rw [sorttrace_nil hempty 1] at hrun
  cases hrun

end ZSim.AccessTrace
