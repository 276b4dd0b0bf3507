import Mathlib.Tactic
import ZSim.VantageCounts

/-! Vantage with smooth transients: lines taken from shrinking partitions go to growing ones. -/

namespace ZSim

namespace VantageReplPolicy

open Finset

variable {R : MTRand} {G : VantageConfig} {s s' s'' : VantageReplPolicy R} {id part p : Nat}

def target (s : VantageReplPolicy R) (p : Nat) : Nat := (s.partInfo p).targetSize

def longTerm (s : VantageReplPolicy R) (p : Nat) : Nat := (s.partInfo p).longTermTargetSize

@[simp] theorem setPart_target (i : VantagePartInfo) :
    (s.setPart p i).target = Function.update s.target p i.targetSize := by
  funext q
  by_cases hq : q = p <;> simp [target, setPart, hq]

@[simp] theorem setPart_longTerm (i : VantagePartInfo) :
    (s.setPart p i).longTerm = Function.update s.longTerm p i.longTermTargetSize := by
  funext q
  by_cases hq : q = p <;> simp [longTerm, setPart, hq]

structure Steady (s s' : VantageReplPolicy R) : Prop where
  target : s'.target = s.target
  longTerm : s'.longTerm = s.longTerm

namespace Steady

theorem refl (s : VantageReplPolicy R) : Steady s s := ⟨rfl, rfl⟩

theorem trans (h : Steady s s') (h' : Steady s' s'') : Steady s s'' :=
  ⟨h'.target.trans h.target, h'.longTerm.trans h.longTerm⟩

theorem of_partInfo (h : s'.partInfo = s.partInfo) : Steady s s' := by
  constructor
  · funext p
    rw [VantageReplPolicy.target, h, VantageReplPolicy.target]
  · funext p
    rw [VantageReplPolicy.longTerm, h, VantageReplPolicy.longTerm]

theorem touch (s : VantageReplPolicy R) (id : Nat) : Steady s (s.touch id) := of_partInfo rfl

theorem setLine (e : VantageLine) : Steady s (s.setLine id e) := of_partInfo rfl

theorem setPart {i : VantagePartInfo} (ht : i.targetSize = (s.partInfo p).targetSize)
    (hl : i.longTermTargetSize = (s.partInfo p).longTermTargetSize) :
    Steady s (s.setPart p i) := by
  constructor
  · rw [setPart_target, ht]
    exact Function.update_eq_self p s.target
  · rw [setPart_longTerm, hl]
    exact Function.update_eq_self p s.longTerm

theorem sizeDec (h : s.sizeDec p = some s') : Steady s s' := by
  rw [VantageReplPolicy.sizeDec] at h
  split at h
  · cases h
  · cases h
    exact setPart rfl rfl

theorem extendedDec (h : s.extendedDec p = some s') : Steady s s' := by
  rw [VantageReplPolicy.extendedDec] at h
  split at h
  · cases h
  · cases h
    exact setPart rfl rfl

theorem insCount_sizeInc (s : VantageReplPolicy R) (p : Nat) :
    Steady s ((s.insCount p).sizeInc p) :=
  (setPart rfl rfl : Steady s (s.insCount p)).trans (setPart rfl rfl)

theorem hit (h : s.hit G id part = some s') : Steady s s' := by
  rw [VantageReplPolicy.hit] at h
  split at h
  · obtain ⟨s₁, hs₁, rfl⟩ := Option.map_eq_some_iff.mp h
    have hinc := (setLine _).trans
      (insCount_sizeInc (s.setLine id { s.array id with p := part }) part)
    exact (hinc.trans (sizeDec hs₁)).trans (touch s₁ id)
  · cases h
    exact touch s id

theorem fill (h : s.fill id part = some s') : Steady s s' := by
  rw [VantageReplPolicy.fill] at h
  obtain ⟨s₁, hs₁, h₁⟩ := Option.bind_eq_some_iff.mp h
  obtain ⟨s₂, hs₂, rfl⟩ := Option.map_eq_some_iff.mp h₁
  have hdec : Steady s s₂ := (touch s id).trans ((sizeDec hs₁).trans (extendedDec hs₂))
  let s₃ := s₂.setLine id { s₂.array id with p := part, op := part }
  have hinc : Steady s₂ ((s₃.insCount part).sizeInc part) :=
    (setLine _).trans (insCount_sizeInc s₃ part)
  exact (hdec.trans hinc).trans (setPart rfl rfl)

theorem account (h : s.account G id part = some s') : Steady s s' := by
  rw [VantageReplPolicy.account] at h
  split at h
  · exact hit h
  · exact fill h

theorem retime (s : VantageReplPolicy R) (id : Nat) : Steady s (s.retime id) := by
  rw [VantageReplPolicy.retime]
  refine (setLine { s.array id with bts := (s.partInfo (s.array id).p).curBts }).trans
    (setPart ?_ ?_)
  · split <;> rfl
  · split <;> rfl

theorem endInterval (h : s.endInterval G p = some s') : Steady s s' := by
  obtain ⟨m, -, rfl⟩ := Option.map_eq_some_iff.mp h
  exact setPart rfl rfl

theorem demote (h : s.demote G id p = some s') : Steady s s' := by
  obtain ⟨s₁, hs₁, rfl⟩ := Option.map_eq_some_iff.mp h
  let s₂ := s₁.setLine id { s₁.array id with p := G.partitions }
  have hinc : Steady s₁ (s₂.sizeInc G.partitions) := (setLine _).trans (setPart rfl rfl)
  exact ((sizeDec hs₁).trans hinc).trans (setPart rfl rfl)

theorem examine (h : s.examine G id = some s') : Steady s s' := by
  rw [VantageReplPolicy.examine] at h
  split at h
  · cases h
    exact refl s
  · obtain ⟨s₁, hs₁, h₁⟩ := Option.bind_eq_some_iff.mp h
    have hd : Steady s s₁ := by
      split at hs₁
      · exact demote hs₁
      · cases hs₁
        exact refl s
    let cands := ((s₁.partInfo (s.array id).p).curIntervalCands + 1) % 2 ^ 32
    have hc : Steady s₁ (s₁.setPart (s.array id).p
        { s₁.partInfo (s.array id).p with curIntervalCands := cands }) := setPart rfl rfl
    dsimp only at h₁
    split at h₁
    · exact (hd.trans hc).trans (endInterval h₁)
    · cases h₁
      exact hd.trans hc

theorem examineAll {ids : List Nat} (h : s.examineAll G ids = some s') : Steady s s' := by
  induction ids generalizing s with
  | nil =>
    cases h
    exact refl _
  | cons id ids ih =>
    obtain ⟨s₁, hs₁, h₁⟩ := Option.bind_eq_some_iff.mp h
    exact (examine hs₁).trans (ih h₁)

theorem getBestCandidate {r : Nat × VantageReplPolicy R} (h : s.getBestCandidate G = some r) :
    Steady s r.2 := by
  rw [VantageReplPolicy.getBestCandidate] at h
  split at h
  · cases h
  · split at h
    · obtain ⟨s₁, hs₁, hr⟩ := Option.bind_eq_some_iff.mp h
      dsimp only at hr
      split at hr
      · cases hr
        exact examineAll hs₁
      · cases hr
    · cases h

end Steady

theorem left_eq {i : VantagePartInfo} (ht : i.targetSize < 2 ^ 31)
    (hl : i.longTermTargetSize < 2 ^ 31) : left i = i.targetSize - i.longTermTargetSize := by
  have hb : ((i.targetSize : Int) - i.longTermTargetSize).bmod (2 ^ 32) =
      i.targetSize - i.longTermTargetSize := by
    apply Int.bmod_eq_of_le <;> omega
  rw [left, hb]
  omega

/-- The targets add up to `total` lines and `owed` more, with `total` enough for the long-term
ones. -/
structure Owing (G : VantageConfig) (total owed : Nat) (s : VantageReplPolicy R) : Prop where
  sum_target : ∑ p ∈ range G.partitions, s.target p = total + owed
  sum_longTerm : ∑ p ∈ range G.partitions, s.longTerm p ≤ total
  target_lt : ∀ p < G.partitions, s.target p < 2 ^ 31

variable {total owed : Nat}

theorem Owing.longTerm_le (h : Owing G total owed s) (hp : p < G.partitions) :
    s.longTerm p ≤ total :=
  (single_le_sum (fun _ _ => Nat.zero_le _) (mem_range.mpr hp)).trans h.sum_longTerm

theorem Owing.left_eq (h : Owing G total owed s) (htotal : total < 2 ^ 31)
    (hp : p < G.partitions) : left (s.partInfo p) = s.target p - s.longTerm p :=
  VantageReplPolicy.left_eq (h.target_lt p hp) ((h.longTerm_le hp).trans_lt htotal)

theorem Owing.steady (h : Owing G total owed s) (hs : Steady s s') : Owing G total owed s' := by
  constructor
  · rw [hs.target]
    exact h.sum_target
  · rw [hs.longTerm]
    exact h.sum_longTerm
  · rw [hs.target]
    exact h.target_lt

/-- The target of `p` goes towards its long-term one. -/
def Toward (s s' : VantageReplPolicy R) (p : Nat) : Prop :=
  s.target p ≤ s'.target p ∧ s'.target p ≤ s'.longTerm p ∨
    s'.longTerm p ≤ s'.target p ∧ s'.target p ≤ s.target p

theorem toward_of_eq (h : s'.target p = s.target p) : Toward s s' p := by
  rw [Toward, h]
  omega

theorem Toward.trans (h : Toward s s' p) (h' : Toward s' s'' p)
    (hl : s''.longTerm p = s'.longTerm p) : Toward s s'' p := by
  simp only [Toward] at *
  omega

theorem takeFrom_spec {l curLines : Nat} {ps : List Nat}
    (hps : ∀ p ∈ ps, left (s.partInfo p) = s.target p - s.longTerm p ∧ s.target p < 2 ^ 31)
    (hcur : curLines ≤ l) (hl : l < curLines + (ps.map fun p => left (s.partInfo p)).sum)
    (hlt : curLines + (ps.map fun p => left (s.partInfo p)).sum < 2 ^ 32) :
    ∃ p ∈ ps, ∃ s', s.takeFrom l ps curLines = some s' ∧ s.longTerm p < s.target p ∧
      s'.target = Function.update s.target p (s.target p - 1) ∧ s'.longTerm = s.longTerm := by
  induction ps generalizing curLines with
  | nil =>
    simp at hl
    omega
  | cons p ps ih =>
    simp only [List.map_cons, List.sum_cons] at hl hlt
    obtain ⟨hleft, ht⟩ := hps p (by simp)
    have hcur' : (curLines + left (s.partInfo p)) % 2 ^ 32 = curLines + left (s.partInfo p) :=
      Nat.mod_eq_of_lt (by omega)
    rw [takeFrom]
    dsimp only
    rw [hcur']
    split
    · have hdec : ((s.partInfo p).targetSize + 2 ^ 64 - 1) % 2 ^ 64 = s.target p - 1 := by
        have hself : (s.partInfo p).targetSize = s.target p := rfl
        omega
      refine ⟨p, by simp, _, rfl, by omega, ?_, ?_⟩
      · rw [setPart_target, hdec]
      · rw [setPart_longTerm]
        exact Function.update_eq_self p s.longTerm
    · obtain ⟨q, hq, s', hs', hrest⟩ := @ih (curLines + left (s.partInfo p))
        (fun q hq => hps q (by simp [hq])) (by omega) (by omega) (by omega)
      exact ⟨q, by simp [hq], s', hs', hrest⟩

theorem Owing.takeOneLine (h : Owing G total (owed + 1) s) (hsmooth : G.smoothTransients = true)
    (htotal : total < 2 ^ 31) (howed : owed < total) :
    ∃ s', s.takeOneLine G = some s' ∧ Owing G total owed s' ∧ s'.longTerm = s.longTerm ∧
      ∀ p < G.partitions, Toward s s' p := by
  let f p := left (s.partInfo p)
  have hf : ∀ p ∈ range G.partitions, f p = s.target p - s.longTerm p :=
    fun p hp => h.left_eq htotal (mem_range.mp hp)
  have hlist : ((List.range G.partitions).map f).sum = ∑ p ∈ range G.partitions, f p := rfl
  have hpos : 0 < ∑ p ∈ range G.partitions, f p := by
    have hle : ∑ p ∈ range G.partitions, s.target p ≤
        ∑ p ∈ range G.partitions, f p + ∑ p ∈ range G.partitions, s.longTerm p := by
      rw [← sum_add_distrib]
      refine sum_le_sum fun p hp => ?_
      rw [hf p hp]
      omega
    have hsum := h.sum_target
    have hlong := h.sum_longTerm
    omega
  have hlt : ∑ p ∈ range G.partitions, f p < 2 ^ 32 := by
    have hle : ∑ p ∈ range G.partitions, f p ≤ ∑ p ∈ range G.partitions, s.target p := by
      refine sum_le_sum fun p hp => ?_
      rw [hf p hp]
      omega
    have hsum := h.sum_target
    omega
  have hlines : s.linesLeft G = ∑ p ∈ range G.partitions, f p := by
    rw [linesLeft]
    exact Nat.mod_eq_of_lt hlt
  let l := R.randInt s.rng (s.linesLeft G - 1)
  have hl : l.1 < ∑ p ∈ range G.partitions, f p := by
    have hle := R.randInt_le s.rng (s.linesLeft G - 1)
    change l.1 ≤ _ at hle
    omega
  obtain ⟨p, hp, s', hs', hgt, htarget, hlongTerm⟩ :=
    @takeFrom_spec R { s with rng := l.2 } l.1 0 (List.range G.partitions)
      (fun q hq => ⟨h.left_eq htotal (List.mem_range.mp hq), h.target_lt q (List.mem_range.mp hq)⟩)
      (Nat.zero_le _) (by rw [Nat.zero_add]; exact hl) (by rw [Nat.zero_add]; exact hlt)
  change s'.target = Function.update s.target p (s.target p - 1) at htarget
  change s.longTerm p < s.target p at hgt
  change s'.longTerm = s.longTerm at hlongTerm
  have hp' : p < G.partitions := List.mem_range.mp hp
  have htaken : ∀ q, s'.target q = if q = p then s.target p - 1 else s.target q := by
    intro q
    rw [htarget, Function.update_apply]
  refine ⟨s', ?_, ?_, hlongTerm, ?_⟩
  · rw [VantageReplPolicy.takeOneLine, if_pos ⟨hsmooth, by rw [hlines]; exact hpos⟩]
    exact hs'
  · constructor
    · have hsum := @sum_update Nat G.partitions p hp' id s.target (s.target p - 1)
      simp only [id] at hsum
      rw [htarget]
      have := h.sum_target
      omega
    · rw [hlongTerm]
      exact h.sum_longTerm
    · intro q hq
      have hlt := h.target_lt q hq
      rw [htaken]
      split
      · next he =>
        subst he
        omega
      · exact hlt
  · intro q _
    simp only [Toward, htaken, hlongTerm]
    split
    · next he =>
      subst he
      omega
    · omega

theorem Owing.grow (h : Owing G total 0 s) (hsmooth : G.smoothTransients = true)
    (htotal : total < 2 ^ 31) (hpart : part < G.partitions) :
    ∃ s', s.grow G part = some s' ∧ Owing G total 0 s' ∧ ∀ p < G.partitions, Toward s s' p := by
  rw [VantageReplPolicy.grow]
  split
  · next hgrow =>
    change s.target part < s.longTerm part at hgrow
    let s₁ := s.setPart part
      { s.partInfo part with targetSize := (s.partInfo part).targetSize + 1 }
    have htarget : s₁.target = Function.update s.target part (s.target part + 1) :=
      setPart_target _
    have hlongTerm : s₁.longTerm = s.longTerm :=
      (setPart_longTerm _).trans (Function.update_eq_self part s.longTerm)
    have hle := h.longTerm_le hpart
    have hgrown : ∀ q, s₁.target q = if q = part then s.target part + 1 else s.target q := by
      intro q
      rw [htarget, Function.update_apply]
    have h₁ : Owing G total (0 + 1) s₁ := by
      constructor
      · have hsum := @sum_update Nat G.partitions part hpart id s.target (s.target part + 1)
        simp only [id] at hsum
        rw [htarget]
        have := h.sum_target
        omega
      · rw [hlongTerm]
        exact h.sum_longTerm
      · intro q hq
        have hlt := h.target_lt q hq
        rw [hgrown]
        split <;> omega
    obtain ⟨s', hs', h', hlongTerm', htoward⟩ := h₁.takeOneLine hsmooth htotal (by omega)
    refine ⟨s', hs', h', fun q hq => ?_⟩
    refine Toward.trans ?_ (htoward q hq) (congrFun hlongTerm' q)
    simp only [Toward, hgrown, hlongTerm]
    split
    · next he =>
      subst he
      omega
    · omega
  · exact ⟨s, rfl, h, fun p _ => toward_of_eq rfl⟩

theorem Owing.takeLines (h : Owing G total owed s) (hsmooth : G.smoothTransients = true)
    (htotal : total < 2 ^ 31) (howed : owed ≤ total) :
    ∃ s', takeLines G owed s = some s' ∧ Owing G total 0 s' ∧ s'.longTerm = s.longTerm ∧
      ∀ p < G.partitions, Toward s s' p := by
  induction owed generalizing s with
  | zero => exact ⟨s, rfl, h, rfl, fun p _ => toward_of_eq rfl⟩
  | succ owed ih =>
    obtain ⟨s₁, hs₁, h₁, hl₁, ht₁⟩ := h.takeOneLine hsmooth htotal (by omega)
    obtain ⟨s', hs', h', hl', ht'⟩ := ih h₁ (by omega)
    refine ⟨s', ?_, h', hl'.trans hl₁, fun p hp => (ht₁ p hp).trans (ht' p hp) (congrFun hl' p)⟩
    rw [VantageReplPolicy.takeLines, hs₁, Option.bind_some, hs']

/-- The lines that `setPartitionSizes` assigns to a partition. -/
def assigned (G : VantageConfig) (size : Nat) : Nat :=
  G.totalSize * size % 2 ^ 32 / G.partGranularity

/-- The loop of `setPartitionSizes`, with the partitions `ps` to come. -/
structure Resizing (G : VantageConfig) (sizes : Nat → Nat) (s : VantageReplPolicy R)
    (ps : List Nat) (r : VantageReplPolicy R × Nat) : Prop where
  sum_target : ∑ p ∈ range G.partitions, r.1.target p =
    ∑ p ∈ range G.partitions, s.target p + r.2
  target_le : ∀ p < G.partitions, r.1.target p ≤ max (s.target p) (assigned G (sizes p))
  todo : ∀ p ∈ ps, r.1.target p = s.target p
  longTerm : ∀ p < G.partitions, p ∉ ps → r.1.longTerm p = assigned G (sizes p)
  toward : ∀ p < G.partitions, p ∉ ps → Toward s r.1 p

theorem owed_le_of {sizes : Nat → Nat} {n : Nat}
    (hsum : ∑ p ∈ range G.partitions, s'.target p = ∑ p ∈ range G.partitions, s.target p + n)
    (hle : ∀ p < G.partitions, s'.target p ≤ max (s.target p) (assigned G (sizes p))) :
    n ≤ ∑ p ∈ range G.partitions, assigned G (sizes p) := by
  have hall : ∑ p ∈ range G.partitions, s'.target p ≤
      ∑ p ∈ range G.partitions, (s.target p + assigned G (sizes p)) := by
    refine sum_le_sum fun p hp => ?_
    have := hle p (mem_range.mp hp)
    omega
  rw [sum_add_distrib, hsum] at hall
  omega

theorem Resizing.owed_le {sizes : Nat → Nat} {ps : List Nat} {r : VantageReplPolicy R × Nat}
    (h : Resizing G sizes s ps r) : r.2 ≤ ∑ p ∈ range G.partitions, assigned G (sizes p) :=
  owed_le_of h.sum_target h.target_le

/-- The target of `p` grows no further than to the lines assigned. -/
theorem resizePart_spec {sizes : Nat → Nat} (hsmooth : G.smoothTransients = true) {n : Nat}
    (hn : n < 2 ^ 32) (htarget : s.target p < 2 ^ 31) (hlt : assigned G (sizes p) < 2 ^ 31) :
    ∃ t, s.target p ≤ t ∧ (t = s.target p ∨ t ≤ assigned G (sizes p)) ∧
      (s.target p < assigned G (sizes p) ∨ t = s.target p) ∧
      (resizePart G sizes s n p).1.target = Function.update s.target p t ∧
      (resizePart G sizes s n p).1.longTerm =
        Function.update s.longTerm p (assigned G (sizes p)) ∧
      (resizePart G sizes s n p).2 = (n + (t - s.target p)) % 2 ^ 32 := by
  let i := s.partInfo p
  have hi : i.targetSize = s.target p := rfl
  let t := max i.targetSize (min (assigned G (sizes p)) (i.size + 1))
  by_cases hgrow : i.targetSize < assigned G (sizes p)
  · have ht : t % 2 ^ 32 = t := Nat.mod_eq_of_lt (by omega)
    have hr : resizePart G sizes s n p = (s.setPart p
        { i with longTermTargetSize := assigned G (sizes p), targetSize := t % 2 ^ 32 },
        (n + t % 2 ^ 32 + 2 ^ 32 - i.targetSize) % 2 ^ 32) := by
      rw [resizePart, if_pos hsmooth]
      exact if_pos hgrow
    rw [hr, ht]
    refine ⟨t, by omega, by omega, by omega, setPart_target _, setPart_longTerm _, ?_⟩
    dsimp only
    omega
  · have hr : resizePart G sizes s n p =
        (s.setPart p { i with longTermTargetSize := assigned G (sizes p) }, n) := by
      rw [resizePart, if_pos hsmooth]
      exact if_neg hgrow
    rw [hr]
    refine ⟨s.target p, by omega, by omega, by omega, setPart_target _, setPart_longTerm _, ?_⟩
    dsimp only
    omega

theorem Resizing.next {sizes : Nat → Nat} {ps : List Nat} {r : VantageReplPolicy R × Nat}
    (hsmooth : G.smoothTransients = true) (htotal : total < 2 ^ 31)
    (hs : ∀ q < G.partitions, s.target q < 2 ^ 31)
    (hfit : ∑ p ∈ range G.partitions, assigned G (sizes p) ≤ total) (hp : p < G.partitions)
    (hps : p ∉ ps) (h : Resizing G sizes s (p :: ps) r) :
    Resizing G sizes s ps (resizePart G sizes r.1 r.2 p) := by
  have hlt : assigned G (sizes p) ≤ ∑ q ∈ range G.partitions, assigned G (sizes q) :=
    single_le_sum (fun q _ => Nat.zero_le (assigned G (sizes q))) (mem_range.mpr hp)
  have htodo := h.todo p (by simp)
  have hsp := hs p hp
  obtain ⟨t, hle, hmax, hstay, htarget, hlongTerm, howed⟩ :=
    @resizePart_spec R G r.1 p sizes hsmooth r.2 (by have := h.owed_le; omega)
      (by omega) (by omega)
  have hmove := @sum_update Nat G.partitions p hp id r.1.target t
  simp only [id] at hmove
  have hsum := h.sum_target
  have hgrown : ∀ q, (resizePart G sizes r.1 r.2 p).1.target q =
      if q = p then t else r.1.target q := by
    intro q
    rw [htarget, Function.update_apply]
  have hlines : ∀ q, (resizePart G sizes r.1 r.2 p).1.longTerm q =
      if q = p then assigned G (sizes p) else r.1.longTerm q := by
    intro q
    rw [hlongTerm, Function.update_apply]
  have hbound : ∀ q < G.partitions, (resizePart G sizes r.1 r.2 p).1.target q ≤
      max (s.target q) (assigned G (sizes q)) := by
    intro q hq
    have := h.target_le q hq
    rw [hgrown]
    split
    · next he =>
      subst he
      omega
    · omega
  have hexact : ∑ q ∈ range G.partitions, (resizePart G sizes r.1 r.2 p).1.target q =
      ∑ q ∈ range G.partitions, s.target q + (r.2 + (t - r.1.target p)) := by
    rw [htarget]
    omega
  constructor
  · have hno := owed_le_of hexact hbound
    rw [hexact, howed, Nat.mod_eq_of_lt (by omega)]
  · exact hbound
  · intro q hq
    have hne : q ≠ p := fun he => hps (he ▸ hq)
    rw [hgrown, if_neg hne]
    exact h.todo q (by simp [hq])
  · intro q hq hmem
    rw [hlines]
    split
    · next he => rw [he]
    · next hne => exact h.longTerm q hq (by simp [hne, hmem])
  · intro q hq hmem
    by_cases hqp : q = p
    · subst hqp
      simp only [Toward, hgrown, hlines, if_true]
      omega
    · have htoward := h.toward q hq (by simp [hqp, hmem])
      simp only [Toward, hgrown, hlines, if_neg hqp] at htoward ⊢
      exact htoward

theorem Resizing.all {sizes : Nat → Nat} {ps : List Nat} {r : VantageReplPolicy R × Nat}
    (hsmooth : G.smoothTransients = true) (htotal : total < 2 ^ 31)
    (hs : ∀ q < G.partitions, s.target q < 2 ^ 31)
    (hfit : ∑ p ∈ range G.partitions, assigned G (sizes p) ≤ total)
    (hps : ∀ p ∈ ps, p < G.partitions) (hnodup : ps.Nodup) (h : Resizing G sizes s ps r) :
    Resizing G sizes s [] (resizeParts G sizes ps r) := by
  induction ps generalizing r with
  | nil => exact h
  | cons p ps ih =>
    obtain ⟨hnot, hnodup'⟩ := List.nodup_cons.mp hnodup
    have hnext := h.next hsmooth htotal hs hfit (hps p (by simp)) hnot
    exact ih (fun q hq => hps q (by simp [hq])) hnodup' hnext

theorem Owing.setPartitionSizes {sizes : Nat → Nat} (h : Owing G total 0 s)
    (hsmooth : G.smoothTransients = true) (htotal : total < 2 ^ 31)
    (hgranularity : G.partGranularity ≠ 0)
    (hfit : ∑ p ∈ range G.partitions, assigned G (sizes p) ≤ total) :
    ∃ s', s.setPartitionSizes G sizes = some s' ∧ Owing G total 0 s' ∧
      ∀ p < G.partitions, Toward s s' p := by
  have hstart : Resizing G sizes s (List.range G.partitions) (s, 0) := by
    constructor
    · simp
    · exact fun p _ => le_max_left _ _
    · exact fun p _ => rfl
    · exact fun p hp hnot => absurd (List.mem_range.mpr hp) hnot
    · exact fun p hp hnot => absurd (List.mem_range.mpr hp) hnot
  have hend := hstart.all hsmooth htotal h.target_lt hfit
    (fun p hp => List.mem_range.mp hp) List.nodup_range
  let r := resizeParts G sizes (List.range G.partitions) (s, 0)
  have howing : Owing G total r.2 r.1 := by
    constructor
    · rw [hend.sum_target, h.sum_target, Nat.add_zero]
    · refine le_of_eq_of_le (sum_congr rfl fun p hp => ?_) hfit
      exact hend.longTerm p (mem_range.mp hp) (by simp)
    · intro p hp
      have hle : r.1.target p ≤ max (s.target p) (assigned G (sizes p)) := hend.target_le p hp
      have hlt := h.target_lt p hp
      have hassigned := single_le_sum (fun q _ => Nat.zero_le (assigned G (sizes q)))
        (mem_range.mpr hp)
      omega
  obtain ⟨s', hs', h', hl', htoward⟩ :=
    howing.takeLines hsmooth htotal (hend.owed_le.trans hfit)
  refine ⟨s', ?_, h', fun p hp => ?_⟩
  · rw [VantageReplPolicy.setPartitionSizes, if_neg hgranularity]
    exact hs'
  · exact (hend.toward p hp (by simp)).trans (htoward p hp) (congrFun hl' p)

theorem Owing.update (h : Owing G total 0 s) (hc : Counts G s)
    (hsmooth : G.smoothTransients = true) (htotal : total < 2 ^ 31) (hid : id < G.totalSize)
    (hpart : part < G.partitions) :
    ∃ s', s.update G id part = some s' ∧ Owing G total 0 s' ∧
      ∀ p < G.partitions, Toward s s' p := by
  obtain ⟨s₁, hs₁, -⟩ := hc.account hid hpart
  have hsteady := Steady.account hs₁
  have h₁ := h.steady hsteady
  have hgrown : ∃ s₂, (if (s.array id).ts = 0 then s₁.grow G part else some s₁) = some s₂ ∧
      Owing G total 0 s₂ ∧ ∀ p < G.partitions, Toward s₁ s₂ p := by
    split
    · exact h₁.grow hsmooth htotal hpart
    · exact ⟨s₁, rfl, h₁, fun p _ => toward_of_eq rfl⟩
  obtain ⟨s₂, hs₂, h₂, htoward⟩ := hgrown
  have hretime := Steady.retime s₂ id
  refine ⟨s₂.retime id, ?_, h₂.steady hretime, fun p hp => ?_⟩
  · rw [VantageReplPolicy.update, hs₁, Option.bind_some, hs₂, Option.map_some]
  · have ht := htoward p hp
    have he := congrFun hsteady.target p
    have hr := congrFun hretime.target p
    have hl := congrFun hretime.longTerm p
    simp only [Toward] at ht ⊢
    rwa [hr, hl, ← he]

/-- The lines that `setPartitionSizes` assigns are no more than the targets of the constructor. -/
def Fits (G : VantageConfig) : Op → Prop
  | .setPartitionSizes sizes => ∑ p ∈ range G.partitions, assigned G (sizes p) ≤
      G.partitions * (G.targetManagedSize / G.partitions)
  | _ => True

inductive ReachableFitting (G : VantageConfig) : VantageReplPolicy R → Prop where
  | init : ReachableFitting G (init G)
  | step {s s' : VantageReplPolicy R} {op : Op} : ReachableFitting G s → Allowed G op →
      Fits G op → s.step G op = some s' → ReachableFitting G s'

theorem managed_lt : G.partitions * (G.targetManagedSize / G.partitions) < 2 ^ 31 :=
  (Nat.mul_div_le _ _).trans_lt (G.managed_le.trans_lt G.totalSize_lt)

theorem owing_init : Owing G (G.partitions * (G.targetManagedSize / G.partitions)) 0
    (init G : VantageReplPolicy R) := by
  have htarget : ∀ p < G.partitions, (init G : VantageReplPolicy R).target p =
      G.targetManagedSize / G.partitions := fun p hp => if_pos hp
  have hsum : ∑ p ∈ range G.partitions, (init G : VantageReplPolicy R).target p =
      G.partitions * (G.targetManagedSize / G.partitions) := by
    rw [sum_congr rfl fun p hp => htarget p (mem_range.mp hp)]
    simp
  constructor
  · exact hsum
  · exact hsum.le
  · intro p hp
    rw [htarget p hp]
    exact (Nat.div_le_self _ _).trans_lt (G.managed_le.trans_lt G.totalSize_lt)

theorem Owing.step (h : Owing G (G.partitions * (G.targetManagedSize / G.partitions)) 0 s)
    (hc : Counts G s) (hsmooth : G.smoothTransients = true) {op : Op} (hop : Allowed G op)
    (hfit : Fits G op) (hs : s.step G op = some s') :
    Owing G (G.partitions * (G.targetManagedSize / G.partitions)) 0 s' ∧
      ∀ p < G.partitions, Toward s s' p := by
  have steady : Steady s s' →
      Owing G (G.partitions * (G.targetManagedSize / G.partitions)) 0 s' ∧
        ∀ p < G.partitions, Toward s s' p :=
    fun hst => ⟨h.steady hst, fun p _ => toward_of_eq (congrFun hst.target p)⟩
  cases op with
  | update id part =>
    obtain ⟨s₁, hs₁, h₁, ht⟩ := h.update hc hsmooth managed_lt hop.1 hop.2
    rw [VantageReplPolicy.step, hs₁] at hs
    cases hs
    exact ⟨h₁, ht⟩
  | startReplacement lineAddr =>
    cases hs
    exact steady (.of_partInfo rfl)
  | recordCandidate id =>
    rw [VantageReplPolicy.step, VantageReplPolicy.recordCandidate] at hs
    split at hs
    · cases hs
      exact steady (.of_partInfo rfl)
    · cases hs
  | getBestCandidate =>
    obtain ⟨r, hr, rfl⟩ := Option.map_eq_some_iff.mp hs
    exact steady (Steady.getBestCandidate hr)
  | replaced id =>
    cases hs
    exact steady (.of_partInfo rfl)
  | setPartitionSizes sizes =>
    have hgranularity : G.partGranularity ≠ 0 := by
      intro hz
      rw [VantageReplPolicy.step, VantageReplPolicy.setPartitionSizes, if_pos hz] at hs
      cases hs
    obtain ⟨s₁, hs₁, h₁, ht⟩ :=
      h.setPartitionSizes hsmooth managed_lt hgranularity hfit
    rw [VantageReplPolicy.step, hs₁] at hs
    cases hs
    exact ⟨h₁, ht⟩

theorem ReachableFitting.owing (hsmooth : G.smoothTransients = true)
    (h : ReachableFitting G s) :
    Counts G s ∧ Owing G (G.partitions * (G.targetManagedSize / G.partitions)) 0 s := by
  induction h with
  | init => exact ⟨counts_init, owing_init⟩
  | step _ hop hfit hs ih =>
    obtain ⟨hc, ho⟩ := ih
    exact ⟨(hc.step hop hs).1, (ho.step hc hsmooth hop hfit hs).1⟩

theorem ReachableFitting.run {ops : List Op} (h : ReachableFitting G s)
    (hops : ∀ op ∈ ops, Allowed G op ∧ Fits G op) (hs : run G ops s = some s') :
    ReachableFitting G s' := by
  induction ops generalizing s with
  | nil =>
    cases hs
    exact h
  | cons op ops ih =>
    obtain ⟨s₁, hs₁, hs'⟩ := Option.bind_eq_some_iff.mp hs
    obtain ⟨hop, hfit⟩ := hops op (by simp)
    exact ih (h.step hop hfit hs₁) (fun o ho => hops o (by simp [ho])) hs'

/-- The sizes that are asked for fit where the managed lines are shared out evenly. -/
theorem fits_of_dvd {sizes : Nat → Nat} (hdvd : G.partitions ∣ G.targetManagedSize)
    (hsizes : ∑ p ∈ range G.partitions, G.totalSize * sizes p ≤
      G.targetManagedSize * G.partGranularity) : Fits G (.setPartitionSizes sizes) := by
  rw [Fits, Nat.mul_div_cancel' hdvd]
  by_cases hz : G.partGranularity = 0
  · simp [assigned, hz]
  · refine Nat.le_of_mul_le_mul_right (le_trans ?_ hsizes) (Nat.pos_of_ne_zero hz)
    rw [sum_mul]
    exact sum_le_sum fun p _ => (Nat.div_mul_le_self _ _).trans (Nat.mod_le _ _)

/-- Smooth transients conserve the capacity as long as the sizes fit. -/
theorem reachable_conserves_capacity (hsmooth : G.smoothTransients = true)
    (h : ReachableFitting G s) :
    ∑ p ∈ range G.partitions, (s.partInfo p).targetSize =
      ∑ p ∈ range G.partitions, ((init G : VantageReplPolicy R).partInfo p).targetSize ∧
    (∀ id < G.totalSize, ∀ part < G.partitions, (s.update G id part).isSome = true) ∧
    (∀ sizes, G.partGranularity ≠ 0 → Fits G (.setPartitionSizes sizes) →
      (s.setPartitionSizes G sizes).isSome = true) ∧
    ∀ op s', Allowed G op → Fits G op → s.step G op = some s' →
      ∀ p < G.partitions, Toward s s' p := by
  obtain ⟨hc, ho⟩ := h.owing hsmooth
  refine ⟨?_, ?_, ?_, ?_⟩
  · exact ho.sum_target.trans (@owing_init R G).sum_target.symm
  · intro id hid part hpart
    obtain ⟨s', hs, -⟩ := ho.update hc hsmooth managed_lt hid hpart
    rw [hs]
    rfl
  · intro sizes hgranularity hfit
    obtain ⟨s', hs, -⟩ := ho.setPartitionSizes hsmooth managed_lt hgranularity hfit
    rw [hs]
    rfl
  · exact fun op s' hop hfit hs => (ho.step hc hsmooth hop hfit hs).2

/-- All of four lines for three partitions, so that every target is 1. -/
def thirds : VantageConfig where
  partitions := 3
  totalSize := 4
  assoc := 1
  targetManagedSize := 4
  partGranularity := 4
  smoothTransients := true
  move := fun _ _ _ _ => some .keep
  partitions_pos := Nat.le_of_ble_eq_true rfl
  totalSize_lt := four_fits
  managed_le := Nat.le_of_ble_eq_true rfl

def twoOneZero (p : Nat) : Nat := 2 - p

/-- Partition 0 grows by a line of partition 2. -/
def shift : List Op :=
  [.setPartitionSizes twoOneZero, .startReplacement 8, .recordCandidate 0, .getBestCandidate,
    .replaced 0, .update 0 0]

theorem shift_fits : ∀ op ∈ shift, Allowed thirds op ∧ Fits thirds op := by
  simp [shift, Allowed, Fits, thirds, assigned, twoOneZero, sum_range_succ]

theorem shift_run : ∃ s : VantageReplPolicy zeroRand,
    run thirds shift (init thirds) = some s ∧ s.target 0 = 2 ∧ s.target 2 = 0 :=
  ⟨_, rfl, rfl, rfl⟩

theorem reachable_conserves_capacity_shift : ∃ s : VantageReplPolicy zeroRand,
    s.target 0 = 2 ∧ s.target 2 = 0 ∧
    ∑ p ∈ range thirds.partitions, (s.partInfo p).targetSize = ∑ p ∈ range thirds.partitions,
      ((init thirds : VantageReplPolicy zeroRand).partInfo p).targetSize ∧
    (∀ id < thirds.totalSize, ∀ part < thirds.partitions,
      (s.update thirds id part).isSome = true) ∧
    (∀ sizes, thirds.partGranularity ≠ 0 → Fits thirds (.setPartitionSizes sizes) →
      (s.setPartitionSizes thirds sizes).isSome = true) ∧
    ∀ op s', Allowed thirds op → Fits thirds op → s.step thirds op = some s' →
      ∀ p < thirds.partitions, Toward s s' p := by
  obtain ⟨s, hs, h₀, h₂⟩ := shift_run
  exact ⟨s, h₀, h₂, reachable_conserves_capacity rfl (ReachableFitting.init.run shift_fits hs)⟩

def twoOneOne (p : Nat) : Nat := if p = 0 then 2 else 1

/-- Partition 0 may have two lines, but the constructor left one of the four out. -/
theorem twoOneOne_fails :
    thirds.smoothTransients = true ∧ thirds.targetManagedSize = thirds.totalSize ∧
    ∑ p ∈ range thirds.partitions, twoOneOne p ≤ thirds.partGranularity ∧
    ∃ s : VantageReplPolicy zeroRand,
      run thirds [.setPartitionSizes twoOneOne, .startReplacement 8, .recordCandidate 0,
        .getBestCandidate, .replaced 0] (init thirds) = some s ∧
      Allowed thirds (.update 0 0) ∧ s.update thirds 0 0 = none :=
  ⟨rfl, rfl, by decide, _, rfl, by simp [Allowed, thirds], rfl⟩

end VantageReplPolicy

end ZSim
