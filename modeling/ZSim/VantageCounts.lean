import ZSim.SumUpdate
import ZSim.Vantage

/-! Vantage: the sizes of the partitions count lines. -/

namespace ZSim

theorem tagCount_move {n i q : Nat} {tag f : Nat → Nat} (hi : i < n)
    (h : ∀ p, f p + (if tag i = p then 1 else 0) = tagCount n tag p + if q = p then 1 else 0) :
    f = tagCount n (Function.update tag i q) := by
  funext p
  have hp := h p
  have ht := @tagCount_update n i tag hi q p
  omega

namespace VantageReplPolicy

open Finset

variable {R : MTRand} {G : VantageConfig} {s s' s'' : VantageReplPolicy R} {id part p : Nat}

def sizes (s : VantageReplPolicy R) (p : Nat) : Nat := (s.partInfo p).size

def extendedSizes (s : VantageReplPolicy R) (p : Nat) : Nat := (s.partInfo p).extendedSize

def tag (s : VantageReplPolicy R) (id : Nat) : Nat := (s.array id).p

def origin (s : VantageReplPolicy R) (id : Nat) : Nat := (s.array id).op

@[simp] theorem setPart_sizes (i : VantagePartInfo) :
    (s.setPart p i).sizes = Function.update s.sizes p i.size := by
  funext q
  by_cases hq : q = p <;> simp [sizes, setPart, hq]

@[simp] theorem setPart_extendedSizes (i : VantagePartInfo) :
    (s.setPart p i).extendedSizes = Function.update s.extendedSizes p i.extendedSize := by
  funext q
  by_cases hq : q = p <;> simp [extendedSizes, setPart, hq]

@[simp] theorem setPart_array (i : VantagePartInfo) : (s.setPart p i).array = s.array := rfl

@[simp] theorem setPart_tag (i : VantagePartInfo) : (s.setPart p i).tag = s.tag := rfl

@[simp] theorem setPart_origin (i : VantagePartInfo) : (s.setPart p i).origin = s.origin := rfl

@[simp] theorem setPart_candList (i : VantagePartInfo) :
    (s.setPart p i).candList = s.candList := rfl

@[simp] theorem setPart_partInfo_self (i : VantagePartInfo) :
    (s.setPart p i).partInfo p = i := Function.update_self ..

@[simp] theorem setLine_partInfo (e : VantageLine) :
    (s.setLine id e).partInfo = s.partInfo := rfl

@[simp] theorem setLine_sizes (e : VantageLine) : (s.setLine id e).sizes = s.sizes := rfl

@[simp] theorem setLine_extendedSizes (e : VantageLine) :
    (s.setLine id e).extendedSizes = s.extendedSizes := rfl

@[simp] theorem setLine_candList (e : VantageLine) :
    (s.setLine id e).candList = s.candList := rfl

@[simp] theorem setLine_array_self (e : VantageLine) :
    (s.setLine id e).array id = e := Function.update_self ..

@[simp] theorem setLine_tag (e : VantageLine) :
    (s.setLine id e).tag = Function.update s.tag id e.p := by
  funext x
  by_cases hx : x = id <;> simp [tag, setLine, hx]

@[simp] theorem setLine_origin (e : VantageLine) :
    (s.setLine id e).origin = Function.update s.origin id e.op := by
  funext x
  by_cases hx : x = id <;> simp [origin, setLine, hx]

/-- The counters and the tags are the same, and the candidates. -/
structure Frame (s s' : VantageReplPolicy R) : Prop where
  sizes : s'.sizes = s.sizes
  extended : s'.extendedSizes = s.extendedSizes
  tag : s'.tag = s.tag
  origin : s'.origin = s.origin
  cands : s'.candList = s.candList

namespace Frame

theorem refl (s : VantageReplPolicy R) : Frame s s := ⟨rfl, rfl, rfl, rfl, rfl⟩

theorem trans (h : Frame s s') (h' : Frame s' s'') : Frame s s'' := by
  constructor
  · exact h'.sizes.trans h.sizes
  · exact h'.extended.trans h.extended
  · exact h'.tag.trans h.tag
  · exact h'.origin.trans h.origin
  · exact h'.cands.trans h.cands

theorem setPart {i : VantagePartInfo} (hs : i.size = (s.partInfo p).size)
    (he : i.extendedSize = (s.partInfo p).extendedSize) : Frame s (s.setPart p i) := by
  constructor
  · rw [setPart_sizes, hs]
    exact Function.update_eq_self p s.sizes
  · rw [setPart_extendedSizes, he]
    exact Function.update_eq_self p s.extendedSizes
  · rfl
  · rfl
  · rfl

theorem setLine {e : VantageLine} (hp : e.p = (s.array id).p) (ho : e.op = (s.array id).op) :
    Frame s (s.setLine id e) := by
  constructor
  · rfl
  · rfl
  · rw [setLine_tag, hp]
    exact Function.update_eq_self id s.tag
  · rw [setLine_origin, ho]
    exact Function.update_eq_self id s.origin
  · rfl

theorem touch (s : VantageReplPolicy R) (id : Nat) : Frame s (s.touch id) := by
  have h := @setLine R s id { s.array id with ts := s.timestamp } rfl rfl
  exact ⟨h.sizes, h.extended, h.tag, h.origin, h.cands⟩

theorem insCount (s : VantageReplPolicy R) (p : Nat) : Frame s (s.insCount p) := setPart rfl rfl

theorem takeFrom {l curLines : Nat} {ps : List Nat} (h : s.takeFrom l ps curLines = some s') :
    Frame s s' := by
  induction ps generalizing curLines with
  | nil => cases h
  | cons p ps ih =>
    rw [VantageReplPolicy.takeFrom] at h
    split at h
    · cases h
      exact setPart rfl rfl
    · exact ih h

theorem takeOneLine (h : s.takeOneLine G = some s') : Frame s s' := by
  rw [VantageReplPolicy.takeOneLine] at h
  split at h
  · have hf := takeFrom h
    exact ⟨hf.sizes, hf.extended, hf.tag, hf.origin, hf.cands⟩
  · cases h

theorem grow (h : s.grow G part = some s') : Frame s s' := by
  rw [VantageReplPolicy.grow] at h
  split at h
  · have hf : Frame s (s.setPart part
        { s.partInfo part with targetSize := (s.partInfo part).targetSize + 1 }) := setPart rfl rfl
    exact hf.trans (takeOneLine h)
  · cases h
    exact refl s

theorem retime (s : VantageReplPolicy R) (id : Nat) : Frame s (s.retime id) := by
  rw [VantageReplPolicy.retime]
  refine (@setLine R s id { s.array id with bts := (s.partInfo (s.array id).p).curBts } rfl
    rfl).trans (setPart ?_ ?_)
  · split <;> rfl
  · split <;> rfl

theorem endInterval (h : s.endInterval G p = some s') : Frame s s' := by
  obtain ⟨m, -, rfl⟩ := Option.map_eq_some_iff.mp h
  exact setPart rfl rfl

theorem resizePart (sizes : Nat → Nat) (s : VantageReplPolicy R) (n p : Nat) :
    Frame s (resizePart G sizes s n p).1 := by
  rw [VantageReplPolicy.resizePart]
  split
  · split
    · exact setPart rfl rfl
    · exact setPart rfl rfl
  · exact setPart rfl rfl

theorem resizeParts (sizes : Nat → Nat) (ps : List Nat) (r : VantageReplPolicy R × Nat) :
    Frame r.1 (resizeParts G sizes ps r).1 := by
  induction ps generalizing r with
  | nil => exact refl r.1
  | cons p ps ih => exact (resizePart sizes r.1 r.2 p).trans (ih _)

theorem takeLines {n : Nat} (h : takeLines G n s = some s') : Frame s s' := by
  induction n generalizing s with
  | zero =>
    cases h
    exact refl _
  | succ n ih =>
    obtain ⟨s₁, h₁, h'⟩ := Option.bind_eq_some_iff.mp h
    exact (takeOneLine h₁).trans (ih h')

theorem setPartitionSizes {sizes : Nat → Nat} (h : s.setPartitionSizes G sizes = some s') :
    Frame s s' := by
  rw [VantageReplPolicy.setPartitionSizes] at h
  split at h
  · cases h
  · exact (resizeParts sizes _ (s, 0)).trans (takeLines h)

end Frame

structure Counts (G : VantageConfig) (s : VantageReplPolicy R) : Prop where
  sizes : s.sizes = tagCount G.totalSize s.tag
  extended : s.extendedSizes = tagCount G.totalSize s.origin
  tag_le : ∀ id < G.totalSize, s.tag id ≤ G.partitions
  origin_le : ∀ id < G.totalSize, s.origin id ≤ G.partitions
  cands : ∀ id ∈ s.candList, id < G.totalSize

/-- Lines of the managed partitions have their partition as the original one. -/
def Own (G : VantageConfig) (s : VantageReplPolicy R) : Prop :=
  ∀ id < G.totalSize, s.tag id ≠ G.partitions → s.origin id = s.tag id

theorem Counts.frame (h : Counts G s) (hf : Frame s s') : Counts G s' := by
  constructor
  · rw [hf.sizes, hf.tag, h.sizes]
  · rw [hf.extended, hf.origin, h.extended]
  · rw [hf.tag]
    exact h.tag_le
  · rw [hf.origin]
    exact h.origin_le
  · rw [hf.cands]
    exact h.cands

theorem own_frame (hf : Frame s s') : Own G s' ↔ Own G s := by
  rw [Own, Own, hf.tag, hf.origin]

theorem counts_init : Counts G (init G : VantageReplPolicy R) := by
  have hcount : ∀ p, (if p = G.partitions then G.totalSize else 0) =
      tagCount G.totalSize (fun _ => G.partitions) p := by
    intro p
    by_cases hp : p = G.partitions
    · rw [if_pos hp, tagCount_self fun _ _ => hp.symm]
    · rw [if_neg hp, tagCount_other fun _ _ he => hp he.symm]
  constructor
  · funext p
    exact hcount p
  · funext p
    exact hcount p
  · exact fun _ _ => Nat.le_refl _
  · exact fun _ _ => Nat.le_refl _
  · intro id hid
    cases hid

theorem own_init : Own G (init G : VantageReplPolicy R) :=
  fun _ _ hne => absurd rfl hne

theorem Counts.size_pos (h : Counts G s) (hid : id < G.totalSize) : 0 < s.sizes (s.tag id) := by
  rw [h.sizes]
  exact tagCount_pos hid

theorem Counts.extended_pos (h : Counts G s) (hid : id < G.totalSize) :
    0 < s.extendedSizes (s.origin id) := by
  rw [h.extended]
  exact tagCount_pos hid

/-- Where a line goes from one partition to another, the sizes follow. -/
theorem sizes_move {p q : Nat} (hpq : p ≠ q) {f : Nat → Nat} (hp : 0 < f p) (r : Nat) :
    Function.update (Function.update f q (f q + 1)) p (f p - 1) r + (if p = r then 1 else 0) =
      f r + if q = r then 1 else 0 := by
  by_cases hrp : r = p
  · subst hrp
    rw [Function.update_self, if_pos rfl, if_neg (Ne.symm hpq)]
    omega
  · rw [Function.update_of_ne hrp, if_neg (Ne.symm hrp)]
    by_cases hrq : r = q
    · subst hrq
      rw [Function.update_self, if_pos rfl]
    · rw [Function.update_of_ne hrq, if_neg (Ne.symm hrq)]

/-- A hit on an unmanaged line promotes it to the partition of the request. -/
theorem Counts.promote (h : Counts G s) (hid : id < G.totalSize) (hpart : part < G.partitions)
    (hp : (s.array id).p = G.partitions) :
    ∃ s', s.hit G id part = some s' ∧ Counts G s' ∧ s'.tag = Function.update s.tag id part ∧
      s'.origin = s.origin := by
  have hne : G.partitions ≠ part := Nat.ne_of_gt hpart
  have hpos : 0 < s.sizes G.partitions := hp ▸ h.size_pos hid
  have horigin : Function.update s.origin id (s.array id).op = s.origin :=
    Function.update_eq_self id s.origin
  let s₁ := s.setLine id { s.array id with p := part }
  let s₂ := (s₁.insCount part).sizeInc part
  have hsizes : s₂.sizes = Function.update s.sizes part (s.sizes part + 1) := by
    have hf := (Frame.insCount s₁ part).sizes
    have hpartsize : ((s₁.insCount part).partInfo part).size = s.sizes part :=
      congrFun hf part
    simp [s₂, sizeInc, hf, s₁, hpartsize]
  have hsize : (s₂.partInfo G.partitions).size = s.sizes G.partitions := by
    have hc := congrFun hsizes G.partitions
    rwa [Function.update_of_ne hne] at hc
  refine ⟨_, by
    rw [hit, if_pos hp]
    change (s₂.sizeDec G.partitions).map _ = _
    rw [sizeDec, if_neg (by rw [hsize]; exact Nat.ne_of_gt hpos), Option.map_some], ?_⟩
  have htag : s₂.tag = Function.update s.tag id part := by simp [s₂, sizeInc, insCount, s₁]
  have horg : s₂.origin = s.origin := by simp [s₂, sizeInc, insCount, s₁, horigin]
  have hext : s₂.extendedSizes = s.extendedSizes := by
    have hf := (Frame.insCount s₁ part).extended
    have hpartsize : ((s₁.insCount part).partInfo part).extendedSize = s.extendedSizes part :=
      congrFun hf part
    simp [s₂, sizeInc, hf, s₁, hpartsize]
  have hc : Counts G (s₂.setPart G.partitions
      { s₂.partInfo G.partitions with size := (s₂.partInfo G.partitions).size - 1 }) := by
    constructor
    · rw [setPart_sizes, setPart_tag, htag, hsizes, hsize]
      refine tagCount_move hid fun r => ?_
      have hm := sizes_move hne hpos r
      rw [h.sizes] at hm ⊢
      have htid : s.tag id = G.partitions := hp
      rw [htid]
      exact hm
    · rw [setPart_extendedSizes, setPart_origin, horg, ← h.extended, hext]
      have hself : (s₂.partInfo G.partitions).extendedSize = s.extendedSizes G.partitions :=
        congrFun hext G.partitions
      rw [hself, Function.update_eq_self]
    · intro x hx
      rw [setPart_tag, htag, Function.update_apply]
      split
      · exact hpart.le
      · exact h.tag_le x hx
    · rw [setPart_origin, horg]
      exact h.origin_le
    · exact h.cands
  refine ⟨hc.frame (Frame.touch _ id), ?_, ?_⟩
  · rw [(Frame.touch _ id).tag, setPart_tag, htag]
  · rw [(Frame.touch _ id).origin, setPart_origin, horg]

/-- The line that was replaced is counted in the partition of the request from now on. -/
theorem Counts.fill (h : Counts G s) (hid : id < G.totalSize) (hpart : part < G.partitions) :
    ∃ s', s.fill id part = some s' ∧ Counts G s' ∧ s'.tag = Function.update s.tag id part ∧
      s'.origin = Function.update s.origin id part := by
  have hf := Frame.touch s id
  have h₁ := h.frame hf
  have htag₁ : ((s.touch id).array id).p = s.tag id := congrFun hf.tag id
  have horg₁ : ((s.touch id).array id).op = s.origin id := congrFun hf.origin id
  have hpos := h₁.size_pos hid
  have hepos := h₁.extended_pos hid
  rw [hf.tag, hf.sizes] at hpos
  rw [hf.origin, hf.extended] at hepos
  let p := s.tag id
  let op := s.origin id
  let s₁ := s.touch id
  let s₂ := s₁.setPart p { s₁.partInfo p with size := (s₁.partInfo p).size - 1 }
  let s₃ := s₂.setPart op { s₂.partInfo op with extendedSize := (s₂.partInfo op).extendedSize - 1 }
  let s₄ := s₃.setLine id { s₃.array id with p := part, op := part }
  let s₅ := s₄.insCount part
  have hd₁ : s₁.sizeDec p = some s₂ := by
    refine if_neg ?_
    have hz : (s₁.partInfo p).size = s.sizes p := congrFun hf.sizes p
    rw [hz]
    exact Nat.ne_of_gt hpos
  have he₂ : s₂.extendedSizes = s.extendedSizes := by
    have hself : (s₁.partInfo p).extendedSize = s₁.extendedSizes p := rfl
    simp only [s₂, setPart_extendedSizes, hself, Function.update_eq_self]
    exact hf.extended
  have hd₂ : s₂.extendedDec op = some s₃ := by
    refine if_neg ?_
    have hz : (s₂.partInfo op).extendedSize = s.extendedSizes op := congrFun he₂ op
    rw [hz]
    exact Nat.ne_of_gt hepos
  have hs₂ : s₂.sizes = Function.update s.sizes p (s.sizes p - 1) := by
    have hz : (s₁.partInfo p).size = s.sizes p := congrFun hf.sizes p
    simp only [s₂, setPart_sizes, hz]
    rw [show s₁.sizes = s.sizes from hf.sizes]
  have hs₃ : s₃.sizes = Function.update s.sizes p (s.sizes p - 1) := by
    have hself : (s₂.partInfo op).size = s₂.sizes op := rfl
    simp only [s₃, setPart_sizes, hself, Function.update_eq_self]
    exact hs₂
  have he₃ : s₃.extendedSizes = Function.update s.extendedSizes op (s.extendedSizes op - 1) := by
    have hz : (s₂.partInfo op).extendedSize = s.extendedSizes op := congrFun he₂ op
    simp only [s₃, setPart_extendedSizes, hz]
    rw [he₂]
  have hf₅ := Frame.insCount s₄ part
  have htag₄ : s₄.tag = Function.update s.tag id part := by
    have ht : s₃.tag = s.tag := hf.tag
    simp only [s₄, setLine_tag, ht]
  have horg₄ : s₄.origin = Function.update s.origin id part := by
    have ht : s₃.origin = s.origin := hf.origin
    simp only [s₄, setLine_origin, ht]
  have hsize₅ : (s₅.partInfo part).size = s₃.sizes part := congrFun hf₅.sizes part
  have hext₅ : ((s₅.sizeInc part).partInfo part).extendedSize = s₃.extendedSizes part := by
    rw [sizeInc, setPart_partInfo_self]
    exact congrFun hf₅.extended part
  have hsizes : ((s₅.sizeInc part).extendedInc part).sizes =
      Function.update s₃.sizes part (s₃.sizes part + 1) := by
    have hself : ((s₅.sizeInc part).partInfo part).size = (s₅.sizeInc part).sizes part := rfl
    simp only [extendedInc, setPart_sizes, hself, Function.update_eq_self]
    simp only [sizeInc, setPart_sizes, hsize₅]
    rw [hf₅.sizes]
    rfl
  have hexts : ((s₅.sizeInc part).extendedInc part).extendedSizes =
      Function.update s₃.extendedSizes part (s₃.extendedSizes part + 1) := by
    have hself : (s₅.partInfo part).extendedSize = s₅.extendedSizes part := rfl
    simp only [extendedInc, setPart_extendedSizes, hext₅]
    simp only [sizeInc, setPart_extendedSizes, hself, Function.update_eq_self]
    rw [hf₅.extended]
    rfl
  have hmove : ∀ (f : Nat → Nat) (q r : Nat), 0 < f q →
      Function.update (Function.update f q (f q - 1)) part
        (Function.update f q (f q - 1) part + 1) r + (if q = r then 1 else 0) =
        f r + if part = r then 1 else 0 := by
    intro f q r hq
    by_cases hqp : q = part
    · subst hqp
      rw [Function.update_idem, Function.update_self, Nat.sub_add_cancel hq,
        Function.update_eq_self]
    · rw [Function.update_of_ne (Ne.symm hqp), Function.update_comm hqp]
      exact sizes_move hqp hq r
  refine ⟨(s₅.sizeInc part).extendedInc part, ?_, ?_, htag₄, horg₄⟩
  · rw [VantageReplPolicy.fill]
    change (s₁.sizeDec (s₁.array id).p).bind _ = _
    rw [htag₁, hd₁, Option.bind_some]
    change (s₂.extendedDec (s₁.array id).op).map _ = _
    rw [horg₁, hd₂, Option.map_some]
  · constructor
    · rw [hsizes, hs₃]
      change _ = tagCount _ s₄.tag
      rw [htag₄]
      refine tagCount_move hid fun r => ?_
      rw [hmove s.sizes p r hpos, h.sizes]
    · rw [hexts, he₃]
      change _ = tagCount _ s₄.origin
      rw [horg₄]
      refine tagCount_move hid fun r => ?_
      rw [hmove s.extendedSizes op r hepos, h.extended]
    · intro x hx
      change s₄.tag x ≤ _
      rw [htag₄, Function.update_apply]
      split
      · exact hpart.le
      · exact h.tag_le x hx
    · intro x hx
      change s₄.origin x ≤ _
      rw [horg₄, Function.update_apply]
      split
      · exact hpart.le
      · exact h.origin_le x hx
    · exact h.cands

theorem Counts.demote (h : Counts G s) (hid : id < G.totalSize) (hp : s.tag id ≠ G.partitions) :
    ∃ s', s.demote G id (s.tag id) = some s' ∧ Counts G s' ∧
      s'.tag = Function.update s.tag id G.partitions ∧ s'.origin = s.origin ∧
      s'.candList = s.candList := by
  have hpos := h.size_pos hid
  let p := s.tag id
  let s₁ := s.setPart p { s.partInfo p with size := (s.partInfo p).size - 1 }
  let s₂ := s₁.setLine id { s₁.array id with p := G.partitions }
  let s₃ := s₂.sizeInc G.partitions
  have hd : s.sizeDec p = some s₁ := if_neg (Nat.ne_of_gt hpos)
  have hf := @Frame.setPart R s₃ p { s₃.partInfo p with
    curIntervalDems := ((s₃.partInfo p).curIntervalDems + 1) % 2 ^ 32 } rfl rfl
  have hs₁ : s₁.sizes = Function.update s.sizes p (s.sizes p - 1) := setPart_sizes _
  have htag : s₃.tag = Function.update s.tag id G.partitions := by
    simp only [s₃, sizeInc, setPart_tag, s₂, setLine_tag, s₁]
  have horg : s₃.origin = s.origin := by
    simp only [s₃, sizeInc, setPart_origin, s₂, setLine_origin, s₁]
    exact Function.update_eq_self id s.origin
  have hsizes : s₃.sizes = Function.update s₁.sizes G.partitions (s₁.sizes G.partitions + 1) := by
    simp only [s₃, sizeInc, setPart_sizes, s₂, setLine_sizes]
    rfl
  have hext : s₃.extendedSizes = s.extendedSizes := by
    have h₁ : s₁.extendedSizes = s.extendedSizes :=
      (setPart_extendedSizes _).trans (Function.update_eq_self p s.extendedSizes)
    have h₃ : s₃.extendedSizes = s₂.extendedSizes :=
      (setPart_extendedSizes _).trans (Function.update_eq_self G.partitions s₂.extendedSizes)
    exact h₃.trans h₁
  have hc : Counts G s₃ := by
    constructor
    · rw [hsizes, hs₁, htag]
      refine tagCount_move hid fun r => ?_
      rw [Function.update_of_ne (Ne.symm hp), Function.update_comm hp]
      have hm := sizes_move hp hpos r
      rwa [h.sizes] at hm ⊢
    · rw [hext, horg, h.extended]
    · intro x hx
      rw [htag, Function.update_apply]
      split
      · exact Nat.le_refl _
      · exact h.tag_le x hx
    · rw [horg]
      exact h.origin_le
    · exact h.cands
  refine ⟨_, ?_, hc.frame hf, hf.tag.trans htag, hf.origin.trans horg, hf.cands⟩
  rw [VantageReplPolicy.demote]
  change (s.sizeDec p).map _ = _
  rw [hd, Option.map_some]

theorem own_update {q : Nat} (hid : id < G.totalSize)
    (htag : s'.tag = Function.update s.tag id q) (horg : s'.origin = s.origin)
    (hown : Own G s) : Own G s' ↔ (q ≠ G.partitions → s.origin id = q) := by
  constructor
  · intro h hq
    have hid' := h id hid
    rw [htag, horg, Function.update_self] at hid'
    exact hid' hq
  · intro h x hx hne
    rw [htag, Function.update_apply] at hne ⊢
    rw [horg]
    by_cases hxi : x = id
    · subst hxi
      rw [if_pos rfl] at hne ⊢
      exact h hne
    · rw [if_neg hxi] at hne ⊢
      exact hown x hx hne

theorem Counts.examine (h : Counts G s) (hid : id < G.totalSize)
    (hs : s.examine G id = some s') :
    Counts G s' ∧ (Own G s → Own G s') ∧ s'.candList = s.candList := by
  rw [VantageReplPolicy.examine] at hs
  split at hs
  · cases hs
    exact ⟨h, fun ho => ho, rfl⟩
  · next hskip =>
    have hp : s.tag id ≠ G.partitions := fun he => hskip (.inr (.inl he))
    obtain ⟨s₁, hs₁, hs'⟩ := Option.bind_eq_some_iff.mp hs
    have h₁ : Counts G s₁ ∧ (Own G s → Own G s₁) ∧ s₁.candList = s.candList := by
      split at hs₁
      · obtain ⟨s₂, hs₂, hc, htag, horg, hcands⟩ := h.demote hid hp
        have heq : s₂ = s₁ := Option.some.inj (hs₂.symm.trans hs₁)
        subst heq
        exact ⟨hc, fun ho => (own_update hid htag horg ho).mpr fun hq => absurd rfl hq, hcands⟩
      · cases hs₁
        exact ⟨h, fun ho => ho, rfl⟩
    obtain ⟨hc, ho, hcands⟩ := h₁
    have hf : Frame s₁ (s₁.setPart (s.array id).p { s₁.partInfo (s.array id).p with
        curIntervalCands := ((s₁.partInfo (s.array id).p).curIntervalCands + 1) % 2 ^ 32 }) :=
      Frame.setPart rfl rfl
    have hf' : Frame s₁ s' := by
      dsimp only at hs'
      split at hs'
      · exact hf.trans (Frame.endInterval hs')
      · cases hs'
        exact hf
    exact ⟨hc.frame hf', fun hos => (own_frame hf').mpr (ho hos), hf'.cands.trans hcands⟩

theorem Counts.examineAll {ids : List Nat} (h : Counts G s) (hids : ∀ id ∈ ids, id < G.totalSize)
    (hs : s.examineAll G ids = some s') : Counts G s' ∧ (Own G s → Own G s') := by
  induction ids generalizing s with
  | nil =>
    cases hs
    exact ⟨h, fun ho => ho⟩
  | cons id ids ih =>
    obtain ⟨s₁, hs₁, hs'⟩ := Option.bind_eq_some_iff.mp hs
    obtain ⟨h₁, ho₁, -⟩ := h.examine (hids id (by simp)) hs₁
    obtain ⟨h', ho'⟩ := ih h₁ (fun x hx => hids x (by simp [hx])) hs'
    exact ⟨h', fun ho => ho' (ho₁ ho)⟩

theorem Counts.getBestCandidate {r : Nat × VantageReplPolicy R} (h : Counts G s)
    (hs : s.getBestCandidate G = some r) : Counts G r.2 ∧ (Own G s → Own G r.2) := by
  rw [VantageReplPolicy.getBestCandidate] at hs
  split at hs
  · cases hs
  · split at hs
    · obtain ⟨s₁, hs₁, hr⟩ := Option.bind_eq_some_iff.mp hs
      dsimp only at hr
      split at hr
      · cases hr
        exact h.examineAll h.cands hs₁
      · cases hr
    · cases hs

theorem Counts.account (h : Counts G s) (hid : id < G.totalSize) (hpart : part < G.partitions) :
    ∃ s', s.account G id part = some s' ∧ Counts G s' := by
  rw [VantageReplPolicy.account]
  split
  · by_cases hp : (s.array id).p = G.partitions
    · obtain ⟨s', hs, hc, -⟩ := h.promote hid hpart hp
      exact ⟨s', hs, hc⟩
    · exact ⟨_, if_neg hp, h.frame (Frame.touch s id)⟩
  · obtain ⟨s', hs, hc, -⟩ := h.fill hid hpart
    exact ⟨s', hs, hc⟩

/-- A promotion takes a line to the partition it came from. -/
def OwnPromotion (G : VantageConfig) (s : VantageReplPolicy R) (op : Op) : Prop :=
  ∀ id part, op = .update id part → 0 < (s.array id).ts → (s.array id).p = G.partitions →
    (s.array id).op = part

theorem Counts.own_account (h : Counts G s) (hid : id < G.totalSize)
    (hpart : part < G.partitions) (hown : Own G s) (hs : s.account G id part = some s') :
    Own G s' ↔ OwnPromotion G s (.update id part) := by
  have hq : part ≠ G.partitions := Nat.ne_of_lt hpart
  rw [VantageReplPolicy.account] at hs
  split at hs
  · next hts =>
    by_cases hp : (s.array id).p = G.partitions
    · obtain ⟨s₁, hs₁, -, htag, horg⟩ := h.promote hid hpart hp
      have heq : s₁ = s' := Option.some.inj (hs₁.symm.trans hs)
      subst heq
      rw [own_update hid htag horg hown]
      constructor
      · intro ho id' part' he _ _
        cases he
        exact ho hq
      · exact fun ho _ => ho id part rfl hts hp
    · rw [hit, if_neg hp] at hs
      cases hs
      refine ⟨fun _ id' part' he _ hp' => ?_, fun _ => (own_frame (Frame.touch s id)).mpr hown⟩
      cases he
      exact absurd hp' hp
  · next hts =>
    obtain ⟨s₁, hs₁, -, htag, horg⟩ := h.fill hid hpart
    have heq : s₁ = s' := Option.some.inj (hs₁.symm.trans hs)
    subst heq
    constructor
    · intro _ id' part' he hts' _
      cases he
      exact absurd hts' hts
    · intro _ x hx hne
      rw [htag, horg, Function.update_apply, Function.update_apply]
      split
      · rfl
      · next hxi =>
        rw [htag, Function.update_of_ne hxi] at hne
        exact hown x hx hne

/-- What a step does to the counters, and when it keeps the original partitions. -/
theorem Counts.step (h : Counts G s) {op : Op} (hop : Allowed G op)
    (hs : s.step G op = some s') :
    Counts G s' ∧ (Own G s → (Own G s' ↔ OwnPromotion G s op)) := by
  cases op with
  | update id part =>
    obtain ⟨s₁, hs₁, hs'⟩ := Option.bind_eq_some_iff.mp hs
    obtain ⟨s₂, hs₂, rfl⟩ := Option.map_eq_some_iff.mp hs'
    obtain ⟨s₃, hs₃, hc⟩ := h.account hop.1 hop.2
    have heq : s₃ = s₁ := Option.some.inj (hs₃.symm.trans hs₁)
    subst heq
    have hf : Frame s₃ (s₂.retime id) := by
      split at hs₂
      · exact (Frame.grow hs₂).trans (Frame.retime s₂ id)
      · cases hs₂
        exact Frame.retime _ id
    exact ⟨hc.frame hf, fun ho => (own_frame hf).trans (h.own_account hop.1 hop.2 ho hs₁)⟩
  | startReplacement lineAddr =>
    cases hs
    have hf : Frame s (s.startReplacement lineAddr) := ⟨rfl, rfl, rfl, rfl, rfl⟩
    refine ⟨h.frame hf, fun ho => ⟨fun _ id part he => ?_, fun _ => ho⟩⟩
    cases he
  | recordCandidate id =>
    rw [VantageReplPolicy.step, recordCandidate] at hs
    split at hs
    · cases hs
      refine ⟨⟨h.sizes, h.extended, h.tag_le, h.origin_le, ?_⟩,
        fun ho => ⟨fun _ id part he => ?_, fun _ => ho⟩⟩
      · intro x hx
        rcases List.mem_append.mp hx with hx | hx
        · exact h.cands x hx
        · rw [List.mem_singleton] at hx
          exact hx ▸ hop
      · cases he
    · cases hs
  | getBestCandidate =>
    obtain ⟨r, hr, rfl⟩ := Option.map_eq_some_iff.mp hs
    obtain ⟨hc, ho⟩ := h.getBestCandidate hr
    refine ⟨hc, fun hos => ⟨fun _ id part he => ?_, fun _ => ho hos⟩⟩
    cases he
  | replaced id =>
    cases hs
    have hf := @Frame.setLine R s id { s.array id with ts := 0, bts := 0, addr := s.incomingLineAddr }
      rfl rfl
    have hc := h.frame hf
    refine ⟨⟨hc.sizes, hc.extended, hc.tag_le, hc.origin_le, ?_⟩,
      fun ho => ⟨fun _ id part he => ?_, fun _ => (own_frame hf).mpr ho⟩⟩
    · intro x hx
      cases hx
    · cases he
  | setPartitionSizes sizes =>
    have hf := Frame.setPartitionSizes hs
    refine ⟨h.frame hf, fun ho => ⟨fun _ id part he => ?_, fun _ => (own_frame hf).mpr ho⟩⟩
    cases he

/-- The accounting is right: sizes count the lines of each partition, extended sizes those that
came from it, no counter goes below zero, and lines of managed partitions come from there. -/
structure Lawful (G : VantageConfig) (s : VantageReplPolicy R) : Prop where
  size : ∀ p ≤ G.partitions, (s.partInfo p).size = tagCount G.totalSize s.tag p
  extended : ∀ p ≤ G.partitions, (s.partInfo p).extendedSize = tagCount G.totalSize s.origin p
  total : ∑ p ∈ range (G.partitions + 1), (s.partInfo p).size = G.totalSize
  account : ∀ id < G.totalSize, ∀ part < G.partitions, (s.account G id part).isSome = true
  demote : ∀ id < G.totalSize, s.tag id ≠ G.partitions →
    (s.demote G id (s.tag id)).isSome = true
  own : ∀ id < G.totalSize, (s.array id).p ≠ G.partitions → (s.array id).op = (s.array id).p

theorem Counts.lawful_iff (h : Counts G s) : Lawful G s ↔ Own G s := by
  refine ⟨fun hl => hl.own, fun ho => ?_⟩
  constructor
  · exact fun p _ => congrFun h.sizes p
  · exact fun p _ => congrFun h.extended p
  · have hs : ∀ p, (s.partInfo p).size = tagCount G.totalSize s.tag p := congrFun h.sizes
    simp only [hs]
    exact sum_tagCount fun id hid => Nat.lt_succ_of_le (h.tag_le id hid)
  · intro id hid part hpart
    obtain ⟨s', hs, -⟩ := h.account hid hpart
    rw [hs]
    rfl
  · intro id hid hp
    obtain ⟨s', hs, -⟩ := h.demote hid hp
    rw [hs]
    rfl
  · exact ho

theorem Counts.ownPromotion_of_fails (h : Counts G s) {op : Op} (hop : Allowed G op)
    (hs : s.step G op = none) : OwnPromotion G s op := by
  intro id part he hts _
  subst he
  obtain ⟨s₁, hs₁, -⟩ := h.account hop.1 hop.2
  have hmiss : (s.array id).ts ≠ 0 := Nat.ne_of_gt hts
  simp [VantageReplPolicy.step, update, hs₁, hmiss] at hs

theorem allStates_lawful_iff {ops : List Op} (h : Counts G s) (hown : Own G s)
    (hops : ∀ op ∈ ops, Allowed G op) :
    AllStates G (Lawful G) ops s ↔ AllSteps G (OwnPromotion G) ops s := by
  induction ops generalizing s with
  | nil => exact ⟨fun _ => trivial, fun _ => h.lawful_iff.mpr hown⟩
  | cons op ops ih =>
    have hop : Allowed G op := hops op (by simp)
    have hops' : ∀ o ∈ ops, Allowed G o := fun o ho => hops o (by simp [ho])
    constructor
    · intro hall
      cases hs : s.step G op with
      | none =>
        refine ⟨h.ownPromotion_of_fails hop hs, fun s' hs' => ?_⟩
        rw [hs] at hs'
        cases hs'
      | some s₁ =>
        obtain ⟨hc, ho⟩ := h.step hop hs
        have hall₁ := hall.2 s₁ hs
        have ho₁ : Own G s₁ := by
          cases ops with
          | nil => exact hall₁.own
          | cons => exact hall₁.1.own
        refine ⟨(ho hown).mp ho₁, fun s' hs' => ?_⟩
        rw [hs] at hs'
        cases hs'
        exact (ih hc ho₁ hops').mp hall₁
    · intro hall
      refine ⟨h.lawful_iff.mpr hown, fun s' hs => ?_⟩
      obtain ⟨hc, ho⟩ := h.step hop hs
      exact (ih hc ((ho hown).mpr hall.1) hops').mpr (hall.2 s' hs)

/-- In a run the accounting is right in every state if and only if every promotion takes a line
to the partition that it came from. -/
theorem vantage_lawful_iff {ops : List Op} (hops : ∀ op ∈ ops, Allowed G op) :
    AllStates G (Lawful G) ops (init G : VantageReplPolicy R) ↔
      AllSteps G (OwnPromotion G) ops (init G : VantageReplPolicy R) :=
  allStates_lawful_iff counts_init own_init hops

theorem AllStates.last {P : VantageReplPolicy R → Prop} {ops : List Op}
    (h : AllStates G P ops s) (hs : run G ops s = some s') : P s' := by
  induction ops generalizing s with
  | nil =>
    cases hs
    exact h
  | cons op ops ih =>
    obtain ⟨s₁, hs₁, hs'⟩ := Option.bind_eq_some_iff.mp hs
    exact ih (h.2 s₁ hs₁) hs'

def zeroRand : MTRand := ⟨Unit, (), fun _ _ => (0, ()), fun _ _ => Nat.zero_le _⟩

theorem four_fits : 4 < 2 ^ 31 := by decide

/-- A quarter of four lines for two partitions, so that both targets are zero. -/
def quarter : VantageConfig where
  partitions := 2
  totalSize := 4
  assoc := 2
  targetManagedSize := 1
  partGranularity := 1
  smoothTransients := false
  move := fun _ _ _ _ => some .keep
  partitions_pos := Nat.le_of_ble_eq_true rfl
  totalSize_lt := four_fits
  managed_le := Nat.le_of_ble_eq_true rfl

/-- Partition 0 fills two lines, the first one is demoted, and partition 1 hits it. -/
def crossPromotion : List Op :=
  [.startReplacement 8, .recordCandidate 0, .getBestCandidate, .replaced 0, .update 0 0,
    .startReplacement 9, .recordCandidate 0, .recordCandidate 1, .getBestCandidate, .replaced 1,
    .update 1 0, .update 0 1]

theorem crossPromotion_allowed : ∀ op ∈ crossPromotion, Allowed quarter op := by
  simp [crossPromotion, Allowed, quarter]

theorem crossPromotion_line : ∃ s : VantageReplPolicy zeroRand,
    run quarter crossPromotion (init quarter) = some s ∧ (s.array 0).p = 1 ∧
      (s.array 0).op = 0 :=
  ⟨_, rfl, rfl, rfl⟩

theorem vantage_lawful_iff_crossPromotion :
    AllStates quarter (Lawful quarter) crossPromotion
        (init quarter : VantageReplPolicy zeroRand) ↔
      AllSteps quarter (OwnPromotion quarter) crossPromotion
        (init quarter : VantageReplPolicy zeroRand) :=
  vantage_lawful_iff crossPromotion_allowed

theorem crossPromotion_not_lawful :
    ¬ AllStates quarter (Lawful quarter) crossPromotion
        (init quarter : VantageReplPolicy zeroRand) := by
  intro h
  obtain ⟨s, hs, hp, hop⟩ := crossPromotion_line
  have hown := (h.last hs).own 0 (by decide)
  rw [hp, hop] at hown
  exact absurd (hown (by decide)) (by decide)

end VantageReplPolicy

end ZSim
