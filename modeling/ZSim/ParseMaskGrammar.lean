import ZSim.ParseMaskRange
import Mathlib.Data.List.Forall2

/-! The grammar of mask strings, and the strings on which `ParseMask` follows it. -/

namespace ZSim

namespace ParseMask

/-- A range of the grammar. -/
structure MaskRange where
  min : Nat
  sup : Nat
  step : Nat
  min_lt_sup : min < sup
  step_pos : 0 < step

namespace MaskRange

def ofNumbers : List Nat → Option MaskRange
  | [n] => some ⟨n, n + 1, 1, Nat.lt_succ_self n, Nat.one_pos⟩
  | [min, sup] => if h : min < sup then some ⟨min, sup, 1, h, Nat.one_pos⟩ else none
  | [min, sup, step] =>
    if h : min < sup ∧ 0 < step then some ⟨min, sup, step, h.1, h.2⟩ else none
  | _ => none

def members (s : MaskRange) : Set Nat := upTo s.min s.sup s.step

/-- A range that fits has ends and steps that fit. -/
theorem sup_lt {s : MaskRange} {size : Nat} (h : Fits s.members s.step size) :
    s.sup < 2 ^ 31 ∧ s.step < 2 ^ 31 := by
  obtain ⟨j, hj, hsup⟩ := exists_last s.min_lt_sup s.step_pos
  obtain ⟨-, -, hfit⟩ := h j hj
  omega

end MaskRange

/-- The space-separated pieces of a mask string. -/
def ranges (maskStr : List Char) : List (List Char) := Tokenize.pieces (· == ' ') maskStr

/-- A decimal number. -/
def Decimal (field : List Char) : Prop := field ≠ [] ∧ ∀ c ∈ field, c.isDigit = true

/-- Every field between colons is a decimal number. -/
def Clean (p : List Char) : Prop := ∀ field ∈ p.splitOn ':', Decimal field

/-- A piece is one, two or three decimal numbers with single colons between them. -/
def Grammatical (p : List Char) (s : MaskRange) : Prop :=
  Clean p ∧ MaskRange.ofNumbers ((p.splitOn ':').map decimal) = some s

/-- What the stream reads of the tokens of a piece is one, two or three numbers. -/
def Readable (p : List Char) (s : MaskRange) : Prop :=
  ∃ n, (tokenize (· == ':') p).mapM extractUInt32 = some n ∧
    MaskRange.ofNumbers (n.map BitVec.toNat) = some s

theorem not_isspace_of_isDigit {c : Char} (h : c.isDigit = true) : isspace c = false := by
  have hlow : 48 ≤ c.toNat := by
    simp only [Char.isDigit, Bool.and_eq_true, decide_eq_true_eq] at h
    exact h.1
  rw [isspace, Bool.or_eq_false_iff, Bool.and_eq_false_imp]
  refine ⟨decide_eq_false fun hc => absurd (hc ▸ hlow) (by decide), fun _ => ?_⟩
  refine decide_eq_false fun hc => ?_
  have hc : c.toNat ≤ 13 := hc
  omega

theorem extractSign_of_isDigit {c : Char} {s : List Char} (h : c.isDigit = true) :
    extractSign (c :: s) = (false, c :: s) := by
  unfold extractSign
  split
  · next heq =>
    cases heq
    cases h
  · next heq =>
    cases heq
    cases h
  · rfl

/-- The stream reads the digits and stops at what follows. -/
theorem extractUInt32_digits {digits rest : List Char} (hdigits : Decimal digits)
    (hrest : rest.takeWhile Char.isDigit = []) :
    extractUInt32 (digits ++ rest) =
      if decimal digits < 2 ^ 32 then some (BitVec.ofNat 32 (decimal digits)) else none := by
  obtain ⟨hne, hall⟩ := hdigits
  have htake : (digits ++ rest).takeWhile Char.isDigit = digits := by
    rw [List.takeWhile_append_of_pos hall, hrest, List.append_nil]
  cases digits with
  | nil => exact absurd rfl hne
  | cons c digits =>
    have hc := hall c List.mem_cons_self
    rw [extractUInt32, List.cons_append,
      List.dropWhile_cons_of_neg (by simp [not_isspace_of_isDigit hc]), extractSign_of_isDigit hc]
    simp only [← List.cons_append, htake, if_neg hne, Bool.false_eq_true, if_false]
    by_cases hlt : decimal (c :: digits) < 2 ^ 32
    · rw [if_neg (Nat.not_le_of_lt hlt), if_pos hlt]
    · rw [if_pos (Nat.le_of_not_lt hlt), if_neg hlt]

theorem extractUInt32_iff {field : List Char} {x : BitVec 32} (h : Decimal field) :
    extractUInt32 field = some x ↔ x.toNat = decimal field := by
  have hread := @extractUInt32_digits field [] h rfl
  rw [List.append_nil] at hread
  rw [hread]
  constructor
  · intro hx
    split at hx
    · next hlt =>
      cases hx
      exact Nat.mod_eq_of_lt hlt
    · cases hx
  · intro hx
    rw [← hx, if_pos x.isLt, BitVec.ofNat_toNat, BitVec.setWidth_eq]

/-- Clean fields are read as what they write, when it is a `uint32_t`. -/
theorem mapM_extract_iff {fields : List (List Char)} {n : List (BitVec 32)}
    (h : ∀ field ∈ fields, Decimal field) :
    fields.mapM extractUInt32 = some n ↔ n.map BitVec.toNat = fields.map decimal := by
  induction fields generalizing n with
  | nil =>
    refine ⟨fun hread => ?_, fun hread => ?_⟩
    · cases hread
      rfl
    · rw [List.map_eq_nil_iff.mp hread]
      rfl
  | cons field fields ih =>
    have hfield := fun x => extractUInt32_iff (x := x) (h field List.mem_cons_self)
    have hrest := fun n => ih (n := n) fun f hf => h f (List.mem_cons_of_mem field hf)
    rw [List.mapM_cons, List.map_cons]
    constructor
    · intro hread
      obtain ⟨x, hx, hread⟩ := Option.bind_eq_some_iff.mp hread
      obtain ⟨xs, hxs, hread⟩ := Option.bind_eq_some_iff.mp hread
      cases hread
      rw [List.map_cons, (hfield x).mp hx, (hrest xs).mp hxs]
    · intro hread
      obtain ⟨x, xs, rfl, hx, hxs⟩ := List.map_eq_cons_iff.mp hread
      rw [(hfield x).mpr hx, (hrest xs).mpr hxs]
      rfl

theorem tokenize_of_clean {p : List Char} (h : Clean p) :
    tokenize (· == ':') p = p.splitOn ':' :=
  Tokenize.tokenize_of_nonempty fun field hf => (h field hf).1

theorem readable_iff_of_clean {p : List Char} {s : MaskRange} (h : Clean p) :
    Readable p s ↔ Grammatical p s ∧ ∀ field ∈ p.splitOn ':', decimal field < 2 ^ 32 := by
  rw [Readable, Grammatical, tokenize_of_clean h]
  constructor
  · rintro ⟨n, hread, hs⟩
    have hmap := (mapM_extract_iff h).mp hread
    refine ⟨⟨h, hmap ▸ hs⟩, fun field hf => ?_⟩
    obtain ⟨x, -, hx⟩ := List.mem_map.mp (hmap ▸ List.mem_map_of_mem hf)
    exact hx ▸ x.isLt
  · rintro ⟨⟨-, hs⟩, hlt⟩
    have hmap : ((p.splitOn ':').map fun field => BitVec.ofNat 32 (decimal field)).map BitVec.toNat
        = (p.splitOn ':').map decimal := by
      rw [List.map_map]
      exact List.map_congr_left fun field hf => Nat.mod_eq_of_lt (hlt field hf)
    exact ⟨_, (mapM_extract_iff h).mpr hmap, hmap ▸ hs⟩

/-- The numbers of a range are among its ends and its step. -/
theorem MaskRange.numbers_le {ns : List Nat} {s : MaskRange} (h : ofNumbers ns = some s) :
    ∀ n ∈ ns, n ≤ s.sup ∨ n ≤ s.step := by
  unfold ofNumbers at h
  split at h
  · cases h
    simp
  · split at h
    · next hlt =>
      cases h
      simp [Nat.le_of_lt hlt]
    · cases h
  · split at h
    · next hlt =>
      cases h
      simp [Nat.le_of_lt hlt.1]
    · cases h
  · cases h

/-- Ranges of the grammar that fit are read. -/
theorem Grammatical.readable {p : List Char} {s : MaskRange} {size : Nat} (h : Grammatical p s)
    (hfits : Fits s.members s.step size) : Readable p s := by
  obtain ⟨hsup, hstep⟩ := MaskRange.sup_lt hfits
  refine (readable_iff_of_clean h.1).mpr ⟨h, fun field hf => ?_⟩
  have hle := MaskRange.numbers_le h.2 (decimal field) (List.mem_map_of_mem hf)
  omega

theorem Grammatical.unique {p : List Char} {s s' : MaskRange} (h : Grammatical p s)
    (h' : Grammatical p s') : s = s' :=
  Option.some.inj (h.2.symm.trans h'.2)

/-- The range of the code is that of the grammar. -/
structure Matches (r : Range) (s : MaskRange) : Prop where
  min : r.min.toNat = s.min
  sup : r.sup.toNat = s.sup
  step : r.step.toNat = s.step
  sup_lt : s.sup < 2 ^ 31
  step_lt : s.step < 2 ^ 31

theorem toInt_of_lt {x : BitVec 32} (h : x.toNat < 2 ^ 31) : x.toInt = x.toNat := by
  rw [BitVec.toInt_eq_toNat_cond, if_pos (by omega)]

theorem check_iff {min sup step : BitVec 32} {r : Range} :
    Range.check min sup step = some r ↔ (r.min = min ∧ r.sup = sup ∧ r.step = step) ∧
      min.toNat < sup.toNat ∧ 0 < step.toNat ∧ sup.toNat < 2 ^ 31 ∧ step.toNat < 2 ^ 31 := by
  constructor
  · intro h
    unfold Range.check at h
    split_ifs at h with hneg hstep hle
    cases h
    have hmin := toInt_eq_toNat (x := min) (by omega)
    have hsup := toInt_eq_toNat (x := sup) (by omega)
    have hstep := toInt_eq_toNat (x := step) (by omega)
    have hsuplt := BitVec.toInt_lt (x := sup)
    have hsteplt := BitVec.toInt_lt (x := step)
    exact ⟨⟨rfl, rfl, rfl⟩, by omega, by omega, by omega, by omega⟩
  · rintro ⟨⟨rfl, rfl, rfl⟩, hlt, hpos, hsup, hstep⟩
    have hmin := toInt_of_lt (Nat.lt_trans hlt hsup)
    have hsup := toInt_of_lt hsup
    have hstep := toInt_of_lt hstep
    unfold Range.check
    rw [dif_neg (by omega), dif_neg (by omega), dif_neg (by omega)]

theorem check_matches_iff {min sup step : BitVec 32} {r : Range} {s : MaskRange}
    (hmin : min.toNat = s.min) (hsup : sup.toNat = s.sup) (hstep : step.toNat = s.step) :
    Range.check min sup step = some r ↔ Matches r s := by
  rw [check_iff]
  constructor
  · rintro ⟨⟨rfl, rfl, rfl⟩, -, -, hsuplt, hsteplt⟩
    exact ⟨hmin, hsup, hstep, hsup ▸ hsuplt, hstep ▸ hsteplt⟩
  · intro h
    have hfields : r.min = min ∧ r.sup = sup ∧ r.step = step :=
      ⟨BitVec.eq_of_toNat_eq (h.min.trans hmin.symm), BitVec.eq_of_toNat_eq (h.sup.trans hsup.symm),
        BitVec.eq_of_toNat_eq (h.step.trans hstep.symm)⟩
    rw [hmin, hsup, hstep]
    exact ⟨hfields, s.min_lt_sup, s.step_pos, h.sup_lt, h.step_lt⟩

/-- The constructor accepts the numbers that are a range of the grammar whose ends are `int32_t`. -/
theorem fields_check_iff {n : List (BitVec 32)} {r : Range} :
    ((Range.fields n).bind fun (min, sup, step) => Range.check min sup step) = some r ↔
      ∃ s, MaskRange.ofNumbers (n.map BitVec.toNat) = some s ∧ Matches r s := by
  match n with
  | [] => simp [Range.fields, MaskRange.ofNumbers]
  | [a] =>
    have hadd : (a + 1).toNat = (a.toNat + 1) % 2 ^ 32 := BitVec.toNat_add a 1
    simp only [Range.fields, Option.bind_some, List.map_cons, List.map_nil, MaskRange.ofNumbers,
      Option.some.injEq, exists_eq_left']
    by_cases hlt : a.toNat + 1 < 2 ^ 32
    · exact check_matches_iff rfl (hadd.trans (Nat.mod_eq_of_lt hlt)) rfl
    · refine iff_of_false (fun h => ?_) fun h => ?_
      · obtain ⟨-, hlt', -⟩ := check_iff.mp h
        omega
      · have hsup : a.toNat + 1 < 2 ^ 31 := h.sup_lt
        omega
  | [a, b] =>
    simp only [Range.fields, Option.bind_some, List.map_cons, List.map_nil, MaskRange.ofNumbers]
    by_cases hlt : a.toNat < b.toNat
    · simp only [dif_pos hlt, Option.some.injEq, exists_eq_left']
      exact check_matches_iff rfl rfl rfl
    · simp [hlt, check_iff]
  | [a, b, c] =>
    simp only [Range.fields, Option.bind_some, List.map_cons, List.map_nil, MaskRange.ofNumbers]
    by_cases hlt : a.toNat < b.toNat ∧ 0 < c.toNat
    · simp only [dif_pos hlt, Option.some.injEq, exists_eq_left']
      exact check_matches_iff rfl rfl rfl
    · simp only [dif_neg hlt, check_iff]
      refine iff_of_false (fun h => hlt ⟨h.2.1, h.2.2.1⟩) (by simp)
  | _ :: _ :: _ :: _ :: _ => simp [Range.fields, MaskRange.ofNumbers]

theorem exists_matches {s : MaskRange} (hsup : s.sup < 2 ^ 31) (hstep : s.step < 2 ^ 31) :
    ∃ r, Matches r s := by
  have hlt := s.min_lt_sup
  have hpos := s.step_pos
  have hnat {n : Nat} (h : n < 2 ^ 31) : (BitVec.ofNat 32 n).toNat = n :=
    Nat.mod_eq_of_lt (by omega)
  have hint {n : Nat} (h : n < 2 ^ 31) : (BitVec.ofNat 32 n).toInt = n := by
    rw [toInt_of_lt (by rwa [hnat h]), hnat h]
  have hmin : s.min < 2 ^ 31 := Nat.lt_trans hlt hsup
  exact ⟨⟨.ofNat 32 s.min, .ofNat 32 s.sup, .ofNat 32 s.step, by rw [hint hmin]; omega,
    by rw [hint hstep]; omega, by rw [hint hmin, hint hsup]; omega⟩,
    hnat hmin, hnat hsup, hnat hstep, hsup, hstep⟩

theorem new_iff {p : List Char} {r : Range} :
    Range.new p = some r ↔ ∃ s, Readable p s ∧ Matches r s := by
  rw [Range.new, Option.bind_eq_some_iff]
  constructor
  · rintro ⟨n, hread, hr⟩
    obtain ⟨s, hs, hmatch⟩ := fields_check_iff.mp hr
    exact ⟨s, ⟨n, hread, hs⟩, hmatch⟩
  · rintro ⟨s, ⟨n, hread, hs⟩, hmatch⟩
    exact ⟨n, hread, fields_check_iff.mpr ⟨s, hs, hmatch⟩⟩

variable {mask mask' : List Bool}

theorem fill_iff {r : Range} {s : MaskRange} (h : Matches r s) (hlen : mask.length < 2 ^ 32) :
    r.fill mask = some mask' ↔
      Fits s.members s.step mask.length ∧ Filled mask s.members mask' := by
  rw [Range.fill, fillFrom_iff r.min_nonneg hlen, h.min, h.sup, h.step]
  rfl

/-- One step of `ParseMask`: a range that is read and fits is added. -/
theorem new_fill_iff {p : List Char} (hlen : mask.length < 2 ^ 32) :
    ((Range.new p).bind fun range => range.fill mask) = some mask' ↔
      ∃ s, Readable p s ∧ Fits s.members s.step mask.length ∧ Filled mask s.members mask' := by
  rw [Option.bind_eq_some_iff]
  constructor
  · rintro ⟨r, hr, hfill⟩
    obtain ⟨s, hread, hmatch⟩ := new_iff.mp hr
    exact ⟨s, hread, (fill_iff hmatch hlen).mp hfill⟩
  · rintro ⟨s, hread, hfits, hfilled⟩
    obtain ⟨hsup, hstep⟩ := MaskRange.sup_lt hfits
    obtain ⟨r, hmatch⟩ := exists_matches hsup hstep
    exact ⟨r, new_iff.mpr ⟨s, hread, hmatch⟩, (fill_iff hmatch hlen).mpr ⟨hfits, hfilled⟩⟩

/-- The members of the ranges of a mask. -/
def union (spans : List MaskRange) : Set Nat := {i | ∃ s ∈ spans, i ∈ s.members}

theorem union_cons {s : MaskRange} {spans : List MaskRange} :
    union (s :: spans) = s.members ∪ union spans := by
  ext i
  simp [union]

theorem foldlM_ranges_iff {pieces : List (List Char)} (hlen : mask.length < 2 ^ 32) :
    pieces.foldlM (fun mask r => (Range.new r).bind fun range => range.fill mask) mask
        = some mask' ↔
      ∃ spans, List.Forall₂ Readable pieces spans ∧
        (∀ s ∈ spans, Fits s.members s.step mask.length) ∧ Filled mask (union spans) mask' := by
  induction pieces generalizing mask with
  | nil =>
    have hempty : union [] = ∅ := by simp [union]
    simp only [List.foldlM_nil, List.forall₂_nil_left_iff, exists_eq_left, hempty,
      Filled.empty_iff, Option.pure_def, Option.some.injEq]
    exact ⟨fun h => ⟨by simp, h.symm⟩, fun h => h.2.symm⟩
  | cons p pieces ih =>
    rw [List.foldlM_cons, Option.bind_eq_bind, Option.bind_eq_some_iff]
    constructor
    · rintro ⟨mask₁, hone, hrest⟩
      obtain ⟨s, hread, hfits, hfilled⟩ := (new_fill_iff hlen).mp hone
      obtain ⟨spans, hreads, hall, hunion⟩ := (ih (hfilled.length ▸ hlen)).mp hrest
      refine ⟨s :: spans, .cons hread hreads, fun s' hs' => ?_, ?_⟩
      · rcases List.mem_cons.mp hs' with rfl | hs'
        · exact hfits
        · exact hfilled.length ▸ hall s' hs'
      · rw [union_cons]
        exact hfilled.trans_iff.mp hunion
    · rintro ⟨all, hreads, hall, hunion⟩
      obtain ⟨s, spans, hread, hrest, rfl⟩ := List.forall₂_cons_left_iff.mp hreads
      have hfits := hall s List.mem_cons_self
      obtain ⟨mask₁, hfilled⟩ := Filled.exists fun i hi => (hfits i hi).1
      refine ⟨mask₁, (new_fill_iff hlen).mpr ⟨s, hread, hfits, hfilled⟩, ?_⟩
      rw [union_cons] at hunion
      refine (ih (hfilled.length ▸ hlen)).mpr ⟨spans, hrest, fun s' hs' => ?_,
        hfilled.trans_iff.mpr hunion⟩
      exact hfilled.length ▸ hall s' (List.mem_cons_of_mem s hs')

/-- Empty tokens are skipped. -/
theorem foldlM_skip (tokens : List (List Char)) :
    tokens.foldlM (fun mask r => if r.length = 0 then some mask else
        (Range.new r).bind fun range => range.fill mask) mask
      = (tokens.filter (· ≠ [])).foldlM
        (fun mask r => (Range.new r).bind fun range => range.fill mask) mask := by
  induction tokens generalizing mask with
  | nil => rfl
  | cons r tokens ih =>
    rw [List.foldlM_cons]
    cases r with
    | nil => exact ih
    | cons c r =>
      rw [List.filter_cons_of_pos (by simp), List.foldlM_cons]
      exact congrArg _ (funext fun mask => ih)

/-- A mask with the members of the ranges set. -/
def IsMask (spans : List MaskRange) (size : Nat) (mask : List Bool) : Prop :=
  mask.length = size ∧ ∀ i, mask[i]? = some true ↔ i ∈ union spans

theorem parseMask_iff {maskStr : List Char} {maskSize : BitVec 32} :
    parseMask maskStr maskSize = some mask ↔
      ∃ spans, List.Forall₂ Readable (ranges maskStr) spans ∧
        (∀ s ∈ spans, Fits s.members s.step maskSize.toNat) ∧
          IsMask spans maskSize.toNat mask := by
  have hfilled (S : Set Nat) : Filled (List.replicate maskSize.toNat false) S mask ↔
      mask.length = maskSize.toNat ∧ ∀ i, mask[i]? = some true ↔ i ∈ S := by
    have hnone (i : Nat) : ¬ (List.replicate maskSize.toNat false)[i]? = some true := by
      simp [List.getElem?_replicate]
    constructor
    · rintro ⟨hlen, hset⟩
      exact ⟨by simpa using hlen, fun i => by rw [hset]; simp [hnone]⟩
    · rintro ⟨hlen, hset⟩
      exact ⟨by simpa using hlen, fun i => by rw [hset]; simp [hnone]⟩
  rw [parseMask, foldlM_skip, Tokenize.filter_tokenize,
    foldlM_ranges_iff (by simpa using maskSize.isLt)]
  simp only [List.length_replicate, hfilled, IsMask, ranges]

/-- `ParseMask` accepts the lists of ranges below the mask's size, and gives the mask of their
members. -/
def FollowsGrammar (maskStr : List Char) (maskSize : BitVec 32) : Prop :=
  ∀ mask, parseMask maskStr maskSize = some mask ↔
    ∃ spans, List.Forall₂ Grammatical (ranges maskStr) spans ∧
      (∀ s ∈ spans, ∀ i ∈ s.members, i < maskSize.toNat) ∧ IsMask spans maskSize.toNat mask

/-- A string with a piece that is not clean has one that is not read as a range that fits. -/
def ForeignRejected (maskStr : List Char) (size : Nat) : Prop :=
  (∀ p ∈ ranges maskStr, Clean p) ∨
    ∃ p ∈ ranges maskStr, ∀ s, Readable p s → ¬ Fits s.members s.step size

/-- The ranges of a string of the grammar fit, unless one has a member past the mask. -/
def GrammarFits (maskStr : List Char) (size : Nat) : Prop :=
  (∀ p ∈ ranges maskStr, ∀ s, Grammatical p s → Fits s.members s.step size) ∨
    ∃ p ∈ ranges maskStr, ∀ s, Grammatical p s → ∃ i ∈ s.members, size ≤ i

theorem exists_isMask {spans : List MaskRange} {size : Nat}
    (h : ∀ s ∈ spans, ∀ i ∈ s.members, i < size) : ∃ mask, IsMask spans size mask := by
  have hlt : ∀ i ∈ union spans, i < (List.replicate size false).length := by
    rintro i ⟨s, hs, hi⟩
    simpa using h s hs i hi
  obtain ⟨mask, hlen, hset⟩ := Filled.exists hlt
  exact ⟨mask, by simpa using hlen, fun i => by rw [hset]; simp [List.getElem?_replicate]⟩

/-- One range for each piece. -/
theorem exists_forall₂ {P : List Char → MaskRange → Prop} {Q : MaskRange → Prop}
    {pieces : List (List Char)} (h : ∀ p ∈ pieces, ∃ s, P p s ∧ Q s) :
    ∃ spans, List.Forall₂ P pieces spans ∧ ∀ s ∈ spans, Q s := by
  induction pieces with
  | nil => exact ⟨[], .nil, by simp⟩
  | cons p pieces ih =>
    obtain ⟨s, hs, hq⟩ := h p List.mem_cons_self
    obtain ⟨spans, hspans, hall⟩ := ih fun p' hp' => h p' (List.mem_cons_of_mem p hp')
    exact ⟨s :: spans, .cons hs hspans, by simpa using ⟨hq, hall⟩⟩

theorem exists_of_forall₂ {α β : Type} {P : α → β → Prop} {pieces : List α} {spans : List β} {p : α}
    (h : List.Forall₂ P pieces spans) (hp : p ∈ pieces) : ∃ s ∈ spans, P p s := by
  induction h with
  | nil => cases hp
  | cons hs _ ih =>
    rcases List.mem_cons.mp hp with rfl | hp
    · exact ⟨_, List.mem_cons_self, hs⟩
    · obtain ⟨s, hmem, hs⟩ := ih hp
      exact ⟨s, List.mem_cons_of_mem _ hmem, hs⟩

theorem forall₂_imp {α β : Type} {P Q : α → β → Prop} {pieces : List α} {spans : List β}
    (h : List.Forall₂ P pieces spans) (himp : ∀ p ∈ pieces, ∀ s, P p s → Q p s) :
    List.Forall₂ Q pieces spans := by
  have hboth := (List.forall₂_and_left pieces spans).mpr ⟨fun p hp => hp, h⟩
  exact hboth.imp fun p s hps => himp p hps.1 s hps.2

theorem foreignRejected_of_follows {maskStr : List Char} {maskSize : BitVec 32}
    (h : FollowsGrammar maskStr maskSize) : ForeignRejected maskStr maskSize.toNat := by
  by_contra hnot
  rw [ForeignRejected, not_or] at hnot
  obtain ⟨hforeign, hread⟩ := hnot
  push Not at hread
  obtain ⟨spans, hspans, hfits⟩ := exists_forall₂ hread
  obtain ⟨mask, hmask⟩ := exists_isMask fun s hs i hi => (hfits s hs i hi).1
  obtain ⟨spans', hgram, -⟩ := (h mask).mp (parseMask_iff.mpr ⟨spans, hspans, hfits, hmask⟩)
  refine hforeign fun p hp => ?_
  obtain ⟨s, -, hs⟩ := exists_of_forall₂ hgram hp
  exact hs.1

theorem grammarFits_of_follows {maskStr : List Char} {maskSize : BitVec 32}
    (h : FollowsGrammar maskStr maskSize) : GrammarFits maskStr maskSize.toNat := by
  by_contra hnot
  rw [GrammarFits, not_or] at hnot
  obtain ⟨hlarge, hgram⟩ := hnot
  push Not at hgram
  obtain ⟨spans, hspans, hlt⟩ := exists_forall₂ hgram
  obtain ⟨mask, hmask⟩ := exists_isMask hlt
  obtain ⟨spans', hread, hfits, -⟩ := parseMask_iff.mp ((h mask).mpr ⟨spans, hspans, hlt, hmask⟩)
  refine hlarge fun p hp s hs => ?_
  obtain ⟨s', hmem, hs'⟩ := exists_of_forall₂ hread hp
  have hsame := hs.unique ((readable_iff_of_clean hs.1).mp hs').1
  exact hsame ▸ hfits s' hmem

/-- `ParseMask` follows the grammar where it rejects what is foreign and the ranges fit. -/
theorem parseMask_follows_iff (maskStr : List Char) (maskSize : BitVec 32) :
    FollowsGrammar maskStr maskSize ↔
      ForeignRejected maskStr maskSize.toNat ∧ GrammarFits maskStr maskSize.toNat := by
  refine ⟨fun h => ⟨foreignRejected_of_follows h, grammarFits_of_follows h⟩, ?_⟩
  rintro ⟨hforeign, hlarge⟩ mask
  rw [parseMask_iff]
  constructor
  · rintro ⟨spans, hread, hfits, hmask⟩
    have hclean : ∀ p ∈ ranges maskStr, Clean p := by
      rcases hforeign with hclean | ⟨p, hp, hno⟩
      · exact hclean
      · obtain ⟨s, hmem, hs⟩ := exists_of_forall₂ hread hp
        exact absurd (hfits s hmem) (hno s hs)
    refine ⟨spans, ?_, fun s hs i hi => (hfits s hs i hi).1, hmask⟩
    exact forall₂_imp hread fun p hp s hs => ((readable_iff_of_clean (hclean p hp)).mp hs).1
  · rintro ⟨spans, hgram, hlt, hmask⟩
    have hfits : ∀ p ∈ ranges maskStr, ∀ s, Grammatical p s →
        Fits s.members s.step maskSize.toNat := by
      rcases hlarge with hfits | ⟨p, hp, hpast⟩
      · exact hfits
      · obtain ⟨s, hmem, hs⟩ := exists_of_forall₂ hgram hp
        obtain ⟨i, hi, hle⟩ := hpast s hs
        exact absurd (hlt s hmem i hi) (Nat.not_lt_of_le hle)
    have hboth : List.Forall₂ (fun p s => Readable p s ∧ Fits s.members s.step maskSize.toNat)
        (ranges maskStr) spans :=
      forall₂_imp hgram fun p hp s hs => ⟨hs.readable (hfits p hp s hs), hfits p hp s hs⟩
    refine ⟨spans, hboth.imp fun _ _ h => h.1, fun s hs => ?_, hmask⟩
    obtain ⟨p, -, -, hs⟩ := exists_of_forall₂ hboth.flip hs
    exact hs

/-- A number may end in letters. -/
theorem letters_accepted : ¬ FollowsGrammar "1abc".toList 4 := by
  intro h
  have hranges : ranges "1abc".toList = ["1abc".toList] := by decide
  rcases foreignRejected_of_follows h with hclean | ⟨p, hp, hno⟩
  · have hletter := (hclean "1abc".toList (hranges ▸ List.mem_singleton_self _) "1abc".toList (by decide)).2
    exact absurd (hletter 'a' (by decide)) (by decide)
  · rw [hranges, List.mem_singleton] at hp
    subst hp
    have hfields : tokenize (· == ':') "1abc".toList = ["1abc".toList] := by
      rw [Tokenize.tokenize_of_nonempty (by decide)]
      decide
    refine hno ⟨1, 2, 1, by decide, by decide⟩ ⟨[1], ?_, rfl⟩ ?_
    · rw [hfields]
      rfl
    · rintro i ⟨hlt, -⟩
      simp only at hlt ⊢
      exact ⟨Nat.lt_trans hlt (by decide), by decide, by omega⟩

end ParseMask

end ZSim
