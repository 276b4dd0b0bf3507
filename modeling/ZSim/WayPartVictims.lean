import ZSim.LookaheadValid
import ZSim.SumUpdate
import ZSim.WayPart

/-! Way partitioning: the sizes of the partitions, and the victims. -/

namespace ZSim

namespace WayPartReplPolicy

open Finset

/-- The partition a line is counted in; a replaced line keeps its own until it is updated. -/
def tag (s : WayPartReplPolicy) (id : Nat) : Nat := (s.array id).p

structure Inv (G : WayPartConfig) (s : WayPartReplPolicy) : Prop where
  size : ∀ p, (s.partInfo p).size = tagCount G.totalSize s.tag p
  tag_lt : ∀ id < G.totalSize, s.tag id < G.partitions
  incoming : ∀ p, s.incomingLinePart = some p → p < G.partitions
  ways : s.wayPartIndex.length = G.ways
  idle : s.candIdx = 0 → s.bestId = none

variable {G : WayPartConfig} {s s' : WayPartReplPolicy} {id part : Nat} {lineAddr : Address}
variable {cands : List Nat}

theorem inv_init : Inv G (init G) := by
  constructor
  · intro p
    by_cases hp : p = 0
    · subst hp
      exact (tagCount_self fun _ _ => rfl).symm
    · have ht : tagCount G.totalSize (init G).tag p = 0 := tagCount_other fun _ _ he => hp he.symm
      rw [ht]
      exact if_neg hp
  · exact fun _ _ => G.partitions_pos
  · intro p hp
    cases hp
  · simp [init]
  · exact fun _ => rfl

theorem tag_update (e : WayPartInfo) :
    ({ s with array := Function.update s.array id e } : WayPartReplPolicy).tag =
      Function.update s.tag id e.p := by
  funext x
  by_cases hx : x = id
  · simp [tag, hx]
  · simp [tag, hx]

theorem Inv.update (h : Inv G s) (hid : id < G.totalSize)
    (hin : (s.array id).ts = 0 → s.incomingLinePart ≠ none) :
    ∃ s', s.update id = some s' ∧ Inv G s' := by
  rw [WayPartReplPolicy.update]
  split
  · refine ⟨_, rfl, ?_⟩
    have htag : Function.update s.tag id (s.array id).p = s.tag := Function.update_eq_self id s.tag
    constructor
    · intro p
      rw [← @tag_update s id { s.array id with ts := s.timestamp }] at htag
      rw [h.size, ← htag]
      rfl
    · intro x hx
      rw [← @tag_update s id { s.array id with ts := s.timestamp }] at htag
      have hlt := h.tag_lt x hx
      rw [← htag] at hlt
      exact hlt
    · exact h.incoming
    · exact h.ways
    · exact h.idle
  · next hts =>
    obtain ⟨newPart, hnew⟩ := Option.ne_none_iff_exists'.mp (hin (Nat.eq_zero_of_not_pos hts))
    have hpos : 0 < (s.partInfo (s.array id).p).size := by
      rw [h.size]
      exact tagCount_pos hid
    obtain ⟨partInfo, hr, hsize, -⟩ := PartInfo.resize_spec hpos newPart
    refine ⟨_, by rw [hnew, Option.bind_some, hr, Option.map_some], ?_⟩
    have htag := @tag_update s id ⟨(s.array id).addr, s.timestamp, newPart⟩
    constructor
    · intro p
      have hs := hsize p
      have ht := @tagCount_update G.totalSize id s.tag hid newPart p
      rw [h.size] at hs
      change (partInfo p).size = tagCount G.totalSize
        ({ s with array := Function.update s.array id _ } : WayPartReplPolicy).tag p
      change _ + (if (s.array id).p = p then 1 else 0) = _ at ht
      rw [htag]
      dsimp only
      omega
    · intro x hx
      change ({ s with array := Function.update s.array id _ } : WayPartReplPolicy).tag x < _
      rw [htag, Function.update_apply]
      split
      · exact h.incoming _ hnew
      · exact h.tag_lt x hx
    · exact fun p hp => h.incoming p (hnew.trans hp)
    · exact h.ways
    · exact h.idle

theorem Inv.replaced (h : Inv G s) : Inv G (s.replaced id) := by
  have htag : (s.replaced id).tag = s.tag :=
    (@tag_update s id { s.array id with ts := 0, addr := s.incomingLineAddr }).trans
      (Function.update_eq_self id s.tag)
  constructor
  · rw [htag]
    exact h.size
  · rw [htag]
    exact h.tag_lt
  · exact h.incoming
  · exact h.ways
  · exact fun _ => rfl

theorem assignWays_eq (p : Nat) {n curWay : Nat} {index : List Nat}
    (h : curWay + n ≤ index.length) :
    assignWays p n (index, curWay) =
      some (index.take curWay ++ List.replicate n p ++ index.drop (curWay + n), curWay + n) := by
  induction n generalizing curWay index with
  | zero => simp [assignWays]
  | succ n ih =>
    have hlt : curWay < index.length := by omega
    have hset : index.set curWay p = index.take curWay ++ p :: index.drop (curWay + 1) :=
      List.set_eq_take_append_cons_drop.trans (if_pos hlt)
    have htake : (index.take curWay).length = curWay := List.length_take_of_le hlt.le
    rw [assignWays, if_pos hlt, ih (by rw [List.length_set]; omega), hset, List.take_append,
      htake, List.drop_append, htake]
    simp only [List.take_take, Nat.add_sub_cancel_left, List.take_succ_cons, List.take_zero,
      List.replicate_succ]
    have h₁ : min (curWay + 1) curWay = curWay := by omega
    have h₂ : curWay + 1 + n - curWay = n + 1 := by omega
    have h₃ : (index.take curWay).drop (curWay + 1 + n) = [] :=
      List.drop_eq_nil_of_le (by rw [htake]; omega)
    rw [h₁, h₂, h₃, List.drop_succ_cons, List.drop_drop]
    simp [Nat.add_assoc, Nat.add_comm 1 n]

theorem assignFrom_eq {waysPart parts index : List Nat} {curWay : Nat}
    (hparts : ∀ p ∈ parts, p < waysPart.length)
    (h : curWay + (parts.map (waysPart.getD · 0)).sum ≤ index.length) :
    ∃ index', assignFrom waysPart parts (index, curWay) =
        some (index', curWay + (parts.map (waysPart.getD · 0)).sum) ∧
      index'.length = index.length ∧
      ∀ p, p ∈ index.take curWay ∨ (p ∈ parts ∧ 0 < waysPart.getD p 0) → p ∈ index' := by
  induction parts generalizing curWay index with
  | nil =>
    refine ⟨index, rfl, rfl, fun p hp => ?_⟩
    rcases hp with hp | hp
    · exact List.mem_of_mem_take hp
    · cases hp.1
  | cons q parts ih =>
    have hq := hparts q List.mem_cons_self
    have hget : waysPart.getD q 0 = waysPart[q] := by
      rw [List.getD_eq_getElem?_getD, List.getElem?_eq_getElem hq]
      rfl
    rw [List.map_cons, List.sum_cons, hget, ← Nat.add_assoc] at h ⊢
    have hroom : curWay + waysPart[q] ≤ index.length := by omega
    have htake : (index.take curWay).length = curWay := List.length_take_of_le (by omega)
    have hlen : (index.take curWay ++ List.replicate waysPart[q] q ++
        index.drop (curWay + waysPart[q])).length = index.length := by
      simp only [List.length_append, htake, List.length_replicate, List.length_drop]
      omega
    rw [assignFrom, List.getElem?_eq_getElem hq, Option.bind_some, assignWays_eq q hroom,
      Option.bind_some]
    obtain ⟨index', h', hlen', hmem⟩ :=
      ih (fun p hp => hparts p (List.mem_cons_of_mem _ hp)) (by rw [hlen]; exact h)
    refine ⟨index', h', hlen'.trans hlen, fun p hp => hmem p ?_⟩
    have hfirst : (index.take curWay ++ List.replicate waysPart[q] q ++
        index.drop (curWay + waysPart[q])).take (curWay + waysPart[q]) =
        index.take curWay ++ List.replicate waysPart[q] q := by
      refine List.take_left' ?_
      rw [List.length_append, htake, List.length_replicate]
    rw [hfirst]
    rcases hp with hp | ⟨hp, hpos⟩
    · exact .inl (List.mem_append_left _ hp)
    · rcases List.mem_cons.mp hp with rfl | hp
      · rw [hget] at hpos
        exact .inl (List.mem_append_right _ (List.mem_replicate.mpr ⟨Nat.ne_of_gt hpos, rfl⟩))
      · exact .inr ⟨hp, hpos⟩

theorem Inv.repartition (h : Inv G s) {waysPart : List Nat}
    (hlen : waysPart.length = G.partitions) (hsum : waysPart.sum = G.ways)
    (hpos : ∀ n ∈ waysPart, 0 < n) :
    ∃ s', s.repartition G waysPart = some s' ∧ Inv G s' ∧
      ∀ p < G.partitions, p ∈ s'.wayPartIndex := by
  have hmap := map_getD_range (Nat.le_of_eq hlen.symm)
  have htake : waysPart.take G.partitions = waysPart := List.take_of_length_le (Nat.le_of_eq hlen)
  have hroom : 0 + ((List.range G.partitions).map (waysPart.getD · 0)).sum ≤
      s.wayPartIndex.length := by
    rw [hmap, htake, hsum, h.ways, Nat.zero_add]
  obtain ⟨index', hi, hlen', hmem⟩ :=
    assignFrom_eq (fun p hp => hlen ▸ List.mem_range.mp hp) hroom
  rw [hmap, htake, hsum, Nat.zero_add] at hi
  refine ⟨_, by rw [WayPartReplPolicy.repartition, setPartitionSizes, hi, Option.bind_some,
    if_pos rfl, Option.map_some], ?_, fun p hp => hmem p (.inr ⟨List.mem_range.mpr hp, ?_⟩)⟩
  · constructor
    · exact h.size
    · exact h.tag_lt
    · exact h.incoming
    · exact hlen'.trans h.ways
    · exact h.idle
  · have hp' : p < waysPart.length := hlen ▸ hp
    rw [List.getD_eq_getElem?_getD, List.getElem?_eq_getElem hp']
    exact hpos _ (List.getElem_mem hp')

/-- What one candidate does to the best one so far. -/
def pick (G : WayPartConfig) (s : WayPartReplPolicy) (best : Option Nat) (id : Nat) : Option Nat :=
  match best with
  | none => some id
  | some best => if wins G s id best then some id else some best

theorem recordCandidate_eq (hm : G.testMode = false) (hin : s.incomingLinePart = some part)
    (hlt : s.candIdx < s.wayPartIndex.length) (hways : s.wayPartIndex.length = G.ways)
    (id : Nat) :
    recordCandidate G s id = some { s with
      candIdx := s.candIdx + 1
      bestId := if s.wayPartIndex[s.candIdx] = part then pick G s s.bestId id else s.bestId } := by
  have hcond : (G.testMode = true ∨ s.wayPartIndex[s.candIdx]? = s.incomingLinePart) ↔
      s.wayPartIndex[s.candIdx] = part := by
    simp [hm, hin, List.getElem?_eq_getElem hlt]
  rw [recordCandidate, if_pos (hways ▸ hlt)]
  by_cases hown : s.wayPartIndex[s.candIdx] = part
  · rw [if_pos hown]
    dsimp only
    rw [if_pos (hcond.mpr hown)]
    obtain ⟨partInfo, array, wayPartIndex, bestId, candIdx, incoming, addr, ts⟩ := s
    cases bestId with
    | none => rfl
    | some best =>
      have hw : wins G ⟨partInfo, array, wayPartIndex, some best, candIdx + 1, incoming, addr,
          ts⟩ id best =
        wins G ⟨partInfo, array, wayPartIndex, some best, candIdx, incoming, addr, ts⟩ id best :=
        rfl
      simp only [pick, hw]
      cases wins G ⟨partInfo, array, wayPartIndex, some best, candIdx, incoming, addr, ts⟩ id best
      · rfl
      · rfl
  · rw [if_neg hown]
    dsimp only
    rw [if_neg fun hc => hown (hcond.mp hc)]

/-- The loop over the candidates looks at those in the ways of the incoming partition. -/
theorem recordAll_spec (hm : G.testMode = false) (hin : s.incomingLinePart = some part)
    (hroom : s.candIdx + cands.length ≤ G.ways) (hways : s.wayPartIndex.length = G.ways) :
    recordAll G cands s = some { s with
      candIdx := s.candIdx + cands.length
      bestId := (((cands.zip (s.wayPartIndex.drop s.candIdx)).filter fun x => x.2 = part).map
        Prod.fst).foldl (pick G s) s.bestId } := by
  induction cands generalizing s with
  | nil => rfl
  | cons id cands ih =>
    rw [List.length_cons] at hroom
    have hlt : s.candIdx < s.wayPartIndex.length := by omega
    have hdrop : s.wayPartIndex.drop s.candIdx =
        s.wayPartIndex[s.candIdx] :: s.wayPartIndex.drop (s.candIdx + 1) :=
      List.drop_eq_getElem_cons hlt
    have hlen : s.candIdx + (id :: cands).length = s.candIdx + 1 + cands.length := by
      rw [List.length_cons]
      omega
    rw [recordAll, recordCandidate_eq hm hin hlt hways, Option.bind_some, hdrop,
      List.zip_cons_cons, hlen]
    refine (ih (by exact hin) (by dsimp only; omega) (by exact hways)).trans ?_
    by_cases hown : s.wayPartIndex[s.candIdx] = part
    · rw [if_pos hown, List.filter_cons_of_pos (by simpa using hown), List.map_cons,
        List.foldl_cons]
      rfl
    · rw [if_neg hown, List.filter_cons_of_neg (by simpa using hown)]
      rfl

theorem wins_iff (hm : G.testMode = false) (hin : s.incomingLinePart = some part) (c best : Nat) :
    wins G s c best = true ↔
      ((s.array c).p = part ↔ (s.array best).p = part) ∧ (s.array c).ts < (s.array best).ts ∨
      (s.array c).p ≠ part ∧ (s.array best).p = part := by
  have hown : ∀ x, (s.incomingLinePart = some (s.array x).p) ↔ (s.array x).p = part := by
    intro x
    rw [hin, Option.some.injEq]
    exact eq_comm
  simp only [wins, hown, hm]
  by_cases hc : (s.array c).p = part
  · by_cases hb : (s.array best).p = part
    · simp [hc, hb]
    · simp [hc, hb]
  · by_cases hb : (s.array best).p = part
    · simp [hc, hb]
    · simp [hc, hb]

theorem Preferred.pick (hm : G.testMode = false) (hin : s.incomingLinePart = some part)
    {ids : List Nat} {b : Nat} (h : Preferred s part ids b) (c : Nat) :
    ∃ b', pick G s (some b) c = some b' ∧ Preferred s part (ids ++ [c]) b' := by
  by_cases hw : wins G s c b = true
  · refine ⟨c, if_pos hw, by simp, ?_, ?_⟩
    · rintro ⟨d, hd, hdp⟩ hcp
      rcases (wins_iff hm hin c b).mp hw with ⟨hiff, -⟩ | ⟨hne, -⟩
      · rcases List.mem_append.mp hd with hd | hd
        · exact h.other ⟨d, hd, hdp⟩ (hiff.mp hcp)
        · rw [List.mem_singleton] at hd
          exact hdp (hd ▸ hcp)
      · exact hne hcp
    · intro d hd hiff
      rcases List.mem_append.mp hd with hd | hd
      · rcases (wins_iff hm hin c b).mp hw with ⟨hcb, hlt⟩ | ⟨hne, hbp⟩
        · have hle := h.oldest d hd (hiff.trans hcb)
          omega
        · have hdp : (s.array d).p ≠ part := fun he => hne (hiff.mp he)
          exact absurd hbp (h.other ⟨d, hd, hdp⟩)
      · rw [List.mem_singleton] at hd
        exact Nat.le_of_eq (by rw [hd])
  · have hl := mt (wins_iff hm hin c b).mpr hw
    refine ⟨b, if_neg hw, by simp [h.mem], ?_, ?_⟩
    · rintro ⟨d, hd, hdp⟩ hbp
      rcases List.mem_append.mp hd with hd | hd
      · exact h.other ⟨d, hd, hdp⟩ hbp
      · rw [List.mem_singleton] at hd
        exact hl (.inr ⟨hd ▸ hdp, hbp⟩)
    · intro d hd hiff
      rcases List.mem_append.mp hd with hd | hd
      · exact h.oldest d hd hiff
      · rw [List.mem_singleton] at hd
        subst hd
        exact not_lt.mp fun hlt => hl (.inl ⟨hiff, hlt⟩)

theorem foldl_pick (hm : G.testMode = false) (hin : s.incomingLinePart = some part)
    (cs : List Nat) {ids : List Nat} {b : Nat} (h : Preferred s part ids b) :
    ∃ b', cs.foldl (WayPartReplPolicy.pick G s) (some b) = some b' ∧
      Preferred s part (ids ++ cs) b' := by
  induction cs generalizing ids b with
  | nil => exact ⟨b, rfl, by simpa using h⟩
  | cons c cs ih =>
    obtain ⟨b₁, hb₁, h₁⟩ := h.pick hm hin c
    obtain ⟨b₂, hb₂, h₂⟩ := ih h₁
    refine ⟨b₂, by rw [List.foldl_cons, hb₁, hb₂], by simpa using h₂⟩

theorem preferred_single (c : Nat) : Preferred s part [c] c := by
  constructor
  · exact List.mem_singleton_self c
  · rintro ⟨d, hd, hdp⟩
    rw [List.mem_singleton] at hd
    rwa [← hd]
  · intro d hd _
    rw [List.mem_singleton] at hd
    exact Nat.le_of_eq (by rw [hd])

theorem owned_ne_nil_iff (hlen : cands.length = G.ways) (hways : s.wayPartIndex.length = G.ways) :
    owned s part cands ≠ [] ↔ part ∈ s.wayPartIndex := by
  rw [owned, Ne, List.map_eq_nil_iff, List.filter_eq_nil_iff]
  constructor
  · intro h
    by_contra hno
    refine h fun x hx => ?_
    have hmem := (List.of_mem_zip hx).2
    simp only [decide_eq_true_eq]
    exact fun he => hno (he ▸ hmem)
  · intro h hno
    obtain ⟨w, hw, he⟩ := List.getElem_of_mem h
    have hwc : w < cands.length := by omega
    have hz : (cands[w], s.wayPartIndex[w]) ∈ cands.zip s.wayPartIndex := by
      refine List.mem_iff_getElem.mpr ⟨w, ?_, ?_⟩
      · rw [List.length_zip]
        omega
      · rw [List.getElem_zip]
    exact hno _ hz (by simpa using he)

theorem Inv.rank (h : Inv G s) (hm : G.testMode = false) (hpart : part < G.partitions)
    (hlen : cands.length = G.ways) (hidle : s.candIdx = 0) (lineAddr : Address) :
    (part ∉ s.wayPartIndex ∧ s.rank G part lineAddr cands = none) ∨
    ∃ id s', s.rank G part lineAddr cands = some (id, s') ∧ Inv G s' ∧
      Preferred s part (owned s part cands) id := by
  have hs₁ : s.startReplacement part lineAddr =
      some { s with incomingLinePart := some part, incomingLineAddr := lineAddr } :=
    if_pos ⟨hidle, h.idle hidle⟩
  have hrec := @recordAll_spec G { s with incomingLinePart := some part, incomingLineAddr := lineAddr }
    part cands hm rfl (by change s.candIdx + _ ≤ _; omega) h.ways
  have hdrop : s.wayPartIndex.drop s.candIdx = s.wayPartIndex := by rw [hidle, List.drop_zero]
  rw [WayPartReplPolicy.rank, hs₁, Option.bind_some, hrec, Option.bind_some]
  simp only [hdrop, h.idle hidle]
  have howned : ((cands.zip s.wayPartIndex).filter fun x => x.2 = part).map Prod.fst =
    owned s part cands := rfl
  rw [howned]
  cases ho : owned s part cands with
  | nil =>
    refine .inl ⟨fun hp => (owned_ne_nil_iff hlen h.ways).mpr hp ho, rfl⟩
  | cons c cs =>
    obtain ⟨b, hb, hp⟩ := @foldl_pick G
      { s with incomingLinePart := some part, incomingLineAddr := lineAddr } part hm rfl cs [c] c
      (preferred_single c)
    refine .inr ⟨b, _, by rw [List.foldl_cons]; exact congrArg (Option.map _) hb, ?_, ?_⟩
    · constructor
      · exact h.size
      · exact h.tag_lt
      · intro p he
        cases he
        exact hpart
      · exact h.ways
      · intro h0
        have hpos : 0 < cands.length := by
          cases cands with
          | nil => cases ho
          | cons => simp
        change s.candIdx + cands.length = 0 at h0
        omega
    · exact ⟨hp.mem, hp.other, hp.oldest⟩

theorem Inv.step (h : Inv G s) (hm : G.testMode = false) {op : Op} (hop : Allowed G s op)
    (hs : s.step G op = some s') : Inv G s' := by
  cases op with
  | update id =>
    obtain ⟨s₁, hs₁, h'⟩ := h.update hop.1 hop.2
    rw [WayPartReplPolicy.step, hs₁] at hs
    cases hs
    exact h'
  | rank part lineAddr cands =>
    obtain ⟨hpart, hlen, -, hidle⟩ := hop
    rcases h.rank hm hpart hlen hidle lineAddr with ⟨-, hr⟩ | ⟨id, s₁, hr, h', -⟩
    · rw [WayPartReplPolicy.step, hr] at hs
      cases hs
    · rw [WayPartReplPolicy.step, hr] at hs
      cases hs
      exact h'
  | replaced id =>
    cases hs
    exact h.replaced
  | setPartitionSizes waysPart =>
    obtain ⟨s₁, hs₁, h', -⟩ := h.repartition hop.1 hop.2.1 hop.2.2
    rw [WayPartReplPolicy.step, hs₁] at hs
    cases hs
    exact h'

theorem Reachable.inv (hm : G.testMode = false) (h : Reachable G s) : Inv G s := by
  induction h with
  | init => exact inv_init
  | step _ hop hs ih => exact ih.step hm hop hs

/-- The constructor gives every partition a way when there are enough. -/
theorem init_owns {p : Nat} (hle : G.partitions ≤ G.ways) (hfit : G.ways * G.partitions ≤ 2 ^ 32)
    (hp : p < G.partitions) : p ∈ (init G).wayPartIndex := by
  have hpos := G.partitions_pos
  refine List.mem_map.mpr ⟨(p * G.ways + (G.partitions - 1)) / G.partitions, ?_, ?_⟩
  · rw [List.mem_range, Nat.div_lt_iff_lt_mul hpos]
    have hmul := Nat.mul_le_mul_right G.ways (Nat.succ_le_of_lt hp)
    rw [Nat.succ_mul, Nat.mul_comm G.partitions] at hmul
    omega
  · obtain ⟨w, hw⟩ : ∃ w, (p * G.ways + (G.partitions - 1)) / G.partitions = w := ⟨_, rfl⟩
    have hmod := Nat.div_add_mod (p * G.ways + (G.partitions - 1)) G.partitions
    have hlt := Nat.mod_lt (p * G.ways + (G.partitions - 1)) hpos
    rw [hw, Nat.mul_comm] at hmod
    have hmul := Nat.mul_le_mul_right G.ways (Nat.succ_le_of_lt hp)
    rw [Nat.succ_mul, Nat.mul_comm G.partitions] at hmul
    rw [hw, Nat.mod_eq_of_lt (by omega)]
    apply Nat.div_eq_of_lt_le
    · omega
    · rw [Nat.succ_mul]
      omega

/-- In every state: the sizes count the lines, and a victim is a line in a way of its partition,
of another partition if there is one, and the oldest of its kind. -/
theorem reachable_way_partitioned (hm : G.testMode = false) (h : Reachable G s) :
    (∀ p, (s.partInfo p).size = tagCount G.totalSize s.tag p) ∧
    ∑ p ∈ range G.partitions, (s.partInfo p).size = G.totalSize ∧
    (∀ id, Allowed G s (.update id) → (s.update id).isSome = true) ∧
    (∀ waysPart, Allowed G s (.setPartitionSizes waysPart) →
      ∃ s', s.repartition G waysPart = some s' ∧ ∀ p < G.partitions, p ∈ s'.wayPartIndex) ∧
    ∀ part lineAddr cands, Allowed G s (.rank part lineAddr cands) →
      ((s.rank G part lineAddr cands).isSome = true ↔ part ∈ s.wayPartIndex) ∧
      ∀ id s', s.rank G part lineAddr cands = some (id, s') →
        Preferred s part (owned s part cands) id := by
  have hi := h.inv hm
  refine ⟨hi.size, ?_, ?_, ?_, ?_⟩
  · rw [sum_congr rfl fun p _ => hi.size p]
    exact sum_tagCount hi.tag_lt
  · intro id hop
    obtain ⟨s', hs, -⟩ := hi.update hop.1 hop.2
    rw [hs]
    rfl
  · intro waysPart hop
    obtain ⟨s', hs, -, hown⟩ := hi.repartition hop.1 hop.2.1 hop.2.2
    exact ⟨s', hs, hown⟩
  · intro part lineAddr cands hop
    obtain ⟨hpart, hlen, -, hidle⟩ := hop
    rcases hi.rank hm hpart hlen hidle lineAddr with ⟨hno, hr⟩ | ⟨id, s₁, hr, -, hpref⟩
    · rw [hr]
      refine ⟨⟨fun he => ?_, fun he => absurd he hno⟩, fun id s' he => ?_⟩
      · cases he
      · cases he
    · rw [hr]
      refine ⟨⟨fun _ => ?_, fun _ => rfl⟩, fun id' s' he => ?_⟩
      · exact (owned_ne_nil_iff hlen hi.ways).mp (List.ne_nil_of_mem hpref.mem)
      · cases he
        exact hpref

instance (op : Op) : Decidable (Allowed G s op) :=
  match op with
  | .update _ => inferInstanceAs (Decidable (_ ∧ _))
  | .rank _ _ _ => inferInstanceAs (Decidable (_ ∧ _))
  | .replaced _ => inferInstanceAs (Decidable (_ < _))
  | .setPartitionSizes _ => inferInstanceAs (Decidable (_ ∧ _))

def run (G : WayPartConfig) : List Op → WayPartReplPolicy → Option WayPartReplPolicy
  | [], s => some s
  | op :: ops, s => if Allowed G s op then (s.step G op).bind (run G ops) else none

theorem Reachable.run (h : Reachable G s) {ops : List Op} (hs : run G ops s = some s') :
    Reachable G s' := by
  induction ops generalizing s with
  | nil =>
    cases hs
    exact h
  | cons op ops ih =>
    rw [WayPartReplPolicy.run] at hs
    split at hs
    · obtain ⟨s₁, hs₁, hs⟩ := Option.bind_eq_some_iff.mp hs
      exact ih (h.step ‹_› hs₁) hs
    · cases hs

/-- One set of three ways and two partitions. -/
def threeWays : WayPartConfig := ⟨2, 3, 3, false, Nat.two_pos, by decide, by decide⟩

/-- The second partition fills a line and then gets a way more. -/
def refill : List Op :=
  [.rank 1 5 [0, 1, 2], .replaced 2, .update 2, .setPartitionSizes [1, 2]]

/-- In its new way the second partition evicts the line of the first. -/
theorem reachable_way_partitioned_refill : ∃ s, Reachable threeWays s ∧
    s.wayPartIndex = [0, 1, 1] ∧ (s.partInfo 1).size = 1 ∧
    ∃ s', s.rank threeWays 1 7 [0, 1, 2] = some (1, s') := by
  have hrun : ((init threeWays).run threeWays refill).any (fun s =>
      s.wayPartIndex = [0, 1, 1] ∧ s.candIdx = 0 ∧ (s.partInfo 1).size = 1 ∧
        (s.array 1).p = 0 ∧ (s.array 2).p = 1) = true := by
    decide +kernel
  rw [Option.any_eq_true] at hrun
  obtain ⟨s, hs, hstate⟩ := hrun
  obtain ⟨hindex, hcand, hsize, hone, htwo⟩ := of_decide_eq_true hstate
  have hreach : Reachable threeWays s := Reachable.init.run hs
  obtain ⟨-, -, -, -, hrank⟩ := reachable_way_partitioned rfl hreach
  obtain ⟨hsome, hpref⟩ := hrank 1 7 [0, 1, 2] ⟨by decide, rfl, by decide, hcand⟩
  obtain ⟨⟨id, s'⟩, hr⟩ := Option.isSome_iff_exists.mp (hsome.mpr (by simp [hindex]))
  obtain ⟨hmem, hother, -⟩ := hpref id s' hr
  have hid : id = 1 ∨ id = 2 := by simpa [owned, hindex] using hmem
  refine ⟨s, hreach, hindex, hsize, s', ?_⟩
  rcases hid with rfl | rfl
  · exact hr
  · exact absurd htwo (hother ⟨1, by simp [owned, hindex], by simp [hone]⟩)

end WayPartReplPolicy

end ZSim
