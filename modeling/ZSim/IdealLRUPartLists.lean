import Mathlib.Algebra.Order.BigOperators.Group.Finset
import Mathlib.Tactic
import ZSim.IdealLRUPart

/-! Accounting of the ideal partitioned LRU policy, and the victims that `rank` chooses. -/

namespace ZSim

namespace IdealLRUPartReplPolicy

open LRUStack InLists

/-- `order p` is the list of partition `p`. -/
structure Inv (G : IdealPartConfig) (s : IdealLRUPartReplPolicy) (updates : List Nat)
    (order : Nat → List Nat) : Prop where
  holds : s.lruList.Holds order
  mem : ∀ id p, id ∈ order p ↔ id < G.numLines ∧ (s.array id).p = p
  part : ∀ id, id < G.numLines → (s.array id).p < G.partitions
  size : ∀ p, (s.partInfo p).size = (order p).length
  target : ∀ p, (s.partInfo p).targetSize < 2 ^ 32
  byUse : ∀ p, ByLastUse updates (order p)

variable {G : IdealPartConfig} {R : DoubleRounding} {s s' : IdealLRUPartReplPolicy}
variable {updates : List Nat} {order : Nat → List Nat} {id part p : Nat}

theorem pushAll_spec {l : InLists Nat Nat} (h : l.Holds order) (is : List Nat) (hnd : is.Nodup)
    (hdisj : ∀ i ∈ is, ∀ p, i ∉ order p) :
    ∃ l', pushAll is l = some l' ∧
      l'.Holds (Function.update order 0 (is.reverse ++ order 0)) := by
  induction is generalizing l order with
  | nil => exact ⟨l, rfl, by simpa using h⟩
  | cons i is ih =>
    obtain ⟨hi, hnd⟩ := List.nodup_cons.mp hnd
    obtain ⟨l₁, hl₁, h₁⟩ := h.push_front 0 (hdisj i (by simp))
    obtain ⟨l₂, hl₂, h₂⟩ := ih h₁ hnd fun j hj p hmem => by
      have hjp := hdisj j (by simp [hj]) p
      by_cases hp : p = 0
      · subst hp
        rw [Function.update_self] at hmem
        rcases List.mem_cons.mp hmem with rfl | hmem
        · exact hi hj
        · exact hjp hmem
      · rw [Function.update_of_ne hp] at hmem
        exact hjp hmem
    refine ⟨l₂, by rw [pushAll, hl₁, Option.bind_some, hl₂], ?_⟩
    simpa [Function.update_idem] using h₂

theorem init_spec (G : IdealPartConfig) : ∃ s, init G = some s ∧
    ∃ order, Inv G s (List.range G.numLines).reverse order := by
  obtain ⟨l, hl, h⟩ := pushAll_spec init_holds (List.range G.numLines) List.nodup_range (by simp)
  rw [List.append_nil] at h
  refine ⟨_, by rw [init, hl, Option.map_some],
    Function.update (fun _ => []) 0 (List.range G.numLines).reverse, ?_⟩
  have hlt := G.numLines_lt
  constructor
  · exact h
  · intro id p
    by_cases hp : p = 0
    · simp [hp]
    · have hp' : ¬ 0 = p := fun he => hp he.symm
      simp [hp, hp']
  · exact fun _ _ => G.partitions_pos
  · intro p
    by_cases hp : p = 0
    · simp [hp]
    · simp [hp]
  · intro p
    have hdiv := Nat.div_le_self G.numLines G.partitions
    change G.numLines / G.partitions < _
    omega
  · intro p
    by_cases hp : p = 0
    · simpa [hp] using ByLastUse.self (List.nodup_reverse.mpr List.nodup_range)
    · simp [hp, ByLastUse]

theorem Inv.mem_own (h : Inv G s updates order) (hid : id < G.numLines) :
    id ∈ order (s.array id).p := (h.mem id _).mpr ⟨hid, rfl⟩

theorem Inv.move (h : Inv G s updates order) (hid : id < G.numLines) (part : Nat) :
    ∃ l₁ l₂, s.lruList.remove (s.array id).p id = some l₁ ∧ l₁.push_front part id = some l₂ ∧
      ∃ order', l₂.Holds order' ∧
        (∀ x p, x ∈ order' p ↔ if x = id then p = part else x ∈ order p) ∧
        (∀ p, ByLastUse (id :: updates) (order' p)) ∧
        (∀ p, (order' p).length + (if (s.array id).p = p then 1 else 0) =
          (order p).length + if part = p then 1 else 0) := by
  have hmem := h.mem_own hid
  have hnd := h.holds.nodup
  obtain ⟨l₁, hl₁, h₁⟩ := h.holds.remove hmem
  have hout : ∀ p, id ∉ Function.update order (s.array id).p
      ((order (s.array id).p).erase id) p := by
    intro p hp
    by_cases hpo : p = (s.array id).p
    · subst hpo
      rw [Function.update_self] at hp
      exact (hnd _).not_mem_erase hp
    · rw [Function.update_of_ne hpo] at hp
      exact hpo (h.holds.list_unique hp hmem)
  obtain ⟨l₂, hl₂, h₂⟩ := h₁.push_front part hout
  refine ⟨l₁, l₂, hl₁, hl₂, _, h₂, fun x p => ?_, fun p => ?_, fun p => ?_⟩
  · have hx : x ∈ Function.update order (s.array id).p ((order (s.array id).p).erase id) p ↔
        x ≠ id ∧ x ∈ order p := by
      by_cases hpo : p = (s.array id).p
      · subst hpo
        rw [Function.update_self, (hnd _).mem_erase_iff]
      · rw [Function.update_of_ne hpo]
        constructor
        · intro hxp
          refine ⟨?_, hxp⟩
          rintro rfl
          exact hpo (h.holds.list_unique hxp hmem)
        · exact fun hxp => hxp.2
    by_cases hpp : p = part
    · subst hpp
      rw [Function.update_self, List.mem_cons, hx]
      split
      · next he => simp [he]
      · next he => simp [he]
    · rw [Function.update_of_ne hpp, hx]
      split
      · next he => simp [he, hpp]
      · next he => simp [he]
  · have hskip : ∀ q, ByLastUse (id :: updates)
        (Function.update order (s.array id).p ((order (s.array id).p).erase id) q) := by
      intro q
      refine ByLastUse.skip ?_ (hout q)
      by_cases hqo : q = (s.array id).p
      · subst hqo
        rw [Function.update_self]
        exact (h.byUse _).erase
      · rw [Function.update_of_ne hqo]
        exact h.byUse q
    by_cases hpp : p = part
    · subst hpp
      rw [Function.update_self]
      refine List.pairwise_cons.mpr ⟨fun y hy => ?_, hskip p⟩
      have hne : id ≠ y := by
        rintro rfl
        exact hout p hy
      rw [List.idxOf_cons_self, List.idxOf_cons_ne _ hne]
      exact Nat.succ_pos _
    · rw [Function.update_of_ne hpp]
      exact hskip p
  · have hlen := List.length_erase_of_mem hmem
    have hpos : 0 < (order (s.array id).p).length := List.length_pos_of_mem hmem
    by_cases hpp : p = part
    · subst hpp
      rw [Function.update_self, List.length_cons, if_pos rfl]
      by_cases hpo : p = (s.array id).p
      · rw [hpo, Function.update_self, if_pos rfl, hlen]
        omega
      · rw [Function.update_of_ne hpo, if_neg (Ne.symm hpo)]
    · rw [Function.update_of_ne hpp, if_neg (Ne.symm hpp)]
      by_cases hpo : p = (s.array id).p
      · rw [hpo, Function.update_self, if_pos rfl, hlen]
        omega
      · rw [Function.update_of_ne hpo, if_neg (Ne.symm hpo)]

theorem Inv.update (h : Inv G s updates order) (hid : id < G.numLines)
    (hpart : part < G.partitions) :
    ∃ s' order', s.update id part = some s' ∧ Inv G s' (id :: updates) order' := by
  rw [IdealLRUPartReplPolicy.update]
  split
  · obtain ⟨l₁, l₂, hl₁, hl₂, order', hholds, hmem, hbyUse, hlen⟩ := h.move hid (s.array id).p
    refine ⟨{ s with lruList := l₂ }, order',
      by simp only [hl₁, hl₂, Option.bind_some, Option.map_some], ?_⟩
    constructor
    · exact hholds
    · intro x p
      rw [hmem]
      split
      · next he =>
        subst he
        simp only [hid, true_and]
        exact eq_comm
      · exact h.mem x p
    · exact h.part
    · intro p
      have hp := hlen p
      rw [← h.size] at hp
      change (s.partInfo p).size = _
      omega
    · exact h.target
    · exact hbyUse
  · obtain ⟨l₁, l₂, hl₁, hl₂, order', hholds, hmem, hbyUse, hlen⟩ := h.move hid part
    have hpos : 0 < (s.partInfo (s.array id).p).size := by
      rw [h.size]
      exact List.length_pos_of_mem (h.mem_own hid)
    obtain ⟨partInfo, hr, hsize, htarget⟩ := PartInfo.resize_spec hpos part
    refine ⟨⟨Function.update s.array id ⟨part, true⟩, partInfo, l₂⟩, order',
      by simp only [hr, hl₁, hl₂, Option.bind_some, Option.map_some], ?_⟩
    constructor
    · exact hholds
    · intro x p
      dsimp only
      rw [hmem, Function.update_apply]
      split
      · next he =>
        subst he
        simp only [hid, true_and]
        exact eq_comm
      · exact h.mem x p
    · intro x hx
      dsimp only
      rw [Function.update_apply]
      split
      · exact hpart
      · exact h.part x hx
    · intro p
      have hp := hlen p
      have hp' := hsize p
      rw [h.size] at hp'
      change (partInfo p).size = _
      omega
    · intro p
      change (partInfo p).targetSize < _
      rw [htarget]
      exact h.target p
    · exact hbyUse

theorem Inv.replaced (h : Inv G s updates order) : Inv G (s.replaced id) updates order := by
  have hp : ∀ x, ((s.replaced id).array x).p = (s.array x).p := by
    intro x
    by_cases hx : x = id
    · simp [IdealLRUPartReplPolicy.replaced, hx]
    · simp [IdealLRUPartReplPolicy.replaced, hx]
  constructor
  · exact h.holds
  · intro x p
    rw [hp]
    exact h.mem x p
  · intro x hx
    rw [hp]
    exact h.part x hx
  · exact h.size
  · exact h.target
  · exact h.byUse

theorem Inv.setPartitionSizes (h : Inv G s updates order) (hb : G.numBuckets ≠ 0)
    (sizes : Nat → Nat) :
    ∃ s', s.setPartitionSizes G sizes = some s' ∧ Inv G s' updates order := by
  refine ⟨_, if_neg hb, ?_⟩
  constructor
  · exact h.holds
  · exact h.mem
  · exact h.part
  · intro p
    rw [← h.size]
    change (if _ then _ else _ : PartInfo).size = _
    split
    · rfl
    · rfl
  · intro p
    change (if _ then _ else _ : PartInfo).targetSize < _
    split
    · have hlt : sizes p * G.numLines % 2 ^ 32 < 2 ^ 32 := Nat.mod_lt _ (by decide)
      exact (Nat.div_le_self _ _).trans_lt hlt
    · exact h.target p
  · exact h.byUse

theorem Inv.step (h : Inv G s updates order) (op : Op) (hop : Allowed G op) :
    ∃ s' order', s.step G op = some s' ∧ Inv G s' (updated op ++ updates) order' := by
  cases op with
  | update id part => exact h.update hop.1 hop.2
  | replaced id => exact ⟨_, order, rfl, h.replaced⟩
  | setPartitionSizes sizes =>
    obtain ⟨s', hs, h'⟩ := h.setPartitionSizes hop sizes
    exact ⟨s', order, hs, h'⟩

theorem Reachable.inv (h : Reachable G s updates) : ∃ order, Inv G s updates order := by
  induction h with
  | init h =>
    obtain ⟨s, hs, hinv⟩ := init_spec G
    rw [h] at hs
    cases hs
    exact hinv
  | step _ hop hs ih =>
    obtain ⟨order, hi⟩ := ih
    obtain ⟨s₁, order', hs₁, hi'⟩ := hi.step _ hop
    rw [hs] at hs₁
    cases hs₁
    exact ⟨order', hi'⟩

theorem Inv.total (h : Inv G s updates order) :
    ∑ p ∈ Finset.range G.partitions, (order p).length = G.numLines := by
  have hcard : ∀ p, (order p).length =
      ((Finset.range G.numLines).filter fun id => (s.array id).p = p).card := by
    intro p
    rw [← List.toFinset_card_of_nodup (h.holds.nodup p)]
    congr 1
    ext id
    simp [h.mem]
  have hmaps : ∀ id ∈ Finset.range G.numLines, (s.array id).p ∈ Finset.range G.partitions := by
    intro id hid
    exact Finset.mem_range.mpr (h.part id (Finset.mem_range.mp hid))
  calc ∑ p ∈ Finset.range G.partitions, (order p).length
      = ∑ p ∈ Finset.range G.partitions,
          ((Finset.range G.numLines).filter fun id => (s.array id).p = p).card :=
        Finset.sum_congr rfl fun p _ => hcard p
    _ = (Finset.range G.numLines).card := (Finset.card_eq_sum_card_fiberwise hmaps).symm
    _ = G.numLines := Finset.card_range _

theorem Inv.diff_gt (h : Inv G s updates order) (hp : order p ≠ []) :
    -2 < diff R (s.partInfo p) := by
  have hpos : 0 < (order p).length := List.length_pos_iff.mpr hp
  have hle : (order p).length ≤ G.numLines := by
    have hsub : (order p).toFinset ⊆ Finset.range G.numLines := by
      intro id hid
      rw [List.mem_toFinset, h.mem] at hid
      exact Finset.mem_range.mpr hid.1
    have hcard := Finset.card_le_card hsub
    rwa [List.toFinset_card_of_nodup (h.holds.nodup p), Finset.card_range] at hcard
  have hlt := G.numLines_lt
  have ht := h.target p
  have hs := h.size p
  have hint : -((s.partInfo p).targetSize + 1 : Int) ≤
      (((s.partInfo p).size : Int) - (s.partInfo p).targetSize).bmod (2 ^ 32) := by
    rw [Int.bmod_def]
    split <;> omega
  rw [diff]
  obtain ⟨d, hd⟩ : ∃ d, (((s.partInfo p).size : Int) - (s.partInfo p).targetSize).bmod
      (2 ^ 32) = d := ⟨_, rfl⟩
  rw [hd] at hint ⊢
  have hq : (-1 : ℚ) ≤ (d : ℚ) / (((s.partInfo p).targetSize : ℚ) + 1) := by
    rw [le_div_iff₀ (by positivity)]
    have hcast : ((-((s.partInfo p).targetSize + 1 : Int) : Int) : ℚ) ≤ (d : ℚ) :=
      Int.cast_le.mpr hint
    push_cast at hcast
    linarith
  have hr := R.monotone hq
  rw [R.round_neg_one] at hr
  linarith

/-- The loop keeps its start, or finds the first of the largest differences above it. -/
theorem rankFrom_spec (ps : List Nat) (best : Nat × ℚ) :
    (rankFrom R s ps best = best ∧
      ∀ p ∈ ps, 0 < (s.partInfo p).size → diff R (s.partInfo p) ≤ best.2) ∨
    ∃ as v bs, ps = as ++ v :: bs ∧ (rankFrom R s ps best).1 = v ∧
      0 < (s.partInfo v).size ∧ best.2 < diff R (s.partInfo v) ∧
      (∀ p ∈ ps, 0 < (s.partInfo p).size → diff R (s.partInfo p) ≤ diff R (s.partInfo v)) ∧
      ∀ p ∈ as, 0 < (s.partInfo p).size → diff R (s.partInfo p) < diff R (s.partInfo v) := by
  induction ps generalizing best with
  | nil => exact .inl ⟨rfl, by simp⟩
  | cons q ps ih =>
    rw [rankFrom]
    split
    · next hq =>
      obtain ⟨hlt, hpos⟩ := hq
      refine .inr ?_
      rcases ih (q, diff R (s.partInfo q)) with
        ⟨he, hle⟩ | ⟨as, v, bs, hps, hv, hvpos, hv', hle, hfirst⟩
      · refine ⟨[], q, ps, rfl, by rw [he], hpos, hlt, ?_, by simp⟩
        intro p hp hp0
        rcases List.mem_cons.mp hp with rfl | hp
        · exact le_refl _
        · exact hle p hp hp0
      · refine ⟨q :: as, v, bs, by rw [hps]; rfl, hv, hvpos, hlt.trans hv', ?_, ?_⟩
        · intro p hp hp0
          rcases List.mem_cons.mp hp with rfl | hp
          · exact hv'.le
          · exact hle p hp hp0
        · intro p hp hp0
          rcases List.mem_cons.mp hp with rfl | hp
          · exact hv'
          · exact hfirst p hp hp0
    · next hq =>
      have hqle : 0 < (s.partInfo q).size → diff R (s.partInfo q) ≤ best.2 :=
        fun hpos => not_lt.mp fun hlt => hq ⟨hlt, hpos⟩
      rcases ih best with ⟨he, hle⟩ | ⟨as, v, bs, hps, hv, hvpos, hv', hle, hfirst⟩
      · refine .inl ⟨he, ?_⟩
        intro p hp hp0
        rcases List.mem_cons.mp hp with rfl | hp
        · exact hqle hp0
        · exact hle p hp hp0
      · refine .inr ⟨q :: as, v, bs, by rw [hps]; rfl, hv, hvpos, hv', ?_, ?_⟩
        · intro p hp hp0
          rcases List.mem_cons.mp hp with rfl | hp
          · exact (hqle hp0).trans hv'.le
          · exact hle p hp hp0
        · intro p hp hp0
          rcases List.mem_cons.mp hp with rfl | hp
          · exact (hqle hp0).trans_lt hv'
          · exact hfirst p hp hp0

theorem mem_of_lt_split {n v : Nat} {as bs : List Nat} (h : List.range n = as ++ v :: bs)
    (hp : p < v) (hpn : p < n) : p ∈ as := by
  have hmem : p ∈ as ++ v :: bs := h ▸ List.mem_range.mpr hpn
  have hpw : (as ++ v :: bs).Pairwise (· < ·) := h ▸ List.pairwise_lt_range
  rcases List.mem_append.mp hmem with hp' | hp'
  · exact hp'
  · obtain ⟨-, hvbs, -⟩ := List.pairwise_append.mp hpw
    rcases List.mem_cons.mp hp' with rfl | hp'
    · omega
    · have hlt := (List.pairwise_cons.mp hvbs).1 p hp'
      omega

theorem Inv.rank (h : Inv G s updates order) (hn : 0 < G.numLines) (part : Nat)
    (hpart : part < G.partitions) :
    ∃ v id, rank G R s part = some id ∧ v < G.partitions ∧ (order v).getLast? = some id ∧
      ((v = part ∧ ∀ p < G.partitions, order p ≠ [] → diff R (s.partInfo p) ≤ 0) ∨
        (order part = [] ∨ 0 < diff R (s.partInfo v)) ∧
        ∀ p < G.partitions, order p ≠ [] → diff R (s.partInfo p) ≤ diff R (s.partInfo v) ∧
          (p < v → diff R (s.partInfo p) < diff R (s.partInfo v))) := by
  have hpos : ∀ p, 0 < (s.partInfo p).size ↔ order p ≠ [] := by
    intro p
    rw [h.size, List.length_pos_iff]
  have hret : ∀ v, (rankFrom R s (List.range G.partitions)
      (part, if (s.partInfo part).size = 0 then -2 else 0)).1 = v → order v ≠ [] →
      ∃ id, IdealLRUPartReplPolicy.rank G R s part = some id ∧ (order v).getLast? = some id := by
    intro v hv hne
    obtain ⟨id, hid⟩ := Option.ne_none_iff_exists'.mp
      (fun hnone => hne (List.getLast?_eq_none_iff.mp hnone))
    refine ⟨id, ?_, hid⟩
    rw [IdealLRUPartReplPolicy.rank, hv, if_pos ⟨(hpos v).mpr hne, by rw [h.holds.size_eq, h.size]⟩,
      h.holds.back_eq, hid]
  rcases @rankFrom_spec R s (List.range G.partitions)
      (part, if (s.partInfo part).size = 0 then -2 else 0) with
    ⟨he, hle⟩ | ⟨as, v, bs, hps, hv, hvpos, hgt, hle, hfirst⟩
  · by_cases hown : order part = []
    · -- some partition has lines, and is above the sentinel
      exfalso
      have hmem := h.mem_own hn
      have hlt := h.part 0 hn
      have hne : order (s.array 0).p ≠ [] := List.ne_nil_of_mem hmem
      have hsent := hle _ (List.mem_range.mpr hlt) ((hpos _).mpr hne)
      have hz : (s.partInfo part).size = 0 := by rw [h.size, hown]; rfl
      rw [if_pos hz] at hsent
      exact absurd (h.diff_gt hne) (not_lt.mpr hsent)
    · have hz : (s.partInfo part).size ≠ 0 := Nat.ne_of_gt ((hpos part).mpr hown)
      obtain ⟨id, hid, hlast⟩ := hret part (by rw [he]) hown
      refine ⟨part, id, hid, hpart, hlast, .inl ⟨rfl, fun p hp hne => ?_⟩⟩
      have hp' := hle p (List.mem_range.mpr hp) ((hpos p).mpr hne)
      rwa [if_neg hz] at hp'
  · obtain ⟨id, hid, hlast⟩ := hret v hv ((hpos v).mp hvpos)
    have hvlt : v < G.partitions := by
      have hm : v ∈ List.range G.partitions := by simp [hps]
      exact List.mem_range.mp hm
    refine ⟨v, id, hid, hvlt, hlast, .inr ⟨?_, fun p hp hne => ⟨?_, fun hpv => ?_⟩⟩⟩
    · by_cases hown : order part = []
      · exact .inl hown
      · have hz : (s.partInfo part).size ≠ 0 := Nat.ne_of_gt ((hpos part).mpr hown)
        rw [if_neg hz] at hgt
        exact .inr hgt
    · exact hle p (List.mem_range.mpr hp) ((hpos p).mpr hne)
    · exact hfirst p (mem_of_lt_split hps hpv hp) ((hpos p).mpr hne)

/-- In every state: the lists, the counters and the victim of every request. -/
theorem reachable_partitioned (h : Reachable G s updates) :
    ∃ order : Nat → List Nat, s.lruList.Holds order ∧
      (∀ id p, id ∈ order p ↔ id < G.numLines ∧ (s.array id).p = p) ∧
      (∀ id < G.numLines, (s.array id).p < G.partitions) ∧
      (∀ p, ByLastUse updates (order p)) ∧
      (∀ p, (s.partInfo p).size = (order p).length) ∧
      ∑ p ∈ Finset.range G.partitions, (order p).length = G.numLines ∧
      (∀ op, Allowed G op → (s.step G op).isSome = true) ∧
      (0 < G.numLines → ∀ R : DoubleRounding, ∀ part < G.partitions, ∃ v id,
        rank G R s part = some id ∧ v < G.partitions ∧ (order v).getLast? = some id ∧
        ((v = part ∧ ∀ p < G.partitions, order p ≠ [] → diff R (s.partInfo p) ≤ 0) ∨
          (order part = [] ∨ 0 < diff R (s.partInfo v)) ∧
          ∀ p < G.partitions, order p ≠ [] → diff R (s.partInfo p) ≤ diff R (s.partInfo v) ∧
            (p < v → diff R (s.partInfo p) < diff R (s.partInfo v)))) := by
  obtain ⟨order, hi⟩ := h.inv
  refine ⟨order, hi.holds, hi.mem, hi.part, hi.byUse, hi.size, hi.total, fun op hop => ?_,
    fun hn R part hpart => hi.rank hn part hpart⟩
  obtain ⟨s', -, hs, -⟩ := hi.step op hop
  rw [hs]
  rfl

def exactRounding : DoubleRounding := ⟨fun x => x, monotone_id, rfl⟩

theorem Reachable.run (h : Reachable G s updates) {ops : List Op}
    (hops : ∀ op ∈ ops, Allowed G op) (hs : run G ops s = some s') :
    ∃ updates', Reachable G s' updates' := by
  induction ops generalizing s updates with
  | nil =>
    cases hs
    exact ⟨updates, h⟩
  | cons op ops ih =>
    obtain ⟨s₁, hs₁, hs'⟩ := Option.bind_eq_some_iff.mp hs
    exact ih (h.step (hops op (by simp)) hs₁) (fun o ho => hops o (by simp [ho])) hs'

/-- Six lines and three partitions. -/
def sixLines : IdealPartConfig := ⟨3, 6, 6, Nat.succ_pos 2, by decide⟩

/-- Partition 1 gets line 0 and partition 2 the lines 1 and 2, of which 1 is used again; then the
targets are set to 3, 3 and 0. -/
def refill : List Op :=
  [.replaced 0, .update 0 1, .replaced 1, .update 1 2, .replaced 2, .update 2 2, .update 1 2,
    .setPartitionSizes fun p => if p = 2 then 0 else 3]

/-- The request of partition 0 evicts from partition 2, which alone is above its target, the line
that was not used again. -/
theorem reachable_partitioned_refill : ∃ s updates, Reachable sixLines s updates ∧
    (s.partInfo 0).size = 3 ∧ (s.partInfo 1).size = 1 ∧ (s.partInfo 2).size = 2 ∧
    ∃ id, rank sixLines exactRounding s 0 = some id ∧ (s.array id).p = 2 ∧ id ≠ 1 := by
  obtain ⟨s₀, hs₀, -⟩ := init_spec sixLines
  have hrun : ((init sixLines).bind (IdealLRUPartReplPolicy.run sixLines refill)).any (fun s =>
      ((s.partInfo 0).size = 3 ∧ (s.partInfo 1).size = 1 ∧ (s.partInfo 2).size = 2) ∧
      0 < diff exactRounding (s.partInfo 2) ∧
      diff exactRounding (s.partInfo 0) < diff exactRounding (s.partInfo 2) ∧
      diff exactRounding (s.partInfo 1) < diff exactRounding (s.partInfo 2) ∧
      s.lruList.back 2 ≠ some 1) = true := by
    decide +kernel
  rw [hs₀, Option.bind_some, Option.any_eq_true] at hrun
  obtain ⟨s, hs, hstate⟩ := hrun
  obtain ⟨⟨h0, h1, h2⟩, hpos, h02, h12, hback⟩ := of_decide_eq_true hstate
  obtain ⟨updates, hr⟩ := (Reachable.init hs₀).run (by simp [refill, Allowed, sixLines]) hs
  refine ⟨s, updates, hr, h0, h1, h2, ?_⟩
  obtain ⟨order, hholds, hmem, -, -, hsize, -, -, hrank⟩ := reachable_partitioned hr
  obtain ⟨v, id, hid, hv, hlast, hcase⟩ := hrank (by decide) exactRounding 0 (by decide)
  have hne : order 2 ≠ [] := by
    rw [← List.length_pos_iff, ← hsize, h2]
    exact Nat.two_pos
  have hv2 : v = 2 := by
    rcases hcase with ⟨-, hall⟩ | ⟨-, hall⟩
    · exact absurd hpos (not_lt.mpr (hall 2 (by decide) hne))
    · have hle := (hall 2 (by decide) hne).1
      obtain rfl | rfl | rfl : v = 0 ∨ v = 1 ∨ v = 2 := by
        have : v < 3 := hv
        omega
      · exact absurd h02 (not_lt.mpr hle)
      · exact absurd h12 (not_lt.mpr hle)
      · rfl
  subst hv2
  refine ⟨id, hid, ((hmem id 2).mp (List.mem_of_getLast? hlast)).2, ?_⟩
  rintro rfl
  exact hback (hholds.back_eq.trans hlast)

def evenSplit : List Op :=
  [.replaced 0, .update 0 1, .replaced 1, .update 1 1, .setPartitionSizes fun _ => 1]

/-- Two partitions are above their targets alike, and the request is of the second one: its
victim is a line of the first. -/
theorem equal_excess_evicts_other : ∃ s updates id,
    Reachable ⟨2, 4, 4, by decide, by decide⟩ s updates ∧
    rank ⟨2, 4, 4, by decide, by decide⟩ exactRounding s 1 = some id ∧ (s.array id).p = 0 ∧
    (s.partInfo 1).size = 2 ∧
    ¬ diff exactRounding (s.partInfo 1) < diff exactRounding (s.partInfo 0) := by
  obtain ⟨s₀, hs₀, -⟩ := init_spec ⟨2, 4, 4, by decide, by decide⟩
  have h : ((init ⟨2, 4, 4, by decide, by decide⟩).bind
      (IdealLRUPartReplPolicy.run ⟨2, 4, 4, by decide, by decide⟩ evenSplit)).any (fun s =>
        rank ⟨2, 4, 4, by decide, by decide⟩ exactRounding s 1 = some 2 ∧ (s.array 2).p = 0 ∧
        (s.partInfo 1).size = 2 ∧
        ¬ diff exactRounding (s.partInfo 1) < diff exactRounding (s.partInfo 0)) = true := by
    decide +kernel
  rw [hs₀, Option.bind_some, Option.any_eq_true] at h
  obtain ⟨s, hs, hp⟩ := h
  obtain ⟨updates, hr⟩ := (Reachable.init hs₀).run (by simp [evenSplit, Allowed]) hs
  exact ⟨s, updates, 2, hr, of_decide_eq_true hp⟩

end IdealLRUPartReplPolicy

end ZSim
