import ZSim.Lookahead
import Mathlib.Algebra.Order.BigOperators.Group.List
import Mathlib.Algebra.Order.Ring.Nat
import Mathlib.Data.Rat.Floor
import Mathlib.Tactic.Positivity

/-! When the allocations of the lookahead partitioner are valid. The greedy loop hands out
exactly the balance it starts with, but the minimum is taken off that balance once and
given to every partition. -/

namespace ZSim

namespace Lookahead

variable {F : Type} [LinearOrder F] {fp : Doubles F} {buckets : Nat} {curves : Nat → Nat → Nat}
  {forbidden : Nat → Bool} {part partAlloc balance bound floor : Nat} {allocs : List Nat}

theorem get_eq (h : part ≤ buckets) (p : Nat) : get buckets curves p part = some (curves p part) :=
  if_pos h

theorem le_of_get {p b m : Nat} (h : get buckets curves p b = some m) : b ≤ buckets := by
  by_contra hb
  rw [get, if_neg hb] at h
  cases h

theorem sum_set_add {l : List Nat} {p : Nat} (hp : p < l.length) (n : Nat) :
    (l.set p (l[p] + n)).sum = l.sum + n := by
  induction l generalizing p with
  | nil => exact absurd hp (Nat.not_lt_zero _)
  | cons x l ih =>
    cases p with
    | zero =>
      simp only [List.set_cons_zero, List.getElem_cons_zero, List.sum_cons]
      omega
    | succ p =>
      simp only [List.set_cons_succ, List.getElem_cons_succ, List.sum_cons]
      rw [ih (Nat.lt_of_succ_lt_succ hp), Nat.add_assoc]

variable (fp curves) in
/-- A scan within the buckets ends with what it began with, or with a better turn. -/
theorem getMaxMarginalUtilityFrom_spec (part : Nat) {is : List Nat} (hlt : buckets < 2 ^ 32)
    (hpart : partAlloc ≤ buckets) (his : ∀ i ∈ is, 0 < i ∧ partAlloc + i ≤ buckets)
    (best : F × Nat) :
    ∃ r, getMaxMarginalUtilityFrom fp buckets curves part partAlloc is best = some r ∧
      (r = best ∨ r.2 ∈ is ∧ best.1 < r.1) := by
  induction is generalizing best with
  | nil => exact ⟨best, rfl, .inl rfl⟩
  | cons i is ih =>
    obtain ⟨hpos, hi⟩ := his i List.mem_cons_self
    rw [getMaxMarginalUtilityFrom, get_eq hpart, Nat.mod_eq_of_lt (by omega), get_eq hi]
    set mu := fp.quotient ((curves part partAlloc + 2 ^ 32 - curves part (partAlloc + i)) % 2 ^ 32) i
    obtain ⟨r, hr, hcases⟩ := ih (fun j hj => his j (List.mem_cons_of_mem _ hj))
      (if best.1 < mu then (mu, i) else best)
    refine ⟨r, hr, ?_⟩
    by_cases hmu : best.1 < mu
    · rw [if_pos hmu] at hcases
      rcases hcases with rfl | ⟨hmem, hbetter⟩
      · exact .inr ⟨List.mem_cons_self, hmu⟩
      · exact .inr ⟨List.mem_cons_of_mem _ hmem, hmu.trans hbetter⟩
    · rw [if_neg hmu] at hcases
      exact hcases.imp_right fun ⟨hmem, hbetter⟩ => ⟨List.mem_cons_of_mem _ hmem, hbetter⟩

variable (fp curves) in
/-- With a balance to hand out, some of it has positive utility over `-1.0`. -/
theorem getMaxMarginalUtility_spec (part : Nat) (hlt : buckets < 2 ^ 32) (hpos : 0 < balance)
    (hle : partAlloc + balance ≤ buckets) :
    ∃ r, getMaxMarginalUtility fp buckets curves part partAlloc balance = some r ∧
      fp.minusOne < r.1 ∧ 1 ≤ r.2 ∧ r.2 ≤ balance := by
  have hrange : ∀ i ∈ (List.range balance).map (· + 1), 1 ≤ i ∧ i ≤ balance := by
    intro i hi
    obtain ⟨j, hj, rfl⟩ := List.mem_map.mp hi
    rw [List.mem_range] at hj
    omega
  obtain ⟨n, rfl⟩ := Nat.exists_eq_succ_of_ne_zero (Nat.ne_of_gt hpos)
  have hfirst : (List.range (n + 1)).map (· + 1) =
      1 :: ((List.range n).map Nat.succ).map (· + 1) := by
    rw [List.range_succ_eq_map]
    rfl
  rw [Nat.succ_eq_add_one, hfirst] at hrange
  rw [getMaxMarginalUtility, Nat.succ_eq_add_one, hfirst, getMaxMarginalUtilityFrom,
    get_eq (by omega), Nat.mod_eq_of_lt (by omega), get_eq (by omega)]
  simp only [Option.bind_some]
  set mu := fp.quotient ((curves part partAlloc + 2 ^ 32 - curves part (partAlloc + 1)) % 2 ^ 32) 1
    with hmu
  have hfirst_lt : fp.minusOne < mu := fp.minusOne_lt _ _ Nat.one_pos
  rw [if_pos hfirst_lt]
  obtain ⟨r, hr, hcases⟩ := getMaxMarginalUtilityFrom_spec fp curves part hlt (by omega : partAlloc ≤ buckets)
    (fun i hi => ⟨(hrange i (List.mem_cons_of_mem _ hi)).1, by
      have := (hrange i (List.mem_cons_of_mem _ hi)).2
      omega⟩) (mu, 1)
  refine ⟨r, hr, ?_⟩
  rcases hcases with rfl | ⟨hmem, hbetter⟩
  · exact ⟨hfirst_lt, Nat.le_refl _, by omega⟩
  · exact ⟨hfirst_lt.trans hbetter, hrange _ (List.mem_cons_of_mem _ hmem)⟩

theorem getMaxMarginalUtilityFrom_asks {is : List Nat} {best r : F × Nat}
    (h : getMaxMarginalUtilityFrom fp buckets curves part partAlloc is best = some r) :
    ∀ i ∈ is, partAlloc ≤ buckets ∧ (partAlloc + i) % 2 ^ 32 ≤ buckets := by
  induction is generalizing best with
  | nil => nofun
  | cons i is ih =>
    obtain ⟨m, hm, h⟩ := Option.bind_eq_some_iff.mp h
    obtain ⟨m', hm', h⟩ := Option.bind_eq_some_iff.mp h
    intro j hj
    rcases List.mem_cons.mp hj with rfl | hj
    · exact ⟨le_of_get hm, le_of_get hm'⟩
    · exact ih h j hj

/-- The best partition so far is one that may get `alloc` more buckets. -/
def Chosen (fp : Doubles F) (forbidden : Nat → Bool) (parts : List Nat) (balance : Nat)
    (r : F × Option Nat × Nat) : Prop :=
  ∃ p ∈ parts, forbidden p = false ∧ r.2.1 = some p ∧ fp.minusOne < r.1 ∧ 1 ≤ r.2.2 ∧
    r.2.2 ≤ balance

theorem Chosen.cons {parts : List Nat} {r : F × Option Nat × Nat} (p : Nat)
    (h : Chosen fp forbidden parts balance r) : Chosen fp forbidden (p :: parts) balance r := by
  obtain ⟨q, hq, hrest⟩ := h
  exact ⟨q, List.mem_cons_of_mem _ hq, hrest⟩

variable (fp curves forbidden) in
theorem maxPartFrom_spec {parts : List Nat} (hlt : buckets < 2 ^ 32) (hpos : 0 < balance)
    (hparts : ∀ p ∈ parts, ∃ a, allocs[p]? = some a ∧ a + balance ≤ buckets)
    (best : F × Option Nat × Nat) :
    ∃ r, maxPartFrom fp buckets curves forbidden allocs balance parts best = some r ∧
      (r = best ∨ Chosen fp forbidden parts balance r) ∧
      (best.1 = fp.minusOne → (∃ p ∈ parts, forbidden p = false) →
        Chosen fp forbidden parts balance r) := by
  induction parts generalizing best with
  | nil => exact ⟨best, rfl, .inl rfl, fun _ ⟨p, hp, _⟩ => absurd hp List.not_mem_nil⟩
  | cons p parts ih =>
    have hrest := ih fun q hq => hparts q (List.mem_cons_of_mem _ hq)
    rw [maxPartFrom]
    by_cases hforb : forbidden p = true
    · rw [if_pos hforb]
      obtain ⟨r, hr, hcases, hchosen⟩ := hrest best
      refine ⟨r, hr, hcases.imp_right (Chosen.cons p), fun hbest ⟨q, hq, hqf⟩ => ?_⟩
      rcases List.mem_cons.mp hq with rfl | hq
      · rw [hforb] at hqf
        cases hqf
      · exact (hchosen hbest ⟨q, hq, hqf⟩).cons p
    · rw [if_neg hforb]
      obtain ⟨a, ha, hle⟩ := hparts p List.mem_cons_self
      obtain ⟨mu, hmu, hgt, h1, h2⟩ := getMaxMarginalUtility_spec fp curves p hlt hpos hle
      rw [ha, Option.bind_some, hmu, Option.bind_some]
      have hp : Chosen fp forbidden (p :: parts) balance (mu.1, some p, mu.2) :=
        ⟨p, List.mem_cons_self, Bool.eq_false_iff.mpr hforb, rfl, hgt, h1, h2⟩
      by_cases hbetter : best.1 < mu.1
      · rw [if_pos hbetter]
        obtain ⟨r, hr, hcases, -⟩ := hrest (mu.1, some p, mu.2)
        have hr' : Chosen fp forbidden (p :: parts) balance r := by
          rcases hcases with rfl | hc
          · exact hp
          · exact hc.cons p
        exact ⟨r, hr, .inr hr', fun _ _ => hr'⟩
      · rw [if_neg hbetter]
        obtain ⟨r, hr, hcases, -⟩ := hrest best
        exact ⟨r, hr, hcases.imp_right (Chosen.cons p), fun hbest _ =>
          absurd (hbest ▸ hgt) hbetter⟩

/-- A scan over the partitions that picks one asked for all its balance. -/
theorem maxPartFrom_asks {parts : List Nat} {best r : F × Option Nat × Nat}
    (h : maxPartFrom fp buckets curves forbidden allocs balance parts best = some r)
    (hr : r.2.1 ≠ best.2.1) :
    ∃ p ∈ parts, forbidden p = false ∧ ∃ a, allocs[p]? = some a ∧
      ∀ i, 1 ≤ i → i ≤ balance → a ≤ buckets ∧ (a + i) % 2 ^ 32 ≤ buckets := by
  induction parts generalizing best with
  | nil =>
    cases h
    exact absurd rfl hr
  | cons p parts ih =>
    rw [maxPartFrom] at h
    by_cases hforb : forbidden p = true
    · rw [if_pos hforb] at h
      obtain ⟨q, hq, hrest⟩ := ih h hr
      exact ⟨q, List.mem_cons_of_mem _ hq, hrest⟩
    · rw [if_neg hforb] at h
      obtain ⟨a, ha, h⟩ := Option.bind_eq_some_iff.mp h
      obtain ⟨mu, hmu, -⟩ := Option.bind_eq_some_iff.mp h
      refine ⟨p, List.mem_cons_self, Bool.eq_false_iff.mpr hforb, a, ha, fun i h1 h2 => ?_⟩
      apply getMaxMarginalUtilityFrom_asks hmu
      exact List.mem_map.mpr ⟨i - 1, List.mem_range.mpr (by omega), by omega⟩

variable (fp curves) in
theorem allocateFrom_spec {k : Nat} (hlt : buckets < 2 ^ 32) (hk : balance ≤ k)
    (hbound : bound ≤ buckets) (hallocs : ∀ a ∈ allocs, floor ≤ a ∧ a + balance ≤ bound)
    (hfree : 0 < balance → ∃ p < allocs.length, forbidden p = false) :
    ∃ r, allocateFrom fp buckets curves forbidden k balance allocs = some r ∧
      r.length = allocs.length ∧ r.sum = allocs.sum + balance ∧
      ∀ a ∈ r, floor ≤ a ∧ a ≤ bound := by
  induction k generalizing balance allocs with
  | zero =>
    obtain rfl := Nat.le_zero.mp hk
    exact ⟨allocs, rfl, rfl, rfl, hallocs⟩
  | succ k ih =>
    match balance with
    | 0 => exact ⟨allocs, rfl, rfl, rfl, hallocs⟩
    | balance + 1 =>
      obtain ⟨p₀, hp₀, hf₀⟩ := hfree (Nat.succ_pos _)
      have hparts : ∀ p ∈ List.range allocs.length,
          ∃ a, allocs[p]? = some a ∧ a + (balance + 1) ≤ buckets := by
        intro p hp
        rw [List.mem_range] at hp
        exact ⟨_, List.getElem?_eq_getElem hp,
          ((hallocs _ (List.getElem_mem hp)).2).trans hbound⟩
      obtain ⟨r, hr, -, hchosen⟩ := maxPartFrom_spec fp curves forbidden hlt (Nat.succ_pos balance) hparts (fp.minusOne, none, 0)
      obtain ⟨p, hp, -, hpart, -, h1, h2⟩ := hchosen rfl ⟨p₀, List.mem_range.mpr hp₀, hf₀⟩
      rw [List.mem_range] at hp
      have ha := hallocs _ (List.getElem_mem hp)
      rw [allocateFrom, hr, Option.bind_some, hpart, Option.bind_some,
        List.getElem?_eq_getElem hp, Option.bind_some]
      have hbal : (balance + 1 + 2 ^ 32 - r.2.2) % 2 ^ 32 = balance + 1 - r.2.2 := by omega
      have hnew : (allocs[p] + r.2.2) % 2 ^ 32 = allocs[p] + r.2.2 := Nat.mod_eq_of_lt (by omega)
      rw [hbal, hnew]
      have hallocs' : ∀ a ∈ allocs.set p (allocs[p] + r.2.2),
          floor ≤ a ∧ a + (balance + 1 - r.2.2) ≤ bound := by
        intro a hmem
        rcases List.mem_or_eq_of_mem_set hmem with hmem | rfl
        · have := hallocs a hmem
          omega
        · omega
      have hfree' : 0 < balance + 1 - r.2.2 →
          ∃ q < (allocs.set p (allocs[p] + r.2.2)).length, forbidden q = false := by
        rw [List.length_set]
        exact fun _ => ⟨p₀, hp₀, hf₀⟩
      obtain ⟨final, hfinal, hlen, htotal, hbounds⟩ := ih (by omega) hallocs' hfree'
      refine ⟨final, hfinal, by rw [hlen, List.length_set], ?_, hbounds⟩
      rw [htotal, sum_set_add hp, Nat.add_assoc, Nat.add_sub_of_le h2]

theorem computePartitioningTotalUtility_isSome (curves : Nat → Nat → Nat) {parts ps : List Nat}
    (n m : Nat) (h : ∀ p ∈ ps, ∃ a, parts[p]? = some a ∧ a ≤ buckets) :
    (computePartitioningTotalUtility buckets curves parts ps n m).isSome := by
  induction ps generalizing n m with
  | nil => rfl
  | cons p ps ih =>
    obtain ⟨a, ha, hle⟩ := h p List.mem_cons_self
    rw [computePartitioningTotalUtility, get_eq (Nat.zero_le _), Option.bind_some, ha,
      Option.bind_some, get_eq hle, Option.bind_some]
    exact ih _ _ fun q hq => h q (List.mem_cons_of_mem _ hq)

theorem computePartitioningTotalUtility_asks {parts ps : List Nat} {n m r : Nat}
    (h : computePartitioningTotalUtility buckets curves parts ps n m = some r) :
    ∀ p ∈ ps, ∀ a, parts[p]? = some a → a ≤ buckets := by
  induction ps generalizing n m with
  | nil => nofun
  | cons p ps ih =>
    obtain ⟨_, -, h⟩ := Option.bind_eq_some_iff.mp h
    obtain ⟨b, hb, h⟩ := Option.bind_eq_some_iff.mp h
    obtain ⟨_, hget, h⟩ := Option.bind_eq_some_iff.mp h
    intro q hq a ha
    rcases List.mem_cons.mp hq with rfl | hq
    · rw [hb] at ha
      cases ha
      exact le_of_get hget
    · exact ih h q hq a ha

end Lookahead

namespace WayPartReplPolicy

theorem assignWays_spec (p : Nat) {n curWay : Nat} {index : List Nat}
    (h : curWay + n ≤ index.length) :
    ∃ index', assignWays p n (index, curWay) = some (index', curWay + n) ∧
      index'.length = index.length := by
  induction n generalizing curWay index with
  | zero => exact ⟨index, rfl, rfl⟩
  | succ n ih =>
    rw [assignWays, if_pos (by omega)]
    have hroom : curWay + 1 + n ≤ (index.set curWay p).length := by
      rw [List.length_set]
      omega
    obtain ⟨index', hi, hlen⟩ := ih hroom
    refine ⟨index', ?_, by rw [hlen, List.length_set]⟩
    rw [hi, Nat.add_right_comm, Nat.add_assoc]

theorem assignFrom_spec {waysPart parts index : List Nat} {curWay : Nat}
    (hparts : ∀ p ∈ parts, p < waysPart.length)
    (h : curWay + (parts.map (waysPart.getD · 0)).sum ≤ index.length) :
    ∃ index', assignFrom waysPart parts (index, curWay) =
      some (index', curWay + (parts.map (waysPart.getD · 0)).sum) := by
  induction parts generalizing curWay index with
  | nil => exact ⟨index, rfl⟩
  | cons p parts ih =>
    have hp := hparts p List.mem_cons_self
    have hget : waysPart.getD p 0 = waysPart[p] := by
      rw [List.getD_eq_getElem?_getD, List.getElem?_eq_getElem hp]
      rfl
    rw [List.map_cons, List.sum_cons, hget, ← Nat.add_assoc] at h ⊢
    have hroom : curWay + waysPart[p] ≤ index.length := by omega
    obtain ⟨index₁, h₁, hlen⟩ := assignWays_spec p hroom
    rw [assignFrom, List.getElem?_eq_getElem hp, Option.bind_some, h₁, Option.bind_some]
    exact ih (fun q hq => hparts q (List.mem_cons_of_mem _ hq)) (by rw [hlen]; exact h)

theorem map_getD_range {l : List Nat} {n : Nat} (h : n ≤ l.length) :
    (List.range n).map (l.getD · 0) = l.take n := by
  apply List.ext_getElem?
  intro i
  rw [List.getElem?_map, List.getElem?_take]
  by_cases hi : i < n
  · rw [List.getElem?_range hi, if_pos hi, Option.map_some, List.getD_eq_getElem?_getD,
      List.getElem?_eq_getElem (by omega)]
    rfl
  · rw [if_neg hi, List.getElem?_eq_none (by rw [List.length_range]; omega)]
    rfl

theorem setPartitionSizes_isSome {partitions ways totalSize : Nat} {index waysPart : List Nat}
    (hparts : partitions ≤ waysPart.length) (hsum : (waysPart.take partitions).sum = ways)
    (hindex : index.length = ways) :
    (setPartitionSizes partitions ways totalSize index waysPart).isSome := by
  have hmap := map_getD_range hparts
  have hroom : 0 + ((List.range partitions).map (waysPart.getD · 0)).sum ≤ index.length := by
    rw [hmap, hsum, hindex, Nat.zero_add]
  obtain ⟨index', h⟩ :=
    assignFrom_spec (fun p hp => (List.mem_range.mp hp).trans_le hparts) hroom
  rw [hmap, hsum, Nat.zero_add] at h
  rw [setPartitionSizes, h, Option.bind_some, if_pos rfl]
  rfl

end WayPartReplPolicy

namespace LookaheadPartitioner

open Lookahead

variable {F : Type} [LinearOrder F] (fp : Doubles F) (cfg : LookaheadConfig F)

/-- `allocPortion*buckets`, the number of buckets to allocate. -/
def total : Nat := fp.scaled cfg.allocPortion cfg.buckets

/-- What a call of `partition` should leave: every partition that is not forbidden has the
minimum, the allocations add up, and all ways are assigned when they are all allocated. -/
structure Valid (allocs : List Nat) : Prop where
  minAlloc : ∀ p < cfg.numPartitions, cfg.forbidden p = false →
    ∃ a, allocs[p]? = some a ∧ cfg.minAlloc ≤ a
  total : (allocs.take cfg.numPartitions).sum = total fp cfg
  ways : LookaheadPartitioner.total fp cfg = cfg.buckets →
    ∀ totalSize wayPartIndex, wayPartIndex.length = cfg.buckets →
      (WayPartReplPolicy.setPartitionSizes cfg.numPartitions cfg.buckets totalSize wayPartIndex
        allocs).isSome

/-- The minimum is given at most once, and there are buckets, cells of `curAllocs` and a
partition to give the rest to. -/
structure Admissible : Prop where
  once : cfg.numPartitions ≤ 1 ∨ cfg.minAlloc = 0
  fits : cfg.minAlloc * cfg.numPartitions ≤ total fp cfg
  within : total fp cfg ≤ cfg.buckets
  free : cfg.minAlloc * cfg.numPartitions < total fp cfg →
    ∃ p < cfg.numPartitions, cfg.forbidden p = false
  cells : cfg.numPartitions ≤ (cfg.buckets + 1) % 2 ^ 32

variable {fp cfg} {curves : Nat → Nat → Nat} {curAllocs allocs : List Nat}

def CurOk (cfg : LookaheadConfig F) (curAllocs : List Nat) : Prop :=
  curAllocs.length = (cfg.buckets + 1) % 2 ^ 32 ∧ ∀ a ∈ curAllocs, a ≤ cfg.buckets

omit [LinearOrder F] in
theorem CurOk.init (cfg : LookaheadConfig F) : CurOk cfg (init cfg) := by
  refine ⟨List.length_replicate, fun a ha => ?_⟩
  rw [List.eq_of_mem_replicate ha]
  exact Nat.zero_le _

theorem getElem?_le {l : List Nat} {n b : Nat} (hlen : n ≤ l.length) (hle : ∀ a ∈ l, a ≤ b) :
    ∀ p ∈ List.range n, ∃ a, l[p]? = some a ∧ a ≤ b := by
  intro p hp
  rw [List.mem_range] at hp
  exact ⟨_, List.getElem?_eq_getElem (by omega), hle _ (List.getElem_mem (by omega))⟩

/-- With room for the minimum, a call hands out the rest of the total on top of it. -/
theorem partition_spec (curves : Nat → Nat → Nat)
    (hfits : cfg.minAlloc * cfg.numPartitions ≤ total fp cfg)
    (hwithin : total fp cfg ≤ cfg.buckets)
    (hfree : cfg.minAlloc * cfg.numPartitions < total fp cfg →
      ∃ p < cfg.numPartitions, cfg.forbidden p = false)
    (hcells : cfg.numPartitions ≤ (cfg.buckets + 1) % 2 ^ 32) (hcur : CurOk cfg curAllocs) :
    ∃ allocs, partition fp cfg curves curAllocs = some allocs ∧ CurOk cfg allocs ∧
      (allocs.take cfg.numPartitions).sum =
        cfg.numPartitions * (cfg.minAlloc * cfg.numPartitions) +
          (total fp cfg - cfg.minAlloc * cfg.numPartitions) ∧
      ∀ p < cfg.numPartitions, ∃ a, allocs[p]? = some a ∧
        cfg.minAlloc * cfg.numPartitions ≤ a := by
  have hlt := cfg.buckets_lt
  obtain ⟨hlen, hle⟩ := hcur
  set min := cfg.minAlloc * cfg.numPartitions with hmin
  have hmod : min % 2 ^ 32 = min := Nat.mod_eq_of_lt (by omega)
  have hbal : (total fp cfg + 2 ^ 32 - min) % 2 ^ 32 = total fp cfg - min := by omega
  have hstart : ∀ a ∈ List.replicate cfg.numPartitions min,
      min ≤ a ∧ a + (total fp cfg - min) ≤ total fp cfg := by
    intro a ha
    rw [List.eq_of_mem_replicate ha]
    omega
  have hsome : 0 < total fp cfg - min →
      ∃ p < (List.replicate cfg.numPartitions min).length, cfg.forbidden p = false := by
    rw [List.length_replicate]
    exact fun hpos => hfree (by omega)
  obtain ⟨best, hbest, hblen, hbsum, hbounds⟩ :=
    allocateFrom_spec fp curves hlt (Nat.le_refl _) hwithin hstart hsome
  rw [List.length_replicate] at hblen
  have hbest_le : ∀ a ∈ best, a ≤ cfg.buckets := fun a ha => (hbounds a ha).2.trans hwithin
  have hnew := computePartitioningTotalUtility_isSome curves 0 0
    (getElem?_le (Nat.le_of_eq hblen.symm) hbest_le)
  have hold := computePartitioningTotalUtility_isSome curves 0 0
    (getElem?_le (hcells.trans (Nat.le_of_eq hlen.symm)) hle)
  obtain ⟨u, hu⟩ := Option.isSome_iff_exists.mp hnew
  obtain ⟨u', hu'⟩ := Option.isSome_iff_exists.mp hold
  refine ⟨best ++ curAllocs.drop cfg.numPartitions, ?_, ⟨?_, ?_⟩, ?_, ?_⟩
  · rw [partition, computeBestPartitioning, ← hmin, hmod]
    change Option.bind (allocateFrom fp cfg.buckets curves cfg.forbidden
      ((total fp cfg + 2 ^ 32 - min) % 2 ^ 32) ((total fp cfg + 2 ^ 32 - min) % 2 ^ 32) _) _ = _
    rw [hbal, hbest, Option.bind_some, hu, Option.bind_some, hu', Option.bind_some,
      if_pos (by omega)]
  · rw [List.length_append, List.length_drop, hblen, hlen]
    omega
  · intro a ha
    rcases List.mem_append.mp ha with ha | ha
    · exact hbest_le a ha
    · exact hle a (List.mem_of_mem_drop ha)
  · rw [List.take_append_of_le_length (Nat.le_of_eq hblen.symm),
      List.take_of_length_le (Nat.le_of_eq hblen), hbsum, List.sum_replicate_nat]
  · intro p hp
    have hpb : p < best.length := by omega
    rw [List.getElem?_append_left hpb]
    exact ⟨_, List.getElem?_eq_getElem hpb, (hbounds _ (List.getElem_mem hpb)).1⟩

/-- A call that returns had room for the minimum, and asked for no more than there is. -/
theorem partition_returns (hmin : cfg.minAlloc * cfg.numPartitions < 2 ^ 32)
    (hlen : curAllocs.length = (cfg.buckets + 1) % 2 ^ 32)
    (h : partition fp cfg curves curAllocs = some allocs) :
    cfg.minAlloc * cfg.numPartitions ≤ total fp cfg ∧ total fp cfg ≤ cfg.buckets ∧
      (cfg.minAlloc * cfg.numPartitions < total fp cfg →
        ∃ p < cfg.numPartitions, cfg.forbidden p = false) ∧
      cfg.numPartitions ≤ (cfg.buckets + 1) % 2 ^ 32 := by
  have hlt := cfg.buckets_lt
  have htotal : total fp cfg < 2 ^ 32 := fp.scaled_lt _ _
  obtain ⟨best, hbest, h⟩ := Option.bind_eq_some_iff.mp h
  obtain ⟨u, hu, h⟩ := Option.bind_eq_some_iff.mp h
  obtain ⟨u', -, h⟩ := Option.bind_eq_some_iff.mp h
  split at h
  · next hcells =>
    rw [hlen] at hcells
    set min := cfg.minAlloc * cfg.numPartitions with hmindef
    rw [Nat.mod_eq_of_lt hmin, computeBestPartitioning] at hbest
    change allocateFrom fp cfg.buckets curves cfg.forbidden
      ((total fp cfg + 2 ^ 32 - min) % 2 ^ 32) ((total fp cfg + 2 ^ 32 - min) % 2 ^ 32) _ =
        some best at hbest
    generalize hbal : (total fp cfg + 2 ^ 32 - min) % 2 ^ 32 = balance at hbest
    match balance with
    | 0 =>
      have heq : total fp cfg = min := by omega
      have hb : best = List.replicate cfg.numPartitions min := by
        rw [allocateFrom] at hbest
        cases hbest
        rfl
      refine ⟨Nat.le_of_eq heq.symm, ?_, fun hne => absurd heq (Nat.ne_of_gt hne), hcells⟩
      rw [heq]
      rcases Nat.eq_zero_or_pos cfg.numPartitions with h0 | hpos
      · rw [hmindef, h0]
        exact Nat.zero_le _
      · apply computePartitioningTotalUtility_asks hu 0 (List.mem_range.mpr hpos)
        rw [hb, List.getElem?_replicate, if_pos hpos]
    | balance + 1 =>
      rw [allocateFrom] at hbest
      obtain ⟨r, hr, hbest⟩ := Option.bind_eq_some_iff.mp hbest
      obtain ⟨part, hpart, -⟩ := Option.bind_eq_some_iff.mp hbest
      obtain ⟨p, hp, hfree, a, ha, hasks⟩ := maxPartFrom_asks hr (by rw [hpart]; nofun)
      rw [List.mem_range, List.length_replicate] at hp
      rw [List.getElem?_replicate, if_pos hp] at ha
      cases ha
      have hone := hasks 1 (Nat.le_refl _) (by omega)
      have hrest := hasks (cfg.buckets + 1 - min)
      have hall := hasks (balance + 1) (by omega) (Nat.le_refl _)
      have hpos : 0 < cfg.numPartitions := by omega
      refine ⟨?_, ?_, fun _ => ⟨p, hp, hfree⟩, hcells⟩
      · by_contra hover
        have := hrest (by omega) (by omega)
        omega
      · by_contra hover
        have := hrest (by omega) (by omega)
        omega
  · cases h

theorem Admissible.partitions (ha : Admissible fp cfg) (curves : List (Nat → Nat → Nat))
    (hcur : CurOk cfg curAllocs) :
    ∃ all, partitions fp cfg curves curAllocs = some all ∧ ∀ allocs ∈ all, Valid fp cfg allocs := by
  induction curves generalizing curAllocs with
  | nil => exact ⟨[], rfl, nofun⟩
  | cons c curves ih =>
    obtain ⟨allocs, hallocs, hok, hsum, hmins⟩ :=
      partition_spec c ha.fits ha.within ha.free ha.cells hcur
    obtain ⟨all, hall, hvalid⟩ := ih hok
    refine ⟨allocs :: all, ?_, fun x hx => ?_⟩
    · rw [LookaheadPartitioner.partitions, hallocs, Option.bind_some, hall]
      rfl
    rcases List.mem_cons.mp hx with rfl | hx
    · have hfits := ha.fits
      have htotal : (x.take cfg.numPartitions).sum = total fp cfg := by
        rw [hsum]
        rcases ha.once with hp | hm
        · rcases Nat.le_one_iff_eq_zero_or_eq_one.mp hp with h | h
          · rw [h] at hfits ⊢
            omega
          · rw [h] at hfits ⊢
            omega
        · rw [hm]
          omega
      refine ⟨fun p hp _ => ?_, htotal, fun hways totalSize index hindex => ?_⟩
      · obtain ⟨a, hpa, hle⟩ := hmins p hp
        refine ⟨a, hpa, le_trans ?_ hle⟩
        exact Nat.le_mul_of_pos_right _ (by omega)
      · apply WayPartReplPolicy.setPartitionSizes_isSome _ (htotal.trans hways) hindex
        rw [hok.1]
        exact ha.cells
    · exact hvalid x hx

/-- The partitioner is right exactly when the minimum is given at most once. -/
theorem partitions_valid_iff (fp : Doubles F) (cfg : LookaheadConfig F)
    (curves : List (Nat → Nat → Nat)) (hne : curves ≠ []) :
    (Admissible fp cfg → ∃ all, partitions fp cfg curves (init cfg) = some all ∧
      ∀ allocs ∈ all, Valid fp cfg allocs) ∧
    (cfg.minAlloc * cfg.numPartitions < 2 ^ 32 →
      (∃ all, partitions fp cfg curves (init cfg) = some all ∧
        ∀ allocs ∈ all, Valid fp cfg allocs) → Admissible fp cfg) := by
  refine ⟨fun ha => ha.partitions curves (CurOk.init cfg), fun hmin ⟨all, hall, hvalid⟩ => ?_⟩
  match curves, hne with
  | c :: curves, _ =>
    obtain ⟨allocs, hallocs, hall⟩ := Option.bind_eq_some_iff.mp hall
    obtain ⟨rest, -, rfl⟩ := Option.map_eq_some_iff.mp hall
    obtain ⟨hfits, hwithin, hfree, hcells⟩ :=
      partition_returns hmin (CurOk.init cfg).1 hallocs
    refine ⟨?_, hfits, hwithin, hfree, hcells⟩
    obtain ⟨allocs', hallocs', -, hsum, -⟩ :=
      partition_spec c hfits hwithin hfree hcells (CurOk.init cfg)
    rw [hallocs] at hallocs'
    cases hallocs'
    rw [(hvalid allocs List.mem_cons_self).total] at hsum
    -- the minimum was given to every partition but taken off the total once
    by_contra hmany
    obtain ⟨hp, hm⟩ := not_or.mp hmany
    have hpos : 0 < cfg.minAlloc * cfg.numPartitions :=
      Nat.mul_pos (Nat.pos_of_ne_zero hm) (by omega)
    have htwice : 2 * (cfg.minAlloc * cfg.numPartitions) ≤
        cfg.numPartitions * (cfg.minAlloc * cfg.numPartitions) :=
      Nat.mul_le_mul_right _ (by omega)
    omega

def exactDoubles : Doubles ℚ where
  minusOne := -1
  quotient := fun a i => a / i
  scaled := fun x n => ⌊x * n⌋.toNat % 2 ^ 32
  minusOne_lt := fun a i _ => by
    have : (0 : ℚ) ≤ (a : ℚ) / i := by positivity
    linarith
  scaled_lt := fun _ _ => Nat.mod_lt _ (by decide)

theorem exactDoubles_scaled (n : Nat) (hn : n < 2 ^ 32) : exactDoubles.scaled 1 n = n := by
  show ⌊(1 : ℚ) * n⌋.toNat % 2 ^ 32 = n
  rw [one_mul, Int.floor_natCast, Int.toNat_natCast, Nat.mod_eq_of_lt hn]

/-- Three partitions without a minimum, the second one forbidden. -/
def threePartitions : LookaheadConfig ℚ where
  numPartitions := 3
  buckets := 8
  minAlloc := 0
  allocPortion := 1
  forbidden := (· == 1)
  buckets_pos := Nat.succ_pos 7
  buckets_lt := by decide

/-- They share the eight buckets, and share them again when the curves have changed. -/
theorem partitions_valid_iff_three : Admissible exactDoubles threePartitions ∧ ∃ all,
    partitions exactDoubles threePartitions
        [fun p b => (p + 1) * (8 - b), fun p b => if p = 0 then 16 - 2 * b else 8 - b]
        (init threePartitions) = some all ∧
      (∀ allocs ∈ all, Valid exactDoubles threePartitions allocs) ∧
      ∀ allocs ∈ all, (allocs.take 3).sum = 8 := by
  have htotal : total exactDoubles threePartitions = 8 := exactDoubles_scaled 8 (by decide)
  have hadmissible : Admissible exactDoubles threePartitions := by
    refine ⟨.inr rfl, ?_, Nat.le_of_eq htotal, fun _ => ⟨0, by decide, rfl⟩, by decide⟩
    exact Nat.le_trans (by decide : 0 * 3 ≤ 8) (Nat.le_of_eq htotal.symm)
  refine ⟨hadmissible, ?_⟩
  obtain ⟨all, hall, hvalid⟩ := (partitions_valid_iff exactDoubles threePartitions
    [fun p b => (p + 1) * (8 - b), fun p b => if p = 0 then 16 - 2 * b else 8 - b]
    (List.cons_ne_nil _ _)).1 hadmissible
  exact ⟨all, hall, hvalid, fun allocs ha => (hvalid allocs ha).total.trans htotal⟩

/-- Two partitions with a minimum of one get ten buckets out of eight. -/
theorem partition_overallocates : ∃ (cfg : LookaheadConfig ℚ) (curves : Nat → Nat → Nat)
    (allocs : List Nat),
    cfg.numPartitions = 2 ∧ cfg.minAlloc = 1 ∧ total exactDoubles cfg = 8 ∧
    (∀ p b, curves p (b + 1) ≤ curves p b) ∧
    partition exactDoubles cfg curves (init cfg) = some allocs ∧
    (allocs.take 2).sum = 10 ∧ ¬ Valid exactDoubles cfg allocs := by
  let cfg : LookaheadConfig ℚ := ⟨2, 8, 1, 1, fun _ => false, by decide, by decide⟩
  have htotal : total exactDoubles cfg = 8 := exactDoubles_scaled 8 (by decide)
  have hmin : cfg.minAlloc * cfg.numPartitions = 2 := rfl
  obtain ⟨allocs, hallocs, -, hsum, -⟩ := @partition_spec ℚ _ exactDoubles cfg (init cfg)
    (fun _ b => 8 - b) (by rw [htotal, hmin]; decide) (by rw [htotal])
    (fun _ => ⟨0, by decide, rfl⟩) (by decide) (CurOk.init cfg)
  rw [htotal, hmin] at hsum
  refine ⟨cfg, fun _ b => 8 - b, allocs, rfl, rfl, htotal, fun _ b => ?_, hallocs, hsum, fun h => ?_⟩
  · show 8 - (b + 1) ≤ 8 - b
    omega
  · have h8 := h.total
    rw [htotal] at h8
    rw [h8] at hsum
    cases hsum

end LookaheadPartitioner

end ZSim
