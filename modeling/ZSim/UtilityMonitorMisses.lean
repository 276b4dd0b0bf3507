import ZSim.UtilityMonitorList
import Mathlib.Algebra.BigOperators.Group.Finset.Basic
import Mathlib.Algebra.BigOperators.Intervals
import Mathlib.Algebra.Order.BigOperators.Group.Finset

/-! The miss curve of a utility monitor against the misses of LRU caches of every number
of ways, over whole sequences of accesses in intervals. -/

namespace ZSim

namespace UMon

open LinkedList LRUStack

variable (cfg : UMonConfig) (hash : Nat → Address → Nat)

inductive Op
  | access (lineAddr : Address)
  | startNextInterval

def step (u : UMon) : Op → Option UMon
  | .access lineAddr => u.access cfg hash lineAddr
  | .startNextInterval => some u.startNextInterval

def run (ops : List Op) : Option UMon := ops.foldlM (step cfg hash) (init cfg)

/-- What the monitor is for: an LRU cache of `ways` ways in each set, and its misses in
the current interval. It sees the sampled accesses. -/
structure WayCache where
  sets : Nat → List Address
  misses : Nat

def WayCache.step (ways : Nat) (c : WayCache) : Op → WayCache
  | .access lineAddr =>
    if sampled cfg hash lineAddr then
      let set := set cfg hash lineAddr
      { sets := Function.update c.sets set (cacheUse ways lineAddr (c.sets set))
        misses := if lineAddr ∈ c.sets set then c.misses else c.misses + 1 }
    else c
  | .startNextInterval => { c with misses := 0 }

def WayCache.run (ways : Nat) (ops : List Op) : WayCache :=
  ops.foldl (WayCache.step cfg hash ways) ⟨fun _ => [], 0⟩

/-- The sampled accesses of the current interval. -/
def sampledAccesses (ops : List Op) : Nat :=
  ops.foldl (fun n op => match op with
    | .access lineAddr => if sampled cfg hash lineAddr then n + 1 else n
    | .startNextInterval => 0) 0

variable {cfg hash} {u u' : UMon} {i : Nat} {a : Address}

/-- The accesses counted at depth `i` or deeper. -/
def missesAt (cfg : UMonConfig) (u : UMon) (i : Nat) : Nat :=
  u.curMisses + ∑ b ∈ Finset.Ico i cfg.buckets, u.curWayHits b

theorem missesAt_succ (hi : i < cfg.buckets) :
    missesAt cfg u i = missesAt cfg u (i + 1) + u.curWayHits i := by
  rw [missesAt, missesAt, Finset.sum_eq_sum_Ico_succ_bot hi]
  omega

theorem missesAt_antitone {j : Nat} (hij : i ≤ j) : missesAt cfg u j ≤ missesAt cfg u i := by
  apply Nat.add_le_add_left
  exact Finset.sum_le_sum_of_subset (Finset.Ico_subset_Ico_left hij)

/-- A hit at depth `b` counts for the caches of at most `b` ways. -/
theorem missesAt_hit {b : Nat} (hb : b < cfg.buckets) (hmisses : u'.curMisses = u.curMisses)
    (hhits : u'.curWayHits = Function.update u.curWayHits b (u.curWayHits b + 1)) :
    missesAt cfg u' i = if b < i then missesAt cfg u i else missesAt cfg u i + 1 := by
  rw [missesAt, missesAt, hmisses, hhits]
  by_cases hi : b < i
  · have hout : b ∉ Finset.Ico i cfg.buckets := fun hm =>
      absurd (Finset.mem_Ico.mp hm).1 (Nat.not_le.mpr hi)
    rw [if_pos hi, Finset.sum_update_of_notMem hout]
  · have hin : b ∈ Finset.Ico i cfg.buckets := Finset.mem_Ico.mpr ⟨Nat.le_of_not_lt hi, hb⟩
    rw [if_neg hi, Finset.sum_update_of_mem hin, ← Finset.add_sum_erase _ _ hin,
      Finset.sdiff_singleton_eq_erase]
    omega

theorem missesAt_eq_zero (hmisses : u.curMisses = 0) (hhits : ∀ b, u.curWayHits b = 0) :
    missesAt cfg u i = 0 := by
  rw [missesAt, hmisses, Finset.sum_eq_zero fun b _ => hhits b, Nat.add_zero]

/-- The list of each set is what the caches of every number of ways hold. -/
structure Simulates (cfg : UMonConfig) (u : UMon) (recent : Nat → List Address)
    (caches : Nat → WayCache) : Prop where
  holds : ∀ s, Holds u s ((recent s ++ List.replicate cfg.buckets 0).take cfg.buckets)
  sets : ∀ i s, (caches i).sets s = (recent s).take i
  misses : ∀ i ≤ cfg.buckets, (caches i).misses = missesAt cfg u i

theorem Simulates.init (cfg : UMonConfig) :
    Simulates cfg (init cfg) (fun _ => []) fun _ => ⟨fun _ => [], 0⟩ := by
  constructor
  · intro s
    refine ⟨List.range cfg.buckets, ?_, List.nodup_range, ?_⟩
    · have hlinked : ∀ n b, b + n = cfg.buckets →
          Linked ((UMon.init cfg).next s) (if b < cfg.buckets then some b else none)
            (List.range' b n) := by
        intro n
        induction n with
        | zero =>
          intro b hb
          exact if_neg (by omega)
        | succ n ih =>
          intro b hb
          exact ⟨if_pos (by omega), ih (b + 1) (by omega)⟩
      have hpos := hlinked cfg.buckets 0 (Nat.zero_add _)
      rw [if_pos cfg.buckets_pos, ← List.range_eq_range'] at hpos
      exact hpos
    · rw [List.nil_append, List.take_of_length_le (by rw [List.length_replicate])]
      rw [← List.length_range (n := cfg.buckets), ← List.map_const, List.length_range]
      rfl
  · exact fun _ _ => List.take_nil.symm
  · intro i _
    exact (missesAt_eq_zero rfl fun _ => rfl).symm

theorem Simulates.access {recent : Nat → List Address} {caches : Nat → WayCache}
    (h : Simulates cfg u recent caches) (hash : Nat → Address → Nat) (ha : a ≠ 0) :
    ∃ u' recent', u.access cfg hash a = some u' ∧
      Simulates cfg u' recent' fun i => (caches i).step cfg hash i (.access a) := by
  by_cases hs : sampled cfg hash a
  · set s := set cfg hash a with hset
    set zeros : List Address := List.replicate cfg.buckets 0 with hzeros
    have hfiller : a ∉ zeros := fun hm => ha (List.eq_of_mem_replicate hm)
    have hlen : ((recent s ++ zeros).take cfg.buckets).length = cfg.buckets := by
      rw [List.length_take, List.length_append, hzeros, List.length_replicate]
      omega
    obtain ⟨u', hu', hfront, hother, hhit, hmiss⟩ := access_spec hs (h.holds s) hlen
    refine ⟨u', Function.update recent s (use a (recent s)), hu', fun t => ?_, fun i t => ?_,
      fun i hi => ?_⟩
    · by_cases ht : t = s
      · rw [ht, Function.update_self, ← use_append hfiller, take_use]
        exact hfront
      · rw [Function.update_of_ne ht]
        exact hother t _ ht (h.holds t)
    · simp only [WayCache.step, hs, if_true]
      by_cases ht : t = s
      · rw [ht, hset, Function.update_self, Function.update_self, take_use, h.sets]
      · rw [Function.update_of_ne ht, Function.update_of_ne ht, h.sets]
    · simp only [WayCache.step, hs, if_true, h.sets, h.misses i hi]
      -- the cache holds `a` if the list does at a depth below `i`
      have hmem : a ∈ (recent s).take i ↔ a ∈ ((recent s ++ zeros).take cfg.buckets).take i := by
        rw [List.take_take, Nat.min_eq_left hi, mem_take_append hfiller]
      rw [← hset]
      by_cases hin : a ∈ (recent s ++ zeros).take cfg.buckets
      · obtain ⟨hm, hw⟩ := hhit hin
        have hdepth := List.idxOf_lt_length_of_mem hin
        rw [hlen] at hdepth
        rw [missesAt_hit hdepth hm hw]
        have hiff := hmem.trans (mem_take_iff.trans (and_iff_left hin))
        simp only [hiff]
      · obtain ⟨hm, hw⟩ := hmiss hin
        have hout : a ∉ (recent s).take i := fun hm => hin (List.mem_of_mem_take (hmem.mp hm))
        rw [if_neg hout, missesAt, missesAt, hm, hw]
        omega
  · refine ⟨u, recent, by rw [UMon.access, if_neg hs], ?_⟩
    simp only [WayCache.step, hs]
    exact h

theorem Simulates.startNextInterval {recent : Nat → List Address} {caches : Nat → WayCache}
    (h : Simulates cfg u recent caches) : Simulates cfg u.startNextInterval recent fun i =>
      (caches i).step cfg hash i .startNextInterval := by
  refine ⟨h.holds, h.sets, fun i _ => ?_⟩
  exact (missesAt_eq_zero rfl fun _ => rfl).symm

/-- The monitor simulates the caches over every sequence of operations. -/
theorem run_simulates (cfg : UMonConfig) (hash : Nat → Address → Nat) (ops : List Op)
    (hnz : ∀ a, .access a ∈ ops → a ≠ 0) :
    ∃ u recent, run cfg hash ops = some u ∧
      Simulates cfg u recent fun i => WayCache.run cfg hash i ops := by
  induction ops using List.reverseRecOn with
  | nil => exact ⟨_, _, rfl, Simulates.init cfg⟩
  | append_singleton ops op ih =>
    obtain ⟨u, recent, hu, h⟩ := ih fun a ha => hnz a (List.mem_append_left _ ha)
    have hrun : run cfg hash (ops ++ [op]) = step cfg hash u op := by
      rw [run, List.foldlM_append, ← run, hu]
      exact Option.bind_fun_some _
    have hcaches : (fun i => WayCache.run cfg hash i (ops ++ [op])) =
        fun i => (WayCache.run cfg hash i ops).step cfg hash i op := by
      funext i
      exact List.foldl_concat _ _ _ _
    rw [hrun, hcaches]
    cases op with
    | access a =>
      obtain ⟨u', recent', hu', h'⟩ := h.access hash
        (hnz a (List.mem_append_right _ List.mem_cons_self))
      exact ⟨u', recent', hu', h'⟩
    | startNextInterval => exact ⟨_, recent, rfl, h.startNextInterval⟩

theorem getMissesFrom_spec {k : Nat} {misses : List Nat} (hk : k ≤ cfg.buckets)
    (hlen : misses.length = cfg.buckets + 1)
    (hdone : ∀ j, k < j → j ≤ cfg.buckets → misses[j]? = some (missesAt cfg u j)) :
    ∃ curve, getMissesFrom u k (missesAt cfg u k) misses = some curve ∧
      curve.length = cfg.buckets + 1 ∧
      ∀ j ≤ cfg.buckets, curve[j]? = some (missesAt cfg u j) := by
  induction k generalizing misses with
  | zero =>
    refine ⟨misses.set 0 (missesAt cfg u 0), ?_, by rw [List.length_set, hlen], fun j hj => ?_⟩
    · rw [getMissesFrom, store, if_pos (by omega)]
    · rw [List.getElem?_set]
      by_cases h0 : 0 = j
      · rw [if_pos h0, if_pos (by omega), h0]
      · rw [if_neg h0]
        exact hdone j (by omega) hj
  | succ k ih =>
    rw [getMissesFrom, store, if_pos (by omega), Option.bind_some,
      ← missesAt_succ (Nat.lt_of_succ_le hk)]
    apply ih (Nat.le_of_succ_le hk) (by rw [List.length_set, hlen])
    intro j hj hle
    rw [List.getElem?_set]
    by_cases hjk : k + 1 = j
    · rw [if_pos hjk, if_pos (by omega), hjk]
    · rw [if_neg hjk]
      exact hdone j (by omega) hle

theorem getMisses_spec {misses : List Nat} (hlen : misses.length = cfg.buckets + 1) :
    ∃ curve, u.getMisses cfg misses = some curve ∧ curve.length = cfg.buckets + 1 ∧
      ∀ j ≤ cfg.buckets, curve[j]? = some (missesAt cfg u j) := by
  have hstart : missesAt cfg u cfg.buckets = u.curMisses := by
    rw [missesAt, Finset.Ico_self, Finset.sum_empty, Nat.add_zero]
  have hspec := getMissesFrom_spec (u := u) (Nat.le_refl cfg.buckets) hlen
    fun j hj hle => absurd hle (Nat.not_le.mpr hj)
  rw [hstart] at hspec
  exact hspec

theorem run_zero_misses (ops : List Op) :
    (WayCache.run cfg hash 0 ops).misses = sampledAccesses cfg hash ops ∧
      ∀ s, (WayCache.run cfg hash 0 ops).sets s = [] := by
  induction ops using List.reverseRecOn with
  | nil => exact ⟨rfl, fun _ => rfl⟩
  | append_singleton ops op ih =>
    obtain ⟨hm, hs⟩ := ih
    have hrun : WayCache.run cfg hash 0 (ops ++ [op]) =
        (WayCache.run cfg hash 0 ops).step cfg hash 0 op := List.foldl_concat _ _ _ _
    have hcount : sampledAccesses cfg hash (ops ++ [op]) = match op with
        | .access a =>
          if sampled cfg hash a then sampledAccesses cfg hash ops + 1
          else sampledAccesses cfg hash ops
        | .startNextInterval => 0 := by
      rw [sampledAccesses, List.foldl_concat]
      cases op <;> rfl
    rw [hrun, hcount]
    cases op with
    | access a =>
      by_cases ha : sampled cfg hash a
      · simp only [WayCache.step, ha, if_true, hs, List.not_mem_nil, if_false, hm, true_and]
        intro t
        by_cases ht : t = set cfg hash a
        · rw [ht, Function.update_self, cacheUse, List.take_zero]
        · rw [Function.update_of_ne ht, hs]
      · simp only [WayCache.step, ha]
        exact ⟨hm, hs⟩
    | startNextInterval => exact ⟨rfl, hs⟩

theorem getNumAccesses_eq : u.getNumAccesses cfg = missesAt cfg u 0 := by
  rw [getNumAccesses, missesAt, ← Finset.range_eq_Ico]
  rfl

/-- `getMisses` gives the misses of LRU caches of every number of ways, for every
configuration and every sequence of accesses in intervals. -/
theorem getMisses_eq_lru_misses (cfg : UMonConfig) (hash : Nat → Address → Nat) (ops : List Op)
    (hnz : ∀ a, .access a ∈ ops → a ≠ 0) (misses : List Nat) (hlen : misses.length = cfg.buckets + 1) :
    ∃ u curve, run cfg hash ops = some u ∧ u.getMisses cfg misses = some curve ∧
      curve.length = cfg.buckets + 1 ∧
      (∀ i ≤ cfg.buckets, curve[i]? = some (WayCache.run cfg hash i ops).misses) ∧
      (∀ i j, i ≤ j → j ≤ cfg.buckets → ∀ m n, curve[i]? = some m → curve[j]? = some n → n ≤ m) ∧
      curve[0]? = some (sampledAccesses cfg hash ops) ∧
      u.getNumAccesses cfg = sampledAccesses cfg hash ops := by
  obtain ⟨u, recent, hu, h⟩ := run_simulates cfg hash ops hnz
  obtain ⟨curve, hcurve, hsize, hat⟩ := getMisses_spec (u := u) hlen
  have hzero : missesAt cfg u 0 = sampledAccesses cfg hash ops := by
    rw [← h.misses 0 (Nat.zero_le _), (run_zero_misses ops).1]
  refine ⟨u, curve, hu, hcurve, hsize, fun i hi => ?_, fun i j hij hj m n hm hn => ?_, ?_, ?_⟩
  · rw [h.misses i hi]
    exact hat i hi
  · rw [hat i (hij.trans hj)] at hm
    rw [hat j hj] at hn
    cases hm
    cases hn
    exact missesAt_antitone hij
  · rw [hat 0 (Nat.zero_le _), hzero]
  · rw [getNumAccesses_eq, hzero]

/-- Addresses 2, 4, 2 in one set: the second use of 2 hits with two ways only. -/
theorem getMisses_eq_lru_misses_reuse : ∃ (cfg : UMonConfig) (u : UMon) (curve : List Nat),
    run cfg (fun _ a => a) [.access 2, .access 4, .access 2] = some u ∧
    u.getMisses cfg [0, 0, 0] = some curve ∧
    curve[0]? = some 3 ∧ curve[1]? = some 3 ∧ curve[2]? = some 2 := by
  have hnz : ∀ a, Op.access a ∈ [Op.access 2, .access 4, .access 2] → a ≠ 0 := by
    intro a ha
    simp only [List.mem_cons, Op.access.injEq, List.not_mem_nil, or_false] at ha
    rcases ha with rfl | rfl | rfl
    · decide
    · decide
    · decide
  let cfg : UMonConfig := ⟨4, 4, 2, by decide, by decide⟩
  obtain ⟨u, curve, hu, hcurve, -, hat, -⟩ := getMisses_eq_lru_misses cfg (fun _ a => a)
    [.access 2, .access 4, .access 2] hnz [0, 0, 0] rfl
  refine ⟨cfg, u, curve, hu, hcurve, ?_, ?_, ?_⟩
  · rw [hat 0 (by decide)]
    decide
  · rw [hat 1 (by decide)]
    decide
  · rw [hat 2 (by decide)]
    decide

end UMon

end ZSim
