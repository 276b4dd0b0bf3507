import ZSim.LFURepl

/-! Average access times and victims of LFU, as long as no sum of access times wraps. -/

namespace ZSim

namespace LFUReplPolicy

variable {calls : List Call} {cands : List Nat} {cc : LFUController} {rp : LFUReplPolicy}

theorem first_le_ts (htime : time calls < 2 ^ 64) (hfits : SumsFit calls) (id : Nat) :
    ∀ first ∈ (accesses id calls).getLast?, first ≤ ((after calls).array id).ts := by
  induction calls with
  | nil =>
    intro first hfirst
    cases hfirst
  | cons call calls ih =>
    cases call with
    | update x =>
      have hprev : time calls < 2 ^ 64 := by
        simp only [time, updates] at htime ⊢
        omega
      obtain ⟨hsum, hrest⟩ := hfits
      have ht := tracks hprev
      obtain ⟨hacc1, -⟩ := ht.update_ts_le hprev x
      intro first hfirst
      rw [after, update_array, Nat.mod_eq_of_lt hsum, Nat.mod_eq_of_lt hacc1]
      by_cases he : id = x
      · subst he
        simp only [accesses, if_pos] at hfirst ⊢
        have hpast := ht.past id
        have hold := ih hprev hrest
        cases hlast : (accesses id calls).getLast? with
        | none =>
          -- the first access of a tenure is its average
          have hnil := List.getLast?_eq_none_iff.mp hlast
          have hacc := ht.acc id
          rw [hnil, List.length_nil] at hacc
          rw [hnil] at hfirst
          have hts := ht.timestamp
          simp at hfirst
          rw [hacc, Nat.zero_mul, Nat.zero_add, Nat.zero_add, Nat.div_one]
          omega
        | some old =>
          rw [List.getLast?_cons, hlast] at hfirst
          simp at hfirst
          rw [← hfirst]
          exact (mean_bounds (hold old hlast) hpast.le).1
      · simp only [accesses, if_neg (Ne.symm he)] at hfirst
        simpa only [if_neg he] using ih hprev hrest first hfirst
    | rank cc cands =>
      rw [after, (rank_frame (after calls) cc cands).2]
      exact ih htime hfits
    | replaced x =>
      intro first hfirst
      rw [after, replaced_array]
      by_cases he : id = x
      · subst he
        simp [accesses] at hfirst
      · simp only [accesses, if_neg (Ne.symm he)] at hfirst
        simpa only [if_neg he] using ih htime hfits first hfirst

/-- Among accessed lines the ranks are in a lexicographic order. -/
theorem lessThan_iff_lex {r other : LFURank} {curTs : Nat} (hr : 0 < r.lfuInfo.acc)
    (hother : 0 < other.lfuInfo.acc) :
    r.lessThan other curTs = true ↔
      r.valid.toNat < other.valid.toNat ∨ r.valid.toNat = other.valid.toNat ∧
        ((if r.sharers = 0 then 0 else 1) < (if other.sharers = 0 then 0 else 1) ∨
          (if r.sharers = 0 then 0 else 1) = (if other.sharers = 0 then 0 else 1) ∧
            other.invFreq curTs < r.invFreq curTs) := by
  have hra := Nat.ne_of_gt hr
  have hoa := Nat.ne_of_gt hother
  have hsame : r.valid = other.valid → (r.lessThan other curTs = true ↔
      (if r.sharers = 0 then 0 else 1) < (if other.sharers = 0 then 0 else 1) ∨
        (if r.sharers = 0 then 0 else 1) = (if other.sharers = 0 then 0 else 1) ∧
          other.invFreq curTs < r.invFreq curTs) := by
    intro hvalid
    have hboth : ¬(r.valid = false ∧ other.valid = true) := by simp [hvalid]
    rw [LFURank.lessThan, if_neg hboth, if_pos hvalid]
    by_cases hs : r.sharers = 0
    · by_cases ho : other.sharers = 0
      · simp [hs, ho, hra, hoa]
      · simp [hs, ho, Nat.pos_of_ne_zero ho]
    · by_cases ho : other.sharers = 0
      · simp [hs, ho, Nat.pos_of_ne_zero hs]
      · simp [hs, ho, hra, hoa]
  by_cases hvalid : r.valid = other.valid
  · rw [hsame hvalid]
    simp [hvalid]
  · by_cases hv : r.valid = true
    · have ho : other.valid = false := by simpa [hv] using Ne.symm hvalid
      simp [LFURank.lessThan, hv, ho]
    · have ho : other.valid = true := by simpa [hv] using Ne.symm hvalid
      simp [LFURank.lessThan, hv, ho]

theorem lessThan_iff {x y : Nat} (htime : rp.timestamp < 2 ^ 64)
    (hpast : ∀ id, (rp.array id).ts < rp.timestamp) (hx : 0 < (rp.array x).acc)
    (hy : 0 < (rp.array y).acc) :
    (rp.candRank cc x).lessThan (rp.candRank cc y) rp.timestamp = true ↔
      victimKey rp cc x < victimKey rp cc y := by
  have hinv : ∀ id, (rp.candRank cc id).invFreq rp.timestamp =
      (rp.timestamp - (rp.array id).ts) / (rp.array id).acc := by
    intro id
    have hid := hpast id
    have hsub : (rp.timestamp + 2 ^ 64 - (rp.array id).ts) % 2 ^ 64 =
        rp.timestamp - (rp.array id).ts := by omega
    rw [LFURank.invFreq, candRank, hsub]
  rw [@lessThan_iff_lex (rp.candRank cc x) (rp.candRank cc y) rp.timestamp hx hy, hinv, hinv]
  simp only [candRank, victimKey, Prod.Lex.lt_iff, ofLex_toLex, OrderDual.toDual_lt_toDual]
  exact Iff.rfl

/-- While a rank goes on, the best rank is that of the best candidate. -/
theorem rank_from (htime : rp.timestamp < 2 ^ 64) (hpast : ∀ id, (rp.array id).ts < rp.timestamp)
    {b : Nat} (hbest : rp.bestCandidate = some b) (hrank : rp.bestRank = rp.candRank cc b)
    (hb : 0 < (rp.array b).acc) (hacc : ∀ c ∈ cands, 0 < (rp.array c).acc) :
    (rp.rank cc cands).bestCandidate = some (cands.foldl (fun best c =>
      if victimKey rp cc c < victimKey rp cc best then c else best) b) := by
  induction cands generalizing rp b with
  | nil => exact hbest
  | cons c cands ih =>
    have hc := hacc c List.mem_cons_self
    have hrest : ∀ x ∈ cands, 0 < (rp.array x).acc := fun x hx =>
      hacc x (List.mem_cons_of_mem _ hx)
    have hiff := @lessThan_iff cc rp c b htime hpast hc hb
    rw [rank, List.foldl_cons, List.foldl_cons]
    by_cases hlt : victimKey rp cc c < victimKey rp cc b
    · have hstep : recordCandidate cc rp c =
          { rp with bestRank := rp.candRank cc c, bestCandidate := some c } := by
        rw [recordCandidate, if_pos (by simp [hrank, hiff.mpr hlt])]
      rw [if_pos hlt, hstep]
      exact @ih { rp with bestRank := rp.candRank cc c, bestCandidate := some c } htime hpast c
        rfl rfl hc hrest
    · have hstep : recordCandidate cc rp c = rp := by
        have hnot := hiff.not.mpr hlt
        rw [recordCandidate, if_neg (by simp [hbest, hrank, hnot])]
      rw [if_neg hlt, hstep]
      exact ih htime hpast hbest hrank hb hrest

theorem rank_argmin (htime : rp.timestamp < 2 ^ 64) (hpast : ∀ id, (rp.array id).ts < rp.timestamp)
    (hidle : rp.bestCandidate = none) (hne : cands ≠ []) (hacc : ∀ c ∈ cands, 0 < (rp.array c).acc) :
    cands.argmin (victimKey rp cc) = (rp.rank cc cands).bestCandidate := by
  cases cands with
  | nil => exact absurd rfl hne
  | cons b cands =>
    have hstep : recordCandidate cc rp b =
        { rp with bestRank := rp.candRank cc b, bestCandidate := some b } := by
      rw [recordCandidate, if_pos (by simp [hidle])]
    rw [FirstBest.argmin_cons_eq, rank, List.foldl_cons, hstep]
    exact (@rank_from cands cc { rp with bestRank := rp.candRank cc b, bestCandidate := some b }
      htime hpast b rfl rfl (hacc b List.mem_cons_self)
      fun c hc => hacc c (List.mem_cons_of_mem _ hc)).symm

theorem choosesFirst (htime : time calls < 2 ^ 64) : ChoosesFirst calls := by
  intro cc cands hne hacc hidle
  have ht := tracks htime
  have hargmin := @rank_argmin cands cc (after calls) (by rw [ht.timestamp]; exact htime) ht.past
    hidle hne hacc
  cases hv : cands.argmin (victimKey (after calls) cc) with
  | none => exact absurd (List.argmin_eq_none.mp hv) hne
  | some v =>
    rw [hv] at hargmin
    exact ⟨v, List.argmin_mem hv, hargmin.symm, fun c hc => List.not_lt_of_mem_argmin hc hv⟩

/-- In a run in which no sum of access times wraps, the averages are between the first and the last
access and no victim is chosen before one that should go first. -/
theorem lfu_well_defined (htime : time calls < 2 ^ 64) (hfits : SumsFit calls) :
    WellDefined calls := by
  have ht := tracks htime
  refine ⟨fun id hacc => ⟨?_, first_le_ts htime hfits id, ht.last id⟩, ht.past,
    choosesFirst htime⟩
  rw [ht.acc id] at hacc
  exact List.ne_nil_of_length_pos hacc

theorem lfu_well_defined_two :
    WellDefined [.update 0, .update 1, .update 0] :=
  lfu_well_defined (by decide) ⟨by decide, by decide, by decide, trivial⟩

/-- Line 1 is accessed twice, and then line 0 again and again. -/
def often (n : Nat) : List Call := List.replicate n (.update 0) ++ [.update 1, .update 1]

theorem time_often (n : Nat) : time (often n) = 2001 + 1000 * n := by
  have hupdates : updates (often n) = n + 2 := by
    induction n with
    | zero => rfl
    | succ n ih =>
      rw [often, List.replicate_succ, List.cons_append, updates]
      exact congrArg (· + 1) ih
  rw [time, hupdates]
  omega

theorem often_succ (n : Nat) : often (n + 1) = .update 0 :: often n := by
  rw [often, List.replicate_succ, List.cons_append]
  rfl

theorem accesses_often (n : Nat) : (accesses 0 (often n)).length = n ∧
    (accesses 0 (often (n + 1))).getLast? = some 2001 := by
  induction n with
  | zero => exact ⟨rfl, rfl⟩
  | succ n ih =>
    have hlast : (accesses 0 (often (n + 1 + 1))).getLast? = some 2001 := by
      rw [often_succ, accesses, if_pos rfl, List.getLast?_cons, ih.2]
      rfl
    refine ⟨?_, hlast⟩
    rw [often_succ, accesses, if_pos rfl, List.length_cons, ih.1]

/-- While every average is at least the first access, `n` accesses average half their span. -/
theorem often_sum {n : Nat} (hn : n ≤ 200000000)
    (hfirst : ∀ k ≤ n, 0 < k → 2001 ≤ ((after (often k)).array 0).ts) :
    999 * (n * n) ≤ 2 * (n * ((after (often n)).array 0).ts) + 999 * n ∧
      n * ((after (often n)).array 0).ts < 2 ^ 64 := by
  induction n with
  | zero => simp
  | succ n ih =>
    obtain ⟨hlow, hhigh⟩ := ih (by omega) fun k hk => hfirst k (by omega)
    have ht := @tracks (often n) (by rw [time_often]; omega)
    have hts := ht.timestamp
    have hacc := ht.acc 0
    rw [time_often] at hts
    rw [(accesses_often n).1] at hacc
    have hnext := hfirst (n + 1) (Nat.le_refl _) (Nat.succ_pos n)
    have hval : ((after (often (n + 1))).array 0).ts =
        (n * ((after (often n)).array 0).ts + (2001 + 1000 * n)) % 2 ^ 64 / (n + 1) := by
      rw [often_succ, after, update_array, if_pos rfl, hacc, hts]
      simp only
      rw [Nat.mod_eq_of_lt (show n + 1 < 2 ^ 64 by omega)]
    rw [hval] at hnext ⊢
    have hnext' := (Nat.le_div_iff_mul_le (Nat.succ_pos n)).mp hnext
    -- a sum that wraps would leave an average below the first access
    have hfits : n * ((after (often n)).array 0).ts + (2001 + 1000 * n) < 2 ^ 64 := by
      by_contra hwrap
      rw [Nat.mod_eq_sub_mod (Nat.not_lt.mp hwrap), Nat.mod_eq_of_lt (by omega)] at hnext'
      omega
    rw [Nat.mod_eq_of_lt hfits]
    have hmul := Nat.mul_div_le (n * ((after (often n)).array 0).ts + (2001 + 1000 * n)) (n + 1)
    have hlt := Nat.lt_mul_div_succ (n * ((after (often n)).array 0).ts + (2001 + 1000 * n))
      (show 0 < n + 1 by omega)
    have hsq : (n + 1) * (n + 1) = n * n + 2 * n + 1 := by ring
    rw [Nat.mul_succ] at hlt
    omega

/-- After some 200 million accesses to one line, their sum wraps and their average is before them
all. -/
theorem average_wraps : ¬ ∀ calls, time calls < 2 ^ 64 → WellDefined calls := by
  intro h
  have hfirst : ∀ k ≤ 200000000, 0 < k → 2001 ≤ ((after (often k)).array 0).ts := by
    intro k hk hpos
    obtain ⟨n, rfl⟩ : ∃ n, k = n + 1 := ⟨k - 1, by omega⟩
    have htime : time (often (n + 1)) < 2 ^ 64 := by
      rw [time_often]
      omega
    have hacc := (tracks htime).acc 0
    rw [(accesses_often (n + 1)).1] at hacc
    exact ((h _ htime).center 0 (by omega)).2.1 2001 (accesses_often n).2
  have hsum := often_sum (Nat.le_refl 200000000) hfirst
  omega

end LFUReplPolicy

end ZSim
