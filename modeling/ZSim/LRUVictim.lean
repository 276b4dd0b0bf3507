import ZSim.FirstBest
import ZSim.LRUOrder

/-! The victims of LRU, with and without regard to sharers, against the order they are meant to be
chosen in. The search keeps scores in 32 bits. -/

namespace ZSim

/-- What the coherence controller says about each line. -/
structure LineStates where
  numSharers : Nat → Nat
  isValid : Nat → Bool

namespace LRUReplPolicy

variable (sharersAware : Bool) (cc : LineStates)

def sharers (id : Nat) : Nat := if sharersAware then cc.numSharers id else 0

def packedScore (rp : LRUReplPolicy) (id : Nat) : Nat :=
  (sharers sharersAware cc id * rp.timestamp + rp.array id * (cc.isValid id).toNat) % 2 ^ 64

/-- `rank` with the sharers of the candidates. -/
def rankCands (rp : LRUReplPolicy) (cands : List Nat) : Nat :=
  rankFrom (packedScore sharersAware cc rp) cands (2 ^ 32 - 1) (2 ^ 64 - 1)

inductive Call where
  | update (id : Nat)
  | replaced (id : Nat)
  deriving DecidableEq

/-- The policy after calls, the last one first. -/
def after : List Call → LRUReplPolicy
  | [] => init
  | .update id :: calls => (after calls).update id
  | .replaced id :: calls => (after calls).replaced id

def updates : List Call → Nat
  | [] => 0
  | .update _ :: calls => updates calls + 1
  | .replaced _ :: calls => updates calls

/-- Which call updated the line last, 0 if it was replaced since or never updated. -/
def lastUpdate (id : Nat) : List Call → Nat
  | [] => 0
  | .update x :: calls => if x = id then calls.length + 1 else lastUpdate id calls
  | .replaced x :: calls => if x = id then 0 else lastUpdate id calls

def vacant (calls : List Call) (id : Nat) : Bool :=
  !cc.isValid id || (lastUpdate id calls == 0 && sharers sharersAware cc id == 0)

/-- Vacant lines first, then fewer sharers, then the older last update. -/
def victimKey (calls : List Call) (id : Nat) : WithBot (ℕ ×ₗ ℕ) :=
  if vacant sharersAware cc calls id then ⊥
  else (toLex (sharers sharersAware cc id, lastUpdate id calls) : ℕ ×ₗ ℕ)

def ChoosesFirst (calls : List Call) (cands : List Nat) : Prop :=
  ∃ v ∈ cands, rankCands sharersAware cc (after calls) cands = v ∧
    ∀ c ∈ cands, victimKey sharersAware cc calls v ≤ victimKey sharersAware cc calls c

def lowScore (calls : List Call) (id : Nat) : Nat :=
  packedScore sharersAware cc (after calls) id % 2 ^ 32

/-- Every candidate behind the first in order has more in the low 32 bits of its score, or as much
and stands behind it in the list too. -/
def NotUndercut (calls : List Call) (cands : List Nat) : Prop :=
  ∀ m ∈ cands.argmin (victimKey sharersAware cc calls), ∀ c ∈ cands,
    victimKey sharersAware cc calls m < victimKey sharersAware cc calls c →
    lowScore sharersAware cc calls m < lowScore sharersAware cc calls c ∨
      lowScore sharersAware cc calls m = lowScore sharersAware cc calls c ∧
        cands.idxOf m < cands.idxOf c

variable {sharersAware cc} {calls : List Call} {cands : List Nat} {x y : Nat}

theorem rankFrom_eq_foldl (s : Nat → Nat) (cands : List Nat) (b : Nat) :
    rankFrom s cands b (s b % 2 ^ 32) =
      cands.foldl (fun best c => if s c % 2 ^ 32 < s best % 2 ^ 32 then c else best) b := by
  induction cands generalizing b with
  | nil => rfl
  | cons x cands ih =>
    rw [rankFrom, List.foldl_cons]
    by_cases h : s x % 2 ^ 32 < s b % 2 ^ 32
    · simp only [if_pos h, Nat.min_eq_left (Nat.le_of_lt h)]
      exact ih x
    · simp only [if_neg h, Nat.min_eq_right (Nat.not_lt.mp h)]
      exact ih b

/-- The victim is the first candidate with the least score in 32 bits. -/
theorem rankCands_argmin (rp : LRUReplPolicy) (hne : cands ≠ []) :
    cands.argmin (fun id => packedScore sharersAware cc rp id % 2 ^ 32) =
      some (rankCands sharersAware cc rp cands) := by
  cases cands with
  | nil => exact absurd rfl hne
  | cons b cands =>
    have hb : packedScore sharersAware cc rp b % 2 ^ 32 < 2 ^ 64 - 1 := by omega
    rw [FirstBest.argmin_cons_eq, rankCands, rankFrom, if_pos hb,
      Nat.min_eq_left (Nat.le_of_lt hb), rankFrom_eq_foldl]

structure Tracks (calls : List Call) : Prop where
  timestamp : (after calls).timestamp = updates calls + 1
  lt : ∀ x, (after calls).array x < (after calls).timestamp
  le : ∀ x, lastUpdate x calls ≤ calls.length
  zero : ∀ x, (after calls).array x = 0 ↔ lastUpdate x calls = 0
  order : ∀ x y, (after calls).array x < (after calls).array y ↔
    lastUpdate x calls < lastUpdate y calls

theorem tracks (h : updates calls + 1 < 2 ^ 64) : Tracks calls := by
  induction calls with
  | nil =>
    refine ⟨rfl, fun _ => Nat.one_pos, fun _ => Nat.le_refl _, fun _ => Iff.rfl, fun x y => ?_⟩
    simp [after, init, lastUpdate]
  | cons call calls ih =>
    cases call with
    | update id =>
      have hn : updates (.update id :: calls) = updates calls + 1 := rfl
      have ht := ih (by omega)
      have hts := ht.timestamp
      have htime : (after (.update id :: calls)).timestamp = updates calls + 2 := by
        simp only [after, update]
        rw [Nat.mod_eq_of_lt (by omega), hts]
      have harray : ∀ x, (after (.update id :: calls)).array x =
          if x = id then updates calls + 1 else (after calls).array x := by
        intro x
        rw [after, update_array, hts]
      have hlast : ∀ x, lastUpdate x (.update id :: calls) =
          if x = id then calls.length + 1 else lastUpdate x calls := by
        intro x
        simp only [lastUpdate, eq_comm]
      refine ⟨htime, fun x => ?_, fun x => ?_, fun x => ?_, fun x y => ?_⟩
      · have hx := ht.lt x
        rw [harray, htime]
        split <;> omega
      · have hx := ht.le x
        rw [hlast, List.length_cons]
        split <;> omega
      · have hx := ht.zero x
        rw [harray, hlast]
        split
        · omega
        · exact hx
      · have hxt := ht.lt x
        have hyt := ht.lt y
        have hxl := ht.le x
        have hyl := ht.le y
        have hxy := ht.order x y
        rw [harray, harray, hlast, hlast]
        split <;> split <;> omega
    | replaced id =>
      have hn : updates (.replaced id :: calls) = updates calls := rfl
      have ht := ih (by omega)
      have hlast : ∀ x, lastUpdate x (.replaced id :: calls) =
          if x = id then 0 else lastUpdate x calls := by
        intro x
        simp only [lastUpdate, eq_comm]
      have harray : ∀ x, (after (.replaced id :: calls)).array x =
          if x = id then 0 else (after calls).array x := by
        intro x
        rw [after, replaced_array]
      refine ⟨ht.timestamp, fun x => ?_, fun x => ?_, fun x => ?_, fun x y => ?_⟩
      · have hx := ht.lt x
        rw [harray]
        show _ < (after calls).timestamp
        split <;> omega
      · have hx := ht.le x
        rw [hlast, List.length_cons]
        split <;> omega
      · have hx := ht.zero x
        rw [harray, hlast]
        split
        · exact Iff.rfl
        · exact hx
      · have hx := ht.zero x
        have hy := ht.zero y
        have hxy := ht.order x y
        rw [harray, harray, hlast, hlast]
        split <;> split <;> omega

theorem mul_add_lt_iff {s t a b T : Nat} (ha : a < T) (hb : b < T) :
    s * T + a < t * T + b ↔ s < t ∨ s = t ∧ a < b := by
  rcases lt_trichotomy s t with h | h | h
  · have hle : (s + 1) * T ≤ t * T := Nat.mul_le_mul_right T h
    rw [Nat.succ_mul] at hle
    omega
  · subst h
    omega
  · have hle : (t + 1) * T ≤ s * T := Nat.mul_le_mul_right T h
    rw [Nat.succ_mul] at hle
    omega

/-- The sharers fit, and invalid lines have none. -/
structure Consistent (cc : LineStates) (calls : List Call) : Prop where
  fits : ∃ maxSharers, (∀ id, cc.numSharers id ≤ maxSharers) ∧
    (maxSharers + 1) * (updates calls + 1) < 2 ^ 64
  invalid : ∀ id, cc.isValid id = false → cc.numSharers id = 0

theorem Consistent.tracks (h : Consistent cc calls) : Tracks calls := by
  obtain ⟨n, -, hn⟩ := h.fits
  rw [Nat.succ_mul] at hn
  exact LRUReplPolicy.tracks (by omega)

theorem Consistent.packedScore_eq (h : Consistent cc calls) (x : Nat) :
    packedScore sharersAware cc (after calls) x =
      sharers sharersAware cc x * (updates calls + 1) +
        (after calls).array x * (cc.isValid x).toNat := by
  obtain ⟨n, hle, hn⟩ := h.fits
  have hlt := h.tracks.lt x
  have hsharers : sharers sharersAware cc x ≤ n := by
    have hx := hle x
    rw [sharers]
    split <;> omega
  have hmul : sharers sharersAware cc x * (updates calls + 1) ≤ n * (updates calls + 1) :=
    Nat.mul_le_mul_right _ hsharers
  have hvalid : (after calls).array x * (cc.isValid x).toNat ≤ (after calls).array x := by
    cases cc.isValid x <;> simp
  rw [h.tracks.timestamp] at hlt
  rw [Nat.succ_mul] at hn
  rw [packedScore, h.tracks.timestamp, Nat.mod_eq_of_lt (by omega)]

theorem Consistent.packedScore_vacant (h : Consistent cc calls)
    (hx : vacant sharersAware cc calls x = true) :
    packedScore sharersAware cc (after calls) x = 0 := by
  have hzero := h.tracks.zero x
  rw [h.packedScore_eq]
  by_cases hvalid : cc.isValid x = true
  · simp only [vacant, hvalid, Bool.not_true, Bool.false_or, Bool.and_eq_true, beq_iff_eq] at hx
    simp [hzero.mpr hx.1, hx.2]
  · have hsharers := h.invalid x (by simpa using hvalid)
    simp [hvalid, sharers, hsharers]

theorem Consistent.packedScore_busy (h : Consistent cc calls)
    (hx : vacant sharersAware cc calls x = false) :
    packedScore sharersAware cc (after calls) x =
        sharers sharersAware cc x * (updates calls + 1) + (after calls).array x ∧
      0 < packedScore sharersAware cc (after calls) x := by
  have hzero := h.tracks.zero x
  simp only [vacant, Bool.or_eq_false_iff, Bool.not_eq_false', Bool.and_eq_false_iff,
    beq_eq_false_iff_ne] at hx
  have heq : packedScore sharersAware cc (after calls) x =
      sharers sharersAware cc x * (updates calls + 1) + (after calls).array x := by
    rw [h.packedScore_eq]
    simp [hx.1]
  refine ⟨heq, ?_⟩
  rw [heq]
  rcases hx.2 with hlast | hsharers
  · have harray : (after calls).array x ≠ 0 := fun h0 => hlast (hzero.mp h0)
    omega
  · have hpos : 0 < sharers sharersAware cc x * (updates calls + 1) :=
      Nat.mul_pos (Nat.pos_of_ne_zero hsharers) (Nat.succ_pos _)
    omega

theorem Consistent.packedScore_lt_iff (h : Consistent cc calls) (x y : Nat) :
    packedScore sharersAware cc (after calls) x < packedScore sharersAware cc (after calls) y ↔
      victimKey sharersAware cc calls x < victimKey sharersAware cc calls y := by
  have hxlt := h.tracks.lt x
  have hylt := h.tracks.lt y
  rw [h.tracks.timestamp] at hxlt hylt
  cases hx : vacant sharersAware cc calls x with
  | true =>
    rw [h.packedScore_vacant hx]
    cases hy : vacant sharersAware cc calls y with
    | true => simp [h.packedScore_vacant hy, victimKey, hx, hy]
    | false => simp [(h.packedScore_busy hy).2, victimKey, hx, hy]
  | false =>
    cases hy : vacant sharersAware cc calls y with
    | true => simp [h.packedScore_vacant hy, victimKey, hx, hy]
    | false =>
      rw [(h.packedScore_busy hx).1, (h.packedScore_busy hy).1, mul_add_lt_iff hxlt hylt,
        h.tracks.order]
      simp [victimKey, hx, hy, Prod.Lex.lt_iff]

theorem Consistent.packedScore_le_iff (h : Consistent cc calls) (x y : Nat) :
    packedScore sharersAware cc (after calls) x ≤ packedScore sharersAware cc (after calls) y ↔
      victimKey sharersAware cc calls x ≤ victimKey sharersAware cc calls y := by
  rw [← not_lt, ← not_lt, h.packedScore_lt_iff]

/-- The victim comes first in the order if and only if no candidate behind the first one undercuts
it in 32 bits. -/
theorem rankCands_first_iff (h : Consistent cc calls) (hne : cands ≠ []) :
    ChoosesFirst sharersAware cc calls cands ↔ NotUndercut sharersAware cc calls cands := by
  have hvictim : cands.argmin (lowScore sharersAware cc calls) = _ :=
    rankCands_argmin (after calls) hne
  obtain ⟨hvmem, hvle, hvfirst⟩ := List.mem_argmin_iff.mp hvictim
  constructor
  · rintro ⟨v, -, rfl, hv⟩ m hm c hc hlt
    obtain ⟨hmmem, hmle, hmfirst⟩ := List.mem_argmin_iff.mp hm
    have hkey := le_antisymm (hmle _ hvmem) (hv m hmmem)
    have hidx := hmfirst _ hvmem hkey.ge
    -- the first in order and the victim have the same score
    have hlow : lowScore sharersAware cc calls m =
        lowScore sharersAware cc calls (rankCands sharersAware cc (after calls) cands) := by
      have hscore := le_antisymm ((h.packedScore_le_iff _ _).mpr hkey.le)
        ((h.packedScore_le_iff _ _).mpr hkey.ge)
      rw [lowScore, lowScore, hscore]
    have hcle := hvle c hc
    rcases Nat.lt_or_eq_of_le hcle with hl | hl
    · exact .inl (by omega)
    · have hcfirst := hvfirst c hc hl.ge
      refine .inr ⟨by omega, lt_of_le_of_ne (hidx.trans hcfirst) fun heq => ?_⟩
      rw [(List.idxOf_inj hmmem).mp heq] at hlt
      exact lt_irrefl _ hlt
  · intro hundercut
    refine ⟨_, hvmem, rfl, ?_⟩
    cases hm : cands.argmin (victimKey sharersAware cc calls) with
    | none => exact absurd (List.argmin_eq_none.mp hm) hne
    | some m =>
      obtain ⟨hmmem, hmle, -⟩ := List.mem_argmin_iff.mp hm
      by_contra hnot
      have hlt : victimKey sharersAware cc calls m < victimKey sharersAware cc calls
          (rankCands sharersAware cc (after calls) cands) := by
        by_contra hge
        exact hnot fun c hc => (not_lt.mp hge).trans (hmle c hc)
      have hle := hvle m hmmem
      rcases hundercut m hm _ hvmem hlt with hl | ⟨hl, hidx⟩
      · omega
      · have hfirst := hvfirst m hmmem hl.le
        omega

theorem notUndercut_of_lt (h : Consistent cc calls)
    (hfit : ∀ c ∈ cands, packedScore sharersAware cc (after calls) c < 2 ^ 32) :
    NotUndercut sharersAware cc calls cands := by
  intro m hm c hc hlt
  have hscore := (h.packedScore_lt_iff m c).mpr hlt
  have hcfit := hfit c hc
  left
  rw [lowScore, lowScore, Nat.mod_eq_of_lt hcfit, Nat.mod_eq_of_lt (by omega)]
  exact hscore

def unshared (isValid : Nat → Bool) : LineStates := ⟨fun _ => 0, isValid⟩

theorem consistent_unshared {isValid : Nat → Bool} (h : updates calls + 1 < 2 ^ 64) :
    Consistent (unshared isValid) calls :=
  ⟨⟨0, fun _ => Nat.le_refl 0, by omega⟩, fun _ _ => rfl⟩

theorem rankCands_first_two :
    ChoosesFirst true (unshared fun _ => true) [.update 0, .update 1] [0, 1] := by
  have hconsistent := @consistent_unshared [.update 0, .update 1] (fun _ => true) (by decide)
  exact (rankCands_first_iff hconsistent (by decide)).mpr
    (notUndercut_of_lt hconsistent (by decide))

theorem updates_replicate (n id : Nat) :
    updates (List.replicate n (.update id) ++ calls) = updates calls + n := by
  induction n with
  | zero => simp
  | succ n ih =>
    rw [List.replicate_succ, List.cons_append, updates, ih]
    omega

theorem array_replicate {id : Nat} (n : Nat) (h : x ≠ id) :
    (after (List.replicate n (.update id) ++ calls)).array x = (after calls).array x := by
  induction n with
  | zero => simp
  | succ n ih =>
    rw [List.replicate_succ, List.cons_append, after, update_array, if_neg h, ih]

/-- Line 1 is updated first, line 0 with the update of number `n + 2`. -/
def recentCalls (n : Nat) : List Call := .update 0 :: (List.replicate n (.update 2) ++ [.update 1])

/-- With 2^32 updates nothing is left of the score of the line that was updated last. -/
theorem recent_line_chosen : ¬ ∀ (sharersAware : Bool) (cc : LineStates) (calls : List Call)
    (cands : List Nat), Consistent cc calls → cands ≠ [] →
    ChoosesFirst sharersAware cc calls cands := by
  intro hall
  obtain ⟨n, hn⟩ : ∃ n, n = 2 ^ 32 - 2 := ⟨_, rfl⟩
  have hcount : updates (List.replicate n (.update 2) ++ [.update 1]) = n + 1 := by
    rw [updates_replicate, updates, updates]
    omega
  have hupdates : updates (recentCalls n) = n + 2 := by rw [recentCalls, updates, hcount]
  have hconsistent := @consistent_unshared (recentCalls n) (fun _ => true) (by omega)
  have hzero : (after (recentCalls n)).array 0 = 2 ^ 32 := by
    have htracks := @tracks (List.replicate n (.update 2) ++ [.update 1]) (by omega)
    rw [recentCalls, after, update_array, if_pos rfl, htracks.timestamp]
    omega
  have hone : (after (recentCalls n)).array 1 = 1 := by
    rw [recentCalls, after, update_array, if_neg (by decide), array_replicate n (by decide)]
    rfl
  have hscore : ∀ x, packedScore true (unshared fun _ => true) (after (recentCalls n)) x =
      (after (recentCalls n)).array x := by
    intro x
    rw [hconsistent.packedScore_eq]
    simp [sharers, unshared]
  have hlt := (@Consistent.packedScore_lt_iff true _ _ hconsistent 1 0).mp (by
    rw [hscore, hscore, hzero, hone]
    decide)
  have hfirst : [1, 0].argmin (victimKey true (unshared fun _ => true) (recentCalls n)) =
      some 1 := by
    rw [FirstBest.argmin_cons_eq]
    simp [not_lt_of_gt hlt]
  have hundercut := (rankCands_first_iff hconsistent (by decide)).mp
    (hall true _ (recentCalls n) [1, 0] hconsistent (by decide)) 1 hfirst 0 (by decide) hlt
  simp [lowScore, hscore, hzero, hone] at hundercut

end LRUReplPolicy

end ZSim
