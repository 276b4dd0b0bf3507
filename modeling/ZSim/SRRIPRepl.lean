import Mathlib.Data.List.MinMax
import Mathlib.Tactic

/-! The SRRIP replacement policy and the closed form of its victim search. -/

namespace ZSim

/-- The cache is built with a maximum of 3. -/
structure SRRIPConfig where
  MAX_RRPV : Nat
  pos : 0 < MAX_RRPV
  fits : MAX_RRPV + 1 < 2 ^ 32

structure SRRIPReplPolicy where
  rrpv : Nat → Nat
  wasInserted : Nat → Bool
  candArray : List Nat

namespace SRRIPReplPolicy

variable (G : SRRIPConfig)

def init : SRRIPReplPolicy := ⟨fun _ => G.MAX_RRPV - 1, fun _ => false, []⟩

/-- The first update after an insertion is the insertion's own. -/
def update (rp : SRRIPReplPolicy) (id : Nat) : SRRIPReplPolicy :=
  if rp.wasInserted id then { rp with wasInserted := Function.update rp.wasInserted id false }
  else { rp with rrpv := Function.update rp.rrpv id 0 }

def startReplacement (rp : SRRIPReplPolicy) : SRRIPReplPolicy := { rp with candArray := [] }

def recordCandidate (rp : SRRIPReplPolicy) (id : Nat) : SRRIPReplPolicy :=
  { rp with candArray := rp.candArray ++ [id] }

/-- One pass over the candidates, none of which was at the maximum. -/
def age (cands : List Nat) (rrpv : Nat → Nat) : Nat → Nat :=
  cands.foldl (fun rrpv id =>
    Function.update rrpv id (min ((rrpv id + 1) % 2 ^ 32) G.MAX_RRPV)) rrpv

/-- The loop of `getBestCandidate`, for at most `fuel` passes. -/
def search (cands : List Nat) (fuel : Nat) (rrpv : Nat → Nat) : Option ((Nat → Nat) × Nat) :=
  match cands.find? fun id => rrpv id = G.MAX_RRPV, fuel with
  | some id, _ => some (rrpv, id)
  | none, 0 => none
  | none, fuel + 1 => search cands fuel (age G cands rrpv)

def getBestCandidate (rp : SRRIPReplPolicy) : Option (SRRIPReplPolicy × Nat) :=
  (search G rp.candArray G.MAX_RRPV rp.rrpv).map fun x => ({ rp with rrpv := x.1 }, x.2)

def replaced (rp : SRRIPReplPolicy) (id : Nat) : SRRIPReplPolicy where
  rrpv := Function.update rp.rrpv id (G.MAX_RRPV - 1)
  wasInserted := Function.update rp.wasInserted id true
  candArray := []

def rank (rp : SRRIPReplPolicy) (cands : List Nat) : Option (SRRIPReplPolicy × Nat) :=
  (cands.foldl recordCandidate rp.startReplacement).getBestCandidate G

variable {G} {rrpv : Nat → Nat} {cands : List Nat} {c v : Nat}

theorem update_rrpv (rp : SRRIPReplPolicy) (id x : Nat) : (rp.update id).rrpv x =
    if x = id ∧ rp.wasInserted id = false then 0 else rp.rrpv x := by
  by_cases hins : rp.wasInserted id = true
  · simp [update, hins]
  · simp [update, hins, Function.update_apply]

theorem update_wasInserted (rp : SRRIPReplPolicy) (id x : Nat) : (rp.update id).wasInserted x =
    if x = id then false else rp.wasInserted x := by
  by_cases hins : rp.wasInserted id = true
  · simp [update, hins, Function.update_apply]
  · by_cases hx : x = id
    · simp [update, hins, hx]
    · simp [update, hins, hx]

/-- The line just put into a slot, after the update that follows. -/
theorem replaced_update_rrpv (rp : SRRIPReplPolicy) (id x : Nat) :
    ((rp.replaced G id).update id).rrpv x = if x = id then G.MAX_RRPV - 1 else rp.rrpv x := by
  rw [update_rrpv]
  simp [replaced, Function.update_apply]

theorem replaced_update_wasInserted (rp : SRRIPReplPolicy) (id x : Nat) :
    ((rp.replaced G id).update id).wasInserted x =
      if x = id then false else rp.wasInserted x := by
  rw [update_wasInserted]
  by_cases hx : x = id
  · simp [hx]
  · simp [replaced, hx]

theorem age_apply (h : ∀ c, rrpv c ≤ G.MAX_RRPV) (c : Nat) :
    age G cands rrpv c = min G.MAX_RRPV (rrpv c + cands.count c) := by
  induction cands generalizing rrpv with
  | nil => simp [age, h c]
  | cons x cands ih =>
    have hfits := G.fits
    have hx := h x
    have hmod : (rrpv x + 1) % 2 ^ 32 = rrpv x + 1 := Nat.mod_eq_of_lt (by omega)
    have hle : ∀ c, Function.update rrpv x (min (rrpv x + 1) G.MAX_RRPV) c ≤ G.MAX_RRPV := by
      intro c
      by_cases hc : c = x
      · simp [hc]
      · simpa [hc] using h c
    have hcons : age G (x :: cands) rrpv =
        age G cands (Function.update rrpv x (min (rrpv x + 1) G.MAX_RRPV)) := by
      rw [age, List.foldl_cons, hmod]
      rfl
    rw [hcons, ih hle]
    by_cases hc : c = x
    · subst hc
      rw [Function.update_self, List.count_cons_self]
      omega
    · rw [Function.update_of_ne hc, List.count_cons_of_ne (Ne.symm hc)]

/-- The values after `p` passes. -/
def aged (G : SRRIPConfig) (cands : List Nat) (rrpv : Nat → Nat) (p c : Nat) : Nat :=
  min G.MAX_RRPV (rrpv c + p * cands.count c)

theorem aged_zero (h : ∀ c, rrpv c ≤ G.MAX_RRPV) : aged G cands rrpv 0 = rrpv := by
  funext c
  simp [aged, h c]

theorem aged_succ (h : ∀ c, rrpv c ≤ G.MAX_RRPV) (p : Nat) :
    aged G cands (age G cands rrpv) p = aged G cands rrpv (p + 1) := by
  funext c
  rw [aged, aged, age_apply h, Nat.succ_mul]
  omega

/-- The search ends with the first pass that brings a candidate to the maximum. -/
theorem search_eq {fuel p : Nat} (h : ∀ c, rrpv c ≤ G.MAX_RRPV) (hfuel : p ≤ fuel)
    (hbefore : ∀ q < p, ∀ c ∈ cands, aged G cands rrpv q c ≠ G.MAX_RRPV)
    (hfirst : (cands.find? fun c => aged G cands rrpv p c = G.MAX_RRPV) = some v) :
    search G cands fuel rrpv = some (aged G cands rrpv p, v) := by
  induction p generalizing rrpv fuel with
  | zero =>
    rw [aged_zero h] at hfirst ⊢
    unfold search
    simp only [hfirst]
  | succ p ih =>
    have hnone : (cands.find? fun c => rrpv c = G.MAX_RRPV) = none := by
      apply List.find?_eq_none.mpr
      intro c hc
      have hne := hbefore 0 (Nat.succ_pos p) c hc
      rw [aged_zero h] at hne
      simpa using hne
    obtain ⟨fuel, rfl⟩ : ∃ k, fuel = k + 1 := ⟨fuel - 1, by omega⟩
    have hage : ∀ c, age G cands rrpv c ≤ G.MAX_RRPV := by
      intro c
      rw [age_apply h]
      exact Nat.min_le_left _ _
    have hstep : search G cands (fuel + 1) rrpv = search G cands fuel (age G cands rrpv) := by
      conv_lhs => unfold search
      simp only [hnone]
    rw [hstep, ← aged_succ h p]
    apply ih hage (by omega)
    · intro q hq c hc
      rw [aged_succ h]
      exact hbefore (q + 1) (by omega) c hc
    · rw [aged_succ h]
      exact hfirst

theorem exists_rounds (hne : cands ≠ []) :
    ∃ p v, p ≤ G.MAX_RRPV ∧
      (∀ q < p, ∀ c ∈ cands, aged G cands rrpv q c ≠ G.MAX_RRPV) ∧
      (cands.find? fun c => aged G cands rrpv p c = G.MAX_RRPV) = some v := by
  obtain ⟨x, hx⟩ := List.exists_mem_of_ne_nil cands hne
  have hcount : 1 ≤ cands.count x := List.one_le_count_iff.mpr hx
  have hmax : ∃ p, ∃ c ∈ cands, aged G cands rrpv p c = G.MAX_RRPV := by
    refine ⟨G.MAX_RRPV, x, hx, ?_⟩
    have hmul := Nat.mul_le_mul_left G.MAX_RRPV hcount
    rw [aged]
    omega
  classical
  obtain ⟨c, hc, hcmax⟩ := Nat.find_spec hmax
  have hsome : (cands.find? fun c => aged G cands rrpv (Nat.find hmax) c = G.MAX_RRPV).isSome := by
    rw [List.find?_isSome]
    exact ⟨c, hc, by simpa using hcmax⟩
  obtain ⟨v, hv⟩ := Option.isSome_iff_exists.mp hsome
  refine ⟨Nat.find hmax, v, ?_, fun q hq c hc hq' => ?_, hv⟩
  · apply Nat.find_min' hmax
    refine ⟨x, hx, ?_⟩
    have hmul := Nat.mul_le_mul_left G.MAX_RRPV hcount
    rw [aged]
    omega
  · exact Nat.find_min hmax hq ⟨c, hc, hq'⟩

theorem rank_eq (rp : SRRIPReplPolicy) (cands : List Nat) :
    rp.rank G cands = (search G cands G.MAX_RRPV rp.rrpv).map fun x =>
      (⟨x.1, rp.wasInserted, cands⟩, x.2) := by
  have hfold : ∀ (rp : SRRIPReplPolicy) (cands : List Nat),
      cands.foldl recordCandidate rp = { rp with candArray := rp.candArray ++ cands } := by
    intro rp cands
    induction cands generalizing rp with
    | nil => simp
    | cons id cands ih =>
      rw [List.foldl_cons, ih]
      simp [recordCandidate]
  rw [rank, hfold]
  rfl

/-- Spec of `rank`: the candidates age by whole passes until one is at the maximum. -/
theorem rank_spec {rp : SRRIPReplPolicy} (h : ∀ c, rp.rrpv c ≤ G.MAX_RRPV) (hne : cands ≠ []) :
    ∃ p v, rp.rank G cands = some (⟨aged G cands rp.rrpv p, rp.wasInserted, cands⟩, v) ∧
      (∀ q < p, ∀ c ∈ cands, aged G cands rp.rrpv q c ≠ G.MAX_RRPV) ∧
      (cands.find? fun c => aged G cands rp.rrpv p c = G.MAX_RRPV) = some v := by
  obtain ⟨p, v, hfuel, hbefore, hfirst⟩ := @exists_rounds G rp.rrpv cands hne
  refine ⟨p, v, ?_, hbefore, hfirst⟩
  rw [rank_eq, search_eq h hfuel hbefore hfirst]
  rfl

end SRRIPReplPolicy

end ZSim
