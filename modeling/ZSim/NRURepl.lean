import Mathlib.Data.Fintype.Card
import Mathlib.Tactic

/-! The two-bit NRU policy. Its count of young lines is kept by `update` only: a line that is
replaced while it is young stays in the count. -/

namespace ZSim

structure NRUConfig where
  numLines : Nat
  fits : numLines < 2 ^ 32

/-- `candArray` is the part below `candIdx`. -/
structure NRUReplPolicy (G : NRUConfig) where
  array : Fin G.numLines → Nat
  candArray : List (Fin G.numLines)
  youngLines : Nat
  candVal : Nat

namespace NRUReplPolicy

variable {G : NRUConfig}

def init : NRUReplPolicy G := ⟨fun _ => 0, [], 0, 1 <<< 20⟩

/-- The line becomes young: one more if it was old. -/
def markYoung (rp : NRUReplPolicy G) (id : Fin G.numLines) : NRUReplPolicy G :=
  { rp with
    youngLines := (rp.youngLines + (2 ^ 32 + 1 - rp.array id >>> 1)) % 2 ^ 32
    array := Function.update rp.array id (rp.array id ||| 0x2) }

def shiftAll (rp : NRUReplPolicy G) : NRUReplPolicy G :=
  { rp with array := fun i => rp.array i >>> 1, youngLines := 0 }

def update (rp : NRUReplPolicy G) (id : Fin G.numLines) : NRUReplPolicy G :=
  if (rp.markYoung id).youngLines ≥ G.numLines / 2 then (rp.markYoung id).shiftAll
  else rp.markYoung id

def recordCandidate (rp : NRUReplPolicy G) (id : Fin G.numLines) : NRUReplPolicy G :=
  if rp.array id < rp.candVal then { rp with candVal := rp.array id, candArray := [id] }
  else if rp.array id = rp.candVal then { rp with candArray := rp.candArray ++ [id] }
  else rp

def getBestCandidate (rp : NRUReplPolicy G) : Option (Fin G.numLines) :=
  rp.candArray[rp.youngLines % rp.candArray.length]?

def replaced (rp : NRUReplPolicy G) (id : Fin G.numLines) : NRUReplPolicy G :=
  { rp with candVal := 1 <<< 20, candArray := [], array := Function.update rp.array id 0 }

inductive Call (G : NRUConfig) where
  | update (id : Fin G.numLines)
  | recordCandidate (id : Fin G.numLines)
  | replaced (id : Fin G.numLines)

/-- The policy after calls, the last one first. -/
def after : List (Call G) → NRUReplPolicy G
  | [] => init
  | .update id :: calls => (after calls).update id
  | .recordCandidate id :: calls => (after calls).recordCandidate id
  | .replaced id :: calls => (after calls).replaced id

def youngSet (array : Fin G.numLines → Nat) : Finset (Fin G.numLines) :=
  Finset.univ.filter fun id => array id &&& 0x2 ≠ 0

/-- The count is right and below the half, and a line that becomes young ages all lines just when
half of them are young with it. -/
structure YoungLaw (rp : NRUReplPolicy G) : Prop where
  count : rp.youngLines = (youngSet rp.array).card
  lt : rp.youngLines < max (G.numLines / 2) 1
  ages : ∀ id, rp.update id =
    if G.numLines / 2 ≤ (youngSet (rp.markYoung id).array).card then (rp.markYoung id).shiftAll
    else rp.markYoung id

/-- The line a call replaces is not young. -/
def ReplacesOld : Call G → NRUReplPolicy G → Prop
  | .replaced id, rp => rp.array id &&& 0x2 = 0
  | _, _ => True

/-- The candidates since the last replacement, with their ages when they were recorded. -/
def recorded : List (Call G) → List (Fin G.numLines × Nat)
  | [] => []
  | .update _ :: calls => recorded calls
  | .recordCandidate id :: calls => recorded calls ++ [(id, (after calls).array id)]
  | .replaced _ :: _ => []

/-- No line was updated since the first of these candidates was recorded. -/
def Undisturbed : List (Call G) → Prop
  | [] => True
  | .update _ :: calls => recorded calls = []
  | .recordCandidate _ :: calls => Undisturbed calls
  | .replaced _ :: _ => True

/-- The choice has the least age of the candidates, of now if nothing was updated in between. -/
structure ChoosesOldest (calls : List (Call G)) : Prop where
  isSome : recorded calls ≠ [] → ∃ id, (after calls).getBestCandidate = some id
  least : ∀ id, (after calls).getBestCandidate = some id →
    ∃ age, (id, age) ∈ recorded calls ∧ ∀ c ∈ recorded calls, age ≤ c.2
  leastNow : Undisturbed calls → ∀ id, (after calls).getBestCandidate = some id →
    ∀ c ∈ recorded calls, (after calls).array id ≤ (after calls).array c.1

variable {rp : NRUReplPolicy G} {id : Fin G.numLines} {calls : List (Call G)}

theorem or_two_le {v : Nat} (h : v ≤ 3) : v ||| 0x2 ≤ 3 := by
  interval_cases v <;> decide

theorem and_two {v : Nat} (h : v ≤ 3) : v &&& 0x2 ≠ 0 ↔ v >>> 1 = 1 := by
  interval_cases v <;> decide

theorem or_and_two (v : Nat) : (v ||| 0x2) &&& 0x2 ≠ 0 := by
  rw [Nat.and_or_distrib_right]
  simp

theorem shiftRight_one_le {v : Nat} (h : v ≤ 3) : v >>> 1 ≤ 1 := by
  interval_cases v <;> decide

theorem markYoung_array (rp : NRUReplPolicy G) (id i : Fin G.numLines) :
    (rp.markYoung id).array i = if i = id then rp.array id ||| 0x2 else rp.array i :=
  Function.update_apply _ _ _ _

theorem replaced_array (rp : NRUReplPolicy G) (id i : Fin G.numLines) :
    (rp.replaced id).array i = if i = id then 0 else rp.array i :=
  Function.update_apply _ _ _ _

theorem update_array (rp : NRUReplPolicy G) (id : Fin G.numLines) :
    (rp.update id).array = (rp.markYoung id).array ∨
      (rp.update id).array = (rp.markYoung id).shiftAll.array := by
  rw [update]
  split
  · exact Or.inr rfl
  · exact Or.inl rfl

theorem markYoung_array_le (h : ∀ i, rp.array i ≤ 3) (id i : Fin G.numLines) :
    (rp.markYoung id).array i ≤ 3 := by
  rw [markYoung_array]
  split
  · exact or_two_le (h id)
  · exact h i

theorem recordCandidate_array (rp : NRUReplPolicy G) (id : Fin G.numLines) :
    (rp.recordCandidate id).array = rp.array ∧
      (rp.recordCandidate id).youngLines = rp.youngLines := by
  rw [recordCandidate]
  split_ifs <;> exact ⟨rfl, rfl⟩

theorem array_le (calls : List (Call G)) (i : Fin G.numLines) : (after calls).array i ≤ 3 := by
  induction calls generalizing i with
  | nil => exact Nat.zero_le 3
  | cons call calls ih =>
    cases call with
    | update id =>
      have hmark := markYoung_array_le ih id i
      rcases update_array (after calls) id with heq | heq
      · rw [after, heq]
        exact hmark
      · rw [after, heq]
        exact Nat.le_trans (shiftRight_one_le hmark) (by decide)
    | recordCandidate id =>
      rw [after, (recordCandidate_array _ id).1]
      exact ih i
    | replaced id =>
      rw [after, replaced_array]
      split
      · exact Nat.zero_le 3
      · exact ih i

theorem youngLines_lt (calls : List (Call G)) :
    (after calls).youngLines < max (G.numLines / 2) 1 := by
  induction calls with
  | nil => exact Nat.lt_of_lt_of_le Nat.one_pos (Nat.le_max_right _ _)
  | cons call calls ih =>
    cases call with
    | update id =>
      rw [after, update]
      split
      · exact Nat.lt_of_lt_of_le Nat.one_pos (Nat.le_max_right _ _)
      · rename_i hlt
        exact Nat.lt_of_lt_of_le (Nat.not_le.mp hlt) (Nat.le_max_left _ _)
    | recordCandidate id =>
      rw [after, (recordCandidate_array _ id).2]
      exact ih
    | replaced id => exact ih

theorem mem_youngSet {array : Fin G.numLines → Nat} {i : Fin G.numLines} :
    i ∈ youngSet array ↔ array i &&& 0x2 ≠ 0 := by
  simp [youngSet]

theorem youngSet_markYoung (rp : NRUReplPolicy G) (id : Fin G.numLines) :
    youngSet (rp.markYoung id).array = insert id (youngSet rp.array) := by
  ext i
  rw [Finset.mem_insert, mem_youngSet, mem_youngSet, markYoung_array]
  by_cases hi : i = id
  · subst hi
    simp only [if_true, true_or, iff_true]
    exact or_and_two _
  · simp [hi]

theorem youngSet_shiftAll (h : ∀ i, rp.array i ≤ 3) : youngSet rp.shiftAll.array = ∅ := by
  apply Finset.eq_empty_of_forall_notMem
  intro i hi
  have hle := shiftRight_one_le (h i)
  have hyoung := (and_two (Nat.le_trans hle (by decide))).mp (mem_youngSet.mp hi)
  rw [Nat.shiftRight_one] at hyoung
  change (rp.array i >>> 1) / 2 = 1 at hyoung
  omega

theorem youngSet_replaced (rp : NRUReplPolicy G) (id : Fin G.numLines) :
    youngSet (rp.replaced id).array = (youngSet rp.array).erase id := by
  ext i
  rw [Finset.mem_erase, mem_youngSet, mem_youngSet, replaced_array]
  by_cases hi : i = id
  · simp [hi]
  · simp [hi]

theorem markYoung_count (h : ∀ i, rp.array i ≤ 3) (hlt : rp.youngLines < max (G.numLines / 2) 1)
    (hcount : rp.youngLines = (youngSet rp.array).card) (id : Fin G.numLines) :
    (rp.markYoung id).youngLines = (youngSet (rp.markYoung id).array).card := by
  have hfits := G.fits
  have hbit := shiftRight_one_le (h id)
  have hsum : (rp.markYoung id).youngLines = rp.youngLines + (1 - rp.array id >>> 1) := by
    rw [markYoung]
    dsimp only
    omega
  rw [hsum, youngSet_markYoung]
  by_cases hid : id ∈ youngSet rp.array
  · have hone := (and_two (h id)).mp (mem_youngSet.mp hid)
    rw [Finset.insert_eq_of_mem hid, hone, hcount, Nat.sub_self, Nat.add_zero]
  · have hzero : rp.array id >>> 1 ≠ 1 := fun hone =>
      hid (mem_youngSet.mpr ((and_two (h id)).mpr hone))
    rw [Finset.card_insert_of_notMem hid, ← hcount]
    omega

theorem youngLaw (hcount : (after calls).youngLines = (youngSet (after calls).array).card) :
    YoungLaw (after calls) := by
  refine ⟨hcount, youngLines_lt calls, fun id => ?_⟩
  rw [← markYoung_count (array_le calls) (youngLines_lt calls) hcount id, update]

theorem update_count (hcount : (after calls).youngLines = (youngSet (after calls).array).card)
    (id : Fin G.numLines) : (after (.update id :: calls)).youngLines =
      (youngSet (after (.update id :: calls)).array).card := by
  rw [after, update]
  split
  · rw [youngSet_shiftAll (markYoung_array_le (array_le calls) id)]
    rfl
  · exact markYoung_count (array_le calls) (youngLines_lt calls) hcount id

/-- The count stays right over a replacement of an old line only. -/
theorem replaced_count (hcount : (after calls).youngLines = (youngSet (after calls).array).card)
    (id : Fin G.numLines) : (after (.replaced id :: calls)).youngLines =
      (youngSet (after (.replaced id :: calls)).array).card ↔
        (after calls).array id &&& 0x2 = 0 := by
  rw [after, youngSet_replaced]
  change (after calls).youngLines = _ ↔ _
  rw [hcount]
  by_cases hid : id ∈ youngSet (after calls).array
  · have hlt := Finset.card_erase_lt_of_mem hid
    have hyoung := mem_youngSet.mp hid
    constructor
    · intro heq
      omega
    · intro hold
      exact absurd hold hyoung
  · rw [Finset.erase_eq_of_notMem hid]
    simpa using mem_youngSet.not.mp hid

theorem count_step {call : Call G}
    (hcount : (after calls).youngLines = (youngSet (after calls).array).card) :
    (after (call :: calls)).youngLines = (youngSet (after (call :: calls)).array).card ↔
      ReplacesOld call (after calls) := by
  cases call with
  | update id => exact iff_of_true (update_count hcount id) trivial
  | recordCandidate id =>
    refine iff_of_true ?_ trivial
    rw [after, (recordCandidate_array _ id).1, (recordCandidate_array _ id).2]
    exact hcount
  | replaced id => exact replaced_count hcount id

theorem youngLaw_iff (calls : List (Call G)) :
    (∀ past, past <:+ calls → YoungLaw (after past)) ↔
      ∀ call past, call :: past <:+ calls → ReplacesOld call (after past) := by
  constructor
  · intro h call past hs
    have hpast := h past ((List.suffix_cons call past).trans hs)
    exact (count_step hpast.count).mp (h _ hs).count
  · intro h past hs
    induction past with
    | nil => exact youngLaw (by simp [after, init, youngSet])
    | cons call past ih =>
      have hpast := ih ((List.suffix_cons call past).trans hs)
      exact youngLaw ((count_step hpast.count).mpr (h call past hs))

structure KeepsOldest (calls : List (Call G)) : Prop where
  candArray : (after calls).candArray =
    ((recorded calls).filter fun c => c.2 = (after calls).candVal).map Prod.fst
  le : ∀ c ∈ recorded calls, (after calls).candVal ≤ c.2
  mem : recorded calls ≠ [] → ∃ c ∈ recorded calls, c.2 = (after calls).candVal
  fresh : recorded calls = [] → (after calls).candVal = 1 <<< 20

theorem keepsOldest_nil (hr : recorded calls = []) (hc : (after calls).candArray = [])
    (hv : (after calls).candVal = 1 <<< 20) : KeepsOldest calls := by
  refine ⟨?_, ?_, fun h => absurd hr h, fun _ => hv⟩
  · rw [hr, hc]
    rfl
  · rw [hr]
    exact fun c h => absurd h List.not_mem_nil

theorem keepsOldest (calls : List (Call G)) : KeepsOldest calls := by
  induction calls with
  | nil => exact keepsOldest_nil rfl rfl rfl
  | cons call calls ih =>
    cases call with
    | update id =>
      have hval : (after (.update id :: calls)).candVal = (after calls).candVal := by
        rw [after, update]
        split <;> rfl
      have harr : (after (.update id :: calls)).candArray = (after calls).candArray := by
        rw [after, update]
        split <;> rfl
      refine ⟨?_, ?_, ?_, ?_⟩
      · rw [harr, hval]
        exact ih.candArray
      · rw [hval]
        exact ih.le
      · rw [hval]
        exact ih.mem
      · rw [hval]
        exact ih.fresh
    | recordCandidate id =>
      have hage := array_le calls id
      have hrec : recorded (.recordCandidate id :: calls) =
          recorded calls ++ [(id, (after calls).array id)] := rfl
      rcases Nat.lt_trichotomy ((after calls).array id) (after calls).candVal with hlt | heq | hgt
      · have hstep : after (.recordCandidate id :: calls) = { after calls with
            candVal := (after calls).array id, candArray := [id] } := by
          rw [after, recordCandidate, if_pos hlt]
        have hnone : (recorded calls).filter (fun c => c.2 = (after calls).array id) = [] := by
          apply List.filter_eq_nil_iff.mpr
          intro c hc
          have := ih.le c hc
          simp only [decide_eq_true_eq]
          omega
        refine ⟨?_, fun c hc => ?_, fun _ => ?_, fun h => absurd h (by simp [hrec])⟩
        · rw [hstep, hrec]
          simp only [List.filter_append, hnone]
          simp
        · rw [hstep]
          rcases List.mem_append.mp (hrec ▸ hc) with hc | hc
          · exact Nat.le_of_lt (Nat.lt_of_lt_of_le hlt (ih.le c hc))
          · rw [List.mem_singleton.mp hc]
        · rw [hstep, hrec]
          exact ⟨_, List.mem_append_right _ List.mem_cons_self, rfl⟩
      · have hstep : after (.recordCandidate id :: calls) = { after calls with
            candArray := (after calls).candArray ++ [id] } := by
          rw [after, recordCandidate, if_neg (by omega), if_pos heq]
        refine ⟨?_, fun c hc => ?_, fun _ => ?_, fun h => absurd h (by simp [hrec])⟩
        · rw [hstep, hrec]
          simp only [List.filter_append, List.map_append, ih.candArray]
          simp [heq]
        · rw [hstep]
          rcases List.mem_append.mp (hrec ▸ hc) with hc | hc
          · exact ih.le c hc
          · rw [List.mem_singleton.mp hc]
            exact heq.ge
        · rw [hstep, hrec]
          exact ⟨_, List.mem_append_right _ List.mem_cons_self, heq⟩
      · have hstep : after (.recordCandidate id :: calls) = after calls := by
          rw [after, recordCandidate, if_neg (by omega), if_neg (by omega)]
        have hne : recorded calls ≠ [] := by
          intro hnil
          have := ih.fresh hnil
          rw [this] at hgt
          omega
        refine ⟨?_, fun c hc => ?_, fun _ => ?_, fun h => absurd h (by simp [hrec])⟩
        · rw [hstep, hrec]
          simp only [List.filter_append, List.map_append, ih.candArray]
          simp [Nat.ne_of_gt hgt]
        · rw [hstep]
          rcases List.mem_append.mp (hrec ▸ hc) with hc | hc
          · exact ih.le c hc
          · rw [List.mem_singleton.mp hc]
            exact Nat.le_of_lt hgt
        · obtain ⟨c, hc, hcv⟩ := ih.mem hne
          rw [hstep, hrec]
          exact ⟨c, List.mem_append_left _ hc, hcv⟩
    | replaced id => exact keepsOldest_nil rfl rfl rfl

theorem getBestCandidate_mem (h : rp.getBestCandidate = some id) : id ∈ rp.candArray :=
  List.mem_of_getElem? h

theorem recorded_now (h : Undisturbed calls) :
    ∀ c ∈ recorded calls, c.2 = (after calls).array c.1 := by
  induction calls with
  | nil => exact fun c hc => absurd hc List.not_mem_nil
  | cons call calls ih =>
    intro c hc
    cases call with
    | update id =>
      have hnone : recorded calls = [] := h
      exact absurd (show c ∈ recorded calls from hc) (by simp [hnone])
    | recordCandidate id =>
      rw [after, (recordCandidate_array _ id).1]
      rcases List.mem_append.mp hc with hc | hc
      · exact ih h c hc
      · rw [List.mem_singleton.mp hc]
    | replaced id => exact absurd hc List.not_mem_nil

theorem choosesOldest (calls : List (Call G)) : ChoosesOldest calls := by
  have hk := keepsOldest calls
  have hleast : ∀ id, (after calls).getBestCandidate = some id →
      (id, (after calls).candVal) ∈ recorded calls := by
    intro id hbest
    have hmem := getBestCandidate_mem hbest
    rw [hk.candArray] at hmem
    obtain ⟨⟨i, age⟩, hc, rfl⟩ := List.mem_map.mp hmem
    obtain ⟨hc, hage⟩ := List.mem_filter.mp hc
    rw [← of_decide_eq_true hage]
    exact hc
  refine ⟨fun hne => ?_, fun id hbest => ⟨_, hleast id hbest, hk.le⟩, fun hu id hbest c hc => ?_⟩
  · obtain ⟨c, hc, hcv⟩ := hk.mem hne
    have hmem : c.1 ∈ (after calls).candArray := by
      rw [hk.candArray]
      exact List.mem_map_of_mem (List.mem_filter.mpr ⟨hc, decide_eq_true hcv⟩)
    have hpos := List.length_pos_of_mem hmem
    exact ⟨_, List.getElem?_eq_getElem (Nat.mod_lt _ hpos)⟩
  · have hnow := recorded_now hu
    rw [← hnow _ (hleast id hbest), ← hnow c hc]
    exact hk.le c hc

/-- The count of young lines is right throughout just when no young line is replaced; the choice
is right in any case. -/
theorem young_lines (calls : List (Call G)) :
    ((∀ past, past <:+ calls → YoungLaw (after past)) ↔
      ∀ call past, call :: past <:+ calls → ReplacesOld call (after past)) ∧
    ∀ past, past <:+ calls → ChoosesOldest past :=
  ⟨youngLaw_iff calls, fun past _ => choosesOldest past⟩

/-- The one way of a set in use, missed right after it was filled. -/
theorem replaced_young : ¬ YoungLaw (@after ⟨8, by decide⟩
    [.replaced 3, .recordCandidate 3, .update 3, .replaced 3, .recordCandidate 3]) := by
  intro h
  exact absurd h.count (by decide)

end NRUReplPolicy

end ZSim
