import Mathlib.Tactic
import ZSim.FirstBest

/-! The LFU replacement policy. Each line keeps the average of the times it was accessed at. -/

namespace ZSim

structure LFUInfo where
  ts : Nat
  acc : Nat

structure LFURank where
  lfuInfo : LFUInfo
  sharers : Nat
  valid : Bool

namespace LFURank

def reset : LFURank := ⟨⟨0, 0⟩, 0, false⟩

def invFreq (r : LFURank) (curTs : Nat) : Nat :=
  (curTs + 2 ^ 64 - r.lfuInfo.ts) % 2 ^ 64 / r.lfuInfo.acc

def lessThan (r other : LFURank) (curTs : Nat) : Bool :=
  if r.valid = false ∧ other.valid = true then true
  else if r.valid = other.valid then
    if r.sharers = 0 ∧ 0 < other.sharers then true
    else if 0 < r.sharers ∧ other.sharers = 0 then false
    else if r.lfuInfo.acc = 0 then true
    else if other.lfuInfo.acc = 0 then false
    else r.invFreq curTs > other.invFreq curTs
  else false

end LFURank

/-- What the coherence controller says about each line. -/
structure LFUController where
  numSharers : Nat → Nat
  isValid : Nat → Bool

structure LFUReplPolicy where
  timestamp : Nat
  bestCandidate : Option Nat
  bestRank : LFURank
  array : Nat → LFUInfo

namespace LFUReplPolicy

def init : LFUReplPolicy := ⟨1, none, .reset, fun _ => ⟨0, 0⟩⟩

def update (rp : LFUReplPolicy) (id : Nat) : LFUReplPolicy :=
  { rp with
    timestamp := (rp.timestamp + 1000) % 2 ^ 64
    array := Function.update rp.array id
      ⟨((rp.array id).acc * (rp.array id).ts + rp.timestamp) % 2 ^ 64 /
          (((rp.array id).acc + 1) % 2 ^ 64),
        ((rp.array id).acc + 1) % 2 ^ 64⟩ }

@[simp] theorem update_bestCandidate (rp : LFUReplPolicy) (id : Nat) :
    (rp.update id).bestCandidate = rp.bestCandidate := by
  rw [update]

def candRank (rp : LFUReplPolicy) (cc : LFUController) (id : Nat) : LFURank :=
  ⟨rp.array id, cc.numSharers id, cc.isValid id⟩

def recordCandidate (cc : LFUController) (rp : LFUReplPolicy) (id : Nat) : LFUReplPolicy :=
  if rp.bestCandidate.isNone || (rp.candRank cc id).lessThan rp.bestRank rp.timestamp then
    { rp with bestRank := rp.candRank cc id, bestCandidate := some id }
  else rp

def rank (rp : LFUReplPolicy) (cc : LFUController) (cands : List Nat) : LFUReplPolicy :=
  cands.foldl (recordCandidate cc) rp

def replaced (rp : LFUReplPolicy) (id : Nat) : LFUReplPolicy :=
  { rp with
    bestCandidate := none
    bestRank := .reset
    array := Function.update rp.array id { rp.array id with acc := 0 } }

/-- The policy's calls. The victim of a `rank` is its `bestCandidate`. -/
inductive Call where
  | update (id : Nat)
  | rank (cc : LFUController) (cands : List Nat)
  | replaced (id : Nat)

/-- The policy after calls, the last one first. -/
def after : List Call → LFUReplPolicy
  | [] => init
  | .update id :: calls => (after calls).update id
  | .rank cc cands :: calls => (after calls).rank cc cands
  | .replaced id :: calls => (after calls).replaced id

def updates : List Call → Nat
  | [] => 0
  | .update _ :: calls => updates calls + 1
  | .rank .. :: calls => updates calls
  | .replaced _ :: calls => updates calls

def time (calls : List Call) : Nat := 1 + 1000 * updates calls

/-- When the line was accessed since it was replaced, the last access first. -/
def accesses (id : Nat) : List Call → List Nat
  | [] => []
  | .update x :: calls => if x = id then time calls :: accesses id calls else accesses id calls
  | .rank .. :: calls => accesses id calls
  | .replaced x :: calls => if x = id then [] else accesses id calls

def SumsFit : List Call → Prop
  | [] => True
  | .update id :: calls => ((after calls).array id).acc * ((after calls).array id).ts +
      (after calls).timestamp < 2 ^ 64 ∧ SumsFit calls
  | .rank .. :: calls => SumsFit calls
  | .replaced _ :: calls => SumsFit calls

/-- Invalid before valid, then no sharers before some, then larger inverse frequency. -/
def victimKey (rp : LFUReplPolicy) (cc : LFUController) (id : Nat) : ℕ ×ₗ ℕ ×ₗ ℕᵒᵈ :=
  toLex ((cc.isValid id).toNat, toLex (if cc.numSharers id = 0 then 0 else 1,
    OrderDual.toDual ((rp.timestamp - (rp.array id).ts) / (rp.array id).acc)))

/-- The line's time is between its first and its last access. -/
def CenterOfMass (calls : List Call) (id : Nat) : Prop :=
  (∀ first ∈ (accesses id calls).getLast?, first ≤ ((after calls).array id).ts) ∧
    ∀ last ∈ (accesses id calls).head?, ((after calls).array id).ts ≤ last

/-- When no replacement is under way, no candidate comes before the one chosen. -/
def ChoosesFirst (calls : List Call) : Prop :=
  ∀ cc cands, cands ≠ [] → (∀ c ∈ cands, 0 < ((after calls).array c).acc) →
    (after calls).bestCandidate = none →
    ∃ v ∈ cands, ((after calls).rank cc cands).bestCandidate = some v ∧
      ∀ c ∈ cands, ¬victimKey (after calls) cc c < victimKey (after calls) cc v

/-- The averages, the times and the choice of the victim after the calls. -/
structure WellDefined (calls : List Call) : Prop where
  center : ∀ id, 0 < ((after calls).array id).acc →
    accesses id calls ≠ [] ∧ CenterOfMass calls id
  past : ∀ id, ((after calls).array id).ts < (after calls).timestamp
  chooses : ChoosesFirst calls

variable {calls : List Call} {id : Nat}

theorem rank_frame (rp : LFUReplPolicy) (cc : LFUController) (cands : List Nat) :
    (rp.rank cc cands).timestamp = rp.timestamp ∧ (rp.rank cc cands).array = rp.array := by
  induction cands generalizing rp with
  | nil => exact ⟨rfl, rfl⟩
  | cons c cands ih =>
    have hstep : (recordCandidate cc rp c).timestamp = rp.timestamp ∧
        (recordCandidate cc rp c).array = rp.array := by
      rw [recordCandidate]
      split <;> exact ⟨rfl, rfl⟩
    rw [rank, List.foldl_cons]
    exact ⟨(ih _).1.trans hstep.1, (ih _).2.trans hstep.2⟩

/-- A mean with one more value stays between the least and the largest. -/
theorem mean_bounds {acc ts t first : Nat} (hfirst : first ≤ ts) (ht : ts ≤ t) :
    first ≤ (acc * ts + t) / (acc + 1) ∧ (acc * ts + t) / (acc + 1) ≤ t := by
  constructor
  · rw [Nat.le_div_iff_mul_le (Nat.succ_pos acc), Nat.mul_succ, Nat.mul_comm first]
    have hmul : acc * first ≤ acc * ts := Nat.mul_le_mul_left acc hfirst
    omega
  · apply Nat.div_le_of_le_mul
    rw [Nat.succ_mul]
    have hmul : acc * ts ≤ acc * t := Nat.mul_le_mul_left acc ht
    omega

/-- What holds as long as the timestamp does not wrap. -/
structure Tracks (calls : List Call) : Prop where
  timestamp : (after calls).timestamp = time calls
  acc : ∀ id, ((after calls).array id).acc = (accesses id calls).length
  acc_le : ∀ id, ((after calls).array id).acc ≤ updates calls
  past : ∀ id, ((after calls).array id).ts < (after calls).timestamp
  last : ∀ id, ∀ last ∈ (accesses id calls).head?, ((after calls).array id).ts ≤ last
  ordered : ∀ id, ∀ first ∈ (accesses id calls).getLast?, first < (after calls).timestamp

theorem update_array (rp : LFUReplPolicy) (id x : Nat) : (rp.update id).array x =
    if x = id then ⟨((rp.array id).acc * (rp.array id).ts + rp.timestamp) % 2 ^ 64 /
          (((rp.array id).acc + 1) % 2 ^ 64), ((rp.array id).acc + 1) % 2 ^ 64⟩
    else rp.array x :=
  Function.update_apply ..

theorem replaced_array (rp : LFUReplPolicy) (id x : Nat) : (rp.replaced id).array x =
    if x = id then { rp.array id with acc := 0 } else rp.array x :=
  Function.update_apply ..

/-- The average an update computes, if the number of accesses does not wrap. -/
theorem Tracks.update_ts_le (h : Tracks calls) (htime : time calls < 2 ^ 64) (id : Nat) :
    ((after calls).array id).acc + 1 < 2 ^ 64 ∧
      (((after calls).array id).acc * ((after calls).array id).ts + (after calls).timestamp) %
          2 ^ 64 / (((after calls).array id).acc + 1) ≤ (after calls).timestamp := by
  have hacc := h.acc_le id
  rw [time] at htime
  refine ⟨by omega, ?_⟩
  have hpast := h.past id
  have hmean := @mean_bounds ((after calls).array id).acc ((after calls).array id).ts
    (after calls).timestamp 0 (Nat.zero_le _) hpast.le
  exact (Nat.div_le_div_right (Nat.mod_le _ _)).trans hmean.2

theorem tracks (htime : time calls < 2 ^ 64) : Tracks calls := by
  induction calls with
  | nil =>
    refine ⟨rfl, fun _ => rfl, fun _ => Nat.le_refl _, fun _ => Nat.one_pos, ?_, ?_⟩
    · intro id last hlast
      cases hlast
    · intro id first hfirst
      cases hfirst
  | cons call calls ih =>
    cases call with
    | update x =>
      have htime' : time (.update x :: calls) = time calls + 1000 := by
        simp only [time, updates]
        omega
      have hprev : time calls < 2 ^ 64 := by omega
      have ht := ih hprev
      obtain ⟨hacc1, hmean⟩ := ht.update_ts_le hprev x
      have hts : (after (.update x :: calls)).timestamp = time calls + 1000 := by
        rw [after, update]
        simp only [ht.timestamp]
        exact Nat.mod_eq_of_lt (by omega)
      have hmod : (((after calls).array x).acc + 1) % 2 ^ 64 = ((after calls).array x).acc + 1 :=
        Nat.mod_eq_of_lt hacc1
      have hts' := ht.timestamp
      refine ⟨hts.trans htime'.symm, fun id => ?_, fun id => ?_, fun id => ?_, fun id => ?_,
        fun id => ?_⟩
      · have hid := ht.acc id
        rw [after, update_array, accesses, hmod]
        by_cases he : id = x
        · subst he
          simp [hid]
        · simp [he, Ne.symm he, hid]
      · have hid := ht.acc_le id
        rw [after, update_array, updates, hmod]
        by_cases he : id = x
        · subst he
          simpa using hid
        · simp only [if_neg he]
          omega
      · have hid := ht.past id
        rw [hts, after, update_array, hmod]
        by_cases he : id = x
        · subst he
          simp only [if_pos]
          omega
        · simp only [if_neg he]
          omega
      · intro last hlast
        rw [after, update_array, hmod]
        by_cases he : id = x
        · subst he
          simp only [accesses, if_pos, List.head?_cons, Option.mem_def, Option.some.injEq] at hlast
          simp only [if_pos]
          omega
        · simp only [accesses, if_neg (Ne.symm he)] at hlast
          simp only [if_neg he]
          exact ht.last id last hlast
      · intro first hfirst
        rw [hts]
        by_cases he : id = x
        · subst he
          simp only [accesses, if_pos] at hfirst
          cases hold : (accesses id calls).getLast? with
          | none =>
            rw [List.getLast?_cons, hold] at hfirst
            simp at hfirst
            omega
          | some old =>
            have hlt := ht.ordered id old hold
            rw [List.getLast?_cons, hold] at hfirst
            simp at hfirst
            omega
        · simp only [accesses, if_neg (Ne.symm he)] at hfirst
          have hlt := ht.ordered id first hfirst
          omega
    | rank cc cands =>
      have ht := ih htime
      obtain ⟨hts, harray⟩ := rank_frame (after calls) cc cands
      refine ⟨?_, ?_, ?_, ?_, ?_, ?_⟩
      all_goals
        simp only [after, hts, harray, accesses, updates]
      · exact ht.timestamp
      · exact ht.acc
      · exact ht.acc_le
      · exact ht.past
      · exact ht.last
      · exact ht.ordered
    | replaced x =>
      have ht := ih htime
      refine ⟨ht.timestamp, fun id => ?_, fun id => ?_, fun id => ?_, fun id => ?_, fun id => ?_⟩
      · have hid := ht.acc id
        rw [after, replaced_array, accesses]
        by_cases he : id = x
        · subst he
          simp
        · simpa [he, Ne.symm he] using hid
      · have hid := ht.acc_le id
        rw [after, replaced_array, updates]
        by_cases he : id = x
        · subst he
          simp
        · simpa [he] using hid
      · have hid := ht.past id
        rw [after, replaced_array]
        show _ < (after calls).timestamp
        by_cases he : id = x
        · subst he
          simpa using hid
        · simpa [he] using hid
      · intro last hlast
        rw [after, replaced_array]
        by_cases he : id = x
        · subst he
          simp [accesses] at hlast
        · simp only [accesses, if_neg (Ne.symm he)] at hlast
          simpa [he] using ht.last id last hlast
      · intro first hfirst
        by_cases he : id = x
        · subst he
          simp [accesses] at hfirst
        · simp only [accesses, if_neg (Ne.symm he)] at hfirst
          exact ht.ordered id first hfirst

end LFUReplPolicy

end ZSim
