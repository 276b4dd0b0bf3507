import ZSim.CareRepl

/-! Insertion and reuse under CARE. The update that follows every insertion is taken for a
hit, so an insertion trains the predictor and the first hit does not. -/

namespace ZSim

namespace CareArray

/-- What is remembered of the line in a slot: the SHT's `rc` of its address before it was
inserted, and whether it was hit since. -/
structure Insertion where
  before : Nat
  hit : Bool

def shtRc (c : CareArray) (lineAddr : Address) : Nat := (c.rp.sht (c.rp.hashAddr lineAddr)).rc

/-- The SHT's `rc` of the address, once the line that leaves the slot has decayed its own. -/
def prediction (c : CareArray) (lineAddr : Address) (id : Nat) : Nat :=
  (c.rp.decayed id (c.rp.hashAddr lineAddr)).rc

/-- The insertions recorded after an access. -/
def track (c : CareArray) (g : Nat → Option Insertion) (lineAddr : Address) :
    Nat → Option Insertion :=
  match c.find? lineAddr with
  | some id => Function.update g id ((g id).map fun x => { x with hit := true })
  | none => Function.update g (c.victim lineAddr) (some ⟨c.shtRc lineAddr, false⟩)

/-- An insertion takes the SHT's prediction and leaves the SHT alone. -/
def InsertLaw (c : CareArray) (lineAddr : Address) : Prop :=
  (c.access lineAddr).rp.rc (c.victim lineAddr) = c.prediction lineAddr (c.victim lineAddr) ∧
    (c.access lineAddr).shtRc lineAddr = c.prediction lineAddr (c.victim lineAddr)

/-- The first hit of a line counts for the line and for its address. -/
def HitLaw (c : CareArray) (id : Nat) (lineAddr : Address) : Prop :=
  (c.access lineAddr).rp.rc id = CAREReplPolicy.satInc (c.rp.rc id) ∧
    (c.access lineAddr).shtRc lineAddr = CAREReplPolicy.satInc (c.shtRc lineAddr)

/-- A line that leaves without a hit counts against its address. -/
def EvictLaw (c : CareArray) (x : Insertion) (lineAddr : Address) : Prop :=
  let evicted := c.rp.lineAddr (c.victim lineAddr)
  c.prediction evicted (c.victim lineAddr) = c.shtRc evicted - 1 ∧
    (c.access lineAddr).shtRc evicted ≤ x.before

/-- An access trains the predictor as insertion and reuse ask for. -/
def Law (c : CareArray) (g : Nat → Option Insertion) (lineAddr : Address) : Prop :=
  match c.find? lineAddr with
  | some id => ∀ x, g id = some x → x.hit = false → c.HitLaw id lineAddr
  | none => c.InsertLaw lineAddr ∧
      ∀ x, g (c.victim lineAddr) = some x → x.hit = false → c.EvictLaw x lineAddr

/-- Every access of the run obeys the law. -/
def Lawful (c : CareArray) (g : Nat → Option Insertion) : List Address → Prop
  | [] => True
  | lineAddr :: accesses =>
    c.Law g lineAddr ∧ (c.access lineAddr).Lawful (c.track g lineAddr) accesses

end CareArray

namespace CAREReplPolicy

theorem blend_rc (pd : Nat) (e : SHTEntry) : (blend pd e).rc = e.rc := by
  rw [blend]
  split
  · rfl
  · split <;> rfl

/-- The line just put into a slot, after the update that follows: `rc` one past the
prediction, in the slot and in the SHT. -/
theorem replaced_update (rp : CAREReplPolicy) (id : Nat) :
    let rp' := (rp.replaced id).update id
    let n := (rp.decayed id (rp.hashAddr rp.incomingAddr)).rc
    rp'.rc id = satInc n ∧ (rp'.sht (rp.hashAddr rp.incomingAddr)).rc = satInc n := by
  have hbit : (rp.replaced id).rBit id = false := Function.update_self ..
  have hline : (rp.replaced id).lineAddr id = rp.incomingAddr := Function.update_self ..
  have hrc : (rp.replaced id).rc id = (rp.decayed id (rp.hashAddr rp.incomingAddr)).rc :=
    Function.update_self ..
  have hsht : ((rp.replaced id).sht (rp.hashAddr rp.incomingAddr)).rc =
      (rp.decayed id (rp.hashAddr rp.incomingAddr)).rc := by
    exact (congrArg SHTEntry.rc (Function.update_self ..)).trans (blend_rc _ _)
  have hhash : ∀ addr, (rp.replaced id).hashAddr addr = rp.hashAddr addr := fun _ => rfl
  intro rp' n
  have hrp' : rp' = (rp.replaced id).update id := rfl
  rw [update, if_pos hbit, hline, hhash] at hrp'
  rw [hrp']
  constructor
  · show Function.update _ id _ id = _
    rw [Function.update_self, hrc]
  · exact (congrArg SHTEntry.rc (Function.update_self ..)).trans (congrArg satInc hsht)

end CAREReplPolicy

namespace CareArray

open CAREReplPolicy

variable {c : CareArray} {g : Nat → Option Insertion} {lineAddr : Address}

theorem access_of_miss (h : c.find? lineAddr = none) :
    c.access lineAddr = (c.preinsert lineAddr).1.postinsert lineAddr (c.victim lineAddr) := by
  rw [access, lookup, h]
  rfl

theorem access_of_hit {id : Nat} (h : c.find? lineAddr = some id) :
    c.access lineAddr = { c with rp := c.rp.update id } := by
  rw [access, lookup, h]
  rfl

/-- An insertion obeys its law only where the prediction is saturated. -/
theorem insertLaw_iff (h : c.find? lineAddr = none) :
    c.InsertLaw lineAddr ↔ CARE_RC_MAX ≤ c.prediction lineAddr (c.victim lineAddr) := by
  set id := c.victim lineAddr with hid
  have hpre : (c.preinsert lineAddr).1.rp =
      { c.rp with candArray := c.candidates lineAddr, incomingAddr := lineAddr } :=
    rank_policy c.rp lineAddr (c.candidates lineAddr)
  have hacc : (c.access lineAddr).rp =
      (({ c.rp with candArray := c.candidates lineAddr, incomingAddr := lineAddr } :
        CAREReplPolicy).replaced id).update id := by
    rw [access_of_miss h, ← hpre]
    rfl
  have hlaw := replaced_update
    { c.rp with candArray := c.candidates lineAddr, incomingAddr := lineAddr } id
  have hhash : (c.access lineAddr).rp.hashAddr lineAddr = c.rp.hashAddr lineAddr := by
    rw [hacc, update]
    split <;> rfl
  have hrc : (c.access lineAddr).rp.rc id = satInc (c.prediction lineAddr id) := by
    rw [hacc]
    exact hlaw.1
  have hsht : (c.access lineAddr).shtRc lineAddr = satInc (c.prediction lineAddr id) := by
    rw [shtRc, hhash, hacc]
    exact hlaw.2
  rw [InsertLaw, ← hid, hrc, hsht, and_self, satInc_eq_self]

/-- Nothing was inserted yet: at most one line, the one address 0 finds, was updated. -/
structure Untouched (c : CareArray) : Prop where
  assoc : 0 < c.assoc
  array : ∀ id, c.array id = 0
  line : ∀ id, c.rp.lineAddr id = 0
  sht : ∀ i, (c.rp.sht i).rc ≤ 1
  first : ∀ id, c.find? 0 = some id → c.rp.rBit id = false → ∀ i, (c.rp.sht i).rc = 0

theorem untouched_init {assoc setMask shtEntries : Nat} {hash : Address → Nat} (h : 0 < assoc) :
    Untouched (init assoc setMask shtEntries hash) :=
  ⟨h, fun _ => rfl, fun _ => rfl, fun _ => Nat.zero_le _, fun _ _ _ _ => rfl⟩

theorem Untouched.find_zero (h : Untouched c) : ∃ id, c.find? 0 = some id := by
  cases hf : c.find? 0 with
  | some id => exact ⟨id, rfl⟩
  | none =>
    have hnone := List.find?_eq_none.mp hf ((c.hash 0 &&& c.setMask) * c.assoc)
      (List.mem_range'_1.mpr ⟨Nat.le_refl _, Nat.lt_add_of_pos_right h.assoc⟩)
    simp [h.array] at hnone

theorem Untouched.find_none (h : Untouched c) (hne : lineAddr ≠ 0) :
    c.find? lineAddr = none := by
  rw [find?, List.find?_eq_none]
  intro id _
  simpa [h.array] using hne.symm

/-- Address 0 is found in the empty array, and updates the line it is found in. -/
theorem Untouched.access_zero (h : Untouched c) : Untouched (c.access 0) := by
  obtain ⟨id, hid⟩ := h.find_zero
  rw [access_of_hit hid, update]
  split
  · next hbit =>
    have hzero := h.first id hid hbit
    constructor
    · exact h.assoc
    · exact h.array
    · exact h.line
    · intro i
      show SHTEntry.rc (Function.update c.rp.sht _ _ i) ≤ 1
      by_cases hi : i = c.rp.hashAddr (c.rp.lineAddr id)
      · rw [hi, Function.update_self]
        show satInc (c.rp.sht _).rc ≤ 1
        rw [hzero]
        decide
      · rw [Function.update_of_ne hi]
        exact h.sht i
    · intro id' hid' hbit'
      have hsame : id' = id := Option.some.inj (hid'.symm.trans hid)
      have hset : Function.update c.rp.rBit id true id' = false := hbit'
      rw [hsame, Function.update_self] at hset
      cases hset
  · exact ⟨h.assoc, h.array, h.line, h.sht, h.first⟩

theorem Untouched.not_law (h : Untouched c) (hne : lineAddr ≠ 0) : ¬ c.Law g lineAddr := by
  have hmiss := h.find_none hne
  rw [Law, hmiss]
  rintro ⟨hins, -⟩
  rw [insertLaw_iff hmiss, prediction, decayed, if_neg (fun hd => hd.1 (h.line _))] at hins
  have hle : (c.rp.sht (c.rp.hashAddr lineAddr)).rc ≤ 1 := h.sht _
  have hmax : CARE_RC_MAX = 7 := rfl
  omega

theorem Untouched.lawful_iff {accesses : List Address} (h : Untouched c)
    (hg : ∀ id, g id = none) : c.Lawful g accesses ↔ ∀ a ∈ accesses, a = 0 := by
  induction accesses generalizing c g with
  | nil => simp [Lawful]
  | cons a accesses ih =>
    rw [Lawful, List.forall_mem_cons]
    by_cases ha : a = 0
    · rw [ha]
      obtain ⟨id, hid⟩ := h.find_zero
      have hlaw : c.Law g 0 := by
        rw [Law, hid]
        intro x hx
        rw [hg] at hx
        cases hx
      have hg' : ∀ i, c.track g 0 i = none := by
        intro i
        have htrack : c.track g 0 =
            Function.update g id ((g id).map fun x => { x with hit := true }) := by
          rw [track, hid]
        rw [htrack]
        by_cases hi : i = id
        · rw [hi, Function.update_self, hg]
          rfl
        · rw [Function.update_of_ne hi, hg]
      rw [ih h.access_zero hg', and_iff_right hlaw, and_iff_right rfl]
    · constructor
      · intro hl
        exact absurd hl.1 (h.not_law ha)
      · intro hall
        exact absurd hall.1 ha

/-- A run distinguishes insertion from reuse only if it inserts nothing: when every access is
to address 0, which the empty array contains. -/
theorem lawful_iff_zero {assoc setMask shtEntries : Nat} {hash : Address → Nat}
    {accesses : List Address} (hassoc : 0 < assoc) :
    (init assoc setMask shtEntries hash).Lawful (fun _ => none) accesses ↔
      ∀ a ∈ accesses, a = 0 :=
  (untouched_init hassoc).lawful_iff fun _ => rfl

theorem lawful_iff_zero_one :
    0 < 2 ∧ ((init 2 1 4 id).Lawful (fun _ => none) [0, 5] ↔ ∀ a ∈ [0, 5], a = 0) :=
  ⟨by decide, lawful_iff_zero (by decide)⟩

/-- One insertion, into an empty cache: `rc` and the SHT are at 1. -/
theorem insert_counts_as_hit :
    let c := (init 2 1 4 id).access 5
    c.rp.rc 2 = 1 ∧ c.shtRc 5 = 1 ∧ ¬ (init 2 1 4 id).Lawful (fun _ => none) [5] := by
  intro c
  refine ⟨by decide, by decide, ?_⟩
  intro h
  have h0 := ((untouched_init (by decide)).lawful_iff fun _ => rfl).mp h 5 List.mem_cons_self
  cases h0

end CareArray

end ZSim
