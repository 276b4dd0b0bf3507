import ZSim.CoherenceCtrls

/-! The set-associative array with the LRU policy that is not aware of sharers, as
terminal caches use them. Sets are not hashed. -/

namespace ZSim

structure SetConfig where
  assoc : Nat
  setBits : Nat
  assoc_pos : 0 < assoc

namespace SetConfig

variable (G : SetConfig)

def numSets : Nat := 2 ^ G.setBits

def setMask : Nat := G.numSets - 1

end SetConfig

/-- `array` holds the time of the last update of each line. -/
structure LRUReplPolicy where
  timestamp : Nat
  array : Nat → Nat

namespace LRUReplPolicy

def init : LRUReplPolicy := ⟨1, fun _ => 0⟩

def update (rp : LRUReplPolicy) (id : Nat) : LRUReplPolicy :=
  { timestamp := (rp.timestamp + 1) % 2 ^ 64, array := Function.update rp.array id rp.timestamp }

def replaced (rp : LRUReplPolicy) (id : Nat) : LRUReplPolicy :=
  { rp with array := Function.update rp.array id 0 }

def score (rp : LRUReplPolicy) (valid : Nat → Bool) (id : Nat) : Nat :=
  rp.array id * (valid id).toNat

/-- The loop of `rank` over the candidates. The score is put into 32 bits. -/
def rankFrom (score : Nat → Nat) : List Nat → Nat → Nat → Nat
  | [], bestCand, _ => bestCand
  | id :: cands, bestCand, bestScore =>
    let s := score id % 2 ^ 32
    rankFrom score cands (if s < bestScore then id else bestCand) (min s bestScore)

def rank (rp : LRUReplPolicy) (valid : Nat → Bool) (cands : List Nat) : Nat :=
  rankFrom (rp.score valid) cands (2 ^ 32 - 1) (2 ^ 64 - 1)

theorem rankFrom_congr {s t : Nat → Nat} {cands : List Nat} {b : Nat}
    (hs : ∀ x ∈ b :: cands, s x < 2 ^ 32) (ht : ∀ x ∈ b :: cands, t x < 2 ^ 32)
    (h : ∀ x ∈ b :: cands, ∀ y ∈ b :: cands, s x < s y ↔ t x < t y) :
    rankFrom s cands b (s b) = rankFrom t cands b (t b) := by
  induction cands generalizing b with
  | nil => rfl
  | cons x cands ih =>
    have hxs := hs x (by simp)
    have hxt := ht x (by simp)
    have hx := h x (by simp) b (by simp)
    rw [rankFrom, rankFrom, Nat.mod_eq_of_lt hxs, Nat.mod_eq_of_lt hxt]
    by_cases hlt : s x < s b
    · rw [if_pos hlt, if_pos (hx.mp hlt), Nat.min_eq_left hlt.le, Nat.min_eq_left (hx.mp hlt).le]
      have hsub : ∀ y ∈ x :: cands, y ∈ b :: x :: cands := fun y hy => List.mem_cons_of_mem b hy
      exact ih (fun y hy => hs y (hsub y hy)) (fun y hy => ht y (hsub y hy))
        fun y hy z hz => h y (hsub y hy) z (hsub z hz)
    · have hlt' : ¬ t x < t b := fun ht => hlt (hx.mpr ht)
      rw [if_neg hlt, if_neg hlt', Nat.min_eq_right (Nat.le_of_not_lt hlt),
        Nat.min_eq_right (Nat.le_of_not_lt hlt')]
      have hsub : ∀ y ∈ b :: cands, y ∈ b :: x :: cands := by
        intro y hy
        rcases List.mem_cons.mp hy with rfl | hy
        · exact List.mem_cons_self
        · exact List.mem_cons_of_mem _ (List.mem_cons_of_mem _ hy)
      exact ih (fun y hy => hs y (hsub y hy)) (fun y hy => ht y (hsub y hy))
        fun y hy z hz => h y (hsub y hy) z (hsub z hz)

/-- Scores of 32 bits that order the candidates alike rank the same candidate. -/
theorem rank_congr {rp rp' : LRUReplPolicy} {valid : Nat → Bool} {cands : List Nat}
    (hs : ∀ x ∈ cands, rp.score valid x < 2 ^ 32) (ht : ∀ x ∈ cands, rp'.score valid x < 2 ^ 32)
    (h : ∀ x ∈ cands, ∀ y ∈ cands,
      rp.score valid x < rp.score valid y ↔ rp'.score valid x < rp'.score valid y) :
    rp.rank valid cands = rp'.rank valid cands := by
  cases cands with
  | nil => rfl
  | cons x cands =>
    have hxs := hs x List.mem_cons_self
    have hxt := ht x List.mem_cons_self
    rw [rank, rank, rankFrom, rankFrom, Nat.mod_eq_of_lt hxs, Nat.mod_eq_of_lt hxt,
      if_pos (by omega), if_pos (by omega), Nat.min_eq_left (by omega),
      Nat.min_eq_left (by omega)]
    exact rankFrom_congr hs ht h

theorem rankFrom_mem (s : Nat → Nat) (cands : List Nat) (b bs : Nat) :
    rankFrom s cands b bs = b ∨ rankFrom s cands b bs ∈ cands := by
  induction cands generalizing b bs with
  | nil => exact .inl rfl
  | cons x cands ih =>
    rw [rankFrom]
    rcases ih (if s x % 2 ^ 32 < bs then x else b) (min (s x % 2 ^ 32) bs) with h | h
    · by_cases hlt : s x % 2 ^ 32 < bs
      · rw [if_pos hlt] at h ⊢
        exact .inr (by rw [h]; exact List.mem_cons_self)
      · rw [if_neg hlt] at h ⊢
        exact .inl h
    · exact .inr (List.mem_cons_of_mem _ h)

theorem rank_mem {rp : LRUReplPolicy} {valid : Nat → Bool} {cands : List Nat}
    (hne : cands ≠ []) : rp.rank valid cands ∈ cands := by
  cases cands with
  | nil => exact absurd rfl hne
  | cons x cands =>
    have hx : rp.score valid x % 2 ^ 32 < 2 ^ 64 - 1 := by omega
    rw [rank, rankFrom, if_pos hx]
    rcases rankFrom_mem (rp.score valid) cands x
      (min (rp.score valid x % 2 ^ 32) (2 ^ 64 - 1)) with h | h
    · rw [h]
      exact List.mem_cons_self
    · exact List.mem_cons_of_mem _ h

end LRUReplPolicy

namespace SetAssocArray

variable (G : SetConfig)

/-- The line ids of the set of `lineAddr`. -/
def set (lineAddr : Address) : List Nat :=
  (List.range G.assoc).map fun w => (lineAddr &&& G.setMask) * G.assoc + w

def lookup (array : Nat → Address) (lineAddr : Address) : Option Nat :=
  (set G lineAddr).find? fun id => array id == lineAddr

variable {G} {array : Nat → Address} {a b : Address} {id : Nat}

theorem set_ne_nil : set G a ≠ [] := by
  rw [set, Ne, List.map_eq_nil_iff, List.range_eq_nil]
  exact Nat.ne_of_gt G.assoc_pos

theorem index_eq_of_mem (ha : id ∈ set G a) (hb : id ∈ set G b) :
    a &&& G.setMask = b &&& G.setMask := by
  obtain ⟨w, hw, rfl⟩ := List.mem_map.mp ha
  obtain ⟨v, hv, he⟩ := List.mem_map.mp hb
  rw [List.mem_range] at hw hv
  have hdiv : ∀ x w, w < G.assoc → (x * G.assoc + w) / G.assoc = x := by
    intro x w hw
    rw [Nat.mul_comm, Nat.mul_add_div G.assoc_pos, Nat.div_eq_of_lt hw, Nat.add_zero]
  have hd := hdiv (b &&& G.setMask) v hv
  rw [he, hdiv _ _ hw] at hd
  exact hd

theorem set_congr (h : a &&& G.setMask = b &&& G.setMask) : set G a = set G b := by
  rw [set, set, h]

theorem lookup_some (h : lookup G array a = some id) : id ∈ set G a ∧ array id = a := by
  have hp := List.find?_some h
  exact ⟨List.mem_of_find?_eq_some h, by simpa using hp⟩

theorem lookup_update_self (hnone : lookup G array a = none) (h : id ∈ set G a) :
    lookup G (Function.update array id a) a = some id := by
  rw [lookup, List.find?_eq_none] at hnone
  rw [lookup]
  have hsome : ((set G a).find? fun x => Function.update array id a x == a).isSome = true := by
    rw [List.find?_isSome]
    exact ⟨id, h, by simp⟩
  obtain ⟨x, hx⟩ := Option.isSome_iff_exists.mp hsome
  rw [hx]
  have hp := List.find?_some hx
  by_cases he : x = id
  · rw [he]
  · rw [Function.update_of_ne he] at hp
    exact absurd hp (hnone x (List.mem_of_find?_eq_some hx))

end SetAssocArray

end ZSim
