import ZSim.SetAssocLRU

/-! Two LRU policies that order the lines of every set alike, although one of them is
updated more often. They choose the same victims while scores fit into 32 bits. -/

namespace ZSim

namespace LRUReplPolicy

variable (G : SetConfig)

/-- `id` is the most recent line of its set. -/
def Mru (rp : LRUReplPolicy) (id : Nat) : Prop :=
  rp.array id ≠ 0 ∧ ∀ a, id ∈ SetAssocArray.set G a → ∀ y ∈ SetAssocArray.set G a,
    y ≠ id → rp.array y < rp.array id

/-- The two policies order every set alike, the first one updated at least as often. -/
structure Order (rp rp' : LRUReplPolicy) : Prop where
  lt_iff : ∀ a, ∀ x ∈ SetAssocArray.set G a, ∀ y ∈ SetAssocArray.set G a,
    rp.array x < rp.array y ↔ rp'.array x < rp'.array y
  zero_iff : ∀ x, rp.array x = 0 ↔ rp'.array x = 0
  le : ∀ x, rp'.array x ≤ rp.array x
  lt_timestamp : ∀ x, rp.array x < rp.timestamp
  lt_timestamp' : ∀ x, rp'.array x < rp'.timestamp
  timestamp_le : rp'.timestamp ≤ rp.timestamp

variable {G} {rp rp' : LRUReplPolicy} {id x : Nat}

theorem update_array (rp : LRUReplPolicy) (id x : Nat) :
    (rp.update id).array x = if x = id then rp.timestamp else rp.array x :=
  Function.update_apply rp.array id rp.timestamp x

theorem replaced_array (rp : LRUReplPolicy) (id x : Nat) :
    (rp.replaced id).array x = if x = id then 0 else rp.array x :=
  Function.update_apply rp.array id 0 x

theorem update_timestamp (h : rp.timestamp + 1 < 2 ^ 64) (id : Nat) :
    (rp.update id).timestamp = rp.timestamp + 1 := Nat.mod_eq_of_lt h

namespace Order

theorem init : Order G LRUReplPolicy.init LRUReplPolicy.init := by
  constructor
  · exact fun _ _ _ _ _ => Iff.rfl
  · exact fun _ => Iff.rfl
  · exact fun _ => Nat.le_refl _
  · exact fun _ => Nat.one_pos
  · exact fun _ => Nat.one_pos
  · exact Nat.le_refl _

theorem mru_update (h : Order G rp rp') (id : Nat) : Mru G (rp'.update id) id := by
  have hlt := h.lt_timestamp'
  refine ⟨?_, fun a _ y _ hne => ?_⟩
  · rw [update_array, if_pos rfl]
    exact Nat.ne_of_gt ((Nat.zero_le _).trans_lt (hlt 0))
  · rw [update_array, update_array, if_pos rfl, if_neg hne]
    exact hlt y

theorem update (h : Order G rp rp') (hwrap : rp.timestamp + 1 < 2 ^ 64) (id : Nat) :
    Order G (rp.update id) (rp'.update id) := by
  have hle := h.timestamp_le
  have hp := h.lt_timestamp 0
  have hp' := h.lt_timestamp' 0
  constructor
  · intro a x hx y hy
    have hxs := h.lt_timestamp x
    have hxs' := h.lt_timestamp' x
    have hys := h.lt_timestamp y
    have hys' := h.lt_timestamp' y
    have hlt := h.lt_iff a x hx y hy
    simp only [update_array]
    split_ifs <;> omega
  · intro x
    have hz := h.zero_iff x
    simp only [update_array]
    split_ifs <;> omega
  · intro x
    have hx := h.le x
    simp only [update_array]
    split_ifs <;> omega
  · intro x
    have hx := h.lt_timestamp x
    rw [update_timestamp hwrap, update_array]
    split_ifs <;> omega
  · intro x
    have hx := h.lt_timestamp' x
    rw [update_timestamp (by omega), update_array]
    split_ifs <;> omega
  · rw [update_timestamp hwrap, update_timestamp (by omega)]
    omega

theorem replaced (h : Order G rp rp') (id : Nat) : Order G (rp.replaced id) (rp'.replaced id) := by
  have hp := h.lt_timestamp 0
  have hp' := h.lt_timestamp' 0
  constructor
  · intro a x hx y hy
    have hlt := h.lt_iff a x hx y hy
    have hy0 := h.zero_iff y
    simp only [replaced_array]
    split_ifs <;> omega
  · intro x
    have hz := h.zero_iff x
    simp only [replaced_array]
    split_ifs <;> omega
  · intro x
    have hx := h.le x
    simp only [replaced_array]
    split_ifs <;> omega
  · intro x
    have hx := h.lt_timestamp x
    rw [replaced_array]
    split_ifs
    · exact (Nat.zero_le _).trans_lt hp
    · exact hx
  · intro x
    have hx := h.lt_timestamp' x
    rw [replaced_array]
    split_ifs
    · exact (Nat.zero_le _).trans_lt hp'
    · exact hx
  · exact h.timestamp_le

/-- The plain cache alone may update the most recent line of a set. -/
theorem update_mru (h : Order G rp rp') (hwrap : rp.timestamp + 1 < 2 ^ 64)
    (hm : Mru G rp' id) : Order G (rp.update id) rp' := by
  have hle := h.timestamp_le
  constructor
  · intro a x hx y hy
    have hxs := h.lt_timestamp x
    have hys := h.lt_timestamp y
    have hlt := h.lt_iff a x hx y hy
    simp only [update_array]
    by_cases hxi : x = id
    · by_cases hyi : y = id
      · rw [if_pos hxi, if_pos hyi, hxi, hyi]
        omega
      · subst hxi
        have := hm.2 a hx y hy hyi
        rw [if_pos rfl, if_neg hyi]
        omega
    · by_cases hyi : y = id
      · subst hyi
        have := hm.2 a hy x hx hxi
        rw [if_neg hxi, if_pos rfl]
        omega
      · rw [if_neg hxi, if_neg hyi]
        exact hlt
  · intro x
    have hz := h.zero_iff x
    have hxs := h.lt_timestamp x
    rw [update_array]
    by_cases hxi : x = id
    · have := hm.1
      rw [if_pos hxi, hxi]
      omega
    · rw [if_neg hxi]
      exact hz
  · intro x
    have hx := h.le x
    have hxs := h.lt_timestamp x
    rw [update_array]
    split_ifs <;> omega
  · intro x
    have hx := h.lt_timestamp x
    rw [update_timestamp hwrap, update_array]
    split_ifs <;> omega
  · exact h.lt_timestamp'
  · rw [update_timestamp hwrap]
    omega

/-- With scores of 32 bits both policies choose the same victim. -/
theorem rank_eq (h : Order G rp rp') {valid : Nat → Bool} {a : Address}
    (hscore : ∀ x ∈ SetAssocArray.set G a, rp.score valid x < 2 ^ 32) :
    rp.rank valid (SetAssocArray.set G a) = rp'.rank valid (SetAssocArray.set G a) := by
  apply rank_congr hscore
  · intro x hx
    have hle : rp'.score valid x ≤ rp.score valid x := Nat.mul_le_mul_right _ (h.le x)
    exact hle.trans_lt (hscore x hx)
  · intro x hx y hy
    have hlt := h.lt_iff a x hx y hy
    have hx0 := h.zero_iff x
    have hy0 := h.zero_iff y
    simp only [score]
    cases valid x <;> cases valid y <;>
      simp only [Bool.toNat_true, Bool.toNat_false, Nat.mul_zero, Nat.mul_one] <;> omega

end Order

/-- Updates of another set leave the most recent line of a set alone. -/
theorem Mru.congr (h : Mru G rp x)
    (heq : ∀ a, x ∈ SetAssocArray.set G a → ∀ y ∈ SetAssocArray.set G a,
      rp'.array y = rp.array y) (hx : rp'.array x = rp.array x) : Mru G rp' x := by
  refine ⟨by rw [hx]; exact h.1, fun a ha y hy hne => ?_⟩
  rw [hx, heq a ha y hy]
  exact h.2 a ha y hy hne

end LRUReplPolicy

end ZSim
