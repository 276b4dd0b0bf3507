import ZSim.PrioQueueWindow

/-! The search of `dequeue` for a populated block. Far elements come in at multiples of
`B/2`; the invariant is that they all lie at least `B` blocks beyond the last multiple,
and that the block at which they come in has a top cycle of 64 bits. -/

namespace ZSim

namespace PrioQueue

variable {T : Type} {B : Nat} {q q' : PrioQueue T} {N M : Multiset (T × Nat)}

def farPairs (fe : List (Nat × T)) : Multiset (T × Nat) := ↑(fe.map Prod.swap)

theorem mem_farPairs {fe : List (Nat × T)} {x : T × Nat} :
    x ∈ farPairs fe ↔ (x.2, x.1) ∈ fe := by
  rw [farPairs, Multiset.mem_coe, List.mem_map]
  constructor
  · rintro ⟨f, hf, rfl⟩
    exact hf
  · intro hx
    exact ⟨_, hx, rfl⟩

/-- The current block at which a far element of block `b` comes in. -/
def dueBlock (B b : Nat) : Nat := (b - B) / (B / 2) * (B / 2) + B / 2

structure Far (B : Nat) (cur : Nat) (fe : List (Nat × T)) : Prop where
  sorted : fe.Pairwise fun f g => f.1 ≤ g.1
  later : ∀ f ∈ fe, cur / (B / 2) * (B / 2) + B ≤ f.1 / 64
  due : ∀ f ∈ fe, dueBlock B (f.1 / 64) + B < 2 ^ 58

/-- The queue holds the pairs of `M`, those of `N` in its blocks. -/
structure Inv (B : Nat) (q : PrioQueue T) (N M : Multiset (T × Nat)) : Prop where
  split : M = N + farPairs q.feMap
  near : Near B q N
  far : Far B q.curBlock q.feMap
  nodup : (M.map Prod.fst).Nodup
  elems : q.elems = Multiset.card M
  lt : ∀ x ∈ M, x.2 < 2 ^ 64
  cur : q.curBlock < 2 ^ 58

theorem lt_half_add (hB : 2 ≤ B) (cur : Nat) : cur < cur / (B / 2) * (B / 2) + B := by
  have hm := Nat.mod_lt cur (show 0 < B / 2 by omega)
  have hd := Nat.div_add_mod cur (B / 2)
  rw [Nat.mul_comm] at hd
  omega

theorem Far.cur_lt {cur : Nat} {fe : List (Nat × T)} (h : Far B cur fe) (hB : 2 ≤ B)
    {f : Nat × T} (hf : f ∈ fe) : cur < f.1 / 64 :=
  Nat.lt_of_lt_of_le (lt_half_add hB cur) (h.later f hf)

namespace Inv

theorem near_mem (h : Inv B q N M) {x : T × Nat} (hx : x ∈ N) : x ∈ M := by
  rw [h.split]
  exact Multiset.mem_add.mpr (.inl hx)

theorem mem_cases (h : Inv B q N M) {x : T × Nat} (hx : x ∈ M) :
    x ∈ N ∨ (x.2, x.1) ∈ q.feMap := by
  rw [h.split, Multiset.mem_add, mem_farPairs] at hx
  exact hx

theorem cur_lt_of_empty (h : Inv B q N M) (hB : 2 ≤ B) (hocc : occAt B q q.curBlock = 0#64)
    {x : T × Nat} (hx : x ∈ M) : q.curBlock < x.2 / 64 := by
  rcases h.mem_cases hx with hx | hx
  · exact Nat.lt_of_le_of_ne (h.near.window x hx).1 (Ne.symm (h.near.block_ne hocc hx))
  · exact h.far.cur_lt hB hx

end Inv

theorem Near.advance (h : Near B q N) (hB : 0 < B) (hocc : occAt B q q.curBlock = 0#64) :
    Near B { q with curBlock := q.curBlock + 1 } N := by
  have hwin : ∀ c, InWindow B { q with curBlock := q.curBlock + 1 } c →
      InWindow B q c ∨ c / 64 = q.curBlock + B := by
    intro c hw
    obtain ⟨hle, hlt⟩ := hw
    simp only at hle hlt
    by_cases hc : c / 64 = q.curBlock + B
    · exact .inr hc
    · exact .inl ⟨by omega, by omega⟩
  -- the block that enters the window is the one that leaves it
  have hnew : ∀ c, c / 64 = q.curBlock + B →
      slot B q c = none ∧ (occAt B q (c / 64)).getLsbD (c % 64) = false := by
    intro c hc
    have hblk : c / 64 % B = q.curBlock % B := by rw [hc, Nat.add_mod_right]
    have hbit : (occAt B q (c / 64)).getLsbD (c % 64) = false := by
      rw [occAt, hblk, show (q.blocks (q.curBlock % B)).occ = 0#64 from hocc]
      simp
    refine ⟨?_, hbit⟩
    have hw : InWindow B q (q.curBlock * 64 + c % 64) := ⟨by omega, by omega⟩
    have hdiv : (q.curBlock * 64 + c % 64) / 64 = q.curBlock := by omega
    have hmod : (q.curBlock * 64 + c % 64) % 64 = c % 64 := by omega
    have hocc' := h.occ _ hw
    rw [slot, hdiv, hmod, hocc] at hocc'
    rw [slot, hblk]
    simpa using hocc'.symm
  constructor
  · exact h.nodup
  · intro x hx
    have hne := h.block_ne hocc hx
    obtain ⟨hle, hlt⟩ := h.window x hx
    exact ⟨by show q.curBlock + 1 ≤ _; omega, by show _ < q.curBlock + 1 + B; omega⟩
  · intro c hw
    rcases hwin c hw with hw | hc
    · exact h.linked c hw
    · refine ⟨[], (hnew c hc).1, List.nodup_nil, fun x => ?_⟩
      have hout : (x, c) ∉ N := by
        intro hx
        have := (h.window _ hx).2
        simp only at this
        omega
      simp [hout]
  · intro c hw
    rcases hwin c hw with hw | hc
    · exact h.occ c hw
    · show (occAt B q (c / 64)).getLsbD (c % 64) = (slot B q c).isSome
      rw [(hnew c hc).1, (hnew c hc).2]
      rfl
  · exact h.idle

/-- A far element comes in at a block whose top cycle does not wrap. -/
theorem Far.succ_le_dueBlock {cur : Nat} {fe : List (Nat × T)} (h : Far B cur fe) (hB : 2 ≤ B)
    {f : Nat × T} (hf : f ∈ fe) : cur + 1 ≤ dueBlock B (f.1 / 64) := by
  have hh : 0 < B / 2 := by omega
  have hlater := h.later f hf
  have hle : cur / (B / 2) ≤ (f.1 / 64 - B) / (B / 2) :=
    (Nat.le_div_iff_mul_le hh).mpr (by omega)
  have hmul := Nat.mul_le_mul_right (B / 2) hle
  have hm := Nat.mod_lt cur hh
  have hd := Nat.div_add_mod cur (B / 2)
  rw [Nat.mul_comm] at hd
  rw [dueBlock]
  omega

theorem div_succ_of_mod_ne {h cur : Nat} (hne : (cur + 1) % h ≠ 0) : (cur + 1) / h = cur / h := by
  rw [Nat.succ_div, if_neg fun hd => hne (Nat.mod_eq_zero_of_dvd hd), Nat.add_zero]

variable [DecidableEq T]

theorem pullIn_spec (top : Nat) {fe : List (Nat × T)} (hcur : q.curBlock + B < 2 ^ 64)
    (h : Near B q N) (hsorted : fe.Pairwise fun f g => f.1 ≤ g.1)
    (hwin : ∀ f ∈ fe, f.1 < top → InWindow B q f.1)
    (hnd : ((N + farPairs fe).map Prod.fst).Nodup) :
    ∃ q' N', pullIn B top fe q = some q' ∧ Near B q' N' ∧
      N' + farPairs q'.feMap = N + farPairs fe ∧ q'.feMap.Sublist fe ∧
      (∀ f ∈ q'.feMap, top ≤ f.1) ∧ q'.curBlock = q.curBlock ∧ q'.elems = q.elems := by
  induction fe generalizing q N with
  | nil =>
    exact ⟨{ q with feMap := [] }, N, rfl, ⟨h.nodup, h.window, h.linked, h.occ, h.idle⟩, rfl,
      List.Sublist.refl _, by simp, rfl, rfl⟩
  | cons f fe ih =>
    obtain ⟨cycle, obj⟩ := f
    obtain ⟨hhead, hsorted⟩ := List.pairwise_cons.mp hsorted
    by_cases htop : cycle < top
    · have hw := hwin _ List.mem_cons_self htop
      have hsplit : N + farPairs ((cycle, obj) :: fe) = (obj, cycle) ::ₘ N + farPairs fe := by
        rw [farPairs, List.map_cons, ← Multiset.cons_coe, Multiset.add_cons, Multiset.cons_add]
        rfl
      rw [hsplit] at hnd ⊢
      have hfresh : ∀ y ∈ N, y.1 ≠ obj := by
        intro y hy he
        rw [Multiset.cons_add, Multiset.map_cons, Multiset.nodup_cons] at hnd
        exact hnd.1 (Multiset.mem_map.mpr ⟨y, Multiset.mem_add.mpr (.inl hy), he⟩)
      obtain ⟨q₁, hplace, hnear, hc₁, hf₁, he₁⟩ := h.place hw hfresh
      obtain ⟨q', N', hpull, hnear', hsum, hsub, hge, hc', he'⟩ := ih (q := q₁)
        (by rw [hc₁]; exact hcur) hnear hsorted
        (fun g hg hlt => by
          obtain ⟨hle, hlt'⟩ := hwin g (List.mem_cons_of_mem _ hg) hlt
          exact ⟨by rw [hc₁]; exact hle, by rw [hc₁]; exact hlt'⟩) hnd
      refine ⟨q', N', ?_, hnear', hsum, hsub.cons _, hge, by rw [hc', hc₁], by rw [he', he₁]⟩
      have hguard : q.curBlock ≤ cycle / 64 ∧ cycle / 64 < (q.curBlock + B) % 2 ^ 64 := by
        rw [Nat.mod_eq_of_lt hcur]
        exact hw
      simp only [pullIn, htop, if_true]
      rw [if_pos hguard, hplace, Option.bind_some]
      exact hpull
    · refine ⟨{ q with feMap := (cycle, obj) :: fe }, N, by simp only [pullIn, htop, if_false],
        ⟨h.nodup, h.window, h.linked, h.occ, h.idle⟩, rfl, List.Sublist.refl _, ?_, rfl, rfl⟩
      intro g hg
      rcases List.mem_cons.mp hg with rfl | hg
      · exact Nat.le_of_not_lt htop
      · exact (Nat.le_of_not_lt htop).trans (hhead g hg)

theorem Inv.turn (h : Inv B q N M) (hB : 2 ≤ B) (hB' : B < 2 ^ 32) (hM : M ≠ 0)
    (hocc : occAt B q q.curBlock = 0#64) :
    ∃ q' N', turn B q = some q' ∧ Inv B q' N' M ∧ q'.curBlock = q.curBlock + 1 := by
  set q₁ : PrioQueue T := { q with curBlock := q.curBlock + 1 } with hq₁
  obtain ⟨x, hx⟩ := Multiset.exists_mem_of_ne_zero hM
  have hcur : q.curBlock + 1 < 2 ^ 58 := by
    have := h.cur_lt_of_empty hB hocc hx
    have := h.lt x hx
    omega
  have hnear : Near B q₁ N := h.near.advance (by omega) hocc
  have hwrap : (q.curBlock + 1) % 2 ^ 64 = q.curBlock + 1 := Nat.mod_eq_of_lt (by omega)
  by_cases hpull : (q.curBlock + 1) % (B / 2) = 0 ∧ q.feMap ≠ []
  · obtain ⟨hmod, hne⟩ := hpull
    obtain ⟨f, hf⟩ := List.exists_mem_of_ne_nil _ hne
    have hdue := h.far.due f hf
    have hsucc := h.far.succ_le_dueBlock hB hf
    have htop : topCycle B q₁ = (q.curBlock + 1 + B) * 64 := by
      simp only [topCycle, hq₁]
      rw [Nat.mod_eq_of_lt (by omega), Nat.mod_eq_of_lt (by omega)]
    have hbase : (q.curBlock + 1) / (B / 2) * (B / 2) = q.curBlock + 1 := by
      have := Nat.div_add_mod (q.curBlock + 1) (B / 2)
      rwa [hmod, Nat.add_zero, Nat.mul_comm] at this
    obtain ⟨q', N', hq', hnear', hsum, hsub, hge, hc', he'⟩ :=
      pullIn_spec (topCycle B q₁)
        (by show q.curBlock + 1 + B < 2 ^ 64; omega) hnear h.far.sorted
        (fun g hg hlt => by
          have := h.far.cur_lt hB hg
          rw [htop] at hlt
          exact ⟨by show q.curBlock + 1 ≤ _; omega, by show _ < q.curBlock + 1 + B; omega⟩)
        (by rw [← h.split]; exact h.nodup)
    have hcq : q'.curBlock = q.curBlock + 1 := hc'
    refine ⟨q', N', ?_, ?_, hcq⟩
    · simp only [PrioQueue.turn, hwrap]
      rw [if_pos ⟨hmod, hne⟩]
      exact hq'
    · constructor
      · rw [hsum, h.split]
      · exact hnear'
      · rw [hcq]
        constructor
        · exact h.far.sorted.sublist hsub
        · intro g hg
          have := hge g hg
          rw [htop] at this
          rw [hbase]
          omega
        · exact fun g hg => h.far.due g (hsub.subset hg)
      · exact h.nodup
      · rw [he']
        exact h.elems
      · exact h.lt
      · rw [hcq]
        exact hcur
  · refine ⟨q₁, N, ?_, ?_, rfl⟩
    · simp only [PrioQueue.turn, hwrap]
      rw [if_neg hpull]
    · constructor
      · exact h.split
      · exact hnear
      · constructor
        · exact h.far.sorted
        · intro g hg
          show (q.curBlock + 1) / (B / 2) * (B / 2) + B ≤ g.1 / 64
          have hne : q.feMap ≠ [] := List.ne_nil_of_mem hg
          rw [div_succ_of_mod_ne fun hm => hpull ⟨hm, hne⟩]
          exact h.far.later g hg
        · exact h.far.due
      · exact h.nodup
      · exact h.elems
      · exact h.lt
      · exact hcur

inductive Turns (B : Nat) (q : PrioQueue T) : PrioQueue T → Prop
  | refl : Turns B q q
  | tail {q₁ q₂} : Turns B q q₁ → occAt B q₁ q₁.curBlock = 0#64 → turn B q₁ = some q₂ →
      Turns B q q₂

theorem Turns.inv (ht : Turns B q q') (h : Inv B q N M) (hB : 2 ≤ B) (hB' : B < 2 ^ 32)
    (hM : M ≠ 0) : ∃ N', Inv B q' N' M := by
  induction ht with
  | refl => exact ⟨N, h⟩
  | tail _ hocc hturn ih =>
    obtain ⟨N₁, h₁⟩ := ih
    obtain ⟨q₂, N₂, hq₂, h₂, -⟩ := h₁.turn hB hB' hM hocc
    rw [hturn] at hq₂
    cases hq₂
    exact ⟨N₂, h₂⟩

/-- The search ends at a populated block, at the latest at that of a pending pair. -/
theorem Inv.search (h : Inv B q N M) (hB : 2 ≤ B) (hB' : B < 2 ^ 32) {x : T × Nat} (hx : x ∈ M) :
    ∃ q' N', (∀ k, x.2 / 64 - q.curBlock < k → search B k q = some q') ∧ Inv B q' N' M ∧
      occAt B q' q'.curBlock ≠ 0#64 := by
  induction hd : x.2 / 64 - q.curBlock generalizing q N with
  | zero =>
    have hocc : occAt B q q.curBlock ≠ 0#64 := by
      intro hocc
      have := h.cur_lt_of_empty hB hocc hx
      omega
    refine ⟨q, N, fun k hk => ?_, h, hocc⟩
    obtain ⟨k, rfl⟩ := Nat.exists_eq_add_of_lt hk
    simp only [Nat.zero_add, PrioQueue.search]
    rw [if_neg hocc]
  | succ d ih =>
    by_cases hocc : occAt B q q.curBlock = 0#64
    · obtain ⟨q₁, N₁, hturn, h₁, hc₁⟩ := h.turn hB hB'
        (fun h0 => Multiset.notMem_zero x (h0 ▸ hx)) hocc
      obtain ⟨q', N', hk, hinv, hne⟩ := ih h₁ (by omega)
      refine ⟨q', N', fun k hlt => ?_, hinv, hne⟩
      cases k with
      | zero => omega
      | succ k =>
        rw [PrioQueue.search, if_pos hocc, hturn, Option.bind_some]
        exact hk k (by omega)
    · refine ⟨q, N, fun k hlt => ?_, h, hocc⟩
      cases k with
      | zero => omega
      | succ k => rw [PrioQueue.search, if_neg hocc]

end PrioQueue

end ZSim
