import ZSim.PrioQueueSearch

/-! Runs of a priority queue against the multiset of the pairs enqueued and not yet
dequeued. The search compares against a top cycle computed in 64 bits, so the runs are
those whose far elements come in before it wraps. -/

namespace ZSim

namespace PrioQueue

variable {T : Type} {B : Nat} {q q' : PrioQueue T} {N M : Multiset (T × Nat)}

/-- `c` is the first cycle pending. -/
def IsFirst (M : Multiset (T × Nat)) (c : Nat) : Prop :=
  (∃ x ∈ M, x.2 = c) ∧ ∀ x ∈ M, c ≤ x.2

theorem mem_feInsert {x y : Nat × T} {fe : List (Nat × T)} :
    y ∈ feInsert x fe ↔ y = x ∨ y ∈ fe := by
  induction fe with
  | nil => simp [feInsert]
  | cons z fe ih =>
    rw [feInsert]
    split
    · rw [List.mem_cons]
    · rw [List.mem_cons, ih, List.mem_cons]
      exact or_left_comm

theorem feInsert_perm (x : Nat × T) (fe : List (Nat × T)) : (feInsert x fe).Perm (x :: fe) := by
  induction fe with
  | nil => exact List.Perm.refl _
  | cons z fe ih =>
    rw [feInsert]
    split
    · exact List.Perm.refl _
    · exact (ih.cons z).trans (List.Perm.swap x z fe)

theorem feInsert_sorted (x : Nat × T) {fe : List (Nat × T)}
    (h : fe.Pairwise fun f g => f.1 ≤ g.1) : (feInsert x fe).Pairwise fun f g => f.1 ≤ g.1 := by
  induction fe with
  | nil => simp [feInsert]
  | cons z fe ih =>
    obtain ⟨hz, hfe⟩ := List.pairwise_cons.mp h
    rw [feInsert]
    by_cases hlt : x.1 < z.1
    · rw [if_pos hlt]
      refine List.pairwise_cons.mpr ⟨fun y hy => ?_, h⟩
      rcases List.mem_cons.mp hy with rfl | hy
      · exact hlt.le
      · exact hlt.le.trans (hz y hy)
    · rw [if_neg hlt]
      refine List.pairwise_cons.mpr ⟨fun y hy => ?_, ih hfe⟩
      rcases mem_feInsert.mp hy with rfl | hy
      · exact Nat.le_of_not_lt hlt
      · exact hz y hy

theorem farPairs_feInsert (obj : T) (cycle : Nat) (fe : List (Nat × T)) :
    farPairs (feInsert (cycle, obj) fe) = (obj, cycle) ::ₘ farPairs fe :=
  Multiset.coe_eq_coe.mpr ((feInsert_perm (cycle, obj) fe).map Prod.swap)

/-- What decides where an enqueued object goes, and that a far one comes in before the
top cycle wraps. -/
def InTime (B : Nat) (q : PrioQueue T) (cycle : Nat) : Prop :=
  cycle / 64 < q.curBlock + B ∨ dueBlock B (cycle / 64) + B < 2 ^ 58

/-- The lowest bit of the first populated block is the first cycle of the window. -/
theorem Near.isFirst (h : Near B q N) {i : Nat} (hi : i < B)
    (hocc : occAt B q (q.curBlock + i) ≠ 0#64)
    (hempty : ∀ j < i, occAt B q (q.curBlock + j) = 0#64) :
    IsFirst N ((q.curBlock + i) * 64 + ctz (occAt B q (q.curBlock + i))) := by
  obtain ⟨⟨x, hx⟩, hmin⟩ := h.block_first (by omega) (by omega) hocc
  refine ⟨⟨_, hx, rfl⟩, fun y hy => hmin y hy ?_⟩
  by_contra hlt
  obtain ⟨hle, -⟩ := h.window y hy
  refine h.block_ne (hempty (y.2 / 64 - q.curBlock) (by omega)) hy ?_
  omega

theorem Near.empty (h : Near B q N) (hempty : ∀ j < B, occAt B q (q.curBlock + j) = 0#64)
    (x : T × Nat) : x ∉ N := by
  intro hx
  obtain ⟨hle, hlt⟩ := h.window x hx
  exact h.block_ne (hempty (x.2 / 64 - q.curBlock) (by omega)) hx (by omega)

namespace Inv

theorem far_mem (h : Inv B q N M) {f : Nat × T} (hf : f ∈ q.feMap) : (f.2, f.1) ∈ M := by
  rw [h.split, Multiset.mem_add, mem_farPairs]
  exact .inr hf

/-- Nothing far comes before a block of the first half of the window. -/
theorem isFirst_of_half (h : Inv B q N M) (hB : 2 ≤ B) {c : Nat} (hc : IsFirst N c)
    (hhalf : c / 64 < q.curBlock + B / 2) : IsFirst M c := by
  obtain ⟨⟨x, hx, he⟩, hmin⟩ := hc
  refine ⟨⟨x, h.near_mem hx, he⟩, fun y hy => ?_⟩
  rcases h.mem_cases hy with hN | hfar
  · exact hmin y hN
  · have hlater := h.far.later _ hfar
    have hm := Nat.mod_lt q.curBlock (show 0 < B / 2 by omega)
    have hd := Nat.div_add_mod q.curBlock (B / 2)
    rw [Nat.mul_comm] at hd
    simp only at hlater
    omega

theorem head_le (h : Inv B q N M) {f : Nat × T} {fe : List (Nat × T)} (hfe : q.feMap = f :: fe)
    {x : T × Nat} (hx : (x.2, x.1) ∈ q.feMap) : f.1 ≤ x.2 := by
  have hsorted := h.far.sorted
  rw [hfe] at hx hsorted
  rcases List.mem_cons.mp hx with he | hx
  · rw [← he]
  · exact (List.pairwise_cons.mp hsorted).1 _ hx

theorem isFirst_of_feMap_nil (h : Inv B q N M) (hfe : q.feMap = []) {c : Nat}
    (hc : IsFirst N c) : IsFirst M c := by
  have hM : M = N := by
    rw [h.split, hfe]
    exact Multiset.add_zero N
  rwa [hM]

theorem isFirst_min (h : Inv B q N M) {f : Nat × T} {fe : List (Nat × T)}
    (hfe : q.feMap = f :: fe) {c : Nat} (hc : IsFirst N c) : IsFirst M (min c f.1) := by
  obtain ⟨⟨x, hx, he⟩, hmin⟩ := hc
  have hf : f ∈ q.feMap := by
    rw [hfe]
    exact List.mem_cons_self
  constructor
  · rcases Nat.le_total c f.1 with hle | hle
    · exact ⟨x, h.near_mem hx, by rw [Nat.min_eq_left hle, he]⟩
    · exact ⟨_, h.far_mem hf, (Nat.min_eq_right hle).symm⟩
  · intro y hy
    rcases h.mem_cases hy with hN | hfar
    · exact (Nat.min_le_left _ _).trans (hmin y hN)
    · exact (Nat.min_le_right _ _).trans (h.head_le hfe hfar)

theorem isFirst_far (h : Inv B q N M) {f : Nat × T} {fe : List (Nat × T)}
    (hfe : q.feMap = f :: fe) (hN : ∀ x, x ∉ N) : IsFirst M f.1 := by
  refine ⟨⟨_, h.far_mem (f := f) (by rw [hfe]; exact List.mem_cons_self), rfl⟩, fun y hy => ?_⟩
  exact h.head_le hfe ((h.mem_cases hy).resolve_left (hN y))

theorem wrap_eq (h : Inv B q N M) {c : Nat} (hc : IsFirst N c) : c % 2 ^ 64 = c := by
  obtain ⟨⟨x, hx, rfl⟩, -⟩ := hc
  exact Nat.mod_eq_of_lt (h.lt x (h.near_mem hx))

theorem elems_ne_zero (h : Inv B q N M) (hM : M ≠ 0) : q.elems ≠ 0 := by
  rw [h.elems]
  exact fun h0 => hM (Multiset.card_eq_zero.mp h0)

theorem firstCycle (h : Inv B q N M) (hB : 2 ≤ B) (hM : M ≠ 0) :
    ∃ c, firstCycle B q = some c ∧ IsFirst M c := by
  rw [PrioQueue.firstCycle, if_neg (h.elems_ne_zero hM)]
  cases hfirst : (List.range (B / 2)).find? fun i => occAt B q (q.curBlock + i) != 0#64 with
  | some i =>
    rw [List.find?_range_eq_some] at hfirst
    obtain ⟨hocc, hi, hempty⟩ := hfirst
    have hilt := List.mem_range.mp hi
    have hocc' : occAt B q (q.curBlock + i) ≠ 0#64 := by simpa using hocc
    have hf := h.near.isFirst (i := i) (by omega) hocc' (by simpa using hempty)
    have hpos := (ctz_spec hocc').1
    refine ⟨_, rfl, ?_⟩
    rw [cycleAt, h.wrap_eq hf]
    exact h.isFirst_of_half hB hf (by omega)
  | none =>
    have hnone : ∀ j < B / 2, occAt B q (q.curBlock + j) = 0#64 := fun j hj => by
      simpa using List.find?_eq_none.mp hfirst j (List.mem_range.mpr hj)
    cases hsecond : (List.range' (B / 2) (B - B / 2)).find? fun i =>
        occAt B q (q.curBlock + i) != 0#64 with
    | some i =>
      rw [List.find?_range'_eq_some] at hsecond
      obtain ⟨hocc, hi, hempty⟩ := hsecond
      rw [List.mem_range'_1] at hi
      have hf := h.near.isFirst (i := i) (by omega) (by simpa using hocc) fun j hj => by
        by_cases hj' : j < B / 2
        · exact hnone j hj'
        · simpa using hempty j (by omega) hj
      cases hfe : q.feMap with
      | nil =>
        refine ⟨_, rfl, ?_⟩
        rw [cycleAt, h.wrap_eq hf]
        exact h.isFirst_of_feMap_nil hfe hf
      | cons f fe =>
        refine ⟨_, rfl, ?_⟩
        rw [cycleAt, h.wrap_eq hf]
        exact h.isFirst_min hfe hf
    | none =>
      have hN := h.near.empty fun j hj => by
        by_cases hj' : j < B / 2
        · exact hnone j hj'
        · simpa using List.find?_eq_none.mp hsecond j (List.mem_range'_1.mpr (by omega))
      cases hfe : q.feMap with
      | nil =>
        obtain ⟨x, hx⟩ := Multiset.exists_mem_of_ne_zero hM
        have hfar := (h.mem_cases hx).resolve_left (hN x)
        rw [hfe] at hfar
        exact absurd hfar List.not_mem_nil
      | cons f fe => exact ⟨f.1, rfl, h.isFirst_far hfe hN⟩

end Inv

variable [DecidableEq T]

theorem Inv.enqueue_isSome (h : Inv B q N M) (hB' : B < 2 ^ 32) {obj : T} {cycle : Nat}
    (hle : q.curBlock ≤ cycle / 64) (hfresh : ∀ x ∈ M, x.1 ≠ obj) :
    ∃ q', enqueue B q obj cycle = some q' := by
  have hcur := h.cur
  rw [enqueue, if_neg (Nat.not_lt.mpr hle), Nat.mod_eq_of_lt (by omega)]
  by_cases hlt : cycle / 64 < q.curBlock + B
  · obtain ⟨q', hq', -⟩ := h.near.place ⟨hle, hlt⟩ fun y hy => hfresh y (h.near_mem hy)
    exact ⟨_, by rw [if_pos hlt, hq', Option.map_some]⟩
  · exact ⟨_, if_neg hlt⟩

theorem Inv.enqueue (h : Inv B q N M) (hB' : B < 2 ^ 32) {obj : T} {cycle : Nat}
    (hcycle : cycle < 2 ^ 64) (hle : q.curBlock ≤ cycle / 64) (hfresh : ∀ x ∈ M, x.1 ≠ obj)
    (hin : InTime B q cycle) (hq : enqueue B q obj cycle = some q') :
    ∃ N', Inv B q' N' ((obj, cycle) ::ₘ M) := by
  have hcur := h.cur
  have hnodup : (((obj, cycle) ::ₘ M).map Prod.fst).Nodup := by
    rw [Multiset.map_cons, Multiset.nodup_cons]
    refine ⟨fun hmem => ?_, h.nodup⟩
    obtain ⟨y, hy, he⟩ := Multiset.mem_map.mp hmem
    exact hfresh y hy he
  have hlt' : ∀ x ∈ (obj, cycle) ::ₘ M, x.2 < 2 ^ 64 := by
    intro x hx
    rcases Multiset.mem_cons.mp hx with rfl | hx
    · exact hcycle
    · exact h.lt x hx
  rw [PrioQueue.enqueue, if_neg (Nat.not_lt.mpr hle), Nat.mod_eq_of_lt (by omega)] at hq
  by_cases hlt : cycle / 64 < q.curBlock + B
  · obtain ⟨q₁, hq₁, hnear, hc₁, hf₁, he₁⟩ :=
      h.near.place ⟨hle, hlt⟩ fun y hy => hfresh y (h.near_mem hy)
    rw [if_pos hlt, hq₁, Option.map_some, Option.some.injEq] at hq
    subst hq
    refine ⟨(obj, cycle) ::ₘ N, ?_⟩
    constructor
    · show _ = _ + farPairs q₁.feMap
      rw [hf₁, Multiset.cons_add, h.split]
    · exact ⟨hnear.nodup, hnear.window, hnear.linked, hnear.occ, hnear.idle⟩
    · show Far B q₁.curBlock q₁.feMap
      rw [hc₁, hf₁]
      exact h.far
    · exact hnodup
    · show q₁.elems + 1 = _
      rw [he₁, h.elems, Multiset.card_cons]
    · exact hlt'
    · show q₁.curBlock < _
      rw [hc₁]
      exact h.cur
  · rw [if_neg hlt, Option.some.injEq] at hq
    subst hq
    refine ⟨N, ?_⟩
    constructor
    · show _ = N + farPairs (feInsert (cycle, obj) q.feMap)
      rw [farPairs_feInsert, Multiset.add_cons, h.split]
    · exact ⟨h.near.nodup, h.near.window, h.near.linked, h.near.occ, h.near.idle⟩
    · constructor
      · exact feInsert_sorted _ h.far.sorted
      · intro f hf
        rcases mem_feInsert.mp hf with rfl | hf
        · have := Nat.div_mul_le_self q.curBlock (B / 2)
          show q.curBlock / (B / 2) * (B / 2) + B ≤ cycle / 64
          omega
        · exact h.far.later f hf
      · intro f hf
        rcases mem_feInsert.mp hf with rfl | hf
        · exact hin.resolve_left hlt
        · exact h.far.due f hf
    · exact hnodup
    · show q.elems + 1 = _
      rw [h.elems, Multiset.card_cons]
    · exact hlt'
    · exact h.cur

/-- `dequeue` ends, and takes out a pair of the first cycle pending. -/
theorem Inv.dequeue (h : Inv B q N M) (hB : 2 ≤ B) (hB' : B < 2 ^ 32) (hM : M ≠ 0) :
    ∃ obj c q' N' k₀, (∀ k, k₀ ≤ k → dequeue B k q = some (obj, c, q')) ∧ (obj, c) ∈ M ∧
      IsFirst M c ∧ Inv B q' N' (M.erase (obj, c)) := by
  obtain ⟨x, hx⟩ := Multiset.exists_mem_of_ne_zero hM
  obtain ⟨q₁, N₁, hk, h₁, hocc⟩ := h.search hB hB' hx
  obtain ⟨obj, c, q', htake, hmem, hmin, hnear, hc', hf', he'⟩ :=
    h₁.near.take (by omega) hocc fun y hy => h₁.lt y (h₁.near_mem hy)
  have hM₁ := h₁.near_mem hmem
  have hfirst : ∀ y ∈ M, c ≤ y.2 := by
    intro y hy
    rcases h₁.mem_cases hy with hN | hfar
    · exact hmin y hN
    · have := h₁.far.cur_lt hB hfar
      have hw := h₁.near.block_first (Nat.le_refl _) (by omega) hocc
      obtain ⟨⟨z, hz⟩, -⟩ := hw
      have hcz := hmin _ hz
      have hpos := (ctz_spec hocc).1
      simp only at this hcz
      omega
  refine ⟨obj, c, q', N₁.erase (obj, c), x.2 / 64 - q.curBlock + 1, fun k hle => ?_, hM₁,
    ⟨⟨_, hM₁, rfl⟩, hfirst⟩, ?_⟩
  · rw [PrioQueue.dequeue, if_neg (h.elems_ne_zero hM), hk k (by omega), Option.bind_some]
    exact htake
  · constructor
    · rw [hf', h₁.split, Multiset.erase_add_left_pos _ hmem]
    · exact hnear
    · rw [hc', hf']
      exact h₁.far
    · exact Multiset.nodup_of_le (Multiset.map_le_map (Multiset.erase_le _ _)) h.nodup
    · rw [he', h₁.elems, Multiset.card_erase_of_mem hM₁]
      rfl
    · exact fun y hy => h.lt y (Multiset.mem_of_mem_erase hy)
    · rw [hc']
      exact h₁.cur

inductive Op (T : Type)
  | enqueue (obj : T) (cycle : Nat)
  | dequeue

/-- A queue with what is pending in it and how often each operation was called. -/
structure Run (T : Type) where
  q : PrioQueue T
  pending : Multiset (T × Nat)
  enqueues : Nat
  dequeues : Nat

/-- The callers' part: the cycle is not in the past, the object is not in the queue, and
`dequeue` is not called on an empty queue. -/
def Enabled (s : Run T) : Op T → Prop
  | .enqueue obj cycle =>
    cycle < 2 ^ 64 ∧ s.q.curBlock ≤ cycle / 64 ∧ ∀ x ∈ s.pending, x.1 ≠ obj
  | .dequeue => s.pending ≠ 0

def Meets (B : Nat) (s : Run T) : Op T → Prop
  | .enqueue _ cycle => InTime B s.q cycle
  | .dequeue => True

inductive Step (B : Nat) (s : Run T) : Op T → Run T → Prop
  | enqueue {obj cycle q'} : enqueue B s.q obj cycle = some q' →
      Step B s (.enqueue obj cycle)
        ⟨q', (obj, cycle) ::ₘ s.pending, s.enqueues + 1, s.dequeues⟩
  | dequeue {k obj cycle q'} : dequeue B k s.q = some (obj, cycle, q') →
      Step B s .dequeue
        ⟨q', s.pending.filter fun x => x.1 ≠ obj, s.enqueues, s.dequeues + 1⟩

inductive Reachable (B : Nat) : Run T → Prop
  | init : Reachable B ⟨init, 0, 0, 0⟩
  | step {s s'} (op) : Reachable B s → Enabled s op → Meets B s op → Step B s op s' →
      Reachable B s'

omit [DecidableEq T] in
theorem Inv.init (B : Nat) : Inv B (init : PrioQueue T) 0 0 := by
  constructor
  · rfl
  · constructor
    · exact Multiset.nodup_zero
    · exact fun x hx => absurd hx (Multiset.notMem_zero x)
    · exact fun c _ => ⟨[], rfl, List.nodup_nil, by simp⟩
    · intro c _
      simp [occAt, slot, PrioQueue.init, PQBlock.init]
    · exact fun _ _ => rfl
  · exact ⟨List.Pairwise.nil, by simp [PrioQueue.init], by simp [PrioQueue.init]⟩
  · exact Multiset.nodup_zero
  · rfl
  · exact fun x hx => absurd hx (Multiset.notMem_zero x)
  · exact Nat.two_pow_pos 58

/-- Objects are queued once, so leaving one out is taking out its pair. -/
theorem filter_eq_erase (hnd : (M.map Prod.fst).Nodup) {obj : T} {c : Nat} (hmem : (obj, c) ∈ M) :
    M.filter (fun x => x.1 ≠ obj) = M.erase (obj, c) := by
  have hM : M.Nodup := Multiset.Nodup.of_map _ hnd
  apply ((hM.filter _).ext (hM.erase _)).mpr
  intro x
  rw [Multiset.mem_filter, hM.mem_erase_iff]
  constructor
  · rintro ⟨hx, hne⟩
    exact ⟨fun he => hne (congrArg Prod.fst he), hx⟩
  · rintro ⟨hne, hx⟩
    exact ⟨hx, fun he => hne (fst_inj hnd hx hmem he)⟩

theorem search_le {k j : Nat} (hk : search B k q = some q') (hj : k ≤ j) :
    search B j q = some q' := by
  induction k generalizing q j with
  | zero => cases hk
  | succ k ih =>
    obtain ⟨j, rfl⟩ : ∃ i, j = i + 1 := ⟨j - 1, by omega⟩
    rw [search] at hk ⊢
    by_cases hocc : occAt B q q.curBlock = 0#64
    · rw [if_pos hocc] at hk ⊢
      obtain ⟨q₁, hturn, hk⟩ := Option.bind_eq_some_iff.mp hk
      rw [hturn, Option.bind_some]
      exact ih hk (by omega)
    · rw [if_neg hocc] at hk ⊢
      exact hk

theorem dequeue_le {k j : Nat} {r : T × Nat × PrioQueue T} (hr : dequeue B k q = some r)
    (hj : k ≤ j) : dequeue B j q = some r := by
  rw [dequeue] at hr ⊢
  by_cases he : q.elems = 0
  · rw [if_pos he] at hr
    cases hr
  · rw [if_neg he] at hr ⊢
    obtain ⟨q₁, hsearch, htake⟩ := Option.bind_eq_some_iff.mp hr
    rw [search_le hsearch hj, Option.bind_some]
    exact htake

/-- What holds in every reachable state of a run. -/
def RunInv (B : Nat) (s : Run T) : Prop :=
  (∃ N, Inv B s.q N s.pending) ∧ s.q.elems + s.dequeues = s.enqueues

theorem RunInv.step (hB : 2 ≤ B) (hB' : B < 2 ^ 32) {s s' : Run T} {op : Op T}
    (h : RunInv B s) (hen : Enabled s op) (hmeets : Meets B s op) (hs : Step B s op s') :
    RunInv B s' := by
  obtain ⟨⟨N, hinv⟩, hcount⟩ := h
  cases hs with
  | enqueue hq =>
    obtain ⟨hcycle, hle, hfresh⟩ := hen
    obtain ⟨N', hinv'⟩ := hinv.enqueue hB' hcycle hle hfresh hmeets hq
    refine ⟨⟨N', hinv'⟩, ?_⟩
    have he := hinv.elems
    have he' := hinv'.elems
    rw [Multiset.card_cons] at he'
    simp only at he' ⊢
    omega
  | @dequeue k obj cycle q' hq =>
    obtain ⟨obj', c, q₁, N', k₀, hk, hmem, -, hinv'⟩ := hinv.dequeue hB hB' hen
    have heq := dequeue_le hq (Nat.le_max_left k k₀)
    rw [hk _ (Nat.le_max_right k k₀)] at heq
    cases heq
    refine ⟨⟨N', ?_⟩, ?_⟩
    · show Inv B q' N' (s.pending.filter fun x => x.1 ≠ obj)
      rw [filter_eq_erase hinv.nodup hmem]
      exact hinv'
    · have he := hinv.elems
      have he' := hinv'.elems
      have hpos := Multiset.card_pos_iff_exists_mem.mpr ⟨_, hmem⟩
      rw [Multiset.card_erase_of_mem hmem] at he'
      simp only [Nat.pred_eq_sub_one] at he' ⊢
      omega

theorem Reachable.inv (hB : 2 ≤ B) (hB' : B < 2 ^ 32) {s : Run T} (h : Reachable B s) :
    RunInv B s := by
  induction h with
  | init => exact ⟨⟨0, Inv.init B⟩, rfl⟩
  | step _ _ hen hmeets hs ih => exact ih.step hB hB' hen hmeets hs

/-- In every run whose enqueues come in time, the queue is the multiset of what is
pending: no assert fails, `firstCycle` and `dequeue` end with the first cycle pending,
`dequeue` takes out exactly one pair, and while it searches every far element is still
ahead of the current block. -/
theorem reachable_refines_multiset (hB : 2 ≤ B) (hB' : B < 2 ^ 32) {s : Run T}
    (h : Reachable B s) :
    size s.q = Multiset.card s.pending ∧ size s.q + s.dequeues = s.enqueues ∧
    (∀ obj cycle, Enabled s (.enqueue obj cycle) →
      ∃ s', Step B s (.enqueue obj cycle) s') ∧
    (Enabled s .dequeue →
      (∃ c, firstCycle B s.q = some c ∧ IsFirst s.pending c) ∧
      (∃ obj c q' k₀, (∀ k, k₀ ≤ k → dequeue B k s.q = some (obj, c, q')) ∧
        (obj, c) ∈ s.pending ∧ IsFirst s.pending c ∧
        s.pending.filter (fun x => x.1 ≠ obj) = s.pending.erase (obj, c)) ∧
      ∀ q', Turns B s.q q' → ∀ f ∈ q'.feMap, q'.curBlock < f.1 / 64) := by
  obtain ⟨⟨N, hinv⟩, hcount⟩ := h.inv hB hB'
  refine ⟨hinv.elems, hcount, ?_, ?_⟩
  · rintro obj cycle ⟨-, hle, hfresh⟩
    obtain ⟨q', hq'⟩ := hinv.enqueue_isSome hB' hle hfresh
    exact ⟨_, .enqueue hq'⟩
  · intro hne
    refine ⟨hinv.firstCycle hB hne, ?_, ?_⟩
    · obtain ⟨obj, c, q', -, k₀, hk, hmem, hfirst, -⟩ := hinv.dequeue hB hB' hne
      exact ⟨obj, c, q', k₀, hk, hmem, hfirst, filter_eq_erase hinv.nodup hmem⟩
    · intro q' ht f hf
      obtain ⟨N', hinv'⟩ := ht.inv hinv hB hB' hne
      exact hinv'.far.cur_lt hB hf

/-- One far element and one near one. -/
theorem reachable_refines_multiset_far :
    ∃ s : Run Bool, size s.q = 2 ∧ firstCycle 2 s.q = some 70 ∧ IsFirst s.pending 70 := by
  have h₁ := Reachable.step (.enqueue true 1000) (Reachable.init (B := 2))
    ⟨by decide, by decide, by simp⟩ (.inr (by decide)) (.enqueue rfl)
  have h₂ := h₁.step (.enqueue false 70)
    ⟨by decide, by decide, by simp⟩ (.inl (by decide)) (.enqueue rfl)
  obtain ⟨hsize, -, -, hdeq⟩ := reachable_refines_multiset (by decide) (by decide) h₂
  obtain ⟨⟨c, hc, hfirst⟩, -⟩ := hdeq (by simp [Enabled])
  have hc' : c = 70 := Option.some.inj (hc.symm.trans (by rfl))
  subst hc'
  exact ⟨_, hsize, hc, hfirst⟩

/-- Nothing in the blocks and one far element of the last cycle. -/
def Stuck (q : PrioQueue Unit) : Prop :=
  (∀ i, (q.blocks i).occ = 0#64) ∧ q.feMap = [(2 ^ 64 - 1, ())]

theorem Stuck.turn {B : Nat} {q : PrioQueue Unit} (h : Stuck q) :
    ∃ q', turn B q = some q' ∧ Stuck q' := by
  obtain ⟨hocc, hfe⟩ := h
  have htop : ∀ n, ¬ 2 ^ 64 - 1 < n * 64 % 2 ^ 64 := fun n => by omega
  rw [PrioQueue.turn]
  split
  · refine ⟨{ q with curBlock := (q.curBlock + 1) % 2 ^ 64 }, ?_, hocc, hfe⟩
    simp only [hfe, pullIn, topCycle, htop, if_false]
  · exact ⟨_, rfl, hocc, hfe⟩

theorem Stuck.search {B : Nat} {q : PrioQueue Unit} (h : Stuck q) (k : Nat) :
    search B k q = none := by
  induction k generalizing q with
  | zero => rfl
  | succ k ih =>
    obtain ⟨q', hturn, h'⟩ := h.turn (B := B)
    rw [PrioQueue.search, if_pos (show occAt B q q.curBlock = 0#64 from h.1 _), hturn,
      Option.bind_some]
    exact ih h'

/-- The top cycle of 64 bits never passes the last cycle, so the search for it goes on
forever. -/
theorem dequeue_never_returns :
    Enabled ⟨init, 0, 0, 0⟩ (.enqueue () (2 ^ 64 - 1)) ∧
    ∃ q, enqueue 2 init () (2 ^ 64 - 1) = some q ∧ size q = 1 ∧
      ∀ k, dequeue 2 k q = none := by
  refine ⟨⟨by decide, by decide, by simp⟩, _, rfl, rfl, fun k => ?_⟩
  rw [dequeue, if_neg (by decide), Stuck.search ⟨fun _ => rfl, rfl⟩ k]
  rfl

end PrioQueue

end ZSim
