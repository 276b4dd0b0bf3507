import ZSim.LRUVictim

/-! The tree-LRU policy. It inherits the interface of the array from sharers-aware LRU, so its own
search over the tree is not what chooses the victims. -/

namespace ZSim

/-- `candArray` is the part below `candIdx`. -/
structure TreeLRUReplPolicy where
  lru : LRUReplPolicy
  candArray : List Nat

namespace TreeLRUReplPolicy

def init : TreeLRUReplPolicy := ⟨.init, []⟩

def update (rp : TreeLRUReplPolicy) (id : Nat) : TreeLRUReplPolicy :=
  { rp with lru := rp.lru.update id }

/-- Bound to the `rank` of sharers-aware LRU. -/
def rankCands (cc : LineStates) (rp : TreeLRUReplPolicy) (cands : List Nat) : Nat :=
  LRUReplPolicy.rankCands true cc rp.lru cands

def recordCandidate (rp : TreeLRUReplPolicy) (id : Nat) : TreeLRUReplPolicy :=
  { rp with candArray := rp.candArray ++ [id] }

def replaced (rp : TreeLRUReplPolicy) (id : Nat) : TreeLRUReplPolicy :=
  ⟨rp.lru.replaced id, []⟩

def latest (time : Nat → Nat) (cands : List Nat) : Nat := cands.foldl (fun t c => max t (time c)) 0

/-- The loop of `getBestCandidate`, at most `fuel` rounds of it. -/
def bisect (time : Nat → Nat) (candArray : List Nat) : Nat → Nat → Nat → Nat
  | 0, start, _ => start
  | fuel + 1, start, stop =>
    if stop - start > 1 then
      let pivot := start + (stop - start) / 2
      let t1 := latest time ((candArray.take pivot).drop start)
      let t2 := latest time ((candArray.take stop).drop pivot)
      if t1 > t2 then bisect time candArray fuel pivot stop
      else bisect time candArray fuel start pivot
    else start

def getBestCandidate (numCands : Nat) (rp : TreeLRUReplPolicy) : Option Nat :=
  if rp.candArray.length = numCands then
    rp.candArray[bisect rp.lru.array rp.candArray numCands 0 numCands]?
  else none

def after : List LRUReplPolicy.Call → TreeLRUReplPolicy
  | [] => init
  | .update id :: calls => (after calls).update id
  | .replaced id :: calls => (after calls).replaced id

/-- The leaf of a tree with `k` levels that lies, at each of them, in the half whose last access is
older, in the left one on a tie. -/
def leaf (time : Nat → Nat) : Nat → List Nat → Option Nat
  | 0, cands => cands.head?
  | k + 1, cands =>
    if latest time (cands.take (2 ^ k)) > latest time (cands.drop (2 ^ k)) then
      leaf time k (cands.drop (2 ^ k))
    else leaf time k (cands.take (2 ^ k))

/-- On the way to the leaf the half taken has the least score too, and for the right half no tie. -/
def ScoresAgree (score time : Nat → Nat) : Nat → List Nat → Prop
  | 0, _ => True
  | k + 1, cands =>
    if latest time (cands.take (2 ^ k)) > latest time (cands.drop (2 ^ k)) then
      (∀ x ∈ cands.take (2 ^ k), ∃ y ∈ cands.drop (2 ^ k), score y < score x) ∧
        ScoresAgree score time k (cands.drop (2 ^ k))
    else
      (∀ y ∈ cands.drop (2 ^ k), ∃ x ∈ cands.take (2 ^ k), score x ≤ score y) ∧
        ScoresAgree score time k (cands.take (2 ^ k))

/-- The candidate the array gets is the leaf that the tree's search finds, and not the last one
accessed of several. -/
structure VictimIsLeaf (cc : LineStates) (rp : TreeLRUReplPolicy) (cands : List Nat) : Prop where
  leaf : (cands.foldl recordCandidate rp).getBestCandidate cands.length =
    some (rankCands cc rp cands)
  notLast : 2 ≤ cands.length → ∃ c ∈ cands, c ≠ rankCands cc rp cands ∧
    rp.lru.array (rankCands cc rp cands) ≤ rp.lru.array c

variable {score time : Nat → Nat} {k v : Nat} {cands : List Nat}

theorem le_latest {c : Nat} (h : c ∈ cands) : time c ≤ latest time cands := by
  induction cands using List.reverseRecOn with
  | nil => cases h
  | append_singleton cands x ih =>
    rw [latest, List.foldl_append, List.foldl_cons, List.foldl_nil]
    rcases List.mem_append.mp h with h | h
    · exact Nat.le_trans (ih h) (Nat.le_max_left _ _)
    · rw [List.mem_singleton.mp h]
      exact Nat.le_max_right _ _

theorem exists_ge {t : Nat} (hne : cands ≠ []) (h : t ≤ latest time cands) :
    ∃ c ∈ cands, t ≤ time c := by
  induction cands using List.reverseRecOn with
  | nil => exact absurd rfl hne
  | append_singleton cands x ih =>
    rw [latest, List.foldl_append, List.foldl_cons, List.foldl_nil] at h
    rcases le_max_iff.mp h with h | h
    · by_cases hnil : cands = []
      · rw [hnil] at h
        exact ⟨x, List.mem_append_right _ List.mem_cons_self, Nat.le_trans h (Nat.zero_le _)⟩
      · obtain ⟨c, hc, hle⟩ := ih hnil h
        exact ⟨c, List.mem_append_left _ hc, hle⟩
    · exact ⟨x, List.mem_append_right _ List.mem_cons_self, h⟩

theorem leaf_mem (h : leaf time k cands = some v) : v ∈ cands := by
  induction k generalizing cands with
  | zero => exact List.mem_of_mem_head? h
  | succ k ih =>
    rw [leaf] at h
    split at h
    · exact List.mem_of_mem_drop (ih h)
    · exact List.mem_of_mem_take (ih h)

theorem halves_length (h : cands.length = 2 ^ (k + 1)) :
    (cands.take (2 ^ k)).length = 2 ^ k ∧ (cands.drop (2 ^ k)).length = 2 ^ k := by
  rw [List.length_take, List.length_drop, h, Nat.pow_succ]
  omega

theorem ne_nil_of_length (h : cands.length = 2 ^ k) : cands ≠ [] := by
  have := Nat.two_pow_pos k
  intro hnil
  rw [hnil, List.length_nil] at h
  omega

theorem halves_disjoint (hnd : cands.Nodup) {n x y : Nat} (hx : x ∈ cands.take n)
    (hy : y ∈ cands.drop n) : x ≠ y := by
  rw [← List.take_append_drop n cands] at hnd
  exact (List.nodup_append.mp hnd).2.2 x hx y hy

/-- The first least score is at the leaf just when it goes with the older half at each level. -/
theorem argmin_eq_leaf (hlen : cands.length = 2 ^ k) (hnd : cands.Nodup) :
    cands.argmin score = leaf time k cands ↔ ScoresAgree score time k cands := by
  induction k generalizing cands with
  | zero =>
    obtain ⟨c, rfl⟩ := List.length_eq_one_iff.mp hlen
    exact iff_of_true rfl trivial
  | succ k ih =>
    have hhalf := halves_length hlen
    have hndl := hnd.sublist (List.take_sublist (2 ^ k) cands)
    have hndr := hnd.sublist (List.drop_sublist (2 ^ k) cands)
    obtain ⟨x, hx⟩ : ∃ x, (cands.take (2 ^ k)).argmin score = some x :=
      Option.ne_none_iff_exists'.mp
        (mt List.argmin_eq_none.mp (ne_nil_of_length hhalf.1))
    obtain ⟨y, hy⟩ : ∃ y, (cands.drop (2 ^ k)).argmin score = some y :=
      Option.ne_none_iff_exists'.mp
        (mt List.argmin_eq_none.mp (ne_nil_of_length hhalf.2))
    have happ := FirstBest.argmin_append hx hy
    rw [List.take_append_drop] at happ
    have hxmem := List.argmin_mem hx
    have hymem := List.argmin_mem hy
    rw [happ, leaf, ScoresAgree]
    by_cases hold : latest time (cands.take (2 ^ k)) > latest time (cands.drop (2 ^ k))
    · rw [if_pos hold, if_pos hold, ← ih hhalf.2 hndr, hy]
      by_cases hyx : score y < score x
      · rw [if_pos hyx]
        constructor
        · intro heq
          exact ⟨fun z hz => ⟨y, hymem, hyx.trans_le (List.le_of_mem_argmin hz hx)⟩, heq⟩
        · exact fun h => h.2
      · rw [if_neg hyx]
        constructor
        · intro heq
          exact absurd rfl (halves_disjoint hnd hxmem (leaf_mem heq.symm))
        · rintro ⟨hall, -⟩
          obtain ⟨z, hz, hlt⟩ := hall x hxmem
          exact absurd ((List.le_of_mem_argmin hz hy).trans_lt hlt) hyx
    · rw [if_neg hold, if_neg hold, ← ih hhalf.1 hndl, hx]
      by_cases hyx : score y < score x
      · rw [if_pos hyx]
        constructor
        · intro heq
          exact absurd rfl (halves_disjoint hnd (leaf_mem heq.symm) hymem)
        · rintro ⟨hall, -⟩
          obtain ⟨z, hz, hle⟩ := hall y hymem
          exact absurd ((List.le_of_mem_argmin hz hx).trans hle) (not_le.mpr hyx)
      · rw [if_neg hyx]
        constructor
        · intro heq
          exact ⟨fun z hz => ⟨x, hxmem, (not_lt.mp hyx).trans (List.le_of_mem_argmin hz hy)⟩, heq⟩
        · exact fun h => h.2

theorem leaf_notLast (hlen : cands.length = 2 ^ k) (hnd : cands.Nodup) (htwo : 2 ≤ cands.length)
    (h : leaf time k cands = some v) : ∃ c ∈ cands, c ≠ v ∧ time v ≤ time c := by
  cases k with
  | zero => omega
  | succ k =>
    have hhalf := halves_length hlen
    rw [leaf] at h
    split at h
    · rename_i hlt
      have hv := leaf_mem h
      have hle : time v ≤ latest time (cands.take (2 ^ k)) :=
        Nat.le_trans (le_latest hv) (Nat.le_of_lt hlt)
      obtain ⟨c, hc, hvc⟩ := exists_ge (ne_nil_of_length hhalf.1) hle
      exact ⟨c, List.mem_of_mem_take hc, halves_disjoint hnd hc hv, hvc⟩
    · rename_i hge
      have hv := leaf_mem h
      have hle : time v ≤ latest time (cands.drop (2 ^ k)) :=
        Nat.le_trans (le_latest hv) (Nat.not_lt.mp hge)
      obtain ⟨c, hc, hvc⟩ := exists_ge (ne_nil_of_length hhalf.2) hle
      exact ⟨c, List.mem_of_mem_drop hc, (halves_disjoint hnd hv hc).symm, hvc⟩

theorem bisect_leaf {fuel start stop : Nat} (hfuel : k ≤ fuel) (hstop : stop = start + 2 ^ k)
    (hle : stop ≤ cands.length) :
    cands[bisect time cands fuel start stop]? = leaf time k ((cands.take stop).drop start) := by
  induction k generalizing fuel start stop with
  | zero =>
    have hone : ¬ stop - start > 1 := by omega
    have hstart : bisect time cands fuel start stop = start := by
      cases fuel with
      | zero => rfl
      | succ fuel => rw [bisect, if_neg hone]
    rw [hstart, leaf, List.head?_drop, List.getElem?_take_of_lt (by omega)]
  | succ k ih =>
    obtain ⟨fuel, rfl⟩ : ∃ n, fuel = n + 1 := ⟨fuel - 1, by omega⟩
    have hfuel := Nat.le_of_succ_le_succ hfuel
    have hpos := Nat.two_pow_pos k
    rw [pow_succ] at hstop
    have hpivot : start + (stop - start) / 2 = start + 2 ^ k := by omega
    have hleft : ((cands.take stop).drop start).take (2 ^ k) =
        (cands.take (start + 2 ^ k)).drop start := by
      rw [List.take_drop, List.take_take, Nat.min_eq_left (by omega)]
    have hright : ((cands.take stop).drop start).drop (2 ^ k) =
        (cands.take stop).drop (start + 2 ^ k) := by
      rw [List.drop_drop]
    rw [bisect, if_pos (by omega), leaf, hpivot, hleft, hright]
    dsimp only
    split
    · exact ih hfuel (by omega) hle
    · exact ih hfuel rfl (by omega)

theorem foldl_recordCandidate (rp : TreeLRUReplPolicy) (cands : List Nat) :
    cands.foldl recordCandidate rp = { rp with candArray := rp.candArray ++ cands } := by
  induction cands generalizing rp with
  | nil => simp
  | cons c cands ih => simp [ih, recordCandidate]

theorem after_candArray (calls : List LRUReplPolicy.Call) : (after calls).candArray = [] := by
  induction calls with
  | nil => rfl
  | cons call calls ih =>
    cases call with
    | update id => exact ih
    | replaced id => rfl

theorem getBestCandidate_leaf (hlen : cands.length = 2 ^ k) (calls : List LRUReplPolicy.Call) :
    (cands.foldl recordCandidate (after calls)).getBestCandidate cands.length =
      leaf (after calls).lru.array k cands := by
  rw [foldl_recordCandidate, after_candArray, List.nil_append, getBestCandidate, if_pos rfl]
  have hfuel : k ≤ cands.length := by
    rw [hlen]
    exact Nat.le_of_lt Nat.lt_two_pow_self
  rw [bisect_leaf hfuel (by rw [Nat.zero_add, hlen]) (Nat.le_refl _), List.take_length,
    List.drop_zero]

/-- The victim is the leaf of the tree just when, at each level down to it, the half whose last
access is older also has the least 32-bit score. -/
theorem victim_leaf_iff (cc : LineStates) (calls : List LRUReplPolicy.Call)
    (hlen : cands.length = 2 ^ k) (hnd : cands.Nodup) :
    VictimIsLeaf cc (after calls) cands ↔
      ScoresAgree (fun id => LRUReplPolicy.packedScore true cc (after calls).lru id % 2 ^ 32)
        (after calls).lru.array k cands := by
  have hmin := @LRUReplPolicy.rankCands_argmin true cc cands (after calls).lru
    (ne_nil_of_length hlen)
  rw [← argmin_eq_leaf hlen hnd, hmin]
  constructor
  · intro h
    rw [← getBestCandidate_leaf hlen, h.leaf]
    rfl
  · intro h
    exact ⟨by rw [getBestCandidate_leaf hlen, ← h]; rfl,
      fun htwo => leaf_notLast hlen hnd htwo h.symm⟩

/-- Four lines, all valid and without sharers. -/
def quietLines : LineStates := ⟨fun _ => 0, fun _ => true⟩

theorem victim_leaf_iff_four :
    VictimIsLeaf quietLines (after [.update 3, .update 2, .update 1, .update 0]) [0, 1, 2, 3] ↔
      ScoresAgree (fun id => LRUReplPolicy.packedScore true quietLines
          (after [.update 3, .update 2, .update 1, .update 0]).lru id % 2 ^ 32)
        (after [.update 3, .update 2, .update 1, .update 0]).lru.array 2 [0, 1, 2, 3] :=
  victim_leaf_iff quietLines _ (by decide) (by decide)

/-- Lines 0, 2, 3 and 1 are accessed in turn: LRU evicts 0, the tree would evict 2. -/
theorem victim_lru : ¬ VictimIsLeaf quietLines
    (after [.update 1, .update 3, .update 2, .update 0]) [0, 1, 2, 3] := by
  intro h
  exact absurd h.leaf (by decide)

end TreeLRUReplPolicy

end ZSim
