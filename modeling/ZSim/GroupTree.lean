import ZSim.GroupConnect
import Mathlib.Data.List.ProdSigma
import Mathlib.Data.List.Sigma

/-! The calls that connect the groups make a tree of the banks. -/

namespace ZSim

namespace InitSystem

/-- The arguments that `setParents` was called with on a bank. -/
def parentsOf (calls : List Call) (b : Bank) : List (Nat × List MemObject) :=
  calls.filterMap fun
    | .setParents b' childId parents => if b' = b then some (childId, parents) else none
    | .setChildren _ _ => none

/-- The children vectors handed to a bank. -/
def childrenVecs (calls : List Call) (b : Bank) : List (List Bank) :=
  calls.filterMap fun
    | .setParents _ _ _ => none
    | .setChildren b' children => if b' = b then some children else none

variable (c : Config)

/-- The banks of the children of the `p`-th cache of a group. -/
def share (grp : String) (p : Nat) : List Bank :=
  (((childCaches c grp).drop (p * childrenPerParent c grp)).take (childrenPerParent c grp)).flatten

/-- All calls: the last-level cache's, and those of each group with children. -/
def allCalls (llc : String) : List Call :=
  setAllParents (c.mems.map .mem) ((cacheGroup c llc).headD []) ++
    c.cacheGroupNames.flatMap fun g => if cVec c g = [] then [] else groupCalls c g

variable {c} {llc grp g child : String} {b : Bank} {n p k : Nat}

theorem mem_cacheGroup {bg : List Bank} (h : (cacheGroup c g)[n]? = some bg) :
    bg.Nodup ∧ bg ≠ [] ∧ ∀ b ∈ bg, b.group = g ∧ b.cache = n := by
  unfold cacheGroup at h
  split at h <;> rw [List.getElem?_map] at h <;>
    obtain ⟨i, hi, rfl⟩ := Option.map_eq_some_iff.mp h <;>
    obtain ⟨-, rfl⟩ := List.getElem?_eq_some_iff.mp hi <;> rw [List.getElem_range]
  · simp
  · refine ⟨?_, ?_, ?_⟩
    · exact List.nodup_range.map fun j j' hj => (Bank.mk.injEq .. ▸ hj).2.2
    · simpa using Nat.ne_of_gt (c.caches g).banks_pos
    · intro b hb
      obtain ⟨j, -, rfl⟩ := List.mem_map.mp hb
      exact ⟨rfl, rfl⟩

theorem mem_cacheAt (h : b ∈ cacheAt c (g, n)) : b.group = g ∧ b.cache = n := by
  rw [cacheAt, List.getD_eq_getElem?_getD] at h
  cases hget : (cacheGroup c g)[n]? with
  | none => simp [hget] at h
  | some bg =>
    rw [hget] at h
    exact (mem_cacheGroup hget).2.2 b h

theorem cacheAt_nodup (key : String × Nat) : (cacheAt c key).Nodup := by
  rw [cacheAt, List.getD_eq_getElem?_getD]
  cases hget : (cacheGroup c key.1)[key.2]? with
  | none => exact List.nodup_nil
  | some bg => exact (mem_cacheGroup hget).1

theorem mem_interleaveKeys {childVec : List String} (hsizes : SameSizes c childVec) :
    (child, n) ∈ interleaveKeys c childVec ↔
      child ∈ childVec ∧ n < (cacheGroup c child).length := by
  cases childVec with
  | nil => simp [interleaveKeys]
  | cons first childVec =>
    have hkeys : (child, n) ∈ interleaveKeys c (first :: childVec) ↔
        n < (cacheGroup c first).length ∧ child ∈ first :: childVec := by
      simp only [interleaveKeys, List.mem_flatMap, List.mem_range, List.mem_map, Prod.mk.injEq]
      constructor
      · rintro ⟨i, hi, x, hx, hchild, hn⟩
        exact ⟨hn ▸ hi, hchild ▸ hx⟩
      · rintro ⟨hi, hx⟩
        exact ⟨n, hi, child, hx, rfl, rfl⟩
    rw [hkeys, and_comm]
    exact and_congr_right fun hmem => by rw [hsizes first rfl child hmem]

theorem interleaveKeys_nodup {childVec : List String} (h : childVec.Nodup) :
    (interleaveKeys c childVec).Nodup := by
  cases childVec with
  | nil => exact List.nodup_nil
  | cons first childVec =>
    have hprod : interleaveKeys c (first :: childVec) =
        ((List.range (cacheGroup c first).length).product (first :: childVec)).map Prod.swap := by
      simp [interleaveKeys, List.product, List.map_flatMap, Function.comp_def]
    rw [hprod]
    exact (List.nodup_range.product h).map Prod.swap_injective

theorem mem_fst_interleaveKeys {childVec : List String} {key : String × Nat}
    (h : key ∈ interleaveKeys c childVec) : key.1 ∈ childVec := by
  cases childVec with
  | nil => cases h
  | cons first childVec =>
    obtain ⟨i, -, h⟩ := List.mem_flatMap.mp h
    obtain ⟨child, hchild, rfl⟩ := List.mem_map.mp h
    exact hchild

theorem mem_childKeys (hsizes : ∀ childVec ∈ cVec c grp, SameSizes c childVec) :
    (child, n) ∈ childKeys c grp ↔ Lists c grp child ∧ n < (cacheGroup c child).length := by
  rw [childKeys, List.mem_flatMap, Lists, List.mem_flatten]
  constructor
  · rintro ⟨childVec, hvec, hkey⟩
    obtain ⟨hchild, hn⟩ := (mem_interleaveKeys (hsizes childVec hvec)).mp hkey
    exact ⟨⟨childVec, hvec, hchild⟩, hn⟩
  · rintro ⟨⟨childVec, hvec, hchild⟩, hn⟩
    exact ⟨childVec, hvec, (mem_interleaveKeys (hsizes childVec hvec)).mpr ⟨hchild, hn⟩⟩

theorem childKeys_nodup (h : (cVec c grp).flatten.Nodup) : (childKeys c grp).Nodup := by
  obtain ⟨hvec, hdisj⟩ := List.nodup_flatten.mp h
  refine List.nodup_flatMap.mpr ⟨fun childVec hmem => interleaveKeys_nodup (hvec childVec hmem),
    hdisj.imp fun hab key ha hb => ?_⟩
  exact hab (mem_fst_interleaveKeys ha) (mem_fst_interleaveKeys hb)

/-- Caches have banks of their own. -/
theorem flatMap_cacheAt_nodup {keys : List (String × Nat)} (h : keys.Nodup) :
    (keys.flatMap (cacheAt c)).Nodup := by
  refine List.nodup_flatMap.mpr ⟨fun key _ => cacheAt_nodup key, h.imp fun hne b hb hb' => hne ?_⟩
  obtain ⟨hgroup, hcache⟩ := mem_cacheAt hb
  obtain ⟨hgroup', hcache'⟩ := mem_cacheAt hb'
  exact Prod.ext (hgroup.symm.trans hgroup') (hcache.symm.trans hcache')

/-- The keys of the caches of a share. -/
def shareKeys (c : Config) (grp : String) (p : Nat) : List (String × Nat) :=
  ((childKeys c grp).drop (p * childrenPerParent c grp)).take (childrenPerParent c grp)

theorem share_eq : share c grp p = (shareKeys c grp p).flatMap (cacheAt c) := by
  rw [share, shareKeys, childCaches, ← List.map_drop, ← List.map_take, List.flatMap_def]

theorem mem_shareKeys {key : String × Nat} :
    key ∈ shareKeys c grp p ↔ ∃ i, (childKeys c grp)[i]? = some key ∧
      p * childrenPerParent c grp ≤ i ∧ i < p * childrenPerParent c grp + childrenPerParent c grp := by
  rw [shareKeys, List.mem_iff_getElem?]
  constructor
  · rintro ⟨i, hi⟩
    rw [List.getElem?_take] at hi
    split at hi
    · next hlt =>
      rw [List.getElem?_drop] at hi
      exact ⟨_, hi, Nat.le_add_right _ _, by omega⟩
    · cases hi
  · rintro ⟨i, hi, hle, hlt⟩
    refine ⟨i - p * childrenPerParent c grp, ?_⟩
    rw [List.getElem?_take, if_pos (by omega), List.getElem?_drop, Nat.add_sub_cancel' hle, hi]

theorem mem_share : b ∈ share c grp p ↔
    (b.group, b.cache) ∈ shareKeys c grp p ∧ b ∈ cacheAt c (b.group, b.cache) := by
  rw [share_eq, List.mem_flatMap]
  constructor
  · rintro ⟨key, hkey, hb⟩
    obtain ⟨hgroup, hcache⟩ := mem_cacheAt hb
    obtain rfl : (b.group, b.cache) = key := Prod.ext hgroup hcache
    exact ⟨hkey, hb⟩
  · rintro ⟨hkey, hb⟩
    exact ⟨_, hkey, hb⟩

theorem filterMap_flatMap_unique {α β γ : Type} {l : List α} {f : α → List β} {sel : β → Option γ}
    {a : α} (hl : l.Nodup) (ha : a ∈ l) (hother : ∀ x ∈ l, x ≠ a → (f x).filterMap sel = []) :
    (l.flatMap f).filterMap sel = (f a).filterMap sel := by
  rw [List.filterMap_flatMap]
  induction l with
  | nil => cases ha
  | cons x l ih =>
    obtain ⟨hx, hl⟩ := List.nodup_cons.mp hl
    rw [List.flatMap_cons]
    rcases List.mem_cons.mp ha with rfl | ha
    · have hrest : l.flatMap (fun y => (f y).filterMap sel) = [] :=
        List.flatMap_eq_nil_iff.mpr fun y hy =>
          hother y (List.mem_cons_of_mem a hy) fun hya => hx (hya ▸ hy)
      rw [hrest, List.append_nil]
    · rw [hother x List.mem_cons_self fun hxa => hx (hxa ▸ ha), List.nil_append]
      exact ih hl ha fun y hy => hother y (List.mem_cons_of_mem x hy)

theorem mem_setAllParents {call : Call} {ps : List MemObject} {vec : List Bank} :
    call ∈ setAllParents ps vec ↔ ∃ b k, vec[k]? = some b ∧ call = .setParents b k ps := by
  rw [setAllParents, List.mem_map]
  constructor
  · rintro ⟨⟨b, k⟩, hmem, rfl⟩
    exact ⟨b, k, List.mk_mem_zipIdx_iff_getElem?.mp hmem, rfl⟩
  · rintro ⟨b, k, hget, rfl⟩
    exact ⟨(b, k), List.mk_mem_zipIdx_iff_getElem?.mpr hget, rfl⟩

theorem mem_groupCalls {call : Call} : call ∈ groupCalls c grp ↔
    ∃ p pc, (cacheGroup c grp)[p]? = some pc ∧ call ∈ connectCache pc (share c grp p) := by
  rw [groupCalls, connectCaches, List.mem_flatMap]
  constructor
  · rintro ⟨⟨pc, p⟩, hmem, hcall⟩
    exact ⟨p, pc, List.mk_mem_zipIdx_iff_getElem?.mp hmem, hcall⟩
  · rintro ⟨p, pc, hget, hcall⟩
    exact ⟨(pc, p), List.mk_mem_zipIdx_iff_getElem?.mpr hget, hcall⟩

theorem setParents_mem_groupCalls {ps : List MemObject} :
    .setParents b k ps ∈ groupCalls c grp ↔
      ∃ p pc, (cacheGroup c grp)[p]? = some pc ∧ (share c grp p)[k]? = some b ∧
        ps = pc.map .bank := by
  rw [mem_groupCalls]
  refine exists_congr fun p => exists_congr fun pc => and_congr_right fun _ => ?_
  rw [connectCache, List.mem_append, mem_setAllParents]
  simp

theorem mem_parentsOf {calls : List Call} {id : Nat} {ps : List MemObject} :
    (id, ps) ∈ parentsOf calls b ↔ .setParents b id ps ∈ calls := by
  rw [parentsOf, List.mem_filterMap]
  constructor
  · rintro ⟨call, hcall, hsel⟩
    cases call with
    | setParents b' id' ps' =>
      simp only [Option.ite_none_right_eq_some, Option.some.injEq, Prod.mk.injEq] at hsel
      obtain ⟨rfl, rfl, rfl⟩ := hsel
      exact hcall
    | setChildren => cases hsel
  · intro hcall
    exact ⟨_, hcall, by simp⟩

theorem parentsOf_eq_nil {calls : List Call} (h : ∀ id ps, .setParents b id ps ∉ calls) :
    parentsOf calls b = [] := by
  refine List.eq_nil_iff_forall_not_mem.mpr fun ⟨id, ps⟩ hmem => ?_
  exact h id ps (mem_parentsOf.mp hmem)

theorem parentsOf_append (calls calls' : List Call) :
    parentsOf (calls ++ calls') b = parentsOf calls b ++ parentsOf calls' b :=
  List.filterMap_append

/-- A bank of a vector gets its index. -/
theorem parentsOf_setAllParents {ps : List MemObject} {vec : List Bank} (hnodup : vec.Nodup)
    (hget : vec[k]? = some b) : parentsOf (setAllParents ps vec) b = [(k, ps)] := by
  have hoffset (n : Nat) : (vec.zipIdx n).filterMap
      (fun it => if it.1 = b then some (it.2, ps) else none) = [(n + k, ps)] := by
    induction vec generalizing n k with
    | nil => cases hget
    | cons b' vec ih =>
      obtain ⟨hb', hnodup⟩ := List.nodup_cons.mp hnodup
      rw [List.zipIdx_cons]
      cases k with
      | zero =>
        obtain rfl : b' = b := by simpa using hget
        have hrest : (vec.zipIdx (n + 1)).filterMap
            (fun it => if it.1 = b' then some (it.2, ps) else none) = [] := by
          refine List.filterMap_eq_nil_iff.mpr fun it hit => if_neg fun heq => hb' ?_
          exact heq ▸ List.fst_mem_of_mem_zipIdx hit
        simp [hrest]
      | succ k =>
        have hget : vec[k]? = some b := by simpa using hget
        have hne : b' ≠ b := fun heq => hb' (heq ▸ List.mem_of_getElem? hget)
        simp [hne, ih hnodup hget, Nat.add_assoc, Nat.add_comm 1]
  rw [parentsOf, setAllParents, List.filterMap_map]
  simpa using hoffset 0

theorem parentsOf_connectCache {pc vec : List Bank} :
    parentsOf (connectCache pc vec) b = parentsOf (setAllParents (pc.map .bank) vec) b := by
  have hnone : parentsOf (pc.map fun b => .setChildren b vec) b = [] := by
    refine parentsOf_eq_nil fun id ps hmem => ?_
    obtain ⟨b', -, hcall⟩ := List.mem_map.mp hmem
    cases hcall
  rw [connectCache, parentsOf_append, hnone, List.append_nil]

theorem childrenVecs_connectCache {pc vec : List Bank} (hnodup : pc.Nodup) :
    childrenVecs (connectCache pc vec) b = if b ∈ pc then [vec] else [] := by
  have hnone : childrenVecs (setAllParents (pc.map .bank) vec) b = [] := by
    refine List.filterMap_eq_nil_iff.mpr fun call hmem => ?_
    obtain ⟨b', k, -, rfl⟩ := mem_setAllParents.mp hmem
    rfl
  have hone : childrenVecs (pc.map fun b => .setChildren b vec) b = if b ∈ pc then [vec] else [] := by
    induction pc with
    | nil => rfl
    | cons b' pc ih =>
      obtain ⟨hb', hnodup⟩ := List.nodup_cons.mp hnodup
      have hrest := ih hnodup (List.filterMap_eq_nil_iff.mpr fun call hmem => by
        obtain ⟨b', k, -, rfl⟩ := mem_setAllParents.mp hmem
        rfl)
      by_cases heq : b' = b
      · subst heq
        simpa [childrenVecs, hb'] using hrest
      · simpa [childrenVecs, heq, Ne.symm heq] using hrest
  rw [childrenVecs, connectCache, List.filterMap_append]
  exact (congrArg₂ _ hnone hone).trans (List.nil_append _)

theorem shareKeys_index (hkeys : (childKeys c grp).Nodup) {key : String × Nat} {p' : Nat}
    (h : key ∈ shareKeys c grp p) (h' : key ∈ shareKeys c grp p') : p = p' := by
  obtain ⟨i, hi, hle, hlt⟩ := mem_shareKeys.mp h
  obtain ⟨i', hi', hle', hlt'⟩ := mem_shareKeys.mp h'
  obtain ⟨hi, hget⟩ := List.getElem?_eq_some_iff.mp hi
  obtain ⟨hi', hget'⟩ := List.getElem?_eq_some_iff.mp hi'
  obtain rfl : i = i' := (List.Nodup.getElem_inj_iff hkeys).mp (hget.trans hget'.symm)
  have hp : i / childrenPerParent c grp = p := by
    refine Nat.div_eq_of_lt_le hle ?_
    rw [Nat.succ_mul]
    exact hlt
  have hp' : i / childrenPerParent c grp = p' := by
    refine Nat.div_eq_of_lt_le hle' ?_
    rw [Nat.succ_mul]
    exact hlt'
  exact hp.symm.trans hp'

theorem lists_of_mem_share (h : b ∈ share c grp p) : Lists c grp b.group := by
  obtain ⟨i, hi, -, -⟩ := mem_shareKeys.mp (mem_share.mp h).1
  obtain ⟨childVec, hvec, hkey⟩ := List.mem_flatMap.mp (List.mem_of_getElem? hi)
  exact List.mem_flatten.mpr ⟨childVec, hvec, mem_fst_interleaveKeys hkey⟩

namespace Accepted

variable (h : Accepted c llc)
include h

theorem share_nodup (hg : grp ∈ c.cacheGroupNames) : (share c grp p).Nodup := by
  rw [share_eq]
  refine flatMap_cacheAt_nodup ((childKeys_nodup (h.children_nodup hg)).sublist ?_)
  exact (List.take_sublist _ _).trans (List.drop_sublist _ _)

/-- The bank at an index of a share is given that index and the parent cache. -/
theorem parentsOf_share (hg : grp ∈ c.cacheGroupNames) (hterm : cVec c grp ≠ [])
    {pc : List Bank} (hpc : (cacheGroup c grp)[p]? = some pc) (hb : (share c grp p)[k]? = some b) :
    parentsOf (allCalls c llc) b = [(k, pc.map .bank)] := by
  have hmem := List.mem_of_getElem? hb
  have hlists := lists_of_mem_share hmem
  have hroot : parentsOf (setAllParents (c.mems.map .mem) ((cacheGroup c llc).headD [])) b = [] := by
    refine parentsOf_eq_nil fun id ps hcall => ?_
    obtain ⟨b', id', hget, hcall⟩ := mem_setAllParents.mp hcall
    cases hcall
    have hgroup : b.group = llc := by
      rw [List.headD_eq_getD] at hget
      exact (mem_cacheAt (List.mem_of_getElem? hget)).1
    exact h.llc_mem.2 (mem_childrenOf hg (hgroup ▸ hlists))
  have hgroup : parentsOf (c.cacheGroupNames.flatMap fun g => if cVec c g = [] then [] else
      groupCalls c g) b = parentsOf (groupCalls c grp) b := by
    rw [parentsOf, filterMap_flatMap_unique h.nodup hg, if_neg hterm, parentsOf]
    intro g hg' hne
    split
    · rfl
    · refine parentsOf_eq_nil fun id ps hcall => hne ?_
      obtain ⟨p', pc', -, hget, -⟩ := setParents_mem_groupCalls.mp hcall
      exact h.parent_unique hg' hg (lists_of_mem_share (List.mem_of_getElem? hget)) hlists
  have hcache : parentsOf (groupCalls c grp) b
      = parentsOf (connectCache pc (share c grp p)) b := by
    rw [groupCalls, connectCaches, parentsOf]
    refine filterMap_flatMap_unique (a := (pc, p)) (List.nodup_zipIdx_map_snd _).of_map
      (List.mk_mem_zipIdx_iff_getElem?.mpr hpc) ?_
    rintro ⟨pc', p'⟩ hmem' hne
    refine parentsOf_connectCache.trans (parentsOf_eq_nil fun id ps hcall => hne ?_)
    obtain ⟨b', k', hget, hcall⟩ := mem_setAllParents.mp hcall
    cases hcall
    have hshare : (b.group, b.cache) ∈ shareKeys c grp p' :=
      (mem_share.mp (List.mem_of_getElem? hget)).1
    obtain rfl : p = p' := shareKeys_index (childKeys_nodup (h.children_nodup hg))
      (mem_share.mp hmem).1 hshare
    have hpc' := List.mk_mem_zipIdx_iff_getElem?.mp hmem'
    rw [hpc] at hpc'
    cases hpc'
    rfl
  rw [allCalls, parentsOf_append, hroot, List.nil_append, hgroup, hcache, parentsOf_connectCache,
    parentsOf_setAllParents (h.share_nodup hg) hb]

/-- A parent's bank is handed the share of its cache. -/
theorem childrenVecs_share (hg : grp ∈ c.cacheGroupNames) (hterm : cVec c grp ≠ [])
    {pc : List Bank} (hpc : (cacheGroup c grp)[p]? = some pc) (hb : b ∈ pc) :
    childrenVecs (allCalls c llc) b = [share c grp p] := by
  obtain ⟨hnodup, -, hown⟩ := mem_cacheGroup hpc
  obtain ⟨hgrp, hcache⟩ := hown b hb
  have hroot : childrenVecs (setAllParents (c.mems.map .mem) ((cacheGroup c llc).headD [])) b
      = [] := by
    refine List.filterMap_eq_nil_iff.mpr fun call hmem => ?_
    obtain ⟨b', k, -, rfl⟩ := mem_setAllParents.mp hmem
    rfl
  have hother {g' : String} {p' : Nat} {pc' : List Bank} (hpc' : (cacheGroup c g')[p']? = some pc')
      (hne : g' ≠ grp ∨ p' ≠ p) : childrenVecs (connectCache pc' (share c g' p')) b = [] := by
    obtain ⟨hnodup', -, hown'⟩ := mem_cacheGroup hpc'
    rw [childrenVecs_connectCache hnodup']
    refine if_neg fun hb' => ?_
    obtain ⟨hgrp', hcache'⟩ := hown' b hb'
    rcases hne with hne | hne
    · exact hne (hgrp'.symm.trans hgrp)
    · exact hne (hcache'.symm.trans hcache)
  have hgroup : childrenVecs (c.cacheGroupNames.flatMap fun g => if cVec c g = [] then [] else
      groupCalls c g) b = childrenVecs (groupCalls c grp) b := by
    rw [childrenVecs, filterMap_flatMap_unique h.nodup hg, if_neg hterm, childrenVecs]
    intro g hg' hne
    split
    · rfl
    · rw [groupCalls, connectCaches, List.filterMap_flatMap]
      refine List.flatMap_eq_nil_iff.mpr ?_
      rintro ⟨pc', p'⟩ hmem'
      exact hother (List.mk_mem_zipIdx_iff_getElem?.mp hmem') (.inl hne)
  have hcaches : childrenVecs (groupCalls c grp) b
      = childrenVecs (connectCache pc (share c grp p)) b := by
    rw [groupCalls, connectCaches, childrenVecs]
    refine filterMap_flatMap_unique (a := (pc, p)) (List.nodup_zipIdx_map_snd _).of_map
      (List.mk_mem_zipIdx_iff_getElem?.mpr hpc) ?_
    rintro ⟨pc', p'⟩ hmem' hne
    have hpc' := List.mk_mem_zipIdx_iff_getElem?.mp hmem'
    refine hother hpc' (.inr fun hp => hne ?_)
    subst hp
    rw [hpc] at hpc'
    cases hpc'
    rfl
  rw [allCalls, childrenVecs, List.filterMap_append]
  refine (congrArg₂ _ hroot (hgroup.trans hcaches)).trans ?_
  rw [List.nil_append, childrenVecs_connectCache hnodup, if_pos hb]

/-- The last-level cache's banks are given their index and the memories. -/
theorem parentsOf_llc {cache : List Bank} (hllc : (cacheGroup c llc)[0]? = some cache)
    (hb : cache[k]? = some b) : parentsOf (allCalls c llc) b = [(k, c.mems.map .mem)] := by
  obtain ⟨hnodup, -, hown⟩ := mem_cacheGroup hllc
  have hgroup := (hown b (List.mem_of_getElem? hb)).1
  have hcache : (cacheGroup c llc).headD [] = cache := by
    rw [List.headD_eq_getD, List.getD_eq_getElem?_getD, hllc]
    rfl
  have hrest : parentsOf (c.cacheGroupNames.flatMap fun g => if cVec c g = [] then [] else
      groupCalls c g) b = [] := by
    refine parentsOf_eq_nil fun id ps hcall => ?_
    obtain ⟨g, hg, hcall⟩ := List.mem_flatMap.mp hcall
    split at hcall
    · cases hcall
    · obtain ⟨p', pc', -, hget, -⟩ := setParents_mem_groupCalls.mp hcall
      have hlists := lists_of_mem_share (List.mem_of_getElem? hget)
      exact h.llc_mem.2 (mem_childrenOf hg (hgroup ▸ hlists))
  rw [allCalls, parentsOf_append, hrest, List.append_nil, hcache, parentsOf_setAllParents hnodup hb]

end Accepted

/-- The shares divide as many child caches as the code counts. -/
theorem childrenPerParent_mul (hconn : Connectable c grp) :
    (cacheGroup c grp).length * childrenPerParent c grp = (childKeys c grp).length % 2 ^ 32 := by
  have hdiv := hconn.divisible
  rw [childCaches, List.length_map] at hdiv
  rw [childrenPerParent, childCaches, List.length_map]
  exact Nat.mul_div_cancel' (Nat.dvd_of_mod_eq_zero hdiv)

/-- The caches of a child have a share, when the number of child caches is a `uint32_t`. -/
theorem exists_share (hconn : Connectable c grp) (hnarrow : (childCaches c grp).length < 2 ^ 32)
    {bg : List Bank} (hlists : Lists c grp g) (hbg : (cacheGroup c g)[n]? = some bg) (hb : b ∈ bg) :
    ∃ p pc, (cacheGroup c grp)[p]? = some pc ∧ b ∈ share c grp p := by
  obtain ⟨-, -, hown⟩ := mem_cacheGroup hbg
  obtain ⟨hgroup, hcache⟩ := hown b hb
  obtain ⟨hn, hget⟩ := List.getElem?_eq_some_iff.mp hbg
  obtain ⟨i, hi⟩ := List.mem_iff_getElem?.mp ((mem_childKeys hconn.sizes).mpr ⟨hlists, hn⟩)
  have hilt := (List.getElem?_eq_some_iff.mp hi).1
  have hmul := childrenPerParent_mul hconn
  rw [childCaches, List.length_map] at hnarrow
  rw [Nat.mod_eq_of_lt hnarrow] at hmul
  have hpos : 0 < childrenPerParent c grp := by
    refine Nat.pos_of_ne_zero fun hzero => ?_
    rw [hzero, Nat.mul_zero] at hmul
    omega
  have hp : i / childrenPerParent c grp < (cacheGroup c grp).length :=
    (Nat.div_lt_iff_lt_mul hpos).mpr (hmul ▸ hilt)
  have hkey : (b.group, b.cache) ∈ shareKeys c grp (i / childrenPerParent c grp) := by
    rw [hgroup, hcache]
    refine mem_shareKeys.mpr ⟨i, hi, Nat.div_mul_le_self _ _, ?_⟩
    rw [← Nat.succ_mul, Nat.mul_comm]
    exact Nat.lt_mul_div_succ i hpos
  refine ⟨_, _, List.getElem?_eq_getElem hp, mem_share.mpr ⟨hkey, ?_⟩⟩
  rw [hgroup, hcache, cacheAt, List.getD_eq_getElem?_getD, hbg]
  exact hb

/-- Where there are more child caches than a `uint32_t` counts, a bank has no parent. -/
theorem exists_orphan (h : Accepted c llc) (hg : grp ∈ c.cacheGroupNames)
    (hconn : Connectable c grp) (hwide : 2 ^ 32 ≤ (childCaches c grp).length) :
    ∃ (g : String) (n : Nat) (bg : List Bank) (b : Bank), Lists c grp g ∧
      (cacheGroup c g)[n]? = some bg ∧ b ∈ bg ∧ parentsOf (allCalls c llc) b = [] := by
  rw [childCaches, List.length_map] at hwide
  have hmul := childrenPerParent_mul hconn
  have hlt : (childKeys c grp).length % 2 ^ 32 < (childKeys c grp).length :=
    Nat.lt_of_lt_of_le (Nat.mod_lt _ (Nat.two_pow_pos 32)) hwide
  obtain ⟨⟨g, n⟩, hkey⟩ : ∃ key, (childKeys c grp)[(childKeys c grp).length % 2 ^ 32]? = some key :=
    ⟨_, List.getElem?_eq_getElem hlt⟩
  obtain ⟨hlists, hn⟩ := (mem_childKeys hconn.sizes).mp (List.mem_of_getElem? hkey)
  obtain ⟨bg, hbg⟩ : ∃ bg, (cacheGroup c g)[n]? = some bg := ⟨_, List.getElem?_eq_getElem hn⟩
  obtain ⟨-, hne, hown⟩ := mem_cacheGroup hbg
  obtain ⟨b, hb⟩ := List.exists_mem_of_ne_nil bg hne
  obtain ⟨hgroup, hcache⟩ := hown b hb
  refine ⟨g, n, bg, b, hlists, hbg, hb, parentsOf_eq_nil fun id ps hcall => ?_⟩
  rcases List.mem_append.mp hcall with hcall | hcall
  · obtain ⟨b', id', hget, hcall⟩ := mem_setAllParents.mp hcall
    cases hcall
    rw [List.headD_eq_getD] at hget
    have hroot : b.group = llc := (mem_cacheAt (List.mem_of_getElem? hget)).1
    exact h.llc_mem.2 (mem_childrenOf hg (hroot ▸ hgroup.symm ▸ hlists))
  · obtain ⟨g', hg', hcall⟩ := List.mem_flatMap.mp hcall
    split at hcall
    · cases hcall
    · obtain ⟨p, pc, hpc, hget, -⟩ := setParents_mem_groupCalls.mp hcall
      have hmem := List.mem_of_getElem? hget
      obtain rfl : g' = grp :=
        h.parent_unique hg' hg (lists_of_mem_share hmem) (hgroup.symm ▸ hlists)
      have hshare := (mem_share.mp hmem).1
      rw [hgroup, hcache] at hshare
      obtain ⟨i, hi, -, hilt⟩ := mem_shareKeys.mp hshare
      have hi' : i = (childKeys c g').length % 2 ^ 32 := by
        obtain ⟨hi₁, hget₁⟩ := List.getElem?_eq_some_iff.mp hi
        obtain ⟨hi₂, hget₂⟩ := List.getElem?_eq_some_iff.mp hkey
        exact (List.Nodup.getElem_inj_iff (childKeys_nodup (h.children_nodup hg'))).mp
          (hget₁.trans hget₂.symm)
      have hp := (List.getElem?_eq_some_iff.mp hpc).1
      have hle : (p + 1) * childrenPerParent c g'
          ≤ (cacheGroup c g').length * childrenPerParent c g' := Nat.mul_le_mul_right _ hp
      rw [Nat.succ_mul] at hle
      omega

end InitSystem

end ZSim
