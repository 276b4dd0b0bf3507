import ZSim.GroupTree

/-! The hierarchy that is built is a tree, or its building stops. -/

namespace ZSim

namespace InitSystem

def Call.bank : Call → Bank
  | .setParents b _ _ => b
  | .setChildren b _ => b

/-- A bank is handed another in its children vector. -/
def HasChild (calls : List Call) (b b' : Bank) : Prop := ∃ vec ∈ childrenVecs calls b, b' ∈ vec

variable (c : Config)

/-- Each group is built once and before it is connected, and the calls make a tree of the banks
rooted at the last-level cache. -/
structure IsTree (h : Hierarchy) : Prop where
  builtOnce : (h.cMap.map (·.1)).Nodup
  built : ∀ g, g ∈ h.cMap.map (·.1) ↔ g ∈ c.cacheGroupNames
  connected : ∀ call ∈ h.calls, ∃ it ∈ h.cMap, ∃ bg ∈ it.2, call.bank ∈ bg
  root : ∃ cache, (h.llc, [cache]) ∈ h.cMap ∧
    ∀ k b, cache[k]? = some b → parentsOf h.calls b = [(k, c.mems.map .mem)]
  parents : ∀ it ∈ h.cMap, it.1 ≠ h.llc → ∀ bg ∈ it.2, ∀ b ∈ bg,
    ∃ it' ∈ h.cMap, ∃ pc ∈ it'.2, ∃ k, parentsOf h.calls b = [(k, pc.map .bank)]
  vectors : ∀ it ∈ h.cMap, cVec c it.1 ≠ [] → ∀ bg ∈ it.2, ∀ b ∈ bg,
    ∃ vec, childrenVecs h.calls b = [vec]
  children : ∀ b, ∀ vec ∈ childrenVecs h.calls b, ∀ k b',
    vec[k]? = some b' ↔ ∃ ps, parentsOf h.calls b' = [(k, ps)] ∧ .bank b ∈ ps
  reach : ∀ it ∈ h.cMap, it.1 ≠ h.llc → ∀ bg ∈ it.2, ∀ b ∈ bg,
    ∀ cg, (h.llc, cg) ∈ h.cMap → ∀ cache ∈ cg, ∀ b₀ ∈ cache,
      Relation.ReflTransGen (HasChild h.calls) b₀ b

/-- A panic, or a tree. -/
def TreeOrRefused : Except Stop Hierarchy → Prop
  | .ok h => IsTree c h
  | .error e => e = .panic

/-- The configurations that a later check refuses: a group below the last-level cache that cannot be
built, a last-level cache of several caches or that cannot be connected to the memories, a group
with no right number of children all whose predecessors were built, and a terminal group with
several banks. -/
inductive Refused (llc : String) : Prop
  | build (g : String) (hg : Descends c llc g) (hbuild : ¬ Buildable c g)
  | caches (hcaches : (cacheGroup c llc).length ≠ 1)
  | memory (hmem : ¬ ∀ call ∈ setAllParents (c.mems.map .mem) ((cacheGroup c llc).headD []),
      accepts c call = true)
  | connect (pre : List String) (grp : String) (post : List String)
      (hnames : c.cacheGroupNames = pre ++ grp :: post)
      (hpre : ∀ g ∈ grp :: pre, cVec c g ≠ [] → Descends c llc g) (hterm : cVec c grp ≠ [])
      (hconn : ¬ Connectable c grp)
  | terminal (g : String) (hg : g ∈ c.cacheGroupNames)
      (hdesc : ∀ g ∈ c.cacheGroupNames, Descends c llc g) (hterm : cVec c g = [])
      (hbanks : ((cacheGroup c g).headD []).length ≠ 1)

variable {c} {llc g grp : String} {cMap : List (String × CacheGroup)}

/-- A group that is connected when its turn comes. -/
def Connects (c : Config) (llc g : String) : Prop :=
  cVec c g ≠ [] → Descends c llc g ∧ Connectable c g

/-- The groups are all connected, or one that was built stops the rest, or one that was not. -/
theorem connectGroups_spec (h : Accepted c llc) (hb : Built c llc cMap) {groups : List String}
    (hgroups : ∀ g ∈ groups, g ∈ c.cacheGroupNames) (calls : List Call) :
    ((∀ g ∈ groups, Connects c llc g) ∧
      groups.foldlM (connectGroup c cMap (maps c c.cacheGroupNames)) calls
        = .ok (calls ++ groups.flatMap fun g => if cVec c g = [] then [] else groupCalls c g)) ∨
    ∃ pre grp post, groups = pre ++ grp :: post ∧ (∀ g ∈ pre, Connects c llc g) ∧
      cVec c grp ≠ [] ∧
        (Descends c llc grp ∧ ¬ Connectable c grp ∧
          groups.foldlM (connectGroup c cMap (maps c c.cacheGroupNames)) calls = .error .panic ∨
        ¬ Descends c llc grp ∧
          groups.foldlM (connectGroup c cMap (maps c c.cacheGroupNames)) calls
            = .error .nullDeref) := by
  induction groups generalizing calls with
  | nil => exact .inl ⟨by simp, by simp; rfl⟩
  | cons g groups ih =>
    rw [List.forall_mem_cons] at hgroups
    rw [List.foldlM_cons]
    by_cases hterm : cVec c g = []
    · rw [connectGroup_terminal hgroups.1 hterm]
      have hg : Connects c llc g := fun hne => absurd hterm hne
      rcases ih hgroups.2 calls with ⟨hall, hrun⟩ | ⟨pre, grp, post, rfl, hpre, hgrp⟩
      · refine .inl ⟨List.forall_mem_cons.mpr ⟨hg, hall⟩, hrun.trans ?_⟩
        rw [List.flatMap_cons, if_pos hterm, List.nil_append]
      · exact .inr ⟨g :: pre, grp, post, rfl, List.forall_mem_cons.mpr ⟨hg, hpre⟩, hgrp⟩
    · by_cases hdesc : Descends c llc g
      · by_cases hconn : Connectable c g
        · rw [connectGroup_ok h hb hterm hdesc hconn]
          have hg : Connects c llc g := fun _ => ⟨hdesc, hconn⟩
          rcases ih hgroups.2 (calls ++ groupCalls c g) with
            ⟨hall, hrun⟩ | ⟨pre, grp, post, rfl, hpre, hgrp⟩
          · refine .inl ⟨List.forall_mem_cons.mpr ⟨hg, hall⟩, hrun.trans ?_⟩
            rw [List.flatMap_cons, if_neg hterm, List.append_assoc]
          · exact .inr ⟨g :: pre, grp, post, rfl, List.forall_mem_cons.mpr ⟨hg, hpre⟩, hgrp⟩
        · rw [connectGroup_panic h hb hterm hdesc hconn]
          exact .inr ⟨[], g, groups, rfl, by simp, hterm, .inl ⟨hdesc, hconn, rfl⟩⟩
      · rw [connectGroup_null hb hgroups.1 hterm hdesc]
        exact .inr ⟨[], g, groups, rfl, by simp, hterm, .inr ⟨hdesc, rfl⟩⟩

theorem cVec_ne_nil {child : String} (h : Lists c g child) : cVec c g ≠ [] := by
  rintro hnil
  rw [Lists, hnil] at h
  cases h

/-- A group other than the last-level cache has a parent. -/
theorem Accepted.exists_parent (h : Accepted c llc) (hg : g ∈ c.cacheGroupNames) (hne : g ≠ llc) :
    ∃ p ∈ c.cacheGroupNames, Lists c p g := by
  by_contra hno
  have hchild : g ∉ childrenOf c c.cacheGroupNames := fun hmem =>
    hno (List.mem_flatMap.mp hmem)
  have hmem : g ∈ c.cacheGroupNames.filter (· ∉ childrenOf c c.cacheGroupNames) :=
    List.mem_filter.mpr ⟨hg, by simpa using hchild⟩
  rw [h.llc, List.mem_singleton] at hmem
  exact hne hmem

/-- Where every group with children was built, so was every other. -/
theorem Accepted.descends_of_connects (h : Accepted c llc)
    (hconn : ∀ g ∈ c.cacheGroupNames, Connects c llc g) (hg : g ∈ c.cacheGroupNames) :
    Descends c llc g := by
  by_cases hne : g = llc
  · exact hne ▸ .refl
  · obtain ⟨p, hp, hlists⟩ := h.exists_parent hg hne
    exact (hconn p hp (cVec_ne_nil hlists)).1.tail hlists

section

variable (h : Accepted c llc) (hconn : ∀ g ∈ c.cacheGroupNames, Connects c llc g)
  (hnarrow : ∀ g ∈ c.cacheGroupNames, (childCaches c g).length < 2 ^ 32)
include h hconn hnarrow

/-- The bank of a group below another is in a share of it. -/
theorem exists_parent_share {n : Nat} {bg : List Bank} {b : Bank} (hg : g ∈ c.cacheGroupNames)
    (hne : g ≠ llc) (hbg : (cacheGroup c g)[n]? = some bg) (hb : b ∈ bg) :
    ∃ grp ∈ c.cacheGroupNames, cVec c grp ≠ [] ∧ Lists c grp g ∧
      ∃ p pc, (cacheGroup c grp)[p]? = some pc ∧ b ∈ share c grp p := by
  obtain ⟨grp, hgrp, hlists⟩ := h.exists_parent hg hne
  have hterm := cVec_ne_nil hlists
  exact ⟨grp, hgrp, hterm, hlists,
    exists_share (hconn grp hgrp hterm).2 (hnarrow grp hgrp) hlists hbg hb⟩

end

theorem exists_of_mem_cacheAt {n : Nat} {b : Bank} (h : b ∈ cacheAt c (g, n)) :
    ∃ bg ∈ cacheGroup c g, b ∈ bg := by
  rw [cacheAt, List.getD_eq_getElem?_getD] at h
  cases hget : (cacheGroup c g)[n]? with
  | none => simp [hget] at h
  | some bg =>
    rw [hget] at h
    exact ⟨bg, List.mem_of_getElem? hget, h⟩

/-- Where a call comes from. -/
theorem mem_allCalls {call : Call} (hcall : call ∈ allCalls c llc) :
    (∃ k, ∃ b ∈ (cacheGroup c llc).headD [], call = .setParents b k (c.mems.map .mem)) ∨
    ∃ grp ∈ c.cacheGroupNames, cVec c grp ≠ [] ∧ ∃ p pc, (cacheGroup c grp)[p]? = some pc ∧
      ((∃ k b, (share c grp p)[k]? = some b ∧ call = .setParents b k (pc.map .bank)) ∨
        ∃ b ∈ pc, call = .setChildren b (share c grp p)) := by
  rcases List.mem_append.mp hcall with hcall | hcall
  · obtain ⟨b, k, hget, rfl⟩ := mem_setAllParents.mp hcall
    exact .inl ⟨k, b, List.mem_of_getElem? hget, rfl⟩
  · obtain ⟨grp, hgrp, hcall⟩ := List.mem_flatMap.mp hcall
    split at hcall
    · cases hcall
    · next hterm =>
      obtain ⟨p, pc, hpc, hcall⟩ := mem_groupCalls.mp hcall
      refine .inr ⟨grp, hgrp, hterm, p, pc, hpc, ?_⟩
      rcases List.mem_append.mp hcall with hcall | hcall
      · obtain ⟨b, k, hget, rfl⟩ := mem_setAllParents.mp hcall
        exact .inl ⟨k, b, hget, rfl⟩
      · obtain ⟨b, hmem, rfl⟩ := List.mem_map.mp hcall
        exact .inr ⟨b, hmem, rfl⟩

theorem mem_childrenVecs {calls : List Call} {b : Bank} {vec : List Bank} :
    vec ∈ childrenVecs calls b ↔ .setChildren b vec ∈ calls := by
  rw [childrenVecs, List.mem_filterMap]
  constructor
  · rintro ⟨call, hcall, hsel⟩
    cases call with
    | setParents => cases hsel
    | setChildren b' vec' =>
      simp only [Option.ite_none_right_eq_some, Option.some.injEq] at hsel
      obtain ⟨rfl, rfl⟩ := hsel
      exact hcall
  · intro hcall
    exact ⟨_, hcall, by simp⟩

theorem share_index_iff (h : Accepted c llc) {b : Bank} {vec : List Bank}
    (hvec : vec ∈ childrenVecs (allCalls c llc) b) {k : Nat} {b' : Bank} :
    vec[k]? = some b' ↔
      ∃ ps, parentsOf (allCalls c llc) b' = [(k, ps)] ∧ .bank b ∈ ps := by
  rcases mem_allCalls (mem_childrenVecs.mp hvec) with ⟨_, _, _, hcall⟩ |
    ⟨grp, hgrp, hterm, p, pc, hpc, ⟨_, _, _, hcall⟩ | ⟨b₁, hb, hcall⟩⟩ <;> cases hcall
  constructor
  · intro hget
    exact ⟨_, h.parentsOf_share hgrp hterm hpc hget, List.mem_map_of_mem hb⟩
  · rintro ⟨ps, hps, hmem⟩
    have hcall : (k, ps) ∈ parentsOf (allCalls c llc) b' := by
      rw [hps]
      exact List.mem_singleton_self _
    rcases mem_allCalls (mem_parentsOf.mp hcall) with ⟨_, _, _, hcall⟩ |
      ⟨grp', -, -, p', pc', hpc', ⟨k', b₂, hget, hcall⟩ | ⟨_, _, hcall⟩⟩ <;> cases hcall
    · simp at hmem
    · have hb' : b ∈ pc' := by simpa using hmem
      obtain ⟨hgroup, hcache⟩ := (mem_cacheGroup hpc).2.2 b hb
      obtain ⟨hgroup', hcache'⟩ := (mem_cacheGroup hpc').2.2 b hb'
      obtain rfl := hgroup.symm.trans hgroup'
      obtain rfl := hcache.symm.trans hcache'
      exact hget

/-- The banks of the last-level cache reach those of every group below it. -/
theorem reaches (h : Accepted c llc) (hcaches : (cacheGroup c llc).length = 1)
    (hconn : ∀ g ∈ c.cacheGroupNames, Connects c llc g)
    (hnarrow : ∀ g ∈ c.cacheGroupNames, (childCaches c g).length < 2 ^ 32)
    {cache : List Bank} (hcache : cache ∈ cacheGroup c llc) {b₀ : Bank} (hb₀ : b₀ ∈ cache)
    (hdesc : Descends c llc g) (hne : g ≠ llc) {n : Nat} {bg : List Bank} {b : Bank}
    (hbg : (cacheGroup c g)[n]? = some bg) (hb : b ∈ bg) :
    Relation.ReflTransGen (HasChild (allCalls c llc)) b₀ b := by
  induction hdesc generalizing n bg b with
  | refl => exact absurd rfl hne
  | tail hdesc hlists ih =>
    have hg := h.mem_of_lists (h.mem_of_descends hdesc) hlists
    obtain ⟨grp, hgrp, hterm, hlists', p, pc, hpc, hshare⟩ :=
      exists_parent_share h hconn hnarrow hg hne hbg hb
    obtain rfl := h.parent_unique hgrp (h.mem_of_descends hdesc) hlists' hlists
    have hchild {b₁ : Bank} (hb₁ : b₁ ∈ pc) : HasChild (allCalls c llc) b₁ b :=
      ⟨_, h.childrenVecs_share hgrp hterm hpc hb₁ ▸ List.mem_singleton_self _, hshare⟩
    by_cases hroot : grp = llc
    · subst hroot
      obtain ⟨cache', hcache'⟩ := List.length_eq_one_iff.mp hcaches
      rw [hcache', List.mem_singleton] at hcache
      have hpc' := List.mem_of_getElem? hpc
      rw [hcache', List.mem_singleton] at hpc'
      exact .single (hchild (hpc'.trans hcache.symm ▸ hb₀))
    · obtain ⟨b₁, hb₁⟩ := List.exists_mem_of_ne_nil pc (mem_cacheGroup hpc).2.1
      exact (ih hroot hpc hb₁).tail (hchild hb₁)

theorem isTree_of (h : Accepted c llc) (hb : Built c llc cMap)
    (hcaches : (cacheGroup c llc).length = 1)
    (hconn : ∀ g ∈ c.cacheGroupNames, Connects c llc g)
    (hnarrow : ∀ g ∈ c.cacheGroupNames, (childCaches c g).length < 2 ^ 32) :
    IsTree c ⟨llc, cMap, allCalls c llc⟩ := by
  have hdesc := fun g hg => h.descends_of_connects hconn (g := g) hg
  have hbuilt : ∀ g, g ∈ c.cacheGroupNames → (g, cacheGroup c g) ∈ cMap := by
    intro g hg
    obtain ⟨it, hit, rfl⟩ := List.mem_map.mp ((hb.mem_iff g).mpr (hdesc g hg))
    rw [← hb.group it hit]
    exact hit
  have hgroup : ∀ it ∈ cMap, it.1 ∈ c.cacheGroupNames ∧ it.2 = cacheGroup c it.1 := by
    intro it hit
    exact ⟨h.mem_of_descends ((hb.mem_iff it.1).mp (List.mem_map_of_mem hit)), hb.group it hit⟩
  obtain ⟨cache, hcache⟩ : ∃ cache, cacheGroup c llc = [cache] := List.length_eq_one_iff.mp hcaches
  have hllc := h.llc_mem.1
  constructor
  · exact hb.nodup
  · exact fun g => (hb.mem_iff g).trans ⟨h.mem_of_descends, hdesc g⟩
  · intro call hcall
    rcases mem_allCalls hcall with ⟨k, b, hmem, rfl⟩ |
      ⟨grp, hgrp, hterm, p, pc, hpc, ⟨k, b, hget, rfl⟩ | ⟨b, hmem, rfl⟩⟩
    · rw [hcache] at hmem
      exact ⟨_, hbuilt llc hllc, cache, by simp [hcache], hmem⟩
    · have hmem := List.mem_of_getElem? hget
      have hg := h.mem_of_lists hgrp (lists_of_mem_share hmem)
      obtain ⟨bg, hbg, hb'⟩ := exists_of_mem_cacheAt (mem_share.mp hmem).2
      exact ⟨_, hbuilt b.group hg, bg, hbg, hb'⟩
    · exact ⟨_, hbuilt grp hgrp, pc, List.mem_of_getElem? hpc, hmem⟩
  · refine ⟨cache, hcache ▸ hbuilt llc hllc, fun k b hget => ?_⟩
    exact h.parentsOf_llc (by simp [hcache]) hget
  · intro it hit hne bg hbg b hb'
    obtain ⟨hg, heq⟩ := hgroup it hit
    rw [heq] at hbg
    obtain ⟨n, hn⟩ := List.mem_iff_getElem?.mp hbg
    obtain ⟨grp, hgrp, hterm, -, p, pc, hpc, hshare⟩ :=
      exists_parent_share h hconn hnarrow hg hne hn hb'
    obtain ⟨k, hk⟩ := List.mem_iff_getElem?.mp hshare
    exact ⟨_, hbuilt grp hgrp, pc, List.mem_of_getElem? hpc, k,
      h.parentsOf_share hgrp hterm hpc hk⟩
  · intro it hit hterm bg hbg b hb'
    obtain ⟨hg, heq⟩ := hgroup it hit
    rw [heq] at hbg
    obtain ⟨n, hn⟩ := List.mem_iff_getElem?.mp hbg
    exact ⟨_, h.childrenVecs_share hg hterm hn hb'⟩
  · intro b vec hvec k b'
    exact share_index_iff h hvec
  · intro it hit hne bg hbg b hb' cg hcg cache' hcache' b₀ hb₀
    obtain ⟨hg, heq⟩ := hgroup it hit
    rw [heq] at hbg
    obtain ⟨n, hn⟩ := List.mem_iff_getElem?.mp hbg
    obtain rfl : cg = cacheGroup c llc := (hgroup _ hcg).2
    exact reaches h hcaches hconn hnarrow hcache' hb₀ (hdesc it.1 hg) hne hn hb'

/-- The terminal groups have a single bank, or one stops the initialization. -/
theorem checkTerminals_spec (hb : Built c llc cMap) {groups : List String}
    (hgroups : ∀ g ∈ groups, g ∈ c.cacheGroupNames) (hdesc : ∀ g ∈ groups, Descends c llc g) :
    (groups.forM (checkTerminal cMap (maps c c.cacheGroupNames)) = .ok () ∧
      ∀ g ∈ groups, cVec c g = [] → ((cacheGroup c g).headD []).length = 1) ∨
      groups.forM (checkTerminal cMap (maps c c.cacheGroupNames)) = .error .panic ∧
        ∃ g ∈ groups, cVec c g = [] ∧ ((cacheGroup c g).headD []).length ≠ 1 := by
  induction groups with
  | nil => exact .inl ⟨rfl, by simp⟩
  | cons g groups ih =>
    rw [List.forall_mem_cons] at hgroups hdesc
    have hcons : (g :: groups).forM (checkTerminal cMap (maps c c.cacheGroupNames)) =
        (checkTerminal cMap (maps c c.cacheGroupNames) g >>= fun _ =>
          groups.forM (checkTerminal cMap (maps c c.cacheGroupNames))) := rfl
    rw [hcons, checkTerminal, isTerminal, childList_maps hgroups.1, deref_of_descends hb hdesc.1]
    by_cases hbanks : cVec c g = [] ∧ ((cacheGroup c g).headD []).length ≠ 1
    · refine .inr ⟨?_, g, List.mem_cons_self, hbanks⟩
      simp [bind, Except.bind, hbanks.1, -List.headD_eq_head?_getD, hbanks.2]
    · have hone : (if (cVec c g).isEmpty then (do
          let cg ← (.ok (cacheGroup c g) : Except Stop CacheGroup)
          if (cg.headD []).length ≠ 1 then .error .panic else .ok ()) else .ok ())
          = (.ok () : Except Stop Unit) := by
        split
        · next hempty =>
          exact if_neg fun hne => hbanks ⟨List.isEmpty_iff.mp hempty, hne⟩
        · rfl
      rw [hone]
      rcases ih hgroups.2 hdesc.2 with ⟨hok, hall⟩ | ⟨hpanic, g', hg', hbad⟩
      · refine .inl ⟨hok, List.forall_mem_cons.mpr ⟨fun hterm => ?_, hall⟩⟩
        by_contra hne
        exact hbanks ⟨hterm, hne⟩
      · exact .inr ⟨hpanic, g', List.mem_cons_of_mem g hg', hbad⟩

/-- A group before the first that was not built is among those connected before it. -/
theorem not_refused (hb : Built c llc cMap)
    (hcaches : (cacheGroup c llc).length = 1)
    (hmem : ∀ call ∈ setAllParents (c.mems.map .mem) ((cacheGroup c llc).headD []),
      accepts c call = true) {pre post : List String}
    (hnames : c.cacheGroupNames = pre ++ grp :: post) (hpre : ∀ g ∈ pre, Connects c llc g)
    (hterm : cVec c grp ≠ []) (hdesc : ¬ Descends c llc grp) : ¬ Refused c llc := by
  rintro (⟨g, hg, hbuild⟩ | hno | hno | ⟨pre', grp', post', hnames', hpre', hterm', hconn'⟩ |
    ⟨g, hg, hall, -, -⟩)
  · exact hbuild (hb.buildable g hg)
  · exact hno hcaches
  · exact hno hmem
  · have hnot : grp ∉ pre' ++ [grp'] := fun hin =>
      hdesc (hpre' grp (by simpa [or_comm] using hin) hterm)
    have hsplit : pre ++ grp :: post = (pre' ++ [grp']) ++ post' := by
      rw [← hnames, hnames']
      simp
    have hin : grp' ∈ pre := by
      rcases List.append_eq_append_iff.mp hsplit with ⟨l, hl, hl'⟩ | ⟨l, hl, -⟩
      · cases l with
        | nil =>
          rw [List.append_nil] at hl
          exact hl ▸ List.mem_append_right _ (List.mem_singleton_self grp')
        | cons x l =>
          cases hl'
          exact absurd (hl ▸ by simp) hnot
      · exact hl ▸ by simp
    exact hconn' (hpre grp' hin hterm').2
  · exact hdesc (hall grp (hnames ▸ by simp))

theorem not_refused_of_connects (hb : Built c llc cMap) (hcaches : (cacheGroup c llc).length = 1)
    (hmem : ∀ call ∈ setAllParents (c.mems.map .mem) ((cacheGroup c llc).headD []),
      accepts c call = true) (hconn : ∀ g ∈ c.cacheGroupNames, Connects c llc g)
    (hbanks : ∀ g ∈ c.cacheGroupNames, cVec c g = [] → ((cacheGroup c g).headD []).length = 1) :
    ¬ Refused c llc := by
  rintro (⟨g, hg, hbuild⟩ | hno | hno | ⟨pre, grp, post, hnames, -, hterm, hbad⟩ |
    ⟨g, hg, -, hterm, hbad⟩)
  · exact hbuild (hb.buildable g hg)
  · exact hno hcaches
  · exact hno hmem
  · exact hbad (hconn grp (hnames ▸ by simp) hterm).2
  · exact hbad (hbanks g hg hterm)

/-- A tree has no group with more children than a `uint32_t` counts. -/
theorem narrow_of_isTree (h : Accepted c llc) (hb : Built c llc cMap)
    (hconn : ∀ g ∈ c.cacheGroupNames, Connects c llc g)
    (htree : IsTree c ⟨llc, cMap, allCalls c llc⟩) {g : String} (hg : g ∈ c.cacheGroupNames) :
    (childCaches c g).length < 2 ^ 32 := by
  by_contra hwide
  have hterm : cVec c g ≠ [] := by
    intro hnil
    simp [childCaches, childKeys, hnil] at hwide
  obtain ⟨child, n, bg, b, hlists, hbg, hmem, horphan⟩ :=
    exists_orphan h hg (hconn g hg hterm).2 (Nat.le_of_not_lt hwide)
  have hchild := h.mem_of_lists hg hlists
  obtain ⟨it, hit, rfl⟩ := List.mem_map.mp ((hb.mem_iff child).mpr
    (h.descends_of_connects hconn hchild))
  have hne : it.1 ≠ llc := fun heq => h.llc_mem.2 (mem_childrenOf hg (heq ▸ hlists))
  have hbg' : bg ∈ it.2 := hb.group it hit ▸ List.mem_of_getElem? hbg
  obtain ⟨-, -, pc, -, k, hparents⟩ := htree.parents it hit hne bg hbg' b hmem
  exact List.cons_ne_nil _ _ (hparents.symm.trans horphan)

theorem unique_llc {llc' : String} (h : Accepted c llc) (h' : Accepted c llc') : llc = llc' := by
  have heq := h.llc.symm.trans h'.llc
  simpa using heq

/-- The initialization panics or makes a tree where every group is below the last-level cache, with
fewer than `2 ^ 32` child caches, or an earlier check refuses the configuration. -/
theorem initHierarchy_tree_iff {fuel : Nat} (hfuel : c.cacheGroupNames.length < fuel) :
    TreeOrRefused c (initHierarchy c fuel) ↔ ∀ llc, Accepted c llc → Refused c llc ∨
      ((∀ g ∈ c.cacheGroupNames, Descends c llc g) ∧
        ∀ g ∈ c.cacheGroupNames, (childCaches c g).length < 2 ^ 32) := by
  by_cases hacc : ∃ llc, Accepted c llc
  swap
  · have hno : ∀ llc, ¬ Accepted c llc := fun llc h => hacc ⟨llc, h⟩
    refine iff_of_true ?_ fun llc h => absurd h (hno llc)
    rw [initHierarchy, findRoot_panic hno]
    rfl
  obtain ⟨llc, h⟩ := hacc
  have hforall {P : String → Prop} : (∀ llc, Accepted c llc → P llc) ↔ P llc :=
    ⟨fun hall => hall llc h, fun hp llc' h' => unique_llc h h' ▸ hp⟩
  rw [hforall, initHierarchy, findRoot_ok h]
  simp only [bind, Except.bind]
  rcases buildGroups_spec h hfuel with ⟨s, hrun, hb⟩ | ⟨hrun, g, hg, hbuild⟩
  swap
  · rw [hrun]
    exact iff_of_true rfl (.inl (.build g hg hbuild))
  rw [hrun]
  simp only [deref_of_descends hb .refl]
  by_cases hcaches : (cacheGroup c llc).length = 1
  swap
  · rw [if_pos hcaches]
    exact iff_of_true rfl (.inl (.caches hcaches))
  rw [if_neg (not_not.mpr hcaches)]
  by_cases hmem : ∀ call ∈ setAllParents (c.mems.map .mem) ((cacheGroup c llc).headD []),
      accepts c call = true
  swap
  · rw [if_neg fun hall => hmem (List.all_eq_true.mp hall)]
    exact iff_of_true rfl (.inl (.memory hmem))
  rw [if_pos (List.all_eq_true.mpr hmem)]
  rcases connectGroups_spec h hb (fun g hg => hg) _ with ⟨hconn, hrun⟩ |
    ⟨pre, grp, post, hnames, hpre, hterm, ⟨hdesc, hbad, hrun⟩ | ⟨hdesc, hrun⟩⟩
  · have hdesc := fun g hg => h.descends_of_connects hconn (g := g) hg
    rw [hrun]
    rcases checkTerminals_spec hb (fun g hg => hg) hdesc with ⟨hok, hbanks⟩ |
      ⟨hpanic, g, hg, hterm, hbad⟩
    · rw [hok]
      constructor
      · intro htree
        exact .inr ⟨hdesc, fun g hg => narrow_of_isTree h hb hconn htree hg⟩
      · rintro (hrefused | ⟨-, hnarrow⟩)
        · exact absurd hrefused (not_refused_of_connects hb hcaches hmem hconn hbanks)
        · exact isTree_of h hb hcaches hconn hnarrow
    · rw [hpanic]
      exact iff_of_true rfl (.inl (.terminal g hg hdesc hterm hbad))
  · rw [hrun]
    refine iff_of_true rfl (.inl (.connect pre grp post hnames ?_ hterm hbad))
    exact List.forall_mem_cons.mpr ⟨fun _ => hdesc, fun g hg hne => (hpre g hg hne).1⟩
  · rw [hrun]
    refine iff_of_false (by simp [TreeOrRefused]) ?_
    rintro (hrefused | ⟨hall, -⟩)
    · exact not_refused hb hcaches hmem hnames hpre hterm hdesc hrefused
    · exact hdesc (hall grp (hnames ▸ by simp))

/-- A last-level cache alone, beside two groups that are each other's children. -/
def parentCycle : Config where
  cacheGroupNames := ["llc", "a", "b"]
  caches := fun g =>
    ⟨if g = "a" then "b" else if g = "b" then "a" else "", false, 1, 65536, 1, 1, fun _ => false,
      by decide, by decide, by decide⟩
  mems := [0]
  network := false

theorem parentCycle_maps : maps parentCycle ["llc", "a", "b"] =
    ⟨[("b", "a"), ("a", "b")], [("llc", []), ("a", [["b"]]), ("b", [["a"]])]⟩ := by
  simp only [maps, cVec, parseChildren, parseList, Tokenize.filter_tokenize]
  rfl

theorem initHierarchy_tree_iff_parentCycle :
    TreeOrRefused parentCycle (initHierarchy parentCycle 4) ↔
      ∀ llc, Accepted parentCycle llc → Refused parentCycle llc ∨
        ((∀ g ∈ ["llc", "a", "b"], Descends parentCycle llc g) ∧
          ∀ g ∈ ["llc", "a", "b"], (childCaches parentCycle g).length < 2 ^ 32) :=
  initHierarchy_tree_iff (by decide)

/-- The groups of a parent cycle are not built, and connecting one dereferences a null pointer. -/
theorem parentCycle_crashes : ¬ TreeOrRefused parentCycle (initHierarchy parentCycle 4) := by
  have hparsed : ∀ g ∈ ["llc", "a", "b"],
      (parseChildren (parentCycle.caches g).children).isSome := by
    simp only [parseChildren, parseList, Tokenize.filter_tokenize]
    decide
  have hone : (childrenOf parentCycle ["llc", "a", "b"]).Nodup := by
    rw [← maps_parentMap_keys, parentCycle_maps]
    decide
  have hadmits : AdmitsAll parentCycle [] ["llc", "a", "b"] :=
    ⟨by decide, by decide, hparsed, hone⟩
  have hparse : parseGroups parentCycle = .ok (maps parentCycle ["llc", "a", "b"]) :=
    addGroups_ok hadmits
  have hrun : initHierarchy parentCycle 4 = .error .nullDeref := by
    rw [initHierarchy, findRoot, hparse, parentCycle_maps]
    rfl
  rw [hrun]
  simp [TreeOrRefused]

end InitSystem

end ZSim
