import ZSim.GroupBuild

/-! Connecting the groups: the calls of `setParents` and `setChildren` on the banks. -/

namespace ZSim

namespace InitSystem

inductive Call where
  | setParents (b : Bank) (childId : Nat) (parents : List MemObject)
  | setChildren (b : Bank) (children : List Bank)
  deriving DecidableEq

def MAX_CACHE_CHILDREN : Nat := 256

variable (c : Config)

/-- A call that does not panic, on a prefetcher or a cache. -/
def accepts : Call → Bool
  | .setParents b _ parents =>
    if (c.caches b.group).isPrefetcher then parents.length = 1 && !c.network else true
  | .setChildren b children =>
    if (c.caches b.group).isPrefetcher then children.length = 1 && !c.network
    else children.length ≤ MAX_CACHE_CHILDREN

/-- `*cMap[group]`. -/
def deref (cMap : List (String × CacheGroup)) (group : String) : Except Stop CacheGroup :=
  match cMap.lookup group with
  | some cg => .ok cg
  | none => .error .nullDeref

def sized (cMap : List (String × CacheGroup)) (vecSize : Nat) (child : String) :
    Except Stop CacheGroup := do
  let cg ← deref cMap child
  if cg.length ≠ vecSize then .error .panic else .ok cg

/-- The caches of the groups of `childVec` in turn. -/
def interleave (cMap : List (String × CacheGroup)) :
    List String → Except Stop CacheGroup
  | [] => .ok []
  | first :: childVec => do
    let cg ← deref cMap first
    let groups ← (first :: childVec).mapM (sized cMap cg.length)
    return (List.range cg.length).flatMap fun i => groups.map fun cg => cg.getD i []

def linearize (cMap : List (String × CacheGroup)) (childVecs : List (List String)) :
    Except Stop CacheGroup :=
  childVecs.foldlM (fun childCaches childVec => do
    let interleavedGroup ← interleave cMap childVec
    return childCaches ++ interleavedGroup) []

def setAllParents (parents : List MemObject) (children : List Bank) : List Call :=
  children.zipIdx.map fun (b, childId) => .setParents b childId parents

/-- The calls for a parent cache. -/
def connectCache (parentCache childrenVec : List Bank) : List Call :=
  setAllParents (parentCache.map .bank) childrenVec ++
    parentCache.map fun b => .setChildren b childrenVec

/-- The calls for the caches of a group, each with its share of the children. -/
def connectCaches (parentCaches childCaches : CacheGroup) (childrenPerParent : Nat) : List Call :=
  parentCaches.zipIdx.flatMap fun (parentCache, p) =>
    connectCache parentCache
      ((childCaches.drop (p * childrenPerParent)).take childrenPerParent).flatten

def connectGroup (cMap : List (String × CacheGroup)) (m : GroupMaps) (calls : List Call)
    (grp : String) : Except Stop (List Call) :=
  if isTerminal m grp then .ok calls
  else do
    let parentCaches ← deref cMap grp
    let childCaches ← linearize cMap (childList m grp)
    let children := childCaches.length % 2 ^ 32
    if parentCaches.length = 0 ∨ children = 0 ∨ children % parentCaches.length ≠ 0 then
      .error .panic
    else
      let new := connectCaches parentCaches childCaches (children / parentCaches.length)
      if new.all (accepts c) then .ok (calls ++ new) else .error .panic

/-- The check that terminal caches have a single bank. -/
def checkTerminal (cMap : List (String × CacheGroup)) (m : GroupMaps) (grp : String) :
    Except Stop Unit :=
  if isTerminal m grp then do
    let cg ← deref cMap grp
    if (cg.headD []).length ≠ 1 then .error .panic else .ok ()
  else .ok ()

structure Hierarchy where
  llc : String
  cMap : List (String × CacheGroup)
  calls : List Call

/-- The hierarchy part of `InitSystem`. -/
def initHierarchy (fuel : Nat) : Except Stop Hierarchy := do
  let (m, llc) ← findRoot c
  let s ← buildGroups c fuel m llc
  let llcCaches ← deref s.cMap llc
  if llcCaches.length ≠ 1 then .error .panic
  else
    let llcCalls := setAllParents (c.mems.map .mem) (llcCaches.headD [])
    if llcCalls.all (accepts c) then do
      let calls ← c.cacheGroupNames.foldlM (connectGroup c s.cMap m) llcCalls
      c.cacheGroupNames.forM (checkTerminal s.cMap m)
      return ⟨llc, s.cMap, calls⟩
    else .error .panic

/-- The caches of the groups of `childVec` in turn, by group and index. -/
def interleaveKeys : List String → List (String × Nat)
  | [] => []
  | first :: childVec =>
    (List.range (cacheGroup c first).length).flatMap fun i => (first :: childVec).map (·, i)

def childKeys (grp : String) : List (String × Nat) := (cVec c grp).flatMap (interleaveKeys c)

def cacheAt (key : String × Nat) : List Bank := (cacheGroup c key.1).getD key.2 []

def childCaches (grp : String) : CacheGroup := (childKeys c grp).map (cacheAt c)

/-- Interleaved groups have the same number of caches. -/
def SameSizes (childVec : List String) : Prop :=
  ∀ first ∈ childVec.head?, ∀ child ∈ childVec,
    (cacheGroup c child).length = (cacheGroup c first).length

def childrenPerParent (grp : String) : Nat :=
  (childCaches c grp).length % 2 ^ 32 / (cacheGroup c grp).length

def groupCalls (grp : String) : List Call :=
  connectCaches (cacheGroup c grp) (childCaches c grp) (childrenPerParent c grp)

/-- A group that is connected to its children without a panic. -/
structure Connectable (grp : String) : Prop where
  sizes : ∀ childVec ∈ cVec c grp, SameSizes c childVec
  children : (childCaches c grp).length % 2 ^ 32 ≠ 0
  divisible : (childCaches c grp).length % 2 ^ 32 % (cacheGroup c grp).length = 0
  accepted : ∀ call ∈ groupCalls c grp, accepts c call = true

variable {c} {llc g grp child : String} {cMap : List (String × CacheGroup)}

theorem cacheGroup_length_pos : 0 < (cacheGroup c g).length := by
  rw [cacheGroup]
  split
  · simpa using (c.caches g).prefetchers_pos
  · simpa using (c.caches g).caches_pos

theorem deref_of_descends (hb : Built c llc cMap) (hg : Descends c llc g) :
    deref cMap g = .ok (cacheGroup c g) := by
  rw [deref, hb.lookup_of_descends hg]

theorem deref_of_not_descends (hb : Built c llc cMap) (hg : ¬ Descends c llc g) :
    deref cMap g = .error .nullDeref := by
  rw [deref, hb.lookup_of_not_descends hg]

theorem mapM_sized (hb : Built c llc cMap) {vecSize : Nat} {childVec : List String}
    (hdesc : ∀ child ∈ childVec, Descends c llc child) :
    childVec.mapM (sized cMap vecSize) =
      if ∀ child ∈ childVec, (cacheGroup c child).length = vecSize then
        .ok (childVec.map (cacheGroup c)) else .error .panic := by
  induction childVec with
  | nil => simp; rfl
  | cons child childVec ih =>
    rw [List.forall_mem_cons] at hdesc
    rw [List.mapM_cons, sized, deref_of_descends hb hdesc.1, ih hdesc.2]
    simp only [List.forall_mem_cons]
    by_cases hsize : (cacheGroup c child).length = vecSize
    · by_cases hall : ∀ child ∈ childVec, (cacheGroup c child).length = vecSize
      · rw [if_pos hall, if_pos ⟨hsize, hall⟩]
        simp [bind, Except.bind, hsize, pure, Except.pure]
      · have hcons : ¬ ((cacheGroup c child).length = vecSize ∧
            ∀ child ∈ childVec, (cacheGroup c child).length = vecSize) := fun h => hall h.2
        rw [if_neg hall, if_neg hcons]
        simp [bind, Except.bind, hsize]
    · have hcons : ¬ ((cacheGroup c child).length = vecSize ∧
          ∀ child ∈ childVec, (cacheGroup c child).length = vecSize) := fun h => hsize h.1
      rw [if_neg hcons]
      simp [bind, Except.bind, hsize]

theorem interleave_ok (hb : Built c llc cMap) {childVec : List String}
    (hdesc : ∀ child ∈ childVec, Descends c llc child) (hsizes : SameSizes c childVec) :
    interleave cMap childVec = .ok ((interleaveKeys c childVec).map (cacheAt c)) := by
  match childVec with
  | [] => rfl
  | first :: childVec =>
    have hfirst := hdesc first List.mem_cons_self
    have hall : ∀ child ∈ first :: childVec,
        (cacheGroup c child).length = (cacheGroup c first).length := hsizes first rfl
    rw [interleave, deref_of_descends hb hfirst]
    simp only [bind, Except.bind, mapM_sized hb hdesc, if_pos hall]
    simp [interleaveKeys, List.map_flatMap, Function.comp_def, cacheAt, pure, Except.pure]

theorem interleave_panic (hb : Built c llc cMap) {childVec : List String}
    (hdesc : ∀ child ∈ childVec, Descends c llc child) (hsizes : ¬ SameSizes c childVec) :
    interleave cMap childVec = .error .panic := by
  match childVec with
  | [] => exact absurd (fun first h => by cases h) hsizes
  | first :: childVec =>
    have hfirst := hdesc first List.mem_cons_self
    have hall : ¬ ∀ child ∈ first :: childVec,
        (cacheGroup c child).length = (cacheGroup c first).length := fun hall =>
      hsizes fun first' hfirst' => by
        cases hfirst'
        exact hall
    rw [interleave, deref_of_descends hb hfirst]
    simp only [bind, Except.bind, mapM_sized hb hdesc, if_neg hall]

/-- The caches of several concatenated groups. -/
theorem linearize_ok (hb : Built c llc cMap) {childVecs : List (List String)} {acc : CacheGroup}
    (hdesc : ∀ childVec ∈ childVecs, ∀ child ∈ childVec, Descends c llc child)
    (hsizes : ∀ childVec ∈ childVecs, SameSizes c childVec) :
    childVecs.foldlM (fun childCaches childVec => do
      let interleavedGroup ← interleave cMap childVec
      return childCaches ++ interleavedGroup) acc
      = .ok (acc ++ (childVecs.flatMap (interleaveKeys c)).map (cacheAt c)) := by
  induction childVecs generalizing acc with
  | nil => simp; rfl
  | cons childVec childVecs ih =>
    rw [List.forall_mem_cons] at hdesc hsizes
    rw [List.foldlM_cons, interleave_ok hb hdesc.1 hsizes.1]
    refine (ih hdesc.2 hsizes.2).trans ?_
    simp

theorem linearize_panic (hb : Built c llc cMap) {childVecs : List (List String)} {acc : CacheGroup}
    (hdesc : ∀ childVec ∈ childVecs, ∀ child ∈ childVec, Descends c llc child)
    (hsizes : ¬ ∀ childVec ∈ childVecs, SameSizes c childVec) :
    childVecs.foldlM (fun childCaches childVec => do
      let interleavedGroup ← interleave cMap childVec
      return childCaches ++ interleavedGroup) acc = .error .panic := by
  induction childVecs generalizing acc with
  | nil => exact absurd (by simp) hsizes
  | cons childVec childVecs ih =>
    rw [List.forall_mem_cons] at hdesc hsizes
    rw [List.foldlM_cons]
    by_cases hfirst : SameSizes c childVec
    · rw [interleave_ok hb hdesc.1 hfirst]
      exact ih hdesc.2 fun hrest => hsizes ⟨hfirst, hrest⟩
    · rw [interleave_panic hb hdesc.1 hfirst]
      rfl

theorem descends_children (hg : Descends c llc grp) :
    ∀ childVec ∈ cVec c grp, ∀ child ∈ childVec, Descends c llc child :=
  fun _ hvec _ hchild => hg.tail (List.mem_flatten.mpr ⟨_, hvec, hchild⟩)

/-- A terminal group has nothing to connect. -/
theorem connectGroup_terminal {calls : List Call} (hmem : grp ∈ c.cacheGroupNames)
    (hterm : cVec c grp = []) :
    connectGroup c cMap (maps c c.cacheGroupNames) calls grp = .ok calls := by
  rw [connectGroup, isTerminal, childList_maps hmem, hterm]
  rfl

/-- A group that was not built is connected all the same. -/
theorem connectGroup_null (hb : Built c llc cMap) {calls : List Call}
    (hmem : grp ∈ c.cacheGroupNames) (hterm : cVec c grp ≠ []) (hg : ¬ Descends c llc grp) :
    connectGroup c cMap (maps c c.cacheGroupNames) calls grp = .error .nullDeref := by
  rw [connectGroup, isTerminal, childList_maps hmem, if_neg (by simpa using hterm),
    deref_of_not_descends hb hg]
  rfl

section

variable (h : Accepted c llc) (hb : Built c llc cMap)
include h hb

theorem connectGroup_ok {calls : List Call} (hterm : cVec c grp ≠ []) (hg : Descends c llc grp)
    (hconn : Connectable c grp) :
    connectGroup c cMap (maps c c.cacheGroupNames) calls grp = .ok (calls ++ groupCalls c grp) := by
  have hmem := h.mem_of_descends hg
  have hlin : linearize cMap (cVec c grp) = .ok (childCaches c grp) :=
    linearize_ok hb (descends_children hg) hconn.sizes
  have hpos := cacheGroup_length_pos (c := c) (g := grp)
  have hcheck : ¬ ((cacheGroup c grp).length = 0 ∨ (childCaches c grp).length % 2 ^ 32 = 0 ∨
      (childCaches c grp).length % 2 ^ 32 % (cacheGroup c grp).length ≠ 0) := by
    have hchildren := hconn.children
    have hdiv := hconn.divisible
    omega
  have haccepted : (groupCalls c grp).all (accepts c) = true :=
    List.all_eq_true.mpr hconn.accepted
  rw [connectGroup, isTerminal, childList_maps hmem, if_neg (by simpa using hterm),
    deref_of_descends hb hg]
  simp only [bind, Except.bind, hlin, if_neg hcheck]
  exact if_pos haccepted

theorem connectGroup_panic {calls : List Call} (hterm : cVec c grp ≠ []) (hg : Descends c llc grp)
    (hconn : ¬ Connectable c grp) :
    connectGroup c cMap (maps c c.cacheGroupNames) calls grp = .error .panic := by
  have hmem := h.mem_of_descends hg
  rw [connectGroup, isTerminal, childList_maps hmem, if_neg (by simpa using hterm),
    deref_of_descends hb hg]
  by_cases hsizes : ∀ childVec ∈ cVec c grp, SameSizes c childVec
  · have hlin : linearize cMap (cVec c grp) = .ok (childCaches c grp) :=
      linearize_ok hb (descends_children hg) hsizes
    simp only [bind, Except.bind, hlin]
    split_ifs with hcheck haccepted
    · rfl
    · rw [not_or, not_or, not_not] at hcheck
      exact absurd ⟨hsizes, hcheck.2.1, hcheck.2.2, List.all_eq_true.mp haccepted⟩ hconn
    · rfl
  · have hlin : linearize cMap (cVec c grp) = .error .panic :=
      linearize_panic hb (descends_children hg) hsizes
    simp only [bind, Except.bind, hlin]

end

end InitSystem

end ZSim
