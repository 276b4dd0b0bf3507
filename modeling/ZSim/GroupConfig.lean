import ZSim.ParseMask
import ZSim.WhileLoop
import Mathlib.Data.List.Nodup

/-! The cache groups of a configuration: their children lists and the checks made of them before
any group is built. -/

namespace ZSim

namespace InitSystem

/-- `Bank` is the object that `BuildCacheGroup` makes for a bank of a cache of a group. -/
structure Bank where
  group : String
  cache : Nat
  bank : Nat
  deriving DecidableEq

inductive MemObject where
  | mem (i : Nat)
  | bank (b : Bank)
  deriving DecidableEq

abbrev CacheGroup := List (List Bank)

/-- How the initialization ends early. A failed assert is a panic; `stuck` is what a loop gives
when it is not given enough steps. -/
inductive Stop where
  | panic
  | nullDeref
  | stuck
  deriving DecidableEq

/-- The settings of a group. `bankPanics` is whether the other settings make `BuildCacheBank`
panic, for a terminal group and for another. -/
structure GroupConfig where
  children : String
  isPrefetcher : Bool
  prefetchers : Nat
  size : Nat
  banks : Nat
  caches : Nat
  bankPanics : Bool → Bool
  prefetchers_pos : 0 < prefetchers
  banks_pos : 0 < banks
  caches_pos : 0 < caches

/-- `mems` are the LLC's parents, after the splitter, if any, took their place. -/
structure Config where
  cacheGroupNames : List String
  caches : String → GroupConfig
  mems : List Nat
  network : Bool

/-- `ss >> x` for a `string x`. -/
def extractString (s : List Char) : Option String :=
  let word := (s.dropWhile isspace).takeWhile (!isspace ·)
  if word = [] then none else some (String.ofList word)

/-- `ParseList<string>`. -/
def parseList (listStr : String) (delimiter : Char) : Option (List String) :=
  ((tokenize (· == delimiter) listStr.toList).filter (· ≠ [])).mapM extractString

def parseChildren (children : String) : Option (List (List String)) :=
  (parseList children ' ').bind fun concatGroups => concatGroups.mapM (parseList · '|')

structure GroupMaps where
  parentMap : List (String × String)
  childMap : List (String × List (List String))

def addChild (grp : String) (parentMap : List (String × String)) (child : String) :
    Except Stop (List (String × String)) :=
  if (parentMap.lookup child).isSome then .error .panic
  else .ok (parentMap ++ [(child, grp)])

variable (c : Config)

def addGroup (m : GroupMaps) (group : String) : Except Stop GroupMaps :=
  if group = "mem" then .error .panic
  else if (m.childMap.lookup group).isSome then .error .panic
  else match parseChildren (c.caches group).children with
    | none => .error .panic
    | some cVec => do
      let parentMap ← cVec.flatten.foldlM (addChild group) m.parentMap
      return ⟨parentMap, m.childMap ++ [(group, cVec)]⟩

def parseGroups : Except Stop GroupMaps := c.cacheGroupNames.foldlM (addGroup c) ⟨[], []⟩

def checkChildren (m : GroupMaps) : Except Stop Unit :=
  if m.parentMap.all fun it => it.1 ∈ c.cacheGroupNames then .ok () else .error .panic

def findLLC (m : GroupMaps) : Except Stop String :=
  match (m.childMap.map (·.1)).filter fun g => (m.parentMap.lookup g).isNone with
  | [llc] => .ok llc
  | _ => .error .panic

/-- The children list of a group, as parsed. -/
def cVec (g : String) : List (List String) := (parseChildren (c.caches g).children).getD []

/-- Everything that the groups list as a child, once for each time. -/
def childrenOf (groups : List String) : List String := groups.flatMap fun g => (cVec c g).flatten

/-- The configurations that pass the checks, and their last-level cache. -/
structure Accepted (llc : String) : Prop where
  parsed : ∀ g ∈ c.cacheGroupNames, (parseChildren (c.caches g).children).isSome
  mem : "mem" ∉ c.cacheGroupNames
  nodup : c.cacheGroupNames.Nodup
  oneParent : (childrenOf c c.cacheGroupNames).Nodup
  valid : ∀ child ∈ childrenOf c c.cacheGroupNames, child ∈ c.cacheGroupNames
  llc : c.cacheGroupNames.filter (· ∉ childrenOf c c.cacheGroupNames) = [llc]

/-- The maps of some of the groups. -/
def maps (groups : List String) : GroupMaps where
  parentMap := groups.flatMap fun g => (cVec c g).flatten.map (·, g)
  childMap := groups.map fun g => (g, cVec c g)

variable {c}

theorem lookup_isSome {α : Type} {l : List (String × α)} {k : String} :
    (l.lookup k).isSome ↔ k ∈ l.map (·.1) := by
  rw [List.lookup_isSome_iff]
  simp

theorem maps_parentMap_keys (groups : List String) :
    (maps c groups).parentMap.map (·.1) = childrenOf c groups := by
  simp [maps, childrenOf, List.map_flatMap, Function.comp_def]

theorem maps_childMap_keys (groups : List String) :
    (maps c groups).childMap.map (·.1) = groups := by
  simp [maps, Function.comp_def]

theorem childrenOf_append (groups groups' : List String) :
    childrenOf c (groups ++ groups') = childrenOf c groups ++ childrenOf c groups' :=
  List.flatMap_append

/-- The children of a group are added when all are new. -/
theorem addChildren_ok {grp : String} {children : List String} {parentMap : List (String × String)}
    (h : (parentMap.map (·.1) ++ children).Nodup) :
    children.foldlM (addChild grp) parentMap = .ok (parentMap ++ children.map (·, grp)) := by
  induction children generalizing parentMap with
  | nil => simp; rfl
  | cons child children ih =>
    have hnew : ¬ (parentMap.lookup child).isSome := by
      rw [lookup_isSome]
      exact fun hmem => List.disjoint_of_nodup_append h hmem List.mem_cons_self
    rw [List.foldlM_cons, addChild, if_neg hnew]
    refine (@ih (parentMap ++ [(child, grp)]) (by simpa using h)).trans ?_
    simp

theorem addChildren_panic {grp : String} {children : List String}
    {parentMap : List (String × String)} (hmap : (parentMap.map (·.1)).Nodup)
    (h : ¬ (parentMap.map (·.1) ++ children).Nodup) :
    children.foldlM (addChild grp) parentMap = .error .panic := by
  induction children generalizing parentMap with
  | nil => simp [hmap] at h
  | cons child children ih =>
    rw [List.foldlM_cons, addChild]
    by_cases hmem : child ∈ parentMap.map (·.1)
    · rw [if_pos (lookup_isSome.mpr hmem)]
      rfl
    · rw [if_neg fun hsome => hmem (lookup_isSome.mp hsome)]
      refine @ih (parentMap ++ [(child, grp)]) ?_ (by simpa using h)
      simp only [List.map_append, List.map_cons, List.map_nil]
      exact List.nodup_append.mpr ⟨hmap, by simp, fun a ha b hb hab => by
        rw [List.mem_singleton] at hb
        exact hmem (hb ▸ hab ▸ ha)⟩

variable (c) in
/-- What lets a group in after others. -/
structure Admits (groups : List String) (group : String) : Prop where
  mem : group ≠ "mem"
  nodup : (groups ++ [group]).Nodup
  parsed : (parseChildren (c.caches group).children).isSome
  oneParent : (childrenOf c (groups ++ [group])).Nodup

variable {groups : List String} {group : String}

theorem cVec_eq {cvec : List (List String)}
    (h : parseChildren (c.caches group).children = some cvec) : cVec c group = cvec := by
  rw [cVec, h]
  rfl

theorem childrenOf_snoc :
    childrenOf c (groups ++ [group]) = childrenOf c groups ++ (cVec c group).flatten := by
  rw [childrenOf_append]
  simp [childrenOf]

theorem addGroup_ok (h : Admits c groups group) :
    addGroup c (maps c groups) group = .ok (maps c (groups ++ [group])) := by
  have hnew : ¬ ((maps c groups).childMap.lookup group).isSome := by
    rw [lookup_isSome, maps_childMap_keys]
    exact fun hmem => List.disjoint_of_nodup_append h.nodup hmem List.mem_cons_self
  obtain ⟨cvec, hparse⟩ := Option.isSome_iff_exists.mp h.parsed
  have hone := h.oneParent
  rw [childrenOf_snoc, ← maps_parentMap_keys, cVec_eq hparse] at hone
  rw [addGroup, if_neg h.mem, if_neg hnew, hparse]
  simp only [addChildren_ok hone]
  simp [maps, cVec_eq hparse]

theorem addGroup_panic (hgroups : groups.Nodup) (hchildren : (childrenOf c groups).Nodup)
    (h : ¬ Admits c groups group) : addGroup c (maps c groups) group = .error .panic := by
  unfold addGroup
  split_ifs with hmem hdup
  · rfl
  · rfl
  · rw [lookup_isSome, maps_childMap_keys] at hdup
    cases hparse : parseChildren (c.caches group).children with
    | none => rfl
    | some cvec =>
      have hnodup : (groups ++ [group]).Nodup :=
        List.nodup_append.mpr ⟨hgroups, by simp, fun a ha b hb hab => by
          rw [List.mem_singleton] at hb
          exact hdup (hb ▸ hab ▸ ha)⟩
      have hone : ¬ ((maps c groups).parentMap.map (·.1) ++ cvec.flatten).Nodup := by
        rw [maps_parentMap_keys, ← cVec_eq hparse, ← childrenOf_snoc]
        exact fun hone => h ⟨hmem, hnodup, by simp [hparse], hone⟩
      rw [← maps_parentMap_keys] at hchildren
      simp only [addChildren_panic hchildren hone]
      rfl

variable (c) in
/-- The groups after others are let in together or not at all. -/
structure AdmitsAll (pre groups : List String) : Prop where
  mem : "mem" ∉ groups
  nodup : (pre ++ groups).Nodup
  parsed : ∀ g ∈ groups, (parseChildren (c.caches g).children).isSome
  oneParent : (childrenOf c (pre ++ groups)).Nodup

variable {pre : List String} {g : String}

theorem admitsAll_cons :
    AdmitsAll c pre (g :: groups) ↔ Admits c pre g ∧ AdmitsAll c (pre ++ [g]) groups := by
  have hsplit : pre ++ g :: groups = (pre ++ [g]) ++ groups := by simp
  constructor
  · rintro ⟨hmem, hnodup, hparsed, hone⟩
    rw [hsplit] at hnodup hone
    rw [List.mem_cons, not_or] at hmem
    rw [List.forall_mem_cons] at hparsed
    refine ⟨⟨Ne.symm hmem.1, (List.nodup_append.mp hnodup).1, hparsed.1, ?_⟩,
      hmem.2, hnodup, hparsed.2, hone⟩
    rw [childrenOf_append] at hone
    exact (List.nodup_append.mp hone).1
  · rintro ⟨hg, hmem, hnodup, hparsed, hone⟩
    rw [← hsplit] at hnodup hone
    refine ⟨?_, hnodup, List.forall_mem_cons.mpr ⟨hg.parsed, hparsed⟩, hone⟩
    rw [List.mem_cons, not_or]
    exact ⟨Ne.symm hg.mem, hmem⟩

theorem addGroups_ok (h : AdmitsAll c pre groups) :
    groups.foldlM (addGroup c) (maps c pre) = .ok (maps c (pre ++ groups)) := by
  induction groups generalizing pre with
  | nil => simp; rfl
  | cons g groups ih =>
    obtain ⟨hg, hrest⟩ := admitsAll_cons.mp h
    rw [List.foldlM_cons, addGroup_ok hg]
    refine (ih hrest).trans ?_
    simp

theorem addGroups_panic (hpre : pre.Nodup) (hchildren : (childrenOf c pre).Nodup)
    (h : ¬ AdmitsAll c pre groups) :
    groups.foldlM (addGroup c) (maps c pre) = .error .panic := by
  induction groups generalizing pre with
  | nil => exact absurd ⟨by simp, by simpa using hpre, by simp, by simpa using hchildren⟩ h
  | cons g groups ih =>
    rw [List.foldlM_cons]
    by_cases hg : Admits c pre g
    · rw [addGroup_ok hg]
      exact ih hg.nodup hg.oneParent fun hrest => h (admitsAll_cons.mpr ⟨hg, hrest⟩)
    · rw [addGroup_panic hpre hchildren hg]
      rfl

/-- The passes up to the last-level cache. -/
def findRoot (c : Config) : Except Stop (GroupMaps × String) := do
  let m ← parseGroups c
  checkChildren c m
  let llc ← findLLC m
  return (m, llc)

theorem checkChildren_maps : checkChildren c (maps c groups) =
    if ∀ child ∈ childrenOf c groups, child ∈ c.cacheGroupNames then .ok ()
    else .error .panic := by
  have hall : ((maps c groups).parentMap.all fun it => it.1 ∈ c.cacheGroupNames) = true ↔
      ∀ child ∈ childrenOf c groups, child ∈ c.cacheGroupNames := by
    rw [← maps_parentMap_keys, List.all_eq_true, List.forall_mem_map]
    simp
  rw [checkChildren]
  exact if_congr hall rfl rfl

theorem parentless_maps : ((maps c groups).childMap.map (·.1)).filter
    (fun g => ((maps c groups).parentMap.lookup g).isNone)
      = groups.filter (· ∉ childrenOf c groups) := by
  rw [maps_childMap_keys]
  refine List.filter_congr fun g _ => ?_
  rw [← maps_parentMap_keys, Bool.eq_iff_iff, decide_eq_true_eq, ← lookup_isSome]
  cases (maps c groups).parentMap.lookup g <;> simp

theorem findRoot_ok {llc : String} (h : Accepted c llc) :
    findRoot c = .ok (maps c c.cacheGroupNames, llc) := by
  have hall : AdmitsAll c [] c.cacheGroupNames := ⟨h.mem, h.nodup, h.parsed, h.oneParent⟩
  have hparse : parseGroups c = .ok (maps c c.cacheGroupNames) := addGroups_ok hall
  have hllc : findLLC (maps c c.cacheGroupNames) = .ok llc := by
    rw [findLLC, parentless_maps, h.llc]
  rw [findRoot, hparse]
  simp only [bind, Except.bind, checkChildren_maps, if_pos h.valid, hllc]
  rfl

/-- Everything else is refused before any group is built. -/
theorem findRoot_panic (h : ∀ llc, ¬ Accepted c llc) : findRoot c = .error .panic := by
  rw [findRoot]
  by_cases hall : AdmitsAll c [] c.cacheGroupNames
  · have hparse : parseGroups c = .ok (maps c c.cacheGroupNames) := addGroups_ok hall
    simp only [hparse, bind, Except.bind, checkChildren_maps]
    split_ifs with hvalid
    · have hllc : findLLC (maps c c.cacheGroupNames) = .error .panic := by
        rw [findLLC, parentless_maps]
        split
        · next llc heq =>
          exact absurd ⟨hall.parsed, hall.mem, hall.nodup, hall.oneParent, hvalid, heq⟩ (h llc)
        · rfl
      rw [hllc]
    · rfl
  · have hparse : parseGroups c = .error .panic :=
      addGroups_panic List.nodup_nil List.nodup_nil hall
    rw [hparse]
    rfl

end InitSystem

end ZSim
