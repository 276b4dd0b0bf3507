import ZSim.GroupConfig
import Mathlib.Data.List.Lattice
import Mathlib.Data.List.Pairwise
import Mathlib.Data.List.Perm.Subperm
import Mathlib.Logic.Relation

/-! Building the cache groups from the last-level cache down. -/

namespace ZSim

namespace InitSystem

variable (c : Config)

/-- The banks of a group, by cache. -/
def cacheGroup (name : String) : CacheGroup :=
  if (c.caches name).isPrefetcher then
    (List.range (c.caches name).prefetchers).map fun i => [⟨name, i, 0⟩]
  else
    (List.range (c.caches name).caches).map fun i =>
      (List.range (c.caches name).banks).map fun j => ⟨name, i, j⟩

def buildCacheGroup (name : String) (isTerminal : Bool) : Except Stop CacheGroup :=
  if (c.caches name).isPrefetcher then .ok (cacheGroup c name)
  else if (c.caches name).size % (c.caches name).banks ≠ 0 then .error .panic
  else if (c.caches name).bankPanics isTerminal then .error .panic
  else .ok (cacheGroup c name)

def childList (m : GroupMaps) (group : String) : List (List String) :=
  (m.childMap.lookup group).getD []

def isTerminal (m : GroupMaps) (group : String) : Bool := (childList m group).isEmpty

/-- `cMap` is in the order of the building. -/
structure BuildState where
  cMap : List (String × CacheGroup)
  fringe : List String

def buildStep (m : GroupMaps) (s : BuildState) : Except Stop BuildState :=
  match s.fringe with
  | [] => .error .nullDeref
  | group :: fringe =>
    if (s.cMap.lookup group).isSome then .error .panic
    else (buildCacheGroup c group (isTerminal m group)).map fun cg =>
      ⟨s.cMap ++ [(group, cg)], fringe ++ (childList m group).flatten⟩

def buildGroups (fuel : Nat) (m : GroupMaps) (llc : String) : Except Stop BuildState :=
  WhileLoop.whileM (.error .stuck) (fun s => !s.fringe.isEmpty) (buildStep c m) fuel ⟨[], [llc]⟩

/-- A group is a child of another. -/
def Lists (g child : String) : Prop := child ∈ (cVec c g).flatten

/-- The groups below another, itself included. -/
def Descends : String → String → Prop := Relation.ReflTransGen (Lists c)

/-- The settings that `BuildCacheGroup` takes. -/
def Buildable (g : String) : Prop :=
  (c.caches g).isPrefetcher = true ∨
    (c.caches g).size % (c.caches g).banks = 0 ∧
      (c.caches g).bankPanics (cVec c g).isEmpty = false

variable {c} {llc g child : String}

theorem childList_maps {groups : List String} (h : g ∈ groups) :
    childList (maps c groups) g = cVec c g := by
  induction groups with
  | nil => cases h
  | cons g' groups ih =>
    simp only [childList, maps, List.map_cons, List.lookup_cons]
    by_cases heq : g = g'
    · simp [heq]
    · rw [beq_false_of_ne heq]
      exact ih ((List.mem_cons.mp h).resolve_left heq)

theorem build_of_buildable (h : Buildable c g) :
    buildCacheGroup c g (cVec c g).isEmpty = .ok (cacheGroup c g) := by
  rw [buildCacheGroup]
  rcases h with hp | ⟨hsize, hbank⟩
  · rw [if_pos hp]
  · simp [hsize, hbank]

theorem build_of_not_buildable (h : ¬ Buildable c g) :
    buildCacheGroup c g (cVec c g).isEmpty = .error .panic := by
  rw [buildCacheGroup]
  split_ifs with hp hsize hbank
  · exact absurd (.inl hp) h
  · rfl
  · rfl
  · exact absurd (.inr ⟨not_not.mp hsize, Bool.eq_false_of_not_eq_true hbank⟩) h

theorem mem_childrenOf (hg : g ∈ c.cacheGroupNames) (hchild : Lists c g child) :
    child ∈ childrenOf c c.cacheGroupNames :=
  List.mem_flatMap.mpr ⟨g, hg, hchild⟩

namespace Accepted

variable (h : Accepted c llc)
include h

theorem llc_mem : llc ∈ c.cacheGroupNames ∧ llc ∉ childrenOf c c.cacheGroupNames := by
  have hmem : llc ∈ c.cacheGroupNames.filter (· ∉ childrenOf c c.cacheGroupNames) := by
    rw [h.llc]
    exact List.mem_singleton_self llc
  simpa using hmem

theorem mem_of_lists (hg : g ∈ c.cacheGroupNames) (hchild : Lists c g child) :
    child ∈ c.cacheGroupNames :=
  h.valid child (mem_childrenOf hg hchild)

theorem mem_of_descends (hg : Descends c llc g) : g ∈ c.cacheGroupNames := by
  induction hg with
  | refl => exact h.llc_mem.1
  | tail _ hchild ih => exact h.mem_of_lists ih hchild

theorem children_nodup (hg : g ∈ c.cacheGroupNames) : (cVec c g).flatten.Nodup :=
  (List.nodup_flatMap.mp h.oneParent).1 g hg

theorem parent_unique {g' : String} (hg : g ∈ c.cacheGroupNames) (hg' : g' ∈ c.cacheGroupNames)
    (hchild : Lists c g child) (hchild' : Lists c g' child) : g = g' := by
  by_contra hne
  have hdisj := (List.nodup_flatMap.mp h.oneParent).2
  have : Std.Symm (Function.onFun List.Disjoint fun g => (cVec c g).flatten) :=
    ⟨fun _ _ hab => List.Disjoint.symm hab⟩
  exact hdisj.forall hg hg' hne hchild hchild'

end Accepted

/-- The groups built and those waiting, while all is well. -/
structure BuildInv (c : Config) (llc : String) (s : BuildState) : Prop where
  nodup : (s.cMap.map (·.1) ++ s.fringe).Nodup
  descends : ∀ g ∈ s.cMap.map (·.1) ++ s.fringe, Descends c llc g
  built : ∀ it ∈ s.cMap, it.2 = cacheGroup c it.1 ∧ Buildable c it.1
  root : llc ∈ s.cMap.map (·.1) ++ s.fringe
  closed : ∀ g ∈ s.cMap.map (·.1), ∀ child, Lists c g child →
    child ∈ s.cMap.map (·.1) ++ s.fringe
  parent : ∀ g ∈ s.cMap.map (·.1) ++ s.fringe, g = llc ∨ ∃ p ∈ s.cMap.map (·.1), Lists c p g

namespace BuildInv

variable {s : BuildState}

theorem init : BuildInv c llc ⟨[], [llc]⟩ where
  nodup := by simp
  descends := fun g hg => by
    rw [List.mem_singleton.mp hg]
    exact .refl
  built := by simp
  root := by simp
  closed := by simp
  parent := by simp

/-- The next group was not built before, and its children are neither built nor waiting. -/
theorem nodup_step (h : Accepted c llc) {fringe : List String} (hinv : BuildInv c llc s)
    (hs : s.fringe = g :: fringe) :
    (s.cMap.map (·.1) ++ g :: fringe ++ (cVec c g).flatten).Nodup := by
  have hnodup := hinv.nodup
  have hdesc := hinv.descends
  have hparent := hinv.parent
  rw [hs] at hnodup hdesc hparent
  have hmem := h.mem_of_descends (hdesc g (by simp))
  refine List.nodup_append.mpr ⟨hnodup, h.children_nodup hmem, fun child hold b hchild hab => ?_⟩
  subst hab
  rcases hparent child hold with rfl | ⟨p, hp, hlists⟩
  · exact h.llc_mem.2 (mem_childrenOf hmem hchild)
  · have hpmem := h.mem_of_descends (hdesc p (List.mem_append_left _ hp))
    have hpg := h.parent_unique hpmem hmem hlists hchild
    exact List.disjoint_of_nodup_append hnodup (hpg ▸ hp) List.mem_cons_self

theorem length_le (h : Accepted c llc) (hinv : BuildInv c llc s) :
    s.cMap.length + s.fringe.length ≤ c.cacheGroupNames.length := by
  have hsub : s.cMap.map (·.1) ++ s.fringe ⊆ c.cacheGroupNames :=
    fun g hg => h.mem_of_descends (hinv.descends g hg)
  simpa using (List.subperm_of_subset hinv.nodup hsub).length_le

theorem built_step (h : Accepted c llc) {fringe : List String} (hinv : BuildInv c llc s)
    (hs : s.fringe = g :: fringe) (hbuild : Buildable c g) :
    BuildInv c llc ⟨s.cMap ++ [(g, cacheGroup c g)], fringe ++ (cVec c g).flatten⟩ := by
  have hkeys : (s.cMap ++ [(g, cacheGroup c g)]).map (·.1) ++ (fringe ++ (cVec c g).flatten)
      = s.cMap.map (·.1) ++ s.fringe ++ (cVec c g).flatten := by
    simp [hs]
  have hold {g' : String} (hg' : g' ∈ s.cMap.map (·.1)) :
      g' ∈ (s.cMap ++ [(g, cacheGroup c g)]).map (·.1) := by
    rw [List.map_append]
    exact List.mem_append_left _ hg'
  have hnew : g ∈ (s.cMap ++ [(g, cacheGroup c g)]).map (·.1) := by simp
  have hdesc : Descends c llc g := hinv.descends g (by simp [hs])
  refine ⟨?_, ?_, ?_, ?_, ?_, ?_⟩ <;> simp only [hkeys]
  · exact hs ▸ hinv.nodup_step h hs
  · intro g' hg'
    rcases List.mem_append.mp hg' with hg' | hchild
    · exact hinv.descends g' hg'
    · exact hdesc.tail hchild
  · intro it hit
    rcases List.mem_append.mp hit with hit | hit
    · exact hinv.built it hit
    · rw [List.mem_singleton.mp hit]
      exact ⟨rfl, hbuild⟩
  · exact List.mem_append_left _ hinv.root
  · intro g' hg' child hchild
    rw [List.map_append, List.mem_append] at hg'
    rcases hg' with hg' | hg'
    · exact List.mem_append_left _ (hinv.closed g' hg' child hchild)
    · rw [List.map_cons, List.map_nil, List.mem_singleton] at hg'
      subst hg'
      exact List.mem_append_right _ hchild
  · intro g' hg'
    rcases List.mem_append.mp hg' with hg' | hchild
    · exact (hinv.parent g' hg').imp_right fun ⟨p, hp, hlists⟩ => ⟨p, hold hp, hlists⟩
    · exact .inr ⟨g, hnew, hchild⟩

theorem step (h : Accepted c llc) (hinv : BuildInv c llc s) (hne : s.fringe ≠ []) :
    (∃ s', buildStep c (maps c c.cacheGroupNames) s = .ok s' ∧ BuildInv c llc s' ∧
      s'.cMap.length = s.cMap.length + 1) ∨
    ∃ e, buildStep c (maps c c.cacheGroupNames) s = .error e ∧
      e = .panic ∧ ∃ g, Descends c llc g ∧ ¬ Buildable c g := by
  match hs : s.fringe with
  | [] => exact absurd hs hne
  | g :: fringe =>
    have hdesc : Descends c llc g := hinv.descends g (by simp [hs])
    have hmem := h.mem_of_descends hdesc
    have hnodup := hinv.nodup_step h hs
    have hnew : ¬ (s.cMap.lookup g).isSome := by
      rw [lookup_isSome]
      exact fun hold => List.disjoint_of_nodup_append (List.nodup_append.mp hnodup).1 hold
        List.mem_cons_self
    simp only [buildStep, hs, if_neg hnew, isTerminal, childList_maps hmem]
    by_cases hbuild : Buildable c g
    · rw [build_of_buildable hbuild]
      refine .inl ⟨_, rfl, hinv.built_step h hs hbuild, by simp⟩
    · rw [build_of_not_buildable hbuild]
      exact .inr ⟨_, rfl, rfl, g, hdesc, hbuild⟩

/-- At the end the groups built are those below the last-level cache. -/
theorem mem_iff (hinv : BuildInv c llc s) (hend : s.fringe = []) :
    g ∈ s.cMap.map (·.1) ↔ Descends c llc g := by
  have hroot := hinv.root
  have hclosed := hinv.closed
  have hdesc := hinv.descends
  rw [hend, List.append_nil] at hroot hclosed hdesc
  refine ⟨hdesc g, fun hg => ?_⟩
  induction hg with
  | refl => exact hroot
  | tail _ hchild ih => exact hclosed _ ih _ hchild

end BuildInv

/-- What `cMap` holds: the groups below the last-level cache, each built once. -/
structure Built (c : Config) (llc : String) (cMap : List (String × CacheGroup)) : Prop where
  nodup : (cMap.map (·.1)).Nodup
  mem_iff : ∀ g, g ∈ cMap.map (·.1) ↔ Descends c llc g
  group : ∀ it ∈ cMap, it.2 = cacheGroup c it.1
  buildable : ∀ g, Descends c llc g → Buildable c g

namespace Built

variable {cMap : List (String × CacheGroup)} (hb : Built c llc cMap)
include hb

theorem lookup_of_descends (hg : Descends c llc g) : cMap.lookup g = some (cacheGroup c g) := by
  obtain ⟨cg, hcg⟩ := Option.isSome_iff_exists.mp (lookup_isSome.mpr ((hb.mem_iff g).mpr hg))
  obtain ⟨l₁, l₂, hsplit, -⟩ := List.lookup_eq_some_iff.mp hcg
  have hgroup : cg = cacheGroup c g := hb.group (g, cg) (by simp [hsplit])
  rw [hcg, hgroup]

theorem lookup_of_not_descends (hg : ¬ Descends c llc g) : cMap.lookup g = none :=
  Option.not_isSome_iff_eq_none.mp fun hsome => hg ((hb.mem_iff g).mp (lookup_isSome.mp hsome))

end Built

/-- The building ends with the groups below the last-level cache, or panics at one that cannot be
built. The panic for a loop is never reached. -/
theorem buildGroups_spec (h : Accepted c llc) {fuel : Nat}
    (hfuel : c.cacheGroupNames.length < fuel) :
    (∃ s, buildGroups c fuel (maps c c.cacheGroupNames) llc = .ok s ∧ Built c llc s.cMap) ∨
      buildGroups c fuel (maps c c.cacheGroupNames) llc = .error .panic ∧
        ∃ g, Descends c llc g ∧ ¬ Buildable c g := by
  have hloop := WhileLoop.whileM_except (.error .stuck) (fun s => !s.fringe.isEmpty)
    (buildStep c (maps c c.cacheGroupNames)) (BuildInv c llc)
    (fun e => e = Stop.panic ∧ ∃ g, Descends c llc g ∧ ¬ Buildable c g)
    (fun s => c.cacheGroupNames.length - s.cMap.length)
    (fun s hinv hcond => by
      have hne : s.fringe ≠ [] := by simpa using hcond
      rcases hinv.step h hne with ⟨s', hstep, hinv', hlen⟩ | hfail
      · have hle := hinv'.length_le h
        exact .inl ⟨s', hstep, hinv', by omega⟩
      · exact .inr hfail)
    BuildInv.init (Nat.lt_of_le_of_lt (Nat.sub_le _ _) hfuel)
  rcases hloop with ⟨s, hrun, hinv, hend⟩ | ⟨e, hrun, rfl, hfail⟩
  · have hend : s.fringe = [] := by simpa using hend
    refine .inl ⟨s, hrun, ?_, fun g => hinv.mem_iff hend, fun it hit => (hinv.built it hit).1, ?_⟩
    · simpa [hend] using hinv.nodup
    · intro g hg
      obtain ⟨it, hit, rfl⟩ := List.mem_map.mp ((hinv.mem_iff hend).mpr hg)
      exact (hinv.built it hit).2
  · exact .inr ⟨hrun, hfail⟩

end InitSystem

end ZSim
