import ZSim.HDF5StatsLayout

/-! Filtering the stats by the dotted paths of their leaves. A null aggregate is `none`, and a
regular expression is the predicate it stands for. -/

namespace ZSim

namespace StatsFilter

mutual

/-- `pre` is the prefix of the path, null for the root, whose name is not part of paths. -/
def filterStatsLevel (filter : String → Bool) : Stat → Option String → Option Stat
  | .aggregate name isRegular children, pre =>
    let base := match pre with
      | some p => p ++ name ++ "."
      | none => ""
    let kept := filterChildren filter children base
    if kept.isEmpty then none else some (.aggregate name isRegular kept)
  | .scalar _ _, _ => none
  | .vector _ _ _, _ => none

def filterChildren (filter : String → Bool) : List Stat → String → List Stat
  | [], _ => []
  | child :: others, base =>
    let rest := filterChildren filter others base
    if child.isAggregate then (filterStatsLevel filter child (some base)).toList ++ rest
    else if filter (base ++ child.name) then child :: rest
    else rest

end

mutual

def makeImmutable : Stat → Stat
  | .aggregate name isRegular children => .aggregate name isRegular (cullEmpty children)
  | .scalar name id => .scalar name id
  | .vector name id size => .vector name id size

/-- Children that are empty aggregates are dropped. -/
def cullEmpty : List Stat → List Stat
  | [] => []
  | child :: others =>
    match makeImmutable child with
    | .aggregate _ _ [] => cullEmpty others
    | child' => child' :: cullEmpty others

end

def filterStats (filter : String → Bool) (rootStat : Stat) : Option Stat :=
  (filterStatsLevel filter rootStat none).map makeImmutable

mutual

/-- The leaves under a stat with their paths, where paths start with `base`. -/
def leaves : Stat → String → List (String × Stat)
  | .scalar name id, base => [(base ++ name, .scalar name id)]
  | .vector name id size, base => [(base ++ name, .vector name id size)]
  | .aggregate name _ children, base => leavesOf children (base ++ name ++ ".")

def leavesOf : List Stat → String → List (String × Stat)
  | [], _ => []
  | child :: others, base => leaves child base ++ leavesOf others base

end

def rootLeaves : Stat → List (String × Stat)
  | .aggregate _ _ children => leavesOf children ""
  | .scalar _ _ => []
  | .vector _ _ _ => []

/-- The type of a stat. The instances in a regular aggregate have no names in it. -/
inductive Shape where
  | scalar
  | vector (size : Nat)
  | array (instances : List Shape)
  | compound (fields : List (String × Shape))

def aggregateShape (isRegular : Bool) (fields : List (String × Shape)) : Shape :=
  if isRegular then .array (fields.map Prod.snd) else .compound fields

mutual

def shape : Stat → Shape
  | .scalar _ _ => .scalar
  | .vector _ _ size => .vector size
  | .aggregate _ isRegular children => aggregateShape isRegular (fieldShapes children)

def fieldShapes : List Stat → List (String × Shape)
  | [] => []
  | child :: others => (child.name, shape child) :: fieldShapes others

end

mutual

/-- The children of every regular aggregate have one shape. -/
def Regular : Stat → Prop
  | .scalar _ _ => True
  | .vector _ _ _ => True
  | .aggregate _ isRegular children =>
    (isRegular = true → ∀ c ∈ children, ∀ c' ∈ children, shape c = shape c') ∧ AllRegular children

def AllRegular : List Stat → Prop
  | [] => True
  | child :: others => Regular child ∧ AllRegular others

end

/-- Some leaf under the stat has a path that matches. -/
def hasMatch (filter : String → Bool) (base : String) (s : Stat) : Bool :=
  (leaves s base).any fun l => filter l.1

mutual

/-- The shape of the part of a stat that holds its matching leaves. -/
def matchingPart (filter : String → Bool) : Stat → String → Shape
  | .scalar _ _, _ => .scalar
  | .vector _ _ size, _ => .vector size
  | .aggregate name isRegular children, base =>
    aggregateShape isRegular (matchingFields filter children (base ++ name ++ "."))

def matchingFields (filter : String → Bool) : List Stat → String → List (String × Shape)
  | [], _ => []
  | child :: others, base =>
    let rest := matchingFields filter others base
    if hasMatch filter base child then (child.name, matchingPart filter child base) :: rest
    else rest

end

/-- The instances with a matching leaf have matching parts of one shape. -/
def SameParts (filter : String → Bool) (children : List Stat) (base : String) : Prop :=
  ∀ c ∈ children, ∀ c' ∈ children, hasMatch filter base c = true → hasMatch filter base c' = true →
    matchingPart filter c base = matchingPart filter c' base

mutual

/-- The predicate matches the instances of every regular aggregate alike. -/
def EvenlyMatched (filter : String → Bool) : Stat → String → Prop
  | .scalar _ _, _ => True
  | .vector _ _ _, _ => True
  | .aggregate name isRegular children, base =>
    (isRegular = true → SameParts filter children (base ++ name ++ ".")) ∧
      AllEvenlyMatched filter children (base ++ name ++ ".")

def AllEvenlyMatched (filter : String → Bool) : List Stat → String → Prop
  | [], _ => True
  | child :: others, base =>
    EvenlyMatched filter child base ∧ AllEvenlyMatched filter others base

end

variable {filter : String → Bool} {s r : Stat} {children : List Stat} {base name : String}
  {isRegular : Bool}

/-- What a child leaves in the filtered tree. -/
def filterChild (filter : String → Bool) (base : String) (child : Stat) : Option Stat :=
  if child.isAggregate then filterStatsLevel filter child (some base)
  else if filter (base ++ child.name) then some child
  else none

theorem filterChildren_eq (filter : String → Bool) (children : List Stat) (base : String) :
    filterChildren filter children base = children.filterMap (filterChild filter base) := by
  induction children with
  | nil => simp [filterChildren]
  | cons c cs ih =>
    rw [filterChildren, ih, List.filterMap_cons, filterChild]
    split
    · cases filterStatsLevel filter c (some base) <;> rfl
    · split <;> rfl

theorem leavesOf_eq (children : List Stat) (base : String) :
    leavesOf children base = children.flatMap (leaves · base) := by
  induction children with
  | nil => simp [leavesOf]
  | cons c cs ih => rw [leavesOf, ih, List.flatMap_cons]

theorem fieldShapes_eq (children : List Stat) :
    fieldShapes children = children.map fun c => (c.name, shape c) := by
  induction children with
  | nil => simp [fieldShapes]
  | cons c cs ih => rw [fieldShapes, ih, List.map_cons]

theorem allRegular_iff : AllRegular children ↔ ∀ c ∈ children, Regular c := by
  induction children with
  | nil => simp [AllRegular]
  | cons c cs ih => simp [AllRegular, ih]

/-- An aggregate is rebuilt from what its children leave, if they leave anything. -/
theorem filterChild_aggregate :
    filterChild filter base (.aggregate name isRegular children)
      = if (children.filterMap (filterChild filter (base ++ name ++ "."))).isEmpty then none
        else some (.aggregate name isRegular
          (children.filterMap (filterChild filter (base ++ name ++ ".")))) := by
  rw [filterChild, if_pos (show Stat.isAggregate (.aggregate _ _ _) = true from rfl),
    filterStatsLevel, filterChildren_eq]

theorem matchingFields_eq (filter : String → Bool) (children : List Stat) (base : String) :
    matchingFields filter children base = (children.filter (hasMatch filter base)).map
      fun c => (c.name, matchingPart filter c base) := by
  induction children with
  | nil => simp [matchingFields]
  | cons c cs ih =>
    rw [matchingFields, ih, List.filter_cons]
    split <;> rfl

theorem allEvenlyMatched_iff :
    AllEvenlyMatched filter children base ↔ ∀ c ∈ children, EvenlyMatched filter c base := by
  induction children with
  | nil => simp [AllEvenlyMatched]
  | cons c cs ih => simp [AllEvenlyMatched, ih]

theorem hasMatch_aggregate :
    hasMatch filter base (.aggregate name isRegular children)
      = children.any (hasMatch filter (base ++ name ++ ".")) := by
  rw [hasMatch, leaves, leavesOf_eq, List.any_flatMap]
  rfl

theorem leavesOf_kept (h : ∀ c ∈ children, (filterChild filter base c).elim [] (leaves · base)
      = (leaves c base).filter fun l => filter l.1) :
    leavesOf (children.filterMap (filterChild filter base)) base
      = (leavesOf children base).filter fun l => filter l.1 := by
  induction children with
  | nil => simp [leavesOf]
  | cons c cs ih =>
    have hc := h c List.mem_cons_self
    have hcs := ih fun c' hc' => h c' (List.mem_cons_of_mem c hc')
    rw [leavesOf, List.filter_append, ← hc, ← hcs, List.filterMap_cons]
    cases filterChild filter base c with
    | none => rfl
    | some r => rfl

/-- What a child leaves has the child's matching leaves. -/
theorem leaves_filterChild (s : Stat) (base : String) :
    (filterChild filter base s).elim [] (leaves · base)
      = (leaves s base).filter fun l => filter l.1 := by
  induction s using Stat.induction generalizing base with
  | scalar name id =>
    cases hf : filter (base ++ name) <;> simp [filterChild, leaves, Stat.isAggregate, Stat.name, hf]
  | vector name id size =>
    cases hf : filter (base ++ name) <;> simp [filterChild, leaves, Stat.isAggregate, Stat.name, hf]
  | aggregate name isRegular children ih =>
    have hkept := leavesOf_kept fun c hc => ih c hc (base ++ name ++ ".")
    rw [leaves, ← hkept, filterChild_aggregate]
    split
    · next hnil => rw [List.isEmpty_iff.mp hnil]; rfl
    · rfl

/-- A child leaves nothing exactly when no leaf of it matches. -/
theorem filterChild_isSome (s : Stat) (base : String) :
    (filterChild filter base s).isSome = hasMatch filter base s := by
  induction s using Stat.induction generalizing base with
  | scalar name id =>
    cases hf : filter (base ++ name) <;>
      simp [filterChild, hasMatch, leaves, Stat.isAggregate, Stat.name, hf]
  | vector name id size =>
    cases hf : filter (base ++ name) <;>
      simp [filterChild, hasMatch, leaves, Stat.isAggregate, Stat.name, hf]
  | aggregate name isRegular children ih =>
    have hany : (children.filterMap (filterChild filter (base ++ name ++ "."))).isEmpty
        = !children.any (hasMatch filter (base ++ name ++ ".")) := by
      rw [Bool.eq_iff_iff, List.isEmpty_iff, List.filterMap_eq_nil_iff]
      simp only [Bool.not_eq_true', List.any_eq_false, Bool.not_eq_true]
      refine forall₂_congr fun c hc => ?_
      rw [← ih c hc, Option.isSome_eq_false_iff, Option.isNone_iff_eq_none]
    rw [filterChild_aggregate, hasMatch_aggregate, hany]
    cases children.any (hasMatch filter (base ++ name ++ ".")) <;> rfl

theorem filterChild_eq_none : filterChild filter base s = none ↔ hasMatch filter base s = false := by
  rw [← filterChild_isSome, Option.isSome_eq_false_iff, Option.isNone_iff_eq_none]

/-- The fields of an aggregate after filtering. -/
theorem fieldShapes_kept (h : ∀ c ∈ children, ∀ r, filterChild filter base c = some r →
      r.name = c.name ∧ shape r = matchingPart filter c base) :
    fieldShapes (children.filterMap (filterChild filter base))
      = matchingFields filter children base := by
  rw [fieldShapes_eq, matchingFields_eq]
  induction children with
  | nil => rfl
  | cons c cs ih =>
    have ih := ih fun c' hc' => h c' (List.mem_cons_of_mem c hc')
    rw [List.filterMap_cons, List.filter_cons, ← filterChild_isSome]
    cases hc : filterChild filter base c with
    | none => simpa using ih
    | some r =>
      obtain ⟨hname, hshape⟩ := h c List.mem_cons_self r hc
      simp [hname, hshape, ih]

/-- What a child leaves keeps its name and has the shape of its matching part. -/
theorem filterChild_shape (s : Stat) (base : String) :
    ∀ r, filterChild filter base s = some r →
      r.name = s.name ∧ shape r = matchingPart filter s base := by
  induction s using Stat.induction generalizing base with
  | scalar name id =>
    intro r hr
    cases hf : filter (base ++ name) <;> simp_all [filterChild, Stat.isAggregate, Stat.name]
    subst hr
    exact ⟨rfl, by simp [shape, matchingPart]⟩
  | vector name id size =>
    intro r hr
    cases hf : filter (base ++ name) <;> simp_all [filterChild, Stat.isAggregate, Stat.name]
    subst hr
    exact ⟨rfl, by simp [shape, matchingPart]⟩
  | aggregate name isRegular children ih =>
    intro r hr
    rw [filterChild_aggregate] at hr
    split at hr
    · cases hr
    · cases hr
      refine ⟨rfl, ?_⟩
      rw [shape, matchingPart, fieldShapes_kept fun c hc => ih c hc (base ++ name ++ ".")]

theorem mem_kept {r : Stat} : r ∈ children.filterMap (filterChild filter base) ↔
    ∃ c ∈ children, filterChild filter base c = some r := List.mem_filterMap

/-- The instances kept have one shape exactly when the matching parts of the instances do. -/
theorem sameParts_iff : (∀ r ∈ children.filterMap (filterChild filter base),
      ∀ r' ∈ children.filterMap (filterChild filter base), shape r = shape r') ↔
    SameParts filter children base := by
  constructor
  · intro h c hc c' hc' hm hm'
    rw [← filterChild_isSome] at hm hm'
    obtain ⟨r, hr⟩ := Option.isSome_iff_exists.mp hm
    obtain ⟨r', hr'⟩ := Option.isSome_iff_exists.mp hm'
    rw [← (filterChild_shape c base r hr).2, ← (filterChild_shape c' base r' hr').2]
    exact h r (mem_kept.mpr ⟨c, hc, hr⟩) r' (mem_kept.mpr ⟨c', hc', hr'⟩)
  · intro h r hr r' hr'
    obtain ⟨c, hc, hr⟩ := mem_kept.mp hr
    obtain ⟨c', hc', hr'⟩ := mem_kept.mp hr'
    rw [(filterChild_shape c base r hr).2, (filterChild_shape c' base r' hr').2]
    exact h c hc c' hc' (by rw [← filterChild_isSome, hr]; rfl)
      (by rw [← filterChild_isSome, hr']; rfl)

/-- Nothing is matched unevenly where nothing is matched. -/
theorem evenlyMatched_of_not_hasMatch (s : Stat) (base : String)
    (h : hasMatch filter base s = false) : EvenlyMatched filter s base := by
  induction s using Stat.induction generalizing base with
  | scalar name id => simp [EvenlyMatched]
  | vector name id size => simp [EvenlyMatched]
  | aggregate name isRegular children ih =>
    have hnone : ∀ c ∈ children, hasMatch filter (base ++ name ++ ".") c = false := by
      rw [hasMatch_aggregate, List.any_eq_false] at h
      exact fun c hc => Bool.eq_false_iff.mpr (h c hc)
    refine ⟨fun _ c hc _ _ hm => ?_, allEvenlyMatched_iff.mpr fun c hc => ih c hc _ (hnone c hc)⟩
    simp [hnone c hc] at hm

theorem regular_kept (isRegular : Bool) (ih : ∀ c ∈ children, ∀ r, filterChild filter base c = some r →
      (Regular r ↔ EvenlyMatched filter c base)) :
    ((isRegular = true → ∀ r ∈ children.filterMap (filterChild filter base),
        ∀ r' ∈ children.filterMap (filterChild filter base), shape r = shape r') ∧
      AllRegular (children.filterMap (filterChild filter base))) ↔
    ((isRegular = true → SameParts filter children base) ∧
      AllEvenlyMatched filter children base) := by
  rw [sameParts_iff, allRegular_iff, allEvenlyMatched_iff]
  refine and_congr Iff.rfl ⟨fun h c hc => ?_, fun h r hr => ?_⟩
  · cases hr : filterChild filter base c with
    | none => exact evenlyMatched_of_not_hasMatch c base (filterChild_eq_none.mp hr)
    | some r => exact (ih c hc r hr).mp (h r (mem_kept.mpr ⟨c, hc, hr⟩))
  · obtain ⟨c, hc, hr⟩ := mem_kept.mp hr
    exact (ih c hc r hr).mpr (h c hc)

theorem filterChild_regular (s : Stat) (base : String) :
    ∀ r, filterChild filter base s = some r → (Regular r ↔ EvenlyMatched filter s base) := by
  induction s using Stat.induction generalizing base with
  | scalar name id =>
    intro r hr
    cases hf : filter (base ++ name) <;> simp_all [filterChild, Stat.isAggregate, Stat.name]
    subst hr
    simp [Regular, EvenlyMatched]
  | vector name id size =>
    intro r hr
    cases hf : filter (base ++ name) <;> simp_all [filterChild, Stat.isAggregate, Stat.name]
    subst hr
    simp [Regular, EvenlyMatched]
  | aggregate name isRegular children ih =>
    intro r hr
    rw [filterChild_aggregate] at hr
    split at hr
    · cases hr
    · cases hr
      rw [Regular, EvenlyMatched]
      exact regular_kept _ fun c hc => ih c hc (base ++ name ++ ".")

theorem makeImmutable_children (h : ∀ c ∈ children, makeImmutable c = c ∧
      ∀ name isRegular, c ≠ .aggregate name isRegular []) : cullEmpty children = children := by
  induction children with
  | nil => simp [cullEmpty]
  | cons c cs ih =>
    obtain ⟨hc, hne⟩ := h c List.mem_cons_self
    have ih := ih fun c' hc' => h c' (List.mem_cons_of_mem c hc')
    rw [cullEmpty, hc, ih]
    cases c with
    | aggregate name isRegular children =>
      cases children with
      | nil => exact absurd rfl (hne name isRegular)
      | cons c cs => rfl
    | _ => rfl

/-- No aggregate of the filtered tree is empty, so none is dropped. -/
theorem filterChild_full (s : Stat) (base : String) :
    ∀ r, filterChild filter base s = some r →
      makeImmutable r = r ∧ ∀ name isRegular, r ≠ .aggregate name isRegular [] := by
  induction s using Stat.induction generalizing base with
  | scalar name id =>
    intro r hr
    cases hf : filter (base ++ name) <;> simp_all [filterChild, Stat.isAggregate, Stat.name]
    subst hr
    simp [makeImmutable]
  | vector name id size =>
    intro r hr
    cases hf : filter (base ++ name) <;> simp_all [filterChild, Stat.isAggregate, Stat.name]
    subst hr
    simp [makeImmutable]
  | aggregate name isRegular children ih =>
    intro r hr
    rw [filterChild_aggregate] at hr
    split at hr
    · cases hr
    · next hne =>
      cases hr
      refine ⟨?_, fun name' isRegular' h => hne ?_⟩
      · rw [makeImmutable, makeImmutable_children]
        intro r hr
        obtain ⟨c, hc, hr⟩ := mem_kept.mp hr
        exact ih c hc _ r hr
      · rw [List.isEmpty_iff]
        injection h

theorem filterStats_aggregate (filter : String → Bool) (children : List Stat) (name : String)
    (isRegular : Bool) :
    filterStats filter (.aggregate name isRegular children)
      = if (children.filterMap (filterChild filter "")).isEmpty then none
        else some (.aggregate name isRegular (children.filterMap (filterChild filter ""))) := by
  rw [filterStats, filterStatsLevel, filterChildren_eq]
  split
  · rfl
  · rw [Option.map_some, makeImmutable, makeImmutable_children]
    intro r hr
    obtain ⟨c, -, hr⟩ := mem_kept.mp hr
    exact filterChild_full c "" r hr

section

variable {B : HDF5Backend} {t : H5Type}

theorem forall₂_of_map_eq {α β : Type} {f : α → β} {l l' : List α} (h : l.map f = l'.map f) :
    List.Forall₂ (fun a b => f a = f b) l l' := by
  have heq : List.Forall₂ (· = ·) (l.map f) (l'.map f) := by rwa [List.forall₂_eq_eq_eq]
  rwa [List.forall₂_map_left_iff, List.forall₂_map_right_iff] at heq

theorem skipStat_of_shape {s s' : Stat} (h : shape s = shape s') : B.skipStat s = B.skipStat s' := by
  have hvector : s.isVector = s'.isVector := by
    cases s <;> cases s' <;> simp_all [shape, aggregateShape, Stat.isVector] <;> split at h <;> cases h
  rw [HDF5Backend.skipStat, HDF5Backend.skipStat, hvector]

theorem getRegularType_congr {cs cs' : List Stat}
    (h : List.Forall₂ (fun c c' => B.getH5Type c = B.getH5Type c' ∧ B.skipStat c = B.skipStat c')
      cs cs') : B.getRegularType cs = B.getRegularType cs' := by
  cases h with
  | nil => rfl
  | @cons c c' cs cs' hc hcs =>
    have hhave : ∀ t, B.haveType t cs = B.haveType t cs' := fun t => by
      induction hcs with
      | nil => rfl
      | cons hd _ ih => rw [HDF5Backend.haveType, HDF5Backend.haveType, hd.1, ih]
    rw [HDF5Backend.getRegularType, HDF5Backend.getRegularType, hc.1, hc.2, hcs.length_eq]
    simp only [hhave]

theorem getFields_congr {cs cs' : List Stat}
    (h : List.Forall₂ (fun c c' => c.name = c'.name ∧ B.getH5Type c = B.getH5Type c' ∧
      B.skipStat c = B.skipStat c') cs cs') : B.getFields cs = B.getFields cs' := by
  induction h with
  | nil => rfl
  | cons hc _ ih =>
    rw [HDF5Backend.getFields, HDF5Backend.getFields, hc.1, hc.2.1, hc.2.2, ih]

/-- Stats of one shape have one type. -/
theorem getH5Type_of_shape {s s' : Stat} (h : shape s = shape s') :
    B.getH5Type s = B.getH5Type s' := by
  induction s using Stat.induction generalizing s' with
  | scalar name id =>
    cases s' with
    | scalar name' id' => rfl
    | vector name' id' size => simp [shape] at h
    | aggregate name' isRegular children =>
      cases isRegular <;> simp [shape, aggregateShape] at h
  | vector name id size =>
    cases s' with
    | scalar name' id' => simp [shape] at h
    | vector name' id' size' =>
      simp only [shape, Shape.vector.injEq] at h
      simp [HDF5Backend.getH5Type, h]
    | aggregate name' isRegular children =>
      cases isRegular <;> simp [shape, aggregateShape] at h
  | aggregate name isRegular children ih =>
    cases s' with
    | scalar name' id' => cases isRegular <;> simp [shape, aggregateShape] at h
    | vector name' id' size' => cases isRegular <;> simp [shape, aggregateShape] at h
    | aggregate name' isRegular' children' =>
      have htypes {p : Stat → Stat → Prop} (hp : List.Forall₂ p children children')
          (hshape : ∀ c c', p c c' → shape c = shape c') :
          List.Forall₂ (fun c c' => p c c' ∧ B.getH5Type c = B.getH5Type c' ∧
            B.skipStat c = B.skipStat c') children children' :=
        List.forall₂_iff_get.mpr ⟨hp.length_eq, fun i h₁ h₂ => by
          have hget := hp.get h₁ h₂
          have hsame := hshape _ _ hget
          exact ⟨hget, ih _ (List.get_mem _ _) hsame, skipStat_of_shape hsame⟩⟩
      cases isRegular <;> cases isRegular' <;>
        simp only [shape, aggregateShape, fieldShapes_eq, List.map_map, if_true,
          Bool.false_eq_true, if_false, Shape.array.injEq, Shape.compound.injEq, reduceCtorEq] at h
      · have hfields := htypes (forall₂_of_map_eq h) fun c c' hc => congrArg Prod.snd hc
        rw [HDF5Backend.getH5Type, HDF5Backend.getH5Type, getFields_congr
          (hfields.imp fun c c' hc => ⟨congrArg Prod.fst hc.1, hc.2⟩)]
        simp only [Bool.false_eq_true, if_false]
      · have hinstances := htypes (forall₂_of_map_eq h) fun c c' hc => hc
        rw [HDF5Backend.getH5Type, HDF5Backend.getH5Type,
          getRegularType_congr (hinstances.imp fun c c' hc => hc.2)]
        simp only [if_true]

/-- The instances of a regular aggregate pass the check of their types. -/
theorem haveType_of_regular {c : Stat} {others : List Stat}
    (h : Regular (.aggregate name true (c :: others))) (ht : B.getH5Type c = some t) :
    B.haveType t others = true := by
  rw [Regular] at h
  refine HDF5Backend.haveType_iff.mpr fun c' hc' => ?_
  rw [← ht]
  exact getH5Type_of_shape (h.1 rfl c' (List.mem_cons_of_mem c hc') c List.mem_cons_self)

end

/-- `filterStats` keeps the matching leaves in place, is null without any, and gives regular
aggregates children of one shape. -/
structure FiltersRight (filter : String → Bool) (rootStat : Stat) : Prop where
  leaves : (filterStats filter rootStat).elim [] rootLeaves
    = (rootLeaves rootStat).filter fun l => filter l.1
  null : filterStats filter rootStat = none ↔ ∀ l ∈ rootLeaves rootStat, filter l.1 = false
  regular : ∀ r, filterStats filter rootStat = some r → Regular r

/-- `EvenlyMatched` for the root, whose name is not part of paths. -/
def RootEvenlyMatched (filter : String → Bool) : Stat → Prop
  | .aggregate _ isRegular children =>
    (isRegular = true → SameParts filter children "") ∧ AllEvenlyMatched filter children ""
  | .scalar _ _ => True
  | .vector _ _ _ => True

theorem filterStats_right_iff (filter : String → Bool) (name : String) (isRegular : Bool)
    (children : List Stat) :
    FiltersRight filter (.aggregate name isRegular children) ↔
      RootEvenlyMatched filter (.aggregate name isRegular children) := by
  have hkept : leavesOf (children.filterMap (filterChild filter "")) ""
      = (leavesOf children "").filter fun l => filter l.1 :=
    leavesOf_kept fun c _ => leaves_filterChild c ""
  have hregular : _ ↔ (isRegular = true → SameParts filter children "") ∧
      AllEvenlyMatched filter children "" :=
    regular_kept isRegular fun c _ => filterChild_regular c ""
  have hnull : (children.filterMap (filterChild filter "")).isEmpty = true ↔
      ∀ l ∈ leavesOf children "", filter l.1 = false := by
    rw [List.isEmpty_iff, List.filterMap_eq_nil_iff, leavesOf_eq]
    simp only [filterChild_eq_none, hasMatch, List.any_eq_false, List.mem_flatMap,
      Bool.not_eq_true]
    exact ⟨fun h l ⟨c, hc, hl⟩ => h c hc l hl, fun h c hc l hl => h l ⟨c, hc, hl⟩⟩
  rw [RootEvenlyMatched, ← hregular]
  have hstats := filterStats_aggregate filter children name isRegular
  cases hempty : (children.filterMap (filterChild filter "")).isEmpty with
  | true =>
    have hnone : children.filterMap (filterChild filter "") = [] := List.isEmpty_iff.mp hempty
    rw [hempty, if_pos rfl] at hstats
    refine iff_of_true ⟨?_, ?_, ?_⟩ ?_
    · rw [hstats, rootLeaves, ← hkept, hnone]
      simp [leavesOf]
    · rw [hstats, rootLeaves]
      exact iff_of_true rfl (hnull.mp hempty)
    · rw [hstats]
      simp
    · simp [hnone, AllRegular]
  | false =>
    rw [hempty, if_neg Bool.false_ne_true] at hstats
    constructor
    · intro h
      have := h.regular _ hstats
      rwa [Regular] at this
    · intro h
      refine ⟨?_, ?_, ?_⟩
      · rw [hstats, rootLeaves, ← hkept]
        rfl
      · rw [hstats, rootLeaves, ← hnull, hempty]
        simp
      · intro r hr
        rw [hstats] at hr
        cases hr
        rwa [Regular]

/-- Two cores in a regular aggregate, of which the predicate matches different counters. -/
def twoCores : Stat :=
  .aggregate "root" false [.aggregate "core" true
    [.aggregate "core-0" false [.scalar "cycles" 0, .scalar "instrs" 1],
      .aggregate "core-1" false [.scalar "cycles" 2, .scalar "instrs" 3]]]

def oneEach (path : String) : Bool :=
  path = "core.core-0.cycles" || path = "core.core-1.instrs"

theorem twoCores_uneven :
    ¬ ∀ (filter : String → Bool) (rootStat : Stat), rootStat.isAggregate = true →
      FiltersRight filter rootStat := by
  intro h
  have hright := h oneEach twoCores rfl
  have hregular := hright.regular
    (.aggregate "root" false [.aggregate "core" true
      [.aggregate "core-0" false [.scalar "cycles" 0],
        .aggregate "core-1" false [.scalar "instrs" 3]]]) (by
    simp [filterStats, filterStatsLevel, filterChildren, twoCores, oneEach, Stat.isAggregate,
      Stat.name, makeImmutable, cullEmpty])
  simp [Regular, AllRegular, shape, fieldShapes, aggregateShape, Stat.name] at hregular

end StatsFilter

end ZSim
