import ZSim.HDF5Stats

/-! What a record should have: the words of its type, and the values of their stats. -/

namespace ZSim

theorem Stat.induction {P : Stat → Prop} (scalar : ∀ name id, P (.scalar name id))
    (vector : ∀ name id size, P (.vector name id size))
    (aggregate : ∀ name isRegular children, (∀ c ∈ children, P c) →
      P (.aggregate name isRegular children)) (s : Stat) : P s :=
  @Stat.rec P (fun children => ∀ c ∈ children, P c) scalar vector aggregate (by simp)
    (fun _ _ hc hcs => by simpa using ⟨hc, hcs⟩) s

/-- A step from a type to one of its parts. -/
inductive H5Step where
  | member (name : String)
  | index (i : Nat)

mutual

/-- The words of a type from offset `base` on: how to get there, and their offsets. -/
def H5Type.leaves : H5Type → Nat → List (List H5Step × Nat)
  | .ulong, base => [([], base)]
  | .array elem dim, base => (List.range dim).flatMap fun i =>
      (elem.leaves (base + i * elem.size)).map fun l => (.index i :: l.1, l.2)
  | .compound _ members, base => members.leaves base

def H5Members.leaves : H5Members → Nat → List (List H5Step × Nat)
  | .nil, _ => []
  | .insert name offset type rest, base =>
    ((type.leaves (base + offset)).map fun l => (.member name :: l.1, l.2)) ++ rest.leaves base

end

namespace HDF5Backend

variable (B : HDF5Backend) (V : StatValues)

mutual

/-- The value for a word: that of the stat it comes from, or the sum over the children of every
regular aggregate on the way. -/
def leafValue : Stat → List H5Step → BitVec 64
  | .scalar _ id, _ => V.get id
  | .vector _ id _, .index i :: _ => V.count id i
  | .vector _ id _, _ => V.count id 0
  | .aggregate _ isRegular children, path =>
    if isRegular && B.sumRegularAggregates then sumValue children path
    else
      match path with
      | .index i :: path => childValue children i path
      | .member name :: path => memberValue children name path
      | [] => 0

def sumValue : List Stat → List H5Step → BitVec 64
  | [], _ => 0
  | child :: others, path => leafValue child path + sumValue others path

def childValue : List Stat → Nat → List H5Step → BitVec 64
  | [], _, _ => 0
  | child :: _, 0, path => leafValue child path
  | _ :: others, i + 1, path => childValue others i path

def memberValue : List Stat → String → List H5Step → BitVec 64
  | [], _, _ => 0
  | child :: others, name, path =>
    if B.skipStat child = false ∧ child.name = name then leafValue child path
    else memberValue others name path

end

mutual

/-- The words that the walk leaves for a stat. -/
def words : Stat → List (BitVec 64)
  | .scalar _ id => [V.get id]
  | .vector _ id size => if B.skipVectors then [] else (List.range size).map (V.count id)
  | .aggregate _ isRegular children =>
    if isRegular && B.sumRegularAggregates then sumWords children else eachWords children

def eachWords : List Stat → List (BitVec 64)
  | [] => []
  | child :: others => words child ++ eachWords others

def sumWords : List Stat → List (BitVec 64)
  | [] => []
  | child :: others => addWords (words child) others

def addWords (sum : List (BitVec 64)) : List Stat → List (BitVec 64)
  | [] => sum
  | child :: others => addWords (List.zipWith (· + ·) sum (words child)) others

end

mutual

/-- Children of regular aggregates but the first are not skipped either. -/
def Uniform : Stat → Prop
  | .scalar _ _ => True
  | .vector _ _ _ => True
  | .aggregate _ isRegular children =>
    (isRegular = true → ∀ c ∈ children.tail, B.skipStat c = false) ∧ AllUniform children

def AllUniform : List Stat → Prop
  | [] => True
  | child :: others => Uniform child ∧ AllUniform others

end

variable {B V} {s c : Stat} {t : H5Type} {children : List Stat} {name : String}
  {isRegular : Bool} {base : Nat}

theorem allUniform_iff : B.AllUniform children ↔ ∀ c ∈ children, B.Uniform c := by
  induction children with
  | nil => simp [AllUniform]
  | cons c cs ih => simp [AllUniform, ih]

theorem haveType_iff : B.haveType t children = true ↔
    ∀ c ∈ children, B.getH5Type c = some t := by
  induction children with
  | nil => simp [haveType]
  | cons c cs ih => simp [haveType, ih]

theorem getRegularType_eq_some (h : B.getRegularType children = some t) :
    ∃ child others childType, children = child :: others ∧ B.skipStat child = false ∧
      (∀ c ∈ children, B.getH5Type c = some childType) ∧
      t = if B.sumRegularAggregates then childType
        else .array childType (others.length + 1) := by
  cases children with
  | nil => cases h
  | cons child others =>
    rw [getRegularType] at h
    split at h
    · cases h
    · next hskip =>
      obtain ⟨childType, hchild, h⟩ := Option.bind_eq_some_iff.mp h
      split at h
      · next hothers =>
        refine ⟨child, others, childType, rfl, by simpa using hskip, ?_, (Option.some.inj h).symm⟩
        intro c hc
        rcases List.mem_cons.mp hc with rfl | hc
        · exact hchild
        · exact haveType_iff.mp hothers c hc
      · cases h

/-- The fields of an irregular aggregate are those of its children that are not skipped. -/
theorem getFields_cons {fields : List (String × H5Type)}
    (h : B.getFields (c :: children) = some fields) :
    (B.skipStat c = true ∧ B.getFields children = some fields) ∨
      ∃ childType rest, B.skipStat c = false ∧ B.getH5Type c = some childType ∧
        B.getFields children = some rest ∧ fields = (c.name, childType) :: rest := by
  rw [getFields] at h
  split at h
  · next hskip => exact .inl ⟨hskip, h⟩
  · next hskip =>
    obtain ⟨childType, hchild, h⟩ := Option.bind_eq_some_iff.mp h
    obtain ⟨rest, hrest, rfl⟩ := Option.map_eq_some_iff.mp h
    exact .inr ⟨childType, rest, by simpa using hskip, hchild, hrest, rfl⟩

theorem compoundType_eq_some {fields : List (String × H5Type)}
    (h : compoundType fields = some t) :
    t = .compound (fields.map fun f => f.2.size).sum (insertMembers fields 0) ∧
      0 < (fields.map fun f => f.2.size).sum ∧ (fields.map Prod.fst).Nodup := by
  rw [compoundType] at h
  split at h
  · cases h
  · next hok =>
    rw [not_or, not_not] at hok
    exact ⟨(Option.some.inj h).symm, Nat.pos_of_ne_zero hok.1, hok.2⟩

theorem words_of_skipStat (h : B.skipStat s = true) : B.words V s = [] := by
  cases s with
  | vector name id size =>
    rw [skipStat, Bool.and_eq_true] at h
    rw [words, if_pos h.1]
  | _ => simp [skipStat, Stat.isVector] at h

end HDF5Backend

/-- A type of `n` words, one after another. -/
structure H5Type.Layout (t : H5Type) (n : Nat) : Prop where
  pos : 0 < n
  size : t.size = 8 * n
  offsets : ∀ base, (t.leaves base).map Prod.snd = List.range' base n 8

theorem layout_ulong : H5Type.ulong.Layout 1 := by
  constructor
  · decide
  · rfl
  · exact fun base => rfl

theorem layout_array {elem : H5Type} {n dim : Nat} (h : elem.Layout n) (hdim : 0 < dim) :
    (H5Type.array elem dim).Layout (n * dim) := by
  constructor
  · exact Nat.mul_pos h.pos hdim
  · rw [H5Type.size, h.size, Nat.mul_assoc]
  · intro base
    rw [H5Type.leaves]
    clear hdim
    induction dim with
    | zero => rfl
    | succ dim ih =>
      have hlast : ((elem.leaves (base + dim * elem.size)).map
          fun l => (H5Step.index dim :: l.1, l.2)).map Prod.snd =
            List.range' (base + dim * elem.size) n 8 := by
        rw [List.map_map]
        exact h.offsets _
      have hstart : base + dim * elem.size = base + 8 * (n * dim) := by
        rw [h.size]
        ring
      rw [List.range_succ, List.flatMap_append, List.map_append, ih, List.flatMap_singleton,
        hlast, hstart, List.range'_append, Nat.mul_succ]

/-- The members of a compound type that has fields of `n` words. -/
theorem layout_members {fields : List (String × H5Type)}
    (h : ∀ f ∈ fields, ∃ n, f.2.Layout n) (offset base : Nat) :
    ∃ n, (fields.map fun f => f.2.size).sum = 8 * n ∧
      ((insertMembers fields offset).leaves base).map Prod.snd =
        List.range' (base + offset) n 8 := by
  induction fields generalizing offset with
  | nil => exact ⟨0, rfl, rfl⟩
  | cons f fields ih =>
    obtain ⟨name, type⟩ := f
    obtain ⟨n, hn⟩ := h (name, type) (by simp)
    obtain ⟨m, hm, hrest⟩ := ih (fun f hf => h f (by simp [hf])) (offset + type.size)
    have hfirst : ((type.leaves (base + offset)).map
        fun l => (H5Step.member name :: l.1, l.2)).map Prod.snd =
          List.range' (base + offset) n 8 := by
      rw [List.map_map]
      exact hn.offsets _
    refine ⟨n + m, ?_, ?_⟩
    · rw [List.map_cons, List.sum_cons, hm, hn.size]
      ring
    · rw [insertMembers, H5Members.leaves, List.map_append, hfirst, hrest, hn.size,
        ← Nat.add_assoc, List.range'_append]

namespace HDF5Backend

variable {B : HDF5Backend} {V : StatValues} {s c : Stat} {t : H5Type} {children : List Stat}
  {name : String} {isRegular : Bool} {base : Nat}

theorem layout_base {size : Nat} (h : getBaseH5Type size = some t) : t.Layout size := by
  rw [getBaseH5Type] at h
  split at h
  · next hsize =>
    cases h
    have hl := layout_array layout_ulong (Nat.zero_lt_of_lt hsize)
    rwa [Nat.one_mul] at hl
  · split at h
    · next hsize =>
      cases h
      subst hsize
      exact layout_ulong
    · cases h

theorem getFields_mem {fields : List (String × H5Type)} (h : B.getFields children = some fields)
    {f : String × H5Type} (hf : f ∈ fields) :
    ∃ c ∈ children, B.skipStat c = false ∧ c.name = f.1 ∧ B.getH5Type c = some f.2 := by
  induction children generalizing fields with
  | nil =>
    cases h
    cases hf
  | cons c cs ih =>
    rcases getFields_cons h with ⟨-, hcs⟩ | ⟨childType, rest, hskip, hchild, hrest, rfl⟩
    · obtain ⟨c', hc', hmem⟩ := ih hcs hf
      exact ⟨c', by simp [hc'], hmem⟩
    · rcases List.mem_cons.mp hf with rfl | hf
      · exact ⟨c, by simp, hskip, rfl, hchild⟩
      · obtain ⟨c', hc', hmem⟩ := ih hrest hf
        exact ⟨c', by simp [hc'], hmem⟩

theorem layout_of_getH5Type (h : B.getH5Type s = some t) : ∃ n, t.Layout n := by
  induction s using Stat.induction generalizing t with
  | scalar name id => exact ⟨1, layout_base h⟩
  | vector name id size => exact ⟨size, layout_base h⟩
  | aggregate name isRegular children ih =>
    rw [getH5Type] at h
    split at h
    · obtain ⟨child, others, childType, rfl, -, hall, rfl⟩ := getRegularType_eq_some h
      obtain ⟨n, hn⟩ := ih child (by simp) (hall child (by simp))
      split
      · exact ⟨n, hn⟩
      · exact ⟨_, layout_array hn (Nat.succ_pos _)⟩
    · obtain ⟨fields, hfields, hcompound⟩ := Option.bind_eq_some_iff.mp h
      obtain ⟨rfl, hpos, -⟩ := compoundType_eq_some hcompound
      have hlayout : ∀ f ∈ fields, ∃ n, f.2.Layout n := by
        intro f hf
        obtain ⟨c, hc, -, -, htype⟩ := getFields_mem hfields hf
        exact ih c hc htype
      obtain ⟨n, hsize, -⟩ := layout_members hlayout 0 0
      refine ⟨n, by omega, hsize, fun base => ?_⟩
      obtain ⟨m, hsize', hoffsets⟩ := layout_members hlayout 0 base
      have hnm : m = n := by omega
      subst hnm
      exact hoffsets

theorem words_base {size : Nat} (h : getBaseH5Type size = some t) (count : Nat → BitVec 64)
    {value : List H5Step → BitVec 64} (hvalue : ∀ i path, value (.index i :: path) = count i)
    (hnil : value [] = count 0) (base : Nat) :
    (List.range size).map count = (t.leaves base).map fun l => value l.1 := by
  rw [getBaseH5Type] at h
  split at h
  · cases h
    simp [H5Type.leaves, hvalue, ← List.map_eq_flatMap]
  · split at h
    · next hsize =>
      cases h
      subst hsize
      simp [H5Type.leaves, hnil]
    · cases h

theorem addWords_eq {L : List (List H5Step × Nat)} (hall : ∀ c ∈ children,
      B.words V c = L.map fun l => B.leafValue V c l.1)
    (sum : List H5Step → BitVec 64) :
    B.addWords V (L.map fun l => sum l.1) children =
      L.map fun l => sum l.1 + B.sumValue V children l.1 := by
  induction children generalizing sum with
  | nil => simp [addWords, sumValue]
  | cons c cs ih =>
    rw [addWords, hall c (by simp), List.zipWith_map_left, List.zipWith_map_right,
      List.zipWith_self]
    rw [ih (fun c hc => hall c (by simp [hc])) fun path => sum path + B.leafValue V c path]
    simp only [sumValue, BitVec.add_assoc]

/-- The children of a regular aggregate, from offset `base i` on each. -/
theorem eachWords_array {elem : H5Type} (hall : ∀ c ∈ children, ∀ base,
      B.words V c = (elem.leaves base).map fun l => B.leafValue V c l.1) (base : Nat → Nat) :
    B.eachWords V children = (List.range children.length).flatMap fun i =>
      (elem.leaves (base i)).map fun l => B.childValue V children i l.1 := by
  induction children generalizing base with
  | nil => rfl
  | cons c cs ih =>
    rw [eachWords, List.length_cons, List.range_succ_eq_map, List.flatMap_cons,
      List.flatMap_map, hall c (by simp) (base 0),
      ih (fun c hc => hall c (by simp [hc])) fun i => base (i + 1)]
    simp only [childValue]

/-- The value of a member, by the path from the aggregate. -/
def fieldValue (B : HDF5Backend) (V : StatValues) (children : List Stat) :
    List H5Step → BitVec 64
  | .member name :: path => B.memberValue V children name path
  | _ => 0

theorem mem_members {fields : List (String × H5Type)} {offset : Nat}
    {l : List H5Step × Nat} (h : l ∈ (insertMembers fields offset).leaves base) :
    ∃ name path, l.1 = .member name :: path ∧ name ∈ fields.map Prod.fst := by
  induction fields generalizing offset with
  | nil => cases h
  | cons f fields ih =>
    obtain ⟨name, type⟩ := f
    rw [insertMembers, H5Members.leaves, List.mem_append] at h
    rcases h with h | h
    · obtain ⟨l', -, rfl⟩ := List.mem_map.mp h
      exact ⟨name, l'.1, rfl, by simp⟩
    · obtain ⟨name', path, hl, hmem⟩ := ih h
      exact ⟨name', path, hl, by simp [hmem]⟩

/-- The members of an irregular aggregate, in the order of its children. -/
theorem eachWords_members {fields : List (String × H5Type)}
    (hfields : B.getFields children = some fields) (hnodup : (fields.map Prod.fst).Nodup)
    (hall : ∀ c ∈ children, ∀ t, B.getH5Type c = some t → B.skipStat c = false → ∀ base,
      B.words V c = (t.leaves base).map fun l => B.leafValue V c l.1) (offset base : Nat) :
    B.eachWords V children = ((insertMembers fields offset).leaves base).map
      fun l => B.fieldValue V children l.1 := by
  induction children generalizing fields offset with
  | nil =>
    cases hfields
    rfl
  | cons c cs ih =>
    have hall' : ∀ c ∈ cs, ∀ t, B.getH5Type c = some t → B.skipStat c = false → ∀ base,
        B.words V c = (t.leaves base).map fun l => B.leafValue V c l.1 :=
      fun c hc => hall c (by simp [hc])
    have hother (name : String) (path : List H5Step)
        (h : ¬ (B.skipStat c = false ∧ c.name = name)) :
        B.fieldValue V (c :: cs) (.member name :: path) =
          B.fieldValue V cs (.member name :: path) := by
      rw [fieldValue, memberValue, if_neg h, fieldValue]
    rcases getFields_cons hfields with ⟨hskip, hcs⟩ | ⟨childType, rest, hskip, hchild, hrest, rfl⟩
    · rw [eachWords, words_of_skipStat hskip, List.nil_append, ih hcs hnodup hall' offset]
      refine List.map_congr_left fun l hl => ?_
      obtain ⟨name, path, hl, -⟩ := mem_members hl
      rw [hl, hother name path (by simp [hskip])]
    · rw [List.map_cons, List.nodup_cons] at hnodup
      obtain ⟨hnot, hnodup'⟩ := hnodup
      rw [eachWords, insertMembers, H5Members.leaves, List.map_append, List.map_map,
        hall c (by simp) childType hchild hskip (base + offset),
        ih hrest hnodup' hall' (offset + childType.size)]
      congr 1
      · refine List.map_congr_left fun l _ => ?_
        simp only [Function.comp, fieldValue, memberValue, hskip, true_and, if_true]
      · refine List.map_congr_left fun l hl => ?_
        obtain ⟨name, path, hl, hmem⟩ := mem_members hl
        rw [hl, hother name path]
        rintro ⟨-, rfl⟩
        exact hnot hmem

theorem words_eq_leaves (h : B.getH5Type s = some t) (hskip : B.skipStat s = false)
    (huniform : B.Uniform s) (base : Nat) :
    B.words V s = (t.leaves base).map fun l => B.leafValue V s l.1 := by
  induction s using Stat.induction generalizing t base with
  | scalar name id =>
    cases h
    rfl
  | vector name id size =>
    have hno : B.skipVectors = false := by
      simpa [skipStat, Stat.isVector] using hskip
    rw [words, hno, if_neg (by decide)]
    refine words_base h (V.count id) (fun i path => ?_) ?_ base
    · rw [leafValue]
    · rw [leafValue]
      simp
  | aggregate name isRegular children ih =>
    rw [Uniform, allUniform_iff] at huniform
    obtain ⟨htail, hall⟩ := huniform
    rw [getH5Type] at h
    split at h
    · next hregular =>
      obtain ⟨child, others, childType, rfl, hfirst, htypes, rfl⟩ := getRegularType_eq_some h
      have hnone : ∀ c ∈ child :: others, B.skipStat c = false := by
        intro c hc
        rcases List.mem_cons.mp hc with rfl | hc
        · exact hfirst
        · exact htail hregular c hc
      have hwords : ∀ c ∈ child :: others, ∀ base,
          B.words V c = (childType.leaves base).map fun l => B.leafValue V c l.1 :=
        fun c hc => ih c hc (htypes c hc) (hnone c hc) (hall c hc)
      subst hregular
      cases hsum : B.sumRegularAggregates with
      | true =>
        simp only [words, leafValue, hsum, Bool.and_self, if_true, sumWords]
        rw [hwords child (by simp) base, addWords_eq fun c hc => hwords c (by simp [hc]) base]
        simp only [sumValue]
      | false =>
        simp only [words, hsum, Bool.and_false]
        rw [eachWords_array hwords fun i => base + i * childType.size]
        simp only [Bool.false_eq_true, if_false, H5Type.leaves, List.map_flatMap, List.map_map,
          leafValue, hsum, Bool.and_false]
        rfl
    · next hirregular =>
      obtain ⟨fields, hfields, hcompound⟩ := Option.bind_eq_some_iff.mp h
      obtain ⟨rfl, -, hnodup⟩ := compoundType_eq_some hcompound
      have hwords : ∀ c ∈ children, ∀ t, B.getH5Type c = some t → B.skipStat c = false →
          ∀ base, B.words V c = (t.leaves base).map fun l => B.leafValue V c l.1 :=
        fun c hc t htype hskip => ih c hc htype hskip (hall c hc)
      have hr : isRegular = false := by simpa using hirregular
      subst hr
      simp only [words, Bool.false_and]
      rw [if_neg (by decide), eachWords_members hfields hnodup hwords 0 base]
      refine List.map_congr_left fun l hl => ?_
      obtain ⟨name, path, hl, -⟩ := mem_members hl
      rw [hl, fieldValue, leafValue]
      simp

end HDF5Backend

end ZSim
