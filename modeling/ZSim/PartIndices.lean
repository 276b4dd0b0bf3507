import ZSim.PartMapper

/-! The indices of the partitioned policies: runs of requests through each policy, sized by its
mapper, with the partitions returned and the entries of `partInfo` and of the monitors used. -/

namespace ZSim

/-- What a cache asks of its policy, with the process whose request it serves. -/
inductive PartEvent (Ptr : Type) where
  | update (id procIdx : Nat) (req : MemReq Ptr)
  | rank (procIdx : Nat) (req : MemReq Ptr) (cands : List Nat)
  | replaced (id : Nat)
  | setPartitionSizes (sizes : Nat → Nat)

def PartEvent.Requests {Ptr : Type} (C : MemReq Ptr → Prop) : PartEvent Ptr → Prop
  | .update _ _ req => C req
  | .rank _ req _ => C req
  | .replaced _ => True
  | .setPartitionSizes _ => True

/-- What `getPartition` returned, and the entries used, in one event. -/
structure PartIndices where
  returned : List Nat
  partInfo : List Nat
  monitors : List Nat

/-- A policy with its `partInfo`: how many entries it allocates, and which its constructor
writes. -/
structure PartPolicy (σ Ptr : Type) where
  allocated : Nat
  constructed : List Nat
  init : Option σ
  step : σ → PartEvent Ptr → Option (σ × PartIndices)

namespace PartPolicy

variable {σ Ptr : Type} (P : PartPolicy σ Ptr) (C : PartEvent Ptr → Prop)

/-- The runs of events that satisfy `C`, with the indices of each event, the last first. -/
inductive Run : List PartIndices → σ → Prop
  | init {s : σ} (h : P.init = some s) : Run [] s
  | step {log : List PartIndices} {s s' : σ} {ev : PartEvent Ptr} {ix : PartIndices}
      (h : Run log s) (hev : C ev) (hs : P.step s ev = some (s', ix)) : Run (ix :: log) s'

/-- The partitions are those of the mapper, and the entries exist. -/
structure Within (numPartitions : Nat) (ix : PartIndices) : Prop where
  returned : ∀ p ∈ ix.returned, p < numPartitions
  partInfo : ∀ p ∈ ix.partInfo, p < P.allocated
  monitors : ∀ p ∈ ix.monitors, p < numPartitions

/-- In the constructor and in every run no index is out of bounds. -/
structure InBounds (numPartitions : Nat) : Prop where
  constructed : ∀ p ∈ P.constructed, p < P.allocated
  runs : ∀ log s, P.Run C log s → ∀ ix ∈ log, P.Within numPartitions ix

variable {P C} {n : Nat} {log : List PartIndices} {s : σ}

theorem Run.within (inv : σ → Prop) (hinit : ∀ s, P.init = some s → inv s)
    (hstep : ∀ s s' ev ix, inv s → C ev → P.step s ev = some (s', ix) → inv s' ∧ P.Within n ix)
    (h : P.Run C log s) : inv s ∧ ∀ ix ∈ log, P.Within n ix := by
  induction h with
  | init h => exact ⟨hinit _ h, by simp⟩
  | step _ hev hs ih =>
    obtain ⟨hinv, hwithin⟩ := hstep _ _ _ _ ih.1 hev hs
    refine ⟨hinv, fun ix hix => ?_⟩
    rcases List.mem_cons.mp hix with rfl | hix
    · exact hwithin
    · exact ih.2 ix hix

end PartPolicy

variable {Ptr : Type} (z : PartZInfo) (m : PartMapper)

/-- A replacement asks for the partition of its request, and an update uses those of the line. -/
def wayPartPolicy (G : WayPartConfig) : PartPolicy WayPartReplPolicy Ptr where
  allocated := G.partitions
  constructed := List.range G.partitions ++ 0 :: (WayPartReplPolicy.init G).wayPartIndex
  init := some (.init G)
  step := fun s => fun
    | .update id _ _ => (s.update id).map fun s' => (s',
        { returned := []
          partInfo := (s.array id).p ::
            if 0 < (s.array id).ts then [] else s.incomingLinePart.toList
          monitors := [(s'.array id).p] })
    | .rank procIdx req cands => (m.getPartition z procIdx req).bind fun part =>
        (s.rank G part req.lineAddr cands).map fun r => (r.2, ⟨[part], [], []⟩)
    | .replaced id => some (s.replaced id, ⟨[], [], []⟩)
    | .setPartitionSizes sizes =>
        (s.repartition G ((List.range G.partitions).map sizes)).map fun s' =>
          (s', ⟨[], List.range G.partitions, []⟩)

/-- The last entry is that of the unmanaged region, which has no monitor. An update asks for the
partition of its request when the line is new or in that region. -/
def vantagePolicy {R : MTRand} (G : VantageConfig) : PartPolicy (VantageReplPolicy R) Ptr where
  allocated := G.partitions + 1
  constructed := List.range (G.partitions + 1)
  init := some (.init G)
  step := fun s => fun
    | .update id procIdx req =>
        let e := s.array id
        let asks : Bool := e.ts = 0 || e.p = G.partitions
        (if asks then m.getPartition z procIdx req else some e.p).bind fun part =>
          (s.update G id part).map fun s' => (s',
            { returned := if asks then [part] else []
              partInfo := List.range (G.partitions + 1) ++ [e.p, e.op, part, (s'.array id).p]
              monitors := [(s'.array id).p] })
    | .rank _ req cands =>
        (cands.foldlM (VantageReplPolicy.recordCandidate G)
          (s.startReplacement req.lineAddr)).bind fun s =>
          (s.getBestCandidate G).map fun r =>
            (r.2, ⟨[], G.partitions :: s.candList.map fun id => (s.array id).p, []⟩)
    | .replaced id => some (s.replaced id, ⟨[], [], []⟩)
    | .setPartitionSizes sizes => (s.setPartitionSizes G sizes).map fun s' =>
        (s', ⟨[], List.range G.partitions, []⟩)

/-- `rank` looks at all partitions for the victim's. -/
def idealLRUPartPolicy (G : IdealPartConfig) (R : DoubleRounding) :
    PartPolicy IdealLRUPartReplPolicy Ptr where
  allocated := G.partitions
  constructed := IdealLRUPartReplPolicy.constructed G
  init := IdealLRUPartReplPolicy.init G
  step := fun s => fun
    | .update id procIdx req =>
        let e := s.array id
        (if e.used then some e.p else m.getPartition z procIdx req).bind fun part =>
          (s.update id part).map fun s' => (s',
            { returned := if e.used then [] else [part]
              partInfo := [e.p, part]
              monitors := [(s'.array id).p] })
    | .rank procIdx req _ => (m.getPartition z procIdx req).bind fun part =>
        (s.rank G R part).map fun _ => (s, ⟨[part], part :: List.range G.partitions, []⟩)
    | .replaced id => some (s.replaced id, ⟨[], [], []⟩)
    | .setPartitionSizes sizes => (s.setPartitionSizes G sizes).map fun s' =>
        (s', ⟨[], List.range G.partitions, []⟩)

namespace WayPartReplPolicy

variable {G : WayPartConfig} {s s' : WayPartReplPolicy} {n id : Nat}

/-- The partitions of the lines and of the incoming line exist. -/
structure PartsLt (n : Nat) (s : WayPartReplPolicy) : Prop where
  array : ∀ id, (s.array id).p < n
  incoming : ∀ p, s.incomingLinePart = some p → p < n

theorem recordAll_frame {cands : List Nat} (h : recordAll G cands s = some s') :
    s'.array = s.array ∧ s'.incomingLinePart = s.incomingLinePart := by
  induction cands generalizing s with
  | nil =>
    cases h
    exact ⟨rfl, rfl⟩
  | cons id cands ih =>
    rw [recordAll] at h
    obtain ⟨s₁, hone, hrest⟩ := Option.bind_eq_some_iff.mp h
    obtain ⟨harray, hincoming⟩ := ih hrest
    have hframe : s₁.array = s.array ∧ s₁.incomingLinePart = s.incomingLinePart := by
      unfold recordCandidate at hone
      split at hone
      · cases hone
        split
        · split
          · exact ⟨rfl, rfl⟩
          · split <;> exact ⟨rfl, rfl⟩
        · exact ⟨rfl, rfl⟩
      · cases hone
    exact ⟨harray.trans hframe.1, hincoming.trans hframe.2⟩

theorem PartsLt.update (h : PartsLt n s) (hs : s.update id = some s') : PartsLt n s' := by
  simp only [WayPartReplPolicy.update] at hs
  split at hs
  · cases hs
    refine ⟨fun j => ?_, h.incoming⟩
    by_cases hj : j = id
    · subst hj
      simpa using h.array j
    · simpa [hj] using h.array j
  · obtain ⟨part, hpart, hs⟩ := Option.bind_eq_some_iff.mp hs
    obtain ⟨partInfo, -, rfl⟩ := Option.map_eq_some_iff.mp hs
    refine ⟨fun j => ?_, h.incoming⟩
    by_cases hj : j = id
    · subst hj
      simpa using h.incoming part hpart
    · simpa [hj] using h.array j

theorem PartsLt.rank (h : PartsLt n s) {part : Nat} (hpart : part < n) {lineAddr : Address}
    {cands : List Nat} {r : Nat × WayPartReplPolicy}
    (hs : s.rank G part lineAddr cands = some r) : PartsLt n r.2 := by
  obtain ⟨s₁, hstart, hs⟩ := Option.bind_eq_some_iff.mp hs
  obtain ⟨s₂, hrec, hs⟩ := Option.bind_eq_some_iff.mp hs
  obtain ⟨best, -, rfl⟩ := Option.map_eq_some_iff.mp hs
  obtain ⟨harray, hincoming⟩ := recordAll_frame hrec
  unfold startReplacement at hstart
  split at hstart <;> cases hstart
  refine ⟨fun j => harray ▸ h.array j, fun p hp => ?_⟩
  rw [hincoming] at hp
  cases hp
  exact hpart

theorem mem_init_wayPartIndex {p : Nat} (hp : p ∈ (init G).wayPartIndex) : p < G.partitions := by
  obtain ⟨w, hw, rfl⟩ := List.mem_map.mp hp
  have hw := List.mem_range.mp hw
  have hle : w * G.partitions % 2 ^ 32 ≤ w * G.partitions := Nat.mod_le _ _
  have hlt : w * G.partitions < G.partitions * G.ways := by
    rw [Nat.mul_comm]
    exact Nat.mul_lt_mul_of_pos_left hw G.partitions_pos
  exact Nat.div_lt_of_lt_mul (Nat.mul_comm G.partitions G.ways ▸ Nat.lt_of_le_of_lt hle hlt)

end WayPartReplPolicy

open PartMapper

variable {z m}

theorem wayPart_inBounds (hm : m.OfCores z) (hfit : m.Fits) (G : WayPartConfig)
    (hn : G.partitions = m.getNumPartitions z) :
    (wayPartPolicy z m G).InBounds (PartEvent.Requests fun req : MemReq Ptr => Ranged z m req)
      (m.getNumPartitions z) := by
  refine ⟨fun p hp => ?_, fun log s hrun => ?_⟩
  · rcases List.mem_append.mp hp with hp | hp
    · exact List.mem_range.mp hp
    · rcases List.mem_cons.mp hp with rfl | hp
      · exact G.partitions_pos
      · exact WayPartReplPolicy.mem_init_wayPartIndex hp
  refine (hrun.within (WayPartReplPolicy.PartsLt G.partitions) ?_ ?_).2
  · intro s hs
    cases hs
    exact ⟨fun _ => G.partitions_pos, fun p hp => by cases hp⟩
  · intro s s' ev ix hinv hev hs
    cases ev with
    | update id procIdx req =>
      obtain ⟨s₁, hs₁, hix⟩ := Option.map_eq_some_iff.mp hs
      cases hix
      have hinv' := hinv.update hs₁
      refine ⟨hinv', by simp, fun p hp => ?_, fun p hp => ?_⟩
      · rcases List.mem_cons.mp hp with rfl | hp
        · exact hinv.array id
        · split at hp
          · cases hp
          · exact hinv.incoming p (Option.mem_toList.mp hp)
      · rw [List.mem_singleton.mp hp, ← hn]
        exact hinv'.array id
    | rank procIdx req cands =>
      obtain ⟨part, hpart, hs⟩ := Option.bind_eq_some_iff.mp hs
      obtain ⟨r, hr, hix⟩ := Option.map_eq_some_iff.mp hs
      cases hix
      have hlt := getPartition_lt hm hfit hev hpart
      refine ⟨hinv.rank (hn ▸ hlt) hr, fun p hp => ?_, by simp, by simp⟩
      rwa [List.mem_singleton.mp hp]
    | replaced id =>
      cases hs
      refine ⟨⟨fun j => ?_, hinv.incoming⟩, by simp, by simp, by simp⟩
      by_cases hj : j = id
      · subst hj
        simpa [WayPartReplPolicy.replaced] using hinv.array j
      · simpa [WayPartReplPolicy.replaced, hj] using hinv.array j
    | setPartitionSizes sizes =>
      obtain ⟨s₁, hs₁, hix⟩ := Option.map_eq_some_iff.mp hs
      cases hix
      obtain ⟨r, -, rfl⟩ := Option.map_eq_some_iff.mp hs₁
      exact ⟨⟨hinv.array, hinv.incoming⟩, by simp, fun p hp => List.mem_range.mp hp, by simp⟩

namespace VantageReplPolicy

variable {R : MTRand} {G : VantageConfig} {s s' : VantageReplPolicy R} {n id part p : Nat}

/-- Every line is in a partition up to the unmanaged region, and came from one. -/
def TagsLe (n : Nat) (s : VantageReplPolicy R) : Prop := ∀ id, s.tag id ≤ n ∧ s.origin id ≤ n

theorem TagsLe.frame (h : TagsLe n s) (hf : Frame s s') : TagsLe n s' := by
  intro id
  rw [hf.tag, hf.origin]
  exact h id

theorem TagsLe.of_array (h : TagsLe n s) (ha : s'.array = s.array) : TagsLe n s' := by
  intro id
  rw [tag, origin, ha]
  exact h id

theorem TagsLe.setLine (h : TagsLe n s) (id : Nat) (e : VantageLine) (hp : e.p ≤ n)
    (ho : e.op ≤ n) :
    TagsLe n (s.setLine id e) := by
  intro j
  rw [setLine_tag, setLine_origin]
  by_cases hj : j = id
  · subst hj
    simpa using ⟨hp, ho⟩
  · simpa [hj] using h j

theorem sizeDec_array (h : s.sizeDec p = some s') : s'.array = s.array := by
  unfold sizeDec at h
  split at h
  · cases h
  · cases h
    rfl

theorem extendedDec_array (h : s.extendedDec p = some s') : s'.array = s.array := by
  unfold extendedDec at h
  split at h
  · cases h
  · cases h
    rfl

/-- A line that is promoted or filled gets the partition of the request, any other keeps its
own. -/
theorem TagsLe.account (h : TagsLe n s)
    (hpart : (s.array id).ts = 0 ∨ (s.array id).p = G.partitions → part < n)
    (hother : (s.array id).p ≠ G.partitions → (s.array id).p < n)
    (hs : s.account G id part = some s') : TagsLe n s' ∧ s'.tag id < n := by
  unfold VantageReplPolicy.account at hs
  split at hs
  · next hhit =>
    unfold hit at hs
    split at hs
    · next hp =>
      have hlt := hpart (.inr hp)
      obtain ⟨s₁, hdec, rfl⟩ := Option.map_eq_some_iff.mp hs
      have harray := sizeDec_array hdec
      have hset := h.setLine id { s.array id with p := part } (Nat.le_of_lt hlt) (h id).2
      have hmid : TagsLe n s₁ := hset.of_array harray
      refine ⟨hmid.frame (Frame.touch s₁ id), ?_⟩
      rw [(Frame.touch s₁ id).tag, tag, harray]
      simpa [insCount, sizeInc] using hlt
    · next hp =>
      cases hs
      refine ⟨h.frame (Frame.touch s id), ?_⟩
      rw [(Frame.touch s id).tag]
      exact hother hp
  · next hmiss =>
    have hlt := hpart (.inl (Nat.eq_zero_of_not_pos hmiss))
    obtain ⟨s₁, hdec, hs⟩ := Option.bind_eq_some_iff.mp hs
    obtain ⟨s₂, hext, rfl⟩ := Option.map_eq_some_iff.mp hs
    have hmid : TagsLe n s₂ :=
      ((h.frame (Frame.touch s id)).of_array (sizeDec_array hdec)).of_array (extendedDec_array hext)
    have hset := hmid.setLine id { s₂.array id with p := part, op := part }
      (Nat.le_of_lt hlt) (Nat.le_of_lt hlt)
    refine ⟨hset.of_array rfl, ?_⟩
    show (Function.update s₂.array id _ id).p < n
    rw [Function.update_self]
    exact hlt

theorem TagsLe.update (h : TagsLe n s)
    (hpart : (s.array id).ts = 0 ∨ (s.array id).p = G.partitions → part < n)
    (hother : (s.array id).p ≠ G.partitions → (s.array id).p < n)
    (hs : s.update G id part = some s') : TagsLe n s' ∧ s'.tag id < n := by
  obtain ⟨s₁, haccount, hs⟩ := Option.bind_eq_some_iff.mp hs
  obtain ⟨s₂, hgrow, rfl⟩ := Option.map_eq_some_iff.mp hs
  obtain ⟨h₁, hlt⟩ := h.account hpart hother haccount
  have hframe : Frame s₁ s₂ := by
    split at hgrow
    · exact Frame.grow hgrow
    · cases hgrow
      exact Frame.refl s₁
  have hall := hframe.trans (Frame.retime s₂ id)
  exact ⟨h₁.frame hall, by rwa [hall.tag]⟩

theorem TagsLe.examine (h : TagsLe n s) (hn : G.partitions ≤ n) (hs : s.examine G id = some s') :
    TagsLe n s' := by
  simp only [VantageReplPolicy.examine] at hs
  split at hs
  · cases hs
    exact h
  · obtain ⟨s₁, hdemote, hs⟩ := Option.bind_eq_some_iff.mp hs
    have h₁ : TagsLe n s₁ := by
      split at hdemote
      · obtain ⟨s₂, hdec, rfl⟩ := Option.map_eq_some_iff.mp hdemote
        have h₂ : TagsLe n s₂ := h.of_array (sizeDec_array hdec)
        exact (h₂.setLine id { s₂.array id with p := G.partitions } hn (h₂ id).2).of_array rfl
      · cases hdemote
        exact h
    split at hs
    · intro j
      rw [(Frame.endInterval hs).tag, (Frame.endInterval hs).origin]
      exact h₁ j
    · cases hs
      exact h₁.of_array rfl

theorem TagsLe.examineAll {ids : List Nat} (h : TagsLe n s) (hn : G.partitions ≤ n)
    (hs : s.examineAll G ids = some s') : TagsLe n s' := by
  induction ids generalizing s with
  | nil =>
    cases hs
    exact h
  | cons id ids ih =>
    obtain ⟨s₁, hone, hrest⟩ := Option.bind_eq_some_iff.mp hs
    exact ih (h.examine hn hone) hrest

theorem TagsLe.getBestCandidate {r : Nat × VantageReplPolicy R} (h : TagsLe n s)
    (hn : G.partitions ≤ n) (hs : s.getBestCandidate G = some r) : TagsLe n r.2 := by
  unfold VantageReplPolicy.getBestCandidate at hs
  split at hs
  · cases hs
  · split at hs
    · obtain ⟨s₁, hall, hs⟩ := Option.bind_eq_some_iff.mp hs
      simp only at hs
      split at hs
      · cases hs
        exact h.examineAll hn hall
      · cases hs
    · cases hs

theorem recordAll_array {cands : List Nat}
    (h : cands.foldlM (recordCandidate G) s = some s') : s'.array = s.array := by
  induction cands generalizing s with
  | nil =>
    cases h
    rfl
  | cons id cands ih =>
    rw [List.foldlM_cons] at h
    obtain ⟨s₁, hone, hrest⟩ := Option.bind_eq_some_iff.mp h
    rw [ih hrest]
    unfold recordCandidate at hone
    split at hone
    · cases hone
      rfl
    · cases hone

end VantageReplPolicy

theorem vantage_inBounds (hm : m.OfCores z) (hfit : m.Fits) {R : MTRand} (G : VantageConfig)
    (hn : G.partitions = m.getNumPartitions z) :
    (vantagePolicy (R := R) z m G).InBounds
      (PartEvent.Requests fun req : MemReq Ptr => Ranged z m req) (m.getNumPartitions z) := by
  refine ⟨fun p hp => List.mem_range.mp hp, fun log s hrun => ?_⟩
  refine (hrun.within (VantageReplPolicy.TagsLe G.partitions) ?_ ?_).2
  · intro s hs
    cases hs
    exact fun _ => ⟨Nat.le_refl _, Nat.le_refl _⟩
  · intro s s' ev ix hinv hev hs
    cases ev with
    | update id procIdx req =>
      obtain ⟨part, hpart, hs⟩ := Option.bind_eq_some_iff.mp hs
      obtain ⟨s₁, hs₁, hix⟩ := Option.map_eq_some_iff.mp hs
      cases hix
      have hasked : (s.array id).ts = 0 ∨ (s.array id).p = G.partitions →
          part < G.partitions := by
        intro hasks
        rw [if_pos (by simpa using hasks)] at hpart
        exact hn ▸ getPartition_lt hm hfit hev hpart
      have hown : (s.array id).p ≠ G.partitions → (s.array id).p < G.partitions :=
        Nat.lt_of_le_of_ne (hinv id).1
      have hle : part ≤ G.partitions := by
        split at hpart
        · next hasks => exact Nat.le_of_lt (hasked (by simpa using hasks))
        · cases hpart
          exact (hinv id).1
      obtain ⟨hinv', hlt⟩ := hinv.update hasked hown hs₁
      refine ⟨hinv', fun p hp => ?_, fun p hp => ?_, fun p hp => ?_⟩
      · split at hp
        · next hasks =>
          rw [List.mem_singleton.mp hp, ← hn]
          exact hasked (by simpa using hasks)
        · cases hp
      · rcases List.mem_append.mp hp with hp | hp
        · exact List.mem_range.mp hp
        · have hid := hinv id
          simp only [List.mem_cons, List.not_mem_nil, or_false] at hp
          rcases hp with rfl | rfl | rfl | rfl
          · exact Nat.lt_succ_of_le hid.1
          · exact Nat.lt_succ_of_le hid.2
          · exact Nat.lt_succ_of_le hle
          · exact Nat.lt_succ_of_lt hlt
      · rw [List.mem_singleton.mp hp, ← hn]
        exact hlt
    | rank procIdx req cands =>
      obtain ⟨s₁, hrec, hs⟩ := Option.bind_eq_some_iff.mp hs
      obtain ⟨r, hr, hix⟩ := Option.map_eq_some_iff.mp hs
      cases hix
      have hstart : VantageReplPolicy.TagsLe G.partitions (s.startReplacement req.lineAddr) :=
        hinv.of_array rfl
      have h₁ := hstart.of_array (VantageReplPolicy.recordAll_array hrec)
      refine ⟨h₁.getBestCandidate (Nat.le_refl _) hr, by simp, fun p hp => ?_, by simp⟩
      rcases List.mem_cons.mp hp with rfl | hp
      · exact Nat.lt_succ_self _
      · obtain ⟨id, -, rfl⟩ := List.mem_map.mp hp
        exact Nat.lt_succ_of_le (h₁ id).1
    | replaced id =>
      cases hs
      have hset := hinv.setLine id
        { s.array id with ts := 0, bts := 0, addr := s.incomingLineAddr }
        (hinv id).1 (hinv id).2
      exact ⟨hset.of_array rfl, by simp, by simp, by simp⟩
    | setPartitionSizes sizes =>
      obtain ⟨s₁, hs₁, hix⟩ := Option.map_eq_some_iff.mp hs
      cases hix
      refine ⟨hinv.frame (VantageReplPolicy.Frame.setPartitionSizes hs₁), by simp, fun p hp => ?_,
        by simp⟩
      exact Nat.lt_succ_of_lt (List.mem_range.mp hp)

theorem idealLRUPart_not_inBounds (C : PartEvent Ptr → Prop) (G : IdealPartConfig)
    (D : DoubleRounding) (n : Nat) : ¬ (idealLRUPartPolicy z m G D).InBounds C n :=
  fun h => IdealLRUPartReplPolicy.constructed_past G h.constructed

/-- The partitions of way partitioning and of Vantage are in bounds in every run of requests in
range; ideal LRU writes past the end of its `partInfo` before the first one. -/
theorem partitions_in_bounds {name : String} (hnew : newPartMapper z name = some m)
    (hfit : m.Fits) {R : MTRand} (W : WayPartConfig) (V : VantageConfig) (I : IdealPartConfig)
    (D : DoubleRounding) (hW : W.partitions = m.getNumPartitions z)
    (hV : V.partitions = m.getNumPartitions z) :
    (wayPartPolicy z m W).InBounds (PartEvent.Requests fun req : MemReq Ptr => Ranged z m req)
        (m.getNumPartitions z) ∧
      (vantagePolicy (R := R) z m V).InBounds
        (PartEvent.Requests fun req : MemReq Ptr => Ranged z m req) (m.getNumPartitions z) ∧
      (∀ C : PartEvent Ptr → Prop,
        ¬ (idealLRUPartPolicy z m I D).InBounds C (m.getNumPartitions z)) ∧
      (∀ (procIdx p : Nat) (req : MemReq Ptr), req.srcId < z.numCores →
        m.getPartition z procIdx req = some p →
          (p < m.getNumPartitions z ↔ Ranged z m req)) ∧
      ∀ (procIdx procIdx' p p' : Nat) (req req' : MemReq Ptr), req.srcId < z.numCores →
        req'.srcId < z.numCores → m.getPartition z procIdx req = some p →
          m.getPartition z procIdx' req' = some p' →
            (p = p' ↔ m.attributes z procIdx req = m.attributes z procIdx' req') := by
  have hm := ofCores_of_new hnew
  exact ⟨wayPart_inBounds hm hfit W hW, vantage_inBounds hm hfit V hV,
    fun C => idealLRUPart_not_inBounds C I D _,
    fun _ _ _ hcore hp => getPartition_lt_iff hm hfit hcore hp,
    fun _ _ _ _ _ _ hcore hcore' hp hp' => getPartition_eq_iff hm hfit hcore hcore' hp hp'⟩

def twoCoreInfo : PartZInfo := ⟨2, 1, 1, fun _ => 0⟩

/-- Instructions and data of two cores: four partitions. -/
def twoCoreMapper : PartMapper := .instrDataCore 2

def fourWays : WayPartConfig := ⟨4, 20, 4, false, Nat.succ_pos 3, by decide, rfl⟩

def fourManaged : VantageConfig :=
  ⟨4, 20, 4, 15, 5, false, fun _ _ _ _ => none, Nat.succ_pos 3, by decide, by decide⟩

def TwoCoreRequests : PartEvent Nat → Prop :=
  PartEvent.Requests fun req => Ranged twoCoreInfo twoCoreMapper req

def secondCoreFetch : MemReq Nat := ⟨40, .GETS, 0, 0, 0, false, .I, 1, 0, 0, MemReq.IFETCH⟩

def secondCoreData : MemReq Nat := ⟨41, .GETX, 0, 0, 0, false, .I, 1, 0, 0, 0⟩

theorem ranged_twoCoreMapper {req : MemReq Nat} (h : req.srcId < 2) :
    Ranged twoCoreInfo twoCoreMapper req := by
  refine ⟨h, fun hinstr => ?_⟩
  cases hinstr

/-- A fetch of the second core replaces a line of the fourth partition, and its data is in the
second. -/
theorem partitions_in_bounds_twoCores :
    (∃ log s, (wayPartPolicy twoCoreInfo twoCoreMapper fourWays).Run TwoCoreRequests log s ∧
      log.map PartIndices.returned = [[1], [], [], [3]] ∧
      log.map PartIndices.monitors = [[], [3], [], []] ∧
      ∀ ix ∈ log,
        (wayPartPolicy twoCoreInfo twoCoreMapper fourWays : PartPolicy _ Nat).Within 4 ix) ∧
    (vantagePolicy (R := ⟨Unit, (), fun s _ => (0, s), fun _ _ => Nat.zero_le _⟩) twoCoreInfo
        twoCoreMapper fourManaged).InBounds TwoCoreRequests 4 ∧
    (¬ (idealLRUPartPolicy twoCoreInfo twoCoreMapper ⟨4, 20, 5, by decide, by decide⟩
        ⟨id, monotone_id, rfl⟩).InBounds TwoCoreRequests 4) ∧
    (∃ p, twoCoreMapper.getPartition twoCoreInfo 0 secondCoreFetch = some p ∧ p < 4) ∧
    twoCoreMapper.attributes twoCoreInfo 0 secondCoreFetch ≠
      twoCoreMapper.attributes twoCoreInfo 0 secondCoreData := by
  obtain ⟨hway, hvantage, hideal, hlt, heq⟩ := partitions_in_bounds
    (R := ⟨Unit, (), fun s _ => (0, s), fun _ _ => Nat.zero_le _⟩)
    (rfl : newPartMapper twoCoreInfo "InstrDataCore" = some twoCoreMapper)
    (show 2 * 2 < 2 ^ 32 by decide) fourWays fourManaged ⟨4, 20, 5, by decide, by decide⟩
    ⟨id, monotone_id, rfl⟩ rfl rfl
  have hfetch : Ranged twoCoreInfo twoCoreMapper secondCoreFetch := ranged_twoCoreMapper (by decide)
  have hdata : Ranged twoCoreInfo twoCoreMapper secondCoreData := ranged_twoCoreMapper (by decide)
  have hdiffer := heq 0 0 3 1 secondCoreFetch secondCoreData (by decide) (by decide) rfl rfl
  refine ⟨?_, hvantage, hideal _, ⟨3, rfl, (hlt 0 3 _ (by decide) rfl).mpr hfetch⟩,
    mt hdiffer.mpr (by decide)⟩
  have h₀ : (wayPartPolicy twoCoreInfo twoCoreMapper fourWays).Run TwoCoreRequests [] _ :=
    .init rfl
  have h₁ := h₀.step (show TwoCoreRequests (.rank 0 secondCoreFetch [0, 1, 2, 3]) from hfetch) rfl
  have h₂ := h₁.step (show TwoCoreRequests (.replaced 3) from trivial) rfl
  have h₃ := h₂.step (show TwoCoreRequests (.update 3 0 secondCoreFetch) from hfetch) rfl
  have h₄ := h₃.step (show TwoCoreRequests (.rank 0 secondCoreData [0, 1, 2, 3]) from hdata) rfl
  exact ⟨_, _, h₄, rfl, rfl, hway.runs _ _ h₄⟩

/-- With one core an ideal LRU policy constructs two entries of one, and the instruction fetches of
an instruction and data mapper are in the third partition of two. -/
theorem oneCore_out_of_bounds :
    (¬ (idealLRUPartPolicy ⟨1, 1, 1, fun _ => 0⟩ (.core 1) ⟨1, 4, 1, by decide, by decide⟩
        ⟨id, monotone_id, rfl⟩).InBounds
      (PartEvent.Requests fun req : MemReq Nat => req.srcId < 1) 1) ∧
    ∃ req : MemReq Nat, req.srcId < 1 ∧
      instrData.getPartition ⟨1, 1, 1, fun _ => 0⟩ 0 req = some 2 ∧
        instrData.getNumPartitions ⟨1, 1, 1, fun _ => 0⟩ = 2 := by
  refine ⟨fun h => absurd (h.constructed 1 (by decide)) (by decide), ?_⟩
  exact ⟨⟨0, .GETS, 0, 0, 0, false, .I, 0, 0, 0, MemReq.IFETCH⟩, by decide, rfl, rfl⟩

end ZSim
