import ZSim.ZArray

/-! The replacement walk of a zcache on a consistent array: it terminates inside its
scratch arrays, and the path from a candidate of minimal index to its seed visits no
position twice. -/

namespace ZSim

namespace ZArray

variable {Z : ZConfig} {z : ZArray}

theorem numSets_pos (Z : ZConfig) : 0 < Z.numSets := by
  obtain ⟨k, hk⟩ := Z.isPow2
  rw [hk]
  exact Nat.two_pow_pos k

theorem mask_lt (Z : ZConfig) (h : Nat) : h &&& setMask Z < Z.numSets := by
  obtain ⟨k, hk⟩ := Z.isPow2
  rw [setMask, hk, Nat.and_two_pow_sub_one_eq_mod]
  exact Nat.mod_lt _ (Nat.two_pow_pos k)

theorem slot_lt {w : Nat} (hw : w < Z.ways) (a : Address) : slot Z w a < numLines Z := by
  have hm := mask_lt Z (Z.hash w a)
  have hle : (w + 1) * Z.numSets ≤ Z.ways * Z.numSets := Nat.mul_le_mul_right _ hw
  rw [Nat.add_mul, Nat.one_mul] at hle
  simp only [slot, numLines]
  omega

theorem slot_inj {w w' : Nat} {a a' : Address} (h : slot Z w a = slot Z w' a') : w = w' := by
  have hm := mask_lt Z (Z.hash w a)
  have hm' := mask_lt Z (Z.hash w' a')
  have hd := congrArg (· / Z.numSets) h
  simp only [slot] at hd
  rwa [Nat.mul_comm w, Nat.mul_comm w', Nat.mul_add_div (numSets_pos Z),
    Nat.mul_add_div (numSets_pos Z), Nat.div_eq_of_lt hm, Nat.div_eq_of_lt hm'] at hd

/-- The lookup array is a permutation, every resident line is at a position its hashes
allow, and no two lines hold the same address. -/
structure Consistent (Z : ZConfig) (z : ZArray) : Prop where
  lt : ∀ pos < numLines Z, z.lookupArray pos < numLines Z
  inj : ∀ pos < numLines Z, ∀ pos' < numLines Z, z.lookupArray pos = z.lookupArray pos' →
    pos = pos'
  surj : ∀ i < numLines Z, ∃ pos < numLines Z, z.lookupArray pos = i
  placed : ∀ pos < numLines Z, z.array (z.lookupArray pos) ≠ 0 →
    ∃ w < Z.ways, pos = slot Z w (z.array (z.lookupArray pos))
  distinct : ∀ i < numLines Z, ∀ j < numLines Z, z.array i ≠ 0 → z.array i = z.array j → i = j

def kids (Z : ZConfig) (z : ZArray) (fringeStart : Nat) (fringe : ZWalkInfo) (ws : List Nat) :
    List ZWalkInfo :=
  (ws.filter fun w => z.lookupArray (slot Z w (z.array fringe.lineId)) ≠ fringe.lineId).map
    fun w => ⟨slot Z w (z.array fringe.lineId), z.lookupArray (slot Z w (z.array fringe.lineId)),
      some fringeStart⟩

theorem mem_kids {f : Nat} {y x : ZWalkInfo} {ws : List Nat} :
    x ∈ kids Z z f y ws ↔ ∃ w ∈ ws, z.lookupArray (slot Z w (z.array y.lineId)) ≠ y.lineId ∧
      x = ⟨slot Z w (z.array y.lineId), z.lookupArray (slot Z w (z.array y.lineId)), some f⟩ := by
  simp only [kids, List.mem_map, List.mem_filter, decide_eq_true_eq]
  constructor
  · rintro ⟨w, ⟨hw, hne⟩, rfl⟩
    exact ⟨w, hw, hne, rfl⟩
  · rintro ⟨w, hw, hne, rfl⟩
    exact ⟨w, ⟨hw, hne⟩, rfl⟩

theorem expandFringe_eq {f : Nat} {y : ZWalkInfo} {ws : List Nat} {s : Walk}
    (hroom : s.candidates.length + ws.length ≤ Z.cands + Z.ways) :
    expandFringe Z z f y ws s = some ⟨s.candidates ++ kids Z z f y ws,
      s.allValid && ws.all fun w => z.array (z.lookupArray (slot Z w (z.array y.lineId))) != 0⟩ := by
  induction ws generalizing s with
  | nil => simp [expandFringe, kids]
  | cons w ws ih =>
    rw [List.length_cons] at hroom
    have hlt : s.candidates.length < Z.cands + Z.ways := by omega
    simp only [expandFringe, expandWay, hlt, if_true, Option.bind_some]
    by_cases heq : z.lookupArray (slot Z w (z.array y.lineId)) = y.lineId
    · rw [ih (by simp only [heq, if_true]; omega)]
      simp [kids, heq, Bool.and_assoc]
    · rw [ih (by simp only [heq, if_false, List.length_append, List.length_singleton]; omega)]
      simp [kids, heq, Bool.and_assoc]

/-- What the walk knows after expanding the candidates below `fs`: seeds come first,
children stand in the order of their parents, and no child of an expanded candidate is
missing. -/
structure WalkInv (Z : ZConfig) (z : ZArray) (a : Address) (fs : Nat) (s : Walk) : Prop where
  length : Z.ways + fs ≤ s.candidates.length
  info : ∀ x ∈ s.candidates, x.pos < numLines Z ∧ x.lineId = z.lookupArray x.pos
  seed : ∀ (i : Nat) (x : ZWalkInfo), s.candidates[i]? = some x → x.parentIdx = none →
    i < Z.ways ∧ ∃ w < Z.ways, x.pos = slot Z w a
  child : ∀ (i : Nat) (x : ZWalkInfo) (f : Nat), s.candidates[i]? = some x → x.parentIdx = some f →
    f < fs ∧ Z.ways + f ≤ i ∧ ∃ y, s.candidates[f]? = some y ∧ x.lineId ≠ y.lineId ∧
      ∃ w < Z.ways, x.pos = slot Z w (z.array y.lineId)
  ordered : ∀ (i j : Nat) (x y : ZWalkInfo) (f g : Nat), s.candidates[i]? = some x → s.candidates[j]? = some y →
    x.parentIdx = some f → y.parentIdx = some g → f < g → i < j
  complete : ∀ (f : Nat) (y : ZWalkInfo), f < fs → s.candidates[f]? = some y → ∀ w < Z.ways,
    z.lookupArray (slot Z w (z.array y.lineId)) ≠ y.lineId →
    ∃ (i : Nat) (x : ZWalkInfo), s.candidates[i]? = some x ∧ x.parentIdx = some f ∧
      x.pos = slot Z w (z.array y.lineId)
  valid : s.allValid = true → ∀ x ∈ s.candidates, z.array x.lineId ≠ 0

theorem walkInv_seeds (z : ZArray) (a : Address) : WalkInv Z z a 0 (seeds Z z a) := by
  have hget (i : Nat) (x : ZWalkInfo) (hx : (seeds Z z a).candidates[i]? = some x) :
      i < Z.ways ∧ x = ⟨slot Z i a, z.lookupArray (slot Z i a), none⟩ := by
    have hi : i < Z.ways := by
      have := (List.getElem?_eq_some_iff.mp hx).1
      simpa [seeds] using this
    refine ⟨hi, ?_⟩
    simp only [seeds, List.getElem?_map, List.getElem?_range hi, Option.map_some,
      Option.some.injEq] at hx
    exact hx.symm
  refine ⟨by simp [seeds], ?_, ?_, ?_, ?_, ?_, ?_⟩
  · intro x hx
    simp only [seeds, List.mem_map, List.mem_range] at hx
    obtain ⟨w, hw, rfl⟩ := hx
    exact ⟨slot_lt hw a, rfl⟩
  · intro i x hx _
    obtain ⟨hi, rfl⟩ := hget i x hx
    exact ⟨hi, i, hi, rfl⟩
  · intro i x f hx hf
    obtain ⟨_, rfl⟩ := hget i x hx
    simp at hf
  · intro i j x y f g hx _ hf
    obtain ⟨_, rfl⟩ := hget i x hx
    simp at hf
  · intro f y hf
    omega
  · intro hv x hx
    have hh := List.all_eq_true.mp hv x hx
    simpa using hh

/-- The line itself is found in one way only, so an expansion adds a candidate. -/
theorem kids_length_pos (h : Consistent Z z) {f : Nat} {y : ZWalkInfo} (hy : y.pos < numLines Z)
    (hl : y.lineId = z.lookupArray y.pos) : 0 < (kids Z z f y (List.range Z.ways)).length := by
  by_contra hn
  have hnil : kids Z z f y (List.range Z.ways) = [] := List.length_eq_zero_iff.mp (by omega)
  have hself (w : Nat) (hw : w < Z.ways) : slot Z w (z.array y.lineId) = y.pos := by
    by_contra hne
    have hm : (⟨slot Z w (z.array y.lineId), z.lookupArray (slot Z w (z.array y.lineId)), some f⟩ :
        ZWalkInfo) ∈ kids Z z f y (List.range Z.ways) := by
      refine mem_kids.mpr ⟨w, List.mem_range.mpr hw, fun heq => hne ?_, rfl⟩
      exact h.inj _ (slot_lt hw _) _ hy (heq.trans hl)
    simp [hnil] at hm
  have h0 := hself 0 (by have := Z.one_lt_ways; omega)
  have h1 := hself 1 Z.one_lt_ways
  have := slot_inj (h0.trans h1.symm)
  omega

theorem WalkInv.expand (h : Consistent Z z) {a : Address} {fs : Nat} {s : Walk} {y : ZWalkInfo}
    (hi : WalkInv Z z a fs s) (hy : s.candidates[fs]? = some y) :
    WalkInv Z z a (fs + 1) ⟨s.candidates ++ kids Z z fs y (List.range Z.ways),
      s.allValid && (List.range Z.ways).all fun w =>
        z.array (z.lookupArray (slot Z w (z.array y.lineId))) != 0⟩ := by
  have hym := List.mem_of_getElem? hy
  have hpos := kids_length_pos (f := fs) h (hi.info y hym).1 (hi.info y hym).2
  -- an entry is an old one or a child of `y`
  have hget (i : Nat) (x : ZWalkInfo)
      (hx : (s.candidates ++ kids Z z fs y (List.range Z.ways))[i]? = some x) :
      s.candidates[i]? = some x ∨ (s.candidates.length ≤ i ∧ x.parentIdx = some fs ∧
        x.lineId ≠ y.lineId ∧ ∃ w < Z.ways, x.pos = slot Z w (z.array y.lineId)) := by
    by_cases hlt : i < s.candidates.length
    · left
      rwa [List.getElem?_append_left hlt] at hx
    · right
      rw [List.getElem?_append_right (by omega)] at hx
      obtain ⟨w, hw, hne, rfl⟩ := mem_kids.mp (List.mem_of_getElem? hx)
      exact ⟨by omega, rfl, hne, w, List.mem_range.mp hw, rfl⟩
  have hold {i : Nat} {x : ZWalkInfo} (hx : s.candidates[i]? = some x) :
      (s.candidates ++ kids Z z fs y (List.range Z.ways))[i]? = some x := by
    rw [List.getElem?_append_left (List.getElem?_eq_some_iff.mp hx).1]
    exact hx
  refine ⟨?_, ?_, ?_, ?_, ?_, ?_, ?_⟩
  · have := hi.length
    simp only [List.length_append]
    omega
  · intro x hx
    rcases List.mem_append.mp hx with hx | hx
    · exact hi.info x hx
    · obtain ⟨w, hw, _, rfl⟩ := mem_kids.mp hx
      exact ⟨slot_lt (List.mem_range.mp hw) _, rfl⟩
  · intro i x hx hn
    rcases hget i x hx with hx | ⟨_, hp, _⟩
    · exact hi.seed i x hx hn
    · simp [hn] at hp
  · intro i x f hx hf
    rcases hget i x hx with hx | ⟨hle, hp, hne, w, hw, hpw⟩
    · obtain ⟨h1, h2, y', hy', hne, hw⟩ := hi.child i x f hx hf
      exact ⟨by omega, h2, y', hold hy', hne, hw⟩
    · obtain rfl : fs = f := by simpa [hp] using hf
      have := hi.length
      exact ⟨by omega, by omega, y, hold hy, hne, w, hw, hpw⟩
  · intro i j x x' f g hx hx' hf hg hfg
    rcases hget i x hx with hx | ⟨_, hp, _⟩
    · rcases hget j x' hx' with hx' | ⟨hle', _, _⟩
      · exact hi.ordered i j x x' f g hx hx' hf hg hfg
      · have := (List.getElem?_eq_some_iff.mp hx).1
        omega
    · obtain rfl : fs = f := by simpa [hp] using hf
      rcases hget j x' hx' with hx' | ⟨_, hp', _⟩
      · have := (hi.child j x' g hx' hg).1
        omega
      · obtain rfl : fs = g := by simpa [hp'] using hg
        omega
  · intro f y' hf hy' w hw hne
    by_cases hfs : f = fs
    · subst f
      obtain rfl : y = y' := Option.some.inj ((hold hy).symm.trans hy')
      have hm : (⟨slot Z w (z.array y.lineId), z.lookupArray (slot Z w (z.array y.lineId)),
          some fs⟩ : ZWalkInfo) ∈ kids Z z fs y (List.range Z.ways) :=
        mem_kids.mpr ⟨w, List.mem_range.mpr hw, hne, rfl⟩
      obtain ⟨i, hlt, hx⟩ := List.mem_iff_getElem.mp (List.mem_append_right s.candidates hm)
      exact ⟨i, _, List.getElem?_eq_some_iff.mpr ⟨hlt, hx⟩, rfl, rfl⟩
    · have hlt : f < s.candidates.length := by
        have := hi.length
        omega
      have hy₀ : s.candidates[f]? = some y' := by
        rwa [List.getElem?_append_left hlt] at hy'
      obtain ⟨i, x, hx, hp, hpw⟩ := hi.complete f y' (by omega) hy₀ w hw hne
      exact ⟨i, x, hold hx, hp, hpw⟩
  · intro hv x hx
    simp only [Bool.and_eq_true, List.all_eq_true, List.mem_range] at hv
    rcases List.mem_append.mp hx with hx | hx
    · exact hi.valid hv.1 x hx
    · obtain ⟨w, hw, _, rfl⟩ := mem_kids.mp hx
      simpa using hv.2 w (List.mem_range.mp hw)

theorem walk_spec (h : Consistent Z z) {a : Address} (k : Nat) {fs : Nat} {s : Walk}
    (hi : WalkInv Z z a fs s) (hk : Z.cands + 2 ≤ s.candidates.length + k) (hpos : 0 < k) :
    ∃ s' fs', walk Z z k fs s = some s' ∧ WalkInv Z z a fs' s' ∧
      (s'.allValid = true → Z.cands ≤ s'.candidates.length) := by
  induction k generalizing fs s with
  | zero => omega
  | succ k ih =>
    by_cases hc : s.candidates.length < Z.cands ∧ s.allValid = true
    · have hfs : fs < s.candidates.length := by
        have := hi.length
        have := Z.one_lt_ways
        omega
      have hy : s.candidates[fs]? = some s.candidates[fs] := List.getElem?_eq_getElem hfs
      have hm := List.mem_of_getElem? hy
      have hv := hi.valid hc.2 _ hm
      have hlen := kids_length_pos (f := fs) h (hi.info _ hm).1 (hi.info _ hm).2
      have hroom : s.candidates.length + (List.range Z.ways).length ≤ Z.cands + Z.ways := by
        rw [List.length_range]
        omega
      obtain ⟨s', fs', hs', hi', hav⟩ := ih (hi.expand h hy)
        (by simp only [List.length_append]; omega) (by omega)
      refine ⟨s', fs', ?_, hi', hav⟩
      simp only [walk, hc, and_self, if_true, hy, hv, if_false, expandFringe_eq hroom,
        Option.bind_some]
      rw [hc.2] at hs'
      exact hs'
    · refine ⟨s, fs, by simp only [walk, hc, if_false], hi, fun hv => ?_⟩
      by_contra hlt
      exact hc ⟨by omega, hv⟩

/-- A path of positions along which lines can move: each takes the line of the next,
and the last takes address `a`. -/
def Relocation (Z : ZConfig) (z : ZArray) (a : Address) : List Nat → Prop
  | [] => False
  | [p] => ∃ w < Z.ways, p = slot Z w a
  | p :: q :: ps => (∃ w < Z.ways, p = slot Z w (z.array (z.lookupArray q))) ∧
      Relocation Z z a (q :: ps)

/-- The line of candidate `j` has no earlier candidate. -/
def Minimal (cs : List ZWalkInfo) (j : Nat) : Prop :=
  ∀ i < j, ∀ x y, cs[i]? = some x → cs[j]? = some y → x.lineId ≠ y.lineId

/-- The parent of a minimal candidate is minimal: an earlier candidate for the parent's
line would have had an earlier child there. -/
theorem WalkInv.minimal_parent {a : Address} {fs j f : Nat} {s : Walk} {x : ZWalkInfo}
    (hi : WalkInv Z z a fs s) (hx : s.candidates[j]? = some x) (hf : x.parentIdx = some f)
    (hm : Minimal s.candidates j) : Minimal s.candidates f := by
  obtain ⟨hfs, _, y, hy, hne, w, hw, hpos⟩ := hi.child j x f hx hf
  intro g hg v y' hv hy' heq
  obtain rfl : y = y' := Option.some.inj (hy.symm.trans hy')
  have hxl := (hi.info x (List.mem_of_getElem? hx)).2
  have hlook : z.lookupArray (slot Z w (z.array v.lineId)) = x.lineId := by
    rw [heq, ← hpos, ← hxl]
  obtain ⟨i, u, hu, hp, hupos⟩ := hi.complete g v (by omega) hv w hw (by
    rw [hlook, heq]
    exact hne)
  have hij : i < j := hi.ordered i j u x g f hu hx hp hf hg
  apply hm i hij u x hu hx
  rw [(hi.info u (List.mem_of_getElem? hu)).2, hupos, hlook]

/-- The swap path of a minimal candidate fits into the swap array. -/
theorem swapPath_spec {a : Address} {fs : Nat} {s : Walk} (hi : WalkInv Z z a fs s) (room : Nat)
    {j : Nat} {x : ZWalkInfo} (hx : s.candidates[j]? = some x) (hm : Minimal s.candidates j)
    (hroom : j / Z.ways < room) :
    ∃ ps, swapPath s.candidates room j = some (x.pos :: ps) ∧ (x.pos :: ps).Nodup ∧
      (x.pos :: ps).length ≤ j / Z.ways + 1 ∧ Relocation Z z a (x.pos :: ps) ∧
      ∀ p ∈ x.pos :: ps, ∃ i ≤ j, ∃ y, s.candidates[i]? = some y ∧ y.pos = p := by
  induction room generalizing j x with
  | zero => exact absurd hroom (Nat.not_lt_zero _)
  | succ room ih =>
    cases hp : x.parentIdx with
    | none =>
      refine ⟨[], by simp only [swapPath, hx, hp], by simp, by simp, (hi.seed j x hx hp).2, ?_⟩
      intro p hpm
      obtain rfl := List.mem_singleton.mp hpm
      exact ⟨j, le_refl j, x, hx, rfl⟩
    | some f =>
      obtain ⟨_, hfj, y, hy, hne, w, hw, hpos⟩ := hi.child j x f hx hp
      have hways : 0 < Z.ways := by
        have := Z.one_lt_ways
        omega
      have hdiv : f / Z.ways + 1 ≤ j / Z.ways := by
        rw [← Nat.add_div_right f hways, Nat.add_comm]
        exact Nat.div_le_div_right hfj
      obtain ⟨ps, hps, hnd, hlen, hrel, hmem⟩ := ih hy (hi.minimal_parent hx hp hm) (by omega)
      have hyl := (hi.info y (List.mem_of_getElem? hy)).2
      refine ⟨y.pos :: ps, by simp only [swapPath, hx, hp, hps, Option.map_some], ?_, ?_, ?_, ?_⟩
      · refine List.nodup_cons.mpr ⟨fun hin => ?_, hnd⟩
        -- the same position earlier in the walk would hold the same line
        obtain ⟨i, hif, v, hv, hvp⟩ := hmem _ hin
        apply hm i (by omega) v x hv hx
        rw [(hi.info v (List.mem_of_getElem? hv)).2, (hi.info x (List.mem_of_getElem? hx)).2, hvp]
      · rw [List.length_cons]
        omega
      · exact ⟨⟨w, hw, hyl ▸ hpos⟩, hrel⟩
      · intro p hpm
        rcases List.mem_cons.mp hpm with rfl | hpm
        · exact ⟨j, le_refl j, x, hx, rfl⟩
        · obtain ⟨i, hif, v, hv, hvp⟩ := hmem p hpm
          exact ⟨i, by omega, v, hv, hvp⟩

/-- What `preinsert` leaves for `postinsert`. -/
structure Prepared (Z : ZConfig) (z : ZArray) (a : Address) (candidate : Nat) : Prop where
  nodup : z.swapArray.Nodup
  length : z.swapArray.length ≤ Z.cands / Z.ways + 2
  lt : ∀ p ∈ z.swapArray, p < numLines Z
  head : ∃ p ps, z.swapArray = p :: ps ∧ z.lookupArray p = candidate
  relocation : Relocation Z z a z.swapArray

/-- A replacement policy picks one of the candidates it is offered. -/
def PicksOffered (rankCands : List Nat → Nat) : Prop := ∀ l, l ≠ [] → rankCands l ∈ l

theorem Relocation.congr (z' : ZArray) {a : Address} (harr : z'.array = z.array) {ps : List Nat}
    (hlook : ∀ p ∈ ps, z'.lookupArray p = z.lookupArray p) (h : Relocation Z z a ps) :
    Relocation Z z' a ps := by
  induction ps with
  | nil => exact h
  | cons p ps ih =>
    cases ps with
    | nil => exact h
    | cons q ps =>
      refine ⟨?_, ih (fun x hx => hlook x (List.mem_cons_of_mem p hx)) h.2⟩
      rw [harr, hlook q (by simp)]
      exact h.1

theorem preinsert_spec (h : Consistent Z z) (a : Address) {rankCands : List Nat → Nat}
    (hr : PicksOffered rankCands) :
    ∃ z' best, preinsert Z z a rankCands = some (z', best, z.array best) ∧
      z'.array = z.array ∧ z'.lookupArray = z.lookupArray ∧ best < numLines Z ∧
      Prepared Z z' a best := by
  have hlen : (seeds Z z a).candidates.length = Z.ways := by simp [seeds]
  have h1 := Z.one_lt_ways
  obtain ⟨s, fs, hs, hi, hav⟩ := walk_spec h (Z.cands + 1) (walkInv_seeds z a) (by omega) (by omega)
  let offered := (s.candidates.take Z.cands).map (·.lineId)
  have hne : offered ≠ [] := by
    intro hnil
    have hl := congrArg List.length hnil
    have := hi.length
    have := Z.ways_le_cands
    simp only [offered, List.length_map, List.length_take, List.length_nil] at hl
    omega
  have hbest := hr offered hne
  obtain ⟨v, hv, hvl⟩ := List.mem_map.mp hbest
  have hvi := hi.info v (List.mem_of_mem_take hv)
  have hlt : rankCands offered < numLines Z := by
    rw [← hvl, hvi.2]
    exact h.lt _ hvi.1
  cases hfind : offered.findIdx? (· == rankCands offered) with
  | none =>
    have hh := List.findIdx?_eq_none_iff.mp hfind _ hbest
    simp at hh
  | some j =>
    obtain ⟨hj, hjeq, hjmin⟩ := List.findIdx?_eq_some_iff_getElem.mp hfind
    have hjt : j < (s.candidates.take Z.cands).length := by simpa [offered] using hj
    have hjc : j < s.candidates.length := by
      rw [List.length_take] at hjt
      omega
    have hjcands : j < Z.cands := by
      rw [List.length_take] at hjt
      omega
    have hx : s.candidates[j]? = some s.candidates[j] := List.getElem?_eq_getElem hjc
    have hxl : s.candidates[j].lineId = rankCands offered := by
      simpa [offered] using hjeq
    have hm : Minimal s.candidates j := by
      intro i hij x y hx' hy' heq
      obtain ⟨hic, rfl⟩ := List.getElem?_eq_some_iff.mp hx'
      obtain ⟨_, rfl⟩ := List.getElem?_eq_some_iff.mp hy'
      have hne' := hjmin i hij
      simp only [offered, List.getElem_map, List.getElem_take, beq_iff_eq] at hne'
      exact hne' (heq.trans hxl)
    have hdiv : j / Z.ways ≤ Z.cands / Z.ways := Nat.div_le_div_right (by omega)
    obtain ⟨ps, hps, hnd, hpl, hrel, hmem⟩ := swapPath_spec hi (Z.cands / Z.ways + 2) hx hm (by omega)
    let z' : ZArray := { z with swapArray := s.candidates[j].pos :: ps, lastCandIdx := j }
    refine ⟨z', rankCands offered, ?_, rfl, rfl, hlt, hnd, ?_, ?_, ⟨_, ps, rfl, ?_⟩,
      Relocation.congr (z := z) z' rfl (fun _ _ => rfl) hrel⟩
    · have hassert : ¬(s.allValid = true ∧ s.candidates.length < Z.cands) := by
        rintro ⟨hv, hl⟩
        have := hav hv
        omega
      have hlt' : rankCands ((s.candidates.take Z.cands).map (·.lineId)) < numLines Z := hlt
      have hfind' : ((s.candidates.take Z.cands).map (·.lineId)).findIdx?
          (· == rankCands ((s.candidates.take Z.cands).map (·.lineId))) = some j := hfind
      simp only [preinsert, hs, hassert, if_false, hlt', if_true, hfind', hps, Option.map_some]
      rfl
    · show (s.candidates[j].pos :: ps).length ≤ _
      omega
    · intro p hp
      obtain ⟨i, _, y, hy, rfl⟩ := hmem p hp
      exact (hi.info y (List.mem_of_getElem? hy)).1
    · show z.lookupArray s.candidates[j].pos = _
      rw [← (hi.info _ (List.mem_of_getElem? hx)).2, hxl]

end ZArray

end ZSim
