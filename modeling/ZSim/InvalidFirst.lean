import ZSim.PolicyCache

/-! Which policies fill invalid lines before they evict valid ones. LRU and LFU look at coherence
states. SRRIP and CARE do not, but lines that were never used come first for them. -/

namespace ZSim

namespace PolicyCache

variable {G : SetConfig} {hash : Address → Nat} {n : Nat} {lineAddr : Address}

theorem Coherent.invalid_of_unused {P : Type} {s : PolicyCache P} (h : Coherent s) {id : Nat}
    (hid : s.used id = false) : s.state id = .I := by
  by_contra hne
  rw [h.used id hne] at hid
  cases hid

section LRU

variable {sharersAware : Bool} {s : PolicyCache LRUReplPolicy}

/-- The scores of the candidates fit in 32 bits. -/
def ScoresFit (sharersAware : Bool) (G : SetConfig) (hash : Address → Nat)
    (s : PolicyCache LRUReplPolicy) (lineAddr : Address) : Prop :=
  ∀ c ∈ candidates G hash lineAddr,
    LRUReplPolicy.sharers sharersAware s.lineStates c * s.rp.timestamp + s.rp.array c < 2 ^ 32

structure LruOk (n : Nat) (s : PolicyCache LRUReplPolicy) : Prop where
  timestamp : s.rp.timestamp ≤ n + 1
  pos : 0 < s.rp.timestamp
  updated : ∀ id, s.used id = true → 0 < s.rp.array id

theorem LruOk.fill {rp : LRUReplPolicy} {id sharers : Nat}
    {st : MESIState} (h : LruOk n s) (hn : n + 2 < 2 ^ 64) (htime : rp.timestamp = s.rp.timestamp)
    (hother : ∀ x, x ≠ id → rp.array x = s.rp.array x) :
    LruOk (n + 1) (fill (.lru sharersAware) s rp id st sharers) := by
  have htimestamp := h.timestamp
  have hpos := h.pos
  have hupdate := @LRUReplPolicy.update_timestamp rp (by omega) id
  refine ⟨?_, ?_, fun x hx => ?_⟩
  · show (rp.update id).timestamp ≤ _
    omega
  · show 0 < (rp.update id).timestamp
    omega
  · show 0 < (rp.update id).array x
    rw [LRUReplPolicy.update_array]
    by_cases he : x = id
    · rw [if_pos he, htime]
      exact hpos
    · rw [if_neg he, hother x he]
      apply h.updated
      simpa [PolicyCache.fill, he] using hx

theorem Reachable.lruOk (h : Reachable (.lru sharersAware) G hash n s) (hn : n + 1 < 2 ^ 64) : LruOk n s := by
  induction h with
  | init => exact ⟨Nat.le_refl _, Nat.one_pos, fun _ hid => by simp [PolicyCache.init] at hid⟩
  | @step n s s' _ hs ih =>
    have hok := ih (by omega)
    cases hs with
    | hit _ _ => exact hok.fill hn rfl fun _ _ => rfl
    | @miss lineAddr id _ _ rp _ hrank _ =>
      obtain ⟨rfl, -⟩ := Prod.mk.inj (Option.some.inj hrank)
      have harray : LruOk n { s with array := Function.update s.array id lineAddr } :=
        ⟨hok.timestamp, hok.pos, hok.updated⟩
      refine harray.fill hn rfl fun x hx => ?_
      exact (LRUReplPolicy.replaced_array s.rp id x).trans (if_neg hx)
    | change _ _ => exact ⟨hok.timestamp.trans (by omega), hok.pos, hok.updated⟩
    | invalidate => exact ⟨hok.timestamp.trans (by omega), hok.pos, hok.updated⟩
    | train htrain => exact htrain.elim

theorem lru_prefers_invalid (h : Reachable (.lru sharersAware) G hash n s) (hn : n + 1 < 2 ^ 64)
    (hfit : ScoresFit sharersAware G hash s lineAddr) :
    InvalidFirst (.lru sharersAware) G hash s lineAddr := by
  rintro ⟨c, hc, hinvalid⟩
  have hok := h.lruOk hn
  have hargmin := @LRUReplPolicy.rankCands_argmin sharersAware s.lineStates _ s.rp
    (@candidates_ne_nil G hash lineAddr)
  obtain ⟨hvmem, hvle, -⟩ := List.mem_argmin_iff.mp hargmin
  refine ⟨_, _, rfl, hvmem, ?_⟩
  obtain ⟨v, hv⟩ : ∃ v, s.rp.rankCands sharersAware s.lineStates (candidates G hash lineAddr) = v :=
    ⟨_, rfl⟩
  rw [hv] at hvmem hvle
  show s.state (s.rp.rankCands sharersAware s.lineStates (candidates G hash lineAddr)) = .I
  rw [hv]
  by_contra hvalid
  have hle := hvle c hc
  have hzero : s.rp.packedScore sharersAware s.lineStates c = 0 := by
    have hsharers := h.coherent.sharers c hinvalid
    simp [LRUReplPolicy.packedScore, LRUReplPolicy.sharers, lineStates, hinvalid, hsharers]
  have hvused := hok.updated v (h.coherent.used v hvalid)
  have hvfit := hfit v hvmem
  have hscore : s.rp.packedScore sharersAware s.lineStates v =
      LRUReplPolicy.sharers sharersAware s.lineStates v * s.rp.timestamp + s.rp.array v := by
    have hone : (s.lineStates.isValid v).toNat = 1 := by simp [lineStates, hvalid]
    rw [LRUReplPolicy.packedScore, hone, Nat.mul_one]
    exact Nat.mod_eq_of_lt (by omega)
  rw [hzero, hscore, Nat.mod_eq_of_lt hvfit] at hle
  omega

end LRU

section LFU

variable {s : PolicyCache LFUReplPolicy} {cc : LFUController} {rp : LFUReplPolicy} {cands : List Nat}

/-- An invalid line is kept as the best, and takes the place of a valid one. -/
theorem lfu_rank_from {b : Nat} (hbest : rp.bestCandidate = some b)
    (hrank : rp.bestRank = rp.candRank cc b) :
    ∃ v, (rp.rank cc cands).bestCandidate = some v ∧ (v = b ∨ v ∈ cands) ∧
      ((cc.isValid b = false ∨ ∃ c ∈ cands, cc.isValid c = false) → cc.isValid v = false) := by
  induction cands generalizing rp b with
  | nil => exact ⟨b, hbest, .inl rfl, fun h => h.elim id fun h => by simp at h⟩
  | cons c cands ih =>
    rw [LFUReplPolicy.rank, List.foldl_cons]
    by_cases hlt : (rp.candRank cc c).lessThan rp.bestRank rp.timestamp = true
    · have hstep : LFUReplPolicy.recordCandidate cc rp c =
          { rp with bestRank := rp.candRank cc c, bestCandidate := some c } := by
        rw [LFUReplPolicy.recordCandidate, if_pos (by simp [hlt])]
      obtain ⟨v, hv, hmem, hinvalid⟩ :=
        @ih { rp with bestRank := rp.candRank cc c, bestCandidate := some c } c rfl rfl
      rw [hstep]
      refine ⟨v, hv, .inr ?_, fun h => ?_⟩
      · rcases hmem with rfl | hmem
        · exact List.mem_cons_self
        · exact List.mem_cons_of_mem _ hmem
      · -- a valid line takes no place of an invalid one
        have hcb : cc.isValid b = false → cc.isValid c = false := by
          intro hb
          by_contra hc
          simp [hrank, LFURank.lessThan, LFUReplPolicy.candRank, hb, hc] at hlt
        apply hinvalid
        rcases h with h | ⟨x, hx, hxi⟩
        · exact .inl (hcb h)
        · rcases List.mem_cons.mp hx with rfl | hx
          · exact .inl hxi
          · exact .inr ⟨x, hx, hxi⟩
    · have hstep : LFUReplPolicy.recordCandidate cc rp c = rp := by
        rw [LFUReplPolicy.recordCandidate, if_neg (by simp [hbest, hlt])]
      obtain ⟨v, hv, hmem, hinvalid⟩ := ih hbest hrank
      rw [hstep]
      refine ⟨v, hv, hmem.imp_right (List.mem_cons_of_mem _), fun h => hinvalid ?_⟩
      rcases h with h | ⟨x, hx, hxi⟩
      · exact .inl h
      · rcases List.mem_cons.mp hx with rfl | hx
        · left
          by_contra hb
          simp [hrank, LFURank.lessThan, LFUReplPolicy.candRank, hb, hxi] at hlt
        · exact .inr ⟨x, hx, hxi⟩

theorem Reachable.lfu_idle (h : Reachable .lfu G hash n s) : s.rp.bestCandidate = none := by
  induction h with
  | init => rfl
  | @step n s s' _ hs ih =>
    cases hs with
    | @hit _ id _ _ _ _ =>
      exact (LFUReplPolicy.update_bestCandidate s.rp id).trans ih
    | @miss _ id _ _ rp _ _ _ =>
      exact LFUReplPolicy.update_bestCandidate (rp.replaced id) id
    | change _ _ => exact ih
    | invalidate => exact ih
    | train htrain => exact htrain.elim

theorem lfu_prefers_invalid (h : Reachable .lfu G hash n s) :
    InvalidFirst .lfu G hash s lineAddr := by
  rintro ⟨c, hc, hinvalid⟩
  have hidle := h.lfu_idle
  cases hcands : candidates G hash lineAddr with
  | nil => exact absurd hcands candidates_ne_nil
  | cons b cands =>
    let cc : LFUController := ⟨s.numSharers, fun id => s.state id != .I⟩
    have hstep : LFUReplPolicy.recordCandidate cc s.rp b =
        { s.rp with bestRank := s.rp.candRank cc b, bestCandidate := some b } := by
      rw [LFUReplPolicy.recordCandidate, hidle]
      rfl
    obtain ⟨v, hv, hmem, himp⟩ := @lfu_rank_from cc
      { s.rp with bestRank := s.rp.candRank cc b, bestCandidate := some b } cands b
      rfl rfl
    have hrank : (s.rp.rank cc (b :: cands)).bestCandidate = some v := by
      rw [LFUReplPolicy.rank, List.foldl_cons, hstep]
      exact hv
    refine ⟨s.rp.rank cc (b :: cands), v, ?_, List.mem_cons.mpr hmem, ?_⟩
    · show (s.rp.rank cc (b :: cands)).bestCandidate.map _ = _
      rw [hrank]
      rfl
    · rw [hcands] at hc
      have hvi : cc.isValid v = false := himp (by
        rcases List.mem_cons.mp hc with rfl | hc
        · exact .inl (by simp [cc, hinvalid])
        · exact .inr ⟨c, hc, by simp [cc, hinvalid]⟩)
      simpa [cc] using hvi

end LFU

theorem eq_false_of_ite {p : Prop} [Decidable p] {b : Bool}
    (h : (if p then true else b) = false) : b = false := by
  by_cases hp : p
  · simp [hp] at h
  · simpa [hp] using h

section SRRIP

variable {s : PolicyCache SRRIPReplPolicy}

/-- Before the first replacement in a set: its used lines were hit, which address 0 can be. -/
def Unranked (G : SetConfig) (hash : Address → Nat) (s : PolicyCache SRRIPReplPolicy)
    (lineAddr : Address) : Prop :=
  ∀ c ∈ candidates G hash lineAddr, s.rp.rrpv c = (if s.used c then 0 else 2) ∧
    s.rp.wasInserted c = false

/-- From then on: only unused lines are at the maximum. -/
def Ranked (G : SetConfig) (hash : Address → Nat) (s : PolicyCache SRRIPReplPolicy)
    (lineAddr : Address) : Prop :=
  ∀ c ∈ candidates G hash lineAddr, if s.used c then s.rp.rrpv c < 3 else s.rp.rrpv c = 3

def HasUnused (G : SetConfig) (hash : Address → Nat) (s : PolicyCache SRRIPReplPolicy)
    (lineAddr : Address) : Prop :=
  ∃ c ∈ candidates G hash lineAddr, s.used c = false

structure SrripOk (G : SetConfig) (hash : Address → Nat) (s : PolicyCache SRRIPReplPolicy) :
    Prop where
  bounded : ∀ id, s.rp.rrpv id ≤ 3
  inserted : ∀ id, s.rp.wasInserted id = true → s.used id = true
  sets : ∀ lineAddr, HasUnused G hash s lineAddr →
    Unranked G hash s lineAddr ∨ Ranked G hash s lineAddr

theorem candidates_eq_of_mem {a b : Address} {id : Nat} (ha : id ∈ candidates G hash a)
    (hb : id ∈ candidates G hash b) : candidates G hash a = candidates G hash b :=
  SetAssocArray.set_congr (SetAssocArray.index_eq_of_mem ha hb)

theorem count_candidates {id : Nat} (h : id ∈ candidates G hash lineAddr) :
    (candidates G hash lineAddr).count id = 1 :=
  List.count_eq_one_of_mem (candidates_nodup lineAddr) h

/-- What a replacement does to the other lines, and which line it chooses while there are unused
ones. -/
theorem SrripOk.rank (h : SrripOk G hash s) (lineAddr : Address) :
    ∃ rp v, s.rp.rank SRRIPReplPolicy.twoBits (candidates G hash lineAddr) = some (rp, v) ∧
      v ∈ candidates G hash lineAddr ∧ (∀ id, rp.rrpv id ≤ 3) ∧
      rp.wasInserted = s.rp.wasInserted ∧
      (∀ c, c ∉ candidates G hash lineAddr → rp.rrpv c = s.rp.rrpv c) ∧
      (HasUnused G hash s lineAddr → s.used v = false ∧
        ∀ c ∈ candidates G hash lineAddr, if s.used c then rp.rrpv c < 3 else rp.rrpv c = 3) := by
  obtain ⟨p, v, hrank, hbefore, hfirst⟩ := @SRRIPReplPolicy.rank_spec SRRIPReplPolicy.twoBits
    (candidates G hash lineAddr) s.rp h.bounded candidates_ne_nil
  have hv := List.mem_of_find?_eq_some hfirst
  have hmax : SRRIPReplPolicy.aged SRRIPReplPolicy.twoBits (candidates G hash lineAddr) s.rp.rrpv
      p v = 3 := by
    have hfound := List.find?_some hfirst
    exact of_decide_eq_true hfound
  have haged : ∀ q c, SRRIPReplPolicy.aged SRRIPReplPolicy.twoBits (candidates G hash lineAddr)
      s.rp.rrpv q c = min 3 (s.rp.rrpv c + q * (candidates G hash lineAddr).count c) :=
    fun _ _ => rfl
  refine ⟨_, v, hrank, hv, fun id => Nat.min_le_left _ _, rfl, fun c hc => ?_, fun hunused => ?_⟩
  · have hc3 := h.bounded c
    dsimp only
    rw [haged, List.count_eq_zero_of_not_mem hc]
    omega
  · obtain ⟨u, hu, huu⟩ := hunused
    rcases h.sets lineAddr ⟨u, hu, huu⟩ with hset | hset
    · -- one pass takes the unused lines to the maximum
      have hvset := (hset v hv).1
      have huset := (hset u hu).1
      rw [haged, count_candidates hv] at hmax
      have hp : p = 1 := by
        by_contra hne
        have hpos : p ≠ 0 := by
          rintro rfl
          split at hvset <;> omega
        have hq := hbefore 1 (by omega) u hu
        rw [haged, count_candidates hu, huset, huu] at hq
        exact hq rfl
      subst hp
      refine ⟨?_, fun c hc => ?_⟩
      · by_contra hused
        rw [if_pos (by simpa using hused)] at hvset
        omega
      · have hcset := (hset c hc).1
        dsimp only
        rw [haged, count_candidates hc]
        by_cases hused : s.used c = true
        · rw [if_pos hused] at hcset ⊢
          omega
        · rw [if_neg hused] at hcset ⊢
          omega
    · -- an unused line is at the maximum
      have huset := hset u hu
      rw [huu, if_neg (by decide)] at huset
      have hp : p = 0 := by
        by_contra hne
        have hq := hbefore 0 (by omega) u hu
        rw [haged, huset, Nat.zero_mul] at hq
        exact hq rfl
      subst hp
      have hvset := hset v hv
      rw [haged, Nat.zero_mul, Nat.add_zero] at hmax
      refine ⟨?_, fun c hc => ?_⟩
      · by_contra hused
        rw [if_pos (by simpa using hused)] at hvset
        omega
      · have hcset := hset c hc
        have hc3 := h.bounded c
        dsimp only
        rw [haged, Nat.zero_mul, Nat.add_zero, Nat.min_eq_right hc3]
        exact hcset

theorem SrripOk.hit (h : SrripOk G hash s) (id sharers : Nat) (st : MESIState) :
    SrripOk G hash (fill .srrip s s.rp id st sharers) := by
  have hrrpv : ∀ x, (fill .srrip s s.rp id st sharers).rp.rrpv x =
      if x = id ∧ s.rp.wasInserted id = false then 0 else s.rp.rrpv x := fun x =>
    SRRIPReplPolicy.update_rrpv s.rp id x
  have hins : ∀ x, (fill .srrip s s.rp id st sharers).rp.wasInserted x =
      if x = id then false else s.rp.wasInserted x := fun x =>
    SRRIPReplPolicy.update_wasInserted s.rp id x
  have hused : ∀ x, (fill .srrip s s.rp id st sharers).used x =
      if x = id then true else s.used x := fun x => Function.update_apply ..
  refine ⟨fun x => ?_, fun x hx => ?_, fun a hunused => ?_⟩
  · have hx := h.bounded x
    rw [hrrpv]
    split <;> omega
  · rw [hins] at hx
    rw [hused]
    by_cases he : x = id
    · simp [he]
    · rw [if_neg he] at hx ⊢
      exact h.inserted x hx
  · obtain ⟨u, hu, huu⟩ := hunused
    have hu' : s.used u = false := by
      rw [hused] at huu
      exact eq_false_of_ite huu
    rcases h.sets a ⟨u, hu, hu'⟩ with hset | hset
    · left
      intro c hc
      obtain ⟨hc₁, hc₂⟩ := hset c hc
      rw [hrrpv, hins, hused]
      by_cases he : c = id
      · subst he
        simp [hc₂]
      · simp [he, hc₁, hc₂]
    · right
      intro c hc
      have hc₁ := hset c hc
      rw [hrrpv, hused]
      by_cases he : c = id
      · subst he
        by_cases hw : s.rp.wasInserted c = true
        · rw [h.inserted c hw] at hc₁
          simpa [hw] using hc₁
        · simp [hw]
      · simpa [he] using hc₁

theorem SrripOk.miss (h : SrripOk G hash s) {rp : SRRIPReplPolicy} {id sharers : Nat}
    {st : MESIState} (hrank : s.rp.rank SRRIPReplPolicy.twoBits (candidates G hash lineAddr) =
      some (rp, id)) :
    SrripOk G hash (fill .srrip { s with array := Function.update s.array id lineAddr }
      (rp.replaced SRRIPReplPolicy.twoBits id) id st sharers) := by
  obtain ⟨rp', id', hrank', hid, hbounded, hwas, hframe, hchoice⟩ := h.rank lineAddr
  obtain ⟨rfl, rfl⟩ := Prod.mk.inj (Option.some.inj (hrank'.symm.trans hrank))
  obtain ⟨s', hs'⟩ : ∃ s', s' = fill .srrip { s with array := Function.update s.array id' lineAddr }
    (rp'.replaced SRRIPReplPolicy.twoBits id') id' st sharers := ⟨_, rfl⟩
  rw [← hs']
  have hrrpv : ∀ x, s'.rp.rrpv x = if x = id' then 2 else rp'.rrpv x := by
    intro x
    rw [hs']
    exact SRRIPReplPolicy.replaced_update_rrpv rp' id' x
  have hins : ∀ x, s'.rp.wasInserted x = if x = id' then false else s.rp.wasInserted x := by
    intro x
    rw [hs', ← hwas]
    exact SRRIPReplPolicy.replaced_update_wasInserted rp' id' x
  have hused : ∀ x, s'.used x = if x = id' then true else s.used x := by
    intro x
    rw [hs']
    exact Function.update_apply ..
  refine ⟨fun x => ?_, fun x hx => ?_, fun a hunused => ?_⟩
  · have hx := hbounded x
    rw [hrrpv]
    split <;> omega
  · rw [hins] at hx
    rw [hused]
    by_cases he : x = id'
    · simp [he]
    · rw [if_neg he] at hx ⊢
      exact h.inserted x hx
  · obtain ⟨u, hu, huu⟩ := hunused
    have hu' : s.used u = false := by
      rw [hused] at huu
      exact eq_false_of_ite huu
    by_cases hsame : id' ∈ candidates G hash a
    · -- the set of the replacement
      have heq := candidates_eq_of_mem hsame hid
      obtain ⟨-, hall⟩ := hchoice ⟨u, heq ▸ hu, hu'⟩
      right
      intro c hc
      have hc₁ := hall c (heq ▸ hc)
      rw [hrrpv, hused]
      by_cases he : c = id'
      · simp [he]
      · simpa [he] using hc₁
    · -- another set, where nothing changes
      have hother : ∀ c ∈ candidates G hash a, c ≠ id' ∧ rp'.rrpv c = s.rp.rrpv c := by
        intro c hc
        refine ⟨fun he => hsame (he ▸ hc), hframe c fun hc' => hsame ?_⟩
        rw [candidates_eq_of_mem hc hc']
        exact hid
      refine (h.sets a ⟨u, hu, hu'⟩).imp (fun hset c hc => ?_) fun hset c hc => ?_
      · obtain ⟨hne, hc₁⟩ := hother c hc
        rw [hrrpv, hins, hused, if_neg hne, if_neg hne, if_neg hne, hc₁]
        exact hset c hc
      · obtain ⟨hne, hc₁⟩ := hother c hc
        rw [hrrpv, hused, if_neg hne, if_neg hne, hc₁]
        exact hset c hc

theorem Reachable.srripOk (h : Reachable .srrip G hash n s) : SrripOk G hash s := by
  induction h with
  | init =>
    refine ⟨fun _ => Nat.sub_le 3 1, fun _ hid => ?_, fun _ _ => .inl fun c _ => ⟨rfl, rfl⟩⟩
    simp [PolicyCache.init, ReplPolicy.srrip, SRRIPReplPolicy.init] at hid
  | step _ hs ih =>
    cases hs with
    | hit _ _ => exact ih.hit _ _ _
    | miss _ hrank _ => exact ih.miss hrank
    | change _ _ => exact ⟨ih.bounded, ih.inserted, ih.sets⟩
    | invalidate => exact ⟨ih.bounded, ih.inserted, ih.sets⟩
    | train htrain => exact htrain.elim

theorem srrip_prefers_unused (h : Reachable .srrip G hash n s) :
    Prefers .srrip G hash s (fun c => s.used c = false) lineAddr := by
  intro hunused
  obtain ⟨rp, v, hrank, hv, -, -, -, hchoice⟩ := h.srripOk.rank lineAddr
  exact ⟨rp, v, hrank, hv, (hchoice hunused).1⟩

end SRRIP

section CARE

variable {numLines shtEntries : Nat} {s : PolicyCache CAREState}

/-- The reuse of a line is at least 1 once it was used. -/
structure CareOk (s : PolicyCache CAREState) : Prop where
  metadata : CAREReplPolicy.Metadata s.rp.rp
  bit : ∀ id, s.rp.rp.rBit id = true → 1 ≤ s.rp.rp.rc id
  used : ∀ id, s.used id = true → 1 ≤ s.rp.rp.rc id
  unused : ∀ id, s.used id = false → s.rp.rp.rc id = 0

theorem care_update (rp : CAREReplPolicy) (id x : Nat) :
    (rp.update id).rc x =
        (if x = id ∧ rp.rBit id = false then CAREReplPolicy.satInc (rp.rc id) else rp.rc x) ∧
      (rp.update id).rBit x = if x = id then true else rp.rBit x := by
  by_cases hbit : rp.rBit id = false
  · simp [CAREReplPolicy.update, hbit, Function.update_apply]
  · by_cases hx : x = id
    · simp [CAREReplPolicy.update, hbit, hx]
    · simp [CAREReplPolicy.update, hbit, hx]

theorem care_replaced_update (rp : CAREReplPolicy) (id x : Nat) :
    (x = id → 1 ≤ ((rp.replaced id).update id).rc x) ∧
      (x ≠ id → ((rp.replaced id).update id).rc x = rp.rc x) ∧
      ((rp.replaced id).update id).rBit x = if x = id then true else rp.rBit x := by
  obtain ⟨hrc, hbit⟩ := care_update (rp.replaced id) id x
  have hfresh : (rp.replaced id).rBit id = false := Function.update_self ..
  rw [hrc, hbit]
  refine ⟨fun hx => ?_, fun hx => ?_, ?_⟩
  · rw [if_pos ⟨hx, hfresh⟩]
    exact CAREReplPolicy.one_le_satInc _
  · simp [hx, CAREReplPolicy.replaced]
  · by_cases hx : x = id
    · simp [hx]
    · simp [hx, CAREReplPolicy.replaced]

/-- A slot that takes an access: its reuse is at least 1 afterwards. -/
theorem CareOk.fill (h : CareOk s) {rp : CAREState} {id sharers : Nat} {st : MESIState}
    (hmetadata : CAREReplPolicy.Metadata (rp.rp.update id))
    (hself : 1 ≤ (rp.rp.update id).rc id)
    (hother : ∀ x, x ≠ id → (rp.rp.update id).rc x = s.rp.rp.rc x)
    (hbit : ∀ x, (rp.rp.update id).rBit x = if x = id then true else s.rp.rp.rBit x) :
    CareOk (fill (.care numLines shtEntries) s rp id st sharers) := by
  have hused : ∀ x, (PolicyCache.fill (.care numLines shtEntries) s rp id st sharers).used x =
      if x = id then true else s.used x := fun x => Function.update_apply ..
  refine ⟨hmetadata, fun x hx => ?_, fun x hx => ?_, fun x hx => ?_⟩
  · have hx' : (if x = id then true else s.rp.rp.rBit x) = true := (hbit x).symm.trans hx
    show 1 ≤ (rp.rp.update id).rc x
    by_cases he : x = id
    · rw [he]
      exact hself
    · rw [if_neg he] at hx'
      rw [hother x he]
      exact h.bit x hx'
  · rw [hused] at hx
    show 1 ≤ (rp.rp.update id).rc x
    by_cases he : x = id
    · rw [he]
      exact hself
    · rw [if_neg he] at hx
      rw [hother x he]
      exact h.used x hx
  · rw [hused] at hx
    have he : x ≠ id := by
      rintro rfl
      simp at hx
    rw [if_neg he] at hx
    exact (hother x he).trans (h.unused x hx)

theorem Reachable.careOk (h : Reachable (.care numLines shtEntries) G hash n s) : CareOk s := by
  induction h with
  | init =>
    refine ⟨.init shtEntries, fun _ hid => ?_, fun _ hid => ?_, fun _ _ => rfl⟩
    · simp [PolicyCache.init, ReplPolicy.care, CAREState.init, CAREReplPolicy.init] at hid
    · simp [PolicyCache.init] at hid
  | @step n s s' _ hs ih =>
    cases hs with
    | @hit _ id _ _ _ _ =>
      have hupdate := care_update s.rp.rp id
      refine ih.fill (ih.metadata.update id) ?_ (fun x hx => ?_) fun x => (hupdate x).2
      · rw [(hupdate id).1]
        by_cases hbit : s.rp.rp.rBit id = false
        · rw [if_pos ⟨rfl, hbit⟩]
          exact CAREReplPolicy.one_le_satInc _
        · rw [if_neg fun hh => hbit hh.2]
          exact ih.bit id (by simpa using hbit)
      · rw [(hupdate x).1, if_neg fun hh => hx hh.1]
    | @miss lineAddr id _ _ rp _ hrank _ =>
      obtain ⟨rfl, rfl⟩ := Prod.mk.inj (Option.some.inj hrank)
      obtain ⟨v, hv⟩ : ∃ v, (s.rp.rp.rank lineAddr (candidates G hash lineAddr)).2 = v := ⟨_, rfl⟩
      have hpolicy := s.rp.rp.rank_policy lineAddr (candidates G hash lineAddr)
      have hmetadata : CAREReplPolicy.Metadata
          (s.rp.rp.rank lineAddr (candidates G hash lineAddr)).1 := by
        rw [hpolicy]
        exact ⟨ih.metadata.rc, ih.metadata.pd, ih.metadata.sht, ih.metadata.epv⟩
      have hupdate := care_replaced_update (s.rp.rp.rank lineAddr (candidates G hash lineAddr)).1 v
      have harray : CareOk { s with array := Function.update s.array v lineAddr } :=
        ⟨ih.metadata, ih.bit, ih.used, ih.unused⟩
      simp only [hv]
      refine harray.fill ((hmetadata.replaced v).update v) ((hupdate v).1 rfl) (fun x hx => ?_)
        fun x => ?_
      · refine ((hupdate x).2.1 hx).trans ?_
        rw [hpolicy]
      · refine (hupdate x).2.2.trans ?_
        rw [hpolicy]
    | change _ _ => exact ⟨ih.metadata, ih.bit, ih.used, ih.unused⟩
    | invalidate => exact ⟨ih.metadata, ih.bit, ih.used, ih.unused⟩
    | train htrain =>
      rcases htrain with ⟨mshrPMC, id, rfl⟩ | ⟨addr, id, rfl⟩ | ⟨mshrPMC, rfl⟩
      · have hstep := CAREState.step_metadata ih.metadata (.quantizePMC mshrPMC id)
        refine ⟨hstep, ?_, ?_, ?_⟩
        all_goals
          rw [CAREState.quantizePMC]
          split
        · exact ih.bit
        · exact ih.bit
        · exact ih.used
        · exact ih.used
        · exact ih.unused
        · exact ih.unused
      · have hstep := CAREState.step_metadata ih.metadata (.shtPMCUpdate addr id)
        refine ⟨hstep, ?_, ?_, ?_⟩
        all_goals
          rw [CAREState.shtPMCUpdate]
          split
        · exact ih.bit
        · exact ih.bit
        · exact ih.used
        · exact ih.used
        · exact ih.unused
        · exact ih.unused
      · exact ⟨ih.metadata, ih.bit, ih.used, ih.unused⟩

theorem CareOk.unused_lt (h : CareOk s) {u x : Nat} (hu : s.used u = false) (hx : s.used x = true) :
    s.rp.rp.evictionKey u < s.rp.rp.evictionKey x := by
  have hepv : s.rp.rp.epv u = 3 := by
    rw [h.metadata.epv, h.unused u hu]
    rfl
  have hlt : s.rp.rp.epv x < 3 := by
    have hrc := h.used x hx
    rw [h.metadata.epv, CAREReplPolicy.computeEPV, if_neg (by omega)]
    split
    · decide
    · split <;> decide
  rw [CAREReplPolicy.evictionKey, CAREReplPolicy.evictionKey, Prod.Lex.lt_iff]
  left
  show OrderDual.toDual _ < OrderDual.toDual _
  rw [OrderDual.toDual_lt_toDual]
  omega

theorem care_prefers_unused (h : Reachable (.care numLines shtEntries) G hash n s) :
    Prefers (.care numLines shtEntries) G hash s (fun c => s.used c = false) lineAddr := by
  rintro ⟨u, hu, huu⟩
  have hok := h.careOk
  have hargmin := @CAREReplPolicy.getBestCandidate_argmin
    { s.rp.rp with candArray := candidates G hash lineAddr, incomingAddr := lineAddr }
    candidates_ne_nil
  have hvictim : (s.rp.rp.rank lineAddr (candidates G hash lineAddr)).2 =
      CAREReplPolicy.getBestCandidate { s.rp.rp with
        candArray := candidates G hash lineAddr, incomingAddr := lineAddr } := by
    rw [← CAREReplPolicy.rank_policy]
    rfl
  rw [← hvictim] at hargmin
  refine ⟨_, _, rfl, List.argmin_mem hargmin, ?_⟩
  by_contra hused
  exact List.not_lt_of_mem_argmin hu hargmin (hok.unused_lt huu (by simpa using hused))

end CARE

/-- LRU and LFU choose an invalid line if there is one, LRU as long as scores fit. SRRIP and CARE
choose without regard to coherence states, and a line that was never used, which is invalid, if
there is one. -/
theorem invalid_or_unused_first (G : SetConfig) (hash : Address → Nat) (n : Nat)
    (lineAddr : Address) :
    (∀ sharersAware s, Reachable (.lru sharersAware) G hash n s → n + 1 < 2 ^ 64 →
      ScoresFit sharersAware G hash s lineAddr →
      InvalidFirst (.lru sharersAware) G hash s lineAddr) ∧
    (∀ s, Reachable .lfu G hash n s → InvalidFirst .lfu G hash s lineAddr) ∧
    (∀ s, Reachable .srrip G hash n s → UnusedFirst .srrip G hash s lineAddr ∧
      ∀ cc cands, ReplPolicy.srrip.rank cc lineAddr cands s.rp =
        ReplPolicy.srrip.rank s.lineStates lineAddr cands s.rp) ∧
    ∀ numLines shtEntries s, Reachable (.care numLines shtEntries) G hash n s →
      UnusedFirst (.care numLines shtEntries) G hash s lineAddr ∧
      ∀ cc cands, (ReplPolicy.care numLines shtEntries).rank cc lineAddr cands s.rp =
        (ReplPolicy.care numLines shtEntries).rank s.lineStates lineAddr cands s.rp := by
  refine ⟨fun _ s h hn hfit => lru_prefers_invalid h hn hfit, fun s h => lfu_prefers_invalid h,
    fun s h => ⟨fun hex => ?_, fun _ _ => rfl⟩, fun _ _ s h => ⟨fun hex => ?_, fun _ _ => rfl⟩⟩
  · obtain ⟨c, hc, hused, -⟩ := hex
    obtain ⟨rp, v, hrank, hv, hvused⟩ := srrip_prefers_unused h ⟨c, hc, hused⟩
    exact ⟨rp, v, hrank, hv, hvused, h.coherent.invalid_of_unused hvused⟩
  · obtain ⟨c, hc, hused, -⟩ := hex
    obtain ⟨rp, v, hrank, hv, hvused⟩ := care_prefers_unused h ⟨c, hc, hused⟩
    exact ⟨rp, v, hrank, hv, hvused, h.coherent.invalid_of_unused hvused⟩

def twoWays : SetConfig := ⟨2, 0, Nat.two_pos⟩

theorem Prefers.only {P : Type} {R : ReplPolicy P} {G : SetConfig} {hash : Address → Nat}
    {s : PolicyCache P} {kind : Nat → Prop} {lineAddr : Address} {c : Nat}
    (h : Prefers R G hash s kind lineAddr) (hc : c ∈ candidates G hash lineAddr) (hkind : kind c)
    (honly : ∀ x ∈ candidates G hash lineAddr, kind x → x = c) :
    ∃ rp, R.rank s.lineStates lineAddr (candidates G hash lineAddr) s.rp = some (rp, c) := by
  obtain ⟨rp, x, hrank, hx, hkx⟩ := h ⟨c, hc, hkind⟩
  rw [honly x hx hkx] at hrank
  exact ⟨rp, hrank⟩

def oneSet (n : Nat) : SetConfig := ⟨n + 1, 0, Nat.succ_pos n⟩

/-- A line that was filled is valid, and another one was filled and invalidated: LRU and LFU
choose that one. SRRIP and CARE choose a third one, which was never used. -/
theorem invalid_or_unused_first_filled :
    (∃ s rp, Reachable (.lru true) twoWays id 3 s ∧ s.state 0 = .E ∧
      (ReplPolicy.lru true).rank s.lineStates 3 [0, 1] s.rp = some (rp, 1)) ∧
    (∃ s rp, Reachable .lfu twoWays id 3 s ∧ s.state 0 = .E ∧
      ReplPolicy.lfu.rank s.lineStates 3 [0, 1] s.rp = some (rp, 1)) ∧
    (∃ s rp, Reachable .srrip (oneSet 2) id 3 s ∧ s.state 0 = .E ∧ s.state 1 = .I ∧
      ReplPolicy.srrip.rank s.lineStates 3 [0, 1, 2] s.rp = some (rp, 2)) ∧
    ∃ s rp, Reachable (.care 3 2) (oneSet 2) id 3 s ∧ s.state 0 = .E ∧ s.state 1 = .I ∧
      (ReplPolicy.care 3 2).rank s.lineStates 3 [0, 1, 2] s.rp = some (rp, 2) := by
  obtain ⟨hlru, hlfu, -, -⟩ := invalid_or_unused_first twoWays id 3 3
  obtain ⟨-, -, hsrrip, hcare⟩ := invalid_or_unused_first (oneSet 2) id 3 3
  refine ⟨?_, ?_, ?_, ?_⟩
  · have h₁ : Reachable (.lru true) twoWays id 1 _ := Reachable.init.step
      (@Step.miss _ _ _ _ _ 1 0 0 .E _ rfl rfl (by decide))
    have h₂ : Reachable (.lru true) twoWays id 2 _ := h₁.step
      (@Step.miss _ _ _ _ _ 2 1 0 .E _ rfl rfl (by decide))
    have h₃ : Reachable (.lru true) twoWays id 3 _ := h₂.step (@Step.invalidate _ _ _ _ _ 1)
    obtain ⟨rp, hrank⟩ := (hlru true _ h₃ (by decide) (by unfold ScoresFit; decide +kernel)).only
      (c := 1) (by decide) rfl (by decide)
    exact ⟨_, rp, h₃, rfl, hrank⟩
  · have h₁ : Reachable .lfu twoWays id 1 _ := Reachable.init.step
      (@Step.miss _ _ _ _ _ 1 1 0 .E _ rfl rfl (by decide))
    have h₂ : Reachable .lfu twoWays id 2 _ := h₁.step
      (@Step.miss _ _ _ _ _ 2 0 0 .E _ rfl rfl (by decide))
    have h₃ : Reachable .lfu twoWays id 3 _ := h₂.step (@Step.invalidate _ _ _ _ _ 1)
    obtain ⟨rp, hrank⟩ := (hlfu _ h₃).only (c := 1) (by decide) rfl (by decide)
    exact ⟨_, rp, h₃, rfl, hrank⟩
  · have h₁ : Reachable .srrip (oneSet 2) id 1 _ := Reachable.init.step
      (@Step.miss _ _ _ _ _ 1 0 0 .E _ rfl rfl (by decide))
    have h₂ : Reachable .srrip (oneSet 2) id 2 _ := h₁.step
      (@Step.miss _ _ _ _ _ 2 1 0 .E _ rfl rfl (by decide))
    have h₃ : Reachable .srrip (oneSet 2) id 3 _ := h₂.step (@Step.invalidate _ _ _ _ _ 1)
    obtain ⟨rp, hrank⟩ := (hsrrip _ h₃).1.only (c := 2) (by decide) ⟨rfl, rfl⟩ (by decide)
    exact ⟨_, rp, h₃, rfl, rfl, hrank⟩
  · have h₁ : Reachable (.care 3 2) (oneSet 2) id 1 _ := Reachable.init.step
      (@Step.miss _ _ _ _ _ 1 0 0 .E _ rfl rfl (by decide))
    have h₂ : Reachable (.care 3 2) (oneSet 2) id 2 _ := h₁.step
      (@Step.miss _ _ _ _ _ 2 1 0 .E _ rfl rfl (by decide))
    have h₃ : Reachable (.care 3 2) (oneSet 2) id 3 _ := h₂.step (@Step.invalidate _ _ _ _ _ 1)
    obtain ⟨rp, hrank⟩ := (hcare 3 2 _ h₃).1.only (c := 2) (by decide) ⟨rfl, rfl⟩ (by decide)
    exact ⟨_, rp, h₃, rfl, rfl, hrank⟩

/-- Line 1 was invalidated after both lines were filled, and SRRIP evicts line 0. -/
theorem srrip_evicts_valid : ¬ ∀ n s, Reachable .srrip twoWays id n s → ∀ lineAddr,
    InvalidFirst .srrip twoWays id s lineAddr := by
  intro h
  have h₁ : Reachable .srrip twoWays id 1 _ := Reachable.init.step
    (@Step.miss _ _ _ _ _ 1 _ 0 .E _ rfl rfl (by decide))
  have h₂ : Reachable .srrip twoWays id 2 _ := h₁.step
    (@Step.miss _ _ _ _ _ 2 _ 0 .E _ rfl rfl (by decide))
  have h₃ : Reachable .srrip twoWays id 3 _ := h₂.step (@Step.invalidate _ _ _ _ _ 1)
  obtain ⟨rp, v, hrank, -, hv⟩ := h _ _ h₃ 3 ⟨1, by decide, rfl⟩
  cases hrank
  cases hv

end PolicyCache

end ZSim
