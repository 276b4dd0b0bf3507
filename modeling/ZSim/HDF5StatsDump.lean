import ZSim.HDF5StatsLayout

/-! What the walk of a dump writes, and how far into the buffer it goes. -/

namespace ZSim

namespace HDF5Backend

variable (B : HDF5Backend)

mutual

def wordCount : Stat → Nat
  | .scalar _ _ => 1
  | .vector _ _ size => if B.skipVectors then 0 else size
  | .aggregate _ isRegular children =>
    if isRegular && B.sumRegularAggregates then firstCount children else eachCount children

def firstCount : List Stat → Nat
  | [] => 0
  | child :: _ => wordCount child

def eachCount : List Stat → Nat
  | [] => 0
  | child :: others => wordCount child + eachCount others

end

mutual

/-- The words that the walk touches, from where it starts. -/
def extent : Stat → Nat
  | .scalar _ _ => 1
  | .vector _ _ size => if B.skipVectors then 0 else size
  | .aggregate _ isRegular children =>
    if isRegular && B.sumRegularAggregates then sumExtent children else eachExtent children

def eachExtent : List Stat → Nat
  | [] => 0
  | child :: others => max (extent child) (wordCount B child + eachExtent others)

def sumExtent : List Stat → Nat
  | [] => 0
  | child :: others => max (extent child) (wordCount B child + othersExtent others)

def othersExtent : List Stat → Nat
  | [] => 0
  | child :: others => max (extent child) (othersExtent others)

end

variable {B} {V : StatValues} {s c : Stat} {t : H5Type} {children : List Stat} {n : Nat}

theorem wordCount_of_skipStat (h : B.skipStat s = true) : B.wordCount s = 0 := by
  cases s with
  | vector name id size =>
    rw [skipStat, Bool.and_eq_true] at h
    rw [wordCount, if_pos h.1]
  | _ => simp [skipStat, Stat.isVector] at h

theorem eachCount_eq (h : ∀ c ∈ children, B.wordCount c = n) :
    B.eachCount children = n * children.length := by
  induction children with
  | nil => rfl
  | cons c cs ih =>
    rw [eachCount, h c (by simp), ih fun c hc => h c (by simp [hc]), List.length_cons]
    ring

theorem eachCount_fields {fields : List (String × H5Type)}
    (hfields : B.getFields children = some fields)
    (h : ∀ c ∈ children, ∀ t, B.getH5Type c = some t → B.skipStat c = false →
      8 * B.wordCount c = t.size) :
    8 * B.eachCount children = (fields.map fun f => f.2.size).sum := by
  induction children generalizing fields with
  | nil =>
    cases hfields
    rfl
  | cons c cs ih =>
    have h' : ∀ c ∈ cs, ∀ t, B.getH5Type c = some t → B.skipStat c = false →
        8 * B.wordCount c = t.size := fun c hc => h c (by simp [hc])
    rcases getFields_cons hfields with ⟨hskip, hcs⟩ | ⟨childType, rest, hskip, hchild, hrest, rfl⟩
    · rw [eachCount, wordCount_of_skipStat hskip, Nat.zero_add]
      exact ih hcs h'
    · rw [eachCount, Nat.mul_add, ih hrest h', h c (by simp) childType hchild hskip,
        List.map_cons, List.sum_cons]

theorem wordCount_eq (h : B.getH5Type s = some t) (hskip : B.skipStat s = false)
    (huniform : B.Uniform s) : 8 * B.wordCount s = t.size := by
  induction s using Stat.induction generalizing t with
  | scalar name id =>
    cases h
    rfl
  | vector name id size =>
    have hno : B.skipVectors = false := by
      simpa [skipStat, Stat.isVector] using hskip
    rw [wordCount, hno, if_neg (by decide)]
    exact (layout_base h).size.symm
  | aggregate name isRegular children ih =>
    rw [Uniform, allUniform_iff] at huniform
    obtain ⟨htail, hall⟩ := huniform
    rw [getH5Type] at h
    split at h
    · next hregular =>
      obtain ⟨child, others, childType, rfl, hfirst, htypes, rfl⟩ := getRegularType_eq_some h
      have hchild := ih child (by simp) (htypes child (by simp)) hfirst (hall child (by simp))
      subst hregular
      cases hsum : B.sumRegularAggregates with
      | true =>
        simp only [wordCount, hsum, Bool.and_self, if_true, firstCount]
        exact hchild
      | false =>
        have hcounts : ∀ c ∈ child :: others, B.wordCount c = B.wordCount child := by
          intro c hc
          rcases List.mem_cons.mp hc with rfl | hc'
          · rfl
          · have := ih c hc (htypes c hc) (htail rfl c hc') (hall c hc)
            omega
        simp only [wordCount, hsum, Bool.and_false, Bool.false_eq_true, if_false]
        rw [eachCount_eq hcounts, H5Type.size, ← hchild, List.length_cons, Nat.mul_assoc]
    · next hirregular =>
      obtain ⟨fields, hfields, hcompound⟩ := Option.bind_eq_some_iff.mp h
      obtain ⟨rfl, -, -⟩ := compoundType_eq_some hcompound
      have hr : isRegular = false := by simpa using hirregular
      subst hr
      simp only [wordCount, Bool.false_and, Bool.false_eq_true, if_false]
      exact eachCount_fields hfields fun c hc t htype hskip => ih c hc htype hskip (hall c hc)

theorem words_length (h : B.getH5Type s = some t) (hskip : B.skipStat s = false)
    (huniform : B.Uniform s) : (B.words V s).length = B.wordCount s := by
  obtain ⟨n, hn⟩ := layout_of_getH5Type h
  have hlen := congrArg List.length (hn.offsets 0)
  rw [List.length_map, List.length_range'] at hlen
  rw [words_eq_leaves h hskip huniform 0, List.length_map, hlen]
  have := wordCount_eq h hskip huniform
  have := hn.size
  omega

/-- Without sums the walk writes no words but those of the record. -/
theorem extent_of_not_sum (hsum : B.sumRegularAggregates = false) :
    B.extent s = B.wordCount s := by
  induction s using Stat.induction with
  | scalar name id => rfl
  | vector name id size => rfl
  | aggregate name isRegular children ih =>
    simp only [extent, wordCount, hsum, Bool.and_false, Bool.false_eq_true, if_false]
    induction children with
    | nil => rfl
    | cons c cs ih' =>
      rw [eachExtent, eachCount, ih c (by simp), ih' fun c hc => ih c (by simp [hc])]
      omega

theorem addRecord_apply {startPtr tmpPtr : Nat} (hn : startPtr + n ≤ tmpPtr)
    (dataBuf : Nat → BitVec 64) (i : Nat) :
    addRecord startPtr tmpPtr n dataBuf i =
      if startPtr ≤ i ∧ i < startPtr + n then dataBuf i + dataBuf (tmpPtr + (i - startPtr))
      else dataBuf i := by
  induction n generalizing i with
  | zero =>
    rw [if_neg (by omega)]
    rfl
  | succ n ih =>
    have hself : addRecord startPtr tmpPtr n dataBuf (startPtr + n) = dataBuf (startPtr + n) := by
      rw [ih (by omega), if_neg (by omega)]
    have htmp : addRecord startPtr tmpPtr n dataBuf (tmpPtr + n) = dataBuf (tmpPtr + n) := by
      rw [ih (by omega), if_neg (by omega)]
    rw [addRecord, hself, htmp, Function.update_apply]
    by_cases hi : i = startPtr + n
    · rw [if_pos hi, if_pos (by omega), hi, Nat.add_sub_cancel_left]
    · have hiff : (startPtr ≤ i ∧ i < startPtr + (n + 1)) ↔ startPtr ≤ i ∧ i < startPtr + n := by
        omega
      rw [if_neg hi, ih (by omega)]
      simp only [hiff]

/-- The words `ws` are written from `curPtr` on; what comes before stays. -/
structure Written (st st' : DumpState) (ws : List (BitVec 64)) : Prop where
  curPtr : st'.curPtr = st.curPtr + ws.length
  words : ∀ j < ws.length, ws[j]? = some (st'.dataBuf (st.curPtr + j))
  before : ∀ i < st.curPtr, st'.dataBuf i = st.dataBuf i

theorem Written.append {st st' st'' : DumpState} {ws ws' : List (BitVec 64)}
    (h : Written st st' ws) (h' : Written st' st'' ws') : Written st st'' (ws ++ ws') := by
  constructor
  · rw [h'.curPtr, h.curPtr, List.length_append, Nat.add_assoc]
  · intro j hj
    rw [List.length_append] at hj
    by_cases hjl : j < ws.length
    · rw [List.getElem?_append_left hjl, h.words j hjl,
        h'.before (st.curPtr + j) (by rw [h.curPtr]; omega)]
    · have hidx : st.curPtr + j = st'.curPtr + (j - ws.length) := by
        rw [h.curPtr]
        omega
      rw [List.getElem?_append_right (by omega), h'.words _ (by omega), hidx]
  · intro i hi
    rw [h'.before i (by rw [h.curPtr]; omega), h.before i hi]

/-- Within `capacity` words, `walk` writes `ws` and touches `ext` words. -/
structure Walks (capacity : Nat) (walk : DumpState → Except DumpFault DumpState)
    (ws : List (BitVec 64)) (ext : Nat) : Prop where
  length_le : ws.length ≤ ext
  fits : ∀ st, st.curPtr + ext ≤ capacity → ∃ st', walk st = .ok st' ∧ Written st st' ws
  overflows : ∀ st, st.curPtr ≤ capacity → capacity < st.curPtr + ext →
    walk st = .error .outOfBounds

variable {capacity : Nat}

theorem walks_nil : Walks capacity .ok [] 0 := by
  constructor
  · exact Nat.le_refl _
  · intro st _
    exact ⟨st, rfl, by simp, by simp, fun _ _ => rfl⟩
  · intro st hle hlt
    omega

theorem Walks.append {walk walk' : DumpState → Except DumpFault DumpState}
    {ws ws' : List (BitVec 64)} {ext ext' : Nat} (h : Walks capacity walk ws ext)
    (h' : Walks capacity walk' ws' ext') :
    Walks capacity (fun st => (walk st).bind walk') (ws ++ ws')
      (max ext (ws.length + ext')) := by
  have hle := h.length_le
  have hle' := h'.length_le
  constructor
  · rw [List.length_append]
    omega
  · intro st hfits
    obtain ⟨st₁, hst₁, hw⟩ := h.fits st (by omega)
    obtain ⟨st₂, hst₂, hw'⟩ := h'.fits st₁ (by rw [hw.curPtr]; omega)
    refine ⟨st₂, ?_, hw.append hw'⟩
    rw [hst₁]
    exact hst₂
  · intro st hcur hover
    by_cases hfits : st.curPtr + ext ≤ capacity
    · obtain ⟨st₁, hst₁, hw⟩ := h.fits st hfits
      rw [hst₁]
      exact h'.overflows st₁ (by rw [hw.curPtr]; omega) (by rw [hw.curPtr]; omega)
    · rw [h.overflows st hcur (by omega)]
      rfl

theorem walks_write (value : BitVec 64) : Walks capacity (·.write capacity value) [value] 1 := by
  constructor
  · exact Nat.le_refl _
  · intro st hfits
    refine ⟨_, if_pos (by omega), rfl, fun j hj => ?_, fun i hi => ?_⟩
    · have hj0 : j = 0 := by simpa using hj
      subst hj0
      simp
    · exact Function.update_of_ne (by omega) ..
  · intro st _ hover
    exact if_neg (by omega)

theorem walks_writeAll (values : List (BitVec 64)) :
    Walks capacity (·.writeAll capacity values) values values.length := by
  induction values with
  | nil => exact walks_nil
  | cons value values ih =>
    have h := (@walks_write capacity value).append ih
    have hext : max 1 ([value].length + values.length) = (value :: values).length := by
      simp
      omega
    rw [hext] at h
    exact h

/-- The children that are summed, each over the words that are kept for the first one. -/
theorem walks_others {startPtr tmpPtr : Nat} (hn : tmpPtr = startPtr + n) (hsz : n < 2 ^ 32)
    (hall : ∀ c ∈ children, Walks capacity (B.dumpWalk V capacity c) (B.words V c) (B.extent c) ∧
      (B.words V c).length = n)
    {st : DumpState} {sum : List (BitVec 64)} (hcur : st.curPtr = tmpPtr)
    (hcap : tmpPtr ≤ capacity) (hsum : sum.length = n)
    (hwords : ∀ j < n, sum[j]? = some (st.dataBuf (startPtr + j))) :
    (tmpPtr + B.othersExtent children ≤ capacity →
      ∃ st', B.dumpOthers V capacity startPtr tmpPtr children st = .ok st' ∧
        st'.curPtr = tmpPtr ∧ (B.addWords V sum children).length = n ∧
        (∀ j < n, (B.addWords V sum children)[j]? = some (st'.dataBuf (startPtr + j))) ∧
        ∀ i < startPtr, st'.dataBuf i = st.dataBuf i) ∧
    (capacity < tmpPtr + B.othersExtent children →
      B.dumpOthers V capacity startPtr tmpPtr children st = .error .outOfBounds) := by
  induction children generalizing st sum with
  | nil =>
    refine ⟨fun _ => ⟨st, rfl, hcur, hsum, hwords, fun _ _ => rfl⟩, fun hover => ?_⟩
    rw [othersExtent] at hover
    omega
  | cons c cs ih =>
    obtain ⟨hc, hlen⟩ := hall c (by simp)
    have hall' := fun c hc => hall c (List.mem_cons_of_mem _ hc)
    have hmod : (tmpPtr - startPtr) % 2 ^ 32 = n := by
      rw [hn, Nat.add_sub_cancel_left, Nat.mod_eq_of_lt hsz]
    by_cases hfits : tmpPtr + B.extent c ≤ capacity
    · obtain ⟨st₁, hst₁, hw⟩ := hc.fits st (by rw [hcur]; exact hfits)
      have hcur₁ : st₁.curPtr = tmpPtr + (tmpPtr - startPtr) % 2 ^ 32 := by
        rw [hw.curPtr, hcur, hlen, hmod]
      let st₂ : DumpState := ⟨addRecord startPtr tmpPtr n st₁.dataBuf, tmpPtr⟩
      have hrun : B.dumpOthers V capacity startPtr tmpPtr (c :: cs) st =
          B.dumpOthers V capacity startPtr tmpPtr cs st₂ := by
        rw [dumpOthers, hst₁]
        refine (if_pos hcur₁).trans ?_
        rw [hmod]
      have happly : ∀ i, st₂.dataBuf i = if startPtr ≤ i ∧ i < startPtr + n then
          st₁.dataBuf i + st₁.dataBuf (tmpPtr + (i - startPtr)) else st₁.dataBuf i :=
        addRecord_apply (by omega) st₁.dataBuf
      have hnext : ∀ j < n, (List.zipWith (· + ·) sum (B.words V c))[j]? =
          some (st₂.dataBuf (startPtr + j)) := by
        intro j hj
        rw [happly, if_pos (by omega), hw.before _ (by omega), List.getElem?_zipWith,
          hwords j hj, hw.words j (by omega), hcur, Nat.add_sub_cancel_left]
      have hlen₂ : (List.zipWith (· + ·) sum (B.words V c)).length = n := by
        rw [List.length_zipWith, hsum, hlen, Nat.min_self]
      obtain ⟨hok, herror⟩ := ih hall' (rfl : st₂.curPtr = tmpPtr) hlen₂ hnext
      constructor
      · intro hext
        rw [othersExtent] at hext
        obtain ⟨st', hst', hcur', hlen', hwords', hbefore⟩ := hok (by omega)
        refine ⟨st', hrun.trans hst', hcur', hlen', hwords', fun i hi => ?_⟩
        rw [hbefore i hi, happly, if_neg (by omega), hw.before i (by omega)]
      · intro hover
        rw [othersExtent] at hover
        rw [hrun]
        exact herror (by omega)
    · constructor
      · intro hext
        rw [othersExtent] at hext
        omega
      · intro _
        rw [dumpOthers, hc.overflows st (by omega) (by omega)]
        rfl

theorem walks_sum (hsz : n < 2 ^ 32)
    (hall : ∀ c ∈ children, Walks capacity (B.dumpWalk V capacity c) (B.words V c) (B.extent c) ∧
      (B.words V c).length = n ∧ B.wordCount c = n) (hne : children ≠ []) :
    Walks capacity (B.dumpSum V capacity children) (B.sumWords V children)
      (B.sumExtent children) := by
  cases children with
  | nil => exact absurd rfl hne
  | cons c cs =>
    obtain ⟨hc, hlen, hcount⟩ := hall c (by simp)
    have hle := hc.length_le
    have hothers : ∀ c ∈ cs, Walks capacity (B.dumpWalk V capacity c) (B.words V c)
        (B.extent c) ∧ (B.words V c).length = n := by
      intro c hc
      obtain ⟨hw, hl, -⟩ := hall c (by simp [hc])
      exact ⟨hw, hl⟩
    have hadd : (B.addWords V (B.words V c) cs).length = n := by
      clear hcount hle hc hall
      generalize B.words V c = sum at hlen ⊢
      induction cs generalizing sum with
      | nil => exact hlen
      | cons c' cs ih =>
        rw [addWords]
        refine ih (by simp) (fun c hc => hothers c (by simp [hc])) _ ?_
        rw [List.length_zipWith, hlen, (hothers c' (by simp)).2, Nat.min_self]
    rw [sumExtent, hcount]
    constructor
    · rw [sumWords, hadd]
      omega
    · intro st hfits
      obtain ⟨st₁, hst₁, hw⟩ := hc.fits st (by omega)
      have hcur : st₁.curPtr = st.curPtr + n := by rw [hw.curPtr, hlen]
      obtain ⟨hok, -⟩ := @walks_others B V cs n capacity st.curPtr st₁.curPtr hcur hsz hothers st₁
        (B.words V c) rfl (by omega) hlen (fun j hj => hw.words j (by omega))
      obtain ⟨st', hst', hcur', hlen', hwords, hbefore⟩ := hok (by omega)
      refine ⟨st', ?_, ?_, ?_, ?_⟩
      · rw [dumpSum, hst₁]
        exact hst'
      · rw [hcur', hcur, sumWords, hlen']
      · intro j hj
        rw [sumWords, hlen'] at hj
        exact hwords j hj
      · intro i hi
        rw [hbefore i hi, hw.before i hi]
    · intro st hcur hover
      by_cases hfits : st.curPtr + B.extent c ≤ capacity
      · obtain ⟨st₁, hst₁, hw⟩ := hc.fits st hfits
        have hcur₁ : st₁.curPtr = st.curPtr + n := by rw [hw.curPtr, hlen]
        obtain ⟨-, herror⟩ := @walks_others B V cs n capacity st.curPtr st₁.curPtr hcur₁ hsz
          hothers st₁ (B.words V c) rfl (by omega) hlen (fun j hj => hw.words j (by omega))
        rw [dumpSum, hst₁]
        exact herror (by omega)
      · rw [dumpSum, hc.overflows st hcur (by omega)]
        rfl

theorem walks_each (hall : ∀ c ∈ children, Walks capacity (B.dumpWalk V capacity c)
      (B.words V c) (B.extent c) ∧ (B.words V c).length = B.wordCount c) :
    Walks capacity (B.dumpEach V capacity children) (B.eachWords V children)
      (B.eachExtent children) := by
  induction children with
  | nil => exact walks_nil
  | cons c cs ih =>
    obtain ⟨hc, hlen⟩ := hall c (by simp)
    have h := hc.append (ih fun c hc => hall c (by simp [hc]))
    rw [hlen] at h
    exact h

theorem walks_skipped (h : B.skipStat s = true) :
    Walks capacity (B.dumpWalk V capacity s) (B.words V s) (B.extent s) ∧
      (B.words V s).length = B.wordCount s := by
  cases s with
  | vector name id size =>
    rw [skipStat, Bool.and_eq_true] at h
    have hwalk : B.dumpWalk V capacity (.vector name id size) = .ok := by
      funext st
      rw [dumpWalk, if_pos h.1]
    rw [hwalk, words, extent, wordCount, if_pos h.1, if_pos h.1]
    exact ⟨walks_nil, rfl⟩
  | _ => simp [skipStat, Stat.isVector] at h

theorem getFields_size_le {fields : List (String × H5Type)}
    (h : B.getFields children = some fields) (hc : c ∈ children) (hskip : B.skipStat c = false) :
    ∃ t, B.getH5Type c = some t ∧ t.size ≤ (fields.map fun f => f.2.size).sum := by
  induction children generalizing fields with
  | nil => cases hc
  | cons c' cs ih =>
    rcases getFields_cons h with ⟨hskip', hcs⟩ | ⟨childType, rest, hskip', hchild, hrest, rfl⟩
    · rcases List.mem_cons.mp hc with rfl | hc
      · rw [hskip] at hskip'
        cases hskip'
      · exact ih hcs hc
    · rw [List.map_cons, List.sum_cons]
      rcases List.mem_cons.mp hc with rfl | hc
      · exact ⟨childType, hchild, Nat.le_add_right ..⟩
      · obtain ⟨t, ht, hle⟩ := ih hrest hc
        exact ⟨t, ht, hle.trans (Nat.le_add_left ..)⟩

/-- The walk of a uniform stat, where a sum is over less than 2^32 words. -/
theorem dumpWalk_walks (h : B.getH5Type s = some t) (hskip : B.skipStat s = false)
    (huniform : B.Uniform s) (hsize : B.sumRegularAggregates = true → t.size < 8 * 2 ^ 32) :
    Walks capacity (B.dumpWalk V capacity s) (B.words V s) (B.extent s) := by
  induction s using Stat.induction generalizing t with
  | scalar name id => exact walks_write (V.get id)
  | vector name id size =>
    have hno : B.skipVectors = false := by
      simpa [skipStat, Stat.isVector] using hskip
    have hwalk : B.dumpWalk V capacity (.vector name id size) =
        (·.writeAll capacity ((List.range size).map (V.count id))) := by
      funext st
      rw [dumpWalk, hno, if_neg (by decide)]
    have hw := @walks_writeAll capacity ((List.range size).map (V.count id))
    rw [List.length_map, List.length_range] at hw
    rw [hwalk, words, extent, hno, if_neg (by decide), if_neg (by decide)]
    exact hw
  | aggregate name isRegular children ih =>
    rw [Uniform, allUniform_iff] at huniform
    obtain ⟨htail, hall⟩ := huniform
    rw [getH5Type] at h
    split at h
    · next hregular =>
      obtain ⟨child, others, childType, rfl, hfirst, htypes, rfl⟩ := getRegularType_eq_some h
      subst hregular
      have hnone : ∀ c ∈ child :: others, B.skipStat c = false := by
        intro c hc
        rcases List.mem_cons.mp hc with rfl | hc
        · exact hfirst
        · exact htail rfl c hc
      cases hsum : B.sumRegularAggregates with
      | true =>
        rw [hsum, if_pos rfl] at hsize
        have hlt := hsize rfl
        have hcount : ∀ c ∈ child :: others, 8 * B.wordCount c = childType.size :=
          fun c hc => wordCount_eq (htypes c hc) (hnone c hc) (hall c hc)
        have hwalk : B.dumpWalk V capacity (.aggregate name true (child :: others)) =
            B.dumpSum V capacity (child :: others) := by
          funext st
          rw [dumpWalk, hsum]
          rfl
        rw [hwalk]
        simp only [words, extent, hsum, Bool.and_self, if_true]
        refine @walks_sum B V (child :: others) (B.wordCount child) capacity ?_ ?_ (by simp)
        · have := hcount child (by simp)
          omega
        · intro c hc
          refine ⟨ih c hc (htypes c hc) (hnone c hc) (hall c hc) fun _ => hlt, ?_, ?_⟩
          · rw [words_length (htypes c hc) (hnone c hc) (hall c hc)]
            have := hcount c hc
            have := hcount child (by simp)
            omega
          · have := hcount c hc
            have := hcount child (by simp)
            omega
      | false =>
        have hwalk : B.dumpWalk V capacity (.aggregate name true (child :: others)) =
            B.dumpEach V capacity (child :: others) := by
          funext st
          rw [dumpWalk, hsum]
          rfl
        rw [hwalk]
        simp only [words, extent, hsum, Bool.and_false, Bool.false_eq_true, if_false]
        refine walks_each fun c hc => ⟨?_, words_length (htypes c hc) (hnone c hc) (hall c hc)⟩
        refine ih c hc (htypes c hc) (hnone c hc) (hall c hc) fun hs => ?_
        rw [hsum] at hs
        cases hs
    · next hirregular =>
      obtain ⟨fields, hfields, hcompound⟩ := Option.bind_eq_some_iff.mp h
      obtain ⟨rfl, -, -⟩ := compoundType_eq_some hcompound
      have hr : isRegular = false := by simpa using hirregular
      subst hr
      have hwalk : B.dumpWalk V capacity (.aggregate name false children) =
          B.dumpEach V capacity children := by
        funext st
        rw [dumpWalk]
        rfl
      rw [hwalk]
      simp only [words, extent, Bool.false_and, Bool.false_eq_true, if_false]
      refine walks_each fun c hc => ?_
      cases hs : B.skipStat c with
      | true => exact walks_skipped hs
      | false =>
        obtain ⟨childType, hchild, hle⟩ := getFields_size_le hfields hc hs
        refine ⟨ih c hc hchild hs (hall c hc) fun hsum => ?_,
          words_length hchild hs (hall c hc)⟩
        have := hsize hsum
        rw [H5Type.size] at this
        omega

end HDF5Backend

end ZSim
