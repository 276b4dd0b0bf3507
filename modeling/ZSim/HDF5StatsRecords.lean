import ZSim.HDF5StatsDump

/-! When the records of all dumps match their type. -/

namespace ZSim

namespace HDF5Backend

variable {B : HDF5Backend} {V : StatValues} {s c : Stat} {t : H5Type} {children : List Stat}
  {n capacity : Nat}

theorem write_curPtr {value : BitVec 64} {st st' : DumpState}
    (h : st.write capacity value = .ok st') : st'.curPtr = st.curPtr + 1 := by
  rw [DumpState.write] at h
  split at h
  · cases h
    rfl
  · cases h

theorem writeAll_curPtr {values : List (BitVec 64)} {st st' : DumpState}
    (h : st.writeAll capacity values = .ok st') :
    st'.curPtr = st.curPtr + values.length := by
  induction values generalizing st with
  | nil =>
    cases h
    rfl
  | cons value values ih =>
    rw [DumpState.writeAll] at h
    cases hw : st.write capacity value with
    | error f =>
      rw [hw] at h
      cases h
    | ok st₁ =>
      rw [hw] at h
      rw [ih h, write_curPtr hw, List.length_cons]
      omega

/-- A walk that goes through advances by `n` words at most, and by less if `short`. -/
def Advances (walk : DumpState → Except DumpFault DumpState) (n : Nat) (short : Prop) : Prop :=
  ∀ st st', walk st = .ok st' → ∃ m, st'.curPtr = st.curPtr + m ∧ m ≤ n ∧ (short → m < n)

theorem Advances.append {walk walk' : DumpState → Except DumpFault DumpState} {n n' : Nat}
    {short short' : Prop} (h : Advances walk n short) (h' : Advances walk' n' short') :
    Advances (fun st => (walk st).bind walk') (n + n') (short ∨ short') := by
  intro st st' hok
  cases hw : walk st with
  | error f =>
    simp only [hw] at hok
    cases hok
  | ok st₁ =>
    simp only [hw] at hok
    obtain ⟨m, hm, hle, hlt⟩ := h st st₁ hw
    obtain ⟨m', hm', hle', hlt'⟩ := h' st₁ st' hok
    refine ⟨m + m', by omega, by omega, fun hs => ?_⟩
    rcases hs with hs | hs
    · have := hlt hs
      omega
    · have := hlt' hs
      omega

theorem advances_each {n : Stat → Nat} {short : Stat → Prop}
    (hall : ∀ c ∈ children, Advances (B.dumpWalk V capacity c) (n c) (short c)) :
    Advances (B.dumpEach V capacity children) (children.map n).sum
      (∃ c ∈ children, short c) := by
  induction children with
  | nil =>
    intro st st' hok
    cases hok
    exact ⟨0, rfl, Nat.le_refl _, by simp⟩
  | cons c cs ih =>
    have h := (hall c (by simp)).append (ih fun c hc => hall c (by simp [hc]))
    intro st st' hok
    obtain ⟨m, hm, hle, hlt⟩ := h st st' hok
    refine ⟨m, hm, hle, fun hs => hlt ?_⟩
    obtain ⟨c', hc', hs⟩ := hs
    rcases List.mem_cons.mp hc' with rfl | hc'
    · exact .inl hs
    · exact .inr ⟨c', hc', hs⟩

theorem advances_skipped (h : B.skipStat s = true) :
    Advances (B.dumpWalk V capacity s) 0 False := by
  intro st st' hok
  cases s with
  | vector name id size =>
    rw [skipStat, Bool.and_eq_true] at h
    rw [dumpWalk, if_pos h.1] at hok
    cases hok
    exact ⟨0, rfl, Nat.le_refl _, False.elim⟩
  | _ => simp [skipStat, Stat.isVector] at h

theorem dumpOthers_curPtr {startPtr tmpPtr m : Nat} (hm : tmpPtr = startPtr + m)
    (hlt : m < 2 ^ 32) {st st' : DumpState} (hcur : st.curPtr = tmpPtr)
    (hok : B.dumpOthers V capacity startPtr tmpPtr children st = .ok st') :
    st'.curPtr = tmpPtr ∧ ∀ c ∈ children, ∃ st₁ st₂, B.dumpWalk V capacity c st₁ = .ok st₂ ∧
      st₂.curPtr = st₁.curPtr + m := by
  induction children generalizing st with
  | nil =>
    cases hok
    exact ⟨hcur, by simp⟩
  | cons c cs ih =>
    rw [dumpOthers] at hok
    cases hw : B.dumpWalk V capacity c st with
    | error f =>
      rw [hw] at hok
      cases hok
    | ok st₁ =>
      rw [hw] at hok
      have hsz : (tmpPtr - startPtr) % 2 ^ 32 = m := by
        rw [hm, Nat.add_sub_cancel_left, Nat.mod_eq_of_lt hlt]
      change (if st₁.curPtr = tmpPtr + (tmpPtr - startPtr) % 2 ^ 32 then _ else _) = _ at hok
      rw [hsz] at hok
      split at hok
      · next hadv =>
        obtain ⟨hend, hall⟩ := ih rfl hok
        refine ⟨hend, fun c' hc' => ?_⟩
        rcases List.mem_cons.mp hc' with rfl | hc'
        · exact ⟨st, st₁, hw, by rw [hadv, hcur]⟩
        · exact hall c' hc'
      · cases hok

theorem advances_sum (hne : children ≠ []) (hn : n < 2 ^ 32) {short : Stat → Prop}
    (hall : ∀ c ∈ children, Advances (B.dumpWalk V capacity c) n (short c)) :
    Advances (B.dumpSum V capacity children) n (∃ c ∈ children, short c) := by
  cases children with
  | nil => exact absurd rfl hne
  | cons c cs =>
    intro st st' hok
    rw [dumpSum] at hok
    cases hw : B.dumpWalk V capacity c st with
    | error f =>
      rw [hw] at hok
      cases hok
    | ok st₁ =>
      rw [hw] at hok
      obtain ⟨m, hm, hle, hlt⟩ := hall c (by simp) st st₁ hw
      obtain ⟨hend, hothers⟩ := dumpOthers_curPtr hm (hle.trans_lt hn) rfl hok
      refine ⟨m, by rw [hend, hm], hle, fun hshort => ?_⟩
      obtain ⟨c', hc', hs⟩ := hshort
      rcases List.mem_cons.mp hc' with rfl | hc'
      · exact hlt hs
      · obtain ⟨st₂, st₃, hw', hadv⟩ := hothers c' hc'
        obtain ⟨m', hm', -, hlt'⟩ := hall c' (by simp [hc']) st₂ st₃ hw'
        have := hlt' hs
        omega

theorem Advances.mono {walk : DumpState → Except DumpFault DumpState} {n n' : Nat}
    {short short' : Prop} (h : Advances walk n short) (hn : n ≤ n')
    (hshort : short' → short ∨ n < n') : Advances walk n' short' := by
  intro st st' hok
  obtain ⟨m, hm, hle, hlt⟩ := h st st' hok
  refine ⟨m, hm, hle.trans hn, fun hs => ?_⟩
  rcases hshort hs with hs | hlt'
  · exact (hlt hs).trans_le hn
  · exact hle.trans_lt hlt'

/-- The words of the type of a stat, none for one that is skipped. -/
def typeCount (B : HDF5Backend) (s : Stat) : Nat :=
  if B.skipStat s then 0 else ((B.getH5Type s).map fun t => t.size / 8).getD 0

theorem typeCount_eq (h : B.getH5Type s = some t) (hskip : B.skipStat s = false) :
    8 * B.typeCount s = t.size := by
  obtain ⟨n, hn⟩ := layout_of_getH5Type h
  rw [typeCount, hskip, if_neg (by decide), h, Option.map_some, Option.getD_some, hn.size]
  omega

theorem typeCount_fields {fields : List (String × H5Type)}
    (hfields : B.getFields children = some fields) :
    8 * (children.map B.typeCount).sum = (fields.map fun f => f.2.size).sum := by
  induction children generalizing fields with
  | nil =>
    cases hfields
    rfl
  | cons c cs ih =>
    rw [List.map_cons, List.sum_cons, Nat.mul_add]
    rcases getFields_cons hfields with ⟨hskip, hcs⟩ | ⟨childType, rest, hskip, hchild, hrest, rfl⟩
    · rw [ih hcs, typeCount, hskip, if_pos rfl, Nat.mul_zero, Nat.zero_add]
    · rw [ih hrest, typeCount_eq hchild hskip, List.map_cons, List.sum_cons]

theorem uniform_of_skipStat (h : B.skipStat s = true) : B.Uniform s := by
  cases s with
  | vector name id size => trivial
  | _ => simp [skipStat, Stat.isVector] at h

/-- A walk writes no more than its type has words, and less if the stat is not uniform. -/
theorem dumpWalk_advances (h : B.getH5Type s = some t) (hskip : B.skipStat s = false)
    (hsize : B.sumRegularAggregates = true → t.size < 8 * 2 ^ 32) :
    Advances (B.dumpWalk V capacity s) (B.typeCount s) (¬ B.Uniform s) := by
  have hcount := typeCount_eq h hskip
  induction s using Stat.induction generalizing t with
  | scalar name id =>
    cases h
    intro st st' hok
    refine ⟨1, write_curPtr hok, ?_, fun hno => absurd trivial hno⟩
    change 8 * _ = 8 at hcount
    omega
  | vector name id size =>
    have hno : B.skipVectors = false := by
      simpa [skipStat, Stat.isVector] using hskip
    intro st st' hok
    rw [dumpWalk, hno, if_neg (by decide)] at hok
    refine ⟨size, ?_, ?_, fun hno => absurd trivial hno⟩
    · have := writeAll_curPtr hok
      rwa [List.length_map, List.length_range] at this
    · have := (layout_base h).size
      omega
  | aggregate name isRegular children ih =>
    rw [getH5Type] at h
    split at h
    · next hregular =>
      obtain ⟨child, others, childType, rfl, hfirst, htypes, rfl⟩ := getRegularType_eq_some h
      subst hregular
      have hshort : ¬ B.Uniform (.aggregate name true (child :: others)) →
          ∃ c ∈ child :: others, B.skipStat c = true ∨ ¬ B.Uniform c := by
        intro hno
        by_contra hall
        push Not at hall
        refine hno ⟨fun _ c hc => ?_, allUniform_iff.mpr fun c hc => (hall c hc).2⟩
        simpa using (hall c (List.mem_cons_of_mem _ hc)).1
      have hchildType := typeCount_eq (htypes child (by simp)) hfirst
      obtain ⟨k, hk⟩ := layout_of_getH5Type (htypes child (by simp))
      have hpos := hk.pos
      have hks := hk.size
      have hle : childType.size ≤
          (if B.sumRegularAggregates then childType
            else .array childType (others.length + 1)).size := by
        split
        · exact Nat.le_refl _
        · exact Nat.le_mul_of_pos_right _ (Nat.succ_pos _)
      have hall : ∀ c ∈ child :: others, Advances (B.dumpWalk V capacity c) k
          (B.skipStat c = true ∨ ¬ B.Uniform c) := by
        intro c hc
        cases hs : B.skipStat c with
        | true => exact (advances_skipped hs).mono (Nat.zero_le _) fun _ => .inr hpos
        | false =>
          have hc' := typeCount_eq (htypes c hc) hs
          refine (ih c hc (htypes c hc) hs (fun hsum => ?_) hc').mono (by omega) fun hor => ?_
          · exact hle.trans_lt (hsize hsum)
          · exact .inl (hor.resolve_left (by simp))
      cases hsum : B.sumRegularAggregates with
      | true =>
        rw [hsum, if_pos rfl] at hcount hsize
        have hlt := hsize rfl
        have hwalk : B.dumpWalk V capacity (.aggregate name true (child :: others)) =
            B.dumpSum V capacity (child :: others) := by
          funext st
          rw [dumpWalk, hsum]
          rfl
        rw [hwalk]
        exact (advances_sum (by simp) (by omega) hall).mono (by omega)
          fun hno => .inl (hshort hno)
      | false =>
        rw [hsum, if_neg (by decide), H5Type.size] at hcount
        have hwalk : B.dumpWalk V capacity (.aggregate name true (child :: others)) =
            B.dumpEach V capacity (child :: others) := by
          funext st
          rw [dumpWalk, hsum]
          rfl
        rw [hwalk]
        refine (advances_each hall).mono ?_ fun hno => .inl (hshort hno)
        rw [List.map_const', List.sum_replicate, smul_eq_mul, List.length_cons]
        rw [hks, Nat.mul_assoc] at hcount
        have := Nat.eq_of_mul_eq_mul_left (by decide) hcount
        rw [this, Nat.mul_comm]
    · next hirregular =>
      obtain ⟨fields, hfields, hcompound⟩ := Option.bind_eq_some_iff.mp h
      obtain ⟨rfl, -, -⟩ := compoundType_eq_some hcompound
      have hr : isRegular = false := by simpa using hirregular
      subst hr
      have hwalk : B.dumpWalk V capacity (.aggregate name false children) =
          B.dumpEach V capacity children := by
        funext st
        rw [dumpWalk]
        rfl
      have hall : ∀ c ∈ children,
          Advances (B.dumpWalk V capacity c) (B.typeCount c) (¬ B.Uniform c) := by
        intro c hc
        cases hs : B.skipStat c with
        | true =>
          exact (advances_skipped hs).mono (Nat.zero_le _)
            fun hno => absurd (uniform_of_skipStat hs) hno
        | false =>
          obtain ⟨childType, hchild, hle⟩ := getFields_size_le hfields hc hs
          exact ih c hc hchild hs (fun hsum => hle.trans_lt (hsize hsum))
            (typeCount_eq hchild hs)
      rw [hwalk]
      refine (advances_each hall).mono ?_ fun hno => .inl ?_
      · have := typeCount_fields hfields
        rw [H5Type.size] at hcount
        omega
      · by_contra hcontra
        push Not at hcontra
        refine hno ⟨fun hr => ?_, allUniform_iff.mpr hcontra⟩
        cases hr

/-- A record has the value of each of the words of its type where the type has it. -/
def Matches (B : HDF5Backend) (t : H5Type) (V : StatValues) (record : Nat → BitVec 64) : Prop :=
  ∀ l ∈ t.leaves 0, record (l.2 / 8) = B.leafValue V B.rootStat l.1

/-- All dumps go through, inside the buffer, and give one matching record each. -/
def DumpsMatch (B : HDF5Backend) (t : H5Type) : Prop :=
  ∀ dataBuf ds, ∃ st, B.dumps t.size ds (init dataBuf) = .ok st ∧
    List.Forall₂ (fun d record => B.Matches t d.1 record) ds
      (st.table ++ records t.size st.bufferedRecords st.dataBuf)

theorem skipStat_root : B.skipStat B.rootStat = false := by
  have h := B.root_isAggregate
  cases hroot : B.rootStat with
  | aggregate name isRegular children => simp [skipStat, Stat.isVector]
  | _ => simp [hroot, Stat.isAggregate] at h

theorem leaf_offset {l : List H5Step × Nat} {w j : Nat} (hw : t.Layout w)
    (hj : (t.leaves 0)[j]? = some l) : j < w ∧ l.2 = 8 * j := by
  have hoffset := congrArg (·[j]?) (hw.offsets 0)
  simp only [List.getElem?_map, hj, Option.map_some] at hoffset
  have hlt : j < w := by
    by_contra hge
    rw [List.getElem?_eq_none (by rw [List.length_range']; omega)] at hoffset
    cases hoffset
  rw [List.getElem?_range' hlt] at hoffset
  simp only [Option.some.injEq, Nat.zero_add] at hoffset
  exact ⟨hlt, hoffset⟩

theorem Matches.congr {w : Nat} (hw : t.Layout w) {record record' : Nat → BitVec 64}
    (h : B.Matches t V record) (heq : ∀ j < w, record' j = record j) : B.Matches t V record' := by
  intro l hl
  obtain ⟨j, hj⟩ := List.mem_iff_getElem?.mp hl
  obtain ⟨hlt, hoffset⟩ := leaf_offset hw hj
  have hdiv : l.2 / 8 = j := by omega
  have hmatch := h l hl
  rw [hdiv] at hmatch ⊢
  rw [heq j hlt, hmatch]

/-- What the walk has written is the record that the type describes. -/
theorem matches_of_written {w : Nat} (hw : t.Layout w) (ht : B.getH5Type B.rootStat = some t)
    (huniform : B.Uniform B.rootStat) {st st' : DumpState}
    (h : Written st st' (B.words V B.rootStat)) :
    B.Matches t V fun j => st'.dataBuf (st.curPtr + j) := by
  intro l hl
  obtain ⟨j, hj⟩ := List.mem_iff_getElem?.mp hl
  obtain ⟨hlt, hoffset⟩ := leaf_offset hw hj
  have hdiv : l.2 / 8 = j := by omega
  have hvalue : (B.words V B.rootStat)[j]? = some (B.leafValue V B.rootStat l.1) := by
    rw [words_eq_leaves ht skipStat_root huniform 0, List.getElem?_map, hj, Option.map_some]
  obtain ⟨hjlt, -⟩ := List.getElem?_eq_some_iff.mp hvalue
  rw [hdiv]
  exact Option.some.inj ((h.words j hjlt).symm.trans hvalue)

theorem forall₂_congr {T U : Type} {P : T → U → Prop} {S : U → U → Prop} {xs : List T}
    {ys zs : List U} (h : List.Forall₂ P xs ys) (hs : List.Forall₂ S ys zs)
    (hps : ∀ x y z, P x y → S y z → P x z) : List.Forall₂ P xs zs := by
  induction h generalizing zs with
  | nil =>
    cases hs
    exact .nil
  | cons hp _ ih =>
    cases hs with
    | cons hs hrest => exact .cons (hps _ _ _ hp hs) (ih hrest)

theorem records_zero (recordSize : Nat) (dataBuf : Nat → BitVec 64) :
    records recordSize 0 dataBuf = [] := rfl

theorem records_succ (recordSize n : Nat) (dataBuf : Nat → BitVec 64) :
    records recordSize (n + 1) dataBuf = records recordSize n dataBuf ++
      [fun j => dataBuf (n * (recordSize / 8) + j)] := by
  rw [records, List.range_succ, List.map_append]
  rfl

/-- The buffer between dumps, after those of `past`. -/
structure Buffered (B : HDF5Backend) (t : H5Type) (w : Nat) (past : List (StatValues × Bool))
    (st : State) : Prop where
  lt : st.bufferedRecords < B.recordsPerWrite t.size
  curPtr : st.curPtr = st.bufferedRecords * w
  records : List.Forall₂ (fun d record => B.Matches t d.1 record) past
    (st.table ++ records t.size st.bufferedRecords st.dataBuf)

theorem Buffered.written {w : Nat} (hw : t.Layout w) {past : List (StatValues × Bool)}
    {st : State} (h : Buffered B t w past st) {d : StatValues × Bool} {st' : DumpState}
    (hbefore : ∀ i < st.curPtr, st'.dataBuf i = st.dataBuf i)
    (hmatch : B.Matches t d.1 fun j => st'.dataBuf (st.curPtr + j)) :
    List.Forall₂ (fun d record => B.Matches t d.1 record) (past ++ [d])
      (st.table ++ HDF5Backend.records t.size (st.bufferedRecords + 1) st'.dataBuf) := by
  have hdiv : t.size / 8 = w := by
    have := hw.size
    omega
  have hsame : List.Forall₂ (fun r r' : Nat → BitVec 64 => ∀ j < w, r' j = r j)
      (st.table ++ HDF5Backend.records t.size st.bufferedRecords st.dataBuf)
      (st.table ++ HDF5Backend.records t.size st.bufferedRecords st'.dataBuf) := by
    refine List.rel_append (List.forall₂_same.mpr fun r _ j _ => rfl) ?_
    rw [HDF5Backend.records, HDF5Backend.records, List.forall₂_map_left_iff,
      List.forall₂_map_right_iff, List.forall₂_same]
    intro k hk j hj
    rw [List.mem_range] at hk
    refine hbefore _ ?_
    rw [hdiv, h.curPtr]
    calc k * w + j < (k + 1) * w := by
          rw [Nat.succ_mul]
          omega
      _ ≤ st.bufferedRecords * w := Nat.mul_le_mul_right w hk
  have hpast := forall₂_congr h.records hsame fun _ _ _ hm heq => hm.congr hw heq
  rw [records_succ, ← List.append_assoc]
  refine List.rel_append hpast (.cons ?_ .nil)
  rw [hdiv, ← h.curPtr]
  exact hmatch

theorem bufSize_words {w : Nat} (hw : t.Layout w) : B.bufSize t.size / 8 =
    B.recordsPerWrite t.size * w + if B.sumRegularAggregates then w else 0 := by
  rw [bufSize, hw.size]
  have hmul : B.recordsPerWrite (8 * w) * (8 * w) = 8 * (B.recordsPerWrite (8 * w) * w) := by
    ring
  split <;> omega

theorem root_extent {w : Nat} (hw : t.Layout w) (ht : B.getH5Type B.rootStat = some t)
    (huniform : B.Uniform B.rootStat) (hsum : B.sumRegularAggregates = false) :
    B.extent B.rootStat = w := by
  have hcount := wordCount_eq ht skipStat_root huniform
  have hsize := hw.size
  rw [extent_of_not_sum hsum]
  omega

/-- A dump of a uniform tree whose walk has the space behind the records that it needs. -/
theorem Buffered.dump {w : Nat} (hw : t.Layout w) (ht : B.getH5Type B.rootStat = some t)
    (huniform : B.Uniform B.rootStat)
    (hsize : B.sumRegularAggregates = true → t.size < 8 * 2 ^ 32)
    (hextent : B.sumRegularAggregates = true → B.extent B.rootStat ≤ 2 * w)
    {past : List (StatValues × Bool)} {st : State} (h : Buffered B t w past st)
    (d : StatValues × Bool) :
    ∃ st', B.dump t.size d.1 d.2 st = .ok st' ∧ Buffered B t w (past ++ [d]) st' := by
  have hlt := h.lt
  have hmod : (st.bufferedRecords + 1) % 2 ^ 32 = st.bufferedRecords + 1 := by
    have : B.recordsPerWrite t.size < 2 ^ 32 := Nat.mod_lt _ (by decide)
    exact Nat.mod_eq_of_lt (by omega)
  have hspace : st.curPtr + B.extent B.rootStat ≤ B.bufSize t.size / 8 := by
    rw [bufSize_words hw, h.curPtr]
    have hmul : (st.bufferedRecords + 1) * w ≤ B.recordsPerWrite t.size * w :=
      Nat.mul_le_mul_right w hlt
    rw [Nat.succ_mul] at hmul
    cases hsum : B.sumRegularAggregates with
    | true =>
      have := hextent hsum
      rw [if_pos rfl]
      omega
    | false =>
      rw [root_extent hw ht huniform hsum, if_neg (by decide)]
      omega
  obtain ⟨st₁, hst₁, hwritten⟩ :=
    (dumpWalk_walks ht skipStat_root huniform hsize).fits ⟨st.dataBuf, st.curPtr⟩ hspace
  have hlen : (B.words d.1 B.rootStat).length = w := by
    rw [words_length ht skipStat_root huniform]
    have := wordCount_eq ht skipStat_root huniform
    have := hw.size
    omega
  have hcur : st₁.curPtr = (st.bufferedRecords + 1) * w := by
    rw [hwritten.curPtr, hlen, Nat.succ_mul]
    exact congrArg (· + w) h.curPtr
  have hassert : (st.bufferedRecords + 1) * t.size / 8 = st₁.curPtr := by
    have hmul : (st.bufferedRecords + 1) * (8 * w) = 8 * ((st.bufferedRecords + 1) * w) := by
      ring
    rw [hw.size, hcur, hmul, Nat.mul_div_cancel_left _ (by decide)]
  have hrecords := h.written hw hwritten.before
    (matches_of_written hw ht huniform hwritten)
  rw [HDF5Backend.dump, hst₁]
  simp only [Except.bind, hmod, hassert, if_true]
  split
  · refine ⟨_, rfl, ?_, (Nat.zero_mul w).symm, ?_⟩
    · exact Nat.zero_lt_of_lt hlt
    · rw [records_zero, List.append_nil]
      exact hrecords
  · next hkeep =>
    rw [not_or] at hkeep
    refine ⟨_, rfl, ?_, hcur, hrecords⟩
    exact Nat.lt_of_le_of_ne hlt hkeep.1

theorem Buffered.dumps {w : Nat} (hw : t.Layout w) (ht : B.getH5Type B.rootStat = some t)
    (huniform : B.Uniform B.rootStat)
    (hsize : B.sumRegularAggregates = true → t.size < 8 * 2 ^ 32)
    (hextent : B.sumRegularAggregates = true → B.extent B.rootStat ≤ 2 * w)
    {past : List (StatValues × Bool)} {st : State} (h : Buffered B t w past st)
    (ds : List (StatValues × Bool)) :
    ∃ st', B.dumps t.size ds st = .ok st' ∧ Buffered B t w (past ++ ds) st' := by
  induction ds generalizing past st with
  | nil => exact ⟨st, rfl, by rwa [List.append_nil]⟩
  | cons d ds ih =>
    obtain ⟨st₁, hst₁, h₁⟩ := h.dump hw ht huniform hsize hextent d
    obtain ⟨st', hst', h'⟩ := ih h₁
    refine ⟨st', ?_, by simpa using h'⟩
    rw [HDF5Backend.dumps, hst₁]
    exact hst'

theorem dumps_append (recordSize : Nat) (ds ds' : List (StatValues × Bool)) (st : State) :
    B.dumps recordSize (ds ++ ds') st =
      (B.dumps recordSize ds st).bind (B.dumps recordSize ds') := by
  induction ds generalizing st with
  | nil => rfl
  | cons d ds ih =>
    rw [List.cons_append, HDF5Backend.dumps, HDF5Backend.dumps]
    cases B.dump recordSize d.1 d.2 st with
    | error f => rfl
    | ok st₁ => exact ih st₁

/-- A dump that goes through has walked through the tree, and to the end of a record. -/
theorem dump_ok {recordSize : Nat} {buffered : Bool} {st st' : State}
    (h : B.dump recordSize V buffered st = .ok st') :
    ∃ st₁, B.dumpWalk V (B.bufSize recordSize / 8) B.rootStat ⟨st.dataBuf, st.curPtr⟩ = .ok st₁ ∧
      (st.bufferedRecords + 1) % 2 ^ 32 * recordSize / 8 = st₁.curPtr ∧
      ((st.bufferedRecords + 1) % 2 ^ 32 ≠ B.recordsPerWrite recordSize → buffered = true →
        st'.curPtr = st₁.curPtr ∧ st'.bufferedRecords = (st.bufferedRecords + 1) % 2 ^ 32) := by
  rw [HDF5Backend.dump] at h
  cases hwalk : B.dumpWalk V (B.bufSize recordSize / 8) B.rootStat
      ⟨st.dataBuf, st.curPtr⟩ with
  | error f =>
    rw [hwalk] at h
    cases h
  | ok st₁ =>
    rw [hwalk] at h
    simp only [Except.bind] at h
    split at h
    · next hassert =>
      refine ⟨st₁, rfl, hassert, fun hne hbuf => ?_⟩
      rw [if_neg (not_or.mpr ⟨hne, by simp [hbuf]⟩)] at h
      cases h
      exact ⟨rfl, rfl⟩
    · cases h

/-- Buffered dumps that do not fill the buffer lie one after another. -/
theorem curPtr_of_dumps {w : Nat} (hw : t.Layout w) {dataBuf : Nat → BitVec 64} {k : Nat}
    (hk : k < B.recordsPerWrite t.size ∨ B.recordsPerWrite t.size = 0) (hlt : k < 2 ^ 32)
    {st : State}
    (hok : B.dumps t.size (List.replicate k (V, true)) (init dataBuf) = .ok st) :
    st.curPtr = k * w ∧ st.bufferedRecords = k := by
  induction k generalizing st with
  | zero =>
    cases hok
    exact ⟨(Nat.zero_mul w).symm, rfl⟩
  | succ k ih =>
    rw [List.replicate_succ', dumps_append] at hok
    cases hst : B.dumps t.size (List.replicate k (V, true)) (init dataBuf) with
    | error f =>
      rw [hst] at hok
      cases hok
    | ok st₁ =>
      rw [hst] at hok
      change (B.dump t.size V true st₁).bind _ = _ at hok
      obtain ⟨-, hn⟩ := ih (by omega) (by omega) hst
      cases hdump : B.dump t.size V true st₁ with
      | error f =>
        rw [hdump] at hok
        cases hok
      | ok st₂ =>
        rw [hdump] at hok
        cases hok
        have hmod : (st₁.bufferedRecords + 1) % 2 ^ 32 = k + 1 := by
          rw [hn]
          exact Nat.mod_eq_of_lt hlt
        obtain ⟨st₃, -, hassert, hnext⟩ := dump_ok hdump
        rw [hmod] at hassert hnext
        obtain ⟨hcur, hbuf⟩ := hnext (by omega) rfl
        refine ⟨?_, hbuf⟩
        have hmul : (k + 1) * (8 * w) = 8 * ((k + 1) * w) := by ring
        rw [hcur, ← hassert, hw.size, hmul, Nat.mul_div_cancel_left _ (by decide)]

/-- After `k` buffered dumps the next one needs its space in the buffer. -/
theorem extent_le_of_dumpsMatch {w : Nat} (hw : t.Layout w)
    (ht : B.getH5Type B.rootStat = some t) (huniform : B.Uniform B.rootStat)
    (hsize : B.sumRegularAggregates = true → t.size < 8 * 2 ^ 32) (h : B.DumpsMatch t) {k : Nat}
    (hk : k < B.recordsPerWrite t.size ∨ B.recordsPerWrite t.size = 0) (hlt : k < 2 ^ 32)
    (hcap : k * w ≤ B.bufSize t.size / 8) :
    k * w + B.extent B.rootStat ≤ B.bufSize t.size / 8 := by
  let V : StatValues := ⟨fun _ => 0, fun _ _ => 0⟩
  obtain ⟨st, hst, -⟩ := h (fun _ => 0) (List.replicate (k + 1) (V, true))
  rw [List.replicate_succ', dumps_append] at hst
  cases hst₁ : B.dumps t.size (List.replicate k (V, true)) (init fun _ => 0) with
  | error f =>
    rw [hst₁] at hst
    cases hst
  | ok st₁ =>
    rw [hst₁] at hst
    obtain ⟨hcur, -⟩ := curPtr_of_dumps hw hk hlt hst₁
    change (B.dump t.size V true st₁).bind _ = _ at hst
    cases hdump : B.dump t.size V true st₁ with
    | error f =>
      rw [hdump] at hst
      cases hst
    | ok st₂ =>
      obtain ⟨st₃, hwalk, -, -⟩ := dump_ok hdump
      by_contra hover
      have hwalks := @dumpWalk_walks B V B.rootStat t (B.bufSize t.size / 8) ht skipStat_root
        huniform hsize
      have hover' : B.bufSize t.size / 8 < st₁.curPtr + B.extent B.rootStat := by
        rw [hcur]
        omega
      have herror := hwalks.overflows ⟨st₁.dataBuf, st₁.curPtr⟩ (hcur.le.trans hcap) hover'
      rw [hwalk] at herror
      cases herror

theorem uniform_of_dumpsMatch {w : Nat} (hw : t.Layout w)
    (ht : B.getH5Type B.rootStat = some t)
    (hsize : B.sumRegularAggregates = true → t.size < 8 * 2 ^ 32) (h : B.DumpsMatch t) :
    B.Uniform B.rootStat := by
  let V : StatValues := ⟨fun _ => 0, fun _ _ => 0⟩
  obtain ⟨st, hst, -⟩ := h (fun _ => 0) [(V, true)]
  change (B.dump t.size V true (init fun _ => 0)).bind _ = _ at hst
  cases hdump : B.dump t.size V true (init fun _ => 0) with
  | error f =>
    rw [hdump] at hst
    cases hst
  | ok st₁ =>
    obtain ⟨st₂, hwalk, hassert, -⟩ := dump_ok hdump
    obtain ⟨m, hm, -, hshort⟩ := dumpWalk_advances ht skipStat_root hsize _ _ hwalk
    have hcount := typeCount_eq ht skipStat_root
    have hsize := hw.size
    change 1 * t.size / 8 = _ at hassert
    change _ = 0 + m at hm
    by_contra hno
    have := hshort hno
    omega

/-- The records of all dumps match their type, and the walk stays in the buffer, if and only if
no child of a regular aggregate is skipped, there is a record in the buffer, and a sum needs no
more space than a second record. -/
theorem dumps_match_iff (ht : B.getH5Type B.rootStat = some t)
    (hsize : B.sumRegularAggregates = true → t.size < 8 * 2 ^ 32) :
    B.DumpsMatch t ↔ B.Uniform B.rootStat ∧ B.recordsPerWrite t.size ≠ 0 ∧
      (B.sumRegularAggregates = true → 8 * B.extent B.rootStat ≤ 2 * t.size) := by
  obtain ⟨w, hw⟩ := layout_of_getH5Type ht
  have hpos := hw.pos
  have hwords := @bufSize_words B t w hw
  constructor
  · intro h
    have huniform := uniform_of_dumpsMatch hw ht hsize h
    have hneed : w ≤ B.extent B.rootStat := by
      let V : StatValues := ⟨fun _ => 0, fun _ _ => 0⟩
      have hle := (@dumpWalk_walks B V B.rootStat t 0 ht skipStat_root huniform hsize).length_le
      rw [words_length ht skipStat_root huniform] at hle
      have := wordCount_eq ht skipStat_root huniform
      have := hw.size
      omega
    have hrecords : B.recordsPerWrite t.size ≠ 0 := by
      intro hzero
      rw [hzero, Nat.zero_mul, Nat.zero_add] at hwords
      cases hsum : B.sumRegularAggregates with
      | true =>
        rw [hsum, if_pos rfl] at hwords
        have := extent_le_of_dumpsMatch hw ht huniform hsize h (k := 1) (.inr hzero) (by decide)
          (by omega)
        omega
      | false =>
        rw [hsum, if_neg (by decide)] at hwords
        have := extent_le_of_dumpsMatch hw ht huniform hsize h (k := 0) (.inr hzero) (by decide)
          (by omega)
        omega
    refine ⟨huniform, hrecords, fun hsum => ?_⟩
    rw [hsum, if_pos rfl] at hwords
    have hlt : B.recordsPerWrite t.size < 2 ^ 32 := Nat.mod_lt _ (by decide)
    obtain ⟨k, hk⟩ := Nat.exists_eq_succ_of_ne_zero hrecords
    have hmul : B.recordsPerWrite t.size * w = k * w + w := by rw [hk, Nat.succ_mul]
    have := extent_le_of_dumpsMatch hw ht huniform hsize h (k := k) (.inl (by omega)) (by omega)
      (by omega)
    have := hw.size
    omega
  · rintro ⟨huniform, hrecords, hextent⟩ dataBuf ds
    have hsize' := hw.size
    have hstart : Buffered B t w [] (init dataBuf) := by
      constructor
      · exact Nat.pos_of_ne_zero hrecords
      · exact (Nat.zero_mul w).symm
      · exact .nil
    obtain ⟨st, hst, hend⟩ := hstart.dumps hw ht huniform hsize
      (fun hsum => by have := hextent hsum; omega) ds
    exact ⟨st, hst, hend.records⟩

def core (id : Nat) : Stat := .aggregate "core" false [.scalar "cycles" id]

def proc (id : Nat) : Stat := .aggregate "proc" true [core id, core (id + 1)]

/-- Two processes of two cores, summed into a record of one word. -/
def nested : HDF5Backend where
  rootStat := .aggregate "root" false [.aggregate "procs" true [proc 0, proc 2]]
  bytesPerWrite := 0
  skipVectors := false
  sumRegularAggregates := true
  root_isAggregate := rfl

def nestedType : H5Type :=
  .compound 8 (.insert "procs" 0 (.compound 8 (.insert "cycles" 0 .ulong .nil)) .nil)

theorem nested_getH5Type : nested.getH5Type nested.rootStat = some nestedType := by
  simp [nested, proc, core, getH5Type, getFields, getRegularType, haveType, skipStat,
    Stat.isVector, Stat.name, getBaseH5Type, compoundType, insertMembers, H5Type.size, nestedType]

theorem dumps_match_iff_nested : nested.DumpsMatch nestedType ↔
    nested.Uniform nested.rootStat ∧ nested.recordsPerWrite nestedType.size ≠ 0 ∧
      (nested.sumRegularAggregates = true →
        8 * nested.extent nested.rootStat ≤ 2 * nestedType.size) :=
  dumps_match_iff nested_getH5Type fun _ => by decide

/-- The second core of the second process goes to the third of two words. -/
theorem nested_overruns :
    nested.getH5Type nested.rootStat = some nestedType ∧ ¬ nested.DumpsMatch nestedType := by
  refine ⟨nested_getH5Type, fun h => ?_⟩
  let V : StatValues := ⟨fun _ => 1, fun _ _ => 1⟩
  obtain ⟨st, hst, -⟩ := h (fun _ => 0) [(V, true)]
  have herror : nested.dumps nestedType.size [(V, true)] (init fun _ => 0) =
      .error .outOfBounds := rfl
  rw [herror] at hst
  cases hst

end HDF5Backend

end ZSim
