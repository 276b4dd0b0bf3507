import ZSim.SortTrace

/-! The sorter writes a merge of the children's queues. What a child has still to be written is
its queue and its records in the unread part of the trace. -/

namespace ZSim.AccessTrace

open KWayMerge

/-- The records of a child, in order. -/
def childAccs (T : List AccessRecord) (child : Nat) : List AccessRecord :=
  T.filter (·.childId.toNat = child)

theorem childAccs_append (T U : List AccessRecord) (child : Nat) :
    childAccs (T ++ U) child = childAccs T child ++ childAccs U child := List.filter_append ..

theorem childAccs_cons_self (acc : AccessRecord) (T : List AccessRecord) :
    childAccs (acc :: T) acc.childId.toNat = acc :: childAccs T acc.childId.toNat :=
  List.filter_cons_of_pos (decide_eq_true rfl)

theorem childAccs_cons_of_ne {acc : AccessRecord} {child : Nat} (h : acc.childId.toNat ≠ child)
    (T : List AccessRecord) : childAccs (acc :: T) child = childAccs T child :=
  List.filter_cons_of_neg (by simpa using h)

theorem mem_childAccs {T : List AccessRecord} {child : Nat} {acc : AccessRecord} :
    acc ∈ childAccs T child ↔ acc ∈ T ∧ acc.childId.toNat = child := by
  simp [childAccs]

/-- A complete trace file with the records `T`. -/
structure TraceFile.Holds (file : TraceFile) (T : List AccessRecord) : Prop where
  finished : file.finished ≠ 0
  records : file.accs.mapM PackedAccessRecord.unpack = some T
  children : ∀ acc ∈ T, acc.childId < file.numChildren

/-- The heap holds the heads of the `n` queues. -/
structure Heads (n : Nat) (Q : Nat → List AccessRecord) (heads : List (Int ×ₗ Nat)) : Prop where
  owner : ∀ i, ∀ acc ∈ Q i, acc.childId.toNat = i
  bound : ∀ i, Q i ≠ [] → i < n
  mem_iff : ∀ k, k ∈ heads ↔ ∃ i acc, (Q i).head? = some acc ∧ k = acc.headKey
  nodup : (heads.map fun k => (ofLex k).2).Nodup

namespace Heads

variable {n : Nat} {Q : Nat → List AccessRecord} {heads : List (Int ×ₗ Nat)}

theorem mem_child (h : Heads n Q heads) {c : Nat} :
    c ∈ heads.map (fun k => (ofLex k).2) ↔ Q c ≠ [] := by
  constructor
  · intro hc
    obtain ⟨k, hk, rfl⟩ := List.mem_map.mp hc
    obtain ⟨i, acc, hi, rfl⟩ := (h.mem_iff k).mp hk
    have hmem : acc ∈ Q i := List.mem_of_head? hi
    have hown : (ofLex acc.headKey).2 = i := h.owner i acc hmem
    exact hown ▸ List.ne_nil_of_mem hmem
  · intro hc
    obtain ⟨acc, q, hq⟩ := List.exists_cons_of_ne_nil hc
    have hown : acc.childId.toNat = c := h.owner c acc (hq ▸ List.mem_cons_self)
    exact List.mem_map.mpr ⟨acc.headKey, (h.mem_iff _).mpr ⟨c, acc, by rw [hq]; rfl, rfl⟩, hown⟩

theorem subset_range (h : Heads n Q heads) :
    (heads.map fun k => (ofLex k).2) ⊆ List.range n := fun _ hc =>
  List.mem_range.mpr (h.bound _ (h.mem_child.mp hc))

theorem length_le (h : Heads n Q heads) : heads.length ≤ n := by
  simpa using (List.subperm_of_subset h.nodup h.subset_range).length_le

/-- With as many heads as children, no queue is empty. -/
theorem full (h : Heads n Q heads) (hfull : heads.length = n) {i : Nat} (hi : i < n) :
    Q i ≠ [] := by
  have hperm := (List.subperm_of_subset h.nodup h.subset_range).perm_of_length_le (by simp [hfull])
  exact h.mem_child.mp (hperm.mem_iff.mpr (List.mem_range.mpr hi))

theorem eq_nil (h : Heads n Q []) (i : Nat) : Q i = [] := by
  by_contra hi
  exact List.not_mem_nil (h.mem_child.mpr hi)

theorem mem_ne_iff (h : Heads n Q heads) {c : Nat} {k : Int ×ₗ Nat} :
    (k ∈ heads ∧ (ofLex k).2 ≠ c) ↔
      ∃ i acc, i ≠ c ∧ (Q i).head? = some acc ∧ k = acc.headKey := by
  rw [h.mem_iff]
  constructor
  · rintro ⟨⟨i, acc, hi, rfl⟩, hne⟩
    have hown : (ofLex acc.headKey).2 = i := h.owner i acc (List.mem_of_head? hi)
    exact ⟨i, acc, hown ▸ hne, hi, rfl⟩
  · rintro ⟨i, acc, hne, hi, rfl⟩
    have hown : (ofLex acc.headKey).2 = i := h.owner i acc (List.mem_of_head? hi)
    exact ⟨⟨i, acc, hi, rfl⟩, hown.symm ▸ hne⟩

/-- One queue is replaced, and the heap follows. -/
theorem replace (h : Heads n Q heads) {c : Nat} (hc : c < n) {q : List AccessRecord}
    (hq : ∀ acc ∈ q, acc.childId.toNat = c) {heads' : List (Int ×ₗ Nat)}
    (hmem : ∀ k, k ∈ heads' ↔
      (∃ acc, q.head? = some acc ∧ k = acc.headKey) ∨ k ∈ heads ∧ (ofLex k).2 ≠ c)
    (hnodup : (heads'.map fun k => (ofLex k).2).Nodup) :
    Heads n (Function.update Q c q) heads' := by
  refine ⟨?_, ?_, ?_, hnodup⟩
  · intro i acc hacc
    by_cases hi : i = c
    · subst hi
      exact hq acc (by rwa [Function.update_self] at hacc)
    · exact h.owner i acc (by rwa [Function.update_of_ne hi] at hacc)
  · intro i hne
    by_cases hi : i = c
    · exact hi ▸ hc
    · exact h.bound i (by rwa [Function.update_of_ne hi] at hne)
  · intro k
    rw [hmem, h.mem_ne_iff]
    constructor
    · rintro (⟨acc, hacc, hk⟩ | ⟨i, acc, hi, hacc, hk⟩)
      · exact ⟨c, acc, by rwa [Function.update_self], hk⟩
      · exact ⟨i, acc, by rwa [Function.update_of_ne hi], hk⟩
    · rintro ⟨i, acc, hacc, hk⟩
      by_cases hi : i = c
      · subst hi
        exact .inl ⟨acc, by rwa [Function.update_self] at hacc, hk⟩
      · exact .inr ⟨i, acc, hi, by rwa [Function.update_of_ne hi] at hacc, hk⟩

/-- A first record is pushed. -/
theorem push (h : Heads n Q heads) {acc : AccessRecord} (hlt : acc.childId.toNat < n)
    (hnil : Q acc.childId.toNat = []) :
    Heads n (Function.update Q acc.childId.toNat [acc]) (acc.headKey :: heads) := by
  have hnew : acc.childId.toNat ∉ heads.map fun k => (ofLex k).2 := fun hc =>
    h.mem_child.mp hc hnil
  refine h.replace hlt (by simp) (fun k => ?_) (List.nodup_cons.mpr ⟨hnew, h.nodup⟩)
  rw [List.mem_cons]
  constructor
  · rintro (rfl | hk)
    · exact .inl ⟨acc, rfl, rfl⟩
    · exact .inr ⟨hk, fun hc => hnew (List.mem_map.mpr ⟨k, hk, hc⟩)⟩
  · rintro (⟨b, hb, rfl⟩ | ⟨hk, -⟩)
    · cases hb
      exact .inl rfl
    · exact .inr hk

/-- A later record leaves the head in place. -/
theorem append (h : Heads n Q heads) {acc : AccessRecord} (hne : Q acc.childId.toNat ≠ []) :
    Heads n (Function.update Q acc.childId.toNat (Q acc.childId.toNat ++ [acc])) heads := by
  refine h.replace (h.bound _ hne) ?_ (fun k => ?_) h.nodup
  · intro b hb
    rcases List.mem_append.mp hb with hb | hb
    · exact h.owner _ b hb
    · rw [List.mem_singleton.mp hb]
  · rw [List.head?_append_of_ne_nil _ hne, h.mem_ne_iff, h.mem_iff]
    constructor
    · rintro ⟨i, b, hb, hk⟩
      by_cases hi : i = acc.childId.toNat
      · exact .inl ⟨b, hi ▸ hb, hk⟩
      · exact .inr ⟨i, b, hi, hb, hk⟩
    · rintro (⟨b, hb, hk⟩ | ⟨i, b, -, hb, hk⟩)
      · exact ⟨_, b, hb, hk⟩
      · exact ⟨i, b, hb, hk⟩

/-- The key of a head leaves the heap, and the key of the next record enters it. -/
theorem pop (h : Heads n Q heads) {acc : AccessRecord} {q : List AccessRecord}
    (hq : Q acc.childId.toNat = acc :: q) :
    Heads n (Function.update Q acc.childId.toNat q)
      ((q.head?.map AccessRecord.headKey).toList ++ heads.erase acc.headKey) := by
  have hne : Q acc.childId.toNat ≠ [] := by simp [hq]
  have hkey : acc.headKey ∈ heads := (h.mem_iff _).mpr ⟨_, acc, by rw [hq]; rfl, rfl⟩
  have hinj {k : Int ×ₗ Nat} (hk : k ∈ heads) (hc : (ofLex k).2 = acc.childId.toNat) :
      k = acc.headKey := List.inj_on_of_nodup_map h.nodup hk hkey hc
  have hmem {k : Int ×ₗ Nat} :
      k ∈ heads.erase acc.headKey ↔ k ∈ heads ∧ (ofLex k).2 ≠ acc.childId.toNat := by
    rw [(List.Nodup.of_map _ h.nodup).mem_erase_iff]
    constructor
    · exact fun ⟨hne, hk⟩ => ⟨hk, fun hc => hne (hinj hk hc)⟩
    · exact fun ⟨hk, hc⟩ => ⟨fun he => hc (he ▸ rfl), hk⟩
  have hown : ∀ b ∈ q, b.childId.toNat = acc.childId.toNat := fun b hb =>
    h.owner _ b (hq ▸ List.mem_cons_of_mem acc hb)
  have herase : ((heads.erase acc.headKey).map fun k => (ofLex k).2).Nodup :=
    h.nodup.sublist (List.erase_sublist.map _)
  refine h.replace (h.bound _ hne) hown (fun k => ?_) ?_
  · rw [List.mem_append, hmem]
    simp [eq_comm]
  · cases q with
    | nil => simpa using herase
    | cons b q =>
      have hb : (ofLex b.headKey).2 = acc.childId.toNat := hown b List.mem_cons_self
      refine List.nodup_cons.mpr ⟨fun hc => ?_, herase⟩
      obtain ⟨k, hk, hkb⟩ := List.mem_map.mp hc
      exact (hmem.mp hk).2 (hkb.trans hb)

end Heads

namespace SortState

def queue (s : SortState) (child : Nat) : List AccessRecord := (s.accs child).getD []

def pending (s : SortState) (rest : List AccessRecord) (child : Nat) : List AccessRecord :=
  s.queue child ++ childAccs rest child

/-- `rest` is still to be read and `out` has been written. -/
structure Inv (n : BitVec 32) (T : List AccessRecord) (s : SortState)
    (rest out : List AccessRecord) : Prop where
  heads : Heads s.numChildren s.queue s.heads
  nonempty : ∀ i, s.accs i ≠ some []
  good : s.tr.Good
  unread : s.tr.rest = rest.map AccessRecord.pack
  narrow : ∀ acc ∈ rest, acc.narrowed = acc
  children : ∀ acc ∈ rest, acc.childId.toNat < s.numChildren
  opened : s.tw.Open
  written : s.tw.written = out.map AccessRecord.pack
  header : s.tw.file.numChildren = n
  streams : s.tr.numChildren = n
  read : s.readRecords + rest.length = T.length
  wrote : s.writtenRecords = out.length
  total : s.totalRecords = T.length
  conserve : ∀ i, childAccs out i ++ s.pending rest i = childAccs T i
  merges : ∀ o, Merges AccessRecord.headKey (s.pending rest) o →
    Merges AccessRecord.headKey (childAccs T) (out ++ o)

variable {n : BitVec 32} {T rest out : List AccessRecord} {s : SortState}

theorem progress_of_pos (h : 0 < s.totalRecords) (count : Nat) : s.progress count = some () := by
  simp [progress, printProgress, Nat.ne_of_gt h]

theorem enqueue_none {acc : AccessRecord} (h : s.accs acc.childId.toNat = none) :
    s.enqueue acc = { s with
      accs := Function.update s.accs acc.childId.toNat (some [acc])
      heads := acc.headKey :: s.heads } := by
  simp [enqueue, h]

theorem enqueue_some {acc : AccessRecord} {q : List AccessRecord}
    (h : s.accs acc.childId.toNat = some q) :
    s.enqueue acc = { s with
      accs := Function.update s.accs acc.childId.toNat (some (q ++ [acc])) } := by
  simp [enqueue, h]

/-- What a new queue pointer does to the queues. -/
theorem queue_update {s s' : SortState} {c : Nat} {q : Option (List AccessRecord)}
    (h : s'.accs = Function.update s.accs c q) :
    s'.queue = Function.update s.queue c (q.getD []) := by
  funext i
  by_cases hi : i = c
  · subst hi
    simp [queue, h]
  · simp [queue, h, hi]

theorem Inv.enqueue {acc : AccessRecord} (h : Inv n T s (acc :: rest) out) :
    Heads s.numChildren (s.enqueue acc).queue (s.enqueue acc).heads ∧
      (∀ i, (s.enqueue acc).accs i ≠ some []) ∧
      (s.enqueue acc).pending rest = s.pending (acc :: rest) := by
  have hlt := h.children acc List.mem_cons_self
  have hpending {q : List AccessRecord} (hq : s.queue acc.childId.toNat ++ [acc] = q) :
      (fun i => Function.update s.queue acc.childId.toNat q i ++ childAccs rest i)
        = s.pending (acc :: rest) := by
    funext i
    by_cases hi : acc.childId.toNat = i
    · subst hi
      rw [Function.update_self, pending, childAccs_cons_self, ← hq, List.append_assoc,
        List.singleton_append]
    · rw [Function.update_of_ne (Ne.symm hi), pending, childAccs_cons_of_ne hi]
  have hnonempty {q : List AccessRecord} (hq : q ≠ []) (i : Nat) :
      Function.update s.accs acc.childId.toNat (some q) i ≠ some [] := by
    by_cases hi : i = acc.childId.toNat
    · subst hi
      simpa using hq
    · rw [Function.update_of_ne hi]
      exact h.nonempty i
  cases hq : s.accs acc.childId.toNat with
  | none =>
    have hnil : s.queue acc.childId.toNat = [] := by simp [queue, hq]
    have haccs : (s.enqueue acc).accs = Function.update s.accs acc.childId.toNat (some [acc]) := by
      rw [enqueue_none hq]
    have hqueue : (s.enqueue acc).queue = Function.update s.queue acc.childId.toNat [acc] :=
      queue_update haccs
    refine ⟨?_, ?_, ?_⟩
    · rw [hqueue, enqueue_none hq]
      exact h.heads.push hlt hnil
    · rw [haccs]
      exact hnonempty (List.cons_ne_nil _ _)
    · rw [← hpending (q := [acc]) (by rw [hnil]; rfl), ← hqueue]
      rfl
  | some q =>
    have hsome : s.queue acc.childId.toNat = q := by simp [queue, hq]
    have hne : q ≠ [] := fun hnil => h.nonempty _ (hnil ▸ hq)
    have haccs : (s.enqueue acc).accs
        = Function.update s.accs acc.childId.toNat (some (q ++ [acc])) := by rw [enqueue_some hq]
    have hqueue : (s.enqueue acc).queue
        = Function.update s.queue acc.childId.toNat (q ++ [acc]) := queue_update haccs
    refine ⟨?_, ?_, ?_⟩
    · rw [hqueue, enqueue_some hq, ← hsome]
      exact h.heads.append (by rwa [hsome])
    · rw [haccs]
      exact hnonempty (by simp)
    · rw [← hpending (q := q ++ [acc]) (by rw [hsome]), ← hqueue]
      rfl

theorem readOne_spec {acc : AccessRecord} (h : Inv n T s (acc :: rest) out) :
    ∃ s', s.readOne = some s' ∧ Inv n T s' rest out ∧ s'.numChildren = s.numChildren := by
  have hp : acc.pack.unpack = some acc := by
    rw [AccessRecord.unpack_pack, h.narrow acc List.mem_cons_self]
  obtain ⟨tr, hread, hgood, hrest, hrecords, hchildren⟩ :=
    AccessTraceReader.read_spec h.good (h.unread.trans List.map_cons) hp
  have hlen := h.read
  rw [List.length_cons] at hlen
  have hnum : tr.numChildren.toNat = s.numChildren := congrArg BitVec.toNat hchildren
  have htotal : tr.numRecords = T.length := hrecords.trans h.total
  have hcomm : SortState.enqueue { s with tr := tr, readRecords := s.readRecords + 1 } acc
      = { s.enqueue acc with tr := tr, readRecords := s.readRecords + 1 } := by
    cases hq : s.accs acc.childId.toNat <;> simp [SortState.enqueue, hq]
  have hkeep : (s.enqueue acc).tw = s.tw ∧ (s.enqueue acc).writtenRecords = s.writtenRecords := by
    cases hq : s.accs acc.childId.toNat <;> simp [SortState.enqueue, hq]
  obtain ⟨hheads, hnonempty, hpending⟩ := h.enqueue
  refine ⟨{ s.enqueue acc with tr := tr, readRecords := s.readRecords + 1 }, ?_, ?_, hnum⟩
  · have hprogress := progress_of_pos (s := { s with tr := tr, readRecords := s.readRecords + 1 })
      (show 0 < tr.numRecords by omega) (s.readRecords + 1)
    have hlt := h.children acc List.mem_cons_self
    rw [← hcomm]
    simp [readOne, hread, hprogress, hlt]
  · exact {
      heads := by
        show Heads tr.numChildren.toNat _ _
        rw [hnum]
        exact hheads
      nonempty := hnonempty
      good := hgood
      unread := hrest
      narrow := fun b hb => h.narrow b (List.mem_cons_of_mem acc hb)
      children := fun b hb => by
        show b.childId.toNat < tr.numChildren.toNat
        rw [hnum]
        exact h.children b (List.mem_cons_of_mem acc hb)
      opened := hkeep.1.symm ▸ h.opened
      written := hkeep.1.symm ▸ h.written
      header := hkeep.1.symm ▸ h.header
      streams := hchildren.trans h.streams
      read := by
        show s.readRecords + 1 + rest.length = T.length
        omega
      wrote := hkeep.2.trans h.wrote
      total := htotal
      conserve := fun i => (congrArg (childAccs out i ++ ·) (congrFun hpending i)).trans
        (h.conserve i)
      merges := fun o ho => h.merges o (hpending ▸ ho) }

/-- A round of reads ends at the end of the trace or after reading. -/
theorem readSome_spec (count : Nat) (h : Inv n T s rest out) (hne : rest ≠ []) :
    ∃ s' rest', readSome (count + 1) s = some s' ∧ Inv n T s' rest' out ∧
      rest'.length < rest.length ∧ s'.numChildren = s.numChildren := by
  induction count generalizing s rest with
  | zero =>
    obtain ⟨acc, rest, rfl⟩ := List.exists_cons_of_ne_nil hne
    obtain ⟨s', hone, hinv, hnum⟩ := readOne_spec h
    refine ⟨s', rest, ?_, hinv, Nat.lt_succ_self _, hnum⟩
    simp [readSome, hone]
  | succ count ih =>
    obtain ⟨acc, rest, rfl⟩ := List.exists_cons_of_ne_nil hne
    obtain ⟨s₁, hone, hinv, hnum⟩ := readOne_spec h
    cases hend : s₁.tr.empty with
    | true =>
      refine ⟨s₁, rest, ?_, hinv, Nat.lt_succ_self _, hnum⟩
      rw [readSome, hone]
      simp [hend]
    | false =>
      have hrest : rest ≠ [] := by
        rintro rfl
        have := hinv.good.empty_iff.mpr hinv.unread
        simp [hend] at this
      obtain ⟨s', rest', hsome, hinv', hlt, hnum'⟩ := ih hinv hrest
      refine ⟨s', rest', ?_, hinv', Nat.lt_succ_of_lt hlt, hnum'.trans hnum⟩
      rw [readSome, hone]
      simpa [hend] using hsome

/-- When emitting is allowed, the top of the heap has the greatest key of all the records that
are next for their child, queued or not. -/
theorem Inv.top_max (h : Inv n T s rest out) (hmay : s.mayEmit = true) {k : Int ×ₗ Nat}
    (htop : ∀ k' ∈ s.heads, k' ≤ k) {j : Nat} {b : AccessRecord} {bs : List AccessRecord}
    (hj : s.pending rest j = b :: bs) : b.headKey ≤ k := by
  cases hq : s.queue j with
  | cons b' q =>
    rw [pending, hq, List.cons_append] at hj
    obtain ⟨rfl, -⟩ := List.cons.inj hj
    exact htop _ ((h.heads.mem_iff _).mpr ⟨j, b', by rw [hq]; rfl, rfl⟩)
  | nil =>
    rw [pending, hq, List.nil_append] at hj
    obtain ⟨hb, hown⟩ := mem_childAccs.mp (hj ▸ List.mem_cons_self)
    have hunread : s.tr.empty = false := by
      rw [← Bool.not_eq_true, h.good.empty_iff, h.unread]
      simpa using List.ne_nil_of_mem hb
    have hfull : s.heads.length = s.numChildren := by simpa [mayEmit, hunread] using hmay
    exact absurd hq (h.heads.full hfull (hown ▸ h.children b hb))

theorem emit_spec (h : Inv n T s rest out) (hmay : s.mayEmit = true) (hne : s.heads ≠ []) :
    ∃ s' acc, s.emit = some s' ∧ Inv n T s' rest (out ++ [acc]) ∧ s'.tr = s.tr := by
  obtain ⟨k, hk⟩ := Option.isSome_iff_exists.mp (List.isSome_max?_of_ne_nil hne)
  obtain ⟨hmem, htop⟩ := List.max?_eq_some_iff.mp hk
  obtain ⟨i, acc, hi, rfl⟩ := (h.heads.mem_iff k).mp hmem
  obtain rfl : acc.childId.toNat = i := h.heads.owner i acc (List.mem_of_head? hi)
  obtain ⟨q, hq⟩ := List.head?_eq_some_iff.mp hi
  have haccs : s.accs acc.childId.toNat = some (acc :: q) := by
    cases hs : s.accs acc.childId.toNat <;> simp_all [queue]
  obtain ⟨tw, hwrite, hopen, hwritten, hheader⟩ := AccessTraceWriter.write_spec acc h.opened
  have htotal : 0 < s.totalRecords := by
    have hin : acc ∈ childAccs T acc.childId.toNat := by
      rw [← h.conserve, pending, hq]
      simp
    rw [h.total]
    exact List.length_pos_of_mem (mem_childAccs.mp hin).1
  let s' : SortState := { s with
    tw := tw
    accs := Function.update s.accs acc.childId.toNat (if q = [] then none else some q)
    heads := (q.head?.map AccessRecord.headKey).toList ++ s.heads.erase acc.headKey
    writtenRecords := s.writtenRecords + 1 }
  have hqueue : s'.queue = Function.update s.queue acc.childId.toNat q := by
    rw [@queue_update s s' _ _ rfl]
    cases q <;> simp
  have hpending : s'.pending rest
      = Function.update (s.pending rest) acc.childId.toNat (q ++ childAccs rest acc.childId.toNat) := by
    funext i
    rw [pending, hqueue]
    by_cases hi : i = acc.childId.toNat
    · subst hi
      rw [Function.update_self, Function.update_self]
    · rw [Function.update_of_ne hi, Function.update_of_ne hi, pending]
  have hhead : s.pending rest acc.childId.toNat
      = acc :: (q ++ childAccs rest acc.childId.toNat) := by rw [pending, hq, List.cons_append]
  refine ⟨s', acc, ?_, ?_, rfl⟩
  · have hprogress := progress_of_pos (s := { s with
      tw := tw, heads := s.heads.erase acc.headKey, writtenRecords := s.writtenRecords + 1 })
      htotal (s.writtenRecords + 1)
    unfold emit
    rw [hk, Option.bind_eq_bind, Option.bind_some]
    simp only [AccessRecord.headKey, ofLex_toLex, haccs, Option.bind_eq_bind, Option.bind_some,
      hwrite] at hprogress ⊢
    rw [hprogress]
    cases q with
    | nil => rfl
    | cons acc' q => rfl
  · exact {
      heads := by
        rw [hqueue]
        exact h.heads.pop hq
      nonempty := fun i => by
        by_cases hi : i = acc.childId.toNat
        · subst hi
          cases q <;> simp [s']
        · simpa [s', hi] using h.nonempty i
      good := h.good
      unread := h.unread
      narrow := h.narrow
      children := h.children
      opened := hopen
      written := by
        show tw.written = _
        rw [hwritten, h.written, List.map_append]
        rfl
      header := hheader.trans h.header
      streams := h.streams
      read := h.read
      wrote := by
        show s.writtenRecords + 1 = _
        rw [h.wrote, List.length_append]
        rfl
      total := h.total
      conserve := fun i => by
        rw [← h.conserve i, childAccs_append, hpending, List.append_assoc]
        by_cases hi : i = acc.childId.toNat
        · subst hi
          rw [Function.update_self, childAccs_cons_self, hhead]
          rfl
        · rw [Function.update_of_ne hi, childAccs_cons_of_ne (Ne.symm hi)]
          rfl
      merges := fun o ho => by
        rw [List.append_assoc]
        refine h.merges _ (.cons hhead (fun j b bs hj => h.top_max hmay htop hj) ?_)
        exact hpending ▸ ho }

theorem Inv.length_le (h : Inv n T s rest out) : out.length ≤ T.length := by
  have hsub : out.Subperm T := subperm_of_filter_sublist (fun acc => acc.childId.toNat)
    fun i => (h.conserve i ▸ List.sublist_append_left _ _ :
      (childAccs out i).Sublist (childAccs T i))
  exact hsub.length_le

theorem emit_loop {fuel : Nat} (h : Inv n T s rest out) (hpos : 0 < s.numChildren)
    (hfuel : T.length < fuel) :
    ∃ s' out', WhileLoop.whileM none mayEmit emit fuel s = some s' ∧ Inv n T s' rest out' ∧
      s'.mayEmit = false ∧ s'.tr = s.tr := by
  obtain ⟨s', hrun, ⟨htr, out', hinv⟩, hstop⟩ := WhileLoop.whileM_spec none mayEmit emit
    (fun s' => s'.tr = s.tr ∧ ∃ out, Inv n T s' rest out)
    (fun s' => T.length - s'.writtenRecords)
    (fun s₁ ⟨htr, out₁, h₁⟩ hmay => by
      have hne : s₁.heads ≠ [] := by
        have hnum : s₁.numChildren = s.numChildren := by rw [numChildren, htr, numChildren]
        intro hnil
        simp [mayEmit, hnil, hnum, Nat.ne_of_lt hpos] at hmay
      obtain ⟨s₂, acc, hemit, h₂, htr₂⟩ := emit_spec h₁ hmay hne
      refine ⟨s₂, hemit, ⟨htr₂.trans htr, _, h₂⟩, ?_⟩
      have hlen := h₂.length_le
      rw [List.length_append, List.length_singleton] at hlen
      rw [h₁.wrote, h₂.wrote, List.length_append, List.length_singleton]
      omega)
    (s := s) ⟨rfl, out, h⟩ (Nat.lt_of_le_of_lt (Nat.sub_le _ _) hfuel)
  exact ⟨s', out', hrun, hinv, hstop, htr⟩

theorem Inv.empty_iff (h : Inv n T s rest out) : s.tr.empty = true ↔ rest = [] := by
  rw [h.good.empty_iff, h.unread, List.map_eq_nil_iff]

/-- Between two rounds: some child has no head, and none has one when the trace has ended. -/
structure Between (n : BitVec 32) (T : List AccessRecord) (s : SortState)
    (rest out : List AccessRecord) : Prop
    extends Inv n T s rest out where
  waiting : s.mayEmit = false
  pos : 0 < s.numChildren

theorem round_spec {fuel : Nat} (h : Between n T s rest out) (hne : rest ≠ [])
    (hfuel : T.length < fuel) :
    ∃ s' rest' out', s.round fuel = some s' ∧ Between n T s' rest' out' ∧
      rest'.length < rest.length := by
  have hunread : s.tr.empty = false := by
    rw [← Bool.not_eq_true, h.empty_iff]
    exact hne
  have hlt : s.heads.length < s.numChildren := by
    have hwait : s.heads.length ≠ s.numChildren := by simpa [mayEmit, hunread] using h.waiting
    exact Nat.lt_of_le_of_ne h.heads.length_le hwait
  obtain ⟨s₁, rest', hread, h₁, hless, hnum⟩ := readSome_spec 1023 h.toInv hne
  obtain ⟨s', out', hrun, h', hstop, htr⟩ := emit_loop h₁ (hnum ▸ h.pos) hfuel
  refine ⟨s', rest', out', ?_, ⟨h', hstop, ?_⟩, hless⟩
  · have hle := h₁.heads.length_le
    simp [round, hunread, hlt, hread, hle, hrun]
  · rw [numChildren, htr, ← numChildren, hnum]
    exact h.pos

theorem sort_loop {fuel : Nat} (h : Between n T s rest out) (hfuel : T.length < fuel) :
    ∃ s' out', WhileLoop.whileM none unsorted (round fuel) fuel s = some s' ∧
      Between n T s' [] out' ∧ s'.heads = [] := by
  obtain ⟨s', hrun, ⟨rest', out', hinv, -⟩, hstop⟩ := WhileLoop.whileM_spec none unsorted
    (round fuel)
    (fun s => ∃ rest out, Between n T s rest out ∧ s.tr.rest.length = rest.length)
    (fun s => s.tr.rest.length)
    (fun s₁ ⟨rest₁, out₁, h₁, hlen⟩ huns => by
      have hne : rest₁ ≠ [] := by
        intro hnil
        have hend := h₁.empty_iff.mpr hnil
        have hwait := h₁.waiting
        simp [mayEmit, hend] at hwait
        simp [unsorted, hend, hwait.2] at huns
      obtain ⟨s₂, rest₂, out₂, hround, h₂, hless⟩ := round_spec h₁ hne hfuel
      have hlen₂ : s₂.tr.rest.length = rest₂.length := by rw [h₂.unread, List.length_map]
      exact ⟨s₂, hround, ⟨rest₂, out₂, h₂, hlen₂⟩, by omega⟩)
    (s := s) ⟨rest, out, h, by rw [h.unread, List.length_map]⟩ (by
      have hread := h.read
      have hlen : s.tr.rest.length = rest.length := by rw [h.unread, List.length_map]
      show s.tr.rest.length < fuel
      omega)
  simp only [unsorted, Bool.or_eq_false_iff, Bool.not_eq_false', decide_eq_false_iff_not,
    Nat.not_lt, Nat.le_zero_eq, List.length_eq_zero_iff] at hstop
  obtain rfl := hinv.empty_iff.mp hstop.1
  exact ⟨s', out', hrun, hinv, hstop.2⟩

end SortState

theorem TraceFile.Holds.accs_eq {file : TraceFile} {T : List AccessRecord} (h : file.Holds T) :
    file.accs = T.map AccessRecord.pack ∧ ∀ acc ∈ T, acc.narrowed = acc := by
  have hrec := h.records
  clear h
  revert hrec
  induction file.accs generalizing T with
  | nil =>
    intro hrec
    cases hrec
    exact ⟨rfl, by simp⟩
  | cons p ps ih =>
    intro hrec
    rw [List.mapM_cons] at hrec
    obtain ⟨acc, hacc, htail⟩ := Option.bind_eq_some_iff.mp hrec
    obtain ⟨accs, haccs, hcons⟩ := Option.bind_eq_some_iff.mp htail
    cases hcons
    obtain ⟨hps, hnarrow⟩ := ih haccs
    refine ⟨by rw [List.map_cons, AccessRecord.pack_of_unpack hacc, hps], fun b hb => ?_⟩
    rcases List.mem_cons.mp hb with rfl | hb
    · exact AccessRecord.narrowed_of_unpack hacc
    · exact hnarrow b hb

theorem SortState.new_between {tr : AccessTraceReader} {T : List AccessRecord} (hgood : tr.Good)
    (hrest : tr.rest = T.map AccessRecord.pack) (hnarrow : ∀ acc ∈ T, acc.narrowed = acc)
    (hchildren : ∀ acc ∈ T, acc.childId.toNat < tr.numChildren.toNat)
    (htotal : tr.numRecords = T.length) (hne : T ≠ []) :
    Between tr.numChildren T (.new tr) T [] := by
  have hpos : 0 < tr.numChildren.toNat := by
    obtain ⟨acc, hacc⟩ := List.exists_mem_of_ne_nil T hne
    exact Nat.zero_lt_of_lt (hchildren acc hacc)
  have hpending : SortState.pending (.new tr) T = childAccs T := by
    funext i
    simp [pending, queue, new]
  have hunread : tr.empty = false := by
    rw [← Bool.not_eq_true, hgood.empty_iff, hrest]
    simpa using hne
  refine ⟨⟨⟨?_, ?_, ?_, List.nodup_nil⟩, ?_, hgood, hrest, hnarrow, hchildren,
    AccessTraceWriter.new_open _, AccessTraceWriter.written_new _, rfl, rfl, Nat.zero_add _, rfl, htotal,
    ?_, ?_⟩, ?_, hpos⟩
  · simp [queue, new]
  · simp [queue, new]
  · simp [queue, new]
  · simp [new]
  · intro i
    rw [hpending]
    rfl
  · intro o ho
    rwa [hpending] at ho
  · have hzero : (0 : Nat) ≠ tr.numChildren.toNat := Nat.ne_of_lt hpos
    simp [mayEmit, new, numChildren, hunread, hzero]

/-- The sorter writes a merge of the children's records, and fails on the empty trace. -/
theorem sorttrace_merges {fuel : Nat} {input : TraceFile} {T : List AccessRecord}
    (h : input.Holds T) (hne : T ≠ []) (hfuel : T.length < fuel) :
    ∃ output out, sorttrace fuel input = some output ∧ output.Holds out ∧
      output.numChildren = input.numChildren ∧ (∀ i, childAccs out i = childAccs T i) ∧
      Merges AccessRecord.headKey (childAccs T) out := by
  obtain ⟨haccs, hnarrow⟩ := h.accs_eq
  obtain ⟨tr, hnew, hgood, hrest, hrecords, hchildren⟩ := AccessTraceReader.new_spec h.finished
  have hlen : input.accs.length = T.length := by rw [haccs, List.length_map]
  have hbound : ∀ acc ∈ T, acc.childId.toNat < tr.numChildren.toNat := fun acc hacc => by
    rw [hchildren]
    exact h.children acc hacc
  have hstart := SortState.new_between hgood (hrest.trans haccs) hnarrow hbound
    (hrecords.trans hlen) hne
  obtain ⟨s, out, hrun, hs, hheads⟩ := SortState.sort_loop hstart hfuel
  have hqueue : ∀ i, s.pending [] i = [] := fun i => by
    have hnil := hs.heads
    rw [hheads] at hnil
    rw [SortState.pending, hnil.eq_nil i]
    rfl
  have hkeep : ∀ i, childAccs out i = childAccs T i := fun i => by
    rw [← hs.conserve i, hqueue, List.append_nil]
  have hperm : out.Perm T := perm_of_filter_eq (fun acc => acc.childId.toNat) hkeep
  have hread : s.readRecords = T.length := by simpa using hs.read
  have hsame : s.readRecords = s.writtenRecords ∧ s.readRecords = s.totalRecords := by
    rw [hs.wrote, hs.total, hread]
    exact ⟨hperm.length_eq.symm, rfl⟩
  have hpos : s.totalRecords ≠ 0 := by
    rw [hs.total]
    exact Nat.ne_of_gt (List.length_pos_of_ne_nil hne)
  have hrecout : (s.tw.dump false).file.accs.mapM PackedAccessRecord.unpack = some out := by
    rw [AccessTraceWriter.accs_dump, hs.written, mapM_unpack_pack]
    refine congrArg some ?_
    conv_rhs => rw [← List.map_id out]
    exact List.map_congr_left fun acc hacc => hnarrow acc (hperm.mem_iff.mp hacc)
  have hheader : (s.tw.dump false).file.numChildren = input.numChildren :=
    hs.header.trans hchildren
  refine ⟨(s.tw.dump false).file, out, ?_, ⟨?_, hrecout, ?_⟩, hheader, hkeep, ?_⟩
  · simp [sorttrace, hnew, hrun, printProgress, hpos, hsame.1, hsame.1 ▸ hsame.2]
  · simp [AccessTraceWriter.dump]
  · intro acc hacc
    rw [hheader]
    exact h.children acc (hperm.mem_iff.mp hacc)
  · have hmerges := hs.merges [] (.nil hqueue)
    rwa [List.append_nil] at hmerges

end ZSim.AccessTrace
