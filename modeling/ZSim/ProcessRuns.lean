import ZSim.ProcessTree

/-! Runs of processes that the harness launches and launches again, and that fork, enter and leave
fast-forward, call `exec` and end. -/

namespace ZSim

namespace ProcessTree

variable {top p c : Nat} {z z' : ProcessTree}

/-- The children that have no process yet, and those that wait for theirs to start. -/
structure Family (top : Nat) (z : ProcessTree) : Prop where
  top_le : top ≤ z.numProcs
  numbered : Numbered top z.numProcs z.procArray
  cur : ∀ p, (z.procArray p).curChildren ≤ (z.procArray p).children.length
  fresh : ∀ p i c, (z.procArray p).curChildren ≤ i → (z.procArray p).children[i]? = some c →
    (z.procArray c).started = false ∧ c ∉ z.forked
  nodup : z.forked.Nodup
  forked : ∀ c ∈ z.forked, top ≤ c ∧ c < z.numProcs ∧ (z.procArray c).started = false
  bound : ∀ p, (z.procArray p).started = true → p < z.numProcs

theorem Family.change {waiting : List Nat} (h : Family top z) (honly : Only p z z')
    (hp : p < z.numProcs) (hsub : waiting.Sublist z.forked) (hpf : p ∉ waiting)
    (hold : (z.procArray p).started = true ∨ p < top ∨ p ∈ z.forked) :
    Family top { z' with forked := waiting } := by
  have hchildren : ∀ q, (z'.procArray q).children = (z.procArray q).children :=
    fun q => (honly.children q).1
  have hcur : ∀ q, (z'.procArray q).curChildren = (z.procArray q).curChildren :=
    fun q => (honly.children q).2
  refine ⟨?_, ⟨?_, ?_, ?_⟩, ?_, ?_, hsub.nodup h.nodup, ?_, ?_⟩ <;>
    simp only [honly.numProcs, hchildren, hcur]
  · exact h.top_le
  · exact h.numbered.range
  · exact h.numbered.owner
  · exact h.numbered.nodup
  · exact h.cur
  · intro q i c hi hc
    obtain ⟨hstarted, hnot⟩ := h.fresh q i c hi hc
    have hcp : c ≠ p := by
      rintro rfl
      rcases hold with hold | hold | hold
      · rw [hstarted] at hold
        cases hold
      · have hrange := (h.numbered.range q c (List.mem_of_getElem? hc)).1
        omega
      · exact hnot hold
    rw [honly.started c hcp]
    exact ⟨hstarted, fun hin => hnot (hsub.subset hin)⟩
  · intro c hc
    obtain ⟨htop, hlt, hstarted⟩ := h.forked c (hsub.subset hc)
    rw [honly.started c (fun heq => hpf (heq ▸ hc))]
    exact ⟨htop, hlt, hstarted⟩
  · intro u hu
    by_cases hup : u = p
    · exact hup ▸ hp
    · exact h.bound u (honly.started u hup ▸ hu)

/-- The processes after a node for a child of `p` has been made. -/
structure Grown (p : Nat) (z z' : ProcessTree) : Prop where
  room : z.numProcs < z.lineSize
  numProcs : z'.numProcs = z.numProcs + 1
  lineSize : z'.lineSize = z.lineSize
  procExited : z'.procExited = z.procExited
  forked : z'.forked = z.forked
  counts : z'.globalActiveProcs = z.globalActiveProcs ∧ z'.globalFFProcs = z.globalFFProcs ∧
    z'.globalSyncedFFProcs = z.globalSyncedFFProcs
  child : z'.procArray z.numProcs =
    { z.procArray p with started := false, curChildren := 0, children := [] }
  parent : z'.procArray p =
    { z.procArray p with children := (z.procArray p).children ++ [z.numProcs] }
  others : ∀ u, u ≠ p → u ≠ z.numProcs → z'.procArray u = z.procArray u

theorem newChild_grown (hp : p < z.numProcs) (hsize : z.lineSize < 2 ^ 32)
    (hs : z.newChild p = some z') : Grown p z z' := by
  rw [ProcessTree.newChild] at hs
  split at hs
  · simp at hs
  rename_i hroom
  obtain rfl := Option.some.inj hs
  have hne : z.numProcs ≠ p := by omega
  refine ⟨by omega, fetchAdd_eq (by omega), rfl, rfl, rfl, ⟨rfl, rfl, rfl⟩, ?_,
    Function.update_self _ _ _, fun u hup huc => ?_⟩
  · exact (Function.update_of_ne hne _ _).trans (Function.update_self _ _ _)
  · exact (Function.update_of_ne hup _ _).trans (Function.update_of_ne huc _ _)

/-- A node after a child has been made is the child's, its parent's or an old one. -/
theorem Grown.node {P : Nat → ProcessTreeNode → Prop} (h : Grown p z z')
    (hchild : P z.numProcs
      { z.procArray p with started := false, curChildren := 0, children := [] })
    (hparent : P p { z.procArray p with children := (z.procArray p).children ++ [z.numProcs] })
    (hothers : ∀ u, u ≠ p → u ≠ z.numProcs → P u (z.procArray u)) (u : Nat) :
    P u (z'.procArray u) := by
  by_cases hun : u = z.numProcs
  · rw [hun, h.child]
    exact hchild
  by_cases hup : u = p
  · rw [hup, h.parent]
    exact hparent
  · rw [h.others u hup hun]
    exact hothers u hup hun

theorem Grown.flags (h : Grown p z z') {u : Nat} (hu : u ≠ z.numProcs) :
    (z'.procArray u).started = (z.procArray u).started ∧
      (z'.procArray u).inFastForward = (z.procArray u).inFastForward ∧
      (z'.procArray u).syncedFastForward = (z.procArray u).syncedFastForward := by
  revert hu
  refine h.node (P := fun u n => u ≠ z.numProcs → n.started = (z.procArray u).started ∧
    n.inFastForward = (z.procArray u).inFastForward ∧
    n.syncedFastForward = (z.procArray u).syncedFastForward) ?_ ?_ ?_ u
  · intro hu
    exact (hu rfl).elim
  · intro _
    exact ⟨rfl, rfl, rfl⟩
  · intro u _ _ _
    exact ⟨rfl, rfl, rfl⟩

theorem Grown.mem_children (h : Grown p z z') {q : Nat} (hc : c ∈ (z'.procArray q).children) :
    c ∈ (z.procArray q).children ∨ q = p ∧ c = z.numProcs := by
  revert hc
  refine h.node (P := fun q n => c ∈ n.children →
    c ∈ (z.procArray q).children ∨ q = p ∧ c = z.numProcs) ?_ ?_ ?_ q
  · intro hc
    cases hc
  · intro hc
    rw [List.mem_append, List.mem_singleton] at hc
    exact hc.imp id fun h => ⟨rfl, h⟩
  · intro u _ _ hc
    exact .inl hc

/-- A child that has no process yet and is not the new one had none before either. -/
theorem Grown.next_child (h : Grown p z z') {q i : Nat} (hne : c ≠ z.numProcs)
    (hi : (z'.procArray q).curChildren ≤ i) (hc : (z'.procArray q).children[i]? = some c) :
    (z.procArray q).curChildren ≤ i ∧ (z.procArray q).children[i]? = some c := by
  revert hi hc
  refine h.node (P := fun q n => n.curChildren ≤ i → n.children[i]? = some c →
    (z.procArray q).curChildren ≤ i ∧ (z.procArray q).children[i]? = some c) ?_ ?_ ?_ q
  · intro _ hc
    simp at hc
  · intro hi hc
    rw [List.getElem?_append] at hc
    split at hc
    · exact ⟨hi, hc⟩
    · rw [List.getElem?_singleton] at hc
      split at hc
      · exact (hne (Option.some.inj hc).symm).elim
      · cases hc
  · intro u _ _ hi hc
    exact ⟨hi, hc⟩

theorem Grown.numbered (h : Grown p z z') (htop : top ≤ z.numProcs)
    (hnum : Numbered top z.numProcs z.procArray) : Numbered top z'.numProcs z'.procArray := by
  have hn := h.numProcs
  refine ⟨fun q c hc => ?_, fun q r c hq hr => ?_, ?_⟩
  · rcases h.mem_children hc with hc | ⟨-, rfl⟩
    · have := hnum.range q c hc
      omega
    · omega
  · rcases h.mem_children hq with hq | ⟨hqp, hc⟩ <;>
      rcases h.mem_children hr with hr | ⟨hrp, hc'⟩
    · exact hnum.owner q r c hq hr
    · have := (hnum.range q c hq).2
      omega
    · have := (hnum.range r c hr).2
      omega
    · rw [hqp, hrp]
  · refine h.node (P := fun _ n => n.children.Nodup) List.nodup_nil ?_ fun u _ _ => hnum.nodup u
    have hnot : z.numProcs ∉ (z.procArray p).children := fun hin => by
      have := (hnum.range p _ hin).2
      omega
    exact List.nodup_append'.mpr ⟨hnum.nodup p, List.nodup_singleton _, by simpa using hnot⟩

theorem Family.grown (h : Family top z) (hg : Grown p z z') : Family top z' := by
  have hn := hg.numProcs
  have hstarted : ∀ u, u ≠ z.numProcs → (z'.procArray u).started = (z.procArray u).started :=
    fun u hu => (hg.flags hu).1
  refine ⟨?_, hg.numbered h.top_le h.numbered, ?_, fun q i c hi hc => ?_, ?_, fun c hc => ?_,
    fun u hu => ?_⟩
  · have := h.top_le
    omega
  · refine hg.node (P := fun _ n => n.curChildren ≤ n.children.length) le_rfl ?_
      fun u _ _ => h.cur u
    have := h.cur p
    simp only [List.length_append, List.length_singleton]
    omega
  · rw [hg.forked]
    by_cases hcn : c = z.numProcs
    · rw [hcn, hg.child]
      refine ⟨rfl, fun hin => ?_⟩
      have := (h.forked _ hin).2.1
      omega
    · rw [hstarted c hcn]
      obtain ⟨hi, hc⟩ := hg.next_child hcn hi hc
      exact h.fresh q i c hi hc
  · rw [hg.forked]
    exact h.nodup
  · rw [hg.forked] at hc
    obtain ⟨htop, hlt, hnew⟩ := h.forked c hc
    rw [hstarted c (by omega)]
    exact ⟨htop, by omega, hnew⟩
  · by_cases hun : u = z.numProcs
    · omega
    · have := h.bound u (hstarted u hun ▸ hu)
      omega

/-- The next child of `p` gets its process. -/
theorem Family.takeChild (h : Family top z)
    (hc : (z.procArray p).children[(z.procArray p).curChildren]? = some c) :
    Family top { z.setNode p { z.procArray p with
      curChildren := (z.procArray p).curChildren + 1 } with forked := c :: z.forked } := by
  have hself : Function.update z.procArray p { z.procArray p with
      curChildren := (z.procArray p).curChildren + 1 } p = { z.procArray p with
        curChildren := (z.procArray p).curChildren + 1 } := Function.update_self _ _ _
  have hchildren : ∀ q, (Function.update z.procArray p { z.procArray p with
      curChildren := (z.procArray p).curChildren + 1 } q).children = (z.procArray q).children := by
    intro q
    by_cases hq : q = p
    · rw [hq, hself]
    · rw [Function.update_of_ne hq]
  have hstarted : ∀ q, (Function.update z.procArray p { z.procArray p with
      curChildren := (z.procArray p).curChildren + 1 } q).started = (z.procArray q).started := by
    intro q
    by_cases hq : q = p
    · rw [hq, hself]
    · rw [Function.update_of_ne hq]
  obtain ⟨hnew, hnot⟩ := h.fresh p _ c le_rfl hc
  have hmem := List.mem_of_getElem? hc
  refine ⟨h.top_le, ⟨?_, ?_, ?_⟩, fun q => ?_, fun q i d hi hd => ?_,
    List.nodup_cons.mpr ⟨hnot, h.nodup⟩, ?_, ?_⟩ <;> simp only [setNode, hchildren, hstarted] at *
  · exact h.numbered.range
  · exact h.numbered.owner
  · exact h.numbered.nodup
  · by_cases hq : q = p
    · rw [hq, hself]
      exact (List.getElem?_eq_some_iff.mp hc).1
    · rw [Function.update_of_ne hq]
      exact h.cur q
  · -- the children of `p` from here on come after `c`, and those of others are not `c`
    have hdc : d ≠ c ∧ (z.procArray q).curChildren ≤ i := by
      by_cases hq : q = p
      · rw [hq, hself] at hi
        rw [hq] at hd ⊢
        refine ⟨?_, Nat.le_of_succ_le hi⟩
        rintro rfl
        have hidx := (List.nodup_iff_getElem?_ne_getElem?.mp (h.numbered.nodup p)) _ i hi
          (List.getElem?_eq_some_iff.mp hd).1
        exact hidx (hc.trans hd.symm)
      · rw [Function.update_of_ne hq] at hi
        refine ⟨?_, hi⟩
        rintro rfl
        exact hq (h.numbered.owner q p d (List.mem_of_getElem? hd) hmem)
    obtain ⟨hfresh, hout⟩ := h.fresh q i d hdc.2 hd
    exact ⟨hfresh, fun hin => (List.mem_cons.mp hin).elim hdc.1 hout⟩
  · intro d hd
    rcases List.mem_cons.mp hd with rfl | hd
    · obtain ⟨htop, hlt⟩ := h.numbered.range p d hmem
      exact ⟨htop, hlt, hnew⟩
    · exact h.forked d hd
  · exact h.bound

theorem count_grown {q : ProcessTree → Nat → Bool} (hn : z'.numProcs = z.numProcs + 1)
    (hnew : q z' z.numProcs = false) (hold : ∀ u < z.numProcs, q z' u = q z u) :
    z'.count q = z.count q := by
  rw [count, count, hn, Finset.range_add_one, Finset.filter_insert, if_neg (by simp [hnew])]
  congr 1
  exact Finset.filter_congr fun u hu => by rw [hold u (Finset.mem_range.mp hu)]

/-- Of a process that was alone, the mode can change with its first child. -/
theorem Grown.synced (h : Grown p z z')
    (hnew : z'.InSyncedFF z.numProcs = false) :
    z'.count InSyncedFF = z.count InSyncedFF + (z.leavesOut z').toNat := by
  have hn := h.numProcs
  by_cases hone : z.numProcs = 1
  · have h₀ := h.flags (u := 0) (by omega)
    have hcount : ∀ y : ProcessTree, y.numProcs = 1 →
        y.count InSyncedFF = (y.InSyncedFF 0).toNat := by
      intro y hy
      rw [count, hy, Finset.range_one, Finset.filter_singleton]
      cases y.InSyncedFF 0 <;> rfl
    have hcount' : z'.count InSyncedFF = (z'.InSyncedFF 0).toNat := by
      rw [hone] at hnew
      rw [count, hn, hone, Finset.range_add_one, Finset.filter_insert, if_neg (by simp [hnew]),
        Finset.range_one, Finset.filter_singleton]
      cases z'.InSyncedFF 0 <;> rfl
    rw [hcount', hcount z hone]
    simp only [InSyncedFF, InFF, getSyncedFastForward, leavesOut, h₀, hn, hone]
    cases (z.procArray 0).started <;> cases (z.procArray 0).inFastForward <;>
      cases (z.procArray 0).syncedFastForward <;> rfl
  · have hout : z.leavesOut z' = false := by simp [leavesOut, hone]
    rw [hout, count_grown hn hnew fun u hu => ?_]
    · rfl
    have hmany : (1 < z.numProcs + 1) = (1 < z.numProcs) := by
      apply propext
      omega
    simp only [InSyncedFF, InFF, getSyncedFastForward, h.flags (show u ≠ z.numProcs by omega), hn,
      hmany]

theorem Counts.grown (h : Counts z) (hp : p < z.numProcs)
    (hnew : (z.procArray z.numProcs).started = false) (hg : Grown p z z') :
    Counts { z' with uncounted := z.uncounted || z.leavesOut z' } := by
  obtain ⟨hsize, hmax⟩ := h.size
  have hn := hg.numProcs
  have hroom := hg.room
  have hout : z'.InFF z.numProcs = false := by simp [InFF, hg.child]
  have hold : ∀ u < z.numProcs, z'.Active u = z.Active u ∧ z'.InFF u = z.InFF u := by
    intro u hu
    simp only [Active, InFF, hg.flags (show u ≠ z.numProcs by omega), hg.procExited, and_self]
  have hactive := count_grown (q := Active) hn (by simp [Active, hg.child]) fun u hu =>
    (hold u hu).1
  have hff := count_grown (q := InFF) hn hout fun u hu => (hold u hu).2
  have hsynced := hg.synced (by simp [InSyncedFF, hout])
  refine ⟨?_, fun u hu => ?_, hg.counts.1.trans (h.active.trans hactive.symm),
    hg.counts.2.1.trans (h.ff.trans hff.symm), ?_, ?_, fun _ => ?_⟩
  · rw [hg.lineSize]
    exact ⟨by simp only; omega, hmax⟩
  · have hu' : z.procExited u ≠ .PROC_RUNNING := by
      rw [← hg.procExited]
      exact hu
    have hended := h.ended u hu'
    have hun : u ≠ z.numProcs := by
      rintro rfl
      rw [hnew] at hended
      cases hended
    rw [(hg.flags hun).1]
    exact hended
  · -- the process that is left out was counted right until now
    change (z'.globalSyncedFFProcs + (z.uncounted || z.leavesOut z').toNat) % 2 ^ 32 =
      z'.count InSyncedFF
    have hcount := h.synced
    have hle := count_le z InSyncedFF
    rw [hsynced, hg.counts.2.2]
    cases hleaves : z.leavesOut z' with
    | false =>
      rw [Bool.or_false]
      exact hcount
    | true =>
      have hone : z.numProcs = 1 := by
        simp only [leavesOut, decide_eq_true_eq] at hleaves
        exact hleaves.1
      have hc : z.uncounted = false := by
        cases hc : z.uncounted with
        | false => rfl
        | true =>
          have := h.uncounted hc
          omega
      rw [hc] at hcount ⊢
      simp only [Bool.toNat_false, Bool.or_true, Bool.toNat_true] at hcount ⊢
      omega
  · rw [hg.counts.2.2]
    exact h.lt
  · simp only
    omega

theorem getNextChild_cases (hs : z.getNextChild p = some (c, z')) :
    ∃ z₁, (z₁ = z ∨ z.newChild p = some z₁) ∧
      (z₁.procArray p).children[(z₁.procArray p).curChildren]? = some c ∧
      z' = z₁.setNode p { z₁.procArray p with
        curChildren := (z₁.procArray p).curChildren + 1 } := by
  obtain ⟨z₁, hs₁, hs⟩ := Option.bind_eq_some_iff.mp hs
  obtain ⟨d, hd, heq⟩ := Option.map_eq_some_iff.mp hs
  obtain ⟨rfl, rfl⟩ := Prod.mk.inj heq
  refine ⟨z₁, ?_, hd, rfl⟩
  split at hs₁
  · exact .inr hs₁
  · exact .inl (Option.some.inj hs₁).symm

theorem count_congr {q : ProcessTree → Nat → Bool} (hn : z'.numProcs = z.numProcs)
    (hq : ∀ u, q z' u = q z u) : z'.count q = z.count q := by
  rw [count, count, hn]
  exact congrArg _ (Finset.filter_congr fun u _ => by rw [hq u])

theorem Counts.takeChild (h : Counts z) (waiting : List Nat) :
    Counts { z.setNode p { z.procArray p with
      curChildren := (z.procArray p).curChildren + 1 } with forked := waiting } := by
  generalize hz : { z.setNode p { z.procArray p with
      curChildren := (z.procArray p).curChildren + 1 } with forked := waiting } = z'
  obtain ⟨harray, hl, hn, he, ha, hf, hs, hc⟩ :
      z'.procArray = Function.update z.procArray p { z.procArray p with
        curChildren := (z.procArray p).curChildren + 1 } ∧
      z'.lineSize = z.lineSize ∧ z'.numProcs = z.numProcs ∧ z'.procExited = z.procExited ∧
      z'.globalActiveProcs = z.globalActiveProcs ∧ z'.globalFFProcs = z.globalFFProcs ∧
      z'.globalSyncedFFProcs = z.globalSyncedFFProcs ∧ z'.uncounted = z.uncounted := by
    rw [← hz]
    exact ⟨rfl, rfl, rfl, rfl, rfl, rfl, rfl, rfl⟩
  have hflags : ∀ u, (z'.procArray u).started = (z.procArray u).started ∧
      (z'.procArray u).inFastForward = (z.procArray u).inFastForward ∧
      (z'.procArray u).syncedFastForward = (z.procArray u).syncedFastForward := by
    intro u
    by_cases hu : u = p
    · rw [harray, hu, Function.update_self]
      exact ⟨rfl, rfl, rfl⟩
    · rw [harray, Function.update_of_ne hu]
      exact ⟨rfl, rfl, rfl⟩
  refine ⟨?_, fun u hu => ?_, ?_, ?_, ?_, ?_, ?_⟩
  · rw [hn, hl]
    exact h.size
  · rw [he] at hu
    rw [(hflags u).1]
    exact h.ended u hu
  · rw [ha, h.active, count_congr hn fun u => by simp only [Active, hflags, he]]
  · rw [hf, h.ff, count_congr hn fun u => by simp only [InFF, hflags]]
  · rw [hs, hc, h.synced, count_congr hn fun u => by
      simp only [InSyncedFF, InFF, getSyncedFastForward, hflags, hn]]
  · rw [hs]
    exact h.lt
  · rw [hc, hn]
    exact h.uncounted

/-- What holds of the processes at any time. -/
structure ProcessInv (top : Nat) (z : ProcessTree) : Prop where
  counts : Counts z
  family : Family top z
  first : ∀ p, (z.procArray p).started = true → (z.procArray 0).started = true
  alone : 2 ≤ top → z.uncounted = false

theorem ProcessInv.lt (h : ProcessInv top z) (hp : p < top ∨ (z.procArray p).started = true) :
    p < z.numProcs := by
  have := h.family.top_le
  rcases hp with hp | hp
  · omega
  · exact h.family.bound p hp

theorem ProcessInv.only {waiting : List Nat} (h : ProcessInv top z) (hcounts : Counts z')
    (honly : Only p z z') (hp : p < z.numProcs) (hsub : waiting.Sublist z.forked)
    (hpf : p ∉ waiting) (hold : (z.procArray p).started = true ∨ p < top ∨ p ∈ z.forked)
    (hfirst : (z'.procArray p).started = true → p = 0 ∨ (z.procArray 0).started = true) :
    ProcessInv top { z' with forked := waiting } := by
  have hzero : (z.procArray 0).started = true → (z'.procArray 0).started = true := by
    intro h₀
    by_cases hp₀ : 0 = p
    · rw [hp₀] at h₀ ⊢
      exact honly.stays h₀
    · rw [honly.started 0 hp₀]
      exact h₀
  refine ⟨⟨hcounts.size, hcounts.ended, hcounts.active, hcounts.ff, hcounts.synced, hcounts.lt,
    hcounts.uncounted⟩, h.family.change honly hp hsub hpf hold, fun u hu => ?_, fun htop => ?_⟩
  · by_cases hup : u = p
    · rw [hup] at hu
      rcases hfirst hu with rfl | h₀
      · exact hu
      · exact hzero h₀
    · exact hzero (h.first u (honly.started u hup ▸ hu))
  · exact honly.uncounted.trans (h.alone htop)

theorem ProcessInv.active (h : ProcessInv top z) (hactive : z.globalActiveProcs ≠ 0) :
    (z.procArray 0).started = true := by
  by_contra hnot
  refine hactive (h.counts.active.trans (count_eq_zero.mpr fun p _ => ?_))
  cases hs : (z.procArray p).started with
  | false => simp [Active, hs]
  | true => exact (hnot (h.first p hs)).elim

theorem ProcessInv.starts {first : Bool} (h : ProcessInv top z)
    (hs : z.notifyStart p = some (first, z')) (hnew : (z.procArray p).started = false) :
    p = 0 ∨ (z.procArray 0).started = true := by
  rw [ProcessTree.notifyStart, if_neg (by simp [hnew])] at hs
  split at hs
  · rename_i hiff
    by_cases hp : p = 0
    · exact .inl hp
    · exact .inr (h.active fun hzero => hp (hiff.mpr hzero))
  · simp at hs

theorem ProcessInv.takeChild (h : ProcessInv top z)
    (hc : (z.procArray p).children[(z.procArray p).curChildren]? = some c) :
    ProcessInv top { z.setNode p { z.procArray p with
      curChildren := (z.procArray p).curChildren + 1 } with forked := c :: z.forked } := by
  have hstarted : ∀ u, (Function.update z.procArray p { z.procArray p with
      curChildren := (z.procArray p).curChildren + 1 } u).started = (z.procArray u).started := by
    intro u
    by_cases hu : u = p
    · rw [hu, Function.update_self]
    · rw [Function.update_of_ne hu]
  refine ⟨h.counts.takeChild _, h.family.takeChild hc, fun u hu => ?_, h.alone⟩
  rw [setNode, hstarted] at hu ⊢
  exact h.first u hu

theorem ProcessInv.grown (h : ProcessInv top z) (hp : p < z.numProcs) (hg : Grown p z z') :
    ProcessInv top { z' with uncounted := z.uncounted || z.leavesOut z' } := by
  have hnew : (z.procArray z.numProcs).started = false := by
    cases hs : (z.procArray z.numProcs).started with
    | false => rfl
    | true => exact absurd (h.family.bound _ hs) (lt_irrefl _)
  obtain ⟨htop, hnumbered, hcur, hfresh, hnodup, hforked, hbound⟩ := h.family.grown hg
  refine ⟨h.counts.grown hp hnew hg, ⟨htop, hnumbered, hcur, hfresh, hnodup, hforked, hbound⟩,
    fun u hu => ?_, fun htwo => ?_⟩
  · have hun : u ≠ z.numProcs := by
      rintro rfl
      rw [hg.child] at hu
      cases hu
    rw [(hg.flags hun).1] at hu
    rw [(hg.flags (by omega)).1]
    exact h.first u hu
  · have hle := h.family.top_le
    have hmany : z.numProcs ≠ 1 := by omega
    simp [h.alone htwo, leavesOut, hmany]

theorem ProcessInv.fork (h : ProcessInv top z) (hlive : z.Live p)
    (hs : z.getNextChild p = some (c, z')) : ProcessInv top { z' with
      forked := c :: z.forked, uncounted := z.uncounted || z.leavesOut z' } := by
  obtain ⟨z₁, hz₁, hc, rfl⟩ := getNextChild_cases hs
  rcases hz₁ with rfl | hnew
  · have hout : z₁.leavesOut (z₁.setNode p { z₁.procArray p with
        curChildren := (z₁.procArray p).curChildren + 1 }) = false := by
      refine decide_eq_false fun hout => ?_
      have hone := hout.1
      have htwo : z₁.numProcs = 2 := hout.2.1
      omega
    rw [hout, Bool.or_false]
    exact h.takeChild hc
  · have hg := newChild_grown hlive.1 h.counts.size.2 hnew
    have h₁ := (h.grown hlive.1 hg).takeChild (p := p) hc
    simp only [hg.forked] at h₁
    exact h₁

theorem Family.not_forked (h : Family top z) (hp : (z.procArray p).started = true) :
    p ∉ z.forked := fun hin => by
  have hnew := (h.forked p hin).2.2
  rw [hp] at hnew
  cases hnew

theorem ProcessInv.started (h : ProcessInv top z) (hcounts : Counts z') (honly : Only p z z')
    (hp : (z.procArray p).started = true) : ProcessInv top z' := by
  have h' := h.only hcounts honly (h.family.bound p hp) (List.Sublist.refl _)
    (h.family.not_forked hp) (.inl hp) fun _ => .inr (h.first p hp)
  rw [← honly.forked] at h'
  exact h'

theorem ProcessInv.restart (h : ProcessInv top z) (hrestart : z.procExited p = .PROC_RESTARTME) :
    ProcessInv top { z with procExited := Function.update z.procExited p .PROC_RUNNING } := by
  have hp := h.counts.ended p (by rw [hrestart]; decide)
  have honly : Only p z { z with procExited := Function.update z.procExited p .PROC_RUNNING } :=
    .of_update (Function.update_eq_self p z.procArray).symm ⟨rfl, rfl, rfl⟩ id rfl rfl rfl rfl
      fun u hu => Function.update_of_ne hu _ _
  refine h.started (h.counts.change (h.family.bound p hp) honly ?_ ?_ rfl rfl h.counts.lt) honly hp
  · simp
  · simp [Active, hp, hrestart]

theorem ProcessInv.step (h : ProcessInv top z) (hstep : ProcessStep top z z') :
    ProcessInv top z' := by
  cases hstep with
  | @start p first _ hp hs =>
    have hlt := h.lt hp
    obtain ⟨hcounts, honly, -⟩ := h.counts.notifyStart hlt hs
    cases hnew : (z.procArray p).started with
    | true => exact h.started hcounts honly hnew
    | false =>
      have htop : p < top := hp.resolve_right (by simp [hnew])
      have hnot : p ∉ z.forked := fun hin => by
        have := (h.family.forked p hin).1
        omega
      have h' := h.only hcounts honly hlt (List.Sublist.refl _) hnot (.inr (.inl htop))
        fun _ => h.starts hs hnew
      rw [← honly.forked] at h'
      exact h'
  | fork hlive hs => exact h.fork hlive hs
  | @forked child first _ hin hs =>
    obtain ⟨htop, hlt, hnew⟩ := h.family.forked child hin
    obtain ⟨hcounts, honly, -⟩ := h.counts.notifyStart hlt hs
    exact h.only hcounts honly hlt List.erase_sublist h.family.nodup.not_mem_erase
      (.inr (.inr hin)) fun _ => h.starts hs hnew
  | enterFastForward hlive hs =>
    obtain ⟨hcounts, honly, -⟩ := h.counts.enterFastForward hlive.1 hlive.2.1 hs
    exact h.started hcounts honly hlive.2.1
  | ffiFire hp hs =>
    obtain ⟨hcounts, honly, -⟩ := h.counts.enterFastForward (h.family.bound _ hp) hp hs
    exact h.started hcounts honly hp
  | exitFastForward hlive hs =>
    obtain ⟨hcounts, honly, -⟩ := h.counts.exitFastForward hlive hs
    exact h.started hcounts honly hlive.2.1
  | finish hlive hs =>
    obtain ⟨hcounts, honly⟩ := h.counts.notifyEnd hlive hs
    exact h.started hcounts honly hlive.2.1
  | restart _ hrestart _ => exact h.restart hrestart
  | terminate =>
    obtain ⟨⟨hsize, hended, hactive, hff, hsynced, hlt, hunc⟩, hfamily, hfirst, halone⟩ := h
    obtain ⟨htop, hnumbered, hcur, hfresh, hnodup, hforked, hbound⟩ := hfamily
    exact ⟨⟨hsize, hended, hactive, hff, hsynced, hlt, hunc⟩,
      ⟨htop, hnumbered, hcur, hfresh, hnodup, hforked, hbound⟩, hfirst, halone⟩

theorem populated (cfg : ProcessConfigs) :
    Populated cfg.nodes.length (populateLevel cfg 0 cfg.nodes) := by
  have hfresh := nodes_fresh cfg
  have hinit : Populated cfg.nodes.length cfg.nodes := by
    refine ⟨le_rfl, ⟨fun p c hc => ?_, fun p q c hc => ?_, fun p => ?_⟩, fun p => (hfresh p).2⟩
    · rw [(hfresh p).1] at hc
      cases hc
    · rw [(hfresh p).1] at hc
      cases hc
    · rw [(hfresh p).1]
      exact List.nodup_nil
  exact (populateLevel_spec hinit (by omega) fun j _ _ => (hfresh j).1).1

theorem ProcessInv.init {lineSize : Nat} {cfg : ProcessConfigs} (hmax : lineSize < 2 ^ 32)
    (hs : createProcessTree lineSize cfg = some z) : ProcessInv cfg.nodes.length z := by
  obtain ⟨htop, hnumbered, hfresh⟩ := populated cfg
  rw [createProcessTree] at hs
  split at hs
  · simp at hs
  rename_i hroom
  obtain rfl := Option.some.inj hs
  refine ⟨⟨⟨Nat.le_of_not_lt hroom, hmax⟩, fun _ hne => (hne rfl).elim,
    (count_eq_zero.mpr fun u _ => ?_).symm, (count_eq_zero.mpr fun u _ => ?_).symm,
    (count_eq_zero.mpr fun u _ => ?_).symm, Nat.two_pow_pos 32, fun h => by cases h⟩,
    ⟨htop, hnumbered, fun p => ?_, fun p i c _ _ => ⟨(hfresh c).2, List.not_mem_nil⟩,
    List.nodup_nil, fun c hc => absurd hc List.not_mem_nil, fun p hp => ?_⟩, fun p hp => ?_,
    fun _ => rfl⟩
  · simp only [Active, (hfresh u).2, Bool.false_and]
  · simp only [InFF, (hfresh u).2, Bool.false_and]
  · simp only [InSyncedFF, InFF, (hfresh u).2, Bool.false_and]
  · simp only [(hfresh p).1, Nat.zero_le]
  · rw [(hfresh p).2] at hp
    cases hp
  · rw [(hfresh p).2] at hp
    cases hp

theorem ProcessInv.of_reachable {lineSize : Nat} {cfg : ProcessConfigs} (hmax : lineSize < 2 ^ 32)
    (hreach : ProcessReachable lineSize cfg z) : ProcessInv cfg.nodes.length z := by
  induction hreach with
  | init hs => exact .init hmax hs
  | step _ hstep ih => exact ih.step hstep

/-- There are fewer of the one kind exactly when fewer are of it alone. -/
theorem count_lt_count_iff {q r : ProcessTree → Nat → Bool} :
    z.count q < z.count r ↔
      z.count (fun z p => q z p && !r z p) < z.count (fun z p => r z p && !q z p) := by
  have hsplit : ∀ q r : Nat → Bool,
      (Finset.range z.numProcs).filter (fun p => (q p && !r p) = true) =
        (Finset.range z.numProcs).filter (fun p => q p = true) \
          (Finset.range z.numProcs).filter fun p => r p = true := by
    intro q r
    ext p
    simp only [Finset.mem_filter, Finset.mem_sdiff, Bool.and_eq_true, Bool.not_eq_true',
      Bool.eq_false_iff]
    tauto
  rw [count, count, count, count, hsplit (q z) (r z), hsplit (r z) (q z),
    Finset.card_sdiff_lt_card_sdiff_iff]

theorem count_pos_iff {q : ProcessTree → Nat → Bool} :
    0 < z.count q ↔ ∃ p < z.numProcs, q z p = true := by
  simp [count, Finset.card_pos, Finset.filter_nonempty_iff]

theorem Counts.active_zero (h : Counts z) :
    z.globalActiveProcs = 0 ↔ ∀ q < z.numProcs, z.Active q = false := by
  rw [h.active, count_eq_zero]

theorem notifyEnd_live (h : Counts z) (hlive : z.Live p) :
    ∃ last z', z.notifyEnd p = some (last, z') ∧ (last = true ↔ z'.globalActiveProcs = 0) := by
  have hfinish : ∀ y, Counts y → y.Live p → ∃ last z', y.finishProcess p = some (last, z') ∧
      (last = true ↔ z'.globalActiveProcs = 0) := by
    intro y hy hlive
    rw [ProcessTree.finishProcess, if_pos hlive.2.2]
    split
    · refine ⟨_, _, rfl, ⟨Bool.noConfusion, fun hzero => ?_⟩⟩
      have hactive := hy.active_zero.mp hzero p hlive.1
      simp [Active, hlive.2] at hactive
    · exact ⟨_, _, rfl, decide_eq_true_iff⟩
  rw [ProcessTree.notifyEnd]
  cases hff : (z.procArray p).inFastForward with
  | false => exact hfinish z h hlive
  | true =>
    have hs : ∃ z₁, z.exitFastForward p = some z₁ :=
      ⟨_, by rw [ProcessTree.exitFastForward, if_pos hff]⟩
    obtain ⟨z₁, hs⟩ := hs
    obtain ⟨h₁, -, hlive₁, -⟩ := h.exitFastForward hlive hs
    rw [if_pos rfl, hs]
    exact hfinish z₁ h₁ hlive₁

theorem notifyStart_none : z.notifyStart p = none ↔
    (z.procArray p).started = false ∧ ¬(p = 0 ↔ z.globalActiveProcs = 0) := by
  rw [ProcessTree.notifyStart]
  split
  · rename_i hs
    simp [hs]
  split
  · rename_i hiff
    simp [hiff]
  · rename_i hs hiff
    simp [hs, hiff]

theorem notifyStart_procExited {first : Bool} (hs : z.notifyStart p = some (first, z')) :
    z'.procExited = z.procExited := by
  rw [ProcessTree.notifyStart] at hs
  split at hs
  · cases hs
    rfl
  split at hs
  · obtain ⟨-, rfl⟩ := Prod.mk.inj (Option.some.inj hs)
    split <;> rfl
  · simp at hs

theorem notifyStart_first {first : Bool} (hnew : (z.procArray p).started = false)
    (hs : z.notifyStart p = some (first, z')) : first = true := by
  rw [ProcessTree.notifyStart, if_neg (by simp [hnew])] at hs
  split at hs
  · exact (Prod.mk.inj (Option.some.inj hs)).1.symm
  · simp at hs

theorem ProcessInv.restarts (h : ProcessInv top z) (hp : z.procExited p = .PROC_RESTARTME) :
    z.globalActiveProcs ≠ 0 := fun hzero => by
  have hstarted := h.counts.ended p (by rw [hp]; decide)
  have hactive := h.counts.active_zero.mp hzero p (h.family.bound p hstarted)
  simp [Active, hstarted, hp] at hactive

theorem ProcessInv.keeps_restart (h : ProcessInv top z) (hstep : ProcessStep top z z')
    (hp : z.procExited p = .PROC_RESTARTME) (hout : p = 0 ∨ top ≤ p) :
    z'.procExited p = .PROC_RESTARTME := by
  have hlive : ∀ {q}, z.Live q → p ≠ q := by
    rintro q ⟨-, -, hrun⟩ rfl
    rw [hp] at hrun
    cases hrun
  cases hstep with
  | start _ hs => exact (congrFun (notifyStart_procExited hs) p).trans hp
  | fork hq hs =>
    obtain ⟨z₁, hz₁, -, rfl⟩ := getNextChild_cases hs
    rcases hz₁ with rfl | hnew
    · exact hp
    · exact (congrFun (newChild_grown hq.1 h.counts.size.2 hnew).procExited p).trans hp
  | forked _ hs => exact (congrFun (notifyStart_procExited hs) p).trans hp
  | enterFastForward hq hs =>
    exact (congrFun (h.counts.enterFastForward hq.1 hq.2.1 hs).2.2 p).trans hp
  | ffiFire hq hs =>
    exact (congrFun (h.counts.enterFastForward (h.family.bound _ hq) hq hs).2.2 p).trans hp
  | exitFastForward hq hs =>
    exact ((h.counts.exitFastForward hq hs).2.1.procExited p (hlive hq)).trans hp
  | finish hq hs => exact ((h.counts.notifyEnd hq hs).2.procExited p (hlive hq)).trans hp
  | @restart q hq _ hwait =>
    have hpq : p ≠ q := by
      rintro rfl
      rcases hout with rfl | hout
      · exact h.restarts hp (hwait rfl)
      · omega
    exact (Function.update_of_ne hpq _ _).trans hp
  | terminate => exact hp

theorem ProcessInv.getNextChild_none (h : ProcessInv top z) (hlive : z.Live p) :
    z.getNextChild p = none ↔ z.lineSize ≤ z.numProcs ∧
      (z.procArray p).curChildren = (z.procArray p).children.length := by
  have htake : ∀ y : ProcessTree, (y.procArray p).curChildren < (y.procArray p).children.length →
      ((y.procArray p).children[(y.procArray p).curChildren]?.map fun child =>
        (child, y.setNode p { y.procArray p with
          curChildren := (y.procArray p).curChildren + 1 })) ≠ none := by
    intro y hy hnone
    rw [Option.map_eq_none_iff, List.getElem?_eq_none_iff] at hnone
    omega
  rw [getNextChild]
  split
  · rename_i hcur
    cases hs : z.newChild p with
    | none =>
      have hroom : z.lineSize ≤ z.numProcs := by
        by_contra hroom
        rw [newChild, if_neg hroom] at hs
        cases hs
      simp [hroom, hcur]
    | some z₁ =>
      have hg := newChild_grown hlive.1 h.counts.size.2 hs
      have hroom := hg.room
      refine ⟨fun hnone => (htake z₁ ?_ hnone).elim, fun hfull => by omega⟩
      rw [hg.parent, List.length_append, hcur]
      exact Nat.lt_succ_self _
  · rename_i hcur
    have hle := h.family.cur p
    exact ⟨fun hnone => (htake z (by omega) hnone).elim, fun hfull => (hcur hfull.2).elim⟩

/-- An active process that simulates. -/
def Outside (z : ProcessTree) (p : Nat) : Bool := z.Active p && !z.InFF p

/-- A process that has ended and counts as fast-forwarding. -/
def LeftInFF (z : ProcessTree) (p : Nat) : Bool := z.InFF p && !z.Active p

/-- The counts of active and of fast-forwarding processes are exact in every run, where the event
of FFI can have a process enter fast-forward that has ended. The harness sees fewer in it than
active ones exactly when more of the active are outside than have ended and count as in it;
`notifyEnd` never fails its assert, and is told that it is the last by the last active process
alone. Process 0 never fails its assert when it starts, and another process fails only once
none is active any more. -/
theorem process_counters {lineSize : Nat} {cfg : ProcessConfigs} (hmax : lineSize < 2 ^ 32)
    (hreach : ProcessReachable lineSize cfg z) :
    z.globalActiveProcs = z.count Active ∧ z.globalFFProcs = z.count InFF ∧
    (z.globalFFProcs < z.globalActiveProcs ↔ z.count LeftInFF < z.count Outside) ∧
    ((∀ p < z.numProcs, z.LeftInFF p = false) →
      (z.globalFFProcs < z.globalActiveProcs ↔ ∃ p < z.numProcs, z.Outside p = true)) ∧
    (∀ p, z.Live p → ∃ last z', z.notifyEnd p = some (last, z') ∧
      (last = true ↔ ∀ q < z'.numProcs, z'.Active q = false)) ∧
    ∀ p, z.notifyStart p = none ↔ p ≠ 0 ∧ (z.procArray p).started = false ∧
      ∀ q < z.numProcs, z.Active q = false := by
  have h := ProcessInv.of_reachable hmax hreach
  have hlt : z.globalFFProcs < z.globalActiveProcs ↔ z.count LeftInFF < z.count Outside := by
    rw [h.counts.active, h.counts.ff]
    exact count_lt_count_iff
  refine ⟨h.counts.active, h.counts.ff, hlt, fun hnone => ?_, fun p hlive => ?_, fun p => ?_⟩
  · rw [hlt, count_eq_zero.mpr hnone, count_pos_iff]
  · obtain ⟨last, z', hs, hlast⟩ := notifyEnd_live h.counts hlive
    exact ⟨last, z', hs, hlast.trans (h.counts.notifyEnd hlive hs).1.active_zero⟩
  · rw [notifyStart_none, ← h.counts.active_zero]
    constructor
    · rintro ⟨hnew, hiff⟩
      have hp : p ≠ 0 := by
        rintro rfl
        refine hiff ⟨fun _ => ?_, fun _ => rfl⟩
        by_contra hactive
        rw [h.active hactive] at hnew
        cases hnew
      refine ⟨hp, hnew, ?_⟩
      by_contra hactive
      exact hiff ⟨fun h => absurd h hp, fun h => absurd h hactive⟩
    · rintro ⟨hp, hnew, hzero⟩
      exact ⟨hnew, fun hiff => hp (hiff.mpr hzero)⟩

/-- The second process ends and then enters fast-forward, while the first one simulates. -/
theorem process_counters_late : ∃ z, ProcessReachable 4
    (.process false .SFF_MULTIPROCESS 0 .done (.process false .SFF_MULTIPROCESS 0 .done .done)) z ∧
    z.globalActiveProcs = 1 ∧ z.globalFFProcs = 1 ∧ z.Outside 0 = true ∧
    z.LeftInFF 1 = true ∧ ¬z.count LeftInFF < z.count Outside := by
  have h₀ : ProcessReachable 4 (.process false .SFF_MULTIPROCESS 0 .done
    (.process false .SFF_MULTIPROCESS 0 .done .done)) _ := .init rfl
  have h₁ := h₀.step (.start (p := 0) (.inl (by decide)) rfl)
  have h₂ := h₁.step (.start (p := 1) (.inl (by decide)) rfl)
  have h₃ := h₂.step (.finish (p := 1) ⟨by decide, rfl, rfl⟩ rfl)
  have h₄ := h₃.step (.ffiFire (p := 1) rfl rfl)
  obtain ⟨-, -, hlt, -⟩ := process_counters (by decide) h₄
  exact ⟨_, h₄, rfl, rfl, rfl, rfl, fun hout => absurd (hlt.mpr hout) (by decide)⟩

/-- Unless process 0 made the second process while it was in fast-forward, the synced count is
that of the processes in synced fast-forward, and a phase goes on when there is none. Else it
is one short for ever: a phase goes on while there is exactly one such process, and with none
the count has wrapped round and no phase ends any more. It comes to that only where the
configuration has a single process. -/
theorem synced_ff_counter {lineSize : Nat} {cfg : ProcessConfigs} (hmax : lineSize < 2 ^ 32)
    (hreach : ProcessReachable lineSize cfg z) :
    (z.uncounted = false → z.globalSyncedFFProcs = z.count InSyncedFF ∧
      (z.globalSyncedFFProcs = 0 ↔ ∀ p < z.numProcs, z.InSyncedFF p = false)) ∧
    (z.uncounted = true → cfg.nodes.length < 2 ∧
      (z.globalSyncedFFProcs + 1) % 2 ^ 32 = z.count InSyncedFF ∧
      (z.globalSyncedFFProcs = 0 ↔ z.count InSyncedFF = 1) ∧
      ((∀ p < z.numProcs, z.InSyncedFF p = false) → z.globalSyncedFFProcs = 2 ^ 32 - 1)) := by
  have h := ProcessInv.of_reachable hmax hreach
  have hsynced := h.counts.synced
  have hlt := h.counts.lt
  refine ⟨fun hc => ?_, fun hc => ?_⟩ <;> rw [hc] at hsynced
  · have hcount : z.globalSyncedFFProcs = z.count InSyncedFF := by
      rw [← hsynced]
      exact (Nat.mod_eq_of_lt hlt).symm
    exact ⟨hcount, by rw [hcount, count_eq_zero]⟩
  · have htop : cfg.nodes.length < 2 := by
      by_contra htop
      rw [h.alone (by omega)] at hc
      cases hc
    change (z.globalSyncedFFProcs + 1) % 2 ^ 32 = z.count InSyncedFF at hsynced
    refine ⟨htop, hsynced, by omega, fun hnone => ?_⟩
    rw [count_eq_zero.mpr hnone] at hsynced
    omega

/-- Process 0 starts fast-forwarded and alone, forks, and goes out of fast-forward. -/
theorem synced_ff_counter_wrapped : ∃ z,
    ProcessReachable 4 (.process true .SFF_MULTIPROCESS 0 .done .done) z ∧
    z.uncounted = true ∧ z.count InSyncedFF = 0 ∧ z.globalSyncedFFProcs = 2 ^ 32 - 1 := by
  have h₀ : ProcessReachable 4 (.process true .SFF_MULTIPROCESS 0 .done .done) _ := .init rfl
  have h₁ := h₀.step (.start (p := 0) (.inl (by decide)) rfl)
  have h₂ := h₁.step (.fork (p := 0) ⟨by decide, rfl, rfl⟩ rfl)
  have h₃ := h₂.step (.exitFastForward (p := 0) ⟨by decide, rfl, rfl⟩ rfl)
  obtain ⟨-, hcount, -⟩ := (synced_ff_counter (by decide) h₃).2 rfl
  exact ⟨_, h₃, rfl, hcount.symm, rfl⟩

/-- Whatever forks and starts there have been, a fork gets a child that no other fork got, that
the harness does not launch and that has not started, as long as there is one left of the
configuration or room for one more process. Its start is always a first start, if any process
is active. -/
theorem forked_child_fresh {lineSize : Nat} {cfg : ProcessConfigs} (hmax : lineSize < 2 ^ 32)
    (hreach : ProcessReachable lineSize cfg z) :
    (∀ p, z.Live p → (z.getNextChild p = none ↔ z.lineSize ≤ z.numProcs ∧
      (z.procArray p).curChildren = (z.procArray p).children.length)) ∧
    (∀ p c z', z.Live p → z.getNextChild p = some (c, z') → cfg.nodes.length ≤ c ∧
      c < z'.numProcs ∧ (z'.procArray c).started = false ∧ c ∉ z.forked ∧
      ∀ q, c ∈ (z'.procArray q).children → q = p) ∧
    ∀ c ∈ z.forked, (∃ q < z.numProcs, z.Active q = true) →
      ∃ z', z.notifyStart c = some (true, z') ∧ (z'.procArray c).started = true := by
  have h := ProcessInv.of_reachable hmax hreach
  refine ⟨fun p hlive => h.getNextChild_none hlive, fun p c z' hlive hs => ?_,
    fun c hc hactive => ?_⟩
  · have h' := (h.fork hlive hs).family
    obtain ⟨htop, hlt, hnew⟩ := h'.forked c List.mem_cons_self
    refine ⟨htop, hlt, hnew, (List.nodup_cons.mp h'.nodup).1, fun q hq => ?_⟩
    refine h'.numbered.owner q p c hq ?_
    obtain ⟨z₁, -, hc, rfl⟩ := getNextChild_cases hs
    change c ∈ (Function.update z₁.procArray p _ p).children
    rw [Function.update_self]
    exact List.mem_of_getElem? hc
  · obtain ⟨-, hlt, hnew⟩ := h.family.forked c hc
    have hne : z.globalActiveProcs ≠ 0 := fun hzero => by
      obtain ⟨q, hq, hactive⟩ := hactive
      rw [h.counts.active_zero.mp hzero q hq] at hactive
      cases hactive
    have hc₀ : c ≠ 0 := by
      rintro rfl
      rw [h.active hne] at hnew
      cases hnew
    obtain ⟨⟨first, z'⟩, hs⟩ : ∃ r, z.notifyStart c = some r := by
      refine Option.ne_none_iff_exists'.mp fun hnone => (notifyStart_none.mp hnone).2 ?_
      simp [hc₀, hne]
    obtain rfl := notifyStart_first hnew hs
    exact ⟨z', hs, (h.counts.notifyStart hlt hs).2.2⟩

/-- The first process has no child in the configuration and gets one when it forks. -/
theorem forked_child_fresh_one : ∃ z z', ProcessReachable 4
    (.process false .SFF_MULTIPROCESS 0 .done .done) z ∧ z.getNextChild 0 = some (1, z') ∧
      1 ∉ z.forked ∧ ∀ q, 1 ∈ (z'.procArray q).children → q = 0 := by
  have h₀ : ProcessReachable 4 (.process false .SFF_MULTIPROCESS 0 .done .done) _ := .init rfl
  have h₁ := h₀.step (.start (p := 0) (.inl (by decide)) rfl)
  obtain ⟨-, hchild, -⟩ := forked_child_fresh (by decide) h₁
  obtain ⟨-, -, -, hnot, hone⟩ := hchild 0 1 _ ⟨by decide, rfl, rfl⟩ rfl
  exact ⟨_, _, h₁, rfl, hnot, hone⟩

/-- A process that leaves to be started again and that the harness did not launch itself, or
that is process 0, is never started again, and the processes never count as finished. -/
theorem lost_restart {lineSize : Nat} {cfg : ProcessConfigs} (hmax : lineSize < 2 ^ 32)
    (hreach : ProcessReachable lineSize cfg z) (hp : z.procExited p = .PROC_RESTARTME)
    (hout : p = 0 ∨ cfg.nodes.length ≤ p)
    (hrun : Relation.ReflTransGen (ProcessStep cfg.nodes.length) z z') :
    z'.procExited p = .PROC_RESTARTME ∧ z'.globalActiveProcs ≠ 0 := by
  have hkeeps : ProcessInv cfg.nodes.length z' ∧ z'.procExited p = .PROC_RESTARTME := by
    induction hrun with
    | refl => exact ⟨.of_reachable hmax hreach, hp⟩
    | tail _ hstep ih => exact ⟨ih.1.step hstep, ih.1.keeps_restart hstep ih.2 hout⟩
  exact ⟨hkeeps.2, hkeeps.1.restarts hkeeps.2⟩

/-- Process 0 ends with a restart left. -/
theorem lost_restart_zero : ∃ z,
    ProcessReachable 4 (.process false .SFF_MULTIPROCESS 1 .done .done) z ∧
    ∀ z', Relation.ReflTransGen (ProcessStep 1) z z' → z'.globalActiveProcs ≠ 0 := by
  have h₀ : ProcessReachable 4 (.process false .SFF_MULTIPROCESS 1 .done .done) _ := .init rfl
  have h₁ := h₀.step (.start (p := 0) (.inl (by decide)) rfl)
  have h₂ := h₁.step (.finish (p := 0) ⟨by decide, rfl, rfl⟩ rfl)
  exact ⟨_, h₂, fun z' hrun => (lost_restart (by decide) h₂ rfl (.inl rfl) hrun).2⟩

end ProcessTree

end ZSim
