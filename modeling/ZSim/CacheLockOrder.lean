import ZSim.CacheLocks

/-! The locks of the memory hierarchy are taken in order: the `tcc` locks from the cores to the
memories, then the `bcc` locks from the memories to the cores, the locks of the filter caches
and the leaves. So no access and no invalidation ever waits for one that waits for it. -/

namespace ZSim

open LockProgram

namespace MemGraph

variable {N : Type} (g : MemGraph N)

def rank : MemLock N → Nat
  | .tcc n => g.height n
  | .bcc n => g.depth + 1 + (g.depth - g.height n)
  | .filter _ => 2 * g.depth + 2
  | .leaf _ => 2 * g.depth + 3

/-- Terminal controllers have no `tcc`. -/
def top (n : N) : List (MemLock N) :=
  if g.kind n = .filterCache then [] else [.tcc n]

def heldAccess (n : N) (l : Option (MemLock N)) : AccessPt N → List (MemLock N)
  | .unlockChild | .lockTrace => l.toList
  | .lockTcc => []
  | .lockBcc | .putting | .getting => g.top n
  | .lookup | .evictInv _ | .evictPut | .get | .accessInv _ | .relockChild => .bcc n :: g.top n
  | .unlockBcc => l.toList ++ .bcc n :: g.top n
  | .unlockTcc => l.toList ++ g.top n
  | .unlockTrace => .leaf n :: l.toList

def heldInv (n : N) : InvPt N → List (MemLock N)
  | .lockBcc => []
  | .lockFilter => [.bcc n]
  | .send _ | .unlockBcc => .bcc n :: if g.kind n = .filterCache then [.filter n] else []
  | .unlockFilter => [.filter n]

/-- What a call holds. While a call is in `access` of another object, its lock is the child lock
of that access. -/
def heldFrame : MemFrame N → List (MemLock N)
  | .replace n .call | .replace n .unlock | .contextSwitch n .unlock => [.filter n]
  | .replace _ _ | .contextSwitch _ _ => []
  | .access n l pt => g.heldAccess n l pt
  | .prefetch _ l _ false | .memory _ l .start | .memory _ l .lock => l.toList
  | .prefetch _ _ _ true => []
  | .memory n l .unlock => .leaf n :: l.toList
  | .invalidate n pt => g.heldInv n pt

def held (fs : MemStack N) : List (MemLock N) :=
  fs.flatMap g.heldFrame

/-- The stacks under an access to `n` with a child lock. -/
inductive AccessCtx : N → Option (MemLock N) → MemStack N → Prop
  | trace {n} : AccessCtx n none []
  | replace {n} : g.kind n = .filterCache → AccessCtx n (some (.filter n)) [.replace n .calling]
  | put {n l fs p} : AccessCtx n l fs → p ∈ g.parents n →
      AccessCtx p (some (.bcc n)) (.access n l .putting :: fs)
  | get {n l fs p} : AccessCtx n l fs → p ∈ g.parents n →
      AccessCtx p (some (.bcc n)) (.access n l .getting :: fs)
  | prefetch {n l fs p left} : AccessCtx n l fs → g.kind n = .prefetcher → p ∈ g.parents n →
      AccessCtx p l (.prefetch n l left true :: fs)

/-- The stacks under an invalidation of `n`. -/
inductive InvCtx : N → MemStack N → Prop
  | evict {n k l fs ks} : g.AccessCtx n l fs → k ∈ g.children n → ks ⊆ g.children n →
      InvCtx k (.access n l (.evictInv ks) :: fs)
  | access {n k l fs ks} : g.AccessCtx n l fs → k ∈ g.children n → ks ⊆ g.children n →
      InvCtx k (.access n l (.accessInv ks) :: fs)
  | send {n k fs ks} : InvCtx n fs → k ∈ g.children n → ks ⊆ g.children n →
      InvCtx k (.invalidate n (.send ks) :: fs)
  | prefetch {n k fs} : InvCtx n fs → k ∈ g.children n → InvCtx k fs

/-- The points of an access that is on top of its stack. -/
def AccessTop (n : N) : AccessPt N → Prop
  | .putting | .getting => False
  | .evictInv ks | .accessInv ks => ks ⊆ g.children n
  | .unlockTcc => g.kind n ≠ .filterCache
  | _ => True

def InvTop (n : N) : InvPt N → Prop
  | .lockFilter | .unlockFilter => g.kind n = .filterCache
  | .send ks => ks ⊆ g.children n
  | _ => True

inductive Valid : MemStack N → Prop
  | nil : Valid []
  | replace {n pt} : g.kind n = .filterCache → pt ≠ .calling → Valid [.replace n pt]
  | contextSwitch {n pt} : pt = .lock ∨ pt = .unlock → Valid [.contextSwitch n pt]
  | access {n l pt fs} : g.AccessCtx n l fs → g.AccessTop n pt → Valid (.access n l pt :: fs)
  | prefetch {n l left fs} : g.AccessCtx n l fs → g.kind n = .prefetcher →
      Valid (.prefetch n l left false :: fs)
  | memory {n l pt fs} : g.AccessCtx n l fs → Valid (.memory n l pt :: fs)
  | invalidate {n pt fs} : g.InvCtx n fs → g.InvTop n pt → Valid (.invalidate n pt :: fs)

variable {g} {n k p : N} {l : Option (MemLock N)} {fs fs' : MemStack N} {i j : MemLock N}

@[simp] theorem held_nil : g.held [] = [] := rfl

@[simp] theorem held_cons (f : MemFrame N) : g.held (f :: fs) = g.heldFrame f ++ g.held fs := rfl

theorem rank_bcc_lt (hk : k ∈ g.children n) : g.rank (.bcc n) < g.rank (.bcc k) := by
  have hlt := g.child_lt hk
  have hle := g.height_le n
  simp only [rank]
  omega

theorem rank_bcc_parent_lt (hp : p ∈ g.parents n) : g.rank (.bcc p) < g.rank (.bcc n) := by
  have hlt := g.parent_lt hp
  have hle := g.height_le p
  simp only [rank]
  omega

theorem rank_tcc_lt_bcc (n k : N) : g.rank (.tcc n) < g.rank (.bcc k) := by
  have hle := g.height_le n
  simp only [rank]
  omega

theorem rank_bcc_lt_filter (n k : N) : g.rank (.bcc n) < g.rank (.filter k) := by
  simp only [rank]
  omega

theorem rank_bcc_lt_leaf (n k : N) : g.rank (.bcc n) < g.rank (.leaf k) := by
  simp only [rank]
  omega

theorem mem_top (h : j ∈ g.top n) : j = .tcc n := by
  unfold top at h
  split at h <;> simp_all

theorem AccessCtx.low (h : g.AccessCtx n l fs) : ∀ j ∈ g.held fs, g.rank j < g.rank (.tcc n) := by
  induction h with
  | trace => simp
  | replace => simp [heldFrame]
  | put _ hp ih | get _ hp ih =>
    intro j hj
    have hlt := g.parent_lt hp
    rw [held_cons, List.mem_append] at hj
    rcases hj with hj | hj
    · rw [mem_top hj]
      exact hlt
    · exact (ih j hj).trans hlt
  | prefetch _ _ hp ih =>
    intro j hj
    exact (ih j hj).trans (g.parent_lt hp)

theorem AccessCtx.childLock (h : g.AccessCtx n l fs) :
    ∀ i ∈ l, g.rank (.bcc n) < g.rank i ∧ ∀ k, g.rank i < g.rank (.leaf k) := by
  induction h with
  | trace => simp
  | replace =>
    rintro i ⟨⟩
    exact ⟨rank_bcc_lt_filter _ _, fun k => Nat.lt_succ_self _⟩
  | put _ hp | get _ hp =>
    rintro i ⟨⟩
    exact ⟨rank_bcc_parent_lt hp, rank_bcc_lt_leaf _⟩
  | prefetch _ _ hp ih =>
    intro i hi
    exact ⟨(rank_bcc_parent_lt hp).trans (ih i hi).1, (ih i hi).2⟩

/-- The call of `access` returns with the child lock. -/
theorem AccessCtx.returned_held (h : g.AccessCtx n l fs) :
    g.held (g.returned fs) = l.toList ++ g.held fs := by
  cases h <;> simp [returned, heldFrame, heldAccess]

theorem AccessCtx.valid (h : g.AccessCtx n l fs) : g.Valid (g.returned fs) := by
  cases h with
  | trace => exact .nil
  | replace hkind => exact .replace hkind (by simp)
  | put hctx => exact .access hctx trivial
  | get hctx => exact .access hctx (List.Subset.refl _)
  | prefetch hctx hkind => exact .prefetch hctx hkind

theorem AccessCtx.valid_access (h : g.AccessCtx n l fs) : g.Valid (g.access n l :: fs) := by
  unfold access
  split
  · exact .memory h
  · exact .prefetch h ‹_›
  · exact .access h trivial

theorem held_access : g.held (g.access n l :: fs) = l.toList ++ g.held fs := by
  unfold access
  split <;> rfl

theorem not_terminal (hk : k ∈ g.children n) : g.kind n ≠ .filterCache := by
  intro hkind
  rw [g.terminal hkind] at hk
  exact List.not_mem_nil hk

theorem InvCtx.valid (h : g.InvCtx n fs) : g.Valid fs := by
  induction h with
  | evict hctx _ hks => exact .access hctx hks
  | access hctx _ hks => exact .access hctx hks
  | send hctx _ hks => exact .invalidate hctx hks
  | prefetch _ _ ih => exact ih

theorem InvCtx.low (h : g.InvCtx n fs) : ∀ j ∈ g.held fs, g.rank j < g.rank (.bcc n) := by
  induction h with
  | @evict n k l fs ks hctx hk | @access n k l fs ks hctx hk =>
    intro j hj
    rw [held_cons, List.mem_append] at hj
    rcases hj with hj | hj
    · rcases List.mem_cons.mp hj with rfl | hj
      · exact rank_bcc_lt hk
      · rw [mem_top hj]
        exact rank_tcc_lt_bcc _ _
    · exact (hctx.low j hj).trans (rank_tcc_lt_bcc _ _)
  | send _ hk _ ih =>
    intro j hj
    rw [held_cons, List.mem_append] at hj
    rcases hj with hj | hj
    · simp only [heldFrame, heldInv, if_neg (not_terminal hk), List.mem_singleton] at hj
      rw [hj]
      exact rank_bcc_lt hk
    · exact (ih j hj).trans (rank_bcc_lt hk)
  | prefetch _ hk ih =>
    intro j hj
    exact (ih j hj).trans (rank_bcc_lt hk)

/-- What a `lock` needs: the invariant after it, and that it is above all that is held. -/
def Locks (g : MemGraph N) (fs : MemStack N) (i : MemLock N) (fs' : MemStack N) : Prop :=
  g.Valid fs' ∧ (g.held fs').Perm (i :: g.held fs) ∧ ∀ j ∈ g.held fs, g.rank j < g.rank i

theorem locks_access {pt : AccessPt N} (hctx : g.AccessCtx n l fs) (hpt : g.AccessTop n pt)
    (h : g.accessInstr n l fs pt = .lock i fs') : g.Locks (.access n l pt :: fs) i fs' := by
  cases pt with
  | lockTcc =>
    simp only [accessInstr] at h
    split at h
    · simp [goes] at h
    · rename_i hkind
      cases h
      refine ⟨.access hctx trivial, ?_, hctx.low⟩
      simp [heldFrame, heldAccess, top, hkind]
  | lockBcc =>
    cases h
    refine ⟨.access hctx trivial, .refl _, ?_⟩
    intro j hj
    rw [held_cons, List.mem_append] at hj
    rcases hj with hj | hj
    · rw [mem_top hj]
      exact rank_tcc_lt_bcc _ _
    · exact (hctx.low j hj).trans (rank_tcc_lt_bcc _ _)
  | relockChild =>
    cases l with
    | none => simp [accessInstr, goes] at h
    | some lock =>
      cases h
      refine ⟨.access hctx trivial, .refl _, ?_⟩
      have hlt := (hctx.childLock i rfl).1
      intro j hj
      rw [held_cons, List.mem_append] at hj
      rcases hj with hj | hj
      · rcases List.mem_cons.mp hj with rfl | hj
        · exact hlt
        · rw [mem_top hj]
          exact (rank_tcc_lt_bcc _ _).trans hlt
      · exact ((hctx.low j hj).trans (rank_tcc_lt_bcc _ _)).trans hlt
  | lockTrace =>
    cases h
    refine ⟨.access hctx trivial, .refl _, ?_⟩
    intro j hj
    rw [held_cons, List.mem_append] at hj
    rcases hj with hj | hj
    · exact (hctx.childLock j (Option.mem_toList.mp hj)).2 n
    · exact (hctx.low j hj).trans ((rank_tcc_lt_bcc _ _).trans (rank_bcc_lt_leaf n n))
  | unlockChild => cases l <;> simp [accessInstr, goes] at h
  | evictInv ks | accessInv ks => cases ks <;> simp [accessInstr, goes] at h
  | _ => simp [accessInstr, goes] at h

theorem locks_invalidate {pt : InvPt N} (hctx : g.InvCtx n fs) (hpt : g.InvTop n pt)
    (h : g.invalidateInstr n fs pt = .lock i fs') : g.Locks (.invalidate n pt :: fs) i fs' := by
  cases pt with
  | lockBcc =>
    simp only [invalidateInstr] at h
    split at h
    · simp [goes] at h
    · cases h
      by_cases hkind : g.kind n = .filterCache
      · rw [if_pos hkind]
        exact ⟨.invalidate hctx hkind, .refl _, hctx.low⟩
      · rw [if_neg hkind]
        refine ⟨.invalidate hctx (List.Subset.refl _), ?_, hctx.low⟩
        simp [heldFrame, heldInv, hkind]
  | lockFilter =>
    have hkind : g.kind n = .filterCache := hpt
    cases h
    refine ⟨.invalidate hctx (List.Subset.refl _), ?_, ?_⟩
    · simp only [held_cons, heldFrame, heldInv, if_pos hkind]
      exact .swap _ _ _
    · intro j hj
      rcases List.mem_cons.mp hj with rfl | hj
      · exact rank_bcc_lt_filter _ _
      · exact (hctx.low j hj).trans (rank_bcc_lt_filter _ _)
  | send ks => cases ks <;> simp [invalidateInstr, goes] at h
  | _ => simp [invalidateInstr] at h

theorem Valid.locks (hv : g.Valid fs) (h : g.instr fs = .lock i fs') : g.Locks fs i fs' := by
  cases hv with
  | nil => simp [instr, goes] at h
  | @replace n pt hkind =>
    cases pt with
    | lock =>
      cases h
      exact ⟨.replace hkind (by simp), .refl _, by simp [heldFrame]⟩
    | _ => simp [instr, goes] at h
  | @contextSwitch n pt =>
    cases pt with
    | lock =>
      cases h
      exact ⟨.contextSwitch (.inr rfl), .refl _, by simp [heldFrame]⟩
    | _ => simp [instr, goes] at h
  | access hctx hpt => exact locks_access hctx hpt h
  | prefetch => simp [instr, goes] at h
  | @memory n l pt fs hctx =>
    cases pt with
    | lock =>
      cases h
      refine ⟨.memory hctx, .refl _, ?_⟩
      intro j hj
      rw [held_cons, List.mem_append] at hj
      rcases hj with hj | hj
      · exact (hctx.childLock j (Option.mem_toList.mp hj)).2 n
      · exact (hctx.low j hj).trans ((rank_tcc_lt_bcc _ _).trans (rank_bcc_lt_leaf n n))
    | _ => simp [instr, goes] at h
  | invalidate hctx hpt => exact locks_invalidate hctx hpt h

def Unlocks (g : MemGraph N) (fs : MemStack N) (i : MemLock N) (fs' : MemStack N) : Prop :=
  g.Valid fs' ∧ (g.held fs).Perm (i :: g.held fs')

theorem unlocks_access {pt : AccessPt N} (hctx : g.AccessCtx n l fs) (hpt : g.AccessTop n pt)
    (h : g.accessInstr n l fs pt = .unlock i fs') : g.Unlocks (.access n l pt :: fs) i fs' := by
  cases pt with
  | unlockChild =>
    cases l with
    | none => simp [accessInstr, goes] at h
    | some lock =>
      cases h
      exact ⟨.access hctx trivial, .refl _⟩
  | unlockBcc =>
    cases h
    by_cases hkind : g.kind n = .filterCache
    · rw [if_pos hkind]
      refine ⟨hctx.valid, ?_⟩
      rw [hctx.returned_held]
      simp [heldFrame, heldAccess, top, hkind, List.perm_middle]
    · rw [if_neg hkind]
      refine ⟨.access hctx hkind, ?_⟩
      simp [heldFrame, heldAccess, List.perm_middle]
  | unlockTcc =>
    have hkind : g.kind n ≠ .filterCache := hpt
    cases h
    split
    · refine ⟨.access hctx trivial, ?_⟩
      simp [heldFrame, heldAccess, top, hkind, List.perm_middle]
    · refine ⟨hctx.valid, ?_⟩
      rw [hctx.returned_held]
      simp [heldFrame, heldAccess, top, hkind, List.perm_middle]
  | unlockTrace =>
    cases h
    refine ⟨hctx.valid, ?_⟩
    rw [hctx.returned_held]
    exact .refl _
  | lockTcc =>
    simp only [accessInstr] at h
    split at h <;> simp [goes] at h
  | relockChild => cases l <;> simp [accessInstr, goes] at h
  | evictInv ks | accessInv ks => cases ks <;> simp [accessInstr, goes] at h
  | _ => simp [accessInstr, goes] at h

theorem unlocks_invalidate {pt : InvPt N} (hctx : g.InvCtx n fs) (hpt : g.InvTop n pt)
    (h : g.invalidateInstr n fs pt = .unlock i fs') : g.Unlocks (.invalidate n pt :: fs) i fs' := by
  cases pt with
  | unlockBcc =>
    cases h
    by_cases hkind : g.kind n = .filterCache
    · rw [if_pos hkind]
      refine ⟨.invalidate hctx hkind, ?_⟩
      simp [heldFrame, heldInv, hkind]
    · rw [if_neg hkind]
      refine ⟨hctx.valid, ?_⟩
      simp [heldFrame, heldInv, hkind]
  | unlockFilter =>
    cases h
    exact ⟨hctx.valid, .refl _⟩
  | lockBcc =>
    simp only [invalidateInstr] at h
    split at h <;> simp [goes] at h
  | send ks => cases ks <;> simp [invalidateInstr, goes] at h
  | lockFilter => simp [invalidateInstr] at h

theorem Valid.unlocks (hv : g.Valid fs) (h : g.instr fs = .unlock i fs') : g.Unlocks fs i fs' := by
  cases hv with
  | nil => simp [instr, goes] at h
  | @replace n pt hkind =>
    cases pt with
    | unlock =>
      cases h
      exact ⟨.nil, .refl _⟩
    | _ => simp [instr, goes] at h
  | @contextSwitch n pt =>
    cases pt with
    | unlock =>
      cases h
      exact ⟨.nil, .refl _⟩
    | _ => simp [instr, goes] at h
  | access hctx hpt => exact unlocks_access hctx hpt h
  | prefetch => simp [instr, goes] at h
  | @memory n l pt fs hctx =>
    cases pt with
    | unlock =>
      cases h
      refine ⟨hctx.valid, ?_⟩
      rw [hctx.returned_held]
      exact .refl _
    | _ => simp [instr, goes] at h
  | invalidate hctx hpt => exact unlocks_invalidate hctx hpt h

/-- What any other step needs. -/
def Keeps (g : MemGraph N) (fs fs' : MemStack N) : Prop :=
  g.Valid fs' ∧ (g.held fs').Perm (g.held fs)

/-- The call of an access takes nothing and gives nothing back, and so does its return. -/
theorem AccessCtx.keeps_call (h : g.AccessCtx n l fs) (hheld : g.held fs' = l.toList ++ g.held fs) :
    g.Keeps fs' (g.access n l :: fs) := by
  refine ⟨h.valid_access, ?_⟩
  rw [held_access, hheld]

theorem AccessCtx.keeps_return (h : g.AccessCtx n l fs)
    (hheld : g.held fs' = l.toList ++ g.held fs) : g.Keeps fs' (g.returned fs) := by
  refine ⟨h.valid, ?_⟩
  rw [h.returned_held, hheld]

theorem keeps_access {pt : AccessPt N} {r : Unit → Unit → MemStack N → Prop} {d d' : Unit}
    (hctx : g.AccessCtx n l fs) (hpt : g.AccessTop n pt)
    (h : g.accessInstr n l fs pt = .act r) (hr : r d d' fs') :
    g.Keeps (.access n l pt :: fs) fs' := by
  cases pt with
  | unlockChild =>
    cases l with
    | none =>
      cases h
      cases hr
      exact ⟨.access hctx trivial, .refl _⟩
    | some lock => simp [accessInstr] at h
  | lockTcc =>
    simp only [accessInstr] at h
    split at h
    · rename_i hkind
      cases h
      cases hr
      refine ⟨.access hctx trivial, ?_⟩
      simp [heldFrame, heldAccess, top, hkind]
    · simp at h
  | lookup =>
    cases h
    rcases hr with rfl | rfl | rfl
    · exact ⟨.access hctx trivial, .refl _⟩
    · exact ⟨.access hctx trivial, .refl _⟩
    · exact ⟨.access hctx (List.Subset.refl _), .refl _⟩
  | evictInv ks =>
    cases ks with
    | nil =>
      cases h
      cases hr
      exact ⟨.access hctx trivial, .refl _⟩
    | cons k ks =>
      cases h
      obtain ⟨hk, hks⟩ := List.cons_subset.mp hpt
      rcases hr with rfl | rfl
      · exact ⟨.access hctx hks, .refl _⟩
      · exact ⟨.invalidate (.evict hctx hk hks) trivial, .refl _⟩
  | accessInv ks =>
    cases ks with
    | nil =>
      cases h
      cases hr
      exact ⟨.access hctx trivial, .refl _⟩
    | cons k ks =>
      cases h
      obtain ⟨hk, hks⟩ := List.cons_subset.mp hpt
      rcases hr with rfl | rfl
      · exact ⟨.access hctx hks, .refl _⟩
      · exact ⟨.invalidate (.access hctx hk hks) trivial, .refl _⟩
  | evictPut =>
    cases h
    rcases hr with rfl | ⟨p, hp, rfl⟩
    · exact ⟨.access hctx trivial, .refl _⟩
    · exact (hctx.put hp).keeps_call rfl
  | get =>
    cases h
    rcases hr with rfl | ⟨p, hp, rfl⟩
    · exact ⟨.access hctx (List.Subset.refl _), .refl _⟩
    · exact (hctx.get hp).keeps_call rfl
  | relockChild =>
    cases l with
    | none =>
      cases h
      cases hr
      exact ⟨.access hctx trivial, .refl _⟩
    | some lock => simp [accessInstr] at h
  | putting | getting => exact hpt.elim
  | _ => simp [accessInstr] at h

theorem keeps_invalidate {pt : InvPt N} {r : Unit → Unit → MemStack N → Prop} {d d' : Unit}
    (hctx : g.InvCtx n fs) (hpt : g.InvTop n pt)
    (h : g.invalidateInstr n fs pt = .act r) (hr : r d d' fs') :
    g.Keeps (.invalidate n pt :: fs) fs' := by
  cases pt with
  | lockBcc =>
    simp only [invalidateInstr] at h
    split at h
    · cases h
      obtain ⟨k, hk, rfl⟩ := hr
      exact ⟨.invalidate (.prefetch hctx hk) trivial, .refl _⟩
    · simp at h
  | send ks =>
    cases ks with
    | nil =>
      cases h
      cases hr
      exact ⟨.invalidate hctx trivial, .refl _⟩
    | cons k ks =>
      cases h
      obtain ⟨hk, hks⟩ := List.cons_subset.mp hpt
      rcases hr with rfl | rfl
      · exact ⟨.invalidate hctx hks, .refl _⟩
      · exact ⟨.invalidate (.send hctx hk hks) trivial, .refl _⟩
  | _ => simp [invalidateInstr] at h

theorem Valid.keeps {r : Unit → Unit → MemStack N → Prop} {d d' : Unit} (hv : g.Valid fs)
    (h : g.instr fs = .act r) (hr : r d d' fs') : g.Keeps fs fs' := by
  cases hv with
  | nil =>
    cases h
    rcases hr with ⟨n, hkind, rfl | rfl⟩ | ⟨n, rfl⟩
    · exact ⟨.replace hkind (by simp), .refl _⟩
    · exact ⟨.contextSwitch (.inl rfl), .refl _⟩
    · exact AccessCtx.trace.keeps_call rfl
  | @replace n pt hkind hpt =>
    cases pt with
    | call =>
      cases h
      cases hr
      exact ⟨.access (.replace hkind) trivial, .refl _⟩
    | calling => exact (hpt rfl).elim
    | _ => simp [instr] at h
  | @contextSwitch n pt hpt =>
    rcases hpt with rfl | rfl <;> simp [instr] at h
  | access hctx hpt => exact keeps_access hctx hpt h hr
  | @prefetch n l left fs hctx hkind =>
    cases h
    rcases hr with ⟨_, rfl⟩ | ⟨left', p, rfl, hp, rfl⟩
    · exact hctx.keeps_return rfl
    · exact (hctx.prefetch hkind hp).keeps_call rfl
  | @memory n l pt fs hctx =>
    cases pt with
    | start =>
      cases h
      rcases hr with rfl | rfl
      · exact hctx.keeps_return rfl
      · exact ⟨.memory hctx, .refl _⟩
    | _ => simp [instr] at h
  | invalidate hctx hpt => exact keeps_invalidate hctx hpt h hr

/-- A call on top of its stack always has a next step. -/
theorem Valid.goes_on {r : Unit → Unit → MemStack N → Prop} (hv : g.Valid fs)
    (hbusy : fs ≠ []) (h : g.instr fs = .act r) : ∃ fs', r () () fs' := by
  cases hv with
  | nil => exact (hbusy rfl).elim
  | @replace n pt hkind hpt =>
    cases pt with
    | call =>
      cases h
      exact ⟨_, rfl⟩
    | calling => exact (hpt rfl).elim
    | _ => simp [instr] at h
  | @contextSwitch n pt hpt =>
    rcases hpt with rfl | rfl <;> simp [instr] at h
  | @access n l pt fs hctx hpt =>
    cases pt with
    | unlockChild =>
      cases l with
      | none =>
        cases h
        exact ⟨_, rfl⟩
      | some lock => simp [instr, accessInstr] at h
    | lockTcc =>
      simp only [instr, accessInstr] at h
      split at h
      · cases h
        exact ⟨_, rfl⟩
      · simp at h
    | lookup | evictPut | get =>
      cases h
      exact ⟨_, .inl rfl⟩
    | evictInv ks | accessInv ks =>
      cases ks with
      | nil =>
        cases h
        exact ⟨_, rfl⟩
      | cons k ks =>
        cases h
        exact ⟨_, .inl rfl⟩
    | relockChild =>
      cases l with
      | none =>
        cases h
        exact ⟨_, rfl⟩
      | some lock => simp [instr, accessInstr] at h
    | putting | getting => exact hpt.elim
    | _ => simp [instr, accessInstr] at h
  | @prefetch n l left fs hctx hkind =>
    cases h
    cases left with
    | zero => exact ⟨_, .inl ⟨by decide, rfl⟩⟩
    | succ left =>
      obtain ⟨p, hp⟩ := List.exists_mem_of_ne_nil _ (g.prefetcher_parent hkind)
      exact ⟨_, .inr ⟨left, p, rfl, hp, rfl⟩⟩
  | @memory n l pt fs hctx =>
    cases pt with
    | start =>
      cases h
      exact ⟨_, .inl rfl⟩
    | _ => simp [instr] at h
  | @invalidate n pt fs hctx hpt =>
    cases pt with
    | lockBcc =>
      simp only [instr, invalidateInstr] at h
      split at h
      · rename_i hkind
        cases h
        obtain ⟨k, hk⟩ := List.exists_mem_of_ne_nil _ (g.prefetcher_child hkind)
        exact ⟨_, k, hk, rfl⟩
      · simp at h
    | send ks =>
      cases ks with
      | nil =>
        cases h
        exact ⟨_, rfl⟩
      | cons k ks =>
        cases h
        exact ⟨_, .inl rfl⟩
    | _ => simp [instr, invalidateInstr] at h

theorem accessInstr_ne_tryLock (pt : AccessPt N) (won lost : MemStack N) :
    g.accessInstr n l fs pt ≠ .tryLock i won lost := by
  fun_cases accessInstr g n l fs pt <;> simp [goes]

theorem invalidateInstr_ne_tryLock (pt : InvPt N) (won lost : MemStack N) :
    g.invalidateInstr n fs pt ≠ .tryLock i won lost := by
  fun_cases invalidateInstr g n fs pt <;> simp [goes]

theorem instr_ne_tryLock (fs won lost : MemStack N) : g.instr fs ≠ .tryLock i won lost := by
  fun_cases instr g fs <;>
    simp [goes, accessInstr_ne_tryLock, invalidateInstr_ne_tryLock]

theorem rank_le (i : MemLock N) : g.rank i ≤ 2 * g.depth + 3 := by
  cases i with
  | tcc n =>
    have hle := g.height_le n
    simp only [rank]
    omega
  | bcc n | filter n | leaf n =>
    simp only [rank]
    omega

/-- The order of the locks, for threads that all run the code of the hierarchy. -/
def lockOrder (T : Type) (g : MemGraph N) : LockOrder (fun _ : T => g.instr) where
  valid := g.Valid
  idle fs := fs = []
  held := g.held
  rank := g.rank
  bound := 2 * g.depth + 3
  rank_le := rank_le
  held_idle h := by rw [h, held_nil]
  not_idle h hidle := by
    rw [hidle] at h
    simp [instr, goes] at h
  lock hv h := hv.locks h
  tryLock hv h := absurd h (instr_ne_tryLock _ _ _)
  unlock hv h := hv.unlocks h
  act hv h hr := hv.keeps h hr
  goes_on hv hbusy r h d := by
    obtain ⟨fs', hr⟩ := hv.goes_on hbusy h
    exact ⟨(), fs', hr⟩

end MemGraph

end ZSim
