import ZSim.ParentCache

/-! The invariant of a parent cache: every entry of its directory agrees with the
children, and every request in flight was only overtaken by invalidations. -/

namespace ZSim

theorem Lowered.trans {a b c : MESIState} (h : Lowered a b) (h' : Lowered b c) : Lowered a c := by
  rcases h with rfl | rfl | ⟨hx, rfl⟩
  · exact h'
  · rcases h' with rfl | rfl | ⟨hx, _⟩
    · exact .inr (.inl rfl)
    · exact .inr (.inl rfl)
    · simp at hx
  · rcases h' with rfl | rfl | ⟨hx', _⟩
    · exact .inr (.inr ⟨hx, rfl⟩)
    · exact .inr (.inl rfl)
    · simp at hx'

theorem Lowered.eq_I {s : MESIState} (h : Lowered .I s) : s = .I := by
  rcases h with rfl | rfl | ⟨hx, _⟩
  · rfl
  · rfl
  · simp at hx

theorem Lowered.not_isExclusive {s s' : MESIState} (h : Lowered s s')
    (hs : s.isExclusive = false) : s'.isExclusive = false := by
  rcases h with rfl | rfl | ⟨_, rfl⟩
  · exact hs
  · rfl
  · rfl

/-- The states in which a request is processed. -/
def Ready (type : AccessType) (state : MESIState) : Prop :=
  match type with
  | .GETS => state = .I
  | .GETX => state.isExclusive = false
  | .PUTS => state = .S ∨ state = .E
  | .PUTX => state = .M

/-- The parent permission each access needs once the bottom controller is done. -/
def Granted (type : AccessType) (parent : MESIState) : Prop :=
  match type with
  | .GETX => parent.isExclusive = true
  | _ => parent ≠ .I

theorem Ready.ne_I {type : AccessType} {state : MESIState} (h : Ready type state)
    (hp : isPut type = true) : state ≠ .I := by
  cases type with
  | PUTS => rcases h with rfl | rfl <;> simp
  | PUTX => cases h; simp
  | GETS => simp [isPut] at hp
  | GETX => simp [isPut] at hp

/-- A request that only saw invalidations since it was issued passes the race check:
it is skipped, or it goes on in a state its type is meant for. -/
theorem checkForMESIRace_spec {type : AccessType} {state initialState : MESIState}
    (hi : issuable type initialState = true) (hl : Lowered initialState state) :
    (isPut type = true ∧ state = .I ∧
      checkForMESIRace type state initialState = some (type, true)) ∨
    ∃ type', checkForMESIRace type state initialState = some (type', false) ∧
      Ready type' state ∧ isPut type' = isPut type ∧ (isPut type = false → type' = type) := by
  cases type <;> cases initialState <;> simp [issuable] at hi <;>
    cases state <;> simp [Lowered] at hl <;> simp [checkForMESIRace, Ready, isPut]

namespace ParentCache

variable {n m : Nat} {s s' : ParentCache}

/-- Invalidations of address `a` leave the other addresses alone. -/
def Frame (a : Address) (w : Nat → Address → MESIState) (_ : Bool)
    (w' : Nat → Address → MESIState) : Prop :=
  ∀ c a', a' ≠ a → w' c a' = w c a'

theorem setChild_same (w : Nat → Address → MESIState) (c : Nat) (a : Address) (st : MESIState) :
    (fun d => setChild w c a st d a) = Function.update (fun d => w d a) c st := by
  funext d
  by_cases hd : d = c
  · subst d
    simp [setChild]
  · simp [setChild, hd]

theorem setChild_frame (w : Nat → Address → MESIState) (c : Nat) {a a' : Address}
    (st : MESIState) (d : Nat) (ha : a' ≠ a) : setChild w c a st d a' = w d a' := by
  by_cases hd : d = c
  · subst d
    simp [setChild, ha]
  · simp [setChild, hd]

theorem childInvalidate_spec (n : Nat) (a : Address) (deep : Nat → Bool) :
    InvalidateSpec n (childInvalidate a deep) (fun w c => w c a) (fun _ => True) (Frame a) where
  inv w c _ _ hv := by
    have hv' : w c a ≠ .I := hv
    refine ⟨setChild w c a .I, w c a == .M || (w c a == .E && deep c), ?_, setChild_same _ _ _ _,
      fun hb => ?_, trivial, fun d a' ha => setChild_frame _ _ _ _ ha⟩
    · simp [childInvalidate, MESIBottomCC.processInval, hv']
    · cases hs : w c a <;> simp [hs] at hb ⊢
  invx w c _ _ hx := by
    have hx' : (w c a).isExclusive = true := hx
    refine ⟨setChild w c a .S, w c a == .M || (w c a == .E && deep c), ?_, setChild_same _ _ _ _,
      trivial, fun d a' ha => setChild_frame _ _ _ _ ha⟩
    simp [childInvalidate, MESIBottomCC.processInval, hx']
  refl _ _ _ _ _ := rfl
  trans _ _ _ _ _ h h' c a' ha := (h' c a' ha).trans (h c a' ha)

/-- The children's states for the address line `i` holds. -/
def view (s : ParentCache) (i : Nat) (c : Nat) : MESIState :=
  match s.array i with
  | none => .I
  | some a => s.child c a

theorem view_eq {i : Nat} {a : Address} (h : s.array i = some a) :
    s.view i = fun c => s.child c a := by
  funext c
  simp [view, h]

theorem view_congr {i : Nat} (ha : s'.array i = s.array i) (hc : s'.child = s.child) :
    s'.view i = s.view i := by
  funext c
  simp [view, ha, hc]

/-- What holds while the cache waits for the level above. -/
def WaitOk (n m : Nat) (s : ParentCache) : Waiting → Prop
  | .evict c v put initialState => c < n ∧ v < m ∧ (∃ r, s.req c = some r ∧ isGet r.type = true ∧
      ∀ i < m, s.array i ≠ some r.lineAddr) ∧ (s.tcc v).numSharers = 0 ∧
      issuable put initialState = true ∧ Lowered initialState (s.bcc v)
  | .fetch c i type initialState => c < n ∧ i < m ∧ (∃ r, s.req c = some r ∧ r.type = type ∧
      s.array i = some r.lineAddr) ∧ isGet type = true ∧
      issuable type initialState = true ∧ Lowered initialState (s.bcc i)

structure Core (n m : Nat) (s : ParentCache) : Prop where
  line : ∀ i < m, (s.tcc i).Agrees n (s.bcc i) (s.view i)
  inj : ∀ i < m, ∀ j < m, ∀ a, s.array i = some a → s.array j = some a → i = j
  incl : ∀ c < n, ∀ a, s.child c a ≠ .I → ∃ i < m, s.array i = some a
  pend : ∀ c < n, ∀ r, s.req c = some r → issuable r.type r.initialState = true ∧
    Lowered r.initialState (s.child c r.lineAddr) ∧ (r.isPrefetch = true → r.type = .GETS)

structure Inv (n m : Nat) (s : ParentCache) : Prop extends Core n m s where
  wait : ∀ w, s.waiting = some w → WaitOk n m s w

theorem Core.inv_of_waiting (h : Core n m s) (hw : s.waiting = none) : Inv n m s where
  toCore := h
  wait w hw' := by simp [hw] at hw'

theorem lookup_some {i : Nat} {a : Address} (h : lookup m s a = some i) :
    i < m ∧ s.array i = some a := by
  have hm := List.mem_of_find?_eq_some h
  have hp := List.find?_some h
  exact ⟨List.mem_range.mp hm, by simpa using hp⟩

theorem lookup_none {a : Address} (h : lookup m s a = none) : ∀ i < m, s.array i ≠ some a := by
  intro i hi
  have hh := List.find?_eq_none.mp h i (List.mem_range.mpr hi)
  simpa using hh

theorem lookup_of_mem (h : Core n m s) {i : Nat} {a : Address} (hi : i < m)
    (ha : s.array i = some a) : lookup m s a = some i := by
  cases hl : lookup m s a with
  | none => exact absurd ha (lookup_none hl i hi)
  | some j =>
    obtain ⟨hj, haj⟩ := lookup_some hl
    rw [h.inj i hi j hj a ha haj]

theorem inv_init (n m : Nat) : Inv n m init where
  line i _ := .of_empty rfl (fun _ _ => rfl) fun c _ => by simp [view, init]
  inj i _ j _ a h _ := by simp [init] at h
  incl c _ a h := by simp [init] at h
  pend c _ r h := by simp [init] at h
  wait w h := by simp [init] at h

/-- Changing line `i` and the children's states for its address keeps the directory
part of the invariant when the changed line agrees. -/
theorem line_update (h : Core n m s) (s' : ParentCache) {i : Nat} {a : Address} (hi : i < m)
    (ha : s.array i = some a) (harr : s'.array = s.array)
    (htcc : ∀ j, j ≠ i → s'.tcc j = s.tcc j) (hbcc : ∀ j, j ≠ i → s'.bcc j = s.bcc j)
    (hchild : ∀ c a', a' ≠ a → s'.child c a' = s.child c a')
    (hline : (s'.tcc i).Agrees n (s'.bcc i) (fun c => s'.child c a)) :
    (∀ j < m, (s'.tcc j).Agrees n (s'.bcc j) (s'.view j)) ∧
    (∀ j < m, ∀ k < m, ∀ b, s'.array j = some b → s'.array k = some b → j = k) ∧
    (∀ c < n, ∀ b, s'.child c b ≠ .I → ∃ j < m, s'.array j = some b) := by
  refine ⟨fun j hj => ?_, by rw [harr]; exact h.inj, fun c hc b hne => ?_⟩
  · by_cases hji : j = i
    · subst j
      rw [view_eq (harr ▸ ha)]
      exact hline
    · rw [htcc j hji, hbcc j hji]
      refine (h.line j hj).congr fun c _ => ?_
      cases hb : s.array j with
      | none => simp [view, harr, hb]
      | some b =>
        have hne : b ≠ a := by
          rintro rfl
          exact hji (h.inj j hj i hi b hb ha)
        simp [view, harr, hb, hchild c b hne]
  · rw [harr]
    by_cases hba : b = a
    · exact ⟨i, hi, hba ▸ ha⟩
    · exact h.incl c hc b (by rwa [hchild c b hba] at hne)

/-- A request in flight survives when its child is only invalidated or downgraded. -/
theorem pend_update (h : Core n m s) {a : Address}
    (hreq : ∀ c r, s'.req c = some r → s.req c = some r ∧ Lowered (s.child c a) (s'.child c a))
    (hchild : ∀ c a', a' ≠ a → s'.child c a' = s.child c a') :
    ∀ c < n, ∀ r, s'.req c = some r → issuable r.type r.initialState = true ∧
      Lowered r.initialState (s'.child c r.lineAddr) ∧ (r.isPrefetch = true → r.type = .GETS) := by
  intro c hc r hr
  obtain ⟨hr, hlow⟩ := hreq c r hr
  obtain ⟨h1, h2, h3⟩ := h.pend c hc r hr
  refine ⟨h1, ?_, h3⟩
  by_cases ha : r.lineAddr = a
  · rw [ha] at h2 ⊢
    exact h2.trans hlow
  · rwa [hchild c _ ha]

theorem req_update_none {req : Nat → Option Request} {c d : Nat} {r : Request}
    (h : Function.update req c none d = some r) : d ≠ c ∧ req d = some r := by
  by_cases hd : d = c
  · simp [hd] at h
  · exact ⟨hd, by simpa [hd] using h⟩

/-- The last step of an access: the new entry, the new children's states and the
transition for an induced writeback keep the invariant. -/
theorem finish_tail (h : Core n m s) {i c : Nat} {a : Address} (hi : i < m)
    (ha : s.array i = some a) {e : Entry} {st : MESIState} {w : Nat → Address → MESIState}
    {b wb : Bool} (hA : Entry.Agrees n (s.bcc i) e (Function.update (fun d => w d a) c st))
    (hF : Frame a s.child b w) (hlow : ∀ d, Lowered (s.child d a) (w d a))
    (hwb : wb = true → (s.bcc i).isExclusive = true) {done : ParentCache}
    (hdone : done = { s with
      req := Function.update s.req c none, waiting := none
      tcc := Function.update s.tcc i e, child := setChild w c a st }) :
    ∃ s', (if wb then (MESIBottomCC.processWritebackOnAccess (s.bcc i)).map fun b =>
        { done with bcc := Function.update s.bcc i b } else some done) = some s' ∧
      Core n m s' ∧ s'.waiting = none := by
  subst hdone
  have core (p : MESIState) (hv : s.bcc i ≠ .I → p ≠ .I)
      (hx : (s.bcc i).isExclusive = true → p.isExclusive = true) : Core n m
      { s with
        req := Function.update s.req c none, waiting := none
        tcc := Function.update s.tcc i e, child := setChild w c a st
        bcc := Function.update s.bcc i p } := by
    have hframe : ∀ d a', a' ≠ a → setChild w c a st d a' = s.child d a' := fun d a' ha' =>
      (setChild_frame w c st d ha').trans (hF d a' ha')
    obtain ⟨h1, h2, h3⟩ := line_update h { s with
        req := Function.update s.req c none, waiting := none
        tcc := Function.update s.tcc i e, child := setChild w c a st
        bcc := Function.update s.bcc i p } hi ha rfl (fun j hj => by simp [hj])
      (fun j hj => by simp [hj]) hframe (by
        simpa [setChild_same] using hA.congr_parent hv hx)
    refine ⟨h1, h2, h3, pend_update h (fun d r hr => ?_) hframe⟩
    obtain ⟨hd, hr⟩ := req_update_none hr
    exact ⟨hr, by simpa [setChild, hd] using hlow d⟩
  by_cases hb : wb = true
  · have hx := hwb hb
    refine ⟨_, by simp only [hb, if_true, MESIBottomCC.processWritebackOnAccess, hx, Option.map_some],
      core .M (fun _ => by simp) (fun _ => rfl), rfl⟩
  · have hs : Function.update s.bcc i (s.bcc i) = s.bcc := Function.update_eq_self i s.bcc
    have hc := core (s.bcc i) id id
    rw [hs] at hc
    exact ⟨_, by simp only [hb, if_false, Bool.false_eq_true], hc, rfl⟩

theorem finishAccess_spec (h : Core n m s) {i c : Nat} {r : Request} {type : AccessType}
    (hc : c < n) (hi : i < m) (ha : s.array i = some r.lineAddr)
    (hready : Ready type (s.child c r.lineAddr)) (hg : Granted type (s.bcc i))
    (deep : Nat → Bool) :
    ∃ s', finishAccess n deep s c r type i = some s' ∧ Core n m s' ∧ s'.waiting = none := by
  have hA := h.line i hi
  rw [view_eq ha] at hA
  have spec := childInvalidate_spec n r.lineAddr deep
  by_cases hp : r.isPrefetch = true
  · let done : ParentCache := { s with req := Function.update s.req c none, waiting := none }
    exact ⟨done, by simp only [finishAccess, hp, if_true, done], ⟨h.line, h.inj, h.incl,
      pend_update h (a := r.lineAddr) (fun d r' hr => ⟨(req_update_none hr).2, .refl _⟩)
        (fun _ _ _ => rfl)⟩, rfl⟩
  simp only [finishAccess, hp, if_false, Bool.false_eq_true]
  cases type with
  | GETS =>
    obtain ⟨e, st, w, b, hpa, hA', _, _, hb, hl, _, hF⟩ := MESITopCC.processAccess_gets spec hA
      trivial hc hready hg (r.flags &&& ~~~MemReq.PREFETCH) false
    rw [hpa]
    exact finish_tail h hi ha hA' hF hl (by simpa using hb) rfl
  | GETX =>
    obtain ⟨e, w, b, hpa, hA', hl, _, hF⟩ := MESITopCC.processAccess_getx spec hA
      trivial hc hready hg (r.flags &&& ~~~MemReq.PREFETCH) false
    rw [hpa]
    exact finish_tail h hi ha hA' hF hl (fun _ => hg) rfl
  | PUTS =>
    obtain ⟨e, st, hpa, hA', _⟩ := MESITopCC.processAccess_put (childInvalidate r.lineAddr deep)
      (fun w c => w c r.lineAddr) s.child hA hc (show isPut .PUTS = true from rfl) (hready.ne_I rfl) (by simp)
      (s.bcc i).isExclusive (r.flags &&& ~~~MemReq.PREFETCH) false
    rw [hpa]
    exact finish_tail h hi ha hA' (spec.refl _ trivial) (fun d => .refl _) (by simp) rfl
  | PUTX =>
    have hM : s.child c r.lineAddr = .M := hready
    obtain ⟨e, st, hpa, hA', _⟩ := MESITopCC.processAccess_put (childInvalidate r.lineAddr deep)
      (fun w c => w c r.lineAddr) s.child hA hc (show isPut .PUTX = true from rfl)
      (by simp [hM]) (fun _ => hM) (s.bcc i).isExclusive (r.flags &&& ~~~MemReq.PREFETCH) false
    rw [hpa]
    exact finish_tail h hi ha hA' (spec.refl _ trivial) (fun d => .refl _) (by simp) rfl

theorem Core.raise (h : Core n m s) {i : Nat} {p : MESIState}
    (hv : s.bcc i ≠ .I → p ≠ .I) (hx : (s.bcc i).isExclusive = true → p.isExclusive = true) :
    Core n m { s with bcc := Function.update s.bcc i p } where
  line j hj := by
    change (s.tcc j).Agrees n (Function.update s.bcc i p j) (s.view j)
    by_cases hji : j = i
    · subst j
      simpa using (h.line i hj).congr_parent hv hx
    · simpa [hji] using h.line j hj
  inj := h.inj
  incl := h.incl
  pend := h.pend

theorem accessLine_spec (h : Core n m s) {i c : Nat} {r : Request}
    {type : AccessType} (hc : c < n) (hi : i < m) (ha : s.array i = some r.lineAddr)
    (hr : s.req c = some r) (hready : Ready type (s.child c r.lineAddr))
    (htype : isPut type = false → type = r.type)
    (hpf : r.isPrefetch = true → type = .GETS) (deep : Nat → Bool) :
    ∃ s', accessLine n deep s c r type i = some s' ∧ Inv n m s' := by
  have hA := h.line i hi
  rw [view_eq ha] at hA
  have hpf' : ¬(r.isPrefetch = true ∧ type ≠ .GETS) := fun hh => hh.2 (hpf hh.1)
  have hhit (p : MESIState) (hv : s.bcc i ≠ .I → p ≠ .I)
      (hx : (s.bcc i).isExclusive = true → p.isExclusive = true) (hg : Granted type p) :
      ∃ s', finishAccess n deep { s with bcc := Function.update s.bcc i p } c r type i = some s' ∧
        Inv n m s' := by
    obtain ⟨s', hs, hc', hw'⟩ := finishAccess_spec (h.raise hv hx) hc hi ha hready
      (by simpa using hg) deep
    exact ⟨s', hs, hc'.inv_of_waiting hw'⟩
  have hmiss (hget : isGet type = true) (hs : type = r.type)
      (hiss : issuable type (s.bcc i) = true) :
      Inv n m { s with waiting := some (.fetch c i type (s.bcc i)) } := by
    refine ⟨⟨h.line, h.inj, h.incl, h.pend⟩, fun w hw' => ?_⟩
    obtain rfl := Option.some.inj hw'
    exact ⟨hc, hi, ⟨r, hr, hs.symm, ha⟩, hget, hiss, .refl _⟩
  cases type with
  | PUTS =>
    have hb : s.bcc i ≠ .I := hA.valid c hc (hready.ne_I rfl)
    simp only [accessLine, if_false, hpf', MESIBottomCC.lookupAccess, hb]
    exact hhit (s.bcc i) id id hb
  | PUTX =>
    have hM : s.child c r.lineAddr = .M := hready
    have hx : (s.bcc i).isExclusive = true := hA.perm c hc (by simp [hM])
    have hput : ¬(isPut .PUTX = true ∧ s.bcc i = .I) :=
      fun hh => MESIState.ne_I_of_isExclusive hx hh.2
    simp only [accessLine, hput, if_false, hpf', MESIBottomCC.lookupAccess, hx, if_true]
    exact hhit .M (by simp) (by simp) (by simp [Granted])
  | GETS =>
    have hput : ¬(isPut .GETS = true ∧ s.bcc i = .I) := by simp [isPut]
    by_cases hb : s.bcc i = .I
    · refine ⟨_, ?_, hmiss rfl (htype rfl) (by simp [issuable, hb])⟩
      simp only [accessLine, hput, if_false, hpf', MESIBottomCC.lookupAccess, if_pos hb]
    · simp only [accessLine, if_false, hpf', MESIBottomCC.lookupAccess, hb]
      exact hhit (s.bcc i) id id hb
  | GETX =>
    have hput : ¬(isPut .GETX = true ∧ s.bcc i = .I) := by simp [isPut]
    by_cases hb : (s.bcc i).isExclusive = true
    · simp only [accessLine, hput, if_false, hpf', MESIBottomCC.lookupAccess, hb, if_true]
      exact hhit .M (by simp) (by simp) (by simp [Granted])
    · refine ⟨_, ?_, hmiss rfl (htype rfl) (by simpa [issuable] using hb)⟩
      simp only [accessLine, hput, if_false, hpf', MESIBottomCC.lookupAccess, if_neg hb]

/-- Inclusion: no child has a line that is not here. -/
theorem Core.child_eq_I (h : Core n m s) {a : Address} (hmiss : ∀ i < m, s.array i ≠ some a)
    {c : Nat} (hc : c < n) : s.child c a = .I := by
  by_contra hne
  obtain ⟨i, hi, ha⟩ := h.incl c hc _ hne
  exact hmiss i hi ha

/-- A new line in a slot without sharers. -/
theorem Core.insert (h : Core n m s) {v : Nat} {a : Address} (hv : v < m)
    (he : (s.tcc v).numSharers = 0) (hmiss : ∀ i < m, s.array i ≠ some a) :
    Core n m { s with array := Function.update s.array v (some a) } := by
  have hsh (d : Nat) (hd : d < n) : (s.tcc v).sharers d = false :=
    ((h.line v hv).sharers_eq_false hd).mpr ((h.line v hv).eq_I_of_isEmpty he hd)
  let s₁ : ParentCache := { s with array := Function.update s.array v (some a) }
  refine ⟨fun j hj => ?_, fun j hj k hk b hb hb' => ?_, fun d hd b hne => ?_, h.pend⟩
  · by_cases hjv : j = v
    · subst j
      refine .of_empty he hsh fun d hd => ?_
      simpa [view] using h.child_eq_I hmiss hd
    · have hview : s₁.view j = s.view j := view_congr (by simp [s₁, hjv]) rfl
      exact hview ▸ h.line j hj
  · change Function.update s.array v (some a) j = some b at hb
    change Function.update s.array v (some a) k = some b at hb'
    by_cases hjv : j = v <;> by_cases hkv : k = v
    · rw [hjv, hkv]
    · subst j
      simp only [Function.update_self, Option.some.injEq] at hb
      simp only [Function.update_of_ne hkv, ← hb] at hb'
      exact absurd hb' (hmiss k hk)
    · subst k
      simp only [Function.update_self, Option.some.injEq] at hb'
      simp only [Function.update_of_ne hjv, ← hb'] at hb
      exact absurd hb (hmiss j hj)
    · simp only [Function.update_of_ne hjv] at hb
      simp only [Function.update_of_ne hkv] at hb'
      exact h.inj j hj k hk b hb hb'
  · obtain ⟨i, hi, ha⟩ := h.incl d hd b hne
    have hiv : i ≠ v := by
      rintro rfl
      have := (h.line i hi).eq_I_of_isEmpty he hd
      rw [view_eq ha] at this
      exact hne this
    exact ⟨i, hi, by simpa [hiv] using ha⟩

/-- The new line is put into a slot without sharers and without permission. -/
theorem insertLine_spec (h : Core n m s) {v c : Nat} {r : Request}
    (hc : c < n) (hv : v < m) (he : (s.tcc v).numSharers = 0)
    (hr : s.req c = some r) (hget : isGet r.type = true)
    (hmiss : ∀ i < m, s.array i ≠ some r.lineAddr) (deep : Nat → Bool) :
    ∃ s', insertLine n deep s c r v = some s' ∧ Inv n m s' := by
  have hready : Ready r.type (s.child c r.lineAddr) := by
    rw [h.child_eq_I hmiss hc]
    cases ht : r.type <;> simp [ht, isGet] at hget <;> simp [Ready]
  exact accessLine_spec (h.insert hv he hmiss) hc hv (by simp) hr hready (fun _ => rfl)
    (h.pend c hc r hr).2.2 deep

end ParentCache

end ZSim
