import ZSim.ParentCacheSafety
import ZSim.TraceDriver

/-! The parent of a trace driver: its calls into the children's stores pass their asserts, and
its directory keeps agreeing with the stores. -/

namespace ZSim

namespace TraceDriver

variable {G : Config}

/-- The state in which child `c` holds a line. -/
def held (children : Nat → ChildInfo) (c : Nat) (a : Address) : MESIState :=
  ((children c).cStore a).getD .I

theorem cStore_of_held {children : Nat → ChildInfo} {c : Nat} {a : Address}
    (h : held children c a ≠ .I) : (children c).cStore a = some (held children c a) := by
  cases hs : (children c).cStore a with
  | none => simp [held, hs] at h
  | some s => simp [held, hs]

/-- No entry of a store is turned to I. -/
def NoneInvalid (children children' : Nat → ChildInfo) : Prop :=
  ∀ c a, (children' c).cStore a = some .I → (children c).cStore a = some .I

theorem NoneInvalid.trans {s s' s'' : Nat → ChildInfo} (h : NoneInvalid s s')
    (h' : NoneInvalid s' s'') : NoneInvalid s s'' :=
  fun c a hI => h c a (h' c a hI)

/-- What invalidations of line `a` do to the stores. -/
structure Invalidated (a : Address) (children : Nat → ChildInfo) (_ : Bool)
    (children' : Nat → ChildInfo) : Prop where
  frame : ∀ c a', a' ≠ a → held children' c a' = held children c a'
  noneInvalid : NoneInvalid children children'

theorem held_update (children : Nat → ChildInfo) (c d : Nat) (a a' : Address)
    (child : ChildInfo) (s : Option MESIState)
    (h : child.cStore = Function.update (children c).cStore a s) :
    held (Function.update children c child) d a' =
      if d = c ∧ a' = a then s.getD .I else held children d a' := by
  by_cases hd : d = c
  · subst hd
    by_cases ha : a' = a <;> simp [held, h, ha]
  · simp [held, hd]

theorem invalidate_eq (srcId : Nat) (type : InvType) {c : Nat} {a : Address} {w : Nat → ChildInfo}
    (hc : c < G.numChildren) (hv : held w c a ≠ .I) :
    ∃ child, invalidate G srcId a c type w =
        some (Function.update w c child, held w c a == .M) ∧
      child.cStore = Function.update (w c).cStore a (if type = .INVX then some .S else none) := by
  simp only [invalidate, if_pos hc, cStore_of_held hv]
  refine ⟨_, rfl, ?_⟩
  by_cases ht : type = .INVX
  · simp [ht]
  · by_cases hs : srcId = c <;> simp [ht, hs]

theorem invalidated_update {w : Nat → ChildInfo} {c : Nat} {a : Address} {b : Bool}
    {child : ChildInfo} {s : Option MESIState}
    (h : child.cStore = Function.update (w c).cStore a s) (hs : s ≠ some .I) :
    Invalidated a w b (Function.update w c child) where
  frame d a' ha := by rw [held_update w c d a a' child s h, if_neg fun hh => ha hh.2]
  noneInvalid d a' hI := by
    by_cases hd : d = c
    · subst hd
      by_cases ha : a' = a
      · subst ha
        simp only [Function.update_self, h] at hI
        exact absurd hI hs
      · simpa [h, ha] using hI
    · simpa [hd] using hI

theorem held_update_same {w : Nat → ChildInfo} {c : Nat} {a : Address}
    {child : ChildInfo} {s : Option MESIState}
    (h : child.cStore = Function.update (w c).cStore a s) :
    (fun d => held (Function.update w c child) d a) =
      Function.update (fun d => held w d a) c (s.getD .I) := by
  funext d
  rw [held_update w c d a a child s h]
  by_cases hd : d = c <;> simp [hd]

theorem invalidate_spec (srcId : Nat) (a : Address) :
    InvalidateSpec G.numChildren (invalidate G srcId a) (fun w c => held w c a) (fun _ => True)
      (Invalidated a) where
  inv w c _ hc hv := by
    obtain ⟨child, hi, hchild⟩ := invalidate_eq srcId .INV hc hv
    refine ⟨_, _, hi, held_update_same hchild, fun hb => ?_, trivial,
      invalidated_update hchild (by simp)⟩
    simp [beq_iff_eq.mp hb]
  invx w c _ hc hx := by
    obtain ⟨child, hi, hchild⟩ := invalidate_eq srcId .INVX hc
      (MESIState.ne_I_of_isExclusive hx)
    exact ⟨_, _, hi, held_update_same hchild, trivial, invalidated_update hchild (by simp)⟩
  refl _ _ := ⟨fun _ _ _ => rfl, fun _ _ h => h⟩
  trans _ _ _ _ _ h h' :=
    ⟨fun c a' ha => (h'.frame c a' ha).trans (h.frame c a' ha), h.noneInvalid.trans h'.noneInvalid⟩

namespace System

variable {w w' : System}

/-- The parent with its children, as a parent cache without requests. -/
def toParent (w : System) : ParentCache where
  array := w.array
  bcc := w.bcc
  tcc := w.tcc
  child := held w.children
  req := fun _ => none
  waiting := none

/-- The directory agrees with the stores, and has the lines of all of them. -/
abbrev Agreeing (G : Config) (w : System) : Prop :=
  ParentCache.Core G.numChildren G.numLines w.toParent

/-- What the level above and evictions do while an access waits. -/
structure Shrinks (w w' : System) : Prop where
  array : w'.array = w.array
  bcc : ∀ i, Lowered (w.bcc i) (w'.bcc i)
  empty : ∀ i, (w.tcc i).numSharers = 0 → (w'.tcc i).numSharers = 0
  held : ∀ c a, Lowered (held w.children c a) (held w'.children c a)
  noneInvalid : NoneInvalid w.children w'.children
  atw : w'.atw = w.atw

theorem Shrinks.refl (w : System) : Shrinks w w :=
  ⟨rfl, fun _ => .refl _, fun _ h => h, fun _ _ => .refl _, fun _ _ h => h, rfl⟩

theorem Shrinks.trans {w'' : System} (h : Shrinks w w') (h' : Shrinks w' w'') : Shrinks w w'' where
  array := h'.array.trans h.array
  bcc i := (h.bcc i).trans (h'.bcc i)
  empty i hz := h'.empty i (h.empty i hz)
  held c a := (h.held c a).trans (h'.held c a)
  noneInvalid := h.noneInvalid.trans h'.noneInvalid
  atw := h'.atw.trans h.atw

theorem lookup_eq (w : System) (a : Address) :
    w.lookup G a = ParentCache.lookup G.numLines w.toParent a := rfl

theorem view_held {i : Nat} {a : Address} (ha : w.array i = some a) :
    w.toParent.view i = fun c => held w.children c a :=
  ParentCache.view_eq (s := w.toParent) ha

theorem Agreeing.entry (h : Agreeing G w) {i : Nat} {a : Address} (hi : i < G.numLines)
    (ha : w.array i = some a) :
    (w.tcc i).Agrees G.numChildren (w.bcc i) (fun c => held w.children c a) :=
  view_held ha ▸ h.line i hi

/-- A line without sharers may take any state. -/
theorem Agreeing.set_empty (h : Agreeing G w) {v : Nat}
    (hz : (w.tcc v).numSharers = 0) (p : MESIState) :
    Agreeing G { w with bcc := Function.update w.bcc v p } := by
  refine ⟨fun j hj => ?_, h.inj, h.incl, h.pend⟩
  change (w.tcc j).Agrees G.numChildren (Function.update w.bcc v p j) (w.toParent.view j)
  have hline : (w.tcc j).Agrees G.numChildren (w.bcc j) (w.toParent.view j) := h.line j hj
  by_cases hjv : j = v
  · subst j
    exact hline.of_isEmpty hz _
  · rwa [Function.update_of_ne hjv]

/-- One line of the parent changes, with the stores of the children for it. -/
theorem Agreeing.of_line (h : Agreeing G w) {i : Nat} {a : Address} (hi : i < G.numLines)
    (ha : w.array i = some a) {s' : ParentCache} (harr : s'.array = w.array)
    (htcc : ∀ j, j ≠ i → s'.tcc j = w.tcc j) (hbcc : ∀ j, j ≠ i → s'.bcc j = w.bcc j)
    (hchild : ∀ c a', a' ≠ a → s'.child c a' = held w.children c a')
    (hreq : s'.req = fun _ => none)
    (hline : (s'.tcc i).Agrees G.numChildren (s'.bcc i) (fun c => s'.child c a)) :
    ParentCache.Core G.numChildren G.numLines s' := by
  obtain ⟨h1, h2, h3⟩ := ParentCache.line_update h s' hi ha harr htcc hbcc hchild hline
  exact ⟨h1, h2, h3, fun c _ r hr => by simp [hreq] at hr⟩

theorem invalidateLine_spec (h : Agreeing G w) {r : InvReq} (hmay : w.mayInvalidate G r = true) :
    ∃ w', w.invalidateLine G r = some w' ∧ Agreeing G w' ∧ Shrinks w w' := by
  cases hl : w.lookup G r.lineAddr with
  | none => simp [mayInvalidate, hl] at hmay
  | some i =>
    have hok : invalidatable r.type (w.bcc i) = true := by simpa [mayInvalidate, hl] using hmay
    obtain ⟨hi, ha⟩ := ParentCache.lookup_some (lookup_eq w r.lineAddr ▸ hl)
    obtain ⟨e, children, b, hs, hA', hz, -, hlow, -, hinv⟩ :=
      MESITopCC.processInval_spec (invalidate_spec r.srcId r.lineAddr) (h.entry hi ha) trivial hok
        false
    simp only [invalidateLine, hl, hs, MESIBottomCC.processInval_eq hok, Option.map_some]
    have hother {α : Type} (f : Nat → α) (x : α) (j : Nat) (hj : j ≠ i) :
        Function.update f i x j = f j := Function.update_of_ne hj x f
    refine ⟨_, rfl, h.of_line hi ha rfl (hother _ _) (hother _ _) hinv.frame rfl ?_,
      rfl, fun j => ?_, fun j hzj => ?_, fun c a' => ?_, hinv.noneInvalid, rfl⟩
    · simpa [toParent] using hA'
    · by_cases hj : j = i
      · subst hj
        simpa using lowered_lowerTo hok
      · simpa [hj] using Lowered.refl _
    · by_cases hj : j = i
      · subst hj
        simpa using hz hzj
      · simpa [hj] using hzj
    · by_cases ha' : a' = r.lineAddr
      · exact ha' ▸ hlow c
      · exact hinv.frame c a' ha' ▸ .refl _

theorem invalidates_spec (h : Agreeing G w) (rs : List InvReq) :
    ∃ w', w.invalidates G rs = some w' ∧ Agreeing G w' ∧ Shrinks w w' := by
  induction rs generalizing w with
  | nil => exact ⟨w, rfl, h, .refl w⟩
  | cons r rs ih =>
    obtain ⟨w₁, h₁, hA₁, hS₁⟩ :
        ∃ w₁, (if w.mayInvalidate G r then w.invalidateLine G r else some w) =
          some w₁ ∧ Agreeing G w₁ ∧ Shrinks w w₁ := by
      by_cases hmay : w.mayInvalidate G r = true
      · simpa [hmay] using invalidateLine_spec h hmay
      · exact ⟨w, if_neg hmay, h, .refl w⟩
    obtain ⟨w₂, h₂, hA₂, hS₂⟩ := ih hA₁
    refine ⟨w₂, ?_, hA₂, hS₁.trans hS₂⟩
    rw [invalidates, List.foldlM_cons, h₁]
    exact h₂

/-- The directory agrees with the stores once child `c` has its answer. -/
abbrev AgreeingSet (G : Config) (w : System) (c : Nat) (a : Address) (state : MESIState) : Prop :=
  ParentCache.Core G.numChildren G.numLines
    { w.toParent with child := ParentCache.setChild w.toParent.child c a state }

/-- The states in which the parent serves an access, with the state in the request and the one
in the store. A GET may have lost its line to an invalidation. -/
def Served (type : AccessType) (state stored : MESIState) : Prop :=
  match type with
  | .GETS => stored = .I
  | .GETX => stored.isExclusive = false
  | .PUTS => state = stored ∧ stored ≠ .I
  | .PUTX => state = stored ∧ stored.isExclusive = true

theorem served_get {type : AccessType} {state stored : MESIState} (hg : isGet type = true) :
    Served type state stored ↔ Ready type stored := by
  cases type <;> simp [isGet] at hg <;> rfl

theorem served_put {type : AccessType} {state stored : MESIState} (hp : isPut type = true)
    (h : Served type state stored) : state = stored ∧ stored ≠ .I := by
  cases type with
  | PUTS => exact h
  | PUTX => exact ⟨h.1, MESIState.ne_I_of_isExclusive h.2⟩
  | GETS => simp [isPut] at hp
  | GETX => simp [isPut] at hp

theorem Agreeing.answered (h : Agreeing G w) {i c : Nat} {a : Address} (hi : i < G.numLines)
    (ha : w.array i = some a) {e : Entry} {children : Nat → ChildInfo} {p state : MESIState}
    {b : Bool} (hinv : Invalidated a w.children b children)
    (hA : e.Agrees G.numChildren p (Function.update (fun d => held children d a) c state)) :
    AgreeingSet G { w with
      tcc := Function.update w.tcc i e, children := children
      bcc := Function.update w.bcc i p } c a state := by
  refine h.of_line hi ha rfl (fun j hj => Function.update_of_ne hj _ _)
    (fun j hj => Function.update_of_ne hj _ _) (fun d a' ha' => ?_) rfl ?_
  · exact (ParentCache.setChild_frame _ c state d ha').trans (hinv.frame d a' ha')
  · simpa [toParent, ParentCache.setChild_same] using hA

/-- A PUT takes the child out of the sharers; a dirty one needs the child to be exclusive. -/
theorem processAccess_put {n c : Nat} {e : Entry} {p : MESIState} {children : Nat → ChildInfo}
    {a : Address} {type : AccessType} {state : MESIState} (invalidate : InvalidateChild _)
    (h : e.Agrees n p (fun d => held children d a)) (hc : c < n) (hp : isPut type = true)
    (hserved : Served type state (held children c a)) (excl : Bool) :
    ∃ e', MESITopCC.processAccess n invalidate e type c excl state 0#32 false children =
        some (e', .I, children, false) ∧
      e'.Agrees n p (Function.update (fun d => held children d a) c .I) := by
  obtain ⟨-, hne⟩ := served_put hp hserved
  have hb := (h.sharers c hc).mpr hne
  refine ⟨_, ?_, h.drop hc hne⟩
  cases type with
  | PUTS => simp [MESITopCC.processAccess, MESITopCC.dropSharer, hb]
  | PUTX =>
    have hex : e.isExclusive = true := (h.exclusive c hc hne).mp hserved.2
    simp [MESITopCC.processAccess, MESITopCC.dropSharer, hb, hex]
  | GETS => simp [isPut] at hp
  | GETX => simp [isPut] at hp

/-- The answer to a GET does not depend on the state in the request. -/
theorem processAccess_get_state {σ : Type} {n c : Nat} {invalidate : InvalidateChild σ} {e : Entry}
    {type : AccessType} {excl wb : Bool} {state : MESIState} (state' : MESIState)
    {flags : BitVec 32} {x : σ} (hg : isGet type = true) :
    MESITopCC.processAccess n invalidate e type c excl state flags wb x =
      MESITopCC.processAccess n invalidate e type c excl state' flags wb x := by
  cases type <;> simp [isGet] at hg <;> rfl

theorem finishAccess_spec (h : Agreeing G w) (type : AccessType) (state : MESIState) {i c : Nat}
    {a : Address} (hc : c < G.numChildren) (hi : i < G.numLines) (ha : w.array i = some a)
    (hserved : Served type state (held w.children c a)) (hgrant : Granted type (w.bcc i)) :
    ∃ w' state', w.finishAccess G i type c a state = some (w', state') ∧
      AgreeingSet G w' c a state' ∧ (state' = .I ↔ isPut type = true) ∧
      NoneInvalid w.children w'.children ∧ w'.atw = w.atw := by
  have hA := h.entry hi ha
  have hspec := invalidate_spec (G := G) c a
  -- the directory's answer, and what it takes from the other children
  obtain ⟨e, state', children, b, hpa, hA', hput, hwb, hinv⟩ : ∃ e state' children b,
      MESITopCC.processAccess G.numChildren (invalidate G c a) (w.tcc i) type c
        (w.bcc i).isExclusive state 0#32 false w.children = some (e, state', children, b) ∧
      e.Agrees G.numChildren (w.bcc i) (Function.update (fun d => held children d a) c state') ∧
      (state' = .I ↔ isPut type = true) ∧ (b = true → (w.bcc i).isExclusive = true) ∧
      Invalidated a w.children b children := by
    by_cases hp : isPut type = true
    · obtain ⟨e, hpa, hA'⟩ := processAccess_put (invalidate G c a) hA hc hp hserved
        (w.bcc i).isExclusive
      exact ⟨e, .I, w.children, false, hpa, hA', by simp [hp], by simp, hspec.refl _ trivial⟩
    · cases type with
      | GETS =>
        rw [processAccess_get_state (held w.children c a) rfl]
        obtain ⟨e, s, x, b, hpa, hA', hs, -, hb, -, -, hinv⟩ := MESITopCC.processAccess_gets hspec hA
          trivial hc hserved hgrant 0#32 false
        refine ⟨e, s, x, b, by simpa using hpa, hA', ?_, hb, hinv⟩
        rcases hs with rfl | rfl <;> simp [isPut]
      | GETX =>
        rw [processAccess_get_state (held w.children c a) rfl]
        obtain ⟨e, x, b, hpa, hA', -, -, hinv⟩ := MESITopCC.processAccess_getx hspec hA
          trivial hc hserved hgrant 0#32 false
        exact ⟨e, .M, x, b, by simpa using hpa, hA', by simp [isPut], fun _ => hgrant, hinv⟩
      | PUTS => exact absurd rfl hp
      | PUTX => exact absurd rfl hp
  simp only [finishAccess, hpa]
  by_cases hb : b = true
  · have hx := hwb hb
    simp only [hb, if_true, MESIBottomCC.processWritebackOnAccess, hx, Option.map_some]
    exact ⟨_, _, rfl, h.answered hi ha hinv (hA'.congr_parent (fun _ => by simp) fun _ => rfl), hput,
      hinv.noneInvalid, rfl⟩
  · simp only [hb, if_false, Bool.false_eq_true]
    refine ⟨_, _, rfl, ?_, hput, hinv.noneInvalid, rfl⟩
    have hset := h.answered hi ha hinv hA'
    rwa [Function.update_eq_self] at hset

theorem Agreeing.raise (h : Agreeing G w) {i : Nat} {b : MESIState} (hv : w.bcc i ≠ .I → b ≠ .I)
    (hx : (w.bcc i).isExclusive = true → b.isExclusive = true) :
    Agreeing G { w with bcc := Function.update w.bcc i b } :=
  ParentCache.Core.raise h hv hx

theorem Served.lowered {type : AccessType} {state stored stored' : MESIState}
    (hg : isGet type = true) (h : Served type state stored) (hl : Lowered stored stored') :
    Served type state stored' := by
  cases type with
  | GETS => exact (show Lowered .I stored' from h ▸ hl).eq_I
  | GETX => exact hl.not_isExclusive h
  | PUTS => simp [isGet] at hg
  | PUTX => simp [isGet] at hg

/-- An access of the level above, with the invalidations that come while it runs. -/
theorem fetch_spec (h : Agreeing G w) (script : Script G) {i : Nat} {type : AccessType}
    (hg : isGet type = true) (hissue : issuable type (w.bcc i) = true) :
    ∃ w', w.invalidates G script.duringFetch = some w' ∧ Shrinks w w' ∧
      checkForMESIRace type (w'.bcc i) (w.bcc i) = some (type, false) ∧
      Agreeing G { w' with bcc := Function.update w'.bcc i (response script type) } ∧
      Granted type (response script type) := by
  obtain ⟨w', hw', hA, hS⟩ := invalidates_spec h script.duringFetch
  have hready := ready_of_isGet hg hissue (hS.bcc i)
  have hput : isPut type = false := by cases type <;> simp [isGet] at hg <;> rfl
  refine ⟨w', hw', hS, ?_, ?_, ?_⟩
  · rcases checkForMESIRace_spec hissue (hS.bcc i) with ⟨hp, -, -⟩ | ⟨t, hrace, -, -, ht⟩
    · simp [hput] at hp
    · rw [hrace, ht hput]
  · cases type with
    | GETS =>
      have hI : w'.bcc i = .I := hready
      exact hA.raise (by simp [hI]) (by simp [hI])
    | GETX => exact hA.raise (fun _ => by simp [response]) fun _ => rfl
    | PUTS => simp [isGet] at hg
    | PUTX => simp [isGet] at hg
  · cases type with
    | GETS => cases ha : script.alone <;> simp [Granted, response, ha]
    | GETX => rfl
    | PUTS => simp [isGet] at hg
    | PUTX => simp [isGet] at hg

theorem accessLine_spec (h : Agreeing G w) (script : Script G) (type : AccessType)
    (state : MESIState) {i c : Nat} {a : Address} (hc : c < G.numChildren) (hi : i < G.numLines)
    (ha : w.array i = some a) (hserved : Served type state (held w.children c a)) :
    ∃ w' state', w.accessLine script i type c a state = some (w', state') ∧
      AgreeingSet G w' c a state' ∧ (state' = .I ↔ isPut type = true) ∧
      NoneInvalid w.children w'.children ∧ w'.atw = w.atw := by
  have hA := h.entry hi ha
  have hhit (b : MESIState) (hv : w.bcc i ≠ .I → b ≠ .I)
      (hx : (w.bcc i).isExclusive = true → b.isExclusive = true) (hg : Granted type b) :
      ∃ w' state', finishAccess G { w with bcc := Function.update w.bcc i b } i type c a state =
        some (w', state') ∧ AgreeingSet G w' c a state' ∧ (state' = .I ↔ isPut type = true) ∧
        NoneInvalid w.children w'.children ∧ w'.atw = w.atw :=
    finishAccess_spec (h.raise hv hx) type state hc hi ha hserved (by simpa using hg)
  have hmiss (hget : isGet type = true) (hissue : issuable type (w.bcc i) = true)
      (hlookup : MESIBottomCC.lookupAccess (w.bcc i) type = some (.miss type)) :
      ∃ w' state', w.accessLine script i type c a state = some (w', state') ∧
        AgreeingSet G w' c a state' ∧ (state' = .I ↔ isPut type = true) ∧
        NoneInvalid w.children w'.children ∧ w'.atw = w.atw := by
    obtain ⟨w₁, hw₁, hS, hrace, hA₁, hgrant⟩ := fetch_spec h script hget hissue
    have hput : ¬(isPut type = true ∧ w.bcc i = .I) := by
      cases type <;> simp [isGet, isPut] at hget ⊢
    obtain ⟨w', state', hw', hset, hst, hnone, hatw⟩ := finishAccess_spec hA₁ type state hc hi
      (hS.array ▸ ha) (hserved.lowered hget (hS.held c a)) (by simpa using hgrant)
    refine ⟨w', state', ?_, hset, hst, hS.noneInvalid.trans hnone, hatw.trans hS.atw⟩
    simp only [accessLine, if_neg hput, hlookup, hw₁, hrace]
    exact hw'
  cases type with
  | PUTS =>
    have hb : w.bcc i ≠ .I := hA.valid c hc hserved.2
    simp only [accessLine, hb, and_false, if_false, MESIBottomCC.lookupAccess]
    exact hhit (w.bcc i) id id hb
  | PUTX =>
    have hx : (w.bcc i).isExclusive = true := hA.perm c hc hserved.2
    have hb : w.bcc i ≠ .I := MESIState.ne_I_of_isExclusive hx
    simp only [accessLine, hb, and_false, if_false, MESIBottomCC.lookupAccess, hx, if_true]
    exact hhit .M (by simp) (by simp) (by simp [Granted])
  | GETS =>
    by_cases hb : w.bcc i = .I
    · exact hmiss rfl (by simp [issuable, hb]) (by simp [MESIBottomCC.lookupAccess, hb])
    · simp only [accessLine, hb, and_false, if_false, MESIBottomCC.lookupAccess]
      exact hhit (w.bcc i) id id hb
  | GETX =>
    by_cases hx : (w.bcc i).isExclusive = true
    · have hb : w.bcc i ≠ .I := MESIState.ne_I_of_isExclusive hx
      simp only [accessLine, hb, and_false, if_false, MESIBottomCC.lookupAccess, hx, if_true]
      exact hhit .M (by simp) (by simp) (by simp [Granted])
    · exact hmiss rfl (by simpa [issuable] using hx) (by simp [MESIBottomCC.lookupAccess, hx])

/-- The victim's line is taken from its sharers, and its slot has none then. -/
theorem processEviction_spec (h : Agreeing G w) {v : Nat} (hv : v < G.numLines) (srcId : Nat) :
    ∃ e children b, MESITopCC.processEviction false G.numChildren
        (invalidate G srcId ((w.array v).getD 0)) (w.tcc v) false w.children =
          some (e, children, b) ∧
      e.numSharers = 0 ∧ (b = true → (w.bcc v).isExclusive = true) ∧
      (∀ c a, Lowered (held w.children c a) (held children c a)) ∧
      NoneInvalid w.children children ∧
      ∀ p, Agreeing G { w with
        tcc := Function.update w.tcc v e, children := children
        bcc := Function.update w.bcc v p } := by
  cases ha : w.array v with
  | none =>
    have hA : (w.tcc v).Agrees G.numChildren (w.bcc v) (w.toParent.view v) := h.line v hv
    have hz : (w.tcc v).numSharers = 0 := by
      have hl : (w.tcc v).sharerList G.numChildren = [] :=
        List.eq_nil_iff_forall_not_mem.mpr fun c hc =>
          (hA.mem_sharerList_iff.mp hc).2 (by simp [ParentCache.view, toParent, ha])
      rw [hA.numSharers, hl, List.length_nil]
    refine ⟨w.tcc v, w.children, false, ?_, hz, by simp, fun _ _ => .refl _, fun _ _ hI => hI,
      fun p => ?_⟩
    · simp [MESITopCC.processEviction, MESITopCC.sendInvalidates, Entry.isEmpty, hz]
    · rw [Function.update_eq_self]
      exact h.set_empty hz p
  | some a =>
    obtain ⟨e, children, b, hs, hA', hz, -, hl, hb, -, hinv⟩ := MESITopCC.sendInvalidates_inv_agrees
      (invalidate_spec srcId a) (h.entry hv ha) trivial false
    refine ⟨e, children, b, by simpa [MESITopCC.processEviction] using hs, hz, hb, fun c a' => ?_,
      hinv.noneInvalid, fun p => ?_⟩
    · by_cases ha' : a' = a
      · exact ha' ▸ hl c
      · exact hinv.frame c a' ha' ▸ .refl _
    · refine h.of_line hv ha rfl (fun j hj => Function.update_of_ne hj _ _)
        (fun j hj => Function.update_of_ne hj _ _) hinv.frame rfl ?_
      simpa [toParent] using hA' p

theorem evictLine_spec (h : Agreeing G w) (script : Script G) (c : Nat) :
    ∃ w', w.evictLine script c = some w' ∧ Agreeing G w' ∧ w'.array = w.array ∧
      (w'.tcc script.victim).numSharers = 0 ∧ NoneInvalid w.children w'.children ∧
      w'.atw = w.atw := by
  obtain ⟨e, children, b, hs, hz, hb, -, hnone, hA⟩ :=
    processEviction_spec h script.victim.isLt c
  obtain ⟨state, hst⟩ : ∃ state, MESIBottomCC.evictState (w.bcc script.victim) b = some state := by
    cases b with
    | false => exact ⟨_, rfl⟩
    | true => exact ⟨.M, by simp [MESIBottomCC.evictState, hb rfl]⟩
  simp only [evictLine, hs, hst]
  cases hp : MESIBottomCC.evictRequest state with
  | none => exact ⟨_, rfl, hA state, rfl, by simpa using hz, hnone, rfl⟩
  | some put =>
    obtain ⟨w₁, hw₁, hA₁, hS⟩ := invalidates_spec (hA state) script.duringEviction
    have hlow : Lowered state (w₁.bcc script.victim) := by simpa using hS.bcc script.victim
    have hz₁ : (w₁.tcc script.victim).numSharers = 0 := hS.empty _ (by simpa using hz)
    obtain ⟨x, hx⟩ : ∃ x, checkForMESIRace put (w₁.bcc script.victim) state = some x := by
      rcases checkForMESIRace_spec (issuable_evictRequest hp) hlow with ⟨-, -, hr⟩ | ⟨t, hr, -⟩
      · exact ⟨_, hr⟩
      · exact ⟨_, hr⟩
    simp only [hw₁, hx]
    exact ⟨_, rfl, hA₁.set_empty hz₁ .I, hS.array, hz₁,
      hnone.trans hS.noneInvalid, hS.atw⟩

/-- An access of the parent passes all asserts and answers the child, in agreement with the
directory. -/
theorem access_spec (h : Agreeing G w) (script : Script G) {c : Nat} {a : Address}
    {type : AccessType} {state : MESIState} (hc : c < G.numChildren)
    (hserved : Served type state (held w.children c a)) :
    ∃ w' state', w.access script type c a state state = some (w', state') ∧
      AgreeingSet G w' c a state' ∧ (state' = .I ↔ isPut type = true) ∧
      NoneInvalid w.children w'.children ∧ w'.atw = w.atw := by
  have hrace : checkForMESIRace type state state = some (type, false) := if_pos rfl
  simp only [access, hrace]
  cases hl : w.lookup G a with
  | some i =>
    obtain ⟨hi, ha⟩ := ParentCache.lookup_some (lookup_eq w a ▸ hl)
    exact accessLine_spec h script type state hc hi ha hserved
  | none =>
    have hmiss := ParentCache.lookup_none (lookup_eq w a ▸ hl)
    have hI : held w.children c a = .I := ParentCache.Core.child_eq_I h hmiss hc
    -- a PUT comes from a child that has the line
    have hget : isGet type = true := by
      rw [hI] at hserved
      cases type <;> simp [Served] at hserved <;> rfl
    obtain ⟨w₁, hw₁, hA₁, harr, hz, hnone, hatw⟩ := evictLine_spec h script c
    have hmiss₁ : ∀ i < G.numLines, w₁.array i ≠ some a := harr ▸ hmiss
    have hI₁ : held w₁.children c a = .I := ParentCache.Core.child_eq_I hA₁ hmiss₁ hc
    have hA₂ := ParentCache.Core.insert hA₁ script.victim.isLt hz hmiss₁
    simp only [hget, if_true, hw₁]
    obtain ⟨w', state', hw', hset, hst, hnone', hatw'⟩ := accessLine_spec
      (w := { w₁ with array := Function.update w₁.array script.victim (some a) }) hA₂ script
      type state hc script.victim.isLt (Function.update_self ..)
      ((served_get hget).mpr (by
        change Ready type (held w₁.children c a)
        rw [hI₁]
        cases type <;> simp [isGet] at hget <;> simp [Ready]))
    exact ⟨w', state', hw', hset, hst, hnone.trans hnone', hatw'.trans hatw⟩

/-- A dirty PUT of a line that the child only shares fails the directory's assert. -/
theorem access_putx_shared (h : Agreeing G w) (script : Script G) {c : Nat} {a : Address}
    (hc : c < G.numChildren) (hS : held w.children c a = .S) :
    w.access script .PUTX c a .S .S = none := by
  obtain ⟨i, hi, ha⟩ := h.incl c hc a (by simp [toParent, hS])
  have hl : w.lookup G a = some i := ParentCache.lookup_of_mem h hi ha
  have hA := h.entry hi ha
  have hex : (w.tcc i).isExclusive = false := by
    have hx := hA.exclusive c hc (by simp [hS])
    simpa [hS] using hx
  have hrace : checkForMESIRace .PUTX .S .S = some (.PUTX, false) := rfl
  simp only [access, hrace, hl, accessLine]
  by_cases hput : isPut .PUTX = true ∧ w.bcc i = .I
  · simp [hput]
  · rw [if_neg hput]
    by_cases hx : (w.bcc i).isExclusive = true
    · simp [MESIBottomCC.lookupAccess, hx, finishAccess, MESITopCC.processAccess, hex]
    · simp [MESIBottomCC.lookupAccess, hx]

end System

end TraceDriver

end ZSim
