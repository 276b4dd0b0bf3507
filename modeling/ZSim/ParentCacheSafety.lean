import ZSim.ParentCacheInvariant

/-! Every step of the parent cache succeeds and keeps the invariant, so no assertion
or panic of the coherence code is reachable. -/

namespace ZSim

theorem issuable_evictRequest {state : MESIState} {put : AccessType}
    (h : MESIBottomCC.evictRequest state = some put) : issuable put state = true := by
  cases state <;> simp [MESIBottomCC.evictRequest] at h <;> subst h <;> rfl

theorem ready_of_isGet {type : AccessType} {initialState state : MESIState}
    (hg : isGet type = true) (hi : issuable type initialState = true)
    (hl : Lowered initialState state) : Ready type state := by
  cases type with
  | GETS =>
    have hI : initialState = .I := by simpa [issuable] using hi
    exact (hI ▸ hl).eq_I
  | GETX => exact hl.not_isExclusive (by simpa [issuable] using hi)
  | PUTS => simp [isGet] at hg
  | PUTX => simp [isGet] at hg

namespace ParentCache

variable {n m : Nat} {s s' : ParentCache}

/-- Clearing the victim below leaves its entry empty, so its own state may become
anything. -/
theorem processEviction_spec (h : Core n m s) {v : Nat} (hv : v < m) (deep : Nat → Bool) :
    ∃ e w b, MESITopCC.processEviction false n
        (childInvalidate ((s.array v).getD 0) deep) (s.tcc v) false s.child = some (e, w, b) ∧
      e.numSharers = 0 ∧ (b = true → (s.bcc v).isExclusive = true) ∧
      ∀ p, Core n m { s with
        tcc := Function.update s.tcc v e, child := w, bcc := Function.update s.bcc v p } := by
  have hA := h.line v hv
  cases ha : s.array v with
  | none =>
    have hz : (s.tcc v).numSharers = 0 := by
      have hl : (s.tcc v).sharerList n = [] := List.eq_nil_iff_forall_not_mem.mpr fun c hc =>
        (hA.mem_sharerList_iff.mp hc).2 (by simp [view, ha])
      rw [hA.numSharers, hl, List.length_nil]
    refine ⟨s.tcc v, s.child, false, ?_, hz, by simp, fun p => ⟨fun j hj => ?_, h.inj, h.incl,
      h.pend⟩⟩
    · simp [MESITopCC.processEviction, MESITopCC.sendInvalidates, Entry.isEmpty, hz]
    · change Entry.Agrees n (Function.update s.bcc v p j)
        (Function.update s.tcc v (s.tcc v) j) (s.view j)
      rw [Function.update_eq_self]
      by_cases hjv : j = v
      · subst j
        exact hA.of_isEmpty hz _
      · simpa [hjv] using h.line j hj
  | some a =>
    rw [view_eq ha] at hA
    obtain ⟨e, w, b, hs, hA', hz, hI, hl, hb, _, hF⟩ := MESITopCC.sendInvalidates_inv_agrees
      (childInvalidate_spec n a deep) hA trivial false
    refine ⟨e, w, b, by simpa [MESITopCC.processEviction] using hs, hz, hb, fun p => ?_⟩
    obtain ⟨h1, h2, h3⟩ := line_update h { s with
        tcc := Function.update s.tcc v e, child := w, bcc := Function.update s.bcc v p } hv ha rfl
      (fun j hj => by simp [hj]) (fun j hj => by simp [hj]) hF (by simpa using hA' p)
    exact ⟨h1, h2, h3, pend_update h (fun d r hr => ⟨hr, hl d⟩) hF⟩

theorem evictLine_spec (h : Core n m s) {v c : Nat} {r : Request} (hc : c < n) (hv : v < m)
    (hr : s.req c = some r) (hget : isGet r.type = true)
    (hmiss : ∀ i < m, s.array i ≠ some r.lineAddr) (deep : Nat → Bool) :
    ∃ s', evictLine n deep s c r v = some s' ∧ Inv n m s' := by
  obtain ⟨e, w, b, hs, hz, hb, hcore⟩ := processEviction_spec h hv deep
  obtain ⟨state, hst⟩ : ∃ state, MESIBottomCC.evictState (s.bcc v) b = some state := by
    cases b with
    | false => exact ⟨s.bcc v, rfl⟩
    | true => exact ⟨.M, by simp [MESIBottomCC.evictState, hb rfl]⟩
  simp only [evictLine, hs, hst]
  cases hp : MESIBottomCC.evictRequest state with
  | none => exact insertLine_spec (hcore state) hc hv (by simpa using hz) hr hget hmiss deep
  | some put =>
    refine ⟨_, rfl, ⟨(hcore state).line, h.inj, (hcore state).incl, (hcore state).pend⟩,
      fun w' hw' => ?_⟩
    obtain rfl := Option.some.inj hw'
    exact ⟨hc, hv, ⟨r, hr, hget, hmiss⟩, by simpa using hz, issuable_evictRequest hp,
      by simpa using Lowered.refl state⟩

theorem startAccess_spec (h : Inv n m s) {c v : Nat} {r : Request} (hc : c < n) (hv : v < m)
    (hw : s.waiting = none) (hr : s.req c = some r) (deep : Nat → Bool) :
    ∃ s', startAccess n m deep s c v r = some s' ∧ Inv n m s' := by
  obtain ⟨hi, hl, hpf⟩ := h.pend c hc r hr
  rcases checkForMESIRace_spec hi hl with ⟨_, _, hrace⟩ | ⟨type, hrace, hready, hput, htype⟩
  · refine ⟨{ s with req := Function.update s.req c none }, by simp only [startAccess, hrace],
      ⟨h.line, h.inj, h.incl, ?_⟩, fun w hw' => ?_⟩
    · exact pend_update h.toCore (a := 0) (fun d r' hr' => ⟨(req_update_none hr').2, .refl _⟩)
        fun _ _ _ => rfl
    · simp [hw] at hw'
  · simp only [startAccess, hrace]
    have hget' : isPut type = false → type = r.type := fun hh => htype (hput ▸ hh)
    cases hlk : lookup m s r.lineAddr with
    | some i =>
      obtain ⟨him, ha⟩ := lookup_some hlk
      refine accessLine_spec h.toCore hc him ha hr hready hget' (fun hp => ?_) deep
      have hG := hpf hp
      rw [htype (by simp [hG, isPut]), hG]
    | none =>
      have hmiss := lookup_none hlk
      have hI : s.child c r.lineAddr = .I := h.toCore.child_eq_I hmiss hc
      -- a PUT that is not skipped comes from a child that still has the line
      have hg : isGet type = true := by
        rw [hI] at hready
        cases type <;> simp [Ready] at hready <;> rfl
      have hp : isPut type = false := by cases type <;> simp [isGet] at hg <;> rfl
      have hrg : isGet r.type = true := hget' hp ▸ hg
      simp only [hg, if_true]
      exact evictLine_spec h.toCore hc hv hr hrg hmiss deep

theorem resumeAccess_spec (h : Inv n m s) {response : MESIState} (deep : Nat → Bool)
    (hen : Enabled n m s (.resume response deep)) :
    ∃ s', resumeAccess n deep s response = some s' ∧ Inv n m s' := by
  cases hw : s.waiting with
  | none => simp [Enabled, hw] at hen
  | some wt =>
    have hok := h.wait wt hw
    cases wt with
    | evict c v put initialState =>
      obtain ⟨hc, hv, ⟨r, hr, hget, hmiss⟩, hz, hi, hl⟩ := hok
      obtain ⟨x, hx⟩ : ∃ x, checkForMESIRace put (s.bcc v) initialState = some x := by
        rcases checkForMESIRace_spec hi hl with ⟨_, _, hrace⟩ | ⟨type, hrace, _⟩
        · exact ⟨_, hrace⟩
        · exact ⟨_, hrace⟩
      simp only [resumeAccess, hw, hx, hr]
      have hcore : Core n m { s with bcc := Function.update s.bcc v .I, waiting := none } := by
        refine ⟨fun j hj => ?_, h.inj, h.incl, h.pend⟩
        change (s.tcc j).Agrees n (Function.update s.bcc v .I j) (s.view j)
        by_cases hjv : j = v
        · subst j
          exact (h.line v hv).of_isEmpty hz _
        · simpa [hjv] using h.line j hj
      exact insertLine_spec hcore hc hv hz hr hget hmiss deep
    | fetch c i type initialState =>
      obtain ⟨hc, hi, ⟨r, hr, rfl, ha⟩, hget, hiss, hl⟩ := hok
      have hgrant : MESIBottomCC.grantOk r.type response = true := by simpa [Enabled, hw] using hen
      have hb := ready_of_isGet hget hiss hl
      obtain ⟨hci, hcl, _⟩ := h.pend c hc r hr
      have hready := ready_of_isGet hget hci hcl
      have hrace : checkForMESIRace r.type (s.bcc i) initialState = some (r.type, false) := by
        rcases checkForMESIRace_spec hiss hl with ⟨hp, _, _⟩ | ⟨t, hr', _, hpp, ht⟩
        · cases hT : r.type <;> simp [hT, isGet, isPut] at hget hp
        · have hp : isPut r.type = false := by
            cases hT : r.type <;> simp [hT, isGet] at hget <;> rfl
          rw [hr', ht (hpp ▸ hp)]
      have hup : (s.bcc i ≠ .I → response ≠ .I) ∧
          ((s.bcc i).isExclusive = true → response.isExclusive = true) ∧
          Granted r.type response := by
        cases hT : r.type <;> simp [hT, isGet] at hget <;>
          simp [hT, MESIBottomCC.grantOk, Ready] at hgrant hb
        · rcases hgrant with rfl | rfl <;> simp [hb, Granted]
        · simp [hgrant, Granted]
      simp only [resumeAccess, hw, hrace, hr, hgrant, if_true]
      obtain ⟨s', hs, hcore, hw'⟩ := finishAccess_spec (h.toCore.raise hup.1 hup.2.1) hc hi ha
        hready (by simpa using hup.2.2) deep
      exact ⟨s', hs, hcore.inv_of_waiting hw'⟩

/-- Lowering this cache's line and the children's copies keeps the invariant, the
wait for the level above included. -/
theorem inval_tail (h : Inv n m s) {i : Nat} {a : Address} (hi : i < m) (ha : s.array i = some a)
    {e : Entry} {w : Nat → Address → MESIState} {b : Bool} {p : MESIState}
    (hA : Entry.Agrees n p e (fun c => w c a)) (hz : (s.tcc i).numSharers = 0 → e.numSharers = 0)
    (hF : Frame a s.child b w) (hl : ∀ c, Lowered (s.child c a) (w c a))
    (hp : Lowered (s.bcc i) p) :
    Inv n m { s with
      tcc := Function.update s.tcc i e, child := w, bcc := Function.update s.bcc i p } := by
  obtain ⟨h1, h2, h3⟩ := line_update h.toCore { s with
      tcc := Function.update s.tcc i e, child := w, bcc := Function.update s.bcc i p } hi ha rfl
    (fun j hj => by simp [hj]) (fun j hj => by simp [hj]) hF (by simpa using hA)
  have hlow (j : Nat) : Lowered (s.bcc j) (Function.update s.bcc i p j) := by
    by_cases hji : j = i
    · subst j
      simpa using hp
    · simpa [hji] using Lowered.refl _
  refine ⟨⟨h1, h2, h3, pend_update h.toCore (fun d r hr => ⟨hr, hl d⟩) hF⟩, fun wt hwt => ?_⟩
  have hok := h.wait wt hwt
  cases wt with
  | evict c v put initialState =>
    obtain ⟨hc, hv, hr, hzv, hiss, hlv⟩ := hok
    refine ⟨hc, hv, hr, ?_, hiss, hlv.trans (hlow v)⟩
    by_cases hvi : v = i
    · subst v
      simpa using hz hzv
    · simpa [hvi] using hzv
  | fetch c v type initialState =>
    obtain ⟨hc, hv, hr, hget, hiss, hlv⟩ := hok
    exact ⟨hc, hv, hr, hget, hiss, hlv.trans (hlow v)⟩

theorem invalidate_spec (h : Inv n m s) {a : Address} {type : InvType} (deep : Nat → Bool)
    (hen : Enabled n m s (.inval a type deep)) :
    ∃ s', invalidate n m deep s a type = some s' ∧ Inv n m s' := by
  obtain ⟨i, hi, ha, hok⟩ := hen
  have hA := h.line i hi
  rw [view_eq ha] at hA
  have spec := childInvalidate_spec n a deep
  obtain ⟨e, w, b, hs, hA', hz, _, hl, _, hF⟩ :=
    MESITopCC.processInval_spec spec hA trivial hok false
  simp only [invalidate, lookup_of_mem h.toCore hi ha, hs, MESIBottomCC.processInval_eq hok,
    Option.map_some]
  exact ⟨_, rfl, inval_tail h hi ha hA' hz hF hl (lowered_lowerTo hok)⟩

theorem issue_spec (h : Inv n m s) {c : Nat} {r : Request} (hen : Enabled n m s (.issue c r)) :
    Inv n m { s with req := Function.update s.req c (some r) } := by
  obtain ⟨hc, hnone, hst, hiss, hpf⟩ := hen
  have hkeep {d : Nat} {r' : Request} (hr : s.req d = some r') :
      Function.update s.req c (some r) d = some r' := by
    have hdc : d ≠ c := by
      rintro rfl
      simp [hnone] at hr
    simpa [hdc] using hr
  refine ⟨⟨h.line, h.inj, h.incl, fun d hd r' hr => ?_⟩, fun wt hwt => ?_⟩
  · by_cases hdc : d = c
    · subst d
      obtain rfl : r = r' := by simpa using hr
      exact ⟨hiss, hst ▸ .refl _, hpf⟩
    · exact h.pend d hd r' (by simpa [hdc] using hr)
  · have hok := h.wait wt hwt
    cases wt with
    | evict d v put initialState =>
      obtain ⟨hd, hv, ⟨r', hr, hget, hmiss⟩, hok⟩ := hok
      exact ⟨hd, hv, ⟨r', hkeep hr, hget, hmiss⟩, hok⟩
    | fetch d v type initialState =>
      obtain ⟨hd, hv, ⟨r', hr, ht, ha⟩, hok⟩ := hok
      exact ⟨hd, hv, ⟨r', hkeep hr, ht, ha⟩, hok⟩

theorem silent_spec (h : Inv n m s) {c : Nat} {a : Address}
    (hen : Enabled n m s (.silent c a)) : Inv n m { s with child := setChild s.child c a .M } := by
  obtain ⟨hc, hnone, hE⟩ := hen
  obtain ⟨i, hi, ha⟩ := h.incl c hc a (by simp [hE])
  have hA := h.line i hi
  rw [view_eq ha] at hA
  have hF : Frame a s.child false (setChild s.child c a .M) := fun d a' ha' =>
    setChild_frame _ _ _ _ ha'
  obtain ⟨h1, h2, h3⟩ := line_update h.toCore { s with child := setChild s.child c a .M }
    hi ha rfl (fun _ _ => rfl) (fun _ _ => rfl) hF
    (by simpa [setChild_same] using hA.upgrade (s := .M) (by simp [hE]) rfl)
  refine ⟨⟨h1, h2, h3, pend_update h.toCore (fun d r hr => ⟨hr, ?_⟩) hF⟩, fun wt hwt => ?_⟩
  · have hdc : d ≠ c := by
      rintro rfl
      simp [hnone] at hr
    simpa [setChild, hdc] using Lowered.refl _
  · have hok := h.wait wt hwt
    cases wt <;> exact hok

/-- Step lemma: every enabled step runs without a failed assertion and keeps the
invariant. -/
theorem step_spec (h : Inv n m s) {a : Action} (hen : Enabled n m s a) :
    ∃ s', step n m s a = some s' ∧ Inv n m s' := by
  cases a with
  | issue c r => exact ⟨_, rfl, issue_spec h hen⟩
  | silent c a => exact ⟨_, rfl, silent_spec h hen⟩
  | start c v deep =>
    obtain ⟨hc, hv, hw, hne⟩ := hen
    obtain ⟨r, hr⟩ := Option.ne_none_iff_exists'.mp hne
    simp only [step, hr]
    exact startAccess_spec h hc hv hw hr deep
  | resume response deep => exact resumeAccess_spec h deep hen
  | inval a type deep => exact invalidate_spec h deep hen

theorem Reachable.inv (h : Reachable n m s) : Inv n m s := by
  induction h with
  | init => exact inv_init n m
  | step _ hen hs ih =>
    obtain ⟨s', hs', hinv⟩ := step_spec ih hen
    rw [hs] at hs'
    exact Option.some.inj hs' ▸ hinv

/-- What the directory of line `i`, which holds `a`, says about the children. The
exclusive flag only counts while there are sharers: `isExclusive()` reads it so. -/
structure DirectoryAgrees (n : Nat) (s : ParentCache) (i : Nat) (a : Address) : Prop where
  sharers : ∀ c < n, (s.tcc i).sharers c = true ↔ s.child c a ≠ .I
  numSharers : (s.tcc i).numSharers = ((s.tcc i).sharerList n).length
  exclusive : (s.tcc i).numSharers ≠ 0 → ((s.tcc i).exclusive = true ↔
    (s.tcc i).numSharers = 1 ∧ ∀ c < n, s.child c a ≠ .I → (s.child c a).isExclusive = true)
  single_writer : ∀ c < n, (s.child c a).isExclusive = true → ∀ d < n, d ≠ c → s.child d a = .I
  valid : ∀ c < n, s.child c a ≠ .I → s.bcc i ≠ .I
  perm : ∀ c < n, (s.child c a).isExclusive = true → (s.bcc i).isExclusive = true

theorem Core.directoryAgrees (h : Core n m s) {i : Nat} {a : Address} (hi : i < m)
    (ha : s.array i = some a) : DirectoryAgrees n s i a := by
  have hA := h.line i hi
  rw [view_eq ha] at hA
  refine ⟨hA.sharers, hA.numSharers, fun hne => ⟨fun hx => ?_, fun hx => ?_⟩,
    fun c hc hs d hd hdc => hA.single_writer hc hs hd hdc, hA.valid, hA.perm⟩
  · have h1 : (s.tcc i).numSharers = 1 := by
      by_contra h1
      have := hA.shared (by omega)
      simp [hx] at this
    refine ⟨h1, fun c hc hv => (hA.exclusive c hc hv).mpr ?_⟩
    simp [Entry.isExclusive, h1, hx]
  · have hpos : 0 < ((s.tcc i).sharerList n).length := by
      rw [← hA.numSharers]
      omega
    obtain ⟨c, hc⟩ := List.exists_mem_of_length_pos hpos
    obtain ⟨hcn, hv⟩ := hA.mem_sharerList_iff.mp hc
    have hex := (hA.exclusive c hcn hv).mp (hx.2 c hcn hv)
    simp only [Entry.isExclusive, Bool.and_eq_true] at hex
    exact hex.2

/-- MESI single writer and directory agreement in every reachable state of a parent
with `n` children and `m` lines, and no assertion or panic in any step from it. -/
theorem reachable_directory_agreement (h : Reachable n m s) :
    (∀ i < m, ∀ a, s.array i = some a → DirectoryAgrees n s i a) ∧
    (∀ c < n, ∀ a, s.child c a ≠ .I → ∃ i < m, s.array i = some a ∧ s.bcc i ≠ .I) ∧
    ∀ a, Enabled n m s a → (step n m s a).isSome = true := by
  have hinv := h.inv
  refine ⟨fun i hi a ha => hinv.directoryAgrees hi ha, fun c hc a hne => ?_, fun a hen => ?_⟩
  · obtain ⟨i, hi, ha⟩ := hinv.incl c hc a hne
    exact ⟨i, hi, ha, (hinv.directoryAgrees hi ha).valid c hc hne⟩
  · obtain ⟨s', hs, _⟩ := step_spec hinv hen
    simp [hs]

/-- A request for line 5 by a child that finds it in `state`. -/
def demand (type : AccessType) (state : MESIState) : Request := ⟨5, type, state, 0⟩

/-- Agreement where a GETX of child 0 was answered: the line is in M there. -/
theorem reachable_directory_agreement_getx : ∃ s, Reachable 2 1 s ∧ s.child 0 5 = .M ∧
    DirectoryAgrees 2 s 0 5 := by
  have h₁ : Reachable 2 1 _ := Reachable.init.step (a := .issue 0 (demand .GETX .I))
    ⟨by decide, rfl, rfl, rfl, by decide⟩ rfl
  have h₂ : Reachable 2 1 _ := h₁.step (a := .start 0 0 fun _ => false)
    ⟨by decide, by decide, rfl, by simp⟩ rfl
  have h₃ : Reachable 2 1 _ := h₂.step (a := .resume .M fun _ => false) rfl rfl
  exact ⟨_, h₃, rfl, (reachable_directory_agreement h₃).1 0 (by decide) 5 rfl⟩

/-- The flag alone does not say that there is an exclusive sharer: the PUTX of the
owner takes it out of the sharers and leaves the flag up. -/
theorem exclusive_flag_stale : ¬ ∀ n m s, Reachable n m s → ∀ i < m, ∀ a, s.array i = some a →
    ((s.tcc i).exclusive = true ↔
      (s.tcc i).numSharers = 1 ∧ ∃ c < n, (s.child c a).isExclusive = true) := by
  intro h
  have h₁ : Reachable 2 1 _ := Reachable.init.step (a := .issue 0 (demand .GETX .I))
    ⟨by decide, rfl, rfl, rfl, by decide⟩ rfl
  have h₂ : Reachable 2 1 _ := h₁.step (a := .start 0 0 fun _ => false)
    ⟨by decide, by decide, rfl, by simp⟩ rfl
  have h₃ : Reachable 2 1 _ := h₂.step (a := .resume .M fun _ => false) rfl rfl
  have h₄ : Reachable 2 1 _ := h₃.step (a := .issue 0 (demand .PUTX .M))
    ⟨by decide, rfl, rfl, rfl, by decide⟩ rfl
  have h₅ : Reachable 2 1 _ := h₄.step (a := .start 0 0 fun _ => false)
    ⟨by decide, by decide, rfl, by simp⟩ rfl
  have hh := (h 2 1 _ h₅ 0 (by decide) 5 rfl).mp rfl
  exact absurd hh.1 (by decide)

end ParentCache

end ZSim
