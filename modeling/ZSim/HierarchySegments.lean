import ZSim.HierarchyInvariant

/-! Each segment of an access runs without a failed assertion, keeps the invariant and
drops no dirty copy. -/

namespace ZSim

theorem Ready.of_lowered {type : AccessType} {x y : MESIState} (h : Ready type x)
    (hg : isGet type = true) (hl : Lowered x y) : Ready type y := by
  cases type with
  | GETS =>
    cases h
    exact hl.eq_I
  | GETX => exact hl.not_isExclusive h
  | PUTS => simp [isGet] at hg
  | PUTX => simp [isGet] at hg

theorem Ready.ne_M {type : AccessType} {x : MESIState} (h : Ready type x)
    (ht : type ≠ .PUTX) : x ≠ .M := by
  cases type with
  | GETS => cases h; simp
  | GETX => rintro rfl; simp [Ready] at h
  | PUTS => rcases h with rfl | rfl <;> simp
  | PUTX => exact absurd rfl ht

namespace Hierarchy

variable {T : CacheTree} {s : Hierarchy}

theorem Inv.record (h : Inv T s) (e : Event) : Inv T (s.record e) :=
  ⟨h.line, fun p P hP => (h.wait p P hP).mono (.refl _) rfl id fun _ _ => id⟩

theorem Inv.clear_child (h : Inv T s) {p : Path} (hidle : s.pend p = none) (c : Nat) :
    Inv T (s.setPend (c :: p) none) := by
  refine ⟨h.line, fun q Q hQ => ?_⟩
  have hq : q ≠ c :: p := by
    rintro rfl
    simp at hQ
  have hQ' : s.pend q = some Q := by simpa [hq] using hQ
  refine (h.wait q Q hQ').mono (.refl _) rfl id fun d Q' hd => ?_
  have hqp : q ≠ p := by
    rintro rfl
    simp [hidle] at hQ'
  have hne : d :: q ≠ c :: p := fun hh => hqp (List.cons.inj hh).2
  simpa [hne] using hd

theorem Inv.send (h : Inv T s) {p : Path} {P : Pending} (hidle : s.pend p = none)
    (hP : WaitOk T s p P) : Inv T (s.send p P) := by
  have hpend : (s.send p P).pend = Function.update s.pend p (some P) := rfl
  have hkeep (q : Path) (c : Nat) (Q : Pending) (hQ : s.pend (c :: q) = some Q) :
      (s.send p P).pend (c :: q) = some Q := by
    have hne : c :: q ≠ p := by
      rintro rfl
      simp [hidle] at hQ
    simpa [hpend, hne] using hQ
  refine ⟨h.line, fun q Q hQ => ?_⟩
  by_cases hq : q = p
  · subst q
    obtain rfl : P = Q := by simpa [hpend] using hQ
    exact hP.mono (.refl _) rfl id (hkeep p)
  · exact (h.wait q Q (by simpa [hpend, hq] using hQ)).mono (.refl _) rfl id (hkeep q)

theorem Inv.setState_M (h : Inv T s) {p : Path} (hidle : s.pend p = none)
    (hx : (s.st p).isExclusive = true) : Inv T (s.setState p .M) := by
  refine ⟨agreesAt_setState_M h.line hx, fun q Q hQ => ?_⟩
  have hq : q ≠ p := by
    rintro rfl
    simp [hidle] at hQ
  exact (h.wait q Q hQ).mono (by simpa [hq] using Lowered.refl _) rfl id fun _ _ => id

theorem setState_self (s : Hierarchy) (p : Path) : s.setState p (s.st p) = s := by
  simp [setState]

theorem toChildren_spec (hinc : ∀ q, T.nonInclusiveHack q = false) (p : Path) :
    InvalidateSpec (T.fanout p) (toChildren T p) (fun s c => s.st (c :: p))
      (fun s => ∀ r, StrictlyBelow p r → AgreesAt T s r) (Eff (StrictlyBelow p)) :=
  invalidateSpec_of (toChildren T p) fun c hc type s hA hok => by
    have hb := T.bounded p (by omega)
    exact invalidate_spec T.height (by simp only [List.length_cons]; omega) hb hinc hA hok

/-- The requester's state as far as this access has taken it away. -/
def released (type : AccessType) (x : MESIState) : MESIState := if isPut type then .I else x

/-- The end of `finishServe`, once the directory has answered `x`. -/
theorem serve_tail (h : Inv T s) {p : Path} {c : Nat} {type : AccessType} {Q : Pending}
    (hc : c < T.fanout p) (hidle : s.pend p = none) (hQ : s.pend (c :: p) = some Q)
    (hready : Ready type (s.st (c :: p))) (hres : s.resident p = true)
    (hput : isPut type = isPut Q.req.type) {e : Entry} {x : MESIState} {s₁ : Hierarchy} {b : Bool}
    (hA : e.Agrees (T.fanout p) (s.st p) (Function.update (fun d => s₁.st (d :: p)) c x))
    (hg : Granting type x) (hE : Eff (StrictlyBelow p) s b s₁)
    (hJ : ∀ r, StrictlyBelow p r → AgreesAt T s₁ r)
    (hb : b = true → (s.st p).isExclusive = true) {s₂ : Hierarchy}
    (hs₂ : s₂ = ((s₁.setDir p e).setState (c :: p) x).record (.answered (c :: p) type Q.issuer x)) :
    ∃ s' l, (if b then (MESIBottomCC.processWritebackOnAccess (s₂.st p)).map fun b =>
        s₂.setState p b else some s₂) = some s' ∧
      Inv T (s'.setPend (c :: p) none) ∧ s'.pend = s.pend ∧ s'.st (c :: p) = x ∧
      ((s.dir (c :: p)).numSharers = 0 → (s'.dir (c :: p)).numSharers = 0) ∧
      Moved (s.setState (c :: p) (released type (s.st (c :: p)))) l s' := by
  have hWQ := h.wait _ _ hQ
  have hpc : p ≠ c :: p := (child_ne p c).symm
  have hst₁ : s₁.st p = s.st p := hE.st p fun hh => hh.ne rfl
  have hst₂ : s₂.st p = s.st p := by simp [hs₂, hpc, hst₁]
  have hdir₂ {r : Path} (hr : r ≠ p) : s₂.dir r = s₁.dir r := by simp [hs₂, hr]
  have hline : ∀ r, AgreesAt T s₂ r := by
    intro r
    by_cases hrp : r = p
    · subst r
      refine ⟨?_, fun _ => by simpa [hs₂, hE.resident] using hres⟩
      rw [hst₂]
      have hd : s₂.dir p = e := by simp [hs₂]
      rw [hd]
      exact hA.congr fun d _ => by by_cases hd : d = c <;> simp [hs₂, hd]
    by_cases hrc : r = c :: p
    · subst r
      obtain ⟨hA₁, _⟩ := hJ _ (strictlyBelow_child p c)
      refine ⟨?_, fun _ => by simpa [hs₂, hE.resident] using hWQ.resident⟩
      rw [hdir₂ hrp]
      have hx : s₂.st (c :: p) = x := by simp [hs₂]
      rw [hx]
      have hA₂ := agrees_granted hA₁ (fun hg' => hready.of_lowered hg' (hE.lowered _)) hg
        fun hp => hE.empty _ (hWQ.numSharers (hput ▸ hp))
      exact hA₂.congr fun d _ => by simp [hs₂]
    · have hcr (d : Nat) : d :: r ≠ c :: p := fun hh => hrp (List.cons.inj hh).2
      by_cases hbelow : StrictlyBelow p r
      · exact (hJ r hbelow).congr (by simp [hs₂, hrc]) (hdir₂ hrp) (by simp [hs₂])
          fun d => by simp [hs₂, hcr d]
      · refine (h.line r).congr (by simp [hs₂, hrc, hE.st r hbelow])
          (by simp [hs₂, hrp, hE.dir r hbelow]) (by simp [hs₂, hE.resident]) fun d => ?_
        have hnd : ¬StrictlyBelow p (d :: r) := by
          rintro ⟨d', hd'⟩
          rcases List.suffix_cons_iff.mp hd' with hh | hh
          · exact hrp (List.cons.inj hh).2.symm
          · exact hbelow ⟨d', hh⟩
        simp [hs₂, hcr d, hE.st _ hnd]
  have hwait {s' : Hierarchy} (hst : ∀ r, r ≠ p → s'.st r = s₂.st r) (hd : s'.dir = s₂.dir)
      (hr : s'.resident = s₂.resident) (hp : s'.pend = s₂.pend) (q : Path) (P : Pending)
      (hP : (s'.setPend (c :: p) none).pend q = some P) :
      WaitOk T (s'.setPend (c :: p) none) q P := by
    have hpend : s'.pend = s.pend := by simp [hp, hs₂, hE.pend]
    have hqc : q ≠ c :: p := by
      rintro rfl
      simp at hP
    have hP' : s.pend q = some P := by simpa [hqc, hpend] using hP
    have hqp : q ≠ p := by
      rintro rfl
      simp [hidle] at hP'
    refine (h.wait q P hP').mono ?_ (by simp [hr, hs₂, hE.resident]) (fun hz => ?_) fun d Q' hd' => ?_
    · simpa [hst q hqp, hs₂, hqc] using hE.lowered q
    · simpa [hd, hs₂, hqp] using hE.empty q hz
    · have hne : d :: q ≠ c :: p := fun hh => hqp (List.cons.inj hh).2
      simpa [hne, hpend] using hd'
  have hmoved (s' : Hierarchy) (hlog : s'.log = s₂.log) (hM : b = true → s'.st p = .M)
      (hst : ∀ r, s₂.st r = .M → s'.st r = .M) :
      ∃ l, Moved (s.setState (c :: p) (released type (s.st (c :: p)))) l s' := by
    -- the requester's own state is not dirty at this point
    have hrel : released type (s.st (c :: p)) ≠ .M := by
      by_cases hp : isPut type = true
      · simp [released, hp]
      · have hne : type ≠ .PUTX := by
          rintro rfl
          simp [isPut] at hp
        simpa [released, hp] using hready.ne_M hne
    have hother {r : Path} (hr : (s.setState (c :: p) (released type (s.st (c :: p)))).st r = .M) :
        r ≠ c :: p := by
      rintro rfl
      simp [hrel] at hr
    refine Moved.of_eff [.answered (c :: p) type Q.issuer x] hE rfl (fun r hr => ?_) hM
      (fun r hr hr' => hst r (by simpa [hs₂, hother hr] using hr')) (by simp [hlog, hs₂])
      (by simp [Event.isWrite])
    simpa [hother hr] using hr
  have hfin : s₂.st (c :: p) = x := by simp [hs₂]
  have hdirc (hz : (s.dir (c :: p)).numSharers = 0) : (s₂.dir (c :: p)).numSharers = 0 := by
    rw [hdir₂ hpc.symm]
    exact hE.empty _ hz
  have hpend₂ : s₂.pend = s.pend := by simp [hs₂, hE.pend]
  by_cases hbt : b = true
  · have hx : (s₂.st p).isExclusive = true := by rw [hst₂]; exact hb hbt
    obtain ⟨l, hl⟩ := hmoved (s₂.setState p .M) rfl (fun _ => by simp) fun r hr => by
      by_cases hrp : r = p <;> simp [hrp, hr]
    refine ⟨s₂.setState p .M, l, by simp [hbt, MESIBottomCC.processWritebackOnAccess, hx],
      ⟨agreesAt_setState_M hline hx, hwait (fun r hr => by simp [hr]) rfl rfl rfl⟩, hpend₂,
      by simpa [hpc.symm] using hfin, hdirc, hl⟩
  · obtain ⟨l, hl⟩ := hmoved s₂ rfl (fun hh => absurd hh hbt) fun r hr => hr
    exact ⟨s₂, l, by simp [hbt], ⟨hline, hwait (fun _ _ => rfl) rfl rfl rfl⟩, hpend₂, hfin,
      hdirc, hl⟩

/-- Serving a child: the parent's segment between its own permission and the answer. -/
theorem finishServe_spec (hinc : ∀ q, T.nonInclusiveHack q = false) (h : Inv T s) {p : Path}
    {c : Nat} {type : AccessType} {Q : Pending} (hc : c < T.fanout p) (hidle : s.pend p = none)
    (hQ : s.pend (c :: p) = some Q) (hready : Ready type (s.st (c :: p)))
    (hg : Granted type (s.st p)) (hres : s.resident p = true)
    (hput : isPut type = isPut Q.req.type) :
    ∃ s' l x, finishServe T p c type Q s = some s' ∧ Inv T (s'.setPend (c :: p) none) ∧
      s'.pend = s.pend ∧ s'.st (c :: p) = x ∧ Granting type x ∧
      ((s.dir (c :: p)).numSharers = 0 → (s'.dir (c :: p)).numSharers = 0) ∧
      Moved (s.setState (c :: p) (released type (s.st (c :: p)))) l s' := by
  have hWQ := h.wait _ _ hQ
  have hA := (h.line p).1
  have hJ : ∀ r, StrictlyBelow p r → AgreesAt T s r := fun r _ => h.line r
  have spec := toChildren_spec (T := T) hinc p
  have hptr : s.readPtr Q.req.state = s.st (c :: p) := by rw [hWQ.state]; rfl
  simp only [finishServe, hWQ.not_isPrefetch, Bool.false_eq_true, if_false, hptr, hWQ.flags]
  rw [hWQ.state]
  cases type with
  | GETS =>
    obtain ⟨e, x, s₁, b, hpa, hA', hx, _, hb, _, hJ', hE⟩ := MESITopCC.processAccess_gets spec hA
      hJ hc hready hg (0#32 &&& ~~~MemReq.PREFETCH) false
    have hgr : Granting .GETS x := by
      rcases hx with rfl | rfl <;> exact ⟨rfl, by simp [isPut]⟩
    rw [hpa]
    obtain ⟨s', l, h1, h2, h3, h4, h5, h6⟩ := serve_tail h hc hidle hQ hready hres hput hA' hgr hE
      hJ' hb rfl
    exact ⟨s', l, x, by simpa using h1, h2, h3, h4, hgr, h5, h6⟩
  | GETX =>
    obtain ⟨e, s₁, b, hpa, hA', _, hJ', hE⟩ := MESITopCC.processAccess_getx spec hA
      hJ hc hready hg (0#32 &&& ~~~MemReq.PREFETCH) false
    have hgr : Granting .GETX .M := ⟨rfl, by simp [isPut]⟩
    rw [hpa]
    obtain ⟨s', l, h1, h2, h3, h4, h5, h6⟩ := serve_tail h hc hidle hQ hready hres hput hA' hgr hE
      hJ' (fun _ => hg) rfl
    exact ⟨s', l, .M, by simpa using h1, h2, h3, h4, hgr, h5, h6⟩
  | PUTS =>
    obtain ⟨e, x, hpa, hA', hx⟩ := MESITopCC.processAccess_put (toChildren T p)
      (fun s c => s.st (c :: p)) s hA hc (show isPut .PUTS = true from rfl) (hready.ne_I rfl)
      (by simp) (s.st p).isExclusive (0#32 &&& ~~~MemReq.PREFETCH) false
    have hxI : x = .I := by simpa using hx
    have hgr : Granting .PUTS x := ⟨rfl, fun _ => hxI⟩
    rw [hpa]
    obtain ⟨s', l, h1, h2, h3, h4, h5, h6⟩ := serve_tail h hc hidle hQ hready hres hput hA' hgr
      (.refl _ s) hJ (b := false) (by simp) rfl
    exact ⟨s', l, x, by simpa using h1, h2, h3, h4, hgr, h5, h6⟩
  | PUTX =>
    have hM : s.st (c :: p) = .M := hready
    obtain ⟨e, x, hpa, hA', hx⟩ := MESITopCC.processAccess_put (toChildren T p)
      (fun s c => s.st (c :: p)) s hA hc (show isPut .PUTX = true from rfl) (hready.ne_I rfl)
      (fun _ => hM) (s.st p).isExclusive (0#32 &&& ~~~MemReq.PREFETCH) false
    have hxI : x = .I := by
      rcases hx with hx | ⟨_, _, hk⟩
      · exact hx
      · simp at hk
    have hgr : Granting .PUTX x := ⟨rfl, fun _ => hxI⟩
    rw [hpa]
    obtain ⟨s', l, h1, h2, h3, h4, h5, h6⟩ := serve_tail h hc hidle hQ hready hres hput hA' hgr
      (.refl _ s) hJ (b := false) (by simp) rfl
    exact ⟨s', l, x, by simpa using h1, h2, h3, h4, hgr, h5, h6⟩

theorem finishCore_spec (h : Inv T s) (p : Path) (type : AccessType)
    (hM : type = .GETX → s.st p = .M) :
    Inv T (finishCore p type s) ∧ ∃ l, Moved s l (finishCore p type s) := by
  by_cases hX : type = .GETX
  · refine ⟨by simpa [finishCore, hX] using h.record _, [.wrote p], ?_⟩
    simp only [finishCore, hX, if_true]
    exact ⟨rfl, fun q h1 h2 => absurd h1 h2, fun q h1 h2 => absurd h1 h2, fun _ => .inl ⟨p, hM hX⟩⟩
  · refine ⟨by simpa [finishCore, hX] using h, [], ?_⟩
    simp only [finishCore, hX, if_false]
    exact .of_st rfl (fun _ hq => hq) (by simp)

/-- The answer runs down the chain of caches that wait for each other. -/
theorem resume_spec (hinc : ∀ q, T.nonInclusiveHack q = false) (k : Nat) {p : Path} {P : Pending}
    (hk : T.height < p.length + k) (hp : p.length ≤ T.height) (hP : s.pend p = some P)
    (h : Inv T (s.setPend p none)) (hpur : PurposeOk T s p P)
    (hg : Granting P.req.type (s.st p)) :
    ∃ s' l, resume T k p s = some s' ∧ Inv T s' ∧ Moved s l s' := by
  induction k generalizing s p P with
  | zero => omega
  | succ k ih =>
    have hclear : Moved s [] (s.setPend p none) := .of_st rfl (fun _ hq => hq) (by simp)
    cases hpp : P.purpose with
    | core =>
      simp only [resume, hP, hpp, hg.1, if_true]
      obtain ⟨hi, l, hm⟩ := finishCore_spec h p P.req.type fun hX => by
        simpa [hX, MESIBottomCC.grantOk] using hg.1
      exact ⟨_, l ++ [], rfl, hi, hclear.trans hm⟩
    | evict =>
      simp only [PurposeOk, hpp] at hpur
      have hI := hg.2 hpur.1
      refine ⟨(s.setPend p none).setResident p false, [],
        by simp only [resume, hP, hpp, hI, if_true], ⟨fun r => ?_, fun q Q hQ => ?_⟩,
        .of_st rfl (fun _ hq => hq) (by simp)⟩
      · refine ⟨(h.line r).1, fun hne => ?_⟩
        have hrp : r ≠ p := by
          rintro rfl
          exact hne hI
        simpa [hrp] using (h.line r).2 hne
      · have hqp : q ≠ p := by
          rintro rfl
          simp at hQ
        exact (h.wait q Q hQ).mono (.refl _) (by simp [hqp]) id fun _ _ => id
    | forward c => simp [PurposeOk, hpp] at hpur
    | serve c type =>
      simp only [PurposeOk, hpp] at hpur
      obtain ⟨hc, hget, hT, Q, hQ, hQt⟩ := hpur
      have hQ₀ : (s.setPend p none).pend (c :: p) = some Q := by simpa [child_ne] using hQ
      have hWQ := h.wait _ _ hQ₀
      have hready : Ready type (s.st (c :: p)) := by
        rw [← hQt]
        exact ready_of_isGet (hQt ▸ hget) hWQ.issued hWQ.lowered
      have hgr : Granted type (s.st p) ∧ s.st p ≠ .I := by
        have hok := hg.1
        rw [hT] at hok
        cases type <;> simp [isGet] at hget <;> simp [MESIBottomCC.grantOk] at hok
        · rcases hok with hok | hok <;> simp [Granted, hok]
        · simp [Granted, hok]
      obtain ⟨s₁, l₁, x, hs₁, hi₁, hpend, hx, hgx, hdir, hm₁⟩ := finishServe_spec hinc h hc
        (by simp) hQ₀ hready hgr.1 ((h.line p).2 hgr.2) (by rw [hQt])
      have hb := T.bounded p (by omega)
      have hQ₁ : s₁.pend (c :: p) = some Q := by rw [hpend]; exact hQ₀
      obtain ⟨s', l, hs', hi, hm⟩ := ih (p := c :: p) (by simp only [List.length_cons]; omega) hb hQ₁
        hi₁ (hWQ.purpose.mono hdir fun d Q' hd => by rw [hpend]; exact hd)
        (by rw [hx, hQt]; exact hgx)
      have hrel : released type (s.st (c :: p)) = s.st (c :: p) := by
        cases type <;> simp [isGet] at hget <;> rfl
      have hm₁' : Moved (s.setPend p none) l₁ s₁ := by
        have hself := setState_self (s.setPend p none) (c :: p)
        simp only [setPend_st, hrel] at hm₁ hself
        rwa [hself] at hm₁
      refine ⟨s', l ++ (l₁ ++ []), ?_, hi, (hclear.trans hm₁').trans hm⟩
      simp only [resume, hP, hpp, hQ, hg.1, if_true, hs₁, hs']

end Hierarchy

end ZSim
