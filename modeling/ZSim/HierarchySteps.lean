import ZSim.HierarchySegments

/-! The steps of one cache: serving a child and evicting the line. Both run without a
failed assertion, keep the invariant and drop no dirty copy. -/

namespace ZSim

namespace Hierarchy

variable {T : CacheTree} {s : Hierarchy}

theorem Moved.record {e : Event} (hw : e.isWrite = false) : Moved s [e] (s.record e) :=
  .of_st rfl (fun _ h => h) (by simp [hw])

theorem Moved.send (s : Hierarchy) (p : Path) (P : Pending) :
    Moved s [.sent p P.req P.issuer] (s.send p P) :=
  .of_st rfl (fun _ h => h) (by simp [Event.isWrite])

theorem inv_init (T : CacheTree) : Inv T init where
  line r := ⟨.of_empty rfl (fun _ _ => rfl) fun _ _ => rfl, fun h => absurd rfl h⟩
  wait p P h := by simp [init] at h

@[simp] theorem allocate_st (p : Path) (stale : Bool) (s : Hierarchy) :
    (allocate p stale s).st = s.st := by
  by_cases h : s.resident p = true <;> simp [allocate, h]

@[simp] theorem allocate_pend (p : Path) (stale : Bool) (s : Hierarchy) :
    (allocate p stale s).pend = s.pend := by
  by_cases h : s.resident p = true <;> simp [allocate, h]

@[simp] theorem allocate_log (p : Path) (stale : Bool) (s : Hierarchy) :
    (allocate p stale s).log = s.log := by
  by_cases h : s.resident p = true <;> simp [allocate, h]

theorem allocate_resident (p : Path) (stale : Bool) (s : Hierarchy) :
    (allocate p stale s).resident p = true := by
  by_cases h : s.resident p = true <;> simp [allocate, h]

/-- A slot cleared by an eviction takes the line, whatever its exclusive flag says. -/
theorem Inv.allocate (h : Inv T s) {p : Path} (hidle : s.pend p = none) (stale : Bool) :
    Inv T (allocate p stale s) := by
  by_cases hres : s.resident p = true
  · simpa [Hierarchy.allocate, hres] using h
  simp only [Hierarchy.allocate, hres, if_false, Bool.false_eq_true]
  have hI : s.st p = .I := by
    by_contra hne
    exact hres ((h.line p).2 hne)
  refine ⟨fun r => ?_, fun q Q hQ => ?_⟩
  · by_cases hr : r = p
    · subst r
      refine ⟨?_, fun hne => absurd hI hne⟩
      simp only [setDir_dir, Function.update_self]
      refine .of_empty rfl (fun _ _ => rfl) fun c hc => ?_
      by_contra hne
      exact (h.line p).1.valid c hc hne hI
    · refine ⟨by simpa [hr] using (h.line r).1, ?_⟩
      simpa [hr] using (h.line r).2
  · have hq : q ≠ p := by
      rintro rfl
      have hQ' : s.pend q = some Q := hQ
      simp [hidle] at hQ'
    exact (h.wait q Q hQ).mono (.refl _) (by simp [hq]) (by simp [hq]) fun _ _ => id

/-- The parent has its permission in `t`: it answers child `c`, and the answer runs down. -/
theorem serve_finish (hinc : ∀ q, T.nonInclusiveHack q = false) {t : Hierarchy} (h : Inv T t)
    {p : Path} {c : Nat} {type : AccessType} {Q : Pending} (hc : c < T.fanout p)
    (hidle : t.pend p = none) (hQ : t.pend (c :: p) = some Q)
    (hready : Ready type (t.st (c :: p))) (hg : Granted type (t.st p))
    (hres : t.resident p = true) (hput : isPut type = isPut Q.req.type)
    (hget : isPut type = false → type = Q.req.type) :
    ∃ s' l, (match finishServe T p c type Q t with
        | none => none
        | some s' => resume T (T.height + 1) (c :: p) s') = some s' ∧ Inv T s' ∧
      Moved (t.setState (c :: p) (released type (t.st (c :: p)))) l s' := by
  have hWQ := h.wait _ _ hQ
  obtain ⟨s₁, l₁, x, hs₁, hi₁, hpend, hx, hgx, hdir, hm₁⟩ :=
    finishServe_spec hinc h hc hidle hQ hready hg hres hput
  have hgr : Granting Q.req.type x := by
    cases hp : isPut type with
    | false => exact hget hp ▸ hgx
    | true =>
      refine ⟨?_, fun _ => hgx.2 hp⟩
      rw [hput] at hp
      cases ht : Q.req.type <;> simp [ht, isPut] at hp <;> rfl
  obtain ⟨s', l, hs', hi, hm⟩ := resume_spec hinc (T.height + 1) (p := c :: p)
    (by simp only [List.length_cons]; omega) (T.bounded p (by omega)) (by rw [hpend]; exact hQ)
    hi₁ (hWQ.purpose.mono hdir fun d Q' hd => by rw [hpend]; exact hd) (by rw [hx]; exact hgr)
  exact ⟨s', l ++ l₁, by simp only [hs₁, hs'], hi, hm₁.trans hm⟩

/-- A dirty copy the child puts is M in the parent by the time the child loses it. -/
theorem moved_hit {p : Path} {c : Nat} {type : AccessType} {Q : Pending} {t : Hierarchy}
    {y : MESIState} (hstate : Q.req.state = some (c :: p)) (hready : Ready type (s.st (c :: p)))
    (hst : t.st = Function.update s.st p y) (hy : y = s.st p ∨ y = .M)
    (hx : type = .PUTX → y = .M)
    (hlog : t.log = .received (some p) { Q.req with type := type } Q.issuer false :: s.log) :
    Moved s [.received (some p) { Q.req with type := type } Q.issuer false]
      (t.setState (c :: p) (released type (t.st (c :: p)))) := by
  have hcp : c :: p ≠ p := child_ne p c
  have hother (q : Path) (hq : q ≠ c :: p) (h1 : s.st q = .M) :
      (t.setState (c :: p) (released type (t.st (c :: p)))).st q = .M := by
    by_cases hqp : q = p
    · subst q
      rcases hy with hy | hy <;> simp [hq, hst, hy, h1]
    · simp [hq, hst, hqp, h1]
  have hquiet : ∀ e ∈ [Event.received (some p) { Q.req with type := type } Q.issuer false],
      e.isWrite = false := by simp [Event.isWrite]
  by_cases hp : isPut type = true
  · by_cases hX : type = .PUTX
    · refine ⟨hlog, fun q h1 h2 => ?_, fun q h1 h2 => ?_, fun hu => .inr
        (unsaved_of_append hquiet (by rwa [setState_log, hlog] at hu))⟩
      · have hq : q = c :: p := by
          by_contra hq
          exact h2 (hother q hq h1)
        exact ⟨_, List.mem_singleton_self _, by simp [hq], by simp [hstate, hq], hX, rfl⟩
      · have hq : q = c :: p := by
          by_contra hq
          exact h2 (hother q hq h1)
        refine .inl ⟨p, hq ▸ strictlyBelow_child p c, ?_⟩
        simp [hcp.symm, hst, hx hX]
    · refine .of_st hlog (fun q h1 => hother q ?_ h1) hquiet
      rintro rfl
      exact hready.ne_M hX h1
  · refine .of_st hlog (fun q h1 => ?_) hquiet
    by_cases hq : q = c :: p
    · subst q
      simp [released, hp, hst, hcp, h1]
    · exact hother q hq h1

theorem serveLine_spec (hinc : ∀ q, T.nonInclusiveHack q = false) {t : Hierarchy} (h : Inv T t)
    {p : Path} {c : Nat} {type : AccessType} {Q : Pending} (hc : c < T.fanout p)
    (hidle : t.pend p = none) (hQ : t.pend (c :: p) = some Q)
    (hready : Ready type (t.st (c :: p))) (hres : t.resident p = true)
    (hput : isPut type = isPut Q.req.type) (hget : isPut type = false → type = Q.req.type)
    (hst : t.st = s.st)
    (hlog : t.log = .received (some p) { Q.req with type := type } Q.issuer false :: s.log) :
    ∃ s' l, serveLine T p c type Q t = some s' ∧ Inv T s' ∧ Moved s l s' := by
  have hWQ := h.wait _ _ hQ
  have hpf := hWQ.not_isPrefetch
  have hA := (h.line p).1
  have hhit (y : MESIState) (hy : y = t.st p ∨ (y = .M ∧ (t.st p).isExclusive = true))
      (hgr : Granted type y) (hx : type = .PUTX → y = .M)
      (hlk : MESIBottomCC.lookupAccess (t.st p) type = some (.hit y)) :
      ∃ s' l, serveLine T p c type Q t = some s' ∧ Inv T s' ∧ Moved s l s' := by
    have ht : Inv T (t.setState p y) := by
      rcases hy with rfl | ⟨rfl, hex⟩
      · rw [setState_self]
        exact h
      · exact h.setState_M hidle hex
    obtain ⟨s', l, hs', hi, hm⟩ := serve_finish hinc ht hc (by simpa using hidle)
      (by simpa using hQ) (by simpa [child_ne] using hready) (by simpa using hgr)
      (by simpa using hres) hput hget
    have hm₀ := moved_hit (t := t.setState p y) hWQ.state (hst ▸ hready) (by simp [hst])
      (hst ▸ hy.imp_right And.left) hx (by simpa using hlog)
    refine ⟨s', _, ?_, hi, hm₀.trans hm⟩
    simp only [serveLine, hpf, Bool.false_eq_true, false_and, if_false, hlk]
    exact hs'
  have hmiss (hg : isGet type = true) (hiss : issuable type (t.st p) = true)
      (hlk : MESIBottomCC.lookupAccess (t.st p) type = some (.miss type)) :
      ∃ s' l, serveLine T p c type Q t = some s' ∧ Inv T s' ∧ Moved s l s' := by
    have hp : isPut type = false := by cases type <;> simp [isGet] at hg <;> rfl
    let P : Pending := ⟨request T t p type (some p) Q.req.cycle Q.req.srcId
      (Q.req.flags &&& ~~~MemReq.PREFETCH), Q.issuer, .serve c type⟩
    have hrun : serveLine T p c type Q t = some (t.send p P) := by
      simp only [serveLine, hpf, Bool.false_eq_true, false_and, if_false, hlk, P]
    have hP : WaitOk T t p P := ⟨rfl, rfl, hiss, .refl _, hres, hc, hg, rfl, Q, hQ, (hget hp).symm⟩
    refine ⟨t.send p P, [.sent p P.req P.issuer,
      .received (some p) { Q.req with type := type } Q.issuer false], hrun, h.send hidle hP,
      .of_st (by simp [send, hlog]) (fun q hq => by simpa [send, hst] using hq)
        (by simp [Event.isWrite])⟩
  cases type with
  | PUTS =>
    have hv : t.st p ≠ .I := hA.valid c hc (hready.ne_I rfl)
    exact hhit (t.st p) (.inl rfl) hv (by simp) (by simp [MESIBottomCC.lookupAccess, hv])
  | PUTX =>
    have hM : t.st (c :: p) = .M := hready
    have hx : (t.st p).isExclusive = true := hA.perm c hc (by simp [hM])
    exact hhit .M (.inr ⟨rfl, hx⟩) (by simp [Granted]) (fun _ => rfl)
      (by simp [MESIBottomCC.lookupAccess, hx])
  | GETS =>
    by_cases hv : t.st p = .I
    · exact hmiss rfl (by simp [issuable, hv]) (by simp [MESIBottomCC.lookupAccess, hv])
    · exact hhit (t.st p) (.inl rfl) hv (by simp) (by simp [MESIBottomCC.lookupAccess, hv])
  | GETX =>
    by_cases hx : (t.st p).isExclusive = true
    · exact hhit .M (.inr ⟨rfl, hx⟩) rfl (by simp) (by simp [MESIBottomCC.lookupAccess, hx])
    · exact hmiss rfl (by simpa [issuable] using hx) (by simp [MESIBottomCC.lookupAccess, hx])

theorem serve_spec (hinc : ∀ q, T.nonInclusiveHack q = false) (h : Inv T s) {p : Path} {c : Nat}
    (stale : Bool) (hen : Enabled T s (.serve p c stale)) :
    ∃ s' l, serve T p c stale s = some s' ∧ Inv T s' ∧ Moved s l s' := by
  obtain ⟨hc, hne, hidle⟩ := hen
  obtain ⟨Q, hQ⟩ := Option.ne_none_iff_exists'.mp hne
  have hWQ := h.wait _ _ hQ
  have hptr : s.readPtr Q.req.state = s.st (c :: p) := by rw [hWQ.state]; rfl
  simp only [serve, hQ, hptr]
  rcases checkForMESIRace_spec hWQ.issued hWQ.lowered with
    ⟨hput, hI, hrace⟩ | ⟨type, hrace, hready, hput, htype⟩
  · -- the line was invalidated after the PUT was issued
    have hm := Moved.record (s := s) (e := .received (some p) Q.req Q.issuer true) rfl
    obtain ⟨s', l, hs', hi, hm'⟩ := resume_spec hinc (T.height + 1)
      (s := s.record (.received (some p) Q.req Q.issuer true)) (p := c :: p)
      (by simp only [List.length_cons]; omega) (T.bounded p (by omega)) hQ
      ((h.record _).clear_child hidle c) (hWQ.purpose.mono id fun _ _ => id)
      ⟨by cases ht : Q.req.type <;> simp [ht, isPut] at hput <;> rfl, fun _ => hI⟩
    simp only [hrace]
    exact ⟨s', _, hs', hi, hm.trans hm'⟩
  simp only [hrace]
  have hbypass : isBypass p type
      (s.record (.received (some p) { Q.req with type := type } Q.issuer false)) = false := by
    by_cases hp : isPut type = true
    · have hv : s.st p ≠ .I := (h.line p).1.valid c hc (hready.ne_I hp)
      simp [isBypass, hv, (h.line p).2 hv]
    · simp [isBypass, hp]
  simp only [hbypass, Bool.false_eq_true, if_false]
  exact serveLine_spec hinc ((h.record _).allocate hidle stale) hc (by simpa using hidle)
    (by simpa using hQ) (by simpa using hready) (allocate_resident p stale _) hput
    (fun hh => htype (hput ▸ hh)) (by simp) (by simp)

/-- Dirty data found below an evicted line makes the line dirty, and it is put as such. -/
theorem evict_spec (hinc : ∀ q, T.nonInclusiveHack q = false) (h : Inv T s) {p : Path}
    (cycle srcId : Nat) (hen : Enabled T s (.evict p cycle srcId)) :
    ∃ s' l, evict T p cycle srcId s = some s' ∧ Inv T s' ∧ Moved s l s' := by
  obtain ⟨hres, hidle⟩ := hen
  have hA := (h.line p).1
  obtain ⟨e, s₁, b, hbelow, hA₁, hz, hb, hJ₁, hE⟩ : ∃ e s₁ b,
      (if T.fanout p = 0 then some (s.dir p, s, false) else
        MESITopCC.processEviction (T.nonInclusiveHack p) (T.fanout p) (toChildren T p) (s.dir p)
          false s) = some (e, s₁, b) ∧
      (∀ x, e.Agrees (T.fanout p) x (fun c => s₁.st (c :: p))) ∧ e.numSharers = 0 ∧
      (b = true → (s.st p).isExclusive = true) ∧
      (∀ r, StrictlyBelow p r → AgreesAt T s₁ r) ∧ Eff (StrictlyBelow p) s b s₁ := by
    by_cases hf : T.fanout p = 0
    · have hz : (s.dir p).numSharers = 0 := by
        simpa [Entry.sharerList, hf] using hA.numSharers
      exact ⟨s.dir p, s, false, by simp [hf], fun x => hA.of_isEmpty hz x, hz, by simp,
        fun r _ => h.line r, .refl _ s⟩
    · obtain ⟨e, s₁, b, hs, hA', hz, _, _, hb, hJ, hE⟩ := MESITopCC.sendInvalidates_inv_agrees
        (toChildren_spec hinc p) hA (fun r _ => h.line r) false
      exact ⟨e, s₁, b, by simpa [hf, hinc, MESITopCC.processEviction] using hs, hA', hz, hb, hJ, hE⟩
  have hst₁ : s₁.st p = s.st p := hE.st p fun hh => hh.ne rfl
  obtain ⟨x, hx, hxb, hxs⟩ : ∃ x, MESIBottomCC.evictState (s.st p) b = some x ∧
      (b = true → x = .M) ∧ (x = s.st p ∨ (x = .M ∧ (s.st p).isExclusive = true)) := by
    cases b with
    | false => exact ⟨s.st p, rfl, by simp, .inl rfl⟩
    | true => exact ⟨.M, by simp [MESIBottomCC.evictState, hb rfl], fun _ => rfl, .inr ⟨rfl, hb rfl⟩⟩
  let s₂ := (s₁.setDir p e).setState p x
  have hline₁ : ∀ r, AgreesAt T (s₁.setDir p e) r := by
    intro r
    by_cases hrp : r = p
    · subst r
      exact ⟨by simpa using hA₁ (s₁.st p), fun _ => by simpa [hE.resident] using hres⟩
    by_cases hr : StrictlyBelow p r
    · exact (hJ₁ r hr).congr rfl (by simp [hrp]) rfl fun _ => rfl
    · refine (h.line r).congr (hE.st r hr) (by simp [hrp, hE.dir r hr]) hE.resident fun d => ?_
      refine hE.st _ ?_
      rintro ⟨d', hd'⟩
      rcases List.suffix_cons_iff.mp hd' with hh | hh
      · exact hrp (List.cons.inj hh).2.symm
      · exact hr ⟨d', hh⟩
  have hline₂ : ∀ r, AgreesAt T s₂ r := by
    rcases hxs with rfl | ⟨rfl, hex⟩
    · have hself := setState_self (s₁.setDir p e) p
      simp only [setDir_st, hst₁] at hself
      simpa only [s₂, hself] using hline₁
    · exact agreesAt_setState_M hline₁ (by simpa [hst₁] using hex)
  have hwait₂ : ∀ q Q, s₂.pend q = some Q → WaitOk T s₂ q Q := by
    intro q Q hQ
    have hpend : s₂.pend = s.pend := hE.pend
    have hQ' : s.pend q = some Q := by rwa [hpend] at hQ
    have hqp : q ≠ p := by
      rintro rfl
      simp [hidle] at hQ'
    refine (h.wait q Q hQ').mono ?_ (by simp [s₂, hE.resident]) (fun hz' => ?_) fun d Q' hd => ?_
    · simpa [s₂, hqp] using hE.lowered q
    · simpa [s₂, hqp] using hE.empty q hz'
    · rwa [hpend]
  obtain ⟨l, hm⟩ : ∃ l, Moved s l s₂ := Moved.of_eff [] hE rfl (fun _ hr => hr)
    (fun hb' => by simp [s₂, hxb hb']) (fun r _ hr => by
      by_cases hrp : r = p
      · subst r
        rcases hxs with hh | ⟨hh, _⟩ <;> simp [s₂, hh, ← hst₁, hr]
      · simpa [s₂, hrp] using hr) rfl (by simp)
  simp only [evict, hbelow, hst₁, hx]
  cases hput : MESIBottomCC.evictRequest x with
  | none =>
    have hI : s₂.st p = .I := by
      cases x <;> simp [MESIBottomCC.evictRequest] at hput
      simp [s₂]
    refine ⟨s₂.setResident p false, l, rfl, ⟨fun r => ⟨(hline₂ r).1, fun hne => ?_⟩,
      fun q Q hQ => ?_⟩, hm.log, hm.handed, hm.kept, hm.written⟩
    · have hrp : r ≠ p := by
        rintro rfl
        exact hne hI
      simpa [hrp] using (hline₂ r).2 hne
    · have hqp : q ≠ p := by
        rintro rfl
        have hQ' : s₁.pend q = some Q := hQ
        simp [hE.pend, hidle] at hQ'
      exact (hwait₂ q Q hQ).mono (.refl _) (by simp [hqp]) id fun _ _ => id
  | some put =>
    have hiss := issuable_evictRequest hput
    refine ⟨_, _, rfl, Inv.send ⟨hline₂, hwait₂⟩ (by simpa [s₂, hE.pend] using hidle)
      ⟨rfl, rfl, by simpa [request, MemReq.aggregate, s₂] using hiss, .refl _,
        by simpa [s₂, hE.resident] using hres, ?_⟩, hm.trans (.send s₂ p _)⟩
    refine ⟨?_, by simpa [s₂] using hz⟩
    cases x <;> simp [MESIBottomCC.evictRequest] at hput <;> subst hput <;> rfl

end Hierarchy

end ZSim
