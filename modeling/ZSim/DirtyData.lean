import ZSim.HierarchySteps

/-! No modified data is dropped: in every run of an inclusive hierarchy a dirty copy is
handed to a cache above or to the level above the root, and as long as the last write
has not left the hierarchy some cache holds the line in M. -/

namespace ZSim

namespace Hierarchy

variable {T : CacheTree} {s s' : Hierarchy}

/-- The core's own access: a hit writes in place, a miss goes up. -/
theorem coreLine_spec (h : Inv T s) {p : Path} {type : AccessType} (hget : isGet type = true)
    (hidle : s.pend p = none) (hres : s.resident p = true) (req : MemReq (Option Path))
    (issuer : BitVec 32) :
    ∃ s' l, coreLine T p type req issuer s = some s' ∧ Inv T s' ∧ Moved s l s' := by
  have hmiss (hiss : issuable type (s.st p) = true)
      (hlk : MESIBottomCC.lookupAccess (s.st p) type = some (.miss type)) :
      ∃ s' l, coreLine T p type req issuer s = some s' ∧ Inv T s' ∧ Moved s l s' := by
    let P : Pending := ⟨request T s p type (some p) req.cycle req.srcId req.flags, issuer, .core⟩
    have hP : WaitOk T s p P := ⟨rfl, rfl, hiss, .refl _, hres, hget⟩
    exact ⟨s.send p P, _, by simp only [coreLine, hlk, P], h.send hidle hP, .send s p P⟩
  have hhit (y : MESIState) (hi : Inv T (s.setState p y)) (hy : s.st p = .M → y = .M)
      (hX : type = .GETX → y = .M)
      (hlk : MESIBottomCC.lookupAccess (s.st p) type = some (.hit y)) :
      ∃ s' l, coreLine T p type req issuer s = some s' ∧ Inv T s' ∧ Moved s l s' := by
    have hm : Moved s [] (s.setState p y) := by
      refine .of_st rfl (fun q hq => ?_) (by simp)
      by_cases hqp : q = p
      · subst q
        simp [hy hq]
      · simpa [hqp] using hq
    obtain ⟨hi', l, hm'⟩ := finishCore_spec hi p type fun hX' => by
      simp [hX hX']
    exact ⟨_, _, by simp only [coreLine, hlk], hi', hm.trans hm'⟩
  cases type with
  | GETS =>
    by_cases hI : s.st p = .I
    · exact hmiss (by simp [issuable, hI]) (by simp [MESIBottomCC.lookupAccess, hI])
    · exact hhit (s.st p) (by rwa [setState_self]) id (by simp)
        (by simp [MESIBottomCC.lookupAccess, hI])
  | GETX =>
    by_cases hx : (s.st p).isExclusive = true
    · exact hhit .M (h.setState_M hidle hx) (fun _ => rfl) (fun _ => rfl)
        (by simp [MESIBottomCC.lookupAccess, hx])
    · exact hmiss (by simpa [issuable] using hx) (by simp [MESIBottomCC.lookupAccess, hx])
  | PUTS => simp [isGet] at hget
  | PUTX => simp [isGet] at hget

theorem access_spec (h : Inv T s) {p : Path} {type : AccessType} {flags : BitVec 32}
    {cycle srcId : Nat} (hen : Enabled T s (.access p type flags cycle srcId)) :
    ∃ s' l, access T p type flags cycle srcId s = some s' ∧ Inv T s' ∧ Moved s l s' := by
  obtain ⟨hget, _, hidle⟩ := hen
  let req : MemReq (Option Path) := MemReq.aggregate T.lineAddr type 0 none cycle true .I srcId flags
  let s₁ := (s.record (.received (some p) req flags false)).setResident p true
  have h₁ : Inv T s₁ := by
    refine ⟨fun r => ⟨(h.line r).1, fun hne => ?_⟩, fun q Q hQ => ?_⟩
    · by_cases hr : r = p
      · simp [s₁, hr]
      · simpa [s₁, hr] using (h.line r).2 hne
    · have hq : q ≠ p := by
        rintro rfl
        have hQ' : s.pend q = some Q := hQ
        simp [hidle] at hQ'
      exact (h.wait q Q hQ).mono (.refl _) (by simp [s₁, hq]) id fun _ _ => id
  have hm₁ : Moved s [.received (some p) req flags false] s₁ :=
    .of_st rfl (fun _ hq => hq) (by simp [Event.isWrite])
  obtain ⟨s', l, hs', hi, hm⟩ := coreLine_spec h₁ hget hidle (by simp [s₁]) req flags
  exact ⟨s', _, hs', hi, hm₁.trans hm⟩

/-- The level above answers the root; a PUTX takes the dirty copy out of the hierarchy. -/
theorem answer_spec (hinc : ∀ q, T.nonInclusiveHack q = false) (h : Inv T s) (alone : Bool)
    (hen : Enabled T s (.answer alone)) :
    ∃ s' l, answer T alone s = some s' ∧ Inv T s' ∧ Moved s l s' := by
  obtain ⟨P, hP⟩ := Option.ne_none_iff_exists'.mp hen
  have hWP := h.wait _ _ hP
  have hclear {t : Hierarchy} (hline : ∀ r, AgreesAt T t r) (hst : ∀ r, r ≠ [] → t.st r = s.st r)
      (hdir : t.dir = s.dir) (hres : t.resident = s.resident) (hpend : t.pend = s.pend) :
      Inv T (t.setPend [] none) := by
    refine ⟨hline, fun q Q hQ => ?_⟩
    have hq : q ≠ [] := by
      rintro rfl
      simp at hQ
    have hQ' : s.pend q = some Q := by simpa [hq, hpend] using hQ
    refine (h.wait q Q hQ').mono (by simpa [hst q hq] using Lowered.refl _) (by simp [hres])
      (by simp [hdir]) fun d Q' hd => by simpa [hpend] using hd
  have hptr : s.readPtr P.req.state = s.st [] := by rw [hWP.state]; rfl
  simp only [answer, hP, hptr]
  rcases checkForMESIRace_spec hWP.issued hWP.lowered with
    ⟨hput, hI, hrace⟩ | ⟨type, hrace, hready, hput, htype⟩
  · have hm := Moved.record (s := s) (e := .received none P.req P.issuer true) rfl
    obtain ⟨s', l, hs', hi, hm'⟩ := resume_spec hinc (T.height + 1)
      (s := s.record (.received none P.req P.issuer true)) (p := []) (by simp) (by simp) hP
      (hclear h.line (fun _ _ => rfl) rfl rfl rfl) (hWP.purpose.mono id fun _ _ => id)
      ⟨by cases ht : P.req.type <;> simp [ht, isPut] at hput <;> rfl, fun _ => hI⟩
    simp only [hrace]
    exact ⟨s', _, hs', hi, hm.trans hm'⟩
  simp only [hrace]
  let x := upperGrant P.req type alone
  let e₁ : Event := .received none { P.req with type := type } P.issuer false
  let t := ((s.record e₁).setState [] x).record (.answered [] type P.issuer x)
  have hg : Granting type x := by
    cases type
    · by_cases hn : (P.req.isSet MemReq.NOEXCL || !alone) = true
      · simp [Granting, x, upperGrant, hn, MESIBottomCC.grantOk, isPut]
      · simp [Granting, x, upperGrant, hn, MESIBottomCC.grantOk, isPut]
    · simp [Granting, x, upperGrant, MESIBottomCC.grantOk, isPut]
    · simp [Granting, x, upperGrant, MESIBottomCC.grantOk]
    · simp [Granting, x, upperGrant, MESIBottomCC.grantOk]
  have hg' : Granting P.req.type x := by
    cases hp : isPut type with
    | false => exact htype (hput ▸ hp) ▸ hg
    | true =>
      refine ⟨?_, fun _ => hg.2 hp⟩
      rw [hput] at hp
      cases ht : P.req.type <;> simp [ht, isPut] at hp <;> rfl
  have hline : ∀ r, AgreesAt T t r := by
    intro r
    cases r with
    | nil =>
      refine ⟨?_, fun _ => by simpa [t] using hWP.resident⟩
      have hA := agrees_granted (h.line []).1 (fun _ => hready) hg
        fun hp => hWP.numSharers (hput ▸ hp)
      simpa [t] using hA
    | cons c r => exact (h.line (c :: r)).congr (by simp [t]) rfl rfl fun d => by simp [t]
  have hother (q : Path) (hq : q ≠ []) (h1 : s.st q = .M) : t.st q = .M := by
    simpa [t, hq] using h1
  have hquiet : ∀ e ∈ [.answered [] type P.issuer x, e₁], e.isWrite = false := by
    simp [e₁, Event.isWrite]
  have hm : Moved s [.answered [] type P.issuer x, e₁] t := by
    by_cases hX : type = .PUTX
    · have hup : e₁.handsUp = true := by simp [e₁, Event.handsUp, hX]
      refine ⟨rfl, fun q h1 h2 => ?_, fun q h1 h2 => .inr ⟨e₁, by simp, hup⟩,
        fun hu => .inr (unsaved_of_append hquiet hu)⟩
      · have hq : q = [] := by
          by_contra hq
          exact h2 (hother q hq h1)
        exact ⟨e₁, by simp, by simp [hq], by simp [hWP.state, hq], hX, rfl⟩
    · refine .of_st rfl (fun q h1 => hother q ?_ h1) hquiet
      rintro rfl
      exact hready.ne_M hX h1
  obtain ⟨s', l, hs', hi, hm'⟩ := resume_spec hinc (T.height + 1) (s := t) (p := []) (by simp)
    (by simp) hP (hclear hline (fun r hr => by simp [t, hr]) rfl rfl rfl)
    (hWP.purpose.mono id fun _ _ => id) (by simpa [t] using hg')
  have hwrite (t : Hierarchy) (y : MESIState) : t.writePtr P.req.state y = t.setState [] y := by
    rw [hWP.state]
    rfl
  refine ⟨s', _, ?_, hi, hm.trans hm'⟩
  simp only [hwrite]
  exact hs'

/-- An invalidation from above reports dirty data that leaves the hierarchy. -/
theorem inval_spec (hinc : ∀ q, T.nonInclusiveHack q = false) (h : Inv T s) {type : InvType}
    (hen : Enabled T s (.inval type)) :
    ∃ s' l, step T s (.inval type) = some s' ∧ Inv T s' ∧ Moved s l s' := by
  obtain ⟨s', b, hs, hi⟩ := invalidate_spec (T := T) (T.height + 1) (p := []) (by simp) (by simp)
    hinc (fun r _ => h.line r) hen
  obtain ⟨l₁, hl₁⟩ := hi.recorded
  obtain ⟨l, hl, he, hM⟩ := hi.eff.log
  obtain rfl : .invalidated [] type b :: l₁ = l := by
    rw [hl, ← List.cons_append] at hl₁
    exact (List.append_cancel_right hl₁).symm
  refine ⟨s', _, by simp [step, hs], ⟨fun r => hi.agrees r (List.nil_suffix), fun q Q hQ => ?_⟩, hl,
    fun q h1 h2 => ?_, fun q h1 h2 => .inr ?_, fun hu => .inr (unsaved_of_append (fun e hel => ?_) (hl ▸ hu))⟩
  · rw [hi.eff.pend] at hQ
    exact (h.wait q Q hQ).mono (hi.eff.lowered q) (by rw [hi.eff.resident]) (hi.eff.empty q)
      fun _ _ hd => by rwa [hi.eff.pend]
  · obtain ⟨t, ht⟩ := hM q h1 h2
    exact ⟨_, ht, rfl, rfl⟩
  · exact ⟨_, List.mem_cons_self, by simp [Event.handsUp, hi.eff.dirty q h1 h2]⟩
  · obtain ⟨r, t, wb, _, rfl⟩ := he e hel
    rfl

theorem step_spec (hinc : ∀ q, T.nonInclusiveHack q = false) (h : Inv T s) {a : Action}
    (hen : Enabled T s a) : ∃ s' l, step T s a = some s' ∧ Inv T s' ∧ Moved s l s' := by
  cases a with
  | access p type flags cycle srcId => exact access_spec h hen
  | serve p c stale => exact serve_spec hinc h stale hen
  | evict p cycle srcId => exact evict_spec hinc h cycle srcId hen
  | answer alone => exact answer_spec hinc h alone hen
  | inval type => exact inval_spec hinc h hen

theorem Reachable.inv (hinc : ∀ q, T.nonInclusiveHack q = false) (h : Reachable T s) :
    Inv T s ∧ (unsaved s.log = true → ∃ q, s.st q = .M) := by
  induction h with
  | init => exact ⟨inv_init T, fun hu => by simp [Hierarchy.init, unsaved] at hu⟩
  | @step s s' a _ hen hs ih =>
    obtain ⟨t, l, ht, hi, hm⟩ := step_spec hinc ih.1 hen
    obtain rfl : s' = t := Option.some.inj (hs.symm.trans ht)
    refine ⟨hi, fun hu => ?_⟩
    rcases hm.written hu with hM | ⟨hu, hl⟩
    · exact hM
    · obtain ⟨q, hq⟩ := ih.2 hu
      by_cases hq' : s'.st q = .M
      · exact ⟨q, hq'⟩
      · rcases hm.kept q hq hq' with ⟨r, _, hr⟩ | ⟨e, he, hh⟩
        · exact ⟨r, hr⟩
        · simp [hl e he] at hh

/-- In an inclusive hierarchy of any depth, after any run: no step fails an assertion;
a cache that loses its M copy in a step reported it to its parent by `reqWriteback` or
had its PUTX received there, and the dirty data is then in a cache above, in M, or was
handed to the level above the root; so as long as the last write has not been handed
up, some cache is in M. -/
theorem reachable_no_dirty_data_dropped (hinc : ∀ q, T.nonInclusiveHack q = false)
    (h : Reachable T s) :
    (unsaved s.log = true → ∃ q, s.st q = .M) ∧
    ∀ a, Enabled T s a → ∃ s' l, step T s a = some s' ∧ s'.log = l ++ s.log ∧
      ∀ q, s.st q = .M → s'.st q ≠ .M → (∃ e ∈ l, e.HandsOver q) ∧
        ((∃ r, StrictlyBelow r q ∧ s'.st r = .M) ∨ ∃ e ∈ l, e.handsUp = true) := by
  obtain ⟨hi, hu⟩ := h.inv hinc
  refine ⟨hu, fun a hen => ?_⟩
  obtain ⟨s', l, hs, _, hm⟩ := step_spec hinc hi hen
  exact ⟨s', l, hs, hm.log, fun q h1 h2 => ⟨hm.handed q h1 h2, hm.kept q h1 h2⟩⟩

def twoLevels : CacheTree where
  fanout p := if p = [] then 1 else 0
  height := 1
  nonInclusiveHack _ := false
  lineAddr := 5
  bounded p hp := by
    by_cases h : p = []
    · simp [h]
    · simp [h] at hp

/-- A store that misses in both levels: afterwards the write is in the hierarchy. -/
theorem reachable_no_dirty_data_dropped_store : ∃ s, Reachable twoLevels s ∧
    unsaved s.log = true ∧ ∃ q, s.st q = .M := by
  have h₁ : Reachable twoLevels _ := Reachable.init.step (a := .access [0] .GETX 0 0 0)
    ⟨rfl, rfl, rfl⟩ rfl
  have h₂ : Reachable twoLevels _ := h₁.step (a := .serve [] 0 false)
    ⟨by decide, by simp [send], rfl⟩ rfl
  have h₃ : Reachable twoLevels _ := h₂.step (a := .answer true) (by simp [Enabled, send]) rfl
  exact ⟨_, h₃, rfl, (reachable_no_dirty_data_dropped (fun _ => rfl) h₃).1 rfl⟩

end Hierarchy

end ZSim
