import ZSim.DirtyData
import ZSim.TopControllerFrame

/-! Request flags. Every `MemReq` is built by aggregate initialisation with nine
initialisers, the ninth meant for `flags`; it lands in `pmcs`. So the flags of an issuer
reach no ancestor, and a request is intact only when its flags word is zero. -/

namespace ZSim

/-- The bits the code may change on the way: those a prefetcher or a cache adds. -/
def addedFlags : BitVec 32 := MemReq.PREFETCH ||| MemReq.NOEXCL

/-- The request carries its issuer's flags in `flags`, and nowhere else. -/
def MemReq.Intact {Ptr : Type} (req : MemReq Ptr) (issuer : BitVec 32) : Prop :=
  req.flags &&& ~~~addedFlags = issuer &&& ~~~addedFlags ∧ req.pmcs = 0 ∧ req.signature = 0#32

/-- Whoever gets a request sees its issuer's flags, and GETS with NOEXCL never gets E. -/
def Event.Intact : Event → Prop
  | .sent _ req issuer => req.Intact issuer
  | .received _ req issuer _ => req.Intact issuer
  | .answered _ type issuer state => type = .GETS → issuer &&& MemReq.NOEXCL ≠ 0#32 → state ≠ .E
  | _ => True

/-- Requests built as the source builds them are intact only when they carry no flags. -/
theorem MemReq.aggregate_intact_iff {Ptr : Type} {lineAddr : Address} {type : AccessType}
    {childId : Nat} {ptr : Ptr} {cycle : Nat} {lock : Bool} {initialState : MESIState} {srcId : Nat}
    {flags : BitVec 32} :
    (MemReq.aggregate lineAddr type childId ptr cycle lock initialState srcId flags).Intact flags ↔
      flags = 0#32 := by
  constructor
  · rintro ⟨_, hp, _⟩
    have hz : flags.toNat = 0 := by simpa [MemReq.aggregate] using hp
    exact BitVec.eq_of_toNat_eq (by simpa using hz)
  · rintro rfl
    exact ⟨rfl, by simp [MemReq.aggregate], rfl⟩

/-- A request in flight that carries no flags. -/
structure Pending.Blank (P : Pending) : Prop where
  issuer : P.issuer = 0#32
  flags : P.req.flags = 0#32
  pmcs : P.req.pmcs = 0
  signature : P.req.signature = 0#32

theorem Pending.Blank.intact {P : Pending} (h : P.Blank) (type : AccessType) :
    MemReq.Intact { P.req with type := type } P.issuer :=
  ⟨by simp [h.issuer, h.flags], h.pmcs, h.signature⟩

namespace Hierarchy

variable (T : CacheTree) {s s' s'' : Hierarchy}

def AllBlank (s : Hierarchy) : Prop := ∀ p P, s.pend p = some P → P.Blank

/-- A part of a step that makes no requests: it only answers those in flight. -/
structure Inner (s s' : Hierarchy) : Prop where
  log : ∃ l, s'.log = l ++ s.log ∧ (AllBlank s → ∀ e ∈ l, e.Intact)
  pend : ∀ p P, s'.pend p = some P → s.pend p = some P

namespace Inner

theorem refl (s : Hierarchy) : Inner s s := ⟨⟨[], rfl, by simp⟩, fun _ _ => id⟩

theorem trans (h : Inner s s') (h' : Inner s' s'') : Inner s s'' := by
  obtain ⟨l, hl, hi⟩ := h.log
  obtain ⟨l', hl', hi'⟩ := h'.log
  refine ⟨⟨l' ++ l, by rw [hl', hl, List.append_assoc], fun hb e he => ?_⟩,
    fun p P hP => h.pend p P (h'.pend p P hP)⟩
  rcases List.mem_append.mp he with he | he
  · exact hi' (fun p P hP => hb p P (h.pend p P hP)) e he
  · exact hi hb e he

theorem allBlank (h : Inner s s') (hb : AllBlank s) : AllBlank s' :=
  fun p P hP => hb p P (h.pend p P hP)

theorem of_eq (hlog : s'.log = s.log) (hpend : s'.pend = s.pend) : Inner s s' :=
  ⟨⟨[], by simpa using hlog, by simp⟩, fun p P hP => by rwa [hpend] at hP⟩

theorem record (h : Inner s s') {e : Event} (he : AllBlank s → e.Intact) :
    Inner s (s'.record e) := by
  obtain ⟨l, hl, hi⟩ := h.log
  refine ⟨⟨e :: l, by simp [hl], fun hb e' he' => ?_⟩, h.pend⟩
  rcases List.mem_cons.mp he' with rfl | he'
  · exact he hb
  · exact hi hb e' he'

theorem clear (h : Inner s s') (p : Path) : Inner s (s'.setPend p none) := by
  refine ⟨h.log, fun q P hP => ?_⟩
  by_cases hq : q = p
  · simp [hq] at hP
  · exact h.pend q P (by simpa [hq] using hP)

end Inner

variable {T}

theorem invalidate_inner (k : Nat) {p : Path} {type : InvType} {b : Bool}
    (h : invalidate T k p type s = some (s', b)) : Inner s s' := by
  induction k generalizing p type s s' b with
  | zero => simp [invalidate] at h
  | succ k ih =>
    simp only [invalidate] at h
    split at h
    · split at h
      · simp at h
      · rename_i e s₁ wb hbelow
        have hi : Inner s s₁ := by
          split at hbelow
          · simp only [Option.some.injEq, Prod.mk.injEq] at hbelow
            exact hbelow.2.1 ▸ .refl s
          · exact MESITopCC.processInval_frame
              ⟨.refl, fun _ _ _ => .trans, fun _ _ _ _ _ hc => ih hc⟩ hbelow
        split at h
        · simp at h
        · simp only [Option.some.injEq, Prod.mk.injEq] at h
          rename_i state dirty _
          have hset : Inner s ((s₁.setDir p e).setState p state) := hi.trans (.of_eq rfl rfl)
          exact h.1 ▸ hset.record fun _ => trivial
    · simp at h

theorem toChildren_frame (p : Path) : InvalidateFrame (toChildren T p) Inner :=
  ⟨.refl, fun _ _ _ => .trans, fun _ _ _ _ _ hc => invalidate_inner T.height hc⟩

theorem finishServe_inner {p : Path} {c : Nat} {type : AccessType} {Q : Pending}
    (hQ : AllBlank s → Q.Blank) (h : finishServe T p c type Q s = some s') : Inner s s' := by
  simp only [finishServe] at h
  split at h
  · exact Option.some.inj h ▸ .refl s
  split at h
  · simp at h
  · rename_i e x s₁ wb hpa
    have hi := MESITopCC.processAccess_frame (toChildren_frame p) hpa
    have hwrite : Inner s ((s₁.setDir p e).writePtr Q.req.state x) :=
      hi.trans (by cases Q.req.state <;> exact .of_eq rfl rfl)
    have hrec : Inner s (((s₁.setDir p e).writePtr Q.req.state x).record
        (.answered (c :: p) type Q.issuer x)) :=
      hwrite.record fun hb _ hn => by simp [(hQ hb).issuer] at hn
    split at h
    · obtain ⟨y, _, rfl⟩ := Option.map_eq_some_iff.mp h
      exact hrec.trans (.of_eq rfl rfl)
    · exact Option.some.inj h ▸ hrec

theorem finishCore_inner (p : Path) (type : AccessType) (s : Hierarchy) :
    Inner s (finishCore p type s) := by
  by_cases hX : type = .GETX
  · simpa [finishCore, hX] using (Inner.refl s).record (e := .wrote p) fun _ => trivial
  · simpa [finishCore, hX] using Inner.refl s

theorem resume_inner (k : Nat) {p : Path} (h : resume T k p s = some s') : Inner s s' := by
  induction k generalizing p s with
  | zero => simp [resume] at h
  | succ k ih =>
    have hclear := (Inner.refl s).clear p
    simp only [resume] at h
    split at h
    · simp at h
    rename_i P hP
    cases hpp : P.purpose with
    | core =>
      simp only [hpp] at h
      split at h
      · exact Option.some.inj h ▸ hclear.trans (finishCore_inner p _ _)
      · simp at h
    | evict =>
      simp only [hpp] at h
      split at h
      · exact Option.some.inj h ▸ hclear.trans (.of_eq rfl rfl)
      · simp at h
    | forward c =>
      simp only [hpp] at h
      exact hclear.trans (ih h)
    | serve c type =>
      simp only [hpp] at h
      cases hQ : s.pend (c :: p) with
      | none => simp [hQ] at h
      | some Q =>
        simp only [hQ] at h
        split at h
        · split at h
          · simp at h
          rename_i s₁ hs₁
          have hQ' : AllBlank (s.setPend p none) → Q.Blank := fun hb =>
            hb (c :: p) Q (by simpa [child_ne] using hQ)
          exact (hclear.trans (finishServe_inner hQ' hs₁)).trans (ih h)
        · simp at h

/-- A step whose issuers pass no flags and which forwards no non-inclusive writeback. -/
def Intended (s : Hierarchy) : Action → Prop
  | .access _ _ flags _ _ => flags = 0#32
  | .serve p c _ => ∀ Q type, s.pend (c :: p) = some Q →
      checkForMESIRace Q.req.type (s.readPtr Q.req.state) Q.req.initialState =
        some (type, false) → isBypass p type s = false
  | _ => True

/-- What a step adds to the log when the requests before it carried no flags. -/
def StepOk (s s' : Hierarchy) (a : Action) : Prop :=
  ∃ l, s'.log = l ++ s.log ∧
    (AllBlank s → Intended s a → AllBlank s' ∧ ∀ e ∈ l, e.Intact) ∧
    (¬Intended s a → ∃ e ∈ l, ¬e.Intact)

theorem Inner.stepOk (h : Inner s s') {a : Action} (ha : Intended s a) : StepOk s s' a := by
  obtain ⟨l, hl, hi⟩ := h.log
  exact ⟨l, hl, fun hb _ => ⟨h.allBlank hb, hi hb⟩, fun hn => absurd ha hn⟩

/-- Sending a request built from the flags of one that carried none. -/
theorem Inner.send (h : Inner s s') {p : Path} {P : Pending} (hP : AllBlank s → P.Blank)
    {a : Action} (ha : Intended s a) : StepOk s (s'.send p P) a := by
  obtain ⟨l, hl, hi⟩ := h.log
  refine ⟨.sent p P.req P.issuer :: l, by simp [Hierarchy.send, hl], fun hb _ => ⟨?_, ?_⟩,
    fun hn => absurd ha hn⟩
  · intro q Q hQ
    by_cases hq : q = p
    · obtain rfl : P = Q := by simpa [Hierarchy.send, hq] using hQ
      exact hP hb
    · exact hb q Q (h.pend q Q (by simpa [Hierarchy.send, hq] using hQ))
  · intro e he
    rcases List.mem_cons.mp he with rfl | he
    · exact (hP hb).intact P.req.type
    · exact hi hb e he

theorem access_ok {p : Path} {type : AccessType} {flags : BitVec 32} {cycle srcId : Nat}
    (h : access T p type flags cycle srcId s = some s') :
    StepOk s s' (.access p type flags cycle srcId) := by
  let req : MemReq (Option Path) := MemReq.aggregate T.lineAddr type 0 none cycle true .I srcId flags
  let ev : Event := .received (some p) req flags false
  have hev : ev.Intact ↔ flags = 0#32 := MemReq.aggregate_intact_iff
  let s₁ := (s.record ev).setResident p true
  -- the rest of the access makes no request of its own but the one for this event
  have hrest : ∃ l, s'.log = l ++ ev :: s.log ∧
      (AllBlank s → flags = 0#32 → AllBlank s' ∧ ∀ e ∈ l, e.Intact) := by
    simp only [access, coreLine] at h
    split at h
    · simp at h
    · rename_i state _
      have hi : Inner s₁ s' := Option.some.inj h ▸
        (Inner.of_eq rfl rfl : Inner s₁ (s₁.setState p state)).trans (finishCore_inner p type _)
      obtain ⟨l, hl, he⟩ := hi.log
      exact ⟨l, hl, fun hb _ => ⟨hi.allBlank hb, he hb⟩⟩
    · rename_i t _
      obtain rfl := Option.some.inj h
      refine ⟨[_], rfl, fun hb hf => ?_⟩
      have hP : Pending.Blank ⟨request T s₁ p t (some p) cycle srcId 0#32, flags, .core⟩ :=
        ⟨hf, rfl, by simp [request, MemReq.aggregate], rfl⟩
      refine ⟨fun q Q hQ => ?_, fun e he => ?_⟩
      · by_cases hq : q = p
        · obtain rfl : _ = Q := by simpa [Hierarchy.send, hq] using hQ
          exact hP
        · exact hb q Q (by simpa [Hierarchy.send, hq] using hQ)
      · obtain rfl := List.mem_singleton.mp he
        exact hP.intact t
  obtain ⟨l, hl, hok⟩ := hrest
  refine ⟨l ++ [ev], by simp [hl], fun hb hf => ⟨(hok hb hf).1, fun e he => ?_⟩,
    fun hn => ⟨ev, by simp, fun hi => hn (hev.mp hi)⟩⟩
  rcases List.mem_append.mp he with he | he
  · exact (hok hb hf).2 e he
  · exact List.mem_singleton.mp he ▸ hev.mpr hf

theorem serveLine_ok {t : Hierarchy} {p : Path} {c : Nat} {type : AccessType} {Q : Pending}
    {a : Action} (hi : Inner s t) (hQ : t.pend (c :: p) = some Q) (ha : Intended s a)
    (h : serveLine T p c type Q t = some s') : StepOk s s' a := by
  have hblank : AllBlank s → Q.Blank := fun hb => hi.allBlank hb _ _ hQ
  simp only [serveLine] at h
  split at h
  · simp at h
  split at h
  · simp at h
  · rename_i state _
    split at h
    · simp at h
    · rename_i s₁ hs₁
      have hset : Inner t (t.setState p state) := .of_eq rfl rfl
      have hQ' : AllBlank (t.setState p state) → Q.Blank := fun hb => hb (c :: p) Q hQ
      have hfin := finishServe_inner hQ' hs₁
      exact (((hi.trans hset).trans hfin).trans (resume_inner _ h)).stepOk ha
  · obtain rfl := Option.some.inj h
    refine hi.send (fun hb => ?_) ha
    exact ⟨(hblank hb).issuer, rfl, by simp [request, MemReq.aggregate, (hblank hb).flags], rfl⟩

theorem serve_ok {p : Path} {c : Nat} {stale : Bool} (h : serve T p c stale s = some s') :
    StepOk s s' (.serve p c stale) := by
  simp only [serve] at h
  cases hQ : s.pend (c :: p) with
  | none => simp [hQ] at h
  | some Q =>
    simp only [hQ] at h
    cases hrace : checkForMESIRace Q.req.type (s.readPtr Q.req.state) Q.req.initialState with
    | none => simp [hrace] at h
    | some r =>
      obtain ⟨type, skip⟩ := r
      let ev : Event := .received (some p) { Q.req with type := type } Q.issuer skip
      have hev : AllBlank s → ev.Intact := fun hb => (hb _ _ hQ).intact type
      have hrec : Inner s (s.record ev) := (Inner.refl s).record hev
      have hint (hbp : skip = false → isBypass p type s = false) :
          Intended s (.serve p c stale) := by
        intro Q' type' hQ' hrace'
        obtain rfl := Option.some.inj (hQ.symm.trans hQ')
        rw [hrace] at hrace'
        simp only [Option.some.injEq, Prod.mk.injEq] at hrace'
        obtain ⟨rfl, hs⟩ := hrace'
        exact hbp hs
      cases skip with
      | true =>
        simp only [hrace] at h
        exact (hrec.trans (resume_inner _ h)).stepOk (hint (by simp))
      | false =>
        simp only [hrace] at h
        split at h
        · -- the bypass: the forwarded request carries NONINCLWB in the wrong member
          rename_i hbp
          have hnot : ¬Intended s (.serve p c stale) := fun hi => by
            have hb := hi Q type hQ hrace
            exact absurd hbp (by simpa [isBypass] using hb)
          split at h
          · obtain rfl := Option.some.inj h
            refine ⟨[_, ev], rfl, fun _ hi => absurd hi hnot,
              fun _ => ⟨_, List.mem_cons_self, fun hi => ?_⟩⟩
            have hp : ((Q.req.flags ||| MemReq.NONINCLWB).toNat : ℚ) = 0 := hi.2.1
            have hz : Q.req.flags ||| MemReq.NONINCLWB = 0#32 :=
              BitVec.eq_of_toNat_eq (by simpa using hp)
            have hw : MemReq.NONINCLWB = 0#32 := (BitVec.or_eq_zero_iff.mp hz).2
            exact absurd hw (by decide)
          · simp at h
        · rename_i hbp
          refine serveLine_ok (hrec.trans (.of_eq (allocate_log p stale _) (allocate_pend p stale _)))
            (by simpa using hQ)
            (hint fun _ => ?_) h
          simpa [isBypass] using hbp

theorem evict_ok {p : Path} {cycle srcId : Nat} (h : evict T p cycle srcId s = some s') :
    StepOk s s' (.evict p cycle srcId) := by
  simp only [evict] at h
  split at h
  · simp at h
  rename_i e s₁ wb hbelow
  have hi : Inner s s₁ := by
    split at hbelow
    · simp only [Option.some.injEq, Prod.mk.injEq] at hbelow
      exact hbelow.2.1 ▸ .refl s
    · exact MESITopCC.processEviction_frame (toChildren_frame p) hbelow
  split at h
  · simp at h
  rename_i state _
  have hset : Inner s ((s₁.setDir p e).setState p state) := hi.trans (.of_eq rfl rfl)
  split at h
  · obtain rfl := Option.some.inj h
    exact Inner.stepOk (hset.trans (.of_eq rfl rfl)) trivial
  · obtain rfl := Option.some.inj h
    exact hset.send (fun _ => ⟨rfl, rfl, by simp [request, MemReq.aggregate], rfl⟩) trivial

theorem answer_ok {alone : Bool} (h : answer T alone s = some s') :
    StepOk s s' (.answer alone) := by
  simp only [answer] at h
  split at h
  · simp at h
  rename_i P hP
  split at h
  · simp at h
  · rename_i type _
    let ev : Event := .received none { P.req with type := type } P.issuer true
    have hev : AllBlank s → ev.Intact := fun hb => (hb [] P hP).intact type
    exact (((Inner.refl s).record hev).trans (resume_inner _ h)).stepOk trivial
  · rename_i type _
    let ev : Event := .received none { P.req with type := type } P.issuer false
    let x := upperGrant P.req type alone
    have hev : AllBlank s → ev.Intact := fun hb => (hb [] P hP).intact type
    have hans : AllBlank s → (Event.answered [] type P.issuer x).Intact := fun hb _ hn => by
      simp [(hb [] P hP).issuer] at hn
    have hwrite : Inner s ((s.record ev).writePtr P.req.state x) :=
      ((Inner.refl s).record hev).trans (by cases P.req.state <;> exact .of_eq rfl rfl)
    exact ((hwrite.record hans).trans (resume_inner _ h)).stepOk trivial

theorem step_ok {a : Action} (h : step T s a = some s') : StepOk s s' a := by
  cases a with
  | access p type flags cycle srcId => exact access_ok h
  | serve p c stale => exact serve_ok h
  | evict p cycle srcId => exact evict_ok h
  | answer alone => exact answer_ok h
  | inval type =>
    obtain ⟨r, hr, rfl⟩ := Option.map_eq_some_iff.mp h
    exact (invalidate_inner _ hr).stepOk trivial

variable (T) in
def run : Hierarchy → List Action → Option Hierarchy
  | s, [] => some s
  | s, a :: as => (step T s a).bind fun s' => run s' as

variable (T) in
def AsIntended : Hierarchy → List Action → Prop
  | _, [] => True
  | s, a :: as => Intended s a ∧ ∀ s', step T s a = some s' → AsIntended s' as

theorem run_log {acts : List Action} (h : run T s acts = some s') : ∃ l, s'.log = l ++ s.log := by
  induction acts generalizing s with
  | nil => exact ⟨[], by simp [Option.some.inj h]⟩
  | cons a as ih =>
    obtain ⟨s₁, hs₁, hrun⟩ := Option.bind_eq_some_iff.mp h
    obtain ⟨l, hl, _⟩ := step_ok hs₁
    obtain ⟨l', hl'⟩ := ih hrun
    exact ⟨l' ++ l, by rw [hl', hl, List.append_assoc]⟩

theorem run_intact_iff {acts : List Action} (hb : AllBlank s) (h : run T s acts = some s') :
    (∀ e ∈ s'.log, e.Intact) ↔ (∀ e ∈ s.log, e.Intact) ∧ AsIntended T s acts := by
  induction acts generalizing s with
  | nil => simp [Option.some.inj h, AsIntended]
  | cons a as ih =>
    obtain ⟨s₁, hs₁, hrun⟩ := Option.bind_eq_some_iff.mp h
    obtain ⟨l, hl, hok, hbad⟩ := step_ok hs₁
    by_cases ha : Intended s a
    · obtain ⟨hb₁, hl₁⟩ := hok hb ha
      have hnext : AsIntended T s (a :: as) ↔ AsIntended T s₁ as := by
        simp [AsIntended, ha, hs₁]
      rw [ih hb₁ hrun, hnext, hl, List.forall_mem_append]
      exact ⟨fun hh => ⟨hh.1.2, hh.2⟩, fun hh => ⟨⟨hl₁, hh.1⟩, hh.2⟩⟩
    · obtain ⟨e, he, hne⟩ := hbad ha
      obtain ⟨l', hl'⟩ := run_log hrun
      refine ⟨fun hh => absurd (hh e ?_) hne, fun hh => absurd hh.2.1 ha⟩
      rw [hl', hl]
      simp [he]

/-- The flags of every issuer are seen, intact, by every cache on the way and by memory,
in exactly the runs where no issuer passes flags and no PUT is forwarded by a cache that
has no valid line for it. -/
theorem flags_survive_iff (T : CacheTree) (acts : List Action) (s : Hierarchy)
    (h : run T init acts = some s) :
    (∀ e ∈ s.log, e.Intact) ↔ AsIntended T init acts := by
  have hb : AllBlank init := fun p P hP => by simp [init] at hP
  simpa [init] using run_intact_iff hb h

/-- A load of instruction lines in a two-level hierarchy. -/
def fetchRun (flags : BitVec 32) : List Action :=
  [.access [0] .GETS flags 0 0, .serve [] 0 false, .answer true]

/-- Without flags the run is as intended and everything in its log is intact. -/
theorem flags_survive_iff_fetch : ∃ s, run twoLevels init (fetchRun 0#32) = some s ∧
    ((∀ e ∈ s.log, e.Intact) ↔ AsIntended twoLevels init (fetchRun 0#32)) :=
  ⟨_, rfl, flags_survive_iff twoLevels (fetchRun 0#32) _ rfl⟩

/-- With NOEXCL and IFETCH the first cache gets the flags in `pmcs`, none of the caches
sees them, and the load is answered with E. -/
theorem flags_lost : ¬∀ T acts s, run T init acts = some s → ∀ e ∈ s.log, e.Intact := by
  intro h
  have hE := h twoLevels (fetchRun (MemReq.NOEXCL ||| MemReq.IFETCH)) _ rfl
    (.answered [0] .GETS (MemReq.NOEXCL ||| MemReq.IFETCH) .E) (.head _)
  exact hE rfl (by decide) rfl

end Hierarchy

end ZSim
