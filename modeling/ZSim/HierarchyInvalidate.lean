import ZSim.CacheHierarchy

/-! What an invalidation does to the subtree it is sent to: it succeeds on agreeing
directories, lowers the subtree, reports every dirty copy it takes away, and touches
nothing outside. -/

namespace ZSim

namespace Hierarchy

section fields

variable (s : Hierarchy) (p : Path)

@[simp] theorem record_st (e : Event) : (s.record e).st = s.st := rfl
@[simp] theorem record_dir (e : Event) : (s.record e).dir = s.dir := rfl
@[simp] theorem record_resident (e : Event) : (s.record e).resident = s.resident := rfl
@[simp] theorem record_pend (e : Event) : (s.record e).pend = s.pend := rfl
@[simp] theorem record_log (e : Event) : (s.record e).log = e :: s.log := rfl
@[simp] theorem setState_st (x : MESIState) :
    (s.setState p x).st = Function.update s.st p x := rfl
@[simp] theorem setState_dir (x : MESIState) : (s.setState p x).dir = s.dir := rfl
@[simp] theorem setState_resident (x : MESIState) : (s.setState p x).resident = s.resident := rfl
@[simp] theorem setState_pend (x : MESIState) : (s.setState p x).pend = s.pend := rfl
@[simp] theorem setState_log (x : MESIState) : (s.setState p x).log = s.log := rfl
@[simp] theorem setDir_st (e : Entry) : (s.setDir p e).st = s.st := rfl
@[simp] theorem setDir_dir (e : Entry) : (s.setDir p e).dir = Function.update s.dir p e := rfl
@[simp] theorem setDir_resident (e : Entry) : (s.setDir p e).resident = s.resident := rfl
@[simp] theorem setDir_pend (e : Entry) : (s.setDir p e).pend = s.pend := rfl
@[simp] theorem setDir_log (e : Entry) : (s.setDir p e).log = s.log := rfl
@[simp] theorem setResident_st (b : Bool) : (s.setResident p b).st = s.st := rfl
@[simp] theorem setResident_dir (b : Bool) : (s.setResident p b).dir = s.dir := rfl
@[simp] theorem setResident_resident (b : Bool) :
    (s.setResident p b).resident = Function.update s.resident p b := rfl
@[simp] theorem setResident_pend (b : Bool) : (s.setResident p b).pend = s.pend := rfl
@[simp] theorem setResident_log (b : Bool) : (s.setResident p b).log = s.log := rfl
@[simp] theorem setPend_st (P : Option Pending) : (s.setPend p P).st = s.st := rfl
@[simp] theorem setPend_dir (P : Option Pending) : (s.setPend p P).dir = s.dir := rfl
@[simp] theorem setPend_resident (P : Option Pending) :
    (s.setPend p P).resident = s.resident := rfl
@[simp] theorem setPend_pend (P : Option Pending) :
    (s.setPend p P).pend = Function.update s.pend p P := rfl
@[simp] theorem setPend_log (P : Option Pending) : (s.setPend p P).log = s.log := rfl

@[simp] theorem writePtr_some (x : MESIState) : s.writePtr (some p) x = s.setState p x := rfl
@[simp] theorem readPtr_some : s.readPtr (some p) = s.st p := rfl

end fields

def StrictlyBelow (p r : Path) : Prop := ∃ c, (c :: p) <:+ r

theorem StrictlyBelow.suffix {p r : Path} (h : StrictlyBelow p r) : p <:+ r := by
  obtain ⟨c, hc⟩ := h
  exact (List.suffix_cons c p).trans hc

theorem StrictlyBelow.ne {p r : Path} (h : StrictlyBelow p r) : r ≠ p := by
  rintro rfl
  obtain ⟨c, hc⟩ := h
  have := hc.length_le
  simp at this

theorem suffix_iff {p r : Path} : p <:+ r ↔ r = p ∨ StrictlyBelow p r := by
  constructor
  · rintro ⟨l, rfl⟩
    rcases List.eq_nil_or_concat l with rfl | ⟨l', c, rfl⟩
    · exact .inl rfl
    · exact .inr ⟨c, l', by simp⟩
  · rintro (rfl | h)
    · exact List.suffix_refl _
    · exact h.suffix

theorem StrictlyBelow.cons {p r : Path} (h : StrictlyBelow p r) (c : Nat) :
    StrictlyBelow p (c :: r) := by
  obtain ⟨d, hd⟩ := h
  exact ⟨d, hd.trans (List.suffix_cons c r)⟩

theorem strictlyBelow_child (p : Path) (c : Nat) : StrictlyBelow p (c :: p) :=
  ⟨c, List.suffix_refl _⟩

theorem child_ne (p : Path) (c : Nat) : c :: p ≠ p := (strictlyBelow_child p c).ne

/-- The directory of cache `r` agrees with its children, and a valid line is resident. -/
def AgreesAt (T : CacheTree) (s : Hierarchy) (r : Path) : Prop :=
  (s.dir r).Agrees (T.fanout r) (s.st r) (fun c => s.st (c :: r)) ∧
    (s.st r ≠ .I → s.resident r = true)

theorem AgreesAt.congr {T : CacheTree} {s s' : Hierarchy} {r : Path} (h : AgreesAt T s r)
    (hst : s'.st r = s.st r) (hdir : s'.dir r = s.dir r) (hres : s'.resident = s.resident)
    (hch : ∀ c, s'.st (c :: r) = s.st (c :: r)) : AgreesAt T s' r := by
  refine ⟨?_, by rw [hst, hres]; exact h.2⟩
  rw [hst, hdir]
  exact h.1.congr fun c _ => hch c

/-- The effect of invalidations on the caches in `D`; `b` says whether dirty data was
reported. -/
structure Eff (D : Path → Prop) (s : Hierarchy) (b : Bool) (s' : Hierarchy) : Prop where
  st : ∀ r, ¬D r → s'.st r = s.st r
  dir : ∀ r, ¬D r → s'.dir r = s.dir r
  resident : s'.resident = s.resident
  pend : s'.pend = s.pend
  lowered : ∀ r, Lowered (s.st r) (s'.st r)
  empty : ∀ r, (s.dir r).numSharers = 0 → (s'.dir r).numSharers = 0
  log : ∃ l, s'.log = l ++ s.log ∧
    (∀ e ∈ l, ∃ r type wb, D r ∧ e = .invalidated r type wb) ∧
    ∀ r, s.st r = .M → s'.st r ≠ .M → ∃ type, Event.invalidated r type true ∈ l
  dirty : ∀ r, s.st r = .M → s'.st r ≠ .M → b = true

namespace Eff

variable {D D' : Path → Prop} {s s' s'' : Hierarchy} {b b' : Bool}

theorem refl (D : Path → Prop) (s : Hierarchy) : Eff D s false s where
  st _ _ := rfl
  dir _ _ := rfl
  resident := rfl
  pend := rfl
  lowered _ := .refl _
  empty _ h := h
  log := ⟨[], rfl, by simp, fun r h h' => absurd h h'⟩
  dirty _ h h' := absurd h h'

theorem mono (h : Eff D s b s') (hD : ∀ r, D r → D' r) : Eff D' s b s' where
  st r hr := h.st r fun hd => hr (hD r hd)
  dir r hr := h.dir r fun hd => hr (hD r hd)
  resident := h.resident
  pend := h.pend
  lowered := h.lowered
  empty := h.empty
  log := by
    obtain ⟨l, hl, he, hM⟩ := h.log
    refine ⟨l, hl, fun e hel => ?_, hM⟩
    obtain ⟨r, type, wb, hr, rfl⟩ := he e hel
    exact ⟨r, type, wb, hD r hr, rfl⟩
  dirty := h.dirty

theorem trans (h : Eff D s b s') (h' : Eff D s' b' s'') : Eff D s (b || b') s'' where
  st r hr := (h'.st r hr).trans (h.st r hr)
  dir r hr := (h'.dir r hr).trans (h.dir r hr)
  resident := h'.resident.trans h.resident
  pend := h'.pend.trans h.pend
  lowered r := (h.lowered r).trans (h'.lowered r)
  empty r hr := h'.empty r (h.empty r hr)
  log := by
    obtain ⟨l, hl, he, hM⟩ := h.log
    obtain ⟨l', hl', he', hM'⟩ := h'.log
    refine ⟨l' ++ l, by rw [hl', hl, List.append_assoc], fun e hel => ?_, fun r h1 h2 => ?_⟩
    · rcases List.mem_append.mp hel with hel | hel
      · exact he' e hel
      · exact he e hel
    · by_cases hr : s'.st r = .M
      · obtain ⟨type, ht⟩ := hM' r hr h2
        exact ⟨type, List.mem_append_left l ht⟩
      · obtain ⟨type, ht⟩ := hM r h1 hr
        exact ⟨type, List.mem_append_right l' ht⟩
  dirty r h1 h2 := by
    by_cases hr : s'.st r = .M
    · simp [h'.dirty r hr h2]
    · simp [h.dirty r h1 hr]

theorem agreesAt {T : CacheTree} (h : Eff D s b s') {r : Path} (hr : AgreesAt T s r)
    (hD : ¬D r) (hc : ∀ c, ¬D (c :: r)) : AgreesAt T s' r :=
  hr.congr (h.st r hD) (h.dir r hD) h.resident fun c => h.st _ (hc c)

end Eff

variable {T : CacheTree}

/-- Everything that holds after cache `p` was invalidated. -/
structure Invalidated (T : CacheTree) (p : Path) (type : InvType) (s : Hierarchy) (b : Bool)
    (s' : Hierarchy) : Prop where
  state : s'.st p = lowerTo type
  agrees : ∀ r, p <:+ r → AgreesAt T s' r
  exclusive : b = true → (s.st p).isExclusive = true
  recorded : ∃ l, s'.log = .invalidated p type b :: (l ++ s.log)
  eff : Eff (p <:+ ·) s b s'

/-- Invalidations with a known effect serve the top controller of `p`. -/
theorem invalidateSpec_of {p : Path} (invalidate : InvalidateChild Hierarchy)
    (h : ∀ c < T.fanout p, ∀ type s, (∀ r, (c :: p) <:+ r → AgreesAt T s r) →
      invalidatable type (s.st (c :: p)) = true →
      ∃ s' b, invalidate c type s = some (s', b) ∧ Invalidated T (c :: p) type s b s') :
    InvalidateSpec (T.fanout p) invalidate (fun s c => s.st (c :: p))
      (fun s => ∀ r, StrictlyBelow p r → AgreesAt T s r) (Eff (StrictlyBelow p)) := by
  have hlook {c : Nat} {type : InvType} {s s' : Hierarchy} {b : Bool}
      (hi : Invalidated T (c :: p) type s b s') :
      (fun d => s'.st (d :: p)) = Function.update (fun d => s.st (d :: p)) c (lowerTo type) := by
    funext d
    by_cases hd : d = c
    · subst d
      simpa using hi.state
    · have hns : ¬(c :: p) <:+ (d :: p) := by
        rw [List.suffix_cons_iff]
        rintro (hh | hh)
        · exact hd (List.cons.inj hh).1.symm
        · simpa using hh.length_le
      simpa [hd] using hi.eff.st _ hns
  have hkeep {c : Nat} {type : InvType} {s s' : Hierarchy} {b : Bool}
      (hJ : ∀ r, StrictlyBelow p r → AgreesAt T s r)
      (hi : Invalidated T (c :: p) type s b s') : ∀ r, StrictlyBelow p r → AgreesAt T s' r := by
    intro r hr
    by_cases hc : (c :: p) <:+ r
    · exact hi.agrees r hc
    · refine hi.eff.agreesAt (hJ r hr) hc fun d hd => ?_
      rcases List.suffix_cons_iff.mp hd with hh | hh
      · exact hr.ne (List.cons.inj hh).2.symm
      · exact hc hh
  refine ⟨fun s c hJ hc hv => ?_, fun s c hJ hc hx => ?_, fun s _ => .refl _ s,
    fun _ _ _ _ _ h1 h2 => h1.trans h2⟩
  · obtain ⟨s', b, hs, hi⟩ := h c hc .INV s (fun r hr => hJ r ⟨c, hr⟩)
      (by simpa [invalidatable] using hv)
    exact ⟨s', b, hs, hlook hi, hi.exclusive, hkeep hJ hi, hi.eff.mono fun r hr => ⟨c, hr⟩⟩
  · obtain ⟨s', b, hs, hi⟩ := h c hc .INVX s (fun r hr => hJ r ⟨c, hr⟩)
      (by simpa [invalidatable] using hx)
    exact ⟨s', b, hs, hlook hi, hkeep hJ hi, hi.eff.mono fun r hr => ⟨c, hr⟩⟩

theorem agrees_terminal {e : Entry} {p p' : MESIState} {f g : Nat → MESIState}
    (h : e.Agrees 0 p f) : e.Agrees 0 p' g :=
  .of_empty (by simpa [Entry.sharerList] using h.numSharers) (by simp) (by simp)

theorem invalidate_spec (k : Nat) {p : Path} {type : InvType} {s : Hierarchy}
    (hk : T.height < p.length + k) (hp : p.length ≤ T.height)
    (hinc : ∀ q, T.nonInclusiveHack q = false) (hA : ∀ r, p <:+ r → AgreesAt T s r)
    (hok : invalidatable type (s.st p) = true) :
    ∃ s' b, invalidate T k p type s = some (s', b) ∧ Invalidated T p type s b s' := by
  induction k generalizing p type s with
  | zero => omega
  | succ k ih =>
    have hself := hA p (List.suffix_refl p)
    have hres : s.resident p = true := hself.2 (ne_I_of_invalidatable hok)
    -- what the top controller does to the levels below
    obtain ⟨e, s₁, b, hbelow, hA₁, hz, hb, hJ₁, hE⟩ : ∃ e s₁ b,
        (if T.fanout p = 0 then some (s.dir p, s, false) else
          MESITopCC.processInval (T.nonInclusiveHack p) (T.fanout p)
            (fun c t w => invalidate T k (c :: p) t w) (s.dir p) type false s) =
              some (e, s₁, b) ∧
        e.Agrees (T.fanout p) (lowerTo type) (fun c => s₁.st (c :: p)) ∧
        ((s.dir p).numSharers = 0 → e.numSharers = 0) ∧
        (b = true → (s.st p).isExclusive = true) ∧
        (∀ r, StrictlyBelow p r → AgreesAt T s₁ r) ∧ Eff (StrictlyBelow p) s b s₁ := by
      have hJ : ∀ r, StrictlyBelow p r → AgreesAt T s r := fun r hr => hA r hr.suffix
      by_cases hf : T.fanout p = 0
      · refine ⟨s.dir p, s, false, by simp [hf], ?_, id, by simp, hJ, .refl _ s⟩
        rw [hf]
        exact agrees_terminal (hf ▸ hself.1)
      · have spec := invalidateSpec_of (T := T) (p := p)
          (fun c t w => invalidate T k (c :: p) t w) fun c _ t w hw hi =>
            ih (by simp only [List.length_cons]; omega) (T.bounded p hf) hw hi
        obtain ⟨e, s₁, b, hs, hA', hz, hb, _, hJ', hR⟩ :=
          MESITopCC.processInval_spec spec hself.1 hJ hok false
        exact ⟨e, s₁, b, by simpa [hf, hinc] using hs, hA', hz, hb, hJ', hR⟩
    have hst : s₁.st p = s.st p := hE.st p fun h => h.ne rfl
    have hbot := MESIBottomCC.processInval_eq hok
    refine ⟨((s₁.setDir p e).setState p (lowerTo type)).record
      (.invalidated p type (b || (s.st p == .M))), b || (s.st p == .M),
      by simp only [invalidate, hres, if_true, hbelow, hst, hbot],
      by simp, fun r hr => ?_, fun hh => ?_, ?_, ?_⟩
    · rcases suffix_iff.mp hr with rfl | hr
      · refine ⟨?_, fun _ => by simpa [hE.resident] using hres⟩
        simpa [child_ne] using hA₁
      · exact (hJ₁ r hr).congr (by simp [hr.ne]) (by simp [hr.ne]) rfl fun c => by
          simp [(hr.cons c).ne]
    · rcases Bool.or_eq_true _ _ ▸ hh with hh | hh
      · exact hb hh
      · simp [(beq_iff_eq.mp hh)]
    · obtain ⟨l, hl, _⟩ := hE.log
      exact ⟨l, by simp [hl]⟩
    · have hne {r : Path} (hr : ¬p <:+ r) : r ≠ p := by
        rintro rfl
        exact hr (List.suffix_refl _)
      refine ⟨fun r hr => ?_, fun r hr => ?_, by simp [hE.resident], by simp [hE.pend],
        fun r => ?_, fun r hr => ?_, ?_, fun r h1 h2 => ?_⟩
      · simpa [hne hr] using hE.st r fun h => hr h.suffix
      · simpa [hne hr] using hE.dir r fun h => hr h.suffix
      · by_cases hrp : r = p
        · subst r
          simpa using lowered_lowerTo hok
        · simpa [hrp] using hE.lowered r
      · by_cases hrp : r = p
        · subst r
          simpa using hz hr
        · simpa [hrp] using hE.empty r hr
      · obtain ⟨l, hl, he, hM⟩ := hE.log
        refine ⟨.invalidated p type (b || (s.st p == .M)) :: l, by simp [hl], fun e' he' => ?_,
          fun r h1 h2 => ?_⟩
        · rcases List.mem_cons.mp he' with rfl | he'
          · exact ⟨p, type, _, List.suffix_refl p, rfl⟩
          · obtain ⟨r, t, wb, hr, rfl⟩ := he e' he'
            exact ⟨r, t, wb, hr.suffix, rfl⟩
        · by_cases hrp : r = p
          · subst r
            exact ⟨type, by simp [h1]⟩
          · obtain ⟨t, ht⟩ := hM r h1 (by simpa [hrp] using h2)
            exact ⟨t, List.mem_cons_of_mem _ ht⟩
      · by_cases hrp : r = p
        · subst r
          simp [h1]
        · simp [hE.dirty r h1 (by simpa [hrp] using h2)]

end Hierarchy

end ZSim
