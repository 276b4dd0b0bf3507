import ZSim.DirectoryAgreement

/-! Specification of the top controller over children with a known effect: every
operation succeeds on an agreeing entry and leaves an agreeing entry. -/

namespace ZSim

variable {σ : Type}

/-- What the callers of `invalidate` rely on. `look` reads the children's states,
`J` is kept by every invalidation and `R` records what one did to the rest. -/
structure InvalidateSpec (n : Nat) (invalidate : InvalidateChild σ)
    (look : σ → Nat → MESIState) (J : σ → Prop) (R : σ → Bool → σ → Prop) : Prop where
  inv : ∀ w c, J w → c < n → look w c ≠ .I → ∃ w' b, invalidate c .INV w = some (w', b) ∧
    look w' = Function.update (look w) c .I ∧
    (b = true → (look w c).isExclusive = true) ∧ J w' ∧ R w b w'
  invx : ∀ w c, J w → c < n → (look w c).isExclusive = true →
    ∃ w' b, invalidate c .INVX w = some (w', b) ∧
      look w' = Function.update (look w) c .S ∧ J w' ∧ R w b w'
  refl : ∀ w, J w → R w false w
  trans : ∀ w b w' b' w'', R w b w' → R w' b' w'' → R w (b || b') w''

/-- What invalidations do to one child: nothing, invalidate, or take exclusivity. -/
def Lowered (s s' : MESIState) : Prop := s' = s ∨ s' = .I ∨ (s.isExclusive = true ∧ s' = .S)

theorem Lowered.refl (s : MESIState) : Lowered s s := .inl rfl

/-- The level above invalidates only lines it granted, with the permission it granted. -/
def invalidatable (type : InvType) (state : MESIState) : Bool :=
  match type with
  | .INV => state != .I
  | .INVX => state.isExclusive
  | .FWD => state == .S

def lowerTo : InvType → MESIState
  | .INV => .I
  | _ => .S

theorem MESIBottomCC.processInval_eq {type : InvType} {state : MESIState}
    (h : invalidatable type state = true) :
    MESIBottomCC.processInval state type = some (lowerTo type, state == .M) := by
  cases type <;> cases state <;> simp [invalidatable] at h <;> rfl

theorem lowered_lowerTo {type : InvType} {state : MESIState}
    (h : invalidatable type state = true) : Lowered state (lowerTo type) := by
  cases type <;> cases state <;> simp [invalidatable] at h <;> simp [Lowered, lowerTo]

theorem ne_I_of_invalidatable {type : InvType} {state : MESIState}
    (h : invalidatable type state = true) : state ≠ .I := by
  rintro rfl
  cases type <;> simp [invalidatable] at h

namespace MESITopCC

/-- The calls `sendLoop` makes, without the directory bookkeeping. -/
def invalidateAll (invalidate : InvalidateChild σ) (type : InvType) :
    List Nat → σ → Option (σ × Bool)
  | [], w => some (w, false)
  | c :: cs, w =>
    match invalidate c type w with
    | none => none
    | some (w', b) => (invalidateAll invalidate type cs w').map fun r => (r.1, b || r.2)

/-- The entry after the loop: an INV takes every child in the list out. -/
def clearSharers (type : InvType) (cs : List Nat) (e : Entry) : Entry :=
  if type = .INV then { e with sharers := fun c => if c ∈ cs then false else e.sharers c } else e

theorem clearSharers_cons_true {type : InvType} {c : Nat} {cs : List Nat} {e : Entry} :
    clearSharers type cs (if type = .INV then e.setSharer c false else e) =
      clearSharers type (c :: cs) e := by
  by_cases ht : type = .INV
  · simp only [clearSharers, ht, if_true, Entry.setSharer, List.mem_cons]
    congr 1
    funext d
    by_cases hd : d = c <;> simp [hd]
  · simp [clearSharers, ht]

theorem clearSharers_cons_false {type : InvType} {c : Nat} {cs : List Nat} {e : Entry}
    (h : e.sharers c = false) : clearSharers type cs e = clearSharers type (c :: cs) e := by
  by_cases ht : type = .INV
  · simp only [clearSharers, ht, if_true, List.mem_cons]
    congr 1
    funext d
    by_cases hd : d = c <;> simp [hd, h]
  · simp [clearSharers, ht]

theorem sendLoop_eq (invalidate : InvalidateChild σ) (type : InvType) {cs : List Nat}
    (hnd : cs.Nodup) (e : Entry) (w : σ) (wb : Bool) (k : Nat) :
    sendLoop invalidate type cs e w wb k =
      (invalidateAll invalidate type (cs.filter e.sharers) w).map fun r =>
        (clearSharers type cs e, r.1, wb || r.2, k + (cs.filter e.sharers).length) := by
  induction cs generalizing e w wb k with
  | nil => simp [sendLoop, invalidateAll, clearSharers]
  | cons c cs ih =>
    have hn := List.nodup_cons.mp hnd
    by_cases hb : e.sharers c = true
    · cases hi : invalidate c type w with
      | none => simp [sendLoop, hb, invalidateAll, hi]
      | some r =>
        obtain ⟨w', b⟩ := r
        let e' := if type = .INV then e.setSharer c false else e
        have hf : cs.filter e'.sharers = cs.filter e.sharers := by
          apply List.filter_congr
          intro d hd
          have hdc : d ≠ c := fun h => hn.1 (h ▸ hd)
          by_cases ht : type = .INV <;> simp [e', ht, Entry.setSharer, hdc]
        simp only [sendLoop, hb, if_true, hi, invalidateAll, List.filter_cons_of_pos]
        rw [ih hn.2 e' w' (wb || b) (k + 1), hf]
        rw [show clearSharers type cs e' = clearSharers type (c :: cs) e from clearSharers_cons_true,
          Option.map_map]
        simp only [Function.comp_def, List.length_cons, Bool.or_assoc, Nat.add_assoc,
          Nat.add_comm 1]
    · have hb' : e.sharers c = false := by simpa using hb
      rw [← clearSharers_cons_false hb', List.filter_cons_of_neg hb]
      simp only [sendLoop, hb', Bool.false_eq_true, if_false, ih hn.2]

variable {n : Nat} {invalidate : InvalidateChild σ} {look : σ → Nat → MESIState}
  {J : σ → Prop} {R : σ → Bool → σ → Prop}

theorem invalidateAll_inv (spec : InvalidateSpec n invalidate look J R) (cs : List Nat)
    (hnd : cs.Nodup) {w : σ} (hJ : J w) (hcs : ∀ c ∈ cs, c < n ∧ look w c ≠ .I) :
    ∃ w' b, invalidateAll invalidate .INV cs w = some (w', b) ∧
      look w' = (fun c => if c ∈ cs then .I else look w c) ∧
      (b = true → ∃ c ∈ cs, (look w c).isExclusive = true) ∧ J w' ∧ R w b w' := by
  induction cs generalizing w with
  | nil => exact ⟨w, false, rfl, by simp, by simp, hJ, spec.refl w hJ⟩
  | cons c cs ih =>
    have hn := List.nodup_cons.mp hnd
    have hc := hcs c (by simp)
    obtain ⟨w₁, b₁, h₁, hl₁, hx₁, hJ₁, hR₁⟩ := spec.inv w c hJ hc.1 hc.2
    have hne (d : Nat) (hd : d ∈ cs) : d ≠ c := fun h => hn.1 (h ▸ hd)
    obtain ⟨w₂, b₂, h₂, hl₂, hx₂, hJ₂, hR₂⟩ := ih hn.2 hJ₁ fun d hd => by
      rw [hl₁, Function.update_of_ne (hne d hd)]
      exact hcs d (by simp [hd])
    refine ⟨w₂, b₁ || b₂, by simp [invalidateAll, h₁, h₂], ?_, ?_, hJ₂,
      spec.trans _ _ _ _ _ hR₁ hR₂⟩
    · rw [hl₂, hl₁]
      funext d
      by_cases hd : d = c <;> simp [hd]
    · intro hb
      rcases Bool.or_eq_true _ _ ▸ hb with hb | hb
      · exact ⟨c, by simp, hx₁ hb⟩
      · obtain ⟨d, hd, hxd⟩ := hx₂ hb
        rw [hl₁, Function.update_of_ne (hne d hd)] at hxd
        exact ⟨d, by simp [hd], hxd⟩

/-- INV to all sharers. The entry left behind is empty, whatever is in its
exclusive flag, which INV does not clear. -/
theorem sendInvalidates_inv (spec : InvalidateSpec n invalidate look J R) {e : Entry} {w : σ}
    (hn : e.numSharers = (e.sharerList n).length) (hv : ∀ c ∈ e.sharerList n, look w c ≠ .I)
    (hJ : J w) (wb : Bool) :
    ∃ e' w' b, sendInvalidates n invalidate e .INV wb w = some (e', w', wb || b) ∧
      e'.numSharers = 0 ∧ (∀ c < n, e'.sharers c = false) ∧
      look w' = (fun c => if c ∈ e.sharerList n then .I else look w c) ∧
      (b = true → ∃ c ∈ e.sharerList n, (look w c).isExclusive = true) ∧ J w' ∧ R w b w' := by
  by_cases he : e.numSharers = 0
  · have hl : e.sharerList n = [] := List.length_eq_zero_iff.mp (hn.symm.trans he)
    refine ⟨e, w, false, by simp [sendInvalidates, Entry.isEmpty, he], he, fun c hc => ?_,
      by simp [hl], by simp, hJ, spec.refl w hJ⟩
    by_contra hb
    have hm := Entry.mem_sharerList.mpr ⟨hc, Bool.not_eq_false _ ▸ hb⟩
    simp [hl] at hm
  · obtain ⟨w', b, hi, hl, hx, hJ', hR⟩ := invalidateAll_inv spec (e.sharerList n)
      (e.sharerList_nodup n) hJ fun c hc => ⟨(Entry.mem_sharerList.mp hc).1, hv c hc⟩
    have hsend := sendLoop_eq invalidate .INV (List.nodup_range (n := n)) e w wb 0
    change _ = (invalidateAll invalidate .INV (e.sharerList n) w).map _ at hsend
    rw [hi] at hsend
    refine ⟨{ clearSharers .INV (List.range n) e with numSharers := 0 }, w', b, ?_, rfl, ?_, hl,
      hx, hJ', hR⟩
    · have hc : 0 + (List.filter e.sharers (List.range n)).length =
          (clearSharers .INV (List.range n) e).numSharers := by
        rw [Nat.zero_add]
        exact hn.symm
      simp [sendInvalidates, Entry.isEmpty, he, hsend, ← hc]
    · intro c hc
      simp [clearSharers, hc]

theorem sendInvalidates_inv_agrees (spec : InvalidateSpec n invalidate look J R) {p : MESIState}
    {e : Entry} {w : σ} (h : e.Agrees n p (look w)) (hJ : J w) (wb : Bool) :
    ∃ e' w' b, sendInvalidates n invalidate e .INV wb w = some (e', w', wb || b) ∧
      (∀ p', Entry.Agrees n p' e' (look w')) ∧ e'.numSharers = 0 ∧ (∀ c < n, look w' c = .I) ∧
      (∀ c, Lowered (look w c) (look w' c)) ∧ (b = true → p.isExclusive = true) ∧
      J w' ∧ R w b w' := by
  obtain ⟨e', w', b, hs, hz, hf, hl, hx, hJ', hR⟩ := sendInvalidates_inv spec h.numSharers
    (fun c hc => (h.mem_sharerList_iff.mp hc).2) hJ wb
  have hI (c : Nat) (hc : c < n) : look w' c = .I := by
    rw [hl]
    by_cases hm : c ∈ e.sharerList n
    · simp [hm]
    · simp only [hm, if_false]
      by_contra hne
      exact hm (h.mem_sharerList_iff.mpr ⟨hc, hne⟩)
  refine ⟨e', w', b, hs, fun p' => .of_empty hz hf hI, hz, hI, fun c => ?_, fun hb => ?_, hJ', hR⟩
  · rw [hl]
    by_cases hm : c ∈ e.sharerList n
    · exact .inr (.inl (by simp [hm]))
    · exact .inl (by simp [hm])
  · obtain ⟨c, hc, hxc⟩ := hx hb
    exact h.perm c (Entry.mem_sharerList.mp hc).1 hxc

theorem sendInvalidates_invx (spec : InvalidateSpec n invalidate look J R) {p : MESIState}
    (p' : MESIState) {e : Entry} {w : σ} (h : e.Agrees n p (look w)) (hJ : J w) (he : e.isExclusive = true)
    (hp : p' ≠ .I) (wb : Bool) :
    ∃ c w' b, c < n ∧ (look w c).isExclusive = true ∧
      sendInvalidates n invalidate e .INVX wb w = some ({ e with exclusive := false }, w', wb || b) ∧
      look w' = Function.update (look w) c .S ∧
      Entry.Agrees n p' { e with exclusive := false } (look w') ∧ J w' ∧ R w b w' := by
  have hx : e.numSharers = 1 ∧ e.exclusive = true := by
    simpa [Entry.isExclusive] using he
  obtain ⟨c, hc⟩ := List.length_eq_one_iff.mp (h.numSharers.symm.trans hx.1)
  have hm := h.mem_sharerList_iff.mp (by rw [hc]; exact List.mem_singleton_self c)
  have hexc := (h.exclusive c hm.1 hm.2).mpr he
  obtain ⟨w', b, hi, hl, hJ', hR⟩ := spec.invx w c hJ hm.1 hexc
  have hsend := sendLoop_eq invalidate .INVX (List.nodup_range (n := n)) e w wb 0
  change _ = (invalidateAll invalidate .INVX (e.sharerList n) w).map _ at hsend
  have hlen : (List.filter e.sharers (List.range n)).length = 1 := by
    change (e.sharerList n).length = 1
    rw [hc, List.length_singleton]
  rw [hc] at hsend
  refine ⟨c, w', b, hm.1, hexc, ?_, hl, ?_, hJ', hR⟩
  · simp [sendInvalidates, he, Entry.isEmpty, hx.1, hsend, invalidateAll, hi, clearSharers, hx.2,
      hlen]
  · rw [hl]
    refine ⟨fun d hd => ?_, h.numSharers, fun d hd hne => ?_, fun _ => rfl, fun _ _ _ => hp,
      fun d hd hxd => ?_⟩
    · by_cases hdc : d = c
      · subst d
        simpa using (h.sharers c hd).mpr hm.2
      · simpa [hdc] using h.sharers d hd
    · by_cases hdc : d = c
      · subst d
        simp [Entry.isExclusive]
      · simp [hdc, h.single_writer hm.1 hexc hd hdc] at hne
    · by_cases hdc : d = c
      · subst d
        simp at hxd
      · simp [hdc, h.single_writer hm.1 hexc hd hdc] at hxd

variable (invalidate look) in
theorem processAccess_put (w : σ) {p : MESIState} {e : Entry} {c : Nat} {type : AccessType}
    (h : e.Agrees n p (look w)) (hc : c < n) (ht : isPut type = true) (hv : look w c ≠ .I)
    (hx : type = .PUTX → look w c = .M) (excl : Bool) (flags : BitVec 32) (wb : Bool) :
    ∃ e' s', processAccess n invalidate e type c excl (look w c) flags wb w =
        some (e', s', w, wb) ∧
      Entry.Agrees n p e' (Function.update (look w) c s') ∧
      (s' = .I ∨ (s' = .E ∧ type = .PUTX ∧ flags &&& MemReq.PUTX_KEEPEXCL ≠ 0#32)) := by
  have hb := (h.sharers c hc).mpr hv
  have hdrop : dropSharer e c = some
      ({ e.setSharer c false with numSharers := e.numSharers - 1 }, .I) := by
    simp [dropSharer, hb]
  cases type with
  | GETS => simp [isPut] at ht
  | GETX => simp [isPut] at ht
  | PUTS => exact ⟨_, _, by simp only [processAccess, hdrop]; rfl, h.drop hc hv, .inl rfl⟩
  | PUTX =>
    have hM := hx rfl
    have hex : e.isExclusive = true := (h.exclusive c hc hv).mp (by simp [hM])
    by_cases hk : flags &&& MemReq.PUTX_KEEPEXCL = 0#32
    · refine ⟨_, _, ?_, h.drop hc hv, .inl rfl⟩
      simp only [processAccess, hdrop, hex, if_true, hk, ne_eq, not_true_eq_false, if_false]
      rfl
    · exact ⟨e, .E, by simp [processAccess, hex, hk, hb, hM], h.upgrade (by simp [hM]) rfl,
        .inr ⟨rfl, rfl, hk⟩⟩

theorem processAccess_gets (spec : InvalidateSpec n invalidate look J R) {p : MESIState}
    {e : Entry} {w : σ} {c : Nat} (h : e.Agrees n p (look w)) (hJ : J w) (hc : c < n)
    (hI : look w c = .I) (hp : p ≠ .I) (flags : BitVec 32) (wb : Bool) :
    ∃ e' s' w' b, processAccess n invalidate e .GETS c p.isExclusive (look w c) flags wb w =
        some (e', s', w', wb || b) ∧
      Entry.Agrees n p e' (Function.update (look w') c s') ∧ (s' = .S ∨ s' = .E) ∧
      (s' = .E → flags &&& MemReq.NOEXCL = 0#32) ∧ (b = true → p.isExclusive = true) ∧
      (∀ d, Lowered (look w d) (look w' d)) ∧ J w' ∧ R w b w' := by
  have hb := (h.sharers_eq_false hc).mpr hI
  by_cases hg : e.isEmpty = true ∧ p.isExclusive = true ∧ flags &&& MemReq.NOEXCL = 0#32
  · have hz : e.numSharers = 0 := by simpa [Entry.isEmpty] using hg.1
    refine ⟨_, .E, w, false, by simp only [processAccess, hg, and_self, if_true, Bool.or_false],
      Entry.Agrees.grant_exclusive hc rfl hg.2.1
        (fun d hd => (h.sharers_eq_false hd).mpr (h.eq_I_of_isEmpty hz hd))
        (fun d hd _ => h.eq_I_of_isEmpty hz hd),
      .inr rfl, fun _ => hg.2.2, by simp, fun d => .refl _, hJ, spec.refl w hJ⟩
  · by_cases he : e.isExclusive = true
    · obtain ⟨d, w', b, hd, hxd, hs, hl, ha, hJ', hR⟩ :=
        sendInvalidates_invx spec p h hJ he hp wb
      have hdc : d ≠ c := by rintro rfl; simp [hI] at hxd
      have hn : Entry.isExclusive { e with exclusive := false } = false := by
        simp [Entry.isExclusive]
      have hIc : look w' c = .I := by rw [hl, Function.update_of_ne hdc.symm, hI]
      refine ⟨_, .S, w', b, ?_, ha.grant_shared hn hc hIc hp, .inl rfl, by simp,
        fun _ => h.perm d hd hxd, fun a => ?_, hJ', hR⟩
      · simp only [processAccess, hg, if_false, hb, Bool.false_eq_true, he, if_true, hs, hn]
      · rw [hl]
        by_cases hda : a = d
        · subst a
          exact .inr (.inr ⟨hxd, by simp⟩)
        · simpa [hda] using Lowered.refl _
    · have hn : e.isExclusive = false := by simpa using he
      refine ⟨_, .S, w, false, ?_, h.grant_shared hn hc hI hp, .inl rfl, by simp, by simp,
        fun a => .refl _, hJ, spec.refl w hJ⟩
      simp only [processAccess, hg, if_false, hb, Bool.false_eq_true, hn, Bool.or_false]

theorem processAccess_getx (spec : InvalidateSpec n invalidate look J R) {p : MESIState}
    {e : Entry} {w : σ} {c : Nat} (h : e.Agrees n p (look w)) (hJ : J w) (hc : c < n)
    (hS : (look w c).isExclusive = false) (hp : p.isExclusive = true)
    (flags : BitVec 32) (wb : Bool) :
    ∃ e' w' b, processAccess n invalidate e .GETX c p.isExclusive (look w c) flags wb w =
        some (e', .M, w', wb || b) ∧
      Entry.Agrees n p e' (Function.update (look w') c .M) ∧
      (∀ d, Lowered (look w d) (look w' d)) ∧ J w' ∧ R w b w' := by
  -- an upgrade miss leaves the sharers before the others are invalidated
  let e₁ := if e.sharers c then
    { e.setSharer c false with numSharers := e.numSharers - 1 } else e
  have hl₁ (d : Nat) : d ∈ e₁.sharerList n ↔ d < n ∧ d ≠ c ∧ look w d ≠ .I := by
    rw [Entry.mem_sharerList]
    refine and_congr_right fun hd => ?_
    by_cases hb : e.sharers c = true
    · by_cases hdc : d = c
      · simp [e₁, hb, Entry.setSharer, hdc]
      · simpa [e₁, hb, Entry.setSharer, hdc] using h.sharers d hd
    · by_cases hdc : d = c
      · simp [e₁, hb, hdc]
      · simpa [e₁, hb, hdc] using h.sharers d hd
  have hn₁ : e₁.numSharers = (e₁.sharerList n).length := by
    by_cases hb : e.sharers c = true
    · have := Entry.length_sharerList_set_false hc hb
      have hn := h.numSharers
      simp only [e₁, hb, if_true]
      change e.numSharers - 1 = ((e.setSharer c false).sharerList n).length
      omega
    · simpa [e₁, hb] using h.numSharers
  have hspur : ¬(e.sharers c = true ∧ e.isExclusive = true) := by
    rintro ⟨hb, hx⟩
    have := (h.exclusive c hc ((h.sharers c hc).mp hb)).mpr hx
    simp [hS] at this
  obtain ⟨e', w', b, hs, hz, hf, hl, _, hJ', hR⟩ := sendInvalidates_inv spec hn₁
    (fun d hd => ((hl₁ d).mp hd).2.2) hJ wb
  refine ⟨_, w', b, ?_, Entry.Agrees.grant_exclusive hc rfl hp hf ?_, fun d => ?_, hJ', hR⟩
  · have hs' := hs
    simp only [e₁] at hs'
    simp only [processAccess, hp, if_true, hspur, if_false, hs', hz, Nat.zero_add]
  · intro d hd hdc
    rw [hl]
    by_cases hm : d ∈ e₁.sharerList n
    · simp [hm]
    · simp only [hm, if_false]
      by_contra hne
      exact hm ((hl₁ d).mpr ⟨hd, hdc, hne⟩)
  · rw [hl]
    by_cases hm : d ∈ e₁.sharerList n
    · exact .inr (.inl (by simp [hm]))
    · exact .inl (by simp [hm])

/-- An invalidation from above succeeds and leaves an entry that agrees with the
lowered parent; an entry without sharers stays so. -/
theorem processInval_spec (spec : InvalidateSpec n invalidate look J R) {p : MESIState}
    {e : Entry} {w : σ} (h : e.Agrees n p (look w)) (hJ : J w) {type : InvType}
    (hok : invalidatable type p = true) (wb : Bool) :
    ∃ e' w' b, processInval false n invalidate e type wb w = some (e', w', wb || b) ∧
      Entry.Agrees n (lowerTo type) e' (look w') ∧ (e.numSharers = 0 → e'.numSharers = 0) ∧
      (b = true → p.isExclusive = true) ∧ (∀ c, Lowered (look w c) (look w' c)) ∧
      J w' ∧ R w b w' := by
  cases type with
  | INV =>
    obtain ⟨e', w', b, hs, hA', hz, _, hl, hb, hJ', hR⟩ := sendInvalidates_inv_agrees spec h hJ wb
    exact ⟨e', w', b, by simpa [processInval] using hs, hA' .I, fun _ => hz, hb, hl, hJ', hR⟩
  | INVX =>
    have hx : p.isExclusive = true := by simpa [invalidatable] using hok
    by_cases he : e.isExclusive = true
    · obtain ⟨c, w', b, hc, hxc, hs, hl, hA', hJ', hR⟩ :=
        sendInvalidates_invx spec .S h hJ he (by simp) wb
      refine ⟨_, w', b, by simpa [processInval] using hs, hA', id, fun _ => hx, fun d => ?_,
        hJ', hR⟩
      rw [hl]
      by_cases hdc : d = c
      · subst d
        exact .inr (.inr ⟨hxc, by simp⟩)
      · simpa [hdc] using Lowered.refl _
    · have he' : e.isExclusive = false := by simpa using he
      exact ⟨e, w, false, by simp [processInval, sendInvalidates, he'],
        h.lower_parent he' (by simp [lowerTo]), id, by simp, fun _ => .refl _, hJ, spec.refl w hJ⟩
  | FWD =>
    have hS : p = lowerTo .FWD := by simpa [invalidatable, lowerTo] using hok
    exact ⟨e, w, false, by simp [processInval], hS ▸ h, id, by simp, fun _ => .refl _, hJ,
      spec.refl w hJ⟩

end MESITopCC

end ZSim
