import ZSim.CoherenceCtrls

/-! Agreement of one directory entry with the states of the children and of the
parent, and what each operation of the top controller does to it. The children are
reached through an abstract `invalidate` with a stated effect. -/

namespace ZSim

variable {σ : Type}

namespace Entry

def sharerList (n : Nat) (e : Entry) : List Nat := (List.range n).filter e.sharers

theorem mem_sharerList {n c : Nat} {e : Entry} :
    c ∈ e.sharerList n ↔ c < n ∧ e.sharers c = true := by
  simp [sharerList]

theorem sharerList_nodup (n : Nat) (e : Entry) : (e.sharerList n).Nodup :=
  List.nodup_range.filter _

theorem sharerList_congr {n : Nat} {e e' : Entry} (h : ∀ c < n, e.sharers c = e'.sharers c) :
    e.sharerList n = e'.sharerList n :=
  List.filter_congr fun c hc => h c (List.mem_range.mp hc)

/-- Setting the bit of a child that was not a sharer adds one sharer. -/
theorem length_sharerList_set_true {n c : Nat} {e : Entry} (hc : c < n)
    (h : e.sharers c = false) :
    ((e.setSharer c true).sharerList n).length = (e.sharerList n).length + 1 := by
  have hp : ((e.setSharer c true).sharerList n).Perm (c :: e.sharerList n) := by
    refine (List.perm_ext_iff_of_nodup (sharerList_nodup _ _) ?_).mpr fun d => ?_
    · exact List.nodup_cons.mpr ⟨by simp [mem_sharerList, h], sharerList_nodup _ _⟩
    · by_cases hd : d = c
      · subst d
        simp [mem_sharerList, setSharer, hc]
      · simp [mem_sharerList, setSharer, hd]
  simpa using hp.length_eq

theorem length_sharerList_set_false {n c : Nat} {e : Entry} (hc : c < n)
    (h : e.sharers c = true) :
    ((e.setSharer c false).sharerList n).length + 1 = (e.sharerList n).length := by
  have hh := length_sharerList_set_true (e := e.setSharer c false) hc (by simp [setSharer])
  have he : ((e.setSharer c false).setSharer c true).sharerList n = e.sharerList n := by
    apply sharerList_congr
    intro d _
    by_cases hd : d = c
    · subst d
      simp [setSharer, h]
    · simp [setSharer, hd]
  rw [he] at hh
  exact hh.symm

/-- The entry, the children's states and the parent's own state agree. -/
structure Agrees (n : Nat) (parent : MESIState) (e : Entry) (child : Nat → MESIState) :
    Prop where
  sharers : ∀ c < n, e.sharers c = true ↔ child c ≠ .I
  numSharers : e.numSharers = (e.sharerList n).length
  exclusive : ∀ c < n, child c ≠ .I → ((child c).isExclusive = true ↔ e.isExclusive = true)
  shared : 2 ≤ e.numSharers → e.exclusive = false
  valid : ∀ c < n, child c ≠ .I → parent ≠ .I
  perm : ∀ c < n, (child c).isExclusive = true → parent.isExclusive = true

namespace Agrees

variable {n c : Nat} {p p' s : MESIState} {e : Entry} {f : Nat → MESIState}

theorem mem_sharerList_iff (h : Agrees n p e f) : c ∈ e.sharerList n ↔ c < n ∧ f c ≠ .I := by
  rw [Entry.mem_sharerList]
  exact and_congr_right fun hc => h.sharers c hc

theorem sharers_eq_false (h : Agrees n p e f) (hc : c < n) : e.sharers c = false ↔ f c = .I := by
  rw [← Bool.not_eq_true, h.sharers c hc, not_not]

theorem eq_I_of_isEmpty (h : Agrees n p e f) (he : e.numSharers = 0) (hc : c < n) : f c = .I := by
  by_contra hne
  have hm := h.mem_sharerList_iff.mpr ⟨hc, hne⟩
  have hl := List.length_pos_of_mem hm
  have := h.numSharers
  omega

/-- An exclusive entry has one sharer and nobody else holds the line. -/
theorem eq_I_of_isExclusive (h : Agrees n p e f) (he : e.isExclusive = true) (hc : c < n)
    (hs : f c ≠ .I) {d : Nat} (hd : d < n) (hdc : d ≠ c) : f d = .I := by
  by_contra hne
  have h1 : e.numSharers = 1 := by
    simp only [Entry.isExclusive, Bool.and_eq_true, beq_iff_eq] at he
    exact he.1
  have hn := h.numSharers
  rw [h1, eq_comm, List.length_eq_one_iff] at hn
  obtain ⟨a, ha⟩ := hn
  have hmc := h.mem_sharerList_iff.mpr ⟨hc, hs⟩
  have hmd := h.mem_sharerList_iff.mpr ⟨hd, hne⟩
  rw [ha, List.mem_singleton] at hmc hmd
  exact hdc (hmd.trans hmc.symm)

/-- Single writer: a child in E or M is the only child with a copy. -/
theorem single_writer (h : Agrees n p e f) (hc : c < n) (hs : (f c).isExclusive = true)
    {d : Nat} (hd : d < n) (hdc : d ≠ c) : f d = .I :=
  h.eq_I_of_isExclusive ((h.exclusive c hc (MESIState.ne_I_of_isExclusive hs)).mp hs) hc
    (MESIState.ne_I_of_isExclusive hs) hd hdc

theorem congr (h : Agrees n p e f) {g : Nat → MESIState} (hg : ∀ c < n, g c = f c) :
    Agrees n p e g where
  sharers c hc := by rw [hg c hc]; exact h.sharers c hc
  numSharers := h.numSharers
  exclusive c hc hne := by
    rw [hg c hc] at hne ⊢
    exact h.exclusive c hc hne
  shared := h.shared
  valid c hc hne := h.valid c hc (by rwa [hg c hc] at hne)
  perm c hc he := h.perm c hc (by rwa [hg c hc] at he)

theorem congr_parent (h : Agrees n p e f) (hv : p ≠ .I → p' ≠ .I)
    (hx : p.isExclusive = true → p'.isExclusive = true) : Agrees n p' e f where
  sharers := h.sharers
  numSharers := h.numSharers
  exclusive := h.exclusive
  shared := h.shared
  valid c hc hne := hv (h.valid c hc hne)
  perm c hc he := hx (h.perm c hc he)

/-- Without an exclusive sharer the parent may lose its own exclusivity. -/
theorem lower_parent (h : Agrees n p e f) (he : e.isExclusive = false) (hp : p' ≠ .I) :
    Agrees n p' e f where
  sharers := h.sharers
  numSharers := h.numSharers
  exclusive := h.exclusive
  shared := h.shared
  valid _ _ _ := hp
  perm c hc hx := by
    have hh := (h.exclusive c hc (MESIState.ne_I_of_isExclusive hx)).mp hx
    simp [he] at hh

theorem of_empty (he : e.numSharers = 0) (hs : ∀ c < n, e.sharers c = false)
    (hf : ∀ c < n, f c = .I) : Agrees n p e f where
  sharers c hc := by simp [hs c hc, hf c hc]
  numSharers := by
    have hl : e.sharerList n = [] := by
      apply List.filter_eq_nil_iff.mpr
      intro c hc
      simp [hs c (List.mem_range.mp hc)]
    simp [he, hl]
  exclusive c hc hne := absurd (hf c hc) hne
  shared h2 := by omega
  valid c hc hne := absurd (hf c hc) hne
  perm c hc hx := absurd (hf c hc) (MESIState.ne_I_of_isExclusive hx)

/-- An entry without sharers agrees with every state of the parent. -/
theorem of_isEmpty (h : Agrees n p e f) (he : e.numSharers = 0) (p' : MESIState) :
    Agrees n p' e f :=
  .of_empty he (fun _ hc => (h.sharers_eq_false hc).mpr (h.eq_I_of_isEmpty he hc))
    (fun _ hc => h.eq_I_of_isEmpty he hc)

theorem drop (h : Agrees n p e f) (hc : c < n) (hs : f c ≠ .I) :
    Agrees n p { e.setSharer c false with numSharers := e.numSharers - 1 }
      (Function.update f c .I) := by
  have hb := (h.sharers c hc).mpr hs
  have hl := Entry.length_sharerList_set_false hc hb
  have hn := h.numSharers
  have hcount : e.numSharers - 1 = ((e.setSharer c false).sharerList n).length := by omega
  refine ⟨?_, hcount, ?_, ?_, ?_, ?_⟩
  · intro d hd
    by_cases hdc : d = c
    · subst d
      simp [Entry.setSharer]
    · simpa [Entry.setSharer, hdc] using h.sharers d hd
  · intro d hd hne
    have hdc : d ≠ c := by rintro rfl; simp at hne
    simp only [Function.update_of_ne hdc] at hne ⊢
    -- two sharers were left, so the flag was already down
    have h2 : 2 ≤ e.numSharers := by
      have hm : d ∈ (e.setSharer c false).sharerList n := by
        simp only [Entry.mem_sharerList, Entry.setSharer, Function.update_of_ne hdc]
        exact ⟨hd, (h.sharers d hd).mpr hne⟩
      have := List.length_pos_of_mem hm
      omega
    have hx := h.shared h2
    rw [h.exclusive d hd hne]
    simp [Entry.isExclusive, Entry.setSharer, hx]
  · intro h2
    exact h.shared (by dsimp only at h2; omega)
  · intro d hd hne
    have hdc : d ≠ c := by rintro rfl; simp at hne
    exact h.valid d hd (by simpa only [Function.update_of_ne hdc] using hne)
  · intro d hd hx
    have hdc : d ≠ c := by rintro rfl; simp at hx
    exact h.perm d hd (by simpa only [Function.update_of_ne hdc] using hx)

theorem grant_exclusive (hc : c < n) (hs : s.isExclusive = true) (hp : p.isExclusive = true)
    (hempty : ∀ d < n, e.sharers d = false) (hf : ∀ d < n, d ≠ c → f d = .I) :
    Agrees n p { e.setSharer c true with exclusive := true, numSharers := 1 }
      (Function.update f c s) := by
  have hlist : (e.setSharer c true).sharerList n = [c] := by
    apply List.perm_singleton.mp
    refine (List.perm_ext_iff_of_nodup (Entry.sharerList_nodup _ _) (by simp)).mpr fun d => ?_
    by_cases hdc : d = c
    · subst d
      simp [Entry.mem_sharerList, Entry.setSharer, hc]
    · simp only [Entry.mem_sharerList, Entry.setSharer, Function.update_of_ne hdc,
        List.mem_singleton, hdc, iff_false, not_and, Bool.not_eq_true]
      exact hempty d
  refine ⟨?_, ?_, ?_, ?_, ?_, ?_⟩
  · intro d hd
    by_cases hdc : d = c
    · subst d
      simp [Entry.setSharer, MESIState.ne_I_of_isExclusive hs]
    · simp [Entry.setSharer, hdc, hempty d hd, hf d hd hdc]
  · change 1 = ((e.setSharer c true).sharerList n).length
    simp [hlist]
  · intro d hd hne
    by_cases hdc : d = c
    · subst d
      simp [Entry.isExclusive, hs]
    · simp [hdc, hf d hd hdc] at hne
  · intro h2
    simp at h2
  · exact fun _ _ _ => MESIState.ne_I_of_isExclusive hp
  · exact fun _ _ _ => hp

theorem grant_shared (h : Agrees n p e f) (he : e.isExclusive = false) (hc : c < n)
    (hf : f c = .I) (hp : p ≠ .I) :
    Agrees n p { e.setSharer c true with numSharers := e.numSharers + 1, exclusive := false }
      (Function.update f c .S) := by
  have hl := Entry.length_sharerList_set_true hc ((h.sharers_eq_false hc).mpr hf)
  refine ⟨?_, ?_, ?_, ?_, ?_, ?_⟩
  · intro d hd
    by_cases hdc : d = c
    · subst d
      simp [Entry.setSharer]
    · simpa [Entry.setSharer, hdc] using h.sharers d hd
  · change e.numSharers + 1 = ((e.setSharer c true).sharerList n).length
    rw [hl, h.numSharers]
  · intro d hd hne
    by_cases hdc : d = c
    · subst d
      simp [Entry.isExclusive]
    · simp only [Function.update_of_ne hdc] at hne ⊢
      have hx := h.exclusive d hd hne
      rw [he] at hx
      simpa [Entry.isExclusive] using hx
  · intro _
    rfl
  · exact fun _ _ _ => hp
  · intro d hd hx
    have hdc : d ≠ c := by rintro rfl; simp at hx
    exact h.perm d hd (by simpa only [Function.update_of_ne hdc] using hx)

theorem upgrade (h : Agrees n p e f) (hs : (f c).isExclusive = true)
    (hs' : s.isExclusive = true) : Agrees n p e (Function.update f c s) := by
  have key (d : Nat) : (Function.update f c s d = .I ↔ f d = .I) ∧
      (Function.update f c s d).isExclusive = (f d).isExclusive := by
    by_cases hdc : d = c
    · subst d
      simp [MESIState.ne_I_of_isExclusive hs, MESIState.ne_I_of_isExclusive hs', hs, hs']
    · simp [hdc]
  refine ⟨fun d hd => ?_, h.numSharers, fun d hd hne => ?_, h.shared, fun d hd hne => ?_,
    fun d hd hx => ?_⟩
  · rw [ne_eq, (key d).1]
    exact h.sharers d hd
  · rw [(key d).2]
    exact h.exclusive d hd ((key d).1.not.mp hne)
  · exact h.valid d hd ((key d).1.not.mp hne)
  · exact h.perm d hd (by rwa [(key d).2] at hx)

end Agrees

end Entry

end ZSim
