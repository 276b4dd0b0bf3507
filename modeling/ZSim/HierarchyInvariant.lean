import ZSim.HierarchyInvalidate

/-! The invariant of a tree of inclusive caches, and what one segment of an access
does to dirty data: it stays in some cache above, or is handed to the level above the
root. -/

namespace ZSim

namespace Event

/-- The event hands dirty data to the level above the root. -/
def handsUp : Event → Bool
  | .received none req _ skip => req.type == .PUTX && !skip
  | .invalidated [] _ reqWriteback => reqWriteback
  | _ => false

def isWrite : Event → Bool
  | .wrote _ => true
  | _ => false

/-- Cache `q` handed its dirty copy over: its invalidation reported it, or its PUTX
was received. -/
def HandsOver (q : Path) : Event → Prop
  | .invalidated p _ reqWriteback => p = q ∧ reqWriteback = true
  | .received up req _ skip =>
    up = q.tail? ∧ req.state = some q ∧ req.type = .PUTX ∧ skip = false
  | _ => False

end Event

namespace Hierarchy

/-- The line was written after the level above last got its data. -/
def unsaved : List Event → Bool
  | [] => false
  | e :: l => e.isWrite || (!e.handsUp && unsaved l)

theorem unsaved_of_append {l l' : List Event} (hl : ∀ e ∈ l, e.isWrite = false)
    (h : unsaved (l ++ l') = true) : unsaved l' = true ∧ ∀ e ∈ l, e.handsUp = false := by
  induction l with
  | nil => exact ⟨h, by simp⟩
  | cons e l ih =>
    simp only [List.cons_append, unsaved, hl e (by simp), Bool.false_or, Bool.and_eq_true,
      Bool.not_eq_true'] at h
    obtain ⟨hu, hh⟩ := ih (fun e' he' => hl e' (by simp [he'])) h.2
    refine ⟨hu, fun e' he' => ?_⟩
    rcases List.mem_cons.mp he' with rfl | he'
    · exact h.1
    · exact hh e' he'

/-- From `s` to `s'`, with the events `l`, no dirty copy was dropped. -/
structure Moved (s : Hierarchy) (l : List Event) (s' : Hierarchy) : Prop where
  log : s'.log = l ++ s.log
  handed : ∀ q, s.st q = .M → s'.st q ≠ .M → ∃ e ∈ l, e.HandsOver q
  kept : ∀ q, s.st q = .M → s'.st q ≠ .M →
    (∃ r, StrictlyBelow r q ∧ s'.st r = .M) ∨ ∃ e ∈ l, e.handsUp = true
  written : unsaved s'.log = true →
    (∃ q, s'.st q = .M) ∨ (unsaved s.log = true ∧ ∀ e ∈ l, e.handsUp = false)

theorem StrictlyBelow.trans {p q r : Path} (h : StrictlyBelow p q) (h' : StrictlyBelow q r) :
    StrictlyBelow p r := by
  obtain ⟨c, hc⟩ := h
  exact ⟨c, hc.trans h'.suffix⟩

namespace Moved

variable {s s' s'' : Hierarchy} {l l' : List Event}

theorem of_st (hlog : s'.log = l ++ s.log) (hst : ∀ q, s.st q = .M → s'.st q = .M)
    (hl : ∀ e ∈ l, e.isWrite = false) : Moved s l s' where
  log := hlog
  handed q h h' := absurd (hst q h) h'
  kept q h h' := absurd (hst q h) h'
  written h := .inr (unsaved_of_append hl (hlog ▸ h))

theorem trans (h : Moved s l s') (h' : Moved s' l' s'') : Moved s (l' ++ l) s'' where
  log := by rw [h'.log, h.log, List.append_assoc]
  handed q h1 h2 := by
    by_cases hq : s'.st q = .M
    · obtain ⟨e, he, hh⟩ := h'.handed q hq h2
      exact ⟨e, List.mem_append_left _ he, hh⟩
    · obtain ⟨e, he, hh⟩ := h.handed q h1 hq
      exact ⟨e, List.mem_append_right _ he, hh⟩
  kept q h1 h2 := by
    -- the line went up to `r` first, and perhaps further from there
    have second (r : Path) (hr : s'.st r = .M) :
        s''.st r = .M ∨ (∃ r', StrictlyBelow r' r ∧ s''.st r' = .M) ∨
          ∃ e ∈ l' ++ l, e.handsUp = true := by
      by_cases hr' : s''.st r = .M
      · exact .inl hr'
      · rcases h'.kept r hr hr' with hh | ⟨e, he, hh⟩
        · exact .inr (.inl hh)
        · exact .inr (.inr ⟨e, List.mem_append_left _ he, hh⟩)
    by_cases hq : s'.st q = .M
    · rcases second q hq with hh | hh | hh
      · exact absurd hh h2
      · exact .inl hh
      · exact .inr hh
    · rcases h.kept q h1 hq with ⟨r, hr, hM⟩ | ⟨e, he, hh⟩
      · rcases second r hM with hh | ⟨r', hr', hh⟩ | hh
        · exact .inl ⟨r, hr, hh⟩
        · exact .inl ⟨r', hr'.trans hr, hh⟩
        · exact .inr hh
      · exact .inr ⟨e, List.mem_append_right _ he, hh⟩
  written hu := by
    rcases h'.written hu with hM | ⟨hu', hl'⟩
    · exact .inl hM
    · rcases h.written hu' with ⟨q, hq⟩ | ⟨hu, hl⟩
      · by_cases hq' : s''.st q = .M
        · exact .inl ⟨q, hq'⟩
        · rcases h'.kept q hq hq' with ⟨r, _, hr⟩ | ⟨e, he, hh⟩
          · exact .inl ⟨r, hr⟩
          · simp [hl' e he] at hh
      · refine .inr ⟨hu, fun e he => ?_⟩
        rcases List.mem_append.mp he with he | he
        · exact hl' e he
        · exact hl e he

/-- Invalidations below `p` whose report makes `p` dirty. The run may start in a state
`t` with fewer dirty lines than the invalidations found. -/
theorem of_eff {t : Hierarchy} {p : Path} {b : Bool} (ev : List Event)
    (h : Eff (StrictlyBelow p) s b s') (ht : t.log = s.log)
    (htst : ∀ r, t.st r = .M → s.st r = .M) (hb : b = true → s''.st p = .M)
    (hst : ∀ r, t.st r = .M → s'.st r = .M → s''.st r = .M)
    (hlog : s''.log = ev ++ s'.log) (hev : ∀ e ∈ ev, e.isWrite = false) :
    ∃ l, Moved t l s'' := by
  obtain ⟨l, hl, he, hM⟩ := h.log
  have lost {q : Path} (h1 : t.st q = .M) (h2 : s''.st q ≠ .M) : s'.st q ≠ .M :=
    fun hq => h2 (hst q h1 hq)
  have hall : ∀ e ∈ ev ++ l, e.isWrite = false := fun e hel => by
    rcases List.mem_append.mp hel with hel | hel
    · exact hev e hel
    · obtain ⟨r, type, wb, _, rfl⟩ := he e hel
      rfl
  have hlog' : s''.log = (ev ++ l) ++ t.log := by rw [hlog, hl, ht, List.append_assoc]
  refine ⟨ev ++ l, hlog', fun q h1 h2 => ?_, fun q h1 h2 => ?_,
    fun hu => .inr (unsaved_of_append hall (hlog' ▸ hu))⟩
  · obtain ⟨type, ht⟩ := hM q (htst q h1) (lost h1 h2)
    exact ⟨_, List.mem_append_right _ ht, rfl, rfl⟩
  · have hq : StrictlyBelow p q := by
      by_contra hn
      exact lost h1 h2 ((h.st q hn).trans (htst q h1))
    exact .inl ⟨p, hq, hb (h.dirty q (htst q h1) (lost h1 h2))⟩

end Moved

variable {T : CacheTree}

/-- What an access is waiting for is consistent with the caches below. -/
def PurposeOk (T : CacheTree) (s : Hierarchy) (p : Path) (P : Pending) : Prop :=
  match P.purpose with
  | .core => isGet P.req.type = true
  | .evict => isPut P.req.type = true ∧ (s.dir p).numSharers = 0
  | .forward _ => False
  | .serve c type => c < T.fanout p ∧ isGet type = true ∧ P.req.type = type ∧
      ∃ Q, s.pend (c :: p) = some Q ∧ Q.req.type = type

/-- An access in flight has only been overtaken by invalidations. -/
structure WaitOk (T : CacheTree) (s : Hierarchy) (p : Path) (P : Pending) : Prop where
  state : P.req.state = some p
  flags : P.req.flags = 0#32
  issued : issuable P.req.type P.req.initialState = true
  lowered : Lowered P.req.initialState (s.st p)
  resident : s.resident p = true
  purpose : PurposeOk T s p P

structure Inv (T : CacheTree) (s : Hierarchy) : Prop where
  line : ∀ r, AgreesAt T s r
  wait : ∀ p P, s.pend p = some P → WaitOk T s p P

theorem PurposeOk.mono {s s' : Hierarchy} {p : Path} {P : Pending} (h : PurposeOk T s p P)
    (hdir : (s.dir p).numSharers = 0 → (s'.dir p).numSharers = 0)
    (hpend : ∀ c Q, s.pend (c :: p) = some Q → s'.pend (c :: p) = some Q) :
    PurposeOk T s' p P := by
  cases hp : P.purpose with
  | core => simpa [PurposeOk, hp] using h
  | evict =>
    simp only [PurposeOk, hp] at h ⊢
    exact ⟨h.1, hdir h.2⟩
  | forward c => simp [PurposeOk, hp] at h
  | serve c type =>
    simp only [PurposeOk, hp] at h ⊢
    obtain ⟨hc, hg, ht, Q, hQ, hQt⟩ := h
    exact ⟨hc, hg, ht, Q, hpend c Q hQ, hQt⟩

theorem WaitOk.mono {s s' : Hierarchy} {p : Path} {P : Pending} (h : WaitOk T s p P)
    (hst : Lowered (s.st p) (s'.st p)) (hres : s'.resident p = s.resident p)
    (hdir : (s.dir p).numSharers = 0 → (s'.dir p).numSharers = 0)
    (hpend : ∀ c Q, s.pend (c :: p) = some Q → s'.pend (c :: p) = some Q) : WaitOk T s' p P where
  state := h.state
  flags := h.flags
  issued := h.issued
  lowered := h.lowered.trans hst
  resident := hres.trans h.resident
  purpose := h.purpose.mono hdir hpend

theorem WaitOk.numSharers {s : Hierarchy} {p : Path} {P : Pending} (h : WaitOk T s p P)
    (hp : isPut P.req.type = true) : (s.dir p).numSharers = 0 := by
  have hh := h.purpose
  have hg : isGet P.req.type = false := by
    cases ht : P.req.type <;> simp [ht, isPut] at hp <;> rfl
  cases hpp : P.purpose with
  | core => simp [PurposeOk, hpp, hg] at hh
  | evict =>
    simp only [PurposeOk, hpp] at hh
    exact hh.2
  | forward c => simp [PurposeOk, hpp] at hh
  | serve c type =>
    simp only [PurposeOk, hpp] at hh
    rw [← hh.2.2.1, hg] at hh
    simp at hh

theorem WaitOk.not_isPrefetch {s : Hierarchy} {p : Path} {P : Pending} (h : WaitOk T s p P) :
    P.req.isSet MemReq.PREFETCH = false := by
  simp [MemReq.isSet, h.flags]

/-- A silent E to M transition keeps every directory, the parent's included. -/
theorem agreesAt_setState_M {s : Hierarchy} (h : ∀ r, AgreesAt T s r) {p : Path}
    (hx : (s.st p).isExclusive = true) (r : Path) : AgreesAt T (s.setState p .M) r := by
  obtain ⟨hA, hres⟩ := h r
  refine ⟨?_, fun hne => ?_⟩
  · have hchild : (fun c => (s.setState p .M).st (c :: r)) =
        (fun c => if c :: r = p then .M else s.st (c :: r)) := by
      funext c
      by_cases hc : c :: r = p <;> simp [hc]
    rw [hchild]
    have hparent : Entry.Agrees (T.fanout r) ((s.setState p .M).st r) (s.dir r)
        (fun c => s.st (c :: r)) := by
      by_cases hr : r = p
      · subst r
        exact hA.congr_parent (by simp) (by simp)
      · simpa [hr] using hA
    by_cases hp : ∃ c, c :: r = p
    · obtain ⟨c, rfl⟩ := hp
      have hu := hparent.upgrade (c := c) (s := .M) hx rfl
      exact hu.congr fun d _ => by by_cases hd : d = c <;> simp [hd]
    · have hn (c : Nat) : c :: r ≠ p := fun hc => hp ⟨c, hc⟩
      simpa [hn] using hparent
  · by_cases hr : r = p
    · subst r
      exact hres (MESIState.ne_I_of_isExclusive hx)
    · exact hres (by simpa [hr] using hne)

def Granting (type : AccessType) (x : MESIState) : Prop :=
  MESIBottomCC.grantOk type x = true ∧ (isPut type = true → x = .I)

/-- A cache whose request is answered with `x` still agrees with its own children. -/
theorem agrees_granted {n : Nat} {p x : MESIState} {e : Entry} {f : Nat → MESIState}
    {type : AccessType} (h : e.Agrees n p f) (hr : isGet type = true → Ready type p) (hg : Granting type x)
    (hput : isPut type = true → e.numSharers = 0) : e.Agrees n x f := by
  cases type with
  | GETS =>
    have hI : p = .I := hr rfl
    exact h.congr_parent (by simp [hI]) (by simp [hI])
  | GETX =>
    have hM : x = .M := by simpa [MESIBottomCC.grantOk] using hg.1
    exact h.congr_parent (by simp [hM]) (by simp [hM])
  | PUTS => exact h.of_isEmpty (hput rfl) x
  | PUTX => exact h.of_isEmpty (hput rfl) x

end Hierarchy

end ZSim
