import ZSim.ZArrayWalk

/-! A zcache refines a finite map. The abstract state is the history of its insertions,
each with the address it displaced: an address is resident when it was inserted and not
displaced since. -/

namespace ZSim

namespace ZArray

variable {Z : ZConfig} {z : ZArray}

theorem relocate_of_notMem {look : Nat → Nat} {c x : Nat} {ps : List Nat} (h : x ∉ ps) :
    relocate look c ps x = look x := by
  induction ps generalizing look with
  | nil => rfl
  | cons p ps ih =>
    have hx : x ≠ p := fun hh => h (by simp [hh])
    cases ps with
    | nil => simp [relocate, hx]
    | cons q ps =>
      rw [relocate, ih (fun hh => h (List.mem_cons_of_mem p hh))]
      simp [hx]

/-- After the swaps a position of the path holds the candidate, if it is where `a` goes,
or the line of a later position, which may stand there. -/
theorem relocate_mem {a : Address} {c : Nat} {ps : List Nat} (hnd : ps.Nodup)
    (hrel : Relocation Z z a ps) :
    ∀ p ∈ ps, (relocate z.lookupArray c ps p = c ∧ ∃ w < Z.ways, p = slot Z w a) ∨
      ∃ q ∈ ps.tail, relocate z.lookupArray c ps p = z.lookupArray q ∧
        ∃ w < Z.ways, p = slot Z w (z.array (z.lookupArray q)) := by
  induction ps generalizing z with
  | nil => simp
  | cons p ps ih =>
    cases ps with
    | nil =>
      intro x hx
      obtain rfl := List.mem_singleton.mp hx
      exact .inl ⟨by simp [relocate], hrel⟩
    | cons q ps =>
      obtain ⟨hp, hnd'⟩ := List.nodup_cons.mp hnd
      let z₁ : ZArray := { z with
        lookupArray := Function.update z.lookupArray p (z.lookupArray q) }
      have hsame (x : Nat) (hx : x ∈ q :: ps) : z₁.lookupArray x = z.lookupArray x := by
        have hne : x ≠ p := fun hh => hp (hh ▸ hx)
        simp [z₁, hne]
      have hrel₁ : Relocation Z z₁ a (q :: ps) :=
        Relocation.congr (z := z) z₁ rfl hsame hrel.2
      intro x hx
      rcases List.mem_cons.mp hx with rfl | hx
      · refine .inr ⟨q, by simp, ?_, hrel.1⟩
        rw [relocate, relocate_of_notMem hp]
        simp
      · rcases ih hnd' hrel₁ x hx with hh | ⟨r, hr, hlook, w, hw, hpos⟩
        · exact .inl hh
        · have hrm : r ∈ q :: ps := List.mem_cons_of_mem q hr
          refine .inr ⟨r, hrm, ?_, w, hw, ?_⟩
          · rw [relocate, ← hsame r hrm]
            exact hlook
          · rw [← hsame r hrm]
            exact hpos

theorem relocate_surj (look : Nat → Nat) (c : Nat) {ps : List Nat} (hnd : ps.Nodup) :
    (ps ≠ [] → ∃ p ∈ ps, relocate look c ps p = c) ∧
      ∀ q ∈ ps.tail, ∃ p ∈ ps, relocate look c ps p = look q := by
  induction ps generalizing look with
  | nil => simp
  | cons p ps ih =>
    cases ps with
    | nil => simp [relocate]
    | cons q ps =>
      obtain ⟨hp, hnd'⟩ := List.nodup_cons.mp hnd
      obtain ⟨hc, ht⟩ := ih (Function.update look p (look q)) hnd'
      refine ⟨fun _ => ?_, fun r hr => ?_⟩
      · obtain ⟨x, hx, hxc⟩ := hc (by simp)
        exact ⟨x, List.mem_cons_of_mem p hx, hxc⟩
      · rcases List.mem_cons.mp hr with rfl | hr'
        · refine ⟨p, by simp, ?_⟩
          rw [relocate, relocate_of_notMem hp]
          simp
        · obtain ⟨x, hx, hxr⟩ := ht r hr'
          have hne : r ≠ p := by
            rintro rfl
            exact hp (List.mem_cons_of_mem q hr')
          refine ⟨x, List.mem_cons_of_mem p hx, ?_⟩
          rw [relocate, hxr]
          simp [hne]

theorem inj_of_surj {n : Nat} {f : Nat → Nat} (hlt : ∀ x < n, f x < n)
    (hsurj : ∀ i < n, ∃ x < n, f x = i) : ∀ x < n, ∀ y < n, f x = f y → x = y := by
  let g : Fin n → Fin n := fun x => ⟨f x, hlt x x.2⟩
  have hg : Function.Surjective g := by
    intro i
    obtain ⟨x, hx, hxi⟩ := hsurj i i.2
    exact ⟨⟨x, hx⟩, Fin.ext hxi⟩
  intro x hx y hy hxy
  have hh := Finite.injective_iff_surjective.mpr hg (show g ⟨x, hx⟩ = g ⟨y, hy⟩ from Fin.ext hxy)
  exact congrArg Fin.val hh

theorem Consistent.congr {z' : ZArray} (h : Consistent Z z) (harr : z'.array = z.array)
    (hlook : z'.lookupArray = z.lookupArray) : Consistent Z z' where
  lt := by rw [hlook]; exact h.lt
  inj := by rw [hlook]; exact h.inj
  surj := by rw [hlook]; exact h.surj
  placed := by rw [hlook, harr]; exact h.placed
  distinct := by rw [harr]; exact h.distinct

theorem consistent_init (Z : ZConfig) : Consistent Z init where
  lt _ h := h
  inj _ _ _ _ h := h
  surj i h := ⟨i, h, rfl⟩
  placed _ _ h := absurd rfl h
  distinct _ _ _ _ h := absurd rfl h

theorem postinsert_spec (h : Consistent Z z) {a : Address} {c : Nat} (hp : Prepared Z z a c)
    (hc : c < numLines Z) (hmiss : ∀ i < numLines Z, z.array i ≠ a) :
    ∃ z', postinsert z a c = some z' ∧ Consistent Z z' ∧
      z'.array = Function.update z.array c a := by
  obtain ⟨p, ps, hps, hpc⟩ := hp.head
  have hnd := hp.nodup
  have hlt := hp.lt
  have hrel := hp.relocation
  rw [hps] at hnd hlt hrel
  let look := relocate z.lookupArray c (p :: ps)
  refine ⟨{ z with lookupArray := look, array := Function.update z.array c a },
    by simp only [postinsert, hps, hpc, if_true, look], ?_, rfl⟩
  -- the candidate stood at the head of the path and nowhere else
  have htail (q : Nat) (hq : q ∈ ps) : z.lookupArray q ≠ c := by
    intro hh
    have heq := h.inj q (hlt q (List.mem_cons_of_mem p hq)) p (hlt p (by simp)) (hh.trans hpc.symm)
    exact (List.nodup_cons.mp hnd).1 (heq ▸ hq)
  have hcases (x : Nat) (hx : x < numLines Z) :
      (look x = c ∧ ∃ w < Z.ways, x = slot Z w a) ∨
      (∃ q < numLines Z, look x = z.lookupArray q ∧ z.lookupArray q ≠ c ∧
        (z.array (z.lookupArray q) ≠ 0 →
          ∃ w < Z.ways, x = slot Z w (z.array (z.lookupArray q)))) := by
    by_cases hm : x ∈ p :: ps
    · rcases relocate_mem (c := c) hnd hrel x hm with hh | ⟨q, hq, hlook, hw⟩
      · exact .inl hh
      · exact .inr ⟨q, hlt q (List.mem_cons_of_mem p hq), hlook, htail q hq, fun _ => hw⟩
    · refine .inr ⟨x, hx, relocate_of_notMem hm, fun hh => ?_, h.placed x hx⟩
      have heq := h.inj x hx p (hlt p (by simp)) (hh.trans hpc.symm)
      simp [heq] at hm
  have hlt' : ∀ x < numLines Z, look x < numLines Z := by
    intro x hx
    rcases hcases x hx with ⟨hh, _⟩ | ⟨q, hq, hh, _⟩
    · rwa [hh]
    · rw [hh]
      exact h.lt q hq
  have hsurj : ∀ i < numLines Z, ∃ x < numLines Z, look x = i := by
    intro i hi
    obtain ⟨q, hq, hqi⟩ := h.surj i hi
    obtain ⟨hhead, hrest⟩ := relocate_surj z.lookupArray c hnd
    by_cases hm : q ∈ p :: ps
    · rcases List.mem_cons.mp hm with rfl | hm
      · obtain ⟨x, hx, hxc⟩ := hhead (by simp)
        exact ⟨x, hlt x hx, hxc.trans (hpc.symm.trans hqi)⟩
      · obtain ⟨x, hx, hxq⟩ := hrest q hm
        exact ⟨x, hlt x hx, hxq.trans hqi⟩
    · exact ⟨q, hq, (relocate_of_notMem hm).trans hqi⟩
  refine ⟨hlt', inj_of_surj hlt' hsurj, hsurj, fun x hx hne => ?_, fun i hi j hj hne heq => ?_⟩
  · rcases hcases x hx with ⟨hh, hw⟩ | ⟨q, _, hh, hqc, hw⟩
    · simpa [hh] using hw
    · simp only [hh, Function.update_of_ne hqc] at hne ⊢
      exact hw hne
  · by_cases hic : i = c <;> by_cases hjc : j = c
    · rw [hic, hjc]
    · subst i
      simp only [Function.update_self, Function.update_of_ne hjc] at heq
      exact absurd heq.symm (hmiss j hj)
    · subst j
      simp only [Function.update_self, Function.update_of_ne hic] at heq
      exact absurd heq (hmiss i hi)
    · simp only [Function.update_of_ne hic, Function.update_of_ne hjc] at hne heq
      exact h.distinct i hi j hj hne heq

theorem lookup_eq_some_iff (h : Consistent Z z) {a : Address} (ha : a ≠ 0) {i : Nat} :
    lookup Z z a = some i ↔ i < numLines Z ∧ z.array i = a := by
  have hfound {j : Nat} (hj : lookup Z z a = some j) : j < numLines Z ∧ z.array j = a := by
    have hm := List.mem_of_find?_eq_some hj
    have hp := List.find?_some hj
    obtain ⟨w, hw, rfl⟩ := List.mem_map.mp hm
    exact ⟨h.lt _ (slot_lt (List.mem_range.mp hw) a), by simpa using hp⟩
  constructor
  · exact hfound
  · rintro ⟨hi, hia⟩
    obtain ⟨pos, hpos, hposi⟩ := h.surj i hi
    obtain ⟨w, hw, hslot⟩ := h.placed pos hpos (by rw [hposi, hia]; exact ha)
    rw [hposi, hia] at hslot
    cases hl : lookup Z z a with
    | none =>
      have hn := List.find?_eq_none.mp hl i
        (List.mem_map.mpr ⟨w, List.mem_range.mpr hw, by rw [← hslot, hposi]⟩)
      simp [hia] at hn
    | some j =>
      obtain ⟨hj, hja⟩ := hfound hl
      rw [h.distinct i hi j hj (by rw [hia]; exact ha) (hia.trans hja.symm)]

theorem lookup_isSome_iff (h : Consistent Z z) {a : Address} (ha : a ≠ 0) :
    (lookup Z z a).isSome = true ↔ ∃ i < numLines Z, z.array i = a := by
  rw [Option.isSome_iff_exists]
  exact exists_congr fun i => lookup_eq_some_iff h ha

/-- The array, the insertion between its two halves with `*wbLineAddr`, and the
insertions so far, newest first, each with the address it displaced. -/
structure State where
  z : ZArray
  pending : Option (Address × Nat × Address)
  history : List (Address × Address)

inductive Op
  | lookup (lineAddr : Address)
  | preinsert (lineAddr : Address) (rankCands : List Nat → Nat)
  | postinsert

variable (Z) in
def step (s : State) : Op → Option State
  | .lookup _ => some s
  | .preinsert a rankCands => (preinsert Z s.z a rankCands).map fun r =>
      { s with z := r.1, pending := some (a, r.2.1, r.2.2) }
  | .postinsert =>
    match s.pending with
    | none => none
    | some (a, candidate, wbLineAddr) => (postinsert s.z a candidate).map fun z =>
        { z := z, pending := none, history := (a, wbLineAddr) :: s.history }

variable (Z) in
/-- Caches insert only what they looked up and missed, and finish an insertion before
the next. -/
def Enabled (s : State) : Op → Prop
  | .lookup a => a ≠ 0
  | .preinsert a rankCands => a ≠ 0 ∧ ZArray.lookup Z s.z a = none ∧ s.pending = none ∧
      PicksOffered rankCands
  | .postinsert => s.pending ≠ none

variable (Z) in
inductive Reachable : State → Prop
  | init : Reachable ⟨init, none, []⟩
  | step {s s' : State} {op : Op} : Reachable s → Enabled Z s op → step Z s op = some s' →
      Reachable s'

def Resident : List (Address × Address) → Address → Prop
  | [], _ => False
  | (a, wb) :: h, x => x = a ∨ (x ≠ wb ∧ Resident h x)

structure Inv (Z : ZConfig) (s : State) : Prop where
  consistent : Consistent Z s.z
  pending : ∀ a c wb, s.pending = some (a, c, wb) → Prepared Z s.z a c ∧ a ≠ 0 ∧
    c < numLines Z ∧ wb = s.z.array c ∧ ∀ i < numLines Z, s.z.array i ≠ a
  resident : ∀ a ≠ 0, Resident s.history a ↔ ∃ i < numLines Z, s.z.array i = a

variable {s₀ : State}

theorem preinsert_step (h : Inv Z s₀) {a : Address} {rankCands : List Nat → Nat}
    (hen : Enabled Z s₀ (.preinsert a rankCands)) :
    ∃ s' best, step Z s₀ (.preinsert a rankCands) = some s' ∧ Inv Z s' ∧
      s'.pending = some (a, best, s₀.z.array best) ∧ s'.z.array = s₀.z.array ∧
      s'.z.lookupArray = s₀.z.lookupArray ∧ s'.history = s₀.history := by
  obtain ⟨ha, hmiss, hnone, hr⟩ := hen
  obtain ⟨z', best, hpre, harr, hlook, hlt, hprep⟩ := preinsert_spec h.consistent a hr
  refine ⟨{ s₀ with z := z', pending := some (a, best, s₀.z.array best) }, best,
    by simp only [step, hpre, Option.map_some], ⟨h.consistent.congr harr hlook, ?_, ?_⟩, rfl, harr,
    hlook, rfl⟩
  · intro a' c wb hp
    simp only [Option.some.injEq, Prod.mk.injEq] at hp
    obtain ⟨rfl, rfl, rfl⟩ := hp
    refine ⟨hprep, ha, hlt, by rw [harr], fun i hi hia => ?_⟩
    rw [harr] at hia
    have hsome := (lookup_isSome_iff h.consistent ha).mpr ⟨i, hi, hia⟩
    simp [hmiss] at hsome
  · intro x hx
    simp only [harr]
    exact h.resident x hx

/-- An insertion displaces exactly the address of the candidate's line. -/
theorem postinsert_step (h : Inv Z s₀) {a : Address} {c : Nat} {wb : Address}
    (hp : s₀.pending = some (a, c, wb)) :
    ∃ s', step Z s₀ .postinsert = some s' ∧ Inv Z s' ∧ s'.history = (a, wb) :: s₀.history ∧
      ∀ x ≠ 0, (∃ i < numLines Z, s'.z.array i = x) ↔
        x = a ∨ (x ≠ wb ∧ ∃ i < numLines Z, s₀.z.array i = x) := by
  obtain ⟨hprep, ha, hc, hwb, hmiss⟩ := h.pending a c wb hp
  obtain ⟨z', hpost, hcons, harr⟩ := postinsert_spec h.consistent hprep hc hmiss
  have hnew (x : Address) (hx : x ≠ 0) : (∃ i < numLines Z, z'.array i = x) ↔
      x = a ∨ (x ≠ wb ∧ ∃ i < numLines Z, s₀.z.array i = x) := by
    constructor
    · rintro ⟨i, hi, hix⟩
      by_cases hic : i = c
      · left
        simpa [harr, hic] using hix.symm
      · right
        rw [harr, Function.update_of_ne hic] at hix
        refine ⟨fun hxw => hic ?_, i, hi, hix⟩
        exact h.consistent.distinct i hi c hc (by rw [hix]; exact hx) (by rw [hix, hxw, hwb])
    · rintro (rfl | ⟨hxw, i, hi, hix⟩)
      · exact ⟨c, hc, by simp [harr]⟩
      · have hic : i ≠ c := by
          rintro rfl
          exact hxw (hix.symm.trans hwb.symm)
        exact ⟨i, hi, by rw [harr, Function.update_of_ne hic]; exact hix⟩
  refine ⟨⟨z', none, (a, wb) :: s₀.history⟩, by simp only [step, hp, hpost, Option.map_some],
    ⟨hcons, by simp, fun x hx => ?_⟩, rfl, hnew⟩
  rw [hnew x hx, Resident, h.resident x hx]

theorem Reachable.inv (h : Reachable Z s₀) : Inv Z s₀ := by
  induction h with
  | init =>
    refine ⟨consistent_init Z, by simp, fun a ha => ⟨False.elim, ?_⟩⟩
    rintro ⟨_, _, rfl⟩
    exact absurd rfl ha
  | @step s s' op _ hen hs ih =>
    cases op with
    | lookup a => exact Option.some.inj hs ▸ ih
    | preinsert a rankCands =>
      obtain ⟨t, _, ht, hinv, _⟩ := preinsert_step ih hen
      exact Option.some.inj (ht.symm.trans hs) ▸ hinv
    | postinsert =>
      obtain ⟨⟨a, c, wb⟩, hp⟩ := Option.ne_none_iff_exists'.mp hen
      obtain ⟨t, ht, hinv, _⟩ := postinsert_step ih hp
      exact Option.some.inj (ht.symm.trans hs) ▸ hinv

theorem Consistent.perm (h : Consistent Z z) :
    ((List.range (numLines Z)).map z.lookupArray).Perm (List.range (numLines Z)) := by
  have hnd : ((List.range (numLines Z)).map z.lookupArray).Nodup :=
    List.Nodup.map_on (fun x hx y hy hxy =>
      h.inj x (List.mem_range.mp hx) y (List.mem_range.mp hy) hxy) List.nodup_range
  apply (List.perm_ext_iff_of_nodup hnd List.nodup_range).mpr
  intro i
  simp only [List.mem_map, List.mem_range]
  constructor
  · rintro ⟨pos, hpos, rfl⟩
    exact h.lt pos hpos
  · intro hi
    exact h.surj i hi

/-- In every reachable state the lookup array is a permutation, resident addresses are
distinct and at a position of their own, lookups agree with the history, a replacement
ends inside its scratch arrays with a duplicate-free path from the chosen candidate, and
an insertion loses exactly the address it reported. -/
theorem reachable_refines_map (h : Reachable Z s₀) :
    ((List.range (numLines Z)).map s₀.z.lookupArray).Perm (List.range (numLines Z)) ∧
    (∀ i < numLines Z, s₀.z.array i ≠ 0 →
      ∃ w < Z.ways, s₀.z.lookupArray (slot Z w (s₀.z.array i)) = i) ∧
    (∀ i < numLines Z, ∀ j < numLines Z, s₀.z.array i ≠ 0 → s₀.z.array i = s₀.z.array j → i = j) ∧
    (∀ a ≠ 0, (∀ i, lookup Z s₀.z a = some i ↔ i < numLines Z ∧ s₀.z.array i = a) ∧
      ((lookup Z s₀.z a).isSome = true ↔ Resident s₀.history a)) ∧
    (∀ a rankCands, Enabled Z s₀ (.preinsert a rankCands) →
      ∃ s' best, step Z s₀ (.preinsert a rankCands) = some s' ∧
        s'.pending = some (a, best, s₀.z.array best) ∧ s'.z.swapArray.Nodup ∧
        s'.z.swapArray.length ≤ Z.cands / Z.ways + 2 ∧
        s'.z.swapArray.head?.map s'.z.lookupArray = some best) ∧
    (∀ a c wb, s₀.pending = some (a, c, wb) → ∃ s', step Z s₀ .postinsert = some s' ∧
      ∀ x ≠ 0, (lookup Z s'.z x).isSome = true ↔
        x = a ∨ (x ≠ wb ∧ (lookup Z s₀.z x).isSome = true)) := by
  have hi := h.inv
  have hc := hi.consistent
  refine ⟨hc.perm, ?_, hc.distinct, ?_, ?_, ?_⟩
  · intro i hin hne
    obtain ⟨pos, hpos, rfl⟩ := hc.surj i hin
    obtain ⟨w, hw, hslot⟩ := hc.placed pos hpos hne
    exact ⟨w, hw, by rw [← hslot]⟩
  · intro a ha
    refine ⟨fun i => lookup_eq_some_iff hc ha, ?_⟩
    rw [lookup_isSome_iff hc ha, hi.resident a ha]
  · intro a rankCands hen
    obtain ⟨s', best, hs, hinv, hp, _⟩ := preinsert_step hi hen
    obtain ⟨hprep, _⟩ := hinv.pending _ _ _ hp
    obtain ⟨p, ps, hps, hpb⟩ := hprep.head
    exact ⟨s', best, hs, hp, hprep.nodup, hprep.length, by simp [hps, hpb]⟩
  · intro a c wb hp
    obtain ⟨s', hs, hinv, _, hx⟩ := postinsert_step hi hp
    refine ⟨s', hs, fun x hne => ?_⟩
    rw [lookup_isSome_iff hinv.consistent hne, lookup_isSome_iff hc hne]
    exact hx x hne

variable (Z) in
/-- Whole insertions, one after the other, each of an address that missed. -/
def insertAll (s : State) : List (Address × (List Nat → Nat)) → Option State
  | [] => some s
  | (a, rankCands) :: xs =>
    if a ≠ 0 ∧ lookup Z s.z a = none then
      ((step Z s (.preinsert a rankCands)).bind (step Z · .postinsert)).bind (insertAll · xs)
    else none

theorem step_postinsert_pending (hs : step Z s₀ .postinsert = some s₁) : s₁.pending = none := by
  rw [step] at hs
  split at hs
  · cases hs
  · obtain ⟨z, -, rfl⟩ := Option.map_eq_some_iff.mp hs
    rfl

theorem Reachable.insertAll {xs : List (Address × (List Nat → Nat))} (h : Reachable Z s₀)
    (hp : s₀.pending = none) (hpicks : ∀ x ∈ xs, PicksOffered x.2)
    (hs : insertAll Z s₀ xs = some s₁) : Reachable Z s₁ := by
  induction xs generalizing s₀ with
  | nil =>
    cases hs
    exact h
  | cons x xs ih =>
    obtain ⟨a, rankCands⟩ := x
    rw [ZArray.insertAll] at hs
    split at hs
    · next hmiss =>
      obtain ⟨s₂, hinserted, hrest⟩ := Option.bind_eq_some_iff.mp hs
      obtain ⟨s', hpre, hpost⟩ := Option.bind_eq_some_iff.mp hinserted
      have hpick := hpicks _ List.mem_cons_self
      have hen : Enabled Z s₀ (.preinsert a rankCands) := ⟨hmiss.1, hmiss.2, hp, hpick⟩
      have h' : Reachable Z s' := h.step hen hpre
      have hen' : Enabled Z s' .postinsert := by
        obtain ⟨r, -, rfl⟩ := Option.map_eq_some_iff.mp hpre
        exact Option.some_ne_none _
      exact ih (h'.step hen' hpost) (step_postinsert_pending hpost)
        (fun x hx => hpicks x (List.mem_cons_of_mem _ hx)) hrest
    · cases hs

/-- Two ways of two sets, hashed by neighbouring bits of the address. -/
def skewedConfig : ZConfig where
  ways := 2
  cands := 4
  numSets := 2
  hash w a := a / 2 ^ w
  one_lt_ways := Nat.one_lt_two
  ways_le_cands := Nat.le_add_left 2 2
  isPow2 := ⟨1, rfl⟩

theorem picksOffered_headD : PicksOffered fun l => l.headD 0 := by
  intro l hl
  cases l with
  | nil => exact absurd rfl hl
  | cons x xs => simp

theorem picksOffered_getLastD : PicksOffered fun l => l.getLastD 0 := by
  intro l hl
  show l.getLastD 0 ∈ l
  rw [List.getLastD_eq_getLast?, List.getLast?_eq_some_getLast hl]
  exact List.getLast_mem hl

/-- Insertions of 4, 6 and 5, of 7, which moves 5 to its other position, and of 12, which moves
it back and evicts 7. -/
def relocations : List (Address × (List Nat → Nat)) :=
  [(4, (·.headD 0)), (6, (·.getLastD 0)), (5, (·.headD 0)), (7, (·.getLastD 0)),
    (12, (·.getLastD 0))]

theorem reachable_refines_map_relocations : ∃ s, Reachable skewedConfig s ∧
    s.history = [(12, 7), (7, 0), (5, 0), (6, 0), (4, 0)] ∧ s.z.swapArray = [1, 2] ∧
    (lookup skewedConfig s.z 5).isSome = true ∧ ¬ (lookup skewedConfig s.z 7).isSome = true := by
  have hruns : (insertAll skewedConfig ⟨init, none, []⟩ relocations).map
      (fun s => (s.history, s.z.swapArray)) =
        some ([(12, 7), (7, 0), (5, 0), (6, 0), (4, 0)], [1, 2]) := by decide +kernel
  obtain ⟨s, hs, hout⟩ := Option.map_eq_some_iff.mp hruns
  obtain ⟨hhistory, hswaps⟩ := Prod.mk.inj hout
  have hpicks : ∀ x ∈ relocations, PicksOffered x.2 := by
    simp only [relocations, List.forall_mem_cons, List.not_mem_nil, false_implies, implies_true,
      and_true]
    exact ⟨picksOffered_headD, picksOffered_getLastD, picksOffered_headD, picksOffered_getLastD,
      picksOffered_getLastD⟩
  have h : Reachable skewedConfig s := Reachable.init.insertAll rfl hpicks hs
  obtain ⟨-, -, -, hlookup, -⟩ := reachable_refines_map h
  refine ⟨s, h, hhistory, hswaps, (hlookup 5 (by decide)).2.mpr ?_,
    mt (hlookup 7 (by decide)).2.mp ?_⟩
  · rw [hhistory]
    simp [Resident]
  · rw [hhistory]
    simp [Resident]

end ZArray

end ZSim
