import ZSim.WeavePhase

/-! Runs of the weave phase, over any assignment of domains to threads. -/

namespace ZSim

def DomainQueues.pending (q : DomainQueues) : List Nat :=
  q.domPq ++ (q.stalledQueue ++ q.nextStalledQueue)

namespace SimThreadData

variable {r : SimThreadData} {q : DomainQueues}

/-- The domains the thread has still to bring to the limit. -/
def pending (r : SimThreadData) : SimThread → List Nat
  | .single => [r.firstDomain]
  | .domLoop q => q.pending
  | .stalledLoop q => q.pending
  | .finished => []

/-- `numFinished` counts the domains that are in no queue. -/
def Coherent (r : SimThreadData) : SimThread → Prop
  | .single => r.thDomains = 1
  | .domLoop q => q.numFinished + q.pending.length = r.thDomains
  | .stalledLoop q => q.numFinished + q.pending.length = r.thDomains ∧ q.stalledQueue ≠ []
  | .finished => True

/-- How far the thread is from its next turn. -/
def place : SimThread → Nat
  | .domLoop q => if q.stalledQueue = [] then 2 else 1
  | _ => 0

/-- What a thread goes on with, when `l` is pending. -/
structure GoesOn (r : SimThreadData) (l : List Nat) (th : SimThread) : Prop where
  coherent : r.Coherent th
  pending : (r.pending th).Perm l

theorem place_le (th : SimThread) : place th ≤ 2 := by
  cases th with
  | domLoop q =>
    rw [place]
    split <;> omega
  | single => exact Nat.zero_le _
  | stalledLoop q => exact Nat.zero_le _
  | finished => exact Nat.zero_le _

theorem nextRound_goesOn (hsum : q.numFinished + q.pending.length = r.thDomains) :
    GoesOn r q.pending (r.nextRound q) := by
  rw [nextRound]
  split
  · exact ⟨hsum, .refl _⟩
  · next hge =>
    have hnil : q.pending = [] := List.length_eq_zero_iff.mp (by omega)
    refine ⟨trivial, ?_⟩
    rw [hnil]
    exact .refl _

theorem leaveStalled_goesOn (hsum : q.numFinished + q.pending.length = r.thDomains) :
    GoesOn r q.pending (r.leaveStalled q) := by
  rw [leaveStalled]
  split
  · next hnil =>
    have hswap : (DomainQueues.pending { q with
        stalledQueue := q.nextStalledQueue
        nextStalledQueue := q.stalledQueue }) = q.pending := by
      simp only [DomainQueues.pending, hnil, List.append_nil, List.nil_append]
    rw [← hswap] at hsum ⊢
    exact nextRound_goesOn hsum
  · exact nextRound_goesOn hsum

theorem afterStalled_goesOn (hsum : q.numFinished + q.pending.length = r.thDomains) :
    GoesOn r q.pending (r.afterStalled q) := by
  rw [afterStalled]
  split
  · exact leaveStalled_goesOn hsum
  · next hstay => exact ⟨⟨hsum, fun hnil => hstay (.inr hnil)⟩, .refl _⟩

theorem start_goesOn (r : SimThreadData) :
    GoesOn r (List.range' r.firstDomain r.thDomains) r.start := by
  rw [start]
  split
  · next hone =>
    refine ⟨hone, ?_⟩
    rw [hone]
    exact .refl _
  · have hsum : (⟨List.range' r.firstDomain r.thDomains, [], [], 0⟩ : DomainQueues).numFinished +
        (⟨List.range' r.firstDomain r.thDomains, [], [], 0⟩ : DomainQueues).pending.length =
        r.thDomains := by
      simp only [DomainQueues.pending, List.append_nil, List.length_range', Nat.zero_add]
    have hgo := nextRound_goesOn hsum
    simp only [DomainQueues.pending, List.append_nil] at hgo
    exact hgo

/-- With nothing in `domPq` the thread comes nearer to a turn. -/
theorem place_afterStalled (hsum : q.numFinished + q.pending.length = r.thDomains)
    (hempty : q.domPq = []) : place (r.afterStalled q) < place (.domLoop q) := by
  rw [afterStalled, hempty]
  by_cases hnil : q.stalledQueue = []
  · rw [if_pos (.inr hnil), leaveStalled, if_pos hnil, nextRound]
    split
    · next hlt =>
      have hnext : q.nextStalledQueue ≠ [] := by
        intro hnext
        rw [DomainQueues.pending, hempty, hnil, hnext] at hsum
        simp only [List.append_nil, List.length_nil] at hsum
        exact absurd hsum (Nat.ne_of_lt hlt)
      rw [place, place, if_neg hnext, if_pos hnil]
      exact Nat.one_lt_two
    · show 0 < place (.domLoop q)
      rw [place, if_pos hnil]
      exact Nat.two_pos
  · rw [if_neg (by simp [hnil])]
    show 0 < place (.domLoop q)
    rw [place, if_neg hnil]
    exact Nat.one_pos

end SimThreadData

namespace DomainQueues

variable (q : DomainQueues) (d prio : Nat)

theorem pushFromDom_pending : (q.pushFromDom prio d).pending.Perm (d :: q.pending) := by
  rw [pushFromDom]
  split
  · exact .refl _
  · exact List.perm_middle

theorem pushFromStalled_pending : (q.pushFromStalled prio d).pending.Perm (d :: q.pending) := by
  rw [pushFromStalled]
  split
  · exact .refl _
  · simp only [pending]
    rw [← List.append_assoc, ← List.append_assoc]
    exact List.perm_middle

theorem pushFromDom_numFinished : (q.pushFromDom prio d).numFinished = q.numFinished := by
  rw [pushFromDom]
  split <;> rfl

theorem pushFromStalled_numFinished : (q.pushFromStalled prio d).numFinished = q.numFinished := by
  rw [pushFromStalled]
  split <;> rfl

variable {q d}

theorem pop_pending (hd : d ∈ q.domPq) :
    q.pending.Perm (d :: { q with domPq := q.domPq.erase d }.pending) :=
  (List.perm_cons_erase hd).append_right _

theorem back_pending {rest : List Nat} (hback : q.stalledQueue = d :: rest) :
    q.pending.Perm (d :: { q with stalledQueue := rest }.pending) := by
  rw [pending, hback]
  exact List.perm_middle

end DomainQueues

section Steps

variable {E : Type} [DecidableEq E] {limit : Nat} {r : SimThreadData} {D D' : Nat → DomainData E}
  {th th' : SimThread} {a : Option (Nat × Nat)}

/-- What a step of a thread does to the domains it has pending. -/
inductive Effect (limit : Nat) (r : SimThreadData) (D : Nat → DomainData E) (th th' : SimThread) :
    Option (Nat × Nat) → (Nat → DomainData E) → Prop
  | turn {d : Nat} {e : E} {c : Nat} {w : Weave E} {dom : DomainData E} (hd : d ∈ r.pending th)
      (hle : c ≤ limit) (ht : Weave.Turn Weave.simulate limit (D d).weave e c w)
      (hdom : dom.weave = w) (hp : (r.pending th').Perm (r.pending th)) :
      Effect limit r D th th' (some (d, c)) (Function.update D d dom)
  | finish {d : Nat} (hend : WithTop.some limit ≤ (D d).weave.firstCycle)
      (hlast : r.thDomains ≠ 1 → WithTop.some limit < (D d).weave.firstCycle)
      (hp : (r.pending th).Perm (d :: r.pending th')) :
      Effect limit r D th th' none (Function.update D d ((D d).finish limit))
  | move (hp : (r.pending th').Perm (r.pending th))
      (hplace : SimThreadData.place th' < SimThreadData.place th) :
      Effect limit r D th th' none D

theorem ThreadStep.effect (h : ThreadStep limit r D th a D' th') (hok : r.Coherent th) :
    Effect limit r D th th' a D' ∧ r.Coherent th' := by
  cases h with
  | singleTurn hlt hcycle ht hnew =>
    exact ⟨.turn List.mem_cons_self (Nat.le_of_lt hlt) ht.weaken rfl (.refl _), hok⟩
  | singleEnd hend => exact ⟨.finish hend (fun hne => absurd hok hne) (.refl _), trivial⟩
  | @domFinish q d htop hend =>
    have hpop := DomainQueues.pop_pending htop.1
    have hlen := hpop.length_eq
    have hsum : q.numFinished + q.pending.length = r.thDomains := hok
    rw [hlen, List.length_cons] at hsum
    refine ⟨.finish (le_of_lt hend) (fun _ => hend) hpop, ?_⟩
    show q.numFinished + 1 + _ = r.thDomains
    rw [← hsum, Nat.add_assoc, Nat.add_comm 1]
    rfl
  | @domTurn q d e c w htop hle ht =>
    have hpop := DomainQueues.pop_pending htop.1
    have hpush := (DomainQueues.pushFromDom_pending { q with domPq := q.domPq.erase d } d
      (D d).prio).trans hpop.symm
    refine ⟨.turn ?_ hle ht.weaken rfl hpush, ?_⟩
    · exact List.mem_append_left _ htop.1
    · show DomainQueues.numFinished _ + _ = r.thDomains
      rw [DomainQueues.pushFromDom_numFinished, hpush.length_eq]
      exact hok
  | domEmpty hempty =>
    have hgo := SimThreadData.afterStalled_goesOn hok
    exact ⟨.move hgo.pending (SimThreadData.place_afterStalled hok hempty), hgo.coherent⟩
  | @stalledFinish q d rest hback hend =>
    have hpop := DomainQueues.back_pending hback
    have hsum := hok.1
    rw [hpop.length_eq, List.length_cons] at hsum
    have hgo : SimThreadData.GoesOn r _ (r.afterStalled
        { q with stalledQueue := rest, numFinished := q.numFinished + 1 }) :=
      SimThreadData.afterStalled_goesOn (by
        show q.numFinished + 1 + _ = r.thDomains
        rw [← hsum, Nat.add_assoc, Nat.add_comm 1]
        rfl)
    exact ⟨.finish (le_of_lt hend) (fun _ => hend) (hpop.trans (hgo.pending.symm.cons d)),
      hgo.coherent⟩
  | @stalledTurn q d rest e c w hback hle ht =>
    have hpop := DomainQueues.back_pending hback
    have hpush := (DomainQueues.pushFromStalled_pending { q with stalledQueue := rest } d
      (D d).prio).trans hpop.symm
    have hgo := SimThreadData.afterStalled_goesOn (r := r)
      (q := DomainQueues.pushFromStalled { q with stalledQueue := rest } (D d).prio d) (by
        rw [DomainQueues.pushFromStalled_numFinished, hpush.length_eq]
        exact hok.1)
    refine ⟨.turn ?_ hle ht rfl (hgo.pending.trans hpush), hgo.coherent⟩
    refine hpop.mem_iff.mpr List.mem_cons_self

/-- The turns of the domain `d`. -/
def cyclesOf (d : Nat) (tr : List (Nat × Nat)) : List Nat :=
  (tr.filter fun x => x.1 = d).map Prod.snd

theorem mem_cyclesOf {d c : Nat} {tr : List (Nat × Nat)} : c ∈ cyclesOf d tr ↔ (d, c) ∈ tr := by
  rw [cyclesOf, List.mem_map]
  constructor
  · rintro ⟨⟨d', c'⟩, hx, rfl⟩
    obtain ⟨hx, hd⟩ := List.mem_filter.mp hx
    rw [← of_decide_eq_true hd]
    exact hx
  · intro hx
    exact ⟨(d, c), List.mem_filter.mpr ⟨hx, decide_eq_true rfl⟩, rfl⟩

theorem cyclesOf_cons_self (d c : Nat) (tr : List (Nat × Nat)) :
    cyclesOf d ((d, c) :: tr) = c :: cyclesOf d tr := by
  rw [cyclesOf, List.filter_cons_of_pos (by simp)]
  rfl

theorem cyclesOf_cons_of_ne {d d' : Nat} (hne : d' ≠ d) (c : Nat) (tr : List (Nat × Nat)) :
    cyclesOf d' ((d, c) :: tr) = cyclesOf d' tr := by
  rw [cyclesOf, List.filter_cons_of_neg (by simpa using Ne.symm hne)]
  rfl

namespace ContentionSim

variable {numDomains : Nat} {A : SimThreads numDomains} {D₀ : Nat → DomainData E}
  {rank : Nat → E → Nat} {S S₁ S' : ContentionSim E} {n : Nat} {tr : List (Nat × Nat)}
  {may : Nat → Weave E → Weave E → Prop}

/-- Some thread has still to bring the domain `d` to the limit. -/
def Unfinished (A : SimThreads numDomains) (S : ContentionSim E) (d : Nat) : Prop :=
  ∃ t < A.numSimThreads, d ∈ (A.simThreads t).pending (S.threads t)

/-- The domain `d` belongs to a thread that does not run the loop of a single domain. -/
def Shared (A : SimThreads numDomains) (d : Nat) : Prop :=
  ∃ t < A.numSimThreads, (A.simThreads t).firstDomain ≤ d ∧ d < (A.simThreads t).supDomain ∧
    (A.simThreads t).thDomains ≠ 1

/-- What a domain has become after turns at the cycles `cs`. -/
def DomainOk (may : Weave E → Weave E → Prop) (limit : Nat) (w₀ : Weave E) (cs : List Nat)
    (pending shared : Prop) (w : Weave E) : Prop :=
  ∃ w₁, Weave.Turns may limit w₀ cs w₁ ∧
    (pending ∧ w = w₁ ∨
      ¬ pending ∧ (shared → WithTop.some limit < w₁.firstCycle) ∧
        WithTop.some limit ≤ w₁.firstCycle ∧ w = w₁.setCycle limit)

structure PhaseInv (may : Nat → Weave E → Weave E → Prop) (limit : Nat)
    (A : SimThreads numDomains) (D₀ : Nat → DomainData E) (tr : List (Nat × Nat))
    (S : ContentionSim E) : Prop where
  coherent : ∀ t < A.numSimThreads, (A.simThreads t).Coherent (S.threads t)
  nodup : ∀ t < A.numSimThreads, ((A.simThreads t).pending (S.threads t)).Nodup
  range : ∀ t < A.numSimThreads, ∀ d ∈ (A.simThreads t).pending (S.threads t),
    (A.simThreads t).firstDomain ≤ d ∧ d < (A.simThreads t).supDomain
  domains : ∀ d < numDomains,
    DomainOk (may d) limit (D₀ d).weave (cyclesOf d tr) (Unfinished A S d) (Shared A d)
      (S.domains d).weave
  turns : ∀ x ∈ tr, x.1 < numDomains ∧ x.2 ≤ limit

theorem PhaseInv.start (may : Nat → Weave E → Weave E → Prop) (limit : Nat)
    (A : SimThreads numDomains) (D₀ : Nat → DomainData E) :
    PhaseInv may limit A D₀ [] (ContentionSim.start A D₀) := by
  have hmem : ∀ t d, d ∈ (A.simThreads t).pending ((ContentionSim.start A D₀).threads t) ↔
      (A.simThreads t).firstDomain ≤ d ∧ d < (A.simThreads t).supDomain := by
    intro t d
    refine ((A.simThreads t).start_goesOn).pending.mem_iff.trans ?_
    rw [List.mem_range'_1, SimThreadData.thDomains]
    omega
  constructor
  · exact fun t _ => ((A.simThreads t).start_goesOn).coherent
  · exact fun t _ => ((A.simThreads t).start_goesOn).pending.nodup_iff.mpr List.nodup_range'
  · exact fun t _ d hd => (hmem t d).mp hd
  · intro d hd
    obtain ⟨t, ht, hown⟩ := A.owned d hd
    exact ⟨_, .refl, .inl ⟨⟨t, ht, (hmem t d).mpr hown⟩, rfl⟩⟩
  · intro x hx
    cases hx

omit [DecidableEq E] in
/-- Only the thread that steps changes what is pending. -/
theorem pending_update {t d : Nat} {th : SimThread}
    (hd : d ∈ (A.simThreads t).pending th ↔ d ∈ (A.simThreads t).pending (S.threads t)) :
    Unfinished A ⟨D', Function.update S.threads t th⟩ d ↔ Unfinished A S d := by
  refine exists_congr fun t' => and_congr_right fun ht' => ?_
  show d ∈ (A.simThreads t').pending (Function.update S.threads t th t') ↔ _
  by_cases htt : t' = t
  · rw [htt, Function.update_self]
    exact hd
  · rw [Function.update_of_ne htt]

theorem PhaseInv.pending_lt (h : PhaseInv may limit A D₀ tr S) {t d : Nat}
    (ht : t < A.numSimThreads) (hd : d ∈ (A.simThreads t).pending (S.threads t)) : d < numDomains :=
  (h.range t ht d hd).2.trans_le (A.within t ht)

/-- A domain that a thread has brought to the limit is pending nowhere. -/
theorem PhaseInv.not_pending (h : PhaseInv may limit A D₀ tr S) {t d : Nat} {th : SimThread}
    (ht : t < A.numSimThreads)
    (hp : ((A.simThreads t).pending (S.threads t)).Perm (d :: (A.simThreads t).pending th)) :
    ¬ Unfinished A ⟨D', Function.update S.threads t th⟩ d := by
  rintro ⟨t', ht', hd⟩
  have hmem := hp.mem_iff.mpr List.mem_cons_self
  have hnd := hp.nodup_iff.mp (h.nodup t ht)
  change d ∈ (A.simThreads t').pending (Function.update S.threads t th t') at hd
  by_cases htt : t' = t
  · rw [htt, Function.update_self] at hd
    exact (List.nodup_cons.mp hnd).1 hd
  · rw [Function.update_of_ne htt] at hd
    obtain ⟨hle, hlt⟩ := h.range t ht d hmem
    obtain ⟨hle', hlt'⟩ := h.range t' ht' d hd
    exact htt (A.disjoint t' ht' t ht d hle' hlt' hle hlt)

theorem DomainOk.congr {may : Weave E → Weave E → Prop} {w₀ w : Weave E} {cs : List Nat}
    {p p' q : Prop} (hp : p' ↔ p) (h : DomainOk may limit w₀ cs p q w) :
    DomainOk may limit w₀ cs p' q w := by
  rw [DomainOk, hp]
  exact h

theorem PhaseInv.step (h : PhaseInv may limit A D₀ tr S) {t : Nat} (ht : t < A.numSimThreads)
    (heff : Effect limit (A.simThreads t) S.domains (S.threads t) th' a D')
    (hok : (A.simThreads t).Coherent th')
    (hmay : Allowed may a S ⟨D', Function.update S.threads t th'⟩) :
    PhaseInv may limit A D₀ (a.toList ++ tr) ⟨D', Function.update S.threads t th'⟩ := by
  have hmono : ((A.simThreads t).pending th').Subperm ((A.simThreads t).pending (S.threads t)) := by
    cases heff with
    | turn hd hle hturn hdom hp => exact hp.subperm
    | finish hend hlast hp => exact (List.sublist_cons_self _ _).subperm.trans hp.symm.subperm
    | move hp hplace => exact hp.subperm
  have hnodup : ((A.simThreads t).pending th').Nodup := by
    obtain ⟨l, hl, hsub⟩ := hmono
    exact hl.nodup_iff.mp (hsub.nodup (h.nodup t ht))
  have hthreads : ∀ {P : SimThreadData → SimThread → Prop}, P (A.simThreads t) th' →
      (∀ t' < A.numSimThreads, P (A.simThreads t') (S.threads t')) →
      ∀ t' < A.numSimThreads, P (A.simThreads t') (Function.update S.threads t th' t') := by
    intro P hP hall t' ht'
    by_cases htt : t' = t
    · rw [htt, Function.update_self]
      exact hP
    · rw [Function.update_of_ne htt]
      exact hall t' ht'
  constructor
  · exact hthreads hok h.coherent
  · exact hthreads (P := fun r th => (r.pending th).Nodup) hnodup h.nodup
  · exact hthreads (P := fun r th => ∀ d ∈ r.pending th, r.firstDomain ≤ d ∧ d < r.supDomain)
      (fun d hd => h.range t ht d (hmono.subset hd)) h.range
  · intro d hd
    cases heff with
    | @turn d₁ e c w dom hd₁ hle hturn hdom hp =>
      refine DomainOk.congr (pending_update hp.mem_iff) ?_
      show DomainOk _ limit _ _ _ _ (Function.update S.domains d₁ dom d).weave
      obtain ⟨w₁, hw₁, hcase⟩ := h.domains d hd
      by_cases hdd : d = d₁
      · subst hdd
        have hallow : may d (S.domains d).weave (Function.update S.domains d dom d).weave :=
          hmay d c rfl
        rw [Function.update_self, hdom] at hallow
        rw [Function.update_self, hdom]
        rcases hcase with ⟨hin, hw⟩ | ⟨hout, -⟩
        · rw [hw] at hturn hallow
          show DomainOk _ limit _ (cyclesOf d ((d, c) :: tr)) _ _ _
          rw [cyclesOf_cons_self]
          exact ⟨w, hw₁.turn hturn hallow, .inl ⟨hin, rfl⟩⟩
        · exact absurd ⟨t, ht, hd₁⟩ hout
      · rw [Function.update_of_ne hdd]
        show DomainOk _ limit _ (cyclesOf d ((d₁, c) :: tr)) _ _ _
        rw [cyclesOf_cons_of_ne hdd]
        exact ⟨w₁, hw₁, hcase⟩
    | @finish d₁ hend hlast hp =>
      obtain ⟨w₁, hw₁, hcase⟩ := h.domains d hd
      show DomainOk _ limit _ _ _ _ (Function.update S.domains d₁ _ d).weave
      by_cases hdd : d = d₁
      · subst hdd
        rw [Function.update_self]
        rcases hcase with ⟨-, hw⟩ | ⟨hout, -⟩
        · refine ⟨w₁, hw₁, .inr ⟨h.not_pending ht hp, ?_, ?_, ?_⟩⟩
          · rintro ⟨t', ht', hle', hlt', hne⟩
            obtain ⟨hle, hlt⟩ := h.range t ht d (hp.mem_iff.mpr List.mem_cons_self)
            rw [← hw]
            exact hlast (A.disjoint t' ht' t ht d hle' hlt' hle hlt ▸ hne)
          · rw [← hw]
            exact hend
          · rw [← hw]
            rfl
        · exact absurd ⟨t, ht, hp.mem_iff.mpr List.mem_cons_self⟩ hout
      · rw [Function.update_of_ne hdd]
        refine DomainOk.congr (pending_update ?_) ⟨w₁, hw₁, hcase⟩
        rw [hp.mem_iff, List.mem_cons, or_iff_right hdd]
    | move hp hplace => exact (h.domains d hd).congr (pending_update hp.mem_iff)
  · intro x hx
    rcases List.mem_append.mp hx with hx | hx
    · cases heff with
      | turn hd hle hturn hdom hp =>
        rw [List.mem_singleton.mp hx]
        exact ⟨h.pending_lt ht hd, hle⟩
      | finish hend hlast hp => cases hx
      | move hp hplace => cases hx
    · exact h.turns x hx

theorem Run.inv (hr : Run may limit A (ContentionSim.start A D₀) n tr S) :
    PhaseInv may limit A D₀ tr S := by
  induction hr with
  | refl => exact .start may limit A D₀
  | step hr hs hmay ih =>
    cases hs with
    | step ht hs =>
      obtain ⟨heff, hok⟩ := hs.effect (ih.coherent _ ht)
      exact ih.step ht heff hok hmay

end ContentionSim

end Steps

end ZSim
