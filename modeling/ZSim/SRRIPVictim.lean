import ZSim.SRRIPRepl

/-! Which line SRRIP chooses in the states its calls lead to. A candidate that is listed twice ages
twice in a pass. -/

namespace ZSim

namespace SRRIPReplPolicy

inductive Call where
  | update (id : Nat)
  | rank (cands : List Nat)
  | replaced (id : Nat)
  deriving DecidableEq

/-- A rank without candidates does not end. -/
def step (G : SRRIPConfig) (rp : SRRIPReplPolicy) : Call → Option SRRIPReplPolicy
  | .update id => some (rp.update id)
  | .rank cands => (rp.rank G cands).map fun x => x.1
  | .replaced id => some (rp.replaced G id)

def run (G : SRRIPConfig) (rp : SRRIPReplPolicy) (calls : List Call) : Option SRRIPReplPolicy :=
  calls.foldlM (step G) rp

def Bounded (G : SRRIPConfig) (rp : SRRIPReplPolicy) : Prop := ∀ id, rp.rrpv id ≤ G.MAX_RRPV

/-- The victim is the first of the candidates with the largest `rrpv`, and each candidate ages by
what that one lacks to the maximum. -/
def ChoosesOldest (G : SRRIPConfig) (rp : SRRIPReplPolicy) (cands : List Nat) : Prop :=
  ∃ rp' v, rp.rank G cands = some (rp', v) ∧ cands.argmax rp.rrpv = some v ∧
    (∀ c ∈ cands, rp'.rrpv c = rp.rrpv c + (G.MAX_RRPV - rp.rrpv v)) ∧
    ∀ c, c ∉ cands → rp'.rrpv c = rp.rrpv c

/-- An inserted line starts one below the maximum, and its first hit takes it to 0. -/
def InsertsLong (G : SRRIPConfig) (rp : SRRIPReplPolicy) : Prop :=
  ∀ id, ((rp.replaced G id).update id).rrpv id = G.MAX_RRPV - 1 ∧
    ∀ calls rp', (∀ call ∈ calls, call ≠ .replaced id) →
      run G ((rp.replaced G id).update id) calls = some rp' → (rp'.update id).rrpv id = 0

/-- There is a number of passes before which no candidate is at the maximum, and after which each is
as much older as the oldest was below it. A pass ages a candidate by how often it is listed. -/
def AgesAlike (G : SRRIPConfig) (rp : SRRIPReplPolicy) (cands : List Nat) : Prop :=
  ∃ p, ∀ v ∈ cands.argmax rp.rrpv, ∀ c ∈ cands,
    (∀ q < p, rp.rrpv c + q * cands.count c < G.MAX_RRPV) ∧
    min G.MAX_RRPV (rp.rrpv c + p * cands.count c) = rp.rrpv c + (G.MAX_RRPV - rp.rrpv v)

variable {G : SRRIPConfig} {rp rp' : SRRIPReplPolicy} {cands : List Nat}

theorem Bounded.step (h : Bounded G rp) {call : Call} (hs : rp.step G call = some rp') :
    Bounded G rp' := by
  cases call with
  | update id =>
    obtain rfl := Option.some.inj hs
    intro c
    by_cases hins : rp.wasInserted id = true
    · simpa [update, hins] using h c
    · by_cases hc : c = id
      · simp [update, hins, hc]
      · simpa [update, hins, hc] using h c
  | rank cands =>
    obtain ⟨⟨rp₁, v⟩, hrank, rfl⟩ := Option.map_eq_some_iff.mp hs
    have hne : cands ≠ [] := by
      rintro rfl
      obtain ⟨x, hx, -⟩ := Option.map_eq_some_iff.mp ((rank_eq rp []).symm.trans hrank)
      have hnone : ∀ fuel rrpv, search G [] fuel rrpv = none := by
        intro fuel
        induction fuel with
        | zero => exact fun _ => rfl
        | succ fuel ih => exact fun rrpv => ih _
      rw [hnone] at hx
      cases hx
    obtain ⟨p, w, heq, -⟩ := rank_spec h hne
    obtain ⟨rfl, -⟩ := Prod.mk.inj (Option.some.inj (hrank.symm.trans heq))
    exact fun c => Nat.min_le_left _ _
  | replaced id =>
    obtain rfl := Option.some.inj hs
    intro c
    by_cases hc : c = id
    · simp [replaced, hc]
    · simpa [replaced, hc] using h c

theorem Bounded.run (h : Bounded G rp) {calls : List Call} (hrun : rp.run G calls = some rp') :
    Bounded G rp' := by
  induction calls generalizing rp with
  | nil =>
    obtain rfl := Option.some.inj hrun
    exact h
  | cons call calls ih =>
    obtain ⟨rp₁, hstep, hrest⟩ := Option.bind_eq_some_iff.mp hrun
    exact ih (h.step hstep) hrest

theorem Bounded.init : Bounded G (init G) := fun _ => Nat.sub_le _ _

theorem step_wasInserted {call : Call} {id : Nat} (hcall : call ≠ .replaced id)
    (h : rp.wasInserted id = false) (hs : rp.step G call = some rp') :
    rp'.wasInserted id = false := by
  cases call with
  | update x =>
    obtain rfl := Option.some.inj hs
    by_cases hins : rp.wasInserted x = true
    · by_cases hx : id = x
      · simp [update, hins, hx]
      · simpa [update, hins, hx] using h
    · simpa [update, hins] using h
  | rank cands =>
    obtain ⟨⟨rp₁, v⟩, hrank, rfl⟩ := Option.map_eq_some_iff.mp hs
    obtain ⟨x, -, hx⟩ := Option.map_eq_some_iff.mp ((rank_eq rp cands).symm.trans hrank)
    obtain ⟨rfl, -⟩ := Prod.mk.inj hx
    exact h
  | replaced x =>
    obtain rfl := Option.some.inj hs
    have hne : id ≠ x := fun hx => hcall (hx ▸ rfl)
    simpa [replaced, hne] using h

theorem run_wasInserted {calls : List Call} {id : Nat} (hcalls : ∀ call ∈ calls, call ≠ .replaced id)
    (h : rp.wasInserted id = false) (hrun : rp.run G calls = some rp') :
    rp'.wasInserted id = false := by
  induction calls generalizing rp with
  | nil =>
    obtain rfl := Option.some.inj hrun
    exact h
  | cons call calls ih =>
    obtain ⟨rp₁, hstep, hrest⟩ := Option.bind_eq_some_iff.mp hrun
    have hfirst := step_wasInserted (hcalls call List.mem_cons_self) h hstep
    exact ih (fun x hx => hcalls x (List.mem_cons_of_mem _ hx)) hfirst hrest

theorem insertsLong (rp : SRRIPReplPolicy) : InsertsLong G rp := by
  intro id
  have hupdate : (rp.replaced G id).update id =
      { rp.replaced G id with wasInserted := Function.update (rp.replaced G id).wasInserted id false } :=
    if_pos (Function.update_self ..)
  rw [hupdate]
  refine ⟨Function.update_self .., fun calls rp' hcalls hrun => ?_⟩
  have hflag := run_wasInserted hcalls (Function.update_self ..) hrun
  simp [update, hflag]

/-- The first of the oldest candidates is the first at the maximum once all have aged alike. -/
theorem find?_eq_argmax {f : Nat → Nat} {v : Nat} (hmax : cands.argmax rp.rrpv = some v)
    (hf : ∀ c ∈ cands, f c = rp.rrpv c + (G.MAX_RRPV - rp.rrpv v)) (hv : rp.rrpv v ≤ G.MAX_RRPV) :
    (cands.find? fun c => f c = G.MAX_RRPV) = some v := by
  obtain ⟨hmem, hle, hfirst⟩ := List.mem_argmax_iff.mp hmax
  have hiff : ∀ c ∈ cands, f c = G.MAX_RRPV ↔ rp.rrpv v ≤ rp.rrpv c := by
    intro c hc
    have hcv := hle c hc
    rw [hf c hc]
    omega
  obtain ⟨w, hw⟩ := Option.isSome_iff_exists.mp (List.find?_isSome.mpr
    ⟨v, hmem, by simpa using (hiff v hmem).mpr le_rfl⟩ :
      (cands.find? fun c => f c = G.MAX_RRPV).isSome = true)
  obtain ⟨hfw, before, after, rfl, hbefore⟩ := List.find?_eq_some_iff_append.mp hw
  rw [hw]
  have hwmem : w ∈ before ++ w :: after := by simp
  have hidx := hfirst w hwmem ((hiff w hwmem).mp (by simpa using hfw))
  have hvbefore : v ∉ before := by
    intro hv'
    have := hbefore v hv'
    simp [(hiff v hmem).mpr le_rfl] at this
  have hwbefore : w ∉ before := by
    intro hw'
    have := hbefore w hw'
    simp [hfw] at this
  by_contra hne
  have hvw : v ≠ w := fun h => hne (by rw [h])
  rw [List.idxOf_append_of_notMem hvbefore, List.idxOf_append_of_notMem hwbefore,
    List.idxOf_cons_self, List.idxOf_cons_ne _ (Ne.symm hvw)] at hidx
  omega

theorem choosesOldest_iff (h : Bounded G rp) (hne : cands ≠ []) :
    ChoosesOldest G rp cands ↔ AgesAlike G rp cands := by
  obtain ⟨p, w, hrank, hbefore, hfirst⟩ := rank_spec h hne
  constructor
  · rintro ⟨rp', v, hrank', hmax, hraised, -⟩
    obtain ⟨rfl, rfl⟩ := Prod.mk.inj (Option.some.inj (hrank.symm.trans hrank'))
    refine ⟨p, fun v' hv' c hc => ?_⟩
    obtain rfl := Option.some.inj (hmax.symm.trans hv')
    refine ⟨fun q hq => ?_, hraised c hc⟩
    have hq' := hbefore q hq c hc
    rw [aged] at hq'
    omega
  · rintro ⟨r, hr⟩
    obtain ⟨v, hv⟩ : ∃ v, cands.argmax rp.rrpv = some v := by
      cases hmax : cands.argmax rp.rrpv with
      | none => exact absurd (List.argmax_eq_none.mp hmax) hne
      | some v => exact ⟨v, rfl⟩
    have hvmem := List.argmax_mem hv
    have hvmax : aged G cands rp.rrpv r v = G.MAX_RRPV := by
      have hvr := (hr v hv v hvmem).2
      have hvle := h v
      rw [aged]
      omega
    -- the search ends with that pass
    have hrp : r = p := by
      rcases lt_trichotomy r p with hlt | heq | hgt
      · exact absurd hvmax (hbefore r hlt v hvmem)
      · exact heq
      · have hw : aged G cands rp.rrpv p w = G.MAX_RRPV := by simpa using List.find?_some hfirst
        have hwr := (hr v hv w (List.mem_of_find?_eq_some hfirst)).1 p hgt
        rw [aged] at hw
        omega
    subst hrp
    have hfind := find?_eq_argmax hv (fun c hc => (hr v hv c hc).2) (h v)
    obtain rfl : v = w := Option.some.inj (hfind.symm.trans hfirst)
    refine ⟨_, v, hrank, hv, fun c hc => (hr v hv c hc).2, fun c hc => ?_⟩
    have hcle := h c
    simp only [aged, List.count_eq_zero_of_not_mem hc]
    omega

theorem agesAlike_of_nodup (h : Bounded G rp) (hnodup : cands.Nodup) : AgesAlike G rp cands := by
  cases hmax : cands.argmax rp.rrpv with
  | none => exact ⟨0, fun v hv => by rw [hmax] at hv; cases hv⟩
  | some v =>
    refine ⟨G.MAX_RRPV - rp.rrpv v, fun v' hv' c hc => ?_⟩
    obtain rfl := Option.some.inj (hmax.symm.trans hv')
    have hle := List.le_of_mem_argmax hc hmax
    have hv := h v
    rw [List.count_eq_one_of_mem hnodup hc]
    refine ⟨fun q hq => by omega, by omega⟩

/-- In every state that calls lead to, the counters are bounded, insertions start one below the
maximum, and the search chooses as it should if and only if the candidates age alike. -/
theorem srrip_search_iff {calls : List Call} (hrun : (init G).run G calls = some rp)
    (hne : cands ≠ []) :
    Bounded G rp ∧ ChoosesOldest G rp cands ∧ InsertsLong G rp ↔ AgesAlike G rp cands := by
  have hbounded := Bounded.init.run hrun
  constructor
  · exact fun h => (choosesOldest_iff hbounded hne).mp h.2.1
  · exact fun h => ⟨hbounded, (choosesOldest_iff hbounded hne).mpr h, insertsLong rp⟩

def twoBits : SRRIPConfig := ⟨3, by decide, by decide⟩

/-- Line 0 was hit. -/
theorem srrip_search_hit :
    Bounded twoBits ((init twoBits).update 0) ∧
      ChoosesOldest twoBits ((init twoBits).update 0) [0, 1] ∧
      InsertsLong twoBits ((init twoBits).update 0) := by
  have hrun : (init twoBits).run twoBits [.update 0] = some ((init twoBits).update 0) := rfl
  apply (srrip_search_iff hrun (by decide)).mpr
  exact agesAlike_of_nodup (Bounded.init.run hrun) (by decide)

/-- Lines 0 and 1 were hit, and line 1 is listed twice: it reaches the maximum first. -/
theorem listed_twice_ages_twice : ¬ ∀ rp calls cands, (init twoBits).run twoBits calls = some rp →
    cands ≠ [] →
    Bounded twoBits rp ∧ ChoosesOldest twoBits rp cands ∧ InsertsLong twoBits rp := by
  intro h
  obtain ⟨-, ⟨rp', v, hrank, hmax, -⟩, -⟩ :=
    h (((init twoBits).update 0).update 1) [.update 0, .update 1] [0, 1, 1] rfl (by decide)
  have hvictim : ((((init twoBits).update 0).update 1).rank twoBits [0, 1, 1]).map (·.2) = some 1 := by
    decide
  have hfirst : [0, 1, 1].argmax (((init twoBits).update 0).update 1).rrpv = some 0 := by decide
  rw [hrank] at hvictim
  rw [hmax] at hfirst
  exact absurd (Option.some.inj (hvictim.symm.trans hfirst)) (by decide)

end SRRIPReplPolicy

end ZSim
