import ZSim.FilterCacheSimulation

/-! The filter cache is transparent: a run of it and the run of a plain cache that is fed
every access agree on everything but the times of update, as long as no replacement
sees a time of more than 32 bits. -/

namespace ZSim

open LRUReplPolicy SetAssocArray

namespace FilterCache

variable {σ : Type} {G : FilterConfig} {p f : FilterCache σ} {a : Address}

theorem EntryOk.frame {f' : FilterCache σ} {idx : Nat} (h : EntryOk G f idx)
    (hne : idx ≠ a &&& G.setMask) (hfilter : f'.filterArray = f.filterArray)
    (hstate : f'.state = f.state) (harr : ∀ x, x ∉ set G.toSetConfig a → f'.array x = f.array x)
    (hrp : ∀ x, x ∉ set G.toSetConfig a → f'.rp.array x = f.rp.array x) : EntryOk G f' idx := by
  refine ⟨by rw [hfilter]; exact h.wrAddr, ?_⟩
  rw [hfilter, hstate]
  intro h0 hno
  obtain ⟨hidx, i, hl, hvalid, hm, hM⟩ := h.line h0 hno
  have hi := (lookup_some hl).1
  -- the lines that share a set with the entry's line are not in the set of `a`
  have hout : ∀ b, i ∈ set G.toSetConfig b → ∀ y ∈ set G.toSetConfig b,
      y ∉ set G.toSetConfig a := by
    intro b hib y hy hya
    have h1 := index_eq_of_mem hib hi
    have h2 := index_eq_of_mem hy hya
    rw [pLineAddr_and, hidx] at h1
    exact hne (h1.symm.trans h2)
  refine ⟨hidx, i, ?_, hvalid, hm.congr (fun b hb y hy => hrp y (hout b hb y hy))
    (hrp i (hout _ hi i hi)), hM⟩
  rw [← hl]
  apply List.find?_congr
  intro x hx
  rw [harr x (hout _ hi x hx)]

namespace Sim

theorem weaken (h : Sim G none p f) (idx : Nat) : Sim G (some idx) p f :=
  ⟨h.array, h.state, h.evicted, h.parent, h.order, fun i _ => h.entry i (by simp)⟩

theorem updateRepl (h : Sim G (some (a &&& G.setMask)) p f)
    (hwrap : p.rp.timestamp + 1 < 2 ^ 64) {id : Nat} (hid : id ∈ set G.toSetConfig a) :
    Sim G (some (a &&& G.setMask)) (p.updateRepl id) (f.updateRepl id) := by
  refine ⟨h.array, h.state, h.evicted, h.parent, h.order.update hwrap id, fun idx hidx => ?_⟩
  refine (h.entry idx hidx).frame (a := a) (fun he => hidx (by rw [he])) rfl rfl
    (fun _ _ => rfl) fun x hx => ?_
  have hne : x ≠ id := fun he => hx (by rw [he]; exact hid)
  show (f.rp.update id).array x = _
  rw [update_array, if_neg hne]

theorem postinsert (h : Sim G (some (a &&& G.setMask)) p f)
    (hwrap : p.rp.timestamp + 1 < 2 ^ 64) {id : Nat} (hid : id ∈ set G.toSetConfig a) :
    Sim G (some (a &&& G.setMask)) (p.postinsert a id) (f.postinsert a id) := by
  refine ⟨?_, h.state, h.evicted, h.parent, (h.order.replaced id).update hwrap id,
    fun idx hidx => ?_⟩
  · show Function.update p.array id a = Function.update f.array id a
    rw [h.array]
  · refine (h.entry idx hidx).frame (a := a) (fun he => hidx (by rw [he])) rfl rfl ?_ ?_
    · intro x hx
      have hne : x ≠ id := fun he => hx (by rw [he]; exact hid)
      exact Function.update_of_ne hne _ _
    · intro x hx
      have hne : x ≠ id := fun he => hx (by rw [he]; exact hid)
      show ((f.rp.replaced id).update id).array x = _
      rw [update_array, if_neg hne, replaced_array, if_neg hne]

end Sim

/-- The condition on a replacement: the scores of the candidates fit into 32 bits. -/
def ScoresFit (G : FilterConfig) (a : Address) (p : FilterCache σ) : Prop :=
  lookup G.toSetConfig p.array a = none →
    ∀ x ∈ set G.toSetConfig a, p.rp.score p.isValid x < 2 ^ 32

/-- The line of `a` is `id`, the most recent one of its set. -/
def Found (G : FilterConfig) (a : Address) (f : FilterCache σ) (id : Nat) : Prop :=
  id ∈ set G.toSetConfig a ∧ lookup G.toSetConfig f.array a = some id ∧ Mru G.toSetConfig f.rp id

theorem Sim.findLine (h : Sim G none p f) (P : Parent σ) (hwrap : p.rp.timestamp + 1 < 2 ^ 64)
    (hfit : ScoresFit G a p) :
    Lockstep (fun r r' => (Sim G (some (a &&& G.setMask)) r.1 r'.1 ∧ r.2 = r'.2) ∧
        Found G a r'.1 r'.2)
      (findLine G (cacheMethods G) P a p) (findLine G (methods G) P a f) := by
  have hs := h.weaken (a &&& G.setMask)
  rw [FilterCache.findLine, FilterCache.findLine]
  cases hl : lookup G.toSetConfig f.array a with
  | some id =>
    have hid := (lookup_some hl).1
    rw [h.array, hl]
    exact ⟨⟨hs.updateRepl hwrap hid, rfl⟩, hid, hl, h.order.mru_update id⟩
  | none =>
    have hlp : lookup G.toSetConfig p.array a = none := by rw [h.array]; exact hl
    have hvalid : p.isValid = f.isValid := by
      funext x
      rw [isValid, isValid, h.state]
    have hcand : candidate G a p = candidate G a f := by
      rw [candidate, candidate, h.order.rank_eq (hfit hlp), hvalid]
    have hmem : candidate G a f ∈ set G.toSetConfig a := rank_mem set_ne_nil
    rw [hlp, hcand]
    set id := candidate G a f
    have hwb : p.array id = f.array id := congrFun h.array id
    simp only [hwb]
    have hevict : Lockstep (Working G (a &&& G.setMask) f.array p.rp f.rp)
        (MESIBottomCC.processEviction (parentAccess (cacheMethods G) P (f.array id) id)
          (fun c => c.state id) (fun s c => c.setState id s) false
          { p with evicted := (id, f.array id) :: p.evicted })
        (MESIBottomCC.processEviction (parentAccess (methods G) P (f.array id) id)
          (fun c => c.state id) (fun s c => c.setState id s) false
          { f with evicted := (id, f.array id) :: f.evicted }) := by
      apply MESIBottomCC.processEviction_lockstep
      · exact fun type _ _ hw => hw.parentAccess P rfl hmem _ type
      · exact fun _ _ hw => by rw [hw.sim.state]
      · exact fun s _ _ hw => hw.setState rfl hmem s
      · refine ⟨⟨h.array, h.state, ?_, h.parent, h.order, fun i hi =>
          ⟨(hs.entry i hi).wrAddr, (hs.entry i hi).line⟩⟩, rfl, rfl, rfl⟩
        rw [h.evicted]
    refine hevict.map fun c c' _ _ hw => ?_
    have hins := hw.sim.postinsert (by rw [hw.rp]; exact hwrap) hmem
    refine ⟨⟨hins, rfl⟩, hmem, ?_, (hw.sim.order.replaced id).mru_update id⟩
    exact lookup_update_self (by rw [hw.array]; exact hl) hmem

def Done (G : FilterConfig) (a : Address) (type : AccessType) (f : FilterCache σ) : Prop :=
  ∃ id, Found G a f id ∧ (type = .GETS → f.state id ≠ .I) ∧ (type = .GETX → f.state id = .M)

theorem Sim.access (h : Sim G none p f) (P : Parent σ) (type : AccessType)
    (hwrap : p.rp.timestamp + 1 < 2 ^ 64) (hfit : ScoresFit G a p) :
    Lockstep (fun p' f' => Sim G (some (a &&& G.setMask)) p' f' ∧ Done G a type f')
      (access G (cacheMethods G) P a type p) (access G (methods G) P a type f) := by
  refine (h.findLine P hwrap hfit).bind fun r r' _ _ hr => ?_
  obtain ⟨⟨hs, hid⟩, hmem, hlook, hmru⟩ := hr
  rw [hid]
  have hacc : Lockstep (Working G (a &&& G.setMask) r'.1.array r.1.rp r'.1.rp)
      (MESIBottomCC.processAccess (parentAccess (cacheMethods G) P a r'.2)
        (fun c => c.state r'.2) (fun s c => c.setState r'.2 s) type r.1)
      (MESIBottomCC.processAccess (parentAccess (methods G) P a r'.2)
        (fun c => c.state r'.2) (fun s c => c.setState r'.2 s) type r'.1) := by
    apply MESIBottomCC.processAccess_lockstep
    · exact fun t _ _ hw => hw.parentAccess P rfl hmem _ t
    · exact fun _ _ hw => by rw [hw.sim.state]
    · exact fun s _ _ hw => hw.setState rfl hmem s
    · exact ⟨hs, rfl, rfl, rfl⟩
  refine hacc.imp fun p' f' _ hf' hw => ⟨hw.sim, r'.2, ⟨hmem, ?_, ?_⟩, ?_⟩
  · rw [hw.array]
    exact hlook
  · rw [hw.rp']
    exact hmru
  · exact MESIBottomCC.processAccess_state
      (fun s (c : FilterCache σ) => Function.update_self r'.2 s c.state) hf'

theorem vLineAddr_ne_noAddr {vAddr : Nat} (h : vAddr < 2 ^ 64) :
    G.vLineAddr vAddr ≠ noAddr := by
  have hpow : 2 ^ 1 ≤ 2 ^ G.lineBits := Nat.pow_le_pow_right (by omega) G.lineBits_pos
  have hle : vAddr / 2 ^ G.lineBits ≤ vAddr / 2 ^ 1 := Nat.div_le_div_left hpow (by omega)
  have hlt : vAddr / 2 ^ 1 < 2 ^ 64 - 1 := by omega
  rw [FilterConfig.vLineAddr, Nat.shiftRight_eq_div_pow]
  exact Nat.ne_of_lt (hle.trans_lt hlt)

theorem Sim.setEntry {v : Address} {isLoad : Bool}
    (h : Sim G (some (G.pLineAddr v &&& G.setMask)) p f)
    (hd : Done G (G.pLineAddr v) (if isLoad then .GETS else .GETX) f) :
    Sim G none p (f.setEntry (v &&& G.setMask) ⟨v, if isLoad then noAddr else v⟩) := by
  refine ⟨h.array, h.state, h.evicted, h.parent, h.order, fun idx _ => ?_⟩
  by_cases hidx : idx = v &&& G.setMask
  · subst hidx
    have he : (f.setEntry (v &&& G.setMask) ⟨v, if isLoad then noAddr else v⟩).filterArray
        (v &&& G.setMask) = ⟨v, if isLoad then noAddr else v⟩ := Function.update_self _ _ _
    obtain ⟨id, ⟨_, hlook, hmru⟩, hgets, hgetx⟩ := hd
    refine ⟨?_, ?_⟩
    · rw [he]
      cases isLoad with
      | false => exact .inl rfl
      | true => exact .inr rfl
    · rw [he]
      intro h0 hno
      refine ⟨rfl, id, hlook, ?_, hmru, ?_⟩
      · cases isLoad with
        | false =>
          show f.state id ≠ .I
          rw [hgetx rfl]
          decide
        | true => exact hgets rfl
      · cases isLoad with
        | false => exact fun _ => hgetx rfl
        | true => exact fun hw => absurd hw.symm hno
  · have he : (f.setEntry (v &&& G.setMask) ⟨v, if isLoad then noAddr else v⟩).filterArray idx =
        f.filterArray idx := Function.update_of_ne hidx _ _
    have hok := h.entry idx (by rw [pLineAddr_and]; exact fun hs => hidx (Option.some.inj hs))
    refine ⟨by rw [he]; exact hok.wrAddr, ?_⟩
    rw [he]
    exact hok.line

theorem Sim.replace (h : Sim G none p f) (P : Parent σ) {v : Address} (isLoad : Bool)
    (hwrap : p.rp.timestamp + 1 < 2 ^ 64) (hfit : ScoresFit G (G.pLineAddr v) p) :
    Lockstep (Sim G none)
      (FilterCache.access G (cacheMethods G) P (G.pLineAddr v) (if isLoad then .GETS else .GETX) p)
      (replace G P v (v &&& G.setMask) isLoad f) := by
  refine (h.access P (if isLoad then .GETS else .GETX) hwrap hfit).map_right fun _ _ _ _ hs => ?_
  exact hs.1.setEntry hs.2

/-- The plain cache finds a line that the filter answers for, and only notes its use. -/
theorem Sim.hit (h : Sim G none p f) (P : Parent σ) {id : Nat} {type : AccessType}
    (hwrap : p.rp.timestamp + 1 < 2 ^ 64) (hl : lookup G.toSetConfig f.array a = some id)
    (hmru : Mru G.toSetConfig f.rp id)
    (hhit : MESIBottomCC.lookupAccess (f.state id) type = some (.hit (f.state id))) :
    Lockstep (Sim G none) (FilterCache.access G (cacheMethods G) P a type p) (some f) := by
  have hlp : lookup G.toSetConfig p.array a = some id := by rw [h.array]; exact hl
  have hstate : (p.updateRepl id).state id = f.state id := congrFun h.state id
  rw [FilterCache.access, FilterCache.findLine, hlp, Option.bind_some,
    MESIBottomCC.processAccess_eq, hstate, hhit, Option.bind_some]
  refine ⟨h.array, ?_, h.evicted, h.parent, h.order.update_mru hwrap hmru, h.entry⟩
  show Function.update p.state id (f.state id) = f.state
  rw [h.state, Function.update_eq_self]

theorem Sim.rdAddr_hit (h : Sim G none p f) {v : Address} (h0 : v ≠ 0) (hno : v ≠ noAddr)
    (hv : v = (f.filterArray (v &&& G.setMask)).rdAddr) :
    ∃ id, lookup G.toSetConfig f.array (G.pLineAddr v) = some id ∧ f.state id ≠ .I ∧
      Mru G.toSetConfig f.rp id := by
  have hok := (h.entry (v &&& G.setMask) (by simp)).line
  rw [← hv] at hok
  obtain ⟨_, id, hl, hvalid, hm, _⟩ := hok h0 hno
  exact ⟨id, hl, hvalid, hm⟩

theorem Sim.wrAddr_hit (h : Sim G none p f) {v : Address} (h0 : v ≠ 0) (hno : v ≠ noAddr)
    (hv : v = (f.filterArray (v &&& G.setMask)).wrAddr) :
    ∃ id, lookup G.toSetConfig f.array (G.pLineAddr v) = some id ∧ f.state id = .M ∧
      Mru G.toSetConfig f.rp id := by
  have hok := h.entry (v &&& G.setMask) (by simp)
  have hrd : (f.filterArray (v &&& G.setMask)).rdAddr = v := by
    rcases hok.wrAddr with hw | hw
    · rw [← hw, ← hv]
    · exact absurd (hv.trans hw) hno
  have hline := hok.line
  rw [hrd, ← hv] at hline
  obtain ⟨_, id, hl, _, hm, hM⟩ := hline h0 hno
  exact ⟨id, hl, hM rfl, hm⟩

/-- One address space: an address of a process, on a line other than the first. -/
def Enabled (G : FilterConfig) : Op σ → Prop
  | .load vAddr => vAddr < 2 ^ 64 ∧ G.vLineAddr vAddr ≠ 0
  | .store vAddr => vAddr < 2 ^ 64 ∧ G.vLineAddr vAddr ≠ 0
  | _ => True

/-- The condition on a step, on the state of the plain cache before it: the time does not
wrap, and if the step replaces a line the scores of the candidates fit into 32 bits. -/
def Meets (G : FilterConfig) (p : FilterCache σ) : Op σ → Prop
  | .load vAddr =>
    p.rp.timestamp + 1 < 2 ^ 64 ∧ ScoresFit G (G.pLineAddr (G.vLineAddr vAddr)) p
  | .store vAddr =>
    p.rp.timestamp + 1 < 2 ^ 64 ∧ ScoresFit G (G.pLineAddr (G.vLineAddr vAddr)) p
  | _ => True

theorem Sim.step (h : Sim G none p f) (P : Parent σ) {op : Op σ} (hen : Enabled G op)
    (hmeets : Meets G p op) :
    Lockstep (Sim G none) (plainStep G P op p) (step G P op f) := by
  cases op with
  | load vAddr =>
    obtain ⟨hwrap, hfit⟩ := hmeets
    rw [FilterCache.step, load]
    by_cases hv : G.vLineAddr vAddr = (f.filterArray (G.vLineAddr vAddr &&& G.setMask)).rdAddr
    · obtain ⟨id, hl, hvalid, hm⟩ := h.rdAddr_hit hen.2 (vLineAddr_ne_noAddr hen.1) hv
      rw [if_pos hv]
      refine h.hit P hwrap hl hm ?_
      rw [MESIBottomCC.lookupAccess, if_neg hvalid]
    · rw [if_neg hv]
      exact h.replace P true hwrap hfit
  | store vAddr =>
    obtain ⟨hwrap, hfit⟩ := hmeets
    rw [FilterCache.step, store]
    by_cases hv : G.vLineAddr vAddr = (f.filterArray (G.vLineAddr vAddr &&& G.setMask)).wrAddr
    · obtain ⟨id, hl, hM, hm⟩ := h.wrAddr_hit hen.2 (vLineAddr_ne_noAddr hen.1) hv
      rw [if_pos hv]
      refine h.hit P hwrap hl hm ?_
      rw [hM]
      rfl
    · rw [if_neg hv]
      exact h.replace P false hwrap hfit
  | invalidate lineAddr type after =>
    refine (h.invalidate lineAddr type).map fun r r' _ _ hr => ?_
    obtain ⟨⟨hs, _⟩, hwb⟩ := hr
    refine ⟨hs.array, hs.state, hs.evicted, ?_, hs.order, fun i hi =>
      ⟨(hs.entry i hi).wrAddr, (hs.entry i hi).line⟩⟩
    show after r.2 r.1.parent = after r'.2 r'.1.parent
    rw [hwb, hs.parent]
  | contextSwitch =>
    exact ⟨h.array, h.state, h.evicted, h.parent, h.order,
      fun i _ => EntryOk.of_marker rfl (.inl rfl)⟩

/-- A plain and a filtered cache after the same operations. -/
inductive Reachable (G : FilterConfig) (P : Parent σ) : FilterCache σ → FilterCache σ → Prop
  | init (parent) : Reachable G P (init parent) (init parent)
  | step {p f p' f'} (op) : Reachable G P p f → Enabled G op → Meets G p op →
      plainStep G P op p = some p' → step G P op f = some f' → Reachable G P p' f'

theorem Sim.init (G : FilterConfig) (parent : σ) : Sim G none (init parent) (init parent) :=
  ⟨rfl, rfl, rfl, rfl, Order.init, fun _ _ => EntryOk.of_marker rfl (.inl rfl)⟩

theorem Reachable.sim {P : Parent σ} (h : Reachable G P p f) : Sim G none p f := by
  induction h with
  | init parent => exact Sim.init G parent
  | step op _ hen hmeets hp hf ih =>
    have hs := ih.step P hen hmeets
    rw [hp, hf] at hs
    exact hs

/-- In every run whose replacements see times of 32 bits, the filtered cache has the
lines, the states and the victims of the plain one, asks the same of the parent, and
hits only on lines that are valid, or in M, in the cache. -/
theorem reachable_transparent {P : Parent σ} (h : Reachable G P p f) :
    f.array = p.array ∧ f.state = p.state ∧ f.evicted = p.evicted ∧ f.parent = p.parent ∧
    (∀ op, Enabled G op → Meets G p op → (plainStep G P op p = none ↔ step G P op f = none)) ∧
    (∀ v, v ≠ 0 → v ≠ noAddr → v = (f.filterArray (v &&& G.setMask)).rdAddr →
      ∃ id, lookup G.toSetConfig f.array (G.pLineAddr v) = some id ∧ f.state id ≠ .I) ∧
    (∀ v, v ≠ 0 → v ≠ noAddr → v = (f.filterArray (v &&& G.setMask)).wrAddr →
      ∃ id, lookup G.toSetConfig f.array (G.pLineAddr v) = some id ∧ f.state id = .M) := by
  have hs := h.sim
  refine ⟨hs.array.symm, hs.state.symm, hs.evicted.symm, hs.parent.symm, ?_, ?_, ?_⟩
  · intro op hen hmeets
    exact (hs.step P hen hmeets).none_iff
  · intro v h0 hno hv
    obtain ⟨id, hl, hvalid, -⟩ := hs.rdAddr_hit h0 hno hv
    exact ⟨id, hl, hvalid⟩
  · intro v h0 hno hv
    obtain ⟨id, hl, hM, -⟩ := hs.wrAddr_hit h0 hno hv
    exact ⟨id, hl, hM⟩

/-- Two lines in one set, of 64 bytes each. -/
def smallFilter : FilterConfig where
  assoc := 2
  setBits := 0
  assoc_pos := by decide
  lineBits := 6
  procIdx := 0
  lineBits_pos := by decide
  bits_le := by decide

/-- A parent that grants what is asked for, shared for a load. -/
def grantAll : Parent Unit := fun _ type _ _ =>
  match type with
  | .GETS => .respond .S ()
  | .GETX => .respond .M ()
  | .PUTS => .respond .I ()
  | .PUTX => .respond .I ()

/-- A store, and a second one that hits in the filter. -/
theorem reachable_transparent_store : ∃ p f : FilterCache Unit,
    Reachable smallFilter grantAll p f ∧ f.evicted = p.evicted ∧
    ∃ id, lookup smallFilter.toSetConfig f.array 1 = some id ∧ f.state id = .M := by
  have hfit : ScoresFit smallFilter 1 (init ()) := fun _ x _ => by
    simp [LRUReplPolicy.score, init, LRUReplPolicy.init]
  have h := Reachable.step (.store 64) (Reachable.init (G := smallFilter) (P := grantAll) ())
    ⟨by decide, by decide⟩ ⟨by decide, hfit⟩ rfl rfl
  obtain ⟨-, -, hev, -, -, -, hstore⟩ := reachable_transparent h
  exact ⟨_, _, h, hev, hstore 1 (by decide) (by decide) rfl⟩

def run (step : Op σ → FilterCache σ → Option (FilterCache σ)) :
    List (Op σ) → FilterCache σ → Option (FilterCache σ)
  | [], c => some c
  | op :: ops, c => (step op c).bind (run step ops)

theorem run_replicate_of_fix {step : Op σ → FilterCache σ → Option (FilterCache σ)} {op : Op σ}
    {c : FilterCache σ} (h : step op c = some c) (n : Nat) (ops : List (Op σ)) :
    run step (List.replicate n op ++ ops) c = run step ops c := by
  induction n with
  | zero => rfl
  | succ n ih =>
    rw [List.replicate_succ, List.cons_append, run, h, Option.bind_some]
    exact ih

/-- The plain cache after `n` loads of one line. -/
def loadedOften (n : Nat) : FilterCache Unit where
  array := Function.update (fun _ => 0) 0 1
  rp := ⟨n + 1, Function.update (fun _ => 0) 0 n⟩
  state := Function.update (fun _ => .I) 0 .S
  evicted := [(0, 0)]
  parent := ()
  filterArray := fun _ => .clear

theorem plainStep_init : plainStep smallFilter grantAll (.load 64) (init ()) =
    some (loadedOften 1) := by
  have hrp : (((LRUReplPolicy.init).replaced 0).update 0) = (loadedOften 1).rp := by
    simp [LRUReplPolicy.update, LRUReplPolicy.replaced, LRUReplPolicy.init, loadedOften]
  have hstate : Function.update (Function.update (fun _ => MESIState.I) 0 .I) 0 .S =
      (loadedOften 1).state := Function.update_idem _ _ _
  show some { loadedOften 1 with
    rp := ((LRUReplPolicy.init).replaced 0).update 0
    state := Function.update (Function.update (fun _ => .I) 0 .I) 0 .S } = _
  rw [hrp, hstate]

theorem plainStep_loadedOften {n : Nat} (h : n + 2 < 2 ^ 64) :
    plainStep smallFilter grantAll (.load 64) (loadedOften n) = some (loadedOften (n + 1)) := by
  have hrp : (loadedOften n).rp.update 0 = (loadedOften (n + 1)).rp := by
    simp only [LRUReplPolicy.update, loadedOften, Function.update_idem]
    rw [Nat.mod_eq_of_lt (by omega)]
  have hstate : Function.update (loadedOften n).state 0 .S = (loadedOften (n + 1)).state := by
    simp only [loadedOften, Function.update_idem]
  show some { loadedOften (n + 1) with
    rp := (loadedOften n).rp.update 0
    state := Function.update (loadedOften n).state 0 .S } = _
  rw [hrp, hstate]

theorem run_plainStep_loads (n k : Nat) (h : n + k + 1 < 2 ^ 64) (ops : List (Op Unit)) :
    run (plainStep smallFilter grantAll) (List.replicate k (.load 64) ++ ops) (loadedOften n) =
      run (plainStep smallFilter grantAll) ops (loadedOften (n + k)) := by
  induction k generalizing n with
  | zero => rfl
  | succ k ih =>
    rw [List.replicate_succ, List.cons_append, run, plainStep_loadedOften (by omega),
      Option.bind_some, ih (n + 1) (by omega)]
    congr 2
    omega

/-- After 2^32 - 1 loads of one line the next line gets a time whose lower 32 bits are
zero, and the plain cache evicts it although it is the most recent one. -/
theorem victims_differ : ∃ ops : List (Op Unit), (∀ op ∈ ops, Enabled smallFilter op) ∧
    (run (plainStep smallFilter grantAll) ops (init ())).map (fun p => p.evicted) =
      some [(1, 2), (1, 0), (0, 0)] ∧
    (run (step smallFilter grantAll) ops (init ())).map (fun f => f.evicted) =
      some [(0, 1), (1, 0), (0, 0)] := by
  have hplain : ∀ ops, run (plainStep smallFilter grantAll)
      (.load 64 :: (List.replicate (2 ^ 32 - 2) (.load 64) ++ ops)) (init ()) =
      run (plainStep smallFilter grantAll) ops (loadedOften (2 ^ 32 - 1)) := by
    intro ops
    rw [run, plainStep_init, Option.bind_some, run_plainStep_loads 1 _ (by omega),
      show 1 + (2 ^ 32 - 2) = 2 ^ 32 - 1 by omega]
  have hfiltered : ∀ f₁, step smallFilter grantAll (.load 64) (init ()) = some f₁ → ∀ ops,
      step smallFilter grantAll (.load 64) f₁ = some f₁ → run (step smallFilter grantAll)
        (.load 64 :: (List.replicate (2 ^ 32 - 2) (.load 64) ++ ops)) (init ()) =
      run (step smallFilter grantAll) ops f₁ := by
    intro f₁ h₁ ops hfix
    rw [run, h₁, Option.bind_some, run_replicate_of_fix hfix]
  refine ⟨.load 64 :: (List.replicate (2 ^ 32 - 2) (.load 64) ++ [.load 128, .load 192]), ?_, ?_⟩
  · intro op hop
    have hmem : op = .load 64 ∨ op = .load 128 ∨ op = .load 192 := by
      simp only [List.mem_cons, List.mem_append, List.mem_replicate] at hop
      tauto
    rcases hmem with rfl | rfl | rfl
    · exact ⟨by decide, by decide⟩
    · exact ⟨by decide, by decide⟩
    · exact ⟨by decide, by decide⟩
  · constructor
    · rw [hplain]
      rfl
    · rw [hfiltered _ rfl _ rfl]
      rfl

end FilterCache

end ZSim
