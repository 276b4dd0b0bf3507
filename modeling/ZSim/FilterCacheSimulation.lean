import ZSim.FilterCache
import ZSim.Lockstep
import ZSim.LRUOrder

/-! A filtered cache and a plain one that see the same accesses. Each filter entry is
the most recent line of its set; while an access works on a set, the entry of that set
may be stale. -/

namespace ZSim

open LRUReplPolicy SetAssocArray

namespace MESIBottomCC

variable {σ τ : Type} {R : σ → τ → Prop} {pa : AccessType → σ → Option σ}
  {pa' : AccessType → τ → Option τ} {read : σ → MESIState} {read' : τ → MESIState}
  {write : MESIState → σ → σ} {write' : MESIState → τ → τ} {w : σ} {w' : τ}

theorem processAccess_eq (type : AccessType) (w : σ) :
    processAccess pa read write type w = (lookupAccess (read w) type).bind fun
      | .hit state => some (write state w)
      | .miss t => (pa t w).bind fun v => if grantOk t (read v) then some v else none := by
  rw [processAccess]
  cases lookupAccess (read w) type with
  | none => rfl
  | some l =>
    cases l with
    | hit state => rfl
    | miss t => cases hp : pa t w <;> simp [hp]

theorem processEviction_eq (wb : Bool) (w : σ) :
    processEviction pa read write wb w = (evictState (read w) wb).bind fun state =>
      match evictRequest state with
      | none => some (write state w)
      | some put => (pa put (write state w)).bind fun v =>
        if read v = .I then some v else none := by
  rw [processEviction]
  cases evictState (read w) wb with
  | none => rfl
  | some state =>
    cases hr : evictRequest state with
    | none => simp [hr]
    | some put => cases hp : pa put (write state w) <;> simp [hr, hp]

theorem processAccess_lockstep
    (hpa : ∀ type w w', R w w' → Lockstep R (pa type w) (pa' type w'))
    (hread : ∀ w w', R w w' → read w = read' w')
    (hwrite : ∀ s w w', R w w' → R (write s w) (write' s w')) (h : R w w') (type : AccessType) :
    Lockstep R (processAccess pa read write type w) (processAccess pa' read' write' type w') := by
  rw [processAccess_eq, processAccess_eq, hread w w' h]
  cases lookupAccess (read' w') type with
  | none => trivial
  | some l =>
    cases l with
    | hit state => exact hwrite state w w' h
    | miss t =>
      refine (hpa t w w' h).bind fun v v' _ _ hv => ?_
      rw [hread v v' hv]
      split
      · exact hv
      · trivial

theorem processEviction_lockstep
    (hpa : ∀ type w w', R w w' → Lockstep R (pa type w) (pa' type w'))
    (hread : ∀ w w', R w w' → read w = read' w')
    (hwrite : ∀ s w w', R w w' → R (write s w) (write' s w')) (h : R w w') (wb : Bool) :
    Lockstep R (processEviction pa read write wb w) (processEviction pa' read' write' wb w') := by
  rw [processEviction_eq, processEviction_eq, hread w w' h]
  cases evictState (read' w') wb with
  | none => trivial
  | some state =>
    rw [Option.bind_some, Option.bind_some]
    cases evictRequest state with
    | none => exact hwrite state w w' h
    | some put =>
      refine (hpa put _ _ (hwrite state w w' h)).bind fun v v' _ _ hv => ?_
      rw [hread v v' hv]
      split
      · exact hv
      · trivial

/-- What an access leaves of a line that `read` and `write` agree about: a load makes it
valid, a store makes it M. -/
theorem processAccess_state {type : AccessType} (hrw : ∀ s w, read (write s w) = s) {v : σ}
    (h : processAccess pa read write type w = some v) :
    (type = .GETS → read v ≠ .I) ∧ (type = .GETX → read v = .M) := by
  rw [processAccess_eq] at h
  obtain ⟨l, hl, h⟩ := Option.bind_eq_some_iff.mp h
  cases l with
  | hit state =>
    cases h
    rw [hrw]
    constructor
    · rintro rfl
      cases hs : read w <;> simp [lookupAccess, hs] at hl <;> simp [← hl]
    · rintro rfl
      cases hs : read w <;> simp [lookupAccess, hs] at hl <;> simp [← hl]
  | miss t =>
    obtain ⟨u, -, h⟩ := Option.bind_eq_some_iff.mp h
    by_cases hg : grantOk t (read u) = true
    · rw [if_pos hg] at h
      cases h
      constructor
      · rintro rfl
        cases hs : read w <;> simp [lookupAccess, hs] at hl
        subst hl
        rintro hI
        simp [grantOk, hI] at hg
      · rintro rfl
        cases hs : read w <;> simp [lookupAccess, hs] at hl <;>
          (subst hl; simpa [grantOk] using hg)
    · rw [if_neg hg] at h
      cases h

end MESIBottomCC

namespace FilterCache

variable {σ : Type} {G : FilterConfig} {p f : FilterCache σ}

theorem and_setMask (a : Address) : a &&& G.setMask = a % 2 ^ G.setBits :=
  Nat.and_two_pow_sub_one_eq_mod a G.setBits

theorem pLineAddr_and (v : Address) : G.pLineAddr v &&& G.setMask = v &&& G.setMask := by
  have hbits := G.bits_le
  have hdvd : 2 ^ G.setBits ∣ G.procMask := by
    rw [FilterConfig.procMask, Nat.dvd_mod_iff (Nat.pow_dvd_pow 2 (by omega))]
    exact Dvd.dvd.mul_left (Nat.pow_dvd_pow 2 (by omega)) _
  rw [and_setMask, and_setMask, FilterConfig.pLineAddr, Nat.or_mod_two_pow,
    Nat.mod_eq_zero_of_dvd hdvd, Nat.zero_or]

structure EntryOk (G : FilterConfig) (f : FilterCache σ) (idx : Nat) : Prop where
  wrAddr : (f.filterArray idx).wrAddr = (f.filterArray idx).rdAddr ∨
    (f.filterArray idx).wrAddr = noAddr
  line : (f.filterArray idx).rdAddr ≠ 0 → (f.filterArray idx).rdAddr ≠ noAddr →
    (f.filterArray idx).rdAddr &&& G.setMask = idx ∧
    ∃ id, lookup G.toSetConfig f.array (G.pLineAddr (f.filterArray idx).rdAddr) = some id ∧
      f.state id ≠ .I ∧ Mru G.toSetConfig f.rp id ∧
      ((f.filterArray idx).wrAddr = (f.filterArray idx).rdAddr → f.state id = .M)

/-- `p` is plain, `f` filtered, and the entry `out` may be stale. -/
structure Sim (G : FilterConfig) (out : Option Nat) (p f : FilterCache σ) : Prop where
  array : p.array = f.array
  state : p.state = f.state
  evicted : p.evicted = f.evicted
  parent : p.parent = f.parent
  order : Order G.toSetConfig p.rp f.rp
  entry : ∀ idx, some idx ≠ out → EntryOk G f idx

/-- A change of the line `id` that the other filter entries do not notice. -/
theorem EntryOk.setState {idx id : Nat} {s : MESIState} (h : EntryOk G f idx)
    (hne : ∀ i, (f.filterArray idx).rdAddr ≠ 0 → (f.filterArray idx).rdAddr ≠ noAddr →
      lookup G.toSetConfig f.array (G.pLineAddr (f.filterArray idx).rdAddr) = some i → i ≠ id) :
    EntryOk G (f.setState id s) idx := by
  refine ⟨h.wrAddr, fun h0 hno => ?_⟩
  obtain ⟨hidx, i, hl, hvalid, hm, hM⟩ := h.line h0 hno
  have hi : Function.update f.state id s i = f.state i := Function.update_of_ne (hne i h0 hno hl) _ _
  refine ⟨hidx, i, hl, ?_, hm, fun hw => ?_⟩
  · show Function.update f.state id s i ≠ .I
    rw [hi]
    exact hvalid
  · show Function.update f.state id s i = .M
    rw [hi]
    exact hM hw

theorem EntryOk.of_marker {idx : Nat} {a : Address} (h : f.filterArray idx = ⟨a, a⟩)
    (ha : a = 0 ∨ a = noAddr) : EntryOk G f idx := by
  refine ⟨.inl (by rw [h]), fun h0 hno => ?_⟩
  rw [h] at h0 hno
  rcases ha with rfl | rfl
  · exact absurd rfl h0
  · exact absurd rfl hno

namespace Sim

variable {out : Option Nat}

theorem setState (h : Sim G out p f) {id : Nat} (s : MESIState)
    (hne : ∀ idx, some idx ≠ out → ∀ i, (f.filterArray idx).rdAddr ≠ 0 →
      (f.filterArray idx).rdAddr ≠ noAddr →
      lookup G.toSetConfig f.array (G.pLineAddr (f.filterArray idx).rdAddr) = some i → i ≠ id) :
    Sim G out (p.setState id s) (f.setState id s) := by
  refine ⟨h.array, ?_, h.evicted, h.parent, h.order, fun idx hidx =>
    (h.entry idx hidx).setState (hne idx hidx)⟩
  show Function.update p.state id s = Function.update f.state id s
  rw [h.state]

/-- The lines of the set worked on are in no other filter entry. -/
theorem ne_of_mem_set (h : Sim G out p f) {a : Address} {id : Nat}
    (hout : out = some (a &&& G.setMask)) (hid : id ∈ set G.toSetConfig a) {idx : Nat}
    (hidx : some idx ≠ out) {i : Nat} (h0 : (f.filterArray idx).rdAddr ≠ 0)
    (hno : (f.filterArray idx).rdAddr ≠ noAddr)
    (hl : lookup G.toSetConfig f.array (G.pLineAddr (f.filterArray idx).rdAddr) = some i) :
    i ≠ id := by
  rintro rfl
  have hi := index_eq_of_mem (lookup_some hl).1 hid
  rw [pLineAddr_and, ((h.entry idx hidx).line h0 hno).1] at hi
  exact hidx (by rw [hout, hi])

/-- Dropping an entry is always safe, and afterwards no entry is the line dropped. -/
theorem dropEntry (h : Sim G out p f) (a : Address) :
    Sim G out p (dropEntry G a f) := by
  rw [FilterCache.dropEntry]
  by_cases hm : (f.filterArray (a &&& G.setMask)).rdAddr ||| G.procMask = a
  · rw [if_pos hm]
    refine ⟨h.array, h.state, h.evicted, h.parent, h.order, fun idx hidx => ?_⟩
    by_cases he : idx = a &&& G.setMask
    · exact EntryOk.of_marker (by rw [he]; exact Function.update_self _ _ _) (.inr rfl)
    · have heq : (f.setEntry (a &&& G.setMask) ⟨noAddr, noAddr⟩).filterArray idx =
          f.filterArray idx := Function.update_of_ne he _ _
      have hok := h.entry idx hidx
      refine ⟨by rw [heq]; exact hok.wrAddr, ?_⟩
      rw [heq]
      exact hok.line
  · rw [if_neg hm]
    exact h

theorem dropEntry_ne (h : Sim G out p f) {a : Address} {id idx i : Nat}
    (hid : lookup G.toSetConfig f.array a = some id) (hidx : some idx ≠ out)
    (h0 : ((FilterCache.dropEntry G a f).filterArray idx).rdAddr ≠ 0)
    (hno : ((FilterCache.dropEntry G a f).filterArray idx).rdAddr ≠ noAddr)
    (hl : lookup G.toSetConfig f.array
      (G.pLineAddr ((FilterCache.dropEntry G a f).filterArray idx).rdAddr) = some i) : i ≠ id := by
  rintro rfl
  have ha := (lookup_some hid).2.symm.trans (lookup_some hl).2
  have hrd := (((h.dropEntry a).entry idx hidx).line h0 hno).1
  have hmask : a &&& G.setMask = idx := by rw [ha, pLineAddr_and, hrd]
  rw [FilterCache.dropEntry] at hno ha
  by_cases hm : (f.filterArray (a &&& G.setMask)).rdAddr ||| G.procMask = a
  · rw [if_pos hm, hmask] at hno
    exact hno (congrArg FilterEntry.rdAddr (Function.update_self idx _ f.filterArray))
  · rw [if_neg hm] at ha
    exact hm (by rw [hmask, Nat.or_comm]; exact ha.symm)

end Sim

/-- What stays fixed while the parent serves an access that works on the set `idx`. -/
structure Working (G : FilterConfig) (idx : Nat) (array : Nat → Address) (rp rp' : LRUReplPolicy)
    (p f : FilterCache σ) : Prop where
  sim : Sim G (some idx) p f
  array : f.array = array
  rp : p.rp = rp
  rp' : f.rp = rp'

theorem dropEntry_frame (a : Address) (f : FilterCache σ) :
    (dropEntry G a f).array = f.array ∧ (dropEntry G a f).rp = f.rp := by
  rw [dropEntry]
  split
  · exact ⟨rfl, rfl⟩
  · exact ⟨rfl, rfl⟩

/-- An invalidate has the same outcome, and leaves the array and the policy alone. -/
theorem Sim.invalidate {out : Option Nat} (h : Sim G out p f) (a : Address) (type : InvType) :
    Lockstep (fun r r' => (Sim G out r.1 r'.1 ∧ r'.1.array = f.array ∧ r.1.rp = p.rp ∧
      r'.1.rp = f.rp) ∧ r.2 = r'.2) (finishInvalidate G a type p) (FilterCache.invalidate G a type f) := by
  have h' := h.dropEntry a
  obtain ⟨harr, hrp⟩ := dropEntry_frame (G := G) a f
  rw [FilterCache.invalidate, finishInvalidate, finishInvalidate, h.array, harr]
  cases hl : lookup G.toSetConfig f.array a with
  | none => trivial
  | some id =>
    rw [Option.bind_some, Option.bind_some, h'.state]
    cases MESIBottomCC.processInval ((FilterCache.dropEntry G a f).state id) type with
    | none => trivial
    | some r =>
      refine ⟨⟨h'.setState r.1 fun idx hidx i h0 hno hli => ?_, harr, rfl, hrp⟩, rfl⟩
      rw [harr] at hli
      exact h.dropEntry_ne hl hidx h0 hno hli

namespace Working

variable {idx id : Nat} {array : Nat → Address} {rp rp' : LRUReplPolicy} {a : Address}

theorem setState (h : Working G idx array rp rp' p f) (ha : a &&& G.setMask = idx)
    (hid : id ∈ set G.toSetConfig a) (s : MESIState) :
    Working G idx array rp rp' (p.setState id s) (f.setState id s) :=
  ⟨h.sim.setState s fun _ hne _ h0 hno hl => h.sim.ne_of_mem_set (by rw [ha]) hid hne h0 hno hl,
    h.array, h.rp, h.rp'⟩

/-- Serving a request keeps the two caches in step, whatever the parent does. -/
theorem serve (h : Working G idx array rp rp' p f) (ha : a &&& G.setMask = idx)
    (hid : id ∈ set G.toSetConfig a) (svc : Service σ) :
    Lockstep (Working G idx array rp rp') (serve (cacheMethods G) id svc p)
      (serve (methods G) id svc f) := by
  induction svc generalizing p f with
  | respond state parent =>
    have h' := h.setState ha hid state
    have hs := h'.sim
    exact ⟨⟨hs.array, hs.state, hs.evicted, rfl, hs.order, fun i hi =>
      ⟨(hs.entry i hi).wrAddr, (hs.entry i hi).line⟩⟩, h'.array, h'.rp, h'.rp'⟩
  | invalidate lineAddr type next ih =>
    refine (h.sim.invalidate lineAddr type).bind fun r r' _ _ hr => ?_
    obtain ⟨⟨hs, harr, hrp, hrp'⟩, hwb⟩ := hr
    rw [hwb]
    exact ih r'.2 ⟨hs, harr.trans h.array, hrp.trans h.rp, hrp'.trans h.rp'⟩
  | contextSwitch next ih =>
    have hs := h.sim
    apply ih
    exact ⟨⟨hs.array, hs.state, hs.evicted, hs.parent, hs.order,
      fun i _ => EntryOk.of_marker rfl (.inl rfl)⟩, h.array, h.rp, h.rp'⟩

theorem parentAccess (h : Working G idx array rp rp' p f) (P : Parent σ)
    (ha : a &&& G.setMask = idx) (hid : id ∈ set G.toSetConfig a) (b : Address)
    (type : AccessType) :
    Lockstep (Working G idx array rp rp') (parentAccess (cacheMethods G) P b id type p)
      (parentAccess (methods G) P b id type f) := by
  rw [FilterCache.parentAccess, FilterCache.parentAccess, h.sim.state, h.sim.parent]
  exact h.serve ha hid _

end Working

end FilterCache

end ZSim
