import ZSim.OOOMemOps

/-! The loads and stores of a block in the memory system: what each uop asks of the data cache, of
the recorder and of the forwarding table, with the predicated-false operations marked by an
address. The data cache is any one that answers a request with a latency. -/

namespace ZSim.OOO

inductive OpKind
  | load | store
  deriving DecidableEq

/-- A load or store that the core is told of, with its predicate. -/
structure MemOp where
  kind : OpKind
  addr : Nat
  pred : Bool

/-- A data cache and all behind it: the state after a load or a store, and its latency. -/
structure DataCache (σ : Type) where
  load : σ → Nat → Nat → σ × Nat
  store : σ → Nat → Nat → σ × Nat

/-- A request to the data cache, and its response. -/
structure CacheAccess where
  addr : Nat
  dispatchCycle : Nat
  respCycle : Nat

/-- A call of `record`. -/
structure WeaveRecord where
  curCycle : Nat
  dispatchCycle : Nat
  respCycle : Nat

/-- What a uop does in the memory system: the cache and the forwarding table before and after. -/
structure MemStep (σ : Type) where
  kind : Option OpKind
  addr : Nat
  curCycle : Nat
  dispatchCycle : Nat
  commitCycle : Nat
  accesses : List CacheAccess
  records : List WeaveRecord
  l1d : σ
  l1d' : σ
  fwd : Nat → FwdEntry
  fwd' : Nat → FwdEntry

def UopType.opKind : UopType → Option OpKind
  | .UOP_LOAD => some .load
  | .UOP_STORE => some .store
  | _ => none

namespace OOOCore

variable (c : OOOCore)

/-- `PredLoadFunc` and `PredStoreFunc`. -/
def recordOp (op : MemOp) : OOOCore :=
  match op.kind with
  | .load => if op.pred then c.load op.addr else c.predFalseLoad
  | .store => if op.pred then c.store op.addr else c.predFalseStore

def opAddrs : OpKind → Nat → Nat
  | .load => c.loadAddrs
  | .store => c.storeAddrs

def opCount : OpKind → Nat
  | .load => c.loads
  | .store => c.stores

def advance (targetCycle : Nat) : Option OOOCore := do
  guard (c.curCycle < targetCycle)
  let (w, curCycle) ← c.insWindow.longAdvance c.curCycle targetCycle
  guard (targetCycle = curCycle)
  some { c with
    decodeCycle := c.decodeCycle + (targetCycle - c.curCycle)
    insWindow := w
    curCycle := curCycle
    curCycleRFReads := 0
    curCycleIssuedUops := 0 }

end OOOCore

namespace BblState

variable {σ : Type} (l1d : DataCache σ) (s : BblState)

def uopAddr (uop : DynUop) : Nat :=
  match uop.type with
  | .UOP_LOAD => s.core.loadAddrs s.loadIdx
  | .UOP_STORE => s.core.storeAddrs s.storeIdx
  | _ => 0

/-- The request of a uop to the data cache: the cache after it and the latency, and the request
when there is one. -/
def requestL1D (m : σ) (uop : DynUop) (dispatchCycle : Nat) : σ × Nat × List CacheAccess :=
  let addr := s.uopAddr uop
  match uop.type with
  | .UOP_LOAD =>
    let dispatchCycle := s.core.lsuDispatch s.core.loadQueue dispatchCycle
    if addr ≠ noAddr then
      let (m, latency) := l1d.load m addr dispatchCycle
      (m, latency, [⟨addr, dispatchCycle, dispatchCycle + latency + L1D_LAT⟩])
    else (m, 0, [])
  | .UOP_STORE =>
    let dispatchCycle := s.core.lsuDispatch s.core.storeQueue dispatchCycle
    let (m, latency) := l1d.store m addr dispatchCycle
    (m, latency, [⟨addr, dispatchCycle, dispatchCycle + latency + L1D_LAT⟩])
  | _ => (m, 0, [])

/-- One turn of the loop over the uops, with the latency that the data cache answers. Each request
is recorded. -/
def simulateUopMem (fuel : Nat) (m : σ) (uop : DynUop) : Option (BblState × σ × MemStep σ) := do
  let (s₁, dispatchCycle) ← s.beforeLSU fuel uop
  let (m', latency, accesses) := s₁.requestL1D l1d m uop dispatchCycle
  let (s', t) ← s.simulateUop fuel latency uop
  some (s', m',
    { kind := uop.type.opKind
      addr := s₁.uopAddr uop
      curCycle := s₁.core.curCycle
      dispatchCycle := t.dispatchCycle
      commitCycle := t.commitCycle
      accesses := accesses
      records := accesses.map fun a => ⟨s₁.core.curCycle, a.dispatchCycle, a.respCycle⟩
      l1d := m
      l1d' := m'
      fwd := s.core.fwdArray
      fwd' := s'.core.fwdArray })

def simulateUopsMem (fuel : Nat) :
    List DynUop → BblState → σ → Option (BblState × σ × List (MemStep σ))
  | [], s, m => some (s, m, [])
  | uop :: uops, s, m => do
    let (s, m, step) ← s.simulateUopMem l1d fuel m uop
    let (s, m, steps) ← simulateUopsMem fuel uops s m
    some (s, m, step :: steps)

end BblState

/-- A core with its data cache, the operations it was told of since the last block, and the blocks
simulated so far with their operations. -/
structure MemRun (σ : Type) where
  core : OOOCore
  l1d : σ
  pending : List MemOp
  blocks : List (List MemOp × List (MemStep σ))

/-- What happens to a core. Others may leave its cache in any state. -/
inductive CoreEvent (σ : Type)
  | op (op : MemOp)
  | branch (pc : Nat)
  | bbl (fuel : Nat) (resp : BblResponses) (lineSize : Nat) (bblInfo : BblInfo)
  | contextSwitch
  | advance (targetCycle : Nat)
  | caches (l1d : σ)

namespace MemRun

variable {σ : Type} (l1d : DataCache σ) (r : MemRun σ)

def init (m : σ) : MemRun σ := ⟨.init, m, [], []⟩

/-- `bbl` with its data cache. -/
def bbl (fuel : Nat) (resp : BblResponses) (lineSize : Nat) (bblInfo : BblInfo) :
    Option (MemRun σ) :=
  match r.core.prevBbl with
  | none => some { r with
      core := { r.core with prevBbl := some bblInfo, loads := 0, stores := 0 }
      pending := [] }
  | some prev => do
    let (s, m, steps) ← BblState.simulateUopsMem l1d fuel prev.oooBbl.uop
      ⟨{ r.core with prevBbl := some bblInfo }, 0, 0, 0, 0⟩ r.l1d
    let c ← s.finishBbl resp lineSize bblInfo
    some ⟨c, m, [], r.blocks ++ [(r.pending, steps)]⟩

def step : CoreEvent σ → Option (MemRun σ)
  | .op op => some { r with core := r.core.recordOp op, pending := r.pending ++ [op] }
  | .branch pc => some { r with core := r.core.branch pc }
  | .bbl fuel resp lineSize bblInfo => r.bbl l1d fuel resp lineSize bblInfo
  | .contextSwitch => some { r with core := { r.core with prevBbl := none } }
  | .advance targetCycle => (r.core.advance targetCycle).map fun c => { r with core := c }
  | .caches m => some { r with l1d := m }

def run : List (CoreEvent σ) → MemRun σ → Option (MemRun σ)
  | [], r => some r
  | e :: es, r =>
    match r.step l1d e with
    | some r => run es r
    | none => none

end MemRun

/-- What the core keeps of an operation: a false one has the address `-1`. -/
def MemOp.stored (op : MemOp) : Nat := if op.pred then op.addr else noAddr

/-- The core can tell what an operation is: it is no false store, and no load of the address that
marks a false one. -/
def MemOp.Recognised (op : MemOp) : Prop :=
  (op.kind = .store → op.pred = true) ∧ (op.kind = .load → op.pred = true → op.addr ≠ noAddr)

/-- A uop with no effect on the memory system, which takes no cycle in it. -/
structure MemStep.NoEffect {σ : Type} (step : MemStep σ) : Prop where
  l1d : step.l1d' = step.l1d
  fwd : step.fwd' = step.fwd
  accesses : step.accesses = []
  commit : step.commitCycle = step.dispatchCycle

/-- A block that requests and records what its true operations do, and nothing for a false one. -/
structure BlockOk {σ : Type} (ops : List MemOp) (steps : List (MemStep σ)) : Prop where
  issued : ∀ k, ((steps.filter fun step => step.kind = some k).flatMap MemStep.accesses).map
    CacheAccess.addr = (ops.filter fun op => op.kind = k ∧ op.pred).map MemOp.addr
  others : ∀ step ∈ steps, step.kind = none → step.accesses = []
  recorded : ∀ step ∈ steps, step.records =
    step.accesses.map fun a => ⟨step.curCycle, a.dispatchCycle, a.respCycle⟩
  frame : ∀ k (i : Nat) op step, (ops.filter fun op => op.kind = k)[i]? = some op →
    (steps.filter fun step => step.kind = some k)[i]? = some step → op.pred = false →
      step.NoEffect

/-- The forwarding table holds no response of a false store. -/
def FwdClean (fwd : Nat → FwdEntry) : Prop := ∀ i, (fwd i).addr = noAddr → (fwd i).storeCycle = 0

/-- The addresses requested for an operation kept with address `a`. -/
def requested (k : OpKind) (a : Nat) : List Nat := if k = .load ∧ a = noAddr then [] else [a]

/-- What a uop does, by the address that it takes. -/
structure MemStep.Follows {σ : Type} (step : MemStep σ) : Prop where
  recorded : step.records =
    step.accesses.map fun a => ⟨step.curCycle, a.dispatchCycle, a.respCycle⟩
  other : step.kind = none → step.accesses = []
  access : ∀ k, step.kind = some k →
    step.accesses.map CacheAccess.addr = requested k step.addr
  falseLoad : step.kind = some .load → step.addr = noAddr →
    step.l1d' = step.l1d ∧ step.fwd' = step.fwd
  noWait : step.kind = some .load → step.addr = noAddr → FwdClean step.fwd →
    step.commitCycle = step.dispatchCycle
  clean : (step.kind = some .store → step.addr ≠ noAddr) → FwdClean step.fwd → FwdClean step.fwd'

namespace BblState

variable {σ : Type} {l1d : DataCache σ} {s s' : BblState} {m m' : σ} {fuel : Nat} {uop : DynUop}
variable {step : MemStep σ} {steps : List (MemStep σ)}

def opIdx (s : BblState) : OpKind → Nat
  | .load => s.loadIdx
  | .store => s.storeIdx

/-- A uop takes the next address of its kind. -/
structure TakesOp (step : MemStep σ) (s s' : BblState) : Prop where
  core : SameMemOps s.core s'.core
  addr : ∀ k, step.kind = some k → step.addr = s.core.opAddrs k (s.opIdx k)
  idx : ∀ k, s'.opIdx k = s.opIdx k + if step.kind = some k then 1 else 0
  before : step.fwd = s.core.fwdArray
  after : step.fwd' = s'.core.fwdArray

theorem simulateUopMem_eq (h : s.simulateUopMem l1d fuel m uop = some (s', m', step)) :
    ∃ s₁ d t, s.beforeLSU fuel uop = some (s₁, d) ∧
      s.simulateUop fuel (s₁.requestL1D l1d m uop d).2.1 uop = some (s', t) ∧
      m' = (s₁.requestL1D l1d m uop d).1 ∧
      step =
        { kind := uop.type.opKind
          addr := s₁.uopAddr uop
          curCycle := s₁.core.curCycle
          dispatchCycle := t.dispatchCycle
          commitCycle := t.commitCycle
          accesses := (s₁.requestL1D l1d m uop d).2.2
          records := (s₁.requestL1D l1d m uop d).2.2.map fun a =>
            ⟨s₁.core.curCycle, a.dispatchCycle, a.respCycle⟩
          l1d := m
          l1d' := (s₁.requestL1D l1d m uop d).1
          fwd := s.core.fwdArray
          fwd' := s'.core.fwdArray } := by
  simp only [simulateUopMem, Option.bind_eq_bind, Option.bind_eq_some_iff, Prod.exists,
    Option.some.injEq, Prod.mk.injEq] at h
  obtain ⟨s₁, d, hbefore, s₂, t, hsim, rfl, rfl, rfl⟩ := h
  exact ⟨s₁, d, t, hbefore, hsim, rfl, rfl⟩

theorem simulateUopMem_takesOp (h : s.simulateUopMem l1d fuel m uop = some (s', m', step)) :
    TakesOp step s s' := by
  obtain ⟨s₁, d, t, hbefore, hsim, -, rfl⟩ := simulateUopMem_eq h
  obtain ⟨hmem, hload, hstore⟩ := beforeLSU_memory hbefore
  have htakes := simulateUop_addr hsim
  refine ⟨htakes.core, ?_, ?_, rfl, rfl⟩
  · intro k hk
    dsimp only at hk ⊢
    unfold uopAddr
    unfold UopType.opKind at hk
    split at hk
    · cases hk
      rw [hmem.loadAddrs, hload]
      rfl
    · cases hk
      rw [hmem.storeAddrs, hstore]
      rfl
    · cases hk
  · intro k
    have hl := htakes.loadIdx
    have hs := htakes.storeIdx
    cases k with
    | load =>
      rw [opIdx, opIdx, hl]
      cases uop.type <;> rfl
    | store =>
      rw [opIdx, opIdx, hs]
      cases uop.type <;> rfl

/-- A false load is asked of no one, and waits for no store if the table has none at `-1`. -/
theorem loadUop_false (c : OOOCore) (d : Nat) (h : FwdClean c.fwdArray) :
    (c.loadUop noAddr d 0).2.2 = (c.loadUop noAddr d 0).2.1 := by
  unfold OOOCore.loadUop
  dsimp only
  rw [if_neg (not_not_intro rfl)]
  split
  · rename_i haddr
    rw [h _ haddr]
    exact Nat.max_zero _
  · rfl

theorem requestL1D_access {k : OpKind} {d : Nat} (hk : uop.type.opKind = some k) :
    (s.requestL1D l1d m uop d).2.2.map CacheAccess.addr = requested k (s.uopAddr uop) := by
  unfold requestL1D
  cases hty : uop.type with
  | UOP_LOAD =>
    rw [hty] at hk
    cases hk
    dsimp only
    unfold requested
    by_cases haddr : s.uopAddr uop = noAddr
    · rw [if_neg (not_not_intro haddr), if_pos ⟨rfl, haddr⟩]
      rfl
    · rw [if_pos haddr, if_neg fun h => haddr h.2]
      rfl
  | UOP_STORE =>
    rw [hty] at hk
    cases hk
    rfl
  | UOP_GENERAL =>
    rw [hty] at hk
    cases hk
  | UOP_STORE_ADDR =>
    rw [hty] at hk
    cases hk
  | UOP_FENCE =>
    rw [hty] at hk
    cases hk

theorem requestL1D_false {d : Nat} (hty : uop.type = .UOP_LOAD) (haddr : s.uopAddr uop = noAddr) :
    s.requestL1D l1d m uop d = (m, 0, []) := by
  unfold requestL1D
  rw [hty]
  exact if_neg (not_not_intro haddr)

theorem requestL1D_other {d : Nat} (hk : uop.type.opKind = none) :
    s.requestL1D l1d m uop d = (m, 0, []) := by
  unfold requestL1D
  cases hty : uop.type with
  | UOP_LOAD =>
    rw [hty] at hk
    cases hk
  | UOP_STORE =>
    rw [hty] at hk
    cases hk
  | UOP_GENERAL => rfl
  | UOP_STORE_ADDR => rfl
  | UOP_FENCE => rfl

theorem executeUop_fwd {d latency : Nat} (hty : uop.type ≠ .UOP_STORE) :
    (s.executeUop uop d latency).1.core.fwdArray = s.core.fwdArray := by
  unfold executeUop
  cases huop : uop.type with
  | UOP_STORE => exact absurd huop hty
  | UOP_GENERAL => rfl
  | UOP_LOAD => rfl
  | UOP_STORE_ADDR => rfl
  | UOP_FENCE => rfl

theorem executeUop_clean {d latency : Nat} (hclean : FwdClean s.core.fwdArray)
    (haddr : uop.type = .UOP_STORE → s.uopAddr uop ≠ noAddr) :
    FwdClean (s.executeUop uop d latency).1.core.fwdArray := by
  by_cases hty : uop.type = .UOP_STORE
  · have hne : s.core.storeAddrs s.storeIdx ≠ noAddr := by
      have := haddr hty
      rw [uopAddr, hty] at this
      exact this
    intro i hi
    unfold executeUop at hi ⊢
    rw [hty] at hi ⊢
    dsimp only [OOOCore.storeUop] at hi ⊢
    rw [Function.update_apply] at hi ⊢
    split at hi
    · exact absurd hi hne
    · rename_i hother
      rw [if_neg hother]
      exact hclean i hi
  · rw [executeUop_fwd hty]
    exact hclean

theorem opKind_load (h : uop.type.opKind = some .load) : uop.type = .UOP_LOAD := by
  cases hty : uop.type with
  | UOP_LOAD => rfl
  | UOP_STORE =>
    rw [hty] at h
    cases h
  | UOP_GENERAL =>
    rw [hty] at h
    cases h
  | UOP_STORE_ADDR =>
    rw [hty] at h
    cases h
  | UOP_FENCE =>
    rw [hty] at h
    cases h

theorem simulateUopMem_follows (h : s.simulateUopMem l1d fuel m uop = some (s', m', step)) :
    step.Follows := by
  obtain ⟨s₁, d, t, hbefore, hsim, -, rfl⟩ := simulateUopMem_eq h
  obtain ⟨hmem, -, -⟩ := beforeLSU_memory hbefore
  have hfwd : s₁.core.fwdArray = s.core.fwdArray := hmem.fwdArray
  obtain ⟨s₂, d₂, hbefore₂, rfl, hdisp, hcommit⟩ := simulateUop_eq hsim
  rw [hbefore] at hbefore₂
  cases hbefore₂
  refine ⟨rfl, ?_, ?_, ?_, ?_, ?_⟩
  · intro hnone
    have hnone := @requestL1D_other _ l1d s₁ m uop d hnone
    dsimp only
    rw [hnone]
  · intro k hk
    exact requestL1D_access hk
  · intro hload haddr
    have hty := opKind_load hload
    refine ⟨congrArg Prod.fst (requestL1D_false hty haddr), ?_⟩
    refine Eq.trans ?_ hfwd
    exact executeUop_fwd (by rw [hty]; exact nofun)
  · intro hload haddr hclean
    have hty := opKind_load hload
    dsimp only at haddr hclean ⊢
    rw [hcommit, hdisp, requestL1D_false hty haddr]
    unfold uopAddr at haddr
    rw [hty] at haddr
    unfold executeUop
    rw [hty]
    dsimp only at haddr ⊢
    rw [haddr]
    exact loadUop_false _ _ (hfwd ▸ hclean)
  · intro haddr hclean
    refine executeUop_clean (hfwd ▸ hclean) ?_
    intro hty
    exact haddr (by rw [hty]; rfl)

/-- What the uops of a block do: one after the other they take the operations of each kind. -/
structure TakesOps (steps : List (MemStep σ)) (s s' : BblState) : Prop where
  core : SameMemOps s.core s'.core
  idx : ∀ k, s'.opIdx k = s.opIdx k + (steps.filter fun step => step.kind = some k).length
  addrs : ∀ k, (steps.filter fun step => step.kind = some k).map MemStep.addr =
    (List.range' (s.opIdx k) (steps.filter fun step => step.kind = some k).length).map
      (s.core.opAddrs k)
  follows : ∀ step ∈ steps, step.Follows
  clean : (∀ step ∈ steps, step.kind = some .store → step.addr ≠ noAddr) →
    FwdClean s.core.fwdArray → FwdClean s'.core.fwdArray ∧ ∀ step ∈ steps,
      step.kind = some .load → step.addr = noAddr → step.commitCycle = step.dispatchCycle

theorem sameMemOps_addrs {c c' : OOOCore} (h : SameMemOps c c') (k : OpKind) :
    c'.opAddrs k = c.opAddrs k ∧ c'.opCount k = c.opCount k := by
  cases k with
  | load => exact ⟨h.loadAddrs, h.loads⟩
  | store => exact ⟨h.storeAddrs, h.stores⟩

theorem TakesOps.cons {s₁ : BblState} (h : TakesOp step s s₁) (hfollows : step.Follows)
    (hrest : TakesOps steps s₁ s') : TakesOps (step :: steps) s s' := by
  refine ⟨h.core.trans hrest.core, ?_, ?_, ?_, ?_⟩
  · intro k
    rw [hrest.idx, h.idx, List.filter_cons]
    by_cases hk : step.kind = some k
    · rw [if_pos hk, if_pos (decide_eq_true hk), List.length_cons]
      omega
    · rw [if_neg hk, if_neg (by simpa using hk), Nat.add_zero]
  · intro k
    have haddrs := hrest.addrs k
    rw [h.idx, (sameMemOps_addrs h.core k).1] at haddrs
    rw [List.filter_cons]
    by_cases hk : step.kind = some k
    · rw [if_pos hk] at haddrs
      rw [if_pos (decide_eq_true hk), List.map_cons, haddrs, List.length_cons, List.range'_succ,
        List.map_cons, h.addr k hk]
    · rw [if_neg hk] at haddrs
      rw [if_neg (by simpa using hk)]
      exact haddrs
  · intro step' hstep'
    rcases List.mem_cons.mp hstep' with rfl | hmem
    · exact hfollows
    · exact hrest.follows step' hmem
  · intro hstores hclean
    rw [← h.before] at hclean
    have hclean₁ := hfollows.clean (hstores step List.mem_cons_self) hclean
    rw [h.after] at hclean₁
    obtain ⟨hclean', hwaits⟩ :=
      hrest.clean (fun step' hmem => hstores step' (List.mem_cons_of_mem _ hmem)) hclean₁
    refine ⟨hclean', ?_⟩
    intro step' hstep' hload haddr
    rcases List.mem_cons.mp hstep' with rfl | hmem
    · exact hfollows.noWait hload haddr hclean
    · exact hwaits step' hmem hload haddr

theorem simulateUopsMem_takesOps {uops : List DynUop}
    (h : simulateUopsMem l1d fuel uops s m = some (s', m', steps)) : TakesOps steps s s' := by
  induction uops generalizing s m steps with
  | nil =>
    cases h
    exact ⟨⟨rfl, rfl, rfl, rfl⟩, fun _ => rfl, fun _ => rfl, nofun,
      fun _ hclean => ⟨hclean, nofun⟩⟩
  | cons uop uops ih =>
    simp only [simulateUopsMem, Option.bind_eq_bind, Option.bind_eq_some_iff, Prod.exists,
      Option.some.injEq, Prod.mk.injEq] at h
    obtain ⟨s₁, m₁, step, hstep, s₂, m₂, steps', hrest, rfl, rfl, rfl⟩ := h
    exact (ih hrest).cons (simulateUopMem_takesOp hstep) (simulateUopMem_follows hstep)

/-- The asserts after the loop: every address recorded was taken. -/
theorem finishBbl_memory {resp : BblResponses} {lineSize : Nat} {bblInfo : BblInfo} {c : OOOCore}
    (h : s.finishBbl resp lineSize bblInfo = some c) :
    (∀ k, s.opIdx k = s.core.opCount k) ∧ (∀ k, c.opCount k = 0) ∧
      c.fwdArray = s.core.fwdArray := by
  simp only [finishBbl, Option.bind_eq_bind, Option.bind_eq_some_iff, Option.guard_eq_some',
    exists_const, Option.some.injEq] at h
  obtain ⟨⟨hload, hstore⟩, rfl⟩ := h
  refine ⟨?_, ?_, rfl⟩
  · intro k
    cases k with
    | load => exact hload
    | store => exact hstore
  · intro k
    cases k with
    | load => rfl
    | store => rfl

end BblState

/-- The steps of a block take its operations, and do what their addresses say. -/
structure BlockFollows {σ : Type} (ops : List MemOp) (steps : List (MemStep σ)) : Prop where
  addrs : ∀ k, (steps.filter fun step => step.kind = some k).map MemStep.addr =
    (ops.filter fun op => op.kind = k).map MemOp.stored
  follows : ∀ step ∈ steps, step.Follows

/-- No store uop takes the address of a false one. -/
def NoFalseStore {σ : Type} (steps : List (MemStep σ)) : Prop :=
  ∀ step ∈ steps, step.kind = some .store → step.addr ≠ noAddr

/-- The core has the addresses of the operations that it was told of, the blocks took theirs, and
with no false store the false loads did not wait. -/
structure MemRun.Inv {σ : Type} (r : MemRun σ) : Prop where
  recorded : ∀ k, (List.range (r.core.opCount k)).map (r.core.opAddrs k) =
    (r.pending.filter fun op => op.kind = k).map MemOp.stored
  blocks : ∀ b ∈ r.blocks, BlockFollows b.1 b.2
  clean : (∀ b ∈ r.blocks, NoFalseStore b.2) → FwdClean r.core.fwdArray ∧
    ∀ b ∈ r.blocks, ∀ step ∈ b.2, step.kind = some .load → step.addr = noAddr →
      step.commitCycle = step.dispatchCycle

namespace MemRun

variable {σ : Type} {l1d : DataCache σ} {r r' : MemRun σ}

theorem init_inv (m : σ) : (init m).Inv := by
  refine ⟨?_, ?_, ?_⟩
  · intro k
    cases k with
    | load => rfl
    | store => rfl
  · intro b hb
    cases hb
  · intro _
    refine ⟨fun _ _ => rfl, ?_⟩
    intro b hb
    cases hb

theorem range_update (f : Nat → Nat) (n a : Nat) :
    (List.range (n + 1)).map (Function.update f n a) = (List.range n).map f ++ [a] := by
  rw [List.range_succ, List.map_append, List.map_singleton, Function.update_self]
  congr 1
  apply List.map_congr_left
  intro i hi
  exact Function.update_of_ne (Nat.ne_of_lt (List.mem_range.mp hi)) ..

theorem recordOp_eq (c : OOOCore) (op : MemOp) : c.recordOp op =
    match op.kind with
    | .load => c.load op.stored
    | .store => c.store op.stored := by
  unfold OOOCore.recordOp MemOp.stored
  cases op.kind with
  | load =>
    dsimp only
    split
    · rfl
    · rfl
  | store =>
    dsimp only
    split
    · rfl
    · rfl

theorem recordOp_addrs (c : OOOCore) (op : MemOp) (k : OpKind) :
    (List.range ((c.recordOp op).opCount k)).map ((c.recordOp op).opAddrs k) =
      (List.range (c.opCount k)).map (c.opAddrs k) ++ if op.kind = k then [op.stored] else [] := by
  rw [recordOp_eq]
  cases op.kind with
  | load =>
    cases k with
    | load => exact range_update c.loadAddrs c.loads op.stored
    | store => exact (List.append_nil _).symm
  | store =>
    cases k with
    | load => exact (List.append_nil _).symm
    | store => exact range_update c.storeAddrs c.stores op.stored

theorem recordOp_fwd (c : OOOCore) (op : MemOp) : (c.recordOp op).fwdArray = c.fwdArray := by
  rw [recordOp_eq]
  cases op.kind with
  | load => rfl
  | store => rfl

theorem advance_memory {c c' : OOOCore} {target : Nat} (h : c.advance target = some c') :
    SameMemory c c' := by
  simp only [OOOCore.advance, Option.bind_eq_bind, Option.bind_eq_some_iff, Prod.exists,
    Option.guard_eq_some', exists_const, Option.some.injEq] at h
  obtain ⟨-, w, cur, -, -, rfl⟩ := h
  exact ⟨⟨rfl, rfl, rfl, rfl⟩, rfl⟩

theorem Inv.sameMemory (h : r.Inv) {c : OOOCore} (hc : SameMemory r.core c) :
    Inv { r with core := c } := by
  refine ⟨?_, h.blocks, ?_⟩
  · intro k
    obtain ⟨haddrs, hcount⟩ := BblState.sameMemOps_addrs hc.toSameMemOps k
    rw [show ({ r with core := c } : MemRun σ).core = c from rfl, haddrs, hcount]
    exact h.recorded k
  · intro hstores
    obtain ⟨hclean, hwaits⟩ := h.clean hstores
    refine ⟨?_, hwaits⟩
    rw [show ({ r with core := c } : MemRun σ).core = c from rfl, hc.fwdArray]
    exact hclean

theorem Inv.op (h : r.Inv) (op : MemOp) :
    Inv { r with core := r.core.recordOp op, pending := r.pending ++ [op] } := by
  refine ⟨?_, h.blocks, ?_⟩
  · intro k
    dsimp only
    rw [recordOp_addrs, h.recorded, List.filter_append, List.map_append]
    congr 1
    by_cases hk : op.kind = k
    · rw [if_pos hk, List.filter_cons, if_pos (decide_eq_true hk)]
      rfl
    · rw [if_neg hk, List.filter_cons, if_neg (by simpa using hk)]
      rfl
  · intro hstores
    dsimp only
    rw [recordOp_fwd]
    exact h.clean hstores

theorem Inv.bbl {fuel lineSize : Nat} {resp : BblResponses} {bblInfo : BblInfo} (h : r.Inv)
    (hbbl : r.bbl l1d fuel resp lineSize bblInfo = some r') : r'.Inv := by
  unfold MemRun.bbl at hbbl
  split at hbbl
  · cases hbbl
    refine ⟨?_, h.blocks, h.clean⟩
    intro k
    cases k with
    | load => rfl
    | store => rfl
  · simp only [Option.bind_eq_bind, Option.bind_eq_some_iff, Prod.exists, Option.some.injEq] at hbbl
    obtain ⟨s, m, steps, hsteps, c, hfinish, rfl⟩ := hbbl
    have htakes := BblState.simulateUopsMem_takesOps hsteps
    obtain ⟨hcounts, hzero, hfwd⟩ := BblState.finishBbl_memory hfinish
    have hblock : BlockFollows r.pending steps := by
      refine ⟨?_, htakes.follows⟩
      intro k
      have hidx := htakes.idx k
      obtain ⟨-, hcount⟩ := BblState.sameMemOps_addrs htakes.core k
      have hlen : (steps.filter fun step => step.kind = some k).length = r.core.opCount k := by
        rw [hcounts, hcount] at hidx
        cases k with
        | load => exact (Nat.zero_add _).symm.trans hidx.symm
        | store => exact (Nat.zero_add _).symm.trans hidx.symm
      rw [htakes.addrs, hlen, ← h.recorded]
      cases k with
      | load => exact congrArg _ List.range_eq_range'.symm
      | store => exact congrArg _ List.range_eq_range'.symm
    refine ⟨?_, ?_, ?_⟩
    · intro k
      dsimp only
      rw [hzero]
      rfl
    · intro b hb
      rcases List.mem_append.mp hb with hold | hnew
      · exact h.blocks b hold
      · rw [List.mem_singleton.mp hnew]
        exact hblock
    · intro hstores
      obtain ⟨hclean, hwaits⟩ := h.clean fun b hb => hstores b (List.mem_append_left _ hb)
      obtain ⟨hclean', hwaits'⟩ := htakes.clean
        (hstores (r.pending, steps) (List.mem_append_right _ List.mem_cons_self)) hclean
      dsimp only
      rw [hfwd]
      refine ⟨hclean', ?_⟩
      intro b hb
      rcases List.mem_append.mp hb with hold | hnew
      · exact hwaits b hold
      · rw [List.mem_singleton.mp hnew]
        exact hwaits'

theorem step_inv {e : CoreEvent σ} (h : r.Inv) (hstep : r.step l1d e = some r') : r'.Inv := by
  cases e with
  | op op =>
    cases hstep
    exact h.op op
  | branch pc =>
    cases hstep
    exact h.sameMemory ⟨⟨rfl, rfl, rfl, rfl⟩, rfl⟩
  | bbl fuel resp lineSize bblInfo => exact h.bbl hstep
  | contextSwitch =>
    cases hstep
    exact h.sameMemory ⟨⟨rfl, rfl, rfl, rfl⟩, rfl⟩
  | advance targetCycle =>
    obtain ⟨c, hadvance, rfl⟩ := Option.map_eq_some_iff.mp hstep
    exact h.sameMemory (advance_memory hadvance)
  | caches m =>
    cases hstep
    exact ⟨h.recorded, h.blocks, h.clean⟩

theorem run_inv {es : List (CoreEvent σ)} (h : r.Inv) (hrun : run l1d es r = some r') :
    r'.Inv := by
  induction es generalizing r with
  | nil =>
    cases hrun
    exact h
  | cons e es ih =>
    rw [run] at hrun
    split at hrun
    · rename_i r₁ hstep
      exact ih (step_inv h hstep) hrun
    · cases hrun

end MemRun

section Blocks

variable {σ : Type} {l1d : DataCache σ} {ops : List MemOp} {steps : List (MemStep σ)}

/-- The requests of a kind are those that the addresses kept for it ask. -/
theorem BlockFollows.issued (h : BlockFollows ops steps) (k : OpKind) :
    ((steps.filter fun step => step.kind = some k).flatMap MemStep.accesses).map CacheAccess.addr =
      (ops.filter fun op => op.kind = k).flatMap fun op => requested k op.stored := by
  have haccess : ∀ step ∈ steps.filter fun step => step.kind = some k,
      step.accesses.map CacheAccess.addr = requested k step.addr := by
    intro step hstep
    obtain ⟨hmem, hk⟩ := List.mem_filter.mp hstep
    exact (h.follows step hmem).access k (of_decide_eq_true hk)
  calc ((steps.filter fun step => step.kind = some k).flatMap MemStep.accesses).map
          CacheAccess.addr
      = (steps.filter fun step => step.kind = some k).flatMap fun step =>
          requested k step.addr := by
        rw [List.map_flatMap]
        exact List.flatMap_congr haccess
    _ = ((steps.filter fun step => step.kind = some k).map MemStep.addr).flatMap
          (requested k) := (List.flatMap_map ..).symm
    _ = (ops.filter fun op => op.kind = k).flatMap fun op => requested k op.stored := by
        rw [h.addrs, List.flatMap_map]

theorem requested_ops (k : OpKind) (hops : ∀ op ∈ ops, op.Recognised) :
    ((ops.filter fun op => op.kind = k).flatMap fun op => requested k op.stored) =
      (ops.filter fun op => op.kind = k ∧ op.pred).map MemOp.addr := by
  induction ops with
  | nil => rfl
  | cons op ops ih =>
    obtain ⟨hstore, hload⟩ := hops op List.mem_cons_self
    have hrest := ih fun op' hop' => hops op' (List.mem_cons_of_mem op hop')
    rw [List.filter_cons, List.filter_cons]
    by_cases hk : op.kind = k
    · rw [if_pos (decide_eq_true hk), List.flatMap_cons, hrest]
      cases hpred : op.pred with
      | true =>
        have hne : ¬ (k = .load ∧ op.addr = noAddr) := fun h =>
          hload (hk.trans h.1) hpred h.2
        rw [if_pos (decide_eq_true ⟨hk, rfl⟩), MemOp.stored, if_pos hpred, requested, if_neg hne]
        rfl
      | false =>
        have hkload : k = .load := by
          cases hop : op.kind with
          | load => exact hk.symm.trans hop
          | store => exact absurd (hstore hop) (hpred ▸ Bool.false_ne_true)
        rw [if_neg (by simp), MemOp.stored, if_neg (hpred ▸ Bool.false_ne_true), requested,
          if_pos ⟨hkload, rfl⟩]
        rfl
    · rw [if_neg (by simpa using hk), if_neg (by simp [hk])]
      exact hrest

theorem BlockFollows.stored_at (h : BlockFollows ops steps) {k : OpKind} {i : Nat} {op : MemOp}
    (hop : (ops.filter fun op => op.kind = k)[i]? = some op) : ∃ step,
    (steps.filter fun step => step.kind = some k)[i]? = some step ∧ step.addr = op.stored := by
  have hat : _[i]? = _[i]? := congrArg (fun l => l[i]?) (h.addrs k)
  rw [List.getElem?_map, List.getElem?_map, hop, Option.map_some] at hat
  exact Option.map_eq_some_iff.mp hat

theorem BlockFollows.blockOk (h : BlockFollows ops steps) (hops : ∀ op ∈ ops, op.Recognised)
    (hwaits : ∀ step ∈ steps, step.kind = some .load → step.addr = noAddr →
      step.commitCycle = step.dispatchCycle) : BlockOk ops steps := by
  refine ⟨?_, fun step hstep => (h.follows step hstep).other,
    fun step hstep => (h.follows step hstep).recorded, ?_⟩
  · intro k
    rw [h.issued, requested_ops k hops]
  · intro k i op step hop hstep hpred
    obtain ⟨hmem, hk⟩ := List.mem_filter.mp (List.mem_of_getElem? hop)
    obtain ⟨hmemStep, hkind⟩ := List.mem_filter.mp (List.mem_of_getElem? hstep)
    obtain ⟨step', hstep', haddr⟩ := h.stored_at hop
    rw [hstep] at hstep'
    cases hstep'
    have hload : k = .load := by
      cases hopk : op.kind with
      | load => exact (of_decide_eq_true hk).symm.trans hopk
      | store => exact absurd ((hops op hmem).1 hopk) (hpred ▸ Bool.false_ne_true)
    have hkind := of_decide_eq_true hkind
    rw [hload] at hkind
    rw [MemOp.stored, if_neg (hpred ▸ Bool.false_ne_true)] at haddr
    have hfollows := h.follows step hmemStep
    obtain ⟨hl1d, hfwd⟩ := hfollows.falseLoad hkind haddr
    refine ⟨hl1d, hfwd, ?_, hwaits step hmemStep hkind haddr⟩
    have haccess := hfollows.access .load hkind
    rw [requested, if_pos ⟨rfl, haddr⟩] at haccess
    exact List.map_eq_nil_iff.mp haccess

theorem BlockFollows.recognised (h : BlockFollows ops steps) (hok : BlockOk ops steps) :
    ∀ op ∈ ops, op.Recognised := by
  intro op hop
  constructor
  · intro hkind
    by_contra hpred
    have hmem : op ∈ ops.filter fun op => op.kind = .store :=
      List.mem_filter.mpr ⟨hop, decide_eq_true hkind⟩
    obtain ⟨i, hi⟩ := List.getElem?_of_mem hmem
    obtain ⟨step, hstep, -⟩ := h.stored_at hi
    obtain ⟨hmemStep, hk⟩ := List.mem_filter.mp (List.mem_of_getElem? hstep)
    have hno := hok.frame .store i op step hi hstep (Bool.eq_false_iff.mpr hpred)
    have haccess := (h.follows step hmemStep).access .store (of_decide_eq_true hk)
    rw [hno.accesses, requested, if_neg nofun] at haccess
    cases haccess
  · intro hkind hpred haddr
    have hmem : noAddr ∈ (ops.filter fun op => op.kind = .load ∧ op.pred).map MemOp.addr :=
      List.mem_map.mpr ⟨op, List.mem_filter.mpr ⟨hop, decide_eq_true ⟨hkind, hpred⟩⟩, haddr⟩
    rw [← hok.issued .load, h.issued] at hmem
    obtain ⟨op', -, hreq⟩ := List.mem_flatMap.mp hmem
    unfold requested at hreq
    split at hreq
    · cases hreq
    · rename_i hne
      exact hne ⟨rfl, (List.mem_singleton.mp hreq).symm⟩

theorem BlockFollows.noFalseStore (h : BlockFollows ops steps) (hops : ∀ op ∈ ops, op.Recognised)
    (hstores : ∀ op ∈ ops, op.kind = .store → op.pred = true → op.addr ≠ noAddr) :
    NoFalseStore steps := by
  intro step hstep hkind
  have hmem : step.addr ∈ (steps.filter fun step => step.kind = some .store).map MemStep.addr :=
    List.mem_map_of_mem (List.mem_filter.mpr ⟨hstep, decide_eq_true hkind⟩)
  rw [h.addrs] at hmem
  obtain ⟨op, hop, haddr⟩ := List.mem_map.mp hmem
  obtain ⟨hop, hk⟩ := List.mem_filter.mp hop
  have hk := of_decide_eq_true hk
  have hpred := (hops op hop).1 hk
  rw [← haddr, MemOp.stored, if_pos hpred]
  exact hstores op hop hk hpred

/-- In every run of a core with any data cache, the blocks request and record just what their true
operations do if and only if the core can tell what each operation is. -/
theorem blocks_ok_iff {es : List (CoreEvent σ)} {m : σ} {r : MemRun σ}
    (h : MemRun.run l1d es (.init m) = some r)
    (hstores : ∀ b ∈ r.blocks, ∀ op ∈ b.1, op.kind = .store → op.pred = true →
      op.addr ≠ noAddr) :
    (∀ b ∈ r.blocks, BlockOk b.1 b.2) ↔ ∀ b ∈ r.blocks, ∀ op ∈ b.1, op.Recognised := by
  have hinv := MemRun.run_inv (MemRun.init_inv m) h
  constructor
  · intro hok b hb
    exact (hinv.blocks b hb).recognised (hok b hb)
  · intro hops b hb
    have hclean := hinv.clean fun b' hb' =>
      (hinv.blocks b' hb').noFalseStore (hops b' hb') (hstores b' hb')
    exact (hinv.blocks b hb).blockOk (hops b hb) (hclean.2 b hb)

end Blocks

/-- A data cache that counts its requests and answers at once. -/
def countingCache : DataCache Nat where
  load := fun n _ _ => (n + 1, 0)
  store := fun n _ _ => (n + 1, 0)

theorem memUops_decoded : [DynUop.mk 0 0 0 0 1 0 .UOP_LOAD 4 0,
    DynUop.mk 0 0 0 0 1 0 .UOP_STORE 16 0].Pairwise fun u v => u.decCycle ≤ v.decCycle := by
  decide

def memBlock : BblInfo where
  bytes := 8
  oooBbl := ⟨[DynUop.mk 0 0 0 0 1 0 .UOP_LOAD 4 0, DynUop.mk 0 0 0 0 1 0 .UOP_STORE 16 0],
    memUops_decoded⟩

/-- The block run once, with the predicates of its load and of its store. -/
def memBlockRun (load store : Bool) : Option (MemRun Nat) :=
  MemRun.run countingCache
    [.bbl 0 ⟨fun _ => 0, fun _ => 0, true⟩ 64 memBlock, .op ⟨.load, 4096, load⟩,
      .op ⟨.store, 8192, store⟩, .bbl 0 ⟨fun _ => 0, fun _ => 0, true⟩ 64 memBlock] (.init 0)

set_option maxRecDepth 2000 in
theorem memBlockRun_some : ∀ load store, (memBlockRun load store).isSome = true := by decide

def memBlockEnd (load store : Bool) : MemRun Nat :=
  (memBlockRun load store).get (memBlockRun_some load store)

theorem memBlockRun_eq (load store : Bool) :
    memBlockRun load store = some (memBlockEnd load store) := (Option.some_get _).symm

theorem blocks_ok_iff_memBlock : (∀ b ∈ (memBlockEnd false true).blocks, BlockOk b.1 b.2) ↔
    ∀ b ∈ (memBlockEnd false true).blocks, ∀ op ∈ b.1, op.Recognised :=
  blocks_ok_iff (memBlockRun_eq false true) (by decide)

/-- A false store asks the data cache for the address that marks it. -/
theorem false_store_issued : ¬ ∀ (es : List (CoreEvent Nat)) (m : Nat) (r : MemRun Nat),
    MemRun.run countingCache es (.init m) = some r → ∀ b ∈ r.blocks, BlockOk b.1 b.2 := by
  intro h
  have hok := h _ 0 _ (memBlockRun_eq true false)
    ((memBlockEnd true false).blocks.get ⟨0, by decide⟩) (List.get_mem ..)
  exact absurd (hok.issued .store) (by decide)

end ZSim.OOO
