import ZSim.OOOBbl

/-! The timing laws of the out-of-order core, over every run of its calls: the uops dispatch
after their sources and the loads and stores after the store addresses, and the cycles only
advance. A uop that a register read or a full window carries into the next cycle is not counted
there. -/

namespace ZSim.OOO

def UopTiming.type (t : UopTiming) : UopType := t.uop.type

def UopTiming.writes (r : Nat) (t : UopTiming) : Bool := t.uop.rd0 == r || t.uop.rd1 == r

/-- A store through an entry of the forwarding table. -/
def UopTiming.storesAt (i : Nat) (t : UopTiming) : Bool :=
  t.type == .UOP_STORE && t.addr.map fwdIdx == some i

/-- What a uop keeps to after the earlier ones, newest first. -/
structure UopLegal (t : UopTiming) (tr : List UopTiming) : Prop where
  decode : ∀ v ∈ tr, v.decodeCycle ≤ t.decodeCycle
  issue : ∀ v ∈ tr, v.issueCycle ≤ t.issueCycle
  sources : ∀ r, r = t.uop.rs0 ∨ r = t.uop.rs1 → r ≠ 0 →
    ∀ w, tr.find? (UopTiming.writes r) = some w → w.commitCycle ≤ t.dispatchCycle
  storeAddrs : t.type = .UOP_LOAD ∨ t.type = .UOP_STORE →
    ∀ v ∈ tr, v.type = .UOP_STORE_ADDR → v.commitCycle < t.dispatchCycle
  fences : t.type = .UOP_LOAD ∨ t.type = .UOP_STORE →
    ∀ l f l', tr = l ++ f :: l' → f.type = .UOP_FENCE →
      ∀ v ∈ l', v.type = .UOP_STORE → v.commitCycle < t.dispatchCycle
  forward : t.type = .UOP_LOAD → ∀ addr, t.addr = some addr →
    ∀ v, tr.find? (UopTiming.storesAt (fwdIdx addr)) = some v → v.addr = some addr →
      v.commitCycle ≤ t.commitCycle

inductive Legal : List UopTiming → Prop
  | nil : Legal []
  | cons {t : UopTiming} {tr : List UopTiming} : UopLegal t tr → Legal tr → Legal (t :: tr)

/-- No cycle issues more uops than it should. -/
def IssueWidth (tr : List UopTiming) : Prop :=
  ∀ cycle, tr.countP (fun t => t.issueCycle = cycle) ≤ ISSUES_PER_CYCLE

/-- What the core keeps of the uops simulated. -/
structure TimingInv (c : OOOCore) (tr : List UopTiming) : Prop where
  legal : Legal tr
  decoded : ∀ v ∈ tr, v.decodeCycle ≤ c.decodeCycle
  issued : ∀ v ∈ tr, v.issueCycle ≤ c.curCycle
  regs : ∀ r, r ≠ 0 → ∀ w, tr.find? (UopTiming.writes r) = some w →
    c.regScoreboard r = w.commitCycle
  storeAddrs : ∀ v ∈ tr, v.type = .UOP_STORE_ADDR → v.commitCycle ≤ c.lastStoreAddrCommitCycle
  stores : ∀ v ∈ tr, v.type = .UOP_STORE → v.commitCycle ≤ c.lastStoreCommitCycle
  fences : ∀ l f l', tr = l ++ f :: l' → f.type = .UOP_FENCE →
    ∀ v ∈ l', v.type = .UOP_STORE → v.commitCycle ≤ c.lastStoreAddrCommitCycle
  forward : ∀ i v, tr.find? (UopTiming.storesAt i) = some v →
    v.addr = some (c.fwdArray i).addr ∧ v.commitCycle = (c.fwdArray i).storeCycle

theorem TimingInv.init : TimingInv .init [] := by
  refine ⟨Legal.nil, ?_, ?_, ?_, ?_, ?_, ?_, ?_⟩
  · simp
  · simp
  · simp
  · simp
  · simp
  · intro l f l' h
    simp at h
  · simp

/-- The stages before the LSU advance the cycles and leave what the laws rest on. -/
structure Advances (c c' : OOOCore) : Prop where
  cur : c.curCycle ≤ c'.curCycle
  decode : c.decodeCycle ≤ c'.decodeCycle
  regs : ∀ r, r ≠ 0 → c'.regScoreboard r = c.regScoreboard r
  storeAddr : c'.lastStoreAddrCommitCycle = c.lastStoreAddrCommitCycle
  store : c'.lastStoreCommitCycle = c.lastStoreCommitCycle
  forward : c'.fwdArray = c.fwdArray

namespace Advances

variable {c c' c'' : OOOCore}

theorem trans (h : Advances c c') (h' : Advances c' c'') : Advances c c'' :=
  ⟨h.cur.trans h'.cur, h.decode.trans h'.decode, fun r hr => (h'.regs r hr).trans (h.regs r hr),
    h'.storeAddr.trans h.storeAddr, h'.store.trans h.store, h'.forward.trans h.forward⟩

theorem timingInv {tr : List UopTiming} (h : Advances c c') (hinv : TimingInv c tr) :
    TimingInv c' tr := by
  refine ⟨hinv.legal, ?_, ?_, ?_, ?_, ?_, ?_, ?_⟩
  · intro v hv
    exact (hinv.decoded v hv).trans h.decode
  · intro v hv
    exact (hinv.issued v hv).trans h.cur
  · intro r hr
    rw [h.regs r hr]
    exact hinv.regs r hr
  · rw [h.storeAddr]
    exact hinv.storeAddrs
  · rw [h.store]
    exact hinv.stores
  · rw [h.storeAddr]
    exact hinv.fences
  · rw [h.forward]
    exact hinv.forward

end Advances

namespace OOOCore

variable {c c' : OOOCore} {uop : DynUop} {cOps dispatchCycle : Nat}

theorem advancePos_spec {n : Nat} (h : c.advancePos n = some c') :
    Advances c c' ∧ c'.curCycle = c.curCycle + n ∧ c'.decodeCycle = c.decodeCycle ∧
      c'.curCycleIssuedUops = c.curCycleIssuedUops := by
  rw [advancePos] at h
  split at h
  · rename_i w cur hadv
    have hcur := WindowStructure.advanceBy_cycle hadv
    cases h
    refine ⟨⟨?_, Nat.le_refl _, fun _ _ => rfl, rfl, rfl, rfl⟩, hcur, rfl, rfl⟩
    rw [hcur]
    exact Nat.le_add_right _ _
  · cases h

theorem decodeUop_spec {decDiff : Nat} (h : c.decodeUop decDiff = some c') : Advances c c' := by
  simp only [decodeUop, Option.bind_eq_bind, Option.bind_eq_some_iff, Option.some.injEq] at h
  obtain ⟨c₁, hadv, rfl⟩ := h
  rw [stallDecode] at hadv
  have hdecode : c.decodeCycle ≤ max (c.decodeCycle + decDiff) c.uopQueue.minAllocCycle := by omega
  split at hadv
  · have h₁ := (advancePos_spec hadv).1
    exact ⟨h₁.cur, hdecode.trans h₁.decode, h₁.regs, h₁.storeAddr, h₁.store, h₁.forward⟩
  · cases hadv
    exact ⟨Nat.le_refl _, hdecode, fun _ _ => rfl, rfl, rfl, rfl⟩

theorem issueUop_spec (h : c.issueUop = some c') : Advances c c' := by
  simp only [issueUop, Option.bind_eq_bind, Option.bind_eq_some_iff, Option.some.injEq] at h
  obtain ⟨c₁, hadv, rfl⟩ := h
  rw [stallIssue] at hadv
  split at hadv
  · have h₁ := (advancePos_spec hadv).1
    exact ⟨h₁.cur, h₁.decode, h₁.regs, h₁.storeAddr, h₁.store, h₁.forward⟩
  · cases hadv
    exact ⟨Nat.le_refl _, Nat.le_refl _, fun _ _ => rfl, rfl, rfl, rfl⟩

theorem killInvalid_regs {r : Nat} (hr : r ≠ 0) :
    c.killInvalid.regScoreboard r = c.regScoreboard r :=
  Function.update_of_ne hr _ _

/-- The cycle at which the sources are ready is not before any of them. -/
theorem readRegs_spec (h : c.readRegs uop = some (c', cOps)) :
    Advances c c' ∧ ∀ r, r = uop.rs0 ∨ r = uop.rs1 → r ≠ 0 → c.regScoreboard r ≤ cOps := by
  simp only [readRegs, Option.bind_eq_bind, Option.bind_eq_some_iff, Option.some.injEq,
    Prod.mk.injEq] at h
  obtain ⟨c₁, hadv, rfl, rfl⟩ := h
  rw [stallReads] at hadv
  refine ⟨?_, ?_⟩
  · split at hadv
    · have h₁ := (advancePos_spec hadv).1
      exact ⟨h₁.cur, h₁.decode, fun r hr => (h₁.regs r hr).trans (killInvalid_regs hr),
        h₁.storeAddr, h₁.store, h₁.forward⟩
    · cases hadv
      exact ⟨Nat.le_refl _, Nat.le_refl _, fun r hr => killInvalid_regs hr, rfl, rfl, rfl⟩
  · intro r hsrc hr
    rw [← killInvalid_regs (c := c) hr]
    rcases hsrc with rfl | rfl
    · exact Nat.le_max_left _ _
    · exact Nat.le_max_right _ _

/-- The request is within the range of the window positions. -/
def InRange (c : OOOCore) (cOps : Nat) : Prop :=
  c.dispatchRequest cOps + 1024 ≤ c.curCycle + 2 ^ 32

theorem dispatchUop_spec {fuel : Nat} (hrange : c.InRange cOps)
    (h : c.dispatchUop fuel uop cOps = some (c', dispatchCycle)) :
    Advances c c' ∧ cOps ≤ dispatchCycle := by
  simp only [dispatchUop, Option.bind_eq_bind, Option.bind_eq_some_iff, Prod.exists,
    Option.some.injEq, Prod.mk.injEq] at h
  obtain ⟨w, cur, disp, hsched, rfl, rfl⟩ := h
  obtain ⟨hcur, hreq, -⟩ := WindowStructure.schedule_spec hrange (by decide) hsched
  refine ⟨?_, (Nat.le_max_left _ _).trans hreq⟩
  split
  · exact ⟨hcur, Nat.le_refl _, fun _ _ => rfl, rfl, rfl, rfl⟩
  · exact ⟨hcur, Nat.le_refl _, fun _ _ => rfl, rfl, rfl, rfl⟩

end OOOCore

/-- What the LSU simulation of a uop does to the core, given the cycle at which the window
dispatches it. -/
structure Executes (c c' : OOOCore) (uop : DynUop) (dispatchCycle : Nat) (t : UopTiming) :
    Prop where
  cur : c'.curCycle = c.curCycle
  decode : c'.decodeCycle = c.decodeCycle
  issuedUops : c'.curCycleIssuedUops = c.curCycleIssuedUops
  regs : c'.regScoreboard = c.regScoreboard
  dispatch : dispatchCycle ≤ t.dispatchCycle
  storeAddr : c.lastStoreAddrCommitCycle ≤ c'.lastStoreAddrCommitCycle
  store : c.lastStoreCommitCycle ≤ c'.lastStoreCommitCycle
  ownAddr : uop.type = .UOP_STORE_ADDR → t.commitCycle ≤ c'.lastStoreAddrCommitCycle
  ownStore : uop.type = .UOP_STORE → t.commitCycle ≤ c'.lastStoreCommitCycle
  fence : uop.type = .UOP_FENCE → c.lastStoreCommitCycle ≤ c'.lastStoreAddrCommitCycle
  wait : uop.type = .UOP_LOAD ∨ uop.type = .UOP_STORE →
    c.lastStoreAddrCommitCycle < t.dispatchCycle
  forwards : uop.type = .UOP_STORE → ∃ addr, t.addr = some addr ∧
    c'.fwdArray = Function.update c.fwdArray (fwdIdx addr) ⟨addr, t.commitCycle⟩
  keeps : uop.type ≠ .UOP_STORE → c'.fwdArray = c.fwdArray
  forwarded : uop.type = .UOP_LOAD → ∀ addr, t.addr = some addr →
    (c.fwdArray (fwdIdx addr)).addr = addr → (c.fwdArray (fwdIdx addr)).storeCycle ≤ t.commitCycle

namespace BblState

variable {uop : DynUop} {dispatchCycle latency decodeCycle issueCycle : Nat}

theorem executeUop_spec (s : BblState) :
    Executes s.core (s.executeUop uop dispatchCycle latency).1.core uop dispatchCycle
      ⟨uop, (s.executeUop uop dispatchCycle latency).2.2.2, decodeCycle, issueCycle,
        (s.executeUop uop dispatchCycle latency).2.1,
        (s.executeUop uop dispatchCycle latency).2.2.1⟩ := by
  unfold executeUop
  cases hty : uop.type with
  | UOP_GENERAL =>
    constructor <;> simp [hty]
  | UOP_LOAD =>
    constructor <;> simp [hty, OOOCore.loadUop, OOOCore.lsuDispatch]
    intro hfwd
    rw [if_pos hfwd]
    exact Nat.le_max_right _ _
  | UOP_STORE =>
    constructor <;> simp [hty, OOOCore.storeUop, OOOCore.lsuDispatch]
  | UOP_STORE_ADDR =>
    constructor <;> simp [hty]
  | UOP_FENCE =>
    constructor <;> simp [hty]

end BblState

section Retire

variable {c c' : OOOCore} {uop : DynUop} {dispatchCycle : Nat} {t : UopTiming}
variable {tr : List UopTiming}

theorem TimingInv.uopLegal (h : TimingInv c tr) (hex : Executes c c' uop dispatchCycle t)
    (huop : t.uop = uop) (hdecode : t.decodeCycle = c.decodeCycle)
    (hissue : t.issueCycle = c.curCycle)
    (hsrc : ∀ r, r = uop.rs0 ∨ r = uop.rs1 → r ≠ 0 → c.regScoreboard r ≤ dispatchCycle) :
    UopLegal t tr := by
  subst huop
  constructor
  · intro v hv
    rw [hdecode]
    exact h.decoded v hv
  · intro v hv
    rw [hissue]
    exact h.issued v hv
  · intro r hr hr0 w hw
    rw [← h.regs r hr0 w hw]
    exact (hsrc r hr hr0).trans hex.dispatch
  · intro hmem v hv hty
    exact Nat.lt_of_le_of_lt (h.storeAddrs v hv hty) (hex.wait hmem)
  · intro hmem l f l' heq hf v hv hty
    exact Nat.lt_of_le_of_lt (h.fences l f l' heq hf v hv hty) (hex.wait hmem)
  · intro hload addr haddr v hv hva
    obtain ⟨hfa, hfc⟩ := h.forward _ v hv
    rw [hfa, Option.some.injEq] at hva
    rw [hfc]
    exact hex.forwarded hload addr haddr hva

theorem TimingInv.retire (h : TimingInv c tr) (hex : Executes c c' uop dispatchCycle t)
    (huop : t.uop = uop) (hdecode : t.decodeCycle = c.decodeCycle)
    (hissue : t.issueCycle = c.curCycle)
    (hsrc : ∀ r, r = uop.rs0 ∨ r = uop.rs1 → r ≠ 0 → c.regScoreboard r ≤ dispatchCycle) :
    TimingInv (c'.retireUop uop t.commitCycle) (t :: tr) := by
  have hlegal := h.uopLegal hex huop hdecode hissue hsrc
  subst huop
  refine ⟨Legal.cons hlegal h.legal, ?_, ?_, ?_, ?_, ?_, ?_, ?_⟩
  · intro v hv
    show v.decodeCycle ≤ c'.decodeCycle
    rw [hex.decode]
    rcases List.mem_cons.mp hv with rfl | hv
    · exact hdecode.le
    · exact h.decoded v hv
  · intro v hv
    show v.issueCycle ≤ c'.curCycle
    rw [hex.cur]
    rcases List.mem_cons.mp hv with rfl | hv
    · exact hissue.le
    · exact h.issued v hv
  · intro r hr w hw
    rw [List.find?_cons] at hw
    cases hwr : t.writes r with
    | true =>
      rw [hwr] at hw
      cases hw
      simp only [UopTiming.writes, Bool.or_eq_true, beq_iff_eq] at hwr
      by_cases h1 : r = t.uop.rd1
      · simp [OOOCore.retireUop, h1]
      · have h0 : r = t.uop.rd0 := by omega
        rw [OOOCore.retireUop]
        simp only
        rw [Function.update_of_ne h1, h0, Function.update_self]
    | false =>
      rw [hwr] at hw
      simp only [UopTiming.writes, Bool.or_eq_false_iff, beq_eq_false_iff_ne] at hwr
      rw [← h.regs r hr w hw, OOOCore.retireUop]
      simp only
      rw [Function.update_of_ne (Ne.symm hwr.2), Function.update_of_ne (Ne.symm hwr.1), hex.regs]
  · intro v hv hty
    rcases List.mem_cons.mp hv with rfl | hv
    · exact hex.ownAddr hty
    · exact (h.storeAddrs v hv hty).trans hex.storeAddr
  · intro v hv hty
    rcases List.mem_cons.mp hv with rfl | hv
    · exact hex.ownStore hty
    · exact (h.stores v hv hty).trans hex.store
  · intro l f l' heq hf v hv hty
    cases l with
    | nil =>
      obtain ⟨rfl, rfl⟩ := List.cons.inj heq
      exact (h.stores v hv hty).trans (hex.fence hf)
    | cons u l =>
      obtain ⟨rfl, rfl⟩ := List.cons.inj heq
      exact (h.fences l f l' rfl hf v hv hty).trans hex.storeAddr
  · intro i v hv
    show v.addr = some (c'.fwdArray i).addr ∧ v.commitCycle = (c'.fwdArray i).storeCycle
    rw [List.find?_cons] at hv
    cases hst : t.storesAt i with
    | true =>
      rw [hst] at hv
      cases hv
      simp only [UopTiming.storesAt, Bool.and_eq_true, beq_iff_eq] at hst
      obtain ⟨addr, haddr, hfwd⟩ := hex.forwards hst.1
      have hidx : fwdIdx addr = i := by simpa [haddr] using hst.2
      rw [hfwd, hidx, Function.update_self, haddr]
      exact ⟨rfl, rfl⟩
    | false =>
      rw [hst] at hv
      have hsame : c'.fwdArray i = c.fwdArray i := by
        by_cases hty : t.uop.type = .UOP_STORE
        · obtain ⟨addr, haddr, hfwd⟩ := hex.forwards hty
          have hidx : fwdIdx addr ≠ i := by
            simpa [UopTiming.storesAt, UopTiming.type, hty, haddr] using hst
          rw [hfwd, Function.update_of_ne (Ne.symm hidx)]
        · rw [hex.keeps hty]
      rw [hsame]
      exact h.forward i v hv

end Retire

namespace BblState

variable {s s' : BblState} {uop : DynUop} {fuel latency cOps : Nat} {t : UopTiming}
variable {tr : List UopTiming} {c : OOOCore}

theorem frontEnd_spec (h : s.frontEnd uop = some (c, cOps)) :
    Advances s.core c ∧
      ∀ r, r = uop.rs0 ∨ r = uop.rs1 → r ≠ 0 → s.core.regScoreboard r ≤ cOps := by
  simp only [frontEnd, Option.bind_eq_bind, Option.bind_eq_some_iff] at h
  obtain ⟨c₁, hdec, c₂, hiss, hread⟩ := h
  have h₂ := (OOOCore.decodeUop_spec hdec).trans (OOOCore.issueUop_spec hiss)
  obtain ⟨h₃, hsrc⟩ := OOOCore.readRegs_spec hread
  refine ⟨h₂.trans h₃, ?_⟩
  intro r hr hr0
  rw [← h₂.regs r hr0]
  exact hsrc r hr hr0

/-- What the window is asked for is within the range of its positions. -/
def InRange (s : BblState) (uop : DynUop) : Prop :=
  ∀ c cOps, s.frontEnd uop = some (c, cOps) → c.InRange cOps

theorem simulateUop_cases (h : s.simulateUop fuel latency uop = some (s', t)) :
    ∃ c cOps c' dispatchCycle c'', s.frontEnd uop = some (c, cOps) ∧
      c.dispatchUop fuel uop cOps = some (c', dispatchCycle) ∧
      Executes c' c'' uop dispatchCycle t ∧ s'.core = c''.retireUop uop t.commitCycle ∧
      t.uop = uop ∧ t.decodeCycle = c'.decodeCycle ∧ t.issueCycle = c'.curCycle := by
  simp only [simulateUop, Option.bind_eq_bind, Option.bind_eq_some_iff, Prod.exists,
    Option.some.injEq, Prod.mk.injEq] at h
  obtain ⟨c, cOps, hfront, c', disp, hdisp, rfl, rfl⟩ := h
  exact ⟨c, cOps, c', disp, _, hfront, hdisp,
    executeUop_spec { s with core := c', prevDecCycle := uop.decCycle }, rfl, rfl, rfl, rfl⟩

theorem simulateUop_spec (hinv : TimingInv s.core tr) (hrange : s.InRange uop)
    (h : s.simulateUop fuel latency uop = some (s', t)) :
    TimingInv s'.core (t :: tr) ∧ s.core.curCycle ≤ s'.core.curCycle ∧
      s.core.decodeCycle ≤ s'.core.decodeCycle := by
  obtain ⟨c, cOps, c', disp, c'', hfront, hdisp, hex, hcore, huop, hdecode, hissue⟩ :=
    simulateUop_cases h
  obtain ⟨hadv, hsrc⟩ := frontEnd_spec hfront
  obtain ⟨hadv', hcops⟩ := OOOCore.dispatchUop_spec (hrange c cOps hfront) hdisp
  have hall := hadv.trans hadv'
  rw [hcore]
  refine ⟨(hall.timingInv hinv).retire hex huop hdecode hissue ?_, ?_, ?_⟩
  · intro r hr hr0
    rw [hall.regs r hr0]
    exact (hsrc r hr hr0).trans hcops
  · show s.core.curCycle ≤ c''.curCycle
    rw [hex.cur]
    exact hall.cur
  · show s.core.decodeCycle ≤ c''.decodeCycle
    rw [hex.decode]
    exact hall.decode

/-- Every turn of the loop meets a condition on the state before and the uop. -/
def UopsOk (Ok : BblState → DynUop → Prop) (fuel : Nat) (data : Nat → Nat) :
    Nat → List DynUop → BblState → Prop
  | _, [], _ => True
  | i, uop :: uops, s => Ok s uop ∧
    ∀ s' t, s.simulateUop fuel (data i) uop = some (s', t) → UopsOk Ok fuel data (i + 1) uops s'

theorem UopsOk.of_forall {Ok : BblState → DynUop → Prop} (h : ∀ s uop, Ok s uop)
    {data : Nat → Nat} {i : Nat} {uops : List DynUop} : UopsOk Ok fuel data i uops s := by
  induction uops generalizing s i with
  | nil => trivial
  | cons uop uops ih => exact ⟨h s uop, fun _ _ _ => ih⟩

theorem UopsOk.imp {Ok Ok' : BblState → DynUop → Prop} {data : Nat → Nat} {i : Nat}
    {uops : List DynUop} (himp : ∀ s uop, Ok s uop → Ok' s uop)
    (h : UopsOk Ok fuel data i uops s) : UopsOk Ok' fuel data i uops s := by
  induction uops generalizing s i with
  | nil => trivial
  | cons uop uops ih => exact ⟨himp s uop h.1, fun s' t hs => ih (h.2 s' t hs)⟩

theorem simulateUops_spec {data : Nat → Nat} {i : Nat} {uops : List DynUop}
    {tr' : List UopTiming} (hinv : TimingInv s.core tr) (hok : UopsOk InRange fuel data i uops s)
    (h : simulateUops fuel data i uops s tr = some (s', tr')) :
    TimingInv s'.core tr' ∧ s.core.curCycle ≤ s'.core.curCycle ∧
      s.core.decodeCycle ≤ s'.core.decodeCycle := by
  induction uops generalizing s i tr with
  | nil =>
    cases h
    exact ⟨hinv, Nat.le_refl _, Nat.le_refl _⟩
  | cons uop uops ih =>
    rw [simulateUops] at h
    split at h
    · rename_i s₁ t hsim
      obtain ⟨hinv₁, hcur, hdec⟩ := simulateUop_spec hinv hok.1 hsim
      obtain ⟨hinv', hcur', hdec'⟩ := ih hinv₁ (hok.2 s₁ t hsim) h
      exact ⟨hinv', hcur.trans hcur', hdec.trans hdec'⟩
    · cases h

theorem finishBbl_spec {resp : BblResponses} {lineSize : Nat} {bblInfo : BblInfo}
    (h : s.finishBbl resp lineSize bblInfo = some c) :
    Advances s.core c ∧ c.curCycle = s.core.curCycle ∧
      c.curCycleIssuedUops = s.core.curCycleIssuedUops := by
  simp only [finishBbl, Option.bind_eq_bind, Option.bind_eq_some_iff, Option.some.injEq] at h
  obtain ⟨_, -, rfl⟩ := h
  refine ⟨⟨Nat.le_refl _, ?_, fun _ _ => rfl, rfl, rfl, rfl⟩, rfl, rfl⟩
  simp only
  omega

end BblState

/-- Every uop that a call simulates meets the condition. -/
def CallOk (Ok : BblState → DynUop → Prop) (c : OOOCore) : CoreCall → Prop
  | .bbl fuel resp _ bblInfo => ∀ prev, c.prevBbl = some prev →
    BblState.UopsOk Ok fuel resp.data 0 prev.oooBbl.uop
      ⟨{ c with prevBbl := some bblInfo }, 0, 0, 0, 0⟩
  | _ => True

/-- The runs of calls on a core, with the uops simulated, newest first. -/
inductive Run (Ok : BblState → DynUop → Prop) : OOOCore → List UopTiming → Prop
  | init : Run Ok .init []
  | call {c c' : OOOCore} {tr tr' : List UopTiming} {k : CoreCall} : Run Ok c tr → CallOk Ok c k →
      c.call tr k = some (c', tr') → Run Ok c' tr'

theorem CallOk.imp {Ok Ok' : BblState → DynUop → Prop} {c : OOOCore} {k : CoreCall}
    (himp : ∀ s uop, Ok s uop → Ok' s uop) (h : CallOk Ok c k) : CallOk Ok' c k := by
  cases k with
  | bbl fuel resp lineSize bblInfo => exact fun prev hprev => (h prev hprev).imp himp
  | load addr => trivial
  | store addr => trivial
  | predFalseLoad => trivial
  | predFalseStore => trivial
  | branch pc => trivial

theorem Run.imp {Ok Ok' : BblState → DynUop → Prop} {c : OOOCore} {tr : List UopTiming}
    (himp : ∀ s uop, Ok s uop → Ok' s uop) (h : Run Ok c tr) : Run Ok' c tr := by
  induction h with
  | init => exact Run.init
  | call _ hok hcall ih => exact ih.call (hok.imp himp) hcall

section Runs

variable {c c' : OOOCore} {tr tr' : List UopTiming} {k : CoreCall}

theorem call_spec (hinv : TimingInv c tr) (hok : CallOk BblState.InRange c k)
    (h : c.call tr k = some (c', tr')) :
    TimingInv c' tr' ∧ c.curCycle ≤ c'.curCycle ∧ c.decodeCycle ≤ c'.decodeCycle := by
  have hframe : ∀ c' : OOOCore, Advances c c' →
      TimingInv c' tr ∧ c.curCycle ≤ c'.curCycle ∧ c.decodeCycle ≤ c'.decodeCycle :=
    fun c' hadv => ⟨hadv.timingInv hinv, hadv.cur, hadv.decode⟩
  cases k with
  | load addr =>
    cases h
    exact hframe _ ⟨Nat.le_refl _, Nat.le_refl _, fun _ _ => rfl, rfl, rfl, rfl⟩
  | store addr =>
    cases h
    exact hframe _ ⟨Nat.le_refl _, Nat.le_refl _, fun _ _ => rfl, rfl, rfl, rfl⟩
  | predFalseLoad =>
    cases h
    exact hframe _ ⟨Nat.le_refl _, Nat.le_refl _, fun _ _ => rfl, rfl, rfl, rfl⟩
  | predFalseStore =>
    cases h
    exact hframe _ ⟨Nat.le_refl _, Nat.le_refl _, fun _ _ => rfl, rfl, rfl, rfl⟩
  | branch pc =>
    cases h
    exact hframe _ ⟨Nat.le_refl _, Nat.le_refl _, fun _ _ => rfl, rfl, rfl, rfl⟩
  | bbl fuel resp lineSize bblInfo =>
    rw [OOOCore.call, OOOCore.bbl] at h
    split at h
    · cases h
      exact hframe _ ⟨Nat.le_refl _, Nat.le_refl _, fun _ _ => rfl, rfl, rfl, rfl⟩
    · rename_i prev hprev
      simp only [Option.bind_eq_bind, Option.bind_eq_some_iff, Prod.exists, Option.some.injEq,
        Prod.mk.injEq] at h
      obtain ⟨s, tr₁, hsim, c₁, hfin, rfl, rfl⟩ := h
      have hinv₀ := (hframe { c with prevBbl := some bblInfo }
        ⟨Nat.le_refl _, Nat.le_refl _, fun _ _ => rfl, rfl, rfl, rfl⟩).1
      obtain ⟨hinv₁, hcur, hdec⟩ := BblState.simulateUops_spec hinv₀ (hok prev hprev) hsim
      have hadv := (BblState.finishBbl_spec hfin).1
      exact ⟨hadv.timingInv hinv₁, hcur.trans hadv.cur, hdec.trans hadv.decode⟩

theorem Run.timingInv (h : Run BblState.InRange c tr) : TimingInv c tr := by
  induction h with
  | init => exact TimingInv.init
  | call _ hok hcall ih => exact (call_spec ih hok hcall).1

/-- Before the LSU no uop is carried into a later cycle once it is counted: the decoder is less
than `2 ^ 32` cycles ahead, the register reads do not stall and the window has room. -/
structure Counted (s : BblState) (uop : DynUop) : Prop where
  decode : max (s.core.decodeCycle + (uop.decCycle - s.prevDecCycle))
    s.core.uopQueue.minAllocCycle < s.core.curCycle + 2 ^ 32
  reads : ∀ c₁ c₂, s.core.decodeUop (uop.decCycle - s.prevDecCycle) = some c₁ →
    c₁.issueUop = some c₂ →
    c₂.killInvalid.curCycleRFReads + c₂.killInvalid.rfReads uop ≤ RF_READS_PER_CYCLE
  room : ∀ c cOps, s.frontEnd uop = some (c, cOps) → c.insWindow.occupancy ≠ WSZ

/-- The uops issued in the current cycle are counted, with `n` more on their way. -/
structure WidthInv (c : OOOCore) (tr : List UopTiming) (n : Nat) : Prop where
  issued : ∀ v ∈ tr, v.issueCycle ≤ c.curCycle
  counted : tr.countP (fun t => t.issueCycle = c.curCycle) + n ≤ c.curCycleIssuedUops
  limit : c.curCycleIssuedUops ≤ ISSUES_PER_CYCLE
  width : IssueWidth tr

theorem countP_eq_zero_of_lt {cycle cycle' : Nat} (h : ∀ v ∈ tr, v.issueCycle ≤ cycle)
    (hlt : cycle < cycle') : tr.countP (fun t => t.issueCycle = cycle') = 0 := by
  rw [List.countP_eq_zero]
  intro v hv
  have := h v hv
  simp only [decide_eq_true_eq]
  omega

namespace WidthInv

variable {n : Nat}

theorem init : WidthInv .init [] 0 := by
  refine ⟨?_, Nat.le_refl _, Nat.zero_le _, ?_⟩
  · simp
  · intro cycle
    simp

theorem frame (h : WidthInv c tr n) (hcur : c'.curCycle = c.curCycle)
    (hissued : c'.curCycleIssuedUops = c.curCycleIssuedUops) : WidthInv c' tr n := by
  refine ⟨?_, ?_, ?_, h.width⟩
  · rw [hcur]
    exact h.issued
  · rw [hcur, hissued]
    exact h.counted
  · rw [hissued]
    exact h.limit

theorem advancePos (h : WidthInv c tr n) {m : Nat} {c₀ : OOOCore}
    (hadv : c₀.advancePos m = some c') (hm : 0 < m) (hcur : c₀.curCycle = c.curCycle)
    (hissued : c₀.curCycleIssuedUops = 0) : WidthInv c' tr 0 := by
  obtain ⟨-, hcur', -, hissued'⟩ := OOOCore.advancePos_spec hadv
  rw [hcur] at hcur'
  rw [hissued] at hissued'
  have hzero := countP_eq_zero_of_lt h.issued (show c.curCycle < c'.curCycle by omega)
  refine ⟨?_, ?_, ?_, h.width⟩
  · intro v hv
    have := h.issued v hv
    omega
  · omega
  · rw [hissued']
    exact Nat.zero_le _

theorem decodeUop (h : WidthInv c tr 0) {decDiff : Nat}
    (hrange : max (c.decodeCycle + decDiff) c.uopQueue.minAllocCycle < c.curCycle + 2 ^ 32)
    (hdec : c.decodeUop decDiff = some c') : WidthInv c' tr 0 := by
  simp only [OOOCore.decodeUop, Option.bind_eq_bind, Option.bind_eq_some_iff,
    Option.some.injEq] at hdec
  obtain ⟨c₁, hadv, rfl⟩ := hdec
  rw [OOOCore.stallDecode] at hadv
  split at hadv
  · rename_i hlt
    simp only at hlt hadv
    rw [Nat.mod_eq_of_lt (by omega)] at hadv
    exact (h.advancePos hadv (by omega) rfl rfl).frame rfl rfl
  · cases hadv
    exact h.frame rfl rfl

theorem issueUop (h : WidthInv c tr 0) (hiss : c.issueUop = some c') : WidthInv c' tr 1 := by
  simp only [OOOCore.issueUop, Option.bind_eq_bind, Option.bind_eq_some_iff,
    Option.some.injEq] at hiss
  obtain ⟨c₁, hadv, rfl⟩ := hiss
  have h₁ : WidthInv c₁ tr 0 ∧ c₁.curCycleIssuedUops < ISSUES_PER_CYCLE := by
    rw [OOOCore.stallIssue] at hadv
    split at hadv
    · have hissued := (OOOCore.advancePos_spec hadv).2.2.2
      refine ⟨h.advancePos hadv Nat.one_pos rfl rfl, ?_⟩
      rw [hissued]
      exact Nat.succ_pos 3
    · cases hadv
      exact ⟨h, by omega⟩
  obtain ⟨hinv, hlt⟩ := h₁
  exact ⟨hinv.issued, Nat.succ_le_succ hinv.counted, hlt, hinv.width⟩

end WidthInv

/-- A uop that is not carried issues in the cycle that counts it. -/
theorem simulateUop_width {s s' : BblState} {uop : DynUop} {fuel latency : Nat} {t : UopTiming}
    (hinv : WidthInv s.core tr 0) (hrange : s.InRange uop) (hcount : Counted s uop)
    (h : s.simulateUop fuel latency uop = some (s', t)) : WidthInv s'.core (t :: tr) 0 := by
  obtain ⟨c, cOps, c', disp, c'', hfront, hdisp, hex, hcore, -, -, hissue⟩ :=
    BblState.simulateUop_cases h
  have hroom := hcount.room c cOps hfront
  have hrange' := hrange c cOps hfront
  simp only [BblState.frontEnd, Option.bind_eq_bind, Option.bind_eq_some_iff] at hfront
  obtain ⟨c₁, hdec, c₂, hiss, hread⟩ := hfront
  have h₂ := (hinv.decodeUop hcount.decode hdec).issueUop hiss
  have h₃ : WidthInv c tr 1 := by
    have hreads := hcount.reads c₁ c₂ hdec hiss
    simp only [OOOCore.readRegs, OOOCore.stallReads, Option.bind_eq_bind, Option.bind_eq_some_iff,
      Option.some.injEq, Prod.mk.injEq, if_neg (Nat.not_lt.mpr hreads)] at hread
    obtain ⟨_, rfl, rfl, -⟩ := hread
    exact h₂.frame rfl rfl
  have h₄ : WidthInv c' tr 1 := by
    simp only [OOOCore.dispatchUop, Option.bind_eq_bind, Option.bind_eq_some_iff, Prod.exists,
      Option.some.injEq, Prod.mk.injEq] at hdisp
    obtain ⟨w, cur, d, hsched, rfl, rfl⟩ := hdisp
    have hsame := (WindowStructure.schedule_spec hrange' (by decide) hsched).2.2 hroom
    rw [if_neg (by omega)]
    exact h₃.frame hsame rfl
  have hcur : s'.core.curCycle = c'.curCycle := by
    rw [hcore]
    exact hex.cur
  have hissued : s'.core.curCycleIssuedUops = c'.curCycleIssuedUops := by
    rw [hcore]
    exact hex.issuedUops
  have hcounted := h₄.counted
  have hlimit := h₄.limit
  refine ⟨?_, ?_, by omega, ?_⟩
  · intro v hv
    rw [hcur]
    rcases List.mem_cons.mp hv with rfl | hv
    · exact hissue.le
    · exact h₄.issued v hv
  · rw [hcur, List.countP_cons_of_pos (by simp [hissue])]
    omega
  · intro cycle
    by_cases heq : cycle = c'.curCycle
    · rw [heq, List.countP_cons_of_pos (by simp [hissue])]
      omega
    · rw [List.countP_cons_of_neg (by simp [hissue, Ne.symm heq])]
      exact h₄.width cycle

theorem simulateUops_width {s s' : BblState} {fuel i : Nat} {data : Nat → Nat}
    {uops : List DynUop} (hinv : WidthInv s.core tr 0)
    (hok : BblState.UopsOk (fun s uop => s.InRange uop ∧ Counted s uop) fuel data i uops s)
    (h : BblState.simulateUops fuel data i uops s tr = some (s', tr')) :
    WidthInv s'.core tr' 0 := by
  induction uops generalizing s i tr with
  | nil =>
    cases h
    exact hinv
  | cons uop uops ih =>
    rw [BblState.simulateUops] at h
    split at h
    · rename_i s₁ t hsim
      exact ih (simulateUop_width hinv hok.1.1 hok.1.2 hsim) (hok.2 s₁ t hsim) h
    · cases h

theorem Run.widthInv (h : Run (fun s uop => s.InRange uop ∧ Counted s uop) c tr) :
    WidthInv c tr 0 := by
  induction h with
  | init => exact WidthInv.init
  | @call c c' tr tr' k _ hok hcall ih =>
    cases k with
    | load addr =>
      cases hcall
      exact ih.frame rfl rfl
    | store addr =>
      cases hcall
      exact ih.frame rfl rfl
    | predFalseLoad =>
      cases hcall
      exact ih.frame rfl rfl
    | predFalseStore =>
      cases hcall
      exact ih.frame rfl rfl
    | branch pc =>
      cases hcall
      exact ih.frame rfl rfl
    | bbl fuel resp lineSize bblInfo =>
      rw [OOOCore.call, OOOCore.bbl] at hcall
      split at hcall
      · cases hcall
        exact ih.frame rfl rfl
      · rename_i prev hprev
        simp only [Option.bind_eq_bind, Option.bind_eq_some_iff, Prod.exists, Option.some.injEq,
          Prod.mk.injEq] at hcall
        obtain ⟨s, tr₁, hsim, c₁, hfin, rfl, rfl⟩ := hcall
        have ih₀ : WidthInv { c with prevBbl := some bblInfo } tr 0 := ih.frame rfl rfl
        have hinv := simulateUops_width ih₀ (hok prev hprev) hsim
        obtain ⟨-, hcur, hissued⟩ := BblState.finishBbl_spec hfin
        exact hinv.frame hcur hissued

/-- The laws of the uops hold in every run within the range of the window, whose cycles only
advance, and the issue width in every run that carries no uop past the cycle that counts it. -/
theorem timing_laws (h : Run BblState.InRange c tr) : Legal tr ∧
    (∀ k c' tr', CallOk BblState.InRange c k → c.call tr k = some (c', tr') →
      c.curCycle ≤ c'.curCycle ∧ c.decodeCycle ≤ c'.decodeCycle) ∧
    (Run (fun s uop => s.InRange uop ∧ Counted s uop) c tr → IssueWidth tr) :=
  ⟨h.timingInv.legal, fun _ _ _ hok hcall => (call_spec h.timingInv hok hcall).2,
    fun hrun => hrun.widthInv.width⟩

end Runs

/-- A uop of one cycle with the given sources. -/
def aluUop (rs0 rs1 : Nat) : DynUop := ⟨rs0, rs1, 0, 0, 1, 0, .UOP_GENERAL, 0x23, 0⟩

def atOnce : BblResponses := ⟨fun _ => 0, fun _ => 0, true⟩

theorem decoded_two :
    [aluUop 1 0, aluUop 0 2].Pairwise fun u v => u.decCycle ≤ v.decCycle := by
  simp [aluUop]

def twoUops : BblInfo := ⟨8, ⟨[aluUop 1 0, aluUop 0 2], decoded_two⟩⟩

theorem timing_laws_twoUops : ∃ c tr, Run BblState.InRange c tr ∧ tr.length = 2 ∧ Legal tr ∧
    IssueWidth tr := by
  have h0 := @Run.init fun s uop => s.InRange uop ∧ Counted s uop
  have h1 := h0.call (k := .bbl 0 atOnce 64 twoUops) (by intro prev h; cases h) rfl
  have h2 := h1.call (k := .bbl 0 atOnce 64 twoUops) (by
    intro prev h
    cases h
    refine ⟨⟨?_, ?_⟩, ?_⟩
    · intro c cOps h
      cases h
      unfold OOOCore.InRange
      decide
    · refine ⟨by decide, ?_, ?_⟩
      · intro c₁ c₂ h₁ h₂
        cases h₁
        cases h₂
        decide
      · intro c cOps h
        cases h
        decide
    · intro s t h
      cases h
      refine ⟨⟨?_, ?_⟩, ?_⟩
      · intro c cOps h
        cases h
        unfold OOOCore.InRange
        decide
      · refine ⟨by decide, ?_, ?_⟩
        · intro c₁ c₂ h₁ h₂
          cases h₁
          cases h₂
          decide
        · intro c cOps h
          cases h
          decide
      · intro s' t' h
        trivial) rfl
  have h := timing_laws (h2.imp fun _ _ hok => hok.1)
  exact ⟨_, _, h2.imp fun _ _ hok => hok.1, rfl, h.1, h.2.2 h2⟩

/-- Two uops with two sources each, then four without. -/
def stalledUops : List DynUop :=
  [aluUop 1 2, aluUop 3 4, aluUop 0 0, aluUop 0 0, aluUop 0 0, aluUop 0 0]

theorem decoded_stalled : stalledUops.Pairwise fun u v => u.decCycle ≤ v.decCycle := by
  simp [stalledUops, aluUop]

def readStall : BblInfo := ⟨16, ⟨stalledUops, decoded_stalled⟩⟩

/-- The uop that a register read carries into the next cycle is not counted there. -/
theorem read_stall_issues_five :
    ¬ ∀ c tr, Run (fun _ _ => True) c tr → Legal tr ∧ IssueWidth tr := by
  intro h
  have h0 := @Run.init fun _ _ => True
  have h1 := h0.call (k := .bbl 0 atOnce 64 readStall) (by intro prev h; cases h) rfl
  have h2 := h1.call (k := .bbl 0 atOnce 64 readStall)
    (fun prev _ => BblState.UopsOk.of_forall fun _ _ => trivial) rfl
  have h5 := (h _ _ h2).2 5
  revert h5
  decide

end ZSim.OOO
