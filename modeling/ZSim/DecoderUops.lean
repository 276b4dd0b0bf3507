import Mathlib.Data.List.GetD
import ZSim.OOOBbl

/-! The templates that decompose instructions into uops, and the data flow through the registers
of what they emit. -/

namespace ZSim.OOO

/-- The address registers of a memory operand, 0 for none. -/
structure MemOperand where
  baseReg : Nat
  indexReg : Nat
  deriving DecidableEq

def MAX_INSTR_LOADS : Nat := 4

def MAX_INSTR_STORES : Nat := 4

/-- An instruction over registers up to `REG_LAST`, within the arrays of the decoder. -/
structure Instr (REG_LAST : Nat) where
  loadOps : List MemOperand
  storeOps : List MemOperand
  inRegs : List Nat
  outRegs : List Nat
  /-- The width in bits of the second operand. -/
  operandWidth : Nat
  loads_le : loadOps.length ≤ MAX_INSTR_LOADS
  stores_le : storeOps.length ≤ MAX_INSTR_STORES
  inRegs_le : inRegs.length ≤ 4
  outRegs_le : outRegs.length ≤ 4
  addr_le : ∀ op ∈ loadOps ++ storeOps, op.baseReg ≤ REG_LAST ∧ op.indexReg ≤ REG_LAST
  regs_valid : ∀ r ∈ inRegs ++ outRegs, 0 < r ∧ r ≤ REG_LAST

namespace Decoder

def PORT_0 : BitVec 8 := 0x1

def PORT_1 : BitVec 8 := 0x2

def PORT_2 : BitVec 8 := 0x4

def PORT_3 : BitVec 8 := 0x8

def PORT_4 : BitVec 8 := 0x10

def PORT_5 : BitVec 8 := 0x20

def PORTS_015 : BitVec 8 := PORT_0 ||| PORT_1 ||| PORT_5

variable (REG_LAST : Nat)

def REG_LOAD_TEMP : Nat := REG_LAST + 1

def REG_STORE_TEMP : Nat := REG_LOAD_TEMP REG_LAST + MAX_INSTR_LOADS

def REG_STORE_ADDR_TEMP : Nat := REG_STORE_TEMP REG_LAST + MAX_INSTR_STORES

def REG_EXEC_TEMP : Nat := REG_STORE_ADDR_TEMP REG_LAST + MAX_INSTR_STORES

def clearUop : DynUop := ⟨0, 0, 0, 0, 0, 0, .UOP_GENERAL, 0, 0⟩

/-- The load of operand `idx`, into its temporary register. -/
def emitLoad (idx : Nat) (op : MemOperand) : DynUop :=
  { clearUop with
    rs0 := op.baseReg
    rs1 := op.indexReg
    rd0 := REG_LOAD_TEMP REG_LAST + idx
    type := .UOP_LOAD
    portMask := PORT_2 }

/-- The store of operand `idx`, from its temporary register. -/
def emitStore (idx : Nat) (op : MemOperand) : List DynUop :=
  [{ clearUop with
      rs0 := op.baseReg
      rs1 := op.indexReg
      rd0 := REG_STORE_ADDR_TEMP REG_LAST + idx
      lat := 1
      portMask := PORT_3
      type := .UOP_STORE_ADDR },
    { clearUop with
      rs0 := REG_STORE_ADDR_TEMP REG_LAST + idx
      rs1 := REG_STORE_TEMP REG_LAST + idx
      portMask := PORT_4
      type := .UOP_STORE }]

variable {REG_LAST} (instr : Instr REG_LAST)

def emitLoads : List DynUop := instr.loadOps.mapIdx (emitLoad REG_LAST)

def emitStores : List DynUop := (instr.storeOps.mapIdx (emitStore REG_LAST)).flatten

def emitExecUop (rs0 rs1 rd0 rd1 lat : Nat) (ports : BitVec 8) (extraSlots : Nat) : DynUop :=
  ⟨rs0, rs1, rd0, rd1, lat, 0, .UOP_GENERAL, ports, extraSlots⟩

def srcs : Nat := instr.loadOps.length + instr.inRegs.length

def dsts : Nat := instr.storeOps.length + instr.outRegs.length

/-- The sources, without the two zeros behind them. -/
def sources : List Nat :=
  (List.range instr.loadOps.length).map (fun i => REG_LOAD_TEMP REG_LAST + i) ++ instr.inRegs

def dests : List Nat :=
  (List.range instr.storeOps.length).map (fun i => REG_STORE_TEMP REG_LAST + i) ++ instr.outRegs

def srcReg (i : Nat) : Nat := (sources instr).getD i 0

def dstReg (i : Nat) : Nat := (dests instr).getD i 0

/-- The uops of an instruction, and whether it was reported as unhandled. -/
structure Emitted where
  uops : List DynUop
  unhandled : Bool

def emitBasicOp (lat : Nat) (ports : BitVec 8) (extraSlots : Nat) (reportUnhandled : Bool) :
    Emitted where
  uops := emitLoads instr ++
    [emitExecUop (srcReg instr 0) (srcReg instr 1) (dstReg instr 0) (dstReg instr 1) lat ports
      extraSlots] ++ emitStores instr
  unhandled := reportUnhandled && (2 < srcs instr || 2 < dsts instr)

/-- The loop over the uops in the middle of a chain. -/
def emitChain (latArray : Nat → Nat) (portsArray : Nat → BitVec 8) (numUops : Nat) : List DynUop :=
  (List.range' 1 (numUops - 2)).map fun i =>
    emitExecUop (REG_EXEC_TEMP REG_LAST) (srcReg instr (i + 1)) (REG_EXEC_TEMP REG_LAST) 0
      (latArray i) (portsArray i) 0

def emitChainedOp (numUops : Nat) (latArray : Nat → Nat) (portsArray : Nat → BitVec 8) :
    Option Emitted := do
  guard (1 < numUops)
  guard (numUops + 1 ≤ srcs instr + 2)
  some ⟨emitLoads instr ++
    [emitExecUop (srcReg instr 0) (srcReg instr 1) (REG_EXEC_TEMP REG_LAST) 0 (latArray 0)
      (portsArray 0) 0] ++
    emitChain instr latArray portsArray numUops ++
    [emitExecUop (REG_EXEC_TEMP REG_LAST) (srcReg instr (numUops - 1)) (dstReg instr 0)
      (dstReg instr 1) (latArray (numUops - 1)) (portsArray (numUops - 1)) 0] ++
    emitStores instr, false⟩

def emitConvert2Op (lat1 lat2 : Nat) (ports1 ports2 : BitVec 8) : Emitted :=
  if 0 < instr.storeOps.length ∨ 1 < instr.loadOps.length ∨ instr.outRegs.length ≠ 1 ∨
      srcs instr ≠ 1 then ⟨[], true⟩
  else
    let src := if 0 < instr.loadOps.length then REG_LOAD_TEMP REG_LAST else instr.inRegs.getD 0 0
    ⟨emitLoads instr ++
      [emitExecUop src 0 (REG_EXEC_TEMP REG_LAST) 0 lat1 ports1 0,
        emitExecUop (REG_EXEC_TEMP REG_LAST) 0 (instr.outRegs.getD 0 0) 0 lat2 ports2 0], false⟩

def emitMul : Option Emitted :=
  if dsts instr = 3 then do
    guard (srcs instr ≤ 2)
    some ⟨emitLoads instr ++
      [emitExecUop (srcReg instr 0) (srcReg instr 1) (dstReg instr 0) (REG_EXEC_TEMP REG_LAST) 3
          PORT_1 0,
        emitExecUop (srcReg instr 0) (srcReg instr 1) (dstReg instr 1)
          (REG_EXEC_TEMP REG_LAST + 1) 3 PORT_1 0,
        emitExecUop (REG_EXEC_TEMP REG_LAST) (REG_EXEC_TEMP REG_LAST + 1) (dstReg instr 2) 0 1
          PORTS_015 0] ++ emitStores instr, false⟩
  else some (emitBasicOp instr 3 PORT_1 0 true)

/-- The latency of a division by the width of its operands. -/
def divLat : Nat → Option Nat
  | 8 => some 15
  | 16 => some 19
  | 32 => some 23
  | 64 => some 63
  | _ => none

def emitDiv : Option Emitted := do
  guard (1 < instr.inRegs.length)
  let lat ← divLat instr.operandWidth
  let extraSlots := lat - 1
  if srcs instr = 3 ∧ dsts instr = 3 then
    some ⟨emitLoads instr ++
      [emitExecUop (srcReg instr 0) (srcReg instr 1) (REG_EXEC_TEMP REG_LAST) 0 lat PORTS_015
          extraSlots,
        emitExecUop (srcReg instr 0) (srcReg instr 2) (REG_EXEC_TEMP REG_LAST + 1) 0 lat PORTS_015
          extraSlots,
        emitExecUop (REG_EXEC_TEMP REG_LAST) (REG_EXEC_TEMP REG_LAST + 1) (dstReg instr 0)
          (dstReg instr 1) 1 PORTS_015 0,
        emitExecUop (REG_EXEC_TEMP REG_LAST) (REG_EXEC_TEMP REG_LAST + 1) (dstReg instr 2) 0 1
          PORTS_015 0] ++ emitStores instr, false⟩
  else if srcs instr ≤ 2 ∧ dsts instr ≤ 2 then
    some (emitBasicOp instr lat PORTS_015 extraSlots true)
  else some ⟨[], true⟩

inductive Template
  | basicOp (lat : Nat) (ports : BitVec 8) (extraSlots : Nat) (reportUnhandled : Bool)
  | chainedOp (numUops : Nat) (latArray : Nat → Nat) (portsArray : Nat → BitVec 8)
  | convert2Op (lat1 lat2 : Nat) (ports1 ports2 : BitVec 8)
  | mul
  | div

def emit : Template → Option Emitted
  | .basicOp lat ports extraSlots reportUnhandled =>
    some (emitBasicOp instr lat ports extraSlots reportUnhandled)
  | .chainedOp numUops latArray portsArray => emitChainedOp instr numUops latArray portsArray
  | .convert2Op lat1 lat2 ports1 ports2 => some (emitConvert2Op instr lat1 lat2 ports1 ports2)
  | .mul => emitMul instr
  | .div => emitDiv instr

/-- The operand counts that the template is for. -/
def Fits : Template → Prop
  | .basicOp .. => srcs instr ≤ 2 ∧ dsts instr ≤ 2
  | .chainedOp numUops .. => srcs instr = numUops + 1 ∧ dsts instr ≤ 2
  | _ => True

/-- The uops that a template emits for an instruction it handles. -/
structure Emits (t : Template) (uops : List DynUop) : Prop where
  emit : emit instr t = some ⟨uops, false⟩
  fits : Fits instr t

/-- What the value of a register comes from. -/
inductive Source
  | load (k : Nat)
  | reg (r : Nat)
  deriving DecidableEq

/-- The sources of each register and of the values stored, and the loads so far. -/
structure Flow where
  regs : Nat → List Source
  loads : Nat
  stored : List (List Source)

namespace Flow

def init : Flow := ⟨fun r => if r = 0 then [] else [.reg r], 0, []⟩

/-- Register 0 is invalid and carries nothing. -/
def write (f : Flow) (rd0 rd1 : Nat) (v : List Source) : Flow :=
  { f with regs := fun r => if r = 0 then [] else if r = rd0 ∨ r = rd1 then v else f.regs r }

def step (f : Flow) (u : DynUop) : Flow :=
  let v := f.regs u.rs0 ++ f.regs u.rs1
  match u.type with
  | .UOP_LOAD => { f.write u.rd0 u.rd1 (.load f.loads :: v) with loads := f.loads + 1 }
  | .UOP_STORE => { f with stored := f.stored ++ [f.regs u.rs1] }
  | _ => f.write u.rd0 u.rd1 v

def run (f : Flow) (uops : List DynUop) : Flow := uops.foldl step f

end Flow

/-- The loads and the input registers of an instruction. -/
def inputs : List Source :=
  (List.range instr.loadOps.length).map .load ++ instr.inRegs.map .reg

/-- Each temporary register that a uop reads was written before. -/
def ReadsWritten (REG_LAST : Nat) : List Nat → List DynUop → Prop
  | _, [] => True
  | written, u :: uops =>
    (∀ r, r = u.rs0 ∨ r = u.rs1 → REG_LAST < r → r ∈ written) ∧
      ReadsWritten REG_LAST (u.rd0 :: u.rd1 :: written) uops

def addrRegs (u : DynUop) : MemOperand := ⟨u.rs0, u.rs1⟩

/-- One load uop for each operand read and a pair of store uops for each one written. -/
structure KeepsMemOps (uops : List DynUop) : Prop where
  loads : (uops.filter fun u => u.type = .UOP_LOAD).map addrRegs = instr.loadOps
  storeAddrs : (uops.filter fun u => u.type = .UOP_STORE_ADDR).map addrRegs = instr.storeOps
  stores : (uops.filter fun u => u.type = .UOP_STORE).length = instr.storeOps.length
  readsWritten : ReadsWritten REG_LAST [] uops

/-- Each output register and each value stored depends on each load and input register. -/
structure KeepsDataFlow (uops : List DynUop) : Prop where
  outRegs : ∀ r ∈ instr.outRegs, ∀ s ∈ inputs instr, s ∈ (Flow.init.run uops).regs r
  stored : (Flow.init.run uops).stored.length = instr.storeOps.length ∧
    ∀ v ∈ (Flow.init.run uops).stored, ∀ s ∈ inputs instr, s ∈ v

/-- The last input register of a chain, which no uop of it reads, goes in elsewhere: as another
input or into the address of a load. Or there is nothing to compute. -/
def LastSourceGoesIn : Template → Prop
  | .chainedOp .. => dsts instr = 0 ∨ ∃ r, instr.inRegs.getLast? = some r ∧
      (r ∈ instr.inRegs.dropLast ∨ ∃ op ∈ instr.loadOps, r = op.baseReg ∨ r = op.indexReg)
  | _ => True

variable {instr} {f : Flow} {x : Source} {ops : List MemOperand} {uops vs : List DynUop}
variable {written : List Nat}

theorem loadTemp_eq : REG_LOAD_TEMP REG_LAST = REG_LAST + 1 := rfl

theorem storeTemp_eq : REG_STORE_TEMP REG_LAST = REG_LAST + 5 := rfl

theorem storeAddrTemp_eq : REG_STORE_ADDR_TEMP REG_LAST = REG_LAST + 9 := rfl

theorem execTemp_eq : REG_EXEC_TEMP REG_LAST = REG_LAST + 13 := rfl

theorem write_regs (f : Flow) (rd0 rd1 : Nat) (v : List Source) (r : Nat) :
    (f.write rd0 rd1 v).regs r =
      if r = 0 then [] else if r = rd0 ∨ r = rd1 then v else f.regs r := rfl

theorem run_append (f : Flow) (uops vs : List DynUop) :
    f.run (uops ++ vs) = (f.run uops).run vs := List.foldl_append

theorem regs_zero_step (f : Flow) (h : f.regs 0 = []) (u : DynUop) : (f.step u).regs 0 = [] := by
  unfold Flow.step
  cases u.type with
  | UOP_STORE => exact h
  | _ => rfl

theorem regs_zero_run (h : f.regs 0 = []) (uops : List DynUop) : (f.run uops).regs 0 = [] := by
  induction uops generalizing f with
  | nil => exact h
  | cons u uops ih => exact ih (regs_zero_step f h u)

/-- What the loads leave: each temporary register comes from its load and the address. -/
structure AfterLoads (REG_LAST : Nat) (ops : List MemOperand) (f : Flow) : Prop where
  loads : f.loads = ops.length
  stored : f.stored = []
  temps : ∀ k, k < ops.length → f.regs (REG_LOAD_TEMP REG_LAST + k) =
    .load k :: (Flow.init.regs (ops.getD k ⟨0, 0⟩).baseReg ++
      Flow.init.regs (ops.getD k ⟨0, 0⟩).indexReg)
  others : ∀ r, r < REG_LOAD_TEMP REG_LAST → f.regs r = Flow.init.regs r

theorem afterLoads (ops : List MemOperand)
    (haddr : ∀ op ∈ ops, op.baseReg ≤ REG_LAST ∧ op.indexReg ≤ REG_LAST) :
    AfterLoads REG_LAST ops (Flow.init.run (ops.mapIdx (emitLoad REG_LAST))) := by
  induction ops using List.reverseRecOn with
  | nil => exact ⟨rfl, rfl, fun k hk => absurd hk (Nat.not_lt_zero k), fun _ _ => rfl⟩
  | append_singleton ops op ih =>
    have hf := ih fun op hop => haddr op (List.mem_append_left _ hop)
    obtain ⟨hbase, hindex⟩ := haddr op (List.mem_append_right _ List.mem_cons_self)
    rw [List.mapIdx_append, run_append]
    generalize Flow.init.run (ops.mapIdx (emitLoad REG_LAST)) = f at hf
    have hb := hf.others op.baseReg (Nat.lt_succ_of_le hbase)
    have hi := hf.others op.indexReg (Nat.lt_succ_of_le hindex)
    have hstep : f.run (List.mapIdx (fun i => emitLoad REG_LAST (i + ops.length)) [op]) =
        { f.write (REG_LOAD_TEMP REG_LAST + ops.length) 0 (.load ops.length ::
            (Flow.init.regs op.baseReg ++ Flow.init.regs op.indexReg)) with
          loads := ops.length + 1 } := by
      simp only [List.mapIdx_cons, List.mapIdx_nil, Flow.run, List.foldl_cons, List.foldl_nil,
        Flow.step, emitLoad, hb, hi, hf.loads, Nat.zero_add]
      rfl
    rw [hstep]
    refine ⟨by simp, hf.stored, fun k hk => ?_, fun r hr => ?_⟩
    · rw [List.length_append, List.length_singleton] at hk
      rw [write_regs, loadTemp_eq, if_neg (by omega)]
      by_cases hlast : k = ops.length
      · rw [if_pos (by omega), hlast]
        simp
      · have hlt : k < ops.length := by omega
        rw [if_neg (by omega), ← loadTemp_eq, hf.temps k hlt,
          List.getD_append _ _ _ _ hlt]
    · rw [write_regs]
      rw [loadTemp_eq] at hr ⊢
      split
      · rename_i hz
        rw [hz]
        rfl
      · rw [if_neg (by omega)]
        exact hf.others r hr

/-- The stores write their address registers only, and store what the temporary registers have. -/
theorem stores_run (h : f.regs 0 = []) (hops : ops.length ≤ MAX_INSTR_STORES) :
    (f.run (ops.mapIdx (emitStore REG_LAST)).flatten).stored = f.stored ++
      (List.range ops.length).map (fun k => f.regs (REG_STORE_TEMP REG_LAST + k)) ∧
    ∀ r, r < REG_STORE_ADDR_TEMP REG_LAST →
      (f.run (ops.mapIdx (emitStore REG_LAST)).flatten).regs r = f.regs r := by
  induction ops using List.reverseRecOn with
  | nil => exact ⟨(List.append_nil _).symm, fun _ _ => rfl⟩
  | append_singleton ops op ih =>
    rw [List.length_append, List.length_singleton] at hops
    obtain ⟨hstored, hregs⟩ := ih (by omega)
    have hzero := regs_zero_run h (ops.mapIdx (emitStore REG_LAST)).flatten
    rw [List.mapIdx_append, List.flatten_append, run_append]
    generalize f.run (ops.mapIdx (emitStore REG_LAST)).flatten = f' at hstored hregs hzero
    have hwrite : ∀ r, r < REG_STORE_ADDR_TEMP REG_LAST → ∀ v,
        (f'.write (REG_STORE_ADDR_TEMP REG_LAST + ops.length) 0 v).regs r = f'.regs r := by
      intro r hr v
      rw [write_regs]
      rw [storeAddrTemp_eq] at hr ⊢
      split
      · rename_i hz
        rw [hz, hzero]
      · rw [if_neg (by omega)]
    have htemp : REG_STORE_TEMP REG_LAST + ops.length < REG_STORE_ADDR_TEMP REG_LAST := by
      rw [REG_STORE_ADDR_TEMP]
      omega
    have hrun : f'.run (List.mapIdx (fun i => emitStore REG_LAST (i + ops.length)) [op]).flatten =
        { f'.write (REG_STORE_ADDR_TEMP REG_LAST + ops.length) 0
            (f'.regs op.baseReg ++ f'.regs op.indexReg) with
          stored := f'.stored ++ [f'.regs (REG_STORE_TEMP REG_LAST + ops.length)] } := by
      rw [← hwrite _ htemp (f'.regs op.baseReg ++ f'.regs op.indexReg)]
      simp only [List.mapIdx_cons, List.mapIdx_nil, List.flatten_cons, List.flatten_nil,
        List.append_nil, Flow.run, emitStore, Nat.zero_add]
      rfl
    rw [hrun]
    constructor
    · rw [hstored, hregs _ htemp, List.length_append, List.length_singleton, List.range_succ,
        List.map_append, List.append_assoc]
      rfl
    · intro r hr
      exact (hwrite r hr _).trans (hregs r hr)

theorem general_stored (h : ∀ u ∈ uops, u.type = .UOP_GENERAL) (f : Flow) :
    (f.run uops).stored = f.stored := by
  induction uops generalizing f with
  | nil => rfl
  | cons u uops ih =>
    have hu : (f.step u).stored = f.stored := by
      simp only [Flow.step, h u List.mem_cons_self]
      rfl
    exact (ih (fun v hv => h v (List.mem_cons_of_mem u hv)) (f.step u)).trans hu

theorem dests_lt {d : Nat} (h : d ∈ dests instr) : 0 < d ∧ d < REG_STORE_ADDR_TEMP REG_LAST := by
  rw [storeAddrTemp_eq]
  rcases List.mem_append.mp h with h | h
  · obtain ⟨k, hk, rfl⟩ := List.mem_map.mp h
    have := List.mem_range.mp hk
    have hle : instr.storeOps.length ≤ 4 := instr.stores_le
    rw [storeTemp_eq]
    omega
  · have := instr.regs_valid d (List.mem_append_right _ h)
    omega

/-- The flow after the loads of an instruction. -/
def loaded (instr : Instr REG_LAST) : Flow := Flow.init.run (emitLoads instr)

theorem loaded_afterLoads (instr : Instr REG_LAST) :
    AfterLoads REG_LAST instr.loadOps (loaded instr) :=
  afterLoads _ fun op hop => instr.addr_le op (List.mem_append_left _ hop)

theorem keepsDataFlow_iff {mid : List DynUop} (hmid : ∀ u ∈ mid, u.type = .UOP_GENERAL) :
    KeepsDataFlow instr (emitLoads instr ++ mid ++ emitStores instr) ↔
      ∀ d ∈ dests instr, ∀ x ∈ inputs instr, x ∈ ((loaded instr).run mid).regs d := by
  have hzero : ((loaded instr).run mid).regs 0 = [] := regs_zero_run (regs_zero_run rfl _) _
  obtain ⟨hstored, hregs⟩ := @stores_run REG_LAST _ _ hzero instr.stores_le
  have hrun : Flow.init.run (emitLoads instr ++ mid ++ emitStores instr) =
      ((loaded instr).run mid).run (instr.storeOps.mapIdx (emitStore REG_LAST)).flatten := by
    rw [run_append, run_append]
    rfl
  rw [general_stored hmid, (loaded_afterLoads instr).stored, List.nil_append] at hstored
  constructor
  · intro h d hd x hx
    rcases List.mem_append.mp hd with hd' | hd'
    · obtain ⟨k, hk, rfl⟩ := List.mem_map.mp hd'
      have hall := h.stored.2
      rw [hrun, hstored] at hall
      exact hall _ (List.mem_map_of_mem hk) x hx
    · have hall := h.outRegs d hd' x hx
      rw [hrun, hregs d (dests_lt hd).2] at hall
      exact hall
  · intro h
    refine ⟨fun r hr x hx => ?_, ?_, fun v hv x hx => ?_⟩
    · have hd : r ∈ dests instr := List.mem_append_right _ hr
      rw [hrun, hregs r (dests_lt hd).2]
      exact h r hd x hx
    · rw [hrun, hstored, List.length_map, List.length_range]
    · rw [hrun, hstored] at hv
      obtain ⟨k, hk, rfl⟩ := List.mem_map.mp hv
      exact h _ (List.mem_append_left _ (List.mem_map_of_mem hk)) x hx

def writes (written : List Nat) (uops : List DynUop) : List Nat :=
  uops.foldl (fun w u => u.rd0 :: u.rd1 :: w) written

theorem mem_writes {r : Nat} : r ∈ writes written uops ↔
    r ∈ written ∨ ∃ u ∈ uops, r = u.rd0 ∨ r = u.rd1 := by
  induction uops generalizing written with
  | nil => simp [writes]
  | cons u uops ih =>
    rw [writes, List.foldl_cons]
    refine ih.trans ?_
    simp only [List.mem_cons, exists_eq_or_imp]
    grind

theorem readsWritten_append (written : List Nat) (uops vs : List DynUop) :
    ReadsWritten REG_LAST written (uops ++ vs) ↔
      ReadsWritten REG_LAST written uops ∧ ReadsWritten REG_LAST (writes written uops) vs := by
  induction uops generalizing written with
  | nil => exact (and_iff_right trivial).symm
  | cons u uops ih =>
    rw [List.cons_append, ReadsWritten, ReadsWritten, ih, and_assoc]
    rfl

theorem readsWritten_of_le (h : ∀ u ∈ uops, u.rs0 ≤ REG_LAST ∧ u.rs1 ≤ REG_LAST) :
    ReadsWritten REG_LAST written uops := by
  induction uops generalizing written with
  | nil => trivial
  | cons u uops ih =>
    refine ⟨fun r hr hlt => ?_, ih fun v hv => h v (List.mem_cons_of_mem u hv)⟩
    have := h u List.mem_cons_self
    omega

theorem readsWritten_stores (h : ∀ k < ops.length, REG_STORE_TEMP REG_LAST + k ∈ written)
    (haddr : ∀ op ∈ ops, op.baseReg ≤ REG_LAST ∧ op.indexReg ≤ REG_LAST) :
    ReadsWritten REG_LAST written (ops.mapIdx (emitStore REG_LAST)).flatten := by
  induction ops using List.reverseRecOn with
  | nil => trivial
  | append_singleton ops op ih =>
    rw [List.length_append, List.length_singleton] at h
    have hpast := ih (fun k hk => h k (by omega)) fun op hop =>
      haddr op (List.mem_append_left _ hop)
    obtain ⟨hbase, hindex⟩ := haddr op (List.mem_append_right _ List.mem_cons_self)
    have htemp := mem_writes.mpr (Or.inl (h ops.length (by omega)) :
      _ ∨ ∃ u ∈ (ops.mapIdx (emitStore REG_LAST)).flatten, _)
    rw [List.mapIdx_append, List.flatten_append, readsWritten_append]
    refine ⟨hpast, ?_⟩
    simp only [List.mapIdx_cons, List.mapIdx_nil, List.flatten_cons, List.flatten_nil,
      List.append_nil, Nat.zero_add, emitStore, ReadsWritten]
    refine ⟨fun r hr hlt => ?_, fun r hr hlt => ?_, trivial⟩
    · omega
    · rcases hr with rfl | rfl
      · exact List.mem_cons_self
      · exact List.mem_cons_of_mem _ (List.mem_cons_of_mem _ htemp)

theorem map_addrRegs {g : Nat → MemOperand → DynUop} (h : ∀ i op, addrRegs (g i op) = op)
    (ops : List MemOperand) : (ops.mapIdx g).map addrRegs = ops := by
  induction ops generalizing g with
  | nil => rfl
  | cons op ops ih =>
    rw [List.mapIdx_cons, List.map_cons, h, ih fun i op => h (i + 1) op]

theorem filter_pairs {g : Nat → MemOperand → List DynUop}
    (h : ∀ i op, ∃ u v, g i op = [u, v] ∧ u.type = .UOP_STORE_ADDR ∧ addrRegs u = op ∧
      v.type = .UOP_STORE) (ops : List MemOperand) :
    ((ops.mapIdx g).flatten.filter fun u => u.type = .UOP_STORE_ADDR).map addrRegs = ops ∧
    ((ops.mapIdx g).flatten.filter fun u => u.type = .UOP_STORE).length = ops.length ∧
    ((ops.mapIdx g).flatten.filter fun u => u.type = .UOP_LOAD) = [] := by
  induction ops generalizing g with
  | nil => exact ⟨rfl, rfl, rfl⟩
  | cons op ops ih =>
    obtain ⟨haddr, hstore, hload⟩ := ih fun i op => h (i + 1) op
    obtain ⟨u, v, heq, hu, hop, hv⟩ := h 0 op
    have hsplit : ((op :: ops).mapIdx g).flatten =
        u :: v :: (ops.mapIdx fun i => g (i + 1)).flatten := by
      rw [List.mapIdx_cons, List.flatten_cons, heq]
      rfl
    rw [hsplit]
    refine ⟨?_, ?_, ?_⟩
    · rw [List.filter_cons_of_pos (by simp [hu]), List.filter_cons_of_neg (by simp [hv]),
        List.map_cons, hop, haddr]
    · rw [List.filter_cons_of_neg (by simp [hu]), List.filter_cons_of_pos (by simp [hv]),
        List.length_cons, hstore, List.length_cons]
    · rw [List.filter_cons_of_neg (by simp [hu]), List.filter_cons_of_neg (by simp [hv]), hload]

theorem filter_loads {g : Nat → MemOperand → DynUop} (h : ∀ i op, (g i op).type = .UOP_LOAD)
    (t : UopType) (ops : List MemOperand) : ((ops.mapIdx g).filter fun u => u.type = t) =
      if t = .UOP_LOAD then ops.mapIdx g else [] := by
  induction ops generalizing g with
  | nil => simp
  | cons op ops ih =>
    rw [List.mapIdx_cons, List.filter_cons, h, ih fun i op => h (i + 1) op]
    by_cases ht : t = .UOP_LOAD
    · simp [ht]
    · simp [ht, Ne.symm ht]

theorem filter_general {t : UopType} (h : ∀ u ∈ uops, u.type = .UOP_GENERAL)
    (ht : t ≠ .UOP_GENERAL) : (uops.filter fun u => u.type = t) = [] := by
  apply List.filter_eq_nil_iff.mpr
  intro u hu
  simp [h u hu, Ne.symm ht]

/-- What a template owes for the memory operands, of its uops between the loads and stores. -/
theorem keepsMemOps {mid : List DynUop} (hmid : ∀ u ∈ mid, u.type = .UOP_GENERAL)
    (hreads : ReadsWritten REG_LAST (writes [] (emitLoads instr)) mid)
    (hstores : ∀ d ∈ dests instr, ∃ u ∈ mid, d = u.rd0 ∨ d = u.rd1) :
    KeepsMemOps instr (emitLoads instr ++ mid ++ emitStores instr) := by
  obtain ⟨haddr, hstore, hload⟩ := @filter_pairs (emitStore REG_LAST)
    (fun i op => ⟨_, _, rfl, rfl, rfl, rfl⟩) instr.storeOps
  have hloads := @filter_loads (emitLoad REG_LAST) (fun _ _ => rfl)
  refine ⟨?_, ?_, ?_, ?_⟩
  · rw [List.filter_append, List.filter_append, filter_general hmid (by decide), emitStores, hload,
      emitLoads, hloads, if_pos rfl, List.append_nil, List.append_nil]
    exact map_addrRegs (fun _ _ => rfl) _
  · rw [List.filter_append, List.filter_append, filter_general hmid (by decide), emitLoads,
      hloads, if_neg (by decide)]
    exact haddr
  · rw [List.filter_append, List.filter_append, filter_general hmid (by decide), emitLoads,
      hloads, if_neg (by decide)]
    exact hstore
  · rw [readsWritten_append, readsWritten_append]
    refine ⟨⟨readsWritten_of_le fun u hu => ?_, hreads⟩, readsWritten_stores (fun k hk => ?_)
      fun op hop => instr.addr_le op (List.mem_append_right _ hop)⟩
    · obtain ⟨k, hk, rfl⟩ := List.mem_mapIdx.mp hu
      exact instr.addr_le _ (List.mem_append_left _ (List.getElem_mem hk))
    · have hd : REG_STORE_TEMP REG_LAST + k ∈ dests instr :=
        List.mem_append_left _ (List.mem_map_of_mem (List.mem_range.mpr hk))
      obtain ⟨u, hu, hr⟩ := hstores _ hd
      exact mem_writes.mpr (Or.inr ⟨u, List.mem_append_right _ hu, hr⟩)

theorem sources_length (instr : Instr REG_LAST) : (sources instr).length = srcs instr := by
  simp [sources, srcs]

theorem dests_length (instr : Instr REG_LAST) : (dests instr).length = dsts instr := by
  simp [dests, dsts]

/-- A source is a load's temporary register, a register of the instruction or none. -/
theorem srcReg_cases (instr : Instr REG_LAST) (k : Nat) :
    (k < instr.loadOps.length ∧ srcReg instr k = REG_LOAD_TEMP REG_LAST + k) ∨
    (instr.loadOps.length ≤ k ∧ k < srcs instr ∧ srcReg instr k ∈ instr.inRegs ∧
      instr.inRegs[k - instr.loadOps.length]? = some (srcReg instr k)) ∨
    (srcs instr ≤ k ∧ srcReg instr k = 0) := by
  have hlen := sources_length instr
  rcases Nat.lt_or_ge k (srcs instr) with hk | hk
  · rw [srcReg, List.getD_eq_getElem _ _ (by omega)]
    rcases Nat.lt_or_ge k instr.loadOps.length with hload | hload
    · refine Or.inl ⟨hload, ?_⟩
      unfold sources
      rw [List.getElem_append_left (by simpa using hload)]
      simp
    · refine Or.inr (Or.inl ⟨hload, hk, ?_⟩)
      have hin : k - instr.loadOps.length < instr.inRegs.length := by
        rw [srcs] at hk
        omega
      have hget : (sources instr)[k] = instr.inRegs[k - instr.loadOps.length] := by
        unfold sources
        rw [List.getElem_append_right (by simpa using hload)]
        simp
      rw [hget]
      exact ⟨List.getElem_mem hin, List.getElem?_eq_getElem hin⟩
  · refine Or.inr (Or.inr ⟨hk, ?_⟩)
    rw [srcReg, List.getD_eq_default _ _ (by omega)]

theorem srcReg_lt (instr : Instr REG_LAST) (k : Nat) :
    srcReg instr k < REG_STORE_TEMP REG_LAST := by
  have hle : instr.loadOps.length ≤ 4 := instr.loads_le
  rw [storeTemp_eq]
  rcases srcReg_cases instr k with ⟨hk, heq⟩ | ⟨-, -, hmem, -⟩ | ⟨-, heq⟩
  · rw [heq, loadTemp_eq]
    omega
  · have := instr.regs_valid _ (List.mem_append_left _ hmem)
    omega
  · rw [heq]
    omega

theorem srcReg_written {k : Nat} (h : REG_LAST < srcReg instr k) :
    srcReg instr k ∈ writes [] (emitLoads instr) := by
  rcases srcReg_cases instr k with ⟨hk, heq⟩ | ⟨-, -, hmem, -⟩ | ⟨-, heq⟩
  · rw [heq]
    exact mem_writes.mpr (Or.inr ⟨_, List.mem_mapIdx.mpr ⟨k, hk, rfl⟩, Or.inl rfl⟩)
  · have := instr.regs_valid _ (List.mem_append_left _ hmem)
    omega
  · omega

theorem loaded_inReg {r : Nat} (h : r ∈ instr.inRegs) : (loaded instr).regs r = [.reg r] := by
  have hr := instr.regs_valid r (List.mem_append_left _ h)
  rw [(loaded_afterLoads instr).others r (by rw [loadTemp_eq]; omega)]
  exact if_neg (by omega)

theorem input_mem (h : x ∈ inputs instr) :
    ∃ k < srcs instr, x ∈ (loaded instr).regs (srcReg instr k) := by
  rcases List.mem_append.mp h with h | h
  · obtain ⟨k, hk, rfl⟩ := List.mem_map.mp h
    have hk := List.mem_range.mp hk
    refine ⟨k, by rw [srcs]; omega, ?_⟩
    rcases srcReg_cases instr k with ⟨-, heq⟩ | ⟨hge, -⟩ | ⟨hge, -⟩
    · rw [heq, (loaded_afterLoads instr).temps k hk]
      exact List.mem_cons_self
    · omega
    · rw [srcs] at hge
      omega
  · obtain ⟨r, hr, rfl⟩ := List.mem_map.mp h
    obtain ⟨j, hj, rfl⟩ := List.mem_iff_getElem.mp hr
    refine ⟨instr.loadOps.length + j, by rw [srcs]; omega, ?_⟩
    rcases srcReg_cases instr (instr.loadOps.length + j) with ⟨hlt, -⟩ | ⟨-, -, -, hget⟩ | ⟨hge, -⟩
    · omega
    · rw [Nat.add_sub_cancel_left, List.getElem?_eq_getElem hj, Option.some.injEq] at hget
      rw [← hget, loaded_inReg (List.getElem_mem hj)]
      exact List.mem_cons_self
    · rw [srcs] at hge
      omega

theorem dest_eq {d : Nat} (hd : d ∈ dests instr) : ∃ k < dsts instr, d = dstReg instr k := by
  obtain ⟨k, hk, rfl⟩ := List.mem_iff_getElem.mp hd
  refine ⟨k, by rw [← dests_length]; exact hk, ?_⟩
  rw [dstReg, List.getD_eq_getElem _ _ hk]

theorem mem_write {rd0 rd1 r : Nat} {v : List Source} (hzero : f.regs 0 = []) (hv : x ∈ v)
    (hr : x ∈ f.regs r) : x ∈ (f.write rd0 rd1 v).regs r := by
  rw [write_regs]
  split
  · rename_i hz
    rw [hz, hzero] at hr
    exact hr
  · split
    · exact hv
    · exact hr

theorem mem_write_dest {rd0 rd1 r : Nat} {v : List Source} (hr : r ≠ 0) (hd : r = rd0 ∨ r = rd1)
    (hv : x ∈ v) : x ∈ (f.write rd0 rd1 v).regs r := by
  rw [write_regs, if_neg hr, if_pos hd]
  exact hv

theorem write_other {rd0 rd1 r : Nat} (hzero : f.regs 0 = []) (v : List Source) (h0 : r ≠ rd0)
    (h1 : r ≠ rd1) : (f.write rd0 rd1 v).regs r = f.regs r := by
  rw [write_regs]
  split
  · rename_i hz
    rw [hz, hzero]
  · rw [if_neg (by tauto)]

theorem loaded_zero (instr : Instr REG_LAST) : (loaded instr).regs 0 = [] := regs_zero_run rfl _

theorem run_exec (f : Flow) (rs0 rs1 rd0 rd1 lat : Nat) (ports : BitVec 8) (extraSlots : Nat)
    (uops : List DynUop) :
    f.run (emitExecUop rs0 rs1 rd0 rd1 lat ports extraSlots :: uops) =
      (f.write rd0 rd1 (f.regs rs0 ++ f.regs rs1)).run uops := rfl

end Decoder

end ZSim.OOO
