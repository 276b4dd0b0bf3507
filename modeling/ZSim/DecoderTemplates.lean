import ZSim.DecoderUops
import ZSim.OOOMemOps

/-! What each template owes: the multiply, divide, convert and basic templates keep the data flow
of their instructions, a chain keeps it but for its last source. -/

namespace ZSim.OOO

namespace Decoder

variable {REG_LAST : Nat} {instr : Instr REG_LAST} {x : Source} {f : Flow}
variable {uops : List DynUop} {written : List Nat}

/-- What an instruction owes of the uops between its loads and its stores. -/
structure Middle (instr : Instr REG_LAST) (mid : List DynUop) : Prop where
  general : ∀ u ∈ mid, u.type = .UOP_GENERAL
  reads : ReadsWritten REG_LAST (writes [] (emitLoads instr)) mid
  dests : ∀ d ∈ dests instr, ∃ u ∈ mid, d = u.rd0 ∨ d = u.rd1

theorem basicOp_middle (hd : dsts instr ≤ 2) (lat : Nat) (ports : BitVec 8) (extraSlots : Nat) :
    Middle instr [emitExecUop (srcReg instr 0) (srcReg instr 1) (dstReg instr 0) (dstReg instr 1)
      lat ports extraSlots] := by
  refine ⟨fun u hu => ?_, ⟨fun r hr hlt => ?_, trivial⟩, fun d hmem => ?_⟩
  · rw [List.mem_singleton.mp hu]
    rfl
  · rcases hr with rfl | rfl
    · exact srcReg_written hlt
    · exact srcReg_written hlt
  · obtain ⟨k, hk, rfl⟩ := dest_eq hmem
    refine ⟨_, List.mem_singleton_self _, ?_⟩
    obtain rfl | rfl : k = 0 ∨ k = 1 := by omega
    · exact Or.inl rfl
    · exact Or.inr rfl

theorem basicOp_flow (hs : srcs instr ≤ 2) (hd : dsts instr ≤ 2) (lat : Nat) (ports : BitVec 8)
    (extraSlots : Nat) : ∀ d ∈ dests instr, ∀ x ∈ inputs instr,
      x ∈ ((loaded instr).run [emitExecUop (srcReg instr 0) (srcReg instr 1) (dstReg instr 0)
        (dstReg instr 1) lat ports extraSlots]).regs d := by
  intro d hmem x hx
  obtain ⟨k, hk, hxk⟩ := input_mem hx
  obtain ⟨j, hj, rfl⟩ := dest_eq hmem
  have hpos := (dests_lt hmem).1
  rw [run_exec]
  apply mem_write_dest (by omega)
  · obtain rfl | rfl : j = 0 ∨ j = 1 := by omega
    · exact Or.inl rfl
    · exact Or.inr rfl
  · obtain rfl | rfl : k = 0 ∨ k = 1 := by omega
    · exact List.mem_append_left _ hxk
    · exact List.mem_append_right _ hxk

theorem srcReg_ne_execTemp (instr : Instr REG_LAST) (k j : Nat) :
    srcReg instr k ≠ REG_EXEC_TEMP REG_LAST + j := by
  have := srcReg_lt instr k
  rw [storeTemp_eq] at this
  rw [execTemp_eq]
  omega

theorem readsWritten_of_mem
    (h : ∀ u ∈ uops, ∀ r, r = u.rs0 ∨ r = u.rs1 → REG_LAST < r → r ∈ written) :
    ReadsWritten REG_LAST written uops := by
  induction uops generalizing written with
  | nil => trivial
  | cons u uops ih =>
    refine ⟨h u List.mem_cons_self, ih fun v hv r hr hlt => ?_⟩
    exact List.mem_cons_of_mem _ (List.mem_cons_of_mem _
      (h v (List.mem_cons_of_mem u hv) r hr hlt))

theorem srcReg_written_of {k r : Nat} (hr : r = srcReg instr k) (hlt : REG_LAST < r)
    (hsub : ∀ r ∈ writes [] (emitLoads instr), r ∈ written) : r ∈ written := by
  rw [hr] at hlt ⊢
  exact hsub _ (srcReg_written hlt)

theorem mul_middle (hd : dsts instr = 3) : Middle instr
    [emitExecUop (srcReg instr 0) (srcReg instr 1) (dstReg instr 0) (REG_EXEC_TEMP REG_LAST) 3
        PORT_1 0,
      emitExecUop (srcReg instr 0) (srcReg instr 1) (dstReg instr 1) (REG_EXEC_TEMP REG_LAST + 1) 3
        PORT_1 0,
      emitExecUop (REG_EXEC_TEMP REG_LAST) (REG_EXEC_TEMP REG_LAST + 1) (dstReg instr 2) 0 1
        PORTS_015 0] := by
  refine ⟨?_, ⟨fun r hr hlt => ?_, fun r hr hlt => ?_, fun r hr hlt => ?_, trivial⟩,
    fun d hmem => ?_⟩
  · intro u hu
    simp only [List.mem_cons, List.not_mem_nil, or_false] at hu
    rcases hu with rfl | rfl | rfl <;> rfl
  · rcases hr with hr | hr <;> exact srcReg_written_of hr hlt fun _ h => h
  · rcases hr with hr | hr <;> exact srcReg_written_of hr hlt fun _ h =>
      List.mem_cons_of_mem _ (List.mem_cons_of_mem _ h)
  · rcases hr with rfl | rfl <;> simp [emitExecUop]
  · obtain ⟨k, hk, rfl⟩ := dest_eq hmem
    obtain rfl | rfl | rfl : k = 0 ∨ k = 1 ∨ k = 2 := by omega
    · exact ⟨_, List.mem_cons_self, Or.inl rfl⟩
    · exact ⟨_, List.mem_cons_of_mem _ List.mem_cons_self, Or.inl rfl⟩
    · exact ⟨_, List.mem_cons_of_mem _ (List.mem_cons_of_mem _ List.mem_cons_self), Or.inl rfl⟩

theorem mul_flow (hs : srcs instr ≤ 2) (hd : dsts instr = 3) :
    ∀ d ∈ dests instr, ∀ x ∈ inputs instr, x ∈ ((loaded instr).run
      [emitExecUop (srcReg instr 0) (srcReg instr 1) (dstReg instr 0) (REG_EXEC_TEMP REG_LAST) 3
          PORT_1 0,
        emitExecUop (srcReg instr 0) (srcReg instr 1) (dstReg instr 1)
          (REG_EXEC_TEMP REG_LAST + 1) 3 PORT_1 0,
        emitExecUop (REG_EXEC_TEMP REG_LAST) (REG_EXEC_TEMP REG_LAST + 1) (dstReg instr 2) 0 1
          PORTS_015 0]).regs d := by
  intro d hmem x hx
  have hexec : REG_EXEC_TEMP REG_LAST ≠ 0 := by
    rw [execTemp_eq]
    omega
  have hpos := (dests_lt hmem).1
  -- every uop reads the input, from a source or from the temporary registers
  have hread : ∀ f : Flow, (∀ k, x ∈ (loaded instr).regs (srcReg instr k) →
      x ∈ f.regs (srcReg instr k)) →
      x ∈ f.regs (srcReg instr 0) ++ f.regs (srcReg instr 1) := by
    intro f hf
    obtain ⟨k, hk, hxk⟩ := input_mem hx
    obtain rfl | rfl : k = 0 ∨ k = 1 := by omega
    · exact List.mem_append_left _ (hf 0 hxk)
    · exact List.mem_append_right _ (hf 1 hxk)
  rw [run_exec, run_exec, run_exec]
  have hv₁ := hread (loaded instr) fun _ h => h
  generalize hf₁ : (loaded instr).write (dstReg instr 0) (REG_EXEC_TEMP REG_LAST) _ = f₁
  have hzero₁ : f₁.regs 0 = [] := by rw [← hf₁]; rfl
  have hkeep₁ : ∀ r, x ∈ (loaded instr).regs r → x ∈ f₁.regs r := by
    intro r hr
    rw [← hf₁]
    exact mem_write (loaded_zero instr) hv₁ hr
  have hv₂ := hread f₁ fun k hk => hkeep₁ _ hk
  generalize hf₂ : f₁.write (dstReg instr 1) (REG_EXEC_TEMP REG_LAST + 1) _ = f₂
  have hzero₂ : f₂.regs 0 = [] := by rw [← hf₂]; rfl
  have hkeep₂ : ∀ r, x ∈ f₁.regs r → x ∈ f₂.regs r := by
    intro r hr
    rw [← hf₂]
    exact mem_write hzero₁ hv₂ hr
  have hv₃ : x ∈ f₂.regs (REG_EXEC_TEMP REG_LAST) ++ f₂.regs (REG_EXEC_TEMP REG_LAST + 1) := by
    apply List.mem_append_left
    apply hkeep₂
    rw [← hf₁]
    exact mem_write_dest hexec (Or.inr rfl) hv₁
  obtain ⟨k, hk, rfl⟩ := dest_eq hmem
  obtain rfl | rfl | rfl : k = 0 ∨ k = 1 ∨ k = 2 := by omega
  · apply mem_write hzero₂ hv₃
    apply hkeep₂
    rw [← hf₁]
    exact mem_write_dest (by omega) (Or.inl rfl) hv₁
  · apply mem_write hzero₂ hv₃
    rw [← hf₂]
    exact mem_write_dest (by omega) (Or.inl rfl) hv₂
  · exact mem_write_dest (by omega) (Or.inl rfl) hv₃

theorem div_middle (hd : dsts instr = 3) (lat extraSlots : Nat) : Middle instr
    [emitExecUop (srcReg instr 0) (srcReg instr 1) (REG_EXEC_TEMP REG_LAST) 0 lat PORTS_015
        extraSlots,
      emitExecUop (srcReg instr 0) (srcReg instr 2) (REG_EXEC_TEMP REG_LAST + 1) 0 lat PORTS_015
        extraSlots,
      emitExecUop (REG_EXEC_TEMP REG_LAST) (REG_EXEC_TEMP REG_LAST + 1) (dstReg instr 0)
        (dstReg instr 1) 1 PORTS_015 0,
      emitExecUop (REG_EXEC_TEMP REG_LAST) (REG_EXEC_TEMP REG_LAST + 1) (dstReg instr 2) 0 1
        PORTS_015 0] := by
  refine ⟨?_, ⟨fun r hr hlt => ?_, fun r hr hlt => ?_, fun r hr hlt => ?_, fun r hr hlt => ?_,
    trivial⟩, fun d hmem => ?_⟩
  · intro u hu
    simp only [List.mem_cons, List.not_mem_nil, or_false] at hu
    rcases hu with rfl | rfl | rfl | rfl <;> rfl
  · rcases hr with hr | hr <;> exact srcReg_written_of hr hlt fun _ h => h
  · rcases hr with hr | hr <;> exact srcReg_written_of hr hlt fun _ h =>
      List.mem_cons_of_mem _ (List.mem_cons_of_mem _ h)
  · rcases hr with rfl | rfl <;> simp [emitExecUop]
  · rcases hr with rfl | rfl <;> simp [emitExecUop]
  · obtain ⟨k, hk, rfl⟩ := dest_eq hmem
    obtain rfl | rfl | rfl : k = 0 ∨ k = 1 ∨ k = 2 := by omega
    · exact ⟨_, List.mem_cons_of_mem _ (List.mem_cons_of_mem _ List.mem_cons_self), Or.inl rfl⟩
    · exact ⟨_, List.mem_cons_of_mem _ (List.mem_cons_of_mem _ List.mem_cons_self), Or.inr rfl⟩
    · exact ⟨_, List.mem_cons_of_mem _ (List.mem_cons_of_mem _
        (List.mem_cons_of_mem _ List.mem_cons_self)), Or.inl rfl⟩

theorem div_flow (hs : srcs instr = 3) (hd : dsts instr = 3) (lat extraSlots : Nat) :
    ∀ d ∈ dests instr, ∀ x ∈ inputs instr, x ∈ ((loaded instr).run
      [emitExecUop (srcReg instr 0) (srcReg instr 1) (REG_EXEC_TEMP REG_LAST) 0 lat PORTS_015
          extraSlots,
        emitExecUop (srcReg instr 0) (srcReg instr 2) (REG_EXEC_TEMP REG_LAST + 1) 0 lat PORTS_015
          extraSlots,
        emitExecUop (REG_EXEC_TEMP REG_LAST) (REG_EXEC_TEMP REG_LAST + 1) (dstReg instr 0)
          (dstReg instr 1) 1 PORTS_015 0,
        emitExecUop (REG_EXEC_TEMP REG_LAST) (REG_EXEC_TEMP REG_LAST + 1) (dstReg instr 2) 0 1
          PORTS_015 0]).regs d := by
  intro d hmem x hx
  have hexec : REG_EXEC_TEMP REG_LAST ≠ 0 ∧ REG_EXEC_TEMP REG_LAST + 1 ≠ 0 := by
    rw [execTemp_eq]
    omega
  have hpos := (dests_lt hmem).1
  rw [run_exec, run_exec, run_exec, run_exec]
  generalize hf₁ : (loaded instr).write (REG_EXEC_TEMP REG_LAST) 0 _ = f₁
  have hzero₁ : f₁.regs 0 = [] := by rw [← hf₁]; rfl
  have hsame₁ : ∀ k, f₁.regs (srcReg instr k) = (loaded instr).regs (srcReg instr k) := by
    intro k
    rw [← hf₁, write_regs]
    split
    · rename_i hz
      rw [hz, loaded_zero]
    · rename_i hz
      exact if_neg (not_or.mpr ⟨srcReg_ne_execTemp instr k 0, hz⟩)
  generalize hf₂ : f₁.write (REG_EXEC_TEMP REG_LAST + 1) 0 _ = f₂
  have hzero₂ : f₂.regs 0 = [] := by rw [← hf₂]; rfl
  have hexec₂ : f₂.regs (REG_EXEC_TEMP REG_LAST) =
      (loaded instr).regs (srcReg instr 0) ++ (loaded instr).regs (srcReg instr 1) := by
    rw [← hf₂, write_other hzero₁ _ (by omega) hexec.1, ← hf₁, write_regs, if_neg hexec.1,
      if_pos (Or.inl rfl)]
  have hexec₂' : f₂.regs (REG_EXEC_TEMP REG_LAST + 1) =
      (loaded instr).regs (srcReg instr 0) ++ (loaded instr).regs (srcReg instr 2) := by
    rw [← hf₂, write_regs, if_neg hexec.2, if_pos (Or.inl rfl), hsame₁, hsame₁]
  have hv : x ∈ f₂.regs (REG_EXEC_TEMP REG_LAST) ++ f₂.regs (REG_EXEC_TEMP REG_LAST + 1) := by
    rw [hexec₂, hexec₂']
    obtain ⟨k, hk, hxk⟩ := input_mem hx
    obtain rfl | rfl | rfl : k = 0 ∨ k = 1 ∨ k = 2 := by omega
    · exact List.mem_append_left _ (List.mem_append_left _ hxk)
    · exact List.mem_append_left _ (List.mem_append_right _ hxk)
    · exact List.mem_append_right _ (List.mem_append_right _ hxk)
  generalize hf₃ : f₂.write (dstReg instr 0) (dstReg instr 1) _ = f₃
  have hzero₃ : f₃.regs 0 = [] := by rw [← hf₃]; rfl
  have hkeep₃ : ∀ r, x ∈ f₂.regs r → x ∈ f₃.regs r := by
    intro r hr
    rw [← hf₃]
    exact mem_write hzero₂ hv hr
  have hv₃ : x ∈ f₃.regs (REG_EXEC_TEMP REG_LAST) ++ f₃.regs (REG_EXEC_TEMP REG_LAST + 1) := by
    rcases List.mem_append.mp hv with hx | hx
    · exact List.mem_append_left _ (hkeep₃ _ hx)
    · exact List.mem_append_right _ (hkeep₃ _ hx)
  obtain ⟨k, hk, rfl⟩ := dest_eq hmem
  obtain rfl | rfl | rfl : k = 0 ∨ k = 1 ∨ k = 2 := by omega
  · apply mem_write hzero₃ hv₃
    rw [← hf₃]
    exact mem_write_dest (by omega) (Or.inl rfl) hv
  · apply mem_write hzero₃ hv₃
    rw [← hf₃]
    exact mem_write_dest (by omega) (Or.inr rfl) hv
  · exact mem_write_dest (by omega) (Or.inl rfl) hv₃

/-- A conversion reads its one source and writes its one destination. -/
theorem convert_middle (hd : dsts instr = 1) (lat1 lat2 : Nat) (ports1 ports2 : BitVec 8) :
    Middle instr
      [emitExecUop (srcReg instr 0) 0 (REG_EXEC_TEMP REG_LAST) 0 lat1 ports1 0,
        emitExecUop (REG_EXEC_TEMP REG_LAST) 0 (dstReg instr 0) 0 lat2 ports2 0] := by
  refine ⟨?_, ⟨fun r hr hlt => ?_, fun r hr hlt => ?_, trivial⟩, fun d hmem => ?_⟩
  · intro u hu
    simp only [List.mem_cons, List.not_mem_nil, or_false] at hu
    rcases hu with rfl | rfl <;> rfl
  · rcases hr with hr | rfl
    · exact srcReg_written_of hr hlt fun _ h => h
    · exact absurd hlt (Nat.not_lt_zero _)
  · rcases hr with rfl | rfl
    · exact List.mem_cons_self
    · exact absurd hlt (Nat.not_lt_zero _)
  · obtain ⟨k, hk, rfl⟩ := dest_eq hmem
    obtain rfl : k = 0 := by omega
    exact ⟨_, List.mem_cons_of_mem _ List.mem_cons_self, Or.inl rfl⟩

theorem convert_flow (hs : srcs instr = 1) (hd : dsts instr = 1) (lat1 lat2 : Nat)
    (ports1 ports2 : BitVec 8) : ∀ d ∈ dests instr, ∀ x ∈ inputs instr, x ∈ ((loaded instr).run
      [emitExecUop (srcReg instr 0) 0 (REG_EXEC_TEMP REG_LAST) 0 lat1 ports1 0,
        emitExecUop (REG_EXEC_TEMP REG_LAST) 0 (dstReg instr 0) 0 lat2 ports2 0]).regs d := by
  intro d hmem x hx
  have hexec : REG_EXEC_TEMP REG_LAST ≠ 0 := by
    rw [execTemp_eq]
    omega
  have hpos := (dests_lt hmem).1
  obtain ⟨k, hk, hxk⟩ := input_mem hx
  obtain rfl : k = 0 := by omega
  obtain ⟨j, hj, rfl⟩ := dest_eq hmem
  obtain rfl : j = 0 := by omega
  rw [run_exec, run_exec]
  apply mem_write_dest (by omega) (Or.inl rfl)
  apply List.mem_append_left
  exact mem_write_dest hexec (Or.inl rfl) (List.mem_append_left _ hxk)

/-- The uops of a chain before the last one: the first and `m` in the middle. -/
def chainHead (instr : Instr REG_LAST) (latArray : Nat → Nat) (portsArray : Nat → BitVec 8)
    (m : Nat) : List DynUop :=
  emitExecUop (srcReg instr 0) (srcReg instr 1) (REG_EXEC_TEMP REG_LAST) 0 (latArray 0)
      (portsArray 0) 0 ::
    (List.range' 1 m).map fun i => emitExecUop (REG_EXEC_TEMP REG_LAST) (srcReg instr (i + 1))
      (REG_EXEC_TEMP REG_LAST) 0 (latArray i) (portsArray i) 0

variable (latArray : Nat → Nat) (portsArray : Nat → BitVec 8)

theorem chainHead_succ (m : Nat) : chainHead instr latArray portsArray (m + 1) =
    chainHead instr latArray portsArray m ++ [emitExecUop (REG_EXEC_TEMP REG_LAST)
      (srcReg instr (m + 2)) (REG_EXEC_TEMP REG_LAST) 0 (latArray (m + 1)) (portsArray (m + 1))
      0] := by
  rw [chainHead, List.range'_1_concat, List.map_append, Nat.add_comm 1 m]
  rfl

theorem chainHead_run (m : Nat) :
    (∀ x, x ∈ ((loaded instr).run (chainHead instr latArray portsArray m)).regs
        (REG_EXEC_TEMP REG_LAST) ↔ ∃ k ≤ m + 1, x ∈ (loaded instr).regs (srcReg instr k)) ∧
    ∀ r, r ≠ REG_EXEC_TEMP REG_LAST →
      ((loaded instr).run (chainHead instr latArray portsArray m)).regs r =
        (loaded instr).regs r := by
  have hexec : REG_EXEC_TEMP REG_LAST ≠ 0 := by
    rw [execTemp_eq]
    omega
  have hother : ∀ f : Flow, f.regs 0 = [] → ∀ v r, r ≠ REG_EXEC_TEMP REG_LAST →
      (f.write (REG_EXEC_TEMP REG_LAST) 0 v).regs r = f.regs r := by
    intro f hzero v r hr
    rw [write_regs]
    split
    · rename_i hz
      rw [hz, hzero]
    · rename_i hz
      exact if_neg (not_or.mpr ⟨hr, hz⟩)
  induction m with
  | zero =>
    rw [chainHead, run_exec]
    refine ⟨fun x => ?_, fun r hr => hother _ (loaded_zero instr) _ r hr⟩
    change x ∈ ((loaded instr).write _ _ _).regs _ ↔ _
    rw [write_regs, if_neg hexec, if_pos (Or.inl rfl), List.mem_append]
    constructor
    · rintro (h | h)
      · exact ⟨0, by omega, h⟩
      · exact ⟨1, by omega, h⟩
    · rintro ⟨k, hk, h⟩
      obtain rfl | rfl : k = 0 ∨ k = 1 := by omega
      · exact Or.inl h
      · exact Or.inr h
  | succ m ih =>
    obtain ⟨hlink, hsame⟩ := ih
    have hzero : ((loaded instr).run (chainHead instr latArray portsArray m)).regs 0 = [] :=
      regs_zero_run (loaded_zero instr) _
    rw [chainHead_succ, run_append, run_exec]
    refine ⟨fun x => ?_, fun r hr => (hother _ hzero _ r hr).trans (hsame r hr)⟩
    change x ∈ (Flow.write _ _ _ _).regs _ ↔ _
    rw [write_regs, if_neg hexec, if_pos (Or.inl rfl), List.mem_append, hlink,
      hsame _ (srcReg_ne_execTemp instr _ 0)]
    constructor
    · rintro (⟨k, hk, h⟩ | h)
      · exact ⟨k, by omega, h⟩
      · exact ⟨m + 2, by omega, h⟩
    · rintro ⟨k, hk, h⟩
      rcases Nat.lt_or_ge k (m + 2) with hlt | hge
      · exact Or.inl ⟨k, by omega, h⟩
      · obtain rfl : k = m + 2 := by omega
        exact Or.inr h

/-- The uops of a chain of `m + 2`. -/
def chain (instr : Instr REG_LAST) (latArray : Nat → Nat) (portsArray : Nat → BitVec 8)
    (m : Nat) : List DynUop :=
  chainHead instr latArray portsArray m ++
    [emitExecUop (REG_EXEC_TEMP REG_LAST) (srcReg instr (m + 1)) (dstReg instr 0) (dstReg instr 1)
      (latArray (m + 1)) (portsArray (m + 1)) 0]

theorem chain_middle (hd : dsts instr ≤ 2) (m : Nat) :
    Middle instr (chain instr latArray portsArray m) := by
  have hlink : REG_EXEC_TEMP REG_LAST ∈ writes (writes [] (emitLoads instr))
      (chainHead instr latArray portsArray m) :=
    mem_writes.mpr (Or.inr ⟨_, List.mem_cons_self, Or.inl rfl⟩)
  refine ⟨fun u hu => ?_, ?_, fun d hmem => ?_⟩
  · rcases List.mem_append.mp hu with hu | hu
    · rcases List.mem_cons.mp hu with rfl | hu
      · rfl
      · obtain ⟨i, -, rfl⟩ := List.mem_map.mp hu
        rfl
    · rw [List.mem_singleton.mp hu]
      rfl
  · rw [chain, readsWritten_append]
    refine ⟨⟨fun r hr hlt => ?_, readsWritten_of_mem fun u hu r hr hlt => ?_⟩,
      fun r hr hlt => ?_, trivial⟩
    · rcases hr with hr | hr <;> exact srcReg_written_of hr hlt fun _ h => h
    · obtain ⟨i, -, rfl⟩ := List.mem_map.mp hu
      rcases hr with rfl | hr
      · exact List.mem_cons_self
      · exact srcReg_written_of hr hlt fun _ h =>
          List.mem_cons_of_mem _ (List.mem_cons_of_mem _ h)
    · rcases hr with rfl | hr
      · exact hlink
      · exact srcReg_written_of hr hlt fun _ h => mem_writes.mpr (Or.inl h)
  · obtain ⟨k, hk, rfl⟩ := dest_eq hmem
    refine ⟨_, List.mem_append_right _ (List.mem_singleton_self _), ?_⟩
    obtain rfl | rfl : k = 0 ∨ k = 1 := by omega
    · exact Or.inl rfl
    · exact Or.inr rfl

/-- The last uop of a chain reads the source of the one before it once more. -/
theorem chain_run (hd : dsts instr ≤ 2) (m : Nat) {d : Nat} (hmem : d ∈ dests instr) :
    x ∈ ((loaded instr).run (chain instr latArray portsArray m)).regs d ↔
      ∃ k ≤ m + 1, x ∈ (loaded instr).regs (srcReg instr k) := by
  obtain ⟨hlink, hsame⟩ := @chainHead_run _ instr latArray portsArray m
  have hpos := (dests_lt hmem).1
  have hdst : d = dstReg instr 0 ∨ d = dstReg instr 1 := by
    obtain ⟨k, hk, rfl⟩ := dest_eq hmem
    obtain rfl | rfl : k = 0 ∨ k = 1 := by omega
    · exact Or.inl rfl
    · exact Or.inr rfl
  rw [chain, run_append, run_exec]
  change x ∈ (Flow.write _ _ _ _).regs _ ↔ _
  rw [write_regs, if_neg (by omega), if_pos hdst, List.mem_append, hlink,
    hsame _ (srcReg_ne_execTemp instr _ 0)]
  constructor
  · rintro (h | h)
    · exact h
    · exact ⟨m + 1, Nat.le_refl _, h⟩
  · exact Or.inl

theorem srcReg_load {k : Nat} (hk : k < instr.loadOps.length) :
    srcReg instr k = REG_LOAD_TEMP REG_LAST + k := by
  rcases srcReg_cases instr k with ⟨-, heq⟩ | ⟨hge, -⟩ | ⟨hge, -⟩
  · exact heq
  · omega
  · rw [srcs] at hge
    omega

theorem srcReg_inReg {j : Nat} (hj : j < instr.inRegs.length) :
    srcReg instr (instr.loadOps.length + j) = instr.inRegs[j] := by
  rcases srcReg_cases instr (instr.loadOps.length + j) with ⟨hlt, -⟩ | ⟨-, -, -, hget⟩ | ⟨hge, -⟩
  · omega
  · rw [Nat.add_sub_cancel_left, List.getElem?_eq_getElem hj, Option.some.injEq] at hget
    exact hget.symm
  · rw [srcs] at hge
    omega

theorem mem_init {r : Nat} : x ∈ Flow.init.regs r ↔ r ≠ 0 ∧ x = .reg r := by
  unfold Flow.init
  dsimp only
  split
  · rename_i hz
    simp [hz]
  · rename_i hz
    simp [hz]

theorem mem_loadTemp {k : Nat} (hk : k < instr.loadOps.length)
    (h : x ∈ (loaded instr).regs (srcReg instr k)) :
    x = .load k ∨ ∃ op ∈ instr.loadOps, x = .reg op.baseReg ∨ x = .reg op.indexReg := by
  rw [srcReg_load hk, (loaded_afterLoads instr).temps k hk,
    List.getD_eq_getElem _ _ hk] at h
  rcases List.mem_cons.mp h with h | h
  · exact Or.inl h
  · refine Or.inr ⟨_, List.getElem_mem hk, ?_⟩
    rcases List.mem_append.mp h with h | h
    · exact Or.inl (mem_init.mp h).2
    · exact Or.inr (mem_init.mp h).2

theorem loadTemp_mem {op : MemOperand} {r : Nat} (hop : op ∈ instr.loadOps) (hpos : 0 < r)
    (hr : r = op.baseReg ∨ r = op.indexReg) :
    ∃ k < instr.loadOps.length, .reg r ∈ (loaded instr).regs (srcReg instr k) := by
  obtain ⟨k, hk, rfl⟩ := List.mem_iff_getElem.mp hop
  refine ⟨k, hk, ?_⟩
  rw [srcReg_load hk, (loaded_afterLoads instr).temps k hk, List.getD_eq_getElem _ _ hk]
  apply List.mem_cons_of_mem
  rcases hr with hr | hr
  · exact List.mem_append_left _ (mem_init.mpr ⟨by omega, by rw [hr]⟩)
  · exact List.mem_append_right _ (mem_init.mpr ⟨by omega, by rw [hr]⟩)

/-- The sources but the last reach every input just when the last goes in elsewhere. -/
theorem reaches_iff {m : Nat} (hs : srcs instr = m + 3) :
    (∀ x ∈ inputs instr, ∃ k ≤ m + 1, x ∈ (loaded instr).regs (srcReg instr k)) ↔
      ∃ r, instr.inRegs.getLast? = some r ∧
        (r ∈ instr.inRegs.dropLast ∨ ∃ op ∈ instr.loadOps, r = op.baseReg ∨ r = op.indexReg) := by
  rw [srcs] at hs
  rcases List.eq_nil_or_concat instr.inRegs with hnil | ⟨init, r, hconcat⟩
  · -- the last source is a load
    rw [hnil, List.length_nil] at hs
    constructor
    · intro h
      have hin : .load (m + 2) ∈ inputs instr :=
        List.mem_append_left _ (List.mem_map_of_mem (List.mem_range.mpr (by omega)))
      obtain ⟨k, hk, hx⟩ := h _ hin
      rcases mem_loadTemp (by omega) hx with heq | ⟨op, -, heq | heq⟩
      · cases heq
        omega
      · cases heq
      · cases heq
    · rintro ⟨r, hr, -⟩
      rw [hnil] at hr
      cases hr
  · rw [List.concat_eq_append] at hconcat
    have hlen : instr.inRegs.length = init.length + 1 := by
      rw [hconcat, List.length_append, List.length_singleton]
    have hr : r ∈ instr.inRegs := by
      rw [hconcat]
      exact List.mem_append_right _ List.mem_cons_self
    have hpos := instr.regs_valid r (List.mem_append_left _ hr)
    have hlast : instr.inRegs.getLast? = some r := by rw [hconcat, List.getLast?_append]; rfl
    have hinit : instr.inRegs.dropLast = init := by rw [hconcat, List.dropLast_concat]
    constructor
    · intro h
      obtain ⟨k, hk, hx⟩ := h (.reg r) (List.mem_append_right _ (List.mem_map_of_mem hr))
      refine ⟨r, hlast, ?_⟩
      rcases Nat.lt_or_ge k instr.loadOps.length with hload | hge
      · rcases mem_loadTemp hload hx with heq | ⟨op, hop, heq⟩
        · cases heq
        · simp only [Source.reg.injEq] at heq
          exact Or.inr ⟨op, hop, heq⟩
      · obtain ⟨j, rfl⟩ := Nat.exists_eq_add_of_le hge
        have hj : j < instr.inRegs.length := by omega
        rw [srcReg_inReg hj, loaded_inReg (List.getElem_mem hj), List.mem_singleton,
          Source.reg.injEq] at hx
        rw [hinit, hx]
        left
        have hji : j < init.length := by omega
        have hget : instr.inRegs[j] = init[j] := by
          simp only [hconcat, List.getElem_append_left hji]
        rw [hget]
        exact List.getElem_mem hji
    · rintro ⟨r', hr', hgoes⟩ x hx
      rw [hlast, Option.some.injEq] at hr'
      subst hr'
      obtain ⟨k, hk, hxk⟩ := input_mem hx
      rw [srcs] at hk
      rcases Nat.lt_or_ge k (m + 2) with hlt | hge
      · exact ⟨k, by omega, hxk⟩
      · obtain rfl : k = instr.loadOps.length + init.length := by omega
        have hj : init.length < instr.inRegs.length := by omega
        have hget : instr.inRegs[init.length] = r := by
          simp [hconcat]
        rw [srcReg_inReg hj, hget, loaded_inReg hr, List.mem_singleton] at hxk
        subst hxk
        rcases hgoes with hmem | ⟨op, hop, hr'⟩
        · rw [hinit] at hmem
          obtain ⟨j, hji, hjr⟩ := List.mem_iff_getElem.mp hmem
          have hj' : j < instr.inRegs.length := by omega
          have hget' : instr.inRegs[j] = r := by
            simp only [hconcat, List.getElem_append_left hji, hjr]
          refine ⟨instr.loadOps.length + j, by omega, ?_⟩
          rw [srcReg_inReg hj', hget', loaded_inReg hr]
          exact List.mem_cons_self
        · obtain ⟨k, hk', hmem⟩ := loadTemp_mem hop hpos.1 hr'
          exact ⟨k, by omega, hmem⟩

theorem chain_flow_iff {m : Nat} (hs : srcs instr = m + 3) (hd : dsts instr ≤ 2) :
    (∀ d ∈ dests instr, ∀ x ∈ inputs instr,
      x ∈ ((loaded instr).run (chain instr latArray portsArray m)).regs d) ↔
    dsts instr = 0 ∨ ∃ r, instr.inRegs.getLast? = some r ∧
      (r ∈ instr.inRegs.dropLast ∨ ∃ op ∈ instr.loadOps, r = op.baseReg ∨ r = op.indexReg) := by
  rw [← reaches_iff hs]
  constructor
  · intro h
    rcases Nat.eq_zero_or_pos (dsts instr) with hzero | hpos
    · exact Or.inl hzero
    · right
      obtain ⟨d, hmem⟩ := List.exists_mem_of_length_pos (by rw [dests_length]; exact hpos)
      intro x hx
      exact (chain_run latArray portsArray hd m hmem).mp (h d hmem x hx)
  · rintro (hzero | h) d hmem x hx
    · obtain ⟨k, hk, -⟩ := dest_eq hmem
      omega
    · exact (chain_run latArray portsArray hd m hmem).mpr (h x hx)

/-- A template's uops are the loads, a middle part and the stores, and the data flow through the
middle part is what the template owes. -/
structure Owes (t : Template) (instr : Instr REG_LAST) (uops : List DynUop) : Prop where
  exists_middle : ∃ mid, uops = emitLoads instr ++ mid ++ emitStores instr ∧ Middle instr mid ∧
    ((∀ d ∈ dests instr, ∀ x ∈ inputs instr, x ∈ ((loaded instr).run mid).regs d) ↔
      LastSourceGoesIn instr t)

theorem basicOp_owes {t : Template} (ht : LastSourceGoesIn instr t) (hs : srcs instr ≤ 2)
    (hd : dsts instr ≤ 2) (lat : Nat) (ports : BitVec 8) (extraSlots : Nat) (report : Bool) :
    Owes t instr (emitBasicOp instr lat ports extraSlots report).uops :=
  ⟨_, rfl, basicOp_middle hd lat ports extraSlots,
    iff_of_true (basicOp_flow hs hd lat ports extraSlots) ht⟩

theorem convert2Op_owes {lat1 lat2 : Nat} {ports1 ports2 : BitVec 8}
    (h : emitConvert2Op instr lat1 lat2 ports1 ports2 = ⟨uops, false⟩) :
    Owes (.convert2Op lat1 lat2 ports1 ports2) instr uops := by
  rw [emitConvert2Op] at h
  split at h
  · cases h
  · rename_i hcounts
    simp only [not_or, Nat.not_lt, not_not] at hcounts
    obtain ⟨hstores, hloads, houts, hsrcs⟩ := hcounts
    have hnil : instr.storeOps = [] := List.eq_nil_of_length_eq_zero (by omega)
    have hd : dsts instr = 1 := by
      rw [dsts]
      omega
    have hsrc : (if 0 < instr.loadOps.length then REG_LOAD_TEMP REG_LAST
        else instr.inRegs.getD 0 0) = srcReg instr 0 := by
      split
      · rename_i hpos
        exact (srcReg_load hpos).symm
      · rename_i hzero
        have hlen : instr.loadOps = [] := List.eq_nil_of_length_eq_zero (by omega)
        simp [srcReg, sources, hlen]
    have hdst : instr.outRegs.getD 0 0 = dstReg instr 0 := by
      simp [dstReg, dests, hnil]
    rw [hsrc, hdst] at h
    cases h
    refine ⟨_, ?_, convert_middle hd lat1 lat2 ports1 ports2,
      iff_of_true (convert_flow hsrcs hd lat1 lat2 ports1 ports2) trivial⟩
    rw [emitStores, hnil]
    exact (List.append_nil _).symm

theorem mul_owes (h : emitMul instr = some ⟨uops, false⟩) : Owes .mul instr uops := by
  rw [emitMul] at h
  split at h
  · rename_i hd
    simp only [Option.bind_eq_bind, Option.bind_eq_some_iff, Option.guard_eq_some', exists_const,
      Option.some.injEq, Emitted.mk.injEq, and_true] at h
    obtain ⟨hs, rfl⟩ := h
    exact ⟨_, rfl, mul_middle hd, iff_of_true (mul_flow hs hd) trivial⟩
  · simp only [Option.some.injEq] at h
    have hreport : (emitBasicOp instr 3 PORT_1 0 true).unhandled = false := by rw [h]
    have hcounts : srcs instr ≤ 2 ∧ dsts instr ≤ 2 := by
      simpa [emitBasicOp] using hreport
    have howes := basicOp_owes (show LastSourceGoesIn instr .mul from trivial) hcounts.1
      hcounts.2 3 PORT_1 0 true
    rw [h] at howes
    exact howes

theorem div_owes (h : emitDiv instr = some ⟨uops, false⟩) : Owes .div instr uops := by
  simp only [emitDiv, Option.bind_eq_bind, Option.bind_eq_some_iff, Option.guard_eq_some',
    exists_const] at h
  obtain ⟨-, lat, -, h⟩ := h
  split at h
  · rename_i hcounts
    simp only [Option.some.injEq, Emitted.mk.injEq, and_true] at h
    subst h
    exact ⟨_, rfl, div_middle hcounts.2 lat (lat - 1),
      iff_of_true (div_flow hcounts.1 hcounts.2 lat (lat - 1)) trivial⟩
  · split at h
    · rename_i hcounts
      have howes := basicOp_owes (show LastSourceGoesIn instr .div from trivial) hcounts.1
        hcounts.2 lat PORTS_015 (lat - 1) true
      rw [Option.some.inj h] at howes
      exact howes
    · cases h

theorem chainedOp_owes {numUops : Nat} {latArray : Nat → Nat} {portsArray : Nat → BitVec 8}
    (hs : srcs instr = numUops + 1) (hd : dsts instr ≤ 2)
    (h : emitChainedOp instr numUops latArray portsArray = some ⟨uops, false⟩) :
    Owes (.chainedOp numUops latArray portsArray) instr uops := by
  simp only [emitChainedOp, Option.bind_eq_bind, Option.bind_eq_some_iff, Option.guard_eq_some',
    exists_const, Option.some.injEq, Emitted.mk.injEq, and_true] at h
  obtain ⟨hnum, -, rfl⟩ := h
  obtain ⟨m, rfl⟩ : ∃ m, numUops = m + 2 := ⟨numUops - 2, by omega⟩
  refine ⟨chain instr latArray portsArray m, ?_, chain_middle latArray portsArray hd m,
    chain_flow_iff latArray portsArray hs hd⟩
  simp only [emitChain, chain, chainHead, Nat.add_sub_cancel, List.append_assoc, List.cons_append,
    List.nil_append]
  rfl

theorem Emits.owes {t : Template} (h : Emits instr t uops) : Owes t instr uops := by
  obtain ⟨hemit, hfits⟩ := h
  cases t with
  | basicOp lat ports extraSlots report =>
    have heq := Option.some.inj hemit
    have howes := basicOp_owes (show LastSourceGoesIn instr (.basicOp lat ports extraSlots report)
      from trivial) hfits.1 hfits.2 lat ports extraSlots report
    rw [heq] at howes
    exact howes
  | chainedOp numUops latArray portsArray => exact chainedOp_owes hfits.1 hfits.2 hemit
  | convert2Op lat1 lat2 ports1 ports2 => exact convert2Op_owes (Option.some.inj hemit)
  | mul => exact mul_owes hemit
  | div => exact div_owes hemit

theorem Emits.keepsMemOps {t : Template} (h : Emits instr t uops) : KeepsMemOps instr uops := by
  obtain ⟨mid, rfl, hmid, -⟩ := h.owes.exists_middle
  exact Decoder.keepsMemOps hmid.general hmid.reads hmid.dests

theorem Emits.keepsDataFlow_iff {t : Template} (h : Emits instr t uops) :
    KeepsDataFlow instr uops ↔ LastSourceGoesIn instr t := by
  obtain ⟨mid, rfl, hmid, hflow⟩ := h.owes.exists_middle
  rw [Decoder.keepsDataFlow_iff hmid.general]
  exact hflow

/-- An instruction of a block with its template and its uops. -/
structure BlockEntry (REG_LAST : Nat) where
  instr : Instr REG_LAST
  template : Template
  uops : List DynUop
  emits : Emits instr template uops

def memLoads (block : List (BlockEntry REG_LAST)) : Nat :=
  (block.map fun e => e.instr.loadOps.length).sum

def memStores (block : List (BlockEntry REG_LAST)) : Nat :=
  (block.map fun e => e.instr.storeOps.length).sum

theorem block_counts (block : List (BlockEntry REG_LAST)) :
    ((block.flatMap BlockEntry.uops).map DynUop.type).count .UOP_LOAD = memLoads block ∧
    ((block.flatMap BlockEntry.uops).map DynUop.type).count .UOP_STORE = memStores block := by
  have hcount : ∀ (us : List DynUop) (t : UopType),
      (us.map DynUop.type).count t = (us.filter fun u => u.type = t).length := by
    intro us t
    rw [List.count, List.countP_map, List.countP_eq_length_filter]
    congr 1
  induction block with
  | nil => exact ⟨rfl, rfl⟩
  | cons e block ih =>
    have hmem := e.emits.keepsMemOps
    have hloads := congrArg List.length hmem.loads
    rw [List.length_map] at hloads
    rw [List.flatMap_cons, List.map_append, List.count_append, List.count_append, ih.1, ih.2,
      hcount, hcount, hloads, hmem.stores]
    exact ⟨rfl, rfl⟩

/-- The checks of `bbl` on the loads and stores of the block it simulates. -/
def ChecksHold {REG_LAST : Nat} (block : List (BlockEntry REG_LAST)) : Prop :=
  ∀ (uops : List DynUop), uops.map DynUop.type = (block.flatMap BlockEntry.uops).map DynUop.type →
    ∀ (c : OOOCore), c.loads = memLoads block → c.stores = memStores block →
      ∀ fuel data tr s' tr', BblState.simulateUops fuel data 0 uops ⟨c, 0, 0, 0, 0⟩ tr =
        some (s', tr') → s'.loadIdx = s'.core.loads ∧ s'.storeIdx = s'.core.stores

theorem checksHold {REG_LAST : Nat} (block : List (BlockEntry REG_LAST)) : ChecksHold block := by
  intro uops htypes c hloads hstores fuel data tr s' tr' h
  obtain ⟨hcore, hload, hstore⟩ := BblState.simulateUops_addr h
  have hcounts := block_counts block
  rw [htypes, hcounts.1, Nat.zero_add] at hload
  rw [htypes, hcounts.2, Nat.zero_add] at hstore
  exact ⟨by rw [hload, hcore.loads, hloads], by rw [hstore, hcore.stores, hstores]⟩

/-- In a block of instructions that fit their templates every memory operand has its uops, the
checks on them hold, and the data flow is kept but where a chain drops its last source. -/
theorem templates_keep {REG_LAST : Nat} (block : List (BlockEntry REG_LAST)) :
    (∀ e ∈ block, KeepsMemOps e.instr e.uops ∧
      (KeepsDataFlow e.instr e.uops ↔ LastSourceGoesIn e.instr e.template)) ∧ ChecksHold block :=
  ⟨fun e _ => ⟨e.emits.keepsMemOps, e.emits.keepsDataFlow_iff⟩, checksHold block⟩

/-- An add to memory: the address in two registers, and a third is added. -/
def addToMemory : Instr 100 where
  loadOps := [⟨3, 4⟩]
  storeOps := [⟨3, 4⟩]
  inRegs := [5]
  outRegs := [25]
  operandWidth := 64
  loads_le := by decide
  stores_le := by decide
  inRegs_le := by decide
  outRegs_le := by decide
  addr_le := by decide
  regs_valid := by decide

/-- An exchange and add whose second register is also the base of the load. -/
def exchangeAdd : Instr 100 where
  loadOps := [⟨4, 0⟩]
  storeOps := [⟨4, 0⟩]
  inRegs := [3, 4]
  outRegs := [3]
  operandWidth := 32
  loads_le := by decide
  stores_le := by decide
  inRegs_le := by decide
  outRegs_le := by decide
  addr_le := by decide
  regs_valid := by decide

/-- A basic operation, and a chain of two uops whose last source is the base of its load. -/
def addAndExchange : List (BlockEntry 100) :=
  [{ instr := addToMemory
     template := .basicOp 1 PORTS_015 0 true
     uops := ((emit addToMemory (.basicOp 1 PORTS_015 0 true)).get rfl).uops
     emits := ⟨rfl, Nat.le_refl 2, Nat.le_refl 2⟩ },
   { instr := exchangeAdd
     template := .chainedOp 2 (fun _ => 1) fun _ => PORTS_015
     uops := ((emit exchangeAdd (.chainedOp 2 (fun _ => 1) fun _ => PORTS_015)).get rfl).uops
     emits := ⟨rfl, rfl, Nat.le_refl 2⟩ }]

theorem templates_keep_addAndExchange : (∀ e ∈ addAndExchange,
      KeepsMemOps e.instr e.uops ∧ KeepsDataFlow e.instr e.uops) ∧
    memLoads addAndExchange = 2 ∧ memStores addAndExchange = 2 ∧ ChecksHold addAndExchange := by
  obtain ⟨hkeep, hchecks⟩ := templates_keep addAndExchange
  refine ⟨fun e he => ⟨(hkeep e he).1, (hkeep e he).2.mpr ?_⟩, rfl, rfl, hchecks⟩
  rcases List.mem_pair.mp he with rfl | rfl
  · trivial
  -- the last source, register 4, goes in through the address of the load
  · exact Or.inr ⟨4, rfl, Or.inr ⟨⟨4, 0⟩, List.mem_singleton_self _, Or.inl rfl⟩⟩

/-- An add with carry: two registers and the flags. -/
def addWithCarry : Instr 100 where
  loadOps := []
  storeOps := []
  inRegs := [3, 4, 25]
  outRegs := [3, 25]
  operandWidth := 64
  loads_le := by decide
  stores_le := by decide
  inRegs_le := by decide
  outRegs_le := by decide
  addr_le := by decide
  regs_valid := by decide

/-- The chain of two uops for it reads the second register twice and the flags not at all. -/
theorem carry_dropped : ¬ ∀ uops,
    Emits addWithCarry (.chainedOp 2 (fun _ => 1) fun _ => PORTS_015) uops →
      KeepsDataFlow addWithCarry uops := by
  intro h
  have hemits : Emits addWithCarry (.chainedOp 2 (fun _ => 1) fun _ => PORTS_015)
      ((emit addWithCarry (.chainedOp 2 (fun _ => 1) fun _ => PORTS_015)).get rfl).uops :=
    ⟨rfl, ⟨rfl, by decide⟩⟩
  exact absurd ((h _ hemits).outRegs 3 (by decide) (.reg 25) (by decide)) (by decide)

end Decoder

end ZSim.OOO
