import ZSim.TraceDriverParent

/-! Runs of the trace driver: after each record the children's stores and the parent's directory
list the same lines, and the records are executed in trace order, each in the first phase from
its turn on that reaches its cycle. -/

namespace ZSim

namespace TraceDriver

open AccessTrace (AccessTraceWriter)

variable {G : Config}

/-- What the replay keeps between records. -/
structure Inv (G : Config) (w : System) : Prop where
  agreeing : System.Agreeing G w
  valid : ∀ c a, (w.children c).cStore a ≠ some .I
  atw : ∀ t, w.atw = some t → t.Open

/-- A dirty PUT is played for a line that the child only shares by now. -/
def PutxOnShared (G : Config) (w : System) (acc : AccessTrace.AccessRecord) : Prop :=
  G.playPuts = true ∧ acc.type = .PUTX ∧
    (w.children acc.childId.toNat).cStore acc.lineAddr.toNat = some .S

theorem Inv.invalidates {w : System} (h : Inv G w) (rs : List InvReq) :
    ∃ w', w.invalidates G rs = some w' ∧ Inv G w' := by
  obtain ⟨w', hw', hA, hS⟩ := System.invalidates_spec h.agreeing rs
  exact ⟨w', hw', hA, fun c a hI => h.valid c a (hS.noneInvalid c a hI), hS.atw ▸ h.atw⟩

namespace System

variable {w w' : System}

@[simp] theorem setChild_atw (c : Nat) (child : ChildInfo) : (w.setChild c child).atw = w.atw := rfl

theorem toParent_setChild (w : System) (c : Nat) (a : Address) (child : ChildInfo)
    (s : Option MESIState) (h : child.cStore = Function.update (w.children c).cStore a s) :
    (w.setChild c child).toParent =
      { w.toParent with child := ParentCache.setChild w.toParent.child c a (s.getD .I) } := by
  have hchild : held (w.setChild c child).children =
      ParentCache.setChild w.toParent.child c a (s.getD .I) := by
    funext d a'
    rw [setChild, held_update _ c d a a' child s h]
    by_cases hd : d = c
    · subst hd
      by_cases ha : a' = a <;> simp [ParentCache.setChild, toParent, ha]
    · simp [ParentCache.setChild, toParent, hd]
  rw [toParent, hchild]
  rfl

theorem cStore_setChild {c d : Nat} {a b : Address} {child : ChildInfo} {s : Option MESIState}
    (h : child.cStore = Function.update (w.children c).cStore a s) :
    ((w.setChild c child).children d).cStore b =
      if d = c ∧ b = a then s else (w.children d).cStore b := by
  by_cases hd : d = c
  · subst hd
    by_cases hb : b = a <;> simp [setChild, h, hb]
  · simp [setChild, hd]

theorem cStore_setStore {c d : Nat} {a b : Address} {s : Option MESIState} :
    ((w.setStore c a s).children d).cStore b =
      if d = c ∧ b = a then s else (w.children d).cStore b :=
  cStore_setChild rfl

theorem finishRecord_spec (h : Inv G w) (acc : AccessTrace.AccessRecord) (lat : BitVec 64) :
    ∃ w', w.finishRecord G acc lat = some w' ∧ Inv G w' := by
  let c := acc.childId.toNat
  let w₁ := w.setChild c { w.children c with lastReqCycle := acc.reqCycle }
  have hstore (d : Nat) : (w₁.children d).cStore = (w.children d).cStore := by
    by_cases hd : d = c
    · subst hd
      simp [w₁, setChild]
    · simp [w₁, setChild, hd]
  have hheld : held w₁.children = held w.children := by
    funext d a
    rw [held, held, hstore]
  have hinv : Inv G w₁ := by
    refine ⟨?_, fun d a => hstore d ▸ h.valid d a, h.atw⟩
    change ParentCache.Core _ _ ⟨w.array, w.bcc, w.tcc, held w₁.children, _, _⟩
    rw [hheld]
    exact h.agreeing
  cases ht : w.atw with
  | none =>
    refine ⟨w₁, ?_, hinv⟩
    simp only [finishRecord, setChild_atw, ht]
    rfl
  | some t =>
    obtain ⟨t', ht', hopen, -⟩ := AccessTraceWriter.write_spec
      { (if G.useSkews then acc else { acc with reqCycle := acc.reqCycle + (w₁.children c).skew })
        with latency := lat.setWidth 32 } (h.atw t ht)
    refine ⟨{ w₁ with atw := some t' }, ?_, hinv.agreeing, hinv.valid, ?_⟩
    · simp only [finishRecord, setChild_atw, ht]
      exact congrArg (Option.map fun atw => { w₁ with atw := some atw }) ht'
    · rintro t₁ ⟨⟩
      exact hopen

/-- The child has its answer, and its entry is written. -/
theorem AgreeingSet.written {c : Nat} {a : Address} {state : MESIState}
    (h : AgreeingSet G w c a state) {child : ChildInfo} {s : Option MESIState}
    (hchild : child.cStore = Function.update (w.children c).cStore a s) (hs : s.getD .I = state) :
    Agreeing G (w.setChild c child) := by
  rw [Agreeing, toParent_setChild w c a child s hchild, hs]
  exact h

theorem AgreeingSet.setStore {c : Nat} {a : Address} {s : Option MESIState}
    (h : AgreeingSet G w c a (s.getD .I)) : Agreeing G (w.setStore c a s) :=
  h.written rfl rfl

theorem executeGet_spec (h : Agreeing G w) (hatw : ∀ t, w.atw = some t → t.Open)
    (script : Script G) {acc : AccessTrace.AccessRecord} {state : MESIState}
    (hc : acc.childId.toNat < G.numChildren) (hg : isPut acc.type = false)
    (hserved : Served acc.type state (held w.children acc.childId.toNat acc.lineAddr.toNat))
    (honly : ∀ d b, (w.children d).cStore b = some .I →
      d = acc.childId.toNat ∧ b = acc.lineAddr.toNat) :
    ∃ w', w.executeGet script acc state = some w' ∧ Inv G w' := by
  obtain ⟨w₁, state', hw₁, hset, hst, hnone, hatw₁⟩ := access_spec h script hc hserved
  have hne : state' ≠ .I := by simp [hst, hg]
  simp only [executeGet, hw₁, if_pos hne]
  refine finishRecord_spec ⟨hset.written rfl rfl, fun d b => ?_, hatw₁ ▸ hatw⟩ acc _
  rw [cStore_setChild rfl]
  by_cases hd : d = acc.childId.toNat ∧ b = acc.lineAddr.toNat
  · simpa [hd] using hne
  · rw [if_neg hd]
    exact fun hI => hd (honly d b (hnone d b hI))

theorem served_of_I {type : AccessType} {state stored : MESIState} (hg : isPut type = false)
    (hI : stored = .I) : Served type state stored := by
  cases type with
  | GETS => exact hI
  | GETX => exact hI ▸ rfl
  | PUTS => cases hg
  | PUTX => cases hg

theorem executePut_spec (h : Inv G w) (script : Script G) {c : Nat} {a : Address}
    {type : AccessType} {state : MESIState} (hc : c < G.numChildren) (hp : isPut type = true)
    (hs : (w.children c).cStore a = some state) (hx : type = .PUTX → state.isExclusive = true) :
    ∃ w', w.access script type c a state state = some (w', .I) ∧ AgreeingSet G w' c a .I ∧
      NoneInvalid w.children w'.children ∧ w'.atw = w.atw := by
  have hheld : held w.children c a = state := by simp [held, hs]
  have hne : state ≠ .I := fun hI => h.valid c a (hI ▸ hs)
  have hserved : Served type state (held w.children c a) := by
    rw [hheld]
    cases type with
    | PUTS => exact ⟨rfl, hne⟩
    | PUTX => exact ⟨rfl, hx rfl⟩
    | GETS => simp [isPut] at hp
    | GETX => simp [isPut] at hp
  obtain ⟨w', state', hw', hset, hst, hnone, hatw⟩ := access_spec h.agreeing script hc hserved
  obtain rfl := hst.mpr hp
  exact ⟨w', hw', hset, hnone, hatw⟩

theorem executeAccess_putxOnShared (h : Inv G w) (script : Script G)
    {acc : AccessTrace.AccessRecord} (hc : acc.childId.toNat < G.numChildren) (hshared : PutxOnShared G w acc) :
    w.executeAccess script acc = none := by
  obtain ⟨hplay, htype, hS⟩ := hshared
  have hheld : held w.children acc.childId.toNat acc.lineAddr.toNat = .S := by simp [held, hS]
  have hput : isPut acc.type = true := by simp [htype, isPut]
  simp only [executeAccess, if_pos hc, hput, if_true, hplay, hS]
  rw [htype, access_putx_shared h.agreeing script hc hheld]

theorem executeAccess_put (h : Inv G w) (script : Script G) {acc : AccessTrace.AccessRecord}
    (hc : acc.childId.toNat < G.numChildren) (hput : isPut acc.type = true)
    (hshared : ¬ PutxOnShared G w acc) :
    ∃ w', w.executeAccess script acc = some w' ∧ Inv G w' := by
  simp only [executeAccess, if_pos hc, hput, if_true]
  by_cases hplay : G.playPuts = true
  · simp only [hplay, if_true]
    cases hs : (w.children acc.childId.toNat).cStore acc.lineAddr.toNat with
    | none => exact ⟨w, rfl, h⟩
    | some state =>
      have hx : acc.type = .PUTX → state.isExclusive = true := by
        intro ht
        cases state with
        | I => exact absurd hs (h.valid _ _)
        | S => exact absurd ⟨hplay, ht, hs⟩ hshared
        | E => rfl
        | M => rfl
      obtain ⟨w₁, hw₁, hset, hnone, hatw⟩ := executePut_spec h script hc hput hs hx
      simp only [hw₁, if_true]
      refine finishRecord_spec ⟨AgreeingSet.setStore (s := none) hset, fun d b => ?_,
        hatw ▸ h.atw⟩ acc _
      rw [cStore_setStore]
      split
      · simp
      · exact fun hI => h.valid d b (hnone d b hI)
  · simp only [hplay]
    exact ⟨w, rfl, h⟩

/-- A line that the child has is put before it is got. -/
theorem executeGet_replayed (h : Inv G w) (script : Script G) {acc : AccessTrace.AccessRecord}
    {state : MESIState} (hc : acc.childId.toNat < G.numChildren) (hget : isPut acc.type = false)
    (hs : (w.children acc.childId.toNat).cStore acc.lineAddr.toNat = some state) :
    ∃ w₁ w', w.access script (if state = .M then .PUTX else .PUTS) acc.childId.toNat
        acc.lineAddr.toNat state state = some (w₁, .I) ∧
      (w₁.setStore acc.childId.toNat acc.lineAddr.toNat (some .I)).executeGet script acc .I =
        some w' ∧ Inv G w' := by
  have hx : (if state = .M then AccessType.PUTX else .PUTS) = .PUTX → state.isExclusive = true := by
    by_cases hM : state = .M <;> simp [hM]
  have hp : isPut (if state = .M then AccessType.PUTX else .PUTS) = true := by
    by_cases hM : state = .M <;> simp [hM, isPut]
  obtain ⟨w₁, hw₁, hset, hnone, hatw⟩ := executePut_spec h script hc hp hs hx
  have hI : held (w₁.setStore acc.childId.toNat acc.lineAddr.toNat (some .I)).children
      acc.childId.toNat acc.lineAddr.toNat = .I := by
    simp [held, cStore_setStore]
  obtain ⟨w', hw', hinv⟩ := executeGet_spec (AgreeingSet.setStore (s := some .I) hset)
    (hatw ▸ h.atw) script hc hget (served_of_I hget hI) fun d b hdb => by
      rw [cStore_setStore] at hdb
      split at hdb
      · assumption
      · exact absurd (hnone d b hdb) (h.valid d b)
  exact ⟨w₁, w', hw₁, hw', hinv⟩

theorem executeAccess_get (h : Inv G w) (script : Script G) {acc : AccessTrace.AccessRecord}
    (hc : acc.childId.toNat < G.numChildren) (hget : isPut acc.type = false) :
    ∃ w', w.executeAccess script acc = some w' ∧ Inv G w' := by
  have honly (d : Nat) (b : Address) (hI : (w.children d).cStore b = some .I) :
      d = acc.childId.toNat ∧ b = acc.lineAddr.toNat := absurd hI (h.valid d b)
  simp only [executeAccess, if_pos hc, hget, Bool.false_eq_true, if_false]
  cases hs : (w.children acc.childId.toNat).cStore acc.lineAddr.toNat with
  | none =>
    have hI : held w.children acc.childId.toNat acc.lineAddr.toNat = .I := by simp [held, hs]
    exact executeGet_spec h.agreeing h.atw script hc hget (served_of_I hget hI) honly
  | some state =>
    by_cases hup : state = .S ∧ acc.type = .GETX
    · have hS : held w.children acc.childId.toNat acc.lineAddr.toNat = .S := by
        simp [held, hs, hup.1]
      simp only [if_pos hup]
      refine executeGet_spec h.agreeing h.atw script hc hget ?_ honly
      simp [hup.2, hS, Served]
    · simp only [if_neg hup]
      by_cases hall : G.playAllGets = true
      · obtain ⟨w₁, w', hw₁, hw', hinv⟩ := executeGet_replayed h script hc hget hs
        simp only [hall, if_true, hw₁]
        exact ⟨w', hw', hinv⟩
      · simp only [hall]
        exact ⟨w, rfl, h⟩

/-- A record passes all asserts and keeps the invariant, a dirty PUT of a shared line apart. -/
theorem executeAccess_spec (h : Inv G w) (script : Script G) {acc : AccessTrace.AccessRecord}
    (hc : acc.childId.toNat < G.numChildren) :
    (PutxOnShared G w acc → w.executeAccess script acc = none) ∧
      (¬ PutxOnShared G w acc → ∃ w', w.executeAccess script acc = some w' ∧ Inv G w') := by
  refine ⟨executeAccess_putxOnShared h script hc, fun hshared => ?_⟩
  by_cases hput : isPut acc.type = true
  · exact executeAccess_put h script hc hput hshared
  · exact executeAccess_get h script hc (by simpa using hput)

end System

/-- Each child's store has exactly the lines for which the directory lists it, in a state that
fits. -/
structure Consistent (G : Config) (w : System) : Prop where
  unique : ∀ i < G.numLines, ∀ j < G.numLines, ∀ a, w.array i = some a → w.array j = some a → i = j
  stored_iff : ∀ c < G.numChildren, ∀ a, ((w.children c).cStore a).isSome = true ↔
    ∃ i < G.numLines, w.array i = some a ∧ (w.tcc i).sharers c = true
  state : ∀ c < G.numChildren, ∀ i < G.numLines, ∀ a s, w.array i = some a →
    (w.children c).cStore a = some s →
      s ≠ .I ∧ (s.isExclusive = true ↔ (w.tcc i).isExclusive = true)

theorem Inv.held_eq_I_iff {w : System} (h : Inv G w) {c : Nat} {a : Address} :
    held w.children c a = .I ↔ (w.children c).cStore a = none := by
  cases hs : (w.children c).cStore a with
  | none => simp [held, hs]
  | some s =>
    have hne : s ≠ .I := fun hI => h.valid c a (hI ▸ hs)
    simp [held, hs, hne]

theorem Inv.consistent {w : System} (h : Inv G w) : Consistent G w where
  unique := h.agreeing.inj
  stored_iff c hc a := by
    rw [Option.isSome_iff_ne_none, ne_eq, ← h.held_eq_I_iff]
    constructor
    · intro hne
      obtain ⟨i, hi, ha⟩ := h.agreeing.incl c hc a hne
      exact ⟨i, hi, ha, ((h.agreeing.entry hi ha).sharers c hc).mpr hne⟩
    · rintro ⟨i, hi, ha, hs⟩
      exact ((h.agreeing.entry hi ha).sharers c hc).mp hs
  state c hc i hi a s ha hs := by
    have hheld : held w.children c a = s := by simp [held, hs]
    have hne : s ≠ .I := fun hI => h.valid c a (hI ▸ hs)
    have hx := (h.agreeing.entry hi ha).exclusive c hc
    rw [hheld] at hx
    exact ⟨hne, hx hne⟩

theorem Inv.init (G : Config) (skew lastReqCycle : Nat → BitVec 64) (retrace : Bool) :
    Inv G (.init G skew lastReqCycle retrace) where
  agreeing := by
    refine ⟨fun i _ => ?_, by simp [System.toParent, System.init], ?_, by simp [System.toParent]⟩
    · exact .of_empty rfl (fun _ _ => rfl) fun c _ => by
        simp [ParentCache.view, System.toParent, System.init]
    · intro c _ a hne
      exact absurd rfl hne
  valid c a := by simp [System.init, ChildInfo.new]
  atw t ht := by
    cases retrace with
    | false => simp [System.init] at ht
    | true =>
      simp only [System.init, if_true, Option.some.injEq] at ht
      exact ht ▸ AccessTraceWriter.new_open _

/-- `globPhaseCycles` in a phase. -/
def globCycles (G : Config) : Nat → BitVec 64
  | 0 => 0
  | p + 1 => globCycles G p + G.phaseLength

def phaseLimit (G : Config) (p : Nat) : BitVec 64 := globCycles G p + G.phaseLength

/-- `p` is the first phase from `q` on whose limit exceeds `cycle`. -/
structure FirstFrom (G : Config) (q : Nat) (cycle : BitVec 64) (p : Nat) : Prop where
  le : q ≤ p
  exceeds : cycle < phaseLimit G p
  first : ∀ p', q ≤ p' → p' < p → ¬ cycle < phaseLimit G p'

/-- The records executed are the first ones of the trace, in order, skewed as their children are
when they are read, each in the first phase from that of the one before on that reaches its cycle;
and the state after each is consistent. -/
def Follows (G : Config) : System → Nat → List AccessTrace.AccessRecord → List Executed → Prop
  | _, _, _, [] => True
  | _, _, [], _ :: _ => False
  | w, q, acc :: tr, e :: es =>
    e.acc = skewed G w acc ∧ FirstFrom G q e.acc.reqCycle e.phase ∧ Consistent G e.after ∧
      Follows G e.after e.phase tr es

def lastState : System → List Executed → System
  | w, [] => w
  | _, e :: es => lastState e.after es

def lastPhase : Nat → List Executed → Nat
  | q, [] => q
  | _, e :: es => lastPhase e.phase es

@[simp] theorem lastState_concat (w : System) (es : List Executed) (e : Executed) :
    lastState w (es ++ [e]) = e.after := by
  induction es generalizing w with
  | nil => rfl
  | cons e' es ih => exact ih e'.after

@[simp] theorem lastPhase_concat (q : Nat) (es : List Executed) (e : Executed) :
    lastPhase q (es ++ [e]) = e.phase := by
  induction es generalizing q with
  | nil => rfl
  | cons e' es ih => exact ih e'.phase

theorem Follows.nil (w : System) (q : Nat) (tr : List AccessTrace.AccessRecord) :
    Follows G w q tr [] := by
  cases tr <;> trivial

theorem Follows.concat {w : System} {q : Nat} {tr rest : List AccessTrace.AccessRecord}
    {es : List Executed} {acc : AccessTrace.AccessRecord} {e : Executed} (h : Follows G w q tr es)
    (hnext : tr.drop es.length = acc :: rest) (hacc : e.acc = skewed G (lastState w es) acc)
    (hphase : FirstFrom G (lastPhase q es) e.acc.reqCycle e.phase) (hafter : Consistent G e.after) :
    Follows G w q tr (es ++ [e]) := by
  induction es generalizing w q tr with
  | nil =>
    obtain rfl : tr = acc :: rest := hnext
    exact ⟨hacc, hphase, hafter, .nil _ _ _⟩
  | cons e' es ih =>
    cases tr with
    | nil => cases h
    | cons acc' tr =>
      obtain ⟨hacc', hphase', hafter', h⟩ := h
      exact ⟨hacc', hphase', hafter', ih h hnext hacc hphase⟩

namespace Driver

variable {script : Nat → Script G} {start : System} {records : List AccessTrace.AccessRecord}

/-- What a run keeps, within a phase and between phases. -/
structure Ok (G : Config) (start : System) (records : List AccessTrace.AccessRecord)
    (d : Driver) : Prop where
  inv : Inv G d.sys
  follows : Follows G start 0 records d.log
  last : d.sys = lastState start d.log
  cycles : d.globPhaseCycles = globCycles G d.numPhases
  phase_le : lastPhase 0 d.log ≤ d.numPhases

/-- `acc` has been read, with `tr` left in the trace, and was beyond the phases before `p`. -/
structure Waits (G : Config) (records : List AccessTrace.AccessRecord) (d : Driver)
    (acc : AccessTrace.AccessRecord) (tr : List AccessTrace.AccessRecord) (p : Nat) : Prop where
  read : ∃ orig, records.drop d.log.length = orig :: tr ∧ acc = skewed G d.sys orig
  beyond : ∀ p', lastPhase 0 d.log ≤ p' → p' < p → ¬ acc.reqCycle < phaseLimit G p'

/-- The run has stopped at a dirty PUT of a line that its child only shares. -/
def Stuck (G : Config) (script : Nat → Script G) (start : System)
    (records : List AccessTrace.AccessRecord) (d : Driver) (acc : AccessTrace.AccessRecord) : Prop :=
  Follows G start 0 records d.log ∧
    ∃ w, d.sys.invalidates G (script d.log.length).before = some w ∧ PutxOnShared G w acc

theorem play_spec {d : Driver} {acc : AccessTrace.AccessRecord} {tr : List AccessTrace.AccessRecord}
    (hrecords : ∀ acc ∈ records, acc.childId.toNat < G.numChildren) (h : Ok G start records d)
    (hwait : Waits G records d acc tr d.numPhases)
    (hlt : acc.reqCycle < phaseLimit G d.numPhases) :
    (d.play script acc = .error (d, acc) ∧ Stuck G script start records d acc) ∨
      ∃ d', d.play script acc = .ok d' ∧ Ok G start records d' ∧ d'.numPhases = d.numPhases ∧
        records.drop d'.log.length = tr ∧ lastPhase 0 d'.log = d.numPhases := by
  obtain ⟨orig, hnext, hacc⟩ := hwait.read
  have hchild : acc.childId.toNat < G.numChildren := by
    have horig := hrecords orig (List.mem_of_mem_drop (hnext ▸ List.mem_cons_self))
    by_cases hs : G.useSkews = true <;> simpa [hacc, skewed, hs] using horig
  obtain ⟨w, hw, hinv⟩ := h.inv.invalidates (script d.log.length).before
  obtain ⟨hfail, hok⟩ := System.executeAccess_spec hinv (script d.log.length) hchild
  by_cases hshared : PutxOnShared G w acc
  · left
    refine ⟨?_, h.follows, w, hw, hshared⟩
    simp only [play, hw, Option.bind_some, hfail hshared]
  · obtain ⟨w', hw', hinv'⟩ := hok hshared
    let d' : Driver := { d with sys := w', log := d.log ++ [⟨d.numPhases, acc, w'⟩] }
    have hplay : d.play script acc = .ok d' := by
      simp only [play, hw, Option.bind_some, hw', d']
    have hfollows : Follows G start 0 records d'.log :=
      h.follows.concat hnext (h.last ▸ hacc) ⟨h.phase_le, hlt, hwait.beyond⟩ hinv'.consistent
    refine .inr ⟨d', hplay, ⟨hinv', hfollows, ?_, h.cycles, ?_⟩, rfl, ?_, ?_⟩
    · exact (lastState_concat start d.log ⟨d.numPhases, acc, w'⟩).symm
    · exact Nat.le_of_eq (lastPhase_concat 0 d.log ⟨d.numPhases, acc, w'⟩)
    · change records.drop (d.log ++ [_]).length = tr
      rw [List.length_append, List.length_singleton, ← List.drop_drop, hnext]
      rfl
    · exact lastPhase_concat 0 d.log ⟨d.numPhases, acc, w'⟩

theorem Waits.later {d : Driver} {acc : AccessTrace.AccessRecord}
    {tr : List AccessTrace.AccessRecord} {p : Nat} (h : Waits G records d acc tr p) (hlt : ¬ acc.reqCycle < phaseLimit G p) :
    Waits G records d acc tr (p + 1) where
  read := h.read
  beyond p' hp hp' := by
    rcases Nat.lt_succ_iff_lt_or_eq.mp hp' with hp' | rfl
    · exact h.beyond p' hp hp'
    · exact hlt

theorem executeUntil_spec (hrecords : ∀ acc ∈ records, acc.childId.toNat < G.numChildren)
    {tr : List AccessTrace.AccessRecord} {acc : AccessTrace.AccessRecord} {d : Driver}
    (h : Ok G start records d) (hwait : Waits G records d acc tr d.numPhases) :
    match executeUntil script (phaseLimit G d.numPhases) tr acc d with
    | .error (d', acc') => Stuck G script start records d' acc'
    | .ok (d', false) => Ok G start records d' ∧ records.drop d'.log.length = []
    | .ok (d', true) => Ok G start records d' ∧ d'.numPhases = d.numPhases ∧
      ∃ acc', d'.lastAcc = some acc' ∧ Waits G records d' acc' d'.tr (d.numPhases + 1) := by
  induction tr generalizing acc d with
  | nil =>
    rw [executeUntil]
    by_cases hlt : acc.reqCycle < phaseLimit G d.numPhases
    · rw [if_pos hlt]
      rcases play_spec hrecords h hwait hlt with ⟨hplay, hstuck⟩ | ⟨d', hplay, hok, -, hdrop, -⟩
      · rw [hplay]
        exact hstuck
      · rw [hplay]
        exact ⟨⟨hok.inv, hok.follows, hok.last, hok.cycles, hok.phase_le⟩, hdrop⟩
    · rw [if_neg hlt]
      exact ⟨⟨h.inv, h.follows, h.last, h.cycles, h.phase_le⟩, rfl, acc, rfl,
        (hwait.later hlt).read, (hwait.later hlt).beyond⟩
  | cons next tr ih =>
    rw [executeUntil]
    by_cases hlt : acc.reqCycle < phaseLimit G d.numPhases
    · rw [if_pos hlt]
      rcases play_spec hrecords h hwait hlt with
        ⟨hplay, hstuck⟩ | ⟨d', hplay, hok, hnum, hdrop, hlast⟩
      · rw [hplay]
        exact hstuck
      · rw [hplay]
        have hwait' : Waits G records d' (skewed G d'.sys next) tr d'.numPhases :=
          ⟨⟨next, hdrop, rfl⟩, fun p' hp hp' => by omega⟩
        have hrest := ih hok hwait'
        rw [hnum] at hrest
        exact hrest
    · rw [if_neg hlt]
      exact ⟨⟨h.inv, h.follows, h.last, h.cycles, h.phase_le⟩, rfl, acc, rfl,
        (hwait.later hlt).read, (hwait.later hlt).beyond⟩

/-- Between phases the driver is at its start, has a record in its buffer, or is done. -/
def Between (G : Config) (records : List AccessTrace.AccessRecord) (d : Driver) : Prop :=
  match d.lastAcc with
  | some acc => Waits G records d acc d.tr d.numPhases
  | none => records.drop d.log.length = d.tr ∧ (d.numPhases = 0 ∨ d.tr = [])

theorem executePhase_spec (script : Nat → Script G)
    (hrecords : ∀ acc ∈ records, acc.childId.toNat < G.numChildren)
    {d : Driver} (h : Ok G start records d) (hb : Between G records d) :
    match executePhase script d with
    | .error (d', acc') => Stuck G script start records d' acc'
    | .ok (d', false) => Ok G start records d' ∧ records.drop d'.log.length = []
    | .ok (d', true) => Ok G start records d' ∧ d'.numPhases = d.numPhases ∧
      ∃ acc', d'.lastAcc = some acc' ∧ Waits G records d' acc' d'.tr (d.numPhases + 1) := by
  have hlimit : d.globPhaseCycles + G.phaseLength = phaseLimit G d.numPhases := by
    rw [h.cycles, phaseLimit]
  simp only [executePhase, hlimit]
  cases hl : d.lastAcc with
  | some acc =>
    rw [Between, hl] at hb
    exact executeUntil_spec hrecords h hb
  | none =>
    rw [Between, hl] at hb
    cases ht : d.tr with
    | nil => exact ⟨h, hb.1.trans ht⟩
    | cons acc tr =>
      have hzero : d.numPhases = 0 := hb.2.resolve_right (by simp [ht])
      exact executeUntil_spec hrecords h
        ⟨⟨acc, hb.1.trans ht, rfl⟩, fun p' _ hp' => by omega⟩

/-- `n` phases have been run, or the trace has ended; the next record is beyond them all. -/
structure Ended (G : Config) (start : System) (records : List AccessTrace.AccessRecord) (n : Nat)
    (d : Driver) : Prop where
  follows : Follows G start 0 records d.log
  phases : d.log.length < records.length → d.numPhases = n
  beyond : ∀ orig, records[d.log.length]? = some orig →
    ∀ p, lastPhase 0 d.log ≤ p → p < n →
      ¬ (skewed G (lastState start d.log) orig).reqCycle < phaseLimit G p

theorem simulate_spec (script : Nat → Script G)
    (hrecords : ∀ acc ∈ records, acc.childId.toNat < G.numChildren) (n : Nat)
    {d : Driver} (h : Ok G start records d) (hb : Between G records d) :
    match simulate script n d with
    | .error (d', acc') => Stuck G script start records d' acc'
    | .ok d' => Ended G start records (d.numPhases + n) d' := by
  induction n generalizing d with
  | zero =>
    refine ⟨h.follows, fun _ => rfl, fun orig horig p hp hpn => ?_⟩
    cases hl : d.lastAcc with
    | some acc =>
      rw [Between, hl] at hb
      obtain ⟨orig', hdrop, rfl⟩ := hb.read
      have horig' : orig = orig' := by
        have hget := congrArg (·[0]?) hdrop
        simpa [horig] using hget
      rw [horig', ← h.last]
      exact hb.beyond p hp (by omega)
    | none =>
      rw [Between, hl] at hb
      rcases hb.2 with hzero | hnil
      · omega
      · have hlen := List.drop_eq_nil_iff.mp (hb.1.trans hnil)
        simp [List.getElem?_eq_none hlen] at horig
  | succ n ih =>
    have hphase := executePhase_spec script hrecords h hb
    rw [simulate]
    revert hphase
    cases executePhase script d with
    | error e => exact id
    | ok r =>
      obtain ⟨d', again⟩ := r
      cases again with
      | false =>
        rintro ⟨hok, hdrop⟩
        have hlen : records.length ≤ d'.log.length := List.drop_eq_nil_iff.mp hdrop
        refine ⟨hok.follows, fun hlt => absurd hlt (Nat.not_lt.mpr hlen), fun orig horig => ?_⟩
        simp [List.getElem?_eq_none hlen] at horig
      | true =>
        rintro ⟨hok, hnum, acc', hlast, hwait⟩
        have hnext := ih (d := { d' with
          numPhases := d'.numPhases + 1, globPhaseCycles := d'.globPhaseCycles + G.phaseLength })
          ⟨hok.inv, hok.follows, hok.last, by rw [hok.cycles]; rfl, Nat.le_succ_of_le hok.phase_le⟩
          (by
            rw [Between]
            simp only [hlast]
            exact ⟨hwait.read, hnum ▸ hwait.beyond⟩)
        have hsum : d.numPhases + (n + 1) = d'.numPhases + 1 + n := by omega
        rw [hsum]
        exact hnext

/-- However many phases are run, the replay follows the trace with a consistent directory, and only
a dirty PUT of a line that its child only shares by then stops it. -/
theorem replay_consistent (script : Nat → Script G) (skew lastReqCycle : Nat → BitVec 64)
    (retrace : Bool) (hrecords : ∀ acc ∈ records, acc.childId.toNat < G.numChildren) (n : Nat) :
    match simulate script n (.start (.init G skew lastReqCycle retrace) records) with
    | .error (d, acc) => Stuck G script (.init G skew lastReqCycle retrace) records d acc
    | .ok d => Ended G (.init G skew lastReqCycle retrace) records n d := by
  have h := simulate_spec script hrecords n
    (d := .start (.init G skew lastReqCycle retrace) records)
    ⟨Inv.init G skew lastReqCycle retrace, .nil _ _ _, rfl, rfl, Nat.zero_le _⟩
    ⟨rfl, .inl rfl⟩
  rwa [show (Driver.start (.init G skew lastReqCycle retrace) records).numPhases + n = n from
    Nat.zero_add n] at h

/-- Two children over a parent with one line, in phases of ten cycles. -/
def twoChildren : Config := ⟨2, 1, false, true, true, 10⟩

/-- Nothing happens beside the accesses, which take five cycles from their own. -/
def quiet (records : List AccessTrace.AccessRecord) (k : Nat) : Script twoChildren :=
  ⟨[], ⟨0, Nat.one_pos⟩, [], [], true, 0, (records[k]?.elim 0 (·.reqCycle)) + 5⟩

/-- The replay of a trace, with skews at zero and nothing retraced. -/
def quietRun (n : Nat) (records : List AccessTrace.AccessRecord) : Result Driver :=
  simulate (quiet records) n (.start (.init twoChildren (fun _ => 0) (fun _ => 0) false) records)

/-- A line read twice, taken over by the other child, evicted for its next line, and put. -/
def sharedLine : List AccessTrace.AccessRecord :=
  [⟨1, 2, 5, 0, .GETS⟩, ⟨1, 4, 5, 0, .GETS⟩, ⟨1, 12, 5, 1, .GETX⟩, ⟨2, 25, 5, 1, .GETS⟩,
    ⟨1, 26, 5, 0, .PUTS⟩]

/-- The phases and cycles of the records executed, when none stopped the replay. -/
def executed : Result Driver → Option (List (Nat × BitVec 64))
  | .ok d => some (d.log.map fun e => (e.phase, e.acc.reqCycle))
  | .error _ => none

theorem executed_eq_some {r : Result Driver} {l : List (Nat × BitVec 64)}
    (h : executed r = some l) :
    ∃ d, r = .ok d ∧ d.log.map (fun e => (e.phase, e.acc.reqCycle)) = l := by
  cases r with
  | ok d => exact ⟨d, rfl, Option.some.inj h⟩
  | error e => cases h

theorem executed_sharedLine : executed (quietRun 3 sharedLine) =
    some [(0, 2), (0, 4), (1, 12), (2, 25), (2, 26)] := by
  decide +kernel

theorem sharedLine_children :
    ∀ acc ∈ sharedLine, acc.childId.toNat < twoChildren.numChildren := by
  decide

theorem replay_consistent_sharedLine : ∃ d, quietRun 3 sharedLine = .ok d ∧ d.log.length = 5 ∧
    Ended twoChildren (.init twoChildren (fun _ => 0) (fun _ => 0) false) sharedLine 3 d := by
  have hended (n : Nat) (d : Driver) (hd : quietRun n sharedLine = .ok d) :
      Ended twoChildren (.init twoChildren (fun _ => 0) (fun _ => 0) false) sharedLine n d := by
    have h := replay_consistent (quiet sharedLine) (fun _ => 0) (fun _ => 0) false
      sharedLine_children n
    rw [quietRun] at hd
    rw [hd] at h
    exact h
  obtain ⟨d, hd, hlog⟩ := executed_eq_some executed_sharedLine
  have hlen := congrArg List.length hlog
  rw [List.length_map] at hlen
  exact ⟨d, hd, hlen, hended 3 d hd⟩

/-- The second record is late: its cycle is reached in the first phase, that of the first in the
third. -/
def unsorted : List AccessTrace.AccessRecord := [⟨1, 25, 5, 0, .GETS⟩, ⟨2, 5, 5, 0, .GETS⟩]

theorem executed_unsorted : executed (quietRun 3 unsorted) = some [(2, 25), (2, 5)] := by
  decide +kernel

/-- The other child reads the line before the dirty PUT. -/
def downgraded : List AccessTrace.AccessRecord :=
  [⟨1, 2, 5, 0, .GETX⟩, ⟨1, 4, 5, 1, .GETS⟩, ⟨1, 6, 5, 0, .PUTX⟩]

theorem executed_downgraded : executed (quietRun 1 downgraded) = none := by
  decide +kernel

/-- Not every record is executed in the first phase of all that reaches its cycle, and not every
trace is replayed to its end. -/
theorem unsorted_late :
    (¬ ∀ (G : Config) (script : Nat → Script G) (skew lastReqCycle : Nat → BitVec 64)
      (retrace : Bool) (records : List AccessTrace.AccessRecord) (n : Nat) (d : Driver),
      (∀ acc ∈ records, acc.childId.toNat < G.numChildren) →
        simulate script n (.start (.init G skew lastReqCycle retrace) records) = .ok d →
          ∀ e ∈ d.log, FirstFrom G 0 e.acc.reqCycle e.phase) ∧
    ¬ ∀ (G : Config) (script : Nat → Script G) (skew lastReqCycle : Nat → BitVec 64)
      (retrace : Bool) (records : List AccessTrace.AccessRecord) (n : Nat),
      (∀ acc ∈ records, acc.childId.toNat < G.numChildren) →
        ∃ d, simulate script n (.start (.init G skew lastReqCycle retrace) records) = .ok d := by
  constructor
  · intro h
    obtain ⟨d, hd, hlog⟩ := executed_eq_some executed_unsorted
    have hmem : (2, 5) ∈ d.log.map fun e => (e.phase, e.acc.reqCycle) := by
      rw [hlog]
      exact List.mem_cons_of_mem _ List.mem_cons_self
    obtain ⟨e, he, hphase⟩ := List.mem_map.mp hmem
    obtain ⟨hp, hcycle⟩ := Prod.mk.inj hphase
    have hfirst := (h twoChildren (quiet unsorted) (fun _ => 0) (fun _ => 0) false unsorted 3 d
      (by decide) hd e he).first 0 (Nat.le_refl 0) (by omega)
    rw [hcycle] at hfirst
    exact hfirst (by decide)
  · intro h
    obtain ⟨d, hd⟩ := h twoChildren (quiet downgraded) (fun _ => 0) (fun _ => 0) false downgraded 1
      (by decide)
    have hnone := executed_downgraded
    rw [quietRun, hd] at hnone
    cases hnone

end Driver

end TraceDriver

end ZSim
