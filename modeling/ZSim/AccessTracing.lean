import ZSim.MemoryHierarchy

/-! Access traces. A trace file is an append-only list of packed records with two attributes.
The writer and the reader each hold one chunk of it. A failed assert, a panic or an access out of
bounds is `none`. -/

namespace ZSim

/-- The value of the enumerator. -/
def AccessType.toBits : AccessType → BitVec 32
  | .GETS => 0
  | .GETX => 1
  | .PUTS => 2
  | .PUTX => 3

/-- The cast back, where the value is that of an enumerator. -/
def AccessType.ofBits (v : BitVec 32) : Option AccessType :=
  [AccessType.GETS, .GETX, .PUTS, .PUTX].find? (·.toBits = v)

namespace AccessTrace

def PT_CHUNKSIZE : Nat := 1024 * 256

theorem PT_CHUNKSIZE_pos : 0 < PT_CHUNKSIZE := by decide

structure AccessRecord where
  lineAddr : BitVec 64
  reqCycle : BitVec 64
  latency : BitVec 32
  childId : BitVec 32
  type : AccessType
  deriving DecidableEq

structure PackedAccessRecord where
  lineAddr : BitVec 64
  reqCycle : BitVec 64
  latency : BitVec 32
  childId : BitVec 16
  type : BitVec 16
  deriving DecidableEq

def AccessRecord.pack (acc : AccessRecord) : PackedAccessRecord :=
  ⟨acc.lineAddr, acc.reqCycle, acc.latency, acc.childId.setWidth 16,
    (acc.type.toBits.setWidth 8).setWidth 16⟩

def PackedAccessRecord.unpack (pr : PackedAccessRecord) : Option AccessRecord :=
  (AccessType.ofBits (pr.type.setWidth 32)).map
    (⟨pr.lineAddr, pr.reqCycle, pr.latency, pr.childId.setWidth 32, ·⟩)

/-- What is left of a record in the packed form. -/
def AccessRecord.narrowed (acc : AccessRecord) : AccessRecord :=
  { acc with childId := (acc.childId.setWidth 16).setWidth 32 }

@[simp] theorem AccessRecord.unpack_pack (acc : AccessRecord) :
    acc.pack.unpack = some acc.narrowed := by
  obtain ⟨addr, cycle, lat, child, type⟩ := acc
  cases type <;> rfl

theorem AccessRecord.narrowed_eq_self {acc : AccessRecord} :
    acc.narrowed = acc ↔ acc.childId.toNat < 2 ^ 16 := by
  obtain ⟨addr, cycle, lat, child, type⟩ := acc
  simp only [narrowed, mk.injEq, true_and, and_true]
  rw [BitVec.toNat_eq, BitVec.toNat_setWidth, BitVec.toNat_setWidth]
  omega

theorem AccessRecord.narrowed_of_unpack {pr : PackedAccessRecord} {acc : AccessRecord}
    (h : pr.unpack = some acc) : acc.narrowed = acc := by
  obtain ⟨type, -, rfl⟩ := Option.map_eq_some_iff.mp h
  refine narrowed_eq_self.mpr ?_
  simp only [BitVec.toNat_setWidth]
  omega

theorem AccessRecord.pack_of_unpack {pr : PackedAccessRecord} {acc : AccessRecord}
    (h : pr.unpack = some acc) : acc.pack = pr := by
  obtain ⟨addr, cycle, lat, child, v⟩ := pr
  obtain ⟨type, htype, rfl⟩ := Option.map_eq_some_iff.mp h
  have hv : type.toBits = v.setWidth 32 := by simpa using List.find?_some htype
  have hbits : v.toNat = type.toBits.toNat := by
    rw [hv, BitVec.toNat_setWidth]
    omega
  simp only [pack, PackedAccessRecord.mk.injEq, true_and]
  refine ⟨BitVec.eq_of_toNat_eq ?_, BitVec.eq_of_toNat_eq ?_⟩
  · simp only [BitVec.toNat_setWidth]
    omega
  · rw [hbits, BitVec.toNat_setWidth, BitVec.toNat_setWidth]
    cases type <;> rfl

/-- The dataset `accs` of the file and its attributes. -/
structure TraceFile where
  accs : List PackedAccessRecord
  numChildren : BitVec 32
  finished : BitVec 32

structure AccessTraceWriter where
  buf : List PackedAccessRecord
  cur : Nat
  max : Nat
  file : TraceFile

namespace AccessTraceWriter

def new (numChildren : BitVec 32) : AccessTraceWriter where
  buf := List.replicate PT_CHUNKSIZE ⟨0, 0, 0, 0, 0⟩
  cur := 0
  max := PT_CHUNKSIZE
  file := ⟨[], numChildren, 0⟩

def dump (w : AccessTraceWriter) (cont : Bool) : AccessTraceWriter :=
  let accs := w.file.accs ++ w.buf.take w.cur
  if cont then { w with cur := 0, file := { w.file with accs := accs } }
  else ⟨[], 0, 0, { w.file with accs := accs, finished := 1 }⟩

def write (w : AccessTraceWriter) (acc : AccessRecord) : Option AccessTraceWriter :=
  if w.cur < w.buf.length then
    let w' := { w with buf := w.buf.set w.cur acc.pack, cur := w.cur + 1 }
    if w'.cur = w'.max then
      let w'' := w'.dump true
      if w''.cur < w''.max then some w'' else none
    else some w'
  else none

/-- The records written so far, in the file or in the buffer. -/
def written (w : AccessTraceWriter) : List PackedAccessRecord := w.file.accs ++ w.buf.take w.cur

/-- A writer that has not been dumped for good. -/
structure Open (w : AccessTraceWriter) : Prop where
  length : w.buf.length = w.max
  room : w.cur < w.max

theorem new_open (numChildren : BitVec 32) : (new numChildren).Open :=
  ⟨List.length_replicate, PT_CHUNKSIZE_pos⟩

@[simp] theorem written_new (numChildren : BitVec 32) : (new numChildren).written = [] := by
  simp [written, new]

theorem take_set_succ {w : AccessTraceWriter} (p : PackedAccessRecord) (hw : w.Open) :
    (w.buf.set w.cur p).take (w.cur + 1) = w.buf.take w.cur ++ [p] := by
  have hlt : w.cur < w.buf.length := hw.length ▸ hw.room
  rw [List.take_add_one, List.take_set_of_le (Nat.le_refl _), List.getElem?_set_self hlt]
  rfl

theorem write_spec {w : AccessTraceWriter} (acc : AccessRecord) (hw : w.Open) :
    ∃ w', w.write acc = some w' ∧ w'.Open ∧ w'.written = w.written ++ [acc.pack] ∧
      w'.file.numChildren = w.file.numChildren := by
  have hlt : w.cur < w.buf.length := hw.length ▸ hw.room
  have hpos : 0 < w.max := Nat.zero_lt_of_lt hw.room
  unfold write
  rw [if_pos hlt]
  by_cases hfull : w.cur + 1 = w.max
  · rw [if_pos hfull]
    refine ⟨_, if_pos hpos, ⟨?_, hpos⟩, ?_, rfl⟩
    · simpa [dump] using hw.length
    · simp [dump, written, take_set_succ acc.pack hw]
  · rw [if_neg hfull]
    refine ⟨_, rfl, ⟨?_, Nat.lt_of_le_of_ne hw.room hfull⟩, ?_, rfl⟩
    · simpa using hw.length
    · simp [written, take_set_succ acc.pack hw]

/-- Any number of calls of `write`. -/
def writes (w : AccessTraceWriter) (accs : List AccessRecord) : Option AccessTraceWriter :=
  accs.foldlM write w

theorem writes_spec (accs : List AccessRecord) {w : AccessTraceWriter} (hw : w.Open) :
    ∃ w', w.writes accs = some w' ∧ w'.Open ∧
      w'.written = w.written ++ accs.map AccessRecord.pack ∧
      w'.file.numChildren = w.file.numChildren := by
  induction accs generalizing w with
  | nil => exact ⟨w, rfl, hw, by simp, rfl⟩
  | cons acc accs ih =>
    obtain ⟨w₁, h₁, hopen, hwritten, hchildren⟩ := write_spec acc hw
    obtain ⟨w₂, h₂, hopen', hwritten', hchildren'⟩ := ih hopen
    refine ⟨w₂, ?_, hopen', by simp [hwritten', hwritten], hchildren'.trans hchildren⟩
    rw [writes, List.foldlM_cons, h₁]
    exact h₂

@[simp] theorem accs_dump (w : AccessTraceWriter) (cont : Bool) :
    (w.dump cont).file.accs = w.written := by
  cases cont <;> rfl

end AccessTraceWriter

structure AccessTraceReader where
  buf : List PackedAccessRecord
  cur : Nat
  max : Nat
  file : TraceFile
  curFrameRecord : Nat
  numRecords : Nat
  numChildren : BitVec 32

namespace AccessTraceReader

/-- What `H5PTread_packets` leaves in the buffer. -/
def readPackets (file : TraceFile) (start n : Nat) (buf : List PackedAccessRecord) :
    List PackedAccessRecord :=
  (file.accs.drop start).take n ++ buf.drop n

def new (file : TraceFile) : Option AccessTraceReader :=
  if file.finished = 0 then none
  else
    let numRecords := file.accs.length
    let max := min PT_CHUNKSIZE numRecords
    some ⟨readPackets file 0 max [], 0, max, file, 0, numRecords, file.numChildren⟩

def empty (r : AccessTraceReader) : Bool := r.cur = r.max

def nextChunk (r : AccessTraceReader) : Option AccessTraceReader :=
  if r.cur ≠ r.max then none
  else
    let frame := r.curFrameRecord + r.max
    if frame < r.numRecords then
      let max := min PT_CHUNKSIZE (r.numRecords - frame)
      some { r with
        curFrameRecord := frame, cur := 0, max := max, buf := readPackets r.file frame max r.buf }
    else if frame = r.numRecords then some { r with curFrameRecord := frame }
    else none

def read (r : AccessTraceReader) : Option (AccessRecord × AccessTraceReader) :=
  if r.cur < r.max then do
    let acc ← r.buf[r.cur]? >>= PackedAccessRecord.unpack
    let r' := { r with cur := r.cur + 1 }
    let r'' ← if r'.cur = r'.max then r'.nextChunk else some r'
    some (acc, r'')
  else none

/-- The records not read yet. -/
def rest (r : AccessTraceReader) : List PackedAccessRecord :=
  (r.buf.take r.max).drop r.cur ++ r.file.accs.drop (r.curFrameRecord + r.max)

structure Good (r : AccessTraceReader) : Prop where
  numRecords : r.numRecords = r.file.accs.length
  length : r.max ≤ r.buf.length
  cur : r.cur ≤ r.max
  inside : r.cur < r.max → r.curFrameRecord + r.max ≤ r.numRecords
  done : r.cur = r.max → r.numRecords ≤ r.curFrameRecord + r.max

theorem Good.empty_iff {r : AccessTraceReader} (hr : r.Good) : r.empty = true ↔ r.rest = [] := by
  have hlen := hr.length
  have hcur := hr.cur
  have hdone := hr.done
  have htotal := hr.numRecords
  simp only [empty, decide_eq_true_eq, rest, List.append_eq_nil_iff, List.drop_eq_nil_iff,
    List.length_take]
  constructor
  · intro h
    exact ⟨by omega, by have := hdone h; omega⟩
  · rintro ⟨h, -⟩
    omega

theorem new_spec {file : TraceFile} (h : file.finished ≠ 0) :
    ∃ r, new file = some r ∧ r.Good ∧ r.rest = file.accs ∧ r.numRecords = file.accs.length ∧
      r.numChildren = file.numChildren := by
  have hlen : (readPackets file 0 (min PT_CHUNKSIZE file.accs.length) []).length
      = min PT_CHUNKSIZE file.accs.length := by simp [readPackets]
  refine ⟨_, by rw [new, if_neg h], ⟨rfl, Nat.le_of_eq hlen.symm, Nat.zero_le _, ?_, ?_⟩, ?_, rfl,
    rfl⟩
  · intro _
    simp only
    omega
  · intro hzero
    have := PT_CHUNKSIZE_pos
    simp only at hzero ⊢
    omega
  · simp only [rest, readPackets, List.drop_zero, List.drop_nil, List.append_nil, Nat.zero_add]
    rw [List.take_take, Nat.min_self, List.take_append_drop]

theorem nextChunk_spec {r : AccessTraceReader} (htotal : r.numRecords = r.file.accs.length)
    (hlen : r.max ≤ r.buf.length) (hend : r.cur = r.max)
    (hle : r.curFrameRecord + r.max ≤ r.numRecords) :
    ∃ r', r.nextChunk = some r' ∧ r'.Good ∧
      r'.rest = r.file.accs.drop (r.curFrameRecord + r.max) ∧ r'.numRecords = r.numRecords ∧
      r'.numChildren = r.numChildren := by
  unfold nextChunk
  rw [if_neg (not_not_intro hend)]
  by_cases hmore : r.curFrameRecord + r.max < r.numRecords
  · have hpos := PT_CHUNKSIZE_pos
    have hread : (r.file.accs.drop (r.curFrameRecord + r.max)).length
        = r.numRecords - (r.curFrameRecord + r.max) := by rw [List.length_drop, htotal]
    rw [if_pos hmore]
    refine ⟨_, rfl, ⟨htotal, ?_, Nat.zero_le _, ?_, ?_⟩, ?_, rfl, rfl⟩
    · simp only [readPackets, List.length_append, List.length_take, List.length_drop]
      omega
    · intro _
      simp only
      omega
    · intro hzero
      simp only at hzero ⊢
      omega
    · have htake : min PT_CHUNKSIZE (r.numRecords - (r.curFrameRecord + r.max))
          ≤ (r.file.accs.drop (r.curFrameRecord + r.max)).length := by omega
      simp only [rest, readPackets, List.drop_zero]
      rw [List.take_append_of_le_length (by rw [List.length_take]; omega), List.take_take,
        Nat.min_self, ← List.drop_drop (i := min _ _), List.take_append_drop]
  · rw [if_neg hmore, if_pos (Nat.le_antisymm hle (Nat.le_of_not_lt hmore))]
    refine ⟨_, rfl, ⟨htotal, hlen, Nat.le_of_eq hend, ?_, ?_⟩, ?_, rfl, rfl⟩
    · intro h
      exact absurd hend (Nat.ne_of_lt h)
    · intro _
      simp only
      omega
    · simp only [rest, hend, List.drop_take, Nat.sub_self, List.take_zero, List.nil_append]
      rw [List.drop_eq_nil_of_le (by omega), List.drop_eq_nil_of_le (by omega)]

theorem read_spec {r : AccessTraceReader} (hr : r.Good) {p : PackedAccessRecord}
    {ps : List PackedAccessRecord} {acc : AccessRecord} (hrest : r.rest = p :: ps)
    (hp : p.unpack = some acc) :
    ∃ r', r.read = some (acc, r') ∧ r'.Good ∧ r'.rest = ps ∧ r'.numRecords = r.numRecords ∧
      r'.numChildren = r.numChildren := by
  have hlt : r.cur < r.max := by
    refine Nat.lt_of_le_of_ne hr.cur fun hend => ?_
    have := hr.empty_iff.mp (decide_eq_true hend)
    simp [hrest] at this
  have hcur : r.cur < r.buf.length := Nat.lt_of_lt_of_le hlt hr.length
  have hchunk : (r.buf.take r.max).drop r.cur
      = r.buf[r.cur] :: (r.buf.take r.max).drop (r.cur + 1) := by
    rw [List.drop_eq_getElem_cons (by rw [List.length_take]; omega), List.getElem_take]
  rw [rest, hchunk, List.cons_append] at hrest
  obtain ⟨hhead, htail⟩ := List.cons.inj hrest
  have hget : (r.buf[r.cur]? >>= PackedAccessRecord.unpack) = some acc := by
    rw [List.getElem?_eq_getElem hcur, hhead]
    exact hp
  unfold read
  rw [if_pos hlt, hget]
  by_cases hend : r.cur + 1 = r.max
  · obtain ⟨r', hnext, hgood, hrest', hrecords, hchildren⟩ :=
      nextChunk_spec (r := { r with cur := r.cur + 1 }) hr.numRecords hr.length hend (hr.inside hlt)
    refine ⟨r', ?_, hgood, ?_, hrecords, hchildren⟩
    · simp only [if_pos hend, hnext, Option.bind_eq_bind, Option.bind_some]
    · have hlast : (r.buf.take r.max).drop (r.cur + 1) = [] :=
        List.drop_eq_nil_of_le (by rw [List.length_take]; omega)
      rw [← htail, hlast, List.nil_append]
      exact hrest'
  · refine ⟨{ r with cur := r.cur + 1 }, by simp [hend],
      ⟨hr.numRecords, hr.length, hlt, fun _ => hr.inside hlt, fun h => absurd h hend⟩, htail, rfl, rfl⟩

/-- Reading until the trace is empty, in at most `fuel` tests of `empty`. -/
def readAll : Nat → AccessTraceReader → Option (List AccessRecord)
  | 0, _ => none
  | fuel + 1, r =>
    if r.empty then some []
    else do
      let (acc, r') ← r.read
      let accs ← readAll fuel r'
      some (acc :: accs)

theorem readAll_spec {ps : List PackedAccessRecord} {accs : List AccessRecord}
    (hps : ps.mapM PackedAccessRecord.unpack = some accs) {fuel : Nat} (hfuel : ps.length < fuel)
    {r : AccessTraceReader} (hr : r.Good) (hrest : r.rest = ps) : readAll fuel r = some accs := by
  induction ps generalizing accs fuel r with
  | nil =>
    obtain ⟨fuel, rfl⟩ := Nat.exists_eq_succ_of_ne_zero (Nat.ne_of_gt hfuel)
    cases hps
    rw [readAll, if_pos (hr.empty_iff.mpr hrest)]
    rfl
  | cons p ps ih =>
    obtain ⟨fuel, rfl⟩ := Nat.exists_eq_succ_of_ne_zero (Nat.ne_of_gt (Nat.zero_lt_of_lt hfuel))
    rw [List.mapM_cons] at hps
    obtain ⟨acc, hacc, htail⟩ := Option.bind_eq_some_iff.mp hps
    obtain ⟨accs', haccs', hcons⟩ := Option.bind_eq_some_iff.mp htail
    cases hcons
    obtain ⟨r', hread, hgood, hrest', -⟩ := read_spec hr hrest hacc
    have hne : r.empty ≠ true := fun h => by simp [hr.empty_iff.mp h] at hrest
    rw [readAll, if_neg hne, hread]
    simp [ih haccs' (Nat.lt_of_succ_lt_succ hfuel) hgood hrest']

end AccessTraceReader

/-- The records read back from a file to which `accs` have been written. -/
def readBack (fuel : Nat) (numChildren : BitVec 32) (accs : List AccessRecord) :
    Option (List AccessRecord) := do
  let w ← (AccessTraceWriter.new numChildren).writes accs
  let r ← AccessTraceReader.new (w.dump false).file
  r.readAll fuel

theorem mapM_unpack_pack (accs : List AccessRecord) :
    (accs.map AccessRecord.pack).mapM PackedAccessRecord.unpack
      = some (accs.map AccessRecord.narrowed) := by
  induction accs with
  | nil => rfl
  | cons acc accs ih => simp [List.mapM_cons, ih]

theorem readBack_narrowed {fuel : Nat} (numChildren : BitVec 32) {accs : List AccessRecord}
    (hfuel : accs.length < fuel) :
    readBack fuel numChildren accs = some (accs.map AccessRecord.narrowed) := by
  obtain ⟨w, hw, -, hwritten, -⟩ :=
    AccessTraceWriter.writes_spec accs (AccessTraceWriter.new_open numChildren)
  rw [AccessTraceWriter.written_new, List.nil_append] at hwritten
  have hfinished : (w.dump false).file.finished ≠ 0 := by simp [AccessTraceWriter.dump]
  obtain ⟨r, hnew, hgood, hrest, -⟩ := AccessTraceReader.new_spec hfinished
  rw [AccessTraceWriter.accs_dump, hwritten] at hrest
  have hall := AccessTraceReader.readAll_spec (mapM_unpack_pack accs)
    (by rwa [List.length_map]) hgood hrest
  simp [readBack, hw, hnew, hall]

/-- A trace comes back as it was written exactly when the child ids fit in the packed field. -/
theorem readBack_eq_iff {fuel : Nat} (numChildren : BitVec 32) {accs : List AccessRecord}
    (hfuel : accs.length < fuel) :
    readBack fuel numChildren accs = some accs ↔ ∀ acc ∈ accs, acc.childId.toNat < 2 ^ 16 := by
  rw [readBack_narrowed numChildren hfuel, Option.some_inj]
  constructor
  · intro h acc hacc
    have hself : accs.map AccessRecord.narrowed = accs.map id := by rw [h, List.map_id]
    exact AccessRecord.narrowed_eq_self.mp (List.map_inj_left.mp hself acc hacc)
  · intro h
    conv_rhs => rw [← List.map_id accs]
    exact List.map_congr_left fun acc hacc => AccessRecord.narrowed_eq_self.mpr (h acc hacc)

theorem readBack_eq_iff_two_records :
    readBack 3 4 [⟨1, 10, 5, 3, .GETX⟩, ⟨1, 20, 5, 3, .PUTX⟩]
        = some [⟨1, 10, 5, 3, .GETX⟩, ⟨1, 20, 5, 3, .PUTX⟩] ↔
      ∀ acc ∈ [(⟨1, 10, 5, 3, .GETX⟩ : AccessRecord), ⟨1, 20, 5, 3, .PUTX⟩],
        acc.childId.toNat < 2 ^ 16 :=
  readBack_eq_iff 4 (by decide)

theorem wide_childId_lost :
    ¬ ∀ (fuel : Nat) (numChildren : BitVec 32) (accs : List AccessRecord), accs.length < fuel →
      (∀ acc ∈ accs, acc.childId < numChildren) → readBack fuel numChildren accs = some accs := by
  intro h
  have hback := h 2 65537 [⟨1, 10, 5, 65536, .GETS⟩] (by decide) (by decide)
  rw [readBack_narrowed 65537 (by decide)] at hback
  exact absurd hback (by decide)

end AccessTrace

end ZSim
