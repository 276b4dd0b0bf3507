import ZSim.UtilityMonitorMisses

/-! Utility monitors of the partitions of a cache, with the miss curves of all of them in
one array. Arrays are bounds-checked: an access outside one is `none`, like a failed
assert and a division by zero. -/

namespace ZSim

structure UMonMonitorConfig where
  umon : UMonConfig
  numPartitions : Nat
  buckets : Nat
  numPartitions_pos : 0 < numPartitions

structure UMonMonitor where
  monitors : List UMon
  missCache : List Nat
  missCacheValid : Bool

namespace UMonMonitor

variable (cfg : UMonMonitorConfig) (hash : Nat → Address → Nat)
  (upsample : Nat → Nat → Nat → Nat → Nat)

def init : UMonMonitor where
  monitors := List.replicate cfg.numPartitions (UMon.init cfg.umon)
  missCache := List.replicate (cfg.buckets * cfg.numPartitions) 0
  missCacheValid := false

def access (m : UMonMonitor) (partition : Nat) (lineAddr : Address) : Option UMonMonitor :=
  match m.monitors[partition]? with
  | none => none
  | some monitor =>
    if m.missCacheValid then none
    else (monitor.access cfg.umon hash lineAddr).map fun monitor =>
      { m with monitors := m.monitors.set partition monitor }

def reset (m : UMonMonitor) : UMonMonitor :=
  { m with monitors := m.monitors.map UMon.startNextInterval, missCacheValid := false }

/-- `misses[i] = v`, where `misses` points into `missCache` and has cells of 32 bits. -/
def storeMiss (missCache : List Nat) (misses i v : Nat) : Option (List Nat) :=
  UMon.store missCache (misses + i) (v % 2 ^ 32)

def downsampleFrom (umonMisses : List Nat) (misses ratio : Nat) :
    List Nat → List Nat → Option (List Nat)
  | [], missCache => some missCache
  | j :: js, missCache =>
    (umonMisses[j * ratio]?).bind fun v =>
      (storeMiss missCache misses j v).bind (downsampleFrom umonMisses misses ratio js)

/-- The inner loop of the upsampling branch. `upsample m0 m1 k ratio` is the value the
arithmetic on doubles gives `k` steps of `ratio` from `m0` to `m1`. -/
def interpolateFrom (misses first m0 m1 ratio : Nat) :
    List Nat → List Nat → Option (List Nat)
  | [], missCache => some missCache
  | k :: ks, missCache =>
    (storeMiss missCache misses (first + k) (upsample m0 m1 k ratio)).bind
      (interpolateFrom misses first m0 m1 ratio ks)

/-- The outer loop of the upsampling branch. -/
def upsampleFrom (umonMisses : List Nat) (misses ratio : Nat) :
    List Nat → List Nat → Option (List Nat)
  | [], missCache => some missCache
  | j :: js, missCache =>
    (umonMisses[j]?).bind fun m0 =>
      (storeMiss missCache misses (ratio * j) m0).bind fun missCache =>
        (umonMisses[j + 1]?).bind fun m1 =>
          (interpolateFrom upsample misses (ratio * j) m0 m1 ratio
              ((List.range (ratio - 1)).map (· + 1)) missCache).bind fun missCache =>
            (umonMisses[cfg.umon.buckets]?).bind fun last =>
              (storeMiss missCache misses cfg.buckets last).bind
                (upsampleFrom umonMisses misses ratio js)

/-- `locals` is the array `umonMisses` as it is before it is filled. -/
def getMissCurve (m : UMonMonitor) (locals : List Nat) (misses partition : Nat)
    (missCache : List Nat) : Option (List Nat) :=
  (m.monitors[partition]?).bind fun monitor =>
    (monitor.getMisses cfg.umon locals).bind fun umonMisses =>
      if cfg.buckets = 0 then none
      else if cfg.buckets ≤ cfg.umon.buckets then
        if cfg.umon.buckets % cfg.buckets = 0 then
          (downsampleFrom umonMisses misses (cfg.umon.buckets / cfg.buckets)
              (List.range cfg.buckets) missCache).bind fun missCache =>
            (umonMisses[cfg.umon.buckets]?).bind (storeMiss missCache misses cfg.buckets)
        else none
      else if cfg.buckets % cfg.umon.buckets = 0 then
        upsampleFrom cfg upsample umonMisses misses (cfg.buckets / cfg.umon.buckets)
          (List.range cfg.umon.buckets) missCache
      else none

/-- The loop of `getMissCurves` over the partitions. -/
def getMissCurves (m : UMonMonitor) (locals : List Nat) :
    List Nat → List Nat → Option (List Nat)
  | [], missCache => some missCache
  | partition :: partitions, missCache =>
    (getMissCurve cfg upsample m locals (partition * cfg.buckets) partition missCache).bind
      (getMissCurves m locals partitions)

/-- `get`, and the monitor with its curves computed. -/
def get (m : UMonMonitor) (locals : List Nat) (partition bucket : Nat) :
    Option (Nat × UMonMonitor) :=
  if partition < m.monitors.length then
    if m.missCacheValid then
      (m.missCache[partition * cfg.buckets + bucket]?).map fun v => (v, m)
    else
      (getMissCurves cfg upsample m locals (List.range m.monitors.length) m.missCache).bind
        fun missCache => (missCache[partition * cfg.buckets + bucket]?).map fun v =>
          (v, { m with missCache := missCache, missCacheValid := true })
  else none

inductive Op
  | access (partition : Nat) (lineAddr : Address)
  | reset

def step (m : UMonMonitor) : Op → Option UMonMonitor
  | .access partition lineAddr => m.access cfg hash partition lineAddr
  | .reset => some m.reset

/-- The operations on one partition's monitor. -/
def Op.of (partition : Nat) : Op → Option UMon.Op
  | .access p lineAddr => if p = partition then some (.access lineAddr) else none
  | .reset => some .startNextInterval

/-- What `get` is for: the partition's own curve, at the number of ways that corresponds
to the bucket. -/
def ownMisses (ops : List Op) (partition bucket : Nat) : Option Nat :=
  (UMon.run cfg.umon hash (ops.filterMap (Op.of partition))).bind fun monitor =>
    (monitor.getMisses cfg.umon (List.replicate (cfg.umon.buckets + 1) 0)).bind fun umonMisses =>
      if cfg.buckets ≤ cfg.umon.buckets then
        umonMisses[bucket * (cfg.umon.buckets / cfg.buckets)]?
      else
        let ratio := cfg.buckets / cfg.umon.buckets
        match umonMisses[bucket / ratio]?, umonMisses[bucket / ratio + 1]? with
        | some m0, some m1 =>
          some (if bucket % ratio = 0 then m0 else upsample m0 m1 (bucket % ratio) ratio)
        | some m0, none => some m0
        | _, _ => none

/-- After `ops`, every partition gets its own curve for every bucket up to `buckets`, and
it does not increase. -/
structure ReportsOwnCurves (ops : List Op) (m : UMonMonitor) (locals : List Nat) : Prop where
  own : ∀ p < cfg.numPartitions, ∀ b ≤ cfg.buckets,
    ∃ v m', get cfg upsample m locals p b = some (v, m') ∧
      some v = ownMisses cfg hash upsample ops p b
  nonincreasing : ∀ p < cfg.numPartitions, ∀ b b', b ≤ b' → b' ≤ cfg.buckets →
    ∀ v v' m' m'', get cfg upsample m locals p b = some (v, m') →
      get cfg upsample m locals p b' = some (v', m'') → v' ≤ v

variable {cfg hash upsample} {m m' : UMonMonitor} {locals missCache missCache' : List Nat}

theorem length_store {array array' : List Nat} {i v : Nat}
    (h : UMon.store array i v = some array') : array'.length = array.length := by
  rw [UMon.store] at h
  split at h
  · cases h
    exact List.length_set
  · cases h

/-- The cell behind the last one of the array cannot be written. -/
theorem storeMiss_last (h : missCache.length = cfg.buckets * cfg.numPartitions) (v : Nat) :
    storeMiss missCache ((cfg.numPartitions - 1) * cfg.buckets) cfg.buckets v = none := by
  have hcell : (cfg.numPartitions - 1) * cfg.buckets + cfg.buckets =
      cfg.buckets * cfg.numPartitions := by
    rw [← Nat.succ_mul, Nat.succ_eq_add_one, Nat.sub_add_cancel cfg.numPartitions_pos,
      Nat.mul_comm]
  rw [storeMiss, UMon.store, if_neg (by omega)]

theorem length_downsampleFrom {umonMisses js : List Nat} {misses ratio : Nat}
    (h : downsampleFrom umonMisses misses ratio js missCache = some missCache') :
    missCache'.length = missCache.length := by
  induction js generalizing missCache with
  | nil =>
    cases h
    rfl
  | cons j js ih =>
    obtain ⟨v, -, h⟩ := Option.bind_eq_some_iff.mp h
    obtain ⟨cache, hstore, h⟩ := Option.bind_eq_some_iff.mp h
    rw [ih h, length_store hstore]

theorem length_interpolateFrom {misses first m0 m1 ratio : Nat} {ks : List Nat}
    (h : interpolateFrom upsample misses first m0 m1 ratio ks missCache = some missCache') :
    missCache'.length = missCache.length := by
  induction ks generalizing missCache with
  | nil =>
    cases h
    rfl
  | cons k ks ih =>
    obtain ⟨cache, hstore, h⟩ := Option.bind_eq_some_iff.mp h
    rw [ih h, length_store hstore]

theorem length_upsampleFrom {umonMisses js : List Nat} {misses ratio : Nat}
    (h : upsampleFrom cfg upsample umonMisses misses ratio js missCache = some missCache') :
    missCache'.length = missCache.length := by
  induction js generalizing missCache with
  | nil =>
    cases h
    rfl
  | cons j js ih =>
    obtain ⟨m0, -, h⟩ := Option.bind_eq_some_iff.mp h
    obtain ⟨cache, hstore, h⟩ := Option.bind_eq_some_iff.mp h
    obtain ⟨m1, -, h⟩ := Option.bind_eq_some_iff.mp h
    obtain ⟨cache', hinter, h⟩ := Option.bind_eq_some_iff.mp h
    obtain ⟨last, -, h⟩ := Option.bind_eq_some_iff.mp h
    obtain ⟨cache'', hlast, h⟩ := Option.bind_eq_some_iff.mp h
    rw [ih h, length_store hlast, length_interpolateFrom hinter, length_store hstore]

theorem length_getMissCurve {misses partition : Nat}
    (h : getMissCurve cfg upsample m locals misses partition missCache = some missCache') :
    missCache'.length = missCache.length := by
  obtain ⟨monitor, -, h⟩ := Option.bind_eq_some_iff.mp h
  obtain ⟨umonMisses, -, h⟩ := Option.bind_eq_some_iff.mp h
  split at h
  · cases h
  · split at h
    · split at h
      · obtain ⟨cache, hdown, h⟩ := Option.bind_eq_some_iff.mp h
        obtain ⟨last, -, h⟩ := Option.bind_eq_some_iff.mp h
        rw [length_store h, length_downsampleFrom hdown]
      · cases h
    · split at h
      · exact length_upsampleFrom h
      · cases h

/-- The last partition writes its value for `buckets` outside the array, whatever the
size of the local array. -/
theorem getMissCurve_last (h : missCache.length = cfg.buckets * cfg.numPartitions) :
    getMissCurve cfg upsample m locals ((cfg.numPartitions - 1) * cfg.buckets)
      (cfg.numPartitions - 1) missCache = none := by
  rw [Option.eq_none_iff_forall_ne_some]
  intro missCache' hcurve
  obtain ⟨monitor, -, hcurve⟩ := Option.bind_eq_some_iff.mp hcurve
  obtain ⟨umonMisses, -, hcurve⟩ := Option.bind_eq_some_iff.mp hcurve
  split at hcurve
  · cases hcurve
  · split at hcurve
    · split at hcurve
      · obtain ⟨cache, hdown, hcurve⟩ := Option.bind_eq_some_iff.mp hcurve
        obtain ⟨last, -, hcurve⟩ := Option.bind_eq_some_iff.mp hcurve
        rw [storeMiss_last (by rw [length_downsampleFrom hdown, h])] at hcurve
        cases hcurve
      · cases hcurve
    · split at hcurve
      · -- every turn of the outer loop writes the last value, and there is one
        obtain ⟨n, hn⟩ := Nat.exists_eq_succ_of_ne_zero (Nat.ne_of_gt cfg.umon.buckets_pos)
        have hjs : List.range cfg.umon.buckets = 0 :: (List.range n).map Nat.succ := by
          rw [hn]
          exact List.range_succ_eq_map
        rw [hjs, upsampleFrom] at hcurve
        obtain ⟨m0, -, hcurve⟩ := Option.bind_eq_some_iff.mp hcurve
        obtain ⟨cache, hstore, hcurve⟩ := Option.bind_eq_some_iff.mp hcurve
        obtain ⟨m1, -, hcurve⟩ := Option.bind_eq_some_iff.mp hcurve
        obtain ⟨cache', hinter, hcurve⟩ := Option.bind_eq_some_iff.mp hcurve
        obtain ⟨last, -, hcurve⟩ := Option.bind_eq_some_iff.mp hcurve
        obtain ⟨cache'', hlast, -⟩ := Option.bind_eq_some_iff.mp hcurve
        rw [storeMiss_last (by rw [length_interpolateFrom hinter, length_store hstore, h])] at hlast
        cases hlast
      · cases hcurve

theorem getMissCurves_none {partitions : List Nat}
    (hlast : cfg.numPartitions - 1 ∈ partitions)
    (h : missCache.length = cfg.buckets * cfg.numPartitions) :
    getMissCurves cfg upsample m locals partitions missCache = none := by
  induction partitions generalizing missCache with
  | nil => cases hlast
  | cons p ps ih =>
    rw [getMissCurves]
    by_cases hp : p = cfg.numPartitions - 1
    · rw [hp, getMissCurve_last h]
      rfl
    · cases hcurve : getMissCurve cfg upsample m locals (p * cfg.buckets) p missCache with
      | none => rfl
      | some cache =>
        rw [Option.bind_some]
        apply ih ((List.mem_cons.mp hlast).resolve_left (Ne.symm hp))
        rw [length_getMissCurve hcurve, h]

/-- What operations keep: no curves are computed yet. -/
structure Fresh (cfg : UMonMonitorConfig) (m : UMonMonitor) : Prop where
  monitors : m.monitors.length = cfg.numPartitions
  missCache : m.missCache.length = cfg.buckets * cfg.numPartitions
  invalid : m.missCacheValid = false

theorem Fresh.init (cfg : UMonMonitorConfig) : Fresh cfg (init cfg) :=
  ⟨List.length_replicate, List.length_replicate, rfl⟩

theorem Fresh.step (h : Fresh cfg m) {op : Op} (hs : m.step cfg hash op = some m') :
    Fresh cfg m' := by
  cases op with
  | access p a =>
    rw [UMonMonitor.step, access] at hs
    split at hs
    · cases hs
    · split at hs
      · cases hs
      · obtain ⟨monitor, -, rfl⟩ := Option.map_eq_some_iff.mp hs
        exact ⟨by rw [List.length_set, h.monitors], h.missCache, h.invalid⟩
  | reset =>
    cases hs
    exact ⟨by rw [reset, List.length_map, h.monitors], h.missCache, rfl⟩

theorem Fresh.run (h : Fresh cfg m) {ops : List Op}
    (hs : ops.foldlM (UMonMonitor.step cfg hash) m = some m') : Fresh cfg m' := by
  induction ops generalizing m with
  | nil =>
    cases hs
    exact h
  | cons op ops ih =>
    rw [List.foldlM_cons] at hs
    obtain ⟨m₁, hm₁, hs⟩ := Option.bind_eq_some_iff.mp hs
    exact ih (h.step hm₁) hs

theorem Fresh.get_none (h : Fresh cfg m) (p b : Nat) : get cfg upsample m locals p b = none := by
  rw [get]
  split
  · rw [h.invalid, if_neg Bool.false_ne_true]
    rw [getMissCurves_none _ h.missCache]
    · rfl
    · rw [h.monitors, List.mem_range]
      exact Nat.sub_lt cfg.numPartitions_pos Nat.one_pos
  · rfl

/-- The local array of `getMissCurve` is too small for the curve it is filled with. -/
theorem getMisses_locals (monitor : UMon) (hlen : locals.length = cfg.umon.buckets) :
    monitor.getMisses cfg.umon locals = none := by
  obtain ⟨k, hk⟩ : ∃ k, cfg.umon.buckets = k + 1 :=
    ⟨_, (Nat.sub_add_cancel cfg.umon.buckets_pos).symm⟩
  rw [UMon.getMisses, hk, UMon.getMissesFrom, UMon.store, if_neg (by omega)]
  rfl

/-- No run of any monitor ends with the partitions' own curves: computing them writes
outside the array of curves, and outside the local array. -/
theorem reportsOwnCurves_never (cfg : UMonMonitorConfig) (hash : Nat → Address → Nat)
    (upsample : Nat → Nat → Nat → Nat → Nat) (ops : List Op) (locals : List Nat) :
    ¬ ∃ m, ops.foldlM (step cfg hash) (init cfg) = some m ∧
      ReportsOwnCurves cfg hash upsample ops m locals := by
  rintro ⟨m, hm, h⟩
  obtain ⟨v, m', hget, -⟩ := h.own 0 cfg.numPartitions_pos 0 (Nat.zero_le _)
  rw [((Fresh.init cfg).run hm).get_none] at hget
  cases hget

/-- One partition, two buckets, no access: the curves cannot be read. -/
theorem get_faults : ∃ (cfg : UMonMonitorConfig) (hash : Nat → Address → Nat)
    (upsample : Nat → Nat → Nat → Nat → Nat) (locals : List Nat),
    locals.length = cfg.umon.buckets ∧
    get cfg upsample (init cfg) locals 0 0 = none ∧
    ¬ ReportsOwnCurves cfg hash upsample [] (init cfg) locals := by
  refine ⟨⟨⟨4, 4, 2, by decide, by decide⟩, 1, 2, by decide⟩, fun _ a => a, fun m0 _ _ _ => m0,
    [0, 0], rfl, rfl, fun h => ?_⟩
  obtain ⟨v, m', hget, -⟩ := h.own 0 (by decide) 0 (by decide)
  cases hget

end UMonMonitor

end ZSim
