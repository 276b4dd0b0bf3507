import ZSim.CareTraining
import ZSim.LFUVictim
import ZSim.LRUVictim
import ZSim.SRRIPVictim

/-! A set-associative array over any of the replacement policies, with the coherence states that
accesses and invalidations give its lines. -/

namespace ZSim

/-- The calls of a replacement policy. `train` has the steps that do not come from the array. -/
structure ReplPolicy (State : Type) where
  init : State
  update : State → Nat → State
  rank : LineStates → Address → List Nat → State → Option (State × Nat)
  replaced : State → Nat → State
  train : State → State → Prop

namespace ReplPolicy

def lru (sharersAware : Bool) : ReplPolicy LRUReplPolicy where
  init := .init
  update := .update
  rank := fun cc _ cands rp => some (rp, rp.rankCands sharersAware cc cands)
  replaced := .replaced
  train := fun _ _ => False

def lfu : ReplPolicy LFUReplPolicy where
  init := .init
  update := .update
  rank := fun cc _ cands rp =>
    let rp := rp.rank ⟨cc.numSharers, cc.isValid⟩ cands
    rp.bestCandidate.map fun id => (rp, id)
  replaced := .replaced
  train := fun _ _ => False

def srrip : ReplPolicy SRRIPReplPolicy where
  init := .init SRRIPReplPolicy.twoBits
  update := .update
  rank := fun _ _ cands rp => rp.rank SRRIPReplPolicy.twoBits cands
  replaced := .replaced SRRIPReplPolicy.twoBits
  train := fun _ _ => False

/-- PMCs come back between the array's calls. -/
def care (numLines shtEntries : Nat) : ReplPolicy CAREState where
  init := .init numLines shtEntries
  update := fun s id => s.step (.update id)
  rank := fun _ lineAddr cands s =>
    some ({ s with rp := (s.rp.rank lineAddr cands).1 }, (s.rp.rank lineAddr cands).2)
  replaced := fun s id => s.step (.replaced id)
  train := fun s s' => (∃ mshrPMC id, s' = s.quantizePMC mshrPMC id) ∨
    (∃ lineAddr id, s' = s.shtPMCUpdate lineAddr id) ∨
    ∃ mshrPMC, s' = s.step (.DTRM mshrPMC)

end ReplPolicy

/-- `used` remembers the lines that were filled or hit. -/
structure PolicyCache (P : Type) where
  array : Nat → Address
  state : Nat → MESIState
  numSharers : Nat → Nat
  used : Nat → Bool
  rp : P

namespace PolicyCache

variable {P : Type}

def init (R : ReplPolicy P) : PolicyCache P := ⟨fun _ => 0, fun _ => .I, fun _ => 0, fun _ => false, R.init⟩

def lineStates (s : PolicyCache P) : LineStates := ⟨s.numSharers, fun id => s.state id != .I⟩

def candidates (G : SetConfig) (hash : Address → Nat) (lineAddr : Address) : List Nat :=
  SetAssocArray.set G (hash lineAddr)

def lookup (G : SetConfig) (hash : Address → Nat) (s : PolicyCache P) (lineAddr : Address) :
    Option Nat :=
  (candidates G hash lineAddr).find? fun id => s.array id = lineAddr

/-- What an access leaves in the slot it ends in. -/
def fill (R : ReplPolicy P) (s : PolicyCache P) (rp : P) (id : Nat) (st : MESIState)
    (sharers : Nat) : PolicyCache P :=
  { s with
    state := Function.update s.state id st
    numSharers := Function.update s.numSharers id sharers
    used := Function.update s.used id true
    rp := R.update rp id }

inductive Step (R : ReplPolicy P) (G : SetConfig) (hash : Address → Nat) :
    PolicyCache P → PolicyCache P → Prop
  | hit {s : PolicyCache P} {lineAddr : Address} {id sharers : Nat} {st : MESIState} :
      lookup G hash s lineAddr = some id → st ≠ .I → Step R G hash s (fill R s s.rp id st sharers)
  | miss {s : PolicyCache P} {lineAddr : Address} {id sharers : Nat} {st : MESIState}
      {rp : P} : lookup G hash s lineAddr = none →
      R.rank s.lineStates lineAddr (candidates G hash lineAddr) s.rp = some (rp, id) → st ≠ .I →
      Step R G hash s (fill R { s with array := Function.update s.array id lineAddr }
        (R.replaced rp id) id st sharers)
  /-- A writeback from a child, or a downgrade. -/
  | change {s : PolicyCache P} {id sharers : Nat} {st : MESIState} : s.state id ≠ .I → st ≠ .I →
      Step R G hash s { s with
        state := Function.update s.state id st
        numSharers := Function.update s.numSharers id sharers }
  | invalidate {s : PolicyCache P} {id : Nat} : Step R G hash s { s with
      state := Function.update s.state id .I
      numSharers := Function.update s.numSharers id 0 }
  | train {s : PolicyCache P} {rp : P} : R.train s.rp rp → Step R G hash s { s with rp := rp }

/-- The states after `n` steps. -/
inductive Reachable (R : ReplPolicy P) (G : SetConfig) (hash : Address → Nat) :
    Nat → PolicyCache P → Prop
  | init : Reachable R G hash 0 (init R)
  | step {n : Nat} {s s' : PolicyCache P} : Reachable R G hash n s → Step R G hash s s' →
      Reachable R G hash (n + 1) s'

/-- A replacement that finds candidates of a kind chooses one of them. -/
def Prefers (R : ReplPolicy P) (G : SetConfig) (hash : Address → Nat) (s : PolicyCache P)
    (kind : Nat → Prop) (lineAddr : Address) : Prop :=
  (∃ c ∈ candidates G hash lineAddr, kind c) →
    ∃ rp id, R.rank s.lineStates lineAddr (candidates G hash lineAddr) s.rp = some (rp, id) ∧
      id ∈ candidates G hash lineAddr ∧ kind id

def InvalidFirst (R : ReplPolicy P) (G : SetConfig) (hash : Address → Nat) (s : PolicyCache P)
    (lineAddr : Address) : Prop :=
  Prefers R G hash s (fun c => s.state c = .I) lineAddr

/-- Lines that were never used are invalid too. -/
def UnusedFirst (R : ReplPolicy P) (G : SetConfig) (hash : Address → Nat) (s : PolicyCache P)
    (lineAddr : Address) : Prop :=
  Prefers R G hash s (fun c => s.used c = false ∧ s.state c = .I) lineAddr

variable {R : ReplPolicy P} {G : SetConfig} {hash : Address → Nat} {s s' : PolicyCache P} {n : Nat}

/-- What holds of the states whatever the policy. -/
structure Coherent (s : PolicyCache P) : Prop where
  used : ∀ id, s.state id ≠ .I → s.used id = true
  sharers : ∀ id, s.state id = .I → s.numSharers id = 0

theorem Coherent.fill (h : Coherent s) {rp : P} {id sharers : Nat} {st : MESIState}
    (hst : st ≠ .I) : Coherent (fill R s rp id st sharers) := by
  refine ⟨fun x hx => ?_, fun x hx => ?_⟩
  · by_cases he : x = id
    · simp [PolicyCache.fill, he]
    · simp only [PolicyCache.fill, Function.update_of_ne he] at hx ⊢
      exact h.used x hx
  · by_cases he : x = id
    · simp [PolicyCache.fill, he, hst] at hx
    · simp only [PolicyCache.fill, Function.update_of_ne he] at hx ⊢
      exact h.sharers x hx

theorem Coherent.step (h : Coherent s) (hs : Step R G hash s s') : Coherent s' := by
  cases hs with
  | hit _ hst => exact h.fill hst
  | @miss lineAddr id _ _ _ _ _ hst =>
    have harray : Coherent { s with array := Function.update s.array id lineAddr } :=
      ⟨h.used, h.sharers⟩
    exact harray.fill hst
  | @change id sharers st hid hst =>
    refine ⟨fun x hx => ?_, fun x hx => ?_⟩
    · by_cases he : x = id
      · exact h.used x (he ▸ hid)
      · exact h.used x (by simpa [he] using hx)
    · by_cases he : x = id
      · simp [he, hst] at hx
      · simpa [he] using h.sharers x (by simpa [he] using hx)
  | @invalidate id =>
    refine ⟨fun x hx => ?_, fun x hx => ?_⟩
    · by_cases he : x = id
      · simp [he] at hx
      · exact h.used x (by simpa [he] using hx)
    · by_cases he : x = id
      · simp [he]
      · simpa [he] using h.sharers x (by simpa [he] using hx)
  | train _ => exact ⟨h.used, h.sharers⟩

theorem Reachable.coherent (h : Reachable R G hash n s) : Coherent s := by
  induction h with
  | init => exact ⟨fun _ hid => absurd rfl hid, fun _ _ => rfl⟩
  | step _ hs ih => exact ih.step hs

theorem candidates_ne_nil {lineAddr : Address} : candidates G hash lineAddr ≠ [] :=
  SetAssocArray.set_ne_nil

theorem candidates_nodup (lineAddr : Address) : (candidates G hash lineAddr).Nodup := by
  apply List.Nodup.map
  · intro x y hxy
    simpa using hxy
  · exact List.nodup_range

end PolicyCache

end ZSim
