import ZSim.FutexProgress

/-! The read-write mutex: two futex locks and a counter of readers. `rb` lets one thread at a
time into the queue for `wq`, which a writer holds, or the readers together: the first one
locks it and the last one unlocks it. A client is a thread that takes the mutex either way and
gives it back, upgrades or downgrades in any order it likes. -/

namespace ZSim

open LockProgram

inductive RwLock
  | wq | rb
  deriving DecidableEq

/-- The places of a client. `rdUnlock` is also the first half of `upgrade`, which goes on to
`wrLock`. -/
inductive RwPlace
  | idle | reading | writing
  | rdLock | rdCount | rdQueue | rdLeave
  | rdUnlock (upgrade : Bool) | rdLast (upgrade : Bool)
  | wrLock | wrQueue | wrLeave | wrUnlock
  | downgrade | dropQueue | aborted
  deriving DecidableEq

namespace RwPlace

/-- After `rdUnlock`. -/
def unlocked (upgrade : Bool) : RwPlace := if upgrade then wrLock else idle

end RwPlace

/-- The code of `rwmutex` from each place. A client at `idle`, `reading` or `writing` chooses
its next operation. A failed assert is `aborted`. -/
def rwmutex : RwPlace → Instr RwLock (BitVec 32) RwPlace
  | .idle => .act fun readers readers' next =>
      readers' = readers ∧ (next = .rdLock ∨ next = .wrLock)
  | .reading => .act fun readers readers' next =>
      readers' = readers ∧ ∃ upgrade, next = .rdUnlock upgrade
  | .writing => .act fun readers readers' next =>
      readers' = readers ∧ (next = .wrUnlock ∨ next = .downgrade)
  | .rdLock => .lock .rb .rdCount
  | .rdCount => .act fun readers readers' next =>
      readers' = readers + 1#32 ∧ next = if readers = 0#32 then .rdQueue else .rdLeave
  | .rdQueue => .lock .wq .rdLeave
  | .rdLeave => .unlock .rb .reading
  | .rdUnlock upgrade => .act fun readers readers' next =>
      readers' = readers - 1#32 ∧
        next = if readers = 1#32 then .rdLast upgrade else .unlocked upgrade
  | .rdLast upgrade => .unlock .wq (.unlocked upgrade)
  | .wrLock => .lock .rb .wrQueue
  | .wrQueue => .lock .wq .wrLeave
  | .wrLeave => .unlock .rb .writing
  | .wrUnlock => .unlock .wq .idle
  | .downgrade => .act fun readers readers' next =>
      readers' = readers + 1#32 ∧
        next = if readers = 0#32 then .reading else if readers = 1#32 then .dropQueue else .aborted
  | .dropQueue => .unlock .wq .reading
  | .aborted => .act fun _ _ _ => False

/-- What a thread at a place counts as. -/
inductive RwKind
  | outside | aborted
  | queued | waiting | entered | reading | granted | writing | last | dropping
  deriving DecidableEq

/-- `waiting` is the first reader, which has raised the counter and has not got `wq` yet. -/
def RwPlace.kind : RwPlace → RwKind
  | .idle | .rdLock | .wrLock => .outside
  | .rdCount | .wrQueue => .queued
  | .rdQueue => .waiting
  | .rdLeave => .entered
  | .reading | .rdUnlock _ => .reading
  | .rdLast _ => .last
  | .wrLeave => .granted
  | .writing | .wrUnlock | .downgrade => .writing
  | .dropQueue => .dropping
  | .aborted => .aborted

variable {T : Type} [Fintype T]

abbrev RwState (T : Type) := State T RwLock (BitVec 32) RwPlace

def RwState.init (T : Type) : RwState T where
  data := 0#32
  place := fun _ => .idle
  taken := fun _ => false

/-- Who holds the locks, and what the counter of readers stands at, from the number of threads
of each kind. -/
structure RwHolds (readers : Nat) (wq rb : Bool) (num : RwKind → Nat) : Prop where
  not_aborted : num .aborted = 0
  readers_eq : readers = num .waiting + num .entered + num .reading + num .dropping
  rb_eq : rb.toNat = num .queued + num .waiting + num .entered + num .granted
  held : num .granted + num .writing + num .last + num .dropping ≤ wq.toNat
  alone : num .granted + num .writing + num .last + num .dropping = 0 ∨
    num .entered + num .reading = 0
  shared : wq.toNat = num .granted + num .writing + num .last + num .dropping ∨
    0 < num .entered + num .reading ∧ num .waiting = 0
  drop_waits : num .dropping ≤ num .waiting
  -- after a downgrade that found a reader in the queue, `wq` is free until that reader has it
  free_waits : wq.toNat = 1 ∨ num .entered + num .reading ≤ num .waiting

def RwInv (s : RwState T) : Prop :=
  RwHolds s.data.toNat (s.taken .wq) (s.taken .rb) (s.count RwPlace.kind)

/-- What one step does to the counter, to `wq` and to `rb`, and to the kind of its thread. -/
inductive RwMove (n : Nat) : Bool → Bool → RwKind → Nat → Bool → Bool → RwKind → Prop
  | stay {wq rb k} : RwMove n wq rb k n wq rb k
  | queue {wq} : RwMove n wq false .outside n wq true .queued
  | first {wq rb} : n = 0 → RwMove n wq rb .queued ((n + 1) % 2 ^ 32) wq rb .waiting
  | follow {wq rb} : n ≠ 0 → RwMove n wq rb .queued ((n + 1) % 2 ^ 32) wq rb .entered
  | enter {rb} : RwMove n false rb .waiting n true rb .entered
  | read {wq} : RwMove n wq true .entered n wq false .reading
  | lastOut {wq rb} : n = 1 → RwMove n wq rb .reading 0 wq rb .last
  | out {wq rb} : n ≠ 1 → RwMove n wq rb .reading ((n + (2 ^ 32 - 1)) % 2 ^ 32) wq rb .outside
  | openWq {rb} : RwMove n true rb .last n false rb .outside
  | grant {rb} : RwMove n false rb .queued n true rb .granted
  | write {wq} : RwMove n wq true .granted n wq false .writing
  | done {rb} : RwMove n true rb .writing n false rb .outside
  | keep {wq rb} : n = 0 → RwMove n wq rb .writing 1 wq rb .reading
  | drop {wq rb} : n = 1 → RwMove n wq rb .writing 2 wq rb .dropping
  | abort {wq rb} : n ≠ 0 → n ≠ 1 → RwMove n wq rb .writing ((n + 1) % 2 ^ 32) wq rb .aborted
  | dropped {rb} : RwMove n true rb .dropping n false rb .reading

theorem RwKind.forall_iff {P : RwKind → Prop} : (∀ k, P k) ↔ P .outside ∧ P .aborted ∧
    P .queued ∧ P .waiting ∧ P .entered ∧ P .reading ∧ P .granted ∧ P .writing ∧ P .last ∧
    P .dropping := by
  constructor
  · intro h
    exact ⟨h _, h _, h _, h _, h _, h _, h _, h _, h _, h _⟩
  · rintro ⟨h₁, h₂, h₃, h₄, h₅, h₆, h₇, h₈, h₉, h₁₀⟩ k
    cases k <;> assumption

/-- Every number of readers fits the counter. -/
theorem RwState.readers_fit (hcard : Fintype.card T < 2 ^ 32) (s : RwState T) {num : RwKind → Nat}
    (hnum : s.count RwPlace.kind = num) :
    num .waiting + num .entered + num .reading + num .dropping < 2 ^ 32 := by
  subst hnum
  have hsum := s.sum_count_le RwPlace.kind {.waiting, .entered, .reading, .dropping}
  simp only [Finset.sum_insert, Finset.mem_insert, Finset.mem_singleton, reduceCtorEq, or_self,
    not_false_eq_true, Finset.sum_singleton] at hsum
  omega

variable [DecidableEq T]

section moves

variable {n n' : Nat} {wq wq' rb rb' : Bool} {k₁ k₂ : RwKind} {num num' : RwKind → Nat}

theorem RwMove.holds (h : RwHolds n wq rb num) (hmove : RwMove n wq rb k₁ n' wq' rb' k₂)
    (hnum : ∀ k, num' k + (if k₁ = k then 1 else 0) = num k + if k₂ = k then 1 else 0)
    (hfit : num' .waiting + num' .entered + num' .reading + num' .dropping < 2 ^ 32) :
    RwHolds n' wq' rb' num' := by
  obtain ⟨haborted, hreaders, hrb, hheld, halone, hshared, hdrop, hfree⟩ := h
  have hle := Bool.toNat_le rb
  have hle' := Bool.toNat_le wq
  cases hmove with
  | stay =>
    have hsame : num' = num := by
      funext k
      have hk := hnum k
      omega
    rw [hsame]
    exact ⟨haborted, hreaders, hrb, hheld, halone, hshared, hdrop, hfree⟩
  | abort hzero hone =>
    -- a writer has no reader beside it but one that waits, and that one is counted
    simp only [RwKind.forall_iff, reduceCtorEq, if_true, if_false, add_zero] at hnum
    omega
  | _ =>
    simp only [RwKind.forall_iff, reduceCtorEq, if_true, if_false, add_zero] at hnum
    obtain ⟨-, haborted', hqueued, hwaiting, hentered, hreading, hgranted, hwriting, hlast,
      hdropping⟩ := hnum
    have htrue : true.toNat = 1 := rfl
    have hfalse : false.toNat = 0 := rfl
    refine ⟨haborted'.trans haborted, ?_, ?_, ?_, ?_, ?_, ?_, ?_⟩
    · clear hrb hheld halone hshared hfree
      omega
    · clear hreaders hheld halone hshared hdrop hfree hfit
      omega
    all_goals clear haborted haborted' hfit
    all_goals omega

end moves

theorem RwPlace.kind_unlocked (upgrade : Bool) : (unlocked upgrade).kind = .outside := by
  cases upgrade <;> rfl

omit [Fintype T] in
theorem rwmutex_move {s s' : RwState T} {t : T} (hs : Step (fun _ => rwmutex) t s s') :
    RwMove s.data.toNat (s.taken .wq) (s.taken .rb) (s.place t).kind s'.data.toNat (s'.taken .wq)
      (s'.taken .rb) (s'.place t).kind := by
  have hadd : (s.data + 1#32).toNat = (s.data.toNat + 1) % 2 ^ 32 := by simp [BitVec.toNat_add]
  have hsub : (s.data - 1#32).toNat = (s.data.toNat + (2 ^ 32 - 1)) % 2 ^ 32 := by
    simp [BitVec.toNat_sub, Nat.add_comm]
  have hzero : s.data = 0#32 ↔ s.data.toNat = 0 := by simp [← BitVec.toNat_inj]
  have hone : s.data = 1#32 ↔ s.data.toNat = 1 := by simp [← BitVec.toNat_inj]
  cases hs with
  | lock hprog hi =>
    cases hp : s.place t <;> simp only [rwmutex, hp, Instr.lock.injEq, reduceCtorEq] at hprog <;>
      obtain ⟨rfl, rfl⟩ := hprog <;> simp [hi]
    · exact .queue
    · exact .enter
    · exact .queue
    · exact .grant
  | won hprog => cases hp : s.place t <;> simp [rwmutex, hp] at hprog
  | lost hprog => cases hp : s.place t <;> simp [rwmutex, hp] at hprog
  | unlock hprog hi =>
    cases hp : s.place t <;> simp only [rwmutex, hp, Instr.unlock.injEq, reduceCtorEq] at hprog <;>
      obtain ⟨rfl, rfl⟩ := hprog <;> simp [hi]
    · exact .read
    · rw [RwPlace.kind_unlocked]
      exact .openWq
    · exact .write
    · exact .done
    · exact .dropped
  | act hprog hr =>
    simp only [State.goto_data, State.goto_place, State.goto_taken, State.setData_data,
      State.setData_place, State.setData_taken, Function.update_self]
    cases hp : s.place t <;> simp only [rwmutex, hp, Instr.act.injEq, reduceCtorEq] at hprog <;>
      subst hprog
    case idle | writing =>
      obtain ⟨rfl, rfl | rfl⟩ := hr <;> exact .stay
    case reading =>
      obtain ⟨rfl, upgrade, rfl⟩ := hr
      exact .stay
    case rdCount =>
      obtain ⟨rfl, rfl⟩ := hr
      rw [hadd]
      split
      · exact .first (hzero.mp ‹_›)
      · exact .follow (mt hzero.mpr ‹_›)
    case rdUnlock =>
      obtain ⟨rfl, rfl⟩ := hr
      split
      · rename_i h1
        rw [h1]
        exact .lastOut rfl
      · rw [hsub, RwPlace.kind_unlocked]
        exact .out (mt hone.mpr ‹_›)
    case downgrade =>
      obtain ⟨rfl, rfl⟩ := hr
      split
      · rename_i h0
        rw [h0]
        exact .keep rfl
      · split
        · rename_i h1
          rw [h1]
          exact .drop rfl
        · rw [hadd]
          exact .abort (mt hzero.mpr ‹_›) (mt hone.mpr ‹_›)
    case aborted => exact hr.elim

omit [DecidableEq T] in
theorem RwInv.init : RwInv (.init T) := by
  have hnum : (RwState.init T).count RwPlace.kind = fun k =>
      if k = .outside then Fintype.card T else 0 := by
    funext k
    cases k <;> simp [State.count, RwState.init, RwPlace.kind]
  unfold RwInv
  rw [hnum]
  constructor <;> simp [RwState.init]

theorem RwInv.step {s s' : RwState T} {t : T} (hcard : Fintype.card T < 2 ^ 32) (h : RwInv s)
    (hs : Step (fun _ => rwmutex) t s s') : RwInv s' := by
  have hplace : s'.place = Function.update s.place t (s'.place t) := by
    funext u
    by_cases hu : u = t
    · simp [hu]
    · rw [hs.place_of_ne hu, Function.update_of_ne hu]
  exact (rwmutex_move hs).holds h (State.count_move hplace) (s'.readers_fit hcard rfl)

theorem rwmutex_inv {s : RwState T} (hcard : Fintype.card T < 2 ^ 32)
    (h : Reachable (fun _ => rwmutex) (RwState.init T) s) : RwInv s :=
  h.inv .init fun _ _ _ hinv hs => hinv.step hcard hs

section inv

variable {s : RwState T} {t u : T}

/-- The mutex never gives back a lock that is free. -/
theorem rwmutex_sound (hcard : Fintype.card T < 2 ^ 32) :
    Sound (fun _ : T => rwmutex) (RwState.init T) := by
  intro s hs t i p hprog
  have hinv := rwmutex_inv hcard hs
  have hcount : 0 < s.count RwPlace.kind (s.place t).kind := State.count_pos rfl
  have hrb := hinv.rb_eq
  have hheld := hinv.held
  have htrue : ∀ b : Bool, 0 < b.toNat → b = true := by decide
  cases hp : s.place t <;> simp only [rwmutex, hp, Instr.unlock.injEq, reduceCtorEq] at hprog <;>
    obtain ⟨rfl, rfl⟩ := hprog <;> simp only [hp, RwPlace.kind] at hcount <;> apply htrue <;> omega

omit [DecidableEq T] in
/-- A writer is alone, and a downgrade lets no other writer in. -/
theorem RwInv.exclusive (h : RwInv s) (hne : t ≠ u) (ht : (s.place t).kind = .writing) :
    (s.place u).kind ≠ .writing ∧ (s.place u).kind ≠ .reading ∧ (s.place u).kind ≠ .dropping := by
  have hheld := h.held
  have halone := h.alone
  have hle := Bool.toNat_le (s.taken .wq)
  have hcount := State.count_pos ht
  refine ⟨fun hu => ?_, fun hu => ?_, fun hu => ?_⟩
  · have htwo := State.one_lt_count hne ht hu
    omega
  · have hreading := State.count_pos hu
    omega
  · have hdropping := State.count_pos hu
    omega

omit [DecidableEq T] in
theorem RwInv.place_ne_aborted (h : RwInv s) : s.place t ≠ .aborted := by
  intro ht
  have hcount : 0 < s.count RwPlace.kind .aborted := State.count_pos (t := t) (by rw [ht]; rfl)
  have hzero := h.not_aborted
  omega

end inv

/-- In an operation, not between two. -/
def RwPlace.Busy (p : RwPlace) : Prop :=
  p ≠ .idle ∧ p ≠ .reading ∧ p ≠ .writing

section progress

variable {s : RwState T} {t : T}

omit [Fintype T] in
/-- Outside its `lock` calls an operation goes on by itself. -/
theorem RwPlace.Busy.canStep (h : (s.place t).Busy) (haborted : s.place t ≠ .aborted)
    (hsound : ∀ i p, rwmutex (s.place t) = .unlock i p → s.taken i = true) :
    CanStep (fun _ => rwmutex) s t ∨ s.place t = .rdLock ∨ s.place t = .wrLock ∨
      s.place t = .rdQueue ∨ s.place t = .wrQueue := by
  cases hp : s.place t <;> have hprog := congrArg rwmutex hp
  case idle => exact (h.1 hp).elim
  case reading => exact (h.2.1 hp).elim
  case writing => exact (h.2.2 hp).elim
  case aborted => exact (haborted hp).elim
  case rdCount => exact .inl (canStep_act (hprog.trans rfl) ⟨rfl, rfl⟩)
  case rdUnlock => exact .inl (canStep_act (hprog.trans rfl) ⟨rfl, rfl⟩)
  case downgrade => exact .inl (canStep_act (hprog.trans rfl) ⟨rfl, rfl⟩)
  case rdLock => simp
  case rdQueue => simp
  case wrLock => simp
  case wrQueue => simp
  all_goals exact .inl (canStep_unlock (hprog.trans rfl) (hsound _ _ (hprog.trans rfl)))

/-- The locks that a thread of a kind holds. -/
def RwKind.Holds (k : RwKind) : RwLock → Prop
  | .rb => k = .queued ∨ k = .waiting ∨ k = .entered ∨ k = .granted
  | .wq => k = .granted ∨ k = .writing ∨ k = .last ∨ k = .dropping ∨ k = .entered ∨ k = .reading

def RwLock.rank : RwLock → Nat
  | rb => 0
  | wq => 1

omit [DecidableEq T] in
theorem RwInv.exists_holds (h : RwInv s) {i : RwLock} (hi : s.taken i = true) :
    ∃ t, (s.place t).kind.Holds i := by
  by_contra hnone
  have hzero : ∀ k : RwKind, k.Holds i → s.count RwPlace.kind k = 0 := by
    intro k hk
    by_contra hpos
    obtain ⟨t, ht⟩ := State.exists_of_count_pos (Nat.pos_of_ne_zero hpos)
    exact hnone ⟨t, ht ▸ hk⟩
  cases i with
  | rb =>
    have hrb := h.rb_eq
    simp only [RwKind.Holds, forall_eq_or_imp, forall_eq] at hzero
    rw [hi, Bool.toNat_true] at hrb
    omega
  | wq =>
    have hshared := h.shared
    simp only [RwKind.Holds, forall_eq_or_imp, forall_eq] at hzero
    rw [hi, Bool.toNat_true] at hshared
    omega

/-- While nobody reads or writes, the operations do not block each other. -/
theorem rwmutex_deadlock_free (hcard : Fintype.card T < 2 ^ 32)
    (hs : Reachable (fun _ => rwmutex) (RwState.init T) s) (ht : (s.place t).Busy)
    (hout : ∀ u, s.place u ≠ .reading ∧ s.place u ≠ .writing) :
    ∃ u, (s.place u).Busy ∧ CanStep (fun _ => rwmutex) s u := by
  have hinv := rwmutex_inv hcard hs
  have hcan : ∀ u, (s.place u).Busy → CanStep (fun _ => rwmutex) s u ∨ s.place u = .rdLock ∨
      s.place u = .wrLock ∨ s.place u = .rdQueue ∨ s.place u = .wrQueue :=
    fun u hu => hu.canStep hinv.place_ne_aborted (rwmutex_sound hcard s hs u)
  have horder : ∀ i p, rwmutex (s.place t) = .lock i p →
      ∃ u, (s.place u).Busy ∧ CanStep (fun _ => rwmutex) s u := by
    intro i p hi
    have hrank : ∀ j : RwLock, j.rank ≤ 1 := by
      intro j
      cases j <;> decide
    refine exists_of_order (fun _ => rwmutex) hrank (fun u j => (s.place u).kind.Holds j)
      (fun j => hinv.exists_holds) ?_ ?_ hi
    · intro u j hj
      have hidle : s.place u ≠ .idle := by
        intro hidle
        rw [hidle] at hj
        cases j <;> simp [RwKind.Holds, RwPlace.kind] at hj
      have hbusy : (s.place u).Busy := ⟨hidle, hout u⟩
      rcases hcan u hbusy with hstep | hp | hp | hp | hp
      · exact .inl ⟨hbusy, hstep⟩
      · rw [hp] at hj
        cases j <;> simp [RwKind.Holds, RwPlace.kind] at hj
      · rw [hp] at hj
        cases j <;> simp [RwKind.Holds, RwPlace.kind] at hj
      · rw [hp] at hj ⊢
        cases j with
        | rb => exact .inr ⟨.wq, _, rfl, by decide⟩
        | wq => simp [RwKind.Holds, RwPlace.kind] at hj
      · rw [hp] at hj ⊢
        cases j with
        | rb => exact .inr ⟨.wq, _, rfl, by decide⟩
        | wq => simp [RwKind.Holds, RwPlace.kind] at hj
    · intro u j q hq hfree
      refine ⟨?_, canStep_lock hq hfree⟩
      cases hp : s.place u <;> simp [rwmutex, hp] at hq <;> simp [RwPlace.Busy]
  rcases hcan t ht with hstep | hp | hp | hp | hp
  · exact ⟨t, ht, hstep⟩
  all_goals exact horder _ _ (by rw [hp]; rfl)

end progress

section futex

variable {c : FutexConf T RwLock (BitVec 32) RwPlace} {t : T}

/-- The mutex over the futex locks: a writer is alone, a downgrade lets no other writer in, and
its assert does not fail. -/
theorem rwmutex_exclusive (hcard : Fintype.card T < 2 ^ 32)
    (h : FutexReachable (fun _ => rwmutex) (RwState.init T) c) :
    (∀ t, c.place t ≠ .aborted) ∧ ∀ t u, t ≠ u → (c.place t).kind = .writing →
      (c.place u).kind ≠ .writing ∧ (c.place u).kind ≠ .reading ∧ (c.place u).kind ≠ .dropping := by
  have hinv := rwmutex_inv hcard (h.inv (rwmutex_sound hcard)).1
  exact ⟨fun t => hinv.place_ne_aborted, fun t u hne => hinv.exclusive hne⟩

/-- Thread `true` writes, and thread `false` is the first reader and waits for it. -/
theorem rwmutex_exclusive_two : ∃ c : FutexConf Bool RwLock (BitVec 32) RwPlace,
    c.place true = .writing ∧ c.place false = .rdQueue ∧ c.data = 1#32 ∧
    (∀ t, c.place t ≠ .aborted) ∧ ∀ t u, t ≠ u → (c.place t).kind = .writing →
      (c.place u).kind ≠ .writing ∧ (c.place u).kind ≠ .reading ∧ (c.place u).kind ≠ .dropping := by
  have h₀ : FutexReachable (fun _ => rwmutex) (RwState.init Bool) (.init (RwState.init Bool)) :=
    .refl
  have h₁ := h₀.act (t := true) (d := 0#32) (p := .wrLock) rfl ⟨rfl, .inr rfl⟩
  have h₂ := h₁.lock (t := true) rfl rfl
  have h₃ := h₂.lock (t := true) rfl rfl
  have h₄ := h₃.unlock (t := true) rfl rfl
  have h₅ := h₄.act (t := false) (d := 0#32) (p := .rdLock) rfl ⟨rfl, .inl rfl⟩
  have h₆ := h₅.lock (t := false) rfl rfl
  have h₇ := h₆.act (t := false) (d := 1#32) (p := .rdQueue) rfl ⟨rfl, rfl⟩
  exact ⟨_, rfl, rfl, rfl, rwmutex_exclusive (by simp) h₇⟩

/-- The mutex over the futex locks: while nobody reads or writes, an operation goes on, and
only wakeups of the code itself wake a thread. -/
theorem rwmutex_progress (hcard : Fintype.card T < 2 ^ 32)
    (h : FutexReachable (fun _ => rwmutex) (RwState.init T) c) (ht : (c.place t).Busy)
    (hout : ∀ u, c.place u ≠ .reading ∧ c.place u ≠ .writing) :
    Progress (fun _ => rwmutex) (fun u => (c.place u).Busy) c := by
  have hsound := rwmutex_sound (T := T) hcard
  have hreach := (h.inv hsound).1
  obtain ⟨u, hu, hcan⟩ := rwmutex_deadlock_free hcard hreach ht hout
  have hbusy : ∀ v, Competes (fun _ => rwmutex) c u v → (c.place v).Busy := by
    rintro v (rfl | ⟨i, _, hv⟩)
    · exact hu
    · rcases hv with ⟨p, hp⟩ | ⟨p, q, hp⟩ <;>
        cases hv : c.place v <;> simp [rwmutex, hv] at hp <;> simp [RwPlace.Busy]
  exact (futex_progress hsound h hcan).mono hbusy

/-- A writer has one lock, for which a reader waits. -/
theorem rwmutex_progress_two : ∃ c : FutexConf Bool RwLock (BitVec 32) RwPlace,
    c.place true = .wrQueue ∧ c.place false = .rdLock ∧
    Progress (fun _ => rwmutex) (fun u => (c.place u).Busy) c := by
  have h₀ : FutexReachable (fun _ => rwmutex) (RwState.init Bool) (.init (RwState.init Bool)) :=
    .refl
  have h₁ := h₀.act (t := true) (d := 0#32) (p := .wrLock) rfl ⟨rfl, .inr rfl⟩
  have h₂ := h₁.act (t := false) (d := 0#32) (p := .rdLock) rfl ⟨rfl, .inl rfl⟩
  have h₃ := h₂.lock (t := true) rfl rfl
  exact ⟨_, rfl, rfl, rwmutex_progress (t := false) (by simp) h₃
    ⟨by decide, by decide, by decide⟩ (by decide)⟩

end futex

end ZSim
