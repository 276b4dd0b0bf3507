import Mathlib.Logic.Function.Basic
import Mathlib.Logic.Relation
import Mathlib.Data.Fintype.Card
import Mathlib.Algebra.Order.BigOperators.Group.Finset
import Mathlib.Data.List.Nodup
import Mathlib.Data.List.Perm.Basic

/-! Programs of threads over locks. A thread takes a lock, gives one back, or acts on the data
that all threads share. A lock is given back by any thread, not only by the one that took it. -/

namespace LockProgram

/-- What a thread does next, and where it goes on. An attempt may fail whether or not the lock
is free. -/
inductive Instr (ι σ π : Type)
  | lock (i : ι) (next : π)
  | tryLock (i : ι) (won lost : π)
  | unlock (i : ι) (next : π)
  | act (step : σ → σ → π → Prop)

/-- The places that an instruction can lead to. -/
inductive Instr.Next {ι σ π : Type} : Instr ι σ π → π → Prop
  | lock {i : ι} {p : π} : Next (.lock i p) p
  | won {i : ι} {p q : π} : Next (.tryLock i p q) p
  | lost {i : ι} {p q : π} : Next (.tryLock i p q) q
  | unlock {i : ι} {p : π} : Next (.unlock i p) p
  | act {r : σ → σ → π → Prop} {d d' : σ} {p : π} : r d d' p → Next (.act r) p

namespace Instr

variable {ι σ π : Type} {i : ι} {p q : π}

@[simp] theorem next_lock : (lock i p : Instr ι σ π).Next q ↔ q = p := by
  constructor
  · rintro ⟨⟩
    rfl
  · rintro rfl
    exact .lock

@[simp] theorem next_unlock : (unlock i p : Instr ι σ π).Next q ↔ q = p := by
  constructor
  · rintro ⟨⟩
    rfl
  · rintro rfl
    exact .unlock

@[simp] theorem next_act {r : σ → σ → π → Prop} :
    (act r : Instr ι σ π).Next q ↔ ∃ d d', r d d' q := by
  constructor
  · rintro ⟨⟩
    exact ⟨_, _, ‹_›⟩
  · rintro ⟨d, d', hr⟩
    exact .act hr

end Instr

/-- One value changes to `k'`: its old kind loses an element, and `k'` gets one. -/
theorem card_filter_update {T κ : Type} [Fintype T] [DecidableEq T] [DecidableEq κ]
    {f f' : T → κ} {t : T} {k' : κ} (h : f' = Function.update f t k') (k : κ) :
    (Finset.univ.filter fun u => f' u = k).card + (if f t = k then 1 else 0) =
      (Finset.univ.filter fun u => f u = k).card + if k' = k then 1 else 0 := by
  have hrest : ∀ g : T → κ, (Finset.univ.filter fun u => g u = k).card =
      ((Finset.univ.erase t).filter fun u => g u = k).card + if g t = k then 1 else 0 := by
    intro g
    rw [← Finset.insert_erase (Finset.mem_univ t), Finset.filter_insert]
    split <;> simp_all
  have hsame : ((Finset.univ.erase t).filter fun u => f' u = k) =
      (Finset.univ.erase t).filter fun u => f u = k := by
    apply Finset.filter_congr
    intro u hu
    rw [h, Function.update_of_ne (Finset.ne_of_mem_erase hu)]
  have hself : f' t = k' := by simp [h]
  rw [hrest f, hrest f', hsame, hself]
  omega

structure State (T ι σ π : Type) where
  data : σ
  place : T → π
  taken : ι → Bool

variable {T ι σ π : Type}

namespace State

section goto

variable [DecidableEq T]

def goto (s : State T ι σ π) (t : T) (p : π) : State T ι σ π :=
  { s with place := Function.update s.place t p }

variable (s : State T ι σ π) (t : T) (p : π)

@[simp] theorem goto_data : (s.goto t p).data = s.data := rfl
@[simp] theorem goto_taken : (s.goto t p).taken = s.taken := rfl
@[simp] theorem goto_place : (s.goto t p).place = Function.update s.place t p := rfl

end goto

section setTaken

variable [DecidableEq ι]

def setTaken (s : State T ι σ π) (i : ι) (b : Bool) : State T ι σ π :=
  { s with taken := Function.update s.taken i b }

variable (s : State T ι σ π) (i : ι) (b : Bool)

@[simp] theorem setTaken_data : (s.setTaken i b).data = s.data := rfl
@[simp] theorem setTaken_place : (s.setTaken i b).place = s.place := rfl
@[simp] theorem setTaken_taken : (s.setTaken i b).taken = Function.update s.taken i b := rfl

theorem setTaken_self {s : State T ι σ π} {i : ι} {b : Bool} (h : s.taken i = b) :
    s.setTaken i b = s := by
  cases s
  simp [setTaken, ← h]

end setTaken

section setData

def setData (s : State T ι σ π) (d : σ) : State T ι σ π :=
  { s with data := d }

variable (s : State T ι σ π) (d : σ)

@[simp] theorem setData_data : (s.setData d).data = d := rfl
@[simp] theorem setData_place : (s.setData d).place = s.place := rfl
@[simp] theorem setData_taken : (s.setData d).taken = s.taken := rfl

end setData

section count

variable [Fintype T] {κ : Type} [DecidableEq κ]

/-- The threads at a place of kind `k`. -/
def count (s : State T ι σ π) (kind : π → κ) (k : κ) : Nat :=
  (Finset.univ.filter fun t => kind (s.place t) = k).card

variable {s s' : State T ι σ π} {kind : π → κ} {k : κ} {t u : T}

theorem count_pos (h : kind (s.place t) = k) : 0 < s.count kind k :=
  Finset.card_pos.mpr ⟨t, by simpa using h⟩

theorem exists_of_count_pos (h : 0 < s.count kind k) : ∃ t, kind (s.place t) = k := by
  obtain ⟨t, ht⟩ := Finset.card_pos.mp h
  exact ⟨t, by simpa using ht⟩

theorem one_lt_count (hne : t ≠ u) (ht : kind (s.place t) = k) (hu : kind (s.place u) = k) :
    1 < s.count kind k :=
  Finset.one_lt_card.mpr ⟨t, by simpa using ht, u, by simpa using hu, hne⟩

theorem sum_count_le (s : State T ι σ π) (kind : π → κ) (K : Finset κ) :
    ∑ k ∈ K, s.count kind k ≤ Fintype.card T := by
  classical
  unfold count
  rw [← Finset.card_biUnion]
  · exact Finset.card_le_univ _
  · intro k _ k' _ hne
    apply Finset.disjoint_filter.mpr
    intro t _ hk hk'
    exact hne (hk.symm.trans hk')

/-- A thread that moves leaves one count and enters another. -/
theorem count_move [DecidableEq T] {p : π} (h : s'.place = Function.update s.place t p) (k : κ) :
    s'.count kind k + (if kind (s.place t) = k then 1 else 0) =
      s.count kind k + if kind p = k then 1 else 0 := by
  have hkind : (fun u => kind (s'.place u)) =
      Function.update (fun u => kind (s.place u)) t (kind p) := by
    funext u
    by_cases hu : u = t <;> simp [h, hu]
  exact card_filter_update hkind k

end count

end State

section steps

variable [DecidableEq T] [DecidableEq ι] (prog : T → π → Instr ι σ π)

/-- A step of thread `t`, in which locks are atomic. -/
inductive Step (t : T) (s : State T ι σ π) : State T ι σ π → Prop
  | lock {i : ι} {p : π} : prog t (s.place t) = .lock i p → s.taken i = false →
      Step t s ((s.setTaken i true).goto t p)
  | won {i : ι} {p q : π} : prog t (s.place t) = .tryLock i p q → s.taken i = false →
      Step t s ((s.setTaken i true).goto t p)
  | lost {i : ι} {p q : π} : prog t (s.place t) = .tryLock i p q → Step t s (s.goto t q)
  | unlock {i : ι} {p : π} : prog t (s.place t) = .unlock i p → s.taken i = true →
      Step t s ((s.setTaken i false).goto t p)
  | act {r : σ → σ → π → Prop} {d : σ} {p : π} : prog t (s.place t) = .act r → r s.data d p →
      Step t s ((s.setData d).goto t p)

abbrev Reachable (s₀ : State T ι σ π) : State T ι σ π → Prop :=
  Relation.ReflTransGen (fun s s' => ∃ t, Step prog t s s') s₀

/-- No thread ever gives back a lock that is free. -/
def Sound (s₀ : State T ι σ π) : Prop :=
  ∀ s, Reachable prog s₀ s → ∀ t i p, prog t (s.place t) = .unlock i p → s.taken i = true

def CanStep (s : State T ι σ π) (t : T) : Prop :=
  ∃ s', Step prog t s s'

variable {prog} {s s₀ s' : State T ι σ π} {t u : T} {i j : ι} {p q : π}

theorem Step.reachable (h : Step prog t s s') (hs : Reachable prog s₀ s) :
    Reachable prog s₀ s' :=
  hs.tail ⟨t, h⟩

/-- An invariant holds in every state of a run. -/
theorem Reachable.inv {I : State T ι σ π → Prop} (h : Reachable prog s₀ s) (h₀ : I s₀)
    (hstep : ∀ t s s', I s → Step prog t s s' → I s') : I s := by
  induction h with
  | refl => exact h₀
  | tail _ hs ih =>
    obtain ⟨t, hs⟩ := hs
    exact hstep t _ _ ih hs

/-- The place of every other thread stays. -/
theorem Step.place_of_ne (h : Step prog t s s') (hu : u ≠ t) : s'.place u = s.place u := by
  cases h <;> simp [hu]

theorem Step.next (h : Step prog t s s') : (prog t (s.place t)).Next (s'.place t) := by
  cases h with
  | lock hprog | unlock hprog => simp [hprog]
  | won hprog =>
    rw [hprog, State.goto_place, Function.update_self]
    exact .won
  | lost hprog =>
    rw [hprog, State.goto_place, Function.update_self]
    exact .lost
  | act hprog hr =>
    rw [hprog, State.goto_place, Function.update_self]
    exact .act hr

theorem Step.lock_inv (h : Step prog t s s') (hprog : prog t (s.place t) = .lock i p) :
    s.taken i = false ∧ s' = (s.setTaken i true).goto t p := by
  cases h with
  | lock hprog' hfree =>
    obtain ⟨rfl, rfl⟩ := Instr.lock.inj (hprog.symm.trans hprog')
    exact ⟨hfree, rfl⟩
  | won hprog' | lost hprog' | unlock hprog' | act hprog' => simp [hprog] at hprog'

theorem Step.unlock_inv (h : Step prog t s s') (hprog : prog t (s.place t) = .unlock i p) :
    s.taken i = true ∧ s' = (s.setTaken i false).goto t p := by
  cases h with
  | unlock hprog' htaken =>
    obtain ⟨rfl, rfl⟩ := Instr.unlock.inj (hprog.symm.trans hprog')
    exact ⟨htaken, rfl⟩
  | lock hprog' | won hprog' | lost hprog' | act hprog' => simp [hprog] at hprog'

theorem Step.act_inv {r : σ → σ → π → Prop} (h : Step prog t s s')
    (hprog : prog t (s.place t) = .act r) : ∃ d q, r s.data d q ∧ s' = (s.setData d).goto t q := by
  cases h with
  | act hprog' hr =>
    obtain rfl := Instr.act.inj (hprog.symm.trans hprog')
    exact ⟨_, _, hr, rfl⟩
  | lock hprog' | won hprog' | lost hprog' | unlock hprog' => simp [hprog] at hprog'

theorem canStep_act {r : σ → σ → π → Prop} {d : σ} (h : prog t (s.place t) = .act r)
    (hr : r s.data d p) : CanStep prog s t :=
  ⟨_, .act h hr⟩

theorem canStep_lock (h : prog t (s.place t) = .lock i p) (hfree : s.taken i = false) :
    CanStep prog s t :=
  ⟨_, .lock h hfree⟩

theorem canStep_unlock (h : prog t (s.place t) = .unlock i p) (htaken : s.taken i = true) :
    CanStep prog s t :=
  ⟨_, .unlock h htaken⟩

variable (prog) in
omit [DecidableEq T] [DecidableEq ι] in
/-- Locks that are taken in the order of their ranks: if every lock that is taken is held by a
thread that is fine or waits for a lock of a higher rank, and a thread that waits for a free
lock is fine, some thread is fine. -/
theorem exists_of_order {rank : ι → Nat} {bound : Nat} (hrank : ∀ i, rank i ≤ bound)
    {fine : T → Prop} (holds : T → ι → Prop) (hheld : ∀ i, s.taken i = true → ∃ t, holds t i)
    (hup : ∀ t i, holds t i → fine t ∨ ∃ j p, prog t (s.place t) = .lock j p ∧ rank i < rank j)
    (hfree : ∀ t i p, prog t (s.place t) = .lock i p → s.taken i = false → fine t)
    (ht : prog t (s.place t) = .lock i p) : ∃ u, fine u := by
  induction hk : bound - rank i using Nat.strongRecOn generalizing t i p with
  | _ k ih =>
    cases htaken : s.taken i with
    | false => exact ⟨t, hfree t i p ht htaken⟩
    | true =>
      obtain ⟨u, hu⟩ := hheld i htaken
      rcases hup u i hu with hfine | ⟨j, q, hj, hlt⟩
      · exact ⟨u, hfine⟩
      · have hle := hrank j
        exact ih (bound - rank j) (by omega) hj rfl

end steps

/-! Programs that take their locks in order. From its place alone one can tell which locks a
thread holds; it waits for a lock only while all it holds are of a lower rank, and gives back
only what it holds. -/

/-- The laws of the program, one for each instruction. -/
structure LockOrder (prog : T → π → Instr ι σ π) where
  valid : π → Prop
  idle : π → Prop
  held : π → List ι
  rank : ι → Nat
  bound : Nat
  rank_le : ∀ i, rank i ≤ bound
  held_idle : ∀ {p}, idle p → held p = []
  not_idle : ∀ {t p i q}, prog t p = .lock i q → ¬ idle p
  lock : ∀ {t p i q}, valid p → prog t p = .lock i q →
    valid q ∧ (held q).Perm (i :: held p) ∧ ∀ j ∈ held p, rank j < rank i
  tryLock : ∀ {t p i q r}, valid p → prog t p = .tryLock i q r →
    valid q ∧ (held q).Perm (i :: held p) ∧ valid r ∧ (held r).Perm (held p)
  unlock : ∀ {t p i q}, valid p → prog t p = .unlock i q →
    valid q ∧ (held p).Perm (i :: held q)
  act : ∀ {t p r d d' q}, valid p → prog t p = .act r → r d d' q →
    valid q ∧ (held q).Perm (held p)
  /-- The program has no way to stop between two instructions. -/
  goes_on : ∀ {t p}, valid p → ¬ idle p → ∀ r, prog t p = .act r → ∀ d, ∃ d' q, r d d' q

namespace LockOrder

variable {prog : T → π → Instr ι σ π} (o : LockOrder prog)

/-- Every lock that is taken is held by one thread, and by no other. -/
structure Inv (s : State T ι σ π) : Prop where
  valid : ∀ t, o.valid (s.place t)
  nodup : ∀ t, (o.held (s.place t)).Nodup
  taken : ∀ i, s.taken i = true ↔ ∃ t, i ∈ o.held (s.place t)
  unique : ∀ t u i, i ∈ o.held (s.place t) → i ∈ o.held (s.place u) → t = u

variable {o} {s s₀ s' : State T ι σ π} {t : T} {i : ι} {p : π}

theorem Inv.init (hvalid : ∀ t, o.valid (s.place t)) (hidle : ∀ t, o.idle (s.place t))
    (hfree : ∀ i, s.taken i = false) : o.Inv s where
  valid := hvalid
  nodup t := by simp [o.held_idle (hidle t)]
  taken i := by simp [hfree, o.held_idle (hidle _)]
  unique t u i h := by simp [o.held_idle (hidle t)] at h

section step

variable [DecidableEq T]

/-- Thread `t` goes to a place where it holds the same locks. -/
theorem Inv.move (h : o.Inv s) (hplace : s'.place = Function.update s.place t p)
    (htaken : s'.taken = s.taken) (hvalid : o.valid p)
    (hheld : (o.held p).Perm (o.held (s.place t))) : o.Inv s' := by
  have hmem : ∀ u i, i ∈ o.held (s'.place u) ↔ i ∈ o.held (s.place u) := by
    intro u i
    by_cases hu : u = t
    · subst hu
      simp [hplace, hheld.mem_iff]
    · simp [hplace, hu]
  constructor
  · intro u
    by_cases hu : u = t
    · subst hu
      simpa [hplace] using hvalid
    · simpa [hplace, hu] using h.valid u
  · intro u
    by_cases hu : u = t
    · subst hu
      simpa [hplace] using hheld.nodup_iff.mpr (h.nodup u)
    · simpa [hplace, hu] using h.nodup u
  · intro i
    simp only [htaken, hmem]
    exact h.taken i
  · intro u v i hu hv
    rw [hmem] at hu hv
    exact h.unique u v i hu hv

variable [DecidableEq ι]

theorem Inv.take (h : o.Inv s) (hfree : s.taken i = false) (hvalid : o.valid p)
    (hheld : (o.held p).Perm (i :: o.held (s.place t))) :
    o.Inv ((s.setTaken i true).goto t p) := by
  have hnone : ∀ u, i ∉ o.held (s.place u) := by
    intro u hu
    have htaken := (h.taken i).mpr ⟨u, hu⟩
    simp [hfree] at htaken
  have hmem : ∀ u j, j ∈ o.held (((s.setTaken i true).goto t p).place u) ↔
      (u = t ∧ j = i) ∨ j ∈ o.held (s.place u) := by
    intro u j
    by_cases hu : u = t
    · subst hu
      simp [hheld.mem_iff]
    · simp [hu]
  constructor
  · intro u
    by_cases hu : u = t
    · subst hu
      simpa using hvalid
    · simpa [hu] using h.valid u
  · intro u
    by_cases hu : u = t
    · subst hu
      simpa using hheld.nodup_iff.mpr (List.nodup_cons.mpr ⟨hnone u, h.nodup u⟩)
    · simpa [hu] using h.nodup u
  · intro j
    simp only [hmem]
    by_cases hj : j = i
    · subst hj
      simp
    · simpa [hj] using h.taken j
  · intro u v j hu hv
    rw [hmem] at hu hv
    rcases hu with ⟨rfl, rfl⟩ | hu <;> rcases hv with ⟨rfl, hj⟩ | hv
    · rfl
    · exact (hnone v hv).elim
    · exact (hnone u (hj ▸ hu)).elim
    · exact h.unique u v j hu hv

theorem Inv.giveBack (h : o.Inv s) (hvalid : o.valid p)
    (hheld : (o.held (s.place t)).Perm (i :: o.held p)) :
    o.Inv ((s.setTaken i false).goto t p) := by
  have hnodup := hheld.nodup_iff.mp (h.nodup t)
  have hself : i ∈ o.held (s.place t) := hheld.mem_iff.mpr List.mem_cons_self
  have hmem : ∀ u j, j ∈ o.held (((s.setTaken i false).goto t p).place u) ↔
      j ≠ i ∧ j ∈ o.held (s.place u) := by
    intro u j
    by_cases hu : u = t
    · subst hu
      have hi := (List.nodup_cons.mp hnodup).1
      simp only [State.goto_place, Function.update_self, hheld.mem_iff, List.mem_cons]
      grind
    · simp only [State.goto_place, State.setTaken_place, Function.update_of_ne hu]
      refine ⟨fun hj => ⟨?_, hj⟩, And.right⟩
      rintro rfl
      exact hu (h.unique u t j hj hself)
  constructor
  · intro u
    by_cases hu : u = t
    · subst hu
      simpa using hvalid
    · simpa [hu] using h.valid u
  · intro u
    by_cases hu : u = t
    · subst hu
      simpa using (List.nodup_cons.mp hnodup).2
    · simpa [hu] using h.nodup u
  · intro j
    simp only [hmem]
    by_cases hj : j = i
    · subst hj
      simp
    · simpa [hj] using h.taken j
  · intro u v j hu hv
    rw [hmem] at hu hv
    exact h.unique u v j hu.2 hv.2

theorem Inv.step (h : o.Inv s) (hs : Step prog t s s') : o.Inv s' := by
  cases hs with
  | lock hprog hfree =>
    obtain ⟨hvalid, hheld, _⟩ := o.lock (h.valid t) hprog
    exact h.take hfree hvalid hheld
  | won hprog hfree =>
    obtain ⟨hvalid, hheld, _⟩ := o.tryLock (h.valid t) hprog
    exact h.take hfree hvalid hheld
  | lost hprog =>
    obtain ⟨_, _, hvalid, hheld⟩ := o.tryLock (h.valid t) hprog
    exact h.move rfl rfl hvalid hheld
  | unlock hprog =>
    obtain ⟨hvalid, hheld⟩ := o.unlock (h.valid t) hprog
    exact h.giveBack hvalid hheld
  | act hprog hr =>
    obtain ⟨hvalid, hheld⟩ := o.act (h.valid t) hprog hr
    exact h.move rfl rfl hvalid hheld

theorem Inv.reachable (h₀ : o.Inv s₀) (h : Reachable prog s₀ s) : o.Inv s :=
  h.inv h₀ fun _ _ _ hinv hs => hinv.step hs

theorem sound (h₀ : o.Inv s₀) : Sound prog s₀ := by
  intro s hs t i p hprog
  have hinv := Inv.reachable h₀ hs
  obtain ⟨_, hheld⟩ := o.unlock (hinv.valid t) hprog
  exact (hinv.taken i).mpr ⟨t, hheld.mem_iff.mpr List.mem_cons_self⟩

/-- A thread that is not idle goes on or waits for a lock above all it holds. -/
theorem Inv.busy (h : o.Inv s) (hidle : ¬ o.idle (s.place t)) : CanStep prog s t ∨
    ∃ i p, prog t (s.place t) = .lock i p ∧ ∀ j ∈ o.held (s.place t), o.rank j < o.rank i := by
  cases hprog : prog t (s.place t) with
  | lock i p => exact .inr ⟨i, p, rfl, (o.lock (h.valid t) hprog).2.2⟩
  | tryLock i p q => exact .inl ⟨_, .lost hprog⟩
  | unlock i p =>
    obtain ⟨_, hheld⟩ := o.unlock (h.valid t) hprog
    exact .inl (canStep_unlock hprog
      ((h.taken i).mpr ⟨t, hheld.mem_iff.mpr List.mem_cons_self⟩))
  | act r =>
    obtain ⟨d, p, hr⟩ := o.goes_on (h.valid t) hidle r hprog s.data
    exact .inl (canStep_act hprog hr)

/-- Some thread that is not idle can go on, as long as there is one. -/
theorem Inv.deadlock_free (h : o.Inv s) (hidle : ¬ o.idle (s.place t)) :
    ∃ u, ¬ o.idle (s.place u) ∧ CanStep prog s u := by
  rcases h.busy hidle with hstep | ⟨i, p, hprog, _⟩
  · exact ⟨t, hidle, hstep⟩
  · refine exists_of_order prog o.rank_le (fun u j => j ∈ o.held (s.place u))
      (fun j hj => (h.taken j).mp hj) ?_ ?_ hprog
    · intro u j hj
      have hbusy : ¬ o.idle (s.place u) := by
        intro hu
        simp [o.held_idle hu] at hj
      rcases h.busy hbusy with hstep | ⟨k, q, hk, hlt⟩
      · exact .inl ⟨hbusy, hstep⟩
      · exact .inr ⟨k, q, hk, hlt j hj⟩
    · intro u j q hq hfree
      exact ⟨o.not_idle hq, canStep_lock hq hfree⟩

section drains

/-- `n` steps of threads that are not idle. -/
inductive BusyRun (o : LockOrder prog) (s : State T ι σ π) : Nat → State T ι σ π → Prop
  | refl : BusyRun o s 0 s
  | tail {n : Nat} {t : T} {s' s'' : State T ι σ π} : BusyRun o s n s' →
      ¬ o.idle (s'.place t) → Step prog t s' s'' → BusyRun o s (n + 1) s''

theorem BusyRun.head {s'' : State T ι σ π} {n : Nat} (hidle : ¬ o.idle (s.place t))
    (hs : Step prog t s s') (h : o.BusyRun s' n s'') : o.BusyRun s (n + 1) s'' := by
  induction h with
  | refl => exact .tail .refl hidle hs
  | tail _ hidle' hs' ih => exact .tail ih hidle' hs'

variable [Fintype T] {cost : π → Nat}

/-- What a thread has still to do, if each of its steps takes some of it. -/
def Costs (o : LockOrder prog) (cost : π → Nat) : Prop :=
  ∀ t p q, ¬ o.idle p → (prog t p).Next q → cost q < cost p

theorem Costs.sum_lt (hcost : o.Costs cost) (hidle : ¬ o.idle (s.place t))
    (hs : Step prog t s s') : ∑ u, cost (s'.place u) < ∑ u, cost (s.place u) := by
  apply Finset.sum_lt_sum
  · intro u _
    by_cases hu : u = t
    · subst hu
      exact (hcost u _ _ hidle hs.next).le
    · rw [hs.place_of_ne hu]
  · exact ⟨t, Finset.mem_univ t, hcost t _ _ hidle hs.next⟩

/-- While no idle thread starts anew, the others come to an end: no run is longer than the
work that is left, and some run does all of it. -/
theorem Inv.drains (h : o.Inv s) (hcost : o.Costs cost) :
    (∀ n s', o.BusyRun s n s' → n ≤ ∑ u, cost (s.place u)) ∧
      ∃ n s', o.BusyRun s n s' ∧ ∀ u, o.idle (s'.place u) := by
  constructor
  · have hrun : ∀ n s', o.BusyRun s n s' →
        n + ∑ u, cost (s'.place u) ≤ ∑ u, cost (s.place u) := by
      intro n s' hrun
      induction hrun with
      | refl => simp
      | tail _ hidle hs ih =>
        have hlt := hcost.sum_lt hidle hs
        omega
    intro n s' hn
    exact Nat.le_of_add_right_le (hrun n s' hn)
  · induction hk : ∑ u, cost (s.place u) using Nat.strongRecOn generalizing s with
    | _ k ih =>
      by_cases hbusy : ∃ t, ¬ o.idle (s.place t)
      · obtain ⟨t, ht⟩ := hbusy
        obtain ⟨u, hu, s', hs⟩ := h.deadlock_free ht
        have hlt := hcost.sum_lt hu hs
        obtain ⟨n, s'', hrun, hdone⟩ := ih _ (hk ▸ hlt) (h.step hs) rfl
        exact ⟨n + 1, s'', hrun.head hu hs, hdone⟩
      · exact ⟨0, s, .refl, fun t => not_not.mp fun ht => hbusy ⟨t, ht⟩⟩

end drains

end step

end LockOrder

end LockProgram
