import Mathlib.Logic.Function.Basic
import Mathlib.Logic.Relation

/-! Virtual ports. The processes of a port domain bind and connect to ports of their own, and the
domain keeps which port of the machine each of them stands for. A `bind` holds the lock of its
domain over the system call, so binds of one domain do not overlap; all else interleaves. Ports
are in host order, port 0 asks for any port, and `-1` and a panic are `none`. Addresses that are
not IPv4 are left out. What the kernel knows of a socket besides its port (its protocol, its local
address, its options) is `α`, and `shares` tells which two sockets it lets have one port; the
virtual ports know nothing of that. -/

namespace ZSim

structure PortVirtualizer where
  realToVirt : Nat → Option Nat
  virtToReal : Nat → Option Nat
  /-- The thread that holds the lock. -/
  pvLock : Option Nat

namespace PortVirtualizer

variable (pv : PortVirtualizer)

def registerBind (virt real : Nat) : PortVirtualizer :=
  { pv with
    realToVirt := Function.update pv.realToVirt real (some virt)
    virtToReal := Function.update pv.virtToReal virt (some real) }

def lookupReal (virt : Nat) : Option Nat := pv.virtToReal virt

def lookupVirt (real : Nat) : Option Nat := pv.realToVirt real

/-- The port that the kernel is asked for instead of `port`, which is not 0. -/
def patchBind (port : Nat) : Nat :=
  match pv.lookupReal port with
  | none => 0
  | some prevPort => prevPort

/-- After a `bind` that has succeeded; `realPort` is what `getsockname` says of the socket. -/
def patchBindPost (virtPort : Nat) : (realPort : Option Nat) → Option PortVirtualizer
  | none => none
  | some realPort => some (pv.registerBind virtPort realPort)

/-- What the process is told of a socket that the kernel has at `realPort`. -/
def patchGetsockname (realPort : Nat) : Nat :=
  match pv.lookupVirt realPort with
  | none => realPort
  | some virtPort => virtPort

/-- The port that the kernel connects to instead of `virtPort`. -/
def patchConnect (virtPort : Nat) : Nat :=
  match pv.lookupReal virtPort with
  | none => virtPort
  | some realPort => realPort

end PortVirtualizer

/-- A socket that is bound: by a process of `domain`, which asked for `virt`, to `real`. -/
structure BoundSocket (α : Type) where
  domain : Nat
  virt : Nat
  real : Nat
  endpoint : α

/-- Where a thread is: outside `bind`, before the system call, which asks for the port `asked`,
and after it. -/
inductive BindCall
  | app
  | binding (socket virt asked : Nat)
  | bound (socket virt : Nat)
  | failed (virt : Nat)

structure PortState (α : Type) where
  portVirt : Nat → PortVirtualizer
  threads : Nat → BindCall
  sockets : Nat → Option (BoundSocket α)

/-- What the kernel does when it binds a socket: it gives it the port it is asked for, or one of its
choice, that it may share with all others that have it. -/
structure KernelBinds {α : Type} (shares : α → α → Prop) (sockets : Nat → Option (BoundSocket α))
    (s : Nat) (endpoint : α) (asked real : Nat) : Prop where
  unbound : sockets s = none
  asked : asked ≠ 0 → real = asked
  ne_zero : real ≠ 0
  shared : ∀ s' a, sockets s' = some a → a.real = real → shares a.endpoint endpoint

/-- A thread goes on, or a socket is closed. A guest does not close a socket while it binds it, nor
changes the address that it gave. -/
inductive PortStep {α : Type} (shares : α → α → Prop) (domain : Nat → Nat) (w : PortState α) :
    PortState α → Prop
  | enter {t : Nat} (s : Nat) {port : Nat} : w.threads t = .app → port ≠ 0 →
      (w.portVirt (domain t)).pvLock = none → PortStep shares domain w
        { w with
          portVirt := Function.update w.portVirt (domain t)
            { w.portVirt (domain t) with pvLock := some t }
          threads := Function.update w.threads t
            (.binding s port ((w.portVirt (domain t)).patchBind port)) }
  | bindAny {t s real : Nat} {x : α} : w.threads t = .app →
      KernelBinds shares w.sockets s x 0 real → PortStep shares domain w
        { w with sockets := Function.update w.sockets s (some ⟨domain t, 0, real, x⟩) }
  | succeed {t s port asked real : Nat} {x : α} : w.threads t = .binding s port asked →
      KernelBinds shares w.sockets s x asked real → PortStep shares domain w
        { w with
          threads := Function.update w.threads t (.bound s port)
          sockets := Function.update w.sockets s (some ⟨domain t, port, real, x⟩) }
  | fail {t s port asked : Nat} : w.threads t = .binding s port asked → PortStep shares domain w
        { w with threads := Function.update w.threads t (.failed port) }
  | register {t s port : Nat} {pv : PortVirtualizer} : w.threads t = .bound s port →
      (w.portVirt (domain t)).patchBindPost port ((w.sockets s).map (·.real)) = some pv →
      PortStep shares domain w
        { w with
          portVirt := Function.update w.portVirt (domain t) { pv with pvLock := none }
          threads := Function.update w.threads t .app }
  | giveUp {t port : Nat} : w.threads t = .failed port → PortStep shares domain w
        { w with
          portVirt := Function.update w.portVirt (domain t)
            { w.portVirt (domain t) with pvLock := none }
          threads := Function.update w.threads t .app }
  | close {s : Nat} : (∀ t port, w.threads t ≠ .bound s port) → PortStep shares domain w
        { w with sockets := Function.update w.sockets s none }

def PortState.init (α : Type) : PortState α :=
  ⟨fun _ => ⟨fun _ => none, fun _ => none, none⟩, fun _ => .app, fun _ => none⟩

abbrev PortRun {α : Type} (shares : α → α → Prop) (domain : Nat → Nat) :=
  Relation.ReflTransGen (PortStep shares domain)

section

variable {α : Type} (shares : α → α → Prop) (domain : Nat → Nat) (w : PortState α)

/-- The kernel may share the port of a socket, and another port of the domain stands for it. -/
def Shadowed (a : BoundSocket α) : Prop :=
  (∃ x, shares a.endpoint x ∨ shares x a.endpoint) ∧
    ∃ virt ≠ a.virt, (w.portVirt a.domain).virtToReal virt = some a.real

/-- What a thread inside `bind` knows of the maps of its domain. -/
def BindOk (d : Nat) : BindCall → Prop
  | .app => True
  | .binding _ port asked =>
    port ≠ 0 ∧ asked = ((w.portVirt d).virtToReal port).getD 0
  | .bound s port => port ≠ 0 ∧ ∃ real x, w.sockets s = some ⟨d, port, real, x⟩ ∧
      ∀ r, (w.portVirt d).virtToReal port = some r → r = real
  | .failed port => port ≠ 0

structure PortInv : Prop where
  lock : ∀ d t, (w.portVirt d).pvLock = some t ↔ domain t = d ∧ w.threads t ≠ .app
  calls : ∀ t, BindOk w (domain t) (w.threads t)
  ne_zero : ∀ d virt real, (w.portVirt d).virtToReal virt = some real →
    virt ≠ 0 ∧ real ≠ 0
  inverse : ∀ d real virt, (w.portVirt d).realToVirt real = some virt →
    (w.portVirt d).virtToReal virt = some real
  known : ∀ d virt real, (w.portVirt d).virtToReal virt = some real →
    ∃ v, (w.portVirt d).realToVirt real = some v
  bound : ∀ s a, w.sockets s = some a → a.real ≠ 0
  shared : ∀ s s' a b, w.sockets s = some a → w.sockets s' = some b → a.real = b.real →
    s = s' ∨ shares a.endpoint b.endpoint ∨ shares b.endpoint a.endpoint
  registered : ∀ s a, w.sockets s = some a → a.virt ≠ 0 →
    (∃ t, domain t = a.domain ∧ w.threads t = .bound s a.virt) ∨
      (w.portVirt a.domain).virtToReal a.virt = some a.real ∧
        ((w.portVirt a.domain).realToVirt a.real = some a.virt ∨ Shadowed shares w a)

end

section steps

variable {α : Type} {shares : α → α → Prop} {domain : Nat → Nat} {w w' : PortState α} {x : α}
  {t s port asked real : Nat}

theorem PortVirtualizer.registerBind_self (pv : PortVirtualizer) (port real : Nat) :
    (pv.registerBind port real).virtToReal port = some real ∧
      (pv.registerBind port real).realToVirt real = some port :=
  ⟨Function.update_self _ _ _, Function.update_self _ _ _⟩

theorem PortVirtualizer.registerBind_of_ne (pv : PortVirtualizer) {virt r : Nat}
    (hv : virt ≠ port) (hr : r ≠ real) :
    (pv.registerBind port real).virtToReal virt = pv.virtToReal virt ∧
      (pv.registerBind port real).realToVirt r = pv.realToVirt r :=
  ⟨Function.update_of_ne hv _ _, Function.update_of_ne hr _ _⟩

theorem PortVirtualizer.registerBind_cases {pv : PortVirtualizer} {virt r : Nat}
    (h : (pv.registerBind port real).virtToReal virt = some r) :
    virt = port ∧ r = real ∨ pv.virtToReal virt = some r := by
  by_cases hv : virt = port
  · rw [hv, (pv.registerBind_self port real).1] at h
    exact .inl ⟨hv, (Option.some.inj h).symm⟩
  · exact .inr ((Function.update_of_ne hv _ _).symm.trans h)

/-- What is mapped stays so, if `port` stands for no other port of the machine. -/
theorem PortVirtualizer.registerBind_mapped {pv : PortVirtualizer} {virt r : Nat}
    (hone : ∀ r, pv.virtToReal port = some r → r = real) (h : pv.virtToReal virt = some r) :
    (pv.registerBind port real).virtToReal virt = some r := by
  by_cases hv : virt = port
  · rw [hv] at h ⊢
    rw [hone r h]
    exact (pv.registerBind_self port real).1
  · exact (Function.update_of_ne hv _ _).trans h

theorem PortVirtualizer.registerBind_known {pv : PortVirtualizer} {virt r : Nat}
    (hknown : ∀ virt r, pv.virtToReal virt = some r → ∃ v, pv.realToVirt r = some v)
    (h : (pv.registerBind port real).virtToReal virt = some r) :
    ∃ v, (pv.registerBind port real).realToVirt r = some v := by
  by_cases hr : r = real
  · exact ⟨port, hr ▸ (pv.registerBind_self port real).2⟩
  · obtain ⟨v, hv⟩ := hknown virt r ((registerBind_cases h).resolve_left fun heq => hr heq.2)
    exact ⟨v, (Function.update_of_ne hr _ _).trans hv⟩

/-- The maps stay inverse to each other if `port` stands for no other port of the machine. -/
theorem PortVirtualizer.registerBind_inverse {pv : PortVirtualizer} {virt r : Nat}
    (hinverse : ∀ r virt, pv.realToVirt r = some virt → pv.virtToReal virt = some r)
    (hone : ∀ r, pv.virtToReal port = some r → r = real)
    (h : (pv.registerBind port real).realToVirt r = some virt) :
    (pv.registerBind port real).virtToReal virt = some r := by
  by_cases hr : r = real
  · rw [hr, (pv.registerBind_self port real).2] at h
    rw [← Option.some.inj h, (pv.registerBind_self port real).1, hr]
  · have hold : pv.virtToReal virt = some r :=
      hinverse r virt ((Function.update_of_ne hr _ _).symm.trans h)
    have hv : virt ≠ port := by
      rintro rfl
      exact hr (hone r hold)
    rw [(pv.registerBind_of_ne hv hr).1, hold]

theorem PortInv.init : PortInv shares domain (.init α) := by
  refine ⟨fun d t => ⟨fun h => ?_, fun h => (h.2 rfl).elim⟩, fun _ => trivial, fun _ _ _ h => ?_,
    fun _ _ _ h => ?_, fun _ _ _ h => ?_, fun _ _ h => ?_, fun _ _ _ _ h => ?_,
    fun _ _ h => ?_⟩ <;> cases h

theorem BindOk.mono {d : Nat} {call : BindCall} (h : BindOk w d call)
    (hmaps : (w'.portVirt d).virtToReal = (w.portVirt d).virtToReal)
    (hsockets : ∀ s a, w.sockets s = some a → w'.sockets s = some a) : BindOk w' d call := by
  cases call with
  | app => trivial
  | binding s port asked =>
    rw [BindOk, hmaps]
    exact h
  | bound s port =>
    obtain ⟨hport, real, x, hs, hone⟩ := h
    rw [BindOk, hmaps]
    exact ⟨hport, real, x, hsockets s _ hs, hone⟩
  | failed port => exact h

theorem Shadowed.mono {a : BoundSocket α} (h : Shadowed shares w a)
    (hmaps : ∀ virt r, (w.portVirt a.domain).virtToReal virt = some r →
      (w'.portVirt a.domain).virtToReal virt = some r) : Shadowed shares w' a := by
  obtain ⟨hshares, virt, hvirt, hreal⟩ := h
  exact ⟨hshares, virt, hvirt, hmaps virt _ hreal⟩

/-- A thread in `bind` is alone in it, of the threads of its domain. -/
theorem PortInv.alone (h : PortInv shares domain w) (ht : w.threads t ≠ .app) {t' : Nat}
    (hne : t' ≠ t) (hd : domain t' = domain t) : w.threads t' = .app := by
  by_contra ht'
  have hlock := (h.lock (domain t) t).mpr ⟨rfl, ht⟩
  rw [(h.lock (domain t) t').mpr ⟨hd, ht'⟩] at hlock
  exact hne (Option.some.inj hlock)

theorem PortInv.alone_of_free (h : PortInv shares domain w)
    (hfree : (w.portVirt (domain t)).pvLock = none) {t' : Nat} (hd : domain t' = domain t) :
    w.threads t' = .app := by
  by_contra ht'
  rw [(h.lock (domain t) t').mpr ⟨hd, ht'⟩] at hfree
  cases hfree

/-- Thread `t` comes to `call`, and takes or gives back the lock of its domain with that. -/
theorem PortInv.lock_moves (h : PortInv shares domain w) (pv : PortVirtualizer) (call : BindCall)
    (halone : ∀ t', t' ≠ t → domain t' = domain t → w.threads t' = .app)
    (hself : pv.pvLock = some t ↔ call ≠ .app) (hone : ∀ t', pv.pvLock = some t' → t' = t)
    (d t' : Nat) : (Function.update w.portVirt (domain t) pv d).pvLock = some t' ↔
      domain t' = d ∧ Function.update w.threads t call t' ≠ .app := by
  by_cases ht : t' = t
  · rw [ht, Function.update_self]
    by_cases hd : domain t = d
    · rw [← hd, Function.update_self, hself]
      exact ⟨fun hcall => ⟨rfl, hcall⟩, fun hcall => hcall.2⟩
    · rw [Function.update_of_ne (Ne.symm hd), h.lock]
      exact ⟨fun hh => (hd hh.1).elim, fun hh => (hd hh.1).elim⟩
  · rw [Function.update_of_ne ht]
    by_cases hd : d = domain t
    · rw [hd, Function.update_self]
      exact ⟨fun hlock => (ht (hone t' hlock)).elim,
        fun hh => (hh.2 (halone t' ht hh.1)).elim⟩
    · rw [Function.update_of_ne hd, h.lock]

/-- Thread `t` takes a step that leaves the sockets and the maps as they are. -/
theorem PortInv.moves (h : PortInv shares domain w) (pv : PortVirtualizer) (call : BindCall)
    (hmaps : pv.virtToReal = (w.portVirt (domain t)).virtToReal ∧
      pv.realToVirt = (w.portVirt (domain t)).realToVirt)
    (halone : ∀ t', t' ≠ t → domain t' = domain t → w.threads t' = .app)
    (hself : pv.pvLock = some t ↔ call ≠ .app) (hone : ∀ t', pv.pvLock = some t' → t' = t)
    (hcall : BindOk w (domain t) call) (hnot : ∀ s port, w.threads t ≠ .bound s port) :
    PortInv shares domain { w with
      portVirt := Function.update w.portVirt (domain t) pv
      threads := Function.update w.threads t call } := by
  have hvirt : ∀ d, (Function.update w.portVirt (domain t) pv d).virtToReal =
      (w.portVirt d).virtToReal := by
    intro d
    by_cases hd : d = domain t
    · rw [hd, Function.update_self, hmaps.1]
    · rw [Function.update_of_ne hd]
  have hreal : ∀ d, (Function.update w.portVirt (domain t) pv d).realToVirt =
      (w.portVirt d).realToVirt := by
    intro d
    by_cases hd : d = domain t
    · rw [hd, Function.update_self, hmaps.2]
    · rw [Function.update_of_ne hd]
  refine ⟨h.lock_moves pv call halone hself hone, fun t' => ?_, ?_, ?_, ?_, h.bound, h.shared,
    ?_⟩ <;>
    simp only [hvirt, hreal]
  · refine BindOk.mono (w := w) ?_ (hvirt _) fun _ _ => id
    by_cases ht : t' = t
    · rw [ht, Function.update_self]
      exact hcall
    · rw [Function.update_of_ne ht]
      exact h.calls t'
  · exact h.ne_zero
  · exact h.inverse
  · exact h.known
  · intro s a hs ha
    rcases h.registered s a hs ha with ⟨t', hd, ht'⟩ | hreg
    · have hne : t' ≠ t := by
        rintro rfl
        exact hnot s a.virt ht'
      exact .inl ⟨t', hd, (Function.update_of_ne hne _ _).trans ht'⟩
    · exact .inr ⟨hreg.1, hreg.2.imp_right fun hshadow => hshadow.mono fun virt r hr => by
        simpa only [hvirt] using hr⟩

/-- The kernel binds a socket. -/
theorem PortInv.opens (h : PortInv shares domain w) (call : BindCall) {virt : Nat}
    (hbinds : KernelBinds shares w.sockets s x asked real)
    (happ : w.threads t = .app ↔ call = .app)
    (hnot : ∀ s port, w.threads t ≠ .bound s port) (hvirt : virt ≠ 0 → call = .bound s virt)
    (hcall : BindOk
      { w with sockets := Function.update w.sockets s (some ⟨domain t, virt, real, x⟩) }
      (domain t) call) :
    PortInv shares domain { w with
      threads := Function.update w.threads t call
      sockets := Function.update w.sockets s (some ⟨domain t, virt, real, x⟩) } := by
  have hold : ∀ s' a, w.sockets s' = some a →
      Function.update w.sockets s (some ⟨domain t, virt, real, x⟩) s' = some a := by
    intro s' a hs'
    have hne : s' ≠ s := by
      rintro rfl
      rw [hbinds.unbound] at hs'
      cases hs'
    rw [Function.update_of_ne hne, hs']
  have hcases : ∀ s' a, Function.update w.sockets s (some ⟨domain t, virt, real, x⟩) s' = some a →
      s' = s ∧ a = ⟨domain t, virt, real, x⟩ ∨ w.sockets s' = some a := by
    intro s' a hs'
    by_cases hne : s' = s
    · rw [hne, Function.update_self] at hs'
      exact .inl ⟨hne, (Option.some.inj hs').symm⟩
    · rw [Function.update_of_ne hne] at hs'
      exact .inr hs'
  refine ⟨fun d t' => ?_, fun t' => ?_, h.ne_zero, h.inverse, h.known, fun s' a hs' => ?_,
    fun s₁ s₂ a b h₁ h₂ hab => ?_, fun s' a hs' ha => ?_⟩
  · refine (h.lock d t').trans (and_congr_right fun _ => not_congr ?_)
    by_cases ht : t' = t
    · simp only [ht, Function.update_self, happ]
    · simp only [Function.update_of_ne ht]
  · by_cases ht : t' = t
    · simp only [ht, Function.update_self]
      exact hcall.mono rfl fun _ _ => id
    · simp only [Function.update_of_ne ht]
      exact (h.calls t').mono rfl hold
  · rcases hcases s' a hs' with ⟨-, rfl⟩ | hs'
    · exact hbinds.ne_zero
    · exact h.bound s' a hs'
  · rcases hcases s₁ a h₁ with ⟨rfl, rfl⟩ | hs₁ <;> rcases hcases s₂ b h₂ with ⟨rfl, rfl⟩ | hs₂
    · exact .inl rfl
    · exact .inr (.inr (hbinds.shared s₂ b hs₂ hab.symm))
    · exact .inr (.inl (hbinds.shared s₁ a hs₁ hab))
    · exact h.shared s₁ s₂ a b hs₁ hs₂ hab
  · rcases hcases s' a hs' with ⟨rfl, rfl⟩ | hs'
    · exact .inl ⟨t, rfl, (Function.update_self _ _ _).trans (hvirt ha)⟩
    · rcases h.registered s' a hs' ha with ⟨t', hd, ht'⟩ | hreg
      · have hne : t' ≠ t := by
          rintro rfl
          exact hnot s' a.virt ht'
        exact .inl ⟨t', hd, (Function.update_of_ne hne _ _).trans ht'⟩
      · exact .inr hreg

/-- Another socket of the domain when `port` has been written down. -/
theorem PortInv.still_registered {s' : Nat} {a : BoundSocket α} (h : PortInv shares domain w)
    (hs : w.sockets s = some ⟨domain t, port, real, x⟩) (hs' : w.sockets s' = some a)
    (hne : s' ≠ s) (hd : a.domain = domain t)
    (hone : ∀ r, (w.portVirt (domain t)).virtToReal port = some r → r = real)
    (hreg : (w.portVirt a.domain).virtToReal a.virt = some a.real ∧
      ((w.portVirt a.domain).realToVirt a.real = some a.virt ∨ Shadowed shares w a))
    (hw : (w'.portVirt (domain t)).virtToReal =
        ((w.portVirt (domain t)).registerBind port real).virtToReal ∧
      (w'.portVirt (domain t)).realToVirt =
        ((w.portVirt (domain t)).registerBind port real).realToVirt) :
    (w'.portVirt a.domain).virtToReal a.virt = some a.real ∧
      ((w'.portVirt a.domain).realToVirt a.real = some a.virt ∨ Shadowed shares w' a) := by
  obtain ⟨hself, hself'⟩ := (w.portVirt (domain t)).registerBind_self port real
  have hmapped : ∀ virt r, (w.portVirt a.domain).virtToReal virt = some r →
      (w'.portVirt a.domain).virtToReal virt = some r := by
    rw [hd, hw.1]
    exact fun _ _ => PortVirtualizer.registerBind_mapped hone
  refine ⟨hmapped _ _ hreg.1, ?_⟩
  by_cases hrr : a.real = real
  · -- the socket shares its port, and is told `port` from now on
    rw [hd, hw.2, hrr, hself']
    by_cases hv : a.virt = port
    · exact .inl (congrArg some hv.symm)
    · have hshares := (h.shared s' s a _ hs' hs hrr).resolve_left hne
      refine .inr ⟨⟨x, hshares⟩, port, Ne.symm hv, ?_⟩
      rw [hd, hw.1, hrr, hself]
  · refine hreg.2.imp (fun hreal => ?_) fun hshadow => hshadow.mono hmapped
    rw [hd] at hreal ⊢
    rw [hw.2]
    exact (Function.update_of_ne hrr _ _).trans hreal

/-- The maps after thread `t` has written down where its port is. -/
theorem PortInv.register (h : PortInv shares domain w) (ht : w.threads t = .bound s port)
    (hs : w.sockets s = some ⟨domain t, port, real, x⟩) :
    PortInv shares domain { w with
      portVirt := Function.update w.portVirt (domain t)
        { (w.portVirt (domain t)).registerBind port real with pvLock := none }
      threads := Function.update w.threads t .app } := by
  have hcall := h.calls t
  rw [ht] at hcall
  obtain ⟨hport, real', x', hs', hone⟩ := hcall
  obtain rfl : real = real' := by
    rw [hs] at hs'
    cases hs'
    rfl
  have halone : ∀ t', t' ≠ t → domain t' = domain t → w.threads t' = .app :=
    fun t' hne hd => h.alone (by simp [ht]) hne hd
  generalize hpv : ({ (w.portVirt (domain t)).registerBind port real with pvLock := none } :
    PortVirtualizer) = pv
  have hlock : pv.pvLock = none := by rw [← hpv]
  have hvirt : pv.virtToReal =
      ((w.portVirt (domain t)).registerBind port real).virtToReal := by rw [← hpv]
  have hreal : pv.realToVirt =
      ((w.portVirt (domain t)).registerBind port real).realToVirt := by rw [← hpv]
  refine ⟨h.lock_moves pv .app halone (by simp [hlock]) (by simp [hlock]), fun t' => ?_,
    fun d virt r hr => ?_, fun d r virt hr => ?_, fun d virt r hr => ?_, h.bound, h.shared,
    fun s' a hs' ha => ?_⟩
  · by_cases hne : t' = t
    · simp only [hne, Function.update_self]
      trivial
    simp only [Function.update_of_ne hne]
    by_cases hd : domain t' = domain t
    · rw [halone t' hne hd]
      trivial
    · exact (h.calls t').mono (by simp only [Function.update_of_ne hd]) fun _ _ => id
  · by_cases hd : d = domain t
    · simp only [hd, Function.update_self, hvirt] at hr
      rcases PortVirtualizer.registerBind_cases hr with ⟨rfl, rfl⟩ | hr
      · exact ⟨hport, h.bound s _ hs⟩
      · exact h.ne_zero _ _ _ hr
    · simp only [Function.update_of_ne hd] at hr
      exact h.ne_zero d virt r hr
  · by_cases hd : d = domain t
    · simp only [hd, Function.update_self, hvirt, hreal] at hr ⊢
      exact PortVirtualizer.registerBind_inverse (h.inverse _) hone hr
    · simp only [Function.update_of_ne hd] at hr ⊢
      exact h.inverse d r virt hr
  · by_cases hd : d = domain t
    · simp only [hd, Function.update_self, hvirt, hreal] at hr ⊢
      exact PortVirtualizer.registerBind_known (h.known _) hr
    · simp only [Function.update_of_ne hd] at hr ⊢
      exact h.known d virt r hr
  · change w.sockets s' = some a at hs'
    by_cases hss : s' = s
    · rw [hss, hs] at hs'
      obtain rfl := Option.some.inj hs'
      simp only [Function.update_self, hvirt, hreal]
      obtain ⟨hself, hself'⟩ := (w.portVirt (domain t)).registerBind_self port real
      exact .inr ⟨hself, .inl hself'⟩
    rcases h.registered s' a hs' ha with ⟨t', hd, ht'⟩ | hreg
    · have hne : t' ≠ t := by
        rintro rfl
        rw [ht] at ht'
        cases ht'
        exact hss rfl
      exact .inl ⟨t', hd, (Function.update_of_ne hne _ _).trans ht'⟩
    refine .inr ?_
    by_cases hd : a.domain = domain t
    · refine h.still_registered hs hs' hss hd hone hreg ?_ <;> simp only [Function.update_self]
      exact ⟨hvirt, hreal⟩
    · simp only [Function.update_of_ne hd]
      exact ⟨hreg.1, hreg.2.imp_right fun hshadow => hshadow.mono fun virt r hr => by
        simpa only [Function.update_of_ne hd] using hr⟩

theorem PortInv.close (h : PortInv shares domain w) (hnot : ∀ t port, w.threads t ≠ .bound s port) :
    PortInv shares domain { w with sockets := Function.update w.sockets s none } := by
  have hcases : ∀ s' a, Function.update w.sockets s none s' = some a →
      s' ≠ s ∧ w.sockets s' = some a := by
    intro s' a hs'
    by_cases hne : s' = s
    · rw [hne, Function.update_self] at hs'
      cases hs'
    · rw [Function.update_of_ne hne] at hs'
      exact ⟨hne, hs'⟩
  refine ⟨h.lock, fun t => ?_, h.ne_zero, h.inverse, h.known,
    fun s' a hs' => h.bound s' a (hcases s' a hs').2,
    fun s₁ s₂ a b h₁ h₂ => h.shared s₁ s₂ a b (hcases s₁ a h₁).2 (hcases s₂ b h₂).2,
    fun s' a hs' => h.registered s' a (hcases s' a hs').2⟩
  have hcall := h.calls t
  cases ht : w.threads t with
  | app => trivial
  | binding s' port asked =>
    rw [ht] at hcall
    exact hcall
  | bound s' port =>
    rw [ht] at hcall
    obtain ⟨hport, real, x, hs', hone⟩ := hcall
    have hne : s' ≠ s := by
      rintro rfl
      exact hnot t port ht
    exact ⟨hport, real, x, (Function.update_of_ne hne _ _).trans hs', hone⟩
  | failed port =>
    rw [ht] at hcall
    exact hcall

theorem PortInv.step (h : PortInv shares domain w) (hstep : PortStep shares domain w w') :
    PortInv shares domain w' := by
  cases hstep with
  | @enter t s port ht hport hfree =>
    refine h.moves _ _ ⟨rfl, rfl⟩ (fun t' _ hd => h.alone_of_free hfree hd) (by simp) (by simp)
      ⟨hport, ?_⟩ (by simp [ht])
    rw [PortVirtualizer.patchBind, PortVirtualizer.lookupReal]
    split <;> simp [*]
  | @bindAny t s real x ht hbinds =>
    have h' := h.opens (t := t) .app hbinds (by simp [ht]) (by simp [ht])
      (fun hne => (hne rfl).elim) trivial
    rw [← ht, Function.update_eq_self] at h'
    exact h'
  | @succeed t s port asked real x ht hbinds =>
    have hcall := h.calls t
    rw [ht] at hcall
    obtain ⟨hport, hasked⟩ := hcall
    refine h.opens _ hbinds (by simp [ht]) (by simp [ht]) (fun _ => rfl)
      ⟨hport, real, x, Function.update_self _ _ _, fun r hr => ?_⟩
    rw [hr, Option.getD_some] at hasked
    rw [hbinds.asked (hasked ▸ (h.ne_zero _ _ _ hr).2), hasked]
  | @fail t s port asked ht =>
    have hcall := h.calls t
    rw [ht] at hcall
    have h' := h.moves (t := t) (w.portVirt (domain t)) (.failed port) ⟨rfl, rfl⟩
      (fun t' hne hd => h.alone (by simp [ht]) hne hd)
      (by simp [h.lock, ht])
      (fun t' hlock => by
        by_contra hne
        obtain ⟨hd, hnot⟩ := (h.lock _ _).mp hlock
        exact hnot (h.alone (by simp [ht]) hne hd))
      hcall.1 (by simp [ht])
    rw [Function.update_eq_self] at h'
    exact h'
  | @register t s port pv ht hpost =>
    have hcall := h.calls t
    rw [ht] at hcall
    obtain ⟨-, real, x, hs, -⟩ := hcall
    rw [hs] at hpost
    obtain rfl := Option.some.inj hpost
    exact h.register ht hs
  | @giveUp t port ht =>
    exact h.moves _ _ ⟨rfl, rfl⟩ (fun t' hne hd => h.alone (by simp [ht]) hne hd) (by simp)
      (by simp) trivial (by simp [ht])
  | close hnot => exact h.close hnot

theorem PortInv.of_run (hrun : PortRun shares domain (.init α) w) : PortInv shares domain w := by
  induction hrun with
  | refl => exact .init
  | tail _ hstep ih => exact ih.step hstep

theorem PortInv.settled {a : BoundSocket α} (h : PortInv shares domain w)
    (hs : w.sockets s = some a) (ha : a.virt ≠ 0) (hfree : (w.portVirt a.domain).pvLock = none) :
    (w.portVirt a.domain).virtToReal a.virt = some a.real ∧
      ((w.portVirt a.domain).realToVirt a.real = some a.virt ∨ Shadowed shares w a) := by
  refine (h.registered s a hs ha).resolve_left ?_
  rintro ⟨t, hd, ht⟩
  rw [(h.lock a.domain t).mpr ⟨hd, by simp [ht]⟩] at hfree
  cases hfree

/-- A port that is mapped once is mapped for good. -/
theorem PortInv.mapped {d virt r : Nat} (h : PortInv shares domain w)
    (hstep : PortStep shares domain w w') (hr : (w.portVirt d).virtToReal virt = some r) :
    (w'.portVirt d).virtToReal virt = some r := by
  have hkeeps : ∀ {t : Nat} {pv : PortVirtualizer},
      pv.virtToReal = (w.portVirt (domain t)).virtToReal →
      (Function.update w.portVirt (domain t) pv d).virtToReal virt = some r := by
    intro t pv hpv
    by_cases hd : d = domain t
    · rw [hd, Function.update_self, hpv, ← hd]
      exact hr
    · rw [Function.update_of_ne hd]
      exact hr
  cases hstep with
  | enter _ _ _ _ => exact hkeeps rfl
  | bindAny _ _ => exact hr
  | succeed _ _ => exact hr
  | fail _ => exact hr
  | @register t s port pv ht hpost =>
    have hcall := h.calls t
    rw [ht] at hcall
    obtain ⟨-, real, x, hs, hone⟩ := hcall
    rw [hs] at hpost
    obtain rfl := Option.some.inj hpost
    by_cases hd : d = domain t
    · simp only [hd, Function.update_self]
      rw [hd] at hr
      exact PortVirtualizer.registerBind_mapped hone hr
    · simp only [Function.update_of_ne hd]
      exact hr
  | giveUp _ => exact hkeeps rfl
  | close _ => exact hr

/-- In every run, whatever is bound and closed in other domains and whatever ports the kernel
shares, at any time at which no bind of the domain is under way: a connect to the port of a
socket goes to where the socket is, and so does one to the port that the socket is told; that is
its own port, unless it is shadowed; and sockets of the domain with one port are at one port of
the machine, which the kernel lets them share. -/
theorem ports_virtualized (hrun : PortRun shares domain (.init α) w) :
    ∀ s a, w.sockets s = some a → a.virt ≠ 0 → (w.portVirt a.domain).pvLock = none →
      (w.portVirt a.domain).patchConnect a.virt = a.real ∧
      (w.portVirt a.domain).patchConnect ((w.portVirt a.domain).patchGetsockname a.real) =
        a.real ∧
      ((w.portVirt a.domain).patchGetsockname a.real = a.virt ∨ Shadowed shares w a) ∧
      ∀ s' b, w.sockets s' = some b → b.domain = a.domain → b.virt = a.virt →
        b.real = a.real ∧
          (s' = s ∨ shares b.endpoint a.endpoint ∨ shares a.endpoint b.endpoint) := by
  intro s a hs ha hfree
  have h := PortInv.of_run hrun
  obtain ⟨hreal, hvirt⟩ := h.settled hs ha hfree
  have hconnect : ∀ virt r, (w.portVirt a.domain).virtToReal virt = some r →
      (w.portVirt a.domain).patchConnect virt = r := by
    intro virt r hr
    rw [PortVirtualizer.patchConnect, PortVirtualizer.lookupReal, hr]
  have htold : ∀ virt, (w.portVirt a.domain).realToVirt a.real = some virt →
      (w.portVirt a.domain).patchGetsockname a.real = virt := by
    intro virt hv
    rw [PortVirtualizer.patchGetsockname, PortVirtualizer.lookupVirt, hv]
  refine ⟨hconnect _ _ hreal, ?_, hvirt.imp_left (htold _), fun s' b hs' hd hb => ?_⟩
  · obtain ⟨v, hv⟩ := h.known _ _ _ hreal
    rw [htold v hv, hconnect v _ (h.inverse _ _ _ hv)]
  · obtain ⟨hreal', -⟩ := h.settled hs' (hb ▸ ha) (hd ▸ hfree)
    rw [hd, hb, hreal] at hreal'
    have hsame := (Option.some.inj hreal').symm
    exact ⟨hsame, h.shared s' s b a hs' hs hsame⟩

theorem sockets_one {y : BoundSocket α} (s : Nat) {s' : Nat} {a : BoundSocket α}
    (h : Function.update (fun _ => none) s (some y) s' = some a) : a = y := by
  by_cases hs : s' = s
  · rw [hs, Function.update_self] at h
    exact (Option.some.inj h).symm
  · rw [Function.update_of_ne hs] at h
    cases h

/-- Port 80 of one protocol and port 53 of the other are at the same port of the machine. The
first socket is told the port of the second, which leads to where both are. -/
theorem ports_virtualized_shadowed : ∃ w : PortState Bool,
    PortRun (fun x y => x ≠ y) id (.init Bool) w ∧ w.sockets 0 = some ⟨0, 80, 1000, false⟩ ∧
    (w.portVirt 0).patchConnect 80 = 1000 ∧ (w.portVirt 0).patchGetsockname 1000 = 53 ∧
    (w.portVirt 0).patchConnect ((w.portVirt 0).patchGetsockname 1000) = 1000 := by
  have h₁ : PortRun (fun x y => x ≠ y) id (.init Bool) _ :=
    .single (.enter (t := 0) 0 rfl (by decide : 80 ≠ 0) rfl)
  have h₂ := h₁.tail (.succeed (t := 0) (x := false) rfl
    ⟨rfl, fun h => (h rfl).elim, (by decide : 1000 ≠ 0), fun _ _ h => by cases h⟩)
  have h₃ := h₂.tail (.register (t := 0) rfl rfl)
  have h₄ := h₃.tail (.enter (t := 0) 1 rfl (by decide : 53 ≠ 0) rfl)
  have h₅ := h₄.tail (.succeed (t := 0) (x := true) rfl
    ⟨rfl, fun h => (h rfl).elim, (by decide : 1000 ≠ 0),
      fun _ _ h _ => by rw [sockets_one 0 h]; decide⟩)
  have h₆ := h₅.tail (.register (t := 0) rfl rfl)
  obtain ⟨hconnect, htold, -⟩ := ports_virtualized h₆ 0 ⟨0, 80, 1000, false⟩ rfl (by decide) rfl
  exact ⟨_, h₆, rfl, hconnect, rfl, htold⟩

/-- The first bind to a port fixes where it is for good, whoever has that port of the machine
later: every later bind to it asks for the same port, and every socket of the domain that has
it is there. A connect goes there even when no socket of the domain is bound to it any more. -/
theorem ports_stay_mapped {d virt r : Nat} (hrun : PortRun shares domain (.init α) w)
    (hr : (w.portVirt d).virtToReal virt = some r) (hrun' : PortRun shares domain w w') :
    (w'.portVirt d).patchConnect virt = r ∧
    (∀ t s asked, domain t = d → w'.threads t = .binding s virt asked → asked = r ∧
      ∀ x real, KernelBinds shares w'.sockets s x asked real → real = r) ∧
    ∀ s a, w'.sockets s = some a → a.domain = d → a.virt = virt → a.real = r := by
  have hkeeps : PortInv shares domain w' ∧ (w'.portVirt d).virtToReal virt = some r := by
    induction hrun' with
    | refl => exact ⟨.of_run hrun, hr⟩
    | tail _ hstep ih => exact ⟨ih.1.step hstep, ih.1.mapped hstep ih.2⟩
  obtain ⟨h, hr'⟩ := hkeeps
  obtain ⟨hvirt, hr₀⟩ := h.ne_zero d virt r hr'
  refine ⟨?_, fun t s asked hd ht => ?_, fun s a hs hd hv => ?_⟩
  · rw [PortVirtualizer.patchConnect, PortVirtualizer.lookupReal, hr']
  · have hcall := h.calls t
    rw [ht, hd] at hcall
    obtain ⟨-, hasked⟩ := hcall
    rw [hr', Option.getD_some] at hasked
    rw [hasked]
    exact ⟨rfl, fun x real hbinds => hbinds.asked hr₀⟩
  · rcases h.registered s a hs (hv ▸ hvirt) with ⟨t, ht, hbound⟩ | ⟨hreal, -⟩
    · have hcall := h.calls t
      rw [hbound, ht] at hcall
      obtain ⟨-, real, x, hs', hone⟩ := hcall
      rw [hs] at hs'
      exact (congrArg BoundSocket.real (Option.some.inj hs')).trans
        (hone r (by rw [hd, hv, hr'])).symm
    · rw [hd, hv, hr'] at hreal
      exact (Option.some.inj hreal).symm

/-- A port whose socket is closed, and the port of the machine that it was at, which another
process gets by chance. -/
theorem ports_stay_mapped_closed : ∃ w : PortState Bool,
    PortRun (fun x y => x ≠ y) id (.init Bool) w ∧ w.sockets 0 = none ∧
    (w.sockets 1).map (·.real) = some 1000 ∧ (w.portVirt 0).patchConnect 80 = 1000 := by
  have h₁ : PortRun (fun x y => x ≠ y) id (.init Bool) _ :=
    .single (.enter (t := 0) 0 rfl (by decide : 80 ≠ 0) rfl)
  have h₂ := h₁.tail (.succeed (t := 0) (x := false) rfl
    ⟨rfl, fun h => (h rfl).elim, (by decide : 1000 ≠ 0), fun _ _ h => by cases h⟩)
  have h₃ := h₂.tail (.register (t := 0) rfl rfl)
  have hnext : ∀ {w w' : PortState Bool}, PortRun (fun x y => x ≠ y) id (.init Bool) w →
      PortStep (fun x y => x ≠ y) id w w' → PortStep (fun x y => x ≠ y) id w w' := fun _ h => h
  have hclose := hnext h₃ (.close (s := 0) fun t port h => by
    by_cases ht : t = 0
    · rw [ht] at h
      cases h
    · simp [PortState.init, ht] at h)
  have hany := hnext (h₃.tail hclose) (.bindAny (t := 1) (s := 1) (x := false) rfl
    ⟨rfl, fun h => (h rfl).elim, (by decide : 1000 ≠ 0), fun s a h => by
      by_cases hs : s = 0
      · rw [hs] at h
        cases h
      · simp [PortState.init, hs] at h⟩)
  have hrun' := (Relation.ReflTransGen.single hclose).tail hany
  exact ⟨_, h₃.trans hrun', rfl, rfl, (ports_stay_mapped h₃ rfl hrun').1⟩

end steps

end ZSim
