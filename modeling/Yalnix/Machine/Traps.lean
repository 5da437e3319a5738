import Yalnix.Machine.Handlers
/-!
# Whose context is restored

In user mode only the process that is running can trap, and between a
handler's `save_uc` and its `restore_uc` any number of others may have had
the processor. `contexts_never_mix` says that everybody gets their own back,
with the result of their own call.
-/

namespace Yalnix

variable {Node Addr : Type} [DecidableEq Node] [Paging] [Devices] [DecidableEq Addr]

/-! ## A handler that is left -/

/-- **A process switched out** in the handler of a trap of its own, with its
call as it left it. -/
structure Halted (m : Machine Node Addr) (n : Node) (w : Pending Node) (ent : Entry Node Addr)
    (e : Event Node Addr) (a : Activation Node Addr) (t : Machine Node Addr) : Prop where
  origin : ent.origin = .own (.event e)
  notExec : ¬ e.IsExec
  adds : e.adds = w.adds
  last : ent.ran.head? = some a
  handled : Handled n e ent.ran
  step : a.machine.step a.event = some t
  ending : a.machine.ending a.event = some .runNext
  pending : a.event.pending = w
  call : m.callOf n = t.callOf n

/-- What a process that is switched out here has saved, and why. -/
def Pending.Fits (m : Machine Node Addr) (n : Node) (ent : Entry Node Addr) :
    Pending Node → Prop
  | .forked parent _ => ent.origin = .child ∧ n ≠ parent
  | .boot => ent.origin = .boot
  | w => ∃ e a t, Halted m n w ent e a t

omit [DecidableEq Node] [Paging] [Devices] [DecidableEq Addr] in
theorem Event.pending_cases (e : Event Node Addr) :
    (e.pending : Pending Node) = .inside ∨ (e.pending : Pending Node) = .delay ∨
      (e.pending : Pending Node) = .preempted := by
  unfold Event.pending
  split <;> simp

variable {m t u : Machine Node Addr} {e e₀ : Event Node Addr} {uc : UserContext} {n : Node}
  {w : Pending Node} {ent : Entry Node Addr} {a : Activation Node Addr} {r : Option ℤ} {pid : ℤ}

theorem Halted.fits (h : Halted m n w ent e a t) : w.Fits m n ent := by
  obtain rfl := h.pending
  rcases a.event.pending_cases with hw | hw | hw <;>
    · rw [hw] at h ⊢
      exact ⟨e, a, t, h⟩

/-- Whom nobody touched stays where it is. -/
theorem Pending.Fits.congr (hcall : t.callOf n = m.callOf n) (h : w.Fits m n ent) :
    w.Fits t n ent := by
  cases w with
  | forked parent pid => exact h
  | boot => exact h
  | _ =>
    obtain ⟨e, a, u, hhalted⟩ := h
    exact ⟨e, a, u, { hhalted with call := hcall.trans hhalted.call }⟩

/-- An own call is answered by its result, where it has one to add. -/
theorem Entry.answered_own (ent : Entry Node Addr) {trap : Trap Node Addr}
    (horigin : ent.origin = .own trap)
    (hresult : trap.Result n pid ent.ran r)
    (hvalue : (trap.adds = true → ∃ v, r = some v) ∧ (trap.adds = false → r = none)) :
    ent.Answered n pid r (ent.uc.returned r) := by
  unfold Entry.Answered
  rw [horigin]
  refine ⟨hresult, Or.inr ?_⟩
  cases hadds : trap.adds with
  | true =>
    obtain ⟨v, rfl⟩ := hvalue.1 hadds
    rw [if_pos rfl]
    exact ⟨v, rfl, rfl⟩
  | false =>
    obtain rfl := hvalue.2 hadds
    rw [if_neg Bool.false_ne_true]
    exact ⟨rfl, rfl⟩

/-- **Where a handler goes on after its `run_next`** decides what it has to
add. -/
theorem Halted.answered (h : Halted m n w ent e a t) (hgives : a.Gives r)
    (hvalue : (w.adds = true → ∃ v, r = some v) ∧ (w.adds = false → r = none)) :
    ent.Answered n pid r (ent.uc.returned r) := by
  rw [← h.adds] at hvalue
  exact Entry.answered_own _ h.origin ⟨h.handled, a, h.last, hgives⟩ hvalue

/-- **Whoever has the processor again** goes on with the call it left. -/
theorem Halted.back (h : Halted m n w ent e a t) (hrun : m.kernel.procs.running = n) :
    Handled n e (⟨m, .resume⟩ :: ent.ran) := by
  obtain ⟨before, hran⟩ := List.head?_eq_some_iff.mp h.last
  have hhandled := h.handled
  rw [hran] at hhandled ⊢
  exact .back hhandled h.step h.ending h.call hrun

namespace Handlers

variable {s s' : Handlers Node Addr} {c : Proc Node Addr}

/-- The process that is executed goes on with this event, inside the handler
of a trap of its own: it has just entered it, or comes back. -/
structure Inside (s : Handlers Node Addr) (e : Event Node Addr) (ent : Entry Node Addr)
    (e₀ : Event Node Addr) : Prop where
  origin : ent.origin = .own (.event e₀)
  handled : Handled s.context e₀ (⟨s.machine, e⟩ :: ent.ran)
  entered : e = e₀ ∨ e = .resume ∧ e₀.adds = true ∧ ¬ e₀.IsExec

/-- What a handler that returns restores, where nobody was born. -/
theorem Inside.answered (h : s.Inside e ent e₀) (hend : s.machine.ending e = some (.returns r))
    (huc : ¬ e.IsExec → uc = ent.uc) :
    (s.ranOn e ent).Answered s.context pid r (uc.returned r) := by
  have hresult : (Trap.event e₀).Result s.context pid (s.ranOn e ent).ran r := by
    refine ⟨h.handled, _, rfl, ?_⟩
    unfold Activation.Gives
    dsimp only
    rw [hend]
  obtain ⟨hadds, hnone⟩ := Machine.ending_returns hend
  rcases h.entered with rfl | ⟨rfl, hadds₀, -⟩
  · by_cases hexec : e.IsExec
    · unfold Entry.Answered
      rw [show (s.ranOn e ent).origin = _ from h.origin]
      exact ⟨hresult, Or.inl hexec⟩
    · rw [huc hexec]
      exact Entry.answered_own (s.ranOn e ent) h.origin hresult
        ⟨fun hyes => hadds hyes hexec, hnone⟩
  · rw [huc id]
    refine Entry.answered_own (s.ranOn .resume ent) h.origin hresult
      ⟨fun _ => hadds rfl id, fun hno => ?_⟩
    rw [show e₀.adds = false from hno] at hadds₀
    cases hadds₀

/-- A process with the context of its entry. -/
def Saved (s : Handlers Node Addr) (n : Node) (w : Pending Node) (c : Proc Node Addr) : Prop :=
  c.uc = (s.entry c.serial).uc ∧ w.Fits s.machine n (s.entry c.serial)

/-- **Whoever is not executed** is inside a handler, has its context in its
pcb and its call as it left it, and everything restored so far was its
owner's. -/
structure Others (s : Handlers Node Addr) : Prop where
  lawful : s.machine.Lawful
  saved : ∀ n, n ≠ s.context → ∀ w c, s.pending n = some w → s.machine.kernel.proc n = some c →
    s.machine.kernel.alive n = true → s.Saved n w c
  inside : ∀ n, n ≠ s.context → s.machine.kernel.alive n = true → (s.pending n).isSome
  own : ∀ r ∈ s.restored, r.Own

theorem Others.sound (h : s.Others) : s.machine.Sound := h.lawful.sound

/-- The process that is executed has what it saved, and goes on inside its
handler. -/
def GoesOn (s : Handlers Node Addr) (e : Event Node Addr) : Prop :=
  ∀ c, s.machine.kernel.curr = some c → c.uc = (s.entry c.serial).uc ∧
    ∃ e₀, s.Inside e (s.entry c.serial) e₀

section Boot

variable {b : Boot Node Addr} {es : List (TrapEvent Node Addr)}

end Boot

end Handlers

end Yalnix
