import Yalnix.Pilocvario.Tty.Steps
/-!
# Who a terminal's transmission belongs to

A writer that transmits puts itself at the head of the queue, so that
`write_alert` wakes it. But the head is woken from a second place: a writer
that leaves its loop wakes it too, to see whether the next one wants to
write, and does not ask whether a transmission is in progress. A call that
leaves its loop during a transmission is what breaks the law, and nothing
else does (`asleep_iff`).
-/

namespace Yalnix

variable {Node : Type}

namespace OutState

/-- **Transmitters stay asleep**: each process whose transmission is
unanswered is at the head of the queue and not ready, and no call has
returned before its trap. -/
def TransmittersAsleep (s : OutState Node) : Prop :=
  (∀ p ∈ s.pending, s.out.blocked.head? = some p ∧ p ∉ s.procs.ready) ∧ s.early = []

/-- **A call that leaves its loop** finds no transmission in progress. -/
def LeavesQuiet (s : OutState Node) (e : OutEvent Node) : Prop :=
  match s.active e with
  | some (_, f) => f.len ≤ f.total → s.out.transmitting = 0
  | none => True

/-- Whether a call leaves quietly can be looked up. -/
instance decidableLeavesQuiet (s : OutState Node) (e : OutEvent Node) :
    Decidable (s.LeavesQuiet e) :=
  match ha : s.active e with
  | some (_, f) =>
    decidable_of_iff (f.len ≤ f.total → s.out.transmitting = 0) (by simp only [LeavesQuiet, ha])
  | none => isTrue (by simp only [LeavesQuiet, ha])

/-- **One transmission at a time**: `transmitting` counts the unanswered
ones. -/
def OneTransmission (s : OutState Node) : Prop :=
  (s.out.transmitting = 0 ∧ s.pending = []) ∨ (s.out.transmitting ≠ 0 ∧ ∃ p, s.pending = [p])

/-- One trap for each transmission. -/
def Accounted : OutEvent Node → Prop
  | .strayTrap => False
  | _ => True

variable {s t : OutState Node} {e : OutEvent Node} {p : Node}

theorem oneTransmission_init [Devices] (procs : ProcTable Node) :
    (init procs).OneTransmission := Or.inl ⟨rfl, rfl⟩

theorem transmittersAsleep_init [Devices] (procs : ProcTable Node) :
    (init procs).TransmittersAsleep :=
  ⟨fun _ h => absurd h List.not_mem_nil, rfl⟩

theorem OneTransmission.pending_nil (hs : s.OneTransmission) (h : s.out.transmitting = 0) :
    s.pending = [] := by
  rcases hs with ⟨-, hnil⟩ | ⟨hne, -⟩
  · exact hnil
  · exact absurd h hne

theorem OneTransmission.pending_one (hs : s.OneTransmission) (h : s.out.transmitting ≠ 0) :
    ∃ p, s.pending = [p] := by
  rcases hs with ⟨hz, -⟩ | ⟨-, hone⟩
  · exact absurd hz h
  · exact hone

variable [DecidableEq Node]

/-- **The count of transmissions is kept by every event.** -/
theorem oneTransmission_step (hs : s.OneTransmission) (hd : Accounted e)
    (h : s.step e = some t) : t.OneTransmission := by
  rcases step_cases h with ⟨p, f, -, -, rfl⟩ | ⟨-, hne, rfl⟩ | ⟨rfl, -⟩
  · rcases lt_or_ge f.total f.len with hlt | hge
    · by_cases ht : s.out.transmitting = 0
      · rw [run_transmits hlt ht]
        refine Or.inr ⟨one_ne_zero, p, ?_⟩
        dsimp only
        rw [hs.pending_nil ht, List.nil_append]
      · rw [run_queues hlt ht]
        exact hs
    · rw [run_returns hge]
      exact hs
  · -- the trap answers the only transmission there is
    rcases hs with ⟨-, hnil⟩ | ⟨-, q, hq⟩
    · exact absurd hnil hne
    · refine Or.inl ⟨rfl, ?_⟩
      dsimp only
      rw [hq, List.tail_cons]
  · exact hd.elim

/-- **One event wakes a transmitter exactly where it is a call leaving its
loop during a transmission.** -/
theorem asleep_step_iff (hs : s.OneTransmission) (hasleep : s.TransmittersAsleep)
    (hd : Accounted e) (h : s.step e = some t) : t.TransmittersAsleep ↔ s.LeavesQuiet e := by
  obtain ⟨hpending, hearly⟩ := hasleep
  rcases step_cases h with ⟨p, f, ha, hp, rfl⟩ | ⟨rfl, hne, rfl⟩ | ⟨rfl, -⟩
  · have hquiet : s.LeavesQuiet e ↔ (f.len ≤ f.total → s.out.transmitting = 0) := by
      simp only [LeavesQuiet, ha]
    rw [hquiet]
    have hsub : ∀ q, q ∈ (runNextReady (dispatch s.procs p)).ready → q ∈ s.procs.ready ∧ q ≠ p :=
      fun q hq => mem_dispatch_ready.mp (mem_of_mem_runNextReady hq)
    rcases lt_or_ge f.total f.len with hlt | hge
    · have hstays : ¬ f.len ≤ f.total := not_le.mpr hlt
      simp only [hstays, false_implies, iff_true]
      by_cases ht : s.out.transmitting = 0
      · -- the process transmits: it alone is pending, and heads the queue
        rw [run_transmits hlt ht]
        refine ⟨fun q hq => ?_, hearly⟩
        dsimp only at hq ⊢
        rw [hs.pending_nil ht, List.nil_append, List.mem_singleton] at hq
        exact ⟨by rw [hq, List.head?_cons], fun hr => (hsub q hr).2 hq⟩
      · -- the process queues up behind the transmitter
        rw [run_queues hlt ht]
        refine ⟨fun q hq => ?_, hearly⟩
        obtain ⟨hhead, hready⟩ := hpending q hq
        refine ⟨?_, fun hr => hready (hsub q hr).1⟩
        dsimp only
        rw [List.head?_append, hhead, Option.some_or]
    · rw [run_returns hge]
      constructor
      · rintro ⟨hstill, -⟩ -
        -- a transmitter would be the head that the call wakes
        by_contra ht
        obtain ⟨q, hq⟩ := hs.pending_one ht
        have hmem : q ∈ s.pending := hq ▸ List.mem_singleton_self q
        obtain ⟨rest, hblocked⟩ := List.head?_eq_some_iff.mp (hpending q hmem).1
        refine (hstill q hmem).2 ?_
        dsimp only
        rw [hblocked, unblockHead, ready_ready]
        exact List.mem_append_right _ (List.mem_singleton_self q)
      · intro ht
        have hnil := hs.pending_nil (ht hge)
        refine ⟨fun q hq => ?_, ?_⟩
        · dsimp only at hq
          rw [hnil] at hq
          exact absurd hq List.not_mem_nil
        · dsimp only
          rw [hnil, if_neg List.not_mem_nil, hearly]
  · -- after the trap nothing is pending
    refine ⟨fun _ => trivial, fun _ => ⟨fun q hq => ?_, hearly⟩⟩
    rcases hs with ⟨-, hnil⟩ | ⟨-, r, hr⟩
    · exact absurd hnil hne
    · dsimp only at hq
      rw [hr, List.tail_cons] at hq
      exact absurd hq List.not_mem_nil
  · exact hd.elim

/-- **Transmitters stay asleep in exactly the runs whose calls leave their
loops between transmissions**, for any number of processes, any lengths and
any interleaving with the traps the transmissions cause. -/
theorem asleep_iff [Devices] {procs : ProcTable Node} {es : List (OutEvent Node)}
    (hes : ∀ e ∈ es, Accounted e) :
    Run.Throughout step TransmittersAsleep (init procs) es ↔
      Run.Along step LeavesQuiet (init procs) es :=
  Run.throughout_iff_along (fun _ _ _ hs hd h => oneTransmission_step hs hd h)
    (fun _ _ _ hs hp hd h => asleep_step_iff hs hp hd h) hes (oneTransmission_init procs)
    (transmittersAsleep_init procs)

/-- A writer that returns after its second trap leaves a quiet terminal to the
one that has queued up behind it. -/
theorem asleep_queued :
    let start := @init ℕ yalnixDevices ⟨1, [2], [], [], [], 0⟩
    let es : List (OutEvent ℕ) :=
      [.write 1 (fun _ => 7) 1025, .write 2 (fun _ => 9) 3, .trap, .resume 1, .trap, .resume 1,
        .resume 2, .trap, .resume 2]
    (Run.exec step start es).map (fun s => (s.pending, s.out.blocked)) = some ([], []) ∧
      Run.Throughout step TransmittersAsleep start es := by
  intro start es
  have hruns : (Run.exec step start es).map (fun s => (s.pending, s.out.blocked)) =
      some ([], []) := by
    decide +kernel
  have hquiet : Run.Along step LeavesQuiet start es := by
    decide +kernel
  exact ⟨hruns, (@asleep_iff ℕ _ yalnixDevices _ _ (by simp [es, Accounted])).mpr hquiet⟩

/-- A process transmits one byte, and another writes nothing meanwhile. -/
def woken : List (OutEvent ℕ) := [.write 1 (fun _ => 7) 1, .write 2 (fun _ => 7) 0]

/-- **The law fails**: after `woken` the first process is ready, its
transmission unanswered. -/
theorem not_asleep :
    ¬ ∀ (D : Devices) (procs : ProcTable ℕ) (es : List (OutEvent ℕ)),
      (∀ e ∈ es, Accounted e) →
        Run.Throughout step TransmittersAsleep (@init ℕ D procs) es := by
  intro h
  have hes : ∀ e ∈ woken, Accounted e := by simp [woken, Accounted]
  have hready : (Run.exec step (@init ℕ yalnixDevices ⟨1, [2], [], [], [], 0⟩) woken).map
      (fun s => (s.pending, s.procs.ready)) = some ([1], [1]) := by
    decide +kernel
  obtain ⟨s, hrun, hs⟩ := Option.map_eq_some_iff.mp hready
  simp only [Prod.mk.injEq] at hs
  have hlast := (h yalnixDevices _ woken hes).final hrun
  exact (hlast.1 1 (by rw [hs.1]; decide)).2 (by rw [hs.2]; decide)

end OutState

end Yalnix
