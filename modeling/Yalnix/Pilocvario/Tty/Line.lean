import Yalnix.Pilocvario.Tty.Asleep
/-!
# The line of a terminal

The hardware reads a transmission out of the block `buffered` points at
until its trap, while writers are woken, find the line busy and go back to
sleep, or return. The flag `transmitting` alone keeps them off the block:
no call resets or fills the buffer while it is set, and only the trap
clears it (`line_law`).
-/

namespace Yalnix

variable {Node : Type}

namespace OutState

/-- **The flag counts the transmissions outstanding**, of which there is at
most one. -/
def LineCounted (s : OutState Node) : Prop :=
  s.out.transmitting = s.pending.length ∧ s.pending.length ≤ 1

variable {s t u : OutState Node} {e : OutEvent Node} {p : Node} {f : TtyFrame}

theorem lineCounted_init [Devices] (procs : ProcTable Node) : (init procs).LineCounted :=
  ⟨rfl, Nat.zero_le 1⟩

theorem LineCounted.pending_nil (hs : s.LineCounted) (h : s.out.transmitting = 0) :
    s.pending = [] := by
  have hlen := hs.1
  rw [h] at hlen
  exact List.eq_nil_of_length_eq_zero (by omega)

variable [DecidableEq Node]

/-- What an event hands to `TtyTransmit`, where it calls it. -/
def handed (s : OutState Node) (e : OutEvent Node) : Option (List Byte) :=
  match s.active e with
  | some (p, f) =>
    if p ∈ s.out.blocked then none else (writeTty (dispatch s.procs p) s.out f).2.2.1
  | none => none

/-- **`TtyTransmit` is called on a line with nothing outstanding.** -/
def TransmitsAlone (s : OutState Node) (e : OutEvent Node) : Prop :=
  s.handed e ≠ none → s.pending = []

/-- **The hardware still owes the trap for `chunk`**, and the block it reads
starts with `chunk`. -/
def Holds (chunk : List Byte) (s : OutState Node) : Prop :=
  s.pending ≠ [] ∧ bytesAt s.out.buffer.buffered chunk.length = chunk

/-- **Each chunk a run hands over stays in the buffer** from the call of
`TtyTransmit` to the next trap. -/
def ChunksHeld (s : OutState Node) (es : List (OutEvent Node)) : Prop :=
  ∀ before e during after u chunk t, es = before ++ e :: (during ++ after) →
    Run.exec step s before = some u → u.handed e = some chunk → u.step e = some t →
    (∀ e' ∈ during, e' ≠ .trap) → Run.Throughout step (Holds chunk) t during

/-! ## One event -/

/-- **An event that hands a chunk over** is a call that is not done and
finds the line free. -/
theorem handed_cases {chunk : List Byte} (hc : s.handed e = some chunk) :
    ∃ p f, s.step e = some (s.run p f) ∧ f.total < f.len ∧ s.out.transmitting = 0 ∧
      chunk = OutState.chunk s.out f := by
  unfold handed at hc
  split at hc
  · rename_i p f ha
    rw [Option.ite_none_left_eq_some] at hc
    obtain ⟨hp, hc⟩ := hc
    rcases lt_or_ge f.total f.len with hlt | hge
    · by_cases ht : s.out.transmitting = 0
      · rw [writeTty_transmits hlt ht, Option.some.injEq] at hc
        refine ⟨p, f, ?_, hlt, ht, hc.symm⟩
        simp only [step, ha, if_neg hp]
      · rw [writeTty_queues hlt ht] at hc
        cases hc
    · rw [writeTty_returns hge] at hc
      cases hc
  · cases hc

/-- It leaves the chunk at the front of the block. -/
theorem holds_of_handed {chunk : List Byte} (hc : s.handed e = some chunk)
    (h : s.step e = some t) : t.Holds chunk := by
  obtain ⟨p, f, hstep, hlt, ht, rfl⟩ := handed_cases hc
  obtain rfl : s.run p f = t := Option.some.inj (hstep.symm.trans h)
  rw [run_transmits hlt ht]
  refine ⟨by simp, ?_⟩
  rw [OutState.chunk, length_bytesAt]

/-- **The count is kept by every event.** -/
theorem lineCounted_step (hs : s.LineCounted) (hd : Accounted e) (h : s.step e = some t) :
    t.LineCounted := by
  rcases step_cases h with ⟨p, f, -, -, rfl⟩ | ⟨-, hne, rfl⟩ | ⟨rfl, -⟩
  · rcases lt_or_ge f.total f.len with hlt | hge
    · by_cases ht : s.out.transmitting = 0
      · rw [run_transmits hlt ht, LineCounted, hs.pending_nil ht]
        exact ⟨rfl, le_rfl⟩
      · rw [run_queues hlt ht]
        exact hs
    · rw [run_returns hge]
      exact hs
  · -- the trap answers the only transmission there is
    have hone := hs.2
    have hlen : s.pending.tail.length = 0 := by
      rw [List.length_tail]
      omega
    exact ⟨by simp [alert, writeAlert, hlen], by simp [hlen]⟩
  · exact hd.elim

/-- **Short of the trap nobody touches what the hardware reads.** -/
theorem holds_step {chunk : List Byte} (hs : s.LineCounted) (hh : s.Holds chunk)
    (hd : Accounted e) (htrap : e ≠ .trap) (h : s.step e = some t) : t.Holds chunk := by
  have hbusy : s.out.transmitting ≠ 0 := fun h0 => hh.1 (hs.pending_nil h0)
  rcases step_cases h with ⟨p, f, -, -, rfl⟩ | ⟨rfl, -, -⟩ | ⟨rfl, -⟩
  · -- a call finds the flag set: it queues up, or has nothing more to write
    rcases lt_or_ge f.total f.len with hlt | hge
    · rw [run_queues hlt hbusy]
      exact hh
    · rw [run_returns hge]
      exact hh
  · exact absurd rfl htrap
  · exact hd.elim

/-! ## Runs -/

/-- A chunk is held through a run without traps. -/
theorem holds_throughout {chunk : List Byte} {es : List (OutEvent Node)}
    (hes : ∀ e ∈ es, Accounted e) (htrap : ∀ e ∈ es, e ≠ .trap) (hs : s.LineCounted)
    (hh : s.Holds chunk) : Run.Throughout step (Holds chunk) s es := by
  have hboth : Run.Throughout step (fun v => v.LineCounted ∧ v.Holds chunk) s es :=
    Run.throughout_of_step (fun v e he w hv h =>
      ⟨lineCounted_step hv.1 (hes e he) h, holds_step hv.1 hv.2 (hes e he) (htrap e he) h⟩)
      ⟨hs, hh⟩
  exact hboth.mono fun _ hv => hv.2

/-- **One transmission at a time, out of a buffer that stays put**, for any
number of processes, any lengths and any interleaving with the traps the
transmissions cause. -/
theorem line_law [Devices] {procs : ProcTable Node} {es : List (OutEvent Node)}
    (hes : ∀ e ∈ es, Accounted e) :
    Run.Throughout step LineCounted (init procs) es ∧
      Run.Along step TransmitsAlone (init procs) es ∧ ChunksHeld (init procs) es := by
  have hcount : Run.Throughout step LineCounted (init procs) es :=
    Run.throughout_of_step (fun _ e he _ hs h => lineCounted_step hs (hes e he) h)
      (lineCounted_init procs)
  refine ⟨hcount, ?_, ?_⟩
  · refine hcount.along fun s e _ hs hne => ?_
    obtain ⟨chunk, hc⟩ := Option.ne_none_iff_exists'.mp hne
    obtain ⟨-, -, -, -, ht, -⟩ := handed_cases hc
    exact hs.pending_nil ht
  · intro before e during after u chunk t heq hbefore hc hstep htrap
    subst heq
    have hu : u.LineCounted := Run.inv_of_exec (fun _ _ _ hs hd h => lineCounted_step hs hd h)
      (fun e' he' => hes e' (List.mem_append_left _ he')) (lineCounted_init procs) hbefore
    have hrest : ∀ e' ∈ e :: (during ++ after), Accounted e' :=
      fun e' he' => hes e' (List.mem_append_right _ he')
    refine holds_throughout (fun e' he' => hrest e' ?_) htrap
      (lineCounted_step hu (hrest e List.mem_cons_self) hstep) (holds_of_handed hc hstep)
    exact List.mem_cons_of_mem _ (List.mem_append_left _ he')

/-- A process transmits, another queues behind it, and the trap wakes the
first. -/
theorem line_law_queued :
    let idle : OutState ℕ := @init ℕ yalnixDevices ⟨1, [2], [], [], [], 0⟩
    let es : List (OutEvent ℕ) := [.write 1 (fun _ => 7) 1, .write 2 (fun _ => 8) 3, .trap]
    (Run.exec step idle es).map (fun s => (s.procs.ready, s.out.blocked)) = some ([1], [2]) ∧
      Run.Throughout step LineCounted idle es ∧ Run.Along step TransmitsAlone idle es ∧
      ChunksHeld idle es := by
  intro idle es
  have hruns : (Run.exec step idle es).map (fun s => (s.procs.ready, s.out.blocked)) =
      some ([1], [2]) := by
    decide +kernel
  exact ⟨hruns, @line_law ℕ _ yalnixDevices _ _ (by simp [es, Accounted])⟩

end OutState

end Yalnix
