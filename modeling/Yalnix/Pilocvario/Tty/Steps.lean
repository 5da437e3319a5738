import Yalnix.Pilocvario.Tty.Model
/-!
# What one event does to a terminal's output

A write call that is given the processor sleeps behind a transmission in
progress, starts one of its own, or returns; a trap runs `write_alert`.
`step_cases` lists the events and the `run` lemmas say all each activation
does; the laws about output are read off these.
-/

namespace Yalnix

variable {Node : Type}

/-! ## `write_tty` -/

section Functions

variable {procs : ProcTable Node} {out : Ttyio Node} {f : TtyFrame}

/-- A writer that finds a transmission in progress queues up. -/
theorem writeTty_queues (h : f.total < f.len) (ht : out.transmitting ≠ 0) :
    writeTty procs out f = (runNextReady procs,
      { out with blocked := out.blocked ++ [procs.running] }, none, .blocked f) := by
  simp only [writeTty, if_pos h, if_pos ht, block_fst, block_snd]

/-- A writer that finds none starts one, and sleeps at the head. -/
theorem writeTty_transmits (h : f.total < f.len) (ht : out.transmitting = 0) :
    writeTty procs out f = (runNextReady procs,
      { buffer := (writeBuffer (resetBuffer out.buffer) f.bytes f.len).1
        transmitting := 1
        blocked := procs.running :: out.blocked },
      some (bytesAt (writeBuffer (resetBuffer out.buffer) f.bytes f.len).1.buffered
        (min out.buffer.size f.len).toNat),
      .blocked { f with
        total := f.total + min out.buffer.size f.len
        src := f.src + min out.buffer.size f.len }) := by
  have hw := Buffer.writeBuffer_written (resetBuffer out.buffer) f.bytes f.len
  rw [Buffer.resetBuffer_room] at hw
  simp only [writeTty, if_pos h, if_neg (not_not.mpr ht), hBlock_fst, hBlock_snd, hw]

/-- A writer that is done wakes the head of the queue, whoever that is. -/
theorem writeTty_returns (h : f.len ≤ f.total) :
    writeTty procs out f = ((unblockHead procs out.blocked).1,
      { out with blocked := (unblockHead procs out.blocked).2 }, none, .returned f.total) := by
  simp only [writeTty, if_neg (not_lt.mpr h)]

end Functions

namespace OutState

variable [DecidableEq Node]
variable {s t : OutState Node} {p : Node} {e : OutEvent Node} {f : TtyFrame}

/-! ## One event -/

/-- The chunk a call hands to the hardware. -/
def chunk (out : Ttyio Node) (f : TtyFrame) : List Byte :=
  bytesAt (writeBuffer (resetBuffer out.buffer) f.bytes f.len).1.buffered
    (min out.buffer.size f.len).toNat

/-- **A call queues up.** -/
theorem run_queues (h : f.total < f.len) (ht : s.out.transmitting ≠ 0) :
    s.run p f =
      { s with
        procs := runNextReady (dispatch s.procs p)
        out := { s.out with blocked := s.out.blocked ++ [p] }
        call := Function.update s.call p (some f) } := by
  simp only [run, writeTty_queues h ht, dispatch_running]

/-- **A call transmits.** -/
theorem run_transmits (h : f.total < f.len) (ht : s.out.transmitting = 0) :
    s.run p f =
      { s with
        procs := runNextReady (dispatch s.procs p)
        out :=
          { buffer := (writeBuffer (resetBuffer s.out.buffer) f.bytes f.len).1
            transmitting := 1
            blocked := p :: s.out.blocked }
        call := Function.update s.call p (some { f with
          total := f.total + min s.out.buffer.size f.len
          src := f.src + min s.out.buffer.size f.len })
        pending := s.pending ++ [p]
        sent := Function.update s.sent p (s.sent p ++ chunk s.out f)
        touched := Function.update s.touched p (s.touched p ++
          bytesAt (fun i => f.src + i) (min s.out.buffer.size f.len).toNat) } := by
  simp only [run, writeTty_transmits h ht, dispatch_running, chunk, add_sub_cancel_left]

/-- **A call returns.** -/
theorem run_returns (h : f.len ≤ f.total) :
    s.run p f =
      { s with
        procs := (unblockHead (dispatch s.procs p) s.out.blocked).1
        out := { s.out with blocked := (unblockHead (dispatch s.procs p) s.out.blocked).2 }
        call := Function.update s.call p none
        sent := Function.update s.sent p []
        touched := Function.update s.touched p []
        writes := s.writes ++ [⟨f.mem, f.len, s.sent p, s.touched p, f.total⟩]
        early := if p ∈ s.pending then s.early ++ [p] else s.early } := by
  simp only [run, writeTty_returns h]

/-- **What an event is**: a process that was awake ran, or the hardware
trapped. -/
theorem step_cases (h : s.step e = some t) :
    (∃ p f, s.active e = some (p, f) ∧ p ∉ s.out.blocked ∧ t = s.run p f) ∨
      (e = .trap ∧ s.pending ≠ [] ∧ t = { s.alert with pending := s.pending.tail }) ∨
      (e = .strayTrap ∧ t = s.alert) := by
  unfold step at h
  split at h
  · rename_i p f ha
    rw [Option.ite_none_left_eq_some, Option.some.injEq] at h
    exact Or.inl ⟨p, f, ha, h.1, h.2.symm⟩
  · rw [Option.ite_none_left_eq_some, Option.some.injEq] at h
    exact Or.inr (Or.inl ⟨rfl, h.1, h.2.symm⟩)
  · exact Or.inr (Or.inr ⟨rfl, (Option.some.inj h).symm⟩)
  · cases h

end OutState

end Yalnix
