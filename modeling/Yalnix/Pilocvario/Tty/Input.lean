import Yalnix.Pilocvario.Tty.Model
/-!
# The input of a terminal

The machine a terminal's input makes with its readers and with the
hardware: `receive` stores of each line what fits, and wakes every reader
if that is anything at all; a reader takes what there is, or sleeps. The
history kept beside it is the part of each line that fitted, and the bytes
completed reads returned.
-/

namespace Yalnix

variable {Node : Type}

/-! ## The machine -/

/-- The state of a terminal's input and of the calls in progress, each with
the length it asked for; the last two fields are history. -/
structure InState (Node : Type) where
  procs : ProcTable Node
  inp : Ttyio Node
  call : Node → Option ℤ
  /-- Of each line received, the bytes the buffer had space for. -/
  accepted : List Byte
  /-- The bytes of all completed reads, in completion order. -/
  delivered : List Byte

/-- `receive` is the trap for a line of `read` bytes, which `TtyReceive` puts
at `landing`; `read` and `resume` give the processor to a process. -/
inductive InEvent (Node : Type) where
  | receive (landing : ℤ → Byte) (read : ℤ)
  | read (p : Node) (len : ℤ)
  | resume (p : Node)

/-- Lines are as long as the landing buffer at most, and reads ask for
something. -/
def InEvent.InDomain [Devices] : InEvent Node → Prop
  | .receive _ n => 0 ≤ n ∧ n ≤ Devices.terminalMaxLine
  | .read _ len => 0 < len
  | .resume _ => True

/-- An empty terminal, no process inside a call on it. -/
def InState.init [Devices] (procs : ProcTable Node) : InState Node where
  procs := procs
  inp := newTtyio
  call := fun _ => none
  accepted := []
  delivered := []

namespace InState

/-- The receive trap. -/
def trap (s : InState Node) (landing : ℤ → Byte) (read : ℤ) : InState Node :=
  let (procs, inp) := receive s.procs s.inp landing read
  { s with
    procs := procs
    inp := inp
    accepted := s.accepted ++ (bytesAt landing read.toNat).take s.inp.buffer.room.toNat }

variable [DecidableEq Node]

/-- An activation of a read call. -/
def run (s : InState Node) (p : Node) (len : ℤ) : InState Node :=
  match readTty (dispatch s.procs p) s.inp len with
  | (procs, inp, _, .blocked len') =>
    { s with
      procs := procs
      inp := inp
      call := Function.update s.call p (some len') }
  | (procs, inp, dst, .returned _) =>
    { s with
      procs := procs
      inp := inp
      call := Function.update s.call p none
      delivered := s.delivered ++ dst }

/-- **One event.** A process asleep on the terminal is not given the
processor. -/
def step (s : InState Node) : InEvent Node → Option (InState Node)
  | .receive landing read => some (s.trap landing read)
  | .read p len =>
    if p ∈ s.inp.blocked ∨ (s.call p).isSome then none else some (s.run p len)
  | .resume p => if p ∈ s.inp.blocked then none else (s.call p).map (s.run p)

/-! ## One event -/

variable {s t : InState Node} {e : InEvent Node} {p : Node} {len : ℤ}

/-- **A reader that got nothing sleeps.** -/
theorem run_blocked (h : min s.inp.buffer.filled len = 0) :
    s.run p len =
      { s with
        procs := runNextReady (dispatch s.procs p)
        inp := { s.inp with
          buffer := (readBuffer s.inp.buffer len).1
          blocked := s.inp.blocked ++ [p] }
        call := Function.update s.call p (some len) } := by
  simp only [run, readTty, Buffer.readBuffer_read, if_pos h, block_fst, block_snd,
    dispatch_running]

/-- **A reader that got something returns.** -/
theorem run_returned (h : min s.inp.buffer.filled len ≠ 0) :
    s.run p len =
      { s with
        procs := dispatch s.procs p
        inp := { s.inp with buffer := (readBuffer s.inp.buffer len).1 }
        call := Function.update s.call p none
        delivered := s.delivered ++ (readBuffer s.inp.buffer len).2.1 } := by
  simp only [run, readTty, Buffer.readBuffer_read, if_neg h]

omit [DecidableEq Node] in
/-- **A line of which nothing fits wakes nobody.** -/
theorem trap_full {landing : ℤ → Byte} {read : ℤ} (h : min s.inp.buffer.room read ≤ 0) :
    s.trap landing read =
      { s with
        inp := { s.inp with buffer := (writeBuffer s.inp.buffer landing read).1 }
        accepted := s.accepted ++ (bytesAt landing read.toNat).take s.inp.buffer.room.toNat } := by
  have hw := Buffer.writeBuffer_written s.inp.buffer landing read
  simp only [trap, receive, hw, if_neg (not_lt.mpr h)]

omit [DecidableEq Node] in
/-- **Any other wakes every reader.** -/
theorem trap_wakes {landing : ℤ → Byte} {read : ℤ} (h : 0 < min s.inp.buffer.room read) :
    s.trap landing read =
      { s with
        procs := unblockAll s.procs s.inp.blocked
        inp := { s.inp with
          buffer := (writeBuffer s.inp.buffer landing read).1
          blocked := [] }
        accepted := s.accepted ++ (bytesAt landing read.toNat).take s.inp.buffer.room.toNat } := by
  have hw := Buffer.writeBuffer_written s.inp.buffer landing read
  simp only [trap, receive, hw, if_pos h]

/-- **What an event is**: a line came, or a read call was given the
processor, with the length it asks for. -/
theorem step_cases (h : s.step e = some t) :
    (∃ landing read, e = .receive landing read ∧ t = s.trap landing read) ∨
      ∃ p len, (e = .read p len ∨ s.call p = some len) ∧ t = s.run p len := by
  cases e with
  | receive landing read => exact Or.inl ⟨landing, read, rfl, (Option.some.inj h).symm⟩
  | read p len =>
    simp only [step, Option.ite_none_left_eq_some, Option.some.injEq] at h
    exact Or.inr ⟨p, len, Or.inl rfl, h.2.symm⟩
  | resume p =>
    simp only [step, Option.ite_none_left_eq_some, Option.map_eq_some_iff] at h
    obtain ⟨-, len, hc, rfl⟩ := h
    exact Or.inr ⟨p, len, Or.inr hc, rfl⟩

/-! ## The law of the input -/

/-- **Nothing is reordered, duplicated or lost** of what fitted, and readers
sleep on an empty buffer only. -/
def InputExact (s : InState Node) : Prop :=
  s.delivered ++ s.inp.buffer.content = s.accepted ∧
    ∀ p ∈ s.inp.blocked, s.inp.buffer.filled = 0

/-- **The invariant of a terminal's input.** -/
structure Inv (s : InState Node) : Prop where
  buffer : s.inp.buffer.Ok
  calls : ∀ p len, s.call p = some len → 0 < len
  exact : s.InputExact

omit [DecidableEq Node] in
theorem inv_init [Devices] (procs : ProcTable Node) : (init procs).Inv where
  buffer := Buffer.ok_newBuffer (by exact_mod_cast Devices.terminalMaxLine_pos)
  calls := fun _ _ h => absurd h (by simp [init])
  exact := ⟨rfl, fun _ h => absurd h List.not_mem_nil⟩

omit [DecidableEq Node] in
/-- **A line keeps the invariant**: what `write_buffer` appends is what of it
fits. -/
theorem Inv.trap (hs : s.Inv) {landing : ℤ → Byte} {read : ℤ} (hread : 0 ≤ read) :
    (s.trap landing read).Inv := by
  obtain ⟨hok, hcalls, hstream, hasleep⟩ := hs
  have hroom := hok.room_nonneg
  have hfits : s.delivered ++ (writeBuffer s.inp.buffer landing read).1.content
      = s.accepted ++ (bytesAt landing read.toNat).take s.inp.buffer.room.toNat := by
    have hmin : (min s.inp.buffer.room read).toNat
        = min s.inp.buffer.room.toNat read.toNat := by omega
    rw [hok.content_writeBuffer hread, ← List.append_assoc, hstream, take_bytesAt, hmin]
  rcases le_or_gt (min s.inp.buffer.room read) 0 with h0 | hpos
  · -- nothing fits, so the buffer is as full as it was
    rw [trap_full h0]
    refine ⟨hok.writeBuffer hread, hcalls, hfits, fun p hp => ?_⟩
    have hempty := hasleep p hp
    have hzero : min s.inp.buffer.room read = 0 := by omega
    rw [Buffer.writeBuffer_filled, hempty, hzero]
    omega
  · -- something does, and nobody is left asleep
    rw [trap_wakes hpos]
    exact ⟨hok.writeBuffer hread, hcalls, hfits, fun p hp => absurd hp List.not_mem_nil⟩

/-- **A read call keeps the invariant.** -/
theorem Inv.run (hs : s.Inv) (hlen : 0 < len) : (s.run p len).Inv := by
  obtain ⟨hok, hcalls, hstream, hasleep⟩ := hs
  have hfilled := hok.filled_nonneg
  have htaken := hok.content_readBuffer hlen.le
  have hupdate : ∀ c : Option ℤ, (∀ n, c = some n → 0 < n) →
      ∀ q n, Function.update s.call p c q = some n → 0 < n := by
    intro c hc q n hq
    rcases eq_or_ne q p with rfl | hne
    · exact hc n (by simpa using hq)
    · exact hcalls q n (by simpa [Function.update_of_ne hne] using hq)
  by_cases h0 : min s.inp.buffer.filled len = 0
  · -- the reader sleeps, on a buffer it found empty
    have hempty : s.inp.buffer.filled = 0 := by omega
    have hnone : (readBuffer s.inp.buffer len).2.1 = [] := by
      rw [← List.length_eq_zero_iff, Buffer.length_readBuffer, h0]
      rfl
    rw [run_blocked h0]
    refine ⟨hok.readBuffer hlen.le, hupdate _ fun n hn => Option.some.inj hn ▸ hlen, ?_,
      fun _ _ => ?_⟩
    · rw [hnone, List.nil_append] at htaken
      rw [← htaken]
      exact hstream
    · rw [Buffer.readBuffer_filled, h0, hempty]
      omega
  · -- the reader returns, and the buffer was not empty, so nobody slept
    rw [run_returned h0]
    refine ⟨hok.readBuffer hlen.le, hupdate _ fun n hn => absurd hn (by simp), ?_,
      fun q hq => ?_⟩
    · rw [List.append_assoc, ← htaken]
      exact hstream
    · have := hasleep q hq
      omega

/-- **The invariant is kept by every event.** -/
theorem inv_step [Devices] (hs : s.Inv) (hd : e.InDomain) (h : s.step e = some t) : t.Inv := by
  rcases step_cases h with ⟨landing, read, rfl, rfl⟩ | ⟨p, len, he, rfl⟩
  · exact hs.trap hd.1
  · refine hs.run ?_
    rcases he with rfl | hcall
    · exact hd
    · exact hs.calls p len hcall

/-- **The input stream of a terminal**, for any number of readers, any
lengths and any interleaving with the lines that come in. -/
theorem inputExact_throughout [Devices] {procs : ProcTable Node} {es : List (InEvent Node)}
    (hes : ∀ e ∈ es, e.InDomain) : Run.Throughout step InputExact (init procs) es := by
  have hinv : Run.Throughout step Inv (init procs) es :=
    Run.throughout_of_step (fun _ e he _ hs h => inv_step hs (hes e he) h) (inv_init procs)
  exact hinv.mono fun _ hs => hs.exact

/-- Two readers race for a line of three bytes. -/
theorem inputExact_throughout_race :
    let quiet : InState ℕ := @init ℕ yalnixDevices ⟨1, [2], [], [], [], 0⟩
    let es : List (InEvent ℕ) :=
      [.read 1 2, .read 2 2, .receive (fun _ => 7) 3, .resume 2, .resume 1]
    (Run.exec step quiet es).map (fun s => s.inp.buffer.filled) = some 0 ∧
      Run.Throughout step InputExact quiet es := by
  intro quiet es
  have hruns : (Run.exec step quiet es).map (fun s => s.inp.buffer.filled) = some 0 := by
    decide +kernel
  have hline : (3 : ℤ) ≤ yalnixDevices.terminalMaxLine := by decide
  exact ⟨hruns, @inputExact_throughout ℕ _ yalnixDevices _ _
    (by simpa [es, InEvent.InDomain] using hline)⟩

end InState

end Yalnix
