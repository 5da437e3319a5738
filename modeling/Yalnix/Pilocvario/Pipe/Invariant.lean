import Yalnix.Pilocvario.Pipe.Model
/-!
# What one activation does to a pipe

An activation ends in one of four ways: a writer sleeps or returns, a
reader sleeps or returns. `step_cases` names the call an activation runs
and the four `run` lemmas say all each of them does; the invariant of the
machine and every law about pipes are read off these.
-/

namespace Yalnix

variable {Node : Type}

/-! ## The two functions -/

section Functions

variable {procs : ProcTable Node} {pipe : Pipe Node} {f : WriteFrame} {len : ℤ}

/-- A writer left with more than it could store goes to sleep. -/
theorem writePipe_blocked (h : min pipe.buffer.room f.len < f.lenLeft) :
    writePipe procs pipe f = (runNextReady procs,
      { pipe with
        buffer := (writeBuffer pipe.buffer f.bytes f.len).1
        writeblocked := pipe.writeblocked ++ [procs.running] },
      .blocked { f with
        src := f.src + min pipe.buffer.room f.len
        total := f.total + min pipe.buffer.room f.len
        lenLeft := f.lenLeft - min pipe.buffer.room f.len }) := by
  have hw := Buffer.writeBuffer_written pipe.buffer f.bytes f.len
  simp only [writePipe, hw, if_pos h, block_fst, block_snd]

/-- A writer that is done wakes every reader and returns `total`. -/
theorem writePipe_returned (h : f.lenLeft ≤ min pipe.buffer.room f.len) :
    writePipe procs pipe f = (unblockAll procs pipe.readblocked,
      { pipe with
        buffer := (writeBuffer pipe.buffer f.bytes f.len).1
        unfulfilled := pipe.unfulfilled + pipe.readblocked.length
        readblocked := [] }, .returned f.total) := by
  have hw := Buffer.writeBuffer_written pipe.buffer f.bytes f.len
  simp only [writePipe, hw, if_neg (not_lt.mpr h)]
  by_cases hr : pipe.readblocked = []
  · simp [hr, unblockAll]
  · simp [hr]

/-- A reader that got nothing goes to sleep. -/
theorem readPipe_blocked (h : min pipe.buffer.filled len = 0) :
    readPipe procs pipe len = (runNextReady procs,
      { pipe with
        buffer := (readBuffer pipe.buffer len).1
        readblocked := pipe.readblocked ++ [procs.running] },
      (readBuffer pipe.buffer len).2.1, .blocked len) := by
  simp only [readPipe, Buffer.readBuffer_read, if_pos h, block_fst, block_snd]

/-- A reader that got something wakes every writer. -/
theorem readPipe_returned (h : min pipe.buffer.filled len ≠ 0) :
    readPipe procs pipe len = (unblockAll procs pipe.writeblocked,
      { pipe with
        buffer := (readBuffer pipe.buffer len).1
        unfulfilled := pipe.unfulfilled + pipe.writeblocked.length
        writeblocked := [] },
      (readBuffer pipe.buffer len).2.1, .returned (min pipe.buffer.filled len)) := by
  simp only [readPipe, Buffer.readBuffer_read, if_neg h]
  by_cases hw : pipe.writeblocked = []
  · simp [hw, unblockAll]
  · simp [hw]

end Functions

variable [DecidableEq Node]

namespace PipeState

variable {s t : PipeState Node} {p : Node} {act : PipeAct} {pipe : Pipe Node}
variable {f : WriteFrame} {len : ℤ} {c : PipeCall}

/-! ## One activation -/

/-- The bytes a write activation appends. -/
def chunk (pipe : Pipe Node) (f : WriteFrame) : List Byte :=
  bytesAt f.bytes (min pipe.buffer.room f.len).toNat

/-- **A writer sleeps.** -/
theorem runWrite_blocked (h : min pipe.buffer.room f.len < f.lenLeft) :
    s.runWrite p pipe f =
      { s with
        procs := runNextReady (dispatch s.procs p)
        pipe := { pipe with
          buffer := (writeBuffer pipe.buffer f.bytes f.len).1
          writeblocked := pipe.writeblocked ++ [p] }
        call := Function.update s.call p (some (.write { f with
          src := f.src + min pipe.buffer.room f.len
          total := f.total + min pipe.buffer.room f.len
          lenLeft := f.lenLeft - min pipe.buffer.room f.len }))
        sent := Function.update s.sent p (s.sent p ++ chunk pipe f)
        stream := s.stream ++ chunk pipe f } := by
  simp only [runWrite, writePipe_blocked h, Buffer.writeBuffer_written, chunk, dispatch_running]

/-- **A writer returns.** -/
theorem runWrite_returned (h : f.lenLeft ≤ min pipe.buffer.room f.len) :
    s.runWrite p pipe f =
      { s with
        procs := unblockAll (dispatch s.procs p) pipe.readblocked
        pipe := { pipe with
          buffer := (writeBuffer pipe.buffer f.bytes f.len).1
          unfulfilled := pipe.unfulfilled + pipe.readblocked.length
          readblocked := [] }
        call := Function.update s.call p none
        sent := Function.update s.sent p []
        stream := s.stream ++ chunk pipe f
        writes := s.writes ++ [⟨f.mem, f.len, s.sent p ++ chunk pipe f, f.total⟩] } := by
  simp only [runWrite, writePipe_returned h, Buffer.writeBuffer_written, chunk]

/-- **A reader sleeps.** -/
theorem runRead_blocked (h : min pipe.buffer.filled len = 0) :
    s.runRead p pipe len =
      { s with
        procs := runNextReady (dispatch s.procs p)
        pipe := { pipe with
          buffer := (readBuffer pipe.buffer len).1
          readblocked := pipe.readblocked ++ [p] }
        call := Function.update s.call p (some (.read len)) } := by
  simp only [runRead, readPipe_blocked h, dispatch_running]

/-- **A reader returns.** -/
theorem runRead_returned (h : min pipe.buffer.filled len ≠ 0) :
    s.runRead p pipe len =
      { s with
        procs := unblockAll (dispatch s.procs p) pipe.writeblocked
        pipe := { pipe with
          buffer := (readBuffer pipe.buffer len).1
          unfulfilled := pipe.unfulfilled + pipe.writeblocked.length
          writeblocked := [] }
        call := Function.update s.call p none
        delivered := s.delivered ++ (readBuffer pipe.buffer len).2.1 } := by
  simp only [runRead, readPipe_returned h]

/-- **What an activation is**: the process was awake, and one of the two
functions ran on the call `active` names. -/
theorem step_cases (h : s.step (p, act) = some t) :
    p ∉ s.pipe.readblocked ∧ p ∉ s.pipe.writeblocked ∧
      ((∃ pipe f, s.active p act = some (pipe, .write f) ∧ t = s.runWrite p pipe f) ∨
        ∃ pipe len, s.active p act = some (pipe, .read len) ∧ t = s.runRead p pipe len) := by
  simp only [step] at h
  split at h
  · cases h
  · rename_i hawake
    rw [not_or] at hawake
    refine ⟨hawake.1, hawake.2, ?_⟩
    cases ha : s.active p act with
    | none => simp [ha] at h
    | some a =>
      obtain ⟨pipe, c⟩ := a
      cases c with
      | write f => exact Or.inl ⟨pipe, f, rfl, by simpa [ha] using h.symm⟩
      | read len => exact Or.inr ⟨pipe, len, rfl, by simpa [ha] using h.symm⟩

omit [DecidableEq Node] in
/-- The pipe an activation finds differs from the pipe in its count of
unfulfilled processes alone. -/
theorem active_pipe (h : s.active p act = some (pipe, c)) :
    pipe.buffer = s.pipe.buffer ∧ pipe.readblocked = s.pipe.readblocked ∧
      pipe.writeblocked = s.pipe.writeblocked := by
  cases act with
  | write src len total =>
    simp only [active, Option.ite_none_right_eq_some, Option.some.injEq, Prod.mk.injEq] at h
    exact h.2.1 ▸ ⟨rfl, rfl, rfl⟩
  | read len =>
    simp only [active, Option.ite_none_right_eq_some, Option.some.injEq, Prod.mk.injEq] at h
    exact h.2.1 ▸ ⟨rfl, rfl, rfl⟩
  | resume =>
    simp only [active, Option.map_eq_some_iff, Prod.mk.injEq] at h
    obtain ⟨c', -, hp, -⟩ := h
    exact hp ▸ ⟨rfl, rfl, rfl⟩

end PipeState

/-! ## The invariant -/

/-- **What the variables of a write call owe each other**: the pointer has
moved over what is no longer left. -/
structure WriteFrame.Ok (f : WriteFrame) : Prop where
  src_nonneg : 0 ≤ f.src
  left_nonneg : 0 ≤ f.lenLeft
  src_add_left : f.src + f.lenLeft = f.len

/-- A write call finishes exactly where the room covers what it has left. -/
theorem WriteFrame.Ok.le_min_iff {f : WriteFrame} (hf : f.Ok) (r : ℤ) :
    f.lenLeft ≤ min r f.len ↔ f.lenLeft ≤ r := by
  have := hf.src_nonneg
  have := hf.src_add_left
  omega

theorem ok_writeEntry {src : ℤ → Byte} {len total : ℤ} (h : 0 ≤ len) :
    (writeEntry src len total).Ok where
  src_nonneg := le_rfl
  left_nonneg := h
  src_add_left := by simp [writeEntry]

/-- A call in progress is in order, with the bytes it has appended: a
writer has appended what its pointer has moved over, anyone else nothing. -/
def CallOk (sent : List Byte) : Option PipeCall → Prop
  | none => sent = []
  | some (.write f) => f.Ok ∧ sent = bytesAt f.mem f.src.toNat
  | some (.read len) => 0 < len ∧ sent = []

namespace PipeState

/-- **The invariant of a pipe and its users.** -/
structure Inv (s : PipeState Node) : Prop where
  buffer : s.pipe.buffer.Ok
  calls : ∀ p, CallOk (s.sent p) (s.call p)
  /-- Nothing is lost, duplicated or reordered. -/
  stream : s.delivered ++ s.pipe.buffer.content = s.stream
  /-- A writer sleeps on a full pipe only. -/
  full : s.pipe.writeblocked ≠ [] → s.pipe.buffer.room = 0

variable {s t : PipeState Node} {p : Node} {act : PipeAct} {pipe : Pipe Node}
variable {f : WriteFrame} {len : ℤ} {c : PipeCall}

omit [DecidableEq Node] in
/-- The call an activation runs is in order. -/
theorem Inv.active (hs : s.Inv) (hd : act.InDomain) (h : s.active p act = some (pipe, c)) :
    CallOk (s.sent p) (some c) := by
  have hp := hs.calls p
  cases act with
  | write src len total =>
    simp only [PipeState.active, Option.ite_none_right_eq_some, Option.some.injEq,
      Prod.mk.injEq, Option.isNone_iff_eq_none] at h
    obtain ⟨hidle, -, rfl⟩ := h
    rw [hidle] at hp
    exact ⟨ok_writeEntry hd, hp⟩
  | read len =>
    simp only [PipeState.active, Option.ite_none_right_eq_some, Option.some.injEq,
      Prod.mk.injEq, Option.isNone_iff_eq_none] at h
    obtain ⟨hidle, -, rfl⟩ := h
    rw [hidle] at hp
    exact ⟨hd, hp⟩
  | resume =>
    simp only [PipeState.active, Option.map_eq_some_iff, Prod.mk.injEq] at h
    obtain ⟨c', hc, -, rfl⟩ := h
    rwa [hc] at hp

/-- Replacing one process's call by one in order keeps all of them so. -/
theorem calls_update {call : Node → Option PipeCall} {sent : Node → List Byte}
    {c : Option PipeCall} {l : List Byte} (h : ∀ q, CallOk (sent q) (call q)) (hc : CallOk l c)
    (q : Node) : CallOk (Function.update sent p l q) (Function.update call p c q) := by
  rcases eq_or_ne q p with rfl | hne
  · simpa using hc
  · simpa [Function.update_of_ne hne] using h q

omit [DecidableEq Node] in
/-- What a write activation appends, the pointer moves over. -/
theorem bytesAt_append_chunk (hf : f.Ok) (hr : 0 ≤ pipe.buffer.room) :
    bytesAt f.mem f.src.toNat ++ chunk pipe f =
      bytesAt f.mem (f.src + min pipe.buffer.room f.len).toNat := by
  have hsrc := hf.src_nonneg
  have hlen : 0 ≤ f.len := by
    have := hf.left_nonneg
    have := hf.src_add_left
    omega
  rw [Int.toNat_add hsrc (le_min hr hlen), bytesAt_add, Int.toNat_of_nonneg hsrc]
  rfl

omit [DecidableEq Node] in
theorem inv_init [Devices] (procs : ProcTable Node) : (init procs).Inv where
  buffer := Buffer.ok_newBuffer (by exact_mod_cast Devices.pipeBufferLen_pos)
  calls := fun _ => rfl
  stream := rfl
  full := fun h => absurd rfl h

/-- **A write activation keeps the invariant.** -/
theorem Inv.runWrite (hs : s.Inv) (hd : act.InDomain)
    (ha : s.active p act = some (pipe, .write f)) : (s.runWrite p pipe f).Inv := by
  obtain ⟨hf, hsent⟩ := hs.active hd ha
  obtain ⟨hbuf, -, hwb⟩ := active_pipe ha
  have hok : pipe.buffer.Ok := hbuf ▸ hs.buffer
  have hroom := hok.room_nonneg
  have hleft := hf.left_nonneg
  have hsrc := hf.src_nonneg
  have hadd := hf.src_add_left
  have hstream : s.delivered ++ (writeBuffer pipe.buffer f.bytes f.len).1.content
      = s.stream ++ chunk pipe f := by
    rw [hok.content_writeBuffer (by omega), ← List.append_assoc, hbuf, hs.stream, ← hbuf]
    rfl
  rcases lt_or_ge (min pipe.buffer.room f.len) f.lenLeft with hlt | hle
  · -- the writer sleeps: it has filled the buffer, and keeps what it could not store
    rw [runWrite_blocked hlt]
    refine ⟨hok.writeBuffer (by omega), calls_update hs.calls ⟨?_, ?_⟩, hstream, fun _ => ?_⟩
    · exact ⟨by dsimp only; omega, by dsimp only; omega, by dsimp only; omega⟩
    · rw [hsent, bytesAt_append_chunk hf hroom]
    · rw [Buffer.writeBuffer_room]
      omega
  · -- the writer returns
    rw [runWrite_returned hle]
    refine ⟨hok.writeBuffer (by omega), calls_update hs.calls rfl, hstream, fun hw => ?_⟩
    have hfull := hs.full (hwb ▸ hw)
    rw [← hbuf] at hfull
    rw [Buffer.writeBuffer_room]
    omega

/-- **A read activation keeps the invariant.** -/
theorem Inv.runRead (hs : s.Inv) (hd : act.InDomain)
    (ha : s.active p act = some (pipe, .read len)) : (s.runRead p pipe len).Inv := by
  obtain ⟨hlen, hsent⟩ := hs.active hd ha
  obtain ⟨hbuf, -, hwb⟩ := active_pipe ha
  have hok : pipe.buffer.Ok := hbuf ▸ hs.buffer
  have hcalls : ∀ {c}, CallOk (s.sent p) c →
      ∀ q, CallOk (s.sent q) (Function.update s.call p c q) := fun hc q => by
    simpa using calls_update (p := p) hs.calls hc q
  have hstream : s.delivered ++ ((readBuffer pipe.buffer len).2.1 ++
      (readBuffer pipe.buffer len).1.content) = s.stream := by
    rw [← hok.content_readBuffer hlen.le, hbuf, hs.stream]
  by_cases h0 : min pipe.buffer.filled len = 0
  · -- the reader sleeps: it got no byte
    have hdst : (readBuffer pipe.buffer len).2.1 = [] := by
      rw [← List.length_eq_zero_iff, Buffer.length_readBuffer, h0]
      rfl
    rw [runRead_blocked h0]
    refine ⟨hok.readBuffer hlen.le, hcalls ⟨hlen, hsent⟩, by simpa [hdst] using hstream,
      fun hw => ?_⟩
    have hfull := hs.full (hwb ▸ hw)
    rw [← hbuf] at hfull
    rw [Buffer.readBuffer_room]
    omega
  · -- the reader returns, and no writer sleeps any more
    rw [runRead_returned h0]
    exact ⟨hok.readBuffer hlen.le, hcalls hsent, by simpa [List.append_assoc] using hstream,
      fun hw => absurd rfl hw⟩

/-- **The invariant is kept by every activation.** -/
theorem inv_step (hs : s.Inv) (hd : act.InDomain) (h : s.step (p, act) = some t) : t.Inv := by
  obtain ⟨-, -, ⟨pipe, f, ha, rfl⟩ | ⟨pipe, len, ha, rfl⟩⟩ := step_cases h
  · exact hs.runWrite hd ha
  · exact hs.runRead hd ha

end PipeState

end Yalnix
