import Yalnix.Pilocvario.Pipe.Invariant
/-!
# The byte stream of a pipe

The pipe's own side of the stream is right in every run: what reads have
handed out and what the buffer still holds are what was appended, in order
(`Inv.stream`). A write call's side is not. `write_pipe` passes `len`
instead of `len_left` to `write_buffer` after a sleep, and returns a `total`
that starts from an indeterminate value and misses the last chunk.
`streamExact_iff` says exactly which runs the two slips spare.
-/

namespace Yalnix

/-- **What a write call promises**: it appended `src[0 .. len)` and nothing
else, and returned `len`. -/
def WriteRecord.Exact (w : WriteRecord) : Prop :=
  w.sent = bytesAt w.mem w.len.toNat ∧ w.ret = w.len

namespace PipeState

variable {Node : Type}

/-- **The stream law**: reads and buffer give back what was appended, and
every write call that returned kept its promise. -/
def StreamExact (s : PipeState Node) : Prop :=
  s.delivered ++ s.pipe.buffer.content = s.stream ∧ ∀ w ∈ s.writes, w.Exact

/-- **A write activation that finds room for all it has left** has stored
nothing before or finds no more room than that, and the stack word `total`
started from is the length of this last chunk. -/
def LastChunkFits (s : PipeState Node) : Node × PipeAct → Prop
  | (p, act) =>
    match s.active p act with
    | some (pipe, .write f) =>
      f.lenLeft ≤ pipe.buffer.room →
        (f.lenLeft = f.len ∨ f.lenLeft = pipe.buffer.room) ∧ f.total - f.src = f.lenLeft
    | _ => True

variable {s t : PipeState Node} {p : Node} {act : PipeAct} {pipe : Pipe Node} {f : WriteFrame}

/-- **The last chunk decides.** A writer in order that finds room for all it
has left keeps its promise exactly where that chunk is the bytes left and
`total` has come to `len`. -/
theorem exact_last_iff (hf : f.Ok) (hsent : s.sent p = bytesAt f.mem f.src.toNat)
    (hle : f.lenLeft ≤ pipe.buffer.room) :
    WriteRecord.Exact ⟨f.mem, f.len, s.sent p ++ chunk pipe f, f.total⟩ ↔
      (f.lenLeft = f.len ∨ f.lenLeft = pipe.buffer.room) ∧ f.total - f.src = f.lenLeft := by
  have hleft := hf.left_nonneg
  have hsrc := hf.src_nonneg
  have hadd := hf.src_add_left
  rw [WriteRecord.Exact, hsent, bytesAt_append_chunk hf (by omega), bytesAt_inj]
  dsimp only
  constructor
  · rintro ⟨hlen, hret⟩
    exact ⟨by omega, by omega⟩
  · rintro ⟨hlast, htotal⟩
    exact ⟨by omega, by omega⟩

variable [DecidableEq Node]

/-- Whether a step's last chunk fits can be looked up. -/
instance decidableLastChunkFits (s : PipeState Node) : ∀ e, Decidable (s.LastChunkFits e)
  | (p, act) =>
    match ha : s.active p act with
    | some (pipe, .write f) =>
      decidable_of_iff (f.lenLeft ≤ pipe.buffer.room →
        (f.lenLeft = f.len ∨ f.lenLeft = pipe.buffer.room) ∧ f.total - f.src = f.lenLeft)
        (by simp only [LastChunkFits, ha])
    | some (_, .read _) => isTrue (by simp only [LastChunkFits, ha])
    | none => isTrue (by simp only [LastChunkFits, ha])

/-- A step adds a broken promise to the history exactly where it is a last
chunk that does not fit. -/
theorem exact_step_iff (hs : s.Inv) (hd : act.InDomain) (h : s.step (p, act) = some t) :
    (∀ w ∈ t.writes, w.Exact) ↔ (∀ w ∈ s.writes, w.Exact) ∧ s.LastChunkFits (p, act) := by
  obtain ⟨-, -, ⟨pipe, f, ha, rfl⟩ | ⟨pipe, len, ha, rfl⟩⟩ := step_cases h
  · obtain ⟨hf, hsent⟩ := hs.active hd ha
    have hfits : s.LastChunkFits (p, act) ↔ (f.lenLeft ≤ pipe.buffer.room →
        (f.lenLeft = f.len ∨ f.lenLeft = pipe.buffer.room) ∧ f.total - f.src = f.lenLeft) := by
      simp only [LastChunkFits, ha]
    rw [hfits]
    rcases lt_or_ge pipe.buffer.room f.lenLeft with hlt | hle
    · rw [runWrite_blocked (by omega)]
      simp [not_le.mpr hlt]
    · rw [runWrite_returned ((hf.le_min_iff _).mpr hle)]
      simp only [List.forall_mem_append, List.forall_mem_singleton, hle, forall_const,
        exact_last_iff hf hsent hle]
  · have hfits : s.LastChunkFits (p, act) := by simp only [LastChunkFits, ha]
    have hwrites : (s.runRead p pipe len).writes = s.writes := by
      by_cases h0 : min pipe.buffer.filled len = 0
      · rw [runRead_blocked h0]
      · rw [runRead_returned h0]
    rw [hwrites]
    exact ⟨fun h => ⟨h, hfits⟩, And.left⟩

/-- **The stream law holds of exactly the runs whose last chunks fit**, for
any number of processes, any lengths and any interleaving at the points
where they block. -/
theorem streamExact_iff [Devices] {procs : ProcTable Node} {es : List (Node × PipeAct)}
    (hes : ∀ e ∈ es, e.2.InDomain) (hrun : Run.exec step (init procs) es = some s) :
    s.StreamExact ↔ Run.Along step LastChunkFits (init procs) es := by
  have hinv : s.Inv := Run.inv_of_exec (D := fun e => e.2.InDomain)
    (fun _ _ _ hs hd h => inv_step hs hd h) hes (inv_init procs) hrun
  have hexact := Run.final_iff_along (D := fun e => e.2.InDomain)
    (P := fun s : PipeState Node => ∀ w ∈ s.writes, w.Exact)
    (fun _ _ _ hs hd h => inv_step hs hd h) (fun _ _ _ hs hd h => exact_step_iff hs hd h)
    hes (inv_init procs) hrun
  have hstart : ∀ w ∈ (init procs : PipeState Node).writes, w.Exact := by simp [init]
  rw [StreamExact, hexact]
  exact ⟨fun h => h.2.2, fun h => ⟨hinv.stream, hstart, h⟩⟩

/-- Three processes, the first of them running. -/
def threeProcs : ProcTable ℕ where
  running := 1
  ready := [2, 3]
  waiting := []
  delayed := []
  orphans := []
  idleNode := 0

/-- A process writes 356 bytes in two chunks, of which the second fills the
room a read has made; another finds the pipe full and writes when it has been
emptied. Both have a lucky stack word. -/
def twoWriters : List (ℕ × PipeAct) :=
  [(1, .write (fun _ => 7) 356 100), (2, .read 100), (1, .resume), (3, .write (fun _ => 9) 4 4),
    (2, .read 256), (3, .resume)]

/-- The law is met by `twoWriters`. -/
theorem streamExact_two_writers :
    ∃ s, Run.exec step (@init ℕ yalnixDevices threeProcs) twoWriters = some s ∧
      (s.writes.map fun w => (w.len, w.ret)) = [(356, 356), (4, 4)] ∧ s.StreamExact := by
  have hruns : ((Run.exec step (@init ℕ yalnixDevices threeProcs) twoWriters).map
      fun s => s.writes.map fun w => (w.len, w.ret)) = some [(356, 356), (4, 4)] := by
    decide +kernel
  obtain ⟨s, hrun, hwrites⟩ := Option.map_eq_some_iff.mp hruns
  have hes : ∀ e ∈ twoWriters, e.2.InDomain := by simp [twoWriters, PipeAct.InDomain]
  have hfits : Run.Along step LastChunkFits (@init ℕ yalnixDevices threeProcs) twoWriters := by
    decide +kernel
  exact ⟨s, hrun, hwrites, (@streamExact_iff ℕ _ _ yalnixDevices threeProcs _ hes hrun).mpr hfits⟩

/-- A process writes 257 bytes into an empty pipe, a second reads 100 of
them, and the first comes back. -/
def overrun : List (ℕ × PipeAct) :=
  [(1, .write (fun _ => 7) 257 0), (2, .read 100), (1, .resume)]

/-- The second chunk of `overrun` is cut by `len`, so the call appends 356
bytes. -/
theorem overrun_sent :
    (Run.exec step (@init ℕ yalnixDevices threeProcs) overrun).map
      (fun s => s.writes.map fun w => (w.len, w.sent.length)) = some [(257, 356)] := by
  decide +kernel

/-- **The law fails** of a run one of whose writes takes two chunks. -/
theorem not_streamExact :
    ¬ ∀ (D : Devices) (procs : ProcTable ℕ) (es : List (ℕ × PipeAct)) (s : PipeState ℕ),
      (∀ e ∈ es, e.2.InDomain) → Run.exec step (@init ℕ D procs) es = some s →
        s.StreamExact := by
  intro h
  have hes : ∀ e ∈ overrun, e.2.InDomain := by simp [overrun, PipeAct.InDomain]
  obtain ⟨s, hrun, hs⟩ := Option.map_eq_some_iff.mp overrun_sent
  obtain ⟨w, hw, hlen⟩ := List.map_eq_singleton_iff.mp hs
  obtain ⟨-, hwrites⟩ := h yalnixDevices threeProcs overrun s hes hrun
  have hsent := congrArg List.length (hwrites w (by rw [hw]; exact List.mem_singleton_self w)).1
  simp only [Prod.mk.injEq] at hlen
  rw [hlen.2, length_bytesAt, hlen.1] at hsent
  omega

end PipeState

end Yalnix
