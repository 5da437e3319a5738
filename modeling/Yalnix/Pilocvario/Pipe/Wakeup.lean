import Yalnix.Pilocvario.Pipe.Invariant
/-!
# Who sleeps on a pipe

A writer only ever sleeps on a full pipe (`writersServed_throughout`). A reader should
only sleep on an empty one, but `write_pipe` wakes readers after its loop and not
before it sleeps: a writer that fills the pipe and goes to sleep leaves the
readers asleep on what it wrote. `readersServed_iff` says that nothing else
does.
-/

namespace Yalnix

namespace PipeState

variable {Node : Type}

/-! ## Writers -/

/-- **No writer sleeps on free space.** -/
def WritersServed (s : PipeState Node) : Prop :=
  s.pipe.writeblocked ≠ [] → s.pipe.buffer.filled = s.pipe.buffer.size

/-- **A read that returned bytes** leaves no writer asleep. -/
def ReadFreesWriters [DecidableEq Node] (s : PipeState Node) (e : Node × PipeAct) : Prop :=
  ∀ t, s.step e = some t → t.delivered ≠ s.delivered → t.pipe.writeblocked = []

theorem Inv.writersServed {s : PipeState Node} (hs : s.Inv) : s.WritersServed := by
  intro hne
  have hfull := hs.full hne
  unfold Buffer.room at hfull
  omega

/-- Only a read that returns adds to what was delivered, and it has woken
every writer. -/
theorem readFreesWriters [DecidableEq Node] (s : PipeState Node) (e : Node × PipeAct) :
    s.ReadFreesWriters e := by
  intro t h hmore
  obtain ⟨-, -, ⟨pipe, f, -, rfl⟩ | ⟨pipe, len, -, rfl⟩⟩ := step_cases h
  · -- a writer delivers nothing, whether it sleeps or returns
    rcases lt_or_ge (min pipe.buffer.room f.len) f.lenLeft with hlt | hle
    · rw [runWrite_blocked hlt] at hmore
      exact absurd rfl hmore
    · rw [runWrite_returned hle] at hmore
      exact absurd rfl hmore
  · by_cases h0 : min pipe.buffer.filled len = 0
    · rw [runRead_blocked h0] at hmore
      exact absurd rfl hmore
    · rw [runRead_returned h0]

/-- **Writers sleep on a full pipe only**, for any number of processes and
any interleaving; so a read that takes anything wakes them all. -/
theorem writersServed_throughout [Devices] [DecidableEq Node] {procs : ProcTable Node}
    {es : List (Node × PipeAct)} (hes : ∀ e ∈ es, e.2.InDomain) :
    Run.Throughout step WritersServed (init procs) es ∧
      Run.Along step ReadFreesWriters (init procs) es := by
  have hinv : Run.Throughout step Inv (init procs) es :=
    Run.throughout_of_step (fun _ e he _ hs h => inv_step hs (hes e he) h) (inv_init procs)
  exact ⟨hinv.mono fun _ hs => hs.writersServed, hinv.along fun s e _ _ => readFreesWriters s e⟩

/-- Two writers sleep on a full pipe until a reader comes. -/
theorem writersServed_throughout_woken :
    let start := @init ℕ yalnixDevices ⟨1, [2, 3], [], [], [], 0⟩
    let es : List (ℕ × PipeAct) := [(1, .write (fun _ => 7) 257 0),
      (2, .write (fun _ => 9) 2 0), (3, .read 4), (1, .resume), (2, .resume)]
    (Run.exec step start es).map (fun s => s.pipe.writeblocked) = some [2] ∧
      Run.Throughout step WritersServed start es ∧ Run.Along step ReadFreesWriters start es := by
  intro start es
  have hruns : (Run.exec step start es).map (fun s => s.pipe.writeblocked) = some [2] := by
    decide +kernel
  exact ⟨hruns, @writersServed_throughout ℕ yalnixDevices _ _ _ (by simp [es, PipeAct.InDomain])⟩

/-! ## Readers -/

/-- **No reader sleeps on available data**, and so readers and writers do
not sleep at once. -/
def ReadersServed (s : PipeState Node) : Prop :=
  (s.pipe.readblocked ≠ [] → s.pipe.buffer.filled = 0) ∧
    ¬ (s.pipe.readblocked ≠ [] ∧ s.pipe.writeblocked ≠ [])

/-- **A writer that runs while a reader is asleep** finds room for all it
has left. -/
def FitsOverReaders (s : PipeState Node) : Node × PipeAct → Prop
  | (p, act) =>
    match s.active p act with
    | some (pipe, .write f) => pipe.readblocked ≠ [] → f.lenLeft ≤ pipe.buffer.room
    | _ => True

/-- Whether a step fits over the readers can be looked up. -/
instance decidableFitsOverReaders (s : PipeState Node) : ∀ e, Decidable (s.FitsOverReaders e)
  | (p, act) =>
    match ha : s.active p act with
    | some (pipe, .write f) =>
      decidable_of_iff (pipe.readblocked ≠ [] → f.lenLeft ≤ pipe.buffer.room)
        (by simp only [FitsOverReaders, ha])
    | some (_, .read _) => isTrue (by simp only [FitsOverReaders, ha])
    | none => isTrue (by simp only [FitsOverReaders, ha])

variable {s t : PipeState Node} {p : Node} {act : PipeAct}

theorem readersServed_init [Devices] (procs : ProcTable Node) : (init procs).ReadersServed :=
  ⟨fun h => absurd rfl h, fun h => h.1 rfl⟩

variable [DecidableEq Node]

/-- **One step keeps the readers served exactly where it is not a writer
that leaves them asleep on what it stored.** -/
theorem readersServed_step_iff (hs : s.Inv) (hserved : s.ReadersServed) (hd : act.InDomain)
    (h : s.step (p, act) = some t) : t.ReadersServed ↔ s.FitsOverReaders (p, act) := by
  obtain ⟨-, -, ⟨pipe, f, ha, rfl⟩ | ⟨pipe, len, ha, rfl⟩⟩ := step_cases h
  · obtain ⟨hf, -⟩ := hs.active hd ha
    simp only [FitsOverReaders, ha]
    rcases lt_or_ge pipe.buffer.room f.lenLeft with hlt | hle
    · -- the writer sleeps, beside any reader that already did
      rw [runWrite_blocked (by have := hf.le_min_iff pipe.buffer.room; omega)]
      constructor
      · rintro ⟨-, hnot⟩ hr
        exact absurd ⟨hr, by simp⟩ hnot
      · intro hfit
        have hr : pipe.readblocked = [] := by
          by_contra hr
          have := hfit hr
          omega
        exact ⟨fun hne => absurd hr hne, fun hne => hne.1 hr⟩
    · -- the writer returns and has woken every reader
      rw [runWrite_returned ((hf.le_min_iff _).mpr hle)]
      exact ⟨fun _ _ => hle, fun _ => ⟨fun hne => absurd rfl hne, fun hne => hne.1 rfl⟩⟩
  · obtain ⟨hlen, -⟩ := hs.active hd ha
    obtain ⟨hbuf, hrb, hwb⟩ := active_pipe ha
    have hfits : s.FitsOverReaders (p, act) := by simp only [FitsOverReaders, ha]
    refine ⟨fun _ => hfits, fun _ => ?_⟩
    by_cases h0 : min pipe.buffer.filled len = 0
    · -- the reader sleeps on an empty pipe, on which no writer can be asleep
      have hempty : pipe.buffer.filled = 0 := by omega
      have hwriters : pipe.writeblocked = [] := by
        by_contra hne
        have hfull := hs.full (hwb ▸ hne)
        have hpos := hs.buffer.size_pos
        rw [← hbuf] at hfull hpos
        unfold Buffer.room at hfull
        omega
      rw [runRead_blocked h0]
      refine ⟨fun _ => ?_, fun hne => hne.2 hwriters⟩
      rw [Buffer.readBuffer_filled, h0, hempty]
      rfl
    · -- the reader returns: the pipe held something, so no reader was asleep
      have hnone : pipe.readblocked = [] := by
        by_contra hne
        have := hserved.1 (hrb ▸ hne)
        rw [← hbuf] at this
        omega
      rw [runRead_returned h0]
      exact ⟨fun hne => absurd hnone hne, fun hne => hne.1 hnone⟩

/-- **No reader sleeps on available data in exactly the runs whose writers
fit over sleeping readers**, for any number of processes and any
interleaving. -/
theorem readersServed_iff [Devices] {procs : ProcTable Node} {es : List (Node × PipeAct)}
    (hes : ∀ e ∈ es, e.2.InDomain) :
    Run.Throughout step ReadersServed (init procs) es ↔
      Run.Along step FitsOverReaders (init procs) es :=
  Run.throughout_iff_along (D := fun e => e.2.InDomain)
    (fun _ _ _ hs hd h => inv_step hs hd h)
    (fun _ _ _ hs hp hd h => readersServed_step_iff hs hp hd h) hes (inv_init procs)
    (readersServed_init procs)

/-- Two readers that find the pipe empty are served by a write that fits, and
by what the first leaves. -/
theorem readersServed_two_readers :
    let start := @init ℕ yalnixDevices ⟨1, [2, 3], [], [], [], 0⟩
    let es : List (ℕ × PipeAct) :=
      [(1, .read 4), (2, .read 4), (3, .write (fun _ => 7) 6 0), (1, .resume), (2, .resume)]
    (Run.exec step start es).map (fun s => s.pipe.buffer.filled) = some 0 ∧
      Run.Throughout step ReadersServed start es := by
  intro start es
  have hruns : (Run.exec step start es).map (fun s => s.pipe.buffer.filled) = some 0 := by
    decide +kernel
  have hfits : Run.Along step FitsOverReaders start es := by
    decide +kernel
  exact ⟨hruns, (@readersServed_iff ℕ _ yalnixDevices _ _ (by simp [es, PipeAct.InDomain])).mpr
    hfits⟩

/-- A reader sleeps on the empty pipe, and a writer brings more than it
holds. -/
def stranded : List (ℕ × PipeAct) := [(1, .read 1), (2, .write (fun _ => 7) 257 0)]

/-- **The law fails**: after `stranded` both sleep, the reader on a full
pipe. -/
theorem not_readersServed :
    ¬ ∀ (D : Devices) (procs : ProcTable ℕ) (es : List (ℕ × PipeAct)),
      (∀ e ∈ es, e.2.InDomain) →
        Run.Throughout step ReadersServed (@init ℕ D procs) es := by
  intro h
  have hes : ∀ e ∈ stranded, e.2.InDomain := by simp [stranded, PipeAct.InDomain]
  have hboth : (Run.exec step (@init ℕ yalnixDevices ⟨1, [2], [], [], [], 0⟩) stranded).map
      (fun s => (s.pipe.readblocked, s.pipe.writeblocked)) = some ([1], [2]) := by
    decide +kernel
  obtain ⟨s, hrun, hs⟩ := Option.map_eq_some_iff.mp hboth
  simp only [Prod.mk.injEq] at hs
  have hlast := (h yalnixDevices _ stranded hes).final hrun
  exact hlast.2 ⟨by rw [hs.1]; decide, by rw [hs.2]; decide⟩

end PipeState

end Yalnix
