import Yalnix.Machine.Places
import Yalnix.Pilocvario.Sync.Waits
/-!
# Nobody who is ready is forgotten

Who is on the ready queue when an event happens is on it afterwards, or has
been given the processor. The operations of the scheduler fall in two: those
that only put processes on the queue, and `run_next_ready`, which takes its
head off and runs it.
-/

namespace Yalnix

variable {Node Addr : Type} {procs : ProcTable Node} {p : Node}

/-! ## Processes -/

section Processes

variable [DecidableEq Node] [DecidableEq Addr] [Paging] {k k' : Kernel Node Addr}
  {c : Proc Node Addr} {kin : Kin Node Addr}

theorem awake_kernelExit {status : ℤ} (hexit : kernelExit k status = some k')
    (h : p ∈ k.procs.ready) : k'.procs.Awake p := by
  have hprocs : (processTerminate (reapOrphans k) k.procs.running status).procs =
      { k.procs with orphans := [] } := by
    rw [processTerminate_procs, reapOrphans_procs]
  rw [kernelExit_eq hexit]
  unfold graveyard
  dsimp only
  cases (processTerminate (reapOrphans k) k.procs.running status).curr.bind Proc.parent with
  | none =>
    refine awake_runNextReady (?_ : p ∈ _)
    show p ∈ (processTerminate (reapOrphans k) k.procs.running status).procs.ready
    rw [hprocs]
    exact h
  | some parent =>
    refine awake_runNextReady (?_ : p ∈ _)
    show p ∈ (checkWait (processTerminate (reapOrphans k) k.procs.running status).procs
      parent).ready
    rw [hprocs]
    unfold checkWait unblockWaiting
    split
    · split
      · exact h
      · exact List.mem_append_left _ h
    · exact h

theorem Effect.awake {act : ProcAct Node Addr} (hc : k.curr = some c)
    (heff : Effect k c kin act k') (h : p ∈ k.procs.ready) : k'.procs.Awake p := by
  cases heff with
  | forkRefused => exact Or.inl h
  | forked child data pid => exact Or.inl (List.mem_append_left _ h)
  | execRefused => exact Or.inl h
  | loaded => exact Or.inl h
  | killed filename argvec env args l k' hl hcode hexit => exact awake_kernelExit hexit h
  | exited status k' hexit => exact awake_kernelExit hexit h
  | waitRefused => exact Or.inl h
  | asleep => exact awake_runNextReady h
  | collected act statusPtr child rest childPcb =>
    left
    dsimp only
    rw [collected_procs]
    exact h
  | brk addr r hr =>
    left
    rw [(kernelUserBrk_keeps hc hr).2.1]
    exact h
  | fault addr k' hk' =>
    rcases trapMemory_keeps hc hk' with hexit | ⟨-, hprocs, -⟩
    · exact awake_kernelExit hexit h
    · left
      rw [hprocs]
      exact h
  | stored => exact Or.inl h

end Processes

/-! ## The machine -/

namespace Machine

variable [Devices] [DecidableEq Node] {m t : Machine Node Addr} {e : Event Node Addr}

omit [Devices] in
theorem mem_ready_checkDelayLoop (sleepers : List Node) (k : Kernel Node Addr)
    (h : p ∈ k.procs.ready) : p ∈ (checkDelayLoop sleepers k).procs.ready := by
  induction sleepers generalizing k with
  | nil => exact h
  | cons curr rest ih =>
    unfold checkDelayLoop
    cases k.proc curr with
    | none => exact h
    | some c =>
      dsimp only
      split
      · show p ∈ (unblockDelayed k.procs curr).ready
        unfold unblockDelayed
        split
        · exact h
        · exact List.mem_append_left _ h
      · exact ih _ h

omit [Devices] in
theorem awake_rrPreempt (h : p ∈ procs.ready) : (rrPreempt procs).Awake p := by
  unfold rrPreempt
  split
  · exact Or.inl h
  · dsimp only
    split
    · exact awake_runNextReady (List.mem_append_left _ h)
    · exact awake_runNextReady h

section Calls

variable [Paging]

omit [DecidableEq Node] in
theorem awake_io {c : Proc Node Addr} {r : Machine Node Addr × Outcome IoFrame}
    (hcall : m.IoCall c e r) (h : p ∈ m.kernel.procs.ready) : r.1.kernel.procs.Awake p := by
  rcases hcall.cases with ⟨rfl, -⟩ | ⟨f, hact⟩
  · exact Or.inl h
  cases hact with
  | ttyRead => exact awake_readTty _ _ h
  | ttyWrite => exact awake_writeTty _ _ h
  | pipeRead => exact awake_readPipe _ _ h
  | pipeWrite => exact awake_writePipe _ _ h
  | ttyReadBack => exact awake_readTty _ _ h
  | ttyWriteBack => exact awake_writeTty _ _ h
  | pipeReadBack => exact awake_readPipe _ _ h
  | pipeWriteBack => exact awake_writePipe _ _ h

end Calls

omit [Devices] in
theorem kernelDelay_awake (clockTicks : ℤ) (h : p ∈ m.kernel.procs.ready) :
    (m.kernelDelay clockTicks).1.kernel.procs.Awake p := by
  unfold kernelDelay
  split
  · exact Or.inl h
  · split
    · exact awake_runNextReady h
    · exact Or.inl h

variable [Paging] [DecidableEq Addr]

/-- **Who is ready stays ready, or runs.** -/
theorem awake_step (hs : m.Sound) (h : m.step e = some t) (hp : p ∈ m.kernel.procs.ready) :
    t.kernel.procs.Awake p := by
  rcases step_cases hs h with ⟨c, kin, hc, hkin, hrun, hby⟩ | htrap
  · cases hby with
    | acted e act k' he hout hsync heff => exact heff.awake (k := m.kernel.onStack c) hc hp
    | delayed clockTicks => exact kernelDelay_awake clockTicks hp
    | io e r hwaits hsync hcall =>
      have hawake := awake_io hcall hp
      obtain ⟨t, out⟩ := r
      cases out <;> exact hawake
    | made s r hsync hinit =>
      left
      rw [hinit.made.procs]
      exact hp
    | synced call hwaits hframe => exact Sync.awake_call call hp
    | back f r hwaits hframe hr => exact Sync.awake_resume hr hp
    | reclaimed id size =>
      left
      rw [(kernelReclaim_fewer (m := m) id size).1]
      exact hp
  · cases htrap with
    | clock => exact awake_rrPreempt (mem_ready_checkDelayLoop _ _ hp)
    | receive tty landing read => exact Or.inl (mem_ready_receive _ landing read hp)
    | transmit tty => exact Or.inl (mem_ready_unblockHead _ hp)

end Machine

end Yalnix
