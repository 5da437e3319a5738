import Yalnix.Common.Turns
import Yalnix.Machine.Places
/-!
# The processor is taken in turns

The ready queue is the queue of `Common/Turns.lean`, and the processor its
server. Every function of `scheduling.c` puts processes at the end of the
queue, or runs its head; `rr_preempt` runs the head whenever there is one.
So the clock is what ticks, and nobody who is ready waits for longer than
the queue before it.
-/

namespace Yalnix

open Turns

variable {Node Addr : Type}

/-- Who has the processor, and who is ready. -/
def ProcTable.turn (procs : ProcTable Node) : Turn Node := ⟨procs.running, procs.ready⟩

variable {procs : ProcTable Node}

/-! ## The scheduler -/

theorem turn_ready (procs : ProcTable Node) (p : Node) : procs.turn.Stays (ready procs p).turn :=
  ⟨rfl, [p], rfl⟩

theorem turn_unblockHead (procs : ProcTable Node) (q : List Node) :
    procs.turn.Stays (unblockHead procs q).1.turn := by
  cases q with
  | nil => exact Turn.Stays.refl _
  | cons p rest => exact turn_ready procs p

theorem turn_unblockAll (procs : ProcTable Node) (q : List Node) :
    procs.turn.Stays (unblockAll procs q).turn :=
  ⟨unblockAll_running procs q, q, unblockAll_ready procs q⟩

/-- **`run_next_ready`** runs the head of the queue. -/
theorem turn_runNextReady_passes (h : procs.ready ≠ []) :
    procs.turn.Passes (runNextReady procs).turn := by
  unfold runNextReady
  split
  · contradiction
  · rename_i next rest heq
    refine ⟨[], ?_⟩
    rw [List.append_nil]
    exact heq

theorem turn_runNextReady (procs : ProcTable Node) :
    procs.turn.Moves (runNextReady procs).turn := by
  by_cases h : procs.ready = []
  · refine .rests h ?_
    unfold runNextReady
    split
    · exact h
    · rename_i next rest heq
      exact absurd (heq.symm.trans h) (List.cons_ne_nil _ _)
  · exact .passes (turn_runNextReady_passes h)

section Preempt

variable [DecidableEq Node]

/-- **`rr_preempt`** passes the processor on, where somebody is ready. -/
theorem turn_rrPreempt_passes (h : procs.ready ≠ []) :
    procs.turn.Passes (rrPreempt procs).turn := by
  unfold rrPreempt
  rw [if_neg h]
  dsimp only
  split
  · refine (turn_ready procs procs.running).passes (turn_runNextReady_passes ?_)
    rw [ready_ready]
    exact List.append_ne_nil_of_right_ne_nil _ (List.cons_ne_nil _ _)
  · exact turn_runNextReady_passes h

theorem turn_rrPreempt (procs : ProcTable Node) : procs.turn.Moves (rrPreempt procs).turn := by
  by_cases h : procs.ready = []
  · unfold rrPreempt
    rw [if_pos h]
    exact .stays (Turn.Stays.refl _)
  · exact .passes (turn_rrPreempt_passes h)

end Preempt

/-! ## Pipes, terminals, locks and condition variables -/

theorem turn_readPipe (pipe : Pipe Node) (len : ℤ) :
    procs.turn.Moves (readPipe procs pipe len).1.turn := by
  unfold readPipe
  dsimp only
  split
  · exact turn_runNextReady procs
  · split
    · exact .stays (turn_unblockAll procs _)
    · exact .stays (Turn.Stays.refl _)

theorem turn_writePipe (pipe : Pipe Node) (f : WriteFrame) :
    procs.turn.Moves (writePipe procs pipe f).1.turn := by
  unfold writePipe
  dsimp only
  split
  · exact turn_runNextReady procs
  · split
    · exact .stays (turn_unblockAll procs _)
    · exact .stays (Turn.Stays.refl _)

theorem turn_readTty (inp : Ttyio Node) (len : ℤ) :
    procs.turn.Moves (readTty procs inp len).1.turn := by
  unfold readTty
  dsimp only
  split
  · exact turn_runNextReady procs
  · exact .stays (Turn.Stays.refl _)

theorem turn_writeTty (out : Ttyio Node) (f : TtyFrame) :
    procs.turn.Moves (writeTty procs out f).1.turn := by
  unfold writeTty
  split
  · split <;> exact turn_runNextReady procs
  · exact .stays (turn_unblockHead procs _)

theorem turn_receive (inp : Ttyio Node) (landing : ℤ → Byte) (read : ℤ) :
    procs.turn.Stays (receive procs inp landing read).1.turn := by
  unfold receive
  dsimp only
  split
  · exact turn_unblockAll procs _
  · exact Turn.Stays.refl _

namespace Sync

variable [DecidableEq Node] {y : Sync Node} {serial : ℕ}

theorem turn_release (lock : Lock Node) : procs.turn.Stays (release procs lock).1.turn := by
  unfold release
  split
  · exact Turn.Stays.refl _
  · split
    · exact turn_unblockHead procs _
    · exact Turn.Stays.refl _

theorem turn_acquire (lock : Lock Node) : procs.turn.Moves (acquire procs lock).1.turn := by
  unfold acquire
  split
  · exact turn_runNextReady procs
  · exact .stays (Turn.Stays.refl _)

theorem turn_runAcquire (id : ℤ) (lock : Lock Node) (waited : Option ℤ) :
    procs.turn.Moves (y.runAcquire procs serial id lock waited).1.turn := by
  have hacq : procs.turn.Moves (acquire procs lock).1.turn := turn_acquire lock
  unfold runAcquire
  split
  · rename_i procs' lock' heq
    rw [heq] at hacq
    exact hacq
  · rename_i procs' lock' r heq
    rw [heq] at hacq
    exact hacq

theorem turn_call (c : SyncCall) : procs.turn.Moves (y.call procs serial c).1.turn := by
  have hcall := y.called procs serial c
  generalize y.call procs serial c = r at hcall ⊢
  cases hcall with
  | refused => exact .stays (Turn.Stays.refl _)
  | acquire id lock => exact turn_runAcquire id lock none
  | release id lock => exact .stays (turn_release lock)
  | cvarWait cvarId id lock cvar => exact (turn_release lock).moves (turn_runNextReady _)
  | cvarSignal id cvar =>
    dsimp only
    unfold signalCvar
    split
    · exact .stays (turn_unblockHead procs _)
    · exact .stays (Turn.Stays.refl _)
  | cvarBroadcast id cvar =>
    dsimp only
    unfold broadcast
    split
    · exact .stays (turn_unblockAll procs _)
    · exact .stays (Turn.Stays.refl _)

theorem turn_resume {f : SyncFrame} {r : ProcTable Node × Sync Node}
    (hr : y.resume procs serial f = some r) : procs.turn.Moves r.1.turn := by
  cases cameBack hr with
  | waiting cvarId id since lock => exact turn_runAcquire id lock _
  | acquiring id waited lock => exact turn_runAcquire id _ waited

end Sync

/-! ## Processes -/

section Processes

variable [DecidableEq Node] [DecidableEq Addr] [Paging] {k k' : Kernel Node Addr}
  {c : Proc Node Addr} {kin : Kin Node Addr}

omit [DecidableEq Addr] [Paging] in
theorem turn_checkWait (parent : Node) : procs.turn.Stays (checkWait procs parent).turn := by
  unfold checkWait unblockWaiting
  split
  · split
    · exact Turn.Stays.refl _
    · exact turn_ready { procs with waiting := procs.waiting.erase parent } parent
  · exact Turn.Stays.refl _

omit [DecidableEq Addr] [Paging] in
/-- **`graveyard`** readies the parent first, and gives up the processor
after. -/
theorem turn_graveyard (k : Kernel Node Addr) :
    k.procs.turn.Moves (graveyard k).procs.turn := by
  unfold graveyard
  dsimp only
  cases k.curr.bind Proc.parent with
  | none => exact turn_runNextReady { k.procs with orphans := k.procs.orphans ++ [k.procs.running] }
  | some parent => exact (turn_checkWait parent).moves (turn_runNextReady (checkWait k.procs parent))

theorem turn_kernelExit {status : ℤ} (hexit : kernelExit k status = some k') :
    k.procs.turn.Moves k'.procs.turn := by
  have hsame : (processTerminate (reapOrphans k) k.procs.running status).procs.turn =
      k.procs.turn := by
    rw [processTerminate_procs, reapOrphans_procs]
    rfl
  rw [kernelExit_eq hexit, ← hsame]
  exact turn_graveyard _

theorem Effect.turn {act : ProcAct Node Addr} (hc : k.curr = some c)
    (heff : Effect k c kin act k') : k.procs.turn.Moves k'.procs.turn := by
  have hsame : ∀ {procs : ProcTable Node}, procs = k.procs → k.procs.turn.Moves procs.turn := by
    rintro procs rfl
    exact .stays (Turn.Stays.refl _)
  cases heff with
  | forkRefused => exact hsame rfl
  | forked child data pid => exact .stays (turn_ready k.procs child)
  | execRefused => exact hsame rfl
  | loaded => exact hsame rfl
  | killed filename argvec env args l k' hl hcode hexit =>
    exact turn_kernelExit (k := k.set k.procs.running (loadedProc c l) l.1.mem) hexit
  | exited status k' hexit => exact turn_kernelExit hexit
  | waitRefused => exact hsame rfl
  | asleep => exact turn_runNextReady k.procs
  | collected act statusPtr child rest childPcb =>
    refine .stays ?_
    dsimp only
    rw [collected_procs]
    exact Turn.Stays.refl _
  | brk addr r hr => exact hsame (kernelUserBrk_keeps hc hr).2.1
  | fault addr k' hk' =>
    rcases trapMemory_keeps hc hk' with hexit | ⟨-, hprocs, -⟩
    · exact turn_kernelExit hexit
    · exact hsame hprocs
  | stored => exact hsame rfl

end Processes

/-! ## The machine -/

/-- A clock trap. -/
def Event.isClock : Event Node Addr → Bool
  | .clock => true
  | _ => false

namespace Machine

variable [Devices] [DecidableEq Node] {b : Boot Node Addr} {m t : Machine Node Addr}
  {e : Event Node Addr} {es : List (Event Node Addr)} {ahead behind : List Node} {p : Node}

/-- Who has the processor, and who is ready. -/
def turn (m : Machine Node Addr) : Turn Node := m.kernel.procs.turn

omit [Devices] in
theorem turn_checkDelayLoop (sleepers : List Node) (k : Kernel Node Addr) :
    k.procs.turn.Stays (checkDelayLoop sleepers k).procs.turn := by
  induction sleepers generalizing k with
  | nil => exact Turn.Stays.refl _
  | cons curr rest ih =>
    unfold checkDelayLoop
    cases k.proc curr with
    | none => exact Turn.Stays.refl _
    | some c =>
      dsimp only
      split
      · show k.procs.turn.Stays (unblockDelayed k.procs curr).turn
        unfold unblockDelayed
        split
        · exact Turn.Stays.refl _
        · exact turn_ready { k.procs with delayed := k.procs.delayed.erase curr } curr
      · exact ih _

omit [Devices] in
/-- **A clock trap** readies who has slept enough, and preempts. -/
theorem turn_trapClock (m : Machine Node Addr) : m.turn.Moves m.trapClock.turn :=
  (turn_checkDelayLoop m.kernel.procs.delayed m.kernel).moves (turn_rrPreempt _)

omit [Devices] in
theorem turn_trapClock_passes (h : m.kernel.procs.ready ≠ []) :
    m.turn.Passes m.trapClock.turn := by
  have hstay := turn_checkDelayLoop m.kernel.procs.delayed m.kernel
  refine hstay.passes (turn_rrPreempt_passes ?_)
  obtain ⟨-, new, hnew⟩ := hstay
  intro hnil
  exact h (List.append_eq_nil_iff.mp (hnew.symm.trans hnil)).1

section Calls

variable [Paging]

omit [DecidableEq Node] in
theorem turn_io {c : Proc Node Addr} {r : Machine Node Addr × Outcome IoFrame}
    (hcall : m.IoCall c e r) : m.turn.Moves r.1.turn := by
  rcases hcall.cases with ⟨rfl, -⟩ | ⟨f, hact⟩
  · exact .stays (Turn.Stays.refl _)
  cases hact with
  | ttyRead => exact turn_readTty _ _
  | ttyWrite => exact turn_writeTty _ _
  | pipeRead => exact turn_readPipe _ _
  | pipeWrite => exact turn_writePipe _ _
  | ttyReadBack => exact turn_readTty _ _
  | ttyWriteBack => exact turn_writeTty _ _
  | pipeReadBack => exact turn_readPipe _ _
  | pipeWriteBack => exact turn_writePipe _ _

end Calls

omit [Devices] in
theorem turn_kernelDelay (clockTicks : ℤ) :
    m.turn.Moves (m.kernelDelay clockTicks).1.turn := by
  unfold kernelDelay
  split
  · exact .stays (Turn.Stays.refl _)
  · split
    · exact turn_runNextReady m.kernel.procs
    · exact .stays (Turn.Stays.refl _)

variable [Paging] [DecidableEq Addr]

/-- **Every event keeps the discipline.** -/
theorem turn_step (hs : m.Sound) (h : m.step e = some t) : m.turn.Moves t.turn := by
  have hsame : ∀ {t : Machine Node Addr}, t.kernel.procs = m.kernel.procs →
      m.turn.Moves t.turn := by
    intro t ht
    refine .stays ?_
    unfold turn
    rw [ht]
    exact Turn.Stays.refl _
  rcases step_cases hs h with ⟨c, kin, hc, hkin, hrun, hby⟩ | htrap
  · cases hby with
    | acted e act k' he hout hsync heff => exact heff.turn (k := m.kernel.onStack c) hc
    | delayed clockTicks => exact turn_kernelDelay clockTicks
    | io e r hwaits hsync hcall =>
      have hmoves := turn_io hcall
      obtain ⟨t, out⟩ := r
      cases out <;> exact hmoves
    | made s r hsync hinit => exact hsame hinit.made.procs
    | synced call hwaits hframe => exact Sync.turn_call call
    | back f r hwaits hframe hr => exact Sync.turn_resume hr
    | reclaimed id size => exact hsame (congrArg Kernel.procs (kernelReclaim_fewer id size).1)
  · cases htrap with
    | clock => exact turn_trapClock m
    | receive tty landing read => exact .stays (turn_receive _ landing read)
    | transmit tty => exact .stays (turn_unblockHead _ _)

/-- **The processor is a server** that keeps the discipline, and the clock
ticks for it. -/
theorem keeps_turns :
    TakesTurns (step : Machine Node Addr → _) turn Sound Event.InRange Event.isClock where
  inv m e t hs he h := (step_owes hs he h).1
  out m hs := hs.running_not_ready
  moves m e t hs _ h := turn_step hs h
  tick m e t hs _ htick h hne := by
    cases e with
    | clock =>
      obtain ⟨-, heq⟩ := Option.ite_none_right_eq_some.mp h
      rw [← Option.some.inj heq]
      exact turn_trapClock_passes hne
    | _ => cases htick

/-- **Round robin.** In every run, a process on the ready queue is given the
processor before the clock has trapped more than once for each process ahead
of it and once for itself; until then the processor goes to those ahead, one
after the other as they stand, and to nobody else. -/
theorem served_in_turn {m₀ u : Machine Node Addr} {before : List (Event Node Addr)}
    (hb : start b = some m₀) (hbefore : Run.exec step m₀ before = some m)
    (hrun : Run.exec step m es = some u) (hes : ∀ e ∈ before ++ es, e.InRange)
    (hqueue : m.kernel.procs.ready = ahead ++ p :: behind)
    (henough : ahead.length < es.countP Event.isClock) :
    ∃ es₁ es₂ v, es = es₁ ++ es₂ ∧ Run.exec step m es₁ = some v ∧
      v.kernel.procs.running = p ∧ es₁.countP Event.isClock ≤ ahead.length + 1 ∧
      servedIn step turn m es₁ = ahead ++ [p] := by
  have hs : m.Sound := Run.inv_of_exec keeps_turns.inv
    (fun e he => hes e (List.mem_append_left _ he)) (start_sound hb).1 hbefore
  exact keeps_turns.served (fun e he => hes e (List.mem_append_right _ he)) hs hrun hqueue henough

omit [Paging] [Devices] in
/-- Init forks twice, and its second child is next but one. -/
theorem served_in_turn_second :
    let _ := yalnixPaging
    let _ := yalnixDevices
    ∃ m₀ m : Machine ℕ ℕ, start (smallBoot 140) = some m₀ ∧
      Run.exec step m₀ [.call (.proc (.fork 2 2 2)), .call (.proc (.fork 3 3 3))] = some m ∧
      ∃ es₁ es₂ v, [.clock, .clock, .clock] = es₁ ++ es₂ ∧ Run.exec step m es₁ = some v ∧
        v.kernel.procs.running = 3 ∧ es₁.countP Event.isClock ≤ 2 ∧
        servedIn step turn m es₁ = [2, 3] := by
  let _ := yalnixPaging
  let _ := yalnixDevices
  let before : List (Event ℕ ℕ) := [.call (.proc (.fork 2 2 2)), .call (.proc (.fork 3 3 3))]
  have hqueued : ((start (smallBoot 140)).bind fun m₀ => Run.exec step m₀ before).map
      (fun m => m.kernel.procs.ready) = some [2, 3] := by
    decide +kernel
  have hruns : ((start (smallBoot 140)).bind fun m₀ =>
      Run.exec step m₀ (before ++ [.clock, .clock, .clock])).isSome = true := by
    decide +kernel
  obtain ⟨m, hm, hqueue⟩ := Option.map_eq_some_iff.mp hqueued
  obtain ⟨m₀, hm₀, hbefore⟩ := Option.bind_eq_some_iff.mp hm
  rw [hm₀] at hruns
  obtain ⟨u, hu⟩ := Option.isSome_iff_exists.mp hruns
  obtain ⟨m', hm', hrun⟩ := Run.exec_append.mp hu
  obtain rfl := Option.some.inj (hbefore.symm.trans hm')
  have hsplit : m.kernel.procs.ready = [2] ++ 3 :: [] := hqueue
  exact ⟨m₀, m, hm₀, hbefore, served_in_turn hm₀ hbefore hrun
    (by simp [before, Event.InRange]) hsplit (by decide)⟩

end Machine

end Yalnix
