import Yalnix.Pilocvario.Pipe.Model
import Yalnix.Pilocvario.Sync.Steps
import Yalnix.Pilocvario.Tty.Model
import Yalnix.Scheduling.Places
/-!
# What pipes, locks, condition variables and terminals hold

Every function of `pilocvario.c` is a trade between the scheduler and the
queues of its object.
-/

namespace Yalnix

variable {Node : Type} {procs procs' : ProcTable Node}

/-! ## Who is ready is not forgotten

Each of them keeps who is on the ready queue there, or runs it. -/

section Awake

variable {p : Node}

theorem awake_readPipe (pipe : Pipe Node) (len : ℤ) (h : p ∈ procs.ready) :
    (readPipe procs pipe len).1.Awake p := by
  unfold readPipe
  dsimp only
  split
  · exact awake_runNextReady h
  · split
    · exact Or.inl (mem_ready_unblockAll _ h)
    · exact Or.inl h

theorem awake_writePipe (pipe : Pipe Node) (f : WriteFrame) (h : p ∈ procs.ready) :
    (writePipe procs pipe f).1.Awake p := by
  unfold writePipe
  dsimp only
  split
  · exact awake_runNextReady h
  · split
    · exact Or.inl (mem_ready_unblockAll _ h)
    · exact Or.inl h

theorem awake_readTty (inp : Ttyio Node) (len : ℤ) (h : p ∈ procs.ready) :
    (readTty procs inp len).1.Awake p := by
  unfold readTty
  dsimp only
  split
  · exact awake_runNextReady h
  · exact Or.inl h

theorem awake_writeTty (out : Ttyio Node) (f : TtyFrame) (h : p ∈ procs.ready) :
    (writeTty procs out f).1.Awake p := by
  unfold writeTty
  split
  · split <;> exact awake_runNextReady h
  · exact Or.inl (mem_ready_unblockHead _ h)

theorem mem_ready_receive (inp : Ttyio Node) (landing : ℤ → Byte) (read : ℤ)
    (h : p ∈ procs.ready) : p ∈ (receive procs inp landing read).1.ready := by
  unfold receive
  dsimp only
  split
  · exact mem_ready_unblockAll _ h
  · exact h

section Locks

variable [DecidableEq Node]

theorem awake_acquire (lock : Lock Node) (h : p ∈ procs.ready) :
    (acquire procs lock).1.Awake p := by
  unfold acquire
  split
  · exact awake_runNextReady h
  · exact Or.inl h

theorem mem_ready_release (lock : Lock Node) (h : p ∈ procs.ready) :
    p ∈ (release procs lock).1.ready := by
  unfold release
  split
  · exact h
  · split
    · exact mem_ready_unblockHead _ h
    · exact h

end Locks

end Awake

/-! ## What each of them holds -/

variable [DecidableEq Node]

/-- How often a process is on the queues of a pipe. -/
def Pipe.held (pipe : Pipe Node) (n : Node) : ℕ :=
  pipe.readblocked.count n + pipe.writeblocked.count n

/-! ## One object -/

theorem trade_release (procs : ProcTable Node) (lock : Lock Node) :
    Trade procs (release procs lock).1 (fun n => lock.blocked.count n)
      fun n => (release procs lock).2.1.blocked.count n := by
  unfold release
  split
  · exact Trade.refl _ _
  · split
    · exact trade_unblockHead procs lock.blocked
    · exact Trade.refl _ _

theorem trade_signalCvar (procs : ProcTable Node) (cvar : Cvar Node) :
    Trade procs (signalCvar procs cvar).1 (fun n => cvar.blocked.count n)
      fun n => (signalCvar procs cvar).2.blocked.count n := by
  unfold signalCvar
  split
  · exact trade_unblockHead procs cvar.blocked
  · exact Trade.refl _ _

theorem trade_broadcast (procs : ProcTable Node) (cvar : Cvar Node) :
    Trade procs (broadcast procs cvar).1 (fun n => cvar.blocked.count n)
      fun n => (broadcast procs cvar).2.blocked.count n := by
  unfold broadcast
  split
  · exact trade_unblockAll procs cvar.blocked
  · exact Trade.refl _ _

theorem trade_writeAlert (procs : ProcTable Node) (out : Ttyio Node) :
    Trade procs (writeAlert procs out).1 (fun n => out.blocked.count n)
      fun n => (writeAlert procs out).2.blocked.count n :=
  trade_unblockHead procs out.blocked

theorem trade_receive (procs : ProcTable Node) (inp : Ttyio Node) (landing : ℤ → Byte) (read : ℤ) :
    Trade procs (receive procs inp landing read).1 (fun n => inp.blocked.count n)
      fun n => (receive procs inp landing read).2.blocked.count n := by
  unfold receive
  dsimp only
  split
  · exact trade_unblockAll procs inp.blocked
  · exact Trade.refl _ _

section Blocking

variable (hrun : procs.running ≠ procs.idleNode) (hidle : procs.idleNode ∉ procs.places)

include hrun hidle

theorem trade_acquire (lock : Lock Node) :
    Trade procs (acquire procs lock).1 (fun n => lock.blocked.count n)
      fun n => (acquire procs lock).2.1.blocked.count n := by
  unfold acquire
  split
  · exact trade_block hrun hidle lock.blocked
  · exact Trade.refl _ _

/-- **`wait_cvar`** moves a waiter for the lock to the ready queue and its
caller to the condition variable. -/
theorem trade_waitCvar (cvar : Cvar Node) (lock : Lock Node)
    (hlock : procs.idleNode ∉ lock.blocked) :
    Trade procs (waitCvar procs cvar lock).1
      (fun n => lock.blocked.count n + cvar.blocked.count n)
      fun n => (waitCvar procs cvar lock).2.2.blocked.count n +
        (waitCvar procs cvar lock).2.1.blocked.count n := by
  obtain ⟨r, hr⟩ : ∃ r, r = release procs lock := ⟨_, rfl⟩
  have hrelease := trade_release procs lock
  have hrunning : r.1.running = procs.running := by
    rw [hr]
    unfold release
    split
    · rfl
    · split
      · cases lock.blocked <;> rfl
      · rfl
  have hidle' := hrelease.idle_not_mem hidle (List.count_eq_zero.mpr hlock)
  rw [← hr] at hrelease hidle'
  have hblock := trade_block (by rw [hrunning, hrelease.idleNode]; exact hrun) hidle' cvar.blocked
  have hfirst := hrelease.frame (fun n => lock.blocked.count n + cvar.blocked.count n)
    (fun n => r.2.1.blocked.count n + cvar.blocked.count n) fun n => by omega
  have hsecond := hblock.frame (fun n => r.2.1.blocked.count n + cvar.blocked.count n)
    (fun n => r.2.1.blocked.count n + (block r.1 cvar.blocked).2.count n) fun n => by omega
  have heq : waitCvar procs cvar lock = ((block r.1 cvar.blocked).1,
      { cvar with blocked := (block r.1 cvar.blocked).2 },
      { r.2.1 with cvar := r.2.1.cvar + 1 }) := by
    rw [hr]
    rfl
  rw [heq]
  exact hfirst.trans hsecond

theorem trade_readPipe (pipe : Pipe Node) (len : ℤ) :
    Trade procs (readPipe procs pipe len).1 pipe.held (readPipe procs pipe len).2.1.held := by
  unfold readPipe Pipe.held
  dsimp only
  split
  · exact (trade_block hrun hidle pipe.readblocked).frame _ _ fun n => by
      dsimp only
      omega
  · split
    · exact (trade_unblockAll procs pipe.writeblocked).frame _ _ fun n => by
        dsimp only
        rw [List.count_nil]
        omega
    · exact Trade.refl _ _

theorem trade_writePipe (pipe : Pipe Node) (f : WriteFrame) :
    Trade procs (writePipe procs pipe f).1 pipe.held (writePipe procs pipe f).2.1.held := by
  unfold writePipe Pipe.held
  dsimp only
  split
  · exact (trade_block hrun hidle pipe.writeblocked).frame _ _ fun n => by
      dsimp only
      omega
  · split
    · exact (trade_unblockAll procs pipe.readblocked).frame _ _ fun n => by
        dsimp only
        rw [List.count_nil]
        omega
    · exact Trade.refl _ _

theorem trade_readTty (inp : Ttyio Node) (len : ℤ) :
    Trade procs (readTty procs inp len).1 (fun n => inp.blocked.count n)
      fun n => (readTty procs inp len).2.1.blocked.count n := by
  unfold readTty
  dsimp only
  split
  · exact trade_block hrun hidle inp.blocked
  · exact Trade.refl _ _

theorem trade_writeTty (out : Ttyio Node) (f : TtyFrame) :
    Trade procs (writeTty procs out f).1 (fun n => out.blocked.count n)
      fun n => (writeTty procs out f).2.1.blocked.count n := by
  unfold writeTty
  split
  · split
    · exact trade_block hrun hidle out.blocked
    · exact trade_hBlock hrun hidle out.blocked
  · exact trade_unblockHead procs out.blocked

end Blocking

/-! ## All locks and condition variables -/

namespace Sync

/-- How often a process is on the queues of locks and condition
variables. -/
def held (y : Sync Node) (n : Node) : ℕ :=
  Filed.total (fun l : Lock Node => l.blocked.count n) y.lock +
    Filed.total (fun c : Cvar Node => c.blocked.count n) y.cvar

variable {y : Sync Node} {serial : ℕ} {lockId cvarId : ℤ} {lock : Lock Node} {cvar : Cvar Node}
  {n : Node}

theorem count_lock_le (h : Filed.find y.lock lockId = some lock) :
    lock.blocked.count n ≤ y.held n := by
  have := Filed.le_total_of_find (f := fun l : Lock Node => l.blocked.count n) h
  unfold held
  omega

theorem count_cvar_le (h : Filed.find y.cvar cvarId = some cvar) :
    cvar.blocked.count n ≤ y.held n := by
  have := Filed.le_total_of_find (f := fun c : Cvar Node => c.blocked.count n) h
  unfold held
  omega

/-- **Another record for a lock** changes what is held by what it holds. -/
theorem held_store_lock (h : Filed.find y.lock lockId = some lock) (lock' : Lock Node)
    (frame : Node → Option SyncFrame) (log : List (Note (Node × ℕ))) (n : Node) :
    held { y with lock := Filed.store y.lock lockId lock', frame := frame, log := log } n +
      lock.blocked.count n = y.held n + lock'.blocked.count n := by
  have := Filed.total_store (f := fun l : Lock Node => l.blocked.count n) (x := lock') h
  unfold held
  dsimp only
  omega

theorem held_store_cvar (h : Filed.find y.cvar cvarId = some cvar) (cvar' : Cvar Node)
    (log : List (Note (Node × ℕ))) (n : Node) :
    held { y with cvar := Filed.store y.cvar cvarId cvar', log := log } n +
      cvar.blocked.count n = y.held n + cvar'.blocked.count n := by
  have := Filed.total_store (f := fun c : Cvar Node => c.blocked.count n) (x := cvar') h
  unfold held
  dsimp only
  omega

theorem held_store_both (hl : Filed.find y.lock lockId = some lock)
    (hc : Filed.find y.cvar cvarId = some cvar) (lock' : Lock Node) (cvar' : Cvar Node)
    (frame : Node → Option SyncFrame) (log : List (Note (Node × ℕ))) (n : Node) :
    held { y with
        lock := Filed.store y.lock lockId lock'
        cvar := Filed.store y.cvar cvarId cvar'
        frame := frame
        log := log } n + (lock.blocked.count n + cvar.blocked.count n) =
      y.held n + (lock'.blocked.count n + cvar'.blocked.count n) := by
  have h₁ := Filed.total_store (f := fun l : Lock Node => l.blocked.count n) (x := lock') hl
  have h₂ := Filed.total_store (f := fun c : Cvar Node => c.blocked.count n) (x := cvar') hc
  unfold held
  dsimp only
  omega

section Calls

variable (hrun : procs.running ≠ procs.idleNode) (hidle : procs.idleNode ∉ procs.places)

include hrun hidle

/-- `acquire`, of a lock with the queue of the one that is filed. -/
theorem trade_runAcquire (h : Filed.find y.lock lockId = some lock) {l : Lock Node}
    (hl : l.blocked = lock.blocked) (waited : Option ℤ) :
    Trade procs (y.runAcquire procs serial lockId l waited).1 y.held
      (y.runAcquire procs serial lockId l waited).2.held := by
  have htrade := trade_acquire hrun hidle l
  unfold runAcquire
  cases hacq : acquire procs l with
  | mk procs' r =>
    obtain ⟨l', out⟩ := r
    rw [hacq] at htrade
    cases out with
    | blocked u =>
      refine htrade.frame _ _ fun n => ?_
      rw [hl]
      exact held_store_lock h l' _ _ n
    | returned v =>
      refine htrade.frame _ _ fun n => ?_
      have hblocked : (if waited.isSome then { l' with cvar := l'.cvar - 1 } else l').blocked =
          l'.blocked := by
        split <;> rfl
      rw [hl, ← hblocked]
      exact held_store_lock h _ _ _ n

/-- **A call on locks and condition variables** trades with their
queues. -/
theorem trade_call (hheld : y.held procs.idleNode = 0) (c : SyncCall) :
    Trade procs (y.call procs serial c).1 y.held (y.call procs serial c).2.held := by
  have hcall := y.called procs serial c
  generalize y.call procs serial c = r at hcall ⊢
  cases hcall with
  | refused => exact Trade.refl _ _
  | acquire lockId lock hfind => exact trade_runAcquire hrun hidle hfind rfl none
  | release lockId lock hfind =>
    exact (trade_release procs lock).frame _ _ fun n =>
      held_store_lock hfind (release procs lock).2.1 _ _ n
  | cvarWait cvarId lockId lock cvar hl hc =>
    have hlock : procs.idleNode ∉ lock.blocked := by
      rw [← List.count_eq_zero]
      have := count_lock_le hl (n := procs.idleNode)
      omega
    exact (trade_waitCvar hrun hidle cvar lock hlock).frame _ _ fun n =>
      held_store_both hl hc (waitCvar procs cvar lock).2.2 (waitCvar procs cvar lock).2.1 _ _ n
  | cvarSignal cvarId cvar hfind =>
    exact (trade_signalCvar procs cvar).frame _ _ fun n =>
      held_store_cvar hfind (signalCvar procs cvar).2 _ n
  | cvarBroadcast cvarId cvar hfind =>
    exact (trade_broadcast procs cvar).frame _ _ fun n =>
      held_store_cvar hfind (broadcast procs cvar).2 _ n

/-- **So does coming back** from a block. -/
theorem trade_resume {f : SyncFrame} {r : ProcTable Node × Sync Node}
    (h : y.resume procs serial f = some r) : Trade procs r.1 y.held r.2.held := by
  cases f with
  | waiting cvarId lockId since =>
    obtain ⟨lock, hlock, rfl⟩ := Option.map_eq_some_iff.mp h
    exact trade_runAcquire hrun hidle hlock rfl _
  | acquiring lockId waited =>
    obtain ⟨lock, hlock, rfl⟩ := Option.map_eq_some_iff.mp h
    exact trade_runAcquire hrun hidle hlock (l := fulfil procs lock) rfl _

end Calls

end Sync

end Yalnix
