import Mathlib.Logic.Function.Basic
import Yalnix.Common.Filed
import Yalnix.Paging
import Yalnix.Scheduling.Model
/-!
# Locks and condition variables

`acquire`, `release` and the functions on condition variables, cut at their
calls of `block`, and `Sync`: the locks and condition variables on
`pilocvar`, with the calls on them in progress. Each call is made, or come
back to, by the process that is running.

`Sync` also keeps a history: in what order processes went to sleep in
`CvarWait` and returned from the calls. A process is noted with its place in
the order of births, since its node may be used again.
-/

namespace Yalnix

/-- `lock_t`. -/
structure Lock (Node : Type) where
  owner : Option Node
  blocked : List Node
  /-- Processes that were woken and have not yet come back. -/
  unfulfilled : ℤ
  /-- Processes inside `wait_cvar` that will want the lock again. -/
  cvar : ℤ
  /-- History: who was taken off `blocked` by a release and has not come
  back. -/
  woken : List Node

/-- `cvar_t`, in a block of the size of a `pipe_t`. -/
structure Cvar (Node : Type) where
  blocked : List Node
  /-- The second word of the block, as `malloc` left it. -/
  second : ℤ

/-- `new_lock`, less the node it is filed under. -/
def newLock {Node : Type} : Lock Node where
  owner := none
  blocked := []
  unfulfilled := 0
  cvar := 0
  woken := []

/-- `new_cvar`, likewise. -/
def newCvar {Node : Type} (second : ℤ) : Cvar Node where
  blocked := []
  second := second

variable {Node : Type}

/-! ## `pilocvario.c` -/

section Functions

variable [DecidableEq Node]

/-- `acquire`, from the test of its loop to its return or its next block. -/
def acquire (procs : ProcTable Node) (lock : Lock Node) :
    ProcTable Node × Lock Node × Outcome Unit :=
  if ¬ (lock.owner = none ∨ lock.owner = some procs.running) then
    let (procs, blocked) := block procs lock.blocked
    (procs, { lock with blocked := blocked }, .blocked ())
  else (procs, { lock with owner := some procs.running }, .returned 0)

/-- What `acquire` does when it comes back from its block, before it tests
again. -/
def fulfil (procs : ProcTable Node) (lock : Lock Node) : Lock Node :=
  { lock with
    unfulfilled := lock.unfulfilled - 1
    woken := lock.woken.erase procs.running }

/-- `release`. -/
def release (procs : ProcTable Node) (lock : Lock Node) : ProcTable Node × Lock Node × ℤ :=
  if lock.owner ≠ some procs.running then (procs, lock, errorCode)
  else if lock.blocked ≠ [] then
    let (procs, blocked) := unblockHead procs lock.blocked
    (procs, { lock with
      owner := none
      blocked := blocked
      unfulfilled := lock.unfulfilled + 1
      woken := lock.woken ++ lock.blocked.take 1 }, 0)
  else (procs, { lock with owner := none }, 0)

/-- `signal_cvar`. -/
def signalCvar (procs : ProcTable Node) (cvar : Cvar Node) : ProcTable Node × Cvar Node :=
  if cvar.blocked ≠ [] then
    let (procs, blocked) := unblockHead procs cvar.blocked
    (procs, { cvar with blocked := blocked })
  else (procs, cvar)

/-- `broadcast`. -/
def broadcast (procs : ProcTable Node) (cvar : Cvar Node) : ProcTable Node × Cvar Node :=
  if cvar.blocked ≠ [] then (unblockAll procs cvar.blocked, { cvar with blocked := [] })
  else (procs, cvar)

/-- `wait_cvar`, up to its block. What `release` returns is not looked
at. -/
def waitCvar (procs : ProcTable Node) (cvar : Cvar Node) (lock : Lock Node) :
    ProcTable Node × Cvar Node × Lock Node :=
  let (procs, lock, _) := release procs lock
  let lock := { lock with cvar := lock.cvar + 1 }
  let (procs, blocked) := block procs cvar.blocked
  (procs, { cvar with blocked := blocked }, lock)

end Functions

/-- `is_empty`, of the list a word points at, where `size` says what the
memory has there as its `size`. NULL is 0, and `-1` is true. -/
def isEmptyAt (size : ℤ → ℤ) (list : ℤ) : Bool := list = 0 ∨ size list = 0

/-! ## The calls and what they leave -/

/-- A system call on a lock or a condition variable. -/
inductive SyncCall where
  | acquire (lock : ℤ)
  | release (lock : ℤ)
  | cvarWait (cvar lock : ℤ)
  | cvarSignal (cvar : ℤ)
  | cvarBroadcast (cvar : ℤ)

/-- A call in progress. -/
inductive SyncFrame where
  /-- In the block of `wait_cvar`. `since` is history: how long the log was
  when the process went to sleep. -/
  | waiting (cvar lock : ℤ) (since : ℕ)
  /-- In the block of `acquire`, which `wait_cvar` called if it is on a
  condition variable. -/
  | acquiring (lock : ℤ) (waited : Option ℤ)

/-- The call `acquire` is part of. -/
def acquireCall (lock : ℤ) : Option ℤ → SyncCall
  | none => .acquire lock
  | some cvar => .cvarWait cvar lock

/-- History: a process goes to sleep in `wait_cvar`, or returns from a
call. -/
inductive Note (ι : Type) where
  | waits (p : ι) (cvar lock : ℤ)
  | returns (p : ι) (call : SyncCall) (r : ℤ)

/-- The locks and condition variables, and the calls on them in progress. -/
structure Sync (Node : Type) where
  /-- `pilocvar->lock`. -/
  lock : List (Filed (Lock Node))
  /-- `pilocvar->cvar`. -/
  cvar : List (Filed (Cvar Node))
  frame : Node → Option SyncFrame
  log : List (Note (Node × ℕ))

namespace Sync

/-- No lock and no condition variable. -/
def init : Sync Node where
  lock := []
  cvar := []
  frame := fun _ => none
  log := []

/-- A call returns. -/
def note (y : Sync Node) (n : Note (Node × ℕ)) : Sync Node := { y with log := y.log ++ [n] }

variable [DecidableEq Node]

/-- `acquire` runs, for `KernelAcquire` or `wait_cvar`. -/
def runAcquire (y : Sync Node) (procs : ProcTable Node) (serial : ℕ) (lockId : ℤ)
    (lock : Lock Node) (waited : Option ℤ) : ProcTable Node × Sync Node :=
  match acquire procs lock with
  | (procs', lock, .blocked ()) =>
    (procs', { y with
      lock := Filed.store y.lock lockId lock
      frame := Function.update y.frame procs.running (some (.acquiring lockId waited)) })
  | (procs', lock, .returned r) =>
    (procs', { y with
      lock := Filed.store y.lock lockId
        (if waited.isSome then { lock with cvar := lock.cvar - 1 } else lock)
      frame := Function.update y.frame procs.running none
      log := y.log ++ [.returns (procs.running, serial) (acquireCall lockId waited) r] })

/-! ## `syscalls.c` -/

/-- `KernelAcquire`. -/
def kernelAcquire (y : Sync Node) (procs : ProcTable Node) (serial : ℕ) (lockId : ℤ) :
    ProcTable Node × Sync Node :=
  match Filed.find y.lock lockId with
  | none => (procs, y.note (.returns (procs.running, serial) (.acquire lockId) errorCode))
  | some lock => y.runAcquire procs serial lockId lock none

/-- `KernelRelease`. -/
def kernelRelease (y : Sync Node) (procs : ProcTable Node) (serial : ℕ) (lockId : ℤ) :
    ProcTable Node × Sync Node :=
  match Filed.find y.lock lockId with
  | none => (procs, y.note (.returns (procs.running, serial) (.release lockId) errorCode))
  | some lock =>
    let (procs', lock, r) := release procs lock
    (procs', { y with lock := Filed.store y.lock lockId lock }.note
      (.returns (procs.running, serial) (.release lockId) r))

/-- `KernelCvarWait`, up to the block of `wait_cvar`. -/
def kernelCvarWait (y : Sync Node) (procs : ProcTable Node) (serial : ℕ) (cvarId lockId : ℤ) :
    ProcTable Node × Sync Node :=
  match Filed.find y.lock lockId, Filed.find y.cvar cvarId with
  | some lock, some cvar =>
    let (procs', cvar, lock) := waitCvar procs cvar lock
    (procs', { y with
      lock := Filed.store y.lock lockId lock
      cvar := Filed.store y.cvar cvarId cvar
      frame := Function.update y.frame procs.running (some (.waiting cvarId lockId y.log.length))
      log := y.log ++ [.waits (procs.running, serial) cvarId lockId] })
  | _, _ =>
    (procs, y.note (.returns (procs.running, serial) (.cvarWait cvarId lockId) errorCode))

/-- `KernelCvarSignal`. -/
def kernelCvarSignal (y : Sync Node) (procs : ProcTable Node) (serial : ℕ) (cvarId : ℤ) :
    ProcTable Node × Sync Node :=
  match Filed.find y.cvar cvarId with
  | none => (procs, y.note (.returns (procs.running, serial) (.cvarSignal cvarId) errorCode))
  | some cvar =>
    let (procs', cvar) := signalCvar procs cvar
    (procs', { y with cvar := Filed.store y.cvar cvarId cvar }.note
      (.returns (procs.running, serial) (.cvarSignal cvarId) 0))

/-- `KernelCvarBroadcast`. -/
def kernelCvarBroadcast (y : Sync Node) (procs : ProcTable Node) (serial : ℕ) (cvarId : ℤ) :
    ProcTable Node × Sync Node :=
  match Filed.find y.cvar cvarId with
  | none => (procs, y.note (.returns (procs.running, serial) (.cvarBroadcast cvarId) errorCode))
  | some cvar =>
    let (procs', cvar) := broadcast procs cvar
    (procs', { y with cvar := Filed.store y.cvar cvarId cvar }.note
      (.returns (procs.running, serial) (.cvarBroadcast cvarId) 0))

/-- **A call**, by the process that is running. -/
def call (y : Sync Node) (procs : ProcTable Node) (serial : ℕ) :
    SyncCall → ProcTable Node × Sync Node
  | .acquire lock => y.kernelAcquire procs serial lock
  | .release lock => y.kernelRelease procs serial lock
  | .cvarWait cvar lock => y.kernelCvarWait procs serial cvar lock
  | .cvarSignal cvar => y.kernelCvarSignal procs serial cvar
  | .cvarBroadcast cvar => y.kernelCvarBroadcast procs serial cvar

/-- **A call comes back from its block**, by the process that is running. -/
def resume (y : Sync Node) (procs : ProcTable Node) (serial : ℕ) :
    SyncFrame → Option (ProcTable Node × Sync Node)
  | .waiting cvar lock _ =>
    (Filed.find y.lock lock).map fun l => y.runAcquire procs serial lock l (some cvar)
  | .acquiring lock waited =>
    (Filed.find y.lock lock).map fun l => y.runAcquire procs serial lock (fulfil procs l) waited

omit [DecidableEq Node] in
/-- `destroy_lock`. -/
def destroyLock (y : Sync Node) (lockId : ℤ) (lock : Lock Node) : Sync Node × ℤ :=
  if lock.owner.isSome ∨ lock.blocked ≠ [] ∨ 0 < lock.unfulfilled ∨ 0 < lock.cvar then
    (y, errorCode)
  else ({ y with lock := Filed.remove y.lock lockId }, 0)

omit [DecidableEq Node] in
/-- `destroy_cvar`, which looks at its block as at a `lock_t`: what it reads
as `blocked` is the second word. -/
def destroyCvar (y : Sync Node) (size : ℤ → ℤ) (cvarId : ℤ) (cvar : Cvar Node) : Sync Node × ℤ :=
  if ¬ isEmptyAt size cvar.second then (y, errorCode)
  else ({ y with cvar := Filed.remove y.cvar cvarId }, 0)

end Sync

end Yalnix
