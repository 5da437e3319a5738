import Yalnix.Pilocvario.Pipe.Model
import Yalnix.Pilocvario.Sync.Model
import Yalnix.Pilocvario.Tty.Model
import Yalnix.Process.Boot
/-!
# The whole kernel

The processes of `Process/Model.lean` with pipes, locks, condition variables
and terminals, and with the scheduler's own choice of who runs. The process
that is running makes a call or, where it has just been given the processor
inside one, comes back from its block; the clock and the terminals trap in
user mode only, since a kernel call is not interrupted.

A process that comes back from `block_delay`, or that a clock trap took the
processor from, has nothing left to do in the kernel and needs no frame.
-/

namespace Yalnix

/-- A call on a pipe or a terminal in progress, with the address a read is
to store at. -/
inductive IoFrame where
  | pipeRead (pipe buf len : ℤ)
  | pipeWrite (pipe : ℤ) (f : WriteFrame)
  | ttyRead (tty buf len : ℤ)
  | ttyWrite (tty : ℤ) (f : TtyFrame)

/-- The pipes and the terminals, and the calls on them in progress. -/
structure Io (Node : Type) where
  /-- `pilocvar->pipe`. -/
  pipe : List (Filed (Pipe Node))
  /-- `io->in`. An index outside the array is noted in `touched`, and what
  the memory there is read as is not modelled. -/
  input : ℤ → Ttyio Node
  /-- `io->out`, likewise. -/
  out : ℤ → Ttyio Node
  frame : Node → Option IoFrame
  /-- History: the indices `in` and `out` were read at. -/
  touched : List ℤ
  /-- History: the processes a read put to sleep with bytes in its buffer. -/
  stalled : List Node

/-- `io_control_init`, and no pipe. -/
def Io.init {Node : Type} [Devices] : Io Node where
  pipe := []
  input := fun _ => newTtyio
  out := fun _ => newTtyio
  frame := fun _ => none
  touched := []
  stalled := []

/-- The state of the machine. -/
structure Machine (Node Addr : Type) where
  kernel : Kernel Node Addr
  /-- `pilocvar->count`, the next id. -/
  count : ℤ
  sync : Sync Node
  io : Io Node

/-- A system call, or what a process does to its own memory. -/
inductive Syscall (Node Addr : Type) where
  | proc (act : ProcAct Node Addr)
  | delay (clockTicks : ℤ)
  | ttyRead (tty buf len : ℤ)
  | ttyWrite (tty buf len : ℤ)
  | pipeInit (pipeIdp : ℤ)
  | pipeRead (pipe buf len : ℤ)
  /-- With a value for the stack word of `total`. -/
  | pipeWrite (pipe buf len total : ℤ)
  | lockInit (lockIdp : ℤ)
  /-- With the second word of the block `malloc` returns. -/
  | cvarInit (cvarIdp second : ℤ)
  | sync (call : SyncCall)
  /-- With what the memory has as the `size` of a list. -/
  | reclaim (id : ℤ) (size : ℤ → ℤ)

/-- What can happen: the process that is running makes a call or comes back
from its block, or there is a trap. -/
inductive Event (Node Addr : Type) where
  | call (c : Syscall Node Addr)
  | resume
  | clock
  | ttyReceive (tty : ℤ) (landing : ℤ → Byte) (read : ℤ)
  | ttyTransmit (tty : ℤ)

variable {Node Addr : Type} {κ κ' : Type}

/-- A frame, with what it is a frame of. -/
def Outcome.map (f : κ → κ') : Outcome κ → Outcome κ'
  | .returned r => .returned r
  | .blocked frame => .blocked (f frame)

/-- Whom a read puts to sleep with bytes in the buffer. -/
def stalls (p : Node) (buffer : Buffer) : Outcome κ → List Node
  | .returned _ => []
  | .blocked _ => if buffer.filled = 0 then [] else [p]

/-! ## `scheduling.c`, of the clock -/

section Scheduling

variable [DecidableEq Node]

/-- `rr_preempt`. -/
def rrPreempt (procs : ProcTable Node) : ProcTable Node :=
  if procs.ready = [] then procs
  else
    let procs := if procs.running ≠ procs.idleNode then ready procs procs.running else procs
    runNextReady procs

/-- `unblock`, of a process on `procs->delayed`. -/
def unblockDelayed (procs : ProcTable Node) (proc : Node) : ProcTable Node :=
  if procs.delayed = [] then procs
  else ready { procs with delayed := procs.delayed.erase proc } proc

/-- `block_delay`. -/
def blockDelay (k : Kernel Node Addr) (delay : ℤ) : Kernel Node Addr :=
  let k := k.modify k.procs.running fun p => { p with code := delay }
  let (procs, delayed) := block k.procs k.procs.delayed
  { k with procs := { procs with delayed := delayed } }

/-- The loop of `check_delay` over `procs->delayed`. `unblock` makes a
process the last of the ready queue, so that the `next` the loop goes on to
is NULL. -/
def checkDelayLoop : List Node → Kernel Node Addr → Kernel Node Addr
  | [], k => k
  | curr :: rest, k =>
    match k.proc curr with
    | none => k
    | some c =>
      let k := k.modify curr fun c => { c with code := c.code - 1 }
      if c.code - 1 = 0 then { k with procs := unblockDelayed k.procs curr }
      else checkDelayLoop rest k

/-- `check_delay`. -/
def checkDelay (k : Kernel Node Addr) : Kernel Node Addr := checkDelayLoop k.procs.delayed k

end Scheduling

namespace Kernel

/-- The kernel stack `switch_proc` mapped when the process got the
processor. -/
def onStack (k : Kernel Node Addr) (c : Proc Node Addr) : Kernel Node Addr :=
  { k with mem := { k.mem with kernelStack := c.kstack } }

end Kernel

namespace Machine

variable [Paging] [Devices] [DecidableEq Node]

open Paging Devices

/-! ## Pipes and terminals -/

/-- The bytes at an address of the caller's. -/
def userBytes (m : Machine Node Addr) (pt : ℤ → Pte) (buf : ℤ) : ℤ → Byte :=
  fun i => byteAt m.kernel.mem pt (buf + i)

omit [Devices] in
/-- `read_pipe` runs. -/
def runPipeRead (m : Machine Node Addr) (pt : ℤ → Pte) (id : ℤ) (pipe : Pipe Node)
    (buf len : ℤ) : Machine Node Addr × Outcome IoFrame :=
  let (procs, pipe', dst, outcome) := readPipe m.kernel.procs pipe len
  ({ m with
      kernel := storeUser { m.kernel with procs := procs } pt buf dst
      io := { m.io with
        pipe := Filed.store m.io.pipe id pipe'
        stalled := m.io.stalled ++ stalls m.kernel.procs.running pipe.buffer outcome } },
    outcome.map fun len => .pipeRead id buf len)

omit [Paging] [Devices] in
/-- `write_pipe` runs. -/
def runPipeWrite (m : Machine Node Addr) (id : ℤ) (pipe : Pipe Node) (f : WriteFrame) :
    Machine Node Addr × Outcome IoFrame :=
  let (procs, pipe', outcome) := writePipe m.kernel.procs pipe f
  ({ m with
      kernel := { m.kernel with procs := procs }
      io := { m.io with pipe := Filed.store m.io.pipe id pipe' } },
    outcome.map fun f => .pipeWrite id f)

omit [Devices] in
/-- `read_tty` runs. -/
def runTtyRead (m : Machine Node Addr) (pt : ℤ → Pte) (tty buf len : ℤ) :
    Machine Node Addr × Outcome IoFrame :=
  let (procs, inp, dst, outcome) := readTty m.kernel.procs (m.io.input tty) len
  ({ m with
      kernel := storeUser { m.kernel with procs := procs } pt buf dst
      io := { m.io with
        input := Function.update m.io.input tty inp
        touched := m.io.touched ++ [tty]
        stalled := m.io.stalled ++
          stalls m.kernel.procs.running (m.io.input tty).buffer outcome } },
    outcome.map fun len => .ttyRead tty buf len)

omit [Paging] [Devices] in
/-- `write_tty` runs. -/
def runTtyWrite (m : Machine Node Addr) (tty : ℤ) (f : TtyFrame) :
    Machine Node Addr × Outcome IoFrame :=
  let (procs, out, _, outcome) := writeTty m.kernel.procs (m.io.out tty) f
  ({ m with
      kernel := { m.kernel with procs := procs }
      io := { m.io with
        out := Function.update m.io.out tty out
        touched := m.io.touched ++ [tty] } },
    outcome.map fun f => .ttyWrite tty f)

/-- `KernelTtyRead`. -/
def kernelTtyRead (m : Machine Node Addr) (pt : ℤ → Pte) (tty buf len : ℤ) :
    Machine Node Addr × Outcome IoFrame :=
  if numTerminals ≤ tty ∨ ¬ checkBuffer len buf protRead pt then (m, .returned errorCode)
  else m.runTtyRead pt tty buf len

/-- `KernelTtyWrite`. -/
def kernelTtyWrite (m : Machine Node Addr) (pt : ℤ → Pte) (tty buf len : ℤ) :
    Machine Node Addr × Outcome IoFrame :=
  if numTerminals ≤ tty ∨ ¬ checkBuffer len buf protWrite pt then (m, .returned errorCode)
  else m.runTtyWrite tty (ttyEntry (m.userBytes pt buf) len)

omit [Devices] in
/-- `KernelPipeRead`. -/
def kernelPipeRead (m : Machine Node Addr) (pt : ℤ → Pte) (pipeId buf len : ℤ) :
    Machine Node Addr × Outcome IoFrame :=
  match Filed.find m.io.pipe pipeId with
  | none => (m, .returned errorCode)
  | some pipe =>
    if ¬ checkBuffer len buf protRead pt then (m, .returned errorCode)
    else m.runPipeRead pt pipeId pipe buf len

omit [Devices] in
/-- `KernelPipeWrite`. -/
def kernelPipeWrite (m : Machine Node Addr) (pt : ℤ → Pte) (pipeId buf len total : ℤ) :
    Machine Node Addr × Outcome IoFrame :=
  match Filed.find m.io.pipe pipeId with
  | none => (m, .returned errorCode)
  | some pipe =>
    if ¬ checkBuffer len buf protWrite pt then (m, .returned errorCode)
    else m.runPipeWrite pipeId pipe (writeEntry (m.userBytes pt buf) len total)

omit [Devices] in
/-- A call on a pipe or a terminal comes back from its block. -/
def resumeIo (m : Machine Node Addr) (pt : ℤ → Pte) :
    IoFrame → Option (Machine Node Addr × Outcome IoFrame)
  | .pipeRead id buf len => (Filed.find m.io.pipe id).map fun pipe =>
    m.runPipeRead pt id { pipe with unfulfilled := pipe.unfulfilled - 1 } buf len
  | .pipeWrite id f => (Filed.find m.io.pipe id).map fun pipe =>
    m.runPipeWrite id { pipe with unfulfilled := pipe.unfulfilled - 1 } f
  | .ttyRead tty buf len => some (m.runTtyRead pt tty buf len)
  | .ttyWrite tty f => some (m.runTtyWrite tty f)

omit [Paging] [Devices] in
/-- A call on a pipe or a terminal leaves, asleep or with its result. -/
def leaveIo (p : Node) : Machine Node Addr × Outcome IoFrame → Machine Node Addr
  | (m, .blocked f) =>
    { m with io := { m.io with frame := Function.update m.io.frame p (some f) } }
  | (m, .returned _) =>
    { m with io := { m.io with frame := Function.update m.io.frame p none } }

/-! ## Making and destroying -/

/-- A call that makes an object: the id is stored at the pointer. -/
def initObject (m : Machine Node Addr) (pt : ℤ → Pte) (idp : ℤ)
    (new : ℤ → Machine Node Addr → Machine Node Addr) : Machine Node Addr × ℤ :=
  if noKernelMemory m.kernel 1 then (m, errorCode)
  else if ¬ checkAddr idp protWrite pt then (m, errorCode)
  else
    let id := m.count
    let m := new id { m with count := m.count + 1 }
    (if idp ≠ 0 then { m with kernel := storeUser m.kernel pt idp (wordBytes id) } else m, 0)

omit [DecidableEq Node] in
/-- `KernelPipeInit`. -/
def kernelPipeInit (m : Machine Node Addr) (pt : ℤ → Pte) (pipeIdp : ℤ) :
    Machine Node Addr × ℤ :=
  m.initObject pt pipeIdp fun id m =>
    { m with io := { m.io with pipe := m.io.pipe ++ [⟨id, newPipe⟩] } }

omit [Devices] [DecidableEq Node] in
/-- `KernelLockInit`. -/
def kernelLockInit (m : Machine Node Addr) (pt : ℤ → Pte) (lockIdp : ℤ) :
    Machine Node Addr × ℤ :=
  m.initObject pt lockIdp fun id m =>
    { m with sync := { m.sync with lock := m.sync.lock ++ [⟨id, newLock⟩] } }

omit [Devices] [DecidableEq Node] in
/-- `KernelCvarInit`. -/
def kernelCvarInit (m : Machine Node Addr) (pt : ℤ → Pte) (cvarIdp second : ℤ) :
    Machine Node Addr × ℤ :=
  m.initObject pt cvarIdp fun id m =>
    { m with sync := { m.sync with cvar := m.sync.cvar ++ [⟨id, newCvar second⟩] } }

omit [Paging] [Devices] [DecidableEq Node] in
/-- `destroy_pipe`. -/
def destroyPipe (m : Machine Node Addr) (id : ℤ) (pipe : Pipe Node) : Machine Node Addr × ℤ :=
  if pipe.readblocked ≠ [] ∨ pipe.writeblocked ≠ [] ∨ 0 < pipe.unfulfilled then (m, errorCode)
  else ({ m with io := { m.io with pipe := Filed.remove m.io.pipe id } }, 0)

omit [Paging] [Devices] [DecidableEq Node] in
/-- `KernelReclaim`. -/
def kernelReclaim (m : Machine Node Addr) (id : ℤ) (size : ℤ → ℤ) : Machine Node Addr × ℤ :=
  match Filed.find m.io.pipe id, Filed.find m.sync.cvar id, Filed.find m.sync.lock id with
  | some pipe, _, _ => m.destroyPipe id pipe
  | none, some cvar, _ =>
    let (sync, r) := m.sync.destroyCvar size id cvar
    ({ m with sync := sync }, r)
  | none, none, some lock =>
    let (sync, r) := m.sync.destroyLock id lock
    ({ m with sync := sync }, r)
  | none, none, none => (m, errorCode)

/-! ## Delays -/

omit [Paging] [Devices] in
/-- `KernelDelay`. -/
def kernelDelay (m : Machine Node Addr) (clockTicks : ℤ) :
    Machine Node Addr × Outcome Unit :=
  if clockTicks < 0 then (m, .returned errorCode)
  else if 0 < clockTicks then
    ({ m with kernel := blockDelay m.kernel clockTicks }, .blocked ())
  else (m, .returned 0)

omit [Paging] [Devices] in
/-- `TrapClock`. -/
def trapClock (m : Machine Node Addr) : Machine Node Addr :=
  let k := checkDelay m.kernel
  { m with kernel := { k with procs := rrPreempt k.procs } }

omit [Paging] [Devices] in
/-- `TrapTtyReceive`. -/
def trapTtyReceive (m : Machine Node Addr) (tty : ℤ) (landing : ℤ → Byte) (read : ℤ) :
    Machine Node Addr :=
  let (procs, inp) := receive m.kernel.procs (m.io.input tty) landing read
  { m with
    kernel := { m.kernel with procs := procs }
    io := { m.io with
      input := Function.update m.io.input tty inp
      touched := m.io.touched ++ [tty] } }

omit [Paging] [Devices] in
/-- `TrapTtyTransmit`. -/
def trapTtyTransmit (m : Machine Node Addr) (tty : ℤ) : Machine Node Addr :=
  let (procs, out) := writeAlert m.kernel.procs (m.io.out tty)
  { m with
    kernel := { m.kernel with procs := procs }
    io := { m.io with
      out := Function.update m.io.out tty out
      touched := m.io.touched ++ [tty] } }

/-! ## The machine -/

omit [Paging] [Devices] in
/-- The process that is running is not inside a call. -/
def inUser (m : Machine Node Addr) : Bool :=
  let p := m.kernel.procs.running
  (m.kernel.waits p).isNone && (m.sync.frame p).isNone && (m.io.frame p).isNone

omit [Paging] [Devices] [DecidableEq Node] in
/-- A call on locks and condition variables leaves. -/
def setSync (m : Machine Node Addr) (r : ProcTable Node × Sync Node) : Machine Node Addr :=
  { m with
    kernel := { m.kernel with procs := r.1 }
    sync := r.2 }

variable [DecidableEq Addr]

/-- **The process that is running makes a call.** -/
def syscall (m : Machine Node Addr) (c : Proc Node Addr) :
    Syscall Node Addr → Option (Machine Node Addr)
  | .proc act => ((m.kernel.onStack c).act m.kernel.procs.running c act).map fun k =>
    { m with kernel := k }
  | .delay clockTicks => some (m.kernelDelay clockTicks).1
  | .ttyRead tty buf len =>
    some (leaveIo m.kernel.procs.running (m.kernelTtyRead c.userpt.pt tty buf len))
  | .ttyWrite tty buf len =>
    some (leaveIo m.kernel.procs.running (m.kernelTtyWrite c.userpt.pt tty buf len))
  | .pipeInit pipeIdp => some (m.kernelPipeInit c.userpt.pt pipeIdp).1
  | .pipeRead pipe buf len =>
    some (leaveIo m.kernel.procs.running (m.kernelPipeRead c.userpt.pt pipe buf len))
  | .pipeWrite pipe buf len total =>
    some (leaveIo m.kernel.procs.running (m.kernelPipeWrite c.userpt.pt pipe buf len total))
  | .lockInit lockIdp => some (m.kernelLockInit c.userpt.pt lockIdp).1
  | .cvarInit cvarIdp second => some (m.kernelCvarInit c.userpt.pt cvarIdp second).1
  | .sync call => some (m.setSync (m.sync.call m.kernel.procs c.serial call))
  | .reclaim id size => some (m.kernelReclaim id size).1

omit [Devices] in
/-- **It comes back from its block.** -/
def resume (m : Machine Node Addr) (c : Proc Node Addr) : Option (Machine Node Addr) :=
  let p := m.kernel.procs.running
  match m.kernel.waits p, m.sync.frame p, m.io.frame p with
  | some _, _, _ => ((m.kernel.onStack c).act p c .resume).map fun k => { m with kernel := k }
  | none, some f, _ => (m.sync.resume m.kernel.procs c.serial f).map m.setSync
  | none, none, some f => (m.resumeIo c.userpt.pt f).map (leaveIo p)
  | none, none, none => none

/-- **One event.** Idle makes no call, and is inside none. -/
def step (m : Machine Node Addr) : Event Node Addr → Option (Machine Node Addr)
  | .call call =>
    match m.kernel.curr with
    | none => none
    | some c =>
      if m.kernel.procs.running = m.kernel.procs.idleNode ∨ ¬ m.inUser then none
      else m.syscall c call
  | .resume =>
    match m.kernel.curr with
    | none => none
    | some c => if m.kernel.procs.running = m.kernel.procs.idleNode then none else m.resume c
  | .clock => if m.inUser then some m.trapClock else none
  | .ttyReceive tty landing read =>
    if m.inUser ∧ 0 ≤ tty ∧ tty < numTerminals ∧ 0 ≤ read ∧ read ≤ terminalMaxLine then
      some (m.trapTtyReceive tty landing read)
    else none
  | .ttyTransmit tty =>
    if m.inUser ∧ 0 ≤ tty ∧ tty < numTerminals then some (m.trapTtyTransmit tty) else none

/-- The machine `KernelStart` leaves. -/
def start (b : Boot Node Addr) : Option (Machine Node Addr) :=
  (kernelStart b).map fun k =>
    { kernel := k
      count := 0
      sync := Sync.init
      io := Io.init }

end Machine

end Yalnix
