import Yalnix.Common.Run
import Yalnix.LinkedList.Refine
import Yalnix.Scheduling.Model
/-!
# `KernelDelay` and the clock

The functions of `scheduling.c` the clock runs, over the nodes in memory,
since `check_delay` moves nodes off the very list it is walking. The second
half is the machine they make: the running process may delay, the clock may
trap, and everything else the kernel does to processes is one of them
leaving the processor for some other queue, or coming to the ready queue
from one.
-/

namespace Yalnix

namespace Clock

variable {Node : Type}

/-- What the clock works on: of `proc_table_t` the lists `ready` and
`delayed`, with the nodes in memory and the global `idle_node`. -/
structure Sched (Node : Type) where
  heap : Heap Node
  running : Node
  ready : LinkedList Node
  delayed : LinkedList Node
  idleNode : Node

/-- The processes on `procs->delayed`, in order. -/
def Sched.sleepers (s : Sched Node) : List Node := s.delayed.nodes s.heap

/-- The processes on `procs->ready`, in order. -/
def Sched.runnable (s : Sched Node) : List Node := s.ready.nodes s.heap

variable [DecidableEq Node]

/-- `ready`. -/
def ready (s : Sched Node) (proc : Option Node) : Option (Sched Node) :=
  (s.ready.enqueue s.heap proc).map fun (heap, q) => { s with heap := heap, ready := q }

/-- `run_next_ready`. -/
def runNextReady (s : Sched Node) : Option (Sched Node) :=
  if s.ready.isEmpty then some { s with running := s.idleNode }
  else
    (s.ready.dequeue s.heap).bind fun (heap, q, next) =>
      next.map fun next => { s with heap := heap, ready := q, running := next }

/-- `rr_preempt`. -/
def rrPreempt (s : Sched Node) : Option (Sched Node) :=
  if s.ready.isEmpty then some s
  else if s.running ≠ s.idleNode then (ready s (some s.running)).bind runNextReady
  else runNextReady s

/-- `unblock`, of a process on `procs->delayed`. -/
def unblock (s : Sched Node) (proc : Option Node) : Option (Sched Node) :=
  if s.delayed.isEmpty then some s
  else
    (s.delayed.remove s.heap proc).bind fun (heap, q, proc) =>
      ready { s with heap := heap, delayed := q } proc

/-- `block_delay`. -/
def blockDelay (s : Sched Node) (delay : ℤ) : Option (Sched Node) :=
  (s.delayed.enqueue (s.heap.setCode s.running delay) (some s.running)).bind fun (heap, q) =>
    runNextReady { s with heap := heap, delayed := q }

/-- The loop of `check_delay` from `curr` on, at most `fuel` times round. -/
def checkDelayLoop : ℕ → Sched Node → Option Node → Option (Sched Node)
  | 0, _, _ => none
  | _ + 1, s, none => some s
  | fuel + 1, s, some curr =>
    let s := { s with heap := s.heap.setCode curr ((s.heap curr).code - 1) }
    (if (s.heap curr).code = 0 then unblock s (some curr) else some s).bind fun s =>
      checkDelayLoop fuel s (s.heap curr).next

/-- `check_delay`. The loop meets no node twice, so that the fuel suffices
(`checkDelay_all`, `checkDelay_first`). -/
def checkDelay (s : Sched Node) : Option (Sched Node) :=
  checkDelayLoop (s.delayed.size.toNat + 1) s s.delayed.head

/-- `KernelDelay`. A process that delays comes back to return 0. -/
def kernelDelay (s : Sched Node) (clockTicks : ℤ) : Option (Sched Node × Outcome Unit) :=
  if clockTicks < 0 then some (s, .returned (-1))
  else if 0 < clockTicks then (blockDelay s clockTicks).map fun s => (s, .blocked ())
  else some (s, .returned 0)

/-- `TrapClock`. -/
def trapClock (s : Sched Node) : Option (Sched Node) := (checkDelay s).bind rrPreempt

/-! ## The machine -/

/-- What happens to the two queues. `leave` takes the running process off
the processor, to another queue or to its grave; `arrive` is a process made
ready from elsewhere. Each says what the node has in it then. -/
inductive Event (Node : Type) where
  | delay (clockTicks : ℤ)
  | clock
  | leave (cell : Cell Node)
  | arrive (proc : Node) (cell : Cell Node)

/-- **One event.** Idle calls nothing and never sleeps, and a process comes
to the ready queue from neither of the two. -/
def step (s : Sched Node) : Event Node → Option (Sched Node)
  | .delay clockTicks =>
    if s.running = s.idleNode then none else (kernelDelay s clockTicks).map Prod.fst
  | .clock => trapClock s
  | .leave cell =>
    if s.running = s.idleNode then none
    else runNextReady { s with heap := Function.update s.heap s.running cell }
  | .arrive proc cell =>
    if proc = s.running ∨ proc = s.idleNode ∨ proc ∈ s.sleepers ∨ proc ∈ s.runnable then none
    else ready { s with heap := Function.update s.heap proc cell } (some proc)

end Clock

end Yalnix
