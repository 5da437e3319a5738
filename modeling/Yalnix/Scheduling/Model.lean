import Mathlib.Data.List.Basic
import Mathlib.Data.Int.Notation
/-!
# The scheduler's queues

`scheduling.c` over queues given as sequences of process nodes, head first.
A function that blocks gives up the processor in the middle of its body, so
a kernel call is cut at those points: an activation of it runs from where
it stands to its return or to its next block, and `Outcome` says which.
-/

namespace Yalnix

/-- `proc_table_t`, with the global `idle_node`. -/
structure ProcTable (Node : Type) where
  running : Node
  ready : List Node
  waiting : List Node
  delayed : List Node
  orphans : List Node
  idleNode : Node

/-- **How an activation of a kernel call ends**: it returns, or it goes to
sleep and leaves a frame to come back to. -/
inductive Outcome (κ : Type) where
  | returned (r : ℤ)
  | blocked (frame : κ)

variable {Node : Type}

/-- `ready`. -/
def ready (procs : ProcTable Node) (proc : Node) : ProcTable Node :=
  { procs with ready := procs.ready ++ [proc] }

/-- `run_next`. -/
def runNext (procs : ProcTable Node) (next : Node) : ProcTable Node :=
  { procs with running := next }

/-- `run_next_ready`. -/
def runNextReady (procs : ProcTable Node) : ProcTable Node :=
  match procs.ready with
  | [] => runNext procs procs.idleNode
  | next :: rest => runNext { procs with ready := rest } next

/-- `unblock_head`, and the queue after. -/
def unblockHead (procs : ProcTable Node) : List Node → ProcTable Node × List Node
  | [] => (procs, [])
  | proc :: rest => (ready procs proc, rest)

/-- `unblock_all`, which leaves the queue empty. -/
def unblockAll (procs : ProcTable Node) : List Node → ProcTable Node
  | [] => procs
  | proc :: rest => unblockAll (ready procs proc) rest

/-- `block`, and the queue after. -/
def block (procs : ProcTable Node) (blockList : List Node) : ProcTable Node × List Node :=
  (runNextReady procs, blockList ++ [procs.running])

/-- `h_block`, and the queue after. -/
def hBlock (procs : ProcTable Node) (blockList : List Node) : ProcTable Node × List Node :=
  (runNextReady procs, procs.running :: blockList)

/-- **The scheduler between two activations.** Whatever ran in between, the
process given the processor is running and off the ready queue. -/
def dispatch [DecidableEq Node] (procs : ProcTable Node) (proc : Node) : ProcTable Node :=
  { procs with running := proc, ready := procs.ready.filter (· ≠ proc) }

/-! ## What each of them moves -/

@[simp] theorem ready_running (procs : ProcTable Node) (p : Node) :
    (ready procs p).running = procs.running := rfl

@[simp] theorem ready_ready (procs : ProcTable Node) (p : Node) :
    (ready procs p).ready = procs.ready ++ [p] := rfl

@[simp] theorem unblockAll_ready (procs : ProcTable Node) (blocked : List Node) :
    (unblockAll procs blocked).ready = procs.ready ++ blocked := by
  induction blocked generalizing procs with
  | nil => simp [unblockAll]
  | cons p rest ih => simp [unblockAll, ih]

@[simp] theorem unblockAll_running (procs : ProcTable Node) (blocked : List Node) :
    (unblockAll procs blocked).running = procs.running := by
  induction blocked generalizing procs with
  | nil => rfl
  | cons p rest ih => simp [unblockAll, ih]

@[simp] theorem block_fst (procs : ProcTable Node) (q : List Node) :
    (block procs q).1 = runNextReady procs := rfl

@[simp] theorem block_snd (procs : ProcTable Node) (q : List Node) :
    (block procs q).2 = q ++ [procs.running] := rfl

@[simp] theorem hBlock_fst (procs : ProcTable Node) (q : List Node) :
    (hBlock procs q).1 = runNextReady procs := rfl

@[simp] theorem hBlock_snd (procs : ProcTable Node) (q : List Node) :
    (hBlock procs q).2 = procs.running :: q := rfl

/-- `run_next_ready` only takes processes off the ready queue. -/
theorem mem_of_mem_runNextReady {procs : ProcTable Node} {p : Node}
    (h : p ∈ (runNextReady procs).ready) : p ∈ procs.ready := by
  unfold runNextReady at h
  split at h
  · rename_i he
    exact h
  · rename_i next rest he
    rw [he]
    exact List.mem_cons_of_mem _ h

section Dispatch

variable [DecidableEq Node]

@[simp] theorem dispatch_running (procs : ProcTable Node) (p : Node) :
    (dispatch procs p).running = p := rfl

/-- A process in the ready queue after a dispatch was there before it, and
is another process. -/
@[simp] theorem mem_dispatch_ready {procs : ProcTable Node} {p q : Node} :
    q ∈ (dispatch procs p).ready ↔ q ∈ procs.ready ∧ q ≠ p := by
  simp [dispatch]

end Dispatch

end Yalnix
