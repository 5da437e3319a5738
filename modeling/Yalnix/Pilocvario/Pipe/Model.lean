import Mathlib.Logic.Function.Basic
import Yalnix.Common.Run
import Yalnix.Devices
import Yalnix.Pilocvario.Buffer
import Yalnix.Scheduling.Model
/-!
# A pipe and the processes using it

`write_pipe` and `read_pipe`, cut at their calls of `block`, and the machine
they make: any number of processes, each of which may call either function
when it is in user mode, and which come back from a block in any order once
they have been taken off the queue they slept on.

The machine also keeps a history the code does not: the stream of bytes
appended to the pipe, the bytes reads have handed out, and what each write
call appended and returned.
-/

namespace Yalnix

/-- `pipe_t`. -/
structure Pipe (Node : Type) where
  buffer : Buffer
  readblocked : List Node
  writeblocked : List Node
  /-- Processes that were woken and have not yet come back. -/
  unfulfilled : ℤ

/-- The local variables of `write_pipe`. `mem` is the caller's memory from
the `src` it passed, and `src` how far the pointer has moved since. -/
structure WriteFrame where
  mem : ℤ → Byte
  src : ℤ
  len : ℤ
  lenLeft : ℤ
  total : ℤ

/-- The bytes `src` points at. -/
def WriteFrame.bytes (f : WriteFrame) : ℤ → Byte := fun i => f.mem (f.src + i)

variable {Node : Type}

/-- `new_pipe`, less the node it is filed under. -/
def newPipe [Devices] : Pipe Node where
  buffer := newBuffer Devices.pipeBufferLen
  readblocked := []
  writeblocked := []
  unfulfilled := 0

/-- `write_pipe` on entry. `total` is declared without a value, so it is
whatever its stack word holds. -/
def writeEntry (src : ℤ → Byte) (len total : ℤ) : WriteFrame where
  mem := src
  src := 0
  len := len
  lenLeft := len
  total := total

/-- `write_pipe`, from the test of its loop to its return or its next
`block`. -/
def writePipe (procs : ProcTable Node) (pipe : Pipe Node) (f : WriteFrame) :
    ProcTable Node × Pipe Node × Outcome WriteFrame :=
  let (buffer, written) := writeBuffer pipe.buffer f.bytes f.len
  if written < f.lenLeft then
    let (procs, writeblocked) := block procs pipe.writeblocked
    (procs, { pipe with buffer := buffer, writeblocked := writeblocked },
      .blocked { f with
        src := f.src + written
        total := f.total + written
        lenLeft := f.lenLeft - written })
  else if pipe.readblocked ≠ [] then
    (unblockAll procs pipe.readblocked,
      { pipe with
        buffer := buffer
        unfulfilled := pipe.unfulfilled + pipe.readblocked.length
        readblocked := [] }, .returned f.total)
  else
    (procs, { pipe with buffer := buffer }, .returned f.total)

/-- `read_pipe`, likewise; the bytes are those stored at `dst`. -/
def readPipe (procs : ProcTable Node) (pipe : Pipe Node) (len : ℤ) :
    ProcTable Node × Pipe Node × List Byte × Outcome ℤ :=
  let (buffer, dst, read) := readBuffer pipe.buffer len
  if read = 0 then
    let (procs, readblocked) := block procs pipe.readblocked
    (procs, { pipe with buffer := buffer, readblocked := readblocked }, dst, .blocked len)
  else if pipe.writeblocked ≠ [] then
    (unblockAll procs pipe.writeblocked,
      { pipe with
        buffer := buffer
        unfulfilled := pipe.unfulfilled + pipe.writeblocked.length
        writeblocked := [] }, dst, .returned read)
  else
    (procs, { pipe with buffer := buffer }, dst, .returned read)

/-! ## The machine -/

/-- A call in progress, with what it is to come back with. -/
inductive PipeCall where
  | write (f : WriteFrame)
  | read (len : ℤ)

/-- A write call that has returned: its arguments, the bytes it appended to
the pipe, and its result. -/
structure WriteRecord where
  mem : ℤ → Byte
  len : ℤ
  sent : List Byte
  ret : ℤ

/-- The state of a pipe, of the scheduler and of the calls in progress; the
last four fields are history. -/
structure PipeState (Node : Type) where
  procs : ProcTable Node
  pipe : Pipe Node
  call : Node → Option PipeCall
  /-- What the call in progress of each process has appended. -/
  sent : Node → List Byte
  /-- Every byte appended to the pipe, in order. -/
  stream : List Byte
  /-- The bytes of all completed reads, in completion order. -/
  delivered : List Byte
  /-- The write calls that have returned. -/
  writes : List WriteRecord

/-- What a process given the processor does: call, with a value for the
stack word of `total`, or come back from a block. -/
inductive PipeAct where
  | write (src : ℤ → Byte) (len total : ℤ)
  | read (len : ℤ)
  | resume

/-- The lengths the two functions are documented for. -/
def PipeAct.InDomain : PipeAct → Prop
  | .write _ len _ => 0 ≤ len
  | .read len => 0 < len
  | .resume => True

/-- A fresh pipe, no process inside a call on it. -/
def PipeState.init [Devices] (procs : ProcTable Node) : PipeState Node where
  procs := procs
  pipe := newPipe
  call := fun _ => none
  sent := fun _ => []
  stream := []
  delivered := []
  writes := []

section Machine

variable [DecidableEq Node]

/-- The call an activation runs, and the pipe as it finds it: a call that
comes back from a block first counts itself fulfilled. -/
def PipeState.active (s : PipeState Node) (p : Node) : PipeAct → Option (Pipe Node × PipeCall)
  | .write src len total =>
    if (s.call p).isNone then some (s.pipe, .write (writeEntry src len total)) else none
  | .read len => if (s.call p).isNone then some (s.pipe, .read len) else none
  | .resume =>
    (s.call p).map fun c => ({ s.pipe with unfulfilled := s.pipe.unfulfilled - 1 }, c)

/-- A write call runs. -/
def PipeState.runWrite (s : PipeState Node) (p : Node) (pipe : Pipe Node) (f : WriteFrame) :
    PipeState Node :=
  let chunk := bytesAt f.bytes (writeBuffer pipe.buffer f.bytes f.len).2.toNat
  let s := { s with stream := s.stream ++ chunk }
  match writePipe (dispatch s.procs p) pipe f with
  | (procs, pipe, .blocked f') =>
    { s with
      procs := procs
      pipe := pipe
      call := Function.update s.call p (some (.write f'))
      sent := Function.update s.sent p (s.sent p ++ chunk) }
  | (procs, pipe, .returned r) =>
    { s with
      procs := procs
      pipe := pipe
      call := Function.update s.call p none
      sent := Function.update s.sent p []
      writes := s.writes ++ [⟨f.mem, f.len, s.sent p ++ chunk, r⟩] }

/-- A read call runs. -/
def PipeState.runRead (s : PipeState Node) (p : Node) (pipe : Pipe Node) (len : ℤ) :
    PipeState Node :=
  match readPipe (dispatch s.procs p) pipe len with
  | (procs, pipe, _, .blocked len') =>
    { s with
      procs := procs
      pipe := pipe
      call := Function.update s.call p (some (.read len')) }
  | (procs, pipe, dst, .returned _) =>
    { s with
      procs := procs
      pipe := pipe
      call := Function.update s.call p none
      delivered := s.delivered ++ dst }

/-- **One activation**: the scheduler gives the processor to a process that
is not asleep on the pipe, which runs to its return or its next block. -/
def PipeState.step (s : PipeState Node) : Node × PipeAct → Option (PipeState Node)
  | (p, act) =>
    if p ∈ s.pipe.readblocked ∨ p ∈ s.pipe.writeblocked then none
    else
      match s.active p act with
      | none => none
      | some (pipe, .write f) => some (s.runWrite p pipe f)
      | some (pipe, .read len) => some (s.runRead p pipe len)

end Machine

end Yalnix
