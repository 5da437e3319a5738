import Mathlib.Logic.Function.Basic
import Yalnix.Common.Run
import Yalnix.Devices
import Yalnix.Pilocvario.Buffer
import Yalnix.Scheduling.Model
/-!
# Terminals

`write_tty` and `read_tty`, cut at their blocks, and the trap handlers'
`write_alert` and `receive`. The second half is the machine a terminal's
output makes with the processes writing to it and with the hardware, which
owes one transmit trap for each `TtyTransmit` it was given.
-/

namespace Yalnix

/-- `ttyio_t`. -/
structure Ttyio (Node : Type) where
  buffer : Buffer
  blocked : List Node
  transmitting : ℤ

/-- The local variables of `write_tty`. `mem` is the caller's memory from
the `src` it passed, and `src` how far the pointer has moved since. -/
structure TtyFrame where
  mem : ℤ → Byte
  src : ℤ
  len : ℤ
  total : ℤ

/-- The bytes `src` points at. -/
def TtyFrame.bytes (f : TtyFrame) : ℤ → Byte := fun i => f.mem (f.src + i)

variable {Node : Type}

/-- `new_ttyio`. -/
def newTtyio [Devices] : Ttyio Node where
  buffer := newBuffer Devices.terminalMaxLine
  blocked := []
  transmitting := 0

/-- `write_tty` on entry. -/
def ttyEntry (src : ℤ → Byte) (len : ℤ) : TtyFrame where
  mem := src
  src := 0
  len := len
  total := 0

/-- `write_tty`, from the test of its loop to its return or its next block.
The third component is the chunk handed to `TtyTransmit`, if any: the first
`written` bytes of the block the buffer keeps. -/
def writeTty (procs : ProcTable Node) (out : Ttyio Node) (f : TtyFrame) :
    ProcTable Node × Ttyio Node × Option (List Byte) × Outcome TtyFrame :=
  if f.total < f.len then
    if out.transmitting ≠ 0 then
      let (procs, blocked) := block procs out.blocked
      (procs, { out with blocked := blocked }, none, .blocked f)
    else
      let (buffer, written) := writeBuffer (resetBuffer out.buffer) f.bytes f.len
      let (procs, blocked) := hBlock procs out.blocked
      (procs, { buffer := buffer, transmitting := 1, blocked := blocked },
        some (bytesAt buffer.buffered written.toNat),
        .blocked { f with total := f.total + written, src := f.src + written })
  else
    let (procs, blocked) := unblockHead procs out.blocked
    (procs, { out with blocked := blocked }, none, .returned f.total)

/-- `write_alert`. -/
def writeAlert (procs : ProcTable Node) (out : Ttyio Node) : ProcTable Node × Ttyio Node :=
  let (procs, blocked) := unblockHead procs out.blocked
  (procs, { buffer := resetBuffer out.buffer, transmitting := 0, blocked := blocked })

/-- `read_tty`, from the test of its loop to its return or its next block;
the bytes are those stored at `dst`. -/
def readTty (procs : ProcTable Node) (inp : Ttyio Node) (len : ℤ) :
    ProcTable Node × Ttyio Node × List Byte × Outcome ℤ :=
  let (buffer, dst, read) := readBuffer inp.buffer len
  if read = 0 then
    let (procs, blocked) := block procs inp.blocked
    (procs, { inp with buffer := buffer, blocked := blocked }, dst, .blocked len)
  else
    (procs, { inp with buffer := buffer }, dst, .returned read)

/-- `receive`: `TtyReceive` has put `read` bytes in the landing buffer. -/
def receive (procs : ProcTable Node) (inp : Ttyio Node) (landing : ℤ → Byte) (read : ℤ) :
    ProcTable Node × Ttyio Node :=
  let (buffer, realRd) := writeBuffer inp.buffer landing read
  if 0 < realRd then
    (unblockAll procs inp.blocked, { inp with buffer := buffer, blocked := [] })
  else
    (procs, { inp with buffer := buffer })

/-! ## The output of one terminal -/

/-- A call of `write_tty` that has returned: its arguments, the bytes it
handed to `TtyTransmit`, the offsets from `src` it read, and its result. -/
structure TtyRecord where
  mem : ℤ → Byte
  len : ℤ
  sent : List Byte
  touched : List ℤ
  ret : ℤ

/-- The state of a terminal's output and of the calls in progress; the last
four fields are history. -/
structure OutState (Node : Type) where
  procs : ProcTable Node
  out : Ttyio Node
  call : Node → Option TtyFrame
  /-- The processes whose transmission the hardware has not yet answered. -/
  pending : List Node
  /-- What the call in progress of each process has handed over. -/
  sent : Node → List Byte
  /-- The offsets from `src` it has read. -/
  touched : Node → List ℤ
  writes : List TtyRecord
  /-- Processes that returned with a transmission of theirs unanswered. -/
  early : List Node

/-- `write` and `resume` give the processor to a process; `trap` is the
transmit trap of the oldest unanswered transmission, and `strayTrap` one no
transmission accounts for. -/
inductive OutEvent (Node : Type) where
  | write (p : Node) (src : ℤ → Byte) (len : ℤ)
  | resume (p : Node)
  | trap
  | strayTrap

/-- An idle terminal, no process inside a call on it. -/
def OutState.init [Devices] (procs : ProcTable Node) : OutState Node where
  procs := procs
  out := newTtyio
  call := fun _ => none
  pending := []
  sent := fun _ => []
  touched := fun _ => []
  writes := []
  early := []

/-- A transmit trap runs `write_alert`. -/
def OutState.alert (s : OutState Node) : OutState Node :=
  let (procs, out) := writeAlert s.procs s.out
  { s with procs := procs, out := out }

section Machine

variable [DecidableEq Node]

/-- The process an event gives the processor to, and the call it runs. -/
def OutState.active (s : OutState Node) : OutEvent Node → Option (Node × TtyFrame)
  | .write p src len => if (s.call p).isNone then some (p, ttyEntry src len) else none
  | .resume p => (s.call p).map fun f => (p, f)
  | .trap => none
  | .strayTrap => none

/-- An activation of a write call. -/
def OutState.run (s : OutState Node) (p : Node) (f : TtyFrame) : OutState Node :=
  match writeTty (dispatch s.procs p) s.out f with
  | (procs, out, some chunk, .blocked f') =>
    { s with
      procs := procs
      out := out
      call := Function.update s.call p (some f')
      pending := s.pending ++ [p]
      sent := Function.update s.sent p (s.sent p ++ chunk)
      touched := Function.update s.touched p
        (s.touched p ++ bytesAt (fun i => f.src + i) (f'.src - f.src).toNat) }
  | (procs, out, none, .blocked f') =>
    { s with
      procs := procs
      out := out
      call := Function.update s.call p (some f') }
  | (procs, out, _, .returned r) =>
    { s with
      procs := procs
      out := out
      call := Function.update s.call p none
      sent := Function.update s.sent p []
      touched := Function.update s.touched p []
      writes := s.writes ++ [⟨f.mem, f.len, s.sent p, s.touched p, r⟩]
      early := if p ∈ s.pending then s.early ++ [p] else s.early }

/-- **One event.** A process asleep on the terminal is not given the
processor. -/
def OutState.step (s : OutState Node) (e : OutEvent Node) : Option (OutState Node) :=
  match e, s.active e with
  | _, some (p, f) => if p ∈ s.out.blocked then none else some (s.run p f)
  | .trap, none => if s.pending = [] then none else some { s.alert with pending := s.pending.tail }
  | .strayTrap, none => some s.alert
  | _, none => none

end Machine

end Yalnix
