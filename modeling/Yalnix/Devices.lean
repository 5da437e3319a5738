import Mathlib.Data.Nat.Notation
/-!
# The sizes the machine's headers fix

`ykernel.h` is not part of the repository. The constants the kernel takes
from it are parameters here, with what the kernel relies on as fields.
-/

namespace Yalnix

/-- The sizes of the kernel's input and output objects. -/
class Devices where
  /-- `PIPE_BUFFER_LEN`. -/
  pipeBufferLen : ℕ
  pipeBufferLen_pos : 0 < pipeBufferLen
  /-- `TERMINAL_MAX_LINE`. -/
  terminalMaxLine : ℕ
  terminalMaxLine_pos : 0 < terminalMaxLine
  /-- `NUM_TERMINALS`. -/
  numTerminals : ℕ

/-- The sizes of the machine Yalnix runs on, at which examples are read. -/
@[reducible] def yalnixDevices : Devices where
  pipeBufferLen := 256
  pipeBufferLen_pos := by decide
  terminalMaxLine := 1024
  terminalMaxLine_pos := by decide
  numTerminals := 4

end Yalnix
