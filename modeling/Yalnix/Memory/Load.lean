import Yalnix.Memory.UserAccess
/-!
# `LoadProgram`

`load.c`, from the file to a process ready to run. What the host and the
kernel heap answer is an argument (`LoadEnv`); the result has the process's
page table and context, the memory, and what became of the descriptor and
of the argument buffer.
-/

namespace Yalnix

/-- Of `UserContext`, the program counter, the stack pointer and the
registers. -/
structure UserContext where
  pc : ℤ
  sp : ℤ
  regs : ℕ → ℤ

/-- `struct load_info`, what `LoadInfo` finds in an executable. -/
structure LoadInfo where
  entry : ℤ
  tVaddr : ℤ
  tNpg : ℤ
  idVaddr : ℤ
  idNpg : ℤ
  idEnd : ℤ
  udNpg : ℤ
  udEnd : ℤ

/-- What the calls `LoadProgram` makes come back with: whether `open` finds
the file, what `LoadInfo` says, whether `malloc` has room, and the bytes the
two `read`s deliver, `none` for `-1`. -/
structure LoadEnv where
  opens : Bool
  info : Option LoadInfo
  malloc : Bool
  text : Option (List Byte)
  data : Option (List Byte)

/-- What `LoadProgram` returns. -/
inductive LoadCode where
  | success
  | error
  | kill
  deriving DecidableEq

/-- What a call of `LoadProgram` leaves: the fields of the process it
changes, the memory, and how often it closed the descriptor and freed the
argument buffer. -/
structure Loaded where
  mem : Memory
  userpt : UserPt
  uc : UserContext
  closes : ℕ
  frees : ℕ

variable [Paging]

open Paging

/-! ## The layout -/

/-- `text_pg1`, `data_pg1` and `data_npg`. -/
def LoadInfo.textPg1 (li : LoadInfo) : ℤ := (li.tVaddr - vmem1Base) / pageSize

def LoadInfo.dataPg1 (li : LoadInfo) : ℤ := (li.idVaddr - vmem1Base) / pageSize

def LoadInfo.dataNpg (li : LoadInfo) : ℤ := li.idNpg + li.udNpg

/-- `size`: the room for the arguments with their NULs. -/
def argSize (args : List (List Byte)) : ℤ := (args.map fun arg => (arg.length : ℤ) + 1).sum

/-- `cp`: where the arguments start. -/
def argCp (args : List (List Byte)) : ℤ := vmem1Limit - argSize args

/-- `cpp`: where `argc` and the pointers start. A pointer is four bytes. -/
def argCpp (args : List (List Byte)) : ℤ :=
  (argCp args - (args.length + 3 + postArgvNullSpace) * 4) / 8 * 8

/-- The stack pointer, the first value of `cp2`. -/
def argSp (args : List (List Byte)) : ℤ := argCpp args - initialStackFrameSize

/-- `stack_npg`. -/
def stackNpg (args : List (List Byte)) : ℤ :=
  (vmem1Limit - downToPage (argSp args)) / pageSize

/-! ## The call -/

/-- The three loops that build the new region 1, the last of them from the
top of the region down. -/
def mapSegments (free : FreeFrame) (pt : ℤ → Pte) (li : LoadInfo) (stackNpg : ℤ) :
    FreeFrame × (ℤ → Pte) :=
  let (free, pt) := mapPages (protRead ||| protWrite)
    (pages li.textPg1 (li.textPg1 + li.tNpg)) free pt
  let (free, pt) := mapPages (protRead ||| protWrite)
    (pages li.dataPg1 (li.dataPg1 + li.dataNpg)) free pt
  mapPages (protRead ||| protWrite) (pages (maxPtLen - stackNpg) maxPtLen).reverse free pt

/-- The loop that makes the text read-only. -/
def protectText : List ℤ → (ℤ → Pte) → ℤ → Pte
  | [], pt => pt
  | i :: is, pt =>
    protectText is (Function.update pt i { pt i with prot := protRead ||| protExec })

/-- The loop that copies the arguments and sets `argv`. -/
def storeArgs (pt : ℤ → Pte) : List (List Byte) → Memory → ℤ → ℤ → Memory × ℤ
  | [], mem, cpp, _ => (mem, cpp)
  | arg :: args, mem, cpp, cp =>
    storeArgs pt args (storeBytes pt (arg ++ [0]) (storeBytes pt (wordBytes cp) mem cpp) cp)
      (cpp + 4) (cp + arg.length + 1)

/-- The argument list, built on the new stack. -/
def buildArgs (pt : ℤ → Pte) (mem : Memory) (args : List (List Byte)) : Memory :=
  let cpp := argCpp args
  let mem := storeBytes pt (List.replicate (vmem1Limit - cpp).toNat 0) mem cpp
  let mem := storeBytes pt (wordBytes args.length) mem cpp
  let (mem, cpp) := storeArgs pt args mem (cpp + 4) (argCp args)
  storeBytes pt (wordBytes 0) (storeBytes pt (wordBytes 0) mem cpp) (cpp + 4)

/-- `LoadProgram` from the release of the old memory on: from here it loads
the program or has the process killed. -/
def loadSegments (mem : Memory) (userpt : UserPt) (uc : UserContext) (args : List (List Byte))
    (env : LoadEnv) (li : LoadInfo) : Loaded × LoadCode :=
  let (free, userpt) := destroyUsermem mem.frames userpt
  let mem := { mem with frames := free }
  if framesLeft free < li.tNpg + li.dataNpg + stackNpg args then
    (⟨mem, userpt, uc, 0, 0⟩, .kill)
  else
    let (free, pt) := mapSegments free userpt.pt li (stackNpg args)
    let mem := { mem with frames := free }
    let userpt := { userpt with
      size := li.tNpg + li.dataNpg + stackNpg args
      pt := pt
      dataEnd := (li.dataPg1 + li.dataNpg + basePage1 - 1) * pageSize
      brk := (li.dataPg1 + li.dataNpg + basePage1) * pageSize
      stackLow := (limPage1 - stackNpg args) * pageSize }
    let mem := storeBytes pt (env.text.getD []) mem li.tVaddr
    if (env.text.map fun bytes => (bytes.length : ℤ)) ≠ some (li.tNpg * pageSize) then
      (⟨mem, userpt, uc, 1, 0⟩, .kill)
    else
      let mem := storeBytes pt (env.data.getD []) mem li.idVaddr
      if (env.data.map fun bytes => (bytes.length : ℤ)) ≠ some (li.idNpg * pageSize) then
        (⟨mem, userpt, uc, 1, 0⟩, .kill)
      else
        let pt := protectText (pages li.textPg1 (li.textPg1 + li.tNpg)) pt
        let mem := storeBytes pt (List.replicate (li.udEnd - li.idEnd).toNat 0) mem li.idEnd
        let mem := buildArgs pt mem args
        (⟨mem, { userpt with pt := pt }, { uc with pc := li.entry }, 1, 1⟩, .success)

/-- `LoadProgram`. -/
def loadProgram (mem : Memory) (userpt : UserPt) (uc : UserContext) (args : List (List Byte))
    (env : LoadEnv) : Loaded × LoadCode :=
  if ¬ env.opens then (⟨mem, userpt, uc, 0, 0⟩, .error)
  else
    match env.info with
    | none => (⟨mem, userpt, uc, 1, 0⟩, .error)
    | some li =>
      if li.entry < vmem1Base then (⟨mem, userpt, uc, 1, 0⟩, .error)
      else if maxPtLen ≤ stackNpg args + li.dataPg1 + li.dataNpg then
        (⟨mem, userpt, uc, 1, 0⟩, .error)
      else
        let uc := { uc with sp := argSp args }
        if ¬ env.malloc then (⟨mem, userpt, uc, 0, 0⟩, .error)
        else loadSegments mem userpt uc args env li

/-- **An executable linked for Yalnix**: its text is below its data, both in
region 1, and it has a page of data. -/
structure LoadInfo.WellFormed (li : LoadInfo) : Prop where
  text_nonneg : 0 ≤ li.textPg1
  tNpg_nonneg : 0 ≤ li.tNpg
  text_le : li.textPg1 + li.tNpg ≤ li.dataPg1
  data_pos : 0 < li.dataNpg
  data_le : li.dataPg1 + li.dataNpg ≤ numPages1

end Yalnix
