import Yalnix.Common.Run
import Yalnix.Memory.Load
import Yalnix.Scheduling.Model
/-!
# Processes

`process.c`, the system calls that make, change and end processes, and the
functions of `scheduling.c` they end in. The second half is the machine they
make: any process that is not asleep may be given the processor, and runs to
the end of its call or to its next block.

A process is known by its node, and its `pcb_t` is a block of its own that
`a_children` lists point at: `pcbAt` says whose block an address is, so that
a pointer into a freed block, or into one used again, is read as the memory
has it. The kernel heap does not grow.
-/

namespace Yalnix

/-- `a_children` and `d_children`, which are allocated together and are both
NULL once the process has terminated. -/
structure Kin (Node Addr : Type) where
  aChildren : List Addr
  dChildren : List Node

/-- A process node with its `pcb_t`. The last three fields are history. -/
structure Proc (Node Addr : Type) where
  code : ℤ
  /-- Where its `pcb_t` is. -/
  data : Addr
  pid : ℤ
  parent : Option Node
  kin : Option (Kin Node Addr)
  userpt : UserPt
  kstack : ℤ → Pte
  uc : UserContext
  /-- Its memory came by `Fork`, and no `Exec` has replaced it since. -/
  inherited : Bool
  /-- Its place in the order of all births. -/
  serial : ℕ
  /-- The births of the processes it has forked and not collected. -/
  children : List ℕ

/-- The kernel's globals, `kernel_pt` and the processes in memory. -/
structure Kernel (Node Addr : Type) where
  mem : Memory
  /-- `kernel_pt.brk`. -/
  brk : ℤ
  procs : ProcTable Node
  initNode : Node
  proc : Node → Option (Proc Node Addr)
  /-- Whose `pcb_t` is at an address, `none` where the block is free. -/
  pcbAt : Addr → Option Node
  /-- Who is asleep inside `KernelWait`, with its `status_ptr`. -/
  waits : Node → Option ℤ
  /-- How many processes have been born. -/
  born : ℕ
  /-- History: the addresses a call stored to that were not writable. -/
  misstored : List ℤ

variable {Node Addr : Type} [Paging]

open Paging

/-! ## `scheduling.c` -/

section Queues

variable [DecidableEq Node]

/-- `unblock`, of a process on `procs->waiting`. -/
def unblockWaiting (procs : ProcTable Node) (proc : Node) : ProcTable Node :=
  if procs.waiting = [] then procs
  else ready { procs with waiting := procs.waiting.erase proc } proc

/-- `check_wait`. -/
def checkWait (procs : ProcTable Node) (parent : Node) : ProcTable Node :=
  if parent ∈ procs.waiting then unblockWaiting procs parent else procs

/-- `block_wait`. -/
def blockWait (procs : ProcTable Node) : ProcTable Node :=
  let (procs, waiting) := block procs procs.waiting
  { procs with waiting := waiting }

end Queues

/-! ## `process.c` -/

/-- `process_init`. The block `kstack` points at is filled by whoever asked
for the process. -/
def processInit (data : Addr) (pid : ℤ) (serial : ℕ) : Proc Node Addr where
  code := 0
  data := data
  pid := pid
  parent := none
  kin := some ⟨[], []⟩
  userpt := newUserPt
  kstack := fun _ => invalidPte
  uc := ⟨0, 0, fun _ => 0⟩
  inherited := false
  serial := serial
  children := []

namespace Kernel

/-- `procs->running`, dereferenced. -/
def curr (k : Kernel Node Addr) : Option (Proc Node Addr) := k.proc k.procs.running

variable [DecidableEq Node]

/-- A store through a node. -/
def modify (k : Kernel Node Addr) (n : Node) (f : Proc Node Addr → Proc Node Addr) :
    Kernel Node Addr :=
  { k with proc := Function.update k.proc n ((k.proc n).map f) }

end Kernel

section Process

variable [DecidableEq Node]

/-- The loop of `process_terminate` over `a_children`: NULL is stored in the
`parent` of whatever process has its `pcb_t` there. -/
def orphanAll : List Addr → Kernel Node Addr → Kernel Node Addr
  | [], k => k
  | curr :: rest, k =>
    orphanAll rest <|
      match k.pcbAt curr with
      | none => k
      | some n => k.modify n fun c => { c with parent := none }

variable [DecidableEq Addr]

/-- `process_copy`, with the blocks `malloc` returns and the pid the host
gives. -/
def processCopy (k : Kernel Node Addr) (parent : Node) (parentPcb : Proc Node Addr)
    (child : Node) (data : Addr) (pid : ℤ) : Kernel Node Addr :=
  let c := processInit data pid k.born
  let (mem, userpt) := copyUserMem k.mem parentPcb.userpt c.userpt
  { k with
    mem := mem
    born := k.born + 1
    pcbAt := Function.update k.pcbAt data (some child)
    proc := Function.update
      (Function.update k.proc parent (some { parentPcb with
        kin := parentPcb.kin.map fun kin => { kin with aChildren := kin.aChildren ++ [data] }
        children := parentPcb.children ++ [k.born] }))
      child (some { c with
        parent := some parent
        uc := parentPcb.uc
        userpt := userpt
        inherited := true }) }

/-- `process_destroy`. -/
def processDestroy (k : Kernel Node Addr) (proc : Node) : Kernel Node Addr :=
  match k.proc proc with
  | none => k
  | some p =>
    { k with
      mem := { k.mem with frames := (destroyKstack k.mem.frames p.kstack).1 }
      proc := Function.update k.proc proc none
      pcbAt := Function.update k.pcbAt p.data none }

/-- `process_terminate` up to its walks: the return code, and
`destroy_usermem`. -/
def releaseUser (k : Kernel Node Addr) (proc : Node) (p : Proc Node Addr) (rc : ℤ) :
    Kernel Node Addr :=
  let (free, userpt) := destroyUsermem k.mem.frames p.userpt
  { k with
    mem := { k.mem with frames := free }
    proc := Function.update k.proc proc (some { p with code := rc, userpt := userpt }) }

/-- The loop of `process_terminate` over `d_children`. `destroy_node` sets
the links of the node it frees to NULL, which is what the walk reads next,
so that it ends after the first. -/
def destroyDefunct : List Node → Kernel Node Addr → Kernel Node Addr
  | [], k => k
  | curr :: _, k => processDestroy k curr

/-- `process_terminate`. -/
def processTerminate (k : Kernel Node Addr) (proc : Node) (rc : ℤ) : Kernel Node Addr :=
  match k.proc proc with
  | none => k
  | some p =>
    match p.kin with
    | none => k
    | some kin =>
      let k := releaseUser k proc p rc
      let k := orphanAll kin.aChildren k
      let k := destroyDefunct kin.dChildren k
      k.modify proc fun p => { p with kin := none }

/-! ## `scheduling.c`, of the dead -/

/-- `graveyard`. -/
def graveyard (k : Kernel Node Addr) : Kernel Node Addr :=
  let running := k.procs.running
  let k : Kernel Node Addr := match k.curr.bind Proc.parent with
    | some parent =>
      let k := k.modify parent fun p =>
        { p with kin := p.kin.map fun kin => { kin with dChildren := kin.dChildren ++ [running] } }
      { k with procs := checkWait k.procs parent }
    | none => { k with procs := { k.procs with orphans := k.procs.orphans ++ [running] } }
  { k with procs := runNextReady k.procs }

/-- `process_destroy` of the processes of a list, in turn. -/
def destroyAll : List Node → Kernel Node Addr → Kernel Node Addr
  | [], k => k
  | proc :: rest, k => destroyAll rest (processDestroy k proc)

/-- `reap_orphans`. -/
def reapOrphans (k : Kernel Node Addr) : Kernel Node Addr :=
  let k := destroyAll k.procs.orphans k
  { k with procs := { k.procs with orphans := [] } }

/-! ## `cswitch.c` -/

/-- What `switch_proc` does to memory and to `procs->running`, for a process
that gets the processor. -/
def switchTo (k : Kernel Node Addr) (next : Node) (p : Proc Node Addr) : Kernel Node Addr :=
  { k with
    procs := dispatch k.procs next
    mem := { k.mem with kernelStack := p.kstack } }

/-- `copy_kernel`. -/
def copyKernel (k : Kernel Node Addr) (child : Node) : Kernel Node Addr :=
  match k.proc child with
  | none => k
  | some c =>
    let (mem, kstack) := kcCopy k.mem c.kstack
    { k with
      mem := mem
      proc := Function.update k.proc child (some { c with kstack := kstack }) }

/-! ## `syscalls.c` -/

/-- `KERNEL_STACK_BASE`. -/
def kernelStackBase : ℤ := basePageKstack * pageSize

/-- `no_kernel_memory`. -/
def noKernelMemory (k : Kernel Node Addr) (left : ℤ) : Bool :=
  framesLeft k.mem.frames < left ∨ downToPage kernelStackBase - pageSize ≤ k.brk

/-- A store to the caller's memory, a call's answer to it. -/
def storeUser (k : Kernel Node Addr) (pt : ℤ → Pte) (addr : ℤ) (bytes : List Byte) :
    Kernel Node Addr :=
  { k with
    mem := storeBytes pt bytes k.mem addr
    misstored := k.misstored ++
      (bytesAt (fun i => addr + i) bytes.length).filter fun a => !writable pt a }

/-- `KernelFork`, as the parent returns from it. `malloc` has no block to
give that is in use. -/
def kernelFork (k : Kernel Node Addr) (child : Node) (data : Addr) (pid : ℤ) :
    Option (Kernel Node Addr × ℤ) :=
  match k.curr with
  | none => none
  | some curr =>
    if noKernelMemory k (curr.userpt.size + 3) then some (k, errorCode)
    else if (k.proc child).isSome ∨ (k.pcbAt data).isSome then none
    else
      let k := processCopy k k.procs.running curr child data pid
      let k := { k with procs := ready k.procs child }
      some (copyKernel k child, pid)

/-- `KernelExit`, which does not return. When init exits the machine
halts. -/
def kernelExit (k : Kernel Node Addr) (status : ℤ) : Option (Kernel Node Addr) :=
  if k.procs.running = k.initNode then none
  else
    let k := reapOrphans k
    some (graveyard (processTerminate k k.procs.running status))

/-- The test `KernelExec` starts with: `check_args` is made of what passes
`check_string`. `none` is a fault of one of them. -/
def checkExec (mem : Memory) (filename argvec : ℤ) (pt : ℤ → Pte) : Option Bool :=
  (checkString mem filename pt).bind fun ok =>
    if ok then checkArgs mem argvec pt else some false

/-- `KernelExec`. A call whose process is killed does not return. -/
def kernelExec (k : Kernel Node Addr) (filename argvec : ℤ) (env : LoadEnv) :
    Option (Kernel Node Addr × ℤ) :=
  match k.curr with
  | none => none
  | some curr =>
    let pt := curr.userpt.pt
    match checkExec k.mem filename argvec pt with
    | none => none
    | some false => some (k, errorCode)
    | some true =>
      let (l, code) :=
        loadProgram k.mem curr.userpt curr.uc (argsAt k.mem pt maxCheck argvec) env
      let k := { k with mem := l.mem }
      let k := k.modify k.procs.running fun p => { p with
        userpt := l.userpt
        uc := l.uc
        inherited := p.inherited && code ≠ .success }
      match code with
      | .success => some (k, successCode)
      | .error => some (k, errorCode)
      | .kill => (kernelExit k errorCode).map fun k => (k, errorCode)

/-- `KernelWait`, from the test of its loop to its return or its next
block. -/
def waitLoop (k : Kernel Node Addr) (statusPtr : ℤ) : Option (Kernel Node Addr × Outcome ℤ) :=
  match k.curr with
  | none => none
  | some parent =>
    match parent.kin with
    | none => none
    | some kin =>
      match kin.dChildren with
      | [] => some ({ k with procs := blockWait k.procs }, .blocked statusPtr)
      | child :: rest =>
        match k.proc child with
        | none => none
        | some childPcb =>
          let k := k.modify k.procs.running fun p => { p with
            kin := some { kin with dChildren := rest }
            children := p.children.erase childPcb.serial }
          let k :=
            if statusPtr ≠ 0 then storeUser k parent.userpt.pt statusPtr (wordBytes childPcb.code)
            else k
          some (reapOrphans (processDestroy k child), .returned childPcb.pid)

/-- `KernelWait`. NULL is 0. -/
def kernelWait (k : Kernel Node Addr) (statusPtr : ℤ) : Option (Kernel Node Addr × Outcome ℤ) :=
  match k.curr with
  | none => none
  | some parent =>
    if statusPtr ≠ 0 ∧ ¬ checkAddr statusPtr protWrite parent.userpt.pt then
      some (k, .returned errorCode)
    else
      match parent.kin with
      | none => none
      | some kin =>
        if kin.aChildren = [] ∧ kin.dChildren = [] then some (k, .returned errorCode)
        else waitLoop k statusPtr

/-- `KernelUserBrk`, of an address that is an `unsigned int`. -/
def kernelUserBrk (k : Kernel Node Addr) (addr : ℤ) : Option (Kernel Node Addr × ℤ) :=
  match k.curr with
  | none => none
  | some curr =>
    let userpt := curr.userpt
    if downToPage userpt.stackLow - pageSize ≤ addr ∨ addr < upToPage userpt.dataEnd then
      some (k, errorCode)
    else
      let currBrkVpn := upToPage userpt.brk / pageSize - 1
      let nextBrkVpn := upToPage addr / pageSize - 1
      if currBrkVpn < nextBrkVpn then
        if framesLeft k.mem.frames < nextBrkVpn - currBrkVpn then some (k, errorCode)
        else
          let (free, pt) := mapPages (protRead ||| protWrite)
            (pages (currBrkVpn + 1 - basePage1) (nextBrkVpn + 1 - basePage1))
            k.mem.frames userpt.pt
          let k := { k with mem := { k.mem with frames := free } }
          some (k.modify k.procs.running fun p => { p with userpt := { userpt with
            size := userpt.size + (nextBrkVpn - currBrkVpn)
            pt := pt
            brk := upToPage addr } }, successCode)
      else
        let (free, pt) := unmapPages
          (pages (nextBrkVpn + 1 - basePage1) (currBrkVpn + 1 - basePage1)).reverse
          k.mem.frames userpt.pt
        let k := { k with mem := { k.mem with frames := free } }
        some (k.modify k.procs.running fun p => { p with userpt := { userpt with
          size := userpt.size - (currBrkVpn - nextBrkVpn)
          pt := pt
          brk := upToPage addr } }, successCode)

/-! ## `traps.c` -/

/-- `TrapMemory`, at `uc->addr`. -/
def trapMemory (k : Kernel Node Addr) (addr : ℤ) : Option (Kernel Node Addr) :=
  match k.curr with
  | none => none
  | some curr =>
    let userpt := curr.userpt
    if upToPage userpt.brk + pageSize ≤ addr ∧ addr ≤ downToPage userpt.stackLow then
      let currVpn := downToPage userpt.stackLow / pageSize
      let nextVpn := downToPage addr / pageSize
      if framesLeft k.mem.frames < currVpn - nextVpn then kernelExit k errorCode
      else
        let (free, pt) := mapPages (protRead ||| protWrite)
          (pages (nextVpn - basePage1) (currVpn - basePage1)).reverse k.mem.frames userpt.pt
        let k := { k with mem := { k.mem with frames := free } }
        some (k.modify k.procs.running fun p => { p with userpt := { userpt with
          size := userpt.size + (currVpn - nextVpn)
          pt := pt
          stackLow := nextVpn * pageSize } })
    else kernelExit k errorCode

end Process

/-! ## The machine -/

/-- What a process given the processor does: a call, a fault, a store to its
own memory, or coming back from the block inside `KernelWait`. `TrapIllegal`
and `TrapMath` are exits with `ERROR`. -/
inductive ProcAct (Node Addr : Type) where
  | fork (child : Node) (data : Addr) (pid : ℤ)
  | exec (filename argvec : ℤ) (env : LoadEnv)
  | exit (status : ℤ)
  | wait (statusPtr : ℤ)
  | brk (addr : ℤ)
  | fault (addr : ℤ)
  | store (addr : ℤ) (byte : Byte)
  | resume

variable [DecidableEq Node] [DecidableEq Addr]

/-- A call of `KernelWait` leaves, asleep or with its result. -/
def Kernel.leaveWait (p : Node) : Kernel Node Addr × Outcome ℤ → Kernel Node Addr
  | (k, .blocked statusPtr) =>
    { k with waits := Function.update k.waits p (some statusPtr) }
  | (k, .returned _) => { k with waits := Function.update k.waits p none }

/-- What the process on the processor does. One inside `KernelWait` can only
come back from its block. -/
def Kernel.act (k : Kernel Node Addr) (p : Node) (c : Proc Node Addr) :
    ProcAct Node Addr → Option (Kernel Node Addr)
  | .fork child data pid =>
    if (k.waits p).isSome then none else (kernelFork k child data pid).map Prod.fst
  | .exec filename argvec env =>
    if (k.waits p).isSome then none else (kernelExec k filename argvec env).map Prod.fst
  | .exit status => if (k.waits p).isSome then none else kernelExit k status
  | .wait statusPtr =>
    if (k.waits p).isSome then none else (kernelWait k statusPtr).map (leaveWait p)
  | .brk addr => if (k.waits p).isSome then none else (kernelUserBrk k addr).map Prod.fst
  | .fault addr => if (k.waits p).isSome then none else trapMemory k addr
  | .store addr byte =>
    if (k.waits p).isSome ∨ ¬ writable c.userpt.pt addr then none
    else some { k with mem := storeByte c.userpt.pt k.mem addr byte }
  | .resume =>
    match k.waits p with
    | none => none
    | some statusPtr => (waitLoop k statusPtr).map (leaveWait p)

/-- **One activation**: the scheduler gives the processor to a process that
lives, is not idle and is not asleep. -/
def Kernel.step (k : Kernel Node Addr) : Node × ProcAct Node Addr → Option (Kernel Node Addr)
  | (p, act) =>
    match k.proc p with
    | none => none
    | some c =>
      if c.kin.isNone ∨ p = k.procs.idleNode ∨ p ∈ k.procs.waiting then none
      else (switchTo k p c).act p c act

end Yalnix
