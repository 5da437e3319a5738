import Yalnix.Process.Model
/-!
# Booting

`KernelStart`, as far as memory and processes go: the frame allocator and
region 0, init with the program it is loaded with, and idle with a copy of
init's kernel stack. The kernel heap does not grow.
-/

namespace Yalnix

/-- What `KernelStart` is handed, with what the linker (`_kernel_data_start`,
`DoIdle`), `malloc`, the helper that numbers processes and the host answer. -/
structure Boot (Node Addr : Type) where
  pmemSize : ℤ
  cmdArgs : List (List Byte)
  uc : UserContext
  kernelDataStart : ℤ
  doIdle : ℤ
  /-- `kernel_pt.brk` as `VM_setup` finds it. -/
  brk : ℤ
  pmem : ℤ → ℤ → Byte
  env : LoadEnv
  initNode : Node
  initData : Addr
  initPid : ℤ
  idleNode : Node
  idleData : Addr
  idlePid : ℤ

variable {Node Addr : Type} [Paging]

open Paging

/-- One turn of the loop of `VM_setup`. -/
def vmSetupPage (kernelDataStart brk : ℤ) (free : FreeFrame) (pt : ℤ → Pte) (vpn : ℤ) :
    FreeFrame × (ℤ → Pte) :=
  if vpn < kernelDataStart / pageSize then
    let (free, pfn) := getFrame free vpn false
    (free, Function.update pt (vpn - basePage0)
      (setPte (pt (vpn - basePage0)) true pfn (protRead ||| protExec)))
  else if vpn ≤ brk / pageSize ∨ basePageKstack ≤ vpn then
    let (free, pfn) := getFrame free vpn false
    (free, Function.update pt (vpn - basePage0)
      (setPte (pt (vpn - basePage0)) true pfn (protRead ||| protWrite)))
  else
    (free, Function.update pt (vpn - basePage0) (setPte (pt (vpn - basePage0)) false 0 0))

/-- The loop of `VM_setup`. -/
def vmSetup (kernelDataStart brk : ℤ) : List ℤ → FreeFrame → (ℤ → Pte) → FreeFrame × (ℤ → Pte)
  | [], free, pt => (free, pt)
  | vpn :: vpns, free, pt =>
    let (free, pt) := vmSetupPage kernelDataStart brk free pt vpn
    vmSetup kernelDataStart brk vpns free pt

/-- The kernel stack's part of `kernel_pt`. -/
def kstackOf (kernelPt : ℤ → Pte) : ℤ → Pte := fun i =>
  if 0 ≤ i ∧ i < numKstackPages then kernelPt (basePageKstack + i - basePage0) else invalidPte

/-- Memory as `VM_setup` leaves it. -/
def bootMem (b : Boot Node Addr) : Memory :=
  let (free, kernelPt) := vmSetup b.kernelDataStart b.brk (pages basePage0 limPage0)
    (newFreeFrame b.pmemSize) fun _ => invalidPte
  { frames := free
    pmem := b.pmem
    scratch := kernelPt (basePageKstack - 1 - basePage0)
    kernelStack := kstackOf kernelPt }

variable [DecidableEq Node] [DecidableEq Addr]

/-- `KernelStart` up to the return of `init_load`. Where init cannot be
loaded the machine halts. -/
def initLoad (b : Boot Node Addr) : Option (Kernel Node Addr) :=
  let mem := bootMem b
  let c : Proc Node Addr := { processInit b.initData b.initPid 0 with
    uc := b.uc
    kstack := mem.kernelStack }
  let (l, code) := loadProgram mem c.userpt c.uc b.cmdArgs b.env
  if code ≠ .success then none
  else
    some
      { mem := l.mem
        brk := b.brk
        procs :=
          { running := b.initNode
            ready := []
            waiting := []
            delayed := []
            orphans := []
            idleNode := b.idleNode }
        initNode := b.initNode
        proc := Function.update (fun _ => none) b.initNode
          (some { c with userpt := l.userpt, uc := l.uc })
        pcbAt := Function.update (fun _ => none) b.initData (some b.initNode)
        waits := fun _ => none
        born := 1
        misstored := [] }

/-- `idle_setup`. -/
def idleSetup (b : Boot Node Addr) (k : Kernel Node Addr) : Kernel Node Addr :=
  let (free, pt) := mapPage (protRead ||| protWrite) k.mem.frames newUserPt.pt
    (limPage1 - 1 - basePage1)
  let c : Proc Node Addr := { processInit b.idleData b.idlePid k.born with
    userpt := { newUserPt with pt := pt }
    uc := { b.uc with pc := b.doIdle, sp := vmem1Limit - 4 } }
  copyKernel
    { k with
      mem := { k.mem with frames := free }
      proc := Function.update k.proc b.idleNode (some c)
      pcbAt := Function.update k.pcbAt b.idleData (some b.idleNode)
      born := k.born + 1 }
    b.idleNode

/-- `KernelStart`. The blocks of the two processes are not the same. -/
def kernelStart (b : Boot Node Addr) : Option (Kernel Node Addr) :=
  if b.initNode = b.idleNode ∨ b.initData = b.idleData then none
  else (initLoad b).map (idleSetup b)

/-! ## In one piece -/

/-- Idle, as `idle_setup` makes it. -/
def idleProc (b : Boot Node Addr) (k : Kernel Node Addr) : Proc Node Addr :=
  let (free, pt) := mapPage (protRead ||| protWrite) k.mem.frames newUserPt.pt
    (limPage1 - 1 - basePage1)
  { processInit b.idleData b.idlePid k.born with
    userpt := { newUserPt with pt := pt }
    kstack := (kcCopy { k.mem with frames := free } fun _ => invalidPte).2
    uc := { b.uc with pc := b.doIdle, sp := vmem1Limit - 4 } }

omit [DecidableEq Node] [DecidableEq Addr] in
/-- `idle_setup` makes idle, and touches nobody else. -/
theorem idleSetup_eq [DecidableEq Node] [DecidableEq Addr] (b : Boot Node Addr)
    (k : Kernel Node Addr) :
    idleSetup b k = { k with
      mem := (kcCopy { k.mem with
        frames := (mapPage (protRead ||| protWrite) k.mem.frames newUserPt.pt
          (limPage1 - 1 - basePage1)).1 } fun _ => invalidPte).1
      proc := Function.update k.proc b.idleNode (some (idleProc b k))
      pcbAt := Function.update k.pcbAt b.idleData (some b.idleNode)
      born := k.born + 1 } := by
  unfold idleSetup copyKernel
  dsimp only
  rw [Function.update_self]
  dsimp only
  rw [Function.update_idem]
  rfl

/-- What `init_load` makes, where it finds its program. -/
theorem initLoad_eq {b : Boot Node Addr} {k : Kernel Node Addr} (h : initLoad b = some k) :
    ∃ r, loadProgram (bootMem b) newUserPt b.uc b.cmdArgs b.env = r ∧ r.2 = .success ∧
      k.mem = r.1.mem ∧ k.procs.idleNode = b.idleNode ∧
      k.proc = Function.update (fun _ => none) b.initNode
        (some { (processInit b.initData b.initPid 0 : Proc Node Addr) with
          kstack := (bootMem b).kernelStack
          userpt := r.1.userpt
          uc := r.1.uc }) := by
  unfold initLoad at h
  dsimp only at h
  split at h
  · cases h
  · rename_i hcode
    obtain rfl := Option.some.inj h
    exact ⟨_, rfl, not_not.mp hcode, rfl, rfl, rfl⟩

/-! ## A small machine -/

/-- A program of one page, all of it uninitialized data. -/
def onePage : LoadEnv where
  opens := true
  info := some
    { entry := 0x100000
      tVaddr := 0x100000
      tNpg := 0
      idVaddr := 0x100000
      idNpg := 0
      idEnd := 0x100000
      udNpg := 1
      udEnd := 0x100000 }
  malloc := true
  text := some []
  data := some []

/-- A machine with so many frames, a kernel of four pages, and a program of
one page for init. Init is process 0 and idle process 1. -/
def smallBoot (frames : ℤ) : Boot ℕ ℕ where
  pmemSize := frames * pageSize
  cmdArgs := []
  uc := ⟨0, 0, fun _ => 0⟩
  kernelDataStart := 2 * pageSize
  doIdle := 0
  brk := 3 * pageSize
  pmem := fun _ _ => 0
  env := onePage
  initNode := 0
  initData := 0
  initPid := 0
  idleNode := 1
  idleData := 1
  idlePid := 1

omit [Paging] in
/-- It is linked for Yalnix. -/
theorem onePage_wellFormed :
    ∀ li, onePage.info = some li → @LoadInfo.WellFormed yalnixPaging li := by
  let _ := yalnixPaging
  intro li h
  obtain rfl := Option.some.inj h
  exact ⟨by decide, by decide, by decide, by decide, by decide⟩

end Yalnix
