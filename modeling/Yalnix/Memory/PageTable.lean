import Yalnix.Bytes
import Yalnix.Memory.Frames
/-!
# Page tables

Page tables and the functions of `memory.c` that fill, copy and empty them.
A table is indexed from the first page of its region, and a `for` over page
numbers is a recursion over the list of their indices.
-/

namespace Yalnix

/-- `pte_t`. -/
structure Pte where
  valid : Bool
  pfn : ℤ
  prot : ℕ

/-- `set_pte`. -/
def setPte (pte : Pte) (valid : Bool) (pfn : ℤ) (prot : ℕ) : Pte :=
  if valid then { valid := true, pfn := pfn, prot := prot } else { pte with valid := false }

/-- `user_pt_t`. -/
structure UserPt where
  dataEnd : ℤ
  brk : ℤ
  stackLow : ℤ
  pt : ℤ → Pte
  size : ℤ

/-- An entry that maps nothing. -/
def invalidPte : Pte := { valid := false, pfn := 0, prot := 0 }

/-- `new_user_pt`. The three addresses are left as they come. -/
def newUserPt : UserPt where
  dataEnd := 0
  brk := 0
  stackLow := 0
  pt := fun _ => invalidPte
  size := 0

/-- The page indices of `for (i = lo; i < hi; i++)`. -/
def pages (lo hi : ℤ) : List ℤ := (List.range (hi - lo).toNat).map fun k : ℕ => lo + k

variable [Paging]

open Paging

/-- `set_pte(&pt[i], 1, get_frame(NONE, AUTO), prot)`. -/
def mapPage (prot : ℕ) (free : FreeFrame) (pt : ℤ → Pte) (i : ℤ) : FreeFrame × (ℤ → Pte) :=
  let (free, pfn) := getFrame free 0 true
  (free, Function.update pt i (setPte (pt i) true pfn prot))

/-- `set_pte(&pt[i], 0, vacate_frame(pt[i].pfn), NONE)`. -/
def unmapPage (free : FreeFrame) (pt : ℤ → Pte) (i : ℤ) : FreeFrame × (ℤ → Pte) :=
  (vacateFrame free (pt i).pfn, Function.update pt i (setPte (pt i) false 0 0))

/-- Mapping the pages of a list, in turn. -/
def mapPages (prot : ℕ) : List ℤ → FreeFrame → (ℤ → Pte) → FreeFrame × (ℤ → Pte)
  | [], free, pt => (free, pt)
  | i :: is, free, pt =>
    let (free, pt) := mapPage prot free pt i
    mapPages prot is free pt

/-- Unmapping them. -/
def unmapPages : List ℤ → FreeFrame → (ℤ → Pte) → FreeFrame × (ℤ → Pte)
  | [], free, pt => (free, pt)
  | i :: is, free, pt =>
    let (free, pt) := unmapPage free pt i
    unmapPages is free pt

/-- Unmapping those that are mapped, the loop of `destroy_usermem` and of
`destroy_kstack`. -/
def unmapValid : List ℤ → FreeFrame → (ℤ → Pte) → FreeFrame × (ℤ → Pte)
  | [], free, pt => (free, pt)
  | i :: is, free, pt =>
    let (free, pt) := if (pt i).valid then unmapPage free pt i else (free, pt)
    unmapValid is free pt

/-- `destroy_usermem`. -/
def destroyUsermem (free : FreeFrame) (userpt : UserPt) : FreeFrame × UserPt :=
  let (free, pt) := unmapValid (pages 0 numPages1) free userpt.pt
  (free, { userpt with pt := pt })

/-- `destroy_kstack`. -/
def destroyKstack (free : FreeFrame) (kstack : ℤ → Pte) : FreeFrame × (ℤ → Pte) :=
  unmapValid (pages 0 numKstackPages) free kstack

/-- The machine's memory: the frame allocator, the bytes in each frame, and
of `kernel_pt` the scratch page below the kernel stack and the stack itself. -/
structure Memory where
  frames : FreeFrame
  pmem : ℤ → ℤ → Byte
  scratch : Pte
  kernelStack : ℤ → Pte

/-- One turn of the loops that copy pages through the scratch page: the copy
of the page `from` maps, as the scratch page maps it. -/
def copyPage (mem : Memory) (origin : Pte) : Memory × Pte :=
  let (free, pfn) := getFrame mem.frames 0 true
  let scratch := setPte mem.scratch true pfn (protRead ||| protWrite)
  ({ mem with
      frames := free
      scratch := scratch
      pmem := Function.update mem.pmem scratch.pfn (mem.pmem origin.pfn) }, scratch)

/-- The loop of `copy_user_mem`. -/
def copyValid (origin : ℤ → Pte) : List ℤ → Memory → (ℤ → Pte) → Memory × (ℤ → Pte)
  | [], mem, dst => (mem, dst)
  | i :: is, mem, dst =>
    if (origin i).valid then
      let (mem, pte) := copyPage mem (origin i)
      copyValid origin is mem (Function.update dst i { pte with prot := (origin i).prot })
    else copyValid origin is mem dst

/-- `copy_user_mem`. -/
def copyUserMem (mem : Memory) (origin dst : UserPt) : Memory × UserPt :=
  let (mem, pt) := copyValid origin.pt (pages 0 numPages1) mem dst.pt
  ({ mem with scratch := setPte mem.scratch false 0 0 },
    { dst with
      pt := pt
      brk := origin.brk
      dataEnd := origin.dataEnd
      stackLow := origin.stackLow })

/-- The loop of `KCCopy`. -/
def copyKstack : List ℤ → Memory → (ℤ → Pte) → Memory × (ℤ → Pte)
  | [], mem, kstack => (mem, kstack)
  | i :: is, mem, kstack =>
    let (mem, pte) := copyPage mem (mem.kernelStack i)
    copyKstack is mem (Function.update kstack i pte)

/-- What `KCCopy` does to memory: the running process's kernel stack is
copied into new frames for `kstack`. -/
def kcCopy (mem : Memory) (kstack : ℤ → Pte) : Memory × (ℤ → Pte) :=
  let (mem, kstack) := copyKstack (pages 0 numKstackPages) mem kstack
  ({ mem with scratch := setPte mem.scratch false 0 0 }, kstack)

end Yalnix
