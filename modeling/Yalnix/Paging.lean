import Mathlib.Data.Int.Notation
import Mathlib.Order.Basic
import Mathlib.Algebra.Order.Ring.Int
/-!
# The address space the machine's headers fix

`ykernel.h` and `hardware.h` are not part of the repository. The page size
and the bounds of the regions are parameters here, with what the kernel
relies on as fields. Addresses and page numbers are integers; the kernel's
`>> PAGESHIFT` is division by the page size.
-/

namespace Yalnix

/-- The layout of virtual and physical memory. -/
class Paging where
  /-- `PAGESIZE`. -/
  pageSize : ℤ
  pageSize_pos : 0 < pageSize
  /-- `BASE_PAGE_1` and `LIM_PAGE_1`. -/
  basePage1 : ℤ
  limPage1 : ℤ
  basePage1_pos : 0 < basePage1
  basePage1_lt : basePage1 < limPage1
  /-- `BASE_PAGE_0` and `LIM_PAGE_0`. -/
  basePage0 : ℤ
  limPage0 : ℤ
  limPage0_le : limPage0 ≤ basePage1
  /-- `BASE_PAGE_KSTACK` and `LIM_PAGE_KSTACK`, with the page below it. -/
  basePageKstack : ℤ
  limPageKstack : ℤ
  basePage0_lt : basePage0 < basePageKstack
  basePageKstack_lt : basePageKstack < limPageKstack
  limPageKstack_eq : limPageKstack = limPage0
  /-- `BASE_FRAME`. Region 0 starts out with frames of its pages' numbers. -/
  baseFrame : ℤ
  baseFrame_nonneg : 0 ≤ baseFrame
  baseFrame_le : baseFrame ≤ basePage0
  /-- `MAX_PT_LEN`, the length of a region's page table. -/
  maxPtLen : ℤ
  maxPtLen_eq : maxPtLen = limPage1 - basePage1
  /-- `INITIAL_STACK_FRAME_SIZE` and `POST_ARGV_NULL_SPACE`. -/
  initialStackFrameSize : ℤ
  initialStackFrameSize_nonneg : 0 ≤ initialStackFrameSize
  postArgvNullSpace : ℤ
  postArgvNullSpace_nonneg : 0 ≤ postArgvNullSpace

/-- The machine Yalnix runs on, at which examples are read. -/
@[reducible] def yalnixPaging : Paging where
  pageSize := 0x2000
  pageSize_pos := by decide
  basePage1 := 128
  limPage1 := 256
  basePage1_pos := by decide
  basePage1_lt := by decide
  basePage0 := 0
  limPage0 := 128
  limPage0_le := by decide
  basePageKstack := 126
  limPageKstack := 128
  basePage0_lt := by decide
  basePageKstack_lt := by decide
  limPageKstack_eq := by decide
  baseFrame := 0
  baseFrame_nonneg := by decide
  baseFrame_le := by decide
  maxPtLen := 128
  maxPtLen_eq := by decide
  initialStackFrameSize := 16
  initialStackFrameSize_nonneg := by decide
  postArgvNullSpace := 0
  postArgvNullSpace_nonneg := by decide

variable [Paging]

open Paging

/-- `NUM_PAGES_1`. -/
def numPages1 : ℤ := limPage1 - basePage1

/-- `NUM_KSTACK_PAGES`. -/
def numKstackPages : ℤ := limPageKstack - basePageKstack

/-- `VMEM_1_BASE` and `VMEM_1_LIMIT`. -/
def vmem1Base : ℤ := basePage1 * pageSize

def vmem1Limit : ℤ := limPage1 * pageSize

/-- `UP_TO_PAGE`. -/
def upToPage (addr : ℤ) : ℤ := (addr + pageSize - 1) / pageSize * pageSize

/-- `DOWN_TO_PAGE`. -/
def downToPage (addr : ℤ) : ℤ := addr / pageSize * pageSize

/-- `ERROR`, and `SUCCESS`. -/
def errorCode : ℤ := -1

def successCode : ℤ := 0

omit [Paging] in
theorem errorCode_ne_zero : errorCode ≠ 0 := by decide

omit [Paging] in
theorem successCode_ne_errorCode : successCode ≠ errorCode := by decide

/-- `PROT_READ`, `PROT_WRITE` and `PROT_EXEC`: three bits. -/
def protRead : ℕ := 1

def protWrite : ℕ := 2

def protExec : ℕ := 4

/-- `PROT_ALL`. -/
def protAll : ℕ := protRead ||| protWrite ||| protExec

/-! ## Rounding -/

theorem numKstackPages_pos : 0 < numKstackPages := by
  have := basePageKstack_lt
  unfold numKstackPages
  omega

/-- The page an aligned address is on. -/
theorem mul_pageSize_ediv (k : ℤ) : k * pageSize / pageSize = k :=
  Int.mul_ediv_cancel k pageSize_pos.ne'

theorem downToPage_mul (k : ℤ) : downToPage (k * pageSize) = k * pageSize := by
  rw [downToPage, mul_pageSize_ediv]

/-- The page `UP_TO_PAGE` rounds to, in terms of pages. -/
theorem ediv_up_le_iff (addr k : ℤ) :
    (addr + pageSize - 1) / pageSize ≤ k ↔ addr ≤ k * pageSize := by
  have hpos := pageSize_pos
  rw [← Int.lt_add_one_iff, Int.ediv_lt_iff_lt_mul hpos, Int.add_mul]
  omega

theorem upToPage_mul (k : ℤ) : upToPage (k * pageSize) = k * pageSize := by
  have hle := (ediv_up_le_iff (k * pageSize) k).mpr le_rfl
  have hge : k ≤ (k * pageSize + pageSize - 1) / pageSize := by
    have hpos := pageSize_pos
    rw [Int.le_ediv_iff_mul_le hpos]
    omega
  rw [upToPage, le_antisymm hle hge]

/-- The page an address is on, in terms of pages. -/
theorem le_ediv_iff (addr k : ℤ) : k ≤ addr / pageSize ↔ k * pageSize ≤ addr :=
  Int.le_ediv_iff_mul_le pageSize_pos

theorem mul_le_mul_iff (j k : ℤ) : j * pageSize ≤ k * pageSize ↔ j ≤ k :=
  Int.mul_le_mul_iff_of_pos_right pageSize_pos

end Yalnix
