import Yalnix.Memory.PageTable
/-!
# User memory from inside the kernel

The checks of `memory.c` a system call makes on the addresses it is handed,
and the loads and stores it then makes through the caller's page table. A
check says what the code says; `readable` and `writable` say what the
machine's protection bits do. The checks of a string and of a vector load
what they check as they go, and a load of the kernel that faults ends it.
-/

namespace Yalnix

variable [Paging]

open Paging

/-- The entry that maps an address. -/
def pteAt (pt : ℤ → Pte) (addr : ℤ) : Pte := pt (addr / pageSize - basePage1)

/-- `check_addr`. In C `==` binds tighter than `|`, so that the first test
is of `(p.prot == PROT_READ) | PROT_WRITE`. -/
def checkAddr (addr : ℤ) (prot : ℕ) (pt : ℤ → Pte) : Bool :=
  if addr < vmem1Base ∨ vmem1Limit ≤ addr then false
  else
    let p := pteAt pt addr
    if ¬ p.valid then false
    else if ((if p.prot = protRead then 1 else 0) ||| protWrite) ≠ 0 ∨ p.prot = protAll then true
    else if prot = protRead then p.prot = protRead
    else p.prot = protWrite

/-- `check_buffer`. -/
def checkBuffer (len addr : ℤ) (prot : ℕ) (pt : ℤ → Pte) : Bool :=
  (List.range len.toNat).all fun i : ℕ => checkAddr (addr + i) prot pt

/-- The page of the address is valid and its protection has `PROT_READ`. -/
def readable (pt : ℤ → Pte) (addr : ℤ) : Bool :=
  vmem1Base ≤ addr ∧ addr < vmem1Limit ∧ (pteAt pt addr).valid ∧
    (pteAt pt addr).prot &&& protRead ≠ 0

/-- What the page table has at an address, whether it can be loaded or not. -/
def byteAt (mem : Memory) (pt : ℤ → Pte) (addr : ℤ) : Byte :=
  mem.pmem (pteAt pt addr).pfn (addr % pageSize)

/-- The word there: four bytes, the lowest first. -/
def wordAt (mem : Memory) (pt : ℤ → Pte) (addr : ℤ) : ℤ :=
  ((List.range 4).map fun k : ℕ => ((byteAt mem pt (addr + k)).toNat : ℤ) * 256 ^ k).sum

/-- A byte the kernel loads. `none` is a fault in kernel mode, which nothing
survives. -/
def loadByte (mem : Memory) (pt : ℤ → Pte) (addr : ℤ) : Option Byte :=
  if readable pt addr then some (byteAt mem pt addr) else none

/-- A word the kernel loads, which faults where one of its bytes does. -/
def loadWord (mem : Memory) (pt : ℤ → Pte) (addr : ℤ) : Option ℤ :=
  if (List.range 4).all fun k : ℕ => readable pt (addr + k) then some (wordAt mem pt addr)
  else none

/-- `MAX_CHECK`. -/
def maxCheck : ℕ := 256

/-- The loop of `check_string` from `addr` on, with `fuel` turns to go. -/
def checkStringLoop (mem : Memory) (pt : ℤ → Pte) : ℕ → ℤ → Option Bool
  | 0, _ => some false
  | fuel + 1, addr =>
    if ¬ checkAddr addr protRead pt then some false
    else (loadByte mem pt addr).bind fun byte =>
      if byte = 0 then some true else checkStringLoop mem pt fuel (addr + 1)

/-- `check_string`. -/
def checkString (mem : Memory) (addr : ℤ) (pt : ℤ → Pte) : Option Bool :=
  checkStringLoop mem pt maxCheck addr

/-- The loop of `check_args` from the pointer at `args` on. Of a pointer it
checks the first byte, and loads four. -/
def checkArgsLoop (mem : Memory) (pt : ℤ → Pte) : ℕ → ℤ → Option Bool
  | 0, _ => some false
  | fuel + 1, args =>
    if ¬ checkAddr args protRead pt then some false
    else (loadWord mem pt args).bind fun arg =>
      if arg = 0 then some true
      else (checkString mem arg pt).bind fun ok =>
        if ok then checkArgsLoop mem pt fuel (args + 4) else some false

/-- `check_args`. -/
def checkArgs (mem : Memory) (args : ℤ) (pt : ℤ → Pte) : Option Bool :=
  checkArgsLoop mem pt maxCheck args

/-- The string at `addr`, up to its NUL. One that passed `check_string` has
it within `MAX_CHECK` bytes. -/
def stringAt (mem : Memory) (pt : ℤ → Pte) : ℕ → ℤ → List Byte
  | 0, _ => []
  | fuel + 1, addr =>
    if byteAt mem pt addr = 0 then []
    else byteAt mem pt addr :: stringAt mem pt fuel (addr + 1)

/-- The strings of the vector at `args`, up to its NULL. -/
def argsAt (mem : Memory) (pt : ℤ → Pte) : ℕ → ℤ → List (List Byte)
  | 0, _ => []
  | fuel + 1, args =>
    if wordAt mem pt args = 0 then []
    else stringAt mem pt maxCheck (wordAt mem pt args) :: argsAt mem pt fuel (args + 4)

/-- The page of the address is valid and its protection has `PROT_WRITE`. -/
def writable (pt : ℤ → Pte) (addr : ℤ) : Bool :=
  vmem1Base ≤ addr ∧ addr < vmem1Limit ∧ (pteAt pt addr).valid ∧
    (pteAt pt addr).prot &&& protWrite ≠ 0

/-- A byte stored through a page table. -/
def storeByte (pt : ℤ → Pte) (mem : Memory) (addr : ℤ) (byte : Byte) : Memory :=
  let pfn := (pteAt pt addr).pfn
  { mem with
    pmem := Function.update mem.pmem pfn
      (Function.update (mem.pmem pfn) (addr % pageSize) byte) }

/-- Bytes stored in a row. -/
def storeBytes (pt : ℤ → Pte) : List Byte → Memory → ℤ → Memory
  | [], mem, _ => mem
  | byte :: bytes, mem, addr => storeBytes pt bytes (storeByte pt mem addr byte) (addr + 1)

/-- The four bytes of a word, the lowest first. -/
def wordBytes (word : ℤ) : List Byte :=
  (List.range 4).map fun k => UInt8.ofNat (word / 256 ^ k % 256).toNat

/-- The page of the address has `PROT_WRITE`. -/
def writeBit (pt : ℤ → Pte) (addr : ℤ) : Prop := (pteAt pt addr).prot &&& protWrite ≠ 0

/-- The page of the address is a valid page of region 1. -/
def mapped (pt : ℤ → Pte) (addr : ℤ) : Prop :=
  vmem1Base ≤ addr ∧ addr < vmem1Limit ∧ (pteAt pt addr).valid = true

/-! ## What the checks amount to -/

variable {pt : ℤ → Pte} {addr : ℤ} {prot : ℕ} {mem : Memory}

/-- **`check_addr` looks at no protection bit**: its first test of them is
true of every page, so that a valid page of region 1 passes. -/
theorem checkAddr_iff : checkAddr addr prot pt = true ↔
    vmem1Base ≤ addr ∧ addr < vmem1Limit ∧ (pteAt pt addr).valid = true := by
  have hprot : ((if (pteAt pt addr).prot = protRead then 1 else 0) ||| protWrite) ≠ 0 := by
    split <;> decide
  unfold checkAddr
  by_cases hrange : addr < vmem1Base ∨ vmem1Limit ≤ addr
  · rw [if_pos hrange]
    constructor
    · intro h
      cases h
    · rintro ⟨hlo, hhi, -⟩
      omega
  · rw [if_neg hrange]
    dsimp only
    by_cases hv : (pteAt pt addr).valid = true
    · rw [if_neg (by simpa using hv), if_pos (Or.inl hprot)]
      simp only [hv, and_true, true_iff]
      omega
    · rw [if_pos hv]
      constructor
      · intro h
        cases h
      · exact fun h => absurd h.2.2 hv

theorem mapped_of_checkAddr {prot : ℕ} (h : checkAddr addr prot pt = true) : mapped pt addr :=
  checkAddr_iff.mp h

theorem ne_zero_of_mapped (h : mapped pt addr) : addr ≠ 0 := by
  have hpos : 0 < vmem1Base := mul_pos basePage1_pos pageSize_pos
  have hlo := h.1
  omega

/-- Another address of a valid page. -/
theorem mapped_of_page {addr' : ℤ} (h : mapped pt addr) (hle : addr ≤ addr')
    (hpage : addr' / pageSize = addr / pageSize) : mapped pt addr' := by
  obtain ⟨hlo, hhi, hvalid⟩ := h
  refine ⟨le_trans hlo hle, ?_, ?_⟩
  · have hlt : ¬ limPage1 ≤ addr / pageSize := by
      rw [le_ediv_iff]
      exact not_le.mpr hhi
    rw [← hpage, le_ediv_iff] at hlt
    exact not_le.mp hlt
  · unfold pteAt at hvalid ⊢
    rw [hpage]
    exact hvalid

theorem readable_iff : readable pt addr = true ↔
    mapped pt addr ∧ (pteAt pt addr).prot &&& protRead ≠ 0 := by
  unfold readable mapped
  simp only [decide_eq_true_eq, and_assoc]

theorem loadWord_of_readable (h : ∀ b : ℕ, b < 4 → readable pt (addr + b) = true) :
    loadWord mem pt addr = some (wordAt mem pt addr) := by
  refine if_pos (List.all_eq_true.mpr fun b hb => h b ?_)
  exact List.mem_range.mp hb

theorem loadWord_eq_none_iff :
    loadWord mem pt addr = none ↔ ¬ ∀ b : ℕ, b < 4 → readable pt (addr + b) = true := by
  have hall : ((List.range 4).all fun k : ℕ => readable pt (addr + k)) = true ↔
      ∀ b : ℕ, b < 4 → readable pt (addr + b) = true := by
    rw [List.all_eq_true]
    exact forall_congr' fun b => by rw [List.mem_range]
  unfold loadWord
  split
  · rename_i h
    exact iff_of_false (Option.some_ne_none _) (not_not_intro (hall.mp h))
  · rename_i h
    exact iff_of_true rfl fun hread => h (hall.mpr hread)

theorem checkBuffer_iff {len : ℤ} : checkBuffer len addr prot pt = true ↔
    ∀ i : ℕ, i < len.toNat → checkAddr (addr + i) prot pt = true := by
  simp [checkBuffer]

@[simp] theorem storeByte_frames (byte : Byte) :
    (storeByte pt mem addr byte).frames = mem.frames := rfl

@[simp] theorem storeBytes_frames (bytes : List Byte) :
    (storeBytes pt bytes mem addr).frames = mem.frames := by
  induction bytes generalizing mem addr with
  | nil => rfl
  | cons byte bytes ih => rw [storeBytes, ih, storeByte_frames]

/-! ## Stored, then loaded -/

theorem byteAt_storeByte (byte : Byte) : byteAt (storeByte pt mem addr byte) pt addr = byte := by
  unfold byteAt storeByte
  dsimp only
  rw [Function.update_self, Function.update_self]

theorem byteAt_storeByte_of_ne {addr' : ℤ} (byte : Byte)
    (h : addr' % pageSize ≠ addr % pageSize) :
    byteAt (storeByte pt mem addr byte) pt addr' = byteAt mem pt addr' := by
  unfold byteAt storeByte
  dsimp only
  rw [Function.update_apply]
  split
  · rename_i heq
    rw [Function.update_of_ne h, heq]
  · rfl

/-- Bytes stored elsewhere in the page leave a byte alone. -/
theorem byteAt_storeBytes_of_ne {addr' : ℤ} {bytes : List Byte}
    (h : ∀ j : ℕ, j < bytes.length → addr' % pageSize ≠ (addr + j) % pageSize) :
    byteAt (storeBytes pt bytes mem addr) pt addr' = byteAt mem pt addr' := by
  induction bytes generalizing mem addr with
  | nil => rfl
  | cons byte bytes ih =>
    rw [storeBytes, ih, byteAt_storeByte_of_ne]
    · have := h 0 (Nat.succ_pos _)
      rwa [Nat.cast_zero, Int.add_zero] at this
    · intro j hj
      have := h (j + 1) (Nat.succ_lt_succ hj)
      rwa [Nat.cast_succ, Int.add_comm (j : ℤ) 1, ← Int.add_assoc] at this

/-- Two addresses less than a page apart are at different offsets. -/
theorem emod_ne_of_lt {i j : ℤ} (hij : i < j) (hj : j < i + pageSize) :
    (addr + i) % pageSize ≠ (addr + j) % pageSize := by
  intro heq
  rw [eq_comm, Int.emod_eq_emod_iff_emod_sub_eq_zero] at heq
  have hsub : addr + j - (addr + i) = j - i := by omega
  rw [hsub, Int.emod_eq_of_lt (by omega) (by omega)] at heq
  omega

/-- **Bytes stored in a row** are there, where they fit a page. -/
theorem byteAt_storeBytes {bytes : List Byte} (hfit : (bytes.length : ℤ) ≤ pageSize) {i : ℕ}
    (hi : i < bytes.length) : byteAt (storeBytes pt bytes mem addr) pt (addr + i) = bytes[i] := by
  induction bytes generalizing mem addr i with
  | nil => exact absurd hi (Nat.not_lt_zero _)
  | cons byte bytes ih =>
    rw [List.length_cons, Nat.cast_succ] at hfit
    rw [storeBytes]
    cases i with
    | zero =>
      rw [byteAt_storeBytes_of_ne]
      · rw [Nat.cast_zero, Int.add_zero, byteAt_storeByte]
        rfl
      · intro j hj
        rw [Int.add_assoc]
        exact emod_ne_of_lt (by omega) (by omega)
    | succ i =>
      rw [Nat.cast_succ, Int.add_comm (i : ℤ) 1, ← Int.add_assoc]
      exact ih (by omega) (Nat.lt_of_succ_lt_succ hi)

omit [Paging] in
@[simp] theorem length_wordBytes (word : ℤ) : (wordBytes word).length = 4 := rfl

omit [Paging] in
/-- The bytes of a word are its digits. -/
theorem toNat_wordBytes (word : ℤ) {i : ℕ} (hi : i < (wordBytes word).length) :
    ((wordBytes word)[i].toNat : ℤ) = word / 256 ^ i % 256 := by
  have hpos : 0 ≤ word / 256 ^ i % 256 := Int.emod_nonneg _ (by decide)
  have hlt : word / 256 ^ i % 256 < 256 := Int.emod_lt_of_pos _ (by decide)
  have hget : (wordBytes word)[i] = UInt8.ofNat (word / 256 ^ i % 256).toNat := by
    simp only [wordBytes, List.getElem_map, List.getElem_range]
  rw [hget, UInt8.toNat_ofNat_of_lt' (by
    show _ < 256
    omega), Int.toNat_of_nonneg hpos]

/-- **A word whose bytes are there is loaded**, as an `int` has it. -/
theorem wordAt_of_bytes (word : ℤ)
    (h : ∀ (i : ℕ) (hi : i < (wordBytes word).length),
      byteAt mem pt (addr + i) = (wordBytes word)[i]) :
    wordAt mem pt addr = word % 2 ^ 32 := by
  have hbyte : ∀ i : ℕ, i < 4 →
      ((byteAt mem pt (addr + i)).toNat : ℤ) = word / 256 ^ i % 256 := by
    intro i hi
    rw [← length_wordBytes word] at hi
    rw [h i hi, toNat_wordBytes]
  unfold wordAt
  rw [List.range_succ, List.range_succ, List.range_succ, List.range_succ, List.range_zero]
  simp only [List.nil_append, List.cons_append, List.map_cons, List.map_nil, List.sum_cons,
    List.sum_nil]
  rw [hbyte 0 (by decide), hbyte 1 (by decide), hbyte 2 (by decide), hbyte 3 (by decide)]
  omega

theorem wordAt_storeBytes (hpage : 4 ≤ pageSize) (word : ℤ) :
    wordAt (storeBytes pt (wordBytes word) mem addr) pt addr = word % 2 ^ 32 := by
  refine wordAt_of_bytes word fun i hi => byteAt_storeBytes ?_ hi
  rw [length_wordBytes]
  exact_mod_cast hpage

end Yalnix
