import Yalnix.Memory.Taken
import Yalnix.Process.Exclusive
/-!
# The kernel heap

`SetKernelBrk`, which the kernel's `malloc` calls before `VM_setup` has
turned virtual memory on and after, with the frames that everything else in
the kernel takes in between. The two agree on the page the break is on
exactly when the break `VM_setup` finds is not at the start of a page, and
`SetKernelBrk` does not look whether there are frames left
(`heapLaw_iff`).
-/

namespace Yalnix

variable [Paging]

open Paging FreeFrame

/-! ## The model -/

/-- The kernel as it is linked, and the memory it is put in. The kernel's
text, which is not empty, starts region 0, and all of region 0 has frames of
its pages' numbers: until virtual memory is on the kernel runs in them. -/
structure KernelImage where
  pmemSize : ℤ
  /-- `_kernel_data_start`, `_kernel_data_end` and `_kernel_orig_brk`. -/
  dataStart : ℤ
  dataEnd : ℤ
  origBrk : ℤ
  text_lt : basePage0 * pageSize < dataStart
  data_le : dataStart ≤ dataEnd
  origBrk_ge : dataStart ≤ origBrk
  pmem_ge : limPage0 ≤ baseFrame + pmemSize / pageSize

/-- `kernel_pt`, with `free_frame` and `REG_VM_ENABLE`. -/
structure KernelHeap where
  frames : FreeFrame
  pt : ℤ → Pte
  brk : ℤ
  vmEnable : Bool

/-- `SetKernelBrk`, and what it returns. -/
def setKernelBrk (dataEnd : ℤ) (h : KernelHeap) (addr : ℤ) : KernelHeap × ℤ :=
  if downToPage kernelStackBase - pageSize ≤ addr ∨ addr < upToPage dataEnd then (h, errorCode)
  else
    let h :=
      if h.vmEnable then
        let currBrkVpn := upToPage h.brk / pageSize - 1
        let nextBrkVpn := upToPage addr / pageSize - 1
        if currBrkVpn < nextBrkVpn then
          let (free, pt) := mapPages (protRead ||| protWrite)
            (pages (currBrkVpn + 1 - basePage0) (nextBrkVpn + 1 - basePage0)) h.frames h.pt
          { h with frames := free, pt := pt }
        else if nextBrkVpn < currBrkVpn then
          let (free, pt) := unmapPages
            (pages (nextBrkVpn + 1 - basePage0) (currBrkVpn + 1 - basePage0)).reverse
            h.frames h.pt
          { h with frames := free, pt := pt }
        else h
      else h
    ({ h with brk := upToPage addr }, successCode)

/-- `VM_setup`. -/
def enableVm (dataStart : ℤ) (h : KernelHeap) : KernelHeap :=
  let (free, pt) := vmSetup dataStart h.brk (pages basePage0 limPage0) h.frames h.pt
  { h with frames := free, pt := pt, vmEnable := true }

/-- `kernel_pt` at the top of `KernelStart`. -/
def KernelImage.start (img : KernelImage) : KernelHeap where
  frames := newFreeFrame img.pmemSize
  pt := fun _ => invalidPte
  brk := img.origBrk
  vmEnable := false

/-- The calls of `SetKernelBrk` before `VM_setup`. -/
def KernelImage.early (img : KernelImage) (addrs : List ℤ) : KernelHeap :=
  addrs.foldl (fun h addr => (setKernelBrk img.dataEnd h addr).1) img.start

/-- The heap, and the frames the rest of the kernel has taken. -/
structure HeapState where
  heap : KernelHeap
  taken : Finset ℤ

/-- What happens to them: a call of `SetKernelBrk`, and somebody else's
`get_frame` and `vacate_frame`. -/
inductive HeapEvent
  | setBrk (addr : ℤ)
  | take
  | giveBack (pfn : ℤ)

/-- `KernelStart` up to the return of `VM_setup`. -/
def KernelImage.setUp (img : KernelImage) (addrs : List ℤ) : HeapState where
  heap := enableVm img.dataStart (img.early addrs)
  taken := ∅

def HeapState.step (img : KernelImage) (s : HeapState) : HeapEvent → Option HeapState
  | .setBrk addr => some { s with heap := (setKernelBrk img.dataEnd s.heap addr).1 }
  | .take =>
    if framesLeft s.heap.frames ≤ 0 then none
    else
      let (free, pfn) := getFrame s.heap.frames 0 true
      some { heap := { s.heap with frames := free }, taken := insert pfn s.taken }
  | .giveBack pfn =>
    if pfn ∉ s.taken then none
    else
      let heap := { s.heap with frames := vacateFrame s.heap.frames pfn }
      some { heap := heap, taken := s.taken.erase pfn }

/-! ## What the heap looks like -/

/-- **The pages below the break are mapped**, each to a frame in use and of
its own, and of those below the kernel stack no others are. -/
structure HeapState.Law (s : HeapState) : Prop where
  mapped : ∀ vpn, basePage0 ≤ vpn → vpn < basePageKstack →
    ((s.heap.pt (vpn - basePage0)).valid = true ↔ vpn * pageSize < upToPage s.heap.brk)
  own : ∀ vpn, basePage0 ≤ vpn → vpn < basePageKstack →
    (s.heap.pt (vpn - basePage0)).valid = true →
    (s.heap.pt (vpn - basePage0)).pfn ∈ s.heap.frames.used ∧
    (s.heap.pt (vpn - basePage0)).pfn ∉ s.taken ∧
    ∀ vpn', basePage0 ≤ vpn' → vpn' < limPage0 → (s.heap.pt (vpn' - basePage0)).valid = true →
      (s.heap.pt (vpn' - basePage0)).pfn = (s.heap.pt (vpn - basePage0)).pfn → vpn' = vpn
  scratch : (s.heap.pt (basePageKstack - 1 - basePage0)).valid = false

/-- **What moving the break does**: the pages it passes on the way up were
invalid and get frames that were free, those it passes on the way down give
theirs back, and nothing else changes. -/
structure KernelHeap.Moved (h h' : KernelHeap) : Prop where
  grown : ∀ vpn, upToPage h.brk ≤ vpn * pageSize → vpn * pageSize < upToPage h'.brk →
    (h.pt (vpn - basePage0)).valid = false ∧ (h'.pt (vpn - basePage0)).valid = true ∧
      (h'.pt (vpn - basePage0)).pfn ∉ h.frames.used
  freed : ∀ vpn, upToPage h'.brk ≤ vpn * pageSize → vpn * pageSize < upToPage h.brk →
    (h.pt (vpn - basePage0)).valid = true ∧ (h'.pt (vpn - basePage0)).valid = false
  kept : ∀ vpn, (vpn * pageSize < upToPage h.brk ↔ vpn * pageSize < upToPage h'.brk) →
    h'.pt (vpn - basePage0) = h.pt (vpn - basePage0)
  used : ∀ x, x ∈ h'.frames.used ↔
    (x ∈ h.frames.used ∧ ∀ vpn, upToPage h'.brk ≤ vpn * pageSize →
      vpn * pageSize < upToPage h.brk → (h.pt (vpn - basePage0)).pfn ≠ x) ∨
    ∃ vpn, upToPage h.brk ≤ vpn * pageSize ∧ vpn * pageSize < upToPage h'.brk ∧
      (h'.pt (vpn - basePage0)).pfn = x

/-- The pages below the break, counted from the start of the region. -/
def heapPages (brk : ℤ) : ℤ := upToPage brk / pageSize - basePage0

/-- Between the end of the kernel's data and the page under the stack. -/
def InBounds (dataEnd addr : ℤ) : Prop :=
  ¬ (downToPage kernelStackBase - pageSize ≤ addr ∨ addr < upToPage dataEnd)

/-- **What a call owes**: one that cannot be served returns `ERROR` and
changes nothing, and any other moves the break. -/
def Serves (img : KernelImage) (s : HeapState) : HeapEvent → Prop
  | .setBrk addr =>
    let r := setKernelBrk img.dataEnd s.heap addr
    (¬ InBounds img.dataEnd addr ∨
        framesLeft s.heap.frames < heapPages addr - heapPages s.heap.brk →
      r = (s.heap, errorCode)) ∧
    (InBounds img.dataEnd addr →
      heapPages addr - heapPages s.heap.brk ≤ framesLeft s.heap.frames →
      r.2 = successCode ∧ r.1.brk = upToPage addr ∧ s.heap.Moved r.1)
  | _ => True

/-- A call that is in bounds finds the frames it needs. -/
def Fits (img : KernelImage) (s : HeapState) : HeapEvent → Prop
  | .setBrk addr => InBounds img.dataEnd addr →
      heapPages addr - heapPages s.heap.brk ≤ framesLeft s.heap.frames
  | _ => True

/-- **The break `VM_setup` finds** is inside a page, and a page at least
below the scratch page. -/
def BrkFits (brk : ℤ) : Prop := ¬ pageSize ∣ brk ∧ brk / pageSize < basePageKstack - 1

/-! ## Rounding -/

variable {img : KernelImage} {h : KernelHeap} {s s' : HeapState} {e : HeapEvent}
  {addr brk : ℤ} {addrs : List ℤ}

/-- A page is below an address rounded up exactly where its index is. -/
theorem page_lt_iff (brk vpn : ℤ) :
    vpn * pageSize < upToPage brk ↔ vpn - basePage0 < heapPages brk := by
  rw [heapPages, upToPage, mul_pageSize_ediv, ← not_le, mul_le_mul_iff]
  omega

theorem page_ge_iff (brk vpn : ℤ) :
    upToPage brk ≤ vpn * pageSize ↔ heapPages brk ≤ vpn - basePage0 := by
  rw [← not_lt, page_lt_iff, not_lt]

theorem le_upToPage (addr : ℤ) : addr ≤ upToPage addr :=
  (ediv_up_le_iff addr _).mp le_rfl

/-- The rounded address, and the page it is the start of. -/
theorem upToPage_upToPage (addr : ℤ) : upToPage (upToPage addr) = upToPage addr :=
  upToPage_mul _

/-- Inside a page, rounding up goes to the next. -/
theorem heapPages_of_not_dvd (hno : ¬ pageSize ∣ brk) :
    heapPages brk = brk / pageSize + 1 - basePage0 := by
  have hpos := pageSize_pos
  have hdiv := Int.mul_ediv_add_emod brk pageSize
  have hmod : 0 < brk % pageSize := by
    rcases (Int.emod_nonneg brk hpos.ne').lt_or_eq with hlt | heq
    · exact hlt
    · exact absurd (Int.dvd_of_emod_eq_zero heq.symm) hno
  have hlt := Int.emod_lt_of_pos brk hpos
  have hup : (brk + pageSize - 1) / pageSize = brk / pageSize + 1 := by
    refine le_antisymm ((ediv_up_le_iff brk _).mpr ?_) ?_
    · rw [Int.add_mul, Int.one_mul, Int.mul_comm]
      omega
    · rw [Int.le_ediv_iff_mul_le hpos, Int.add_mul, Int.one_mul, Int.mul_comm]
      omega
  rw [heapPages, upToPage, mul_pageSize_ediv, hup]

/-- An address that may be the break has its page from the start of the
region to below the scratch page. -/
theorem InBounds.pages (hin : InBounds img.dataEnd addr) :
    0 < heapPages addr ∧ heapPages addr ≤ basePageKstack - 1 - basePage0 := by
  have hpos := pageSize_pos
  rw [InBounds, kernelStackBase, downToPage_mul, not_or, not_le, not_lt] at hin
  have hmul : basePageKstack * pageSize - pageSize = (basePageKstack - 1) * pageSize := by
    rw [Int.sub_mul, Int.one_mul]
  have htext := img.text_lt
  have hdata := img.data_le
  have hend := le_upToPage img.dataEnd
  have hself := le_upToPage addr
  have hlo : basePage0 * pageSize < upToPage addr := by omega
  rw [page_lt_iff, Int.sub_self] at hlo
  have hhi := (ediv_up_le_iff addr (basePageKstack - 1)).mpr (by omega)
  refine ⟨hlo, ?_⟩
  rw [heapPages, upToPage, mul_pageSize_ediv]
  omega

/-! ## One call -/

theorem setKernelBrk_out (hout : ¬ InBounds img.dataEnd addr) :
    setKernelBrk img.dataEnd h addr = (h, errorCode) :=
  if_pos (not_not.mp hout)

/-- Before virtual memory is on, a call only moves the break. -/
theorem setKernelBrk_early (img : KernelImage) (addr : ℤ) (hvm : h.vmEnable = false) :
    (setKernelBrk img.dataEnd h addr).1 = h ∨ InBounds img.dataEnd addr ∧
      (setKernelBrk img.dataEnd h addr).1 = { h with brk := upToPage addr } := by
  by_cases hin : InBounds img.dataEnd addr
  · refine Or.inr ⟨hin, ?_⟩
    rw [setKernelBrk, if_neg hin, if_neg (by rw [hvm]; exact Bool.false_ne_true)]
  · exact Or.inl (by rw [setKernelBrk_out hin])

/-- The allocator and the table after the break has moved from page `m` to
page `n` of the region. -/
def resize (h : KernelHeap) (m n : ℤ) : FreeFrame × (ℤ → Pte) :=
  if m < n then mapPages (protRead ||| protWrite) (pages m n) h.frames h.pt
  else unmapPages (pages n m).reverse h.frames h.pt

/-- **`SetKernelBrk`, by page indices.** -/
theorem setKernelBrk_eq (hvm : h.vmEnable = true) (hin : InBounds img.dataEnd addr) :
    setKernelBrk img.dataEnd h addr = ({ h with
      frames := (resize h (heapPages h.brk) (heapPages addr)).1
      pt := (resize h (heapPages h.brk) (heapPages addr)).2
      brk := upToPage addr }, successCode) := by
  have hvpn : ∀ a, upToPage a / pageSize - 1 + 1 - basePage0 = heapPages a := fun a => by
    rw [heapPages]
    omega
  have hlt : ∀ a b, upToPage a / pageSize - 1 < upToPage b / pageSize - 1 ↔
      heapPages a < heapPages b := fun a b => by
    rw [heapPages, heapPages]
    omega
  rw [setKernelBrk, if_neg hin, if_pos hvm, resize]
  dsimp only
  simp only [hvpn, hlt]
  rcases lt_trichotomy (heapPages h.brk) (heapPages addr) with hup | heq | hdown
  · rw [if_pos hup, if_pos hup]
  -- no page in between: nothing is unmapped
  · rw [heq, if_neg (lt_irrefl _), if_neg (lt_irrefl _), if_neg (lt_irrefl _)]
    simp [pages, unmapPages]
  · rw [if_neg hdown.not_gt, if_pos hdown, if_neg hdown.not_gt]

/-! ## The law that a heap keeps -/

/-- **The heap in page indices**, as it stands once virtual memory is on:
what everybody holds is their own, and the heap is its first pages. -/
structure HeapState.Ok (s : HeapState) : Prop where
  vmEnable : s.heap.vmEnable = true
  ok : s.heap.frames.Ok
  held : Held s.heap.frames s.heap.pt s.taken
  nonneg : 0 ≤ heapPages s.heap.brk
  below : heapPages s.heap.brk ≤ basePageKstack - 1 - basePage0
  valid_iff : ∀ i, 0 ≤ i → i < basePageKstack - basePage0 →
    ((s.heap.pt i).valid = true ↔ i < heapPages s.heap.brk)

/-- In addresses, the law. -/
theorem HeapState.Ok.law (hs : s.Ok) : s.Law where
  mapped vpn hlo hhi := by
    rw [page_lt_iff]
    exact hs.valid_iff _ (by omega) (by omega)
  own vpn hlo hhi hv := by
    refine ⟨hs.held.used _ hv, hs.held.apart _ hv, fun vpn' _ _ hv' heq => ?_⟩
    have := hs.held.inj _ _ hv' hv heq
    omega
  scratch := by
    have := hs.below
    have hlt := basePage0_lt
    rw [← Bool.not_eq_true, hs.valid_iff _ (by omega) (by omega)]
    omega

/-- **What moving the break from page `m` to page `n` leaves**, in page
indices. -/
structure Resized (s : HeapState) (m n : ℤ) (r : FreeFrame × (ℤ → Pte)) : Prop where
  ok : r.1.Ok
  held : Held r.1 r.2 s.taken
  grown : ∀ i, m ≤ i → i < n → (r.2 i).valid = true ∧ (r.2 i).pfn ∉ s.heap.frames.used
  freed : ∀ i, n ≤ i → i < m → (r.2 i).valid = false
  kept : ∀ i, (i < m ↔ i < n) → r.2 i = s.heap.pt i
  used : ∀ x, x ∈ r.1.used ↔
    (x ∈ s.heap.frames.used ∧ ∀ i, n ≤ i → i < m → (s.heap.pt i).pfn ≠ x) ∨
    ∃ i, m ≤ i ∧ i < n ∧ (r.2 i).pfn = x

/-- On the way up, with frames to spare, the pages passed are mapped. -/
theorem HeapState.Ok.grow (hs : s.Ok) {m n : ℤ} (hup : m < n)
    (hleft : n - m ≤ framesLeft s.heap.frames) : Resized s m n (mapPages (protRead ||| protWrite)
      (pages m n) s.heap.frames s.heap.pt) := by
  have hlen := length_pages hup.le
  have hfew : ((pages m n).length : ℤ) ≤ framesLeft s.heap.frames := by omega
  obtain ⟨hheld, hran⟩ := hs.held.mapPages hs.ok (protRead ||| protWrite) _ hfew
  obtain ⟨hfresh, hused⟩ := mapPages_taken (protRead ||| protWrite) s.heap.pt hs.ok
    nodup_pages hfew
  refine ⟨hran.ok, hheld, fun i hlo hhi => ?_, fun i hlo hhi => by omega, fun i hi => ?_,
    fun x => ?_⟩
  · have hi : i ∈ pages m n := mem_pages.mpr ⟨hlo, hhi⟩
    exact ⟨(mapPages_of_mem hi).1, hfresh i hi⟩
  · refine mapPages_of_not_mem ?_
    rw [mem_pages]
    omega
  · rw [hused]
    refine or_congr (iff_self_and.mpr fun _ i hlo hhi => by omega) ?_
    simp only [mem_pages, and_assoc]

/-- On the way down, they are unmapped. -/
theorem HeapState.Ok.shrink (hs : s.Ok) {m n : ℤ} (hdown : n ≤ m)
    (hvalid : ∀ i, n ≤ i → i < m → (s.heap.pt i).valid = true) :
    Resized s m n (unmapPages (pages n m).reverse s.heap.frames s.heap.pt) := by
  have hnd : (pages n m).reverse.Nodup := List.nodup_reverse.mpr nodup_pages
  have hmem : ∀ i, i ∈ (pages n m).reverse ↔ n ≤ i ∧ i < m := fun i => by
    rw [List.mem_reverse, mem_pages]
  have hall : ∀ i ∈ (pages n m).reverse, (s.heap.pt i).valid = true := fun i hi =>
    hvalid i ((hmem i).mp hi).1 ((hmem i).mp hi).2
  obtain ⟨hheld, hran⟩ := hs.held.unmapPages hs.ok _ hnd hall
  have hfreed := unmapPages_freed hs.held hs.ok hnd hall
  refine ⟨hran.ok, hheld, fun i hlo hhi => by omega, fun i hlo hhi => ?_, fun i hi => ?_,
    fun x => ?_⟩
  · exact unmapPages_of_mem ((hmem i).mpr ⟨hlo, hhi⟩)
  · refine unmapPages_of_not_mem ?_
    rw [hmem]
    omega
  · rw [hfreed]
    constructor
    · rintro ⟨hx, hnone⟩
      exact Or.inl ⟨hx, fun i hlo hhi => hnone i ((hmem i).mpr ⟨hlo, hhi⟩)⟩
    · rintro (⟨hx, hnone⟩ | ⟨i, hlo, hhi, -⟩)
      · exact ⟨hx, fun i hi => hnone i ((hmem i).mp hi).1 ((hmem i).mp hi).2⟩
      · omega

/-- **A call that finds the frames it needs** moves the break, and leaves the
heap in order. -/
theorem HeapState.Ok.setKernelBrk (hs : s.Ok) (hin : InBounds img.dataEnd addr)
    (hleft : heapPages addr - heapPages s.heap.brk ≤ framesLeft s.heap.frames) :
    HeapState.Ok { s with heap := (setKernelBrk img.dataEnd s.heap addr).1 } ∧
      s.heap.Moved (Yalnix.setKernelBrk img.dataEnd s.heap addr).1 := by
  obtain ⟨hpos, hbelow⟩ := hin.pages
  have hnonneg := hs.nonneg
  have hcurr := hs.below
  obtain ⟨n, hn⟩ : ∃ n, n = heapPages addr := ⟨_, rfl⟩
  obtain ⟨m, hm⟩ : ∃ m, m = heapPages s.heap.brk := ⟨_, rfl⟩
  have hr : Resized s m n (resize s.heap m n) := by
    rw [resize]
    split
    · rename_i hup
      exact hs.grow hup (by omega)
    · rename_i hdown
      refine hs.shrink (not_lt.mp hdown) fun i hlo hhi => ?_
      exact (hs.valid_iff i (by omega) (by omega)).mpr (by omega)
  have hup : heapPages (upToPage addr) = n := by rw [hn, heapPages, heapPages, upToPage_upToPage]
  rw [setKernelBrk_eq hs.vmEnable hin, ← hn, ← hm]
  refine ⟨⟨hs.vmEnable, hr.ok, hr.held, ?_, ?_, fun i hlo hhi => ?_⟩, ?_⟩
  · dsimp only
    omega
  · dsimp only
    omega
  · dsimp only
    rw [hup]
    rcases lt_or_ge i m with him | him
    · rcases lt_or_ge i n with hin' | hin'
      · rw [hr.kept i (by omega), hs.valid_iff i hlo hhi]
        omega
      · rw [hr.freed i hin' him]
        simp [hin']
    · rcases lt_or_ge i n with hin' | hin'
      · simp [(hr.grown i him hin').1, hin']
      · rw [hr.kept i (by omega), hs.valid_iff i hlo hhi]
        omega
  · constructor
    · intro vpn hlo hhi
      dsimp only at hhi
      rw [page_ge_iff, ← hm] at hlo
      rw [page_lt_iff, hup] at hhi
      refine ⟨?_, hr.grown _ hlo hhi⟩
      rw [← Bool.not_eq_true, hs.valid_iff _ (by omega) (by omega)]
      omega
    · intro vpn hlo hhi
      dsimp only at hlo
      rw [page_ge_iff, hup] at hlo
      rw [page_lt_iff, ← hm] at hhi
      refine ⟨?_, hr.freed _ hlo hhi⟩
      rw [hs.valid_iff _ (by omega) (by omega)]
      omega
    · intro vpn hiff
      dsimp only at hiff
      rw [page_lt_iff, page_lt_iff, hup, ← hm] at hiff
      exact hr.kept _ hiff
    · intro x
      dsimp only
      rw [hr.used]
      simp only [page_lt_iff, page_ge_iff, hup, ← hm]
      refine or_congr (and_congr_right fun _ => ?_) ?_
      · exact ⟨fun hi vpn => hi (vpn - basePage0), fun hi i => by
          simpa using hi (i + basePage0)⟩
      · constructor
        · rintro ⟨i, hi⟩
          exact ⟨i + basePage0, by simpa using hi⟩
        · rintro ⟨vpn, hi⟩
          exact ⟨vpn - basePage0, hi⟩

/-- **A call serves exactly where its growth finds its frames.** -/
theorem HeapState.Ok.serves_iff (hs : s.Ok) : Serves img s e ↔ Fits img s e := by
  cases e with
  | take => exact Iff.rfl
  | giveBack pfn => exact Iff.rfl
  | setBrk addr =>
    constructor
    · rintro ⟨hrefused, -⟩ hin
      by_contra hleft
      -- the code maps what it can and returns 0
      have hr := hrefused (Or.inr (not_le.mp hleft))
      rw [setKernelBrk_eq hs.vmEnable hin] at hr
      have hcode : successCode = errorCode := congrArg Prod.snd hr
      exact absurd hcode (by decide)
    · intro hfits
      refine ⟨fun hno => ?_, fun hin hleft => ?_⟩
      · rcases hno with hout | hfew
        · exact setKernelBrk_out hout
        · by_cases hin : InBounds img.dataEnd addr
          · exact absurd (hfits hin) (not_le.mpr hfew)
          · exact setKernelBrk_out hin
      · refine ⟨?_, ?_, (hs.setKernelBrk hin hleft).2⟩
        · rw [setKernelBrk_eq hs.vmEnable hin]
        · rw [setKernelBrk_eq hs.vmEnable hin]

/-- **Every step that fits keeps the heap in order.** -/
theorem HeapState.Ok.step (hs : s.Ok) (hfits : Fits img s e) (hstep : s.step img e = some s') :
    s'.Ok := by
  cases e with
  | setBrk addr =>
    obtain rfl := Option.some.inj hstep
    by_cases hin : InBounds img.dataEnd addr
    · exact (hs.setKernelBrk hin (hfits hin)).1
    · rw [setKernelBrk_out hin]
      exact hs
  | take =>
    rw [HeapState.step] at hstep
    split at hstep
    · cases hstep
    · rename_i hleft
      unfold framesLeft at hleft
      obtain rfl := Option.some.inj hstep
      have hgot : Got s.heap.frames (getFrame s.heap.frames 0 true).1
          (getFrame s.heap.frames 0 true).2 := hs.ok.getFrame_auto (by omega)
      refine ⟨hs.vmEnable, hgot.ok, ?_, hs.nonneg, hs.below, hs.valid_iff⟩
      dsimp only
      rw [Finset.coe_insert]
      exact hs.held.take hgot
  | giveBack pfn =>
    rw [HeapState.step] at hstep
    split at hstep
    · cases hstep
    · rename_i hin
      have hin := not_not.mp hin
      obtain rfl := Option.some.inj hstep
      have hvac := hs.ok.vacateFrame (hs.held.others_used pfn hin)
      refine ⟨hs.vmEnable, hvac.ok, ?_, hs.nonneg, hs.below, hs.valid_iff⟩
      dsimp only
      rw [Finset.coe_erase]
      exact hs.held.giveBack hvac hin

/-! ## Where it starts -/

/-- The pages `VM_setup` makes valid. -/
theorem vmSetup_valid_iff {dataStart vpn : ℤ} {vpns : List ℤ} {free : FreeFrame} {pt : ℤ → Pte}
    (hnd : vpns.Nodup) (hv : vpn ∈ vpns) :
    ((vmSetup dataStart brk vpns free pt).2 (vpn - basePage0)).valid = true ↔
      vpn < dataStart / pageSize ∨ vpn ≤ brk / pageSize ∨ basePageKstack ≤ vpn := by
  obtain ⟨free', pt', hturn⟩ := @vmSetup_of_mem _ dataStart brk vpn free pt vpns hnd hv
  rw [hturn, vmSetupPage]
  split
  · rename_i htext
    simp [setPte, htext]
  · rename_i htext
    split
    · rename_i hdata
      simp [setPte, hdata]
    · rename_i hdata
      simp [setPte, htext, hdata]

/-- Before `VM_setup` only the break moves, and not below the data. -/
theorem KernelImage.early_eq (img : KernelImage) (addrs : List ℤ) :
    ∃ brk, img.early addrs = { img.start with brk := brk } ∧ img.dataStart ≤ brk := by
  have hrun : ∀ h : KernelHeap, (∃ brk, h = { img.start with brk := brk } ∧ img.dataStart ≤ brk) →
      ∃ brk, addrs.foldl (fun h addr => (setKernelBrk img.dataEnd h addr).1) h =
        { img.start with brk := brk } ∧ img.dataStart ≤ brk := by
    induction addrs with
    | nil => exact fun h hh => hh
    | cons addr addrs ih =>
      rintro h ⟨brk, rfl, hbrk⟩
      refine ih _ ?_
      have hvm : ({ img.start with brk := brk } : KernelHeap).vmEnable = false := rfl
      rcases setKernelBrk_early img addr hvm with heq | ⟨hin, heq⟩
      · exact ⟨brk, heq, hbrk⟩
      · refine ⟨_, heq, ?_⟩
        rw [InBounds, not_or, not_lt] at hin
        have hdata := img.data_le
        have hend := le_upToPage img.dataEnd
        have hself := le_upToPage addr
        omega
  exact hrun _ ⟨img.origBrk, rfl, img.origBrk_ge⟩

/-- The break is not below region 0 by then. -/
theorem KernelImage.early_brk_ge (img : KernelImage) (addrs : List ℤ) :
    basePage0 ≤ (img.early addrs).brk / pageSize := by
  obtain ⟨brk, hearly, hbrk⟩ := img.early_eq addrs
  have htext := img.text_lt
  rw [hearly, le_ediv_iff]
  dsimp only
  omega

theorem KernelImage.setUp_valid_iff (img : KernelImage) (addrs : List ℤ) (vpn : ℤ)
    (hlo : basePage0 ≤ vpn) (hhi : vpn < basePageKstack) :
    (((img.setUp addrs).heap.pt (vpn - basePage0)).valid = true ↔
      vpn ≤ (img.early addrs).brk / pageSize) := by
  have hlim := basePageKstack_lt
  have heq := limPageKstack_eq
  have hle : img.dataStart / pageSize ≤ (img.early addrs).brk / pageSize := by
    obtain ⟨brk, hearly, hbrk⟩ := img.early_eq addrs
    rw [hearly]
    exact Int.ediv_le_ediv pageSize_pos hbrk
  refine (vmSetup_valid_iff (show (pages basePage0 limPage0).Nodup from nodup_pages)
    (mem_pages.mpr ⟨hlo, by omega⟩)).trans ?_
  omega

/-- **After `VM_setup`** the heap is in order, if the break is inside a page
below the scratch page. -/
theorem KernelImage.setUp_ok (h : BrkFits (img.early addrs).brk) : (img.setUp addrs).Ok := by
  obtain ⟨hno, hlt⟩ := h
  have hbase := baseFrame_le
  have hkstack := basePage0_lt
  have hpmem := img.pmem_ge
  have hlim := basePageKstack_lt
  have heq := limPageKstack_eq
  have hpages := heapPages_of_not_dvd hno
  have hlow := img.early_brk_ge addrs
  have hframes : (img.early addrs).frames = newFreeFrame img.pmemSize := by
    obtain ⟨brk, hearly, -⟩ := img.early_eq addrs
    rw [hearly]
    rfl
  have hpt : (img.early addrs).pt = fun _ => invalidPte := by
    obtain ⟨brk, hearly, -⟩ := img.early_eq addrs
    rw [hearly]
    rfl
  obtain ⟨hok, hused⟩ := newFreeFrame_ok (show 0 ≤ img.pmemSize / pageSize by omega)
  have hsize : (newFreeFrame img.pmemSize).size = img.pmemSize / pageSize := rfl
  have hblank : Held (newFreeFrame img.pmemSize) (fun _ : ℤ => invalidPte) ∅ :=
    Held.of_invalid (fun _ => rfl) fun x hx => absurd hx (Set.notMem_empty x)
  obtain ⟨hheld, j, hran⟩ := hblank.vmSetup hok img.dataStart (img.early addrs).brk
    (show (pages basePage0 limPage0).Nodup from nodup_pages)
    (fun v hv => by rw [mem_pages] at hv; rw [hsize]; omega)
    (fun v _ => by rw [hused]; exact Finset.notMem_empty v)
  rw [← hframes, ← hpt] at hheld hran
  refine ⟨rfl, hran.ok, ?_, ?_, ?_, fun i hlo hhi => ?_⟩
  · rw [show (img.setUp addrs).taken = ∅ from rfl, Finset.coe_empty]
    exact hheld
  · show 0 ≤ heapPages (img.early addrs).brk
    omega
  · show heapPages (img.early addrs).brk ≤ _
    omega
  · have hiff := img.setUp_valid_iff addrs (i + basePage0) (by omega) (by omega)
    rw [Int.add_sub_cancel] at hiff
    rw [hiff]
    show _ ↔ i < heapPages (img.early addrs).brk
    omega

/-- **Only then**: at the start of a page, the page is mapped and is not below
the break. -/
theorem KernelImage.brkFits_of_law (h : (img.setUp addrs).Law) :
    BrkFits (img.early addrs).brk := by
  have hkstack := basePage0_lt
  have hscratch : (img.early addrs).brk / pageSize < basePageKstack - 1 := by
    have hno := img.setUp_valid_iff addrs (basePageKstack - 1) (by omega) (by omega)
    rw [h.scratch] at hno
    by_contra hge
    exact absurd (hno.mpr (by omega)) Bool.false_ne_true
  refine ⟨fun hdvd => ?_, hscratch⟩
  have hlow := img.early_brk_ge addrs
  have hmapped := (h.mapped _ hlow (by omega)).mp
    ((img.setUp_valid_iff addrs _ hlow (by omega)).mpr le_rfl)
  obtain ⟨k, hk⟩ := hdvd
  have hbrk : (img.setUp addrs).heap.brk = k * pageSize := by
    rw [Int.mul_comm]
    exact hk
  rw [hbrk, upToPage_mul, hk, Int.mul_comm pageSize k, mul_pageSize_ediv] at hmapped
  exact lt_irrefl _ hmapped

/-- **The kernel heap over whole runs**: the law holds in every state and
every call does what it owes exactly when `VM_setup` finds the break inside a
page, and each call that may grow the heap finds its frames. -/
theorem heapLaw_iff (img : KernelImage) (addrs : List ℤ) (es : List HeapEvent) :
    (Run.Throughout (HeapState.step img) HeapState.Law (img.setUp addrs) es ∧
      Run.Along (HeapState.step img) (Serves img) (img.setUp addrs) es) ↔
    BrkFits (img.early addrs).brk ∧
      Run.Along (HeapState.step img) (Fits img) (img.setUp addrs) es := by
  by_cases hstart : BrkFits (img.early addrs).brk
  · have hok := KernelImage.setUp_ok hstart
    have hstep : ∀ s e s', HeapState.Ok s → True → Fits img s e → s.step img e = some s' → s'.Ok :=
      fun s e s' hs _ hfits ht => hs.step hfits ht
    have hiff : Run.Along (HeapState.step img) (Serves img) (img.setUp addrs) es ↔
        Run.Along (HeapState.step img) (Fits img) (img.setUp addrs) es :=
      Run.along_congr_of_keep hstep (fun s e s' hs _ _ => hs.serves_iff) (fun _ _ => trivial) hok
    rw [hiff]
    refine ⟨fun h => ⟨hstart, h.2⟩, fun h => ⟨?_, h.2⟩⟩
    exact (Run.throughout_of_along hstep (fun _ _ => trivial) hok h.2).mono fun s hs => hs.law
  · exact ⟨fun h => absurd (KernelImage.brkFits_of_law h.1.start) hstart,
      fun h => absurd h.1 hstart⟩

/-- A kernel of three pages whose break is at the start of the fourth, in a
memory of 128 frames. -/
def alignedImage : @KernelImage yalnixPaging :=
  let _ := yalnixPaging
  { pmemSize := 128 * pageSize
    dataStart := 2 * pageSize
    dataEnd := 3 * pageSize
    origBrk := 3 * pageSize
    text_lt := by decide
    data_le := by decide
    origBrk_ge := by decide
    pmem_ge := by decide }

omit [Paging] in
/-- **The law fails where the break is at the start of a page**: `VM_setup`
maps that page too. -/
theorem not_heapLaw : ¬ ∀ (_ : Paging) (img : KernelImage) (addrs : List ℤ) (es : List HeapEvent),
    Run.Throughout (HeapState.step img) HeapState.Law (img.setUp addrs) es ∧
      Run.Along (HeapState.step img) (Serves img) (img.setUp addrs) es := by
  intro h
  let _ := yalnixPaging
  have hlaw := (h yalnixPaging alignedImage [] []).1.start
  have hvalid := (alignedImage.setUp_valid_iff [] 3 (by decide) (by decide)).mpr (by decide)
  exact absurd ((hlaw.mapped 3 (by decide) (by decide)).mp hvalid) (by decide)

/-- With the break inside the page, and two frames taken by others, the last
page of a growth to the limit gets no frame, and the call returns 0. -/
example :
    let _ := yalnixPaging
    let img : KernelImage := { alignedImage with
      origBrk := 3 * pageSize + 1
      origBrk_ge := by decide }
    ((Run.exec (HeapState.step img) (img.setUp []) [.take, .take]).map fun s =>
      let r := setKernelBrk img.dataEnd s.heap (125 * pageSize - 1)
      (r.2, r.1.brk, (r.1.pt 124).valid, (r.1.pt 124).pfn)) =
    some (successCode, 125 * pageSize, true, errorCode) := by
  decide +kernel

end Yalnix
