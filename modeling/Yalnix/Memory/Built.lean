import Yalnix.Memory.Image
import Yalnix.Memory.Taken
/-!
# The image `LoadProgram` builds

A call that succeeds has released every page of the old image and mapped the
segments of the new one: the text, the data and the stack. The three loops
that map are one loop over the list of the segments' pages, so that what is
known of mapping a list is known of them.
-/

namespace Yalnix

variable [Paging]

open Paging

/-! ## Releasing and mapping -/

section Loops

variable {free : FreeFrame} {pt : ℤ → Pte} {is js : List ℤ} {prot : ℕ} {others : Set ℤ} {i : ℤ}

/-- **The frames given back** are those of the valid pages of the list. -/
theorem unmapValid_freed (h : Held free pt others) (hf : free.Ok) (hnd : is.Nodup) (x : ℤ) :
    x ∈ (unmapValid is free pt).1.used ↔
      x ∈ free.used ∧ ∀ i ∈ is, (pt i).valid = true → (pt i).pfn ≠ x := by
  induction is generalizing free pt with
  | nil => simp [unmapValid]
  | cons i is ih =>
    obtain ⟨hi, hnd⟩ := List.nodup_cons.mp hnd
    rw [unmapValid_cons, List.forall_mem_cons]
    by_cases hv : (pt i).valid = true
    · have hvac := hf.vacateFrame (h.used i hv)
      have hkept : ∀ j ∈ is, (unmapPage free pt i).2 j = pt j := fun j hj =>
        Function.update_of_ne (ne_of_mem_of_not_mem hj hi) _ _
      have hrest := ih (h.erase hv hvac (setPte (pt i) false 0 0) rfl) hvac.ok hnd
      rw [if_pos hv]
      refine hrest.trans ?_
      rw [hvac.used_eq, Finset.mem_erase, ne_comm, and_comm (a := (pt i).pfn ≠ x), and_assoc]
      refine and_congr_right fun _ => ?_
      rw [forall_prop_of_true hv]
      refine and_congr_right fun _ => forall₂_congr fun j hj => ?_
      rw [show Function.update pt i _ j = pt j from hkept j hj]
    · rw [if_neg hv, ih h hf hnd, forall_prop_of_false hv, true_and]

omit [Paging] in
/-- **The text is made read-only**, and nothing else. -/
theorem protectText_prot : (protectText is pt i).prot =
    if i ∈ is then protRead ||| protExec else (pt i).prot := by
  induction is generalizing pt with
  | nil => rfl
  | cons j is ih =>
    rw [protectText, ih]
    rcases eq_or_ne i j with rfl | hij
    · rw [Function.update_self, ite_self, if_pos List.mem_cons_self]
    · rw [Function.update_of_ne hij]
      simp only [List.mem_cons, hij, false_or]

/-- **A table emptied and filled again**: of the pages `is` those that were
mapped have been given back, and then the pages `js` mapped. -/
structure Remapped (free free' : FreeFrame) (pt pt' : ℤ → Pte) (is js : List ℤ) : Prop where
  valid_iff : ∀ i ∈ is, (pt' i).valid = true ↔ i ∈ js
  used : ∀ i ∈ is, (pt' i).valid = true → (pt' i).pfn ∈ free'.used
  distinct : ∀ i ∈ is, ∀ j ∈ is, (pt' i).valid = true → (pt' j).valid = true →
    (pt' i).pfn = (pt' j).pfn → i = j
  fresh : ∀ i ∈ is, (pt' i).valid = true → (pt' i).pfn ∈ free.used →
    ∃ j ∈ is, (pt j).valid = true ∧ (pt j).pfn = (pt' i).pfn
  used_iff : ∀ x, x ∈ free'.used ↔
    (x ∈ free.used ∧ ∀ i ∈ is, (pt i).valid = true → (pt i).pfn ≠ x) ∨
    ∃ i ∈ is, (pt' i).valid = true ∧ (pt' i).pfn = x
  left_eq : framesLeft free' = framesLeft free + validCount pt is - validCount pt' is
  count_eq : validCount pt' is = js.length
  ok : free'.Ok

theorem remapped_of_held (prot : ℕ) (h : Held free pt others) (hf : free.Ok) (hnd : is.Nodup)
    (hjs : js.Nodup) (hsub : ∀ j ∈ js, j ∈ is)
    (hleft : (js.length : ℤ) ≤ framesLeft (unmapValid is free pt).1) :
    Remapped free (mapPages prot js (unmapValid is free pt).1 (unmapValid is free pt).2).1 pt
      (mapPages prot js (unmapValid is free pt).1 (unmapValid is free pt).2).2 is js := by
  obtain ⟨free₁, hfree₁⟩ : ∃ free₁, free₁ = (unmapValid is free pt).1 := ⟨_, rfl⟩
  obtain ⟨pt₁, hpt₁⟩ : ∃ pt₁, pt₁ = (unmapValid is free pt).2 := ⟨_, rfl⟩
  obtain ⟨hheld₁, k, hran₁⟩ := h.unmapValid hf is
  have hfreed := unmapValid_freed h hf hnd
  have hleft₁ : framesLeft (unmapValid is free pt).1 = framesLeft free + validCount pt is :=
    framesLeft_unmapValid hnd
  have hempty : ∀ i ∈ is, (pt₁ i).valid = false := fun i hi => hpt₁ ▸ unmapValid_of_mem hi
  rw [← hfree₁] at hheld₁ hran₁ hfreed hleft₁ hleft
  rw [← hpt₁] at hheld₁
  rw [← hfree₁, ← hpt₁]
  obtain ⟨hheld, hran⟩ := hheld₁.mapPages hran₁.ok prot js hleft
  obtain ⟨hfresh, htaken⟩ := mapPages_taken prot pt₁ hran₁.ok hjs hleft
  have hvalid : ∀ i ∈ is,
      ((mapPages prot js free₁ pt₁).2 i).valid = true ↔ i ∈ js := by
    intro i hi
    rw [mapPages_valid_iff, hempty i hi]
    simp
  have hcount : validCount (mapPages prot js free₁ pt₁).2 is = js.length := by
    have hnone : validCount pt₁ is = 0 := validCount_eq_zero hempty
    have hadd := validCount_add pt₁ (mapPages prot js free₁ pt₁).2 is js hnd hjs hsub
      (fun j hj => hempty j (hsub j hj)) (fun j hj => (mapPages_of_mem hj).1)
      (fun j hj => congrArg Pte.valid (mapPages_of_not_mem hj))
    omega
  refine ⟨hvalid, fun i _ hv => hheld.used i hv, fun i _ j _ hvi hvj => hheld.inj i j hvi hvj,
    fun i hi hv hin => ?_, fun x => ?_, ?_, hcount, hran.ok⟩
  · -- a frame taken was free by then, so that if it had been in use it is one given back
    have hnot := hfresh i ((hvalid i hi).mp hv)
    rw [hfreed] at hnot
    push Not at hnot
    exact hnot hin
  · rw [htaken x, hfreed x]
    refine or_congr_right ⟨?_, ?_⟩
    · rintro ⟨i, hi, heq⟩
      exact ⟨i, hsub i hi, (hvalid i (hsub i hi)).mpr hi, heq⟩
    · rintro ⟨i, hi, hv, heq⟩
      exact ⟨i, (hvalid i hi).mp hv, heq⟩
  · rw [framesLeft_mapPages hleft, hcount, hleft₁]

/-- It is a matter of which pages are mapped and where. -/
theorem Remapped.congr {free' : FreeFrame} {pt' pt'' : ℤ → Pte}
    (h : Remapped free free' pt pt' is js)
    (heq : ∀ i, (pt'' i).valid = (pt' i).valid ∧ (pt'' i).pfn = (pt' i).pfn) :
    Remapped free free' pt pt'' is js := by
  have hvalid := fun i => (heq i).1
  have hpfn := fun i => (heq i).2
  have hcount : validCount pt'' is = validCount pt' is := validCount_congr fun i _ => hvalid i
  constructor
  case valid_iff => simpa only [hvalid] using h.valid_iff
  case used => simpa only [hvalid, hpfn] using h.used
  case distinct => simpa only [hvalid, hpfn] using h.distinct
  case fresh => simpa only [hvalid, hpfn] using h.fresh
  case used_iff => simpa only [hvalid, hpfn] using h.used_iff
  case left_eq => rw [hcount, h.left_eq]
  case count_eq => rw [hcount, h.count_eq]
  case ok => exact h.ok

end Loops

/-! ## A call that succeeds -/

section Success

variable {mem : Memory} {u : UserPt} {uc : UserContext} {args : List (List Byte)} {env : LoadEnv}
  {li : LoadInfo}

/-- **What a call that succeeds has done** since it released the old image:
`mem₀` is memory with the program read in. -/
structure Completed (free : FreeFrame) (pt : ℤ → Pte) (uc : UserContext)
    (args : List (List Byte)) (li : LoadInfo) (mem₀ : Memory) (l : Loaded) : Prop where
  left : li.pagesNeeded args ≤ framesLeft free
  frames_eq : mem₀.frames = (mapSegments free pt li (stackNpg args)).1
  mem_eq : l.mem = buildArgs l.userpt.pt mem₀ args
  pt_eq : l.userpt.pt = protectText li.textPages (mapSegments free pt li (stackNpg args)).2
  size_eq : l.userpt.size = li.pagesNeeded args
  uc_eq : l.uc = { uc with sp := argSp args, pc := li.entry }

theorem loadProgram_success {l : Loaded} (h : loadProgram mem u uc args env = (l, .success)) :
    ∃ li mem₀, env.info = some li ∧ stackNpg args + li.dataPg1 + li.dataNpg < maxPtLen ∧
      Completed (destroyUsermem mem.frames u).1 (destroyUsermem mem.frames u).2.pt uc args li mem₀
        l := by
  obtain ⟨li, hinfo, hroom, heq⟩ :=
    loadProgram_committed (show (loadProgram mem u uc args env).2 ≠ .error by simp [h])
  rw [heq] at h
  unfold loadSegments at h
  dsimp only at h
  split at h
  · cases h
  · rename_i hleft
    split at h
    · cases h
    · split at h
      · cases h
      · obtain rfl := (Prod.mk.inj h).1
        refine ⟨li, _, hinfo, hroom, not_lt.mp hleft, ?_, rfl, rfl, rfl, rfl⟩
        rw [storeBytes_frames, storeBytes_frames, storeBytes_frames]

/-- **A call with all it asks for** succeeds: the file is a Yalnix program
that leaves a page between heap and stack, there is kernel memory for the
arguments and a frame for each page, and both reads are complete. -/
theorem loadProgram_completes (hopens : env.opens = true) (hinfo : env.info = some li)
    (hentry : vmem1Base ≤ li.entry) (hroom : stackNpg args + li.dataPg1 + li.dataNpg < maxPtLen)
    (hmalloc : env.malloc = true) (hleft : li.pagesNeeded args ≤ framesLeft mem.frames + u.count)
    (htext : (env.text.map fun bytes => (bytes.length : ℤ)) = some (li.tNpg * pageSize))
    (hdata : (env.data.map fun bytes => (bytes.length : ℤ)) = some (li.idNpg * pageSize)) :
    ∃ l, loadProgram mem u uc args env = (l, .success) := by
  have hfree : framesLeft (destroyUsermem mem.frames u).1 = framesLeft mem.frames + u.count :=
    framesLeft_unmapValid nodup_pages
  unfold loadProgram
  rw [if_neg (not_not.mpr hopens), hinfo]
  dsimp only
  rw [if_neg (not_lt.mpr hentry), if_neg (not_le.mpr hroom), if_neg (not_not.mpr hmalloc)]
  unfold loadSegments
  dsimp only
  rw [← hfree, LoadInfo.pagesNeeded] at hleft
  rw [if_neg (not_lt.mpr hleft), if_neg (not_not.mpr htext), if_neg (not_not.mpr hdata)]
  exact ⟨_, rfl⟩

theorem Completed.entry {free : FreeFrame} {pt : ℤ → Pte} {mem₀ : Memory} {l : Loaded}
    (h : Completed free pt uc args li mem₀ l) (i : ℤ) :
    (l.userpt.pt i).valid =
        ((mapPages (protRead ||| protWrite) (li.segments args) free pt).2 i).valid ∧
      (l.userpt.pt i).pfn =
        ((mapPages (protRead ||| protWrite) (li.segments args) free pt).2 i).pfn := by
  rw [h.pt_eq, ← mapSegments_eq]
  exact protectText_entry _

/-- **The new image**, and what has become of the frames of the old one: the
program of `li` with the arguments `args`, where `l` is what the call left. -/
structure Built (mem : Memory) (u : UserPt) (li : LoadInfo) (args : List (List Byte))
    (l : Loaded) : Prop where
  /-- Just the three segments are mapped, in region 1 and apart. -/
  valid_iff : ∀ i ∈ pages 0 numPages1, (l.userpt.pt i).valid = true ↔
    i ∈ li.textPages ∨ i ∈ li.dataPages ∨ i ∈ stackPages args
  region : ∀ i, i ∈ li.textPages ∨ i ∈ li.dataPages ∨ i ∈ stackPages args →
    i ∈ pages 0 numPages1
  text_data : ∀ i ∈ li.textPages, i ∉ li.dataPages
  stack_apart : ∀ i ∈ stackPages args, i ∉ li.textPages ∧ i ∉ li.dataPages
  text_prot : ∀ i ∈ li.textPages, (l.userpt.pt i).prot = protRead ||| protExec
  data_prot : ∀ i ∈ li.dataPages, (l.userpt.pt i).prot = protRead ||| protWrite
  stack_prot : ∀ i ∈ stackPages args, (l.userpt.pt i).prot = protRead ||| protWrite
  /-- A frame for each page, in use. -/
  used : ∀ i ∈ pages 0 numPages1, (l.userpt.pt i).valid = true →
    (l.userpt.pt i).pfn ∈ l.mem.frames.used
  distinct : ∀ i ∈ pages 0 numPages1, ∀ j ∈ pages 0 numPages1, (l.userpt.pt i).valid = true →
    (l.userpt.pt j).valid = true → (l.userpt.pt i).pfn = (l.userpt.pt j).pfn → i = j
  /-- The old image's frames are given back, and then the new one's taken. -/
  fresh : ∀ i ∈ pages 0 numPages1, (l.userpt.pt i).valid = true →
    (l.userpt.pt i).pfn ∈ mem.frames.used →
    ∃ j ∈ pages 0 numPages1, (u.pt j).valid = true ∧ (u.pt j).pfn = (l.userpt.pt i).pfn
  used_iff : ∀ x, x ∈ l.mem.frames.used ↔
    (x ∈ mem.frames.used ∧
      ∀ i ∈ pages 0 numPages1, (u.pt i).valid = true → (u.pt i).pfn ≠ x) ∨
    ∃ i ∈ pages 0 numPages1, (l.userpt.pt i).valid = true ∧ (l.userpt.pt i).pfn = x
  left_eq : framesLeft l.mem.frames = framesLeft mem.frames + u.count - l.userpt.count
  ok : l.mem.frames.Ok
  size_eq : l.userpt.size = li.tNpg + li.dataNpg + stackNpg args
  count_eq : l.userpt.size = l.userpt.count
  /-- At least a page between the data and the stack is not mapped. -/
  gap_pos : li.dataPg1 + li.dataNpg < numPages1 - stackNpg args
  gap : ∀ i, li.dataPg1 + li.dataNpg ≤ i → i < numPages1 - stackNpg args →
    i ∈ pages 0 numPages1 ∧ (l.userpt.pt i).valid = false
  /-- The stack is there from the stack pointer up. -/
  cover : ∀ addr, l.uc.sp ≤ addr → addr < vmem1Limit →
    addr / pageSize - basePage1 ∈ stackPages args

/-- The page of an address from the stack pointer up is one of the stack's. -/
theorem stackPages_cover {addr : ℤ} (hlo : argSp args ≤ addr) (hhi : addr < vmem1Limit) :
    addr / pageSize - basePage1 ∈ stackPages args := by
  have hlen : maxPtLen = limPage1 - basePage1 := maxPtLen_eq
  have hlt : addr / pageSize < limPage1 := (Int.ediv_lt_iff_lt_mul pageSize_pos).mpr hhi
  have hge : argSp args / pageSize ≤ addr / pageSize := Int.ediv_le_ediv pageSize_pos hlo
  have hnpg : stackNpg args = limPage1 - argSp args / pageSize := by
    rw [stackNpg, downToPage, vmem1Limit, ← Int.sub_mul, mul_pageSize_ediv]
  rw [stackPages, mem_pages]
  omega

theorem Completed.prot {free : FreeFrame} {pt : ℤ → Pte} {mem₀ : Memory} {l : Loaded} {i : ℤ}
    (h : Completed free pt uc args li mem₀ l) (hi : i ∈ li.segments args) :
    (l.userpt.pt i).prot =
      if i ∈ li.textPages then protRead ||| protExec else protRead ||| protWrite := by
  rw [h.pt_eq, protectText_prot, mapSegments_eq, (mapPages_of_mem hi).2]

section Ordered

variable {others : Set ℤ} {mem₀ : Memory} {l : Loaded}

/-- **Completing the load of an ordered executable** has emptied the table and
filled it with the segments. -/
theorem Completed.remapped
    (h : Completed (destroyUsermem mem.frames u).1 (destroyUsermem mem.frames u).2.pt uc args li
      mem₀ l) (hf : mem.frames.Ok) (hheld : Held mem.frames u.pt others) (hli : li.Ordered)
    (hroom : stackNpg args + li.dataPg1 + li.dataNpg < maxPtLen) :
    Remapped mem.frames l.mem.frames u.pt l.userpt.pt (pages 0 numPages1)
      (li.segments args) := by
  have hneed := h.left
  rw [← hli.length_segments] at hneed
  have hre := remapped_of_held (protRead ||| protWrite) hheld hf nodup_pages
    (hli.nodup_segments hroom) (fun i hi => hli.segments_region hroom hi) hneed
  have hframes : l.mem.frames = (mapPages (protRead ||| protWrite) (li.segments args)
      (destroyUsermem mem.frames u).1 (destroyUsermem mem.frames u).2.pt).1 := by
    rw [h.mem_eq, buildArgs_frames, h.frames_eq, mapSegments_eq]
  rw [hframes]
  exact hre.congr h.entry

theorem LoadInfo.Ordered.gap (hli : li.Ordered) {i : ℤ} (hlo : li.dataPg1 + li.dataNpg ≤ i)
    (hhi : i < numPages1 - stackNpg args) :
    i ∈ pages 0 numPages1 ∧ i ∉ li.segments args := by
  have hlen : maxPtLen = numPages1 := maxPtLen_eq
  have hstack := stackNpg_pos args
  have htext := hli.text_nonneg
  have htn := hli.tNpg_nonneg
  have hle := hli.text_le
  have hdata := hli.dataNpg_nonneg
  refine ⟨mem_pages.mpr ⟨by omega, by omega⟩, fun hi => ?_⟩
  rw [LoadInfo.mem_segments, LoadInfo.textPages, LoadInfo.dataPages, stackPages, mem_pages,
    mem_pages, mem_pages] at hi
  omega

/-- **It builds the image.** -/
theorem Completed.built
    (h : Completed (destroyUsermem mem.frames u).1 (destroyUsermem mem.frames u).2.pt uc args li
      mem₀ l) (hf : mem.frames.Ok) (hheld : Held mem.frames u.pt others) (hli : li.Ordered)
    (hroom : stackNpg args + li.dataPg1 + li.dataNpg < maxPtLen) : Built mem u li args l := by
  have hre := h.remapped hf hheld hli hroom
  constructor
  case valid_iff =>
    intro i hi
    rw [← LoadInfo.mem_segments]
    exact hre.valid_iff i hi
  case region => exact fun i hi => hli.segments_region hroom (LoadInfo.mem_segments.mpr hi)
  case text_data => exact fun i hi => hli.text_data hi
  case stack_apart => exact fun i hi => hli.stack_apart hroom hi
  case text_prot =>
    intro i hi
    rw [h.prot (LoadInfo.mem_segments.mpr (Or.inl hi)), if_pos hi]
  case data_prot =>
    intro i hi
    rw [h.prot (LoadInfo.mem_segments.mpr (Or.inr (Or.inl hi))),
      if_neg fun hi' => hli.text_data hi' hi]
  case stack_prot =>
    intro i hi
    rw [h.prot (LoadInfo.mem_segments.mpr (Or.inr (Or.inr hi))),
      if_neg (hli.stack_apart hroom hi).1]
  case used => exact hre.used
  case distinct => exact hre.distinct
  case fresh => exact hre.fresh
  case used_iff => exact hre.used_iff
  case left_eq => exact hre.left_eq
  case ok => exact hre.ok
  case size_eq => exact h.size_eq
  case count_eq =>
    have hcount : l.userpt.count = (li.segments args).length := hre.count_eq
    rw [h.size_eq, hcount, hli.length_segments]
  case gap_pos =>
    have hlen : maxPtLen = numPages1 := maxPtLen_eq
    omega
  case gap =>
    intro i hlo hhi
    obtain ⟨hin, hnot⟩ := hli.gap hlo hhi
    exact ⟨hin, Bool.eq_false_iff.mpr fun hv => hnot ((hre.valid_iff i hin).mp hv)⟩
  case cover =>
    intro addr hlo hhi
    rw [h.uc_eq] at hlo
    exact stackPages_cover hlo hhi

end Ordered

/-! ## The image -/

/-- A machine of forty frames, two of them a process's. -/
def twoPages : FreeFrame × (ℤ → Pte) :=
  mapPages (protRead ||| protWrite) (pages 3 5) (newFreeFrame (40 * pageSize)) newUserPt.pt

def twoPagesMem : Memory := ⟨twoPages.1, fun _ _ => 0, invalidPte, fun _ => invalidPte⟩

def twoPagesPt : UserPt := { newUserPt with pt := twoPages.2 }

omit [Paging] in
theorem twoPages_held : let _ := yalnixPaging
    twoPagesMem.frames.Ok ∧ Held twoPagesMem.frames twoPagesPt.pt ∅ := by
  intro _
  obtain ⟨hok, -⟩ := newFreeFrame_ok (show 0 ≤ 40 * pageSize / pageSize by decide)
  have hnone : Held (newFreeFrame (40 * pageSize)) newUserPt.pt ∅ :=
    Held.of_invalid (fun _ => rfl) fun _ h => absurd h (Set.notMem_empty _)
  obtain ⟨hheld, hran⟩ := hnone.mapPages hok (protRead ||| protWrite) (pages 3 5) (by decide)
  exact ⟨hran.ok, hheld⟩

/-- A program of a page of text, a page of data and a page of bss. -/
def threePages : LoadEnv where
  opens := true
  info := some
    { entry := 0x100000
      tVaddr := 0x100000
      tNpg := 1
      idVaddr := 0x104000
      idNpg := 1
      idEnd := 0x105000
      udNpg := 1
      udEnd := 0x107000 }
  malloc := true
  text := some (List.replicate 0x2000 7)
  data := some (List.replicate 0x2000 8)

omit [Paging] in
theorem threePages_ordered :
    ∀ li, threePages.info = some li → @LoadInfo.Ordered yalnixPaging li := by
  let _ := yalnixPaging
  intro li h
  obtain rfl := Option.some.inj h
  exact ⟨by decide, by decide, by decide, by decide⟩

omit [Paging] in
/-- The process execs it with two arguments. -/
theorem threePages_loads : let _ := yalnixPaging
    ∃ l, loadProgram twoPagesMem twoPagesPt ⟨0, 0, fun _ => 0⟩ [[65], [66, 67]] threePages =
      (l, .success) := by
  intro _
  refine loadProgram_completes rfl rfl (by decide) (by decide) rfl ?_ ?_ ?_
  · decide +kernel
  · exact congrArg some (congrArg Nat.cast List.length_replicate)
  · exact congrArg some (congrArg Nat.cast List.length_replicate)

/-- **`LoadProgram` builds exactly the new image**: over any old table whose
pages hold frames of their own, and of any executable whose text is below its
data. -/
theorem loadProgram_built {others : Set ℤ} {l : Loaded} (hf : mem.frames.Ok)
    (hheld : Held mem.frames u.pt others) (hli : ∀ li, env.info = some li → li.Ordered)
    (h : loadProgram mem u uc args env = (l, .success)) :
    ∃ li, env.info = some li ∧ Built mem u li args l := by
  obtain ⟨li, mem₀, hinfo, hroom, hdone⟩ := loadProgram_success h
  exact ⟨li, hinfo, hdone.built hf hheld (hli li hinfo) hroom⟩

omit [Paging] in
theorem loadProgram_built_threePages : let _ := yalnixPaging
    ∃ l li, loadProgram twoPagesMem twoPagesPt ⟨0, 0, fun _ => 0⟩ [[65], [66, 67]] threePages =
      (l, .success) ∧ threePages.info = some li ∧
      Built twoPagesMem twoPagesPt li [[65], [66, 67]] l := by
  intro _
  obtain ⟨l, hl⟩ := threePages_loads
  obtain ⟨li, hli, hbuilt⟩ :=
    loadProgram_built twoPages_held.1 twoPages_held.2 threePages_ordered hl
  exact ⟨l, li, hl, hli, hbuilt⟩

end Success

end Yalnix
