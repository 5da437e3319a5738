import Mathlib.Algebra.Order.BigOperators.Group.List
import Mathlib.Data.Finset.Filter
import Mathlib.Data.List.Nodup
import Yalnix.Memory.Load
import Yalnix.Memory.Ownership
/-!
# The image of a process

How a process's region 1 is laid out between `LoadProgram` and its end: the
program below `data_end`, the heap up to `brk`, a gap, and the stack from
`stack_low` up. Each of the operations that grow or shrink the image keeps
the layout and changes the number of mapped pages by what it says.
-/

namespace Yalnix

variable [Paging]

open Paging

/-! ## Lists of pages -/

section Pages

omit [Paging]

variable {lo hi i : ℤ}

theorem mem_pages : i ∈ pages lo hi ↔ lo ≤ i ∧ i < hi := by
  simp only [pages, List.mem_map, List.mem_range]
  constructor
  · rintro ⟨k, hk, rfl⟩
    omega
  · rintro ⟨h1, h2⟩
    exact ⟨(i - lo).toNat, by omega, by omega⟩

theorem nodup_pages : (pages lo hi).Nodup := by
  refine List.Nodup.map (fun j k h => ?_) List.nodup_range
  have heq : lo + (j : ℤ) = lo + k := h
  omega

theorem pages_concat (h : lo ≤ hi) : pages lo (hi + 1) = pages lo hi ++ [hi] := by
  have hlen : (hi + 1 - lo).toNat = (hi - lo).toNat + 1 := by omega
  have hlast : lo + ((hi - lo).toNat : ℤ) = hi := by omega
  rw [pages, hlen, List.range_succ, List.map_append, List.map_singleton, hlast, pages]

theorem length_pages (h : lo ≤ hi) : ((pages lo hi).length : ℤ) = hi - lo := by
  simp only [pages, List.length_map, List.length_range]
  omega

variable {pt pt' : ℤ → Pte} {is js : List ℤ}

theorem validCount_eq_card (hnd : is.Nodup) :
    validCount pt is = (is.toFinset.filter fun i => (pt i).valid).card := by
  rw [validCount, List.countP_eq_length_filter, ← List.toFinset_filter,
    List.toFinset_card_of_nodup (hnd.filter _)]

/-- **Mapping pages that were not mapped** counts them. -/
theorem validCount_add (pt pt' : ℤ → Pte) (is js : List ℤ) (hnd : is.Nodup) (hjs : js.Nodup)
    (hsub : ∀ j ∈ js, j ∈ is) (hold : ∀ j ∈ js, (pt j).valid = false)
    (hnew : ∀ j ∈ js, (pt' j).valid = true)
    (hrest : ∀ j, j ∉ js → (pt' j).valid = (pt j).valid) :
    validCount pt' is = validCount pt is + js.length := by
  rw [validCount_eq_card hnd, validCount_eq_card hnd, ← List.toFinset_card_of_nodup hjs,
    ← Finset.card_union_of_disjoint]
  · congr 1
    ext j
    simp only [Finset.mem_union, Finset.mem_filter, List.mem_toFinset]
    by_cases hj : j ∈ js
    · simp [hj, hsub j hj, hnew j hj]
    · simp [hj, hrest j hj]
  · rw [Finset.disjoint_left]
    intro j hj hj'
    rw [Finset.mem_filter, hold j (List.mem_toFinset.mp hj')] at hj
    exact absurd hj.2 (by simp)

theorem validCount_eq_zero (h : ∀ i ∈ is, (pt i).valid = false) : validCount pt is = 0 := by
  rw [validCount, List.countP_eq_zero]
  intro i hi
  simp [h i hi]

theorem validCount_congr (h : ∀ i ∈ is, (pt' i).valid = (pt i).valid) :
    validCount pt' is = validCount pt is := by
  refine List.countP_congr fun i hi => ?_
  rw [h i hi]

end Pages

theorem mapPages_valid_iff {prot : ℕ} {is : List ℤ} {free : FreeFrame} {pt : ℤ → Pte} {j : ℤ} :
    ((mapPages prot is free pt).2 j).valid = true ↔ j ∈ is ∨ (pt j).valid = true := by
  by_cases hj : j ∈ is
  · rw [(mapPages_of_mem hj).1]
    simp [hj]
  · simp [hj, mapPages_of_not_mem hj]

theorem mapPages_append {prot : ℕ} {is js : List ℤ} {free : FreeFrame} {pt : ℤ → Pte} :
    mapPages prot (is ++ js) free pt =
      mapPages prot js (mapPages prot is free pt).1 (mapPages prot is free pt).2 := by
  induction is generalizing free pt with
  | nil => rfl
  | cons i is ih => rw [List.cons_append, mapPages_cons, mapPages_cons, ih]

/-! ## The number of frames there are -/

section Size

variable {prot : ℕ} {is : List ℤ} {free : FreeFrame} {pt : ℤ → Pte} {mem : Memory}

theorem mapPages_size : (mapPages prot is free pt).1.size = free.size := by
  induction is generalizing free pt with
  | nil => rfl
  | cons i is ih => rw [mapPages_cons, ih, mapPage_eq, getFrame_size]

theorem unmapValid_size : (unmapValid is free pt).1.size = free.size := by
  induction is generalizing free pt with
  | nil => rfl
  | cons i is ih =>
    rw [unmapValid_cons]
    split
    · rw [ih]
      rfl
    · exact ih

/-- **Giving pages back** leaves as many frames more, whosever they were. -/
theorem unmapValid_filled (hnd : is.Nodup) :
    (unmapValid is free pt).1.filled = free.filled - validCount pt is := by
  induction is generalizing free pt with
  | nil => exact (Int.sub_zero _).symm
  | cons i is ih =>
    rw [List.nodup_cons] at hnd
    rw [unmapValid_cons]
    split
    · rename_i hv
      have hrest : validCount (unmapPage free pt i).2 is = validCount pt is := by
        refine validCount_congr fun j hj => ?_
        have hne : j ≠ i := fun heq => hnd.1 (heq ▸ hj)
        exact congrArg Pte.valid (Function.update_of_ne hne _ _)
      have hfilled : (unmapPage free pt i).1.filled = free.filled - 1 := rfl
      rw [ih hnd.2, hrest, hfilled, validCount_cons_pos hv]
      omega
    · rename_i hv
      rw [ih hnd.2, validCount_cons_neg hv]

theorem framesLeft_unmapValid (hnd : is.Nodup) :
    framesLeft (unmapValid is free pt).1 = framesLeft free + validCount pt is := by
  unfold framesLeft
  rw [unmapValid_size, unmapValid_filled hnd]
  omega

/-- **Mapping pages, with frames to spare**, leaves as many frames fewer. -/
theorem framesLeft_mapPages (hleft : (is.length : ℤ) ≤ framesLeft free) :
    framesLeft (mapPages prot is free pt).1 = framesLeft free - is.length := by
  induction is generalizing free pt with
  | nil => exact (Int.sub_zero _).symm
  | cons i is ih =>
    unfold framesLeft at hleft
    rw [List.length_cons, Nat.cast_succ] at hleft
    have hlt : free.filled < free.size := by omega
    have hone : framesLeft (getFrame free 0 true).1 = framesLeft free - 1 := by
      have hrun : (getFrame free 0 true).1.filled = free.filled + 1 := by
        rw [getFrame, if_neg (not_le.mpr hlt)]
      unfold framesLeft
      rw [getFrame_size, hrun]
      omega
    rw [mapPages_cons, mapPage_eq]
    dsimp only
    rw [ih (by rw [hone]; unfold framesLeft; omega), hone, List.length_cons, Nat.cast_succ]
    omega

/-- **Unmapping pages** leaves as many more. -/
theorem framesLeft_unmapPages :
    framesLeft (unmapPages is free pt).1 = framesLeft free + is.length := by
  induction is generalizing free pt with
  | nil => exact (Int.add_zero _).symm
  | cons i is ih =>
    have hone : framesLeft (unmapPage free pt i).1 = framesLeft free + 1 := by
      show free.size - (free.filled - 1) = free.size - free.filled + 1
      omega
    rw [unmapPages_cons, ih, hone, List.length_cons, Nat.cast_succ]
    omega

theorem copyKstack_size : (copyKstack is mem pt).1.frames.size = mem.frames.size := by
  induction is generalizing mem pt with
  | nil => rfl
  | cons i is ih => rw [copyKstack_cons, ih, copyPage_frames, getFrame_size]

end Size

/-! ## The layout -/

/-- **The layout of region 1**: page `d` is where `data_end` is, `b` where
`brk` is and `s` where `stack_low` is, counted from the first page of the
region. Below `d` is the program, of any shape. -/
structure Layout (u : UserPt) (d b s : ℤ) : Prop where
  dataEnd_eq : u.dataEnd = (basePage1 + d) * pageSize
  brk_eq : u.brk = (basePage1 + b) * pageSize
  stackLow_eq : u.stackLow = (basePage1 + s) * pageSize
  d_nonneg : 0 ≤ d
  d_le : d ≤ b
  b_lt : b < s
  s_lt : s < numPages1
  heap : ∀ i, d ≤ i → i < b → (u.pt i).valid = true
  gap : ∀ i, b ≤ i → i < s → (u.pt i).valid = false
  stack : ∀ i, s ≤ i → i < numPages1 → (u.pt i).valid = true
  outside : ∀ i, i < 0 ∨ numPages1 ≤ i → (u.pt i).valid = false

/-- The number of valid entries of a user page table. -/
def UserPt.count (u : UserPt) : ℕ := validCount u.pt (pages 0 numPages1)

/-- The heap grown from page `b` to page `b'`, and the allocator after. -/
def growHeap (free : FreeFrame) (u : UserPt) (b b' : ℤ) : FreeFrame × UserPt :=
  let (free, pt) := mapPages (protRead ||| protWrite) (pages b b') free u.pt
  (free, { u with
    size := u.size + (b' - b)
    pt := pt
    brk := (basePage1 + b') * pageSize })

/-- The heap shrunk from page `b` to page `b'`. -/
def shrinkHeap (free : FreeFrame) (u : UserPt) (b b' : ℤ) : FreeFrame × UserPt :=
  let (free, pt) := unmapPages (pages b' b).reverse free u.pt
  (free, { u with
    size := u.size - (b - b')
    pt := pt
    brk := (basePage1 + b') * pageSize })

/-- The stack grown from page `s` down to page `s'`. -/
def growStack (free : FreeFrame) (u : UserPt) (s s' : ℤ) : FreeFrame × UserPt :=
  let (free, pt) := mapPages (protRead ||| protWrite) (pages s' s).reverse free u.pt
  (free, { u with
    size := u.size + (s - s')
    pt := pt
    stackLow := (basePage1 + s') * pageSize })

section Shapes

variable {free : FreeFrame} {u : UserPt} {b b' s s' : ℤ}

@[simp] theorem growHeap_pt : (growHeap free u b b').2.pt =
    (mapPages (protRead ||| protWrite) (pages b b') free u.pt).2 := rfl

@[simp] theorem shrinkHeap_pt : (shrinkHeap free u b b').2.pt =
    (unmapPages (pages b' b).reverse free u.pt).2 := rfl

@[simp] theorem growStack_pt : (growStack free u s s').2.pt =
    (mapPages (protRead ||| protWrite) (pages s' s).reverse free u.pt).2 := rfl

end Shapes

namespace Layout

variable {u : UserPt} {d b s : ℤ}

/-- There is a page of stack. -/
theorem count_pos (h : Layout u d b s) : 0 < u.count := by
  have hs := h.s_lt
  have hd := h.d_nonneg
  have hdb := h.d_le
  have hbs := h.b_lt
  rw [UserPt.count, validCount, List.countP_pos_iff]
  exact ⟨s, mem_pages.mpr ⟨by omega, hs⟩, h.stack s le_rfl hs⟩

/-- **A `Brk` that grows the heap.** -/
theorem growHeap (h : Layout u d b s) {b' : ℤ} (hb : b ≤ b') (hb' : b' < s)
    (free : FreeFrame) : Layout (growHeap free u b b').2 d b' s where
  dataEnd_eq := h.dataEnd_eq
  brk_eq := rfl
  stackLow_eq := h.stackLow_eq
  d_nonneg := h.d_nonneg
  d_le := h.d_le.trans hb
  b_lt := hb'
  s_lt := h.s_lt
  heap i hdi hib := by
    refine mapPages_valid_iff.mpr ?_
    rw [mem_pages]
    by_cases hi : b ≤ i
    · exact Or.inl ⟨hi, hib⟩
    · exact Or.inr (h.heap i hdi (by omega))
  gap i hbi his := by
    rw [growHeap_pt, mapPages_of_not_mem (by rw [mem_pages]; omega)]
    exact h.gap i (by omega) his
  stack i hsi hin := mapPages_valid_iff.mpr (Or.inr (h.stack i hsi hin))
  outside i hi := by
    have hd := h.d_nonneg
    have hdb := h.d_le
    have hs := h.s_lt
    rw [growHeap_pt, mapPages_of_not_mem (by rw [mem_pages]; omega)]
    exact h.outside i hi

theorem count_growHeap (h : Layout u d b s) {b' : ℤ} (hb : b ≤ b') (hb' : b' < s)
    (free : FreeFrame) : ((Yalnix.growHeap free u b b').2.count : ℤ) = u.count + (b' - b) := by
  have hd := h.d_nonneg
  have hdb := h.d_le
  have hs := h.s_lt
  have hadd := validCount_add u.pt (mapPages (protRead ||| protWrite) (pages b b') free u.pt).2
    (pages 0 numPages1) (pages b b') nodup_pages nodup_pages
    (fun j hj => by rw [mem_pages] at hj ⊢; omega)
    (fun j hj => h.gap j (mem_pages.mp hj).1 (by have := (mem_pages.mp hj).2; omega))
    (fun j hj => (mapPages_of_mem hj).1) (fun j hj => by rw [mapPages_of_not_mem hj])
  have hlen := length_pages hb
  rw [UserPt.count, UserPt.count, growHeap_pt]
  omega

/-- **A `Brk` that shrinks the heap.** -/
theorem shrinkHeap (h : Layout u d b s) {b' : ℤ} (hd' : d ≤ b') (hb : b' ≤ b)
    (free : FreeFrame) : Layout (shrinkHeap free u b b').2 d b' s where
  dataEnd_eq := h.dataEnd_eq
  brk_eq := rfl
  stackLow_eq := h.stackLow_eq
  d_nonneg := h.d_nonneg
  d_le := hd'
  b_lt := by have := h.b_lt; omega
  s_lt := h.s_lt
  heap i hdi hib := by
    rw [shrinkHeap_pt, unmapPages_of_not_mem (by rw [List.mem_reverse, mem_pages]; omega)]
    exact h.heap i hdi (by omega)
  gap i hbi his := by
    by_cases hi : i < b
    · exact unmapPages_of_mem (by rw [List.mem_reverse, mem_pages]; omega)
    · rw [shrinkHeap_pt, unmapPages_of_not_mem (by rw [List.mem_reverse, mem_pages]; omega)]
      exact h.gap i (by omega) his
  stack i hsi hin := by
    have hbs := h.b_lt
    rw [shrinkHeap_pt, unmapPages_of_not_mem (by rw [List.mem_reverse, mem_pages]; omega)]
    exact h.stack i hsi hin
  outside i hi := by
    have hd := h.d_nonneg
    have hbs := h.b_lt
    have hs := h.s_lt
    rw [shrinkHeap_pt, unmapPages_of_not_mem (by rw [List.mem_reverse, mem_pages]; omega)]
    exact h.outside i hi

theorem count_shrinkHeap (h : Layout u d b s) {b' : ℤ} (hd' : d ≤ b') (hb : b' ≤ b)
    (free : FreeFrame) : ((Yalnix.shrinkHeap free u b b').2.count : ℤ) = u.count - (b - b') := by
  have hd := h.d_nonneg
  have hbs := h.b_lt
  have hs := h.s_lt
  have hadd := validCount_add (unmapPages (pages b' b).reverse free u.pt).2 u.pt
    (pages 0 numPages1) (pages b' b) nodup_pages nodup_pages
    (fun j hj => by rw [mem_pages] at hj ⊢; omega)
    (fun j hj => unmapPages_of_mem (List.mem_reverse.mpr hj))
    (fun j hj => h.heap j (by have := (mem_pages.mp hj).1; omega) (mem_pages.mp hj).2)
    (fun j hj => by rw [unmapPages_of_not_mem (by rwa [List.mem_reverse])])
  have hlen := length_pages hb
  rw [UserPt.count, UserPt.count, shrinkHeap_pt]
  omega

/-- **A fault that grows the stack.** -/
theorem growStack (h : Layout u d b s) {s' : ℤ} (hb : b < s') (hs' : s' ≤ s)
    (free : FreeFrame) : Layout (growStack free u s s').2 d b s' where
  dataEnd_eq := h.dataEnd_eq
  brk_eq := h.brk_eq
  stackLow_eq := rfl
  d_nonneg := h.d_nonneg
  d_le := h.d_le
  b_lt := hb
  s_lt := by have := h.s_lt; omega
  heap i hdi hib := mapPages_valid_iff.mpr (Or.inr (h.heap i hdi hib))
  gap i hbi his := by
    rw [growStack_pt, mapPages_of_not_mem (by rw [List.mem_reverse, mem_pages]; omega)]
    exact h.gap i hbi (by omega)
  stack i hsi hin := by
    refine mapPages_valid_iff.mpr ?_
    rw [List.mem_reverse, mem_pages]
    by_cases hi : i < s
    · exact Or.inl ⟨hsi, hi⟩
    · exact Or.inr (h.stack i (by omega) hin)
  outside i hi := by
    have hd := h.d_nonneg
    have hdb := h.d_le
    have hs := h.s_lt
    rw [growStack_pt, mapPages_of_not_mem (by rw [List.mem_reverse, mem_pages]; omega)]
    exact h.outside i hi

theorem count_growStack (h : Layout u d b s) {s' : ℤ} (hb : b < s') (hs' : s' ≤ s)
    (free : FreeFrame) : ((Yalnix.growStack free u s s').2.count : ℤ) = u.count + (s - s') := by
  have hd := h.d_nonneg
  have hdb := h.d_le
  have hs := h.s_lt
  have hadd := validCount_add u.pt (mapPages (protRead ||| protWrite) (pages s' s).reverse free u.pt).2
    (pages 0 numPages1) (pages s' s) nodup_pages nodup_pages
    (fun j hj => by rw [mem_pages] at hj ⊢; omega)
    (fun j hj => h.gap j (by have := (mem_pages.mp hj).1; omega) (mem_pages.mp hj).2)
    (fun j hj => (mapPages_of_mem (List.mem_reverse.mpr hj)).1)
    (fun j hj => by rw [mapPages_of_not_mem (by rwa [List.mem_reverse])])
  have hlen := length_pages hs'
  rw [UserPt.count, UserPt.count, growStack_pt]
  omega

/-! ## Copies -/

/-- The entries of a copy into a blank table are valid where the original's
are. -/
theorem copy_valid (h : Layout u d b s) (mem : Memory) (i : ℤ) :
    ((copyUserMem mem u newUserPt).2.pt i).valid = (u.pt i).valid := by
  have hpt : (copyUserMem mem u newUserPt).2.pt
      = (copyValid u.pt (pages 0 numPages1) mem newUserPt.pt).2 := rfl
  rw [hpt]
  by_cases hi : i ∈ pages 0 numPages1
  · exact (copyValid_valid (fun _ _ => rfl) nodup_pages hi).1
  · rw [copyValid_of_not_mem hi, h.outside i (by rw [mem_pages] at hi; omega)]
    rfl

/-- **A copy has the layout of the original**, and as many pages. -/
theorem copy (h : Layout u d b s) (mem : Memory) :
    Layout (copyUserMem mem u newUserPt).2 d b s where
  dataEnd_eq := h.dataEnd_eq
  brk_eq := h.brk_eq
  stackLow_eq := h.stackLow_eq
  d_nonneg := h.d_nonneg
  d_le := h.d_le
  b_lt := h.b_lt
  s_lt := h.s_lt
  heap i hdi hib := by rw [h.copy_valid]; exact h.heap i hdi hib
  gap i hbi his := by rw [h.copy_valid]; exact h.gap i hbi his
  stack i hsi hin := by rw [h.copy_valid]; exact h.stack i hsi hin
  outside i hi := by rw [h.copy_valid]; exact h.outside i hi

theorem count_copy (h : Layout u d b s) (mem : Memory) :
    (copyUserMem mem u newUserPt).2.count = u.count :=
  validCount_congr fun i _ => h.copy_valid mem i

end Layout

/-- `copy_user_mem` into a blank table, with frames to spare. -/
theorem Held.copyUserMem {mem : Memory} {u : UserPt} {others : Set ℤ}
    (h : Held mem.frames newUserPt.pt others) (hf : mem.frames.Ok)
    (hleft : (u.count : ℤ) ≤ framesLeft mem.frames) :
    Held (copyUserMem mem u newUserPt).1.frames (copyUserMem mem u newUserPt).2.pt others ∧
      Ran mem.frames (Yalnix.copyUserMem mem u newUserPt).1.frames u.count :=
  h.copyValid hf hleft

theorem length_kstackPages : ((pages 0 numKstackPages).length : ℤ) = numKstackPages := by
  have := numKstackPages_pos
  rw [length_pages (by omega)]
  omega

/-- What `KCCopy` asks for, with frames to spare. -/
theorem Held.kcCopy {mem : Memory} {kstack : ℤ → Pte} {others : Set ℤ}
    (h : Held mem.frames kstack others) (hf : mem.frames.Ok)
    (hleft : numKstackPages ≤ framesLeft mem.frames) :
    Held (kcCopy mem kstack).1.frames (kcCopy mem kstack).2 others ∧
      Ran mem.frames (Yalnix.kcCopy mem kstack).1.frames numKstackPages := by
  have hcopy := h.copyKstack hf (pages 0 numKstackPages)
    (by rw [length_kstackPages]; exact hleft)
  rw [length_kstackPages] at hcopy
  exact hcopy

/-- **`KCCopy` that runs out of frames** leaves `ERROR` in the last entry. -/
theorem kcCopy_last {mem : Memory} {kstack : ℤ → Pte} (hf : mem.frames.Ok)
    (hle : mem.frames.filled ≤ mem.frames.size) (hleft : framesLeft mem.frames < numKstackPages) :
    (kcCopy mem kstack).2 (numKstackPages - 1) = ⟨true, errorCode, protRead ||| protWrite⟩ := by
  have hk := numKstackPages_pos
  have hsplit := pages_concat (show (0 : ℤ) ≤ numKstackPages - 1 by omega)
  rw [Int.sub_add_cancel] at hsplit
  have hlen := length_pages (show (0 : ℤ) ≤ numKstackPages - 1 by omega)
  show (copyKstack (pages 0 numKstackPages) mem kstack).2 (numKstackPages - 1) = _
  rw [hsplit]
  exact copyKstack_last hf hle (by omega)

/-! ## Loading -/

section Load

variable {mem : Memory} {u : UserPt} {uc : UserContext} {args : List (List Byte)} {env : LoadEnv}
  {li : LoadInfo} {free : FreeFrame} {pt : ℤ → Pte} {i : ℤ}

/-- After `destroy_usermem` nothing is mapped. -/
theorem destroyUsermem_invalid (free : FreeFrame)
    (hout : ∀ i, i < 0 ∨ numPages1 ≤ i → (u.pt i).valid = false) (i : ℤ) :
    ((destroyUsermem free u).2.pt i).valid = false := by
  have hpt : (destroyUsermem free u).2.pt = (unmapValid (pages 0 numPages1) free u.pt).2 := rfl
  rw [hpt]
  by_cases hi : i ∈ pages 0 numPages1
  · exact unmapValid_of_mem hi
  · rw [unmapValid_of_not_mem hi]
    exact hout i (by rw [mem_pages] at hi; omega)

omit [Paging] in
/-- Protections are not mappings. -/
theorem protectText_entry (is : List ℤ) :
    (protectText is pt i).valid = (pt i).valid ∧ (protectText is pt i).pfn = (pt i).pfn := by
  induction is generalizing pt with
  | nil => exact ⟨rfl, rfl⟩
  | cons j is ih =>
    rw [protectText, ih.1, ih.2]
    rcases eq_or_ne i j with rfl | hij
    · rw [Function.update_self]
      exact ⟨rfl, rfl⟩
    · rw [Function.update_of_ne hij]
      exact ⟨rfl, rfl⟩

omit [Paging] in
theorem protectText_of_not_mem {is : List ℤ} (hi : i ∉ is) : protectText is pt i = pt i := by
  induction is generalizing pt with
  | nil => rfl
  | cons j is ih =>
    rw [List.mem_cons, not_or] at hi
    rw [protectText, ih hi.2, Function.update_of_ne hi.1]

theorem storeArgs_frames (args : List (List Byte)) (cpp cp : ℤ) :
    (storeArgs pt args mem cpp cp).1.frames = mem.frames := by
  induction args generalizing mem cpp cp with
  | nil => rfl
  | cons arg args ih => rw [storeArgs, ih, storeBytes_frames, storeBytes_frames]

theorem buildArgs_frames : (buildArgs pt mem args).frames = mem.frames := by
  unfold buildArgs
  dsimp only
  rw [storeBytes_frames, storeBytes_frames, storeArgs_frames, storeBytes_frames,
    storeBytes_frames]

/-- The new stack has a page. -/
theorem stackNpg_pos (args : List (List Byte)) : 0 < stackNpg args := by
  have hpos := pageSize_pos
  have hsize : 0 ≤ argSize args := by
    unfold argSize
    refine List.sum_nonneg fun x hx => ?_
    obtain ⟨arg, -, rfl⟩ := List.mem_map.mp hx
    omega
  have hspace := postArgvNullSpace_nonneg
  have hframe := initialStackFrameSize_nonneg
  have hsp : argSp args < vmem1Limit := by
    unfold argSp argCpp argCp
    omega
  have hdown : downToPage (argSp args) = argSp args / pageSize * pageSize := rfl
  have hlt : argSp args / pageSize < limPage1 :=
    (Int.ediv_lt_iff_lt_mul hpos).mpr hsp
  have heq : vmem1Limit - downToPage (argSp args) =
      (limPage1 - argSp args / pageSize) * pageSize := by
    rw [hdown, vmem1Limit, Int.sub_mul]
  rw [stackNpg, heq, mul_pageSize_ediv]
  omega

/-- The pages a program needs. -/
def LoadInfo.pagesNeeded (li : LoadInfo) (args : List (List Byte)) : ℤ :=
  li.tNpg + li.dataNpg + stackNpg args

/-- The pages of the text, and of the data with the bss. -/
def LoadInfo.textPages (li : LoadInfo) : List ℤ := pages li.textPg1 (li.textPg1 + li.tNpg)

def LoadInfo.dataPages (li : LoadInfo) : List ℤ := pages li.dataPg1 (li.dataPg1 + li.dataNpg)

/-- The pages of the new stack. -/
def stackPages (args : List (List Byte)) : List ℤ := pages (maxPtLen - stackNpg args) maxPtLen

/-- The segments' pages, in the order they are mapped. -/
def LoadInfo.segments (li : LoadInfo) (args : List (List Byte)) : List ℤ :=
  li.textPages ++ (li.dataPages ++ (stackPages args).reverse)

/-- **An executable whose text is below its data**, in region 1. -/
structure LoadInfo.Ordered (li : LoadInfo) : Prop where
  text_nonneg : 0 ≤ li.textPg1
  tNpg_nonneg : 0 ≤ li.tNpg
  text_le : li.textPg1 + li.tNpg ≤ li.dataPg1
  dataNpg_nonneg : 0 ≤ li.dataNpg

theorem LoadInfo.WellFormed.ordered {li : LoadInfo} (h : li.WellFormed) : li.Ordered :=
  ⟨h.text_nonneg, h.tNpg_nonneg, h.text_le, h.data_pos.le⟩

theorem LoadInfo.mem_segments :
    i ∈ li.segments args ↔ i ∈ li.textPages ∨ i ∈ li.dataPages ∨ i ∈ stackPages args := by
  rw [LoadInfo.segments, List.mem_append, List.mem_append, List.mem_reverse]

theorem LoadInfo.Ordered.text_data (h : li.Ordered) (hi : i ∈ li.textPages) :
    i ∉ li.dataPages := by
  have hle := h.text_le
  intro hi'
  rw [LoadInfo.textPages, mem_pages] at hi
  rw [LoadInfo.dataPages, mem_pages] at hi'
  omega

/-- The check that leaves a page between heap and stack keeps the stack apart. -/
theorem LoadInfo.Ordered.stack_apart (h : li.Ordered)
    (hroom : stackNpg args + li.dataPg1 + li.dataNpg < maxPtLen) (hi : i ∈ stackPages args) :
    i ∉ li.textPages ∧ i ∉ li.dataPages := by
  have hle := h.text_le
  have hdata := h.dataNpg_nonneg
  rw [stackPages, mem_pages] at hi
  refine ⟨fun hi' => ?_, fun hi' => ?_⟩
  · rw [LoadInfo.textPages, mem_pages] at hi'
    omega
  · rw [LoadInfo.dataPages, mem_pages] at hi'
    omega

theorem LoadInfo.Ordered.nodup_segments (h : li.Ordered)
    (hroom : stackNpg args + li.dataPg1 + li.dataNpg < maxPtLen) : (li.segments args).Nodup := by
  refine nodup_pages.append (nodup_pages.append (List.nodup_reverse.mpr nodup_pages) ?_) ?_
  · intro i hi hi'
    exact (h.stack_apart hroom (List.mem_reverse.mp hi')).2 hi
  · intro i hi hi'
    rcases List.mem_append.mp hi' with hi' | hi'
    · exact h.text_data hi hi'
    · exact (h.stack_apart hroom (List.mem_reverse.mp hi')).1 hi

/-- The segments are pages of region 1. -/
theorem LoadInfo.Ordered.segments_region (h : li.Ordered)
    (hroom : stackNpg args + li.dataPg1 + li.dataNpg < maxPtLen) (hi : i ∈ li.segments args) :
    i ∈ pages 0 numPages1 := by
  have hlen : maxPtLen = numPages1 := maxPtLen_eq
  have hstack := stackNpg_pos args
  have htext := h.text_nonneg
  have htn := h.tNpg_nonneg
  have hle := h.text_le
  have hdata := h.dataNpg_nonneg
  rw [mem_pages]
  rcases LoadInfo.mem_segments.mp hi with hi | hi | hi
  · rw [LoadInfo.textPages, mem_pages] at hi
    omega
  · rw [LoadInfo.dataPages, mem_pages] at hi
    omega
  · rw [stackPages, mem_pages] at hi
    omega

theorem LoadInfo.Ordered.length_segments (h : li.Ordered) (args : List (List Byte)) :
    ((li.segments args).length : ℤ) = li.pagesNeeded args := by
  have htn := h.tNpg_nonneg
  have hdata := h.dataNpg_nonneg
  have hstack := stackNpg_pos args
  have htl := length_pages (show li.textPg1 ≤ li.textPg1 + li.tNpg by omega)
  have hdl := length_pages (show li.dataPg1 ≤ li.dataPg1 + li.dataNpg by omega)
  have hsl := length_pages (show maxPtLen - stackNpg args ≤ maxPtLen by omega)
  rw [LoadInfo.segments, LoadInfo.textPages, LoadInfo.dataPages, stackPages, List.length_append,
    List.length_append, List.length_reverse, LoadInfo.pagesNeeded]
  omega

/-- **The three loops are one**, over the segments' pages. -/
theorem mapSegments_eq : mapSegments free pt li (stackNpg args) =
    mapPages (protRead ||| protWrite) (li.segments args) free pt := by
  rw [LoadInfo.segments, mapPages_append, mapPages_append]
  rfl

/-- **`LoadProgram` that does not refuse** has gone on to its second half,
with room for a gap between the heap and the stack. -/
theorem loadProgram_committed (h : (loadProgram mem u uc args env).2 ≠ .error) :
    ∃ li, env.info = some li ∧ stackNpg args + li.dataPg1 + li.dataNpg < maxPtLen ∧
      loadProgram mem u uc args env =
        loadSegments mem u { uc with sp := argSp args } args env li := by
  unfold loadProgram at h ⊢
  by_cases hopens : env.opens = true
  · rw [if_neg (not_not.mpr hopens)] at h ⊢
    cases hinfo : env.info with
    | none =>
      rw [hinfo] at h
      exact absurd rfl h
    | some li =>
      rw [hinfo] at h
      dsimp only at h ⊢
      split at h
      · exact absurd rfl h
      · rename_i hentry
        split at h
        · exact absurd rfl h
        · rename_i hroom
          split at h
          · exact absurd rfl h
          · rename_i hmalloc
            rw [if_neg hentry, if_neg hroom, if_neg hmalloc]
            exact ⟨li, rfl, not_le.mp hroom, rfl⟩
  · rw [if_pos hopens] at h
    exact absurd rfl h

/-- **What `LoadProgram` leaves once it has found its frames**, whatever
then comes of the reads: the segments are mapped over `pt`. -/
structure Mapped (free : FreeFrame) (pt : ℤ → Pte) (li : LoadInfo) (args : List (List Byte))
    (l : Loaded) : Prop where
  frames_eq : l.mem.frames = (mapSegments free pt li (stackNpg args)).1
  size_eq : l.userpt.size = li.pagesNeeded args
  dataEnd_eq : l.userpt.dataEnd = (li.dataPg1 + li.dataNpg + basePage1 - 1) * pageSize
  brk_eq : l.userpt.brk = (li.dataPg1 + li.dataNpg + basePage1) * pageSize
  stackLow_eq : l.userpt.stackLow = (limPage1 - stackNpg args) * pageSize
  valid_eq : ∀ i,
    (l.userpt.pt i).valid = ((mapSegments free pt li (stackNpg args)).2 i).valid
  pfn_eq : ∀ i, (l.userpt.pt i).pfn = ((mapSegments free pt li (stackNpg args)).2 i).pfn

/-- **The second half of `LoadProgram`**: the old memory is released, and
where there are frames the new segments are mapped. -/
theorem loadSegments_cases {r : Loaded × LoadCode} (h : loadSegments mem u uc args env li = r) :
    (r.2 = .kill ∧ r.1.mem.frames = (destroyUsermem mem.frames u).1 ∧
      r.1.userpt = (destroyUsermem mem.frames u).2) ∨
    (r.2 ≠ .error ∧ li.pagesNeeded args ≤ framesLeft (destroyUsermem mem.frames u).1 ∧
      Mapped (destroyUsermem mem.frames u).1 (destroyUsermem mem.frames u).2.pt li args r.1) := by
  subst h
  unfold loadSegments
  dsimp only
  split
  · exact Or.inl ⟨rfl, rfl, rfl⟩
  · rename_i hleft
    refine Or.inr ?_
    have hneed : li.pagesNeeded args ≤ framesLeft (destroyUsermem mem.frames u).1 :=
      not_lt.mp hleft
    split
    · -- the text could not be read
      exact ⟨by simp, hneed, ⟨storeBytes_frames _, rfl, rfl, rfl, rfl, fun _ => rfl, fun _ => rfl⟩⟩
    · split
      · -- nor the data
        refine ⟨by simp, hneed, ⟨?_, rfl, rfl, rfl, rfl, fun _ => rfl, fun _ => rfl⟩⟩
        rw [storeBytes_frames, storeBytes_frames]
      · refine ⟨by simp, hneed, ⟨?_, rfl, rfl, rfl, rfl, fun i => ?_, fun i => ?_⟩⟩
        · rw [buildArgs_frames, storeBytes_frames, storeBytes_frames, storeBytes_frames]
        · exact (protectText_entry _).1
        · exact (protectText_entry _).2

/-- **It uses the pages of region 1 and those of the segments**, whatever
becomes of it. -/
theorem loadSegments_pt (hi : i ∉ pages 0 numPages1 ++ li.segments args) :
    (loadSegments mem u uc args env li).1.userpt.pt i = u.pt i := by
  rw [List.mem_append, not_or] at hi
  obtain ⟨hregion, hsegments⟩ := hi
  have hold : (destroyUsermem mem.frames u).2.pt i = u.pt i := unmapValid_of_not_mem hregion
  have hmapped : (mapSegments (destroyUsermem mem.frames u).1 (destroyUsermem mem.frames u).2.pt li
      (stackNpg args)).2 i = u.pt i := by
    rw [mapSegments_eq, mapPages_of_not_mem hsegments, hold]
  unfold loadSegments
  dsimp only
  split
  · exact hold
  · split
    · exact hmapped
    · split
      · exact hmapped
      · have htext : i ∉ li.textPages := fun hi => hsegments (LoadInfo.mem_segments.mpr (Or.inl hi))
        exact (protectText_of_not_mem htext).trans hmapped

/-- **`LoadProgram` that refuses** leaves memory as it was. -/
theorem loadProgram_error (h : (loadProgram mem u uc args env).2 = .error) :
    (loadProgram mem u uc args env).1.mem = mem ∧
      (loadProgram mem u uc args env).1.userpt = u := by
  unfold loadProgram at h ⊢
  split
  · exact ⟨rfl, rfl⟩
  · rename_i hopens
    rw [if_neg hopens] at h
    cases hinfo : env.info with
    | none => exact ⟨rfl, rfl⟩
    | some li =>
      rw [hinfo] at h
      dsimp only at h ⊢
      split
      · exact ⟨rfl, rfl⟩
      · rename_i hentry
        split
        · exact ⟨rfl, rfl⟩
        · rename_i hroom
          split
          · exact ⟨rfl, rfl⟩
          · -- past the last check there is no refusal
            rename_i hmalloc
            rw [if_neg hentry, if_neg hroom, if_neg hmalloc] at h
            rcases loadSegments_cases rfl with ⟨hkill, -⟩ | ⟨hne, -⟩
            · rw [hkill] at h
              cases h
            · exact absurd h hne

/-- The machine has as many frames after. -/
theorem loadProgram_size {r : Loaded × LoadCode} (h : loadProgram mem u uc args env = r) :
    r.1.mem.frames.size = mem.frames.size := by
  by_cases herr : r.2 = .error
  · subst h
    rw [(loadProgram_error herr).1]
  · obtain ⟨li, -, -, heq⟩ :=
      loadProgram_committed (show (loadProgram mem u uc args env).2 ≠ .error by rwa [h])
    have hfree : (destroyUsermem mem.frames u).1.size = mem.frames.size := unmapValid_size
    rcases loadSegments_cases (heq.symm.trans h) with ⟨-, hf, -⟩ | ⟨-, -, hmapped⟩
    · rw [hf, hfree]
    · rw [hmapped.frames_eq, ← hfree]
      rw [mapSegments_eq, mapPages_size]

/-- **Mapping a program's segments with frames to spare.** -/
theorem Held.mapSegments {others : Set ℤ} (h : Held free pt others) (hf : free.Ok)
    (hli : li.WellFormed) (hleft : li.pagesNeeded args ≤ framesLeft free) :
    Held (mapSegments free pt li (stackNpg args)).1 (mapSegments free pt li (stackNpg args)).2
        others ∧
      ∃ j, Ran free (Yalnix.mapSegments free pt li (stackNpg args)).1 j := by
  have hneed : ((li.segments args).length : ℤ) ≤ framesLeft free := by
    rw [hli.ordered.length_segments]
    exact hleft
  rw [mapSegments_eq]
  obtain ⟨hheld, hran⟩ := h.mapPages hf (protRead ||| protWrite) (li.segments args) hneed
  exact ⟨hheld, _, hran⟩

/-- In a table that had nothing, just the three segments are mapped. -/
theorem Mapped.valid_iff_mem {l : Loaded} (h : Mapped free pt li args l)
    (hpt : ∀ i, (pt i).valid = false) (i : ℤ) :
    (l.userpt.pt i).valid = true ↔ i ∈ li.segments args := by
  rw [h.valid_eq i, mapSegments_eq, mapPages_valid_iff, hpt i]
  simp

theorem Mapped.valid_iff {l : Loaded} (h : Mapped free pt li args l)
    (hpt : ∀ i, (pt i).valid = false) (i : ℤ) : (l.userpt.pt i).valid = true ↔
      (li.textPg1 ≤ i ∧ i < li.textPg1 + li.tNpg) ∨
      (li.dataPg1 ≤ i ∧ i < li.dataPg1 + li.dataNpg) ∨
      (numPages1 - stackNpg args ≤ i ∧ i < numPages1) := by
  have hlen : maxPtLen = numPages1 := maxPtLen_eq
  rw [h.valid_iff_mem hpt, LoadInfo.mem_segments, LoadInfo.textPages, LoadInfo.dataPages,
    stackPages, mem_pages, mem_pages, mem_pages, hlen]

/-- **The layout `LoadProgram` builds**, of a well-formed executable. -/
theorem Mapped.layout {l : Loaded} (h : Mapped free pt li args l) (hli : li.WellFormed)
    (hroom : stackNpg args + li.dataPg1 + li.dataNpg < maxPtLen)
    (hpt : ∀ i, (pt i).valid = false) :
    Layout l.userpt (li.dataPg1 + li.dataNpg - 1) (li.dataPg1 + li.dataNpg)
      (numPages1 - stackNpg args) := by
  have hstack := stackNpg_pos args
  have hlen : maxPtLen = numPages1 := maxPtLen_eq
  have htext := hli.text_nonneg
  have htn := hli.tNpg_nonneg
  have htd := hli.text_le
  have hdata := hli.data_pos
  have hvalid := h.valid_iff hpt
  have hinvalid : ∀ i, ¬ (l.userpt.pt i).valid = true → (l.userpt.pt i).valid = false := by simp
  -- text and data at the bottom, the stack at the top, and between them the room of `hroom`
  constructor
  · rw [h.dataEnd_eq]
    congr 1
    omega
  · rw [h.brk_eq]
    congr 1
    omega
  · rw [h.stackLow_eq]
    congr 1
    unfold numPages1
    omega
  · omega
  · omega
  · omega
  · omega
  · intro i hd hb
    exact (hvalid i).mpr (Or.inr (Or.inl (by omega)))
  · intro i hb hs
    refine hinvalid i fun hv => ?_
    have := (hvalid i).mp hv
    omega
  · intro i hs hn
    exact (hvalid i).mpr (Or.inr (Or.inr (by omega)))
  · intro i hi
    refine hinvalid i fun hv => ?_
    have := (hvalid i).mp hv
    omega

/-- **The page count `LoadProgram` sets** is the number of pages it maps. -/
theorem Mapped.count {l : Loaded} (h : Mapped free pt li args l) (hli : li.WellFormed)
    (hroom : stackNpg args + li.dataPg1 + li.dataNpg < maxPtLen)
    (hpt : ∀ i, (pt i).valid = false) : l.userpt.size = l.userpt.count := by
  have hvalid := h.valid_iff_mem hpt
  have hnone : validCount pt (pages 0 numPages1) = 0 := validCount_eq_zero fun i _ => hpt i
  have hlen := hli.ordered.length_segments args
  have hadd := validCount_add pt l.userpt.pt (pages 0 numPages1) (li.segments args)
    nodup_pages (hli.ordered.nodup_segments hroom)
    (fun j hj => hli.ordered.segments_region hroom hj)
    (fun j _ => hpt j) (fun j hj => (hvalid j).mpr hj)
    (fun j hj => by rw [hpt j, Bool.eq_false_iff]; exact fun hv => hj ((hvalid j).mp hv))
  rw [h.size_eq, UserPt.count]
  omega

end Load

end Yalnix
