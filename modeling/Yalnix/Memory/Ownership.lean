import Yalnix.Memory.PageTable
/-!
# Who holds which frame

`Held free t others` says that the valid entries of the table `t` hold
frames in use, each one of its own, and none of the frames `others`, which
are in use by somebody else. It is what the loops over a table keep, with
everybody else's frames left alone; `Held.localize` and `Held.glue` take it
from one table of the machine to all of them and back.
-/

namespace Yalnix

variable [Paging]

open Paging FreeFrame

variable {ι κ : Type*} {free free' : FreeFrame} {t t' : ι → Pte} {others : Set ℤ} {pfn : ℤ}

/-- **The valid entries of `t` hold frames of their own**, apart from
`others`. -/
structure Held (free : FreeFrame) (t : ι → Pte) (others : Set ℤ) : Prop where
  used : ∀ i, (t i).valid = true → (t i).pfn ∈ free.used
  apart : ∀ i, (t i).valid = true → (t i).pfn ∉ others
  inj : ∀ i j, (t i).valid = true → (t j).valid = true → (t i).pfn = (t j).pfn → i = j
  others_used : ∀ x ∈ others, x ∈ free.used

/-- **What a run of the allocator leaves**: it has `k` more frames in use,
is in order, and was never asked to free a frame that was free. -/
structure Ran (free free' : FreeFrame) (k : ℤ) : Prop where
  size_eq : free'.size = free.size
  filled_eq : free'.filled = free.filled + k
  strays_eq : free'.strays = free.strays
  ok : free'.Ok

theorem Ran.refl (h : free.Ok) : Ran free free 0 := ⟨rfl, (Int.add_zero _).symm, rfl, h⟩

theorem Ran.trans {free'' : FreeFrame} {j k : ℤ} (h : Ran free free' j) (h' : Ran free' free'' k) :
    Ran free free'' (j + k) where
  size_eq := h'.size_eq.trans h.size_eq
  filled_eq := by rw [h'.filled_eq, h.filled_eq, Int.add_assoc]
  strays_eq := h'.strays_eq.trans h.strays_eq
  ok := h'.ok

theorem FreeFrame.Got.ran (h : Got free free' pfn) : Ran free free' 1 :=
  ⟨h.size_eq, h.filled_eq, h.strays_eq, h.ok⟩

theorem FreeFrame.Vacated.ran (h : Vacated free free' pfn) : Ran free free' (-1) :=
  ⟨h.size_eq, h.filled_eq, h.strays_eq, h.ok⟩

/-- A table that maps nothing holds nothing. -/
theorem Held.of_invalid (h : ∀ i, (t i).valid = false) (ho : ∀ x ∈ others, x ∈ free.used) :
    Held free t others where
  used i hi := by simp [h i] at hi
  apart i hi := by simp [h i] at hi
  inj i _ hi := by simp [h i] at hi
  others_used := ho

/-- Invalidating entries leaves the rest as they were. -/
theorem Held.mono (h : Held free t others) (ht : ∀ i, (t' i).valid = true → t' i = t i) :
    Held free t' others where
  used i hi := by
    have heq := ht i hi
    rw [heq] at hi ⊢
    exact h.used i hi
  apart i hi := by
    have heq := ht i hi
    rw [heq] at hi ⊢
    exact h.apart i hi
  inj i j hi hj he := by
    have heqi := ht i hi
    have heqj := ht j hj
    rw [heqi] at hi he
    rw [heqj] at hj he
    exact h.inj i j hi hj he
  others_used := h.others_used

/-- Protections hold no frames. -/
theorem Held.congr (h : Held free t others)
    (ht : ∀ i, (t' i).valid = (t i).valid ∧ (t' i).pfn = (t i).pfn) : Held free t' others where
  used i hi := by
    rw [(ht i).1] at hi
    rw [(ht i).2]
    exact h.used i hi
  apart i hi := by
    rw [(ht i).1] at hi
    rw [(ht i).2]
    exact h.apart i hi
  inj i j hi hj he := by
    rw [(ht i).1] at hi
    rw [(ht j).1] at hj
    rw [(ht i).2, (ht j).2] at he
    exact h.inj i j hi hj he
  others_used := h.others_used

section Update

variable [DecidableEq ι]

/-- **An entry that gets a free frame holds it alone.** -/
theorem Held.insert (h : Held free t others) (hgot : Got free free' pfn) (i : ι) (prot : ℕ) :
    Held free' (Function.update t i ⟨true, pfn, prot⟩) others := by
  have hnew : ∀ j, (t j).valid = true → (t j).pfn ≠ pfn := fun j hj he =>
    hgot.fresh (he ▸ h.used j hj)
  refine ⟨fun j hj => ?_, fun j hj => ?_, fun j k hj hk he => ?_, fun x hx => ?_⟩
  · rw [hgot.used_eq, Finset.mem_insert]
    rcases eq_or_ne j i with rfl | hji
    · simp
    · rw [Function.update_of_ne hji] at hj ⊢
      exact Or.inr (h.used j hj)
  · rcases eq_or_ne j i with rfl | hji
    · rw [Function.update_self]
      exact fun ho => hgot.fresh (h.others_used pfn ho)
    · rw [Function.update_of_ne hji] at hj ⊢
      exact h.apart j hj
  · rcases eq_or_ne j i with rfl | hji
    · rcases eq_or_ne k j with rfl | hkj
      · rfl
      · rw [Function.update_self, Function.update_of_ne hkj] at he
        rw [Function.update_of_ne hkj] at hk
        exact absurd he.symm (hnew k hk)
    · rw [Function.update_of_ne hji] at hj he
      rcases eq_or_ne k i with rfl | hki
      · rw [Function.update_self] at he
        exact absurd he (hnew j hj)
      · rw [Function.update_of_ne hki] at hk he
        exact h.inj j k hj hk he
  · rw [hgot.used_eq, Finset.mem_insert]
    exact Or.inr (h.others_used x hx)

/-- **An entry that gives its frame back** leaves everyone else's in use. -/
theorem Held.erase (h : Held free t others) {i : ι} (hi : (t i).valid = true)
    (hvac : Vacated free free' (t i).pfn) (pte : Pte) (hpte : pte.valid = false) :
    Held free' (Function.update t i pte) others := by
  have hother : ∀ j, (Function.update t i pte j).valid = true →
      j ≠ i ∧ (t j).valid = true ∧ Function.update t i pte j = t j := by
    intro j hj
    rcases eq_or_ne j i with rfl | hji
    · rw [Function.update_self, hpte] at hj
      exact absurd hj (by simp)
    · rw [Function.update_of_ne hji] at hj ⊢
      exact ⟨hji, hj, rfl⟩
  refine ⟨fun j hj => ?_, fun j hj => ?_, fun j k hj hk he => ?_, fun x hx => ?_⟩
  · obtain ⟨hji, hj, heq⟩ := hother j hj
    rw [heq, hvac.used_eq, Finset.mem_erase]
    exact ⟨fun he => hji (h.inj j i hj hi he), h.used j hj⟩
  · obtain ⟨-, hj, heq⟩ := hother j hj
    rw [heq]
    exact h.apart j hj
  · obtain ⟨-, hj, heq⟩ := hother j hj
    obtain ⟨-, hk, heq'⟩ := hother k hk
    rw [heq, heq'] at he
    exact h.inj j k hj hk he
  · rw [hvac.used_eq, Finset.mem_erase]
    exact ⟨fun he => h.apart i hi (he ▸ hx), h.others_used x hx⟩

end Update

/-! ## One table among many -/

/-- The frames held by the entries of `t` outside the part `e` picks. -/
def heldOutside (t : ι → Pte) (e : κ → ι) : Set ℤ :=
  {x | ∃ i, i ∉ Set.range e ∧ (t i).valid = true ∧ (t i).pfn = x}

/-- **From the whole to a part**: the frames of the rest are the others. -/
theorem Held.localize (h : Held free t ∅) {e : κ → ι} (he : Function.Injective e) :
    Held free (fun k => t (e k)) (heldOutside t e) where
  used k hk := h.used (e k) hk
  apart k hk := by
    rintro ⟨i, hi, hv, heq⟩
    exact hi (h.inj i (e k) hv hk heq ▸ Set.mem_range_self k)
  inj j k hj hk heq := he (h.inj (e j) (e k) hj hk heq)
  others_used x hx := by
    obtain ⟨i, -, hv, rfl⟩ := hx
    exact h.used i hv

/-- **From a part to the whole**: where the part's table has been worked on
with the rest's frames left alone, the whole is in order again, less
whatever was dropped. -/
theorem Held.glue (h : Held free t ∅) {e : κ → ι} {part : κ → Pte}
    (hpart : Held free' part (heldOutside t e))
    (hin : ∀ k, (t' (e k)).valid = true → t' (e k) = part k)
    (hout : ∀ i, i ∉ Set.range e → (t' i).valid = true → t' i = t i) : Held free' t' ∅ := by
  have hrest : ∀ i, i ∉ Set.range e → (t' i).valid = true → (t' i).pfn ∈ heldOutside t e := by
    intro i hi hv
    have hsame := hout i hi hv
    rw [hsame] at hv ⊢
    exact ⟨i, hi, hv, rfl⟩
  refine ⟨fun i hv => ?_, fun _ _ => Set.notMem_empty _, fun i j hi hj heq => ?_,
    fun x hx => absurd hx (Set.notMem_empty x)⟩
  · by_cases hi : i ∈ Set.range e
    · obtain ⟨k, rfl⟩ := hi
      have hk := hin k hv
      rw [hk] at hv ⊢
      exact hpart.used k hv
    · exact hpart.others_used _ (hrest i hi hv)
  -- two entries of one frame: both inside the part, both outside, or one of each,
  -- which `apart` excludes
  · by_cases hie : i ∈ Set.range e
    · obtain ⟨k, rfl⟩ := hie
      have hk := hin k hi
      by_cases hje : j ∈ Set.range e
      · obtain ⟨l, rfl⟩ := hje
        have hl := hin l hj
        rw [hk] at hi heq
        rw [hl] at hj heq
        rw [hpart.inj k l hi hj heq]
      · have hmem := hrest j hje hj
        rw [← heq, hk] at hmem
        rw [hk] at hi
        exact absurd hmem (hpart.apart k hi)
    · by_cases hje : j ∈ Set.range e
      · obtain ⟨l, rfl⟩ := hje
        have hmem := hrest i hie hi
        have hl := hin l hj
        rw [heq, hl] at hmem
        rw [hl] at hj
        exact absurd hmem (hpart.apart l hj)
      · have hsi := hout i hie hi
        have hsj := hout j hje hj
        rw [hsi] at hi heq
        rw [hsj] at hj heq
        exact h.inj i j hi hj heq

/-! ## The loops over one table -/

section Loops

variable {pt : ℤ → Pte} {prot : ℕ} {is : List ℤ} {i j : ℤ}

theorem mapPage_eq : mapPage prot free pt i =
    ((getFrame free 0 true).1,
      Function.update pt i ⟨true, (getFrame free 0 true).2, prot⟩) := rfl

theorem mapPages_cons : mapPages prot (i :: is) free pt =
    mapPages prot is (mapPage prot free pt i).1 (mapPage prot free pt i).2 := rfl

theorem unmapPages_cons : unmapPages (i :: is) free pt =
    unmapPages is (unmapPage free pt i).1 (unmapPage free pt i).2 := rfl

theorem unmapValid_cons : unmapValid (i :: is) free pt =
    if (pt i).valid then unmapValid is (unmapPage free pt i).1 (unmapPage free pt i).2
    else unmapValid is free pt := by
  by_cases hv : (pt i).valid = true
  · simp [unmapValid, hv]
  · simp [unmapValid, hv]

/-- **Mapping pages with frames to spare.** -/
theorem Held.mapPages (h : Held free pt others) (hf : free.Ok) (prot : ℕ) (is : List ℤ)
    (hleft : (is.length : ℤ) ≤ framesLeft free) :
    Held (mapPages prot is free pt).1 (mapPages prot is free pt).2 others ∧
      Ran free (Yalnix.mapPages prot is free pt).1 is.length := by
  induction is generalizing free pt with
  | nil => exact ⟨h, Ran.refl hf⟩
  | cons i is ih =>
    unfold framesLeft at hleft
    rw [List.length_cons] at hleft
    have hgot : Got free (getFrame free 0 true).1 (getFrame free 0 true).2 :=
      hf.getFrame_auto (by push_cast at hleft; omega)
    obtain ⟨hheld, hran⟩ := ih (h.insert hgot i prot) hgot.ok (by
      unfold framesLeft
      rw [hgot.size_eq, hgot.filled_eq]
      push_cast at hleft
      omega)
    refine ⟨hheld, ?_⟩
    have := hgot.ran.trans hran
    rwa [List.length_cons, Nat.cast_add, Nat.cast_one, Int.add_comm]

/-- What mapping does to the entries, frames or none. -/
theorem mapPages_of_not_mem (hj : j ∉ is) : (mapPages prot is free pt).2 j = pt j := by
  induction is generalizing free pt with
  | nil => rfl
  | cons i is ih =>
    rw [List.mem_cons, not_or] at hj
    rw [mapPages_cons, ih hj.2, mapPage_eq]
    exact Function.update_of_ne hj.1 _ _

theorem mapPages_of_mem (hj : j ∈ is) :
    ((mapPages prot is free pt).2 j).valid = true ∧
      ((mapPages prot is free pt).2 j).prot = prot := by
  induction is generalizing free pt with
  | nil => cases hj
  | cons i is ih =>
    rw [mapPages_cons]
    by_cases hjs : j ∈ is
    · exact ih hjs
    · obtain rfl := (List.mem_cons.mp hj).resolve_right hjs
      rw [mapPages_of_not_mem hjs, mapPage_eq]
      dsimp only
      rw [Function.update_self]
      exact ⟨rfl, rfl⟩

/-- **Unmapping pages that are mapped.** -/
theorem Held.unmapPages (h : Held free pt others) (hf : free.Ok) (is : List ℤ) (hnd : is.Nodup)
    (hvalid : ∀ i ∈ is, (pt i).valid = true) :
    Held (unmapPages is free pt).1 (unmapPages is free pt).2 others ∧
      Ran free (Yalnix.unmapPages is free pt).1 (-is.length) := by
  induction is generalizing free pt with
  | nil => exact ⟨h, Ran.refl hf⟩
  | cons i is ih =>
    obtain ⟨hi, hnd⟩ := List.nodup_cons.mp hnd
    have hv := hvalid i List.mem_cons_self
    have hvac := hf.vacateFrame (h.used i hv)
    have herased := h.erase hv hvac (setPte (pt i) false 0 0) rfl
    obtain ⟨hheld, hran⟩ := ih herased hvac.ok hnd (fun j hj => by
      have hji : j ≠ i := fun he => hi (he ▸ hj)
      rw [Function.update_of_ne hji]
      exact hvalid j (List.mem_cons_of_mem _ hj))
    refine ⟨hheld, ?_⟩
    have := hvac.ran.trans hran
    rw [List.length_cons, Nat.cast_add, Nat.cast_one]
    rwa [Int.neg_add, Int.add_comm]

theorem unmapPages_of_not_mem (hj : j ∉ is) : (unmapPages is free pt).2 j = pt j := by
  induction is generalizing free pt with
  | nil => rfl
  | cons i is ih =>
    rw [List.mem_cons, not_or] at hj
    rw [unmapPages_cons, ih hj.2]
    exact Function.update_of_ne hj.1 _ _

theorem unmapPages_of_mem (hj : j ∈ is) : ((unmapPages is free pt).2 j).valid = false := by
  induction is generalizing free pt with
  | nil => cases hj
  | cons i is ih =>
    rw [unmapPages_cons]
    by_cases hjs : j ∈ is
    · exact ih hjs
    · obtain rfl := (List.mem_cons.mp hj).resolve_right hjs
      rw [unmapPages_of_not_mem hjs, unmapPage]
      dsimp only
      rw [Function.update_self]
      rfl

/-- **Unmapping whatever is mapped.** -/
theorem Held.unmapValid (h : Held free pt others) (hf : free.Ok) (is : List ℤ) :
    Held (unmapValid is free pt).1 (unmapValid is free pt).2 others ∧
      ∃ k, Ran free (Yalnix.unmapValid is free pt).1 k := by
  induction is generalizing free pt with
  | nil => exact ⟨h, 0, Ran.refl hf⟩
  | cons i is ih =>
    rw [unmapValid_cons]
    by_cases hv : (pt i).valid = true
    · have hvac := hf.vacateFrame (h.used i hv)
      obtain ⟨hheld, k, hran⟩ := ih (h.erase hv hvac (setPte (pt i) false 0 0) rfl) hvac.ok
      rw [if_pos hv]
      exact ⟨hheld, _, hvac.ran.trans hran⟩
    · rw [if_neg hv]
      exact ih h hf

/-- Afterwards the pages of the list are invalid, and the others as they
were. -/
theorem unmapValid_of_not_mem (hj : j ∉ is) : (unmapValid is free pt).2 j = pt j := by
  induction is generalizing free pt with
  | nil => rfl
  | cons i is ih =>
    rw [List.mem_cons, not_or] at hj
    rw [unmapValid_cons]
    split
    · rw [ih hj.2]
      exact Function.update_of_ne hj.1 _ _
    · exact ih hj.2

theorem unmapValid_of_invalid (hj : (pt j).valid = false) :
    ((unmapValid is free pt).2 j).valid = false := by
  induction is generalizing free pt with
  | nil => exact hj
  | cons i is ih =>
    rw [unmapValid_cons]
    split
    · refine ih ?_
      rcases eq_or_ne j i with rfl | hji
      · rw [unmapPage]
        dsimp only
        rw [Function.update_self]
        rfl
      · rw [unmapPage]
        dsimp only
        rw [Function.update_of_ne hji]
        exact hj
    · exact ih hj

theorem unmapValid_of_mem (hj : j ∈ is) : ((unmapValid is free pt).2 j).valid = false := by
  induction is generalizing free pt with
  | nil => cases hj
  | cons i is ih =>
    rw [unmapValid_cons]
    by_cases hjs : j ∈ is
    · split
      · exact ih hjs
      · exact ih hjs
    · obtain rfl := (List.mem_cons.mp hj).resolve_right hjs
      split
      · refine unmapValid_of_invalid ?_
        rw [unmapPage]
        dsimp only
        rw [Function.update_self]
        rfl
      · rename_i hv
        exact unmapValid_of_invalid (by simpa using hv)

/-! ## The loops that copy -/

/-- How many of the pages of a list a table maps. -/
def validCount (pt : ℤ → Pte) (is : List ℤ) : ℕ := is.countP fun i => (pt i).valid

omit [Paging] in
theorem validCount_cons_pos (h : (pt i).valid = true) :
    (validCount pt (i :: is) : ℤ) = 1 + validCount pt is := by
  rw [validCount, List.countP_cons, if_pos h, Nat.cast_add, Nat.cast_one, Int.add_comm]
  rfl

omit [Paging] in
theorem validCount_cons_neg (h : ¬ (pt i).valid = true) :
    (validCount pt (i :: is) : ℤ) = validCount pt is := by
  rw [validCount, List.countP_cons, if_neg h, Nat.add_zero]
  rfl

variable {mem : Memory} {origin dst kstack : ℤ → Pte}

/-- The frame a turn of a copying loop takes. -/
def copyPfn (mem : Memory) : ℤ := (getFrame mem.frames 0 true).2

theorem copyPage_frames (pte : Pte) :
    (copyPage mem pte).1.frames = (getFrame mem.frames 0 true).1 := rfl

theorem copyValid_cons : copyValid origin (i :: is) mem dst =
    if (origin i).valid then
      copyValid origin is (copyPage mem (origin i)).1
        (Function.update dst i ⟨true, copyPfn mem, (origin i).prot⟩)
    else copyValid origin is mem dst := rfl

theorem copyKstack_cons : copyKstack (i :: is) mem kstack =
    copyKstack is (copyPage mem (mem.kernelStack i)).1
      (Function.update kstack i ⟨true, copyPfn mem, protRead ||| protWrite⟩) := rfl

/-- **Copying with frames to spare.** -/
theorem Held.copyValid (h : Held mem.frames dst others) (hf : mem.frames.Ok)
    (hleft : (validCount origin is : ℤ) ≤ framesLeft mem.frames) :
    Held (copyValid origin is mem dst).1.frames (copyValid origin is mem dst).2 others ∧
      Ran mem.frames (Yalnix.copyValid origin is mem dst).1.frames
        (validCount origin is) := by
  induction is generalizing mem dst with
  | nil => exact ⟨h, Ran.refl hf⟩
  | cons i is ih =>
    rw [copyValid_cons]
    by_cases hv : (origin i).valid = true
    · rw [validCount_cons_pos hv] at hleft ⊢
      unfold framesLeft at hleft
      have hgot : Got mem.frames (getFrame mem.frames 0 true).1 (copyPfn mem) :=
        hf.getFrame_auto (by omega)
      obtain ⟨hheld, hran⟩ := @ih (copyPage mem (origin i)).1 _
        (h.insert hgot i (origin i).prot) hgot.ok (by
          unfold framesLeft
          rw [copyPage_frames, hgot.size_eq, hgot.filled_eq]
          omega)
      rw [if_pos hv]
      exact ⟨hheld, hgot.ran.trans hran⟩
    · rw [validCount_cons_neg hv] at hleft ⊢
      rw [if_neg hv]
      exact ih h hf hleft

/-- **Copying a kernel stack with frames to spare.** -/
theorem Held.copyKstack (h : Held mem.frames kstack others) (hf : mem.frames.Ok)
    (is : List ℤ) (hleft : (is.length : ℤ) ≤ framesLeft mem.frames) :
    Held (copyKstack is mem kstack).1.frames (copyKstack is mem kstack).2 others ∧
      Ran mem.frames (Yalnix.copyKstack is mem kstack).1.frames is.length := by
  induction is generalizing mem kstack with
  | nil => exact ⟨h, Ran.refl hf⟩
  | cons i is ih =>
    rw [List.length_cons] at hleft ⊢
    unfold framesLeft at hleft
    have hgot : Got mem.frames (getFrame mem.frames 0 true).1 (copyPfn mem) :=
      hf.getFrame_auto (by push_cast at hleft; omega)
    obtain ⟨hheld, hran⟩ := @ih (copyPage mem (mem.kernelStack i)).1 _
      (h.insert hgot i (protRead ||| protWrite)) hgot.ok (by
        unfold framesLeft
        rw [copyPage_frames, hgot.size_eq, hgot.filled_eq]
        push_cast at hleft
        omega)
    rw [copyKstack_cons]
    refine ⟨hheld, ?_⟩
    have := hgot.ran.trans hran
    rwa [Nat.cast_add, Nat.cast_one, Int.add_comm]

/-- What copying does to the entries, frames or none. -/
theorem copyValid_of_not_mem (hj : j ∉ is) : (copyValid origin is mem dst).2 j = dst j := by
  induction is generalizing mem dst with
  | nil => rfl
  | cons i is ih =>
    rw [List.mem_cons, not_or] at hj
    rw [copyValid_cons]
    split
    · rw [ih hj.2, Function.update_of_ne hj.1]
    · exact ih hj.2

theorem copyValid_valid (hdst : ∀ i ∈ is, (dst i).valid = false) (hnd : is.Nodup) (hj : j ∈ is) :
    ((copyValid origin is mem dst).2 j).valid = (origin j).valid ∧
      ((origin j).valid = true → ((copyValid origin is mem dst).2 j).prot = (origin j).prot) := by
  induction is generalizing mem dst with
  | nil => cases hj
  | cons i is ih =>
    obtain ⟨hi, hnd⟩ := List.nodup_cons.mp hnd
    have hrest : ∀ {dst' : ℤ → Pte}, (∀ k, k ≠ i → dst' k = dst k) →
        ∀ k ∈ is, (dst' k).valid = false := by
      intro dst' hdst' k hk
      rw [hdst' k fun he => hi (he ▸ hk)]
      exact hdst k (List.mem_cons_of_mem _ hk)
    rw [copyValid_cons]
    rcases List.mem_cons.mp hj with rfl | hjs
    · by_cases hv : (origin j).valid = true
      · rw [if_pos hv, copyValid_of_not_mem hi, Function.update_self]
        exact ⟨hv.symm, fun _ => rfl⟩
      · rw [if_neg hv, copyValid_of_not_mem hi, hdst j List.mem_cons_self]
        exact ⟨by simpa using hv, fun h => absurd h hv⟩
    · split
      · exact ih (hrest fun k hk => Function.update_of_ne hk _ _) hnd hjs
      · exact ih (hrest fun _ _ => rfl) hnd hjs

theorem copyKstack_of_not_mem (hj : j ∉ is) : (copyKstack is mem kstack).2 j = kstack j := by
  induction is generalizing mem kstack with
  | nil => rfl
  | cons i is ih =>
    rw [List.mem_cons, not_or] at hj
    rw [copyKstack_cons, ih hj.2, Function.update_of_ne hj.1]

/-! ## Running out -/

/-- **What asking for `k` frames leaves, whether they are there or not.** -/
structure Asked (free free' : FreeFrame) (k : ℤ) : Prop where
  size_eq : free'.size = free.size
  filled_eq : free'.filled = min free.size (free.filled + k)
  ok : free'.Ok

theorem Asked.refl (h : free.Ok) (hle : free.filled ≤ free.size) : Asked free free 0 :=
  ⟨rfl, by omega, h⟩

theorem Asked.trans {free'' : FreeFrame} {j k : ℤ} (h : Asked free free' j)
    (h' : Asked free' free'' k) (hk : 0 ≤ k) : Asked free free'' (j + k) where
  size_eq := h'.size_eq.trans h.size_eq
  filled_eq := by
    have h1 := h.filled_eq
    have h2 := h'.filled_eq
    rw [h.size_eq] at h2
    omega
  ok := h'.ok

theorem asked_getFrame (hf : free.Ok) (hle : free.filled ≤ free.size) :
    Asked free (getFrame free 0 true).1 1 := by
  rcases lt_or_ge free.filled free.size with hlt | hge
  · have hgot : Got free (getFrame free 0 true).1 (getFrame free 0 true).2 := hf.getFrame_auto hlt
    have := hgot.filled_eq
    exact ⟨hgot.size_eq, by omega, hgot.ok⟩
  · rw [getFrame_none true hge]
    refine ⟨rfl, ?_, hf⟩
    dsimp only
    omega

theorem asked_copyValid (hf : mem.frames.Ok) (hle : mem.frames.filled ≤ mem.frames.size) :
    Asked mem.frames (copyValid origin is mem dst).1.frames
      (validCount origin is) := by
  induction is generalizing mem dst with
  | nil => exact Asked.refl hf hle
  | cons i is ih =>
    rw [copyValid_cons]
    by_cases hv : (origin i).valid = true
    · have hone := asked_getFrame hf hle
      have hrest := @ih (copyPage mem (origin i)).1
        (Function.update dst i ⟨true, copyPfn mem, (origin i).prot⟩) hone.ok (by
          have h1 := hone.size_eq
          have h2 := hone.filled_eq
          rw [copyPage_frames]
          omega)
      rw [if_pos hv, validCount_cons_pos hv]
      exact hone.trans hrest (by omega)
    · rw [if_neg hv, validCount_cons_neg hv]
      exact ih hf hle

/-- **A copy of a kernel stack that runs out** stores `ERROR` for its last
page, and marks it valid. -/
theorem copyKstack_last (hf : mem.frames.Ok) (hle : mem.frames.filled ≤ mem.frames.size)
    (hleft : framesLeft mem.frames ≤ is.length) :
    (copyKstack (is ++ [j]) mem kstack).2 j = ⟨true, errorCode, protRead ||| protWrite⟩ := by
  induction is generalizing mem kstack with
  | nil =>
    have hpfn : copyPfn mem = errorCode := by
      unfold framesLeft at hleft
      rw [List.length_nil] at hleft
      rw [copyPfn, getFrame_none true (by omega)]
    rw [List.nil_append, copyKstack_cons, copyKstack_of_not_mem List.not_mem_nil,
      Function.update_self, hpfn]
  | cons i is ih =>
    have hone := asked_getFrame hf hle
    rw [List.cons_append, copyKstack_cons]
    refine @ih (copyPage mem (mem.kernelStack i)).1 _ hone.ok ?_ ?_
    · have h1 := hone.size_eq
      have h2 := hone.filled_eq
      rw [copyPage_frames]
      omega
    · have h1 := hone.size_eq
      have h2 := hone.filled_eq
      unfold framesLeft at hleft ⊢
      rw [List.length_cons] at hleft
      rw [copyPage_frames]
      push_cast at hleft
      omega

end Loops

end Yalnix
