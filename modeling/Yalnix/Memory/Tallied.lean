import Mathlib.Data.Set.Card
import Yalnix.Memory.Image
/-!
# Where the frames went

`Tallied free t others` is `Held` with its converse: a frame that is in
use is held by a valid entry of the table `t`, or is one of `others`, and
never both. A loop loses it where it stores over a valid entry, or drops one
and keeps its frame. What the loops of the kernel are given, they do not.
-/

namespace Yalnix

variable [Paging]

open Paging FreeFrame

variable {ι κ : Type*} {free free' : FreeFrame} {t t' : ι → Pte} {others own : Set ℤ} {pfn : ℤ}

/-- **Every frame in use is held by one entry of `t`**, or is one of
`others`. -/
structure Tallied (free : FreeFrame) (t : ι → Pte) (others : Set ℤ) : Prop
    extends Held free t others where
  covers : ∀ x ∈ free.used, x ∈ others ∨ ∃ i, (t i).valid = true ∧ (t i).pfn = x

/-- Protections hold no frames. -/
theorem Tallied.congr (h : Tallied free t others)
    (ht : ∀ i, (t' i).valid = (t i).valid ∧ (t' i).pfn = (t i).pfn) :
    Tallied free t' others := by
  refine ⟨h.toHeld.congr ht, fun x hx => ?_⟩
  rcases h.covers x hx with ho | ⟨i, hi, rfl⟩
  · exact Or.inl ho
  · exact Or.inr ⟨i, (ht i).1.trans hi, (ht i).2⟩

/-- **The allocator's count**: one for each of the others, and one for each
valid entry. -/
theorem Tallied.filled_eq (h : Tallied free t others) (hf : free.Ok) :
    free.filled = others.ncard + {i | (t i).valid = true}.ncard := by
  have hsplit : (free.used : Set ℤ) =
      others ∪ (fun i => (t i).pfn) '' {i | (t i).valid = true} := by
    ext x
    constructor
    · intro hx
      rcases h.covers x hx with ho | ⟨i, hi, rfl⟩
      · exact Or.inl ho
      · exact Or.inr ⟨i, hi, rfl⟩
    · rintro (ho | ⟨i, hi, rfl⟩)
      · exact h.others_used x ho
      · exact h.used i hi
  have hdisjoint : Disjoint others ((fun i => (t i).pfn) '' {i | (t i).valid = true}) := by
    rw [Set.disjoint_left]
    rintro _ ho ⟨i, hi, rfl⟩
    exact h.apart i hi ho
  have hfin : (others ∪ (fun i => (t i).pfn) '' {i | (t i).valid = true}).Finite :=
    hsplit ▸ free.used.finite_toSet
  have hinj : Set.InjOn (fun i => (t i).pfn) {i | (t i).valid = true} :=
    fun i hi j hj heq => h.inj i j hi hj heq
  rw [hf.filled_eq, ← Set.ncard_coe_finset, hsplit, Set.ncard_union_eq hdisjoint
    (hfin.subset Set.subset_union_left) (hfin.subset Set.subset_union_right), hinj.ncard_image,
    Nat.cast_add]

section Update

variable [DecidableEq ι]

/-- **A frame that is taken goes to an entry that had none.** -/
theorem Tallied.insert (h : Tallied free t others) (hgot : Got free free' pfn) {i : ι}
    (hi : (t i).valid = false) (prot : ℕ) :
    Tallied free' (Function.update t i ⟨true, pfn, prot⟩) others := by
  refine ⟨h.toHeld.insert hgot i prot, fun x hx => ?_⟩
  rw [hgot.used_eq, Finset.mem_insert] at hx
  rcases hx with rfl | hx
  · refine Or.inr ⟨i, ?_⟩
    rw [Function.update_self]
    exact ⟨rfl, rfl⟩
  · rcases h.covers x hx with ho | ⟨j, hj, rfl⟩
    · exact Or.inl ho
    · have hji : j ≠ i := by
        rintro rfl
        rw [hi] at hj
        cases hj
      refine Or.inr ⟨j, ?_⟩
      rw [Function.update_of_ne hji]
      exact ⟨hj, rfl⟩

/-- **An entry that is dropped gives its frame back.** -/
theorem Tallied.erase (h : Tallied free t others) {i : ι} (hi : (t i).valid = true)
    (hvac : Vacated free free' (t i).pfn) (pte : Pte) (hpte : pte.valid = false) :
    Tallied free' (Function.update t i pte) others := by
  refine ⟨h.toHeld.erase hi hvac pte hpte, fun x hx => ?_⟩
  rw [hvac.used_eq, Finset.mem_erase] at hx
  rcases h.covers x hx.2 with ho | ⟨j, hj, rfl⟩
  · exact Or.inl ho
  · have hji : j ≠ i := by
      rintro rfl
      exact hx.1 rfl
    refine Or.inr ⟨j, ?_⟩
    rw [Function.update_of_ne hji]
    exact ⟨hj, rfl⟩

end Update

/-! ## One table among many -/

/-- **From the whole to a part.** -/
theorem Tallied.localize (h : Tallied free t own) {e : κ → ι} (he : Function.Injective e) :
    Tallied free (fun k => t (e k)) (heldOutside t e ∪ own) := by
  refine ⟨⟨fun k => h.used (e k), fun k hk => ?_, fun j k hj hk heq => he (h.inj _ _ hj hk heq),
    fun x hx => ?_⟩, fun x hx => ?_⟩
  · rintro (⟨i, hi, hv, heq⟩ | ho)
    · exact hi (h.inj i (e k) hv hk heq ▸ Set.mem_range_self k)
    · exact h.apart (e k) hk ho
  · rcases hx with ⟨i, -, hv, rfl⟩ | ho
    · exact h.used i hv
    · exact h.others_used x ho
  · rcases h.covers x hx with ho | ⟨i, hi, rfl⟩
    · exact Or.inl (Or.inr ho)
    · by_cases hmem : i ∈ Set.range e
      · obtain ⟨k, rfl⟩ := hmem
        exact Or.inr ⟨k, hi, rfl⟩
      · exact Or.inl (Or.inl ⟨i, hmem, hi, rfl⟩)

/-- **From a part to the whole**, where nothing of the part is dropped, nor
of the rest. -/
theorem Tallied.glue (h : Tallied free t own) {e : κ → ι} {part : κ → Pte}
    (hpart : Tallied free' part (heldOutside t e ∪ own))
    (hin : ∀ k, (t' (e k)).valid = true ∨ (part k).valid = true → t' (e k) = part k)
    (hout : ∀ i, i ∉ Set.range e → (t' i).valid = true ∨ (t i).valid = true → t' i = t i) :
    Tallied free' t' own := by
  -- an entry of the whole is one of the part, or of the rest
  have hcases : ∀ i, (t' i).valid = true →
      (∃ k, e k = i ∧ (part k).valid = true ∧ (part k).pfn = (t' i).pfn) ∨
      (i ∉ Set.range e ∧ (t i).valid = true ∧ (t i).pfn = (t' i).pfn) := by
    intro i hi
    by_cases hmem : i ∈ Set.range e
    · obtain ⟨k, rfl⟩ := hmem
      have hk := hin k (Or.inl hi)
      rw [hk] at hi ⊢
      exact Or.inl ⟨k, rfl, hi, rfl⟩
    · have hsame := hout i hmem (Or.inl hi)
      rw [hsame] at hi ⊢
      exact Or.inr ⟨hmem, hi, rfl⟩
  refine ⟨⟨fun i hi => ?_, fun i hi => ?_, fun i j hi hj heq => ?_, fun x hx => ?_⟩,
    fun x hx => ?_⟩
  · rcases hcases i hi with ⟨k, -, hk, heq⟩ | ⟨hmem, hv, heq⟩
    · exact heq ▸ hpart.used k hk
    · exact hpart.others_used _ (Or.inl ⟨i, hmem, hv, heq⟩)
  · rcases hcases i hi with ⟨k, -, hk, heq⟩ | ⟨-, hv, heq⟩
    · exact heq ▸ fun ho => hpart.apart k hk (Or.inr ho)
    · exact heq ▸ h.apart i hv
  · rcases hcases i hi with ⟨k, rfl, hk, hki⟩ | ⟨hmem, hv, hvi⟩
    · rcases hcases j hj with ⟨l, rfl, hl, hlj⟩ | ⟨hmem, hv, hvj⟩
      · rw [hpart.inj k l hk hl (hki.trans (heq.trans hlj.symm))]
      · exact absurd (Or.inl ⟨j, hmem, hv, hvj.trans (heq.symm.trans hki.symm)⟩) (hpart.apart k hk)
    · rcases hcases j hj with ⟨l, rfl, hl, hlj⟩ | ⟨-, hw, hwj⟩
      · exact absurd (Or.inl ⟨i, hmem, hv, hvi.trans (heq.trans hlj.symm)⟩) (hpart.apart l hl)
      · exact h.inj i j hv hw (hvi.trans (heq.trans hwj.symm))
  · exact hpart.others_used x (Or.inr hx)
  · rcases hpart.covers x hx with (⟨i, hi, hv, rfl⟩ | ho) | ⟨k, hk, rfl⟩
    · refine Or.inr ⟨i, ?_⟩
      rw [hout i hi (Or.inr hv)]
      exact ⟨hv, rfl⟩
    · exact Or.inl ho
    · refine Or.inr ⟨e k, ?_⟩
      rw [hin k (Or.inr hk)]
      exact ⟨hk, rfl⟩

/-! ## The loops over one table -/

section Loops

/-- One frame fewer is left. -/
theorem FreeFrame.Got.left (h : Got free free' pfn) : framesLeft free' = framesLeft free - 1 := by
  unfold framesLeft
  rw [h.size_eq, h.filled_eq]
  omega

variable {pt : ℤ → Pte} {prot : ℕ} {is : List ℤ} {i j : ℤ} {mem : Memory}
  {origin dst kstack : ℤ → Pte}

omit [Paging] in
/-- One entry fewer to go. -/
theorem invalid_update {pte : Pte} (hnd : (i :: is).Nodup)
    (hinv : ∀ j ∈ i :: is, (pt j).valid = false) :
    ∀ j ∈ is, (Function.update pt i pte j).valid = false := by
  intro j hj
  have hji : j ≠ i := by
    rintro rfl
    exact (List.nodup_cons.mp hnd).1 hj
  rw [Function.update_of_ne hji]
  exact hinv j (List.mem_cons_of_mem _ hj)

/-- **Mapping pages that were not mapped.** -/
theorem Tallied.mapPages (h : Tallied free pt others) (hf : free.Ok) (prot : ℕ)
    (hleft : (is.length : ℤ) ≤ framesLeft free) (hnd : is.Nodup)
    (hinv : ∀ i ∈ is, (pt i).valid = false) :
    Tallied (mapPages prot is free pt).1 (mapPages prot is free pt).2 others := by
  induction is generalizing free pt with
  | nil => exact h
  | cons i is ih =>
    rw [List.length_cons, Nat.cast_add, Nat.cast_one] at hleft
    have hgot : Got free (getFrame free 0 true).1 (getFrame free 0 true).2 :=
      hf.getFrame_auto (by unfold framesLeft at hleft; omega)
    have hrest : (is.length : ℤ) ≤ framesLeft (getFrame free 0 true).1 := by
      rw [hgot.left]
      omega
    exact ih (h.insert hgot (hinv i List.mem_cons_self) prot) hgot.ok hrest
      (List.nodup_cons.mp hnd).2 (invalid_update hnd hinv)

/-- **Unmapping pages that are mapped.** -/
theorem Tallied.unmapPages (h : Tallied free pt others) (hf : free.Ok) (hnd : is.Nodup) (hvalid : ∀ i ∈ is, (pt i).valid = true) :
    Tallied (unmapPages is free pt).1 (unmapPages is free pt).2 others := by
  induction is generalizing free pt with
  | nil => exact h
  | cons i is ih =>
    obtain ⟨hi, hnd⟩ := List.nodup_cons.mp hnd
    have hv := hvalid i List.mem_cons_self
    have hvac := hf.vacateFrame (h.used i hv)
    refine ih (h.erase hv hvac (setPte (pt i) false 0 0) rfl) hvac.ok hnd fun j hj => ?_
    have hji : j ≠ i := fun he => hi (he ▸ hj)
    rw [Function.update_of_ne hji]
    exact hvalid j (List.mem_cons_of_mem _ hj)

/-- **Unmapping whatever is mapped.** -/
theorem Tallied.unmapValid (h : Tallied free pt others) (hf : free.Ok) (is : List ℤ) :
    Tallied (unmapValid is free pt).1 (unmapValid is free pt).2 others := by
  induction is generalizing free pt with
  | nil => exact h
  | cons i is ih =>
    rw [unmapValid_cons]
    by_cases hv : (pt i).valid = true
    · have hvac := hf.vacateFrame (h.used i hv)
      rw [if_pos hv]
      exact ih (h.erase hv hvac (setPte (pt i) false 0 0) rfl) hvac.ok
    · rw [if_neg hv]
      exact ih h hf

/-- **Copying to a table that maps nothing there.** -/
theorem Tallied.copyValid (h : Tallied mem.frames dst others) (hf : mem.frames.Ok)
    (hleft : (validCount origin is : ℤ) ≤ framesLeft mem.frames) (hnd : is.Nodup)
    (hinv : ∀ i ∈ is, (dst i).valid = false) :
    Tallied (copyValid origin is mem dst).1.frames (copyValid origin is mem dst).2 others := by
  induction is generalizing mem dst with
  | nil => exact h
  | cons i is ih =>
    rw [copyValid_cons]
    by_cases hv : (origin i).valid = true
    · rw [validCount_cons_pos hv] at hleft
      have hgot : Got mem.frames (getFrame mem.frames 0 true).1 (copyPfn mem) :=
        hf.getFrame_auto (by unfold framesLeft at hleft; omega)
      have hrest : (validCount origin is : ℤ) ≤ framesLeft (getFrame mem.frames 0 true).1 := by
        rw [hgot.left]
        omega
      rw [if_pos hv]
      exact @ih (copyPage mem (origin i)).1 _
        (h.insert hgot (hinv i List.mem_cons_self) (origin i).prot) hgot.ok hrest
        (List.nodup_cons.mp hnd).2 (invalid_update hnd hinv)
    · rw [validCount_cons_neg hv] at hleft
      rw [if_neg hv]
      exact ih h hf hleft (List.nodup_cons.mp hnd).2
        fun j hj => hinv j (List.mem_cons_of_mem _ hj)

/-- **Copying a kernel stack.** -/
theorem Tallied.copyKstack (h : Tallied mem.frames kstack others) (hf : mem.frames.Ok)
    (hleft : (is.length : ℤ) ≤ framesLeft mem.frames) (hnd : is.Nodup)
    (hinv : ∀ i ∈ is, (kstack i).valid = false) :
    Tallied (copyKstack is mem kstack).1.frames (copyKstack is mem kstack).2 others := by
  induction is generalizing mem kstack with
  | nil => exact h
  | cons i is ih =>
    rw [List.length_cons, Nat.cast_add, Nat.cast_one] at hleft
    have hgot : Got mem.frames (getFrame mem.frames 0 true).1 (copyPfn mem) :=
      hf.getFrame_auto (by unfold framesLeft at hleft; omega)
    have hrest : (is.length : ℤ) ≤ framesLeft (getFrame mem.frames 0 true).1 := by
      rw [hgot.left]
      omega
    rw [copyKstack_cons]
    exact @ih (copyPage mem (mem.kernelStack i)).1 _
      (h.insert hgot (hinv i List.mem_cons_self) (protRead ||| protWrite)) hgot.ok hrest
      (List.nodup_cons.mp hnd).2 (invalid_update hnd hinv)

/-- **Loading a program** into a table that maps nothing. -/
theorem Tallied.mapSegments {li : LoadInfo} {args : List (List Byte)}
    (h : Tallied free pt others) (hf : free.Ok) (hli : li.WellFormed)
    (hroom : stackNpg args + li.dataPg1 + li.dataNpg < maxPtLen)
    (hleft : li.pagesNeeded args ≤ framesLeft free) (hinv : ∀ i, (pt i).valid = false) :
    Tallied (mapSegments free pt li (stackNpg args)).1
      (mapSegments free pt li (stackNpg args)).2 others := by
  rw [mapSegments_eq]
  refine h.mapPages hf (protRead ||| protWrite) ?_ (hli.ordered.nodup_segments hroom)
    fun i _ => hinv i
  rw [hli.ordered.length_segments]
  exact hleft

end Loops

end Yalnix
