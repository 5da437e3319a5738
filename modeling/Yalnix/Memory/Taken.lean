import Yalnix.Memory.Ownership
/-!
# Which frames the loops take and give back

`Held` and `Ran` say that the loops over a page table keep its frames its
own, and how many more are in use. Here is which they are: mapping takes
frames that were free, one for each page, and unmapping gives back those of
the pages it unmaps.
-/

namespace Yalnix

variable [Paging]

open Paging FreeFrame

variable {free free' : FreeFrame} {pt : ℤ → Pte} {others : Set ℤ} {is : List ℤ} {prot : ℕ}
  {i x pfn : ℤ}

/-! ## Somebody else's frames -/

section Others

variable {ι : Type*} {t : ι → Pte}

/-- Somebody else gets a frame. -/
theorem Held.take (h : Held free t others) (hgot : Got free free' pfn) :
    Held free' t ({pfn} ∪ others) where
  used i hi := by
    rw [hgot.used_eq]
    exact Finset.mem_insert_of_mem (h.used i hi)
  apart i hi := by
    rintro (heq | hin)
    · exact hgot.fresh (heq ▸ h.used i hi)
    · exact h.apart i hi hin
  inj := h.inj
  others_used x hx := by
    rw [hgot.used_eq, Finset.mem_insert]
    exact hx.imp_right (h.others_used x)

/-- Somebody else gives one back. -/
theorem Held.giveBack (h : Held free t others) (hvac : Vacated free free' pfn)
    (hin : pfn ∈ others) : Held free' t (others \ {pfn}) where
  used i hi := by
    rw [hvac.used_eq, Finset.mem_erase]
    exact ⟨fun heq => h.apart i hi (heq ▸ hin), h.used i hi⟩
  apart i hi hx := h.apart i hi hx.1
  inj := h.inj
  others_used x hx := by
    rw [hvac.used_eq, Finset.mem_erase]
    exact ⟨hx.2, h.others_used x hx.1⟩

end Others

/-! ## Mapping -/

/-- **The frames of the pages mapped were free**, and they are the frames
taken. -/
theorem mapPages_taken (prot : ℕ) (pt : ℤ → Pte) (hf : free.Ok) (hnd : is.Nodup)
    (hleft : (is.length : ℤ) ≤ framesLeft free) :
    (∀ i ∈ is, ((mapPages prot is free pt).2 i).pfn ∉ free.used) ∧
    ∀ x, x ∈ (mapPages prot is free pt).1.used ↔
      x ∈ free.used ∨ ∃ i ∈ is, ((mapPages prot is free pt).2 i).pfn = x := by
  induction is generalizing free pt with
  | nil => simp [mapPages]
  | cons i is ih =>
    obtain ⟨hi, hnd⟩ := List.nodup_cons.mp hnd
    unfold framesLeft at hleft
    rw [List.length_cons] at hleft
    push_cast at hleft
    have hgot : Got free (getFrame free 0 true).1 (getFrame free 0 true).2 :=
      hf.getFrame_auto (by omega)
    have hself : ((mapPages prot (i :: is) free pt).2 i).pfn = (getFrame free 0 true).2 := by
      rw [mapPages_cons, mapPages_of_not_mem hi, mapPage_eq]
      dsimp only
      rw [Function.update_self]
    obtain ⟨hfresh, hused⟩ := @ih _ (mapPage prot free pt i).2 hgot.ok hnd (by
      unfold framesLeft
      rw [hgot.size_eq, hgot.filled_eq]
      omega)
    refine ⟨fun j hj => ?_, fun x => ?_⟩
    · rcases List.mem_cons.mp hj with rfl | hj
      · rw [hself]
        exact hgot.fresh
      · intro hin
        refine hfresh j hj ?_
        rw [hgot.used_eq]
        exact Finset.mem_insert_of_mem hin
    · rw [List.exists_mem_cons_iff, hself, mapPages_cons]
      refine (hused x).trans ?_
      rw [hgot.used_eq, Finset.mem_insert, eq_comm (a := x), or_assoc, or_left_comm]
      rfl

/-! ## Unmapping -/

/-- **The frames given back** are those of the pages unmapped. -/
theorem unmapPages_freed (h : Held free pt others) (hf : free.Ok) (hnd : is.Nodup)
    (hvalid : ∀ i ∈ is, (pt i).valid = true) (x : ℤ) :
    x ∈ (unmapPages is free pt).1.used ↔ x ∈ free.used ∧ ∀ i ∈ is, (pt i).pfn ≠ x := by
  induction is generalizing free pt with
  | nil => simp [unmapPages]
  | cons i is ih =>
    obtain ⟨hi, hnd⟩ := List.nodup_cons.mp hnd
    have hv := hvalid i List.mem_cons_self
    have hvac := hf.vacateFrame (h.used i hv)
    have hkept : ∀ j ∈ is, (unmapPage free pt i).2 j = pt j := fun j hj =>
      Function.update_of_ne (ne_of_mem_of_not_mem hj hi) _ _
    have hrest := ih (h.erase hv hvac (setPte (pt i) false 0 0) rfl) hvac.ok hnd (fun j hj => by
      rw [show Function.update pt i _ j = pt j from hkept j hj]
      exact hvalid j (List.mem_cons_of_mem _ hj))
    rw [unmapPages_cons, List.forall_mem_cons]
    refine hrest.trans ?_
    rw [hvac.used_eq, Finset.mem_erase, ne_comm, and_comm (a := (pt i).pfn ≠ x), and_assoc]
    refine and_congr_right fun _ => and_congr_right fun _ => ?_
    refine forall₂_congr fun j hj => ?_
    rw [show Function.update pt i _ j = pt j from hkept j hj]

end Yalnix
