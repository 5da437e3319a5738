import Mathlib.Data.Finset.Card
import Mathlib.Logic.Function.Basic
import Yalnix.Paging
/-!
# Physical frames

The bit vector and the frame allocator of `memory.c`. Underneath the bits
the allocator is a set of frames in use: `get_frame` puts in the lowest
frame that is not there, and `vacate_frame` takes one out.
-/

namespace Yalnix

/-! ## The bit vector -/

/-- `get_bit`. `CELL_SIZE` is 8. -/
def getBit (bitArray : ℤ → BitVec 8) (index : ℤ) : Bool :=
  bitArray (index / 8) &&& (1#8 <<< (index % 8).toNat) != 0#8

/-- `set_bit`. -/
def setBit (bitArray : ℤ → BitVec 8) (index : ℤ) (bit : Bool) : ℤ → BitVec 8 :=
  Function.update bitArray (index / 8)
    (if bit then bitArray (index / 8) ||| (1#8 <<< (index % 8).toNat)
      else bitArray (index / 8) &&& ~~~(1#8 <<< (index % 8).toNat))

theorem getLsbD_one_shift (k j : ℕ) (hk : k < 8) : (1#8 <<< k).getLsbD j = decide (j = k) := by
  rw [BitVec.getLsbD_shiftLeft]
  by_cases h : j = k
  · subst h
    simp [hk]
  · simp [h]
    omega

/-- The bit `get_bit` tests is the one at its offset. -/
theorem getBit_eq (bitArray : ℤ → BitVec 8) (index : ℤ) :
    getBit bitArray index = (bitArray (index / 8)).getLsbD (index % 8).toNat := by
  have hk : (index % 8).toNat < 8 := by omega
  rw [getBit, Bool.eq_iff_iff, bne_iff_ne, ne_eq, BitVec.eq_of_getLsbD_eq_iff]
  constructor
  · intro h
    by_contra hv
    refine h fun i hi => ?_
    rw [BitVec.getLsbD_and, getLsbD_one_shift _ i hk]
    by_cases hik : i = (index % 8).toNat
    · subst hik
      simpa using hv
    · simp [hik]
  · intro h hz
    have := hz _ hk
    rw [BitVec.getLsbD_and, getLsbD_one_shift _ _ hk, h] at this
    simp at this

/-- **`set_bit` changes the one bit.** -/
theorem getBit_setBit (bitArray : ℤ → BitVec 8) (i j : ℤ) (bit : Bool) :
    getBit (setBit bitArray i bit) j = if j = i then bit else getBit bitArray j := by
  have hi : (i % 8).toNat < 8 := by omega
  have hj : (j % 8).toNat < 8 := by omega
  rw [getBit_eq, getBit_eq, setBit]
  by_cases hcell : j / 8 = i / 8
  · have hoff : (j % 8).toNat = (i % 8).toNat ↔ j = i := by omega
    rw [hcell, Function.update_self]
    cases bit with
    | true =>
      simp only [if_true, BitVec.getLsbD_or, getLsbD_one_shift _ _ hi, hoff]
      by_cases h : j = i
      · simp [h]
      · simp [h]
    | false =>
      simp only [Bool.false_eq_true, if_false, BitVec.getLsbD_and, BitVec.getLsbD_not,
        getLsbD_one_shift _ _ hi, hoff, hj, decide_true, Bool.true_and]
      by_cases h : j = i
      · simp [h]
      · simp [h]
  · have hne : j ≠ i := fun he => hcell (he ▸ rfl)
    rw [Function.update_of_ne hcell, if_neg hne]

/-! ## The allocator -/

/-- `free_frame_t`. The last field is history: the frames `vacate_frame` was
called on while they were not marked used. -/
structure FreeFrame where
  size : ℤ
  bitVector : ℤ → BitVec 8
  availPfn : ℤ
  filled : ℤ
  strays : List ℤ

variable [Paging]

open Paging

namespace FreeFrame

/-- The frame is one of the machine's and is marked used. -/
def isUsed (free : FreeFrame) (pfn : ℤ) : Bool :=
  baseFrame ≤ pfn ∧ pfn < baseFrame + free.size ∧ getBit free.bitVector (pfn - baseFrame)

end FreeFrame

/-- `free_frame` as `KernelStart` sets it up. -/
def newFreeFrame (pmemSize : ℤ) : FreeFrame where
  size := pmemSize / pageSize
  bitVector := fun _ => 0
  availPfn := baseFrame
  filled := 0
  strays := []

/-- `vacate_frame`. -/
def vacateFrame (free : FreeFrame) (pfn : ℤ) : FreeFrame :=
  { free with
    bitVector := setBit free.bitVector (pfn - baseFrame) false
    filled := free.filled - 1
    availPfn := if pfn < free.availPfn then pfn else free.availPfn
    strays := if free.isUsed pfn then free.strays else free.strays ++ [pfn] }

/-- The loop that looks for the next free frame, at most `fuel` times round. -/
def nextFree (bitVector : ℤ → BitVec 8) (size : ℤ) : ℕ → ℤ → ℤ
  | 0, nextPfn => nextPfn
  | fuel + 1, nextPfn =>
    if getBit bitVector (nextPfn - baseFrame) ∧ nextPfn - baseFrame < size then
      nextFree bitVector size fuel (nextPfn + 1)
    else nextPfn

/-- `get_frame`: the allocator after, and what it returns. -/
def getFrame (free : FreeFrame) (pfn : ℤ) (autoAssign : Bool) : FreeFrame × ℤ :=
  if free.size ≤ free.filled then (free, errorCode)
  else
    let pfn := if autoAssign then free.availPfn else pfn
    let bitVector := setBit free.bitVector (pfn - baseFrame) true
    ({ free with
        bitVector := bitVector
        filled := free.filled + 1
        availPfn :=
          if pfn = free.availPfn then
            nextFree bitVector free.size (free.size - (pfn - baseFrame)).toNat pfn
          else free.availPfn }, pfn)

/-- `frames_left`. -/
def framesLeft (free : FreeFrame) : ℤ := free.size - free.filled

theorem getFrame_size {free : FreeFrame} {pfn : ℤ} {autoAssign : Bool} :
    (getFrame free pfn autoAssign).1.size = free.size := by
  unfold getFrame
  split <;> rfl

/-- `get_frame(pfn, FIXED)` returns what it is given, or `ERROR`. -/
theorem getFrame_fixed_pfn {free : FreeFrame} {pfn : ℤ} :
    (getFrame free pfn false).2 = pfn ∨ (getFrame free pfn false).2 = errorCode := by
  unfold getFrame
  split
  · exact Or.inr rfl
  · exact Or.inl rfl

namespace FreeFrame

/-- The frames of the machine. -/
def all (free : FreeFrame) : Finset ℤ :=
  (Finset.range free.size.toNat).image fun i : ℕ => baseFrame + i

/-- The frames in use. -/
def used (free : FreeFrame) : Finset ℤ :=
  free.all.filter fun pfn => getBit free.bitVector (pfn - baseFrame)

variable {free : FreeFrame} {pfn : ℤ}

theorem mem_all : pfn ∈ free.all ↔ baseFrame ≤ pfn ∧ pfn < baseFrame + free.size := by
  rw [all, Finset.mem_image]
  constructor
  · rintro ⟨i, hi, rfl⟩
    rw [Finset.mem_range] at hi
    omega
  · rintro ⟨hlo, hhi⟩
    refine ⟨(pfn - baseFrame).toNat, ?_, by omega⟩
    rw [Finset.mem_range]
    omega

theorem card_all : free.all.card = free.size.toNat := by
  rw [all, Finset.card_image_of_injective, Finset.card_range]
  intro i j hij
  dsimp only at hij
  omega

theorem mem_used : pfn ∈ free.used ↔ baseFrame ≤ pfn ∧ pfn < baseFrame + free.size ∧
    getBit free.bitVector (pfn - baseFrame) = true := by
  rw [used, Finset.mem_filter, mem_all, and_assoc]

theorem isUsed_iff : free.isUsed pfn = true ↔ pfn ∈ free.used := by
  rw [mem_used, isUsed, decide_eq_true_iff]

/-- **What the allocator's variables owe each other**: `filled` counts the
frames in use, and `availPfn` is the lowest that is not. -/
structure Ok (free : FreeFrame) : Prop where
  filled_eq : free.filled = free.used.card
  base_le : baseFrame ≤ free.availPfn
  avail_le : free.availPfn ≤ baseFrame + free.size
  below : ∀ x, baseFrame ≤ x → x < free.availPfn → x ∈ free.used
  avail : free.availPfn ∉ free.used

/-- With a frame left, the lowest free one is one of the machine's. -/
theorem Ok.avail_lt (h : free.Ok) (hleft : free.filled < free.size) :
    free.availPfn < baseFrame + free.size := by
  by_contra hge
  have hall : free.used = free.all := by
    refine Finset.filter_true_of_mem fun x hx => ?_
    rw [mem_all] at hx
    exact (mem_used.mp (h.below x hx.1 (by omega))).2.2
  have := h.filled_eq
  rw [hall, card_all] at this
  omega

theorem Ok.filled_le (h : free.Ok) (hsize : 0 ≤ free.size) : free.filled ≤ free.size := by
  have hle : free.used.card ≤ free.all.card := Finset.card_filter_le _ _
  have := h.filled_eq
  rw [card_all] at hle
  omega

theorem Ok.framesLeft_nonneg (h : free.Ok) (hsize : 0 ≤ free.size) : 0 ≤ framesLeft free :=
  Int.sub_nonneg_of_le (h.filled_le hsize)

/-- Where one of the machine's frames is free, there is one left. -/
theorem Ok.filled_lt (h : free.Ok) (hlo : baseFrame ≤ pfn) (hhi : pfn < baseFrame + free.size)
    (hfree : pfn ∉ free.used) : free.filled < free.size := by
  have hsub : insert pfn free.used ⊆ free.all := by
    intro x hx
    rw [mem_all]
    rcases Finset.mem_insert.mp hx with rfl | hx
    · exact ⟨hlo, hhi⟩
    · exact ⟨(mem_used.mp hx).1, (mem_used.mp hx).2.1⟩
  have hcard := Finset.card_le_card hsub
  rw [Finset.card_insert_of_notMem hfree, card_all] at hcard
  have := h.filled_eq
  omega

/-- Setting a bit of one of the machine's frames. -/
theorem used_setBit (bit : Bool) {free' : FreeFrame} (hsize : free'.size = free.size)
    (hbits : free'.bitVector = setBit free.bitVector (pfn - baseFrame) bit)
    (hlo : baseFrame ≤ pfn) (hhi : pfn < baseFrame + free.size) :
    free'.used = if bit then insert pfn free.used else free.used.erase pfn := by
  ext x
  rw [mem_used, hsize, hbits, getBit_setBit]
  have hiff : x - baseFrame = pfn - baseFrame ↔ x = pfn := by omega
  cases bit with
  | true =>
    rw [if_pos rfl, Finset.mem_insert, mem_used]
    by_cases hx : x = pfn
    · subst hx
      simp [hlo, hhi]
    · simp [hx, hiff]
  | false =>
    simp only [Bool.false_eq_true, if_false, Finset.mem_erase, mem_used]
    by_cases hx : x = pfn
    · simp [hx]
    · simp [hx, hiff]

/-- The search stops at the lowest free frame. -/
theorem nextFree_spec (bits : ℤ → BitVec 8) (size : ℤ) (fuel : ℕ) (start : ℤ)
    (hfuel : size - (start - baseFrame) ≤ fuel) (hle : start ≤ baseFrame + size) :
    start ≤ nextFree bits size fuel start ∧ nextFree bits size fuel start ≤ baseFrame + size ∧
      (∀ x, start ≤ x → x < nextFree bits size fuel start → getBit bits (x - baseFrame) = true) ∧
      (nextFree bits size fuel start < baseFrame + size →
        getBit bits (nextFree bits size fuel start - baseFrame) = false) := by
  induction fuel generalizing start with
  | zero =>
    have hend : start = baseFrame + size := by
      push_cast at hfuel
      omega
    exact ⟨le_rfl, hle, fun x h1 h2 => by rw [nextFree] at h2; omega, fun h => by
      rw [nextFree] at h; omega⟩
  | succ fuel ih =>
    rw [nextFree]
    split
    · rename_i hgo
      obtain ⟨hbit, hlt⟩ := hgo
      obtain ⟨h1, h2, h3, h4⟩ := ih (start + 1) (by push_cast at hfuel; omega) (by omega)
      refine ⟨by omega, h2, fun x hx hx' => ?_, h4⟩
      rcases eq_or_ne x start with rfl | hne
      · exact hbit
      · exact h3 x (by omega) hx'
    · rename_i hstop
      refine ⟨le_rfl, hle, fun x h1 h2 => by omega, fun h => ?_⟩
      by_contra hbit
      exact hstop ⟨by simpa using hbit, by omega⟩

/-- **`get_frame` with none left** says so. -/
theorem getFrame_none (auto : Bool) (h : free.size ≤ free.filled) :
    getFrame free pfn auto = (free, errorCode) := if_pos h

/-- **What a successful `get_frame` does**: the frame it names was free, is
in use, and is the only change. -/
structure Got (free free' : FreeFrame) (pfn : ℤ) : Prop where
  fresh : pfn ∉ free.used
  used_eq : free'.used = insert pfn free.used
  size_eq : free'.size = free.size
  filled_eq : free'.filled = free.filled + 1
  strays_eq : free'.strays = free.strays
  ok : free'.Ok

/-- **`get_frame` with one left** takes the frame it is after, where that is
one of the machine's and is free. -/
theorem Ok.got (h : free.Ok) (hleft : free.filled < free.size) (auto : Bool) {target : ℤ}
    (htarget : (if auto then free.availPfn else pfn) = target) (hlo : baseFrame ≤ target)
    (hhi : target < baseFrame + free.size) (hfresh : target ∉ free.used) :
    Got free (getFrame free pfn auto).1 target ∧ (getFrame free pfn auto).2 = target := by
  obtain ⟨bits, hbits⟩ : ∃ bits, bits = setBit free.bitVector (target - baseFrame) true := ⟨_, rfl⟩
  obtain ⟨next, hnext⟩ : ∃ next, next = nextFree bits free.size
      (free.size - (target - baseFrame)).toNat target := ⟨_, rfl⟩
  obtain ⟨free', hfree⟩ : ∃ free', free' = { free with
      bitVector := bits
      filled := free.filled + 1
      availPfn := if target = free.availPfn then next else free.availPfn } := ⟨_, rfl⟩
  have hrun : getFrame free pfn auto = (free', target) := by
    rw [hfree, hnext, hbits, ← htarget]
    simp [getFrame, not_le.mpr hleft]
  have hsize : free'.size = free.size := by rw [hfree]
  have hfilled : free'.filled = free.filled + 1 := by rw [hfree]
  have hvector : free'.bitVector = bits := by rw [hfree]
  have havail : free'.availPfn = if target = free.availPfn then next else free.availPfn := by
    rw [hfree]
  have hused : free'.used = insert target free.used :=
    used_setBit true hsize (by rw [hvector, hbits]) hlo hhi
  obtain ⟨hge, hle, hbelow, hat⟩ := nextFree_spec bits free.size
    (free.size - (target - baseFrame)).toNat target (by omega) hhi.le
  rw [← hnext] at hge hle hbelow hat
  rw [hrun]
  refine ⟨⟨hfresh, hused, hsize, hfilled, by rw [hfree], ?_⟩, rfl⟩
  have hcard : free'.filled = free'.used.card := by
    have := h.filled_eq
    rw [hused, Finset.card_insert_of_notMem hfresh, hfilled]
    push_cast
    omega
  by_cases hat' : target = free.availPfn
  · -- the search has moved on to the next free frame
    rw [if_pos hat'] at havail
    constructor
    · exact hcard
    · rw [havail]
      exact hlo.trans hge
    · rw [havail, hsize]
      exact hle
    · intro x hx hx'
      rw [havail] at hx'
      rw [hused, Finset.mem_insert]
      rcases lt_trichotomy x target with hlt | heq | hgt
      · exact Or.inr (h.below x hx (hat' ▸ hlt))
      · exact Or.inl heq
      · have hbit := hbelow x hgt.le hx'
        rw [hbits, getBit_setBit, if_neg (by omega)] at hbit
        exact Or.inr (mem_used.mpr ⟨hx, by omega, hbit⟩)
    · rw [havail, mem_used, hsize, hvector]
      rintro ⟨-, hnexthi, hbit⟩
      rw [hat hnexthi] at hbit
      cases hbit
  -- another frame was asked for: the first free one stays the first
  · rw [if_neg hat'] at havail
    constructor
    · exact hcard
    · rw [havail]
      exact h.base_le
    · rw [havail, hsize]
      exact h.avail_le
    · intro x hx hx'
      rw [havail] at hx'
      rw [hused]
      exact Finset.mem_insert_of_mem (h.below x hx hx')
    · rw [havail, hused, Finset.mem_insert, not_or]
      exact ⟨fun he => hat' he.symm, h.avail⟩

/-- **`get_frame(NONE, AUTO)`** takes the lowest. -/
theorem Ok.getFrame_auto (h : free.Ok) (hleft : free.filled < free.size) :
    Got free (getFrame free pfn true).1 (getFrame free pfn true).2 := by
  obtain ⟨hgot, heq⟩ := @Ok.got _ _ pfn h hleft true free.availPfn rfl h.base_le
    (h.avail_lt hleft) h.avail
  rw [heq]
  exact hgot

/-- **`get_frame(pfn, FIXED)`** takes the frame it is given. -/
theorem Ok.getFrame_fixed (h : free.Ok) (hleft : free.filled < free.size)
    (hlo : baseFrame ≤ pfn) (hhi : pfn < baseFrame + free.size) (hfresh : pfn ∉ free.used) :
    Got free (getFrame free pfn false).1 pfn ∧ (getFrame free pfn false).2 = pfn :=
  h.got hleft false rfl hlo hhi hfresh

/-- **What a proper `vacate_frame` does**: the frame was in use and is free,
and that is the only change. -/
structure Vacated (free free' : FreeFrame) (pfn : ℤ) : Prop where
  used_eq : free'.used = free.used.erase pfn
  size_eq : free'.size = free.size
  filled_eq : free'.filled = free.filled - 1
  strays_eq : free'.strays = free.strays
  ok : free'.Ok

/-- **`vacate_frame` of a frame in use frees it.** -/
theorem Ok.vacateFrame (h : free.Ok) (hpfn : pfn ∈ free.used) :
    Vacated free (vacateFrame free pfn) pfn := by
  obtain ⟨hlo, hhi, -⟩ := mem_used.mp hpfn
  have hused : (Yalnix.vacateFrame free pfn).used = free.used.erase pfn :=
    used_setBit false rfl rfl hlo hhi
  have hne : pfn ≠ free.availPfn := fun he => h.avail (he ▸ hpfn)
  refine ⟨hused, rfl, rfl, if_pos (isUsed_iff.mpr hpfn), ?_, ?_, ?_, ?_, ?_⟩
  · rw [hused, Finset.card_erase_of_mem hpfn]
    have := h.filled_eq
    have hpos := Finset.card_pos.mpr ⟨pfn, hpfn⟩
    have hfilled : (Yalnix.vacateFrame free pfn).filled = free.filled - 1 := rfl
    omega
  · have := h.base_le
    unfold Yalnix.vacateFrame
    dsimp only
    split <;> omega
  · have := h.avail_le
    unfold Yalnix.vacateFrame
    dsimp only
    split <;> omega
  · intro x hx hx'
    -- `availPfn` only moves down, at most to `pfn`
    have hxlt : x < free.availPfn ∧ x ≠ pfn := by
      unfold Yalnix.vacateFrame at hx'
      dsimp only at hx'
      split at hx' <;> omega
    rw [hused, Finset.mem_erase]
    exact ⟨hxlt.2, h.below x hx hxlt.1⟩
  · rw [hused, Finset.mem_erase, not_and]
    intro hne'
    unfold Yalnix.vacateFrame at hne' ⊢
    dsimp only at hne' ⊢
    split at hne'
    · exact absurd rfl hne'
    · rename_i hlt
      rw [if_neg hlt]
      exact h.avail

end FreeFrame

/-- A fresh allocator is in order, and everything is free. -/
theorem newFreeFrame_ok {pmemSize : ℤ} (hnonneg : 0 ≤ pmemSize / pageSize) :
    (newFreeFrame pmemSize).Ok ∧ (newFreeFrame pmemSize).used = ∅ := by
  have hused : (newFreeFrame pmemSize).used = ∅ := by
    rw [Finset.eq_empty_iff_forall_notMem]
    intro x hx
    have hbit := (FreeFrame.mem_used.mp hx).2.2
    rw [getBit_eq] at hbit
    simp [newFreeFrame] at hbit
  refine ⟨⟨?_, le_rfl, ?_, fun x hlo hhi => ?_, ?_⟩, hused⟩
  · rw [hused]
    rfl
  · show baseFrame ≤ baseFrame + pmemSize / pageSize
    omega
  · exact absurd hhi (not_lt.mpr hlo)
  · rw [hused]
    exact Finset.notMem_empty _

end Yalnix
