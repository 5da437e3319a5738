import Mathlib.Order.Bounds.Basic
import Yalnix.Common.Run
import Yalnix.Memory.Frames
/-!
# The frame allocator over any calls

The bit vector, the count `filled` and the hint `availPfn` say the same
thing three times. From the allocator `KernelStart` sets up they keep
saying it (`Agrees`), whatever frames are taken and given back in whatever
order, and each call does what its name says and stays inside the bit
vector (`Exact`): the loop of `get_frame` tests a bit before it compares
its index with `size`, and the vector has the byte that takes.
-/

namespace Yalnix

/-- The calls made on the allocator. -/
inductive FrameOp where
  | auto
  | fixed (pfn : ℤ)
  | vacate (pfn : ℤ)
deriving DecidableEq

variable [Paging]

open Paging

/-- The indices the loop of `get_frame` tests. The test of the bit comes
first, so the index the loop stops at is among them. -/
def nextFreeTests (bitVector : ℤ → BitVec 8) (size : ℤ) : ℕ → ℤ → List ℤ
  | 0, nextPfn => [nextPfn - baseFrame]
  | fuel + 1, nextPfn =>
    (nextPfn - baseFrame) ::
      if getBit bitVector (nextPfn - baseFrame) ∧ nextPfn - baseFrame < size then
        nextFreeTests bitVector size fuel (nextPfn + 1)
      else []

/-- The indices `get_frame` sets and tests. -/
def getFrameBits (free : FreeFrame) (pfn : ℤ) (autoAssign : Bool) : List ℤ :=
  if free.size ≤ free.filled then []
  else
    let pfn := if autoAssign then free.availPfn else pfn
    let bitVector := setBit free.bitVector (pfn - baseFrame) true
    (pfn - baseFrame) ::
      if pfn = free.availPfn then
        nextFreeTests bitVector free.size (free.size - (pfn - baseFrame)).toNat pfn
      else []

namespace FreeFrame

/-- One of the machine's frames, and not in use. -/
def IsFree (free : FreeFrame) (pfn : ℤ) : Prop := pfn ∈ free.all ∧ pfn ∉ free.used

instance (free : FreeFrame) (pfn : ℤ) : Decidable (free.IsFree pfn) :=
  inferInstanceAs (Decidable (_ ∧ _))

/-- The calls a caller may make. -/
def Allowed (free : FreeFrame) : FrameOp → Prop
  | .auto => True
  | .fixed pfn => free.IsFree pfn
  | .vacate pfn => pfn ∈ free.used

instance (free : FreeFrame) (op : FrameOp) : Decidable (free.Allowed op) :=
  match op with
  | .auto => inferInstanceAs (Decidable True)
  | .fixed pfn => inferInstanceAs (Decidable (free.IsFree pfn))
  | .vacate pfn => inferInstanceAs (Decidable (pfn ∈ free.used))

/-- The allocator after a call, and what it returns. -/
def call (free : FreeFrame) : FrameOp → FreeFrame × ℤ
  | .auto => getFrame free 0 true
  | .fixed pfn => getFrame free pfn false
  | .vacate pfn => (vacateFrame free pfn, 0)

def step (free : FreeFrame) (op : FrameOp) : Option FreeFrame :=
  if free.Allowed op then some (free.call op).1 else none

/-- The bytes of the bit vector a call reads or writes. -/
def cells (free : FreeFrame) : FrameOp → List ℤ
  | .auto => (getFrameBits free 0 true).map (· / 8)
  | .fixed pfn => (getFrameBits free pfn false).map (· / 8)
  | .vacate pfn => [(pfn - baseFrame) / 8]

/-! ## What is promised -/

/-- **The three agree**: `filled` counts the bits set among the first `size`,
and `availPfn` is the lowest free frame, or one past the last where there is
none. -/
structure Agrees (free : FreeFrame) : Prop where
  filled : free.filled =
    ((Finset.range free.size.toNat).filter fun i : ℕ => getBit free.bitVector i = true).card
  avail : IsLeast {pfn | free.IsFree pfn} free.availPfn ∨
    (∀ pfn, ¬ free.IsFree pfn) ∧ free.availPfn = baseFrame + free.size

/-- The bit of `pfn` has become `bit`, and no other has changed. -/
def OnlyBit (free free' : FreeFrame) (pfn : ℤ) (bit : Bool) : Prop :=
  ∀ i, getBit free'.bitVector i = if i = pfn - baseFrame then bit else getBit free.bitVector i

/-- **A call does what it says**, inside the bytes allocated. -/
def Exact (free : FreeFrame) (op : FrameOp) : Prop :=
  (∀ cell ∈ free.cells op, 0 ≤ cell ∧ cell < free.size / 8 + 1) ∧
    match op with
    | .auto =>
      ((free.call .auto).2 = errorCode ↔ ∀ pfn, ¬ free.IsFree pfn) ∧
        ((∀ pfn, ¬ free.IsFree pfn) → (free.call .auto).1 = free) ∧
        ∀ pfn, IsLeast {p | free.IsFree p} pfn →
          (free.call .auto).2 = pfn ∧ free.OnlyBit (free.call .auto).1 pfn true
    | .fixed pfn =>
      (free.call (.fixed pfn)).2 = pfn ∧ free.OnlyBit (free.call (.fixed pfn)).1 pfn true
    | .vacate pfn => free.OnlyBit (free.call (.vacate pfn)).1 pfn false

variable {free free' : FreeFrame} {pfn : ℤ} {op : FrameOp}

theorem isFree_iff : free.IsFree pfn ↔ baseFrame ≤ pfn ∧ pfn < baseFrame + free.size ∧
    pfn ∉ free.used := by
  rw [IsFree, mem_all, and_assoc]

/-- The frames in use, counted by their bits. -/
theorem card_used : free.used.card =
    ((Finset.range free.size.toNat).filter fun i : ℕ => getBit free.bitVector i = true).card := by
  rw [used, all, Finset.filter_image, Finset.card_image_of_injective]
  · congr 1
    refine Finset.filter_congr fun i _ => ?_
    rw [add_sub_cancel_left]
  · intro i j hij
    dsimp only at hij
    omega

/-- There is a frame left exactly where one is free. -/
theorem Ok.filled_lt_iff (h : free.Ok) : free.filled < free.size ↔ free.IsFree free.availPfn := by
  rw [isFree_iff]
  exact ⟨fun hlt => ⟨h.base_le, h.avail_lt hlt, h.avail⟩,
    fun hfree => h.filled_lt hfree.1 hfree.2.1 hfree.2.2⟩

/-- **The invariant gives the law.** -/
theorem Ok.agrees (h : free.Ok) : free.Agrees := by
  have hlow : ∀ pfn, free.IsFree pfn → free.availPfn ≤ pfn := by
    intro pfn hfree
    obtain ⟨hlo, -, hunused⟩ := isFree_iff.mp hfree
    by_contra hlt
    exact hunused (h.below pfn hlo (by omega))
  refine ⟨by rw [h.filled_eq, card_used], ?_⟩
  rcases h.avail_le.lt_or_eq with hlt | heq
  · exact Or.inl ⟨isFree_iff.mpr ⟨h.base_le, hlt, h.avail⟩, hlow⟩
  · refine Or.inr ⟨fun pfn hfree => ?_, heq⟩
    have := hlow pfn hfree
    have := (isFree_iff.mp hfree).2.1
    omega

/-! ## The bit vector's bytes -/

/-- **The search tests no index past `size`.** -/
theorem nextFreeTests_bounds {bits : ℤ → BitVec 8} {size : ℤ} {fuel : ℕ} {start : ℤ}
    (hlo : baseFrame ≤ start) (hhi : start ≤ baseFrame + size) :
    ∀ i ∈ nextFreeTests bits size fuel start, 0 ≤ i ∧ i ≤ size := by
  induction fuel generalizing start with
  | zero =>
    intro i hi
    obtain rfl := List.mem_singleton.mp hi
    omega
  | succ fuel ih =>
    intro i hi
    rcases List.mem_cons.mp hi with rfl | hi
    · omega
    · split at hi
      · rename_i hgo
        exact ih (by omega) (by omega) i hi
      · exact absurd hi List.not_mem_nil

/-- Nor does `get_frame` set or test one, for a frame of the machine's. -/
theorem getFrameBits_bounds {auto : Bool} {target : ℤ}
    (htarget : (if auto then free.availPfn else pfn) = target)
    (hbounds : free.filled < free.size → baseFrame ≤ target ∧ target < baseFrame + free.size) :
    ∀ i ∈ getFrameBits free pfn auto, 0 ≤ i ∧ i ≤ free.size := by
  intro i hi
  simp only [getFrameBits, htarget] at hi
  split at hi
  · exact absurd hi List.not_mem_nil
  · rename_i hleft
    obtain ⟨hlo, hhi⟩ := hbounds (by omega)
    rcases List.mem_cons.mp hi with rfl | hi
    · omega
    · split at hi
      · exact nextFreeTests_bounds hlo hhi.le i hi
      · exact absurd hi List.not_mem_nil

omit [Paging] in
/-- The byte an index is in is one of those allocated. -/
theorem cell_bounds {is : List ℤ} {size : ℤ} (h : ∀ i ∈ is, 0 ≤ i ∧ i ≤ size) :
    ∀ cell ∈ is.map (· / 8), 0 ≤ cell ∧ cell < size / 8 + 1 := by
  intro cell hcell
  obtain ⟨i, hi, rfl⟩ := List.mem_map.mp hcell
  have := h i hi
  omega

/-! ## One call -/

/-- `get_frame` with a frame left sets the bit of the one it takes. -/
theorem onlyBit_getFrame (hleft : free.filled < free.size) (pfn : ℤ) (auto : Bool) :
    free.OnlyBit (getFrame free pfn auto).1 (if auto then free.availPfn else pfn) true := by
  intro i
  rw [getFrame, if_neg (not_le.mpr hleft)]
  exact getBit_setBit _ _ _ _

/-- **Every allowed call keeps the invariant and is exact.** -/
theorem Ok.call (h : free.Ok) (hallowed : free.Allowed op) :
    (free.call op).1.Ok ∧ free.Exact op := by
  cases op with
  | auto =>
    have hcells : ∀ cell ∈ free.cells .auto, 0 ≤ cell ∧ cell < free.size / 8 + 1 :=
      cell_bounds (getFrameBits_bounds rfl fun hleft => ⟨h.base_le, h.avail_lt hleft⟩)
    -- while a frame is left `availPfn` is the least free one
    rcases lt_or_ge free.filled free.size with hleft | hfull
    · have hgot : Got free (getFrame free 0 true).1 (getFrame free 0 true).2 :=
        h.getFrame_auto hleft
      have hret : (free.call .auto).2 = free.availPfn := by
        simp [FreeFrame.call, getFrame, not_le.mpr hleft]
      have hfree := h.filled_lt_iff.mp hleft
      have hsome : ¬ ∀ pfn, ¬ free.IsFree pfn := fun hnone => hnone _ hfree
      have hlo := h.base_le
      have hbase := baseFrame_nonneg
      refine ⟨hgot.ok, hcells, ?_, fun hnone => absurd hnone hsome, fun pfn hleast => ?_⟩
      · refine iff_of_false ?_ hsome
        rw [hret, errorCode]
        omega
      · have heq : free.availPfn = pfn :=
          (h.agrees.avail.resolve_right fun hnone => hsome hnone.1).unique hleast
        rw [← heq]
        exact ⟨hret, onlyBit_getFrame hleft 0 true⟩
    · have hrun : free.call .auto = (free, errorCode) := getFrame_none true hfull
      have hnone : ∀ pfn, ¬ free.IsFree pfn := by
        intro pfn hfree
        obtain ⟨hlo, hhi, hunused⟩ := isFree_iff.mp hfree
        have := h.filled_lt hlo hhi hunused
        omega
      rw [Exact, hrun]
      exact ⟨h, hcells, iff_of_true rfl hnone, fun _ => rfl,
        fun pfn hleast => absurd hleast.1 (hnone pfn)⟩
  | fixed pfn =>
    obtain ⟨hlo, hhi, hunused⟩ := isFree_iff.mp hallowed
    have hleft := h.filled_lt hlo hhi hunused
    obtain ⟨hgot, hret⟩ := h.getFrame_fixed hleft hlo hhi hunused
    exact ⟨hgot.ok, cell_bounds (getFrameBits_bounds rfl fun _ => ⟨hlo, hhi⟩), hret,
      onlyBit_getFrame hleft pfn false⟩
  | vacate pfn =>
    obtain ⟨hlo, hhi, -⟩ := mem_used.mp hallowed
    refine ⟨(h.vacateFrame hallowed).ok, ?_, fun i => getBit_setBit _ _ _ _⟩
    intro cell hcell
    obtain rfl := List.mem_singleton.mp hcell
    omega

/-! ## Runs -/

/-- **The frame allocator**, for every memory size and any calls its callers
may make, in any order. -/
theorem allocator_law {pmemSize : ℤ} (hsize : 0 ≤ pmemSize) (ops : List FrameOp) :
    Run.Throughout step Agrees (newFreeFrame pmemSize) ops ∧
      Run.Along step Exact (newFreeFrame pmemSize) ops := by
  have hok : (newFreeFrame pmemSize).Ok :=
    (newFreeFrame_ok (Int.ediv_nonneg hsize pageSize_pos.le)).1
  have hstep : ∀ s : FreeFrame, ∀ op ∈ ops, ∀ t, s.Ok → s.step op = some t → t.Ok := by
    intro s op _ t hs ht
    obtain ⟨hallowed, heq⟩ := Option.ite_none_right_eq_some.mp ht
    obtain rfl := Option.some.inj heq
    exact (hs.call hallowed).1
  have hinv := Run.throughout_of_step hstep hok
  exact ⟨hinv.mono fun _ hs => hs.agrees, hinv.along_step fun s op _ t hs ht => by
    obtain ⟨hallowed, -⟩ := Option.ite_none_right_eq_some.mp ht
    exact (hs.call hallowed).2⟩

omit [Paging] in
/-- Two frames are taken and one given back. -/
theorem allocator_law_reused :
    let _ := yalnixPaging
    let ops : List FrameOp := [.auto, .fixed 2, .vacate 0, .auto]
    (Run.exec step (newFreeFrame 0x8000) ops).map (fun free => (free.filled, free.availPfn)) =
        some (2, 1) ∧
      Run.Throughout step Agrees (newFreeFrame 0x8000) ops ∧
      Run.Along step Exact (newFreeFrame 0x8000) ops := by
  intro _ ops
  have hruns : (Run.exec step (newFreeFrame 0x8000) ops).map
      (fun free => (free.filled, free.availPfn)) = some (2, 1) := by
    decide +kernel
  exact ⟨hruns, allocator_law (by decide) _⟩

end FreeFrame

end Yalnix
