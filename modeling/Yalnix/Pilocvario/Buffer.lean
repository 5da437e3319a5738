import Mathlib.Data.Int.Cast.Lemmas
import Yalnix.Bytes
import Yalnix.Common.Ring
/-!
# The ring buffer of pipes and terminals

`buffer_t` and its operations, over C integers: `int` is `ℤ` and `%` is the
truncating remainder, since a syscall may hand a negative length down to
them. `Buffer.Ok` is what the four indices owe each other; under it, and
for lengths that are not negative, the buffer is a bounded queue whose
content is `Buffer.content`.
-/

namespace Yalnix

/-- `buffer_t`, with the block `buffered` points at. -/
structure Buffer where
  size : ℤ
  filled : ℤ
  /-- The first character's index. -/
  head : ℤ
  /-- One after the last character's index, modulo `size`. -/
  tail : ℤ
  buffered : ℤ → Byte

def newBuffer (size : ℤ) : Buffer :=
  { size := size, filled := 0, head := 0, tail := 0, buffered := fun _ => 0 }

/-- `write_buffer`: the buffer after, and the number of bytes written. -/
def writeBuffer (buffer : Buffer) (src : ℤ → Byte) (len : ℤ) : Buffer × ℤ :=
  let avail := buffer.size - buffer.filled
  let written := if avail < len then avail else len
  ({ buffer with
      buffered := Ring.put buffer.buffered (fun i => (buffer.tail + i).tmod buffer.size)
        (fun i => src i) written.toNat
      tail := (buffer.tail + written).tmod buffer.size
      filled := buffer.filled + written }, written)

/-- `read_buffer`: the buffer after, the bytes stored from `dst` on, and the
number returned. -/
def readBuffer (buffer : Buffer) (len : ℤ) : Buffer × List Byte × ℤ :=
  let read := if buffer.filled < len then buffer.filled else len
  let dst := (List.range read.toNat).map fun i : ℕ =>
    buffer.buffered ((buffer.head + i).tmod buffer.size)
  -- of a `read` of `-2^31` the C difference wraps to the other sign, and `filled` is out of
  -- order here as there
  ({ buffer with
      head := (buffer.head + read).tmod buffer.size
      filled := buffer.filled - read }, dst, read)

def resetBuffer (buffer : Buffer) : Buffer :=
  { buffer with filled := 0, head := 0, tail := 0 }

namespace Buffer

/-- **What the indices of a buffer owe each other.** -/
structure Ok (b : Buffer) : Prop where
  size_pos : 0 < b.size
  filled_nonneg : 0 ≤ b.filled
  filled_le : b.filled ≤ b.size
  head_nonneg : 0 ≤ b.head
  head_lt : b.head < b.size
  tail_eq : b.tail = (b.head + b.filled) % b.size

/-- The bytes waiting in the buffer, oldest first. -/
def content (b : Buffer) : List Byte :=
  Ring.content b.buffered b.size b.head b.filled.toNat

/-- The free space, `avail` of `write_buffer`. -/
def room (b : Buffer) : ℤ := b.size - b.filled

variable {b : Buffer} {src : ℤ → Byte} {len : ℤ}

theorem length_content (b : Buffer) : b.content.length = b.filled.toNat :=
  Ring.length_content _ _ _ _

theorem Ok.room_nonneg (h : b.Ok) : 0 ≤ b.room := by
  have := h.filled_le
  unfold room
  omega

theorem Ok.tail_nonneg (h : b.Ok) : 0 ≤ b.tail := by
  rw [h.tail_eq]
  exact Int.emod_nonneg _ h.size_pos.ne'

theorem ok_newBuffer {size : ℤ} (h : 0 < size) : (newBuffer size).Ok where
  size_pos := h
  filled_nonneg := le_rfl
  filled_le := h.le
  head_nonneg := le_rfl
  head_lt := h
  tail_eq := by simp [newBuffer]

theorem Ok.resetBuffer (h : b.Ok) : (resetBuffer b).Ok where
  size_pos := h.size_pos
  filled_nonneg := le_rfl
  filled_le := h.size_pos.le
  head_nonneg := le_rfl
  head_lt := h.size_pos
  tail_eq := by simp [Yalnix.resetBuffer]

/-! ## Sizes, which need nothing of the buffer -/

@[simp] theorem writeBuffer_size : (writeBuffer b src len).1.size = b.size := rfl

@[simp] theorem writeBuffer_written (b : Buffer) (src : ℤ → Byte) (len : ℤ) :
    (writeBuffer b src len).2 = min b.room len := by
  unfold room writeBuffer
  dsimp only
  split <;> omega

@[simp] theorem writeBuffer_filled :
    (writeBuffer b src len).1.filled = b.filled + min b.room len := by
  rw [← writeBuffer_written b src len]
  rfl

theorem writeBuffer_room : (writeBuffer b src len).1.room = b.room - min b.room len := by
  rw [room, writeBuffer_size, writeBuffer_filled, room]
  omega

@[simp] theorem readBuffer_size : (readBuffer b len).1.size = b.size := rfl

@[simp] theorem readBuffer_read : (readBuffer b len).2.2 = min b.filled len := by
  unfold readBuffer
  dsimp only
  split <;> omega

@[simp] theorem readBuffer_filled :
    (readBuffer b len).1.filled = b.filled - min b.filled len := by
  rw [← readBuffer_read]
  rfl

theorem readBuffer_room : (readBuffer b len).1.room = b.room + min b.filled len := by
  rw [room, readBuffer_size, readBuffer_filled, room]
  omega

@[simp] theorem resetBuffer_size : (Yalnix.resetBuffer b).size = b.size := rfl

@[simp] theorem resetBuffer_filled : (Yalnix.resetBuffer b).filled = 0 := rfl

@[simp] theorem resetBuffer_room : (Yalnix.resetBuffer b).room = b.size := by simp [room]

/-! ## The buffer as a queue -/

/-- **A write keeps the indices in order** where what it counts fits and the
tail stays in the block. -/
theorem Ok.writeBuffer_of (h : b.Ok) (hnonneg : 0 ≤ b.filled + min b.room len)
    (htmod : (b.tail + min b.room len).tmod b.size = (b.tail + min b.room len) % b.size) :
    (Yalnix.writeBuffer b src len).1.Ok := by
  refine ⟨h.size_pos, ?_, ?_, h.head_nonneg, h.head_lt, ?_⟩
  · rw [writeBuffer_filled]
    exact hnonneg
  · rw [writeBuffer_filled, writeBuffer_size]
    unfold room
    omega
  · rw [writeBuffer_filled, writeBuffer_size]
    have htail : (Yalnix.writeBuffer b src len).1.tail
        = (b.tail + (Yalnix.writeBuffer b src len).2).tmod b.size := rfl
    have hhead : (Yalnix.writeBuffer b src len).1.head = b.head := rfl
    rw [htail, hhead, writeBuffer_written, htmod, h.tail_eq, Int.emod_add_emod, add_assoc]

/-- As it does for a length that is not negative. -/
theorem Ok.writeBuffer (h : b.Ok) (hlen : 0 ≤ len) : (writeBuffer b src len).1.Ok := by
  have hw : 0 ≤ min b.room len := le_min h.room_nonneg hlen
  have hf := h.filled_nonneg
  have ht := h.tail_nonneg
  exact h.writeBuffer_of (by omega) (Int.tmod_eq_emod_of_nonneg (by omega))

/-- **A write appends** the first bytes of the source, as many as fit. -/
theorem Ok.content_writeBuffer (h : b.Ok) (hlen : 0 ≤ len) :
    (Yalnix.writeBuffer b src len).1.content = b.content ++ bytesAt src (min b.room len).toNat := by
  have hs := h.size_pos
  have hf := h.filled_nonneg
  have hw : 0 ≤ min b.room len := le_min h.room_nonneg hlen
  have hcell : ∀ i : ℕ, (b.tail + i).tmod b.size
      = Ring.slot b.size (Ring.slot b.size b.head b.filled.toNat) i := by
    intro i
    have hhead : Ring.slot b.size b.head b.filled.toNat = b.tail := by
      rw [h.tail_eq, Ring.slot, Int.toNat_of_nonneg hf]
    rw [hhead, Int.tmod_eq_emod_of_nonneg (by have := h.tail_nonneg; omega), Ring.slot]
  have hbuf : (Yalnix.writeBuffer b src len).1.buffered = Ring.put b.buffered
      (Ring.slot b.size (Ring.slot b.size b.head b.filled.toNat)) (fun i => src i)
      (min b.room len).toNat := by
    rw [← writeBuffer_written b src len]
    simp only [← funext hcell]
    rfl
  have hhead : (Yalnix.writeBuffer b src len).1.head = b.head := rfl
  rw [content, hbuf, hhead, writeBuffer_size, writeBuffer_filled, Int.toNat_add hf hw]
  refine Ring.content_put _ _ ?_
  rw [Nat.cast_add, Int.toNat_of_nonneg hf, Int.toNat_of_nonneg hw]
  unfold room
  omega

/-- A buffer that starts at the front of its block holds the block's first
bytes. -/
theorem Ok.content_of_head (h : b.Ok) (hh : b.head = 0) :
    b.content = bytesAt b.buffered b.filled.toNat := by
  refine List.map_congr_left fun i hi => ?_
  have hf := h.filled_le
  rw [List.mem_range] at hi
  rw [Ring.slot, hh, Int.zero_add, Int.emod_eq_of_lt (by omega) (by omega)]

/-- **A write into a reset buffer** leaves its bytes at the front of the
block, where the terminal's hardware reads them. -/
theorem Ok.buffered_writeBuffer_reset (h : b.Ok) (hlen : 0 ≤ len) :
    bytesAt (Yalnix.writeBuffer (Yalnix.resetBuffer b) src len).1.buffered
        (min b.size len).toNat = bytesAt src (min b.size len).toNat := by
  have hcontent : (Yalnix.writeBuffer (Yalnix.resetBuffer b) src len).1.content = _ :=
    h.resetBuffer.content_writeBuffer hlen
  have hempty : (Yalnix.resetBuffer b).content = [] := rfl
  rw [(h.resetBuffer.writeBuffer hlen).content_of_head rfl, writeBuffer_filled, resetBuffer_room,
    hempty, resetBuffer_filled, Int.zero_add] at hcontent
  exact hcontent

/-- **A read keeps the indices in order** where what it leaves fits and the
head stays in the block. -/
theorem Ok.readBuffer_of (h : b.Ok) (hle : b.filled - min b.filled len ≤ b.size)
    (htmod : (b.head + min b.filled len).tmod b.size = (b.head + min b.filled len) % b.size) :
    (Yalnix.readBuffer b len).1.Ok := by
  have hs := h.size_pos
  have hhead : (Yalnix.readBuffer b len).1.head = (b.head + min b.filled len) % b.size := by
    rw [← htmod, ← readBuffer_read]
    rfl
  have htail : (Yalnix.readBuffer b len).1.tail = b.tail := rfl
  refine ⟨hs, ?_, ?_, ?_, ?_, ?_⟩
  · rw [readBuffer_filled]; omega
  · rw [readBuffer_filled, readBuffer_size]; exact hle
  · rw [hhead]; exact Int.emod_nonneg _ hs.ne'
  · rw [hhead]; exact Int.emod_lt_of_pos _ hs
  · rw [hhead, htail, readBuffer_filled, readBuffer_size, h.tail_eq, Int.emod_add_emod]
    congr 1
    omega

/-- As it does for a length that is not negative. -/
theorem Ok.readBuffer (h : b.Ok) (hlen : 0 ≤ len) : (readBuffer b len).1.Ok := by
  have hf := h.filled_nonneg
  have hle := h.filled_le
  have hh := h.head_nonneg
  exact h.readBuffer_of (by omega) (Int.tmod_eq_emod_of_nonneg (by omega))

/-- **A read takes from the front**: what it stores and what is left are
what was there. -/
theorem Ok.content_readBuffer (h : b.Ok) (hlen : 0 ≤ len) :
    b.content = (Yalnix.readBuffer b len).2.1 ++ (Yalnix.readBuffer b len).1.content := by
  have hf := h.filled_nonneg
  have hh := h.head_nonneg
  have hr : 0 ≤ min b.filled len := le_min hf hlen
  have hdst : (Yalnix.readBuffer b len).2.1
      = Ring.content b.buffered b.size b.head (min b.filled len).toNat := by
    rw [← readBuffer_read]
    refine List.map_congr_left fun i _ => ?_
    rw [Ring.slot, Int.tmod_eq_emod_of_nonneg (by omega)]
  have hhead : (Yalnix.readBuffer b len).1.head
      = Ring.slot b.size b.head (min b.filled len).toNat := by
    rw [Ring.slot, Int.toNat_of_nonneg hr, ← Int.tmod_eq_emod_of_nonneg (by omega),
      ← readBuffer_read]
    rfl
  have hbuf : (Yalnix.readBuffer b len).1.buffered = b.buffered := rfl
  rw [hdst, content, content, hbuf, hhead, readBuffer_size, readBuffer_filled,
    ← Ring.content_append]
  congr 1
  omega

/-- The number of bytes a read stores. -/
theorem length_readBuffer (b : Buffer) (len : ℤ) :
    (Yalnix.readBuffer b len).2.1.length = (min b.filled len).toNat := by
  rw [← readBuffer_read]
  simp [Yalnix.readBuffer]

/-! ## Any length -/

/-- The lengths a read leaves the indices in order for: one that is negative
moves the head back, and counts what it moves over as filled. -/
def ReadFits (b : Buffer) (len : ℤ) : Prop :=
  0 ≤ len ∨ b.filled - len ≤ b.size ∧ (0 ≤ b.head + len ∨ b.head + len = -b.size)

instance decidableReadFits (b : Buffer) (len : ℤ) : Decidable (b.ReadFits len) :=
  inferInstanceAs (Decidable (_ ∨ _))

/-- The lengths a write does: one that is negative moves the tail back. -/
def WriteFits (b : Buffer) (len : ℤ) : Prop :=
  0 ≤ len ∨ 0 ≤ b.filled + len ∧ (0 ≤ b.tail + len ∨ b.tail + len = -b.size)

instance decidableWriteFits (b : Buffer) (len : ℤ) : Decidable (b.WriteFits len) :=
  inferInstanceAs (Decidable (_ ∨ _))

/-- Less than a block below zero, C's remainder is the index wanted only at
its ends. -/
theorem tmod_nonneg_iff {x size : ℤ} (hlo : -size ≤ x) :
    0 ≤ x.tmod size ↔ 0 ≤ x ∨ x = -size := by
  constructor
  · intro h
    by_contra hneg
    rw [not_or, not_le] at hneg
    have hself : (-x).tmod size = -x := Int.tmod_eq_of_lt (by omega) (by omega)
    rw [Int.neg_tmod] at hself
    omega
  · rintro (h | rfl)
    · exact Int.tmod_nonneg size h
    · rw [Int.neg_tmod, Int.tmod_self]
      omega

theorem tmod_eq_emod_of_nonneg_or {x size : ℤ} (h : 0 ≤ x ∨ x = -size) :
    x.tmod size = x % size := by
  rcases h with h | rfl
  · exact Int.tmod_eq_emod_of_nonneg h
  · rw [Int.neg_tmod, Int.tmod_self, Int.neg_emod_self, Int.neg_zero]

/-- **A read keeps the indices in order exactly for the lengths that fit.** -/
theorem Ok.readBuffer_iff (h : b.Ok) : (Yalnix.readBuffer b len).1.Ok ↔ b.ReadFits len := by
  have hf := h.filled_nonneg
  have hh := h.head_nonneg
  rcases le_or_gt 0 len with hlen | hlen
  · exact iff_of_true (h.readBuffer hlen) (Or.inl hlen)
  · have hread : min b.filled len = len := by omega
    constructor
    · intro hok
      have hle := hok.filled_le
      rw [readBuffer_filled, readBuffer_size, hread] at hle
      have hhead : 0 ≤ (b.head + (Yalnix.readBuffer b len).2.2).tmod b.size := hok.head_nonneg
      rw [readBuffer_read, hread] at hhead
      exact Or.inr ⟨hle, (tmod_nonneg_iff (by omega)).mp hhead⟩
    · rintro (hpos | ⟨hle, hhead⟩)
      · omega
      · refine h.readBuffer_of ?_ ?_
        · rw [hread]
          exact hle
        · rw [hread]
          exact tmod_eq_emod_of_nonneg_or hhead

/-- **So does a write.** -/
theorem Ok.writeBuffer_iff (h : b.Ok) :
    (Yalnix.writeBuffer b src len).1.Ok ↔ b.WriteFits len := by
  have hroom := h.room_nonneg
  have hle := h.filled_le
  have ht := h.tail_nonneg
  rcases le_or_gt 0 len with hlen | hlen
  · exact iff_of_true (h.writeBuffer hlen) (Or.inl hlen)
  · have hwritten : min b.room len = len := by omega
    constructor
    · intro hok
      have hnonneg := hok.filled_nonneg
      rw [writeBuffer_filled, hwritten] at hnonneg
      have htail : 0 ≤ (b.tail + (Yalnix.writeBuffer b src len).2).tmod b.size := hok.tail_nonneg
      rw [writeBuffer_written, hwritten] at htail
      exact Or.inr ⟨hnonneg, (tmod_nonneg_iff (by omega)).mp htail⟩
    · rintro (hpos | ⟨hnonneg, htail⟩)
      · omega
      · refine h.writeBuffer_of ?_ ?_
        · rw [hwritten]
          exact hnonneg
        · rw [hwritten]
          exact tmod_eq_emod_of_nonneg_or htail

end Buffer

end Yalnix
