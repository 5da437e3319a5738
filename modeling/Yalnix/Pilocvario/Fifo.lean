import Yalnix.Common.Fifo
import Yalnix.Common.Follows
import Yalnix.Common.Run
import Yalnix.Pilocvario.Buffer
/-!
# The ring buffer is a bounded queue

Whatever calls are made on it, a buffer of `new_buffer` behaves as a queue
of at most `size` bytes: `write_buffer` appends what there is room for,
`read_buffer` takes from the front, `reset_buffer` empties it. That full
and empty both have `head = tail`, and that copies wrap, is nobody's
concern above this file.
-/

namespace Yalnix

/-- The calls made on a buffer. -/
inductive BufferOp where
  | write (src : ℤ → Byte) (len : ℤ)
  | read (len : ℤ)
  | reset

/-- A call on the buffer: the buffer after, the bytes stored at `dst`, and
the number returned. -/
def Buffer.step (b : Buffer) : BufferOp → Option (Buffer × List Byte × ℤ)
  | .write src len =>
    let (buffer, written) := writeBuffer b src len
    some (buffer, [], written)
  | .read len => some (readBuffer b len)
  | .reset => some (resetBuffer b, [], 0)

/-- The indices of `buffered` a call uses. -/
def Buffer.indices (b : Buffer) : BufferOp → List ℤ
  | .write src len => bytesAt (fun i => (b.tail + i).tmod b.size) (writeBuffer b src len).2.toNat
  | .read len => bytesAt (fun i => (b.head + i).tmod b.size) (readBuffer b len).2.2.toNat
  | .reset => []

/-- **The queue a buffer is to be**, for lengths that are not negative. -/
def fifoStep {cap : ℕ} (q : Fifo Byte cap) : BufferOp → Option (Fifo Byte cap × List Byte × ℤ)
  | .write src len =>
    if 0 ≤ len then some (q.append (bytesAt src len.toNat), [], min len q.room) else none
  | .read len =>
    if 0 ≤ len then
      some (q.drop len.toNat, q.queue.take len.toNat, min len q.queue.length)
    else none
  | .reset => some (Fifo.empty, [], 0)

namespace Buffer

/-- **The buffer `b` is the queue `q`**: its indices are in order, and the
filled bytes from `head` on, modulo `size`, are those of `q`. -/
structure Is {cap : ℕ} (b : Buffer) (q : Fifo Byte cap) : Prop where
  ok : b.Ok
  size : b.size = cap
  content : b.content = q.queue

/-- **After a call** the buffer is the queue it is to be, and the call used
indices inside the block. -/
def Carried {cap : ℕ} (b : Buffer) (_ : Fifo Byte cap) (op : BufferOp) (b' : Buffer)
    (q' : Fifo Byte cap) : Prop :=
  b'.Is q' ∧ ∀ i ∈ b.indices op, 0 ≤ i ∧ i < b.size

variable {b b' : Buffer} {cap : ℕ} {q q' : Fifo Byte cap} {op : BufferOp} {reply : List Byte × ℤ}

theorem is_newBuffer {size : ℕ} (h : 0 < size) :
    (newBuffer size).Is (Fifo.empty : Fifo Byte size) where
  ok := ok_newBuffer (by omega)
  size := rfl
  content := rfl

theorem Is.filled (h : b.Is q) : b.filled = q.queue.length := by
  have := h.ok.filled_nonneg
  rw [← h.content, length_content]
  omega

theorem Is.room (h : b.Is q) : b.room = q.room := by
  have := h.filled
  have := h.size
  have := q.bounded
  unfold Buffer.room Fifo.room
  omega

/-- **The indices a call uses are indices of the block.** -/
theorem Ok.mem_indices (h : b.Ok) (op : BufferOp) : ∀ i ∈ b.indices op, 0 ≤ i ∧ i < b.size := by
  have hs := h.size_pos
  have hslot : ∀ base : ℤ, 0 ≤ base → ∀ k : ℕ,
      0 ≤ (base + k).tmod b.size ∧ (base + k).tmod b.size < b.size := fun base hbase k => by
    rw [Int.tmod_eq_emod_of_nonneg (by omega)]
    exact ⟨Ring.slot_nonneg hs k, Ring.slot_lt hs k⟩
  intro i hi
  cases op with
  | write src len =>
    rw [indices, mem_bytesAt] at hi
    obtain ⟨k, -, rfl⟩ := hi
    exact hslot _ h.tail_nonneg k
  | read len =>
    rw [indices, mem_bytesAt] at hi
    obtain ⟨k, -, rfl⟩ := hi
    exact hslot _ h.head_nonneg k
  | reset => exact absurd hi List.not_mem_nil

/-- **`write_buffer` appends what there is room for.** -/
theorem Is.write (h : b.Is q) (src : ℤ → Byte) {len : ℤ} (hlen : 0 ≤ len) :
    (writeBuffer b src len).1.Is (q.append (bytesAt src len.toNat)) ∧
      (writeBuffer b src len).2 = min len q.room := by
  have hroom := h.room
  refine ⟨⟨h.ok.writeBuffer hlen, h.size, ?_⟩, ?_⟩
  · have hmin : (min b.room len).toNat = min q.room len.toNat := by omega
    rw [h.ok.content_writeBuffer hlen, h.content, hmin, ← take_bytesAt]
    rfl
  · rw [writeBuffer_written, hroom]
    exact min_comm _ _

/-- **`read_buffer` takes from the front.** -/
theorem Is.read (h : b.Is q) {len : ℤ} (hlen : 0 ≤ len) :
    (readBuffer b len).1.Is (q.drop len.toNat) ∧
      (readBuffer b len).2 = (q.queue.take len.toNat, min len q.queue.length) := by
  have hfilled := h.filled
  have hsplit : q.queue = (readBuffer b len).2.1 ++ (readBuffer b len).1.content := by
    rw [← h.content]
    exact h.ok.content_readBuffer hlen
  have hlength : (readBuffer b len).2.1.length = min len.toNat q.queue.length := by
    rw [length_readBuffer]
    omega
  -- what is stored has the length of the queue's first bytes, and what is left follows it
  have hdst : (readBuffer b len).2.1 = q.queue.take len.toNat := by
    rw [List.take_eq_take_min, ← hlength, hsplit, List.take_left]
  have hrest : (readBuffer b len).1.content = q.queue.drop len.toNat := by
    have hboth := List.take_append_drop len.toNat q.queue
    rw [← hdst] at hboth
    exact (List.append_cancel_left (hboth.trans hsplit)).symm
  refine ⟨⟨h.ok.readBuffer hlen, h.size, hrest⟩, Prod.ext hdst ?_⟩
  rw [readBuffer_read, hfilled]
  exact min_comm _ _

/-- **Each call is the queue's.** -/
theorem Is.step (h : b.Is q) (hcall : fifoStep q op = some (q', reply)) :
    ∃ b', b.step op = some (b', reply) ∧ Carried b q op b' q' ∧ b'.Is q' := by
  have hindices := h.ok.mem_indices op
  cases op with
  | write src len =>
    obtain ⟨hlen, heq⟩ := Option.ite_none_right_eq_some.mp hcall
    obtain ⟨rfl, rfl⟩ := Prod.mk.inj (Option.some.inj heq)
    obtain ⟨his, hret⟩ := h.write src hlen
    exact ⟨_, by rw [← hret]; rfl, ⟨his, hindices⟩, his⟩
  | read len =>
    obtain ⟨hlen, heq⟩ := Option.ite_none_right_eq_some.mp hcall
    obtain ⟨rfl, rfl⟩ := Prod.mk.inj (Option.some.inj heq)
    obtain ⟨his, hret⟩ := h.read hlen
    exact ⟨_, by rw [← hret]; rfl, ⟨his, hindices⟩, his⟩
  | reset =>
    obtain ⟨rfl, rfl⟩ := Prod.mk.inj (Option.some.inj hcall)
    have his : (resetBuffer b).Is (Fifo.empty : Fifo Byte cap) := ⟨h.ok.resetBuffer, h.size, rfl⟩
    exact ⟨_, rfl, ⟨his, hindices⟩, his⟩

/-- **The ring buffer refines a bounded queue**, from `new_buffer` on and
through any calls. -/
theorem newBuffer_follows {size : ℕ} (h : 0 < size) (ops : List BufferOp) :
    Machines.Follows Buffer.step fifoStep Carried (newBuffer size)
      (Fifo.empty : Fifo Byte size) ops :=
  Machines.follows_of_step (fun _ _ _ _ _ hs hcall => hs.step hcall) (is_newBuffer h) ops

/-- Across the wrap point of a buffer of four bytes. -/
theorem newBuffer_follows_wrap :
    let ops : List BufferOp :=
      [.write (fun _ => 7) 3, .read 2, .write (fun _ => 8) 4, .read 4, .reset]
    (Run.exec (fun q op => (fifoStep q op).map Prod.fst) (Fifo.empty : Fifo Byte 4) ops).isSome ∧
      Machines.Follows Buffer.step fifoStep Carried (newBuffer (4 : ℕ)) (Fifo.empty : Fifo Byte 4)
        ops := by
  intro ops
  exact ⟨by decide +kernel, newBuffer_follows (by decide) _⟩

end Buffer

end Yalnix
