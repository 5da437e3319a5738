import Yalnix.Machine.Places
import Yalnix.Pilocvario.Pipe.Invariant
/-!
# The buffers, whatever a system call asks for

The calls on terminals and pipes check a terminal's id against the number of
terminals and every byte of the caller's buffer, and nothing else: a
negative id passes, and so does a length that is zero or negative, whose
buffer has no byte to check. What comes of it is decided by four functions,
and `Ran.inOrder_iff` says of each exactly when it leaves the buffers in
order.
-/

namespace Yalnix

variable {Node Addr : Type}

/-! ## The four functions -/

/-- A length a read comes back with, the indices in order. -/
def Buffer.Reads (b : Buffer) (len : ℤ) : Prop :=
  b.ReadFits len ∧ (len = 0 → b.filled = 0)

instance Buffer.decidableReads (b : Buffer) (len : ℤ) : Decidable (b.Reads len) :=
  inferInstanceAs (Decidable (_ ∧ _))

section Functions

variable {procs : ProcTable Node} {pipe : Pipe Node} {len : ℤ}

theorem readPipe_buffer :
    (readPipe procs pipe len).2.1.buffer = (readBuffer pipe.buffer len).1 := by
  unfold readPipe
  dsimp only
  split
  · rfl
  · split <;> rfl

/-- What a read stores is what it takes from the buffer. -/
theorem readPipe_dst : (readPipe procs pipe len).2.2.1 = (readBuffer pipe.buffer len).2.1 := by
  unfold readPipe
  dsimp only
  split
  · rfl
  · split <;> rfl

/-- And a read that blocks still wants as much. -/
theorem readPipe_frame {len' : ℤ} (h : (readPipe procs pipe len).2.2.2 = .blocked len') :
    len' = len := by
  unfold readPipe at h
  dsimp only at h
  split at h
  · exact (Outcome.blocked.inj h).symm
  · split at h <;> cases h

theorem writePipe_buffer {f : WriteFrame} :
    (writePipe procs pipe f).2.1.buffer = (writeBuffer pipe.buffer f.bytes f.len).1 := by
  unfold writePipe
  dsimp only
  split
  · rfl
  · split <;> rfl

theorem readTty_buffer {inp : Ttyio Node} :
    (readTty procs inp len).2.1.buffer = (readBuffer inp.buffer len).1 := by
  unfold readTty
  dsimp only
  split <;> rfl

theorem readTty_dst {inp : Ttyio Node} :
    (readTty procs inp len).2.2.1 = (readBuffer inp.buffer len).2.1 := by
  unfold readTty
  dsimp only
  split <;> rfl

theorem readTty_frame {inp : Ttyio Node} {len' : ℤ}
    (h : (readTty procs inp len).2.2.2 = .blocked len') : len' = len := by
  unfold readTty at h
  dsimp only at h
  split at h
  · exact (Outcome.blocked.inj h).symm
  · cases h

/-- A read blocks where it got nothing, and only there does it stall. -/
theorem stalls_eq_nil {p : Node} {b : Buffer} {o : Outcome ℤ} (hok : b.Ok)
    (hblocked : min b.filled len = 0 → o = .blocked len)
    (hreturned : min b.filled len ≠ 0 → ∃ r, o = .returned r) :
    stalls p b o = [] ↔ (len = 0 → b.filled = 0) := by
  have hf := hok.filled_nonneg
  by_cases hmin : min b.filled len = 0
  · rw [hblocked hmin]
    unfold stalls
    dsimp only
    split
    · rename_i hzero
      exact iff_of_true rfl fun _ => hzero
    · rename_i hne
      exact iff_of_false (List.cons_ne_nil _ _) fun h => hne (h (by omega))
  · obtain ⟨r, rfl⟩ := hreturned hmin
    exact iff_of_true rfl fun hlen => absurd (by omega) hmin

theorem stalls_readPipe {p : Node} (hok : pipe.buffer.Ok) :
    stalls p pipe.buffer (readPipe procs pipe len).2.2.2 = [] ↔
      (len = 0 → pipe.buffer.filled = 0) := by
  refine stalls_eq_nil hok (fun hmin => ?_) fun hmin => ?_
  · rw [readPipe_blocked hmin]
  · rw [readPipe_returned hmin]
    exact ⟨_, rfl⟩

theorem stalls_readTty {p : Node} {inp : Ttyio Node} (hok : inp.buffer.Ok) :
    stalls p inp.buffer (readTty procs inp len).2.2.2 = [] ↔ (len = 0 → inp.buffer.filled = 0) := by
  unfold readTty
  dsimp only
  rw [Buffer.readBuffer_read]
  refine stalls_eq_nil hok (fun hmin => ?_) fun hmin => ?_
  · rw [if_pos hmin]
  · rw [if_neg hmin]
    exact ⟨_, rfl⟩

/-- **A terminal's output buffer is reset before each write**, and a write
that counts up only writes while it has something left. -/
theorem writeTty_ok {out : Ttyio Node} {f : TtyFrame} (hok : out.buffer.Ok) (htotal : 0 ≤ f.total) :
    (writeTty procs out f).2.1.buffer.Ok ∧
      ∀ f', (writeTty procs out f).2.2.2 = .blocked f' → 0 ≤ f'.total := by
  unfold writeTty
  split
  · rename_i hlt
    have hlen : 0 ≤ f.len := by omega
    split
    · refine ⟨hok, fun f' hf' => ?_⟩
      rw [← Outcome.blocked.inj hf']
      exact htotal
    · refine ⟨hok.resetBuffer.writeBuffer hlen, fun f' hf' => ?_⟩
      have hroom := hok.resetBuffer.room_nonneg
      rw [← Outcome.blocked.inj hf', Buffer.writeBuffer_written]
      dsimp only
      omega
  · exact ⟨hok, fun f' hf' => by cases hf'⟩

theorem writeAlert_ok {out : Ttyio Node} (hok : out.buffer.Ok) :
    (writeAlert procs out).2.buffer.Ok := hok.resetBuffer

theorem receive_ok {inp : Ttyio Node} {landing : ℤ → Byte} {read : ℤ} (hok : inp.buffer.Ok)
    (hread : 0 ≤ read) : (receive procs inp landing read).2.buffer.Ok := by
  unfold receive
  dsimp only
  split
  · exact hok.writeBuffer hread
  · exact hok.writeBuffer hread

end Functions

/-! ## All buffers -/

section Buffers

variable [Devices]

/-- **The buffers in order**: no terminal outside the arrays was used, the
indices of every buffer are inside its block, and no read slept beside bytes
it could have had. -/
structure Io.InOrder (io : Io Node) : Prop where
  touched : ∀ tty ∈ io.touched, 0 ≤ tty ∧ tty < Devices.numTerminals
  pipe : ∀ p ∈ io.pipe, p.data.buffer.Ok
  input : ∀ tty : ℤ, 0 ≤ tty → tty < Devices.numTerminals → (io.input tty).buffer.Ok
  out : ∀ tty : ℤ, 0 ≤ tty → tty < Devices.numTerminals → (io.out tty).buffer.Ok
  stalled : io.stalled = []

/-- A call past its check of the terminal's id, that has counted up. -/
def IoFrame.Started : IoFrame → Prop
  | .pipeRead _ _ _ => True
  | .pipeWrite _ _ => True
  | .ttyRead tty _ _ => tty < Devices.numTerminals
  | .ttyWrite tty f => tty < Devices.numTerminals ∧ 0 ≤ f.total

/-- **The arguments suit the buffer** as the call finds it. -/
def IoFrame.Fits (io : Io Node) : IoFrame → Prop
  | .pipeRead id _ len => ∀ pipe, Filed.find io.pipe id = some pipe → pipe.buffer.Reads len
  | .pipeWrite id f => ∀ pipe, Filed.find io.pipe id = some pipe → pipe.buffer.WriteFits f.len
  | .ttyRead tty _ len => 0 ≤ tty ∧ (io.input tty).buffer.Reads len
  | .ttyWrite tty _ => 0 ≤ tty

instance IoFrame.decidableFits (io : Io Node) : ∀ f : IoFrame, Decidable (f.Fits io)
  | .pipeRead id _ len =>
    inferInstanceAs (Decidable (∀ pipe ∈ Filed.find io.pipe id, pipe.buffer.Reads len))
  | .pipeWrite id f =>
    inferInstanceAs (Decidable (∀ pipe ∈ Filed.find io.pipe id, pipe.buffer.WriteFits f.len))
  | .ttyRead _ _ _ => inferInstanceAs (Decidable (_ ∧ _))
  | .ttyWrite tty _ => inferInstanceAs (Decidable (0 ≤ tty))

variable {io : Io Node} {id tty : ℤ} {pipe : Pipe Node}

theorem Io.InOrder.init : (Io.init : Io Node).InOrder where
  touched := fun _ h => by cases h
  pipe := fun _ h => by cases h
  input := fun _ _ _ => Buffer.ok_newBuffer (by exact_mod_cast Devices.terminalMaxLine_pos)
  out := fun _ _ _ => Buffer.ok_newBuffer (by exact_mod_cast Devices.terminalMaxLine_pos)
  stalled := rfl

/-- A new pipe is in order. -/
theorem Io.InOrder.made (h : io.InOrder) (id : ℤ) :
    Io.InOrder { io with pipe := io.pipe ++ [⟨id, newPipe⟩] } := by
  refine ⟨h.touched, fun p hp => ?_, h.input, h.out, h.stalled⟩
  rcases List.mem_append.mp hp with hin | hin
  · exact h.pipe p hin
  · rw [List.mem_singleton.mp hin]
    exact Buffer.ok_newBuffer (by exact_mod_cast Devices.pipeBufferLen_pos)

theorem Io.InOrder.removed (h : io.InOrder) (id : ℤ) :
    Io.InOrder { io with pipe := Filed.remove io.pipe id } :=
  ⟨h.touched, fun p hp => h.pipe p (Filed.remove_sublist.subset hp), h.input, h.out, h.stalled⟩

/-- Frames are not part of it. -/
theorem Io.inOrder_frame {frame : Node → Option IoFrame} :
    Io.InOrder { io with frame := frame } ↔ io.InOrder :=
  ⟨fun h => ⟨h.touched, h.pipe, h.input, h.out, h.stalled⟩,
    fun h => ⟨h.touched, h.pipe, h.input, h.out, h.stalled⟩⟩

/-- **A pipe stored** is what the order now rests on. -/
theorem Io.inOrder_store (h : io.InOrder) (hfind : Filed.find io.pipe id = some pipe)
    (pipe' : Pipe Node) (stalled : List Node) :
    Io.InOrder { io with pipe := Filed.store io.pipe id pipe', stalled := io.stalled ++ stalled } ↔
      pipe'.buffer.Ok ∧ stalled = [] := by
  constructor
  · intro h'
    have hin := Filed.mem_of_find (Filed.find_store_self (x := pipe') hfind)
    exact ⟨h'.pipe _ hin, (List.append_eq_nil_iff.mp h'.stalled).2⟩
  · rintro ⟨hok, rfl⟩
    refine ⟨h.touched, fun p hp => ?_, h.input, h.out, ?_⟩
    · rcases Filed.mem_store hp with hin | rfl
      · exact h.pipe p hin
      · exact hok
    · rw [List.append_nil]
      exact h.stalled

/-- Terminals touched, and one more. -/
theorem Io.InOrder.touch (h : io.InOrder) (hlo : 0 ≤ tty) (hhi : tty < Devices.numTerminals) :
    ∀ i ∈ io.touched ++ [tty], 0 ≤ i ∧ i < Devices.numTerminals := by
  intro i hi
  rcases List.mem_append.mp hi with hin | hin
  · exact h.touched i hin
  · rw [List.mem_singleton.mp hin]
    exact ⟨hlo, hhi⟩

omit [Devices] in
/-- One line of several changed. -/
theorem buffers_update {hi : ℤ} {lines : ℤ → Ttyio Node} {line : Ttyio Node}
    (h : ∀ i : ℤ, 0 ≤ i → i < hi → (lines i).buffer.Ok) (hok : line.buffer.Ok) :
    ∀ i : ℤ, 0 ≤ i → i < hi → (Function.update lines tty line i).buffer.Ok := by
  intro i hlo hhi
  rcases eq_or_ne i tty with rfl | hne
  · rw [Function.update_self]
    exact hok
  · rw [Function.update_of_ne hne]
    exact h i hlo hhi

/-- **So is the input of a terminal**, if there is one of that id. -/
theorem Io.inOrder_input (h : io.InOrder) (hhi : tty < Devices.numTerminals) (inp : Ttyio Node)
    (stalled : List Node) :
    Io.InOrder { io with
        input := Function.update io.input tty inp
        touched := io.touched ++ [tty]
        stalled := io.stalled ++ stalled } ↔ 0 ≤ tty ∧ inp.buffer.Ok ∧ stalled = [] := by
  constructor
  · intro h'
    obtain ⟨hlo, -⟩ := h'.touched tty (List.mem_append_right _ (List.mem_singleton_self tty))
    have hok := h'.input tty hlo hhi
    dsimp only at hok
    rw [Function.update_self] at hok
    exact ⟨hlo, hok, (List.append_eq_nil_iff.mp h'.stalled).2⟩
  · rintro ⟨hlo, hok, rfl⟩
    refine ⟨h.touch hlo hhi, h.pipe, buffers_update h.input hok, h.out, ?_⟩
    rw [List.append_nil]
    exact h.stalled

/-- **And its output.** -/
theorem Io.inOrder_out (h : io.InOrder) (hhi : tty < Devices.numTerminals) (out : Ttyio Node) :
    Io.InOrder { io with
        out := Function.update io.out tty out
        touched := io.touched ++ [tty] } ↔ 0 ≤ tty ∧ out.buffer.Ok := by
  constructor
  · intro h'
    obtain ⟨hlo, -⟩ := h'.touched tty (List.mem_append_right _ (List.mem_singleton_self tty))
    have hok := h'.out tty hlo hhi
    dsimp only at hok
    rw [Function.update_self] at hok
    exact ⟨hlo, hok⟩
  · rintro ⟨hlo, hok⟩
    exact ⟨h.touch hlo hhi, h.pipe, h.input, buffers_update h.out hok, h.stalled⟩

end Buffers

/-! ## The calls of the machine -/

namespace Machine

variable [Paging] [Devices] [DecidableEq Node] [DecidableEq Addr]

open Paging Devices

variable {m t : Machine Node Addr} {c : Proc Node Addr} {e : Event Node Addr} {f : IoFrame}
  {r : Machine Node Addr × Outcome IoFrame} {es : List (Event Node Addr)} {b : Boot Node Addr}

omit [DecidableEq Node] [DecidableEq Addr] in
/-- **Whatever the event asks of a buffer suits it.** -/
def ArgsFit (m : Machine Node Addr) (e : Event Node Addr) : Prop :=
  ∀ c f, m.kernel.curr = some c → m.Enters c e f → f.Fits m.io

omit [DecidableEq Node] [DecidableEq Addr] in
/-- **The function an event enters**, where it gets past its checks. -/
def entered (m : Machine Node Addr) (e : Event Node Addr) : Option IoFrame :=
  match m.kernel.curr with
  | none => none
  | some c =>
    match e with
    | .call (.ttyRead tty buf len) =>
      if tty < numTerminals ∧ checkBuffer len buf protRead c.userpt.pt = true then
        some (.ttyRead tty buf len)
      else none
    | .call (.ttyWrite tty buf len) =>
      if tty < numTerminals ∧ checkBuffer len buf protWrite c.userpt.pt = true then
        some (.ttyWrite tty (ttyEntry (m.userBytes c.userpt.pt buf) len))
      else none
    | .call (.pipeRead id buf len) =>
      if (Filed.find m.io.pipe id).isSome = true ∧
          checkBuffer len buf protRead c.userpt.pt = true then
        some (.pipeRead id buf len)
      else none
    | .call (.pipeWrite id buf len total) =>
      if (Filed.find m.io.pipe id).isSome = true ∧
          checkBuffer len buf protWrite c.userpt.pt = true then
        some (.pipeWrite id (writeEntry (m.userBytes c.userpt.pt buf) len total))
      else none
    | .resume =>
      if (m.kernel.waits m.kernel.procs.running).isNone = true ∧
          (m.sync.frame m.kernel.procs.running).isNone = true then
        m.io.frame m.kernel.procs.running
      else none
    | _ => none

omit [DecidableEq Node] [DecidableEq Addr] in
theorem entered_of_enters (hc : m.kernel.curr = some c) (h : m.Enters c e f) :
    m.entered e = some f := by
  unfold entered
  rw [hc]
  cases h with
  | ttyRead tty buf len htty hbuf => exact if_pos ⟨htty, hbuf⟩
  | ttyWrite tty buf len htty hbuf => exact if_pos ⟨htty, hbuf⟩
  | pipeRead id buf len pipe hfind hbuf =>
    exact if_pos ⟨Option.isSome_iff_exists.mpr ⟨pipe, hfind⟩, hbuf⟩
  | pipeWrite id buf len total pipe hfind hbuf =>
    exact if_pos ⟨Option.isSome_iff_exists.mpr ⟨pipe, hfind⟩, hbuf⟩
  | back f hwaits hsync hf =>
    dsimp only
    rw [hwaits, hsync]
    exact hf

omit [DecidableEq Node] [DecidableEq Addr] in
/-- It enters no other. -/
theorem entered_eq_none (hc : m.kernel.curr = some c) (h : ∀ f, ¬ m.Enters c e f) :
    m.entered e = none := by
  unfold entered
  rw [hc]
  dsimp only
  split
  · exact if_neg fun hgo => h _ (Enters.ttyRead _ _ _ hgo.1 hgo.2)
  · exact if_neg fun hgo => h _ (Enters.ttyWrite _ _ _ hgo.1 hgo.2)
  · refine if_neg fun hgo => ?_
    obtain ⟨pipe, hfind⟩ := Option.isSome_iff_exists.mp hgo.1
    exact h _ (Enters.pipeRead _ _ _ pipe hfind hgo.2)
  · refine if_neg fun hgo => ?_
    obtain ⟨pipe, hfind⟩ := Option.isSome_iff_exists.mp hgo.1
    exact h _ (Enters.pipeWrite _ _ _ _ pipe hfind hgo.2)
  · split
    · rename_i hgo
      cases hframe : m.io.frame m.kernel.procs.running with
      | none => rfl
      | some f =>
        exact absurd (Enters.back f (Option.isNone_iff_eq_none.mp hgo.1)
          (Option.isNone_iff_eq_none.mp hgo.2) hframe) (h f)
    · rfl
  · rfl

omit [DecidableEq Node] [DecidableEq Addr] in
/-- And it was checked. -/
theorem enters_of_entered (h : m.entered e = some f) :
    ∃ c, m.kernel.curr = some c ∧ m.Enters c e f := by
  cases hc : m.kernel.curr with
  | none =>
    unfold entered at h
    rw [hc] at h
    cases h
  | some c =>
    refine ⟨c, rfl, ?_⟩
    by_contra hno
    have hnone : m.entered e = none := by
      refine entered_eq_none hc fun g hg => hno ?_
      obtain rfl := Option.some.inj ((entered_of_enters hc hg).symm.trans h)
      exact hg
    rw [hnone] at h
    cases h

omit [DecidableEq Node] [DecidableEq Addr] in
theorem argsFit_iff : m.ArgsFit e ↔ ∀ f ∈ m.entered e, f.Fits m.io := by
  constructor
  · intro hfits f hf
    obtain ⟨c, hc, henters⟩ := enters_of_entered hf
    exact hfits c f hc henters
  · exact fun hfits c f hc henters => hfits f (entered_of_enters hc henters)

omit [DecidableEq Addr] in
/-- Whether the arguments suit can be looked up. -/
instance decidableArgsFit (m : Machine Node Addr) (e : Event Node Addr) : Decidable (m.ArgsFit e) :=
  decidable_of_iff' _ argsFit_iff

omit [DecidableEq Addr] in
/-- The function runs. A pipe call that comes back counts itself fulfilled
first. -/
inductive Ran (m : Machine Node Addr) (c : Proc Node Addr) :
    IoFrame → Machine Node Addr × Outcome IoFrame → Prop
  | pipeRead (id buf len : ℤ) (pipe pipe' : Pipe Node)
      (hfind : Filed.find m.io.pipe id = some pipe) (hbuffer : pipe'.buffer = pipe.buffer) :
      Ran m c (.pipeRead id buf len) (m.runPipeRead c.userpt.pt id pipe' buf len)
  | pipeWrite (id : ℤ) (f : WriteFrame) (pipe pipe' : Pipe Node)
      (hfind : Filed.find m.io.pipe id = some pipe) (hbuffer : pipe'.buffer = pipe.buffer) :
      Ran m c (.pipeWrite id f) (m.runPipeWrite id pipe' f)
  | ttyRead (tty buf len : ℤ) : Ran m c (.ttyRead tty buf len) (m.runTtyRead c.userpt.pt tty buf len)
  | ttyWrite (tty : ℤ) (f : TtyFrame) : Ran m c (.ttyWrite tty f) (m.runTtyWrite tty f)

/-! ## What each of them leaves -/

omit [DecidableEq Node] [DecidableEq Addr] in
/-- **A function leaves the buffers in order exactly where its arguments
fit.** -/
theorem Ran.inOrder_iff (h : m.Ran c f r) (hio : m.io.InOrder) (hf : f.Started) :
    r.1.io.InOrder ↔ f.Fits m.io := by
  cases h with
  | pipeRead id buf len pipe pipe' hfind hbuffer =>
    -- `pipe'` is the filed pipe but for its queues, so its buffer is in order
    have hok : pipe'.buffer.Ok := by
      rw [hbuffer]
      exact hio.pipe _ (Filed.mem_of_find hfind)
    have hstore := Io.inOrder_store hio hfind (readPipe m.kernel.procs pipe' len).2.1
      (stalls m.kernel.procs.running pipe'.buffer (readPipe m.kernel.procs pipe' len).2.2.2)
    rw [readPipe_buffer, hok.readBuffer_iff, stalls_readPipe hok] at hstore
    constructor
    · intro hafter q hq
      obtain rfl := Option.some.inj (hfind.symm.trans hq)
      rw [← hbuffer]
      exact hstore.mp hafter
    · intro hfits
      have hreads := hfits pipe hfind
      rw [← hbuffer] at hreads
      exact hstore.mpr hreads
  | pipeWrite id f pipe pipe' hfind hbuffer =>
    have hok : pipe'.buffer.Ok := by
      rw [hbuffer]
      exact hio.pipe _ (Filed.mem_of_find hfind)
    have hstore := Io.inOrder_store hio hfind (writePipe m.kernel.procs pipe' f).2.1 []
    rw [writePipe_buffer, hok.writeBuffer_iff, hbuffer, List.append_nil] at hstore
    constructor
    · intro hafter q hq
      obtain rfl := Option.some.inj (hfind.symm.trans hq)
      exact (hstore.mp hafter).1
    · intro hfits
      exact hstore.mpr ⟨hfits pipe hfind, rfl⟩
  | ttyRead tty buf len =>
    have hstore := Io.inOrder_input hio hf (readTty m.kernel.procs (m.io.input tty) len).2.1
      (stalls m.kernel.procs.running (m.io.input tty).buffer
        (readTty m.kernel.procs (m.io.input tty) len).2.2.2)
    refine hstore.trans (and_congr_right fun hlo => ?_)
    have hok := hio.input tty hlo hf
    rw [readTty_buffer, hok.readBuffer_iff, stalls_readTty hok]
    rfl
  | ttyWrite tty f =>
    have hstore := Io.inOrder_out hio hf.1 (writeTty m.kernel.procs (m.io.out tty) f).2.1
    exact hstore.trans ⟨And.left, fun hlo => ⟨hlo, (writeTty_ok (hio.out tty hlo hf.1) hf.2).1⟩⟩

omit [DecidableEq Node] [DecidableEq Addr] in
/-- **What a call keeps in its frame** is again past its check. -/
theorem Ran.started (h : m.Ran c f r) (hio : m.io.InOrder) (hf : f.Started)
    (hfits : f.Fits m.io) {g : IoFrame} (hg : r.2 = .blocked g) : g.Started := by
  cases h with
  | pipeRead id buf len pipe pipe' hfind hbuffer =>
    obtain ⟨len', -, rfl⟩ := blocked_of_map hg
    trivial
  | pipeWrite id f pipe pipe' hfind hbuffer =>
    obtain ⟨f', -, rfl⟩ := blocked_of_map hg
    trivial
  | ttyRead tty buf len =>
    obtain ⟨len', -, rfl⟩ := blocked_of_map hg
    exact hf
  | ttyWrite tty f =>
    have hout : ∀ out : Outcome TtyFrame, out = (writeTty m.kernel.procs (m.io.out tty) f).2.2.2 →
        out.map (fun f => IoFrame.ttyWrite tty f) = .blocked g → g.Started := by
      intro out hout hg
      cases out with
      | returned v => cases hg
      | blocked f' =>
        obtain rfl := Outcome.blocked.inj hg
        exact ⟨hf.1, (writeTty_ok (hio.out tty hfits hf.1) hf.2).2 f' hout.symm⟩
    exact hout _ rfl hg

omit [Devices] [DecidableEq Node] [DecidableEq Addr] in
theorem Ran.frame (h : m.Ran c f r) : r.1.io.frame = m.io.frame := by
  cases h <;> rfl

/-! ## Every event -/

omit [Paging] [DecidableEq Addr] in
/-- What the other events do to pipes and terminals. -/
inductive Spares (io : Io Node) : Io Node → Prop
  | same : Spares io io
  | made (id : ℤ) : Spares io { io with pipe := io.pipe ++ [⟨id, newPipe⟩] }
  | removed (id : ℤ) : Spares io { io with pipe := Filed.remove io.pipe id }
  | received (procs : ProcTable Node) (tty : ℤ) (landing : ℤ → Byte) (read : ℤ) (hlo : 0 ≤ tty)
      (hhi : tty < numTerminals) (hread : 0 ≤ read) :
      Spares io { io with
        input := Function.update io.input tty (receive procs (io.input tty) landing read).2
        touched := io.touched ++ [tty] }
  | sent (procs : ProcTable Node) (tty : ℤ) (hlo : 0 ≤ tty) (hhi : tty < numTerminals) :
      Spares io { io with
        out := Function.update io.out tty (writeAlert procs (io.out tty)).2
        touched := io.touched ++ [tty] }

omit [Paging] [DecidableEq Node] [DecidableEq Addr] in
theorem Spares.frame {io io' : Io Node} (h : Spares io io') : io'.frame = io.frame := by
  cases h <;> rfl

omit [Paging] [DecidableEq Node] [DecidableEq Addr] in
/-- **They keep the buffers in order.** -/
theorem Spares.inOrder {io io' : Io Node} (h : Spares io io') (hio : io.InOrder) :
    io'.InOrder := by
  cases h with
  | same => exact hio
  | made id => exact hio.made id
  | removed id => exact hio.removed id
  | received procs tty landing read hlo hhi hread =>
    have hafter := (Io.inOrder_input hio hhi (receive procs (io.input tty) landing read).2 []).mpr
      ⟨hlo, receive_ok (hio.input tty hlo hhi) hread, rfl⟩
    rw [List.append_nil] at hafter
    exact hafter
  | sent procs tty hlo hhi =>
    exact (Io.inOrder_out hio hhi _).mpr ⟨hlo, writeAlert_ok (hio.out tty hlo hhi)⟩

omit [Paging] [Devices] [DecidableEq Addr] in
/-- A call refused leaves everything as it was. -/
theorem leaveIo_refused {p : Node} (hframe : m.io.frame p = none) (v : ℤ) :
    leaveIo p (m, .returned v) = m := by
  have hsame : Function.update m.io.frame p none = m.io.frame := by
    rw [← hframe]
    exact Function.update_eq_self p m.io.frame
  unfold leaveIo
  dsimp only
  rw [hsame]

omit [DecidableEq Addr] in
/-- **What an event is to the buffers**: it spares them, or it enters one
function. -/
def ToBuffers (m : Machine Node Addr) (c : Proc Node Addr) (e : Event Node Addr)
    (t : Machine Node Addr) : Prop :=
  (Spares m.io t.io ∧ ∀ f, ¬ m.Enters c e f) ∨
    ∃ f r, m.Enters c e f ∧ m.Ran c f r ∧ t = leaveIo m.kernel.procs.running r

omit [Paging] [DecidableEq Node] [DecidableEq Addr] in
theorem kernelReclaim_spares (id : ℤ) (size : ℤ → ℤ) :
    Spares m.io (m.kernelReclaim id size).1.io := by
  unfold kernelReclaim
  split
  · unfold destroyPipe
    split
    · exact Spares.same
    · exact Spares.removed id
  · exact Spares.same
  · exact Spares.same
  · exact Spares.same

omit [DecidableEq Node] [DecidableEq Addr] in
/-- **A call on a pipe or a terminal** is refused, or enters its function. -/
theorem IoCall.enters (h : m.IoCall c e r)
    (hwaits : m.kernel.waits m.kernel.procs.running = none)
    (hsync : m.sync.frame m.kernel.procs.running = none) :
    (r = (m, .returned errorCode) ∧ e ≠ .resume ∧ ∀ f, ¬ m.Enters c e f) ∨
      ∃ f, m.Enters c e f ∧ m.Ran c f r := by
  rcases h.cases with hrefused | ⟨f, hact⟩
  · exact Or.inl hrefused
  · refine Or.inr ⟨f, ?_⟩
    cases hact with
    | ttyRead tty buf len htty hbuf =>
      exact ⟨Enters.ttyRead tty buf len htty hbuf, Ran.ttyRead tty buf len⟩
    | ttyWrite tty buf len htty hbuf =>
      exact ⟨Enters.ttyWrite tty buf len htty hbuf, Ran.ttyWrite tty _⟩
    | pipeRead id buf len pipe hfind hbuf =>
      exact ⟨Enters.pipeRead id buf len pipe hfind hbuf,
        Ran.pipeRead id buf len pipe pipe hfind rfl⟩
    | pipeWrite id buf len total pipe hfind hbuf =>
      exact ⟨Enters.pipeWrite id buf len total pipe hfind hbuf,
        Ran.pipeWrite id _ pipe pipe hfind rfl⟩
    | ttyReadBack tty buf len hf =>
      exact ⟨Enters.back _ hwaits hsync hf, Ran.ttyRead tty buf len⟩
    | ttyWriteBack tty f hf => exact ⟨Enters.back _ hwaits hsync hf, Ran.ttyWrite tty f⟩
    | pipeReadBack id buf len pipe hfind hf =>
      exact ⟨Enters.back _ hwaits hsync hf, Ran.pipeRead id buf len pipe _ hfind rfl⟩
    | pipeWriteBack id f pipe hfind hf =>
      exact ⟨Enters.back _ hwaits hsync hf, Ran.pipeWrite id f pipe _ hfind rfl⟩

omit [DecidableEq Addr] in
theorem IoCall.toBuffers {s : Syscall Node Addr} (h : m.IoCall c (.call s) r)
    (huser : m.inUser = true) : m.ToBuffers c (.call s) (leaveIo m.kernel.procs.running r) := by
  obtain ⟨hwaits, hsync, hframe⟩ := inUser_iff.mp huser
  rcases h.enters hwaits hsync with ⟨rfl, -, hno⟩ | ⟨f, henters, hran⟩
  · rw [leaveIo_refused hframe]
    exact Or.inl ⟨Spares.same, hno⟩
  · exact Or.inr ⟨f, r, henters, hran, rfl⟩

omit [DecidableEq Node] [DecidableEq Addr] in
/-- Storing the new id for the caller touches no buffer. -/
theorem spares_initObject {idp : ℤ} {new : ℤ → Machine Node Addr → Machine Node Addr}
    (h : Spares m.io (new m.count { m with count := m.count + 1 }).io) :
    Spares m.io (m.initObject c.userpt.pt idp new).1.io := by
  rcases initObject_cases (rfl : m.initObject c.userpt.pt idp new = _) with heq | ⟨k, heq, -⟩
  · rw [heq]
    exact Spares.same
  · rw [heq]
    exact h

/-- A call, by a process in user mode. -/
theorem toBuffers_syscall {s : Syscall Node Addr} (huser : m.inUser = true)
    (h : m.syscall c s = some t) : m.ToBuffers c (.call s) t := by
  cases s with
  | proc act =>
    obtain ⟨k', hk', rfl⟩ := Option.map_eq_some_iff.mp h
    exact Or.inl ⟨Spares.same, fun f hf => by cases hf⟩
  | delay clockTicks =>
    obtain rfl := Option.some.inj h
    refine Or.inl ⟨?_, fun f hf => by cases hf⟩
    rw [(kernelDelay_objects clockTicks).1]
    exact Spares.same
  | ttyRead tty buf len =>
    obtain rfl := Option.some.inj h
    exact (IoCall.ttyRead tty buf len).toBuffers huser
  | ttyWrite tty buf len =>
    obtain rfl := Option.some.inj h
    exact (IoCall.ttyWrite tty buf len).toBuffers huser
  | pipeInit idp =>
    obtain rfl := Option.some.inj h
    exact Or.inl ⟨spares_initObject (Spares.made m.count), fun f hf => by cases hf⟩
  | pipeRead id buf len =>
    obtain rfl := Option.some.inj h
    exact (IoCall.pipeRead id buf len).toBuffers huser
  | pipeWrite id buf len total =>
    obtain rfl := Option.some.inj h
    exact (IoCall.pipeWrite id buf len total).toBuffers huser
  | lockInit idp =>
    obtain rfl := Option.some.inj h
    exact Or.inl ⟨spares_initObject Spares.same, fun f hf => by cases hf⟩
  | cvarInit idp second =>
    obtain rfl := Option.some.inj h
    exact Or.inl ⟨spares_initObject Spares.same, fun f hf => by cases hf⟩
  | sync call =>
    obtain rfl := Option.some.inj h
    exact Or.inl ⟨Spares.same, fun f hf => by cases hf⟩
  | reclaim id size =>
    obtain rfl := Option.some.inj h
    exact Or.inl ⟨kernelReclaim_spares id size, fun f hf => by cases hf⟩

omit [Devices] in
/-- Coming back from a block. -/
theorem toBuffers_resume [Devices] (h : m.resume c = some t) : m.ToBuffers c .resume t := by
  rcases resume_cases h with ⟨hwaits, k', -, rfl⟩ | ⟨-, g, r, hsync, -, rfl⟩ |
    ⟨hwaits, hsync, f, r, hio, hr, rfl⟩
  · refine Or.inl ⟨Spares.same, fun f hf => ?_⟩
    cases hf with
    | back f hnone => exact absurd hnone hwaits
  · refine Or.inl ⟨Spares.same, fun f hf => ?_⟩
    cases hf with
    | back f _ hnone => exact absurd (hsync.symm.trans hnone) (Option.some_ne_none g)
  · rcases (IoCall.back f r hio hr).enters hwaits hsync with ⟨-, hne, -⟩ | ⟨f, henters, hran⟩
    · exact absurd rfl hne
    · exact Or.inr ⟨f, r, henters, hran, rfl⟩

/-- **The cases of an event**, for the buffers. -/
theorem step_toBuffers (h : m.step e = some t) :
    (Spares m.io t.io ∧ ∀ c f, m.kernel.curr = some c → ¬ m.Enters c e f) ∨
      ∃ c, m.kernel.curr = some c ∧ m.ToBuffers c e t := by
  rcases step_trap h with ⟨s, rfl⟩ | rfl | htrap
  · obtain ⟨c, hc, -, huser, h⟩ := step_call h
    exact Or.inr ⟨c, hc, toBuffers_syscall huser h⟩
  · obtain ⟨c, hc, -, h⟩ := step_resume h
    exact Or.inr ⟨c, hc, toBuffers_resume h⟩
  · left
    cases htrap with
    | clock => exact ⟨Spares.same, fun c f _ hf => by cases hf⟩
    | receive tty landing read huser hlo hhi hread =>
      exact ⟨Spares.received _ tty landing read hlo hhi hread.1, fun c f _ hf => by cases hf⟩
    | transmit tty huser hlo hhi =>
      exact ⟨Spares.sent _ tty hlo hhi, fun c f _ hf => by cases hf⟩

omit [Paging] [DecidableEq Node] [DecidableEq Addr] in
/-- The buffers in order, and every call in progress past its checks. -/
structure Buffered (m : Machine Node Addr) : Prop where
  inOrder : m.io.InOrder
  started : ∀ p f, m.io.frame p = some f → f.Started

omit [DecidableEq Node] [DecidableEq Addr] in
theorem Enters.started (h : m.Enters c e f) (hm : m.Buffered) : f.Started := by
  cases h with
  | ttyRead tty buf len htty hbuf => exact htty
  | ttyWrite tty buf len htty hbuf => exact ⟨htty, le_rfl⟩
  | pipeRead id buf len pipe hfind hbuf => trivial
  | pipeWrite id buf len total pipe hfind hbuf => trivial
  | back f hwaits hsync hf => exact hm.started _ f hf

omit [DecidableEq Node] [DecidableEq Addr] in
/-- An event enters one function only. -/
theorem Enters.unique {f' : IoFrame} (h : m.Enters c e f) (h' : m.Enters c e f') : f = f' := by
  cases h with
  | ttyRead tty buf len htty hbuf => cases h'; rfl
  | ttyWrite tty buf len htty hbuf => cases h'; rfl
  | pipeRead id buf len pipe hfind hbuf => cases h'; rfl
  | pipeWrite id buf len total pipe hfind hbuf => cases h'; rfl
  | back f hwaits hsync hf =>
    cases h' with
    | back f' hwaits' hsync' hf' => exact Option.some.inj (hf.symm.trans hf')

omit [Paging] [DecidableEq Addr] in
/-- A call that leaves keeps its frame or drops it. -/
theorem started_leaveIo {p : Node} (hframes : ∀ q g, r.1.io.frame q = some g → g.Started)
    (hblocked : ∀ g, r.2 = .blocked g → g.Started) {q : Node} {g : IoFrame}
    (hg : (leaveIo p r).io.frame q = some g) : g.Started := by
  obtain ⟨t, out⟩ := r
  cases out with
  | returned v =>
    have hg' : Function.update t.io.frame p none q = some g := hg
    rcases eq_or_ne q p with rfl | hne
    · rw [Function.update_self] at hg'
      cases hg'
    · rw [Function.update_of_ne hne] at hg'
      exact hframes q g hg'
  | blocked f₀ =>
    have hg' : Function.update t.io.frame p (some f₀) q = some g := hg
    rcases eq_or_ne q p with rfl | hne
    · rw [Function.update_self] at hg'
      exact hblocked g (congrArg _ (Option.some.inj hg'))
    · rw [Function.update_of_ne hne] at hg'
      exact hframes q g hg'

omit [Paging] [DecidableEq Addr] in
theorem inOrder_leaveIo {p : Node} : (leaveIo p r).io.InOrder ↔ r.1.io.InOrder := by
  obtain ⟨t, out⟩ := r
  cases out with
  | returned v => exact Io.inOrder_frame
  | blocked f₀ => exact Io.inOrder_frame

/-- **One event** leaves the buffers in order exactly where its arguments
fit, and then the next may follow. -/
theorem step_buffered (hm : m.Buffered) (h : m.step e = some t) :
    (t.io.InOrder ↔ m.ArgsFit e) ∧ (m.ArgsFit e → t.Buffered) := by
  have hspares : Spares m.io t.io → (∀ c f, m.kernel.curr = some c → ¬ m.Enters c e f) →
      (t.io.InOrder ↔ m.ArgsFit e) ∧ (m.ArgsFit e → t.Buffered) := by
    intro hio hno
    have horder := hio.inOrder hm.inOrder
    refine ⟨iff_of_true horder fun c f hc hf => absurd hf (hno c f hc), fun _ => ⟨horder, ?_⟩⟩
    rw [hio.frame]
    exact hm.started
  rcases step_toBuffers h with ⟨hio, hno⟩ | ⟨c, hc, ⟨hio, hno⟩ | ⟨f, r, henters, hran, rfl⟩⟩
  · exact hspares hio hno
  · refine hspares hio fun c' f hc' => ?_
    obtain rfl := Option.some.inj (hc.symm.trans hc')
    exact hno f
  · have hstarted := henters.started hm
    have horder := hran.inOrder_iff hm.inOrder hstarted
    have hargs : m.ArgsFit e ↔ f.Fits m.io := by
      constructor
      · intro hfits
        exact hfits c f hc henters
      · intro hfits c' f' hc' hf'
        obtain rfl := Option.some.inj (hc.symm.trans hc')
        rw [← henters.unique hf']
        exact hfits
    refine ⟨?_, fun hfits => ⟨?_, fun q g hg => ?_⟩⟩
    · rw [inOrder_leaveIo, horder, hargs]
    · exact inOrder_leaveIo.mpr (horder.mpr (hargs.mp hfits))
    · refine started_leaveIo (fun q' g' hg' => ?_)
        (fun g' hg' => hran.started hm.inOrder hstarted (hargs.mp hfits) hg') hg
      rw [hran.frame] at hg'
      exact hm.started q' g' hg'

/-- No buffer has been used yet. -/
theorem start_buffered (hb : start b = some m) : m.Buffered := by
  obtain ⟨k, hk, rfl⟩ := Option.map_eq_some_iff.mp hb
  exact ⟨Io.InOrder.init, fun p f hf => by cases hf⟩

/-- **The buffers stay in order exactly where every call finds its arguments
to fit**: in every run, whatever the ids and lengths. -/
theorem buffers_in_order_iff (hb : start b = some m) :
    Run.Throughout step (fun s => s.io.InOrder) m es ↔ Run.Along step ArgsFit m es :=
  Run.throughout_iff_along_of_break (D := fun _ => True)
    (fun _ _ _ hs _ hfits ht => (step_buffered hs ht).2 hfits) (fun _ hs => hs.inOrder)
    (fun _ _ _ hs _ hbad ht hafter => hbad ((step_buffered hs ht).1.mp hafter))
    (fun _ _ => trivial) (start_buffered hb)

omit [Paging] [Devices] in
/-- Init reads from a pipe what its child writes to it, and writes to a
terminal. -/
theorem buffers_in_order_iff_pipe :
    let _ := yalnixPaging
    let _ := yalnixDevices
    let es : List (Event ℕ ℕ) := [.call (.pipeInit 0x1ff000), .call (.proc (.fork 2 2 2)),
      .call (.pipeRead 0 0x1ff000 4), .call (.pipeWrite 0 0x1ff000 3 0), .clock, .resume,
      .call (.ttyWrite 0 0x1ff000 5), .ttyTransmit 0]
    ∃ m u : Machine ℕ ℕ, start (smallBoot 140) = some m ∧ Run.exec step m es = some u ∧
      Run.Along step ArgsFit m es ∧ Run.Throughout step (fun s => s.io.InOrder) m es := by
  let _ := yalnixPaging
  let _ := yalnixDevices
  intro _ _ es
  have hruns : ((start (smallBoot 140)).bind fun m => (Run.exec step m es).map fun _ =>
      decide (Run.Along step ArgsFit m es)) = some true := by
    decide +kernel
  obtain ⟨m, hm, hruns⟩ := Option.bind_eq_some_iff.mp hruns
  obtain ⟨u, hu, hdec⟩ := Option.map_eq_some_iff.mp hruns
  have hfits : Run.Along step ArgsFit m es := of_decide_eq_true hdec
  exact ⟨m, u, hm, hu, hfits, (buffers_in_order_iff hm).mpr hfits⟩

omit [Paging] [Devices] in
/-- Init makes a pipe and writes `-1` bytes to it: the buffer counts one
less than none. -/
theorem not_buffers_in_order :
    let _ := yalnixPaging
    let _ := yalnixDevices
    ∃ (m₀ m : Machine ℕ ℕ) (pipe : Pipe ℕ), start (smallBoot 140) = some m₀ ∧
      Run.exec step m₀ [.call (.pipeInit 0x1ff000), .call (.pipeWrite 0 0x1ff000 (-1) 0)] =
        some m ∧
      Filed.find m.io.pipe 0 = some pipe ∧ pipe.buffer.filled = -1 ∧
      ¬ Run.Throughout step (fun s => s.io.InOrder) m₀
        [.call (.pipeInit 0x1ff000), .call (.pipeWrite 0 0x1ff000 (-1) 0)] := by
  let _ := yalnixPaging
  let _ := yalnixDevices
  let es : List (Event ℕ ℕ) :=
    [.call (.pipeInit 0x1ff000), .call (.pipeWrite 0 0x1ff000 (-1) 0)]
  have hruns : ((start (smallBoot 140)).bind fun m => (Run.exec step m es).bind fun m =>
      (Filed.find m.io.pipe 0).map fun pipe => pipe.buffer.filled) = some (-1) := by
    decide +kernel
  obtain ⟨m₀, hm₀, hm⟩ := Option.bind_eq_some_iff.mp hruns
  obtain ⟨m, hrun, hpipe⟩ := Option.bind_eq_some_iff.mp hm
  obtain ⟨pipe, hfind, hfilled⟩ := Option.map_eq_some_iff.mp hpipe
  refine ⟨m₀, m, pipe, hm₀, hrun, hfind, hfilled, fun hall => ?_⟩
  have hok := (hall.final hrun).pipe _ (Filed.mem_of_find hfind)
  have hnonneg : 0 ≤ pipe.buffer.filled := hok.filled_nonneg
  omega

end Machine

end Yalnix
