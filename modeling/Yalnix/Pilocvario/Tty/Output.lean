import Yalnix.Pilocvario.Tty.Steps
/-!
# The output of a terminal

`write_tty` advances by what `write_buffer` stored, but asks it for `len`
bytes each time and not for what is left: past the first chunk it stores a
whole line even where less of the source remains. A call is exact when its
bytes fit one line or fill whole lines (`ttyExact_iff`), whatever the other
writers and the traps do.
-/

namespace Yalnix

variable {Node : Type}

/-! ## What a call has handed over -/

/-- The offsets `0, …, n - 1`. -/
def offsets (n : ℤ) : List ℤ := bytesAt (fun i => i) n.toNat

theorem mem_offsets {n i : ℤ} : i ∈ offsets n ↔ 0 ≤ i ∧ i < n := by
  rw [offsets, mem_bytesAt]
  constructor
  · rintro ⟨k, hk, rfl⟩
    exact ⟨by omega, by omega⟩
  · rintro ⟨h0, hn⟩
    exact ⟨i.toNat, by omega, by omega⟩

/-- What a call has read and what its next chunk reads are one run. -/
theorem offsets_append {n k : ℤ} (hn : 0 ≤ n) (hk : 0 ≤ k) :
    offsets n ++ bytesAt (fun i => n + i) k.toNat = offsets (n + k) := by
  rw [offsets, offsets, Int.toNat_add hn hk, bytesAt_add, Int.toNat_of_nonneg hn]

/-- **What the variables of a write call owe each other**: it has moved in
steps of one chunk, the last of which began inside the source. -/
structure TtyFrame.Ok (size : ℤ) (f : TtyFrame) : Prop where
  len_nonneg : 0 ≤ f.len
  src_eq : f.src = f.total
  total_nonneg : 0 ≤ f.total
  chunks : min size f.len ∣ f.total
  began : f.total = 0 ∨ f.total - min size f.len < f.len

theorem ok_ttyEntry {size len : ℤ} {src : ℤ → Byte} (h : 0 ≤ len) : (ttyEntry src len).Ok size where
  len_nonneg := h
  src_eq := rfl
  total_nonneg := le_rfl
  chunks := Int.dvd_zero _
  began := Or.inl rfl

/-- A further chunk keeps the variables in order. -/
theorem TtyFrame.Ok.transmit {size : ℤ} {f : TtyFrame} (hf : f.Ok size) (hs : 0 < size)
    (h : f.total < f.len) :
    TtyFrame.Ok size { f with
      total := f.total + min size f.len
      src := f.src + min size f.len } where
  len_nonneg := hf.len_nonneg
  src_eq := congrArg (· + min size f.len) hf.src_eq
  total_nonneg := by
    have := hf.total_nonneg
    have := hf.len_nonneg
    dsimp only
    omega
  chunks := Int.dvd_add hf.chunks (Int.dvd_refl _)
  began := Or.inr (by dsimp only; omega)

/-- A call that has stored something and is not done stores whole lines. -/
theorem TtyFrame.Ok.min_eq {size : ℤ} {f : TtyFrame} (hf : f.Ok size) (h : f.total < f.len)
    (h0 : f.total ≠ 0) : min size f.len = size := by
  have hpos := hf.total_nonneg
  have hle : min size f.len ≤ f.total := Int.le_of_dvd (by omega) hf.chunks
  omega

/-- **A chunk stays inside the source** exactly where it is the first or a
whole line is left. -/
theorem TtyFrame.Ok.chunk_le_iff {size : ℤ} {f : TtyFrame} (hf : f.Ok size)
    (h : f.total < f.len) :
    f.total + min size f.len ≤ f.len ↔ f.total = 0 ∨ f.total + size ≤ f.len := by
  rcases eq_or_ne f.total 0 with h0 | h0
  · exact ⟨fun _ => Or.inl h0, fun _ => by omega⟩
  · rw [hf.min_eq h h0]
    exact ⟨Or.inr, fun hor => hor.resolve_left h0⟩

/-- **A call ends on its length** exactly where it fits one line or is made
of whole lines. -/
theorem TtyFrame.Ok.total_eq_iff {size : ℤ} {f : TtyFrame} (hf : f.Ok size)
    (h : f.len ≤ f.total) : f.total = f.len ↔ f.len ≤ size ∨ size ∣ f.len := by
  have hlen := hf.len_nonneg
  constructor
  · intro he
    rcases le_or_gt f.len size with hle | hgt
    · exact Or.inl hle
    · exact Or.inr (he ▸ (min_eq_left hgt.le) ▸ hf.chunks)
  · intro hfit
    have hdvd : min size f.len ∣ f.total - f.len := by
      refine Int.dvd_sub hf.chunks ?_
      rcases le_or_gt f.len size with hle | hgt
      · simp only [min_eq_right hle, Int.dvd_refl]
      · simpa only [min_eq_left hgt.le] using hfit.resolve_left (by omega)
    rcases hf.began with h0 | hlt
    · omega
    · -- the distance is a multiple of the chunk, and less than one chunk
      have := Int.eq_zero_of_dvd_of_nonneg_of_lt (by omega) (by omega) hdvd
      omega

/-- A call in progress is in order: it has handed over, and read, exactly
the bytes before `total`. -/
def TtyCallOk (size : ℤ) (sent : List Byte) (touched : List ℤ) : Option TtyFrame → Prop
  | none => sent = [] ∧ touched = []
  | some f => f.Ok size ∧ sent = bytesAt f.mem f.total.toNat ∧ touched = offsets f.total

/-- A call in progress has read nothing outside its source. -/
def InsideSource (touched : List ℤ) : Option TtyFrame → Prop
  | none => True
  | some f => ∀ i ∈ touched, 0 ≤ i ∧ i < f.len

/-- A call in order has stayed inside its source exactly where `total` has. -/
theorem TtyFrame.Ok.inside_iff {size : ℤ} {f : TtyFrame} (hf : f.Ok size) :
    InsideSource (offsets f.total) (some f) ↔ f.total ≤ f.len := by
  have hlen := hf.len_nonneg
  constructor
  · intro h
    by_contra hlt
    have := h f.len (mem_offsets.mpr ⟨hlen, by omega⟩)
    omega
  · intro hle i hi
    rw [mem_offsets] at hi
    exact ⟨hi.1, by omega⟩

/-- **What a write call promises**: it handed `src[0 .. len)` over and
nothing else, read nothing else, and returned `len`. -/
def TtyRecord.Exact (w : TtyRecord) : Prop :=
  w.sent = bytesAt w.mem w.len.toNat ∧ (∀ i ∈ w.touched, 0 ≤ i ∧ i < w.len) ∧ w.ret = w.len

/-- A length of at most one line, or of whole lines. -/
def FitsLines [Devices] (len : ℤ) : Prop :=
  len ≤ Devices.terminalMaxLine ∨ (Devices.terminalMaxLine : ℤ) ∣ len

/-- **The last chunk decides.** A call in order that is done keeps its
promise exactly where its bytes end on `len`. -/
theorem ttyRecord_exact_iff {f : TtyFrame} :
    TtyRecord.Exact ⟨f.mem, f.len, bytesAt f.mem f.total.toNat, offsets f.total, f.total⟩ ↔
      f.total = f.len := by
  constructor
  · rintro ⟨-, -, hret⟩
    exact hret
  · intro he
    refine ⟨congrArg (fun n : ℤ => bytesAt f.mem n.toNat) he, fun i hi => ?_, he⟩
    rw [mem_offsets] at hi
    exact ⟨hi.1, he ▸ hi.2⟩

namespace OutState

/-- **The output law**: every call that returned kept its promise, and none
in progress has read past its source. -/
def TtyExact (s : OutState Node) : Prop :=
  (∀ w ∈ s.writes, w.Exact) ∧ ∀ p, InsideSource (s.touched p) (s.call p)

/-- **A call about to transmit** transmits its first chunk, or has a whole
line left. -/
def ChunkFits [Devices] (s : OutState Node) (e : OutEvent Node) : Prop :=
  match s.active e with
  | some (_, f) => s.out.transmitting = 0 → f.total < f.len →
      f.total = 0 ∨ f.total + Devices.terminalMaxLine ≤ f.len
  | none => True

/-- Whether a call's chunk fits can be looked up. -/
instance decidableChunkFits [Devices] (s : OutState Node) (e : OutEvent Node) :
    Decidable (s.ChunkFits e) :=
  match ha : s.active e with
  | some (_, f) =>
    decidable_of_iff (s.out.transmitting = 0 → f.total < f.len →
      f.total = 0 ∨ f.total + Devices.terminalMaxLine ≤ f.len) (by simp only [ChunkFits, ha])
  | none => isTrue (by simp only [ChunkFits, ha])

/-- **The invariant of a terminal's writers.** -/
structure OutputInv [Devices] (s : OutState Node) : Prop where
  buffer : s.out.buffer.Ok
  size : s.out.buffer.size = Devices.terminalMaxLine
  calls : ∀ p, TtyCallOk Devices.terminalMaxLine (s.sent p) (s.touched p) (s.call p)
  writes : ∀ w ∈ s.writes, (w.Exact ↔ FitsLines w.len)

variable [Devices] {s t : OutState Node} {e : OutEvent Node} {p : Node} {f : TtyFrame}

theorem outputInv_init (procs : ProcTable Node) : (init procs).OutputInv where
  buffer := Buffer.ok_newBuffer (by exact_mod_cast Devices.terminalMaxLine_pos)
  size := rfl
  calls := fun _ => ⟨rfl, rfl⟩
  writes := by simp [init]

/-- The lengths `write_tty` is documented for. -/
def InDomain : OutEvent Node → Prop
  | .write _ _ len => 0 ≤ len
  | _ => True

/-- The call an activation runs is in order. -/
theorem OutputInv.active (hs : s.OutputInv) (hd : InDomain e) (h : s.active e = some (p, f)) :
    f.Ok Devices.terminalMaxLine ∧ s.sent p = bytesAt f.mem f.total.toNat ∧
      s.touched p = offsets f.total := by
  cases e with
  | write q src len =>
    simp only [OutState.active, Option.ite_none_right_eq_some, Option.some.injEq,
      Prod.mk.injEq, Option.isNone_iff_eq_none] at h
    obtain ⟨hidle, rfl, rfl⟩ := h
    have hp := hs.calls q
    rw [hidle] at hp
    exact ⟨ok_ttyEntry hd, hp⟩
  | resume q =>
    simp only [OutState.active, Option.map_eq_some_iff, Prod.mk.injEq] at h
    obtain ⟨c, hc, rfl, rfl⟩ := h
    have hp := hs.calls q
    rwa [hc] at hp
  | trap => cases h
  | strayTrap => cases h

variable [DecidableEq Node]

omit [Devices] in
/-- What is said of every process's call and offsets, after one of them
changed. -/
theorem insideSource_update {touched : Node → List ℤ} {call : Node → Option TtyFrame}
    {b : List ℤ} {c : Option TtyFrame} :
    (∀ q, InsideSource (Function.update touched p b q) (Function.update call p c q)) ↔
      InsideSource b c ∧ ∀ q, q ≠ p → InsideSource (touched q) (call q) := by
  constructor
  · intro h
    refine ⟨by simpa using h p, fun q hq => ?_⟩
    simpa [Function.update_of_ne hq] using h q
  · rintro ⟨hp, hother⟩ q
    rcases eq_or_ne q p with rfl | hq
    · simpa using hp
    · simpa [Function.update_of_ne hq] using hother q hq

omit [Devices] in
/-- Replacing one process's call by one in order keeps all of them so. -/
theorem ttyCallOk_update {size : ℤ} {sent : Node → List Byte} {touched : Node → List ℤ}
    {call : Node → Option TtyFrame} {a : List Byte} {b : List ℤ} {c : Option TtyFrame}
    (h : ∀ q, TtyCallOk size (sent q) (touched q) (call q)) (hp : TtyCallOk size a b c) :
    ∀ q, TtyCallOk size (Function.update sent p a q) (Function.update touched p b q)
      (Function.update call p c q) := by
  intro q
  rcases eq_or_ne q p with rfl | hq
  · simpa using hp
  · simpa [Function.update_of_ne hq] using h q

/-- **An activation keeps the invariant.** -/
theorem OutputInv.run (hs : s.OutputInv) (hf : f.Ok Devices.terminalMaxLine)
    (hsent : s.sent p = bytesAt f.mem f.total.toNat) (htouched : s.touched p = offsets f.total) :
    (s.run p f).OutputInv := by
  have hlen := hf.len_nonneg
  have htotal := hf.total_nonneg
  have hpos := hs.buffer.size_pos
  rcases lt_or_ge f.total f.len with hlt | hge
  · by_cases ht : s.out.transmitting = 0
    · -- the call transmits the `min` first bytes past `src`
      have hchunk : chunk s.out f = bytesAt f.bytes (min s.out.buffer.size f.len).toNat :=
        hs.buffer.buffered_writeBuffer_reset hlen
      have hbytes : f.bytes = fun i => f.mem ((f.total.toNat : ℤ) + i) := by
        rw [Int.toNat_of_nonneg htotal, ← hf.src_eq]
        rfl
      rw [run_transmits hlt ht]
      refine ⟨hs.buffer.resetBuffer.writeBuffer hlen, hs.size,
        ttyCallOk_update hs.calls ⟨?_, ?_, ?_⟩, hs.writes⟩
      · exact hs.size ▸ (hs.size ▸ hf : f.Ok s.out.buffer.size).transmit hpos hlt
      · rw [hsent, hchunk, hbytes, ← bytesAt_add, ← Int.toNat_add htotal (by omega)]
      · rw [htouched, hf.src_eq, offsets_append htotal (by omega)]
    · -- the call queues up, and nothing of it changes
      rw [run_queues hlt ht]
      refine ⟨hs.buffer, hs.size, fun q => ?_, hs.writes⟩
      have hcall : TtyCallOk Devices.terminalMaxLine (s.sent p) (s.touched p) (some f) :=
        ⟨hf, hsent, htouched⟩
      simpa using ttyCallOk_update (p := p) hs.calls hcall q
  · -- the call returns, and its promise is decided
    rw [run_returns hge]
    refine ⟨hs.buffer, hs.size, ttyCallOk_update hs.calls ⟨rfl, rfl⟩, ?_⟩
    rw [List.forall_mem_append, List.forall_mem_singleton, hsent, htouched, ttyRecord_exact_iff]
    exact ⟨hs.writes, hf.total_eq_iff hge⟩

/-- **The invariant is kept by every event.** -/
theorem outputInv_step (hs : s.OutputInv) (hd : InDomain e) (h : s.step e = some t) :
    t.OutputInv := by
  rcases step_cases h with ⟨p, f, ha, -, rfl⟩ | ⟨-, -, rfl⟩ | ⟨-, rfl⟩
  · obtain ⟨hf, hsent, htouched⟩ := hs.active hd ha
    exact hs.run hf hsent htouched
  · exact ⟨hs.buffer.resetBuffer, hs.size, hs.calls, hs.writes⟩
  · exact ⟨hs.buffer.resetBuffer, hs.size, hs.calls, hs.writes⟩

omit [DecidableEq Node] in
/-- Before an activation, everyone has stayed inside exactly where the
process about to run has and the others have. -/
theorem OutputInv.inside_iff (hs : s.OutputInv) (hd : InDomain e) (h : s.active e = some (p, f)) :
    (∀ q, InsideSource (s.touched q) (s.call q)) ↔
      f.total ≤ f.len ∧ ∀ q, q ≠ p → InsideSource (s.touched q) (s.call q) := by
  obtain ⟨hf, -, htouched⟩ := hs.active hd h
  have hp : InsideSource (s.touched p) (s.call p) ↔ f.total ≤ f.len := by
    rw [← hf.inside_iff, ← htouched]
    cases e with
    | write q src len =>
      simp only [OutState.active, Option.ite_none_right_eq_some, Option.some.injEq,
        Prod.mk.injEq, Option.isNone_iff_eq_none] at h
      obtain ⟨hidle, rfl, rfl⟩ := h
      rw [hidle, htouched, hf.inside_iff]
      exact ⟨fun _ => hd, fun _ => trivial⟩
    | resume q =>
      simp only [OutState.active, Option.map_eq_some_iff, Prod.mk.injEq] at h
      obtain ⟨c, hc, rfl, rfl⟩ := h
      rw [hc]
    | trap => cases h
    | strayTrap => cases h
  rw [← hp]
  constructor
  · intro h
    exact ⟨h p, fun q _ => h q⟩
  · rintro ⟨hp, hother⟩ q
    rcases eq_or_ne q p with rfl | hq
    · exact hp
    · exact hother q hq

/-- **One event breaks the output law exactly where it is a chunk that does
not fit.** -/
theorem ttyExact_step_iff (hs : s.OutputInv) (hd : InDomain e) (h : s.step e = some t) :
    t.TtyExact ↔ s.TtyExact ∧ s.ChunkFits e := by
  rcases step_cases h with ⟨p, f, ha, -, rfl⟩ | ⟨rfl, -, rfl⟩ | ⟨rfl, rfl⟩
  · obtain ⟨hf, hsent, htouched⟩ := hs.active hd ha
    have hfits : s.ChunkFits e ↔ (s.out.transmitting = 0 → f.total < f.len →
        f.total = 0 ∨ f.total + Devices.terminalMaxLine ≤ f.len) := by
      simp only [ChunkFits, ha]
    rw [TtyExact, TtyExact, hs.inside_iff hd ha, hfits]
    rcases lt_or_ge f.total f.len with hlt | hge
    · by_cases ht : s.out.transmitting = 0
      · -- a chunk: the source must reach to its end
        have hnext := (hf.transmit (hs.size ▸ hs.buffer.size_pos) hlt).inside_iff
        have hchunk := hf.chunk_le_iff hlt
        have hpos := hs.buffer.size_pos
        have hlen := hf.len_nonneg
        rw [← hs.size] at hnext hchunk ⊢
        rw [run_transmits hlt ht]
        dsimp only at hnext ⊢
        rw [hf.src_eq] at hnext
        rw [insideSource_update, htouched, hf.src_eq,
          offsets_append hf.total_nonneg (by omega), hnext, hchunk]
        simp only [ht, hlt, forall_const, hlt.le, true_and]
        tauto
      · -- the call queues up: nothing is handed over
        rw [run_queues hlt ht]
        have hsame : (∀ q, InsideSource (s.touched q) (Function.update s.call p (some f) q)) ↔
            f.total ≤ f.len ∧ ∀ q, q ≠ p → InsideSource (s.touched q) (s.call q) := by
          rw [← hf.inside_iff, ← htouched, ← insideSource_update, Function.update_eq_self]
        dsimp only
        rw [hsame]
        simp only [ht, false_implies, and_true]
    · -- the call returns, having stayed inside its source, so on its end
      rw [run_returns hge]
      dsimp only
      rw [insideSource_update, List.forall_mem_append, List.forall_mem_singleton, hsent,
        htouched, ttyRecord_exact_iff]
      have hdone : ¬ f.total < f.len := not_lt.mpr hge
      simp only [hdone, false_implies, implies_true, and_true, InsideSource, true_and]
      constructor
      · rintro ⟨⟨hw, he⟩, hother⟩
        exact ⟨hw, he.le, hother⟩
      · rintro ⟨hw, hle, hother⟩
        exact ⟨⟨hw, le_antisymm hle hge⟩, hother⟩
  · exact ⟨fun h => ⟨h, trivial⟩, And.left⟩
  · exact ⟨fun h => ⟨h, trivial⟩, And.left⟩

/-- **The output law holds of exactly the runs whose chunks fit**, for any
number of writers, any lengths, any interleaving and any traps; and a call
that has returned kept its promise exactly where its length is at most one
line or whole lines. -/
theorem ttyExact_iff {procs : ProcTable Node} {es : List (OutEvent Node)}
    (hes : ∀ e ∈ es, InDomain e) (hrun : Run.exec step (init procs) es = some s) :
    (s.TtyExact ↔ Run.Along step ChunkFits (init procs) es) ∧
      ∀ w ∈ s.writes, (w.Exact ↔ FitsLines w.len) := by
  have hinv : s.OutputInv := Run.inv_of_exec (fun _ _ _ hs hd h => outputInv_step hs hd h) hes
    (outputInv_init procs) hrun
  have hexact := Run.final_iff_along (fun _ _ _ hs hd h => outputInv_step hs hd h)
    (fun _ _ _ hs hd h => ttyExact_step_iff hs hd h) hes (outputInv_init procs) hrun
  have hstart : (init procs : OutState Node).TtyExact :=
    ⟨by simp [init], fun _ => trivial⟩
  exact ⟨hexact.trans (and_iff_right hstart), hinv.writes⟩

/-- Two processes and an idle one. -/
def twoProcs : ProcTable ℕ where
  running := 1
  ready := [2]
  waiting := []
  delayed := []
  orphans := []
  idleNode := 0

/-- A process writes two whole lines, and another three bytes after it. -/
def wholeLines : List (OutEvent ℕ) :=
  [.write 1 (fun _ => 7) 2048, .write 2 (fun _ => 9) 3, .trap, .resume 1, .trap, .resume 1,
    .resume 2, .trap, .resume 2]

omit [Devices] in
/-- The law is met by `wholeLines`. -/
theorem ttyExact_whole_lines :
    ∃ s, Run.exec step (@init ℕ yalnixDevices twoProcs) wholeLines = some s ∧
      (s.writes.map fun w => (w.len, w.ret)) = [(2048, 2048), (3, 3)] ∧ s.TtyExact := by
  have hruns : ((Run.exec step (@init ℕ yalnixDevices twoProcs) wholeLines).map
      fun s => s.writes.map fun w => (w.len, w.ret)) = some [(2048, 2048), (3, 3)] := by
    decide +kernel
  obtain ⟨s, hrun, hwrites⟩ := Option.map_eq_some_iff.mp hruns
  have hes : ∀ e ∈ wholeLines, InDomain e := by simp [wholeLines, InDomain]
  have hfits : Run.Along step (@ChunkFits ℕ yalnixDevices)
      (@init ℕ yalnixDevices twoProcs) wholeLines := by
    decide +kernel
  exact ⟨s, hrun, hwrites, (@ttyExact_iff ℕ yalnixDevices _ _ twoProcs _ hes hrun).1.mpr hfits⟩

/-- A process writes one byte more than a line, and is given the processor
after each trap. -/
def overlong : List (OutEvent ℕ) :=
  [.write 1 (fun _ => 7) 1025, .trap, .resume 1, .trap, .resume 1]

omit [Devices] in
/-- The second chunk of `overlong` is a whole line. -/
theorem overlong_sent :
    (Run.exec step (@init ℕ yalnixDevices twoProcs) overlong).map
      (fun s => s.writes.map fun w => (w.len, w.sent.length, w.ret)) = some [(1025, 2048, 2048)] := by
  decide +kernel

omit [Devices] in
/-- **The law fails** of a call one byte longer than a line. -/
theorem not_ttyExact :
    ¬ ∀ (D : Devices) (procs : ProcTable ℕ) (es : List (OutEvent ℕ)) (s : OutState ℕ),
      (∀ e ∈ es, InDomain e) → Run.exec step (@init ℕ D procs) es = some s → s.TtyExact := by
  intro h
  have hes : ∀ e ∈ overlong, InDomain e := by simp [overlong, InDomain]
  obtain ⟨s, hrun, hs⟩ := Option.map_eq_some_iff.mp overlong_sent
  obtain ⟨w, hw, hlen⟩ := List.map_eq_singleton_iff.mp hs
  obtain ⟨hwrites, -⟩ := h yalnixDevices twoProcs overlong s hes hrun
  obtain ⟨-, -, hret⟩ := hwrites w (by rw [hw]; exact List.mem_singleton_self w)
  simp only [Prod.mk.injEq] at hlen
  omega

end OutState

end Yalnix
