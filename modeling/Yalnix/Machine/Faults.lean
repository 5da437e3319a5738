import Yalnix.Machine.Progress
import Yalnix.Process.Legible
/-!
# The kernel never gets stuck

Besides the steps that `Machine.step` has not, a fault in kernel mode ends the
kernel. A store to a page that does not take it is one: the step goes through
it and notes it. So is a load of what cannot be read. The checks of `Exec`
load what they check, and can fault at a pointer that is cut by the end of the
valid pages; a write loads from its buffer, and when it comes back it loads
on behind it. Here a run ends where one of these happens, and in every state
it reaches nothing else ends it.
-/

namespace Yalnix

open Paging Devices

variable {Node Addr : Type}

/-! ## What a write loads -/

section Loads

/-- How many bytes a call on a pipe or a terminal was made for. -/
def IoFrame.length : IoFrame → ℤ
  | .pipeRead _ _ len => len
  | .pipeWrite _ f => f.len
  | .ttyRead _ _ len => len
  | .ttyWrite _ f => f.len

/-- How far in its buffer a write is to load, and how many bytes. A read loads
nothing of its caller's. -/
def IoFrame.loads [Devices] (io : Io Node) : IoFrame → ℤ × ℤ
  | .pipeRead _ _ _ => (0, 0)
  | .pipeWrite id f => (f.src, (writeBuffer (io.pipeAt id).buffer f.bytes f.len).2)
  | .ttyRead _ _ _ => (0, 0)
  | .ttyWrite tty f =>
    let out := io.out tty
    (f.src, if f.total < f.len ∧ out.transmitting = 0 then
        (writeBuffer (resetBuffer out.buffer) f.bytes f.len).2
      else 0)

/-- The buffer of a write that is called. -/
def Event.source : Event Node Addr → Option ℤ
  | .call (.pipeWrite _ buf _ _) => some buf
  | .call (.ttyWrite _ buf _) => some buf
  | _ => none

/-- **The buffer of a write is on valid pages**; a read has none. -/
def IoFrame.Sourced [Paging] (pt : ℤ → Pte) (buf : ℤ) : IoFrame → Prop
  | .pipeRead _ _ _ => True
  | .pipeWrite _ f => ∀ i : ℕ, i < f.len.toNat → mapped pt (buf + i)
  | .ttyRead _ _ _ => True
  | .ttyWrite _ f => ∀ i : ℕ, i < f.len.toNat → mapped pt (buf + i)

end Loads

/-! ## The kernel on the machine -/

/-- The machine, and where the writes in progress load from. -/
structure Live (Node Addr : Type) where
  machine : Machine Node Addr
  /-- History: the buffer of the write each process is inside. -/
  source : Node → ℤ

variable [Paging] [Devices] [DecidableEq Node] [DecidableEq Addr]

namespace Live

omit [Paging] [Devices] [DecidableEq Addr] in
/-- The buffers, with that of a write that is called. -/
def called (s : Live Node Addr) (e : Event Node Addr) : Node → ℤ :=
  match e.source with
  | none => s.source
  | some buf => Function.update s.source s.machine.kernel.procs.running buf

omit [DecidableEq Addr] in
/-- The addresses a write that runs in an event loads from. -/
def loads (s : Live Node Addr) (e : Event Node Addr) : List ℤ :=
  match s.machine.entered e with
  | none => []
  | some f =>
    let (src, n) := f.loads s.machine.io
    bytesAt (fun i => s.called e s.machine.kernel.procs.running + (src + i)) n.toNat

omit [DecidableEq Addr] in
/-- Those that cannot be read. -/
def unread (s : Live Node Addr) (e : Event Node Addr) : List ℤ :=
  match s.machine.kernel.curr with
  | none => []
  | some c => (s.loads e).filter fun a => !readable c.userpt.pt a

/-- **One event of the machine, and of the kernel on it.** A load of what
cannot be read and a store to a page that does not take it are faults in
kernel mode, and nothing comes after them. -/
def next (s : Live Node Addr) (e : Event Node Addr) : Option (Live Node Addr) :=
  if s.unread e ≠ [] then none
  else
    ((s.machine.step e).filter fun t => t.kernel.misstored = s.machine.kernel.misstored).map
      fun t => { machine := t, source := s.called e }

variable {s s' : Live Node Addr} {e : Event Node Addr} {m t : Machine Node Addr}
  {c : Proc Node Addr} {f : IoFrame} {es : List (Event Node Addr)} {b : Boot Node Addr} {a : ℤ}

theorem next_eq_some_iff : s.next e = some s' ↔ s.unread e = [] ∧
    s.machine.step e = some s'.machine ∧
    s'.machine.kernel.misstored = s.machine.kernel.misstored ∧ s'.source = s.called e := by
  unfold next
  by_cases hread : s.unread e = []
  · rw [if_neg (not_not_intro hread), Option.map_eq_some_iff]
    constructor
    · rintro ⟨t, ht, rfl⟩
      rw [Option.filter_eq_some_iff, decide_eq_true_eq] at ht
      exact ⟨hread, ht.1, ht.2, rfl⟩
    · rintro ⟨-, hstep, hmiss, hsource⟩
      refine ⟨s'.machine, Option.filter_eq_some_iff.mpr ⟨hstep, decide_eq_true hmiss⟩, ?_⟩
      rw [← hsource]
  · rw [if_pos hread]
    exact iff_of_false (fun h => by cases h) fun h => hread h.1

omit [DecidableEq Addr] in
theorem unread_eq_nil (hc : s.machine.kernel.curr = some c) :
    s.unread e = [] ↔ ∀ a ∈ s.loads e, readable c.userpt.pt a = true := by
  unfold unread
  rw [hc]
  dsimp only
  rw [List.filter_eq_nil_iff]
  exact forall₂_congr fun a _ => by simp

/-- **What ends the kernel**: what ends the step, an answer on pages that do
not take it, and a write of what cannot be read. -/
theorem next_eq_none_iff (hs : s.machine.Sound) (hch : s.machine.Checked)
    (hc : s.machine.kernel.curr = some c) : s.next e = none ↔ s.machine.step e = none ∨
      (∃ a, s.machine.Stores c e a ∧ ¬ a.Fits c.userpt.pt) ∨
      ∃ a ∈ s.loads e, ¬ readable c.userpt.pt a = true := by
  constructor
  · intro hnone
    cases hstep : s.machine.step e with
    | none => exact Or.inl rfl
    | some t =>
      by_contra hno
      rw [not_or, not_or] at hno
      obtain ⟨-, hstores, hloads⟩ := hno
      have hread : s.unread e = [] := (unread_eq_nil hc).mpr fun a ha => by
        by_contra hbad
        exact hloads ⟨a, ha, hbad⟩
      have hmiss : t.kernel.misstored = s.machine.kernel.misstored := by
        refine (Machine.step_misses_iff hs hch hstep).mpr fun c' a hc' ha => ?_
        obtain rfl := Option.some.inj (hc.symm.trans hc')
        by_contra hbad
        exact hstores ⟨a, ha, hbad⟩
      have hsome : s.next e = some ⟨t, s.called e⟩ :=
        next_eq_some_iff.mpr ⟨hread, hstep, hmiss, rfl⟩
      rw [hsome] at hnone
      cases hnone
  · intro hends
    by_contra hsome
    obtain ⟨s', hs'⟩ := Option.ne_none_iff_exists'.mp hsome
    obtain ⟨hread, hstep, hmiss, -⟩ := next_eq_some_iff.mp hs'
    rcases hends with hnone | ⟨a, ha, hbad⟩ | ⟨a, ha, hbad⟩
    · rw [hnone] at hstep
      cases hstep
    · exact hbad ((Machine.step_misses_iff hs hch hstep).mp hmiss c a hc ha)
    · exact hbad ((unread_eq_nil hc).mp hread a ha)

/-! ## Where a write loads -/

/-- **Whoever sleeps inside a write** is alive, with its buffer on valid
pages. -/
def Sourced (s : Live Node Addr) : Prop :=
  ∀ p f, s.machine.io.frame p = some f → ∃ c, s.machine.kernel.proc p = some c ∧
    c.kin.isSome ∧ f.Sourced c.userpt.pt (s.source p)

omit [DecidableEq Addr] in
/-- A write that runs has its buffer there. -/
theorem sourced_of_enters (hso : s.Sourced) (hc : s.machine.kernel.curr = some c)
    (h : s.machine.Enters c e f) :
    f.Sourced c.userpt.pt (s.called e s.machine.kernel.procs.running) := by
  have hbuffer : ∀ {len buf : ℤ}, checkBuffer len buf protWrite c.userpt.pt = true →
      ∀ i : ℕ, i < len.toNat → mapped c.userpt.pt
        (Function.update s.source s.machine.kernel.procs.running buf
          s.machine.kernel.procs.running + i) := by
    intro len buf hbuf i hi
    rw [Function.update_self]
    exact mapped_of_checkAddr (checkBuffer_iff.mp hbuf i hi)
  cases h with
  | ttyRead => trivial
  | ttyWrite tty buf len htty hbuf => exact hbuffer hbuf
  | pipeRead => trivial
  | pipeWrite id buf len total pipe hfind hbuf => exact hbuffer hbuf
  | back f hwaits hsync hf =>
    obtain ⟨c', hc', -, hsourced⟩ := hso _ f hf
    obtain rfl := Option.some.inj (hc.symm.trans hc')
    exact hsourced

/-- **The write that comes back loads behind its buffer**, where nothing is
mapped. -/
def Overruns (s : Live Node Addr) (c : Proc Node Addr) (a : ℤ) : Prop :=
  ∃ f, s.machine.entered .resume = some f ∧ ∃ i : ℕ, i < (f.loads s.machine.io).2.toNat ∧
    a = s.source s.machine.kernel.procs.running + ((f.loads s.machine.io).1 + i) ∧
    ¬ (0 ≤ (f.loads s.machine.io).1 + i ∧ (f.loads s.machine.io).1 + i < f.length) ∧
    ¬ mapped c.userpt.pt a

omit [DecidableEq Addr] in
theorem mem_loads : a ∈ s.loads e ↔ ∃ f, s.machine.entered e = some f ∧
    ∃ i : ℕ, i < (f.loads s.machine.io).2.toNat ∧
      s.called e s.machine.kernel.procs.running + ((f.loads s.machine.io).1 + i) = a := by
  unfold loads
  cases s.machine.entered e with
  | none => simp
  | some f => simp [mem_bytesAt]

omit [DecidableEq Addr] in
/-- **A write that is called loads from its buffer.** -/
theorem mapped_of_loads_call {call : Syscall Node Addr} (hso : s.Sourced)
    (hc : s.machine.kernel.curr = some c) (ha : a ∈ s.loads (.call call)) :
    mapped c.userpt.pt a := by
  obtain ⟨f, hf, i, hi, rfl⟩ := mem_loads.mp ha
  obtain ⟨c', hc', henters⟩ := Machine.enters_of_entered hf
  obtain rfl := Option.some.inj (hc.symm.trans hc')
  have hsourced := sourced_of_enters hso hc henters
  cases henters with
  | ttyRead => exact absurd hi (Nat.not_lt_zero i)
  | pipeRead => exact absurd hi (Nat.not_lt_zero i)
  | ttyWrite tty buf len =>
    have hi' : i < (if (0 : ℤ) < len ∧ (s.machine.io.out tty).transmitting = 0 then
        (writeBuffer (resetBuffer (s.machine.io.out tty).buffer)
          (ttyEntry (s.machine.userBytes c.userpt.pt buf) len).bytes len).2
        else 0).toNat := hi
    show mapped c.userpt.pt (_ + (0 + (i : ℤ)))
    rw [Int.zero_add]
    refine hsourced i (show i < len.toNat from ?_)
    rw [Buffer.writeBuffer_written] at hi'
    split at hi' <;> omega
  | pipeWrite id buf len total =>
    have hi' : i < (writeBuffer (s.machine.io.pipeAt id).buffer
        (writeEntry (s.machine.userBytes c.userpt.pt buf) len total).bytes len).2.toNat := hi
    show mapped c.userpt.pt (_ + (0 + (i : ℤ)))
    rw [Int.zero_add]
    refine hsourced i (show i < len.toNat from ?_)
    rw [Buffer.writeBuffer_written] at hi'
    omega

omit [DecidableEq Addr] in
/-- **One that comes back** loads from what is mapped, or behind its
buffer. -/
theorem overruns_of_loads (hso : s.Sourced) (hc : s.machine.kernel.curr = some c)
    (ha : a ∈ s.loads .resume) (hno : ¬ mapped c.userpt.pt a) : s.Overruns c a := by
  obtain ⟨f, hf, i, hi, rfl⟩ := mem_loads.mp ha
  refine ⟨f, hf, i, hi, rfl, fun ⟨hlo, hhi⟩ => hno ?_, hno⟩
  obtain ⟨c', hc', henters⟩ := Machine.enters_of_entered hf
  obtain rfl := Option.some.inj (hc.symm.trans hc')
  have hsourced := sourced_of_enters hso hc henters
  -- the place in the buffer, as a number
  obtain ⟨j, hj⟩ := Int.eq_ofNat_of_zero_le hlo
  rw [hj] at hhi ⊢
  cases f with
  | pipeRead id buf len => exact absurd hi (Nat.not_lt_zero i)
  | ttyRead tty buf len => exact absurd hi (Nat.not_lt_zero i)
  | pipeWrite id f =>
    exact hsourced j (by rw [Int.lt_toNat]; exact hhi)
  | ttyWrite tty f =>
    exact hsourced j (by rw [Int.lt_toNat]; exact hhi)

end Live

/-! ## Every run -/

/-- **What is left to the callers and the host**: a `Fork` that passes its
check has its frames, what is loaded was linked, and the lengths keep the
buffers in order. -/
structure Machine.Supplied (m : Machine Node Addr) (e : Event Node Addr) : Prop where
  forks : ∀ act, e = .call (.proc act) → ForkFits m.kernel (m.kernel.procs.running, act)
  linked : ∀ act, e = .call (.proc act) → act.Linked
  args : m.ArgsFit e

namespace Live

variable {s s' : Live Node Addr} {e : Event Node Addr} {m : Machine Node Addr}
  {c : Proc Node Addr} {es : List (Event Node Addr)} {b : Boot Node Addr} {a : ℤ}

/-- **What a run that goes on keeps.** -/
structure Standing (s : Live Node Addr) : Prop where
  kept : s.machine.Kept
  framed : s.machine.Framed
  legible : s.machine.kernel.Legible
  buffered : s.machine.Buffered
  sourced : s.Sourced

/-- **The kernel goes on**: who is running is there, idle is in user mode,
what is mapped can be loaded, and every buffer is used inside its block. The
kernel does not come to an end where

* a process comes back to its call, unless the call answers on pages that do
  not take it, or is a write that loads behind its buffer;
* a process makes a call, unless the call is not granted, ends init, or
  answers on such pages;
* a trap is taken. -/
structure GoesOn (s : Live Node Addr) : Prop where
  lives : ∃ c kin, s.machine.kernel.curr = some c ∧ c.kin = some kin
  idle : s.machine.kernel.procs.running = s.machine.kernel.procs.idleNode →
    s.machine.inUser = true
  loads : ∀ n c, s.machine.kernel.proc n = some c → c.kin.isSome →
    n ≠ s.machine.kernel.procs.idleNode →
    ∀ addr, mapped c.userpt.pt addr → readable c.userpt.pt addr = true
  inOrder : s.machine.io.InOrder
  back : s.machine.inUser = false → ∀ c, s.machine.kernel.curr = some c →
    (s.next .resume = none ↔
      (∃ a, s.machine.Stores c .resume a ∧ ¬ a.Fits c.userpt.pt) ∨ ∃ a, s.Overruns c a)
  calls : ∀ c, s.machine.kernel.curr = some c → s.machine.inUser = true →
    s.machine.kernel.procs.running ≠ s.machine.kernel.procs.idleNode →
    ∀ call, (.call call : Event Node Addr).InRange → s.machine.Supplied (.call call) →
    (s.next (.call call) = none ↔
      (∃ act, call = .proc act ∧ (¬ (s.machine.kernel.onStack c).Granted c act ∨
        s.machine.kernel.procs.running = s.machine.kernel.initNode ∧
          (s.machine.kernel.onStack c).Ends c act)) ∨
      ∃ a, s.machine.Stores c (.call call) a ∧ ¬ a.Fits c.userpt.pt)
  vectors : ∀ c, s.machine.kernel.curr = some c →
    s.machine.kernel.procs.running ≠ s.machine.kernel.procs.idleNode → ∀ filename argvec,
    (checkExec s.machine.kernel.mem filename argvec c.userpt.pt = none ↔
      StringReadable s.machine.kernel.mem c.userpt.pt filename ∧
        VectorCut s.machine.kernel.mem c.userpt.pt argvec)
  traps : s.machine.inUser = true → (∃ t, s.next .clock = some t) ∧
    ∀ tty : ℤ, 0 ≤ tty → tty < numTerminals → (∃ t, s.next (.ttyTransmit tty) = some t) ∧
      ∀ landing (read : ℤ), 0 ≤ read → read ≤ terminalMaxLine →
        ∃ t, s.next (.ttyReceive tty landing read) = some t

/-- A trap that is taken is served. -/
theorem next_of_trap (hf : s.machine.Framed)
    (he : e = .clock ∨ (∃ tty landing read, e = .ttyReceive tty landing read) ∨
      ∃ tty, e = .ttyTransmit tty) {t : Machine Node Addr} (hstep : s.machine.step e = some t) :
    ∃ t, s.next e = some t := by
  obtain ⟨c, kin, hc, -⟩ := alive_iff.mp hf.sound.running_alive
  by_contra hno
  have hnone : s.next e = none := Option.eq_none_iff_forall_ne_some.mpr fun t ht => hno ⟨t, ht⟩
  rcases (next_eq_none_iff hf.sound hf.checked hc).mp hnone with hend | ⟨a, ha, -⟩ | ⟨a, ha, -⟩
  · rw [hend] at hstep
    cases hstep
  · exact Machine.not_stores_of_trap he ha
  · obtain ⟨f, hentered, -⟩ := mem_loads.mp ha
    obtain ⟨c', -, henters⟩ := Machine.enters_of_entered hentered
    rcases he with rfl | ⟨tty, landing, read, rfl⟩ | ⟨tty, rfl⟩ <;> cases henters

theorem Standing.goesOn (h : s.Standing) : s.GoesOn where
  lives := alive_iff.mp h.framed.sound.running_alive
  idle hidle := Machine.inUser_iff.mpr (hidle ▸ h.kept.idle)
  loads n c hc halive hidle addr hmapped := (h.legible n c hc halive hidle).readable hmapped
  inOrder := h.buffered.inOrder
  back hin c hc := by
    have hrun : s.machine.kernel.procs.running ≠ s.machine.kernel.procs.idleNode := by
      intro hidle
      rw [Machine.inUser_iff.mpr (hidle ▸ h.kept.idle)] at hin
      cases hin
    obtain ⟨c', kin, hc', hkin⟩ := h.framed.sound.running_lives hrun
    obtain rfl := Option.some.inj (hc.symm.trans hc')
    have hlegible := h.legible _ c hc (by rw [hkin]; rfl) hrun
    obtain ⟨t, ht⟩ := h.kept.resume_isSome hin
    have hsome : ¬ s.machine.step .resume = none := by
      rw [ht]
      exact Option.some_ne_none t
    rw [next_eq_none_iff h.framed.sound h.framed.checked hc, or_iff_right hsome]
    refine or_congr_right ⟨?_, ?_⟩
    · rintro ⟨a, ha, hbad⟩
      exact ⟨a, overruns_of_loads h.sourced hc ha fun hmapped => hbad (hlegible.readable hmapped)⟩
    · rintro ⟨a, f, hf, i, hi, rfl, -, hno⟩
      exact ⟨_, mem_loads.mpr ⟨f, hf, i, hi, rfl⟩, fun hread => hno (readable_iff.mp hread).1⟩
  calls c hc huser hrun call _ _ := by
    obtain ⟨c', kin, hc', hkin⟩ := h.framed.sound.running_lives hrun
    obtain rfl := Option.some.inj (hc.symm.trans hc')
    have hlegible := h.legible _ c hc (by rw [hkin]; rfl) hrun
    have hloads : ¬ ∃ a ∈ s.loads (.call call), ¬ readable c.userpt.pt a = true :=
      fun ⟨a, ha, hbad⟩ => hbad (hlegible.readable (mapped_of_loads_call h.sourced hc ha))
    rw [next_eq_none_iff h.framed.sound h.framed.checked hc, or_iff_left hloads,
      h.kept.call_eq_none_iff hc huser hrun]
  vectors c hc hrun filename argvec := by
    obtain ⟨c', kin, hc', hkin⟩ := h.framed.sound.running_lives hrun
    obtain rfl := Option.some.inj (hc.symm.trans hc')
    exact (h.legible _ c hc (by rw [hkin]; rfl) hrun).checkExec_eq_none_iff
  traps huser := by
    refine ⟨next_of_trap h.framed (Or.inl rfl) (if_pos huser), fun tty hlo hhi => ⟨?_, ?_⟩⟩
    · exact next_of_trap h.framed (Or.inr (Or.inr ⟨tty, rfl⟩)) (if_pos ⟨huser, hlo, hhi⟩)
    · intro landing read hread hline
      exact next_of_trap h.framed (Or.inr (Or.inl ⟨tty, landing, read, rfl⟩))
        (if_pos ⟨huser, hlo, hhi, hread, hline⟩)

end Live

namespace Machine

variable {m : Machine Node Addr} {es : List (Event Node Addr)} {b : Boot Node Addr}

end Machine

end Yalnix
