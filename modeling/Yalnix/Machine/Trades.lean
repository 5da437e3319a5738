import Yalnix.Machine.Sound
/-!
# The events of the machine, one by one

`step_cases` says which of the three things an event does, and `Sound.step`
that each of them keeps the law.
-/

namespace Yalnix

variable {Node Addr : Type} [DecidableEq Node]

/-! ## Stores to pipes and terminals -/

section Io

variable [Devices] {io : Io Node} {id tty : ℤ} {pipe : Pipe Node}

theorem Io.held_store_pipe (h : Filed.find io.pipe id = some pipe) (pipe' : Pipe Node)
    (stalled : List Node) (n : Node) :
    Io.held { io with pipe := Filed.store io.pipe id pipe', stalled := stalled } n + pipe.held n =
      io.held n + pipe'.held n := by
  have := Filed.total_store (f := fun p : Pipe Node => p.held n) (x := pipe') h
  unfold Io.held
  dsimp only
  omega

theorem Io.held_store_input (hlo : 0 ≤ tty) (hhi : tty < Devices.numTerminals) (inp : Ttyio Node)
    (touched : List ℤ) (stalled : List Node) (n : Node) :
    Io.held { io with
        input := Function.update io.input tty inp
        touched := touched
        stalled := stalled } n + (io.input tty).blocked.count n =
      io.held n + inp.blocked.count n := by
  have := ttyTotal_update (fun t => t.blocked.count n) io.input hlo hhi inp
  unfold Io.held
  dsimp only at this ⊢
  omega

theorem Io.held_store_out (hlo : 0 ≤ tty) (hhi : tty < Devices.numTerminals) (out : Ttyio Node)
    (touched : List ℤ) (n : Node) :
    Io.held { io with
        out := Function.update io.out tty out
        touched := touched } n + (io.out tty).blocked.count n =
      io.held n + out.blocked.count n := by
  have := ttyTotal_update (fun t => t.blocked.count n) io.out hlo hhi out
  unfold Io.held
  dsimp only at this ⊢
  omega

end Io

namespace Machine

variable [Devices] {m t : Machine Node Addr}

/-- A trade with the pipes and terminals is one of the machine. -/
theorem trades_of_io {procs : ProcTable Node} {held held' : Node → ℕ}
    (hfamily : t.kernel.family = m.kernel.family) (hwaits : t.kernel.waits = m.kernel.waits)
    (hprocs : t.kernel.procs = procs) (hsync : t.sync = m.sync)
    (htrade : Trade m.kernel.procs procs held held')
    (hio : ∀ n, t.io.held n + held n = m.io.held n + held' n) : m.Trades t := by
  refine ⟨hfamily, hwaits, ?_⟩
  rw [hprocs]
  refine htrade.frame _ _ fun n => ?_
  have := hio n
  unfold Machine.held
  rw [hsync]
  omega

/-- What leaves the queues and the families alone trades nothing. -/
theorem trades_of_eq (hfamily : t.kernel.family = m.kernel.family)
    (hwaits : t.kernel.waits = m.kernel.waits) (hprocs : t.kernel.procs = m.kernel.procs)
    (hheld : ∀ n, t.held n = m.held n) : m.Trades t := by
  refine ⟨hfamily, hwaits, ?_⟩
  rw [hprocs]
  exact (Trade.refl m.kernel.procs m.held).frame _ _ fun n => by rw [hheld]

/-! ## Pipes and terminals -/

section Calls

variable [Paging] {pt : ℤ → Pte} {id tty : ℤ} {pipe pipe' : Pipe Node} {buf len : ℤ}

section Run

variable (hrun : m.kernel.procs.running ≠ m.kernel.procs.idleNode)
  (hidle : m.kernel.procs.idleNode ∉ m.kernel.procs.places)

include hrun hidle

theorem trades_runPipeRead (hfind : Filed.find m.io.pipe id = some pipe)
    (hsame : pipe'.held = pipe.held) : m.Trades (m.runPipeRead pt id pipe' buf len).1 := by
  have htrade := trade_readPipe hrun hidle pipe' len
  rw [hsame] at htrade
  exact trades_of_io rfl rfl rfl rfl htrade fun n =>
    Io.held_store_pipe hfind (readPipe m.kernel.procs pipe' len).2.1 _ n

omit [Paging] in
theorem trades_runPipeWrite (hfind : Filed.find m.io.pipe id = some pipe)
    (hsame : pipe'.held = pipe.held) (f : WriteFrame) :
    m.Trades (m.runPipeWrite id pipe' f).1 := by
  have htrade := trade_writePipe hrun hidle pipe' f
  rw [hsame] at htrade
  exact trades_of_io rfl rfl rfl rfl htrade fun n =>
    Io.held_store_pipe hfind (writePipe m.kernel.procs pipe' f).2.1 _ n

theorem trades_runTtyRead (hlo : 0 ≤ tty) (hhi : tty < Devices.numTerminals) :
    m.Trades (m.runTtyRead pt tty buf len).1 :=
  trades_of_io rfl rfl rfl rfl (trade_readTty hrun hidle (m.io.input tty) len) fun n =>
    Io.held_store_input hlo hhi (readTty m.kernel.procs (m.io.input tty) len).2.1 _ _ n

omit [Paging] in
theorem trades_runTtyWrite (hlo : 0 ≤ tty) (hhi : tty < Devices.numTerminals) (f : TtyFrame) :
    m.Trades (m.runTtyWrite tty f).1 :=
  trades_of_io rfl rfl rfl rfl (trade_writeTty hrun hidle (m.io.out tty) f) fun n =>
    Io.held_store_out hlo hhi (writeTty m.kernel.procs (m.io.out tty) f).2.1 _ n

end Run

/-- **What a call on a pipe or a terminal does**, before it leaves. -/
structure Runs (m : Machine Node Addr) (r : Machine Node Addr × Outcome IoFrame) : Prop where
  trades : m.Trades r.1
  sync : r.1.sync = m.sync
  count : r.1.count = m.count
  codes : r.1.io.pipe.map Filed.code = m.io.pipe.map Filed.code
  frame : r.1.io.frame = m.io.frame
  inRange : ∀ f, r.2 = .blocked f → f.InRange

omit [DecidableEq Node] [Devices] [Paging] in
theorem blocked_of_map {κ κ' : Type} {g : κ → κ'} {out : Outcome κ} {f : κ'}
    (h : out.map g = .blocked f) : ∃ f₀, out = .blocked f₀ ∧ f = g f₀ := by
  cases out with
  | returned v => cases h
  | blocked f₀ => exact ⟨f₀, rfl, (Outcome.blocked.inj h).symm⟩

omit [Paging] in
theorem Runs.refused (m : Machine Node Addr) (v : ℤ) : m.Runs (m, .returned v) :=
  ⟨trades_of_eq rfl rfl rfl fun _ => rfl, rfl, rfl, rfl, rfl, fun _ h => by cases h⟩

/-- A call on a pipe or a terminal, made or come back to. -/
inductive IoCall (m : Machine Node Addr) (c : Proc Node Addr) :
    Event Node Addr → Machine Node Addr × Outcome IoFrame → Prop
  | ttyRead (tty buf len : ℤ) :
      IoCall m c (.call (.ttyRead tty buf len)) (m.kernelTtyRead c.userpt.pt tty buf len)
  | ttyWrite (tty buf len : ℤ) :
      IoCall m c (.call (.ttyWrite tty buf len)) (m.kernelTtyWrite c.userpt.pt tty buf len)
  | pipeRead (pipe buf len : ℤ) :
      IoCall m c (.call (.pipeRead pipe buf len)) (m.kernelPipeRead c.userpt.pt pipe buf len)
  | pipeWrite (pipe buf len total : ℤ) :
      IoCall m c (.call (.pipeWrite pipe buf len total))
        (m.kernelPipeWrite c.userpt.pt pipe buf len total)
  | back (f : IoFrame) (r : Machine Node Addr × Outcome IoFrame)
      (hf : m.io.frame m.kernel.procs.running = some f)
      (hr : m.resumeIo c.userpt.pt f = some r) : IoCall m c .resume r

omit [DecidableEq Node] in
/-- **The event enters one of the four functions**: a call past its checks,
or one that comes back from its block. -/
inductive Enters (m : Machine Node Addr) (c : Proc Node Addr) : Event Node Addr → IoFrame → Prop
  | ttyRead (tty buf len : ℤ) (htty : tty < Devices.numTerminals)
      (hbuf : checkBuffer len buf protRead c.userpt.pt = true) :
      Enters m c (.call (.ttyRead tty buf len)) (.ttyRead tty buf len)
  | ttyWrite (tty buf len : ℤ) (htty : tty < Devices.numTerminals)
      (hbuf : checkBuffer len buf protWrite c.userpt.pt = true) :
      Enters m c (.call (.ttyWrite tty buf len))
        (.ttyWrite tty (ttyEntry (m.userBytes c.userpt.pt buf) len))
  | pipeRead (id buf len : ℤ) (pipe : Pipe Node) (hfind : Filed.find m.io.pipe id = some pipe)
      (hbuf : checkBuffer len buf protRead c.userpt.pt = true) :
      Enters m c (.call (.pipeRead id buf len)) (.pipeRead id buf len)
  | pipeWrite (id buf len total : ℤ) (pipe : Pipe Node)
      (hfind : Filed.find m.io.pipe id = some pipe)
      (hbuf : checkBuffer len buf protWrite c.userpt.pt = true) :
      Enters m c (.call (.pipeWrite id buf len total))
        (.pipeWrite id (writeEntry (m.userBytes c.userpt.pt buf) len total))
  | back (f : IoFrame) (hwaits : m.kernel.waits m.kernel.procs.running = none)
      (hsync : m.sync.frame m.kernel.procs.running = none)
      (hf : m.io.frame m.kernel.procs.running = some f) : Enters m c .resume f

/-- **The function it runs**, on a pipe that is filed. A pipe call that comes
back counts itself fulfilled first. -/
inductive Activates (m : Machine Node Addr) (c : Proc Node Addr) :
    Event Node Addr → IoFrame → Machine Node Addr × Outcome IoFrame → Prop
  | ttyRead (tty buf len : ℤ) (htty : tty < Devices.numTerminals)
      (hbuf : checkBuffer len buf protRead c.userpt.pt = true) :
      Activates m c (.call (.ttyRead tty buf len)) (.ttyRead tty buf len)
        (m.runTtyRead c.userpt.pt tty buf len)
  | ttyWrite (tty buf len : ℤ) (htty : tty < Devices.numTerminals)
      (hbuf : checkBuffer len buf protWrite c.userpt.pt = true) :
      Activates m c (.call (.ttyWrite tty buf len))
        (.ttyWrite tty (ttyEntry (m.userBytes c.userpt.pt buf) len))
        (m.runTtyWrite tty (ttyEntry (m.userBytes c.userpt.pt buf) len))
  | pipeRead (id buf len : ℤ) (pipe : Pipe Node) (hfind : Filed.find m.io.pipe id = some pipe)
      (hbuf : checkBuffer len buf protRead c.userpt.pt = true) :
      Activates m c (.call (.pipeRead id buf len)) (.pipeRead id buf len)
        (m.runPipeRead c.userpt.pt id pipe buf len)
  | pipeWrite (id buf len total : ℤ) (pipe : Pipe Node)
      (hfind : Filed.find m.io.pipe id = some pipe)
      (hbuf : checkBuffer len buf protWrite c.userpt.pt = true) :
      Activates m c (.call (.pipeWrite id buf len total))
        (.pipeWrite id (writeEntry (m.userBytes c.userpt.pt buf) len total))
        (m.runPipeWrite id pipe (writeEntry (m.userBytes c.userpt.pt buf) len total))
  | ttyReadBack (tty buf len : ℤ)
      (hf : m.io.frame m.kernel.procs.running = some (.ttyRead tty buf len)) :
      Activates m c .resume (.ttyRead tty buf len) (m.runTtyRead c.userpt.pt tty buf len)
  | ttyWriteBack (tty : ℤ) (f : TtyFrame)
      (hf : m.io.frame m.kernel.procs.running = some (.ttyWrite tty f)) :
      Activates m c .resume (.ttyWrite tty f) (m.runTtyWrite tty f)
  | pipeReadBack (id buf len : ℤ) (pipe : Pipe Node)
      (hfind : Filed.find m.io.pipe id = some pipe)
      (hf : m.io.frame m.kernel.procs.running = some (.pipeRead id buf len)) :
      Activates m c .resume (.pipeRead id buf len)
        (m.runPipeRead c.userpt.pt id { pipe with unfulfilled := pipe.unfulfilled - 1 } buf len)
  | pipeWriteBack (id : ℤ) (f : WriteFrame) (pipe : Pipe Node)
      (hfind : Filed.find m.io.pipe id = some pipe)
      (hf : m.io.frame m.kernel.procs.running = some (.pipeWrite id f)) :
      Activates m c .resume (.pipeWrite id f)
        (m.runPipeWrite id { pipe with unfulfilled := pipe.unfulfilled - 1 } f)

omit [DecidableEq Node] in
/-- **The cases of a call on a pipe or a terminal**: its checks refuse it, or
it runs its function. -/
theorem IoCall.cases {c : Proc Node Addr} {e : Event Node Addr}
    {r : Machine Node Addr × Outcome IoFrame} (h : m.IoCall c e r) :
    (r = (m, .returned errorCode) ∧ e ≠ .resume ∧ ∀ f, ¬ m.Enters c e f) ∨
      ∃ f, m.Activates c e f r := by
  -- a call tests its arguments first, and fails where `Enters` does
  cases h with
  | ttyRead tty buf len =>
    unfold kernelTtyRead
    split
    · rename_i hrefused
      refine Or.inl ⟨rfl, by simp, fun f hf => ?_⟩
      cases hf with
      | ttyRead _ _ _ htty hbuf => exact hrefused.elim (by omega) (absurd hbuf)
    · rename_i hgo
      rw [not_or, not_le, not_not] at hgo
      exact Or.inr ⟨_, Activates.ttyRead tty buf len hgo.1 hgo.2⟩
  | ttyWrite tty buf len =>
    unfold kernelTtyWrite
    split
    · rename_i hrefused
      refine Or.inl ⟨rfl, by simp, fun f hf => ?_⟩
      cases hf with
      | ttyWrite _ _ _ htty hbuf => exact hrefused.elim (by omega) (absurd hbuf)
    · rename_i hgo
      rw [not_or, not_le, not_not] at hgo
      exact Or.inr ⟨_, Activates.ttyWrite tty buf len hgo.1 hgo.2⟩
  | pipeRead id buf len =>
    unfold kernelPipeRead
    cases hfind : Filed.find m.io.pipe id with
    | none =>
      refine Or.inl ⟨rfl, by simp, fun f hf => ?_⟩
      cases hf with
      | pipeRead _ _ _ pipe hpipe hbuf => exact absurd (hfind.symm.trans hpipe) (by simp)
    | some pipe =>
      dsimp only
      split
      · rename_i hrefused
        refine Or.inl ⟨rfl, by simp, fun f hf => ?_⟩
        cases hf with
        | pipeRead _ _ _ pipe hpipe hbuf => exact hrefused hbuf
      · rename_i hbuf
        exact Or.inr ⟨_, Activates.pipeRead id buf len pipe hfind (not_not.mp hbuf)⟩
  | pipeWrite id buf len total =>
    unfold kernelPipeWrite
    cases hfind : Filed.find m.io.pipe id with
    | none =>
      refine Or.inl ⟨rfl, by simp, fun f hf => ?_⟩
      cases hf with
      | pipeWrite _ _ _ _ pipe hpipe hbuf => exact absurd (hfind.symm.trans hpipe) (by simp)
    | some pipe =>
      dsimp only
      split
      · rename_i hrefused
        refine Or.inl ⟨rfl, by simp, fun f hf => ?_⟩
        cases hf with
        | pipeWrite _ _ _ _ pipe hpipe hbuf => exact hrefused hbuf
      · rename_i hbuf
        exact Or.inr ⟨_, Activates.pipeWrite id buf len total pipe hfind (not_not.mp hbuf)⟩
  | back f r hf hr =>
    -- coming back repeats none of the tests
    refine Or.inr ⟨f, ?_⟩
    cases f with
    | pipeRead id buf len =>
      obtain ⟨pipe, hfind, rfl⟩ := Option.map_eq_some_iff.mp hr
      exact Activates.pipeReadBack id buf len pipe hfind hf
    | pipeWrite id f =>
      obtain ⟨pipe, hfind, rfl⟩ := Option.map_eq_some_iff.mp hr
      exact Activates.pipeWriteBack id f pipe hfind hf
    | ttyRead tty buf len =>
      obtain rfl := Option.some.inj hr
      exact Activates.ttyReadBack tty buf len hf
    | ttyWrite tty f =>
      obtain rfl := Option.some.inj hr
      exact Activates.ttyWriteBack tty f hf

section Run

variable (hrun : m.kernel.procs.running ≠ m.kernel.procs.idleNode)
  (hidle : m.kernel.procs.idleNode ∉ m.kernel.procs.places)

include hrun hidle

theorem runs_pipeRead (hfind : Filed.find m.io.pipe id = some pipe)
    (hsame : pipe'.held = pipe.held) : m.Runs (m.runPipeRead pt id pipe' buf len) := by
  refine ⟨trades_runPipeRead hrun hidle hfind hsame, rfl, rfl, Filed.map_code_store, rfl,
    fun f hf => ?_⟩
  obtain ⟨f₀, -, rfl⟩ := blocked_of_map hf
  trivial

omit [Paging] in
theorem runs_pipeWrite (hfind : Filed.find m.io.pipe id = some pipe)
    (hsame : pipe'.held = pipe.held) (f : WriteFrame) : m.Runs (m.runPipeWrite id pipe' f) := by
  refine ⟨trades_runPipeWrite hrun hidle hfind hsame f, rfl, rfl, Filed.map_code_store, rfl,
    fun f hf => ?_⟩
  obtain ⟨f₀, -, rfl⟩ := blocked_of_map hf
  trivial

theorem runs_ttyRead (hlo : 0 ≤ tty) (hhi : tty < Devices.numTerminals) :
    m.Runs (m.runTtyRead pt tty buf len) := by
  refine ⟨trades_runTtyRead hrun hidle hlo hhi, rfl, rfl, rfl, rfl, fun f hf => ?_⟩
  obtain ⟨f₀, -, rfl⟩ := blocked_of_map hf
  exact ⟨hlo, hhi⟩

omit [Paging] in
theorem runs_ttyWrite (hlo : 0 ≤ tty) (hhi : tty < Devices.numTerminals) (f : TtyFrame) :
    m.Runs (m.runTtyWrite tty f) := by
  refine ⟨trades_runTtyWrite hrun hidle hlo hhi f, rfl, rfl, rfl, rfl, fun f hf => ?_⟩
  obtain ⟨f₀, -, rfl⟩ := blocked_of_map hf
  exact ⟨hlo, hhi⟩

/-- **Every call on a pipe or a terminal** trades with its queues. -/
theorem IoCall.runs {c : Proc Node Addr} {e : Event Node Addr}
    {r : Machine Node Addr × Outcome IoFrame}
    (hframes : ∀ p f, m.io.frame p = some f → f.InRange) (he : e.InRange)
    (h : m.IoCall c e r) : m.Runs r := by
  rcases h.cases with ⟨rfl, -⟩ | ⟨f, hact⟩
  · exact Runs.refused m _
  cases hact with
  | ttyRead tty buf len htty => exact runs_ttyRead hrun hidle he htty
  | ttyWrite tty buf len htty => exact runs_ttyWrite hrun hidle he htty _
  | pipeRead id buf len pipe hfind => exact runs_pipeRead hrun hidle hfind rfl
  | pipeWrite id buf len total pipe hfind => exact runs_pipeWrite hrun hidle hfind rfl _
  | ttyReadBack tty buf len hf =>
    obtain ⟨hlo, hhi⟩ := hframes _ _ hf
    exact runs_ttyRead hrun hidle hlo hhi
  | ttyWriteBack tty f hf =>
    obtain ⟨hlo, hhi⟩ := hframes _ _ hf
    exact runs_ttyWrite hrun hidle hlo hhi f
  | pipeReadBack id buf len pipe hfind =>
    exact runs_pipeRead hrun hidle hfind (rfl : _ = pipe.held)
  | pipeWriteBack id f pipe hfind =>
    have hsame : Pipe.held { pipe with unfulfilled := pipe.unfulfilled - 1 } = pipe.held := rfl
    exact runs_pipeWrite hrun hidle hfind hsame f

end Run

omit [Paging] [Devices] in
/-- Leaving a call on a pipe or a terminal touches its frame only. -/
theorem leaveIo_kernel {p : Node} {r : Machine Node Addr × Outcome IoFrame} :
    (leaveIo p r).kernel = r.1.kernel := by
  obtain ⟨t, out⟩ := r
  cases out <;> rfl

omit [Paging] in
/-- A frame kept or dropped moves nobody. -/
theorem Runs.leaveIo {r : Machine Node Addr × Outcome IoFrame} (h : m.Runs r)
    (hframes : ∀ p f, m.io.frame p = some f → f.InRange) (p : Node) :
    m.Trades (Machine.leaveIo p r) ∧
      ∀ q f, (Machine.leaveIo p r).io.frame q = some f → f.InRange := by
  have hframe := h.frame
  have hinRange := h.inRange
  have htrades := h.trades
  obtain ⟨t, out⟩ := r
  dsimp only at hframe hinRange htrades
  cases out with
  | returned v =>
    refine ⟨⟨htrades.proc, htrades.waits, htrades.trade⟩, fun q f hf => ?_⟩
    have hf' : Function.update t.io.frame p none q = some f := hf
    rcases eq_or_ne q p with rfl | hne
    · rw [Function.update_self] at hf'
      cases hf'
    · rw [Function.update_of_ne hne, hframe] at hf'
      exact hframes q f hf'
  | blocked f₀ =>
    refine ⟨⟨htrades.proc, htrades.waits, htrades.trade⟩, fun q f hf => ?_⟩
    have hf' : Function.update t.io.frame p (some f₀) q = some f := hf
    rcases eq_or_ne q p with rfl | hne
    · rw [Function.update_self] at hf'
      exact hinRange f (congrArg _ (Option.some.inj hf'))
    · rw [Function.update_of_ne hne, hframe] at hf'
      exact hframes q f hf'

/-! ## Making objects, delays and traps -/

/-- A call that makes an object. -/
inductive InitCall (m : Machine Node Addr) (c : Proc Node Addr) :
    Syscall Node Addr → Machine Node Addr × ℤ → Prop
  | pipeInit (idp : ℤ) : InitCall m c (.pipeInit idp) (m.kernelPipeInit c.userpt.pt idp)
  | lockInit (idp : ℤ) : InitCall m c (.lockInit idp) (m.kernelLockInit c.userpt.pt idp)
  | cvarInit (idp second : ℤ) :
      InitCall m c (.cvarInit idp second) (m.kernelCvarInit c.userpt.pt idp second)

/-- **What it does**: nothing, or a new object is filed under the next
id. -/
structure Made (m t : Machine Node Addr) : Prop where
  trades : m.Trades t
  procs : t.kernel.procs = m.kernel.procs
  frame : t.io.frame = m.io.frame
  syncFrame : t.sync.frame = m.sync.frame
  log : t.sync.log = m.sync.log
  filed : (t.count = m.count ∧ t.sync = m.sync ∧ t.io.pipe = m.io.pipe) ∨
    t.count = m.count + 1 ∧
      ((t.sync = m.sync ∧ t.io.pipe = m.io.pipe ++ [⟨m.count, newPipe⟩]) ∨
        (t.io.pipe = m.io.pipe ∧
          (t.sync = { m.sync with lock := m.sync.lock ++ [⟨m.count, newLock⟩] } ∨
            ∃ second,
              t.sync = { m.sync with cvar := m.sync.cvar ++ [⟨m.count, newCvar second⟩] })))

omit [DecidableEq Node] [Devices] in
/-- The three of them refuse, or make the object and store its id. -/
theorem initObject_cases {idp : ℤ} {new : ℤ → Machine Node Addr → Machine Node Addr}
    {r : Machine Node Addr × ℤ} (h : m.initObject pt idp new = r) :
    r = (m, errorCode) ∨ ∃ k : Kernel Node Addr,
      r = ({ new m.count { m with count := m.count + 1 } with kernel := k }, 0) ∧
      ((k = (new m.count { m with count := m.count + 1 }).kernel) ∨
        k = storeUser (new m.count { m with count := m.count + 1 }).kernel pt idp
          (wordBytes m.count)) := by
  unfold initObject at h
  split at h
  · exact Or.inl h.symm
  · split at h
    · exact Or.inl h.symm
    · dsimp only at h
      rw [← h]
      split
      · exact Or.inr ⟨_, rfl, Or.inr rfl⟩
      · exact Or.inr ⟨_, rfl, Or.inl rfl⟩

omit [Paging] in
theorem Made.refl (m : Machine Node Addr) : m.Made m :=
  ⟨trades_of_eq rfl rfl rfl fun _ => rfl, rfl, rfl, rfl, rfl, Or.inl ⟨rfl, rfl, rfl⟩⟩

/-- Storing the new id for the caller changes nothing of it. -/
theorem made_initObject {idp : ℤ} {new : ℤ → Machine Node Addr → Machine Node Addr}
    (h : m.Made (new m.count { m with count := m.count + 1 })) :
    m.Made (m.initObject pt idp new).1 := by
  rcases initObject_cases (rfl : m.initObject pt idp new = _) with heq | ⟨k, heq, hk⟩
  · rw [heq]
    exact Made.refl m
  · rw [heq]
    obtain ⟨⟨hfamily, hwaits, htrade⟩, hprocs, hframe, hsync, hlog, hfiled⟩ := h
    rcases hk with rfl | rfl
    · exact ⟨⟨hfamily, hwaits, htrade⟩, hprocs, hframe, hsync, hlog, hfiled⟩
    · exact ⟨⟨hfamily, hwaits, htrade⟩, hprocs, hframe, hsync, hlog, hfiled⟩

/-- **Nobody is on the queues of a new object.** -/
theorem InitCall.made {c : Proc Node Addr} {s : Syscall Node Addr}
    {r : Machine Node Addr × ℤ} (h : m.InitCall c s r) : m.Made r.1 := by
  cases h with
  | pipeInit idp =>
    refine made_initObject ⟨trades_of_eq rfl rfl rfl fun n => ?_, rfl, rfl, rfl, rfl,
      Or.inr ⟨rfl, Or.inl ⟨rfl, rfl⟩⟩⟩
    have hempty : Pipe.held (newPipe : Pipe Node) n = 0 := rfl
    unfold Machine.held Io.held
    dsimp only
    rw [Filed.total_append, Filed.total_cons, Filed.total_nil, hempty]
    omega
  | lockInit idp =>
    refine made_initObject ⟨trades_of_eq rfl rfl rfl fun n => ?_, rfl, rfl, rfl, rfl,
      Or.inr ⟨rfl, Or.inr ⟨rfl, Or.inl rfl⟩⟩⟩
    unfold Machine.held Sync.held
    dsimp only
    rw [Filed.total_append, Filed.total_cons, Filed.total_nil]
    rfl
  | cvarInit idp second =>
    refine made_initObject ⟨trades_of_eq rfl rfl rfl fun n => ?_, rfl, rfl, rfl, rfl,
      Or.inr ⟨rfl, Or.inr ⟨rfl, Or.inr ⟨second, rfl⟩⟩⟩⟩
    unfold Machine.held Sync.held
    dsimp only
    rw [Filed.total_append, Filed.total_cons, Filed.total_nil]
    rfl

omit [Paging] [Devices] in
/-- `check_delay` moves the delayed to the ready queue, and touches no
links. -/
theorem checkDelayLoop_trade (sleepers : List Node) (k : Kernel Node Addr)
    (hsub : ∀ n ∈ sleepers, n ∈ k.procs.delayed) :
    (checkDelayLoop sleepers k).family = k.family ∧
    (checkDelayLoop sleepers k).waits = k.waits ∧
    Trade k.procs (checkDelayLoop sleepers k).procs (fun _ => 0) fun _ => 0 := by
  induction sleepers generalizing k with
  | nil => exact ⟨rfl, rfl, Trade.refl _ _⟩
  | cons curr rest ih =>
    unfold checkDelayLoop
    cases hc : k.proc curr with
    | none => exact ⟨rfl, rfl, Trade.refl _ _⟩
    | some c =>
      have hfamily : (k.modify curr fun c => { c with code := c.code - 1 }).family = k.family :=
        family_modify_self fun _ => rfl
      dsimp only
      split
      · have hin : curr ∈ k.procs.delayed := hsub curr List.mem_cons_self
        refine ⟨hfamily, rfl, ?_⟩
        show Trade k.procs (unblockDelayed k.procs curr) _ _
        unfold unblockDelayed
        rw [if_neg (List.ne_nil_of_mem hin)]
        refine ⟨rfl, rfl, rfl, fun n => ?_⟩
        rw [count_ready, count_places, count_places]
        have := count_erase_add hin n
        have hfront : ({ k.procs with delayed := k.procs.delayed.erase curr } :
            ProcTable Node).onProcessor = k.procs.onProcessor := rfl
        rw [hfront]
        dsimp only
        omega
      · obtain ⟨hf, hw, ht⟩ := ih (k.modify curr fun c => { c with code := c.code - 1 })
          fun n hn => hsub n (List.mem_cons_of_mem _ hn)
        exact ⟨hf.trans hfamily, hw, ht⟩

omit [Paging] [Devices] in
theorem trade_rrPreempt {procs : ProcTable Node} (hidle : procs.idleNode ∉ procs.places) :
    Trade procs (rrPreempt procs) (fun _ => 0) fun _ => 0 := by
  unfold rrPreempt
  split
  · exact Trade.refl _ _
  · dsimp only
    split
    · rename_i hne
      have hready : (ready procs procs.running).idleNode ∉
          (ready procs procs.running).places := by
        rw [← List.count_eq_zero, count_ready]
        have hidle' : (ready procs procs.running).idleNode = procs.idleNode := rfl
        rw [hidle', List.count_eq_zero.mpr hidle,
          List.count_eq_zero.mpr fun h => hne (List.mem_singleton.mp h).symm]
      have hnext := trade_runNextReady hready fun _ => 0
      refine ⟨hnext.idleNode, hnext.waiting, hnext.orphans, fun n => ?_⟩
      have hcount := hnext.count n
      have hfront : (ready procs procs.running).onProcessor = [procs.running] :=
        onProcessor_of_ne (show procs.running ≠ procs.idleNode from hne)
      rw [count_ready, hfront] at hcount
      omega
    · rename_i heq
      rw [not_not] at heq
      have hnext := trade_runNextReady hidle fun _ => 0
      refine ⟨hnext.idleNode, hnext.waiting, hnext.orphans, fun n => ?_⟩
      have hcount := hnext.count n
      rw [onProcessor_of_eq heq] at hcount
      exact hcount

omit [Paging] in
theorem trades_trapClock (hidle : m.kernel.procs.idleNode ∉ m.kernel.procs.places) :
    m.Trades m.trapClock := by
  obtain ⟨hfamily, hwaits, hdelay⟩ :=
    checkDelayLoop_trade m.kernel.procs.delayed m.kernel fun _ hn => hn
  have hpreempt := trade_rrPreempt (hdelay.idle_not_mem hidle rfl)
  refine ⟨hfamily, hwaits, ?_⟩
  exact (hdelay.trans hpreempt).frame _ _ fun n => rfl

omit [Paging] in
theorem trades_kernelDelay (hrun : m.kernel.procs.running ≠ m.kernel.procs.idleNode)
    (hidle : m.kernel.procs.idleNode ∉ m.kernel.procs.places) (clockTicks : ℤ) :
    m.Trades (m.kernelDelay clockTicks).1 := by
  unfold kernelDelay
  split
  · exact trades_of_eq rfl rfl rfl fun _ => rfl
  · split
    · refine ⟨?_, rfl, ?_⟩
      · exact family_modify_self (k := m.kernel) (f := fun p => { p with code := clockTicks })
          fun _ => rfl
      · have hblock := trade_block hrun hidle m.kernel.procs.delayed
        -- `block` hands back the longer queue, which then takes the place of `delayed`
        have hstep : Trade (block m.kernel.procs m.kernel.procs.delayed).1
            (blockDelay m.kernel clockTicks).procs
            (fun n => (block m.kernel.procs m.kernel.procs.delayed).2.count n)
            fun n => m.kernel.procs.delayed.count n := by
          refine ⟨rfl, rfl, rfl, fun n => ?_⟩
          rw [count_places, count_places]
          have hdelayed : (blockDelay m.kernel clockTicks).procs.delayed =
              (block m.kernel.procs m.kernel.procs.delayed).2 := rfl
          have hdelayed' : (block m.kernel.procs m.kernel.procs.delayed).1.delayed =
              m.kernel.procs.delayed := by
            rw [block_fst]
            unfold runNextReady
            split <;> rfl
          have hfront : (blockDelay m.kernel clockTicks).procs.onProcessor =
              (block m.kernel.procs m.kernel.procs.delayed).1.onProcessor := rfl
          have hready : (blockDelay m.kernel clockTicks).procs.ready =
              (block m.kernel.procs m.kernel.procs.delayed).1.ready := rfl
          have hwaiting : (blockDelay m.kernel clockTicks).procs.waiting =
              (block m.kernel.procs m.kernel.procs.delayed).1.waiting := rfl
          rw [hdelayed, hdelayed', hfront, hready, hwaiting]
          omega
        exact (hblock.trans hstep).frame _ _ fun n => rfl
    · exact trades_of_eq rfl rfl rfl fun _ => rfl

omit [Paging] in
theorem trades_trapTtyReceive (hlo : 0 ≤ tty) (hhi : tty < Devices.numTerminals)
    (landing : ℤ → Byte) (read : ℤ) : m.Trades (m.trapTtyReceive tty landing read) :=
  trades_of_io rfl rfl rfl rfl (trade_receive m.kernel.procs (m.io.input tty) landing read)
    fun n => Io.held_store_input hlo hhi
      (receive m.kernel.procs (m.io.input tty) landing read).2 _ _ n

omit [Paging] in
theorem trades_trapTtyTransmit (hlo : 0 ≤ tty) (hhi : tty < Devices.numTerminals) :
    m.Trades (m.trapTtyTransmit tty) :=
  trades_of_io rfl rfl rfl rfl (trade_writeAlert m.kernel.procs (m.io.out tty)) fun n =>
    Io.held_store_out hlo hhi (writeAlert m.kernel.procs (m.io.out tty)).2 _ n

end Calls

end Machine

end Yalnix
