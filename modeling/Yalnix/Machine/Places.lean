import Yalnix.Machine.Trades
import Yalnix.Process.Waiting
/-!
# No process is lost or duplicated

`step_cases` says what an event does, with all that holds of the process
that is running; from it every event keeps `Sound`. Where no object is taken
away, the two sides of the account move together, and each living process is
in the one place that is due to it.
-/

namespace Yalnix

variable {Node Addr : Type} [Paging] [Devices] [DecidableEq Node] [DecidableEq Addr]

open Devices

omit [Paging] [Devices] [DecidableEq Node] [DecidableEq Addr] in
/-- The event takes an object away. -/
def Event.Reclaims : Event Node Addr → Prop
  | .call (.reclaim _ _) => True
  | _ => False

namespace Machine

variable {m t : Machine Node Addr} {e : Event Node Addr} {es : List (Event Node Addr)}

/-! ## The cases of an event -/

/-- What the process that is running does. -/
inductive ByProcess (m : Machine Node Addr) (c : Proc Node Addr) (kin : Kin Node Addr) :
    Event Node Addr → Machine Node Addr → Prop
  | acted (e : Event Node Addr) (act : ProcAct Node Addr) (k' : Kernel Node Addr)
      (he : e = .call (.proc act) ∨ e = .resume ∧ act = .resume)
      (hout : act = .resume ∨ m.kernel.waits m.kernel.procs.running = none)
      (hsync : m.kernel.waits m.kernel.procs.running ≠ none ∨
        m.sync.frame m.kernel.procs.running = none)
      (heff : Effect (m.kernel.onStack c) c kin act k') :
      ByProcess m c kin e { m with kernel := k' }
  | delayed (clockTicks : ℤ) (hsync : m.sync.frame m.kernel.procs.running = none) :
      ByProcess m c kin (.call (.delay clockTicks)) (m.kernelDelay clockTicks).1
  | io (e : Event Node Addr) (r : Machine Node Addr × Outcome IoFrame)
      (hwaits : m.kernel.waits m.kernel.procs.running = none)
      (hsync : m.sync.frame m.kernel.procs.running = none) (hcall : m.IoCall c e r) :
      ByProcess m c kin e (leaveIo m.kernel.procs.running r)
  | made (s : Syscall Node Addr) (r : Machine Node Addr × ℤ)
      (hsync : m.sync.frame m.kernel.procs.running = none) (hinit : m.InitCall c s r) :
      ByProcess m c kin (.call s) r.1
  | synced (call : SyncCall) (hwaits : m.kernel.waits m.kernel.procs.running = none)
      (hframe : m.sync.frame m.kernel.procs.running = none) :
      ByProcess m c kin (.call (.sync call)) (m.setSync (m.sync.call m.kernel.procs c.serial call))
  | back (f : SyncFrame) (r : ProcTable Node × Sync Node)
      (hwaits : m.kernel.waits m.kernel.procs.running = none)
      (hframe : m.sync.frame m.kernel.procs.running = some f)
      (hr : m.sync.resume m.kernel.procs c.serial f = some r) :
      ByProcess m c kin .resume (m.setSync r)
  | reclaimed (id : ℤ) (size : ℤ → ℤ) (hsync : m.sync.frame m.kernel.procs.running = none) :
      ByProcess m c kin (.call (.reclaim id size)) (m.kernelReclaim id size).1

/-- What a trap does. -/
inductive ByTrap (m : Machine Node Addr) : Event Node Addr → Machine Node Addr → Prop
  | clock (huser : m.inUser = true) : ByTrap m .clock m.trapClock
  | receive (tty : ℤ) (landing : ℤ → Byte) (read : ℤ) (huser : m.inUser = true) (hlo : 0 ≤ tty)
      (hhi : tty < numTerminals) (hread : 0 ≤ read ∧ read ≤ terminalMaxLine) :
      ByTrap m (.ttyReceive tty landing read) (m.trapTtyReceive tty landing read)
  | transmit (tty : ℤ) (huser : m.inUser = true) (hlo : 0 ≤ tty) (hhi : tty < numTerminals) :
      ByTrap m (.ttyTransmit tty) (m.trapTtyTransmit tty)

/-- An event by the process that is running, who lives. -/
def Acts (m : Machine Node Addr) (e : Event Node Addr) (t : Machine Node Addr) : Prop :=
  ∃ c kin, m.kernel.curr = some c ∧ c.kin = some kin ∧
    m.kernel.procs.running ≠ m.kernel.procs.idleNode ∧ ByProcess m c kin e t

omit [Paging] [Devices] [DecidableEq Node] [DecidableEq Addr] in
theorem inUser_iff : m.inUser = true ↔ m.kernel.waits m.kernel.procs.running = none ∧
    m.sync.frame m.kernel.procs.running = none ∧ m.io.frame m.kernel.procs.running = none := by
  unfold inUser
  simp only [Bool.and_eq_true, Option.isNone_iff_eq_none, and_assoc]

/-- **A call** is made in user mode, and not by idle. -/
theorem step_call {s : Syscall Node Addr} (h : m.step (.call s) = some t) :
    ∃ c, m.kernel.curr = some c ∧ m.kernel.procs.running ≠ m.kernel.procs.idleNode ∧
      m.inUser = true ∧ m.syscall c s = some t := by
  unfold step at h
  dsimp only at h
  cases hc : m.kernel.curr with
  | none =>
    rw [hc] at h
    cases h
  | some c =>
    rw [hc] at h
    dsimp only at h
    split at h
    · cases h
    · rename_i hgo
      rw [not_or, not_not] at hgo
      exact ⟨c, rfl, hgo.1, hgo.2, h⟩

/-- **Coming back from a block** is not for idle either. -/
theorem step_resume (h : m.step .resume = some t) :
    ∃ c, m.kernel.curr = some c ∧ m.kernel.procs.running ≠ m.kernel.procs.idleNode ∧
      m.resume c = some t := by
  unfold step at h
  dsimp only at h
  cases hc : m.kernel.curr with
  | none =>
    rw [hc] at h
    cases h
  | some c =>
    rw [hc] at h
    dsimp only at h
    split at h
    · cases h
    · rename_i hgo
      exact ⟨c, rfl, hgo, h⟩

/-- **Everything else is a trap**, which interrupts a process in user mode. -/
theorem step_trap (h : m.step e = some t) : (∃ s, e = .call s) ∨ e = .resume ∨ ByTrap m e t := by
  unfold step at h
  cases e with
  | call s => exact Or.inl ⟨s, rfl⟩
  | resume => exact Or.inr (Or.inl rfl)
  | clock =>
    obtain ⟨huser, heq⟩ := Option.ite_none_right_eq_some.mp h
    obtain rfl := Option.some.inj heq
    exact Or.inr (Or.inr (ByTrap.clock huser))
  | ttyReceive tty landing read =>
    obtain ⟨⟨huser, hlo, hhi, hread⟩, heq⟩ := Option.ite_none_right_eq_some.mp h
    obtain rfl := Option.some.inj heq
    exact Or.inr (Or.inr (ByTrap.receive tty landing read huser hlo hhi hread))
  | ttyTransmit tty =>
    obtain ⟨⟨huser, hlo, hhi⟩, heq⟩ := Option.ite_none_right_eq_some.mp h
    obtain rfl := Option.some.inj heq
    exact Or.inr (Or.inr (ByTrap.transmit tty huser hlo hhi))

/-- Only coming back from a block happens inside a call. -/
theorem step_inUser (h : m.step e = some t) : e = .resume ∨ m.inUser = true := by
  rcases step_trap h with ⟨s, rfl⟩ | rfl | htrap
  · obtain ⟨-, -, -, huser, -⟩ := step_call h
    exact Or.inr huser
  · exact Or.inl rfl
  · cases htrap with
    | clock huser => exact Or.inr huser
    | receive tty landing read huser => exact Or.inr huser
    | transmit tty huser => exact Or.inr huser

/-- A call, by a process in user mode. -/
theorem byProcess_syscall {c : Proc Node Addr} {kin : Kin Node Addr} {s : Syscall Node Addr}
    (hc : m.kernel.curr = some c) (hkin : c.kin = some kin) (huser : m.inUser = true)
    (h : m.syscall c s = some t) : ByProcess m c kin (.call s) t := by
  obtain ⟨hwaits, hsync, hio⟩ := inUser_iff.mp huser
  cases s with
  | proc act =>
    obtain ⟨k', hk', rfl⟩ := Option.map_eq_some_iff.mp h
    obtain ⟨heff, -⟩ := act_effect (k := m.kernel.onStack c) hc hkin hk'
    exact ByProcess.acted _ act k' (Or.inl rfl) (Or.inr hwaits) (Or.inr hsync) heff
  | delay clockTicks =>
    obtain rfl := Option.some.inj h
    exact ByProcess.delayed clockTicks hsync
  | ttyRead tty buf len =>
    obtain rfl := Option.some.inj h
    exact ByProcess.io _ _ hwaits hsync (IoCall.ttyRead tty buf len)
  | ttyWrite tty buf len =>
    obtain rfl := Option.some.inj h
    exact ByProcess.io _ _ hwaits hsync (IoCall.ttyWrite tty buf len)
  | pipeInit idp =>
    obtain rfl := Option.some.inj h
    exact ByProcess.made _ _ hsync (InitCall.pipeInit idp)
  | pipeRead pipe buf len =>
    obtain rfl := Option.some.inj h
    exact ByProcess.io _ _ hwaits hsync (IoCall.pipeRead pipe buf len)
  | pipeWrite pipe buf len total =>
    obtain rfl := Option.some.inj h
    exact ByProcess.io _ _ hwaits hsync (IoCall.pipeWrite pipe buf len total)
  | lockInit idp =>
    obtain rfl := Option.some.inj h
    exact ByProcess.made _ _ hsync (InitCall.lockInit idp)
  | cvarInit idp second =>
    obtain rfl := Option.some.inj h
    exact ByProcess.made _ _ hsync (InitCall.cvarInit idp second)
  | sync call =>
    obtain rfl := Option.some.inj h
    exact ByProcess.synced call hwaits hsync
  | reclaim id size =>
    obtain rfl := Option.some.inj h
    exact ByProcess.reclaimed id size hsync

omit [Devices] in
/-- **What is come back to**: `KernelWait`, a call on locks and condition
variables, or one on pipes and terminals. -/
theorem resume_cases [Devices] {c : Proc Node Addr} (h : m.resume c = some t) :
    (m.kernel.waits m.kernel.procs.running ≠ none ∧ ∃ k',
      (m.kernel.onStack c).act m.kernel.procs.running c .resume = some k' ∧
        t = { m with kernel := k' }) ∨
    (m.kernel.waits m.kernel.procs.running = none ∧ ∃ f r,
      m.sync.frame m.kernel.procs.running = some f ∧
        m.sync.resume m.kernel.procs c.serial f = some r ∧ t = m.setSync r) ∨
    (m.kernel.waits m.kernel.procs.running = none ∧
      m.sync.frame m.kernel.procs.running = none ∧ ∃ f r,
        m.io.frame m.kernel.procs.running = some f ∧ m.resumeIo c.userpt.pt f = some r ∧
          t = leaveIo m.kernel.procs.running r) := by
  unfold resume at h
  dsimp only at h
  cases hwaits : m.kernel.waits m.kernel.procs.running with
  | some statusPtr =>
    rw [hwaits] at h
    obtain ⟨k', hk', rfl⟩ := Option.map_eq_some_iff.mp h
    exact Or.inl ⟨Option.some_ne_none _, k', hk', rfl⟩
  | none =>
    right
    rw [hwaits] at h
    cases hsync : m.sync.frame m.kernel.procs.running with
    | some f =>
      rw [hsync] at h
      obtain ⟨r, hr, rfl⟩ := Option.map_eq_some_iff.mp h
      exact Or.inl ⟨rfl, f, r, rfl, hr, rfl⟩
    | none =>
      rw [hsync] at h
      cases hio : m.io.frame m.kernel.procs.running with
      | some f =>
        rw [hio] at h
        obtain ⟨r, hr, rfl⟩ := Option.map_eq_some_iff.mp h
        exact Or.inr ⟨rfl, rfl, f, r, rfl, hr, rfl⟩
      | none =>
        rw [hio] at h
        cases h

omit [Devices] in
/-- Coming back from a block. -/
theorem byProcess_resume [Devices] {c : Proc Node Addr} {kin : Kin Node Addr}
    (hc : m.kernel.curr = some c) (hkin : c.kin = some kin) (h : m.resume c = some t) :
    ByProcess m c kin .resume t := by
  rcases resume_cases h with ⟨hwaits, k', hk', rfl⟩ | ⟨hwaits, f, r, hsync, hr, rfl⟩ |
    ⟨hwaits, hsync, f, r, hio, hr, rfl⟩
  · obtain ⟨heff, -⟩ := act_effect (k := m.kernel.onStack c) hc hkin hk'
    exact ByProcess.acted _ .resume k' (Or.inr ⟨rfl, rfl⟩) (Or.inl rfl) (Or.inl hwaits) heff
  · exact ByProcess.back f r hwaits hsync hr
  · exact ByProcess.io _ r hwaits hsync (IoCall.back f r hio hr)

/-- **The cases of an event.** -/
theorem step_cases (hs : m.Sound) (h : m.step e = some t) : m.Acts e t ∨ ByTrap m e t := by
  have hacts : m.kernel.procs.running ≠ m.kernel.procs.idleNode →
      (∀ c kin, m.kernel.curr = some c → c.kin = some kin → ByProcess m c kin e t) →
      m.Acts e t := by
    intro hrun hby
    obtain ⟨c, kin, hc, hkin⟩ := hs.running_lives hrun
    exact ⟨c, kin, hc, hkin, hrun, hby c kin hc hkin⟩
  rcases step_trap h with ⟨s, rfl⟩ | rfl | htrap
  · obtain ⟨c, hc, hrun, huser, h⟩ := step_call h
    refine Or.inl (hacts hrun fun c' kin hc' hkin => ?_)
    obtain rfl := Option.some.inj (hc.symm.trans hc')
    exact byProcess_syscall hc hkin huser h
  · obtain ⟨c, hc, hrun, h⟩ := step_resume h
    refine Or.inl (hacts hrun fun c' kin hc' hkin => ?_)
    obtain rfl := Option.some.inj (hc.symm.trans hc')
    exact byProcess_resume hc hkin h
  · exact Or.inr htrap

/-! ## What every event keeps -/

omit [Paging] [DecidableEq Addr] in
theorem kernelReclaim_fewer (id : ℤ) (size : ℤ → ℤ) :
    (m.kernelReclaim id size).1.kernel = m.kernel ∧
    (m.kernelReclaim id size).1.io.frame = m.io.frame ∧
    ∀ n, (m.kernelReclaim id size).1.held n ≤ m.held n := by
  -- the number is looked up among the pipes, the condition variables, the locks, in this order;
  -- who sleeps in what is destroyed loses that seat
  unfold kernelReclaim
  cases hp : Filed.find m.io.pipe id with
  | some pipe =>
    dsimp only
    unfold destroyPipe
    split
    · exact ⟨rfl, rfl, fun n => le_rfl⟩
    · refine ⟨rfl, rfl, fun n => ?_⟩
      have : Filed.total (fun p : Pipe Node => p.held n) (Filed.remove m.io.pipe id) ≤
          Filed.total (fun p : Pipe Node => p.held n) m.io.pipe := Filed.total_remove_le
      unfold Machine.held Io.held
      dsimp only
      omega
  | none =>
    cases hc : Filed.find m.sync.cvar id with
    | some cvar =>
      dsimp only
      unfold Sync.destroyCvar
      split
      · exact ⟨rfl, rfl, fun n => le_rfl⟩
      · refine ⟨rfl, rfl, fun n => ?_⟩
        have : Filed.total (fun c : Cvar Node => c.blocked.count n) (Filed.remove m.sync.cvar id) ≤
            Filed.total (fun c : Cvar Node => c.blocked.count n) m.sync.cvar := Filed.total_remove_le
        unfold Machine.held Sync.held
        dsimp only
        omega
    | none =>
      cases hl : Filed.find m.sync.lock id with
      | some lock =>
        dsimp only
        unfold Sync.destroyLock
        split
        · exact ⟨rfl, rfl, fun n => le_rfl⟩
        · refine ⟨rfl, rfl, fun n => ?_⟩
          have : Filed.total (fun l : Lock Node => l.blocked.count n)
              (Filed.remove m.sync.lock id) ≤
              Filed.total (fun l : Lock Node => l.blocked.count n) m.sync.lock :=
            Filed.total_remove_le
          unfold Machine.held Sync.held
          dsimp only
          omega
      | none => exact ⟨rfl, rfl, fun n => le_rfl⟩

omit [Paging] [Devices] [DecidableEq Addr] in
/-- A delay touches no object. -/
theorem kernelDelay_objects (clockTicks : ℤ) :
    (m.kernelDelay clockTicks).1.io = m.io ∧ (m.kernelDelay clockTicks).1.sync = m.sync ∧
      (m.kernelDelay clockTicks).1.count = m.count := by
  unfold kernelDelay
  split
  · exact ⟨rfl, rfl, rfl⟩
  · split <;> exact ⟨rfl, rfl, rfl⟩

omit [Paging] [DecidableEq Addr] in
theorem trades_setSync {r : ProcTable Node × Sync Node}
    (h : Trade m.kernel.procs r.1 m.sync.held r.2.held) : m.Trades (m.setSync r) :=
  ⟨rfl, rfl, h.frame _ _ fun n => by
    show r.2.held n + m.io.held n + m.sync.held n = m.sync.held n + m.io.held n + r.2.held n
    omega⟩

/-- An event that is an action on processes, with what it does. -/
def Acted (m : Machine Node Addr) (e : Event Node Addr) (t : Machine Node Addr) : Prop :=
  ∃ c kin act k', m.kernel.curr = some c ∧ c.kin = some kin ∧
    m.kernel.procs.running ≠ m.kernel.procs.idleNode ∧
    (e = .call (.proc act) ∨ e = .resume ∧ act = .resume) ∧
    (act = .resume ∨ m.kernel.waits m.kernel.procs.running = none) ∧
    Effect (m.kernel.onStack c) c kin act k' ∧ t = { m with kernel := k' }

/-- **Every event** acts on processes, or trades, or takes an object away. -/
theorem step_kinds (hs : m.Sound) (he : e.InRange) (h : m.step e = some t) :
    m.Acted e t ∨ (m.Trades t ∧ ∀ p f, t.io.frame p = some f → f.InRange) ∨
    (e.Reclaims ∧ t.kernel = m.kernel ∧ t.io.frame = m.io.frame ∧
      ∀ n, t.held n ≤ m.held n) := by
  rcases step_cases hs h with ⟨c, kin, hc, hkin, hrun, hby⟩ | htrap
  · cases hby with
    | acted e act k' he' hout hsync heff =>
      exact Or.inl ⟨c, kin, act, k', hc, hkin, hrun, he', hout, heff, rfl⟩
    | delayed clockTicks hsync =>
      refine Or.inr (Or.inl ⟨trades_kernelDelay hrun hs.idle_not_mem clockTicks, ?_⟩)
      rw [(kernelDelay_objects clockTicks).1]
      exact hs.frames
    | io _ r hwaits hsync hcall =>
      exact Or.inr (Or.inl ((hcall.runs hrun hs.idle_not_mem hs.frames he).leaveIo hs.frames
        m.kernel.procs.running))
    | made s r hsync hinit =>
      have hmade := hinit.made
      refine Or.inr (Or.inl ⟨hmade.trades, ?_⟩)
      rw [hmade.frame]
      exact hs.frames
    | synced call hwaits hframe =>
      have hheld : m.sync.held m.kernel.procs.idleNode = 0 := by
        have := hs.idle_not_held
        unfold Machine.held at this
        omega
      exact Or.inr (Or.inl
        ⟨trades_setSync (Sync.trade_call hrun hs.idle_not_mem hheld call), hs.frames⟩)
    | back f r hwaits hframe hr =>
      exact Or.inr (Or.inl
        ⟨trades_setSync (Sync.trade_resume hrun hs.idle_not_mem hr), hs.frames⟩)
    | reclaimed id size hsync =>
      exact Or.inr (Or.inr ⟨trivial, kernelReclaim_fewer (m := m) id size⟩)
  · cases htrap with
    | clock => exact Or.inr (Or.inl ⟨trades_trapClock hs.idle_not_mem, hs.frames⟩)
    | receive tty landing read huser hlo hhi =>
      exact Or.inr (Or.inl ⟨trades_trapTtyReceive hlo hhi landing read, hs.frames⟩)
    | transmit tty huser hlo hhi =>
      exact Or.inr (Or.inl ⟨trades_trapTtyTransmit hlo hhi, hs.frames⟩)

/-- **What an event owes**: births and exits move what is due with the seats,
a trade moves processes between seats, and an object that goes takes its
seats along. -/
theorem step_owes (hs : m.Sound) (he : e.InRange) (h : m.step e = some t) :
    t.Sound ∧ (e.Reclaims ∨ ∀ n, t.seats n + m.kernel.due n = m.seats n + t.kernel.due n) := by
  rcases step_kinds hs he h with ⟨c, kin, act, k', hc, hkin, hrun, he', hout, heff, rfl⟩ |
    ⟨ht, hframes⟩ | ⟨hreclaims, hkernel, hframe, hheld⟩
  · have hk : (m.kernel.onStack c).Kindred := hs.kindred.congr rfl rfl rfl rfl
    have howes := heff.owes hk hc hkin hrun hs.idle_not_mem hs.idle
    have hkindred := hk.move hc hkin (hs.running_not_waiting hrun) hout (heff.move hc)
    have hidle : k'.procs.idleNode = m.kernel.procs.idleNode :=
      heff.idleNode (k := m.kernel.onStack c) hc
    have hseats : ∀ n, Machine.seats { m with kernel := k' } n + m.kernel.due n =
        m.seats n + k'.due n := by
      intro n
      have hn : k'.procs.places.count n + m.kernel.due n =
          m.kernel.procs.places.count n + k'.due n := howes n
      unfold seats
      dsimp only
      have hheld : Machine.held { m with kernel := k' } n = m.held n := rfl
      omega
    refine ⟨⟨hkindred, fun n => ?_, ?_, hs.frames⟩, Or.inr hseats⟩
    · have := hseats n
      have := hs.seated n
      dsimp only
      omega
    · dsimp only
      rw [hidle]
      obtain ⟨c₀, kin₀, hc₀, hkin₀⟩ := alive_iff.mp hs.idle
      obtain ⟨c', hc', halive, -⟩ := heff.survives hk hc hkin hc₀ (by rw [hkin₀]; rfl)
        (Or.inl hrun.symm)
      obtain ⟨kin', hkin'⟩ := Option.isSome_iff_exists.mp halive
      exact alive_iff.mpr ⟨c', kin', hc', hkin'⟩
  · refine ⟨hs.trades hframes ht, Or.inr fun n => ?_⟩
    have := ht.trade.count n
    rw [due_congr (alive_congr ht.proc n) ht.trade.idleNode]
    unfold seats
    omega
  · exact ⟨hs.fewer hkernel hframe hheld, Or.inl hreclaims⟩

/-! ## Where everybody is -/

omit [Paging] [DecidableEq Node] [DecidableEq Addr] in
/-- **All queues there are**: the scheduler's, and those of pipes, locks,
condition variables and terminals. -/
def queues (m : Machine Node Addr) : List (List Node) :=
  [m.kernel.procs.ready, m.kernel.procs.waiting, m.kernel.procs.delayed] ++
    m.io.pipe.flatMap (fun p => [p.data.readblocked, p.data.writeblocked]) ++
    m.sync.lock.map (fun l => l.data.blocked) ++
    m.sync.cvar.map (fun c => c.data.blocked) ++
    (List.range numTerminals).flatMap fun tty : ℕ =>
      [(m.io.input tty).blocked, (m.io.out tty).blocked]

/-- **Each living process but idle is in one place, once**: on the processor
or on one of the queues; and idle is on none. -/
structure InOnePlace (m : Machine Node Addr) : Prop where
  once : ∀ n c, m.kernel.proc n = some c → c.kin.isSome → n ≠ m.kernel.procs.idleNode →
    (m.kernel.procs.onProcessor :: m.queues).flatten.count n = 1
  idle : ∀ q ∈ m.queues, m.kernel.procs.idleNode ∉ q

omit [Paging] [DecidableEq Addr] in
/-- The account counts these places. -/
theorem count_queues (n : Node) :
    (m.kernel.procs.onProcessor :: m.queues).flatten.count n = m.seats n := by
  -- the queues of each kind of object, summed up
  have hpipe : ∀ l : List (Filed (Pipe Node)),
      ((l.flatMap fun p => [p.data.readblocked, p.data.writeblocked]).map (List.count n)).sum =
        Filed.total (fun p : Pipe Node => p.held n) l := by
    intro l
    induction l with
    | nil => rfl
    | cons p rest ih =>
      rw [List.flatMap_cons, List.map_append, List.sum_append, ih, Filed.total_cons]
      rfl
  have htty : ∀ l : List ℕ, ((l.flatMap fun tty : ℕ =>
      [(m.io.input tty).blocked, (m.io.out tty).blocked]).map (List.count n)).sum =
        (l.map fun i : ℕ => (m.io.input i).blocked.count n).sum +
          (l.map fun i : ℕ => (m.io.out i).blocked.count n).sum := by
    intro l
    induction l with
    | nil => rfl
    | cons tty rest ih =>
      rw [List.flatMap_cons, List.map_append, List.sum_append, ih, List.map_cons, List.map_cons,
        List.sum_cons, List.sum_cons]
      simp only [List.map_cons, List.map_nil, List.sum_cons, List.sum_nil]
      omega
  have hlock : ((m.sync.lock.map fun l => l.data.blocked).map (List.count n)).sum =
      Filed.total (fun l : Lock Node => l.blocked.count n) m.sync.lock := by
    rw [List.map_map]
    rfl
  have hcvar : ((m.sync.cvar.map fun c => c.data.blocked).map (List.count n)).sum =
      Filed.total (fun c : Cvar Node => c.blocked.count n) m.sync.cvar := by
    rw [List.map_map]
    rfl
  rw [List.count_flatten, List.map_cons, List.sum_cons]
  unfold queues
  rw [List.map_append, List.map_append, List.map_append, List.map_append, List.sum_append,
    List.sum_append, List.sum_append, List.sum_append, hpipe, htty, hlock, hcvar]
  simp only [List.map_cons, List.map_nil, List.sum_cons, List.sum_nil]
  unfold seats Machine.held Sync.held Io.held ttyTotal
  rw [count_places]
  dsimp only
  omega

omit [Paging] [DecidableEq Addr] in
/-- **What the account says of places**, where it balances. -/
theorem inOnePlace_of_seats (h : ∀ n, m.seats n = m.kernel.due n) : m.InOnePlace := by
  constructor
  · intro n c hc halive hne
    have hlives : m.kernel.alive n = true := by
      obtain ⟨kin, hkin⟩ := Option.isSome_iff_exists.mp halive
      exact alive_iff.mpr ⟨c, kin, hc, hkin⟩
    rw [count_queues, h]
    exact if_pos ⟨hlives, hne⟩
  · intro q hq hin
    have hzero := count_queues (m := m) m.kernel.procs.idleNode
    rw [h, due_idle, List.count_eq_zero] at hzero
    exact hzero (List.mem_flatten_of_mem (List.mem_cons_of_mem _ hq) hin)

section Boot

variable {b : Boot Node Addr}

omit [Devices] in
/-- The scheduler after `KernelStart`. -/
theorem kernelStart_procs {k : Kernel Node Addr} (hb : kernelStart b = some k) :
    k.procs = ⟨b.initNode, [], [], [], [], b.idleNode⟩ := by
  unfold kernelStart at hb
  split at hb
  · cases hb
  · obtain ⟨k₁, hk₁, rfl⟩ := Option.map_eq_some_iff.mp hb
    rw [idleSetup_eq]
    unfold initLoad at hk₁
    dsimp only at hk₁
    split at hk₁
    · cases hk₁
    · rw [← Option.some.inj hk₁]

/-- **After `KernelStart`** init has the processor, and nobody is queued. -/
theorem start_sound (hb : start b = some m) :
    m.Sound ∧ ∀ n, m.seats n = m.kernel.due n := by
  obtain ⟨k, hk, rfl⟩ := Option.map_eq_some_iff.mp hb
  obtain ⟨hne, -, hfamily, -⟩ := kernelStart_family hk
  have hprocs := kernelStart_procs hk
  have hrun : k.procs.running ≠ k.procs.idleNode := by
    rw [hprocs]
    exact hne.symm
  have halive : ∀ n, k.alive n = true ↔ n = b.initNode ∨ n = b.idleNode := by
    intro n
    rw [alive_eq, hfamily]
    dsimp only
    rcases eq_or_ne n b.idleNode with rfl | h₁
    · rw [Function.update_self]
      simp
    · rw [Function.update_of_ne h₁]
      rcases eq_or_ne n b.initNode with rfl | h₂
      · rw [Function.update_self]
        simp
      · rw [Function.update_of_ne h₂]
        simp [h₁, h₂]
  have hio : ∀ n, (Io.init : Io Node).held n = 0 := by
    intro n
    unfold Io.held ttyTotal Io.init newTtyio
    simp
  -- the first process has the processor, and no queue has anybody
  have hseats : ∀ n, Machine.seats ⟨k, 0, Sync.init, Io.init⟩ n = k.due n := by
    intro n
    have hsync : (Sync.init : Sync Node).held n = 0 := rfl
    unfold seats Machine.held
    rw [hio, hsync, count_places, onProcessor_of_ne hrun, hprocs]
    dsimp only
    rw [List.count_nil]
    unfold Kernel.due
    simp only [halive, hprocs]
    rcases eq_or_ne n b.initNode with rfl | h₁
    · rw [List.count_singleton_self, if_pos ⟨Or.inl rfl, hne.symm⟩]
    · rw [List.count_eq_zero.mpr fun hin => h₁ (List.mem_singleton.mp hin), if_neg]
      rintro ⟨h | h, hn⟩
      · exact h₁ h
      · exact hn h
  refine ⟨⟨(kernelStart_kindred hk).1, fun n => (hseats n).le, ?_, fun p f hf => by cases hf⟩,
    hseats⟩
  dsimp only
  rw [halive, hprocs]
  exact Or.inr rfl

/-- **No process is lost or duplicated**: in every run, each living process
but idle is in exactly one place, exactly once, and idle is on no queue. -/
theorem in_one_place (hb : start b = some m)
    (hes : ∀ e ∈ es, e.InRange ∧ ¬ e.Reclaims) : Run.Throughout step InOnePlace m es := by
  have hall : Run.Throughout step (fun s => s.Sound ∧ ∀ n, s.seats n = s.kernel.due n) m es := by
    refine Run.throughout_of_step (fun s e he t hs ht => ?_) (start_sound hb)
    obtain ⟨hin, hkeep⟩ := hes e he
    obtain ⟨hsound, howes⟩ := step_owes hs.1 hin ht
    refine ⟨hsound, fun n => ?_⟩
    have := howes.resolve_left hkeep n
    have := hs.2 n
    omega
  exact hall.mono fun s hs => inOnePlace_of_seats hs.2

end Boot

omit [Paging] [Devices] in
/-- Init makes a lock and takes it, and forks a process that wants it. -/
theorem in_one_place_lock :
    let _ := yalnixPaging
    let _ := yalnixDevices
    let es : List (Event ℕ ℕ) := [.call (.lockInit 0x1ff000), .call (.sync (.acquire 0)),
      .call (.proc (.fork 2 2 2)), .clock, .call (.sync (.acquire 0))]
    ∃ m u : Machine ℕ ℕ, start (smallBoot 140) = some m ∧ Run.exec step m es = some u ∧
      Run.Throughout step InOnePlace m es := by
  let _ := yalnixPaging
  let _ := yalnixDevices
  intro _ _ es
  obtain ⟨m, u, hm, hrun⟩ : ∃ m u, start (smallBoot 140) = some m ∧ Run.exec step m es = some u :=
    Run.exists_exec (by decide +kernel)
  exact ⟨m, u, hm, hrun, in_one_place hm (by simp [es, Event.InRange, Event.Reclaims])⟩

end Machine

end Yalnix
