import Yalnix.Machine.Locks
/-!
# Condition variables: no signal is lost, nobody is woken for nothing

A process enters the queue of a condition variable last, in the one event
that gives up the lock, and leaves it when it is signalled at its head or
with all others. What a run has to say of a process inside `CvarWait` is
found by induction from its end: it called and has been on the queue since,
or it was woken and has been on its way back since.
-/

namespace Yalnix

variable {Node Addr : Type} [Paging] [Devices] [DecidableEq Node] [DecidableEq Addr]

omit [Paging] [Devices] [DecidableEq Node] [DecidableEq Addr] in
/-- The event takes this object away, if it takes any. -/
def Event.ReclaimsId (id : ℤ) : Event Node Addr → Prop
  | .call (.reclaim id' _) => id' = id
  | _ => False

namespace Machine

variable {m₀ m t : Machine Node Addr} {e : Event Node Addr} {es : List (Event Node Addr)}
  {b : Boot Node Addr} {c id : ℤ} {p : Node}

/-! ## One event -/

omit [Paging] [Devices] [DecidableEq Node] [DecidableEq Addr] in
/-- The process calls `CvarWait`. -/
def Waits (c id : ℤ) (p : Node) (m : Machine Node Addr) (e : Event Node Addr) : Prop :=
  e = .call (.sync (.cvarWait c id)) ∧ m.kernel.procs.running = p

omit [Paging] [Devices] [DecidableEq Node] [DecidableEq Addr] in
/-- **The event wakes the process**, which is on the queue: a `CvarSignal`
that finds it at the head, or a `CvarBroadcast`. -/
def Wakes (c : ℤ) (p : Node) (m : Machine Node Addr) (e : Event Node Addr) : Prop :=
  e = .call (.sync (.cvarSignal c)) ∧ (m.sync.waiters c).head? = some p ∨
  e = .call (.sync (.cvarBroadcast c)) ∧ p ∈ m.sync.waiters c

/-- **The queue after an event** that does not take the condition variable
away. -/
theorem step_queued (h : m.Lawful) (he : e.InRange) (hkeep : ¬ e.ReclaimsId c)
    (hstep : m.step e = some t) :
    ((∀ call, e ≠ .call (.sync call)) ∧ t.sync.waiters c = m.sync.waiters c ∧
      ∀ id p, t.sync.Inside c id p → m.sync.Inside c id p) ∨
    ∃ call r, e = .call (.sync call) ∧ t = m.setSync r ∧
      m.sync.Queued m.kernel.procs c call r := by
  cases onSync h he hstep with
  | kept _ _ hout hev hsync => exact Or.inl ⟨hev, by rw [hsync], fun id p hp => by rwa [hsync] at hp⟩
  | made s _ hout hev hmade =>
    -- a new object takes a fresh number, so whoever waits on `c` still does
    refine Or.inl ⟨fun call heq => ?_, ?_, fun id p hp => ?_⟩
    · cases heq
      exact hev call rfl
    · rcases hmade.filed with ⟨-, hsync, -⟩ | ⟨-, ⟨hsync, -⟩ | ⟨-, hsync | ⟨second, hsync⟩⟩⟩
      · rw [hsync]
      · rw [hsync]
      · rw [hsync]
        rfl
      · rw [hsync, Sync.waiters_newCvar]
    · unfold Sync.Inside at hp ⊢
      rwa [hmade.syncFrame] at hp
  | called cc call hc hwaits hout =>
    exact Or.inr ⟨call, _, rfl, rfl, m.sync.queued m.kernel.procs cc.serial c call⟩
  | back cc f r hc hwaits hframe hr =>
    -- a return goes on to the lock's queue, not to the condition variable's
    refine Or.inl ⟨by simp, ?_, fun id p hp => ?_⟩
    · cases Sync.cameBack hr with
      | waiting cvarId id since lock hfind => exact Sync.waiters_runAcquire lock _
      | acquiring id waited lock hfind => exact Sync.waiters_runAcquire _ waited
    · have hp' : r.2.Inside c id p := hp
      cases Sync.cameBack hr with
      | waiting cvarId id' since lock hfind =>
        rcases Sync.inside_runAcquire hp' with ⟨rfl, rfl, hw⟩ | ⟨-, hin⟩
        · obtain rfl := Option.some.inj hw
          exact Or.inl ⟨since, hframe⟩
        · exact hin
      | acquiring id' waited lock hfind =>
        rcases Sync.inside_runAcquire hp' with ⟨rfl, rfl, rfl⟩ | ⟨-, hin⟩
        · exact Or.inr hframe
        · exact hin
  | reclaimed id' size hout =>
    -- an object of another number goes, of whichever kind it is
    have hne : c ≠ id' := fun heq => hkeep heq.symm
    refine Or.inl ⟨by simp, ?_, fun id p hp => ?_⟩
    · unfold kernelReclaim
      cases Filed.find m.io.pipe id' with
      | some pipe =>
        dsimp only
        unfold destroyPipe
        split <;> rfl
      | none =>
        cases Filed.find m.sync.cvar id' with
        | some cvar =>
          dsimp only
          unfold Sync.destroyCvar
          split
          · rfl
          · exact Sync.waiters_remove_of_ne hne
        | none =>
          cases Filed.find m.sync.lock id' with
          | some lock =>
            dsimp only
            unfold Sync.destroyLock
            split <;> rfl
          | none => rfl
    · unfold Sync.Inside at hp ⊢
      rwa [(kernelReclaim_sync h.numbered id' size).1] at hp

/-- **Who is on the queue stays there** until it is woken. -/
theorem step_stays (h : m.Lawful) (he : e.InRange) (hkeep : ¬ e.ReclaimsId c)
    (hstep : m.step e = some t) (hp : p ∈ m.sync.waiters c) (hnot : ¬ Wakes c p m e) :
    p ∈ t.sync.waiters c := by
  rcases step_queued h he hkeep hstep with ⟨-, hsame, -⟩ | ⟨call, r, rfl, rfl, hq⟩
  · rwa [hsame]
  · show p ∈ r.2.waiters c
    cases hq with
    | kept _ _ hsig hbc hsame => rwa [hsame]
    | waits id _ hlast =>
      rw [hlast]
      exact List.mem_append_left _ hp
    | signal _ htail =>
      rw [htail]
      cases hw : m.sync.waiters c with
      | nil =>
        rw [hw] at hp
        exact absurd hp List.not_mem_nil
      | cons x rest =>
        rw [hw] at hp
        refine (List.mem_cons.mp hp).resolve_left ?_
        rintro rfl
        exact hnot (Or.inl ⟨rfl, by rw [hw, List.head?_cons]⟩)
    | broadcast => exact absurd (Or.inr ⟨rfl, hp⟩) hnot

/-- **Who is on the queue afterwards** was there, or has called. -/
theorem step_enters (h : m.Lawful) (he : e.InRange) (hkeep : ¬ e.ReclaimsId c)
    (hstep : m.step e = some t) (hp : p ∈ t.sync.waiters c) :
    p ∈ m.sync.waiters c ∨ ∃ id, Waits c id p m e ∧ t.sync.Inside c id p := by
  rcases step_queued h he hkeep hstep with ⟨-, hsame, -⟩ | ⟨call, r, rfl, rfl, hq⟩
  · rw [hsame] at hp
    exact Or.inl hp
  · have hp' : p ∈ r.2.waiters c := hp
    cases hq with
    | kept _ _ hsig hbc hsame =>
      rw [hsame] at hp'
      exact Or.inl hp'
    | waits id _ hlast hframe =>
      rw [hlast, List.mem_append, List.mem_singleton] at hp'
      refine hp'.imp_right ?_
      rintro rfl
      exact ⟨id, ⟨rfl, rfl⟩, Or.inl ⟨_, hframe⟩⟩
    | signal _ htail =>
      rw [htail] at hp'
      exact Or.inl (List.mem_of_mem_tail hp')
    | broadcast _ hnil =>
      rw [hnil] at hp'
      exact absurd hp' List.not_mem_nil

/-- **Who is inside `CvarWait` afterwards** was inside it, or has entered
the queue. -/
theorem step_inside (h : m.Lawful) (he : e.InRange) (hkeep : ¬ e.ReclaimsId c)
    (hstep : m.step e = some t) (hp : t.sync.Inside c id p) :
    m.sync.Inside c id p ∨ p ∈ t.sync.waiters c := by
  rcases step_queued h he hkeep hstep with ⟨-, -, hin⟩ | ⟨call, r, rfl, rfl, hq⟩
  · exact Or.inl (hin id p hp)
  · have hp' : r.2.Inside c id p := hp
    cases hq with
    | kept _ _ hsig hbc hsame hin => exact Or.inl (hin id p hp')
    | waits id' _ hlast hframe hin =>
      rcases hin id p hp' with rfl | hold
      · right
        show m.kernel.procs.running ∈ r.2.waiters c
        rw [hlast]
        exact List.mem_append_right _ (List.mem_singleton_self _)
      · exact Or.inl hold
    | signal _ htail hprocs hin =>
      unfold Sync.Inside at hp' ⊢
      rw [hin] at hp'
      exact Or.inl hp'
    | broadcast _ hnil hprocs hin =>
      unfold Sync.Inside at hp' ⊢
      rw [hin] at hp'
      exact Or.inl hp'

/-! ## The whole run -/

/-- **How a process came to be inside `CvarWait`**: it called and has been
on the queue since, or it was woken and has been inside since. -/
structure History (c : ℤ) (m₀ : Machine Node Addr) (es : List (Event Node Addr))
    (m : Machine Node Addr) : Prop where
  asleep : ∀ p ∈ m.sync.waiters c, ∃ id, m.sync.Inside c id p ∧
    Run.Since step (Waits c id p) (fun s => p ∈ s.sync.waiters c) m₀ es
  woken : ∀ id p, m.sync.Inside c id p → p ∉ m.sync.waiters c →
    Run.Since step (Wakes c p) (fun s => s.sync.Inside c id p) m₀ es

/-- One more event. -/
theorem History.snoc (h : History c m₀ es m) (hl : m.Lawful) (he : e.InRange)
    (hkeep : ¬ e.ReclaimsId c) (hrun : Run.exec step m₀ es = some m) (hstep : m.step e = some t) :
    History c m₀ (es ++ [e]) t := by
  constructor
  · intro p hp
    rcases step_enters hl he hkeep hstep hp with hold | ⟨id, hwaits, hinside⟩
    · obtain ⟨id, hinside, hsince⟩ := h.asleep p hold
      refine ⟨id, ?_, hsince.snoc hrun hstep hp⟩
      -- it has the frame it went to sleep with
      have hne : p ≠ m.kernel.procs.running := by
        rintro rfl
        exact Sync.not_mem_waiters hl.sound.running_not_synced c hold
      unfold Sync.Inside at hinside ⊢
      rwa [(onSync hl he hstep).frame_of_ne hl hne]
    · exact ⟨id, hinside, Run.Since.now hrun hstep hwaits hp⟩
  · intro id p hp hnot
    have hin := (step_inside hl he hkeep hstep hp).resolve_right hnot
    by_cases hon : p ∈ m.sync.waiters c
    · have hwakes : Wakes c p m e := by
        by_contra hw
        exact hnot (step_stays hl he hkeep hstep hon hw)
      exact Run.Since.now hrun hstep hwakes hp
    · exact (h.woken id p hin hon).snoc hrun hstep hp

/-- **When `CvarWait` returns**, its caller was inside it and on no queue,
and has the lock. -/
theorem step_returns {s : ℕ} (h : m.Lawful) (he : e.InRange) (hstep : m.step e = some t)
    (hlog : t.sync.log = m.sync.log ++ [.returns (p, s) (.cvarWait c id) 0]) :
    m.sync.Inside c id p ∧ p ∉ m.sync.waiters c ∧ (t.sync.lockAt id).owner = some p := by
  have hgrown : t.sync.log ≠ m.sync.log := by
    intro heq
    have := congrArg List.length (heq.symm.trans hlog)
    rw [List.length_append, List.length_singleton] at this
    omega
  cases onSync h he hstep with
  | kept _ _ hout hev hsync => exact absurd (by rw [hsync]) hgrown
  | made s _ hout hev hmade => exact absurd hmade.log hgrown
  | called cc call hc hwaits hout => exact absurd (Sync.returned_call hlog) (by decide)
  | back cc f r hc hwaits hframe hr =>
    obtain ⟨hrun, hinside, hown⟩ := Sync.returned_resume hframe hr hlog
    have hrun' : p = m.kernel.procs.running := hrun
    refine ⟨hinside, ?_, hown⟩
    rw [hrun']
    exact Sync.not_mem_waiters h.sound.running_not_synced c
  | reclaimed id' size hout => exact absurd (kernelReclaim_sync h.numbered id' size).2.1 hgrown

/-- **A condition variable in a state of a run.** One event is one step: no
other process runs inside it. -/
structure CvarExact (c : ℤ) (m₀ : Machine Node Addr) (es : List (Event Node Addr))
    (m : Machine Node Addr) : Prop where
  /-- The owner of a lock that calls `CvarWait` gives it up and is on the
  queue, last. -/
  waits : ∀ id p t, (m.sync.lockAt id).owner = some p → m.kernel.procs.running = p →
    Filed.find m.sync.cvar c ≠ none → m.step (.call (.sync (.cvarWait c id))) = some t →
    (t.sync.lockAt id).owner = none ∧ t.sync.waiters c = m.sync.waiters c ++ [p]
  /-- It stays there until it is woken. -/
  stays : ∀ p ∈ m.sync.waiters c, ∀ e t, e.InRange → ¬ e.ReclaimsId c → m.step e = some t →
    (p ∈ t.sync.waiters c ↔ ¬ Wakes c p m e)
  /-- It has been there since it called, at its place in the history. -/
  since : ∀ p ∈ m.sync.waiters c, ∃ id serial,
    m.sync.log[sleptAt (m.sync.frame p)]? = some (.waits (p, serial) c id) ∧
    Run.Since step (Waits c id p) (fun s => p ∈ s.sync.waiters c) m₀ es
  /-- The longest waiting is the first. -/
  fifo : (m.sync.waiters c).Pairwise fun p q => sleptAt (m.sync.frame p) < sleptAt (m.sync.frame q)
  /-- `CvarSignal` makes ready the first, and nobody else. -/
  signal : ∀ t, m.step (.call (.sync (.cvarSignal c))) = some t →
    t.sync.waiters c = (m.sync.waiters c).tail ∧
    t.kernel.procs = { m.kernel.procs with
      ready := m.kernel.procs.ready ++ (m.sync.waiters c).take 1 }
  /-- `CvarBroadcast` makes ready all of them, and nobody else. -/
  broadcast : ∀ t, m.step (.call (.sync (.cvarBroadcast c))) = some t →
    t.sync.waiters c = [] ∧
    t.kernel.procs = { m.kernel.procs with
      ready := m.kernel.procs.ready ++ m.sync.waiters c }
  /-- `CvarWait` returns after its caller was woken, inside this call, and
  with the lock. -/
  returns : ∀ e t p s id, e.InRange → m.step e = some t →
    t.sync.log = m.sync.log ++ [.returns (p, s) (.cvarWait c id) 0] →
    Run.Since step (Wakes c p) (fun s => s.sync.Inside c id p) m₀ es ∧
    (t.sync.lockAt id).owner = some p

/-- The queue after a call on the condition variable itself. -/
theorem call_queued {call : SyncCall} (h : m.Lawful) (hstep : m.step (.call (.sync call)) = some t) :
    ∃ r, t = m.setSync r ∧ m.sync.Queued m.kernel.procs c call r := by
  cases onSync (e := .call (.sync call)) h trivial hstep with
  | kept _ _ hout hev => exact absurd rfl (hev call)
  | made s _ hout hev => exact absurd rfl (hev call)
  | called cc _ hc => exact ⟨_, rfl, m.sync.queued m.kernel.procs cc.serial c call⟩

/-- Who is woken leaves the queue. -/
theorem step_leaves (h : m.Lawful) (hstep : m.step e = some t) (hwakes : Wakes c p m e) :
    p ∉ t.sync.waiters c := by
  rcases hwakes with ⟨rfl, hhead⟩ | ⟨rfl, hin⟩
  · obtain ⟨r, rfl, hq⟩ := call_queued (c := c) h hstep
    show p ∉ r.2.waiters c
    cases hq with
    | kept _ _ hsig => exact absurd rfl hsig
    | signal _ htail =>
      have hnd := (h.law.cvar c).nodup
      cases hw : m.sync.waiters c with
      | nil =>
        rw [hw] at hhead
        cases hhead
      | cons x rest =>
        rw [hw] at htail hnd hhead
        obtain rfl : x = p := Option.some.inj hhead
        rw [htail]
        exact (List.nodup_cons.mp hnd).1
  · obtain ⟨r, rfl, hq⟩ := call_queued (c := c) h hstep
    show p ∉ r.2.waiters c
    cases hq with
    | kept _ _ hsig hbc => exact absurd rfl hbc
    | broadcast _ hnil =>
      rw [hnil]
      exact List.not_mem_nil

theorem Lawful.cvarExact (h : m.Lawful) (hh : History c m₀ es m) : CvarExact c m₀ es m where
  waits id p t hown hrun hfind hstep := by
    -- a lock with an owner is a lock on file
    obtain ⟨lock, hlock⟩ : ∃ lock, Filed.find m.sync.lock id = some lock := by
      refine Option.ne_none_iff_exists'.mp fun hnone => ?_
      unfold Sync.lockAt at hown
      rw [hnone] at hown
      cases hown
    obtain ⟨cvar, hcvar⟩ := Option.ne_none_iff_exists'.mp hfind
    rw [Sync.lockAt_eq hlock, ← hrun] at hown
    rw [← hrun]
    cases onSync (e := .call (.sync (.cvarWait c id))) h trivial hstep with
    | kept _ _ hout hev => exact absurd rfl (hev _)
    | made s _ hout hev => exact absurd rfl (hev _)
    | called cc _ hc => exact Sync.cvarWait_owned hlock hcvar hown
  stays p hp e t he hkeep hstep :=
    ⟨fun hin hwakes => step_leaves h hstep hwakes hin, step_stays h he hkeep hstep hp⟩
  since p hp := by
    obtain ⟨id, hinside, hsince⟩ := hh.asleep p hp
    obtain ⟨id', since, serial, hf, hn⟩ := (h.law.cvar c).asleep p hp
    obtain rfl : id' = id := by
      rcases hinside with ⟨since', hf'⟩ | hf'
      · exact (SyncFrame.waiting.inj (Option.some.inj (hf.symm.trans hf'))).2.1
      · cases hf.symm.trans hf'
    refine ⟨id', serial, ?_, hsince⟩
    rw [hf]
    exact hn
  fifo := (h.law.cvar c).fifo
  signal t hstep := by
    obtain ⟨r, rfl, hq⟩ := call_queued (c := c) h hstep
    cases hq with
    | kept _ _ hsig => exact absurd rfl hsig
    | signal _ htail hprocs => exact ⟨htail, hprocs⟩
  broadcast t hstep := by
    obtain ⟨r, rfl, hq⟩ := call_queued (c := c) h hstep
    cases hq with
    | kept _ _ hsig hbc => exact absurd rfl hbc
    | broadcast _ hnil hprocs => exact ⟨hnil, hprocs⟩
  returns e t p s id he hstep hlog := by
    obtain ⟨hinside, hnot, hown⟩ := step_returns h he hstep hlog
    exact ⟨hh.woken id p hinside hnot, hown⟩

/-- **Condition variables lose no signal and wake nobody for nothing**, in
any run that does not take the condition variable away. -/
theorem cvar_exact (hb : start b = some m₀) (hes : ∀ e ∈ es, e.InRange ∧ ¬ e.ReclaimsId c)
    (hrun : Run.exec step m₀ es = some m) : CvarExact c m₀ es m := by
  have hstart : History c m₀ [] m₀ := by
    obtain ⟨k, hk, rfl⟩ := Option.map_eq_some_iff.mp hb
    refine ⟨fun p hp => absurd hp List.not_mem_nil, fun id p hp _ => ?_⟩
    rcases hp with ⟨since, hf⟩ | hf
    · cases hf
    · cases hf
  have hboth : m.Lawful ∧ History c m₀ es m := by
    refine Run.history_of_exec (H := fun es u => u.Lawful ∧ History c m₀ es u)
      ⟨start_lawful hb, hstart⟩ (fun es t e u ht he hh hstep => ?_) hes hrun
    exact ⟨step_lawful hh.1 he.1 hstep, hh.2.snoc hh.1 he.1 he.2 ht hstep⟩
  exact hboth.1.cvarExact hboth.2

omit [Paging] [Devices] in
/-- Init's child waits, is signalled while init has the lock, and returns
when init has released it. -/
theorem cvar_exact_signalled :
    let _ := yalnixPaging
    let _ := yalnixDevices
    let es : List (Event ℕ ℕ) := [.call (.lockInit 0x1ff000), .call (.cvarInit 0x1ff000 0),
      .call (.proc (.fork 2 2 2)), .clock, .call (.sync (.acquire 0)),
      .call (.sync (.cvarWait 1 0)), .call (.sync (.acquire 0)), .call (.sync (.cvarSignal 1)),
      .clock, .resume, .call (.sync (.release 0)), .clock, .resume]
    ∃ m₀ m : Machine ℕ ℕ, start (smallBoot 140) = some m₀ ∧ Run.exec step m₀ es = some m ∧
      CvarExact 1 m₀ es m := by
  let _ := yalnixPaging
  let _ := yalnixDevices
  let es : List (Event ℕ ℕ) := [.call (.lockInit 0x1ff000), .call (.cvarInit 0x1ff000 0),
    .call (.proc (.fork 2 2 2)), .clock, .call (.sync (.acquire 0)),
    .call (.sync (.cvarWait 1 0)), .call (.sync (.acquire 0)), .call (.sync (.cvarSignal 1)),
    .clock, .resume, .call (.sync (.release 0)), .clock, .resume]
  have hruns : ((start (smallBoot 140)).bind fun m => Run.exec step m es).isSome = true := by
    decide +kernel
  obtain ⟨m₀, m, hm₀, hrun⟩ := Run.exists_exec hruns
  exact ⟨m₀, m, hm₀, hrun,
    cvar_exact hm₀ (by simp [Event.InRange, Event.ReclaimsId]) hrun⟩

end Machine

end Yalnix
