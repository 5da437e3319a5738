import Yalnix.Common.Countdown
import Yalnix.Machine.Awake
import Yalnix.Machine.Fairness
import Yalnix.Machine.Spaces
/-!
# Delays, clock by clock

`procs->delayed` with the counters of the processes on it is the list of
`Common/Countdown.lean`, and `check_delay` is its tick. `KernelDelay` puts
its caller last on it, and nothing else the kernel does touches the list or
a counter of a process on it. So `Delay(n)` is never early, and late by the
clock traps that released somebody else.
-/

namespace Yalnix

open Countdown

variable {Node Addr : Type}

/-! ## Who leaves `procs->delayed` alone -/

section Scheduler

variable {procs : ProcTable Node}

@[simp] theorem runNextReady_delayed (procs : ProcTable Node) :
    (runNextReady procs).delayed = procs.delayed := by
  unfold runNextReady
  split <;> rfl

@[simp] theorem unblockHead_delayed (procs : ProcTable Node) (q : List Node) :
    (unblockHead procs q).1.delayed = procs.delayed := by
  cases q <;> rfl

@[simp] theorem unblockAll_delayed (procs : ProcTable Node) (q : List Node) :
    (unblockAll procs q).delayed = procs.delayed := by
  induction q generalizing procs with
  | nil => rfl
  | cons p rest ih =>
    unfold unblockAll
    rw [ih]
    rfl

theorem readPipe_delayed (pipe : Pipe Node) (len : ℤ) :
    (readPipe procs pipe len).1.delayed = procs.delayed := by
  unfold readPipe
  dsimp only
  split
  · exact runNextReady_delayed procs
  · split
    · exact unblockAll_delayed procs _
    · rfl

theorem writePipe_delayed (pipe : Pipe Node) (f : WriteFrame) :
    (writePipe procs pipe f).1.delayed = procs.delayed := by
  unfold writePipe
  dsimp only
  split
  · exact runNextReady_delayed procs
  · split
    · exact unblockAll_delayed procs _
    · rfl

theorem readTty_delayed (inp : Ttyio Node) (len : ℤ) :
    (readTty procs inp len).1.delayed = procs.delayed := by
  unfold readTty
  dsimp only
  split
  · exact runNextReady_delayed procs
  · rfl

theorem writeTty_delayed (out : Ttyio Node) (f : TtyFrame) :
    (writeTty procs out f).1.delayed = procs.delayed := by
  unfold writeTty
  split
  · split <;> exact runNextReady_delayed procs
  · exact unblockHead_delayed procs _

theorem receive_delayed (inp : Ttyio Node) (landing : ℤ → Byte) (read : ℤ) :
    (receive procs inp landing read).1.delayed = procs.delayed := by
  unfold receive
  dsimp only
  split
  · exact unblockAll_delayed procs _
  · rfl

namespace Sync

variable [DecidableEq Node] {y : Sync Node} {serial : ℕ}

theorem release_delayed (lock : Lock Node) :
    (release procs lock).1.delayed = procs.delayed := by
  unfold release
  split
  · rfl
  · split
    · exact unblockHead_delayed procs _
    · rfl

theorem runAcquire_delayed (id : ℤ) (lock : Lock Node) (waited : Option ℤ) :
    (y.runAcquire procs serial id lock waited).1.delayed = procs.delayed := by
  have hacq : (acquire procs lock).1.delayed = procs.delayed := by
    unfold acquire
    split
    · exact runNextReady_delayed procs
    · rfl
  unfold runAcquire
  split
  · rename_i procs' lock' heq
    rw [heq] at hacq
    exact hacq
  · rename_i procs' lock' r heq
    rw [heq] at hacq
    exact hacq

theorem call_delayed (c : SyncCall) : (y.call procs serial c).1.delayed = procs.delayed := by
  have hcall := y.called procs serial c
  generalize y.call procs serial c = r at hcall ⊢
  cases hcall with
  | refused => rfl
  | acquire id lock => exact runAcquire_delayed id lock none
  | release id lock => exact release_delayed lock
  | cvarWait cvarId id lock cvar =>
    exact (runNextReady_delayed _).trans (release_delayed lock)
  | cvarSignal id cvar =>
    dsimp only
    unfold signalCvar
    split
    · exact unblockHead_delayed procs _
    · rfl
  | cvarBroadcast id cvar =>
    dsimp only
    unfold broadcast
    split
    · exact unblockAll_delayed procs _
    · rfl

theorem resume_delayed {f : SyncFrame} {r : ProcTable Node × Sync Node}
    (hr : y.resume procs serial f = some r) : r.1.delayed = procs.delayed := by
  cases cameBack hr with
  | waiting cvarId id since lock => exact runAcquire_delayed id lock _
  | acquiring id waited lock => exact runAcquire_delayed id _ waited

end Sync

end Scheduler

section Processes

variable [DecidableEq Node] [DecidableEq Addr] [Paging] {k k' : Kernel Node Addr}
  {c : Proc Node Addr} {kin : Kin Node Addr}

omit [DecidableEq Addr] [Paging] in
theorem graveyard_delayed (k : Kernel Node Addr) :
    (graveyard k).procs.delayed = k.procs.delayed := by
  unfold graveyard
  dsimp only
  cases k.curr.bind Proc.parent with
  | none => exact runNextReady_delayed _
  | some parent =>
    refine (runNextReady_delayed _).trans ?_
    show (checkWait k.procs parent).delayed = _
    unfold checkWait unblockWaiting
    split
    · split <;> rfl
    · rfl

theorem kernelExit_delayed {status : ℤ} (hexit : kernelExit k status = some k') :
    k'.procs.delayed = k.procs.delayed := by
  rw [kernelExit_eq hexit, graveyard_delayed, processTerminate_procs, reapOrphans_procs]

theorem Effect.delayed {act : ProcAct Node Addr} (hc : k.curr = some c)
    (heff : Effect k c kin act k') : k'.procs.delayed = k.procs.delayed := by
  cases heff with
  | forkRefused | forked | execRefused | loaded | waitRefused | stored => rfl
  | killed filename argvec env args l k' hl hcode hexit =>
    exact kernelExit_delayed (k := k.set k.procs.running (loadedProc c l) l.1.mem) hexit
  | exited status k' hexit => exact kernelExit_delayed hexit
  | asleep => exact runNextReady_delayed k.procs
  | collected act statusPtr child rest childPcb =>
    dsimp only
    rw [collected_procs]
  | brk addr r hr => exact congrArg ProcTable.delayed (kernelUserBrk_keeps hc hr).2.1
  | fault addr k' hk' =>
    rcases trapMemory_keeps hc hk' with hexit | ⟨-, hprocs, -⟩
    · exact kernelExit_delayed hexit
    · exact congrArg ProcTable.delayed hprocs

end Processes

/-! ## The counters -/

namespace Kernel

/-- The counter of a process. -/
def codeOf (k : Kernel Node Addr) (p : Node) : ℤ := ((k.proc p).map Proc.code).getD 0

/-- **The delayed and their counters**, in the order of `procs->delayed`. -/
def sleepers (k : Kernel Node Addr) : List (Node × ℤ) :=
  k.procs.delayed.map fun p => (p, k.codeOf p)

variable {k k' : Kernel Node Addr} {p : Node}

theorem codeOf_eq {c : Proc Node Addr} (hc : k.proc p = some c) : k.codeOf p = c.code := by
  unfold codeOf
  rw [hc]
  rfl

/-- Nothing to do with delays. -/
theorem sleepers_congr (hdelayed : k'.procs.delayed = k.procs.delayed)
    (hcode : ∀ p ∈ k.procs.delayed, k'.codeOf p = k.codeOf p) : k'.sleepers = k.sleepers := by
  unfold sleepers
  rw [hdelayed]
  exact List.map_congr_left fun p hp => by rw [hcode p hp]

theorem sleepers_of_proc (hdelayed : k'.procs.delayed = k.procs.delayed)
    (hproc : k'.proc = k.proc) : k'.sleepers = k.sleepers :=
  sleepers_congr hdelayed fun p _ => by
    unfold codeOf
    rw [hproc]

variable [DecidableEq Node]

/-- A store to one process is a store to its counter. -/
theorem codeOf_modify {c : Proc Node Addr} {f : Proc Node Addr → Proc Node Addr}
    (hc : k.proc p = some c) (q : Node) :
    (k.modify p f).codeOf q = if q = p then (f c).code else k.codeOf q := by
  split
  · rename_i heq
    subst heq
    refine codeOf_eq ?_
    unfold Kernel.modify
    dsimp only
    rw [Function.update_self, hc]
    rfl
  · rename_i hne
    unfold codeOf
    rw [modify_of_ne hne]

end Kernel

section CheckDelay

variable [DecidableEq Node]

/-- **`check_delay` is a tick of the delayed**, and readies the one it
releases. -/
theorem sleepers_checkDelayLoop (rest front : List Node) (k : Kernel Node Addr)
    (hdelayed : k.procs.delayed = front ++ rest) (hnd : k.procs.delayed.Nodup)
    (hall : ∀ p ∈ rest, (k.proc p).isSome) :
    (checkDelayLoop rest k).sleepers = front.map (fun p => (p, k.codeOf p)) ++
        Countdown.tick (rest.map fun p => (p, k.codeOf p)) ∧
      ∀ p, expired (rest.map fun p => (p, k.codeOf p)) = some p →
        p ∈ (checkDelayLoop rest k).procs.ready := by
  induction rest generalizing k front with
  | nil =>
    refine ⟨?_, fun p hp => by cases hp⟩
    show k.sleepers = _
    unfold Kernel.sleepers
    rw [hdelayed, List.append_nil]
    exact (List.append_nil _).symm
  | cons curr rest ih =>
    obtain ⟨c, hc⟩ := Option.isSome_iff_exists.mp (hall curr List.mem_cons_self)
    have hrest : ∀ p ∈ rest, (k.proc p).isSome := fun p hp => hall p (List.mem_cons_of_mem _ hp)
    have hnd' : (front ++ curr :: rest).Nodup := hdelayed ▸ hnd
    obtain ⟨k₁, hk₁⟩ : ∃ k₁, k₁ = k.modify curr fun c => { c with code := c.code - 1 } :=
      ⟨_, rfl⟩
    have hprocs : k₁.procs = k.procs := by rw [hk₁]; rfl
    -- the counter of `curr` is all that is stored
    have hcode : ∀ l : List Node, curr ∉ l →
        l.map (fun p => (p, k₁.codeOf p)) = l.map fun p => (p, k.codeOf p) := by
      intro l hl
      refine List.map_congr_left fun p hp => ?_
      rw [hk₁, Kernel.codeOf_modify hc, if_neg (ne_of_mem_of_not_mem hp hl)]
    have hself : k₁.codeOf curr = k.codeOf curr - 1 := by
      rw [hk₁, Kernel.codeOf_modify hc, if_pos rfl, Kernel.codeOf_eq hc]
    have hfront : curr ∉ front := fun hin =>
      List.disjoint_of_nodup_append hnd' hin List.mem_cons_self
    have hback : curr ∉ rest := (List.nodup_cons.mp (List.nodup_append.mp hnd').2.1).1
    have hcode' : k.codeOf curr = c.code := Kernel.codeOf_eq hc
    rw [List.map_cons]
    unfold checkDelayLoop
    rw [hc]
    dsimp only
    rw [← hk₁]
    split
    · -- it runs out: `curr` is released, and the loop is over
      obtain ⟨htick, hexpired⟩ := tick_cons_of_eq (x := curr) (n := k.codeOf curr)
        (l := rest.map fun p => (p, k.codeOf p)) (by omega)
      have hne : k₁.procs.delayed ≠ [] := by
        rw [hprocs, hdelayed]
        exact List.append_ne_nil_of_right_ne_nil _ (List.cons_ne_nil _ _)
      have herase : k₁.procs.delayed.erase curr = front ++ rest := by
        rw [hprocs, hdelayed, List.erase_append_right _ hfront, List.erase_cons_head]
      rw [htick, hexpired]
      refine ⟨?_, fun p hp => ?_⟩
      · unfold Kernel.sleepers unblockDelayed
        rw [if_neg hne]
        show (k₁.procs.delayed.erase curr).map (fun p => (p, k₁.codeOf p)) = _
        rw [herase, hcode _ (by simp [hfront, hback]), List.map_append]
      · obtain rfl := Option.some.inj hp
        show curr ∈ (unblockDelayed k₁.procs curr).ready
        unfold unblockDelayed
        rw [if_neg hne]
        exact List.mem_append_right _ (List.mem_singleton_self curr)
    · obtain ⟨htick, hexpired⟩ := tick_cons_of_ne (x := curr) (n := k.codeOf curr)
        (l := rest.map fun p => (p, k.codeOf p)) (by omega)
      have hall' : ∀ p ∈ rest, (k₁.proc p).isSome := by
        intro p hp
        rw [hk₁, modify_of_ne (ne_of_mem_of_not_mem hp hback)]
        exact hrest p hp
      obtain ⟨hloop, hready⟩ := ih (front ++ [curr]) k₁
        (by rw [hprocs, hdelayed, List.append_assoc, List.singleton_append])
        (hprocs ▸ hnd) hall'
      rw [hcode rest hback] at hloop hready
      rw [htick, hexpired, hloop]
      refine ⟨?_, hready⟩
      rw [List.map_append, hcode front hfront, List.append_assoc, List.map_singleton,
        List.singleton_append, hself]

end CheckDelay

namespace Machine

variable [Devices] [DecidableEq Node] {b : Boot Node Addr} {m t u : Machine Node Addr}
  {e : Event Node Addr} {es before : List (Event Node Addr)} {p : Node}

/-- Who is delayed lives, is there once, and does not run. -/
theorem Sound.of_delayed (hs : m.Sound) (hp : p ∈ m.kernel.procs.delayed) :
    m.kernel.alive p = true ∧ p ≠ m.kernel.procs.running := by
  have hqueued : p ∈ m.kernel.procs.queued := List.mem_append_right _ hp
  have hplaces : p ∈ m.kernel.procs.places := List.mem_append_right _ hqueued
  have hseated := hs.seated p
  have hcount := List.count_pos_iff.mpr hplaces
  unfold seats at hseated
  refine ⟨alive_of_due (by omega), ?_⟩
  rintro rfl
  by_cases hrun : m.kernel.procs.running = m.kernel.procs.idleNode
  · rw [hrun] at hplaces
    exact hs.idle_not_mem hplaces
  · exact (hs.seats_running hrun).2.2.1 hqueued

theorem Sound.delayed_nodup (hs : m.Sound) : m.kernel.procs.delayed.Nodup := by
  rw [List.nodup_iff_count_le_one]
  intro p
  have hseated := hs.seated p
  have hdue := due_le m.kernel p
  unfold seats at hseated
  rw [count_places] at hseated
  omega

/-- And is not ready. -/
theorem Sound.not_awake_of_delayed (hs : m.Sound) (hp : p ∈ m.kernel.procs.delayed) :
    ¬ m.kernel.procs.Awake p := by
  rintro (hready | heq)
  · have hseated := hs.seated p
    have hdue := due_le m.kernel p
    have hone := List.count_pos_iff.mpr hready
    have htwo := List.count_pos_iff.mpr hp
    unfold seats at hseated
    rw [count_places] at hseated
    omega
  · exact (hs.of_delayed hp).2 heq

theorem Sound.delayed_isSome (hs : m.Sound) :
    ∀ p ∈ m.kernel.procs.delayed, (m.kernel.proc p).isSome := by
  intro p hp
  obtain ⟨c, kin, hc, -⟩ := alive_iff.mp (hs.of_delayed hp).1
  rw [hc]
  rfl

variable [Paging]

omit [Devices] [DecidableEq Node] in
theorem sleepers_initObject {c : Proc Node Addr} {ptr : ℤ}
    {new : ℤ → Machine Node Addr → Machine Node Addr}
    (hnew : ∀ id s, (new id s).kernel = s.kernel) :
    (m.initObject c.userpt.pt ptr new).1.kernel.sleepers = m.kernel.sleepers := by
  have hkernel := hnew m.count { m with count := m.count + 1 }
  rcases initObject_cases (rfl : m.initObject c.userpt.pt ptr new = _) with
    heq | ⟨k, heq, rfl | rfl⟩
  · rw [heq]
  · rw [heq, hkernel]
  · rw [heq, hkernel]
    rfl

omit [DecidableEq Node] in
theorem sleepers_io {c : Proc Node Addr} {r : Machine Node Addr × Outcome IoFrame}
    (hcall : m.IoCall c e r) : r.1.kernel.sleepers = m.kernel.sleepers := by
  rcases hcall.cases with ⟨rfl, -⟩ | ⟨f, hact⟩
  · rfl
  cases hact with
  | ttyRead | ttyReadBack => exact Kernel.sleepers_of_proc (readTty_delayed _ _) rfl
  | ttyWrite | ttyWriteBack => exact Kernel.sleepers_of_proc (writeTty_delayed _ _) rfl
  | pipeRead | pipeReadBack => exact Kernel.sleepers_of_proc (readPipe_delayed _ _) rfl
  | pipeWrite | pipeWriteBack => exact Kernel.sleepers_of_proc (writePipe_delayed _ _) rfl

omit [Paging] in
/-- **`KernelDelay`** puts its caller last, with its ticks. -/
theorem sleepers_kernelDelay (hs : m.Sound)
    (hrun : m.kernel.procs.running ≠ m.kernel.procs.idleNode) (n : ℤ) :
    (m.kernelDelay n).1.kernel.sleepers =
      m.kernel.sleepers ++ if 0 < n then [(m.kernel.procs.running, n)] else [] := by
  unfold kernelDelay
  by_cases hpos : 0 < n
  · rw [if_neg (by omega), if_pos hpos, if_pos hpos]
    obtain ⟨c, kin, hc, -⟩ := hs.running_lives hrun
    have hcode := Kernel.codeOf_modify (f := fun c => { c with code := n }) hc
    have hout : ∀ p ∈ m.kernel.procs.delayed, p ≠ m.kernel.procs.running :=
      fun p hp => (hs.of_delayed hp).2
    show ((m.kernel.procs.delayed ++ [m.kernel.procs.running]).map fun p =>
      (p, (m.kernel.modify m.kernel.procs.running fun c => { c with code := n }).codeOf p)) = _
    rw [List.map_append, List.map_singleton, hcode, if_pos rfl]
    congr 1
    exact List.map_congr_left fun p hp => by rw [hcode, if_neg (hout p hp)]
  · rw [if_neg hpos, if_neg hpos, List.append_nil]
    split <;> rfl

variable [DecidableEq Addr]

/-- **Any event but the clock** leaves the delayed as they are, or adds one
that has called `Delay`. -/
theorem sleepers_step (hs : m.Sound) (hclock : e.isClock = false) (h : m.step e = some t) :
    ∃ new, t.kernel.sleepers = m.kernel.sleepers ++ new ∧ ∀ y ∈ new,
      0 < y.2 ∧ y.1 = m.kernel.procs.running ∧ ∃ n, e = .call (.delay n) := by
  have hsame : t.kernel.sleepers = m.kernel.sleepers →
      ∃ new, t.kernel.sleepers = m.kernel.sleepers ++ new ∧ ∀ y ∈ new,
        0 < y.2 ∧ y.1 = m.kernel.procs.running ∧ ∃ n, e = .call (.delay n) :=
    fun heq => ⟨[], by rw [heq, List.append_nil], fun y hy => by cases hy⟩
  rcases step_cases hs h with ⟨c, kin, hc, hkin, hrun, hby⟩ | htrap
  · cases hby with
    | acted e act k' he hout hsync heff =>
      have hk : (m.kernel.onStack c).Kindred := hs.kindred.congr rfl rfl rfl rfl
      refine hsame (Kernel.sleepers_congr (heff.delayed (k := m.kernel.onStack c) hc)
        fun p hp => ?_)
      obtain ⟨hlives, hne⟩ := hs.of_delayed hp
      obtain ⟨c₀, kin₀, hc₀, hkin₀⟩ := alive_iff.mp hlives
      obtain ⟨c', hc', -, -⟩ := heff.keepsUser hk hc hkin hc₀ (by rw [hkin₀]; rfl) (Or.inl hne)
      have hkeeps : c₀.Same c' :=
        heff.keeps (k := m.kernel.onStack c) hc hkin hc₀ (Or.inl hne) hc'
      rw [Kernel.codeOf_eq hc', Kernel.codeOf_eq hc₀, hkeeps.code]
    | delayed n hsync =>
      refine ⟨_, sleepers_kernelDelay hs hrun n, fun y hy => ?_⟩
      split at hy
      · rename_i hpos
        obtain rfl := List.mem_singleton.mp hy
        exact ⟨hpos, rfl, n, rfl⟩
      · cases hy
    | io e r hwaits hsync hcall =>
      refine hsame ?_
      rw [leaveIo_kernel]
      exact sleepers_io hcall
    | made s r hsync hinit =>
      refine hsame ?_
      cases hinit with
      | pipeInit ptr => exact sleepers_initObject fun _ _ => rfl
      | lockInit ptr => exact sleepers_initObject fun _ _ => rfl
      | cvarInit ptr second => exact sleepers_initObject fun _ _ => rfl
    | synced call => exact hsame (Kernel.sleepers_of_proc (Sync.call_delayed call) rfl)
    | back f r hwaits hframe hr =>
      exact hsame (Kernel.sleepers_of_proc (Sync.resume_delayed hr) rfl)
    | reclaimed id size =>
      exact hsame (congrArg Kernel.sleepers (kernelReclaim_fewer (m := m) id size).1)
  · cases htrap with
    | clock => cases hclock
    | receive tty landing read =>
      exact hsame (Kernel.sleepers_of_proc (receive_delayed _ landing read) rfl)
    | transmit tty =>
      exact hsame (Kernel.sleepers_of_proc (unblockHead_delayed _ _) rfl)

omit [Paging] [DecidableEq Addr] in
/-- **The clock ticks**, and who is released gets ready. -/
theorem sleepers_trapClock (hs : m.Sound) :
    m.trapClock.kernel.sleepers = Countdown.tick m.kernel.sleepers ∧
      ∀ p, expired m.kernel.sleepers = some p → m.trapClock.kernel.procs.Awake p := by
  obtain ⟨hloop, hready⟩ := sleepers_checkDelayLoop m.kernel.procs.delayed [] m.kernel rfl
    hs.delayed_nodup hs.delayed_isSome
  have hpreempt : ∀ procs : ProcTable Node, (rrPreempt procs).delayed = procs.delayed := by
    intro procs
    unfold rrPreempt
    split
    · rfl
    · dsimp only
      rw [runNextReady_delayed]
      split <;> rfl
  refine ⟨?_, fun p hp => awake_rrPreempt (hready p hp)⟩
  have hafter : m.trapClock.kernel.sleepers = (checkDelay m.kernel).sleepers :=
    Kernel.sleepers_of_proc (hpreempt (checkDelay m.kernel).procs) rfl
  exact hafter.trans hloop

/-- **The machine counts the delayed down.** -/
theorem countsDown :
    CountsDown (step : Machine Node Addr → _) (fun m => m.kernel.sleepers) Sound Event.InRange
      Event.isClock fun m p => m.kernel.procs.Awake p where
  inv m e t hs he h := (step_owes hs he h).1
  adds m e t hs _ hclock h := by
    obtain ⟨new, hnew, -⟩ := sleepers_step hs hclock h
    exact ⟨new, hnew⟩
  tick m e t hs _ hclock h := by
    cases e with
    | clock =>
      obtain ⟨-, heq⟩ := Option.ite_none_right_eq_some.mp h
      rw [← Option.some.inj heq]
      exact sleepers_trapClock hs
    | _ => cases hclock

/-! ## `Delay` -/

variable {m₀ : Machine Node Addr} {n : ℤ}

/-- The call that starts a delay. -/
theorem sleepers_delay (hs : m.Sound) (hn : 0 < n) (h : m.step (.call (.delay n)) = some t) :
    t.kernel.sleepers = m.kernel.sleepers ++ [(m.kernel.procs.running, n)] := by
  obtain ⟨c, -, hrun, -, hcall⟩ := step_call h
  obtain rfl := Option.some.inj hcall
  rw [sleepers_kernelDelay hs hrun n, if_pos hn]

omit [Devices] [DecidableEq Node] [Paging] [DecidableEq Addr] in
theorem mem_delayed_of_sleepers {as bs : List (Node × ℤ)}
    (h : m.kernel.sleepers = as ++ (p, n) :: bs) : p ∈ m.kernel.procs.delayed := by
  have hin : (p, n) ∈ m.kernel.sleepers := by
    rw [h]
    exact List.mem_append_right _ List.mem_cons_self
  obtain ⟨q, hq, heq⟩ := List.mem_map.mp hin
  exact (Prod.mk.inj heq).1 ▸ hq

/-- **How long `Delay(n)` takes.** A process that calls it, in any state a
run reaches, is on `procs->delayed` until the clock has trapped `n` times,
and is woken by one of the traps from the `n`th to the `n + k`th, where `k`
processes were delayed when it called. -/
theorem delay_bounds (hb : start b = some m₀) (hpast : ∀ e ∈ before, e.InRange)
    (hbefore : Run.exec step m₀ before = some m) (hn : 0 < n)
    (hdelay : m.step (.call (.delay n)) = some t) (hes : ∀ e ∈ es, e.InRange)
    (hrun : Run.exec step t es = some u) :
    ((es.countP Event.isClock : ℤ) < n →
      m.kernel.procs.running ∈ u.kernel.procs.delayed) ∧
    (n + m.kernel.procs.delayed.length ≤ es.countP Event.isClock →
      ∃ es₁ es₂ v w, es = es₁ ++ .clock :: es₂ ∧ Run.exec step t es₁ = some v ∧
        v.step .clock = some w ∧ n ≤ (es₁.countP Event.isClock : ℤ) + 1 ∧
        (es₁.countP Event.isClock : ℤ) + 1 ≤ n + m.kernel.procs.delayed.length ∧
        w.kernel.procs.Awake m.kernel.procs.running) := by
  have hkeep : ∀ (s : Machine Node Addr) e t, s.Sound → e.InRange → s.step e = some t → t.Sound :=
    fun s e t hs he h => (step_owes hs he h).1
  have hs : m.Sound := Run.inv_of_exec hkeep hpast (start_sound hb).1 hbefore
  have hs' : t.Sound := hkeep m (.call (.delay n)) t hs trivial hdelay
  have hlast : t.kernel.sleepers = m.kernel.sleepers ++ (m.kernel.procs.running, n) :: [] :=
    sleepers_delay hs hn hdelay
  have hlen : m.kernel.sleepers.length = m.kernel.procs.delayed.length := List.length_map ..
  have hearly : ∀ {es' : List (Event Node Addr)} {u' : Machine Node Addr},
      (∀ e ∈ es', e.InRange) → Run.exec step t es' = some u' →
      (es'.countP Event.isClock : ℤ) < n → m.kernel.procs.running ∈ u'.kernel.procs.delayed := by
    intro es' u' hes' hrun' hfew
    obtain ⟨as, n', bs, hin, -⟩ := countsDown.early hes' hs' hrun' hlast hfew
    exact mem_delayed_of_sleepers hin
  refine ⟨hearly hes hrun, fun henough => ?_⟩
  obtain ⟨es₁, e, es₂, v, w, rfl, hv, hw, htick, hle, hawake⟩ :=
    countsDown.late hes hs' hrun hlast hn (by omega)
  cases e with
  | clock =>
    refine ⟨es₁, es₂, v, w, rfl, hv, hw, ?_, by omega, hawake⟩
    by_contra hfew
    -- it would be delayed and awake at once
    have hes' : ∀ e ∈ es₁ ++ [.clock], e.InRange := by
      intro e he
      refine hes e ?_
      rcases List.mem_append.mp he with h | h
      · exact List.mem_append_left _ h
      · obtain rfl := List.mem_singleton.mp h
        exact List.mem_append_right _ List.mem_cons_self
    have hrun' : Run.exec step t (es₁ ++ [.clock]) = some w :=
      Run.exec_append.mpr ⟨v, hv, Run.exec_singleton.trans hw⟩
    have hcount : (es₁ ++ [Event.clock]).countP Event.isClock =
        es₁.countP Event.isClock + 1 := by
      rw [List.countP_append]
      rfl
    have hin := hearly hes' hrun' (by omega)
    have hsw : w.Sound := Run.inv_of_exec hkeep hes' hs' hrun'
    exact hsw.not_awake_of_delayed hin hawake
  | _ => cases htick

omit [Paging] [Devices] in
/-- Init's child delays for two ticks behind init, which delays for one: the
tick that wakes init is lost on the child, and the third wakes it. -/
theorem delay_bounds_second :
    let _ := yalnixPaging
    let _ := yalnixDevices
    let before : List (Event ℕ ℕ) := [.call (.proc (.fork 2 2 2)), .call (.delay 1)]
    let es : List (Event ℕ ℕ) := [.clock, .clock, .clock]
    ∃ m₀ m t u₁ u₂ u : Machine ℕ ℕ, start (smallBoot 140) = some m₀ ∧
      Run.exec step m₀ before = some m ∧ m.kernel.procs.running = 2 ∧
      m.kernel.procs.delayed = [0] ∧ m.step (.call (.delay 2)) = some t ∧
      Run.exec step t (es.take 1) = some u₁ ∧ 2 ∈ u₁.kernel.procs.delayed ∧
      Run.exec step t (es.take 2) = some u₂ ∧ u₂.kernel.procs.delayed = [2] ∧
      Run.exec step t es = some u ∧
      ∃ es₁ es₂ v w, es = es₁ ++ .clock :: es₂ ∧ Run.exec step t es₁ = some v ∧
        v.step .clock = some w ∧ 2 ≤ (es₁.countP Event.isClock : ℤ) + 1 ∧
        (es₁.countP Event.isClock : ℤ) + 1 ≤ 2 + m.kernel.procs.delayed.length ∧
        w.kernel.procs.Awake 2 := by
  let _ := yalnixPaging
  let _ := yalnixDevices
  intro _ _ before es
  have hruns : ((start (smallBoot 140)).bind fun m₀ : Machine ℕ ℕ =>
      (Run.exec step m₀ before).bind fun m => (m.step (.call (.delay 2))).bind fun t =>
        (Run.exec step t (es.take 1)).bind fun _ => (Run.exec step t (es.take 2)).bind fun u₂ =>
          (Run.exec step t es).map fun _ =>
            (m.kernel.procs.running, m.kernel.procs.delayed, u₂.kernel.procs.delayed)) =
      some (2, [0], [2]) := by
    decide +kernel
  obtain ⟨m₀, hm₀, hruns⟩ := Option.bind_eq_some_iff.mp hruns
  obtain ⟨m, hm, hruns⟩ := Option.bind_eq_some_iff.mp hruns
  obtain ⟨t, ht, hruns⟩ := Option.bind_eq_some_iff.mp hruns
  obtain ⟨u₁, hu₁, hruns⟩ := Option.bind_eq_some_iff.mp hruns
  obtain ⟨u₂, hu₂, hruns⟩ := Option.bind_eq_some_iff.mp hruns
  obtain ⟨u, hu, heq⟩ := Option.map_eq_some_iff.mp hruns
  simp only [Prod.mk.injEq] at heq
  obtain ⟨hrun, hfirst, hsecond⟩ := heq
  have hpast : ∀ e ∈ before, e.InRange := by simp [before, Event.InRange]
  have hclocks : ∀ (n : ℕ), ∀ e ∈ List.replicate n (Event.clock : Event ℕ ℕ), e.InRange := by
    intro n e he
    rw [List.eq_of_mem_replicate he]
    trivial
  refine ⟨m₀, m, t, u₁, u₂, u, hm₀, hm, hrun, hfirst, ht, hu₁, ?_, hu₂, hsecond, hu, ?_⟩
  · rw [← hrun]
    exact (delay_bounds hm₀ hpast hm (by decide) ht (hclocks 1) hu₁).1 (by decide)
  · rw [← hrun]
    exact (delay_bounds hm₀ hpast hm (by decide) ht (hclocks 3) hu).2 (by rw [hfirst]; decide)

end Machine

end Yalnix
