import Yalnix.Machine.Endings
import Yalnix.Memory.Image
import Yalnix.Process.Destroyed
/-!
# Whose kernel stack is mapped

`KCSwitch` puts the kernel stack of the process that gets the processor into
`kernel_pt`, entry by entry, and its page table into `REG_PTBR1`. A run is
that of the machine with these two beside it, and with the calls of
`process_destroy` made so far. At the boundary of every trap both are those
of `procs->running` (`kernelStack_follows`), although the process that exits
stays on its stack until the switch: a stack is freed only after somebody
else runs.
-/

namespace Yalnix

variable {Node Addr : Type}

section Mmu

variable [Paging]

open Paging

/-- What `KCSwitch` writes: the kernel stack's entries of `kernel_pt`, and
`REG_PTBR1`. A process has one user page table all its life, and the register
is known by the birth of the process whose it holds. -/
structure Mmu where
  kernelStack : ℤ → Pte
  ptbr1 : ℕ

/-- `KCSwitch`. -/
def kcSwitch (mmu : Mmu) (next : Proc Node Addr) : Mmu where
  kernelStack := (pages 0 numKstackPages).foldl
    (fun pt i => Function.update pt i (next.kstack i)) mmu.kernelStack
  ptbr1 := next.serial

omit [Paging] in
theorem foldl_update_eq {α : Type} (f : ℤ → α) (l : List ℤ) (pt : ℤ → α) (i : ℤ) :
    l.foldl (fun pt i => Function.update pt i (f i)) pt i = if i ∈ l then f i else pt i := by
  induction l generalizing pt with
  | nil => rfl
  | cons j rest ih =>
    rw [List.foldl_cons, ih]
    rcases eq_or_ne i j with rfl | hne
    · rw [Function.update_self, if_pos List.mem_cons_self]
      split <;> rfl
    · rw [Function.update_of_ne hne]
      simp [hne]

/-- The stack that is mapped is all the next process's. -/
theorem kcSwitch_kernelStack (mmu : Mmu) (next : Proc Node Addr) {i : ℤ} (hlo : 0 ≤ i)
    (hhi : i < numKstackPages) : (kcSwitch mmu next).kernelStack i = next.kstack i := by
  unfold kcSwitch
  dsimp only
  rw [foldl_update_eq, if_pos (mem_pages.mpr ⟨hlo, hhi⟩)]

end Mmu

/-- A call of `process_destroy`, and the machine it is made in. -/
structure Destruction (Node Addr : Type) where
  machine : Machine Node Addr
  proc : Node

namespace Destruction

/-- Whom it destroys. -/
def serial (d : Destruction Node Addr) : Option ℕ :=
  (d.machine.kernel.proc d.proc).map Proc.serial

/-- **It is of a terminated process** that is not running and is on no
queue. -/
structure Fit [Devices] (d : Destruction Node Addr) : Prop where
  terminated : ∃ c, d.machine.kernel.proc d.proc = some c ∧ c.kin = none
  not_running : d.proc ≠ d.machine.kernel.procs.running
  not_queued : ∀ q ∈ d.machine.queues, d.proc ∉ q

end Destruction

/-- The machine with what is mapped, and the calls of `process_destroy` so
far. -/
structure Switching (Node Addr : Type) where
  machine : Machine Node Addr
  mmu : Mmu
  destroyed : List (Destruction Node Addr)

variable [Paging] [Devices] [DecidableEq Node] [DecidableEq Addr]

open Paging

omit [Devices] in
/-- The calls of `process_destroy` an event makes. -/
def Machine.destroys (m : Machine Node Addr) (e : Event Node Addr) :
    List (Kernel Node Addr × Node) :=
  match m.kernel.curr, e with
  | some c, .call (.proc act) => (m.kernel.onStack c).destroyCalls c act
  | some c, .resume => (m.kernel.onStack c).destroyCalls c .resume
  | _, _ => []

/-! ## The calls of an event -/

namespace Machine

variable {m t : Machine Node Addr} {e : Event Node Addr}

/-- **Nobody is an orphan twice**, whatever happens. -/
theorem step_orphans_nodup (hs : m.Sound) (he : e.InRange) (hnodup : m.kernel.procs.orphans.Nodup)
    (h : m.step e = some t) : t.kernel.procs.orphans.Nodup := by
  rcases step_kinds hs he h with ⟨c, kin, act, k', hc, hkin, hrun, he', hout, heff, rfl⟩ |
    ⟨ht, -⟩ | ⟨-, hkernel, -⟩
  · have hk : (m.kernel.onStack c).Kindred := hs.kindred.congr rfl rfl rfl rfl
    exact (heff.move (k := m.kernel.onStack c) hc).orphans_nodup hk hnodup hkin
  · exact ht.trade.orphans ▸ hnodup
  · exact hkernel ▸ hnodup

/-- **What an event destroys.** -/
theorem step_destroys (hs : m.Sound) (he : e.InRange) (hnodup : m.kernel.procs.orphans.Nodup)
    (h : m.step e = some t) :
    (∃ c child data pid, m.kernel.curr = some c ∧ e = .call (.proc (.fork child data pid)) ∧
      m.kernel.proc child = none ∧
      t = { m with kernel := forked (m.kernel.onStack c) c child data pid }) ∨
    Destroys m.kernel (m.destroys e) t.kernel := by
  have hacted : ∀ {c act k'}, m.kernel.curr = some c →
      m.kernel.procs.running ≠ m.kernel.procs.idleNode →
      (m.kernel.onStack c).act m.kernel.procs.running c act = some k' →
      (∃ child data pid, act = .fork child data pid ∧ m.kernel.proc child = none ∧
        k' = forked (m.kernel.onStack c) c child data pid) ∨
      Destroys m.kernel ((m.kernel.onStack c).destroyCalls c act) k' := by
    intro c act k' hc hrun hact
    obtain ⟨c₀, kin, hc₀, hkin⟩ := hs.running_lives hrun
    obtain rfl := Option.some.inj (hc.symm.trans hc₀)
    have hk : (m.kernel.onStack c).Kindred := hs.kindred.congr rfl rfl rfl rfl
    rcases destroys_act (k := m.kernel.onStack c) hk hnodup hc hkin hact with hfork | hd
    · exact Or.inl hfork
    · exact Or.inr ⟨hd.procs, hd.dead, hd.nodup, hd.left⟩
  -- an event that is not an action destroys nobody
  have htrades : m.destroys e = [] → (∀ act, e ≠ .call (.proc act)) → e ≠ .resume →
      Destroys m.kernel (m.destroys e) t.kernel := by
    intro hnil hcall hresume
    rw [hnil]
    refine Destroys.nil fun n => ?_
    rcases step_kinds hs he h with ⟨c, kin, act, k', -, -, -, rfl | ⟨rfl, -⟩, -⟩ | ⟨ht, -⟩ |
      ⟨-, hkernel, -⟩
    · exact absurd rfl (hcall act)
    · exact absurd rfl hresume
    · have hmember := congrFun (congrArg Family.member ht.proc) n
      have : ∀ k : Kernel Node Addr, (k.proc n).isSome = (k.family.member n).isSome := by
        intro k
        unfold Kernel.family
        dsimp only
        rw [Option.isSome_map]
      rw [this, this, hmember]
    · rw [hkernel]
  rcases step_trap h with ⟨s, rfl⟩ | rfl | htrap
  · obtain ⟨c, hc, hrun, -, hcall⟩ := step_call h
    cases s with
    | proc act =>
      obtain ⟨k', hk', rfl⟩ := Option.map_eq_some_iff.mp hcall
      unfold destroys
      rw [hc]
      rcases hacted hc hrun hk' with ⟨child, data, pid, rfl, hchild, rfl⟩ | hd
      · exact Or.inl ⟨c, child, data, pid, rfl, rfl, hchild, rfl⟩
      · exact Or.inr hd
    | _ =>
      refine Or.inr (htrades ?_ (fun act heq => by cases heq) fun heq => by cases heq)
      unfold destroys
      rw [hc]
  · obtain ⟨c, hc, hrun, hres⟩ := step_resume h
    unfold destroys
    rw [hc]
    dsimp only
    have hnone : m.kernel.waits m.kernel.procs.running = none →
        (m.kernel.onStack c).destroyCalls c .resume = [] := by
      intro hwaits
      unfold Kernel.destroyCalls
      dsimp only
      rw [show (m.kernel.onStack c).waits (m.kernel.onStack c).procs.running = none from hwaits]
    rcases resume_cases hres with ⟨hwaits, k', hk', rfl⟩ | ⟨hwaits, f, y, hsync, hr, rfl⟩ |
      ⟨hwaits, hsync, f, y, hio, hr, rfl⟩
    · refine Or.inr ((hacted hc hrun hk').resolve_left ?_)
      rintro ⟨child, data, pid, heq, -⟩
      cases heq
    · rw [hnone hwaits]
      exact Or.inr (Destroys.nil fun _ => rfl)
    · rw [hnone hwaits]
      refine Or.inr (Destroys.nil fun n => ?_)
      rw [leaveIo_kernel, (IoCall.back (c := c) f y hio hr).running (r := none) |>.1]
  · refine Or.inr (htrades ?_ ?_ ?_)
    · unfold destroys
      cases htrap <;> cases m.kernel.curr <;> rfl
    · rintro act rfl
      cases htrap
    · rintro rfl
      cases htrap

end Machine

/-! ## The machine with what is mapped -/

namespace Switching

/-- **One event.** Where it ends in `run_next`, `switch_proc` has mapped the
process that runs now. -/
def step (s : Switching Node Addr) (e : Event Node Addr) : Option (Switching Node Addr) :=
  match s.machine.step e, s.machine.ending e with
  | some t, some ending => some
    { machine := t
      mmu :=
        match ending, t.kernel.curr with
        | .runNext, some next => kcSwitch s.mmu next
        | _, _ => s.mmu
      destroyed := s.destroyed ++
        (s.machine.destroys e).map fun call => ⟨{ s.machine with kernel := call.1 }, call.2⟩ }
  | _, _ => none

/-- `KernelStart`: the stack `VM_setup` mapped, and init's page table. -/
def start (b : Boot Node Addr) : Option (Switching Node Addr) :=
  (Machine.start b).map fun m =>
    { machine := m
      mmu := ⟨(bootMem b).kernelStack, 0⟩
      destroyed := [] }

/-- **The stack that is mapped** is in the pcb of `procs->running`, and so is
the page table. -/
def Matches (s : Switching Node Addr) : Prop :=
  ∃ c, s.machine.kernel.curr = some c ∧ s.mmu.ptbr1 = c.serial ∧
    ∀ i, 0 ≤ i → i < numKstackPages → s.mmu.kernelStack i = c.kstack i

/-- **What the calls so far were of**: terminated processes that were not
running and on no queue, none twice, and whoever is gone. -/
structure Accounted (s : Switching Node Addr) : Prop where
  fit : ∀ d ∈ s.destroyed, d.Fit
  once : (s.destroyed.map Destruction.serial).Nodup
  gone : ∀ σ, some σ ∈ s.destroyed.map Destruction.serial ↔
    σ < s.machine.kernel.born ∧ ∀ n c, s.machine.kernel.proc n = some c → c.serial ≠ σ

variable {s t : Switching Node Addr} {e : Event Node Addr} {es : List (Event Node Addr)}

/-- The machine goes on as it does alone. -/
theorem step_machine (h : s.step e = some t) : s.machine.step e = some t.machine := by
  unfold step at h
  split at h
  · rename_i t' ending ht' hending
    obtain rfl := Option.some.inj h
    exact ht'
  · cases h

/-- And can do here all it can. -/
theorem step_isSome : (s.step e).isSome = (s.machine.step e).isSome := by
  unfold step
  cases ht : s.machine.step e with
  | none => rfl
  | some t =>
    obtain ⟨ending, hending⟩ := Machine.step_ending ht
    rw [hending]
    rfl

/-- What an event does to the stack that is mapped, and to the calls. -/
theorem step_cases (h : s.step e = some t) :
    s.machine.step e = some t.machine ∧
    t.destroyed = s.destroyed ++ (s.machine.destroys e).map (fun call =>
      ⟨{ s.machine with kernel := call.1 }, call.2⟩) ∧
    ((∃ r, s.machine.ending e = some (.returns r) ∧ t.mmu = s.mmu) ∨
      t.mmu = match t.machine.kernel.curr with
        | some next => kcSwitch s.mmu next
        | none => s.mmu) := by
  unfold step at h
  split at h
  · rename_i t' ending ht' hending
    obtain rfl := Option.some.inj h
    refine ⟨ht', rfl, ?_⟩
    cases ending with
    | returns r => exact Or.inl ⟨r, hending, rfl⟩
    | runNext =>
      refine Or.inr ?_
      dsimp only
      cases t'.kernel.curr <;> rfl
  · cases h

/-- **What is mapped follows the processor.** -/
theorem step_matches (hs : s.machine.Sound) (ht : t.machine.Sound) (hm : s.Matches)
    (h : s.step e = some t) : t.Matches := by
  obtain ⟨hstep, -, ⟨r, hend, hmmu⟩ | hmmu⟩ := step_cases h
  · have hrun := Machine.step_running hs hstep hend
    obtain ⟨c, hc, hptbr, hstack⟩ := hm
    obtain ⟨c', -, hc', -⟩ := alive_iff.mp ht.running_alive
    rw [hrun] at hc'
    -- the process that runs has the record it had
    have hsame : c'.serial = c.serial ∧ c'.kstack = c.kstack := by
      rcases Machine.step_keeps hs hstep with ⟨d, child, data, pid, hd, -, hchild, ht'⟩ | hkeeps
      · have hne : s.machine.kernel.procs.running ≠ child := by
          rintro heq
          rw [← heq] at hchild
          exact absurd (hc.symm.trans hchild) (Option.some_ne_none c)
        rw [ht'] at hc'
        obtain ⟨c₀, hc₀, hserial, -, hkstack, -⟩ :=
          (forked_proc (k := s.machine.kernel.onStack d) child data pid hd).1 _ hne c' hc'
        obtain rfl := Option.some.inj (hc.symm.trans hc₀)
        exact ⟨hserial, hkstack⟩
      · obtain ⟨c₀, hc₀, hserial, -, hkstack, -⟩ := hkeeps.kept _ c' hc'
        obtain rfl := Option.some.inj (hc.symm.trans hc₀)
        exact ⟨hserial, hkstack⟩
    refine ⟨c', ?_, ?_, fun i hlo hhi => ?_⟩
    · unfold Kernel.curr
      rw [hrun]
      exact hc'
    · rw [hmmu, hsame.1]
      exact hptbr
    · rw [hmmu, hsame.2]
      exact hstack i hlo hhi
  · obtain ⟨c, -, hc, -⟩ := alive_iff.mp ht.running_alive
    have hcurr : t.machine.kernel.curr = some c := hc
    rw [hcurr] at hmmu
    rw [Matches, hmmu]
    exact ⟨c, hcurr, rfl, fun i hlo hhi => kcSwitch_kernelStack s.mmu c hlo hhi⟩

omit [Paging] [DecidableEq Addr] in
/-- The dead have no place, in the machine as it is when they are
destroyed. -/
theorem fit_of_dead {m : Machine Node Addr} {k : Kernel Node Addr} {n : Node} {orphans : List Node}
    (hs : m.Sound) (hprocs : k.procs = { m.kernel.procs with orphans := orphans })
    {c c' : Proc Node Addr} (hc : m.kernel.proc n = some c) (hdead : c.kin = none)
    (hc' : k.proc n = some c') (hdead' : c'.kin = none) :
    (⟨{ m with kernel := k }, n⟩ : Destruction Node Addr).Fit := by
  have hnot : m.kernel.alive n = false := by
    rw [Bool.eq_false_iff]
    intro halive
    obtain ⟨c₀, kin, hc₀, hkin⟩ := alive_iff.mp halive
    obtain rfl := Option.some.inj (hc.symm.trans hc₀)
    rw [hdead] at hkin
    cases hkin
  have hseats : m.seats n = 0 := by
    have := hs.seated n
    unfold Kernel.due at this
    rw [hnot] at this
    simpa using this
  refine ⟨⟨c', hc', hdead'⟩, ?_, fun q hq hin => ?_⟩
  · dsimp only
    rw [hprocs]
    rintro rfl
    rw [hs.running_alive] at hnot
    cases hnot
  · rw [← Machine.count_queues, List.count_eq_zero] at hseats
    refine hseats (List.mem_flatten_of_mem (List.mem_cons_of_mem _ ?_) hin)
    have hqueues : Machine.queues { m with kernel := k } = m.queues := by
      unfold Machine.queues
      rw [hprocs]
    exact hqueues ▸ hq

/-- **A fork destroys nobody**, and the child is somebody new. -/
theorem accounted_fork {c : Proc Node Addr} {child : Node} {data : Addr} {pid : ℤ}
    (ha : s.Accounted) (hc : s.machine.kernel.curr = some c)
    (hchild : s.machine.kernel.proc child = none) (hdestroyed : t.destroyed = s.destroyed)
    (ht : t.machine.kernel = forked (s.machine.kernel.onStack c) c child data pid) :
    t.Accounted := by
  obtain ⟨hback, d, hd, hserial, -⟩ :=
    forked_proc (k := s.machine.kernel.onStack c) child data pid hc
  have hborn : t.machine.kernel.born = s.machine.kernel.born + 1 := by
    rw [ht]
    rfl
  -- everybody else is there as before
  have hforth : ∀ n c₀, s.machine.kernel.proc n = some c₀ →
      ∃ c', t.machine.kernel.proc n = some c' ∧ c'.serial = c₀.serial := by
    intro n c₀ hn
    have hne : n ≠ child := by
      rintro rfl
      exact absurd (hn.symm.trans hchild) (Option.some_ne_none c₀)
    rw [ht]
    unfold forked
    dsimp only
    rw [Function.update_of_ne hne]
    rcases eq_or_ne n s.machine.kernel.procs.running with rfl | hother
    · obtain rfl := Option.some.inj (hc.symm.trans hn)
      exact ⟨_, Function.update_self _ _ _, rfl⟩
    · exact ⟨c₀, (Function.update_of_ne hother _ _).trans hn, rfl⟩
  refine ⟨hdestroyed ▸ ha.fit, hdestroyed ▸ ha.once, fun σ => ?_⟩
  rw [hdestroyed, ha.gone, hborn]
  constructor
  · rintro ⟨hlt, hnone⟩
    refine ⟨by omega, fun n c' hc' => ?_⟩
    rw [ht] at hc'
    rcases eq_or_ne n child with rfl | hne
    · obtain rfl := Option.some.inj (hc'.symm.trans hd)
      rw [hserial]
      exact (ne_of_lt hlt).symm
    · obtain ⟨c₀, hc₀, hs, -⟩ := hback n hne c' hc'
      rw [hs]
      exact hnone n c₀ hc₀
  · rintro ⟨hlt, hnone⟩
    have hne : σ ≠ s.machine.kernel.born := by
      rintro rfl
      exact hnone child d (by rw [ht]; exact hd) hserial
    refine ⟨by omega, fun n c₀ hc₀ => ?_⟩
    obtain ⟨c', hc', hs⟩ := hforth n c₀ hc₀
    rw [← hs]
    exact hnone n c' hc'

omit [Paging] [Devices] [DecidableEq Node] [DecidableEq Addr] in
/-- Whom the calls destroy, by birth. -/
theorem destroyed_serial_iff {m : Machine Node Addr} {k' : Kernel Node Addr}
    {calls : List (Kernel Node Addr × Node)} (hd : Destroys m.kernel calls k') (σ : ℕ) :
    some σ ∈ (calls.map fun call => (⟨{ m with kernel := call.1 }, call.2⟩ :
      Destruction Node Addr)).map Destruction.serial ↔
      ∃ call ∈ calls, ∃ c, m.kernel.proc call.2 = some c ∧ c.serial = σ := by
  rw [List.map_map, List.mem_map]
  refine exists_congr fun call => and_congr_right fun hcall => ?_
  obtain ⟨c, c', hc, hc', hserial, -⟩ := hd.dead call hcall
  show (call.1.proc call.2).map Proc.serial = some σ ↔ _
  rw [hc', Option.map_some, Option.some.injEq, hserial]
  exact ⟨fun h => ⟨c, hc, h⟩, fun ⟨c₀, hc₀, h⟩ => Option.some.inj (hc.symm.trans hc₀) ▸ h⟩

omit [Paging] [Devices] [DecidableEq Node] [DecidableEq Addr] in
/-- They are there to be destroyed, and none is twice. -/
theorem destroyed_serials {m : Machine Node Addr} {k' : Kernel Node Addr}
    {calls : List (Kernel Node Addr × Node)} (hk : m.kernel.Kindred)
    (hd : Destroys m.kernel calls k') :
    ((calls.map fun call => (⟨{ m with kernel := call.1 }, call.2⟩ :
      Destruction Node Addr)).map Destruction.serial).Nodup ∧
    none ∉ (calls.map fun call => (⟨{ m with kernel := call.1 }, call.2⟩ :
      Destruction Node Addr)).map Destruction.serial := by
  constructor
  · rw [List.map_map]
    refine (List.Nodup.of_map _ hd.nodup).map_on fun x hx y hy heq => ?_
    obtain ⟨c, c', hc, hc', hserial, -⟩ := hd.dead x hx
    obtain ⟨d, d', hd₁, hd', hserial', -⟩ := hd.dead y hy
    refine List.inj_on_of_nodup_map hd.nodup hx hy ?_
    have heq' : (x.1.proc x.2).map Proc.serial = (y.1.proc y.2).map Proc.serial := heq
    rw [hc', hd', Option.map_some, Option.map_some, Option.some.injEq, hserial, hserial'] at heq'
    exact hk.kinship.serial_inj (member_eq hc) (member_eq hd₁) heq'
  · intro hin
    obtain ⟨d, hd₁, hnone⟩ := List.mem_map.mp hin
    obtain ⟨call, hcall, rfl⟩ := List.mem_map.mp hd₁
    obtain ⟨c, c', hc, hc', -⟩ := hd.dead call hcall
    have hlost : (call.1.proc call.2).map Proc.serial = none := hnone
    rw [hc'] at hlost
    cases hlost

omit [Paging] [Devices] [DecidableEq Addr] in
/-- **The dead go, once**, and everybody else stays. -/
theorem accounted_destroys {calls : List (Kernel Node Addr × Node)} {S : Set Node} [Devices]
    (hs : s.machine.Sound) (ha : s.Accounted)
    (hd : Destroys s.machine.kernel calls t.machine.kernel)
    (hkeeps : Keeps s.machine.kernel t.machine.kernel S)
    (hdestroyed : t.destroyed = s.destroyed ++ calls.map fun call =>
      ⟨{ s.machine with kernel := call.1 }, call.2⟩) : t.Accounted := by
  have hkin := hs.kindred.kinship
  have hwho := destroyed_serial_iff hd
  constructor
  · intro d hin
    rw [hdestroyed, List.mem_append, List.mem_map] at hin
    rcases hin with hold | ⟨call, hcall, rfl⟩
    · exact ha.fit d hold
    · obtain ⟨orphans, hprocs⟩ := hd.procs call hcall
      obtain ⟨c, c', hc, hc', -, hdead, hdead'⟩ := hd.dead call hcall
      exact fit_of_dead hs hprocs hc hdead hc' hdead'
  · rw [hdestroyed, List.map_append]
    obtain ⟨hnodup, hthere⟩ := destroyed_serials hs.kindred hd
    refine ha.once.append hnodup fun o hold hnew => ?_
    cases o with
    | none => exact hthere hnew
    | some σ =>
      obtain ⟨call, -, c, hc, hσ⟩ := (hwho σ).mp hnew
      exact ((ha.gone σ).mp hold).2 call.2 c hc hσ
  · intro σ
    rw [hdestroyed, List.map_append, List.mem_append, ha.gone, hwho, hkeeps.born]
    constructor
    · rintro (⟨hlt, hnone⟩ | ⟨call, hcall, c, hc, rfl⟩)
      · refine ⟨hlt, fun n c' hc' => ?_⟩
        obtain ⟨c, hc, hserial, -⟩ := hkeeps.kept n c' hc'
        rw [hserial]
        exact hnone n c hc
      · refine ⟨hkin.serial_lt (member_eq hc), fun n c' hc' heq => ?_⟩
        obtain ⟨c₁, hc₁, hserial, -⟩ := hkeeps.kept n c' hc'
        obtain rfl := hkin.serial_inj (member_eq hc₁) (member_eq hc) (hserial.symm.trans heq)
        have hleft := (hd.left call.2).mp (by rw [hc']; rfl)
        exact hleft.2 (List.mem_map_of_mem hcall)
    · rintro ⟨hlt, hnone⟩
      by_cases hthere : ∃ n c, s.machine.kernel.proc n = some c ∧ c.serial = σ
      · obtain ⟨n, c, hc, rfl⟩ := hthere
        refine Or.inr ?_
        -- it was there and is not any more
        have hgone : ¬ (t.machine.kernel.proc n).isSome := by
          intro hsome
          obtain ⟨c', hc'⟩ := Option.isSome_iff_exists.mp hsome
          obtain ⟨c₁, hc₁, hserial, -⟩ := hkeeps.kept n c' hc'
          obtain rfl := Option.some.inj (hc.symm.trans hc₁)
          exact hnone n c' hc' hserial
        rw [hd.left, hc] at hgone
        have hin : n ∈ calls.map Prod.snd := by
          by_contra hnot
          exact hgone ⟨rfl, hnot⟩
        obtain ⟨call, hcall, rfl⟩ := List.mem_map.mp hin
        exact ⟨call, hcall, c, hc, rfl⟩
      · exact Or.inl ⟨hlt, fun n c hc hσ => hthere ⟨n, c, hc, hσ⟩⟩

/-- **What every event keeps.** -/
theorem step_keeps (he : e.InRange)
    (hs : s.machine.Sound ∧ s.machine.kernel.procs.orphans.Nodup ∧ s.Matches ∧ s.Accounted)
    (h : s.step e = some t) :
    t.machine.Sound ∧ t.machine.kernel.procs.orphans.Nodup ∧ t.Matches ∧ t.Accounted := by
  obtain ⟨hsound, hnodup, hm, ha⟩ := hs
  obtain ⟨hstep, hdestroyed, -⟩ := step_cases h
  have hsound' := (Machine.step_owes hsound he hstep).1
  refine ⟨hsound', Machine.step_orphans_nodup hsound he hnodup hstep,
    step_matches hsound hsound' hm h, ?_⟩
  rcases Machine.step_destroys hsound he hnodup hstep with
    ⟨c, child, data, pid, hc, rfl, hchild, ht⟩ | hd
  · have hnone : s.machine.destroys (.call (.proc (.fork child data pid))) = [] := by
      unfold Machine.destroys
      rw [hc]
      rfl
    rw [hnone, List.map_nil, List.append_nil] at hdestroyed
    exact accounted_fork ha hc hchild hdestroyed (congrArg Machine.kernel ht)
  · rcases Machine.step_keeps hsound hstep with ⟨c, child, data, pid, hc, rfl, hchild, ht⟩ | hkeeps
    · -- a child that was not there
      obtain ⟨-, d, hd', -⟩ :=
        forked_proc (k := s.machine.kernel.onStack c) child data pid hc
      have hleft := (hd.left child).mp (by rw [ht]; exact Option.isSome_iff_exists.mpr ⟨d, hd'⟩)
      rw [hchild] at hleft
      cases hleft.1
    · exact accounted_destroys hsound ha hd hkeeps hdestroyed

section Boot

variable {b : Boot Node Addr}

/-- **After `KernelStart`** init's stack and table are mapped, and nobody has
been destroyed. -/
theorem start_keeps (hb : start b = some s) :
    s.machine.Sound ∧ s.machine.kernel.procs.orphans.Nodup ∧ s.Matches ∧ s.Accounted := by
  obtain ⟨m, hm, rfl⟩ := Option.map_eq_some_iff.mp hb
  obtain ⟨hsound, -⟩ := Machine.start_sound hm
  obtain ⟨k, hk, rfl⟩ := Option.map_eq_some_iff.mp hm
  obtain ⟨hne, -, hfamily, -, horphans, -⟩ := kernelStart_family hk
  refine ⟨hsound, ?_, ?_, ?_⟩
  · dsimp only
    rw [horphans]
    exact List.nodup_nil
  · have hrun := congrArg ProcTable.running (Machine.kernelStart_procs hk)
    unfold kernelStart at hk
    split at hk
    · cases hk
    · obtain ⟨k₁, hk₁, rfl⟩ := Option.map_eq_some_iff.mp hk
      obtain ⟨r, -, -, -, -, hproc⟩ := initLoad_eq hk₁
      rw [idleSetup_eq] at hrun ⊢
      dsimp only at hrun
      -- `init_load` copied the entries of `kernel_pt`
      refine ⟨{ (processInit b.initData b.initPid 0 : Proc Node Addr) with
        kstack := (bootMem b).kernelStack
        userpt := r.1.userpt
        uc := r.1.uc }, ?_, rfl, fun _ _ _ => rfl⟩
      show (Function.update k₁.proc b.idleNode _) k₁.procs.running = _
      rw [hrun, Function.update_of_ne hne.symm, hproc, Function.update_self]
  · refine ⟨fun d hd => absurd hd List.not_mem_nil, List.nodup_nil, fun σ => ?_⟩
    have hborn : k.born = 2 := congrArg Family.born hfamily
    have hinit : k.family.member b.initNode = some ⟨b.initData, none, some ⟨[], []⟩, 0, []⟩ := by
      rw [hfamily]
      dsimp only
      rw [Function.update_of_ne hne.symm, Function.update_self]
    have hidle : k.family.member b.idleNode = some ⟨b.idleData, none, some ⟨[], []⟩, 1, []⟩ := by
      rw [hfamily]
      exact Function.update_self _ _ _
    obtain ⟨c₀, hc₀, hm₀⟩ := exists_of_member hinit
    obtain ⟨c₁, hc₁, hm₁⟩ := exists_of_member hidle
    dsimp only
    rw [hborn]
    refine ⟨fun hin => absurd hin List.not_mem_nil, fun ⟨hlt, hnone⟩ => ?_⟩
    have h₀ := hnone _ _ hc₀
    have h₁ := hnone _ _ hc₁
    rw [show c₀.serial = 0 from congrArg Member.serial hm₀] at h₀
    rw [show c₁.serial = 1 from congrArg Member.serial hm₁] at h₁
    omega

/-- **Kernel stacks follow the running process.** In every state of every
run, the stack in `kernel_pt` and the table in `REG_PTBR1` are those in the
pcb of the process that is running; and every call of `process_destroy` was
of a terminated process that was not running and on no queue, none was made
twice for one process, and whoever is gone was destroyed. -/
theorem kernelStack_follows (hb : start b = some s) (hes : ∀ e ∈ es, e.InRange) :
    Run.Throughout step (fun s => s.Matches ∧ s.Accounted) s es := by
  have hall : Run.Throughout step (fun s : Switching Node Addr => s.machine.Sound ∧
      s.machine.kernel.procs.orphans.Nodup ∧ s.Matches ∧ s.Accounted) s es :=
    Run.throughout_of_step (fun s e he t hs ht => step_keeps (hes e he) hs ht) (start_keeps hb)
  exact hall.mono fun s hs => hs.2.2

end Boot

omit [Paging] [Devices] in
/-- Init forks a process that exits, and waits for it. -/
theorem kernelStack_follows_wait :
    let _ := yalnixPaging
    let _ := yalnixDevices
    let es : List (Event ℕ ℕ) := [.call (.proc (.fork 2 2 2)), .clock, .call (.proc (.exit 7)),
      .call (.proc (.wait 0))]
    ∃ s s' : Switching ℕ ℕ, start (smallBoot 140) = some s ∧ Run.exec step s es = some s' ∧
      Run.Throughout step (fun s => s.Matches ∧ s.Accounted) s es := by
  let _ := yalnixPaging
  let _ := yalnixDevices
  intro _ _ es
  obtain ⟨s, s', hs, hrun⟩ : ∃ s s', start (smallBoot 140) = some s ∧
      Run.exec step s es = some s' := Run.exists_exec (by decide +kernel)
  exact ⟨s, s', hs, hrun, kernelStack_follows hs (by simp [es, Event.InRange])⟩

end Switching

end Yalnix
