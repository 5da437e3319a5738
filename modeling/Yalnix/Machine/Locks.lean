import Yalnix.Machine.Lawful
/-!
# Locks: mutual exclusion, and no wakeup is lost

Over every run from `KernelStart`, whatever else the processes do. The
processes that have a lock, going by what their calls returned, are its
owner; and a free lock that some process sleeps on has another one on its
way back to it.
-/

namespace Yalnix

variable {Node Addr : Type} [Paging] [Devices] [DecidableEq Node] [DecidableEq Addr]

namespace Machine

variable {m t : Machine Node Addr} {es : List (Event Node Addr)} {b : Boot Node Addr}

/-! ## Mutual exclusion -/

/-- **Mutual exclusion**: who has returned from `Acquire` or `CvarWait` on a
lock and has not given it up since is the owner, and nobody else may release
it. -/
structure Exclusive (m : Machine Node Addr) : Prop where
  holders : ∀ id, holderNodes id m.sync.log = {p | (m.sync.lockAt id).owner = some p}
  single : ∀ id, (holderNodes id m.sync.log).Subsingleton
  refused : ∀ id t, (m.sync.lockAt id).owner ≠ some m.kernel.procs.running →
    m.step (.call (.sync (.release id))) = some t →
    ∃ c, m.kernel.curr = some c ∧ t = { m with
      sync := m.sync.note
        (.returns (m.kernel.procs.running, c.serial) (.release id) errorCode) }

/-- A `Release` of what is not one's own changes nothing. -/
theorem release_by_other {id : ℤ} (hown : (m.sync.lockAt id).owner ≠ some m.kernel.procs.running)
    (hstep : m.step (.call (.sync (.release id))) = some t) :
    ∃ c, m.kernel.curr = some c ∧ t = { m with
      sync := m.sync.note
        (.returns (m.kernel.procs.running, c.serial) (.release id) errorCode) } := by
  have hnote : ∀ serial, m.sync.kernelRelease m.kernel.procs serial id = (m.kernel.procs,
      m.sync.note (.returns (m.kernel.procs.running, serial) (.release id) errorCode)) := by
    intro serial
    unfold Sync.kernelRelease
    cases hfind : Filed.find m.sync.lock id with
    | none => rfl
    | some lock =>
      rw [Sync.lockAt_eq hfind] at hown
      dsimp only
      rw [Sync.release_refused hown]
      dsimp only
      rw [Filed.store_find hfind]
  obtain ⟨c, hc, -, -, hcall⟩ := step_call hstep
  refine ⟨c, hc, ?_⟩
  rw [← Option.some.inj hcall]
  show m.setSync (m.sync.kernelRelease m.kernel.procs c.serial id) = _
  rw [hnote]
  rfl

theorem Lawful.exclusive (h : m.Lawful) : m.Exclusive := by
  have hholders : ∀ id, holderNodes id m.sync.log = {p | (m.sync.lockAt id).owner = some p} :=
    fun id => Set.ext (h.law.lock id).holders
  refine ⟨hholders, fun id p hp q hq => ?_, fun id t hown hstep => release_by_other hown hstep⟩
  rw [hholders id] at hp hq
  exact Option.some.inj (hp.symm.trans hq)

/-- **Mutual exclusion in every run.** -/
theorem mutual_exclusion (hb : start b = some m) (hes : ∀ e ∈ es, e.InRange) :
    Run.Throughout step Exclusive m es :=
  (throughout_lawful hb hes).mono fun _ hs => hs.exclusive

omit [Paging] [Devices] in
/-- Init takes a lock, its child wants it, and init releases it. -/
theorem mutual_exclusion_contended :
    let _ := yalnixPaging
    let _ := yalnixDevices
    let es : List (Event ℕ ℕ) := [.call (.lockInit 0x1ff000), .call (.sync (.acquire 0)),
      .call (.proc (.fork 2 2 2)), .clock, .call (.sync (.release 0)), .call (.sync (.acquire 0)),
      .call (.sync (.release 0)), .clock, .resume]
    ∃ m u : Machine ℕ ℕ, start (smallBoot 140) = some m ∧ Run.exec step m es = some u ∧
      Run.Throughout step Exclusive m es := by
  let _ := yalnixPaging
  let _ := yalnixDevices
  intro _ _ es
  obtain ⟨m, u, hm, hrun⟩ : ∃ m u, start (smallBoot 140) = some m ∧ Run.exec step m es = some u :=
    Run.exists_exec (by decide +kernel)
  exact ⟨m, u, hm, hrun, mutual_exclusion hm (by simp [es, Event.InRange])⟩

/-! ## No wakeup is lost -/

/-- **A free lock somebody sleeps on** has a process on its way back: one
that a release took off the queue and that is ready or running, inside
`acquire`. -/
def Wakeful (m : Machine Node Addr) : Prop :=
  ∀ id, (m.sync.lockAt id).owner = none → (m.sync.lockAt id).blocked ≠ [] →
    0 < (m.sync.lockAt id).unfulfilled ∧
    ∃ p ∈ (m.sync.lockAt id).woken, Contends m.sync.frame id p ∧
      p ∉ (m.sync.lockAt id).blocked ∧ m.kernel.procs.Awake p

omit [Paging] [DecidableEq Addr] in
theorem Lawful.wakeful (h : m.Lawful) : m.Wakeful := by
  intro id hfree hne
  have hlaw := h.law.lock id
  have hwoken := h.law.served id hfree hne
  obtain ⟨p, hp⟩ := List.exists_mem_of_ne_nil _ hwoken
  have hpos := List.length_pos_of_mem hp
  have hcount := hlaw.unfulfilled
  obtain ⟨hinside, hnot⟩ := (hlaw.woken p).mp hp
  exact ⟨by omega, p, hp, hinside, hnot, h.awake id p hp⟩

/-- **No wakeup on a lock is lost**, in any run. -/
theorem no_lost_wakeup (hb : start b = some m) (hes : ∀ e ∈ es, e.InRange) :
    Run.Throughout step Wakeful m es :=
  (throughout_lawful hb hes).mono fun _ hs => hs.wakeful

omit [Paging] [Devices] in
/-- Two children sleep on init's lock, which init releases. -/
theorem no_lost_wakeup_two_sleepers :
    let _ := yalnixPaging
    let _ := yalnixDevices
    let es : List (Event ℕ ℕ) := [.call (.lockInit 0x1ff000), .call (.sync (.acquire 0)),
      .call (.proc (.fork 2 2 2)), .call (.proc (.fork 3 3 3)), .clock, .call (.sync (.acquire 0)),
      .call (.sync (.acquire 0)), .call (.sync (.release 0)), .clock, .resume]
    ∃ m u : Machine ℕ ℕ, start (smallBoot 140) = some m ∧ Run.exec step m es = some u ∧
      Run.Throughout step Wakeful m es := by
  let _ := yalnixPaging
  let _ := yalnixDevices
  intro _ _ es
  obtain ⟨m, u, hm, hrun⟩ : ∃ m u, start (smallBoot 140) = some m ∧ Run.exec step m es = some u :=
    Run.exists_exec (by decide +kernel)
  exact ⟨m, u, hm, hrun, no_lost_wakeup hm (by simp [es, Event.InRange])⟩

end Machine

end Yalnix
