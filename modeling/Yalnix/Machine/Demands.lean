import Yalnix.Machine.Cvars
import Yalnix.Machine.LockUse
/-!
# `CvarWait` and the lock

`wait_cvar` says that its caller must have the lock and that this is checked
at a higher level. `release` refuses anybody but the owner, and `wait_cvar`
does not look at its answer; `KernelCvarWait` looks for the lock and the
condition variable and at nothing else. So a caller without the lock is put
to sleep like one that has it, and counted.
-/

namespace Yalnix

variable {Node Addr : Type} [DecidableEq Node]

namespace Sync

variable {y : Sync Node} {procs : ProcTable Node} {serial : ℕ} {c id id' : ℤ}
  {lock l : Lock Node} {cvar : Cvar Node}

/-! ## The call -/

theorem kernelCvarWait_eq (hlock : Filed.find y.lock id = some lock)
    (hcvar : Filed.find y.cvar c = some cvar) :
    y.kernelCvarWait procs serial c id = ((waitCvar procs cvar lock).1,
      ⟨Filed.store y.lock id (waitCvar procs cvar lock).2.2,
        Filed.store y.cvar c (waitCvar procs cvar lock).2.1,
        Function.update y.frame procs.running (some (.waiting c id y.log.length)),
        y.log ++ [.waits (procs.running, serial) c id]⟩) := by
  unfold kernelCvarWait
  rw [hlock, hcvar]

/-- A call that names no lock or no condition variable is refused. -/
theorem kernelCvarWait_none
    (hnone : Filed.find y.lock id = none ∨ Filed.find y.cvar c = none) :
    y.kernelCvarWait procs serial c id =
      (procs, y.note (.returns (procs.running, serial) (.cvarWait c id) errorCode)) := by
  unfold kernelCvarWait
  rcases hnone with hlock | hcvar
  · rw [hlock]
  · rw [hcvar]
    cases Filed.find y.lock id <;> rfl

/-- **`acquire` counts nobody in.** -/
theorem cvar_runAcquire_le (hfind : Filed.find y.lock id = some lock) (hl : l.cvar = lock.cvar)
    (waited : Option ℤ) (id' : ℤ) :
    ((y.runAcquire procs serial id l waited).2.lockAt id').cvar ≤ (y.lockAt id').cvar := by
  have hacq := acquire_cvar procs l
  rcases eq_or_ne id' id with rfl | hne
  · rw [lockAt_eq hfind, ← hl, ← hacq]
    unfold runAcquire
    split
    · rename_i procs' l' heq
      rw [lockAt_store_self hfind, heq]
    · rename_i procs' l' r heq
      rw [lockAt_store_self hfind, heq]
      split
      · exact Int.sub_le_self _ (by decide)
      · exact le_rfl
  · unfold runAcquire
    split <;> rw [lockAt_store_of_ne hne]

/-- **Only `CvarWait` counts anybody in**, and its lock and condition
variable are there. -/
theorem cvar_call {call : SyncCall}
    (hlt : (y.lockAt id).cvar < ((y.call procs serial call).2.lockAt id).cvar) :
    ∃ c, call = .cvarWait c id ∧ Filed.find y.lock id ≠ none ∧ Filed.find y.cvar c ≠ none := by
  have hcall := y.called procs serial call
  generalize y.call procs serial call = r at hcall hlt
  cases hcall with
  | refused => exact absurd hlt (lt_irrefl _)
  | acquire id' lock hfind =>
    exact absurd hlt (not_lt.mpr (cvar_runAcquire_le hfind rfl none id))
  | release id' lock hfind =>
    rcases eq_or_ne id id' with rfl | hne
    · rw [lockAt_store_self hfind, lockAt_eq hfind, release_cvar] at hlt
      exact absurd hlt (lt_irrefl _)
    · rw [lockAt_store_of_ne hne] at hlt
      exact absurd hlt (lt_irrefl _)
  | cvarWait c id' lock cvar hlock hcvar =>
    rcases eq_or_ne id id' with rfl | hne
    · exact ⟨c, rfl, by simp [hlock], by simp [hcvar]⟩
    · rw [lockAt_store_of_ne hne] at hlt
      exact absurd hlt (lt_irrefl _)
  | cvarSignal => exact absurd hlt (lt_irrefl _)
  | cvarBroadcast => exact absurd hlt (lt_irrefl _)

end Sync

namespace Machine

variable {m t : Machine Node Addr} {e : Event Node Addr} {es : List (Event Node Addr)}
  {b : Boot Node Addr} {c id : ℤ} {p : Node}

/-! ## One event -/

omit [DecidableEq Node] in
/-- **The lock was demanded** in this event: a `CvarWait` by anybody but the
owner returns `ERROR` and changes nothing else, and who comes to be on the
queue of a condition variable, or to be counted in a lock, called as the
owner. -/
structure Demanded (m : Machine Node Addr) (e : Event Node Addr) (t : Machine Node Addr) :
    Prop where
  refused : ∀ c id, e = .call (.sync (.cvarWait c id)) →
    (m.sync.lockAt id).owner ≠ some m.kernel.procs.running →
    ∃ p, m.kernel.curr = some p ∧ t = { m with
      sync := m.sync.note
        (.returns (m.kernel.procs.running, p.serial) (.cvarWait c id) errorCode) }
  queued : ∀ c, ∀ p ∈ t.sync.waiters c, p ∉ m.sync.waiters c →
    ∃ id, Waits c id p m e ∧ (m.sync.lockAt id).owner = some p
  counted : ∀ id, (m.sync.lockAt id).cvar < (t.sync.lockAt id).cvar →
    ∃ c p, Waits c id p m e ∧ (m.sync.lockAt id).owner = some p

omit [DecidableEq Node] in
/-- **A `CvarWait` is by the owner** of its lock, or names a lock or a
condition variable that is not there. -/
def WaitsOwning (m : Machine Node Addr) (e : Event Node Addr) : Prop :=
  ∀ c id, e = .call (.sync (.cvarWait c id)) →
    (m.sync.lockAt id).owner = some m.kernel.procs.running ∨
    Filed.find m.sync.lock id = none ∨ Filed.find m.sync.cvar c = none

/-- Whether it is can be looked up. -/
instance decidableWaitsOwning (m : Machine Node Addr) :
    ∀ e, Decidable (m.WaitsOwning e)
  | .call (.sync (.cvarWait c id)) =>
    decidable_of_iff ((m.sync.lockAt id).owner = some m.kernel.procs.running ∨
      (Filed.find m.sync.lock id).isNone ∨ (Filed.find m.sync.cvar c).isNone) (by
        simp [WaitsOwning])
  | .call (.sync (.acquire _)) | .call (.sync (.release _)) | .call (.sync (.cvarSignal _))
  | .call (.sync (.cvarBroadcast _)) | .call (.proc _) | .call (.delay _)
  | .call (.ttyRead _ _ _) | .call (.ttyWrite _ _ _) | .call (.pipeInit _)
  | .call (.pipeRead _ _ _) | .call (.pipeWrite _ _ _ _) | .call (.lockInit _)
  | .call (.cvarInit _ _) | .call (.reclaim _ _) | .resume | .clock | .ttyReceive _ _ _
  | .ttyTransmit _ => isTrue (by simp [WaitsOwning])

variable [Paging] [Devices] [DecidableEq Addr]

/-- The lock was demanded in whatever the event leads to. -/
def DemandsLock (m : Machine Node Addr) (e : Event Node Addr) : Prop :=
  ∀ t, m.step e = some t → Demanded m e t

theorem step_cvarWait (hstep : m.step (.call (.sync (.cvarWait c id))) = some t) :
    ∃ p, m.kernel.curr = some p ∧
      t = m.setSync (m.sync.kernelCvarWait m.kernel.procs p.serial c id) := by
  obtain ⟨p, hp, -, -, hcall⟩ := step_call hstep
  exact ⟨p, hp, (Option.some.inj hcall).symm⟩

/-- **A caller whose lock and condition variable are there is put to sleep**,
whoever owns the lock. -/
theorem cvarWait_sleeps (hlock : Filed.find m.sync.lock id ≠ none)
    (hcvar : Filed.find m.sync.cvar c ≠ none)
    (hstep : m.step (.call (.sync (.cvarWait c id))) = some t) :
    t.sync.waiters c = m.sync.waiters c ++ [m.kernel.procs.running] := by
  obtain ⟨lock, hlock⟩ := Option.ne_none_iff_exists'.mp hlock
  obtain ⟨cvar, hcvar⟩ := Option.ne_none_iff_exists'.mp hcvar
  obtain ⟨p, -, rfl⟩ := step_cvarWait hstep
  show (m.sync.kernelCvarWait m.kernel.procs p.serial c id).2.waiters c = _
  rw [Sync.kernelCvarWait_eq hlock hcvar, Sync.waiters_store_self hcvar, Sync.waitCvar_cvar,
    Sync.waiters_eq hcvar]

omit [DecidableEq Node] [Paging] [Devices] [DecidableEq Addr] in
/-- **The queue after a reclaim** has nobody new. -/
theorem waiters_kernelReclaim (h : m.Numbered) (size : ℤ → ℤ)
    (hp : p ∈ (m.kernelReclaim id size).1.sync.waiters c) : p ∈ m.sync.waiters c := by
  unfold kernelReclaim at hp
  cases hpipe : Filed.find m.io.pipe id with
  | some pipe =>
    rw [hpipe] at hp
    dsimp only at hp
    unfold destroyPipe at hp
    split at hp <;> exact hp
  | none =>
    cases hcvar : Filed.find m.sync.cvar id with
    | some cvar =>
      rw [hpipe, hcvar] at hp
      dsimp only at hp
      unfold Sync.destroyCvar at hp
      split at hp
      · exact hp
      · rcases eq_or_ne c id with rfl | hne
        · unfold Sync.waiters at hp
          dsimp only at hp
          rw [Filed.find_remove_self h.cvar_nodup] at hp
          exact absurd hp List.not_mem_nil
        · exact Sync.waiters_remove_of_ne hne ▸ hp
    | none =>
      cases hlock : Filed.find m.sync.lock id with
      | some lock =>
        rw [hpipe, hcvar, hlock] at hp
        dsimp only at hp
        unfold Sync.destroyLock at hp
        split at hp <;> exact hp
      | none =>
        rw [hpipe, hcvar, hlock] at hp
        exact hp

/-- **Who is new on a queue** has called `CvarWait`. -/
theorem step_queues (h : m.Lawful) (he : e.InRange) (hstep : m.step e = some t)
    (hp : p ∈ t.sync.waiters c) (hnew : p ∉ m.sync.waiters c) : ∃ id, Waits c id p m e := by
  by_cases hkeep : e.ReclaimsId c
  · unfold Event.ReclaimsId at hkeep
    split at hkeep
    · obtain ⟨_, -, -, -, hcall⟩ := step_call hstep
      obtain rfl := Option.some.inj hcall
      exact absurd (waiters_kernelReclaim h.numbered _ hp) hnew
    · exact hkeep.elim
  · obtain ⟨id, hwaits, -⟩ := (step_enters h he hkeep hstep hp).resolve_left hnew
    exact ⟨id, hwaits⟩

/-- **Whoever is counted in** has called `CvarWait`. -/
theorem step_counts (h : m.Lawful) (hc : m.sync.CvarsCounted) (he : e.InRange)
    (hstep : m.step e = some t) (hlt : (m.sync.lockAt id).cvar < (t.sync.lockAt id).cvar) :
    ∃ c, Waits c id m.kernel.procs.running m e ∧
      Filed.find m.sync.lock id ≠ none ∧ Filed.find m.sync.cvar c ≠ none := by
  cases onSync h he hstep with
  | kept _ _ hout hev hsync =>
    rw [hsync] at hlt
    exact absurd hlt (lt_irrefl _)
  | made s _ hout hev hmade =>
    rcases hmade.filed with ⟨-, hsync, -⟩ | ⟨-, ⟨hsync, -⟩ | ⟨-, hsync | ⟨second, hsync⟩⟩⟩
    · rw [hsync] at hlt
      exact absurd hlt (lt_irrefl _)
    · rw [hsync] at hlt
      exact absurd hlt (lt_irrefl _)
    · rw [hsync, Sync.lockAt_newLock] at hlt
      exact absurd hlt (lt_irrefl _)
    · rw [hsync] at hlt
      exact absurd hlt (lt_irrefl _)
  | called cc call hcurr hwaits hout =>
    obtain ⟨c, rfl, hlock, hcvar⟩ := Sync.cvar_call hlt
    exact ⟨c, ⟨rfl, rfl⟩, hlock, hcvar⟩
  | back cc f r hcurr hwaits hframe hr =>
    refine absurd hlt (not_lt.mpr ?_)
    show (r.2.lockAt id).cvar ≤ _
    cases Sync.cameBack hr with
    | waiting c id' since lock hfind =>
      exact Sync.cvar_runAcquire_le (l := lock) hfind rfl (some c) id
    | acquiring id' waited lock hfind =>
      exact Sync.cvar_runAcquire_le (l := fulfil m.kernel.procs lock) hfind rfl waited id
  | reclaimed id' size hout =>
    rcases (kernelReclaim_sync h.numbered id' size).2.2 id with hsame | hnew
    · rw [hsame] at hlt
      exact absurd hlt (lt_irrefl _)
    · -- a new lock counts nobody, and no lock counts fewer
      rw [hnew] at hlt
      have hcard := (hc id).card
      have hzero : (newLock : Lock Node).cvar = 0 := rfl
      omega

/-- **The lock is demanded exactly where nobody without it waits.** -/
theorem demanded_iff (h : m.Lawful) (hc : m.sync.CvarsCounted) (he : e.InRange)
    (hstep : m.step e = some t) : DemandsLock m e ↔ WaitsOwning m e := by
  constructor
  · intro hdem c id heq
    by_contra hbad
    push Not at hbad
    obtain ⟨hown, hlock, hcvar⟩ := hbad
    obtain ⟨p, -, ht⟩ := (hdem t hstep).refused c id heq hown
    subst heq
    have hsleeps := cvarWait_sleeps hlock hcvar hstep
    have hsame : t.sync.waiters c = m.sync.waiters c := by
      rw [ht]
      rfl
    rw [hsame] at hsleeps
    simp at hsleeps
  · intro hok t' ht'
    obtain rfl := Option.some.inj (hstep.symm.trans ht')
    -- a refused call leaves the state but for the note of it
    have hrefused : ∀ c id, e = .call (.sync (.cvarWait c id)) →
        Filed.find m.sync.lock id = none ∨ Filed.find m.sync.cvar c = none →
        ∃ p, m.kernel.curr = some p ∧ t = { m with
          sync := m.sync.note
            (.returns (m.kernel.procs.running, p.serial) (.cvarWait c id) errorCode) } := by
      intro c id heq hnone
      subst heq
      obtain ⟨p, hp, ht⟩ := step_cvarWait hstep
      rw [Sync.kernelCvarWait_none hnone] at ht
      exact ⟨p, hp, ht⟩
    constructor
    case refused =>
      intro c id heq hown
      exact hrefused c id heq ((hok c id heq).resolve_left hown)
    case queued =>
      intro c p hp hnew
      obtain ⟨id, hwaits⟩ := step_queues h he hstep hp hnew
      refine ⟨id, hwaits, ?_⟩
      rcases hok c id hwaits.1 with hown | hnone
      · rw [hown, hwaits.2]
      · obtain ⟨q, -, rfl⟩ := hrefused c id hwaits.1 hnone
        exact absurd hp hnew
    case counted =>
      intro id hlt
      obtain ⟨c, hwaits, hlock, hcvar⟩ := step_counts h hc he hstep hlt
      refine ⟨c, _, hwaits, (hok c id hwaits.1).resolve_right ?_⟩
      rintro (hnone | hnone)
      · exact hlock hnone
      · exact hcvar hnone

/-! ## The whole run -/

/-- **`CvarWait` demands the lock**, in every event of a run, exactly where
every `CvarWait` is by the owner of its lock or names one that is not
there. -/
theorem demands_lock_iff (hb : start b = some m) (hes : ∀ e ∈ es, e.InRange) :
    Run.Along step DemandsLock m es ↔ Run.Along step WaitsOwning m es :=
  Run.along_congr_of_keep (I := fun s => s.Lawful ∧ s.sync.CvarsCounted) (D := Event.InRange)
    (fun _ _ _ hs he _ ht => ⟨step_lawful hs.1 he ht, (onSync hs.1 he ht).counted hs.1 hs.2⟩)
    (fun _ _ _ hs he ht => demanded_iff hs.1 hs.2 he ht) hes (throughout_counted hb hes).start

omit [DecidableEq Node] [Paging] [Devices] [DecidableEq Addr] in
/-- Init takes a lock and waits with it, and so does its child, which then
names a lock that is not there. -/
theorem demands_lock_iff_owner :
    let _ := yalnixPaging
    let _ := yalnixDevices
    let es : List (Event ℕ ℕ) := [.call (.lockInit 0x1ff000), .call (.cvarInit 0x1ff000 0),
      .call (.proc (.fork 2 2 2)), .call (.sync (.acquire 0)), .call (.sync (.cvarWait 1 0)),
      .call (.sync (.cvarWait 1 5)), .call (.sync (.acquire 0)), .call (.sync (.cvarWait 1 0))]
    ∃ m u : Machine ℕ ℕ, start (smallBoot 140) = some m ∧ Run.exec step m es = some u ∧
      u.sync.waiters 1 = [0, 2] ∧ Run.Along step WaitsOwning m es ∧
      Run.Along step DemandsLock m es := by
  let _ := yalnixPaging
  let _ := yalnixDevices
  intro _ _ es
  have hruns : ((start (smallBoot 140)).bind fun m => (Run.exec step m es).map fun u =>
      (u.sync.waiters 1, decide (Run.Along step WaitsOwning m es))) = some ([0, 2], true) := by
    decide +kernel
  obtain ⟨m, hm, hruns⟩ := Option.bind_eq_some_iff.mp hruns
  obtain ⟨u, hu, heq⟩ := Option.map_eq_some_iff.mp hruns
  obtain ⟨hwaiters, hdec⟩ := Prod.mk.inj heq
  have howning : Run.Along step WaitsOwning m es := of_decide_eq_true hdec
  exact ⟨m, u, hm, hu, hwaiters, howning,
    (demands_lock_iff hm (by simp [es, Event.InRange])).mpr howning⟩

omit [DecidableEq Node] [Paging] [Devices] [DecidableEq Addr] in
/-- **Init waits with a lock it has not taken**, and is put to sleep on the
queue and counted. -/
theorem not_demands_lock :
    let _ := yalnixPaging
    let _ := yalnixDevices
    ∃ m₀ : Machine ℕ ℕ, start (smallBoot 140) = some m₀ ∧
      ¬ Run.Along step DemandsLock m₀ [.call (.lockInit 0x1ff000),
        .call (.cvarInit 0x1ff000 0), .call (.sync (.cvarWait 1 0))] := by
  let _ := yalnixPaging
  let _ := yalnixDevices
  let es : List (Event ℕ ℕ) := [.call (.lockInit 0x1ff000), .call (.cvarInit 0x1ff000 0)]
  have hruns : ((start (smallBoot 140)).bind fun m => (Run.exec step m es).bind fun m =>
      (m.step (.call (.sync (.cvarWait 1 0)))).map fun t =>
        ((m.sync.lockAt 0).owner, m.sync.waiters 1, t.sync.waiters 1)) =
      some (none, [], [0]) := by
    decide +kernel
  obtain ⟨m₀, hm₀, hruns⟩ := Option.bind_eq_some_iff.mp hruns
  obtain ⟨m, hrun, hruns⟩ := Option.bind_eq_some_iff.mp hruns
  obtain ⟨t, ht, heq⟩ := Option.map_eq_some_iff.mp hruns
  simp only [Prod.mk.injEq] at heq
  obtain ⟨hown, hbefore, hafter⟩ := heq
  refine ⟨m₀, hm₀, fun h => ?_⟩
  have hlast := ((Run.along_append hrun).mp h).2
  obtain ⟨p, -, hsame⟩ := (((Run.along_cons ht).mp hlast).1 t ht).refused 1 0 rfl (by simp [hown])
  rw [hsame] at hafter
  exact absurd (hbefore.symm.trans hafter) (by decide)

end Machine

end Yalnix
