import Yalnix.Machine.Lawful
import Yalnix.Pilocvario.Sync.Usage
/-!
# Reclaiming a lock

Over every run from `KernelStart`, whatever else the processes do, the two
counters of a lock say who uses it, so that a `Reclaim` of a lock in use is
refused.
-/

namespace Yalnix

variable {Node Addr : Type} [Paging] [Devices] [DecidableEq Node] [DecidableEq Addr]

namespace Machine

variable {m t : Machine Node Addr} {e : Event Node Addr} {es : List (Event Node Addr)}
  {b : Boot Node Addr} {id : ℤ} {lock : Lock Node}

/-! ## The counter of the condition variables, event by event -/

omit [Paging] [Devices] [DecidableEq Node] [DecidableEq Addr] in
theorem kernelReclaim_counted (hn : m.Numbered) (h : m.sync.CvarsCounted) (id : ℤ)
    (size : ℤ → ℤ) : (m.kernelReclaim id size).1.sync.CvarsCounted := by
  unfold kernelReclaim
  cases Filed.find m.io.pipe id with
  | some pipe =>
    dsimp only
    unfold destroyPipe
    split <;> exact h
  | none =>
    cases Filed.find m.sync.cvar id with
    | some cvar =>
      dsimp only
      unfold Sync.destroyCvar
      split <;> exact h
    | none =>
      cases hl : Filed.find m.sync.lock id with
      | some lock => exact h.destroyLock hn.lock_nodup hl
      | none => exact h

omit [Paging] [DecidableEq Addr] in
/-- **The counter after an event.** -/
theorem OnSync.counted (hon : m.OnSync e t) (hl : m.Lawful) (h : m.sync.CvarsCounted) :
    t.sync.CvarsCounted := by
  cases hon with
  | kept _ _ hout he hsync => exact hsync ▸ h
  | made s _ hout he hmade =>
    rcases hmade.filed with ⟨-, hsync, -⟩ | ⟨-, ⟨hsync, -⟩ | ⟨-, hsync | ⟨second, hsync⟩⟩⟩
    · exact hsync ▸ h
    · exact hsync ▸ h
    · exact hsync ▸ h.newLock m.count
    · exact hsync ▸ h
  | called c call hc hwaits hout => exact h.call hout call
  | back c f r hc hwaits hframe hr => exact h.resume hframe hr
  | reclaimed id size hout => exact kernelReclaim_counted hl.numbered h id size

/-- **The counters are right throughout** every run. -/
theorem throughout_counted (hb : start b = some m) (hes : ∀ e ∈ es, e.InRange) :
    Run.Throughout step (fun m => m.Lawful ∧ m.sync.CvarsCounted) m es := by
  refine Run.throughout_of_step (fun _ e he t hs ht => ?_) ⟨start_lawful hb, ?_⟩
  · exact ⟨step_lawful hs.1 (hes e he) ht, (onSync hs.1 (hes e he) ht).counted hs.1 hs.2⟩
  · obtain ⟨k, hk, rfl⟩ := Option.map_eq_some_iff.mp hb
    exact Sync.cvarsCounted_init

/-! ## What a reclaim of a lock does -/

omit [Paging] [Devices] [DecidableEq Node] [DecidableEq Addr] in
/-- A lock is no pipe and no condition variable. -/
theorem Numbered.kernelReclaim_lock (h : m.Numbered) (hfind : Filed.find m.sync.lock id = some lock)
    (size : ℤ → ℤ) : m.kernelReclaim id size =
      ({ m with sync := (m.sync.destroyLock id lock).1 }, (m.sync.destroyLock id lock).2) := by
  have hcode : ∀ {α : Type} {l : List (Filed α)} {x : α}, Filed.find l id = some x →
      id ∈ l.map Filed.code :=
    fun hx => List.mem_map_of_mem (f := Filed.code) (Filed.mem_of_find hx)
  have hnd := List.nodup_append.mp h.nodup
  have hpipe : Filed.find m.io.pipe id = none := by
    cases hp : Filed.find m.io.pipe id with
    | none => rfl
    | some pipe =>
      exact absurd rfl ((List.nodup_append.mp hnd.1).2.2 id (hcode hp) id (hcode hfind))
  have hcvar : Filed.find m.sync.cvar id = none := by
    cases hc : Filed.find m.sync.cvar id with
    | none => rfl
    | some cvar =>
      have hin := List.mem_append_right (m.io.pipe.map Filed.code) (hcode hfind)
      exact absurd rfl (hnd.2.2 id hin id (hcode hc))
  unfold kernelReclaim
  rw [hpipe, hcvar, hfind]

/-- **Locks in use are not freed.** Each lock's counters are the processes
they are to count; where `destroy_lock` or a `Reclaim` of the lock succeeds,
nobody uses it. -/
structure LocksSafe (m : Machine Node Addr) : Prop where
  counted : ∀ id lock, Filed.find m.sync.lock id = some lock → LockUse m.sync.frame id lock
  destroyed : ∀ id lock, Filed.find m.sync.lock id = some lock →
    (m.sync.destroyLock id lock).2 = 0 → LockUnused m.sync.frame id lock
  reclaimed : ∀ id lock size, Filed.find m.sync.lock id = some lock →
    (m.kernelReclaim id size).2 = 0 → LockUnused m.sync.frame id lock

omit [Paging] [DecidableEq Addr] in
theorem Lawful.locksSafe (h : m.Lawful) (hc : m.sync.CvarsCounted) : m.LocksSafe := by
  have hcounted : ∀ id lock, Filed.find m.sync.lock id = some lock →
      LockUse m.sync.frame id lock := by
    intro id lock hfind
    have hlaw := (h.law.lock id).counts
    have hcvar := hc id
    rw [Sync.lockAt_eq hfind] at hlaw hcvar
    exact ⟨hlaw, hcvar⟩
  have hdestroyed : ∀ id lock, Filed.find m.sync.lock id = some lock →
      (m.sync.destroyLock id lock).2 = 0 → LockUnused m.sync.frame id lock := by
    intro id lock hfind hzero
    unfold Sync.destroyLock at hzero
    split at hzero
    · exact absurd hzero errorCode_ne_zero
    · rename_i hguard
      push Not at hguard
      obtain ⟨howner, hblocked, hunfulfilled, hcvar⟩ := hguard
      exact (hcounted id lock hfind).unused (by simpa using howner) hblocked hunfulfilled hcvar
  refine ⟨hcounted, hdestroyed, fun id lock size hfind hzero => hdestroyed id lock hfind ?_⟩
  rwa [h.numbered.kernelReclaim_lock hfind] at hzero

/-- **Reclaim never frees a lock in use**, in any run. -/
theorem locks_safe (hb : start b = some m) (hes : ∀ e ∈ es, e.InRange) :
    Run.Throughout step LocksSafe m es :=
  (throughout_counted hb hes).mono fun _ hs => hs.1.locksSafe hs.2

omit [Paging] [Devices] in
/-- Init's child sleeps in `CvarWait` while init reclaims the lock, before and
after its signal; then the child comes back, releases it and reclaims it. -/
theorem locks_safe_waited :
    let _ := yalnixPaging
    let _ := yalnixDevices
    let es : List (Event ℕ ℕ) := [.call (.cvarInit 0x1ff000 0), .call (.lockInit 0x1ff000),
      .call (.proc (.fork 2 2 2)), .clock, .call (.sync (.acquire 1)),
      .call (.sync (.cvarWait 0 1)), .call (.reclaim 1 fun _ => 7), .call (.sync (.acquire 1)),
      .call (.sync (.cvarSignal 0)), .call (.sync (.release 1)), .call (.reclaim 1 fun _ => 7),
      .clock, .resume, .call (.sync (.release 1)), .call (.reclaim 1 fun _ => 7)]
    ∃ m u : Machine ℕ ℕ, start (smallBoot 140) = some m ∧ Run.exec step m es = some u ∧
      Run.Throughout step LocksSafe m es := by
  let _ := yalnixPaging
  let _ := yalnixDevices
  intro _ _ es
  obtain ⟨m, u, hm, hrun⟩ : ∃ m u, start (smallBoot 140) = some m ∧ Run.exec step m es = some u :=
    Run.exists_exec (by decide +kernel)
  exact ⟨m, u, hm, hrun, locks_safe hm (by simp [es, Event.InRange])⟩

end Machine

end Yalnix
