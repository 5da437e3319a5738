import Yalnix.Common.Counts
import Yalnix.Pilocvario.Sync.Steps
/-!
# Who uses a lock

A lock counts who was woken from it and has not come back (`unfulfilled`)
and who is inside `wait_cvar` with it (`cvar`), and `destroy_lock` goes by
the two counters and the queue. The first is counted by `LockLaw`. Of the
second each function owes its own share: `wait_cvar` counts its caller when
it goes to sleep and counts it off when it returns, however often `acquire`
blocks in between.
-/

namespace Yalnix

variable {Node : Type}

/-- The call is `wait_cvar` with the lock, asleep on the condition variable
or in the `acquire` after it. -/
def SyncFrame.WaitsWith (id : ℤ) : SyncFrame → Prop
  | .waiting _ lock _ => lock = id
  | .acquiring lock waited => lock = id ∧ waited.isSome

/-- **The counters of a lock say who uses it.** -/
structure LockUse (frame : Node → Option SyncFrame) (id : ℤ) (lock : Lock Node) : Prop where
  unfulfilled : Counts lock.unfulfilled {p | Contends frame id p ∧ p ∉ lock.blocked}
  cvar : Counts lock.cvar (Calling (SyncFrame.WaitsWith id) frame)

/-- **Nobody uses the lock**: it is free, and no process is inside `acquire`
or `wait_cvar` on it. -/
structure LockUnused (frame : Node → Option SyncFrame) (id : ℤ) (lock : Lock Node) : Prop where
  free : lock.owner = none
  acquire : ∀ p, ¬ Contends frame id p
  wait : ∀ p, p ∉ Calling (SyncFrame.WaitsWith id) frame

section One

variable {frame : Node → Option SyncFrame} {log : List (Note (Node × ℕ))} {id : ℤ}
  {lock : Lock Node}

/-- The processes woken from a lock are counted by its law. -/
theorem LockLaw.counts (h : LockLaw frame log id lock) :
    Counts lock.unfulfilled {p | Contends frame id p ∧ p ∉ lock.blocked} := by
  have hset : {p | Contends frame id p ∧ p ∉ lock.blocked} = {p | p ∈ lock.woken} :=
    Set.ext fun p => (h.woken p).symm
  rw [hset, h.unfulfilled]
  exact Counts.of_list h.woken_nodup

/-- **Zeros all through** are a lock nobody uses. -/
theorem LockUse.unused (h : LockUse frame id lock) (howner : lock.owner = none)
    (hblocked : lock.blocked = []) (hunfulfilled : lock.unfulfilled ≤ 0) (hcvar : lock.cvar ≤ 0) :
    LockUnused frame id lock := by
  refine ⟨howner, fun p hp => ?_, fun p hp => ?_⟩
  · have hin : p ∈ {p | Contends frame id p ∧ p ∉ lock.blocked} := by
      refine ⟨hp, ?_⟩
      rw [hblocked]
      exact List.not_mem_nil
    rw [h.unfulfilled.eq_empty hunfulfilled] at hin
    exact hin
  · rw [h.cvar.eq_empty hcvar] at hp
    exact hp

end One

section Functions

variable [DecidableEq Node] {procs : ProcTable Node} {lock : Lock Node}

theorem acquire_cvar (procs : ProcTable Node) (lock : Lock Node) :
    (acquire procs lock).2.1.cvar = lock.cvar := by
  unfold acquire
  split <;> rfl

theorem release_cvar (procs : ProcTable Node) (lock : Lock Node) :
    (release procs lock).2.1.cvar = lock.cvar := by
  unfold release
  split
  · rfl
  · split <;> rfl

theorem waitCvar_counts (procs : ProcTable Node) (cvar : Cvar Node) (lock : Lock Node) :
    (waitCvar procs cvar lock).2.2.cvar = lock.cvar + 1 := by
  show (release procs lock).2.1.cvar + 1 = _
  rw [release_cvar]

end Functions

namespace Sync

variable {y y' : Sync Node} {procs : ProcTable Node} {serial : ℕ} {id : ℤ} {lock : Lock Node}

/-- **Every lock counts who is inside `wait_cvar` with it.** -/
def CvarsCounted (y : Sync Node) : Prop :=
  ∀ id, Counts (y.lockAt id).cvar (Calling (SyncFrame.WaitsWith id) y.frame)

theorem cvarsCounted_init : (Sync.init : Sync Node).CvarsCounted := by
  intro id
  have hset : Calling (SyncFrame.WaitsWith id) (Sync.init : Sync Node).frame = ∅ := by
    ext p
    exact iff_of_false (not_calling_of_none rfl) (Set.notMem_empty p)
  rw [hset]
  exact Counts.empty

/-- What moves no frame and no counter. -/
theorem CvarsCounted.congr (h : y.CvarsCounted)
    (hcvar : ∀ id, (y'.lockAt id).cvar = (y.lockAt id).cvar) (hframe : y'.frame = y.frame) :
    y'.CvarsCounted := by
  intro id
  rw [hcvar, hframe]
  exact h id

variable [DecidableEq Node]

/-- **One lock and its caller's frame.** -/
theorem CvarsCounted.onLock (h : y.CvarsCounted) (hfind : Filed.find y.lock id = some lock)
    {l : Lock Node} {cvars : List (Filed (Cvar Node))} {p : Node} {f : Option SyncFrame}
    {log : List (Note (Node × ℕ))}
    (hself : Counts l.cvar (Calling (SyncFrame.WaitsWith id) (Function.update y.frame p f)))
    (hother : ∀ id', id' ≠ id → p ∉ Calling (SyncFrame.WaitsWith id') y.frame ∧
      ∀ g, f = some g → ¬ g.WaitsWith id') :
    CvarsCounted ⟨Filed.store y.lock id l, cvars, Function.update y.frame p f, log⟩ := by
  intro id'
  rcases eq_or_ne id' id with rfl | hne
  · rw [lockAt_store_self hfind]
    exact hself
  · obtain ⟨hout, hf⟩ := hother id' hne
    rw [lockAt_store_of_ne hne]
    dsimp only
    rw [calling_same hout hf]
    exact h id'

/-- **`acquire` runs**: if `wait_cvar` called it, the caller is counted until
it returns. -/
theorem CvarsCounted.runAcquire (h : y.CvarsCounted) (hfind : Filed.find y.lock id = some lock)
    {l : Lock Node} (hl : l.cvar = lock.cvar) {waited : Option ℤ}
    (hself : ∀ id', procs.running ∈ Calling (SyncFrame.WaitsWith id') y.frame ↔
      id = id' ∧ waited.isSome) :
    (y.runAcquire procs serial id l waited).2.CvarsCounted := by
  have hcount : Counts lock.cvar (Calling (SyncFrame.WaitsWith id) y.frame) := by
    rw [← lockAt_eq hfind]
    exact h id
  have hout : ∀ id', id' ≠ id → procs.running ∉ Calling (SyncFrame.WaitsWith id') y.frame :=
    fun id' hne hw => hne ((hself id').mp hw).1.symm
  have hcvar := acquire_cvar procs l
  unfold Sync.runAcquire
  split
  · rename_i procs' lock' heq
    rw [heq] at hcvar
    refine h.onLock hfind ?_ fun id' hne => ⟨hout id' hne, ?_⟩
    · rw [show lock'.cvar = lock.cvar from hcvar.trans hl]
      -- it is in `wait_cvar` after as before
      by_cases hw : waited.isSome = true
      · have hkind : SyncFrame.WaitsWith id (.acquiring id waited) := ⟨rfl, hw⟩
        have hin : procs.running ∈ Calling (SyncFrame.WaitsWith id) y.frame :=
          (hself id).mpr ⟨rfl, hw⟩
        rw [calling_insert hkind, Set.insert_eq_of_mem hin]
        exact hcount
      · rw [calling_same fun hin => hw ((hself id).mp hin).2]
        · exact hcount
        · rintro g hg hwait
          obtain rfl := Option.some.inj hg
          exact hw hwait.2
    · rintro g hg hwait
      obtain rfl := Option.some.inj hg
      exact hne hwait.1.symm
  · rename_i procs' lock' r heq
    rw [heq] at hcvar
    have hnone : ∀ id' g, (none : Option SyncFrame) = some g → ¬ g.WaitsWith id' :=
      fun id' g hg => by cases hg
    refine h.onLock hfind ?_ fun id' hne => ⟨hout id' hne, hnone id'⟩
    split
    · rename_i hw
      -- it counts itself off
      rw [calling_erase (hnone id)]
      show Counts (lock'.cvar - 1) _
      rw [show lock'.cvar = lock.cvar from hcvar.trans hl]
      exact hcount.erase ((hself id).mpr ⟨rfl, hw⟩)
    · rename_i hw
      rw [show lock'.cvar = lock.cvar from hcvar.trans hl,
        calling_same (fun hin => hw ((hself id).mp hin).2) (hnone id)]
      exact hcount

/-- **A call** counts right. -/
theorem CvarsCounted.call (h : y.CvarsCounted) (hframe : y.frame procs.running = none)
    (c : SyncCall) : (y.call procs serial c).2.CvarsCounted := by
  have hidle : ∀ id, procs.running ∉ Calling (SyncFrame.WaitsWith id) y.frame :=
    fun _ => not_calling_of_none hframe
  have hcall := y.called procs serial c
  generalize y.call procs serial c = r at hcall ⊢
  cases hcall with
  | refused => exact h
  | acquire id lock hfind =>
    refine h.runAcquire hfind rfl fun id' => iff_of_false (hidle id') ?_
    rintro ⟨-, hsome⟩
    cases hsome
  | release id lock hfind =>
    refine h.congr (fun id' => ?_) rfl
    rcases eq_or_ne id' id with rfl | hne
    · rw [lockAt_store_self hfind, release_cvar, lockAt_eq hfind]
    · rw [lockAt_store_of_ne hne]
  | cvarWait cvarId id lock cvar hlock hcvar =>
    refine h.onLock hlock ?_ fun id' hne => ⟨hidle id', ?_⟩
    · have hkind : SyncFrame.WaitsWith id (.waiting cvarId id y.log.length) := rfl
      rw [waitCvar_counts, calling_insert hkind, ← lockAt_eq hlock]
      exact (h id).insert (hidle id)
    · rintro g hg hwait
      obtain rfl := Option.some.inj hg
      exact hne hwait.symm
  | cvarSignal id cvar hfind => exact h
  | cvarBroadcast id cvar hfind => exact h

/-- **Coming back** counts right. -/
theorem CvarsCounted.resume (h : y.CvarsCounted) {f : SyncFrame} {r : ProcTable Node × Sync Node}
    (hframe : y.frame procs.running = some f) (hr : y.resume procs serial f = some r) :
    r.2.CvarsCounted := by
  have hself : ∀ id', procs.running ∈ Calling (SyncFrame.WaitsWith id') y.frame ↔ f.WaitsWith id' :=
    fun _ => calling_of_some hframe
  cases cameBack hr with
  | waiting cvarId id since lock hfind =>
    refine h.runAcquire hfind rfl fun id' => (hself id').trans ?_
    exact (and_iff_left rfl).symm
  | acquiring id waited lock hfind =>
    have hcvar : (fulfil procs lock).cvar = lock.cvar := rfl
    exact h.runAcquire hfind hcvar hself

omit [DecidableEq Node] in
/-- A lock is filed, with nobody inside. -/
theorem CvarsCounted.newLock (h : y.CvarsCounted) (id : ℤ) :
    CvarsCounted { y with lock := y.lock ++ [⟨id, Yalnix.newLock⟩] } :=
  h.congr (fun id' => by rw [lockAt_newLock]) rfl

omit [DecidableEq Node] in
/-- A lock is destroyed, which nobody was counted on. -/
theorem CvarsCounted.destroyLock (h : y.CvarsCounted) (hnd : (y.lock.map Filed.code).Nodup)
    (hfind : Filed.find y.lock id = some lock) : (y.destroyLock id lock).1.CvarsCounted := by
  unfold Sync.destroyLock
  split
  · exact h
  · rename_i hguard
    intro id'
    dsimp only
    rw [lockAt_remove hnd]
    split
    · rename_i heq
      subst heq
      have hcount := h id'
      rw [lockAt_eq hfind] at hcount
      have hcvar : lock.cvar ≤ 0 := not_lt.mp fun hpos => hguard (by simp [hpos])
      rw [hcount.eq_empty hcvar]
      exact Counts.empty
    · exact h id'

end Sync

end Yalnix
