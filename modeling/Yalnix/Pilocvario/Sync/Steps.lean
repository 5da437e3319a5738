import Yalnix.Pilocvario.Sync.Law
/-!
# Every call keeps the law

`Sync.Law` is the law of every lock and condition variable, a lock that is
not there counting as a new one. A call is made by a process that is inside
none, and come back to by one that is on no queue.
-/

namespace Yalnix

variable {Node : Type}

/-- Only the fields the law is about matter. -/
theorem LockLaw.of_fields {frame : Node → Option SyncFrame} {log : List (Note (Node × ℕ))}
    {id : ℤ} {lock lock' : Lock Node} (h : LockLaw frame log id lock)
    (hblocked : lock'.blocked = lock.blocked) (hwoken : lock'.woken = lock.woken)
    (hunfulfilled : lock'.unfulfilled = lock.unfulfilled) (howner : lock'.owner = lock.owner) :
    LockLaw frame log id lock' where
  blocked := hblocked ▸ h.blocked
  blocked_nodup := hblocked ▸ h.blocked_nodup
  woken := by
    rw [hblocked, hwoken]
    exact h.woken
  woken_nodup := hwoken ▸ h.woken_nodup
  unfulfilled := by
    rw [hunfulfilled, hwoken]
    exact h.unfulfilled
  holders := howner ▸ h.holders

namespace Sync

/-- The lock filed under an id, or a new one. -/
def lockAt (y : Sync Node) (id : ℤ) : Lock Node := (Filed.find y.lock id).getD newLock

/-- Who waits on the condition variable filed under an id. -/
def waiters (y : Sync Node) (id : ℤ) : List Node :=
  ((Filed.find y.cvar id).map Cvar.blocked).getD []

/-- **The law of all locks and condition variables.** -/
structure Law (y : Sync Node) : Prop where
  lock : ∀ id, LockLaw y.frame y.log id (y.lockAt id)
  served : ∀ id, (y.lockAt id).Served
  cvar : ∀ id, CvarLaw y.frame y.log id (y.waiters id)

variable {y y' : Sync Node} {procs : ProcTable Node} {serial : ℕ} {id id' : ℤ}
  {lock : Lock Node} {cvar : Cvar Node}

theorem lockAt_eq (h : Filed.find y.lock id = some lock) : y.lockAt id = lock := by
  unfold lockAt
  rw [h]
  rfl

theorem waiters_eq (h : Filed.find y.cvar id = some cvar) : y.waiters id = cvar.blocked := by
  unfold waiters
  rw [h]
  rfl

/-- **After `KernelStart`.** -/
theorem law_init : (Sync.init : Sync Node).Law where
  lock id := by
    refine ⟨fun q hq => absurd hq List.not_mem_nil, List.nodup_nil, fun q => ?_, List.nodup_nil,
      rfl, fun q => ?_⟩
    · exact ⟨fun hq => absurd hq List.not_mem_nil, fun ⟨⟨w, hw⟩, _⟩ => by cases hw⟩
    · exact ⟨fun hq => absurd hq (Set.notMem_empty q), fun hq => by cases hq⟩
  served id := fun _ hne => absurd rfl hne
  cvar id := ⟨fun q hq => absurd hq List.not_mem_nil, List.Pairwise.nil⟩

/-! ## An operation on one lock -/

/-- **An operation on one lock** owes its law; what concerns the other locks
is as it was. -/
theorem Law.onLock (h : y.Law) (id : ℤ) (hother : ∀ id', id' ≠ id → y'.lockAt id' = y.lockAt id')
    (hframe : ∀ id', id' ≠ id → ∀ q, Contends y'.frame id' q ↔ Contends y.frame id' q)
    (hlog : ∀ id', id' ≠ id → holderNodes id' y'.log = holderNodes id' y.log)
    (hlock : LockLaw y'.frame y'.log id (y'.lockAt id)) (hserved : (y'.lockAt id).Served)
    (hcvar : ∀ c, CvarLaw y'.frame y'.log c (y'.waiters c)) : y'.Law where
  lock id' := by
    rcases eq_or_ne id' id with rfl | hne
    · exact hlock
    · rw [hother id' hne]
      exact (h.lock id').congr (hframe id' hne) (hlog id' hne)
  served id' := by
    rcases eq_or_ne id' id with rfl | hne
    · exact hserved
    · rw [hother id' hne]
      exact h.served id'
  cvar := hcvar

/-- **A call is noted** that gives nobody a lock and takes none away. -/
theorem Law.note (h : y.Law) {n : Note (Node × ℕ)}
    (hn : ∀ id held, (n.map Prod.fst).after id held = held) : (y.note n).Law where
  lock id := (h.lock id).congr (fun _ => Iff.rfl) (by
    show holderNodes id (y.log ++ [n]) = _
    rw [holderNodes_append, hn])
  served := h.served
  cvar c := (h.cvar c).congr (fun _ _ => rfl) (List.prefix_append y.log [n])

/-- So is one that is refused. -/
theorem Law.refused (h : y.Law) (p : Node × ℕ) (call : SyncCall) :
    (y.note (.returns p call errorCode)).Law :=
  h.note fun id held => after_refused (by decide) held

theorem lockAt_store_self (h : Filed.find y.lock id = some lock) {l : Lock Node}
    {cvars : List (Filed (Cvar Node))} {frame : Node → Option SyncFrame}
    {log : List (Note (Node × ℕ))} :
    lockAt ⟨Filed.store y.lock id l, cvars, frame, log⟩ id = l := by
  unfold lockAt
  rw [Filed.find_store_self h]
  rfl

theorem lockAt_store_of_ne (hne : id' ≠ id) {l : Lock Node} {cvars : List (Filed (Cvar Node))}
    {frame : Node → Option SyncFrame} {log : List (Note (Node × ℕ))} :
    lockAt ⟨Filed.store y.lock id l, cvars, frame, log⟩ id' = y.lockAt id' := by
  unfold lockAt
  rw [Filed.find_store_of_ne hne]

theorem waiters_store_self (h : Filed.find y.cvar id = some cvar) {c : Cvar Node}
    {locks : List (Filed (Lock Node))} {frame : Node → Option SyncFrame}
    {log : List (Note (Node × ℕ))} :
    waiters ⟨locks, Filed.store y.cvar id c, frame, log⟩ id = c.blocked := by
  unfold waiters
  rw [Filed.find_store_self h]
  rfl

theorem waiters_store_of_ne (hne : id' ≠ id) {c : Cvar Node} {locks : List (Filed (Lock Node))}
    {frame : Node → Option SyncFrame} {log : List (Note (Node × ℕ))} :
    waiters ⟨locks, Filed.store y.cvar id c, frame, log⟩ id' = y.waiters id' := by
  unfold waiters
  rw [Filed.find_store_of_ne hne]

section Calls

variable [DecidableEq Node]

/-- **`acquire`**, run by a process that counts as inside no call: it has
just made one, or was woken and has counted itself. -/
theorem Law.runAcquire (h : y.Law) (hfind : Filed.find y.lock id = some lock) {l : Lock Node}
    (hl : LockLaw (Function.update y.frame procs.running none) y.log id l)
    (hother : ∀ id', id' ≠ id → ¬ Contends y.frame id' procs.running)
    (hout : ∀ c, procs.running ∉ y.waiters c) (waited : Option ℤ) :
    (y.runAcquire procs serial id l waited).2.Law := by
  have hself : ¬ Contends (Function.update y.frame procs.running none) id procs.running := by
    rw [contends_update, if_pos rfl]
    rintro ⟨w, hw⟩
    cases hw
  -- the waiters keep their frames
  have hcvar : ∀ (f : Option SyncFrame) (log : List (Note (Node × ℕ))), y.log <+: log → ∀ c,
      CvarLaw (Function.update y.frame procs.running f) log c (y.waiters c) := by
    intro f log hlog c
    refine (h.cvar c).congr (fun q hq => Function.update_of_ne ?_ _ _) hlog
    rintro rfl
    exact hout c hq
  unfold Sync.runAcquire acquire
  split
  · rename_i procs' lock' heq
    split at heq
    · rename_i howned
      rw [not_or] at howned
      have hlock' : lock' = { l with blocked := l.blocked ++ [procs.running] } :=
        (congrArg (fun r => r.2.1) heq).symm
      subst hlock'
      refine h.onLock id (fun id' hne => lockAt_store_of_ne hne) (fun id' hne q => ?_)
        (fun _ _ => rfl) ?_ ?_ fun c => hcvar _ _ (List.prefix_refl _) c
      · refine contends_update_of_not (hother id' hne) (fun w hw => hne ?_) q
        exact ((SyncFrame.acquiring.inj (Option.some.inj hw)).1).symm
      · rw [lockAt_store_self hfind]
        have := hl.sleep hself waited
        rwa [Function.update_idem] at this
      · rw [lockAt_store_self hfind]
        exact fun hnone => absurd hnone howned.1
    · cases heq
  · rename_i procs' lock' r heq
    split at heq
    · cases heq
    · rename_i hfree
      rw [not_not] at hfree
      have hlock' : lock' = { l with owner := some procs.running } :=
        (congrArg (fun r => r.2.1) heq).symm
      have hr : r = 0 := (Outcome.returned.inj (congrArg (fun r => r.2.2) heq)).symm
      subst hlock' hr
      have htake := hl.take hfree serial waited
      refine h.onLock id (fun id' hne => lockAt_store_of_ne hne) (fun id' hne q => ?_)
        (fun id' hne => ?_) ?_ ?_ fun c => hcvar _ _ (List.prefix_append _ _) c
      · exact contends_update_of_not (hother id' hne) (fun w hw => by cases hw) q
      · rw [holderNodes_append]
        exact after_acquire_of_ne hne waited _
      · rw [lockAt_store_self hfind]
        split
        · exact htake.of_fields rfl rfl rfl rfl
        · exact htake
      · rw [lockAt_store_self hfind]
        intro hnone
        split at hnone <;> cases hnone

/-- What `release` makes of a lock that is its caller's. -/
theorem release_owned (hown : lock.owner = some procs.running) :
    (release procs lock).2.2 = 0 ∧
    (release procs lock).2.1 = { lock with
      owner := none
      blocked := lock.blocked.tail
      unfulfilled := lock.unfulfilled + (lock.blocked.take 1).length
      woken := lock.woken ++ lock.blocked.take 1 } := by
  unfold release
  rw [if_neg (not_not.mpr hown)]
  cases hb : lock.blocked with
  | nil =>
    rw [if_neg (not_not.mpr rfl)]
    refine ⟨rfl, ?_⟩
    simp
  | cons x rest =>
    rw [if_pos (List.cons_ne_nil x rest)]
    exact ⟨rfl, rfl⟩

/-- And of one that is not. -/
theorem release_refused (hown : lock.owner ≠ some procs.running) :
    release procs lock = (procs, lock, errorCode) := if_pos hown

/-- A released lock with sleepers has one on its way. -/
theorem served_release (hown : lock.owner = some procs.running) :
    (release procs lock).2.1.Served := by
  rw [(release_owned hown).2]
  intro _ hne
  dsimp only at hne ⊢
  cases hb : lock.blocked with
  | nil =>
    rw [hb] at hne
    exact absurd rfl hne
  | cons x rest => exact List.append_ne_nil_of_right_ne_nil _ (List.cons_ne_nil x [])

/-! ## The calls in one piece -/

/-- **What a call does**: it is refused, or its objects are there. -/
inductive Called (y : Sync Node) (procs : ProcTable Node) (serial : ℕ) :
    SyncCall → ProcTable Node × Sync Node → Prop
  | refused (c : SyncCall)
      (hnone : ∀ id, c = .cvarSignal id ∨ c = .cvarBroadcast id → Filed.find y.cvar id = none) :
      Called y procs serial c (procs, y.note (.returns (procs.running, serial) c errorCode))
  | acquire (id : ℤ) (lock : Lock Node) (hfind : Filed.find y.lock id = some lock) :
      Called y procs serial (.acquire id) (y.runAcquire procs serial id lock none)
  | release (id : ℤ) (lock : Lock Node) (hfind : Filed.find y.lock id = some lock) :
      Called y procs serial (.release id) ((release procs lock).1,
        ⟨Filed.store y.lock id (release procs lock).2.1, y.cvar, y.frame,
          y.log ++ [.returns (procs.running, serial) (.release id) (release procs lock).2.2]⟩)
  | cvarWait (cvarId id : ℤ) (lock : Lock Node) (cvar : Cvar Node)
      (hlock : Filed.find y.lock id = some lock) (hcvar : Filed.find y.cvar cvarId = some cvar) :
      Called y procs serial (.cvarWait cvarId id) ((waitCvar procs cvar lock).1,
        ⟨Filed.store y.lock id (waitCvar procs cvar lock).2.2,
          Filed.store y.cvar cvarId (waitCvar procs cvar lock).2.1,
          Function.update y.frame procs.running (some (.waiting cvarId id y.log.length)),
          y.log ++ [.waits (procs.running, serial) cvarId id]⟩)
  | cvarSignal (id : ℤ) (cvar : Cvar Node) (hfind : Filed.find y.cvar id = some cvar) :
      Called y procs serial (.cvarSignal id) ((signalCvar procs cvar).1,
        ⟨y.lock, Filed.store y.cvar id (signalCvar procs cvar).2, y.frame,
          y.log ++ [.returns (procs.running, serial) (.cvarSignal id) 0]⟩)
  | cvarBroadcast (id : ℤ) (cvar : Cvar Node) (hfind : Filed.find y.cvar id = some cvar) :
      Called y procs serial (.cvarBroadcast id) ((broadcast procs cvar).1,
        ⟨y.lock, Filed.store y.cvar id (broadcast procs cvar).2, y.frame,
          y.log ++ [.returns (procs.running, serial) (.cvarBroadcast id) 0]⟩)

theorem called (y : Sync Node) (procs : ProcTable Node) (serial : ℕ) (c : SyncCall) :
    Called y procs serial c (y.call procs serial c) := by
  cases c with
  | acquire id =>
    show Called y procs serial _ (y.kernelAcquire procs serial id)
    unfold kernelAcquire
    cases hfind : Filed.find y.lock id with
    | none => exact Called.refused _ (by simp)
    | some lock => exact Called.acquire id lock hfind
  | release id =>
    show Called y procs serial _ (y.kernelRelease procs serial id)
    unfold kernelRelease
    cases hfind : Filed.find y.lock id with
    | none => exact Called.refused _ (by simp)
    | some lock => exact Called.release id lock hfind
  | cvarWait cvarId id =>
    show Called y procs serial _ (y.kernelCvarWait procs serial cvarId id)
    unfold kernelCvarWait
    cases hlock : Filed.find y.lock id with
    | none => exact Called.refused _ (by simp)
    | some lock =>
      cases hcvar : Filed.find y.cvar cvarId with
      | none => exact Called.refused _ (by simp)
      | some cvar => exact Called.cvarWait cvarId id lock cvar hlock hcvar
  | cvarSignal id =>
    show Called y procs serial _ (y.kernelCvarSignal procs serial id)
    unfold kernelCvarSignal
    cases hfind : Filed.find y.cvar id with
    | none => exact Called.refused _ (by simp [hfind])
    | some cvar => exact Called.cvarSignal id cvar hfind
  | cvarBroadcast id =>
    show Called y procs serial _ (y.kernelCvarBroadcast procs serial id)
    unfold kernelCvarBroadcast
    cases hfind : Filed.find y.cvar id with
    | none => exact Called.refused _ (by simp [hfind])
    | some cvar => exact Called.cvarBroadcast id cvar hfind

/-- **What coming back does**: `acquire` runs, of the lock as it is now or
with its caller counted off. -/
inductive CameBack (y : Sync Node) (procs : ProcTable Node) (serial : ℕ) :
    SyncFrame → ProcTable Node × Sync Node → Prop
  | waiting (cvarId id : ℤ) (since : ℕ) (lock : Lock Node)
      (hfind : Filed.find y.lock id = some lock) :
      CameBack y procs serial (.waiting cvarId id since)
        (y.runAcquire procs serial id lock (some cvarId))
  | acquiring (id : ℤ) (waited : Option ℤ) (lock : Lock Node)
      (hfind : Filed.find y.lock id = some lock) :
      CameBack y procs serial (.acquiring id waited)
        (y.runAcquire procs serial id (fulfil procs lock) waited)

theorem cameBack {f : SyncFrame} {r : ProcTable Node × Sync Node}
    (h : y.resume procs serial f = some r) : CameBack y procs serial f r := by
  cases f with
  | waiting cvarId id since =>
    obtain ⟨lock, hfind, rfl⟩ := Option.map_eq_some_iff.mp h
    exact CameBack.waiting cvarId id since lock hfind
  | acquiring id waited =>
    obtain ⟨lock, hfind, rfl⟩ := Option.map_eq_some_iff.mp h
    exact CameBack.acquiring id waited lock hfind

/-- `wait_cvar` puts its caller last on the queue. -/
theorem waitCvar_cvar (procs : ProcTable Node) (cvar : Cvar Node) (lock : Lock Node) :
    (waitCvar procs cvar lock).2.1.blocked = cvar.blocked ++ [procs.running] := by
  have hrunning : (release procs lock).1.running = procs.running := by
    unfold release
    split
    · rfl
    · split
      · cases lock.blocked <;> rfl
      · rfl
  show cvar.blocked ++ [(release procs lock).1.running] = _
  rw [hrunning]

omit [DecidableEq Node] in
/-- A call on a condition variable leaves its queue, or a part of it. -/
theorem signalCvar_tail (procs : ProcTable Node) (cvar : Cvar Node) :
    (signalCvar procs cvar).2.blocked = cvar.blocked.tail := by
  unfold signalCvar
  cases hb : cvar.blocked with
  | nil => rw [if_neg (not_not.mpr rfl), hb]; rfl
  | cons x rest => rw [if_pos (List.cons_ne_nil x rest)]; rfl

omit [DecidableEq Node] in
theorem broadcast_nil (procs : ProcTable Node) (cvar : Cvar Node) :
    (broadcast procs cvar).2.blocked = [] := by
  unfold broadcast
  split
  · rfl
  · rename_i hnil
    exact not_not.mp hnil

/-! ## Every call -/

/-- **A lock given up or kept**, by a call that notes it. -/
theorem Law.lockReleased (h : y.Law) (hfind : Filed.find y.lock id = some lock)
    {frame : Node → Option SyncFrame} {n : Note (Node × ℕ)}
    (hframe : ∀ id q, Contends frame id q ↔ Contends y.frame id q)
    (hn : ∀ id' held, (n.map Prod.fst).after id' held =
      if id' = id then held \ {procs.running} else held)
    {l : Lock Node} (hblocked : l.blocked = (release procs lock).2.1.blocked)
    (hwoken : l.woken = (release procs lock).2.1.woken)
    (hunfulfilled : l.unfulfilled = (release procs lock).2.1.unfulfilled)
    (howner : l.owner = (release procs lock).2.1.owner)
    (hcvar : ∀ c, CvarLaw frame (y.log ++ [n]) c (y'.waiters c))
    (hy : y' = ⟨Filed.store y.lock id l, y'.cvar, frame, y.log ++ [n]⟩) : y'.Law := by
  have hself : y'.lockAt id = l := by
    rw [hy]
    exact lockAt_store_self hfind
  have hlaw : LockLaw y.frame (y.log ++ [n]) id l ∧ l.Served := by
    have hold := h.lock id
    rw [lockAt_eq hfind] at hold
    -- a caller that is not the owner changes neither the lock nor who holds it
    by_cases hown : lock.owner = some procs.running
    · refine ⟨(hold.release (n := n) hown fun held => by rw [hn, if_pos rfl]).of_fields ?_ ?_ ?_ ?_, ?_⟩
      · rw [hblocked, (release_owned hown).2]
      · rw [hwoken, (release_owned hown).2]
      · rw [hunfulfilled, (release_owned hown).2]
      · rw [howner, (release_owned hown).2]
      · intro hnone hne
        rw [hwoken]
        rw [howner] at hnone
        rw [hblocked] at hne
        exact served_release hown hnone hne
    · rw [release_refused hown] at hblocked hwoken hunfulfilled howner
      have hsame : holderNodes id (y.log ++ [n]) = holderNodes id y.log := by
        rw [holderNodes_append, hn, if_pos rfl]
        refine Set.sdiff_singleton_eq_self fun hin => hown ?_
        exact (hold.holders _).mp hin
      refine ⟨(hold.congr (fun _ => Iff.rfl) hsame).of_fields hblocked hwoken hunfulfilled howner, ?_⟩
      intro hnone hne
      have hserved := h.served id
      rw [lockAt_eq hfind] at hserved
      rw [hwoken]
      rw [howner] at hnone
      rw [hblocked] at hne
      exact hserved hnone hne
  have hframe' : y'.frame = frame := congrArg Sync.frame hy
  have hlog' : y'.log = y.log ++ [n] := congrArg Sync.log hy
  refine h.onLock id (fun id' hne => ?_) (fun id' _ q => ?_) (fun id' hne => ?_) ?_ ?_ ?_
  · rw [hy]
    exact lockAt_store_of_ne hne
  · rw [hframe']
    exact hframe id' q
  · rw [hlog', holderNodes_append, hn, if_neg hne]
  · rw [hself, hframe', hlog']
    exact hlaw.1.congr (hframe id) rfl
  · rw [hself]
    exact hlaw.2
  · rw [hframe', hlog']
    exact hcvar

/-- **A call keeps the law**, made by a process that is inside none. -/
theorem Law.call (h : y.Law) (hframe : y.frame procs.running = none) (c : SyncCall) :
    (y.call procs serial c).2.Law := by
  -- a process that makes a call is inside no other: it contends for no lock and waits nowhere
  have hidle : ∀ id, ¬ Contends y.frame id procs.running := by
    rintro id ⟨w, hw⟩
    rw [hframe] at hw
    cases hw
  have hout : ∀ c, procs.running ∉ y.waiters c := by
    intro c hin
    obtain ⟨l, since, serial, hf, -⟩ := (h.cvar c).asleep _ hin
    rw [hframe] at hf
    cases hf
  have hcall := y.called procs serial c
  generalize y.call procs serial c = r at hcall ⊢
  cases hcall with
  | refused => exact h.refused _ _
  | acquire id lock hfind =>
    have hkept : Function.update y.frame procs.running none = y.frame := by
      rw [← hframe]
      exact Function.update_eq_self _ _
    refine h.runAcquire hfind ?_ (fun id' _ => hidle id') hout none
    rw [hkept, ← lockAt_eq hfind]
    exact h.lock id
  | release id lock hfind =>
    by_cases hown : lock.owner = some procs.running
    · refine h.lockReleased hfind (fun _ _ => Iff.rfl) (fun id' held => ?_) rfl rfl rfl rfl
        (fun c => (h.cvar c).congr (fun _ _ => rfl) (List.prefix_append _ _)) rfl
      rw [(release_owned hown).1]
      show (if id = id' ∧ (0 : ℤ) = 0 then _ else _) = _
      simp [eq_comm]
    · have hsame : Filed.store y.lock id lock = y.lock := Filed.store_find hfind
      rw [release_refused hown]
      dsimp only
      rw [hsame]
      exact h.refused _ _
  | cvarWait cvarId id lock cvar hlock hcvar =>
    -- the lock is released and the caller sleeps, in one step
    refine h.lockReleased (l := (waitCvar procs cvar lock).2.2) hlock (fun id' q => ?_)
      (fun id' held => ?_) rfl rfl rfl rfl (fun c => ?_) rfl
    · exact contends_update_of_not (hidle id') (fun w hw => by cases hw) q
    · show (if id = id' then _ else _) = _
      simp [eq_comm]
    · rcases eq_or_ne c cvarId with rfl | hne
      · rw [waiters_store_self hcvar, waitCvar_cvar, ← waiters_eq hcvar]
        exact (h.cvar c).sleep (hout c) id serial
      · rw [waiters_store_of_ne hne]
        refine (h.cvar c).congr (fun q hq => Function.update_of_ne ?_ _ _)
          (List.prefix_append _ _)
        rintro rfl
        exact hout c hq
  | cvarSignal id cvar hfind =>
    have hnote := h.note (n := .returns (procs.running, serial) (.cvarSignal id) 0)
      fun _ _ => rfl
    refine ⟨hnote.lock, hnote.served, fun c => ?_⟩
    rcases eq_or_ne c id with rfl | hne
    · rw [waiters_store_self hfind, signalCvar_tail, ← waiters_eq hfind]
      exact (hnote.cvar c).sublist (List.tail_sublist _)
    · rw [waiters_store_of_ne hne]
      exact hnote.cvar c
  | cvarBroadcast id cvar hfind =>
    have hnote := h.note (n := .returns (procs.running, serial) (.cvarBroadcast id) 0)
      fun _ _ => rfl
    refine ⟨hnote.lock, hnote.served, fun c => ?_⟩
    rcases eq_or_ne c id with rfl | hne
    · rw [waiters_store_self hfind, broadcast_nil]
      exact (hnote.cvar c).sublist (List.nil_sublist _)
    · rw [waiters_store_of_ne hne]
      exact hnote.cvar c

/-- **Coming back keeps the law**, by a process that is on no queue. -/
theorem Law.resume (h : y.Law) {f : SyncFrame} {r : ProcTable Node × Sync Node}
    (hframe : y.frame procs.running = some f)
    (hlocks : ∀ id, procs.running ∉ (y.lockAt id).blocked)
    (hout : ∀ c, procs.running ∉ y.waiters c) (hr : y.resume procs serial f = some r) :
    r.2.Law := by
  cases cameBack hr with
  | waiting cvarId id since lock hfind =>
    have hidle : ∀ id, ¬ Contends y.frame id procs.running := by
      rintro id ⟨w, hw⟩
      rw [hframe] at hw
      cases hw
    refine h.runAcquire hfind ?_ (fun id' _ => hidle id') hout _
    have hlaw := h.lock id
    rw [lockAt_eq hfind] at hlaw
    exact hlaw.congr (contends_update_of_not (hidle id) fun w hw => by cases hw) rfl
  | acquiring id waited lock hfind =>
    refine h.runAcquire hfind ?_ (fun id' hne => ?_) hout _
    · have hlaw := h.lock id
      have hnot := hlocks id
      rw [lockAt_eq hfind] at hlaw hnot
      exact hlaw.fulfil ⟨waited, hframe⟩ hnot
    · rintro ⟨w, hw⟩
      rw [hframe] at hw
      exact hne (SyncFrame.acquiring.inj (Option.some.inj hw)).1.symm

end Calls

/-! ## Making and destroying -/

/-- What has the same frames and notes, and the same locks and queues by
their ids, has the law. -/
theorem Law.congr (h : y.Law) (hlock : ∀ id, LockLaw y.frame y.log id (y'.lockAt id))
    (hserved : ∀ id, (y'.lockAt id).Served) (hcvar : ∀ c, (y'.waiters c).Sublist (y.waiters c))
    (hframe : y'.frame = y.frame) (hlog : y'.log = y.log) : y'.Law where
  lock id := by
    rw [hframe, hlog]
    exact hlock id
  served := hserved
  cvar c := by
    rw [hframe, hlog]
    exact (h.cvar c).sublist (hcvar c)

/-- **A new lock** is as one that is not there. -/
theorem lockAt_newLock (y : Sync Node) (id id' : ℤ) :
    lockAt { y with lock := y.lock ++ [⟨id, newLock⟩] } id' = y.lockAt id' :=
  Filed.getD_find_append

theorem Law.newLock (h : y.Law) (id : ℤ) :
    Law { y with lock := y.lock ++ [⟨id, Yalnix.newLock⟩] } := by
  refine h.congr (fun id' => ?_) (fun id' => ?_) (fun c => List.Sublist.refl _) rfl rfl
  · rw [lockAt_newLock]
    exact h.lock id'
  · rw [lockAt_newLock]
    exact h.served id'

/-- So is a new condition variable. -/
theorem waiters_newCvar (y : Sync Node) (id second c : ℤ) :
    waiters { y with cvar := y.cvar ++ [⟨id, newCvar second⟩] } c = y.waiters c := by
  unfold waiters
  cases hfind : Filed.find y.cvar c with
  | none =>
    dsimp only
    rw [Filed.find_append_of_none hfind]
    split <;> rfl
  | some cvar =>
    dsimp only
    rw [Filed.find_append_of_some hfind]

theorem Law.newCvar (h : y.Law) (id second : ℤ) :
    Law { y with cvar := y.cvar ++ [⟨id, Yalnix.newCvar second⟩] } := by
  refine h.congr h.lock h.served (fun c => ?_) rfl rfl
  rw [waiters_newCvar]

theorem lockAt_remove (hnd : (y.lock.map Filed.code).Nodup) (id id' : ℤ) :
    lockAt { y with lock := Filed.remove y.lock id } id' =
      if id' = id then Yalnix.newLock else y.lockAt id' :=
  Filed.getD_find_remove hnd

/-- **A lock that `destroy_lock` takes away** is as a new one. -/
theorem Law.destroyLock (h : y.Law) (hnd : (y.lock.map Filed.code).Nodup)
    (hfind : Filed.find y.lock id = some lock) : (y.destroyLock id lock).1.Law := by
  unfold Sync.destroyLock
  split
  · exact h
  · rename_i hgo
    rw [not_or, not_or, not_or, not_not, Bool.not_eq_true, Option.isSome_eq_false_iff,
      Option.isNone_iff_eq_none, not_lt] at hgo
    obtain ⟨hfree, hnone, hcount, -⟩ := hgo
    have hlaw := h.lock id
    rw [lockAt_eq hfind] at hlaw
    have hwoken : lock.woken = [] := by
      have := hlaw.unfulfilled
      exact List.length_eq_zero_iff.mp (by omega)
    refine h.congr (fun id' => ?_) (fun id' => ?_) (fun c => List.Sublist.refl _) rfl rfl
    · rw [lockAt_remove hnd]
      split
      · rename_i heq
        subst heq
        exact hlaw.of_fields hnone.symm hwoken.symm (by rw [hlaw.unfulfilled, hwoken]; rfl)
          hfree.symm
      · exact h.lock id'
    · rw [lockAt_remove hnd]
      split
      · exact fun _ hne => absurd rfl hne
      · exact h.served id'

theorem waiters_remove_of_ne (h : id' ≠ id) :
    waiters { y with cvar := Filed.remove y.cvar id } id' = y.waiters id' := by
  unfold waiters
  dsimp only
  rw [Filed.find_remove_of_ne h]

/-- A condition variable may take its waiters away with it. -/
theorem Law.destroyCvar (h : y.Law) (hnd : (y.cvar.map Filed.code).Nodup) (size : ℤ → ℤ) :
    (y.destroyCvar size id cvar).1.Law := by
  unfold Sync.destroyCvar
  split
  · exact h
  · refine h.congr h.lock h.served (fun c => ?_) rfl rfl
    rcases eq_or_ne c id with rfl | hne
    · unfold waiters
      dsimp only
      rw [Filed.find_remove_self hnd]
      exact List.nil_sublist _
    · rw [waiters_remove_of_ne hne]

end Sync

end Yalnix
