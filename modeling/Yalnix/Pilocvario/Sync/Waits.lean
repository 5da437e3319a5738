import Yalnix.Pilocvario.Places
import Yalnix.Pilocvario.Sync.Steps
/-!
# Who waits, who is woken and who returns

What one call on locks and condition variables does beside keeping the law:
whom it leaves alone, whom it wakes from a lock, what it makes of the queue
of a condition variable, and when it returns.
-/

namespace Yalnix

variable {Node : Type}

namespace Sync

/-- The process is inside `CvarWait`, with the condition variable and the
lock. -/
def Inside (y : Sync Node) (c id : ℤ) (p : Node) : Prop :=
  (∃ since, y.frame p = some (.waiting c id since)) ∨ y.frame p = some (.acquiring id (some c))

variable [DecidableEq Node] {y : Sync Node} {procs : ProcTable Node} {serial : ℕ} {n p : Node}
  {c id : ℤ}

/-- Who is held nowhere is on no lock's queue. -/
theorem not_mem_blocked (h : y.held n = 0) (id : ℤ) : n ∉ (y.lockAt id).blocked := by
  cases hfind : Filed.find y.lock id with
  | none =>
    unfold lockAt
    rw [hfind]
    exact List.not_mem_nil
  | some lock =>
    rw [lockAt_eq hfind, ← List.count_eq_zero]
    have := count_lock_le hfind (n := n)
    omega

theorem not_mem_waiters (h : y.held n = 0) (id : ℤ) : n ∉ y.waiters id := by
  cases hfind : Filed.find y.cvar id with
  | none =>
    unfold waiters
    rw [hfind]
    exact List.not_mem_nil
  | some cvar =>
    rw [waiters_eq hfind, ← List.count_eq_zero]
    have := count_cvar_le hfind (n := n)
    omega

/-! ## What a call leaves alone -/

/-- **A call on locks and condition variables** files nothing and takes
nothing away, and changes no frame but that of its caller. -/
structure Local (y y' : Sync Node) (p : Node) : Prop where
  lock : y'.lock.map Filed.code = y.lock.map Filed.code
  cvar : y'.cvar.map Filed.code = y.cvar.map Filed.code
  frame : ∀ q, q ≠ p → y'.frame q = y.frame q

omit [DecidableEq Node] in
theorem Local.note (y : Sync Node) (p : Node) (n : Note (Node × ℕ)) : Local y (y.note n) p :=
  ⟨rfl, rfl, fun _ _ => rfl⟩

theorem local_runAcquire (y : Sync Node) (procs : ProcTable Node) (serial : ℕ) (id : ℤ)
    (l : Lock Node) (waited : Option ℤ) :
    Local y (y.runAcquire procs serial id l waited).2 procs.running := by
  unfold runAcquire
  split
  · exact ⟨Filed.map_code_store, rfl, fun q hq => Function.update_of_ne hq _ _⟩
  · exact ⟨Filed.map_code_store, rfl, fun q hq => Function.update_of_ne hq _ _⟩

theorem local_call (y : Sync Node) (procs : ProcTable Node) (serial : ℕ) (c : SyncCall) :
    Local y (y.call procs serial c).2 procs.running := by
  have hcall := y.called procs serial c
  generalize y.call procs serial c = r at hcall ⊢
  cases hcall with
  | refused => exact Local.note y _ _
  | acquire id lock => exact local_runAcquire y procs serial id lock none
  | release id lock => exact ⟨Filed.map_code_store, rfl, fun _ _ => rfl⟩
  | cvarWait cvarId id lock cvar =>
    exact ⟨Filed.map_code_store, Filed.map_code_store, fun q hq => Function.update_of_ne hq _ _⟩
  | cvarSignal id cvar => exact ⟨rfl, Filed.map_code_store, fun _ _ => rfl⟩
  | cvarBroadcast id cvar => exact ⟨rfl, Filed.map_code_store, fun _ _ => rfl⟩

theorem local_resume {f : SyncFrame} {r : ProcTable Node × Sync Node}
    (hr : y.resume procs serial f = some r) : Local y r.2 procs.running := by
  cases cameBack hr with
  | waiting cvarId id since lock => exact local_runAcquire y procs serial id lock _
  | acquiring id waited lock => exact local_runAcquire y procs serial id _ waited

/-! ## Who is woken -/

/-- **`acquire` wakes nobody.** -/
theorem woken_runAcquire {lock l : Lock Node} (hfind : Filed.find y.lock id = some lock)
    (waited : Option ℤ) (id' : ℤ) :
    ((y.runAcquire procs serial id l waited).2.lockAt id').woken =
      if id' = id then l.woken else (y.lockAt id').woken := by
  have hacq : (acquire procs l).2.1.woken = l.woken := by
    unfold acquire
    split <;> rfl
  unfold runAcquire
  split
  · rename_i procs' l' heq
    rw [heq] at hacq
    rcases eq_or_ne id' id with rfl | hne
    · rw [if_pos rfl, lockAt_store_self hfind]
      exact hacq
    · rw [if_neg hne, lockAt_store_of_ne hne]
  · rename_i procs' l' r heq
    rw [heq] at hacq
    rcases eq_or_ne id' id with rfl | hne
    · rw [if_pos rfl, lockAt_store_self hfind]
      split <;> exact hacq
    · rw [if_neg hne, lockAt_store_of_ne hne]

/-- **`release` wakes the first of the sleepers**, who is ready then. -/
theorem woken_release {lock : Lock Node} (h : n ∈ (release procs lock).2.1.woken) :
    n ∈ lock.woken ∨ n ∈ (release procs lock).1.ready := by
  unfold release at h ⊢
  split at h
  · exact Or.inl h
  · split at h
    · rename_i hown hne
      rw [if_neg hown, if_pos hne]
      rcases List.mem_append.mp h with hold | hnew
      · exact Or.inl hold
      · right
        cases hb : lock.blocked with
        | nil => exact absurd hb hne
        | cons x rest =>
          rw [hb] at hnew
          obtain rfl := List.mem_singleton.mp hnew
          exact List.mem_append_right _ (List.mem_singleton_self _)
    · exact Or.inl h

/-- **Who is woken by a call** is awake after it. -/
theorem woken_call {c : SyncCall} (h : n ∈ ((y.call procs serial c).2.lockAt id).woken) :
    n ∈ (y.lockAt id).woken ∨ (y.call procs serial c).1.Awake n := by
  have hcall := y.called procs serial c
  generalize y.call procs serial c = r at hcall h ⊢
  cases hcall with
  | refused => exact Or.inl h
  | acquire id' lock hfind =>
    left
    rw [woken_runAcquire hfind] at h
    split at h
    · rename_i hid
      rwa [hid, lockAt_eq hfind]
    · exact h
  | release id' lock hfind =>
    rcases eq_or_ne id id' with rfl | hne
    · rw [lockAt_store_self hfind] at h
      rw [lockAt_eq hfind]
      exact (woken_release h).imp_right Or.inl
    · rw [lockAt_store_of_ne hne] at h
      exact Or.inl h
  | cvarWait cvarId id' lock cvar hfind hcvar =>
    rcases eq_or_ne id id' with rfl | hne
    · rw [lockAt_store_self hfind] at h
      rw [lockAt_eq hfind]
      exact (woken_release h).imp_right awake_runNextReady
    · rw [lockAt_store_of_ne hne] at h
      exact Or.inl h
  | cvarSignal cvarId cvar => exact Or.inl h
  | cvarBroadcast cvarId cvar => exact Or.inl h

/-- **Who comes back is woken no more.** -/
theorem woken_resume {f : SyncFrame} {r : ProcTable Node × Sync Node} (hy : y.Law)
    (hframe : y.frame procs.running = some f) (hr : y.resume procs serial f = some r)
    (h : n ∈ (r.2.lockAt id).woken) : n ∈ (y.lockAt id).woken ∧ n ≠ procs.running := by
  cases cameBack hr with
  | waiting cvarId id' since lock hfind =>
    have hold : n ∈ (y.lockAt id).woken := by
      rw [woken_runAcquire hfind] at h
      split at h
      · rename_i hid
        rwa [hid, lockAt_eq hfind]
      · exact h
    refine ⟨hold, ?_⟩
    rintro rfl
    obtain ⟨⟨w, hw⟩, -⟩ := ((hy.lock id).woken _).mp hold
    rw [hframe] at hw
    cases hw
  | acquiring id' waited lock hfind =>
    rw [woken_runAcquire hfind] at h
    split at h
    · rename_i hid
      subst hid
      have hnd := (hy.lock id).woken_nodup
      rw [lockAt_eq hfind] at hnd ⊢
      exact ((hnd.mem_erase_iff).mp h).symm
    · rename_i hid
      refine ⟨h, ?_⟩
      rintro rfl
      obtain ⟨⟨w, hw⟩, -⟩ := ((hy.lock id).woken _).mp h
      rw [hframe] at hw
      exact hid (SyncFrame.acquiring.inj (Option.some.inj hw)).1.symm

/-! ## Who is ready -/

variable {y : Sync Node} {serial : ℕ}

theorem awake_runAcquire {id : ℤ} {l : Lock Node} (waited : Option ℤ) (h : p ∈ procs.ready) :
    (y.runAcquire procs serial id l waited).1.Awake p := by
  have hacq := awake_acquire l h
  unfold runAcquire
  split
  · rename_i procs' l' heq
    rw [heq] at hacq
    exact hacq
  · rename_i procs' l' r heq
    rw [heq] at hacq
    exact hacq

theorem awake_call (c : SyncCall) (h : p ∈ procs.ready) : (y.call procs serial c).1.Awake p := by
  have hcall := y.called procs serial c
  generalize y.call procs serial c = r at hcall ⊢
  cases hcall with
  | refused => exact Or.inl h
  | acquire id lock => exact awake_runAcquire none h
  | release id lock => exact Or.inl (mem_ready_release lock h)
  | cvarWait cvarId id lock cvar => exact awake_runNextReady (mem_ready_release lock h)
  | cvarSignal id cvar =>
    refine Or.inl ?_
    dsimp only
    unfold signalCvar
    split
    · exact mem_ready_unblockHead _ h
    · exact h
  | cvarBroadcast id cvar =>
    refine Or.inl ?_
    dsimp only
    unfold broadcast
    split
    · exact mem_ready_unblockAll _ h
    · exact h

theorem awake_resume {f : SyncFrame} {r : ProcTable Node × Sync Node}
    (hr : y.resume procs serial f = some r) (h : p ∈ procs.ready) : r.1.Awake p := by
  cases cameBack hr with
  | waiting cvarId id since lock => exact awake_runAcquire _ h
  | acquiring id waited lock => exact awake_runAcquire _ h


/-! ## The queue of a condition variable -/

/-- **What a call makes of the queue of a condition variable.** -/
inductive Queued (y : Sync Node) (procs : ProcTable Node) (c : ℤ) :
    SyncCall → ProcTable Node × Sync Node → Prop
  | kept (call : SyncCall) (r : ProcTable Node × Sync Node) (hsig : call ≠ .cvarSignal c)
      (hbc : call ≠ .cvarBroadcast c) (hsame : r.2.waiters c = y.waiters c)
      (hin : ∀ id p, r.2.Inside c id p → y.Inside c id p) : Queued y procs c call r
  | waits (id : ℤ) (r : ProcTable Node × Sync Node)
      (hlast : r.2.waiters c = y.waiters c ++ [procs.running])
      (hframe : r.2.frame procs.running = some (.waiting c id y.log.length))
      (hin : ∀ id p, r.2.Inside c id p → p = procs.running ∨ y.Inside c id p) :
      Queued y procs c (.cvarWait c id) r
  | signal (r : ProcTable Node × Sync Node) (htail : r.2.waiters c = (y.waiters c).tail)
      (hprocs : r.1 = { procs with ready := procs.ready ++ (y.waiters c).take 1 })
      (hin : r.2.frame = y.frame) : Queued y procs c (.cvarSignal c) r
  | broadcast (r : ProcTable Node × Sync Node) (hnil : r.2.waiters c = [])
      (hprocs : r.1 = { procs with ready := procs.ready ++ y.waiters c })
      (hin : r.2.frame = y.frame) : Queued y procs c (.cvarBroadcast c) r

theorem waiters_runAcquire (l : Lock Node) (waited : Option ℤ) :
    (y.runAcquire procs serial id l waited).2.waiters c = y.waiters c := by
  unfold runAcquire
  split <;> rfl

/-- **A process that runs `acquire`** is inside the call it was inside, or
inside none. -/
theorem inside_runAcquire {l : Lock Node} {waited : Option ℤ} {id' : ℤ}
    (h : (y.runAcquire procs serial id l waited).2.Inside c id' p) :
    (p = procs.running ∧ id' = id ∧ waited = some c) ∨ p ≠ procs.running ∧ y.Inside c id' p := by
  rcases eq_or_ne p procs.running with rfl | hne
  · left
    refine ⟨rfl, ?_⟩
    unfold runAcquire at h
    split at h
    · have hself := Function.update_self procs.running (some (.acquiring id waited)) y.frame
      rcases h with ⟨since, hf⟩ | hf
      · cases hself.symm.trans hf
      · obtain ⟨hid, hw⟩ := SyncFrame.acquiring.inj (Option.some.inj (hself.symm.trans hf))
        exact ⟨hid.symm, hw⟩
    · have hself := Function.update_self procs.running (none : Option SyncFrame) y.frame
      rcases h with ⟨since, hf⟩ | hf
      · cases hself.symm.trans hf
      · cases hself.symm.trans hf
  · right
    have hframe := (local_runAcquire y procs serial id l waited).frame p hne
    refine ⟨hne, ?_⟩
    unfold Inside at h ⊢
    rwa [hframe] at h

omit [DecidableEq Node] in
theorem signalCvar_procs (procs : ProcTable Node) (cvar : Cvar Node) :
    (signalCvar procs cvar).1 = { procs with ready := procs.ready ++ cvar.blocked.take 1 } := by
  unfold signalCvar
  cases hb : cvar.blocked with
  | nil =>
    rw [if_neg (not_not.mpr rfl)]
    simp
  | cons x rest =>
    rw [if_pos (List.cons_ne_nil x rest)]
    rfl

omit [DecidableEq Node] in
theorem unblockAll_procs (procs : ProcTable Node) (q : List Node) :
    unblockAll procs q = { procs with ready := procs.ready ++ q } := by
  induction q generalizing procs with
  | nil => simp [unblockAll]
  | cons x rest ih =>
    have := ih (ready procs x)
    simpa [unblockAll, ready] using this

omit [DecidableEq Node] in
theorem broadcast_procs (procs : ProcTable Node) (cvar : Cvar Node) :
    (broadcast procs cvar).1 = { procs with ready := procs.ready ++ cvar.blocked } := by
  unfold broadcast
  split
  · exact unblockAll_procs procs cvar.blocked
  · rename_i hnil
    rw [not_not] at hnil
    rw [hnil, List.append_nil]

/-- Every call is one of these. -/
theorem queued (y : Sync Node) (procs : ProcTable Node) (serial : ℕ) (c : ℤ)
    (call : SyncCall) : Queued y procs c call (y.call procs serial call) := by
  have hcall := y.called procs serial call
  generalize y.call procs serial call = r at hcall ⊢
  cases hcall with
  | refused _ hnone =>
    -- what is refused names no condition variable on file, and nobody waits on that
    have hempty : Filed.find y.cvar c = none → y.waiters c = [] := by
      intro hfind
      unfold waiters
      rw [hfind]
      rfl
    by_cases hsig : call = .cvarSignal c
    · subst hsig
      have hnil := hempty (hnone c (Or.inl rfl))
      refine Queued.signal _ ?_ ?_ rfl
      · show y.waiters c = _
        rw [hnil, List.tail_nil]
      · rw [hnil, List.take_nil, List.append_nil]
    · by_cases hbc : call = .cvarBroadcast c
      · subst hbc
        have hnil := hempty (hnone c (Or.inr rfl))
        refine Queued.broadcast _ hnil ?_ rfl
        rw [hnil, List.append_nil]
      · exact Queued.kept _ _ hsig hbc rfl fun id p hp => hp
  | acquire id lock hfind =>
    refine Queued.kept _ _ (by simp) (by simp) (waiters_runAcquire lock none) fun id' p hp => ?_
    rcases inside_runAcquire hp with ⟨-, -, hw⟩ | ⟨-, hin⟩
    · cases hw
    · exact hin
  | release id lock hfind =>
    exact Queued.kept _ _ (by simp) (by simp) rfl fun id' p hp => hp
  | cvarWait cvarId id lock cvar hlock hcvar =>
    -- only the caller's frame is new
    have hself := Function.update_self procs.running
      (some (.waiting cvarId id y.log.length)) y.frame
    have hin : ∀ id' p, Inside ⟨Filed.store y.lock id (waitCvar procs cvar lock).2.2,
        Filed.store y.cvar cvarId (waitCvar procs cvar lock).2.1,
        Function.update y.frame procs.running (some (.waiting cvarId id y.log.length)),
        y.log ++ [.waits (procs.running, serial) cvarId id]⟩ c id' p →
        (p = procs.running ∧ cvarId = c) ∨ y.Inside c id' p := by
      intro id' p hp
      rcases eq_or_ne p procs.running with rfl | hne
      · left
        refine ⟨rfl, ?_⟩
        rcases hp with ⟨since, hf⟩ | hf
        · exact (SyncFrame.waiting.inj (Option.some.inj (hself.symm.trans hf))).1
        · cases hself.symm.trans hf
      · right
        unfold Inside at hp ⊢
        dsimp only at hp
        rwa [Function.update_of_ne hne] at hp
    rcases eq_or_ne cvarId c with rfl | hne
    · refine Queued.waits _ _ ?_ hself fun id' p hp => (hin id' p hp).imp_left And.left
      rw [waiters_store_self hcvar, waitCvar_cvar, waiters_eq hcvar]
    · refine Queued.kept _ _ (by simp) (by simp) (waiters_store_of_ne hne.symm) fun id' p hp => ?_
      exact (hin id' p hp).resolve_left fun h => hne h.2
  | cvarSignal id cvar hfind =>
    rcases eq_or_ne id c with rfl | hne
    · refine Queued.signal _ ?_ ?_ rfl
      · rw [waiters_store_self hfind, signalCvar_tail, waiters_eq hfind]
      · rw [signalCvar_procs, waiters_eq hfind]
    · exact Queued.kept _ _ (by simpa using hne) (by simp) (waiters_store_of_ne hne.symm)
        fun id' p hp => hp
  | cvarBroadcast id cvar hfind =>
    rcases eq_or_ne id c with rfl | hne
    · refine Queued.broadcast _ ?_ ?_ rfl
      · rw [waiters_store_self hfind, broadcast_nil]
      · rw [broadcast_procs, waiters_eq hfind]
    · exact Queued.kept _ _ (by simp) (by simpa using hne) (waiters_store_of_ne hne.symm)
        fun id' p hp => hp

/-- **The owner of a lock that calls `CvarWait`** gives it up and is on the
queue, in one call. -/
theorem cvarWait_owned {lock : Lock Node} {cvar : Cvar Node}
    (hlock : Filed.find y.lock id = some lock) (hcvar : Filed.find y.cvar c = some cvar)
    (hown : lock.owner = some procs.running) :
    ((y.call procs serial (.cvarWait c id)).2.lockAt id).owner = none ∧
    (y.call procs serial (.cvarWait c id)).2.waiters c = y.waiters c ++ [procs.running] := by
  have heq : y.call procs serial (.cvarWait c id) = ((waitCvar procs cvar lock).1,
      ⟨Filed.store y.lock id (waitCvar procs cvar lock).2.2,
        Filed.store y.cvar c (waitCvar procs cvar lock).2.1,
        Function.update y.frame procs.running (some (.waiting c id y.log.length)),
        y.log ++ [.waits (procs.running, serial) c id]⟩) := by
    show y.kernelCvarWait procs serial c id = _
    unfold kernelCvarWait
    rw [hlock, hcvar]
  rw [heq]
  constructor
  · rw [lockAt_store_self hlock]
    show (release procs lock).2.1.owner = none
    rw [(release_owned hown).2]
  · rw [waiters_store_self hcvar, waitCvar_cvar, waiters_eq hcvar]

/-! ## What is returned -/

theorem log_runAcquire (y : Sync Node) (procs : ProcTable Node) (serial : ℕ) (id : ℤ)
    (l : Lock Node) (waited : Option ℤ) :
    (y.runAcquire procs serial id l waited).2.log = y.log ∨
    (y.runAcquire procs serial id l waited).2.log =
      y.log ++ [.returns (procs.running, serial) (acquireCall id waited) 0] ∧
    (Filed.find y.lock id ≠ none →
      ((y.runAcquire procs serial id l waited).2.lockAt id).owner = some procs.running) := by
  unfold runAcquire acquire
  split
  · exact Or.inl rfl
  · rename_i procs' l' r heq
    right
    split at heq
    · cases heq
    · have hr : r = 0 := (Outcome.returned.inj (congrArg (fun r => r.2.2) heq)).symm
      have hl' : l' = { l with owner := some procs.running } :=
        (congrArg (fun r => r.2.1) heq).symm
      subst hr hl'
      refine ⟨rfl, fun hfind => ?_⟩
      obtain ⟨lock, hlock⟩ := Option.ne_none_iff_exists'.mp hfind
      rw [lockAt_store_self hlock]
      split <;> rfl

/-- **`CvarWait` does not return at once**, unless it is refused. -/
theorem returned_call {call : SyncCall} {q : Node × ℕ} {v : ℤ}
    (h : (y.call procs serial call).2.log = y.log ++ [.returns q (.cvarWait c id) v]) :
    v = errorCode := by
  have hcall := y.called procs serial call
  generalize y.call procs serial call = r at hcall h
  have hlast : ∀ {n : Note (Node × ℕ)}, y.log ++ [n] = y.log ++ [.returns q (.cvarWait c id) v] →
      n = .returns q (.cvarWait c id) v := fun heq =>
    List.singleton_inj.mp (List.append_cancel_left heq)
  cases hcall with
  | refused _ hnone => exact ((Note.returns.inj (hlast h)).2.2).symm
  | acquire id' lock hfind =>
    rcases log_runAcquire y procs serial id' lock none with heq | ⟨heq, -⟩
    · rw [heq] at h
      have := congrArg List.length h
      rw [List.length_append, List.length_singleton] at this
      omega
    · rw [heq] at h
      cases (Note.returns.inj (hlast h)).2.1
  | release id' lock hfind => cases (Note.returns.inj (hlast h)).2.1
  | cvarWait cvarId id' lock cvar hlock hcvar => cases hlast h
  | cvarSignal id' cvar hfind => cases (Note.returns.inj (hlast h)).2.1
  | cvarBroadcast id' cvar hfind => cases (Note.returns.inj (hlast h)).2.1

/-- **When `CvarWait` returns** its caller comes back from inside it, and
owns the lock. -/
theorem returned_resume {f : SyncFrame} {r : ProcTable Node × Sync Node} {q : Node × ℕ} {v : ℤ}
    (hframe : y.frame procs.running = some f) (hr : y.resume procs serial f = some r)
    (h : r.2.log = y.log ++ [.returns q (.cvarWait c id) v]) :
    q.1 = procs.running ∧ y.Inside c id q.1 ∧ (r.2.lockAt id).owner = some q.1 := by
  -- either way back ends in an acquisition, which notes a return when it takes the lock
  have hgo : ∀ (id' : ℤ) (l lock : Lock Node) (waited : Option ℤ),
      Filed.find y.lock id' = some lock →
      (y.runAcquire procs serial id' l waited).2.log =
        y.log ++ [.returns q (.cvarWait c id) v] →
      q.1 = procs.running ∧ waited = some c ∧ id' = id ∧
        ((y.runAcquire procs serial id' l waited).2.lockAt id').owner = some q.1 := by
    intro id' l lock waited hfind hlog
    rcases log_runAcquire y procs serial id' l waited with heq | ⟨heq, hown⟩
    · rw [heq] at hlog
      have := congrArg List.length hlog
      rw [List.length_append, List.length_singleton] at this
      omega
    · rw [heq] at hlog
      have hn := Note.returns.inj (List.singleton_inj.mp (List.append_cancel_left hlog))
      obtain ⟨rfl, hcall, -⟩ := hn
      have howner := hown (by rw [hfind]; exact Option.some_ne_none _)
      cases waited with
      | none => cases hcall
      | some c' =>
        obtain ⟨rfl, rfl⟩ := SyncCall.cvarWait.inj hcall
        exact ⟨rfl, rfl, rfl, howner⟩
  cases cameBack hr with
  | waiting cvarId id' since lock hfind =>
    obtain ⟨hq, hw, rfl, howner⟩ := hgo id' lock lock _ hfind h
    obtain rfl := Option.some.inj hw
    exact ⟨hq, Or.inl ⟨since, hq ▸ hframe⟩, howner⟩
  | acquiring id' waited lock hfind =>
    obtain ⟨hq, rfl, rfl, howner⟩ := hgo id' _ lock _ hfind h
    exact ⟨hq, Or.inr (hq ▸ hframe), howner⟩

end Sync

end Yalnix
