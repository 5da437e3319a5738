import Yalnix.Machine.Awake
/-!
# The law of a machine with locks and condition variables

`Machine.Lawful` is what every event keeps, reclaims included: everybody is
in at most one place, an id is given once, the locks and condition variables
have their law, and who was woken from a lock is ready or running.
-/

namespace Yalnix

variable {Node Addr : Type}

/-- A call that makes or destroys objects. -/
def Event.Files : Event Node Addr → Bool
  | .call (.pipeInit _) => true
  | .call (.lockInit _) => true
  | .call (.cvarInit _ _) => true
  | .call (.reclaim _ _) => true
  | _ => false

namespace Machine

/-! ## Ids -/

/-- The ids of all objects. -/
def codes (m : Machine Node Addr) : List ℤ :=
  m.io.pipe.map Filed.code ++ m.sync.lock.map Filed.code ++ m.sync.cvar.map Filed.code

/-- **An id is given once**, and the next one to none yet. -/
structure Numbered (m : Machine Node Addr) : Prop where
  nodup : m.codes.Nodup
  below : ∀ id ∈ m.codes, id < m.count

variable {m t : Machine Node Addr} {e : Event Node Addr}

theorem Numbered.pipe_nodup (h : m.Numbered) : (m.io.pipe.map Filed.code).Nodup :=
  (List.nodup_append.mp (List.nodup_append.mp h.nodup).1).1

theorem Numbered.lock_nodup (h : m.Numbered) : (m.sync.lock.map Filed.code).Nodup :=
  (List.nodup_append.mp (List.nodup_append.mp h.nodup).1).2.1

theorem Numbered.cvar_nodup (h : m.Numbered) : (m.sync.cvar.map Filed.code).Nodup :=
  (List.nodup_append.mp h.nodup).2.1

theorem Numbered.sublist (h : m.Numbered) (hpipe : (t.io.pipe.map Filed.code).Sublist
    (m.io.pipe.map Filed.code)) (hlock : (t.sync.lock.map Filed.code).Sublist
    (m.sync.lock.map Filed.code)) (hcvar : (t.sync.cvar.map Filed.code).Sublist
    (m.sync.cvar.map Filed.code)) (hcount : t.count = m.count) : t.Numbered := by
  have hsub : t.codes.Sublist m.codes := (hpipe.append hlock).append hcvar
  exact ⟨h.nodup.sublist hsub, fun id hid => by
    rw [hcount]
    exact h.below id (hsub.subset hid)⟩

/-- What leaves the objects where they are filed. -/
theorem Numbered.congr (h : m.Numbered) (hpipe : t.io.pipe.map Filed.code =
    m.io.pipe.map Filed.code) (hlock : t.sync.lock.map Filed.code = m.sync.lock.map Filed.code)
    (hcvar : t.sync.cvar.map Filed.code = m.sync.cvar.map Filed.code)
    (hcount : t.count = m.count) : t.Numbered := by
  refine h.sublist ?_ ?_ ?_ hcount
  · rw [hpipe]
  · rw [hlock]
  · rw [hcvar]

/-- **The next id is a new one.** -/
theorem Numbered.insert (h : m.Numbered) (hperm : t.codes.Perm (m.count :: m.codes))
    (hcount : t.count = m.count + 1) : t.Numbered := by
  constructor
  · rw [hperm.nodup_iff, List.nodup_cons]
    exact ⟨fun hin => lt_irrefl _ (h.below _ hin), h.nodup⟩
  · intro id hid
    rcases List.mem_cons.mp (hperm.subset hid) with rfl | hin
    · omega
    · have := h.below id hin
      omega

section Lawful

variable [Devices] [DecidableEq Node]

/-- **The law of the machine.** -/
structure Lawful (m : Machine Node Addr) : Prop where
  sound : m.Sound
  numbered : m.Numbered
  law : m.sync.Law
  /-- Nobody is inside `KernelWait` and a call on locks at once. -/
  apart : ∀ p, m.kernel.waits p = none ∨ m.sync.frame p = none
  awake : ∀ id, ∀ p ∈ (m.sync.lockAt id).woken, m.kernel.procs.Awake p

/-- Who is in user mode was not woken from a lock. -/
theorem Lawful.not_woken (h : m.Lawful) {p : Node} (hframe : m.sync.frame p = none) (id : ℤ) :
    p ∉ (m.sync.lockAt id).woken := by
  intro hin
  obtain ⟨⟨w, hw⟩, -⟩ := ((h.law.lock id).woken p).mp hin
  rw [hframe] at hw
  cases hw

variable [DecidableEq Addr] [Paging]

/-! ## Ids, event by event -/

omit [Paging] [DecidableEq Addr] in
theorem Made.numbered (h : m.Numbered) (hm : m.Made t) : t.Numbered := by
  rcases hm.filed with ⟨hcount, hsync, hpipe⟩ | ⟨hcount, hnew⟩
  · exact h.congr (by rw [hpipe]) (by rw [hsync]) (by rw [hsync]) hcount
  · refine h.insert ?_ hcount
    unfold codes
    rcases hnew with ⟨hsync, hpipe⟩ | ⟨hpipe, hlock | ⟨second, hcvar⟩⟩
    · rw [hsync, hpipe, List.map_append, List.map_singleton]
      exact ((List.perm_append_singleton _ _).append_right _).append_right _
    · rw [hpipe, hlock]
      dsimp only
      rw [List.map_append, List.map_singleton, ← List.append_assoc]
      exact (List.perm_append_singleton _ _).append_right _
    · rw [hpipe, hcvar]
      dsimp only
      rw [List.map_append, List.map_singleton, ← List.append_assoc]
      exact List.perm_append_singleton _ _

omit [Devices] [DecidableEq Node] [DecidableEq Addr] [Paging] in
theorem kernelReclaim_numbered (h : m.Numbered) (id : ℤ) (size : ℤ → ℤ) :
    (m.kernelReclaim id size).1.Numbered := by
  have hremove : ∀ {α : Type} (l : List (Filed α)),
      ((Filed.remove l id).map Filed.code).Sublist (l.map Filed.code) :=
    fun l => Filed.remove_sublist.map _
  unfold kernelReclaim
  cases Filed.find m.io.pipe id with
  | some pipe =>
    dsimp only
    unfold destroyPipe
    split
    · exact h
    · exact h.sublist (hremove _) (List.Sublist.refl _) (List.Sublist.refl _) rfl
  | none =>
    cases Filed.find m.sync.cvar id with
    | some cvar =>
      dsimp only
      unfold Sync.destroyCvar
      split
      · exact h
      · exact h.sublist (List.Sublist.refl _) (List.Sublist.refl _) (hremove _) rfl
    | none =>
      cases Filed.find m.sync.lock id with
      | some lock =>
        dsimp only
        unfold Sync.destroyLock
        split
        · exact h
        · exact h.sublist (List.Sublist.refl _) (hremove _) (List.Sublist.refl _) rfl
      | none => exact h

/-- **What an event does to the ids in use.** -/
inductive OnIds (m : Machine Node Addr) : Event Node Addr → Machine Node Addr → Prop
  | kept (e : Event Node Addr) (t : Machine Node Addr) (he : e.Files = false)
      (hpipe : t.io.pipe.map Filed.code = m.io.pipe.map Filed.code)
      (hlock : t.sync.lock.map Filed.code = m.sync.lock.map Filed.code)
      (hcvar : t.sync.cvar.map Filed.code = m.sync.cvar.map Filed.code)
      (hcount : t.count = m.count) : OnIds m e t
  | made (c : Proc Node Addr) (s : Syscall Node Addr) (r : Machine Node Addr × ℤ)
      (hc : m.kernel.curr = some c) (hinit : m.InitCall c s r) : OnIds m (.call s) r.1
  | reclaimed (c : Proc Node Addr) (id : ℤ) (size : ℤ → ℤ) (hc : m.kernel.curr = some c) :
      OnIds m (.call (.reclaim id size)) (m.kernelReclaim id size).1

omit [DecidableEq Node] [DecidableEq Addr] in
theorem IoCall.files {c : Proc Node Addr} {r : Machine Node Addr × Outcome IoFrame}
    (h : m.IoCall c e r) : Event.Files e = false := by
  cases h <;> rfl

theorem onIds (h : m.Lawful) (he : e.InRange) (hstep : m.step e = some t) : m.OnIds e t := by
  rcases step_cases h.sound hstep with ⟨c, kin, hc, hkin, hrun, hby⟩ | htrap
  · cases hby with
    | acted e act k' hev =>
      refine OnIds.kept _ _ ?_ rfl rfl rfl rfl
      rcases hev with rfl | ⟨rfl, -⟩ <;> rfl
    | delayed clockTicks hsync =>
      obtain ⟨hio, hsync, hcount⟩ := kernelDelay_objects (m := m) clockTicks
      exact OnIds.kept _ _ rfl (by rw [hio]) (by rw [hsync]) (by rw [hsync]) hcount
    | io e r hwaits hsync hcall =>
      have hruns := hcall.runs hrun h.sound.idle_not_mem h.sound.frames he
      have hlock := congrArg (fun y => y.lock.map Filed.code) hruns.sync
      have hcvar := congrArg (fun y => y.cvar.map Filed.code) hruns.sync
      have hcodes := hruns.codes
      have hcount := hruns.count
      obtain ⟨t, out⟩ := r
      cases out <;> exact OnIds.kept _ _ hcall.files hcodes hlock hcvar hcount
    | made s r hsync hinit => exact OnIds.made c s r hc hinit
    | synced call =>
      have hlocal := Sync.local_call m.sync m.kernel.procs c.serial call
      exact OnIds.kept _ _ rfl rfl hlocal.lock hlocal.cvar rfl
    | back f r hwaits hframe hr =>
      have hlocal := Sync.local_resume hr
      exact OnIds.kept _ _ rfl rfl hlocal.lock hlocal.cvar rfl
    | reclaimed id size => exact OnIds.reclaimed c id size hc
  · cases htrap <;> exact OnIds.kept _ _ rfl rfl rfl rfl rfl

theorem step_numbered (h : m.Lawful) (he : e.InRange) (hstep : m.step e = some t) :
    t.Numbered := by
  cases onIds h he hstep with
  | kept _ _ hfiles hpipe hlock hcvar hcount => exact h.numbered.congr hpipe hlock hcvar hcount
  | made c s r hc hinit => exact hinit.made.numbered h.numbered
  | reclaimed c id size => exact kernelReclaim_numbered h.numbered id size

/-! ## Locks and condition variables, event by event -/

/-- **What an event does to locks and condition variables.** Who is running
is inside a call on them only where it comes back to it. -/
inductive OnSync (m : Machine Node Addr) : Event Node Addr → Machine Node Addr → Prop
  | kept (e : Event Node Addr) (t : Machine Node Addr)
      (hout : m.sync.frame m.kernel.procs.running = none) (he : ∀ call, e ≠ .call (.sync call))
      (hsync : t.sync = m.sync) : OnSync m e t
  | made (s : Syscall Node Addr) (t : Machine Node Addr)
      (hout : m.sync.frame m.kernel.procs.running = none) (he : ∀ call, s ≠ .sync call)
      (hmade : m.Made t) : OnSync m (.call s) t
  | called (c : Proc Node Addr) (call : SyncCall) (hc : m.kernel.curr = some c)
      (hwaits : m.kernel.waits m.kernel.procs.running = none)
      (hout : m.sync.frame m.kernel.procs.running = none) :
      OnSync m (.call (.sync call)) (m.setSync (m.sync.call m.kernel.procs c.serial call))
  | back (c : Proc Node Addr) (f : SyncFrame) (r : ProcTable Node × Sync Node)
      (hc : m.kernel.curr = some c) (hwaits : m.kernel.waits m.kernel.procs.running = none)
      (hframe : m.sync.frame m.kernel.procs.running = some f)
      (hr : m.sync.resume m.kernel.procs c.serial f = some r) : OnSync m .resume (m.setSync r)
  | reclaimed (id : ℤ) (size : ℤ → ℤ) (hout : m.sync.frame m.kernel.procs.running = none) :
      OnSync m (.call (.reclaim id size)) (m.kernelReclaim id size).1

omit [DecidableEq Node] [DecidableEq Addr] in
theorem InitCall.not_sync {c : Proc Node Addr} {s : Syscall Node Addr}
    {r : Machine Node Addr × ℤ} (h : m.InitCall c s r) (call : SyncCall) : s ≠ .sync call := by
  rintro rfl
  cases h

theorem onSync (h : m.Lawful) (he : e.InRange) (hstep : m.step e = some t) : m.OnSync e t := by
  have huser : m.inUser = true → m.sync.frame m.kernel.procs.running = none :=
    fun hin => (inUser_iff.mp hin).2.1
  rcases step_cases h.sound hstep with ⟨c, kin, hc, hkin, hrun, hby⟩ | htrap
  · cases hby with
    | acted e act k' hev hout hsync =>
      have hframe : m.sync.frame m.kernel.procs.running = none :=
        hsync.elim (fun hw => (h.apart _).resolve_left hw) id
      refine OnSync.kept _ _ hframe (fun call heq => ?_) rfl
      rcases hev with rfl | ⟨rfl, -⟩ <;> cases heq
    | delayed clockTicks hframe =>
      refine OnSync.kept _ _ hframe (fun call heq => ?_) (kernelDelay_objects clockTicks).2.1
      cases heq
    | io e r hwaits hframe hcall =>
      have hsync := (hcall.runs hrun h.sound.idle_not_mem h.sound.frames he).sync
      refine OnSync.kept _ _ hframe (fun call heq => ?_) ?_
      · subst heq
        cases hcall
      · obtain ⟨t, out⟩ := r
        cases out <;> exact hsync
    | made s r hframe hinit => exact OnSync.made s r.1 hframe hinit.not_sync hinit.made
    | synced call hwaits hframe => exact OnSync.called c call hc hwaits hframe
    | back f r hwaits hframe hr => exact OnSync.back c f r hc hwaits hframe hr
    | reclaimed id size hframe => exact OnSync.reclaimed id size hframe
  · cases htrap with
    | clock hin => exact OnSync.kept _ _ (huser hin) (fun call heq => by cases heq) rfl
    | receive tty landing read hin =>
      exact OnSync.kept _ _ (huser hin) (fun call heq => by cases heq) rfl
    | transmit tty hin => exact OnSync.kept _ _ (huser hin) (fun call heq => by cases heq) rfl

omit [DecidableEq Addr] [Paging] in
/-- **The law after an event.** -/
theorem OnSync.law (h : m.Lawful) (hon : m.OnSync e t) : t.sync.Law := by
  cases hon with
  | kept _ _ hout he hsync => exact hsync ▸ h.law
  | made s _ hout he hmade =>
    rcases hmade.filed with ⟨-, hsync, -⟩ | ⟨-, ⟨hsync, -⟩ | ⟨-, hsync | ⟨second, hsync⟩⟩⟩
    · exact hsync ▸ h.law
    · exact hsync ▸ h.law
    · exact hsync ▸ h.law.newLock m.count
    · exact hsync ▸ h.law.newCvar m.count second
  | called c call hc hwaits hout => exact h.law.call hout call
  | back c f r hc hwaits hframe hr =>
    have hheld := h.sound.running_not_synced
    exact h.law.resume hframe (Sync.not_mem_blocked hheld) (Sync.not_mem_waiters hheld) hr
  | reclaimed id size hout =>
    unfold kernelReclaim
    cases Filed.find m.io.pipe id with
    | some pipe =>
      dsimp only
      unfold destroyPipe
      split <;> exact h.law
    | none =>
      cases hc : Filed.find m.sync.cvar id with
      | some cvar => exact h.law.destroyCvar h.numbered.cvar_nodup size
      | none =>
        cases hl : Filed.find m.sync.lock id with
        | some lock => exact h.law.destroyLock h.numbered.lock_nodup hl
        | none => exact h.law

omit [Devices] [DecidableEq Node] [DecidableEq Addr] [Paging] in
/-- A reclaim changes no frame and no history, and a lock only to a new
one. -/
theorem kernelReclaim_sync (h : m.Numbered) (id : ℤ) (size : ℤ → ℤ) :
    (m.kernelReclaim id size).1.sync.frame = m.sync.frame ∧
    (m.kernelReclaim id size).1.sync.log = m.sync.log ∧
    ∀ id', (m.kernelReclaim id size).1.sync.lockAt id' = m.sync.lockAt id' ∨
      (m.kernelReclaim id size).1.sync.lockAt id' = newLock := by
  unfold kernelReclaim
  cases Filed.find m.io.pipe id with
  | some pipe =>
    dsimp only
    unfold destroyPipe
    split <;> exact ⟨rfl, rfl, fun _ => Or.inl rfl⟩
  | none =>
    cases Filed.find m.sync.cvar id with
    | some cvar =>
      dsimp only
      unfold Sync.destroyCvar
      split <;> exact ⟨rfl, rfl, fun _ => Or.inl rfl⟩
    | none =>
      cases hl : Filed.find m.sync.lock id with
      | some lock =>
        dsimp only
        unfold Sync.destroyLock
        split
        · exact ⟨rfl, rfl, fun _ => Or.inl rfl⟩
        · refine ⟨rfl, rfl, fun id' => ?_⟩
          rw [Sync.lockAt_remove h.lock_nodup]
          split
          · exact Or.inr rfl
          · exact Or.inl rfl
      | none => exact ⟨rfl, rfl, fun _ => Or.inl rfl⟩

omit [DecidableEq Addr] [Paging] in
theorem Made.woken (h : m.Made t) {id : ℤ} {p : Node} (hp : p ∈ (t.sync.lockAt id).woken) :
    p ∈ (m.sync.lockAt id).woken := by
  rcases h.filed with ⟨-, hsync, -⟩ | ⟨-, ⟨hsync, -⟩ | ⟨-, hsync | ⟨second, hsync⟩⟩⟩
  · rwa [hsync] at hp
  · rwa [hsync] at hp
  · rwa [hsync, Sync.lockAt_newLock] at hp
  · rwa [hsync] at hp

/-- **Only who is running** enters `KernelWait`, or leaves it. -/
theorem waits_step (hs : m.Sound) (he : e.InRange) (hstep : m.step e = some t) {p : Node}
    (hp : p ≠ m.kernel.procs.running) : t.kernel.waits p = m.kernel.waits p := by
  rcases step_cases hs hstep with ⟨c, kin, hc, hkin, hrun, hby⟩ | htrap
  · cases hby with
    | acted e act k' hev hout hsync heff =>
      exact heff.waits_of_ne (k := m.kernel.onStack c) hc hp
    | delayed clockTicks =>
      rw [(trades_kernelDelay hrun hs.idle_not_mem clockTicks).waits]
    | io e r hwaits hsync hcall =>
      have hwaits := (hcall.runs hrun hs.idle_not_mem hs.frames he).trades.waits
      obtain ⟨t, out⟩ := r
      cases out <;> exact congrFun hwaits p
    | made s r hsync hinit => rw [hinit.made.trades.waits]
    | synced call => rfl
    | back f r => rfl
    | reclaimed id size => rw [(kernelReclaim_fewer (m := m) id size).1]
  · cases htrap with
    | clock => rw [(trades_trapClock hs.idle_not_mem).waits]
    | receive => rfl
    | transmit => rfl

omit [DecidableEq Addr] [Paging] in
/-- **Only who is running** enters a call on locks, or leaves it. -/
theorem OnSync.frame_of_ne (hon : m.OnSync e t) (h : m.Lawful) {p : Node}
    (hne : p ≠ m.kernel.procs.running) : t.sync.frame p = m.sync.frame p := by
  cases hon with
  | kept _ _ hout hev hsync => rw [hsync]
  | made s _ hout hev hmade => rw [hmade.syncFrame]
  | called c call => exact (Sync.local_call _ _ _ call).frame p hne
  | back c f r hc hwaits hf hr => exact (Sync.local_resume hr).frame p hne
  | reclaimed id size hout => rw [(kernelReclaim_sync h.numbered id size).1]

/-- **Nobody comes to be inside two calls.** -/
theorem step_apart (h : m.Lawful) (he : e.InRange) (hstep : m.step e = some t) (p : Node) :
    t.kernel.waits p = none ∨ t.sync.frame p = none := by
  have hon := onSync h he hstep
  rcases eq_or_ne p m.kernel.procs.running with rfl | hne
  · cases hon with
    | kept _ _ hout hev hsync => exact Or.inr (by rw [hsync, hout])
    | made s _ hout hev hmade => exact Or.inr (by rw [hmade.syncFrame, hout])
    | called c call hc hwaits hout => exact Or.inl hwaits
    | back c f r hc hwaits => exact Or.inl hwaits
    | reclaimed id size hout =>
      right
      rw [(kernelReclaim_sync h.numbered id size).1, hout]
  · rw [hon.frame_of_ne h hne, waits_step h.sound he hstep hne]
    exact h.apart p

/-- **Who was woken from a lock** stays ready, or runs, until it comes
back. -/
theorem step_woken (h : m.Lawful) (he : e.InRange) (hstep : m.step e = some t) (id : ℤ) :
    ∀ p ∈ (t.sync.lockAt id).woken, t.kernel.procs.Awake p := by
  intro p hp
  -- one that was woken before and is not running is on the ready queue
  have hold : p ∈ (m.sync.lockAt id).woken → p ≠ m.kernel.procs.running →
      t.kernel.procs.Awake p := fun hin hne =>
    awake_step h.sound hstep ((h.awake id p hin).resolve_right hne)
  have hout : m.sync.frame m.kernel.procs.running = none → p ∈ (m.sync.lockAt id).woken →
      t.kernel.procs.Awake p := by
    intro hframe hin
    refine hold hin ?_
    rintro rfl
    exact h.not_woken hframe id hin
  cases onSync h he hstep with
  | kept _ _ hframe hev hsync => exact hout hframe (hsync ▸ hp)
  | made s _ hframe hev hmade => exact hout hframe (hmade.woken hp)
  | called c call hc hwaits hframe =>
    rcases Sync.woken_call hp with hin | hawake
    · exact hout hframe hin
    · exact hawake
  | back c f r hc hwaits hframe hr =>
    obtain ⟨hin, hne⟩ := Sync.woken_resume h.law hframe hr hp
    exact hold hin hne
  | reclaimed id' size hframe =>
    rcases (kernelReclaim_sync h.numbered id' size).2.2 id with hsame | hnew
    · rw [hsame] at hp
      exact hout hframe hp
    · rw [hnew] at hp
      exact absurd hp List.not_mem_nil

/-- **Every event keeps the law.** -/
theorem step_lawful (h : m.Lawful) (he : e.InRange) (hstep : m.step e = some t) : t.Lawful where
  sound := (step_owes h.sound he hstep).1
  numbered := step_numbered h he hstep
  law := (onSync h he hstep).law h
  apart := step_apart h he hstep
  awake := step_woken h he hstep

/-- After `KernelStart` there are no locks. -/
theorem start_lawful {b : Boot Node Addr} (hb : start b = some m) : m.Lawful := by
  have hsound := (start_sound hb).1
  obtain ⟨k, hk, rfl⟩ := Option.map_eq_some_iff.mp hb
  refine ⟨hsound, ⟨List.nodup_nil, fun id hid => absurd hid List.not_mem_nil⟩, Sync.law_init,
    fun p => Or.inr rfl, fun id p hp => absurd hp List.not_mem_nil⟩

/-- **The law holds throughout** every run. -/
theorem throughout_lawful {b : Boot Node Addr} {es : List (Event Node Addr)}
    (hb : start b = some m) (hes : ∀ e ∈ es, e.InRange) : Run.Throughout step Lawful m es :=
  Run.throughout_of_step (fun _ e he _ hs ht => step_lawful hs (hes e he) ht) (start_lawful hb)

end Lawful

end Machine

end Yalnix
