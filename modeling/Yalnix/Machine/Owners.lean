import Yalnix.Machine.Lawful
/-!
# A lock and the life of its owner

Nothing in an exit looks at locks. The owner of a lock is a living process
that took it as long as nobody exits with a lock of its own, and no longer:
afterwards the lock has an owner that is dead, or is another process that
was given the node.
-/

namespace Yalnix

variable {Node Addr : Type}

namespace Sync

variable [DecidableEq Node] {y y' : Sync Node} {procs : ProcTable Node} {serial : ℕ} {id : ℤ}
  {p : Node}

/-- **Who owns a lock after a call** is its caller, who has just taken it,
or who owned it before and has not given it up. -/
def Hands (y y' : Sync Node) (p : Node) (serial : ℕ) : Prop :=
  ∀ id q, (y'.lockAt id).owner = some q →
    q = p ∧ (q, serial) ∈ holders id y'.log ∨
    (y.lockAt id).owner = some q ∧ ∀ s, (q, s) ∈ holders id y.log → (q, s) ∈ holders id y'.log

omit [DecidableEq Node] in
/-- A note that takes nothing away leaves everybody what he has. -/
theorem hands_note {n : Note (Node × ℕ)} (hlock : ∀ id, (y'.lockAt id).owner = (y.lockAt id).owner)
    (hlog : y'.log = y.log ++ [n]) (hn : ∀ id held, n.after id held = held) :
    Hands y y' p serial := by
  intro id q hq
  refine Or.inr ⟨hlock id ▸ hq, fun s hs => ?_⟩
  rw [hlog, holders_append, hn]
  exact hs

theorem hands_runAcquire {lock l : Lock Node} (hfind : Filed.find y.lock id = some lock)
    (hl : l.owner = lock.owner) (waited : Option ℤ) :
    Hands y (y.runAcquire procs serial id l waited).2 procs.running serial := by
  intro id' q hq
  have hold : id' ≠ id → (y.lockAt id').owner = some q →
      ∀ n : Note (Node × ℕ), (∀ held, n.after id' held = held) →
        ∀ s, (q, s) ∈ holders id' y.log → (q, s) ∈ holders id' (y.log ++ [n]) := by
    intro _ _ n hn s hs
    rw [holders_append, hn]
    exact hs
  unfold runAcquire acquire at hq ⊢
  split at hq
  · rename_i procs' lock' heq
    -- taken: the caller queues up and the owner stays
    right
    refine ⟨?_, fun s hs => hs⟩
    split at heq
    · have hlock' : lock' = { l with blocked := l.blocked ++ [procs.running] } :=
        (congrArg (fun r => r.2.1) heq).symm
      subst hlock'
      rcases eq_or_ne id' id with rfl | hne
      · rw [lockAt_store_self hfind] at hq
        rw [lockAt_eq hfind, ← hl]
        exact hq
      · rwa [lockAt_store_of_ne hne] at hq
    · cases heq
  · rename_i procs' lock' r heq
    -- free: the caller owns it, and its return is on the log
    split at heq
    · cases heq
    · have hr : r = 0 := (Outcome.returned.inj (congrArg (fun r => r.2.2) heq)).symm
      have hlock' : lock' = { l with owner := some procs.running } :=
        (congrArg (fun r => r.2.1) heq).symm
      subst hr hlock'
      rcases eq_or_ne id' id with rfl | hne
      · left
        rw [lockAt_store_self hfind] at hq
        have hself : q = procs.running := by
          split at hq <;> exact (Option.some.inj hq).symm
        refine ⟨hself, ?_⟩
        rw [holders_append, after_acquire, hself]
        exact Set.mem_insert _ _
      · right
        rw [lockAt_store_of_ne hne] at hq
        exact ⟨hq, hold hne hq _ fun held => after_acquire_of_ne hne waited held⟩

/-- **`release` takes the lock from its owner only.** -/
theorem release_owner (procs : ProcTable Node) (lock : Lock Node) {q : Node}
    (h : (release procs lock).2.1.owner = some q) : lock.owner = some q ∧ q ≠ procs.running := by
  by_cases hown : lock.owner = some procs.running
  · rw [(release_owned hown).2] at h
    cases h
  · rw [release_refused hown] at h
    refine ⟨h, ?_⟩
    rintro rfl
    exact hown h

omit [DecidableEq Node] in
/-- A note that its process has a lock no more concerns nobody else. -/
theorem mem_after_of_ne {n : Note (Node × ℕ)} {held : Set (Node × ℕ)} {q : Node × ℕ} {r : ℕ}
    (hn : n.after id held = held \ {(p, r)} ∨ n.after id held = held) (hne : q.1 ≠ p)
    (hq : q ∈ held) : q ∈ n.after id held := by
  rcases hn with heq | heq
  · rw [heq]
    refine ⟨hq, fun hin => hne ?_⟩
    rw [Set.mem_singleton_iff.mp hin]
  · rwa [heq]

theorem hands_call (y : Sync Node) (procs : ProcTable Node) (serial : ℕ) (c : SyncCall) :
    Hands y (y.call procs serial c).2 procs.running serial := by
  have hcall := y.called procs serial c
  generalize y.call procs serial c = r at hcall ⊢
  cases hcall with
  | refused _ hnone =>
    exact hands_note (fun _ => rfl) rfl fun id held => after_refused (by decide) held
  | acquire id lock hfind => exact hands_runAcquire hfind rfl none
  | release id lock hfind =>
    intro id' q hq
    right
    rcases eq_or_ne id' id with rfl | hne
    · rw [lockAt_store_self hfind] at hq
      obtain ⟨hown, hother⟩ := release_owner procs lock hq
      rw [lockAt_eq hfind]
      refine ⟨hown, fun s hs => ?_⟩
      rw [holders_append]
      refine mem_after_of_ne (p := procs.running) (r := serial) ?_ hother hs
      by_cases hok : id' = id' ∧ (release procs lock).2.2 = 0
      · exact Or.inl (if_pos hok)
      · exact Or.inr (if_neg hok)
    · rw [lockAt_store_of_ne hne] at hq
      refine ⟨hq, fun s hs => ?_⟩
      rw [holders_append]
      have hnot : ¬ (id = id' ∧ (release procs lock).2.2 = 0) := fun h => hne h.1.symm
      show (q, s) ∈ if id = id' ∧ _ then _ else _
      rwa [if_neg hnot]
  | cvarWait cvarId id lock cvar hlock hcvar =>
    intro id' q hq
    right
    rcases eq_or_ne id' id with rfl | hne
    · rw [lockAt_store_self hlock] at hq
      obtain ⟨hown, hother⟩ := release_owner procs lock hq
      rw [lockAt_eq hlock]
      refine ⟨hown, fun s hs => ?_⟩
      rw [holders_append]
      exact mem_after_of_ne (p := procs.running) (r := serial) (Or.inl (if_pos rfl)) hother hs
    · rw [lockAt_store_of_ne hne] at hq
      refine ⟨hq, fun s hs => ?_⟩
      rw [holders_append]
      show (q, s) ∈ if id = id' then _ else _
      rwa [if_neg hne.symm]
  | cvarSignal id cvar hfind => exact hands_note (fun _ => rfl) rfl fun _ _ => rfl
  | cvarBroadcast id cvar hfind => exact hands_note (fun _ => rfl) rfl fun _ _ => rfl

theorem hands_resume {f : SyncFrame} {r : ProcTable Node × Sync Node}
    (hr : y.resume procs serial f = some r) : Hands y r.2 procs.running serial := by
  cases cameBack hr with
  | waiting cvarId id since lock hfind => exact hands_runAcquire hfind rfl _
  | acquiring id waited lock hfind =>
    exact hands_runAcquire hfind (rfl : (fulfil procs lock).owner = lock.owner) waited

end Sync

namespace Machine

variable [Paging] [Devices] [DecidableEq Node] [DecidableEq Addr] {m t : Machine Node Addr}
  {e : Event Node Addr} {es : List (Event Node Addr)} {b : Boot Node Addr} {c : Proc Node Addr}
  {id : ℤ} {p : Node}

/-! ## Who lives -/

/-- **Only an activation of a process** makes or ends one. -/
theorem step_family (hs : m.Sound) (he : e.InRange) (h : m.step e = some t) :
    t.kernel.family = m.kernel.family ∨
    ∃ c kin act k', m.kernel.curr = some c ∧ c.kin = some kin ∧
      Effect (m.kernel.onStack c) c kin act k' ∧ t = { m with kernel := k' } := by
  rcases step_cases hs h with ⟨c, kin, hc, hkin, hrun, hby⟩ | htrap
  · cases hby with
    | acted e act k' hev hout hsync heff => exact Or.inr ⟨c, kin, act, k', hc, hkin, heff, rfl⟩
    | delayed clockTicks =>
      exact Or.inl (trades_kernelDelay hrun hs.idle_not_mem clockTicks).proc
    | io e r hwaits hsync hcall =>
      have hfamily := (hcall.runs hrun hs.idle_not_mem hs.frames he).trades.proc
      obtain ⟨t, out⟩ := r
      cases out <;> exact Or.inl hfamily
    | made s r hsync hinit => exact Or.inl hinit.made.trades.proc
    | synced call => exact Or.inl rfl
    | back f r => exact Or.inl rfl
    | reclaimed id size =>
      left
      rw [(kernelReclaim_fewer (m := m) id size).1]
  · cases htrap with
    | clock => exact Or.inl (trades_trapClock hs.idle_not_mem).proc
    | receive => exact Or.inl rfl
    | transmit => exact Or.inl rfl

/-- **Who lives through an event** is who it was. -/
theorem step_survives (hs : m.Sound) (he : e.InRange) (h : m.step e = some t)
    (hp : m.kernel.proc p = some c) (halive : c.kin.isSome)
    (hlives : p ≠ m.kernel.procs.running ∨ t.kernel.alive m.kernel.procs.running = true) :
    ∃ c', t.kernel.proc p = some c' ∧ c'.kin.isSome ∧ c'.serial = c.serial := by
  rcases step_family hs he h with hfamily | ⟨c₀, kin₀, act, k', hc₀, hkin₀, heff, rfl⟩
  · have hmember := member_eq hp
    rw [← hfamily] at hmember
    obtain ⟨c', hc', hm⟩ := exists_of_member hmember
    refine ⟨c', hc', ?_, congrArg Member.serial hm⟩
    rw [show c'.kin = c.kin from congrArg Member.kin hm]
    exact halive
  · have hk : (m.kernel.onStack c₀).Kindred := hs.kindred.congr rfl rfl rfl rfl
    exact heff.survives hk hc₀ hkin₀ hp halive hlives

/-! ## The owner -/

omit [Paging] [Devices] [DecidableEq Node] [DecidableEq Addr] in
/-- **The owner of a lock** is a living process that returned from `Acquire`
or `CvarWait` on it and has not given it up since. -/
def OwnersLive (m : Machine Node Addr) : Prop :=
  ∀ id p, (m.sync.lockAt id).owner = some p → ∃ c, m.kernel.proc p = some c ∧ c.kin.isSome ∧
    (p, c.serial) ∈ holders id m.sync.log

/-- **A process that the event ends** owns no lock. -/
def ExitsFree (m : Machine Node Addr) (e : Event Node Addr) : Prop :=
  ∀ t, m.step e = some t → t.kernel.alive m.kernel.procs.running = false →
    ∀ id, (m.sync.lockAt id).owner ≠ some m.kernel.procs.running

/-- Whether it does can be looked up: who owns a lock owns one on file. -/
instance decidableExitsFree (m : Machine Node Addr) (e : Event Node Addr) :
    Decidable (m.ExitsFree e) :=
  decidable_of_iff (∀ t ∈ m.step e, t.kernel.alive m.kernel.procs.running = false →
    ∀ lock ∈ m.sync.lock, (m.sync.lockAt lock.code).owner ≠ some m.kernel.procs.running) (by
      refine forall_congr' fun t => forall_congr' fun _ => forall_congr' fun _ =>
        ⟨fun h id howner => ?_, fun h lock _ => h lock.code⟩
      cases hfind : Filed.find m.sync.lock id with
      | some lock => exact h _ (Filed.mem_of_find hfind) howner
      | none =>
        unfold Sync.lockAt at howner
        rw [hfind] at howner
        cases howner)

omit [Paging] [DecidableEq Addr] in
/-- What an event does to the owners of locks. -/
theorem OnSync.hands (h : m.Lawful) (hon : m.OnSync e t) :
    (∀ id p, (t.sync.lockAt id).owner = some p → (m.sync.lockAt id).owner = some p) ∧
      t.sync.log = m.sync.log ∨
    ∃ c, m.kernel.curr = some c ∧ t.kernel.family = m.kernel.family ∧
      m.sync.Hands t.sync m.kernel.procs.running c.serial := by
  cases hon with
  | kept _ _ hout hev hsync => exact Or.inl ⟨fun id p hp => by rwa [hsync] at hp, by rw [hsync]⟩
  | made s _ hout hev hmade =>
    refine Or.inl ⟨fun id p hp => ?_, hmade.log⟩
    rcases hmade.filed with ⟨-, hsync, -⟩ | ⟨-, ⟨hsync, -⟩ | ⟨-, hsync | ⟨second, hsync⟩⟩⟩
    · rwa [hsync] at hp
    · rwa [hsync] at hp
    · rwa [hsync, Sync.lockAt_newLock] at hp
    · rwa [hsync] at hp
  | called c call hc hwaits hout => exact Or.inr ⟨c, hc, rfl, Sync.hands_call _ _ c.serial call⟩
  | back c f r hc hwaits hf hr => exact Or.inr ⟨c, hc, rfl, Sync.hands_resume hr⟩
  | reclaimed id size hout =>
    obtain ⟨-, hlog, hlocks⟩ := kernelReclaim_sync h.numbered id size
    refine Or.inl ⟨fun id' p hp => ?_, hlog⟩
    rcases hlocks id' with hsame | hnew
    · rwa [hsame] at hp
    · rw [hnew] at hp
      cases hp

/-- **An event that ends no owner** keeps the law of the owners. -/
theorem step_ownersLive (h : m.Lawful) (hlive : m.OwnersLive) (he : e.InRange)
    (hok : m.ExitsFree e) (hstep : m.step e = some t) : t.OwnersLive := by
  have hsurvives : ∀ id p c, (m.sync.lockAt id).owner = some p → m.kernel.proc p = some c →
      c.kin.isSome → ∃ c', t.kernel.proc p = some c' ∧ c'.kin.isSome ∧ c'.serial = c.serial := by
    intro id p c hown hc halive
    refine step_survives h.sound he hstep hc halive ?_
    by_cases hp : p = m.kernel.procs.running
    · right
      subst hp
      by_contra hdead
      exact hok t hstep (Bool.eq_false_iff.mpr hdead) id hown
    · exact Or.inl hp
  intro id p hp
  rcases (onSync h he hstep).hands h with ⟨hkept, hlog⟩ | ⟨c, hc, hfamily, hhands⟩
  · have hown := hkept id p hp
    obtain ⟨c, hc, halive, hin⟩ := hlive id p hown
    obtain ⟨c', hc', halive', hserial⟩ := hsurvives id p c hown hc halive
    exact ⟨c', hc', halive', by rwa [hlog, hserial]⟩
  · rcases hhands id p hp with ⟨rfl, hin⟩ | ⟨hown, hin⟩
    · -- it has just taken the lock
      obtain ⟨c₀, kin₀, hc₀, hkin₀⟩ := alive_iff.mp h.sound.running_alive
      obtain rfl := Option.some.inj (hc.symm.trans hc₀)
      have hlives : t.kernel.alive m.kernel.procs.running = true := by
        rw [alive_congr hfamily]
        exact h.sound.running_alive
      obtain ⟨c', hc', halive', hserial⟩ := step_survives h.sound he hstep hc₀
        (by rw [hkin₀]; rfl) (Or.inr hlives)
      exact ⟨c', hc', halive', by rwa [hserial]⟩
    · obtain ⟨c₀, hc₀, halive, hheld⟩ := hlive id p hown
      obtain ⟨c', hc', halive', hserial⟩ := hsurvives id p c₀ hown hc₀ halive
      exact ⟨c', hc', halive', by rw [hserial]; exact hin _ hheld⟩

/-- **An owner that an event ends** is still the owner. -/
theorem step_orphans (h : m.Lawful) (he : e.InRange) (hbad : ¬ m.ExitsFree e)
    (hstep : m.step e = some t) : ¬ t.OwnersLive := by
  unfold ExitsFree at hbad
  push Not at hbad
  obtain ⟨t', ht', hdead, id, hown⟩ := hbad
  obtain rfl := Option.some.inj (hstep.symm.trans ht')
  intro hlive
  rcases step_family h.sound he hstep with hfamily | ⟨c, kin, act, k', hc, hkin, heff, rfl⟩
  · rw [alive_congr hfamily, h.sound.running_alive] at hdead
    cases hdead
  · obtain ⟨c', hc', halive, -⟩ := hlive id m.kernel.procs.running hown
    obtain ⟨kin', hkin'⟩ := Option.isSome_iff_exists.mp halive
    rw [alive_iff.mpr ⟨c', kin', hc', hkin'⟩] at hdead
    cases hdead

/-- **The owner of a lock is a living process that took it**, in every state
of a run, exactly where no process exits with a lock of its own. -/
theorem owners_live_iff (hb : start b = some m) (hes : ∀ e ∈ es, e.InRange) :
    Run.Throughout step OwnersLive m es ↔ Run.Along step ExitsFree m es := by
  have hstart : m.OwnersLive := by
    obtain ⟨k, hk, rfl⟩ := Option.map_eq_some_iff.mp hb
    intro id p hp
    cases hp
  exact Run.throughout_iff_along_of_break (I := fun s => s.Lawful ∧ s.OwnersLive)
    (D := Event.InRange)
    (fun s e t hs he hok ht => ⟨step_lawful hs.1 he ht, step_ownersLive hs.1 hs.2 he hok ht⟩)
    (fun s hs => hs.2) (fun s e t hs he hbad ht => step_orphans hs.1 he hbad ht) hes
    ⟨start_lawful hb, hstart⟩

omit [Paging] [Devices] in
/-- Init's child takes a lock, gives it up and exits, and init takes it. -/
theorem owners_live_iff_released :
    let _ := yalnixPaging
    let _ := yalnixDevices
    let es : List (Event ℕ ℕ) := [.call (.lockInit 0x1ff000), .call (.proc (.fork 2 2 2)), .clock,
      .call (.sync (.acquire 0)), .call (.sync (.release 0)), .call (.proc (.exit 5)),
      .call (.sync (.acquire 0))]
    ∃ m u : Machine ℕ ℕ, start (smallBoot 140) = some m ∧ Run.exec step m es = some u ∧
      (u.sync.lockAt 0).owner = some 0 ∧ u.kernel.alive 2 = false ∧
      Run.Along step ExitsFree m es ∧ Run.Throughout step OwnersLive m es := by
  let _ := yalnixPaging
  let _ := yalnixDevices
  intro _ _ es
  have hruns : ((start (smallBoot 140)).bind fun m => (Run.exec step m es).map fun u =>
      ((u.sync.lockAt 0).owner, u.kernel.alive 2, decide (Run.Along step ExitsFree m es))) =
      some (some 0, false, true) := by
    decide +kernel
  obtain ⟨m, hm, hruns⟩ := Option.bind_eq_some_iff.mp hruns
  obtain ⟨u, hu, heq⟩ := Option.map_eq_some_iff.mp hruns
  obtain ⟨howner, heq⟩ := Prod.mk.inj heq
  obtain ⟨hdead, hdec⟩ := Prod.mk.inj heq
  have hfree : Run.Along step ExitsFree m es := of_decide_eq_true hdec
  exact ⟨m, u, hm, hu, howner, hdead, hfree,
    (owners_live_iff hm (by simp [es, Event.InRange])).mpr hfree⟩

omit [Paging] [Devices] in
/-- Init's child exits with the lock, and stays its owner. -/
theorem not_owners_live :
    let _ := yalnixPaging
    let _ := yalnixDevices
    ∃ m₀ : Machine ℕ ℕ, start (smallBoot 140) = some m₀ ∧
      ¬ Run.Throughout step OwnersLive m₀ [.call (.lockInit 0x1ff000),
        .call (.proc (.fork 2 2 2)), .clock, .call (.sync (.acquire 0)),
        .call (.proc (.exit 5))] := by
  let _ := yalnixPaging
  let _ := yalnixDevices
  let es : List (Event ℕ ℕ) := [.call (.lockInit 0x1ff000), .call (.proc (.fork 2 2 2)), .clock,
    .call (.sync (.acquire 0)), .call (.proc (.exit 5))]
  have hruns : ((start (smallBoot 140)).bind fun m => (Run.exec step m es).map fun m =>
      ((m.sync.lockAt 0).owner, m.kernel.alive 2)) = some (some 2, false) := by
    decide +kernel
  obtain ⟨m₀, hm₀, hm⟩ := Option.bind_eq_some_iff.mp hruns
  obtain ⟨m, hrun, heq⟩ := Option.map_eq_some_iff.mp hm
  obtain ⟨hown, hdead⟩ := Prod.ext_iff.mp heq
  refine ⟨m₀, hm₀, fun h => ?_⟩
  obtain ⟨c, hc, halive, -⟩ := h.final hrun 0 2 hown
  obtain ⟨kin, hkin⟩ := Option.isSome_iff_exists.mp halive
  have hlives := alive_iff.mpr ⟨c, kin, hc, hkin⟩
  rw [show m.kernel.alive 2 = false from hdead] at hlives
  cases hlives

end Machine

end Yalnix
