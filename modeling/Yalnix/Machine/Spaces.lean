import Yalnix.Machine.Stores
import Yalnix.Process.Bodies
import Yalnix.Process.Spaces
/-!
# Private memory, on the whole machine

An event is an activation of the process machine, or it is `Quiet`: it works
on queues and objects, and stores to the process that is running at most.
So what is known of activations is known of events, and every process keeps
the memory it had whatever the others do until it runs itself.
-/

namespace Yalnix

open Paging

section Bodies

variable {Node Addr : Type} [DecidableEq Node]

theorem body_checkDelay (k : Kernel Node Addr) :
    (checkDelay k).body = k.body ∧ (checkDelay k).mem = k.mem := by
  have hall : ∀ (sleepers : List Node) (k : Kernel Node Addr),
      (checkDelayLoop sleepers k).body = k.body ∧ (checkDelayLoop sleepers k).mem = k.mem := by
    intro sleepers
    induction sleepers with
    | nil => exact fun k => ⟨rfl, rfl⟩
    | cons curr rest ih =>
      intro k
      have hmodify : (k.modify curr fun c => { c with code := c.code - 1 }).body = k.body :=
        body_modify fun _ => ⟨rfl, rfl, rfl, rfl⟩
      unfold checkDelayLoop
      cases k.proc curr with
      | none => exact ⟨rfl, rfl⟩
      | some c =>
        dsimp only
        split
        · exact ⟨hmodify, rfl⟩
        · obtain ⟨hbody, hmem⟩ := ih (k.modify curr fun c => { c with code := c.code - 1 })
          exact ⟨hbody.trans hmodify, hmem⟩
  exact hall k.procs.delayed k

end Bodies

namespace Machine

variable {Node Addr : Type} [Paging] [Devices] [DecidableEq Node] [DecidableEq Addr]

variable {m t u : Machine Node Addr} {e : Event Node Addr} {es before : List (Event Node Addr)}
  {b : Boot Node Addr} {n : Node}

/-! ## The process machine in the whole -/

/-- **An event that is no activation**: nobody's page tables change, and it
is to the process that is running that it stores. -/
structure Quiet (m t : Machine Node Addr) : Prop where
  body : t.kernel.body = m.kernel.body
  stored : (t.kernel.mem = m.kernel.mem ∧ t.kernel.misstored = m.kernel.misstored) ∨
    ∃ c addr bytes, m.kernel.curr = some c ∧
      t.kernel.mem = storeBytes c.userpt.pt bytes m.kernel.mem addr ∧
      t.kernel.misstored = m.kernel.misstored ++ unwritable c.userpt.pt addr bytes.length

omit [Paging] [Devices] [DecidableEq Addr] in
/-- Whoever runs was switched to when it got the processor. -/
theorem switchTo_running {c : Proc Node Addr} (h : m.kernel.procs.running ∉ m.kernel.procs.ready) :
    switchTo m.kernel m.kernel.procs.running c = m.kernel.onStack c := by
  have hready : m.kernel.procs.ready.filter (· ≠ m.kernel.procs.running) =
      m.kernel.procs.ready := by
    refine List.filter_eq_self.mpr fun p hp => ?_
    simp only [ne_eq, decide_not, Bool.not_eq_eq_eq_not, Bool.not_true, decide_eq_false_iff_not]
    rintro rfl
    exact h hp
  unfold switchTo dispatch Kernel.onStack
  rw [hready]

omit [Devices] [DecidableEq Node] [DecidableEq Addr] in
/-- Nothing of the processes, nor of memory. -/
theorem Quiet.same (hbody : t.kernel.body = m.kernel.body) (hmem : t.kernel.mem = m.kernel.mem)
    (hmiss : t.kernel.misstored = m.kernel.misstored) : Quiet m t := ⟨hbody, Or.inl ⟨hmem, hmiss⟩⟩

omit [Devices] [DecidableEq Node] [DecidableEq Addr] in
/-- Making an object stores its id. -/
theorem quiet_initObject {c : Proc Node Addr} {ptr : ℤ}
    {new : ℤ → Machine Node Addr → Machine Node Addr} (hc : m.kernel.curr = some c)
    (hnew : ∀ id s, (new id s).kernel = s.kernel) :
    Quiet m (m.initObject c.userpt.pt ptr new).1 := by
  have hkernel := hnew m.count { m with count := m.count + 1 }
  rcases initObject_cases (rfl : m.initObject c.userpt.pt ptr new = _) with
    heq | ⟨k, heq, rfl | rfl⟩
  · rw [heq]
    exact Quiet.same rfl rfl rfl
  · rw [heq]
    exact Quiet.same (congrArg Kernel.body hkernel) (congrArg Kernel.mem hkernel)
      (congrArg Kernel.misstored hkernel)
  · rw [heq, hkernel]
    exact ⟨rfl, Or.inr ⟨c, ptr, wordBytes m.count, hc, rfl, rfl⟩⟩

omit [Devices] [DecidableEq Node] [DecidableEq Addr] in
/-- A call on a pipe or a terminal stores what it reads. -/
theorem quiet_ran {c : Proc Node Addr} {f : IoFrame} {r : Machine Node Addr × Outcome IoFrame}
    (hc : m.kernel.curr = some c) (h : m.Ran c f r) : Quiet m r.1 := by
  cases h with
  | pipeRead id buf len pipe pipe' =>
    exact ⟨rfl, Or.inr ⟨c, buf, (readPipe m.kernel.procs pipe' len).2.2.1, hc, rfl, rfl⟩⟩
  | pipeWrite id f => exact Quiet.same rfl rfl rfl
  | ttyRead tty buf len =>
    exact ⟨rfl, Or.inr ⟨c, buf, (readTty m.kernel.procs (m.io.input tty) len).2.2.1, hc, rfl, rfl⟩⟩
  | ttyWrite tty f => exact Quiet.same rfl rfl rfl

/-- **An activation of the process machine.** -/
def Activated (m : Machine Node Addr) (e : Event Node Addr) (t : Machine Node Addr) : Prop :=
  ∃ c kin act k', m.kernel.curr = some c ∧ c.kin = some kin ∧
    (e = .call (.proc act) ∨ e = .resume ∧ act = .resume) ∧
    Effect (m.kernel.onStack c) c kin act k' ∧
    m.kernel.step (m.kernel.procs.running, act) = some k' ∧ t = { m with kernel := k' }

/-- What the process that is running does is what the process machine lets it
do. -/
theorem kernel_step {c : Proc Node Addr} {kin : Kin Node Addr} {act : ProcAct Node Addr}
    {k' : Kernel Node Addr} (hs : m.Sound) (hc : m.kernel.curr = some c) (hkin : c.kin = some kin)
    (hrun : m.kernel.procs.running ≠ m.kernel.procs.idleNode)
    (he : e = .call (.proc act) ∨ e = .resume ∧ act = .resume)
    (heff : Effect (m.kernel.onStack c) c kin act k')
    (h : m.step e = some { m with kernel := k' }) :
    m.kernel.step (m.kernel.procs.running, act) = some k' := by
  have hact : (m.kernel.onStack c).act m.kernel.procs.running c act = some k' := by
    rcases he with rfl | ⟨rfl, rfl⟩
    · obtain ⟨c', hc', -, -, hcall⟩ := step_call h
      obtain rfl := Option.some.inj (hc.symm.trans hc')
      obtain ⟨k₁, hk₁, heq⟩ := Option.map_eq_some_iff.mp hcall
      rw [hk₁, show k₁ = k' from congrArg Machine.kernel heq]
    · obtain ⟨c', hc', -, hback⟩ := step_resume h
      obtain rfl := Option.some.inj (hc.symm.trans hc')
      obtain ⟨ptr, hptr⟩ := heff.inWait_of_resume
      have hin : m.kernel.waits m.kernel.procs.running = some ptr := hptr
      rcases resume_cases hback with ⟨-, k₁, hk₁, heq⟩ | ⟨hnone, -⟩ | ⟨hnone, -⟩
      · rw [hk₁, show k₁ = k' from (congrArg Machine.kernel heq).symm]
      · rw [hin] at hnone
        cases hnone
      · rw [hin] at hnone
        cases hnone
  have hproc : m.kernel.proc m.kernel.procs.running = some c := hc
  unfold Kernel.step
  dsimp only
  rw [hproc]
  dsimp only
  rw [switchTo_running hs.running_not_ready, if_neg]
  · exact hact
  · rintro (hnone | hidle | hin)
    · rw [hkin] at hnone
      cases hnone
    · exact hrun hidle
    · exact hs.running_not_waiting hrun hin

/-- **What an event is to the process machine**: an activation of the
process that is running, or nothing. -/
theorem step_kernel (hs : m.Sound) (h : m.step e = some t) : m.Activated e t ∨ Quiet m t := by
  rcases step_cases hs h with ⟨c, kin, hc, hkin, hrun, hby⟩ | htrap
  · cases hby with
    | acted e act k' he hout hsync heff =>
      exact Or.inl ⟨c, kin, act, k', hc, hkin, he, heff,
        kernel_step hs hc hkin hrun he heff h, rfl⟩
    | delayed clockTicks hsync =>
      right
      unfold kernelDelay
      split
      · exact Quiet.same rfl rfl rfl
      · split
        · have hmodify : (m.kernel.modify m.kernel.procs.running
              fun p => { p with code := clockTicks }).body = m.kernel.body :=
            body_modify fun _ => ⟨rfl, rfl, rfl, rfl⟩
          exact Quiet.same hmodify rfl rfl
        · exact Quiet.same rfl rfl rfl
    | io e r hwaits hsync hcall =>
      right
      have hquiet : Quiet m r.1 := by
        rcases hcall.enters hwaits hsync with ⟨rfl, -⟩ | ⟨f, -, hran⟩
        · exact Quiet.same rfl rfl rfl
        · exact quiet_ran hc hran
      exact ⟨by rw [leaveIo_kernel]; exact hquiet.body, by rw [leaveIo_kernel]; exact hquiet.stored⟩
    | made s r hsync hinit =>
      right
      cases hinit with
      | pipeInit ptr => exact quiet_initObject hc fun _ _ => rfl
      | lockInit ptr => exact quiet_initObject hc fun _ _ => rfl
      | cvarInit ptr second => exact quiet_initObject hc fun _ _ => rfl
    | synced call => exact Or.inr (Quiet.same rfl rfl rfl)
    | back f r => exact Or.inr (Quiet.same rfl rfl rfl)
    | reclaimed id size =>
      have hkernel := (kernelReclaim_fewer (m := m) id size).1
      exact Or.inr (Quiet.same (congrArg Kernel.body hkernel) (congrArg Kernel.mem hkernel)
        (congrArg Kernel.misstored hkernel))
  · right
    cases htrap with
    | clock =>
      obtain ⟨hbody, hmem⟩ := body_checkDelay m.kernel
      exact Quiet.same hbody hmem (users_checkDelay m.kernel).2.2
    | receive => exact Quiet.same rfl rfl rfl
    | transmit => exact Quiet.same rfl rfl rfl

/-! ## What every run keeps -/

/-- **What a caller and the machine see to**: an answer goes to pages that
take it, a `Fork` that passes its check has its frames, and what is loaded
was linked. -/
structure Provided (m : Machine Node Addr) (e : Event Node Addr) : Prop where
  stores : m.StoresFit e
  forks : ∀ act, e = .call (.proc act) → ForkFits m.kernel (m.kernel.procs.running, act)
  linked : ∀ act, e = .call (.proc act) → act.Linked

/-- **What such events keep**: each page has a frame of its own. -/
structure Framed (m : Machine Node Addr) : Prop where
  sound : m.Sound
  checked : m.Checked
  misstored : m.kernel.misstored = []
  owned : m.kernel.Owned
  imaged : m.kernel.Imaged

omit [DecidableEq Node] [DecidableEq Addr] in
/-- What was seen to of the activation an event is. -/
theorem Provided.act {act : ProcAct Node Addr} (hfit : m.Provided e)
    (he : e = .call (.proc act) ∨ e = .resume ∧ act = .resume) :
    ForkFits m.kernel (m.kernel.procs.running, act) ∧ act.Linked := by
  rcases he with rfl | ⟨rfl, rfl⟩
  · exact ⟨hfit.forks act rfl, hfit.linked act rfl⟩
  · exact ⟨trivial, trivial⟩

/-- Idle stays idle. -/
theorem step_idleNode (hs : m.Sound) (he : e.InRange) (h : m.step e = some t) :
    t.kernel.procs.idleNode = m.kernel.procs.idleNode := by
  rcases step_kinds hs he h with ⟨c, kin, act, k', hc, hkin, hrun, he', hout, heff, rfl⟩ |
    ⟨ht, -⟩ | ⟨-, hkernel, -⟩
  · exact heff.idleNode (k := m.kernel.onStack c) hc
  · exact ht.trade.idleNode
  · rw [hkernel]

theorem framed_step (hf : m.Framed) (hfit : m.Provided e) (h : m.step e = some t) : t.Framed := by
  rcases inRange_or_refused hfit.stores h with he | rfl
  · have hmiss : t.kernel.misstored = [] :=
      (step_misstored hf.sound hf.checked hf.misstored h).mpr hfit.stores.fits
    obtain ⟨howned, himaged⟩ : t.kernel.Owned ∧ t.kernel.Imaged := by
      rcases step_kernel hf.sound h with ⟨c, kin, act, k', hc, -, he', -, hstep, rfl⟩ | hquiet
      · obtain ⟨hforks, hlinked⟩ := hfit.act he'
        exact ⟨owned_step hf.owned hf.imaged hlinked.inDomain hforks hstep,
          imaged_step hf.imaged hlinked.inDomain hstep⟩
      · refine ⟨hf.owned.of_body hquiet.body ?_,
          hf.imaged.of_body hquiet.body (step_idleNode hf.sound he h)⟩
        rcases hquiet.stored with ⟨hmem, -⟩ | ⟨c, addr, bytes, -, hmem, -⟩
        · rw [hmem]
        · rw [hmem, storeBytes_frames]
    exact ⟨(step_owes hf.sound he h).1, step_checked hf.sound hf.checked h, hmiss, howned, himaged⟩
  · exact hf

theorem start_framed (hb : start b = some m) (hlinked : b.env.Linked) (hfits : BootFits b) :
    m.Framed := by
  have hsound := (start_sound hb).1
  have hchecked := start_checked hb
  obtain ⟨k, hk, rfl⟩ := Option.map_eq_some_iff.mp hb
  have henv : ∀ li, b.env.info = some li → li.WellFormed :=
    fun li hli => (hlinked.info li hli).toWellFormed
  exact ⟨hsound, hchecked, kernelStart_misstored hk, kernelStart_owned henv hk hfits,
    kernelStart_imaged hk henv⟩

omit [Devices] [DecidableEq Node] [DecidableEq Addr] in
/-- What is quiet keeps the bytes of all frames that are not the running
process's. -/
theorem Quiet.sameOn (hquiet : Quiet m t) (howned : m.kernel.Owned)
    (hmiss : t.kernel.misstored = m.kernel.misstored) :
    SameOn (heldOutside m.kernel.pte (Slot.user m.kernel.procs.running)) m.kernel.mem
      t.kernel.mem := by
  rcases hquiet.stored with ⟨hmem, -⟩ | ⟨c, addr, bytes, hc, hmem, hadd⟩
  · rw [hmem]
    exact SameOn.refl _ _
  · have hall : unwritable c.userpt.pt addr bytes.length = [] :=
      List.append_right_eq_self.mp (hadd.symm.trans hmiss)
    rw [hmem]
    exact sameOn_storeBytes (howned.user hc).avoids (mappedTo_of_unwritable hall) le_rfl le_rfl

/-- **One event, to a process it is not by**: it lives on, and sees what it
saw. -/
theorem space_step (hf : m.Framed) (hfit : m.Provided e) (h : m.step e = some t)
    (halive : m.kernel.alive n = true) (hne : n ≠ m.kernel.procs.running) :
    t.kernel.alive n = true ∧ t.kernel.space n = m.kernel.space n := by
  obtain ⟨c₀, kin₀, hc₀, hkin₀⟩ := alive_iff.mp halive
  have hlives : c₀.kin.isSome := by
    rw [hkin₀]
    rfl
  rcases inRange_or_refused hfit.stores h with - | rfl
  · have hnone : t.kernel.misstored = [] :=
      (step_misstored hf.sound hf.checked hf.misstored h).mpr hfit.stores.fits
    have hmiss : t.kernel.misstored = m.kernel.misstored := hnone.trans hf.misstored.symm
    rcases step_kernel hf.sound h with ⟨c, kin, act, k', hc, hkin, he, heff, hstep, rfl⟩ | hquiet
    · obtain ⟨hforks, hlinked⟩ := hfit.act he
      obtain ⟨c₁, -, hc₁, -, hidle, -⟩ := step_effect hstep
      have hk : (m.kernel.onStack c).Kindred := hf.sound.kindred.congr rfl rfl rfl rfl
      have howned : (m.kernel.onStack c).Owned := hf.owned.of_eq rfl rfl
      obtain ⟨⟨d, b, s, hl⟩, -⟩ := hf.imaged _ c hc (by rw [hkin]; rfl) hidle
      have hfits : ActFits (m.kernel.onStack c) c act := by
        cases act with
        | fork child data pid => exact fun hyes => hforks c hc hyes
        | exec filename argvec env => exact hlinked
        | _ => trivial
      obtain ⟨c', hc', halive', -⟩ := heff.keepsUser hk hc hkin hc₀ hlives (Or.inl hne)
      obtain ⟨kin', hkin'⟩ := Option.isSome_iff_exists.mp halive'
      exact ⟨alive_iff.mpr ⟨c', kin', hc', hkin'⟩,
        heff.space_eq (k := m.kernel.onStack c) hk howned hc hkin hl hfits hmiss hc₀ hlives hne⟩
    · have hbody : m.kernel.body = t.kernel.body := hquiet.body.symm
      obtain ⟨c', hc', halive', -⟩ := body_forth hbody hc₀
      obtain ⟨kin', hkin'⟩ := Option.isSome_iff_exists.mp (halive'.trans hlives)
      refine ⟨alive_iff.mpr ⟨c', kin', hc', hkin'⟩, ?_⟩
      refine space_congr ?_ (fun a ha => mem_heldOutside hne ha) (hquiet.sameOn hf.owned hmiss)
      unfold Kernel.table
      rw [pte_of_body hquiet.body]
  · exact ⟨halive, rfl⟩

/-- The run of a process that waits for its turn. -/
theorem space_along (hf : m.Framed) (hfits : Run.Along step Provided m es)
    (haway : Run.Along step (fun s _ => s.kernel.procs.running ≠ n) m es)
    (halive : m.kernel.alive n = true) (hrun : Run.exec step m es = some u) :
    u.kernel.alive n = true ∧ u.kernel.space n = m.kernel.space n := by
  have hboth : Run.Along step (fun s e => s.Provided e ∧ s.kernel.procs.running ≠ n) m es :=
    Run.Along.and hfits haway
  have hall := Run.throughout_of_along (D := fun _ => True)
    (I := fun s => s.Framed ∧ s.kernel.alive n = true ∧ s.kernel.space n = m.kernel.space n)
    (fun s e t hs _ hok ht => by
      obtain ⟨halive', hspace⟩ := space_step hs.1 hok.1 ht hs.2.1 hok.2.symm
      exact ⟨framed_step hs.1 hok.1 ht, halive', hspace.trans hs.2.2⟩)
    (fun _ _ => trivial) ⟨hf, halive, rfl⟩ hboth
  exact (hall.final hrun).2

/-! ### Events that ask for little -/

omit [DecidableEq Node] [DecidableEq Addr] in
/-- The clock stores nothing. -/
theorem storesFit_clock : m.StoresFit .clock := by
  refine ⟨fun c tty buf len _ h => ?_, fun c tty f _ h => ?_, fun c a _ h => ?_⟩
  · cases h
  · cases h
  · cases h with
    | status e act kin ptr he => rcases he with he | ⟨he, -⟩ <;> cases he
    | tty e tty buf len h => cases h
    | pipe e id buf len pipe h => cases h

omit [DecidableEq Node] [DecidableEq Addr] in
/-- Nor does an activation outside a wait. -/
theorem storesFit_proc {act : ProcAct Node Addr} (hwait : ∀ ptr, act ≠ .wait ptr)
    (hresume : act ≠ .resume) : m.StoresFit (.call (.proc act)) := by
  refine ⟨fun c tty buf len _ h => ?_, fun c tty f _ h => ?_, fun c a _ h => ?_⟩
  · cases h
  · cases h
  · cases h with
    | status e act' kin ptr he hkin hptr =>
      rcases he with he | ⟨he, -⟩
      · cases he
        exact absurd hptr.1 (not_inWait hwait hresume ptr)
      · cases he
    | id s ptr hs => cases hs
    | tty e tty buf len h => cases h
    | pipe e id buf len pipe h => cases h

omit [DecidableEq Node] [DecidableEq Addr] in
/-- A `Fork` of a process that leaves its frames free. -/
theorem provided_fork {c : Proc Node Addr} {child : Node} {data : Addr} {pid : ℤ}
    (hc : m.kernel.curr = some c)
    (hleft : c.userpt.count + numKstackPages ≤ framesLeft m.kernel.mem.frames) :
    m.Provided (.call (.proc (.fork child data pid))) := by
  refine ⟨storesFit_proc nofun nofun, fun act he => ?_, fun act he => ?_⟩
  · cases he
    intro c' hc' _
    obtain rfl := Option.some.inj (hc.symm.trans hc')
    exact hleft
  · cases he
    trivial

omit [DecidableEq Node] [DecidableEq Addr] in
/-- What makes nobody, and neither waits nor loads. -/
theorem provided_proc {act : ProcAct Node Addr} (hwait : ∀ ptr, act ≠ .wait ptr)
    (hresume : act ≠ .resume) (hfork : ∀ child data pid, act ≠ .fork child data pid)
    (hlinked : act.Linked) : m.Provided (.call (.proc act)) := by
  refine ⟨storesFit_proc hwait hresume, fun act' he => ?_, fun act' he => ?_⟩
  · cases he
    cases act with
    | fork child data pid => exact absurd rfl (hfork child data pid)
    | _ => trivial
  · cases he
    exact hlinked

omit [DecidableEq Node] [DecidableEq Addr] in
theorem provided_store (addr : ℤ) (byte : Byte) :
    m.Provided (.call (.proc (.store addr byte))) := provided_proc nofun nofun nofun trivial

omit [DecidableEq Node] [DecidableEq Addr] in
theorem provided_exit (status : ℤ) : m.Provided (.call (.proc (.exit status))) :=
  provided_proc nofun nofun nofun trivial

omit [DecidableEq Node] [DecidableEq Addr] in
theorem provided_clock : m.Provided .clock := by
  refine ⟨storesFit_clock, fun act he => ?_, fun act he => ?_⟩
  · cases he
  · cases he

/-! ## Private memory -/

variable {m₀ : Machine Node Addr}

/-- What a run from boot has brought, and what is to come. -/
theorem framed_of_run (hb : start b = some m₀) (hlinked : b.env.Linked) (hboot : BootFits b)
    (hbefore : Run.exec step m₀ before = some m)
    (hfits : Run.Along step Provided m₀ (before ++ es)) :
    m.Framed ∧ Run.Along step Provided m es := by
  obtain ⟨hpast, hahead⟩ := (Run.along_append hbefore).mp hfits
  have hall := Run.throughout_of_along (D := fun _ => True)
    (fun s e t hs _ hok ht => framed_step hs hok ht) (fun _ _ => trivial)
    (start_framed hb hlinked hboot) hpast
  exact ⟨hall.final hbefore, hahead⟩

/-- **A process's memory is its own.** From any state a run reaches, whatever
the others do, a process keeps its memory, at every address, until it runs
itself. -/
theorem memory_private (hb : start b = some m₀) (hlinked : b.env.Linked) (hboot : BootFits b)
    (hbefore : Run.exec step m₀ before = some m) (hrun : Run.exec step m es = some u)
    (hfits : Run.Along step Provided m₀ (before ++ es)) (halive : m.kernel.alive n = true)
    (haway : Run.Along step (fun s _ => s.kernel.procs.running ≠ n) m es) :
    u.kernel.alive n = true ∧ u.kernel.space n = m.kernel.space n := by
  obtain ⟨hf, hahead⟩ := framed_of_run hb hlinked hboot hbefore hfits
  exact space_along hf hahead haway halive hrun

omit [Paging] [Devices] in
/-- Init keeps its first page when its child stores there. -/
theorem memory_private_init :
    let _ := yalnixPaging
    let _ := yalnixDevices
    ∃ m₀ m u : Machine ℕ ℕ, start (smallBoot 140) = some m₀ ∧
      Run.exec step m₀ [.call (.proc (.fork 2 2 2)), .clock] = some m ∧
      Run.exec step m [.call (.proc (.store 0x100000 7))] = some u ∧
      u.kernel.space 2 0x100000 = some 7 ∧
      u.kernel.alive 0 = true ∧ u.kernel.space 0 = m.kernel.space 0 := by
  let _ := yalnixPaging
  let _ := yalnixDevices
  have hruns : ((start (smallBoot 140)).bind fun m₀ : Machine ℕ ℕ =>
      (m₀.step (.call (.proc (.fork 2 2 2)))).bind fun m₁ => (m₁.step .clock).bind fun m =>
        (m.step (.call (.proc (.store 0x100000 7)))).bind fun u => m₀.kernel.curr.map fun c =>
          (decide (c.userpt.count + numKstackPages ≤ framesLeft m₀.kernel.mem.frames),
            m.kernel.procs.running, m.kernel.alive 0, u.kernel.space 2 0x100000)) =
      some (true, 2, true, some 7) := by
    decide +kernel
  obtain ⟨m₀, hm₀, hruns⟩ := Option.bind_eq_some_iff.mp hruns
  obtain ⟨m₁, hm₁, hruns⟩ := Option.bind_eq_some_iff.mp hruns
  obtain ⟨m, hm, hruns⟩ := Option.bind_eq_some_iff.mp hruns
  obtain ⟨u, hu, hruns⟩ := Option.bind_eq_some_iff.mp hruns
  obtain ⟨c, hc, heq⟩ := Option.map_eq_some_iff.mp hruns
  simp only [Prod.mk.injEq] at heq
  obtain ⟨hleft, hrun, halive, hstored⟩ := heq
  have hbefore : Run.exec step m₀ [.call (.proc (.fork 2 2 2)), .clock] = some m :=
    Run.exec_cons.mpr ⟨m₁, hm₁, Run.exec_cons.mpr ⟨m, hm, rfl⟩⟩
  have hafter : Run.exec step m [.call (.proc (.store 0x100000 7))] = some u :=
    Run.exec_singleton.trans hu
  have hfits : Run.Along step Provided m₀
      ([.call (.proc (.fork 2 2 2)), .clock] ++ [.call (.proc (.store 0x100000 7))]) :=
    (Run.along_cons hm₁).mpr ⟨provided_fork hc (of_decide_eq_true hleft), Run.along_of_forall (by
      simp [provided_clock, provided_store])⟩
  have haway : Run.Along step (fun s _ => s.kernel.procs.running ≠ 0) m
      [.call (.proc (.store 0x100000 7))] :=
    (Run.along_cons hu).mpr ⟨by rw [hrun]; decide, trivial⟩
  exact ⟨m₀, m, u, hm₀, hbefore, hafter, hstored,
    memory_private hm₀ onePage_linked bootFits_smallBoot hbefore hafter hfits halive haway⟩

/-- A `Fork` that passes its check. -/
theorem step_forked {c : Proc Node Addr} {child : Node} {data : Addr} {pid : ℤ}
    (hc : m.kernel.curr = some c) (hyes : noKernelMemory m.kernel (c.userpt.size + 3) = false)
    (h : m.step (.call (.proc (.fork child data pid))) = some t) :
    m.kernel.proc child = none ∧
      t = { m with kernel := forked (m.kernel.onStack c) c child data pid } := by
  obtain ⟨c', hc', -, -, hcall⟩ := step_call h
  obtain rfl := Option.some.inj (hc.symm.trans hc')
  obtain ⟨k', hk', rfl⟩ := Option.map_eq_some_iff.mp hcall
  obtain ⟨r, hr, rfl⟩ := Option.map_eq_some_iff.mp (act_awake hk').1
  rcases kernelFork_cases (k := m.kernel.onStack c) hc hr with ⟨hno, -⟩ | ⟨-, hfresh, -, rfl⟩
  · rw [show noKernelMemory (m.kernel.onStack c) (c.userpt.size + 3) = false from hyes] at hno
    cases hno
  · exact ⟨hfresh, rfl⟩

/-- **A child inherits its parent's memory.** After a `Fork` that goes
through, the parent has the memory it had, and the child has the same until
it runs, whatever its parent has done by then. -/
theorem memory_inherited {c : Proc Node Addr} {child : Node} {data : Addr} {pid : ℤ}
    (hb : start b = some m₀) (hlinked : b.env.Linked) (hboot : BootFits b)
    (hbefore : Run.exec step m₀ before = some m) (hc : m.kernel.curr = some c)
    (hyes : noKernelMemory m.kernel (c.userpt.size + 3) = false)
    (hfork : m.step (.call (.proc (.fork child data pid))) = some t)
    (hrun : Run.exec step t es = some u)
    (hfits : Run.Along step Provided m₀ (before ++ .call (.proc (.fork child data pid)) :: es))
    (haway : Run.Along step (fun s _ => s.kernel.procs.running ≠ child) t es) :
    t.kernel.space m.kernel.procs.running = m.kernel.space m.kernel.procs.running ∧
      u.kernel.alive child = true ∧
      u.kernel.space child = m.kernel.space m.kernel.procs.running := by
  obtain ⟨hf, hahead⟩ := framed_of_run hb hlinked hboot hbefore hfits
  obtain ⟨hok, hrest⟩ := (Run.along_cons hfork).mp hahead
  have hleft := hok.forks _ rfl c hc hyes
  obtain ⟨hfresh, rfl⟩ := step_forked hc hyes hfork
  have howned : (m.kernel.onStack c).Owned := hf.owned.of_eq rfl rfl
  have hchild : (forked (m.kernel.onStack c) c child data pid).space child =
      m.kernel.space m.kernel.procs.running :=
    space_forked (k := m.kernel.onStack c) howned hc hleft
  have hlives : (forked (m.kernel.onStack c) c child data pid).alive child = true :=
    alive_iff.mpr ⟨_, _, Function.update_self _ _ _, rfl⟩
  obtain ⟨halive, hspace⟩ := space_along (framed_step hf hok hfork) hrest haway hlives hrun
  exact ⟨space_forked_parent howned hc hfresh hleft, halive, hspace.trans hchild⟩

omit [Paging] [Devices] in
/-- Init forks, stores to its first page, and its child has what was there. -/
theorem memory_inherited_init :
    let _ := yalnixPaging
    let _ := yalnixDevices
    ∃ m t u : Machine ℕ ℕ, start (smallBoot 140) = some m ∧
      m.step (.call (.proc (.fork 2 2 2))) = some t ∧
      Run.exec step t [.call (.proc (.store 0x100000 7))] = some u ∧
      u.kernel.space 0 0x100000 = some 7 ∧
      t.kernel.space m.kernel.procs.running = m.kernel.space m.kernel.procs.running ∧
      u.kernel.alive 2 = true ∧
      u.kernel.space 2 = m.kernel.space m.kernel.procs.running := by
  let _ := yalnixPaging
  let _ := yalnixDevices
  have hruns : ((start (smallBoot 140)).bind fun m : Machine ℕ ℕ =>
      (m.step (.call (.proc (.fork 2 2 2)))).bind fun t =>
        (t.step (.call (.proc (.store 0x100000 7)))).bind fun u => m.kernel.curr.map fun c =>
          (decide (c.userpt.count + numKstackPages ≤ framesLeft m.kernel.mem.frames),
            noKernelMemory m.kernel (c.userpt.size + 3), t.kernel.procs.running,
            u.kernel.space 0 0x100000)) =
      some (true, false, 0, some 7) := by
    decide +kernel
  obtain ⟨m, hm, hruns⟩ := Option.bind_eq_some_iff.mp hruns
  obtain ⟨t, ht, hruns⟩ := Option.bind_eq_some_iff.mp hruns
  obtain ⟨u, hu, hruns⟩ := Option.bind_eq_some_iff.mp hruns
  obtain ⟨c, hc, heq⟩ := Option.map_eq_some_iff.mp hruns
  simp only [Prod.mk.injEq] at heq
  obtain ⟨hleft, hyes, hrun, hstored⟩ := heq
  have hafter : Run.exec step t [.call (.proc (.store 0x100000 7))] = some u :=
    Run.exec_singleton.trans hu
  have hfits : Run.Along step Provided m
      ([] ++ .call (.proc (.fork 2 2 2)) :: [.call (.proc (.store 0x100000 7))]) :=
    (Run.along_cons ht).mpr ⟨provided_fork hc (of_decide_eq_true hleft), Run.along_of_forall (by
      simp [provided_store])⟩
  have haway : Run.Along step (fun s _ => s.kernel.procs.running ≠ 2) t
      [.call (.proc (.store 0x100000 7))] :=
    (Run.along_cons hu).mpr ⟨by rw [hrun]; decide, trivial⟩
  have hbefore : Run.exec step m [] = some m := rfl
  exact ⟨m, t, u, hm, ht, hafter, hstored,
    memory_inherited hm onePage_linked bootFits_smallBoot hbefore hc hyes ht hafter hfits haway⟩

end Machine

end Yalnix
