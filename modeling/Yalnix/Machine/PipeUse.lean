import Yalnix.Machine.Lawful
import Yalnix.Pilocvario.Pipe.Usage
/-!
# Reclaiming a pipe

Over every run from `KernelStart`, whatever else the processes do, a pipe's
`unfulfilled` counts those who were woken inside `read_pipe` or `write_pipe`
and have not come back, so that a `Reclaim` of a pipe in use is refused and
nobody comes back to a pipe that is gone.
-/

namespace Yalnix

variable {Node Addr : Type} [Paging] [Devices] [DecidableEq Node] [DecidableEq Addr]

open Devices

/-- The call is one on the pipe. -/
def IoFrame.OnPipe (id : ℤ) : IoFrame → Prop
  | .pipeRead pipe _ _ => pipe = id
  | .pipeWrite pipe _ => pipe = id
  | .ttyRead _ _ _ => False
  | .ttyWrite _ _ => False

namespace Io

variable {io : Io Node} {id id' : ℤ} {pipe : Pipe Node}

omit [Paging] [Devices] [DecidableEq Node] [DecidableEq Addr] in
/-- Who is inside `read_pipe` or `write_pipe`, of the pipe. -/
def inPipe (io : Io Node) (id : ℤ) : Set Node := Calling (IoFrame.OnPipe id) io.frame

/-- The pipe filed under an id, or a new one. -/
def pipeAt (io : Io Node) (id : ℤ) : Pipe Node := (Filed.find io.pipe id).getD newPipe

/-- **Every pipe accounts for who is inside**, and one that is not there has
nobody. -/
def PipesCounted (io : Io Node) : Prop := ∀ id, (io.pipeAt id).Accounts (io.inPipe id)

omit [Paging] [DecidableEq Node] [DecidableEq Addr] in
theorem pipeAt_eq (h : Filed.find io.pipe id = some pipe) : io.pipeAt id = pipe := by
  unfold pipeAt
  rw [h]
  rfl

omit [Paging] [DecidableEq Node] [DecidableEq Addr] in
theorem pipesCounted_init : (Io.init : Io Node).PipesCounted := by
  intro id
  have hnobody : (Io.init : Io Node).inPipe id = ∅ := by
    ext p
    exact iff_of_false (not_calling_of_none rfl) (Set.notMem_empty p)
  rw [hnobody]
  exact accounts_newPipe

omit [Paging] [DecidableEq Node] [DecidableEq Addr] in
theorem PipesCounted.congr {io' : Io Node} (h : io.PipesCounted)
    (hpipe : ∀ id, io'.pipeAt id = io.pipeAt id) (hframe : ∀ id, io'.inPipe id = io.inPipe id) :
    io'.PipesCounted := by
  intro id
  rw [hpipe, hframe]
  exact h id

omit [Paging] [DecidableEq Addr] in
/-- **One pipe and its caller's frame.** -/
theorem PipesCounted.onPipe {io' : Io Node} (h : io.PipesCounted)
    (hfind : Filed.find io.pipe id = some pipe) {pipe' : Pipe Node} {p : Node}
    {f : Option IoFrame} (hpipe : io'.pipe = Filed.store io.pipe id pipe')
    (hframe : io'.frame = Function.update io.frame p f)
    (hself : pipe'.Accounts (Calling (IoFrame.OnPipe id) (Function.update io.frame p f)))
    (hother : ∀ id', id' ≠ id → p ∉ io.inPipe id' ∧ ∀ g, f = some g → ¬ g.OnPipe id') :
    io'.PipesCounted := by
  intro id'
  unfold pipeAt inPipe
  rw [hpipe, hframe]
  rcases eq_or_ne id' id with rfl | hne
  · rw [Filed.find_store_self hfind]
    exact hself
  · obtain ⟨hout, hf⟩ := hother id' hne
    rw [Filed.find_store_of_ne hne, calling_same hout hf]
    exact h id'

end Io

namespace Machine

variable {m t : Machine Node Addr} {e : Event Node Addr} {es : List (Event Node Addr)}
  {b : Boot Node Addr} {id : ℤ} {pipe pipe' : Pipe Node} {c : Proc Node Addr}

/-! ## What an event does to pipes -/

omit [Paging] [Devices] [DecidableEq Node] [DecidableEq Addr] in
/-- The function starts on the pipe as it is, or comes back to it and counts
itself off. -/
def Starts (m : Machine Node Addr) (f : IoFrame) (pipe pipe' : Pipe Node) : Prop :=
  (m.io.frame m.kernel.procs.running = none ∧ pipe' = pipe) ∨
    (m.io.frame m.kernel.procs.running = some f ∧
      pipe' = { pipe with unfulfilled := pipe.unfulfilled - 1 })

omit [DecidableEq Addr] in
/-- **What an event does to pipes.** -/
inductive OnPipes (m : Machine Node Addr) : Machine Node Addr → Prop
  | kept (t : Machine Node Addr) (hpipe : t.io.pipe = m.io.pipe)
      (hframe : ∀ id, t.io.inPipe id = m.io.inPipe id) : OnPipes m t
  | made (t : Machine Node Addr) (hpipe : t.io.pipe = m.io.pipe ++ [⟨m.count, newPipe⟩])
      (hframe : t.io.frame = m.io.frame) : OnPipes m t
  | read (pt : ℤ → Pte) (id buf len : ℤ) (pipe pipe' : Pipe Node)
      (hfind : Filed.find m.io.pipe id = some pipe)
      (hstarts : m.Starts (.pipeRead id buf len) pipe pipe') :
      OnPipes m (leaveIo m.kernel.procs.running (m.runPipeRead pt id pipe' buf len))
  | wrote (id : ℤ) (f : WriteFrame) (pipe pipe' : Pipe Node)
      (hfind : Filed.find m.io.pipe id = some pipe)
      (hstarts : m.Starts (.pipeWrite id f) pipe pipe') :
      OnPipes m (leaveIo m.kernel.procs.running (m.runPipeWrite id pipe' f))
  | reclaimed (id : ℤ) (size : ℤ → ℤ) : OnPipes m (m.kernelReclaim id size).1

omit [DecidableEq Addr] in
/-- A call that is refused, or on a terminal, is on no pipe before or
after. -/
theorem onPipes_other {r : Machine Node Addr × Outcome IoFrame}
    (hbefore : ∀ f, m.io.frame m.kernel.procs.running = some f → ∀ id, ¬ f.OnPipe id)
    (hpipe : r.1.io.pipe = m.io.pipe) (hframe : r.1.io.frame = m.io.frame)
    (hafter : ∀ f, r.2 = .blocked f → ∀ id, ¬ f.OnPipe id) :
    m.OnPipes (leaveIo m.kernel.procs.running r) := by
  have hout : ∀ id, m.kernel.procs.running ∉ m.io.inPipe id := by
    rintro id ⟨f, hf, hon⟩
    exact hbefore f hf id hon
  obtain ⟨t, out⟩ := r
  dsimp only at hpipe hframe hafter
  cases out with
  | blocked f =>
    refine OnPipes.kept _ hpipe fun id => ?_
    show Calling _ (Function.update t.io.frame _ (some f)) = _
    rw [hframe]
    refine calling_same (hout id) fun g hg => ?_
    rw [← Option.some.inj hg]
    exact hafter f rfl id
  | returned v =>
    refine OnPipes.kept _ hpipe fun id => ?_
    show Calling _ (Function.update t.io.frame _ none) = _
    rw [hframe]
    exact calling_same (hout id) fun g hg => by cases hg

omit [DecidableEq Addr] in
theorem onPipes_ttyRead {tty buf len : ℤ} {pt : ℤ → Pte}
    (hbefore : ∀ f, m.io.frame m.kernel.procs.running = some f → ∀ id, ¬ f.OnPipe id) :
    m.OnPipes (leaveIo m.kernel.procs.running (m.runTtyRead pt tty buf len)) := by
  refine onPipes_other hbefore rfl rfl fun f hf id => ?_
  obtain ⟨len', -, rfl⟩ := blocked_of_map hf
  exact not_false

omit [DecidableEq Addr] in
theorem onPipes_ttyWrite {tty : ℤ} {g : TtyFrame}
    (hbefore : ∀ f, m.io.frame m.kernel.procs.running = some f → ∀ id, ¬ f.OnPipe id) :
    m.OnPipes (leaveIo m.kernel.procs.running (m.runTtyWrite tty g)) := by
  refine onPipes_other hbefore rfl rfl fun f hf id => ?_
  obtain ⟨f', -, rfl⟩ := blocked_of_map hf
  exact not_false

omit [DecidableEq Addr] in
/-- **A call on a pipe or a terminal**, which is made from user mode. -/
theorem IoCall.onPipes {r : Machine Node Addr × Outcome IoFrame} (h : m.IoCall c e r)
    (huser : e = .resume ∨ m.io.frame m.kernel.procs.running = none) :
    m.OnPipes (leaveIo m.kernel.procs.running r) := by
  have hcall : ∀ {s : Syscall Node Addr}, e = .call s →
      m.io.frame m.kernel.procs.running = none :=
    fun he => huser.resolve_left (by rw [he]; simp)
  have hnone : m.io.frame m.kernel.procs.running = none →
      ∀ f, m.io.frame m.kernel.procs.running = some f → ∀ id, ¬ f.OnPipe id := by
    intro hframe f hf
    rw [hframe] at hf
    cases hf
  -- a process that comes back to a terminal was on no pipe either
  have hback : ∀ {f}, m.io.frame m.kernel.procs.running = some f → (∀ id, ¬ f.OnPipe id) →
      ∀ g, m.io.frame m.kernel.procs.running = some g → ∀ id, ¬ g.OnPipe id := by
    intro f hframe hf g hg
    obtain rfl := Option.some.inj (hframe.symm.trans hg)
    exact hf
  rcases h.cases with ⟨rfl, hne, -⟩ | ⟨f, hact⟩
  · exact onPipes_other (hnone (huser.resolve_left hne)) rfl rfl fun f hf => by cases hf
  cases hact with
  | ttyRead => exact onPipes_ttyRead (hnone (hcall rfl))
  | ttyWrite => exact onPipes_ttyWrite (hnone (hcall rfl))
  | pipeRead id buf len pipe hfind =>
    exact OnPipes.read _ id buf len pipe pipe hfind (Or.inl ⟨hcall rfl, rfl⟩)
  | pipeWrite id buf len total pipe hfind =>
    exact OnPipes.wrote id _ pipe pipe hfind (Or.inl ⟨hcall rfl, rfl⟩)
  | ttyReadBack tty buf len hf => exact onPipes_ttyRead (hback hf fun _ => not_false)
  | ttyWriteBack tty f hf => exact onPipes_ttyWrite (hback hf fun _ => not_false)
  | pipeReadBack id buf len pipe hfind hf =>
    exact OnPipes.read _ id buf len pipe _ hfind (Or.inr ⟨hf, rfl⟩)
  | pipeWriteBack id f pipe hfind hf =>
    exact OnPipes.wrote id f pipe _ hfind (Or.inr ⟨hf, rfl⟩)

theorem onPipes (hs : m.Sound) (hstep : m.step e = some t) : m.OnPipes t := by
  have hframe : e = .resume ∨ m.io.frame m.kernel.procs.running = none :=
    (step_inUser hstep).imp_right fun huser => (inUser_iff.mp huser).2.2
  rcases step_cases hs hstep with ⟨c, kin, hc, hkin, hrun, hby⟩ | htrap
  · cases hby with
    | acted e act k' => exact OnPipes.kept _ rfl fun _ => rfl
    | delayed clockTicks =>
      have hio := (kernelDelay_objects (m := m) clockTicks).1
      exact OnPipes.kept _ (by rw [hio]) fun _ => by rw [hio]
    | io e r hwaits hsync hcall => exact hcall.onPipes hframe
    | made s r hsync hinit =>
      have hmade := hinit.made
      have hkept : r.1.io.pipe = m.io.pipe → m.OnPipes r.1 := by
        refine fun hpipe => OnPipes.kept _ hpipe fun id => ?_
        unfold Io.inPipe
        rw [hmade.frame]
      rcases hmade.filed with ⟨-, -, hpipe⟩ | ⟨-, ⟨-, hpipe⟩ | ⟨hpipe, -⟩⟩
      · exact hkept hpipe
      · exact OnPipes.made _ hpipe hmade.frame
      · exact hkept hpipe
    | synced call => exact OnPipes.kept _ rfl fun _ => rfl
    | back f r => exact OnPipes.kept _ rfl fun _ => rfl
    | reclaimed id size => exact OnPipes.reclaimed id size
  · cases htrap with
    | clock => exact OnPipes.kept _ rfl fun _ => rfl
    | receive => exact OnPipes.kept _ rfl fun _ => rfl
    | transmit => exact OnPipes.kept _ rfl fun _ => rfl

/-! ## The counter, event by event -/

omit [Paging] [DecidableEq Addr] in
/-- Who is running is on no queue of a pipe. -/
theorem Sound.running_not_asleep (hs : m.Sound) (hfind : Filed.find m.io.pipe id = some pipe) :
    m.kernel.procs.running ∉ pipe.readblocked ∧ m.kernel.procs.running ∉ pipe.writeblocked := by
  have hheld := hs.running_not_held
  have hle := Filed.le_total_of_find (f := fun p : Pipe Node => p.held m.kernel.procs.running) hfind
  unfold Machine.held Io.held at hheld
  have hnone : pipe.held m.kernel.procs.running = 0 := by omega
  unfold Pipe.held at hnone
  rw [← List.count_eq_zero, ← List.count_eq_zero]
  omega

omit [Paging] [DecidableEq Addr] in
/-- **The pipe as the function finds it**, with its caller not yet inside. -/
theorem Starts.accounts {f : IoFrame} (h : m.Starts f pipe pipe') (hf : f.OnPipe id)
    (hacc : pipe.Accounts (m.io.inPipe id)) (hs : m.Sound)
    (hfind : Filed.find m.io.pipe id = some pipe) :
    pipe'.Accounts (m.io.inPipe id \ {m.kernel.procs.running}) := by
  rcases h with ⟨hnone, rfl⟩ | ⟨hframe, rfl⟩
  · have hout : m.kernel.procs.running ∉ m.io.inPipe id := not_calling_of_none hnone
    rwa [Set.sdiff_singleton_eq_self hout]
  · obtain ⟨hread, hwrite⟩ := hs.running_not_asleep hfind
    exact hacc.back ((calling_of_some hframe).mpr hf) hread hwrite

omit [Paging] [Devices] [DecidableEq Node] [DecidableEq Addr] in
theorem IoFrame.OnPipe.unique {f : IoFrame} {id' : ℤ} (h : f.OnPipe id) (h' : f.OnPipe id') :
    id' = id := by
  cases f with
  | pipeRead pipe buf len => exact h'.symm.trans h
  | pipeWrite pipe f => exact h'.symm.trans h
  | ttyRead => exact h.elim
  | ttyWrite => exact h.elim

omit [Paging] [Devices] [DecidableEq Node] [DecidableEq Addr] in
/-- Its caller is inside no other pipe. -/
theorem Starts.not_inPipe {f : IoFrame} (h : m.Starts f pipe pipe') (hf : f.OnPipe id) {id' : ℤ}
    (hne : id' ≠ id) : m.kernel.procs.running ∉ m.io.inPipe id' := by
  rcases h with ⟨hnone, -⟩ | ⟨hframe, -⟩
  · exact not_calling_of_none hnone
  · intro hin
    exact hne (IoFrame.OnPipe.unique hf ((calling_of_some hframe).mp hin))

omit [Paging] [DecidableEq Addr] in
/-- **The function leaves**, asleep inside or with its result. -/
theorem Starts.counted {f : IoFrame} {r : Machine Node Addr × Outcome IoFrame} {pipe'' : Pipe Node}
    (hstarts : m.Starts f pipe pipe') (hf : f.OnPipe id) (h : m.io.PipesCounted)
    (hfind : Filed.find m.io.pipe id = some pipe)
    (hpipe : r.1.io.pipe = Filed.store m.io.pipe id pipe'') (hframe : r.1.io.frame = m.io.frame)
    (hout : (∃ g, r.2 = .blocked g ∧ g.OnPipe id ∧ pipe''.Accounts
        (insert m.kernel.procs.running (m.io.inPipe id \ {m.kernel.procs.running}))) ∨
      ∃ v, r.2 = .returned v ∧ pipe''.Accounts (m.io.inPipe id \ {m.kernel.procs.running})) :
    (leaveIo m.kernel.procs.running r).io.PipesCounted := by
  have hother : ∀ id', id' ≠ id → m.kernel.procs.running ∉ m.io.inPipe id' :=
    fun id' hne => hstarts.not_inPipe hf hne
  obtain ⟨t, out⟩ := r
  dsimp only at hpipe hframe hout
  rcases hout with ⟨g, rfl, hg, hacc⟩ | ⟨v, rfl, hacc⟩
  · refine h.onPipe hfind hpipe (show _ = Function.update m.io.frame _ (some g) from ?_) ?_
      fun id' hne => ⟨hother id' hne, fun g' hg' hon => ?_⟩
    · rw [← hframe]
      rfl
    · rw [calling_insert hg]
      rwa [Set.insert_sdiff_singleton] at hacc
    · rw [← Option.some.inj hg'] at hon
      exact hne (IoFrame.OnPipe.unique hg hon)
  · refine h.onPipe hfind hpipe (show _ = Function.update m.io.frame _ none from ?_) ?_
      fun id' hne => ⟨hother id' hne, fun g hg => by cases hg⟩
    · rw [← hframe]
      rfl
    · rw [calling_erase fun g hg => by cases hg]
      exact hacc

omit [DecidableEq Addr] in
theorem counted_read (hs : m.Sound) (h : m.io.PipesCounted) (pt : ℤ → Pte) {buf len : ℤ}
    (hfind : Filed.find m.io.pipe id = some pipe)
    (hstarts : m.Starts (.pipeRead id buf len) pipe pipe') :
    (leaveIo m.kernel.procs.running (m.runPipeRead pt id pipe' buf len)).io.PipesCounted := by
  have hon : ∀ len', IoFrame.OnPipe id (.pipeRead id buf len') := fun _ => rfl
  have hacc := h id
  rw [Io.pipeAt_eq hfind] at hacc
  have hstart := hstarts.accounts (hon len) hacc hs hfind
  refine hstarts.counted (hon len) h hfind (rfl : _ = Filed.store m.io.pipe id _) rfl ?_
  rcases hstart.readPipe (fun hin => hin.2 rfl) len with ⟨len', heq, hafter⟩ | ⟨v, heq, hafter⟩
  · exact Or.inl ⟨_, congrArg (Outcome.map (IoFrame.pipeRead id buf)) heq, hon len', hafter⟩
  · exact Or.inr ⟨v, congrArg (Outcome.map (IoFrame.pipeRead id buf)) heq, hafter⟩

omit [Paging] [DecidableEq Addr] in
theorem counted_write (hs : m.Sound) (h : m.io.PipesCounted) {f : WriteFrame}
    (hfind : Filed.find m.io.pipe id = some pipe)
    (hstarts : m.Starts (.pipeWrite id f) pipe pipe') :
    (leaveIo m.kernel.procs.running (m.runPipeWrite id pipe' f)).io.PipesCounted := by
  have hon : ∀ f', IoFrame.OnPipe id (.pipeWrite id f') := fun _ => rfl
  have hacc := h id
  rw [Io.pipeAt_eq hfind] at hacc
  have hstart := hstarts.accounts (hon f) hacc hs hfind
  refine hstarts.counted (hon f) h hfind (rfl : _ = Filed.store m.io.pipe id _) rfl ?_
  rcases hstart.writePipe (fun hin => hin.2 rfl) f with ⟨f', heq, hafter⟩ | ⟨v, heq, hafter⟩
  · exact Or.inl ⟨_, congrArg (Outcome.map (IoFrame.pipeWrite id)) heq, hon f', hafter⟩
  · exact Or.inr ⟨v, congrArg (Outcome.map (IoFrame.pipeWrite id)) heq, hafter⟩

omit [Paging] [DecidableEq Node] [DecidableEq Addr] in
/-- A pipe is destroyed, which nobody was counted on. -/
theorem counted_reclaim (hn : m.Numbered) (h : m.io.PipesCounted) (id : ℤ) (size : ℤ → ℤ) :
    (m.kernelReclaim id size).1.io.PipesCounted := by
  unfold kernelReclaim
  cases hfind : Filed.find m.io.pipe id with
  | some pipe =>
    dsimp only
    unfold destroyPipe
    split
    · exact h
    · rename_i hguard
      push Not at hguard
      obtain ⟨hread, hwrite, hunfulfilled⟩ := hguard
      intro id'
      have hacc := h id'
      unfold Io.pipeAt
      dsimp only
      rw [Filed.getD_find_remove hn.pipe_nodup]
      split
      · rename_i heq
        subst heq
        rw [Io.pipeAt_eq hfind] at hacc
        show newPipe.Accounts (m.io.inPipe id')
        rw [hacc.eq_empty hread hwrite hunfulfilled]
        exact accounts_newPipe
      · exact hacc
  | none =>
    cases Filed.find m.sync.cvar id with
    | some cvar => exact h
    | none =>
      cases Filed.find m.sync.lock id with
      | some lock => exact h
      | none => exact h

omit [DecidableEq Addr] in
/-- **The counters after an event.** -/
theorem OnPipes.counted (hon : m.OnPipes t) (hs : m.Sound) (hn : m.Numbered)
    (h : m.io.PipesCounted) : t.io.PipesCounted := by
  cases hon with
  | kept _ hpipe hframe =>
    refine h.congr (fun id => ?_) hframe
    unfold Io.pipeAt
    rw [hpipe]
  | made _ hpipe hframe =>
    refine h.congr (fun id => ?_) fun id => ?_
    · unfold Io.pipeAt
      rw [hpipe, Filed.getD_find_append]
    · unfold Io.inPipe
      rw [hframe]
  | read pt id buf len pipe pipe' hfind hstarts => exact counted_read hs h pt hfind hstarts
  | wrote id f pipe pipe' hfind hstarts => exact counted_write hs h hfind hstarts
  | reclaimed id size => exact counted_reclaim hn h id size

/-- **They are right throughout** every run. -/
theorem throughout_pipesCounted (hb : start b = some m) (hes : ∀ e ∈ es, e.InRange) :
    Run.Throughout step (fun m => m.Lawful ∧ m.io.PipesCounted) m es := by
  refine Run.throughout_of_step (fun _ e he t hs ht => ?_) ⟨start_lawful hb, ?_⟩
  · have hlawful := step_lawful hs.1 (hes e he) ht
    exact ⟨hlawful, (onPipes hs.1.sound ht).counted hs.1.sound hs.1.numbered hs.2⟩
  · obtain ⟨k, hk, rfl⟩ := Option.map_eq_some_iff.mp hb
    exact Io.pipesCounted_init

/-! ## What a reclaim of a pipe does -/

/-- **Pipes in use are not freed.** Each pipe's counter is the processes it
is to count; where `destroy_pipe` or a `Reclaim` of the pipe succeeds, nobody
is inside it; and whoever is inside one finds it there to come back to. -/
structure PipesSafe (m : Machine Node Addr) : Prop where
  counted : ∀ id pipe, Filed.find m.io.pipe id = some pipe → Counts pipe.unfulfilled
    {p | p ∈ m.io.inPipe id ∧ p ∉ pipe.readblocked ∧ p ∉ pipe.writeblocked}
  destroyed : ∀ id pipe, Filed.find m.io.pipe id = some pipe →
    (m.destroyPipe id pipe).2 = 0 → m.io.inPipe id = ∅
  reclaimed : ∀ id pipe size, Filed.find m.io.pipe id = some pipe →
    (m.kernelReclaim id size).2 = 0 → m.io.inPipe id = ∅
  filed : ∀ id, ∀ p ∈ m.io.inPipe id, ∃ pipe, Filed.find m.io.pipe id = some pipe

omit [Paging] [DecidableEq Node] [DecidableEq Addr] in
theorem pipesSafe (h : m.io.PipesCounted) : m.PipesSafe := by
  have hacc : ∀ id pipe, Filed.find m.io.pipe id = some pipe →
      pipe.Accounts (m.io.inPipe id) := by
    intro id pipe hfind
    have hid := h id
    rwa [Io.pipeAt_eq hfind] at hid
  have hdestroyed : ∀ id pipe, Filed.find m.io.pipe id = some pipe →
      (m.destroyPipe id pipe).2 = 0 → m.io.inPipe id = ∅ := by
    intro id pipe hfind hzero
    unfold destroyPipe at hzero
    split at hzero
    · exact absurd hzero errorCode_ne_zero
    · rename_i hguard
      push Not at hguard
      exact (hacc id pipe hfind).eq_empty hguard.1 hguard.2.1 hguard.2.2
  refine ⟨fun id pipe hfind => (hacc id pipe hfind).counts, hdestroyed,
    fun id pipe size hfind hzero => hdestroyed id pipe hfind ?_, fun id p hp => ?_⟩
  · unfold kernelReclaim at hzero
    rwa [hfind] at hzero
  · cases hfind : Filed.find m.io.pipe id with
    | some pipe => exact ⟨pipe, rfl⟩
    | none =>
      -- a pipe that is not there counts nobody
      have hid := h id
      unfold Io.pipeAt at hid
      rw [hfind] at hid
      have hempty : m.io.inPipe id = ∅ := hid.eq_empty rfl rfl le_rfl
      rw [hempty] at hp
      exact absurd hp (Set.notMem_empty p)

/-- **Reclaim never frees a pipe in use**, in any run. -/
theorem pipes_safe (hb : start b = some m) (hes : ∀ e ∈ es, e.InRange) :
    Run.Throughout step PipesSafe m es :=
  (throughout_pipesCounted hb hes).mono fun _ hs => pipesSafe hs.2

omit [Paging] [Devices] in
/-- Init's child sleeps in a read while init reclaims the pipe, before and
after its write; then the child comes back and reclaims it. -/
theorem pipes_safe_read :
    let _ := yalnixPaging
    let _ := yalnixDevices
    let es : List (Event ℕ ℕ) := [.call (.pipeInit 0x1ff000), .call (.proc (.fork 2 2 2)), .clock,
      .call (.pipeRead 0 0x1ff000 4), .call (.reclaim 0 fun _ => 7),
      .call (.pipeWrite 0 0x1ff000 4 0), .call (.reclaim 0 fun _ => 7), .clock, .resume,
      .call (.reclaim 0 fun _ => 7)]
    ∃ m u : Machine ℕ ℕ, start (smallBoot 140) = some m ∧ Run.exec step m es = some u ∧
      Run.Throughout step PipesSafe m es := by
  let _ := yalnixPaging
  let _ := yalnixDevices
  intro _ _ es
  obtain ⟨m, u, hm, hrun⟩ : ∃ m u, start (smallBoot 140) = some m ∧ Run.exec step m es = some u :=
    Run.exists_exec (by decide +kernel)
  exact ⟨m, u, hm, hrun, pipes_safe hm (by simp [es, Event.InRange])⟩

end Machine

end Yalnix
