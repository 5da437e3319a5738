import Yalnix.Machine.PipeUse
import Yalnix.Machine.Projection
import Yalnix.Pilocvario.Pipe.Stream
/-!
# Every pipe of a run is a run of the pipe machine

`Pilocvario/Pipe` has one pipe and the processes that use it, in any order.
Here that machine is found in every run of the whole kernel, once for each
id: what is left of a run when everything but the activations of
`read_pipe` and `write_pipe` on that id is taken out is a run of it. What
holds of the one pipe in every run holds of each of them.
-/

namespace Yalnix

variable {Node Addr : Type}

/-- The call in progress on a pipe, as the machine of that pipe has it. -/
def IoFrame.pipeCall (id : ℤ) : IoFrame → Option PipeCall
  | .pipeRead pipe _ len => if pipe = id then some (.read len) else none
  | .pipeWrite pipe f => if pipe = id then some (.write f) else none
  | .ttyRead _ _ _ => none
  | .ttyWrite _ _ => none

/-- **The lengths the pipe calls are documented for.** -/
def Event.PipeLens : Event Node Addr → Prop
  | .call (.pipeRead _ _ len) => 0 < len
  | .call (.pipeWrite _ _ len _) => 0 ≤ len
  | _ => True

namespace PipeState

variable [DecidableEq Node] {s : PipeState Node} {procs : ProcTable Node} {p : Node}

/-- Whatever the scheduler has ready, a read does the same to the pipe. -/
theorem runRead_eq (hrun : procs.running = p) (pipe : Pipe Node) (len : ℤ) :
    (s.runRead p pipe len).pipe = (readPipe procs pipe len).2.1 ∧
      (s.runRead p pipe len).call =
        Function.update s.call p ((readPipe procs pipe len).2.2.2.left.map PipeCall.read) := by
  by_cases hzero : min pipe.buffer.filled len = 0
  · rw [runRead_blocked hzero, readPipe_blocked hzero, hrun]
    exact ⟨rfl, rfl⟩
  · rw [runRead_returned hzero, readPipe_returned hzero]
    exact ⟨rfl, rfl⟩

/-- Likewise a write. -/
theorem runWrite_eq (hrun : procs.running = p) (pipe : Pipe Node) (f : WriteFrame) :
    (s.runWrite p pipe f).pipe = (writePipe procs pipe f).2.1 ∧
      (s.runWrite p pipe f).call =
        Function.update s.call p ((writePipe procs pipe f).2.2.left.map PipeCall.write) := by
  by_cases hfull : min pipe.buffer.room f.len < f.lenLeft
  · rw [runWrite_blocked hfull, writePipe_blocked hfull, hrun]
    exact ⟨rfl, rfl⟩
  · rw [runWrite_returned (not_lt.mp hfull), writePipe_returned (not_lt.mp hfull)]
    exact ⟨rfl, rfl⟩

/-- What a step adds to the bytes handed out, and to those appended. -/
structure Gains (s t : PipeState Node) (given taken : List Byte) : Prop where
  delivered : t.delivered = s.delivered ++ given
  stream : t.stream = s.stream ++ taken

omit [DecidableEq Node] in
theorem Gains.refl (s : PipeState Node) : s.Gains s [] [] :=
  ⟨(List.append_nil _).symm, (List.append_nil _).symm⟩

theorem gains_runRead (s : PipeState Node) (p : Node) (pipe : Pipe Node) (len : ℤ) :
    s.Gains (s.runRead p pipe len) (readBuffer pipe.buffer len).2.1 [] := by
  by_cases hzero : min pipe.buffer.filled len = 0
  · rw [runRead_blocked hzero]
    have hnil : (readBuffer pipe.buffer len).2.1 = [] := by
      apply List.eq_nil_of_length_eq_zero
      rw [Buffer.length_readBuffer, hzero]
      rfl
    rw [hnil]
    exact ⟨(List.append_nil _).symm, (List.append_nil _).symm⟩
  · rw [runRead_returned hzero]
    exact ⟨rfl, (List.append_nil _).symm⟩

theorem gains_runWrite (s : PipeState Node) (p : Node) (pipe : Pipe Node) (f : WriteFrame) :
    s.Gains (s.runWrite p pipe f) [] (chunk pipe f) := by
  by_cases hfull : min pipe.buffer.room f.len < f.lenLeft
  · rw [runWrite_blocked hfull]
    exact ⟨(List.append_nil _).symm, rfl⟩
  · rw [runWrite_returned (not_lt.mp hfull)]
    exact ⟨(List.append_nil _).symm, rfl⟩

end PipeState

namespace Machine

variable [Paging] [Devices] [DecidableEq Node]

variable {m t u : Machine Node Addr} {s : PipeState Node} {id : ℤ} {c : Proc Node Addr}
  {e : Event Node Addr} {f : IoFrame} {r : Machine Node Addr × Outcome IoFrame}

omit [DecidableEq Node] in
/-- **What an event is to the pipe filed under `id`**: the activation of a
call on it, made or come back to. -/
def pipeActs (id : ℤ) (m : Machine Node Addr) (e : Event Node Addr) : List (Node × PipeAct) :=
  match m.entered e with
  | some (.pipeRead pipe _ len) =>
    if pipe = id then [(m.kernel.procs.running, if e.isResume then .resume else .read len)]
    else []
  | some (.pipeWrite pipe f) =>
    if pipe = id then
      [(m.kernel.procs.running, if e.isResume then .resume else .write f.mem f.len f.total)]
    else []
  | _ => []

omit [DecidableEq Node] in
/-- The bytes a read of the pipe stores at its caller's. -/
def pipeGiven (id : ℤ) (m : Machine Node Addr) (e : Event Node Addr) : List Byte :=
  match m.entered e, Filed.find m.io.pipe id with
  | some (.pipeRead pipe _ len), some found =>
    if pipe = id then (readBuffer found.buffer len).2.1 else []
  | _, _ => []

omit [DecidableEq Node] in
/-- The bytes a write appends to it. -/
def pipeTaken (id : ℤ) (m : Machine Node Addr) (e : Event Node Addr) : List Byte :=
  match m.entered e, Filed.find m.io.pipe id with
  | some (.pipeWrite pipe f), some found =>
    if pipe = id then bytesAt f.bytes (min found.buffer.room f.len).toNat else []
  | _, _ => []

omit [Paging] [DecidableEq Node] in
/-- **The machine has the pipe as `s` has it**: the pipe on file, where it
has been made and not reclaimed, and every call in progress on it. -/
structure AsPipe (m : Machine Node Addr) (id : ℤ) (s : PipeState Node) : Prop where
  live : ∀ pipe, Filed.find m.io.pipe id = some pipe → pipe = s.pipe
  unborn : m.count ≤ id → s.pipe = newPipe
  call : ∀ p, s.call p = (m.io.frame p).bind (IoFrame.pipeCall id)

omit [Paging] [DecidableEq Node] in
/-- **Nothing happens to the pipe** when others are made or reclaimed. -/
theorem AsPipe.refiled (hr : m.AsPipe id s) (hn : m.Numbered) (h : m.Refiles t)
    (hframe : t.io.frame = m.io.frame) : t.AsPipe id s := by
  have hcall : ∀ p, s.call p = (t.io.frame p).bind (IoFrame.pipeCall id) := by
    rw [hframe]
    exact hr.call
  cases h with
  | same hpipe hcount =>
    refine ⟨?_, fun hle => hr.unborn (hcount.trans hle), hcall⟩
    rw [hpipe]
    exact hr.live
  | made hpipe hcount =>
    refine ⟨fun pipe hfind => ?_, fun hle => hr.unborn (by omega), hcall⟩
    rw [hpipe] at hfind
    rcases eq_or_ne id m.count with rfl | hne
    · have hnew : m.count ∉ m.io.pipe.map Filed.code := by
        intro hin
        have hcodes : m.count ∈ m.codes :=
          List.mem_append_left _ (List.mem_append_left _ hin)
        exact absurd (hn.below _ hcodes) (lt_irrefl _)
      rw [Filed.find_append_self hnew] at hfind
      rw [hr.unborn le_rfl]
      exact (Option.some.inj hfind).symm
    · rw [Filed.find_append_of_ne hne] at hfind
      exact hr.live pipe hfind
  | removed id' hpipe hcount =>
    refine ⟨fun pipe hfind => ?_, fun hle => hr.unborn (hcount ▸ hle), hcall⟩
    rw [hpipe] at hfind
    rcases eq_or_ne id id' with rfl | hne
    · rw [Filed.find_remove_self hn.pipe_nodup] at hfind
      cases hfind
    · rw [Filed.find_remove_of_ne hne] at hfind
      exact hr.live pipe hfind

omit [Paging] in
/-- **A call leaves**, and the pipe and its own frame are as the other
machine has them. -/
theorem AsPipe.leaves {s' : PipeState Node} (hr : m.AsPipe id s)
    (hframe : r.1.io.frame = m.io.frame)
    (hlive : ∀ pipe, Filed.find r.1.io.pipe id = some pipe → pipe = s'.pipe)
    (hunborn : r.1.count ≤ id → s'.pipe = newPipe)
    (hcall : s'.call = Function.update s.call m.kernel.procs.running
      (r.2.left.bind (IoFrame.pipeCall id))) :
    (leaveIo m.kernel.procs.running r).AsPipe id s' := by
  refine ⟨?_, ?_, calls_leaveIo hr.call hframe hcall⟩
  · rw [leaveIo_pipe]
    exact hlive
  · rw [leaveIo_count]
    exact hunborn

omit [Paging] in
/-- **A call on something else** leaves this pipe alone. -/
theorem AsPipe.elsewhere (hr : m.AsPipe id s) (hframe : r.1.io.frame = m.io.frame)
    (hcount : r.1.count = m.count)
    (hfind : Filed.find r.1.io.pipe id = Filed.find m.io.pipe id)
    (hbefore : ∀ g, m.io.frame m.kernel.procs.running = some g → g.pipeCall id = none)
    (hafter : ∀ g, r.2 = .blocked g → g.pipeCall id = none) :
    (leaveIo m.kernel.procs.running r).AsPipe id s := by
  refine hr.leaves hframe ?_ ?_ (calls_unseen hr.call hbefore hafter)
  · rw [hfind]
    exact hr.live
  · rw [hcount]
    exact hr.unborn

omit [Paging] in
/-- **A function runs on this pipe**, and leaves it as the other machine
does. -/
theorem AsPipe.stores {s' : PipeState Node} {pipe : Pipe Node} (hr : m.AsPipe id s)
    (hn : m.Numbered) (hfind : Filed.find m.io.pipe id = some pipe)
    (hstore : r.1.io.pipe = Filed.store m.io.pipe id s'.pipe)
    (hframe : r.1.io.frame = m.io.frame) (hcount : r.1.count = m.count)
    (hcall : s'.call = Function.update s.call m.kernel.procs.running
      (r.2.left.bind (IoFrame.pipeCall id))) :
    (leaveIo m.kernel.procs.running r).AsPipe id s' := by
  refine hr.leaves hframe (fun found hfound => ?_) (fun hle => ?_) hcall
  · rw [hstore, Filed.find_store_self hfind] at hfound
    exact (Option.some.inj hfound).symm
  · -- an id on file was given out
    have hcodes : id ∈ m.io.pipe.map Filed.code :=
      Filed.isSome_find.mp (Option.isSome_iff_exists.mpr ⟨pipe, hfind⟩)
    have := hn.below id (List.mem_append_left _ (List.mem_append_left _ hcodes))
    omega

section OnPipe

variable {pipe pipe' : Pipe Node} {act : PipeAct} (hr : m.AsPipe id s) (hs : m.Sound)
  (hn : m.Numbered) (hfind : Filed.find m.io.pipe id = some pipe)

include hr hs hn hfind

/-- **`read_pipe` runs** on this pipe, and the other machine takes a
step. -/
theorem AsPipe.reads {pt : ℤ → Pte} {buf len : ℤ}
    (hactive : s.active m.kernel.procs.running act = some (pipe', .read len)) :
    ∃ s', s.step (m.kernel.procs.running, act) = some s' ∧
      (leaveIo m.kernel.procs.running (m.runPipeRead pt id pipe' buf len)).AsPipe id s' ∧
      s.Gains s' (readBuffer pipe'.buffer len).2.1 [] := by
  obtain ⟨hread, hwrite⟩ := hs.running_not_asleep hfind
  rw [hr.live pipe hfind] at hread hwrite
  obtain ⟨hpipe, hcall⟩ :=
    PipeState.runRead_eq (s := s) (rfl : m.kernel.procs.running = _) pipe' len
  refine ⟨s.runRead m.kernel.procs.running pipe' len, ?_, hr.stores hn hfind ?_ rfl rfl ?_,
    PipeState.gains_runRead s _ pipe' len⟩
  · unfold PipeState.step
    dsimp only
    rw [if_neg (not_or.mpr ⟨hread, hwrite⟩), hactive]
  · rw [hpipe]
    rfl
  · rw [hcall]
    congr 1
    show _ = (((readPipe m.kernel.procs pipe' len).2.2.2.map
      fun len => IoFrame.pipeRead id buf len).left).bind (IoFrame.pipeCall id)
    rw [Outcome.left_map]
    cases (readPipe m.kernel.procs pipe' len).2.2.2.left with
    | none => rfl
    | some len' => exact (if_pos rfl).symm

omit [Paging] in
/-- **`write_pipe` runs** on it. -/
theorem AsPipe.writes {f : WriteFrame}
    (hactive : s.active m.kernel.procs.running act = some (pipe', .write f)) :
    ∃ s', s.step (m.kernel.procs.running, act) = some s' ∧
      (leaveIo m.kernel.procs.running (m.runPipeWrite id pipe' f)).AsPipe id s' ∧
      s.Gains s' [] (PipeState.chunk pipe' f) := by
  obtain ⟨hread, hwrite⟩ := hs.running_not_asleep hfind
  rw [hr.live pipe hfind] at hread hwrite
  obtain ⟨hpipe, hcall⟩ :=
    PipeState.runWrite_eq (s := s) (rfl : m.kernel.procs.running = _) pipe' f
  refine ⟨s.runWrite m.kernel.procs.running pipe' f, ?_, hr.stores hn hfind ?_ rfl rfl ?_,
    PipeState.gains_runWrite s _ pipe' f⟩
  · unfold PipeState.step
    dsimp only
    rw [if_neg (not_or.mpr ⟨hread, hwrite⟩), hactive]
  · rw [hpipe]
    rfl
  · rw [hcall]
    congr 1
    show _ = (((writePipe m.kernel.procs pipe' f).2.2.map
      fun f => IoFrame.pipeWrite id f).left).bind (IoFrame.pipeCall id)
    rw [Outcome.left_map]
    cases (writePipe m.kernel.procs pipe' f).2.2.left with
    | none => rfl
    | some f' => exact (if_pos rfl).symm

end OnPipe

omit [Paging] [DecidableEq Node] in
theorem AsPipe.idle_call (hr : m.AsPipe id s)
    (huser : m.io.frame m.kernel.procs.running = none) :
    (s.call m.kernel.procs.running).isNone = true := by
  rw [hr.call, huser]
  rfl

omit [Paging] [Devices] [DecidableEq Node] in
theorem pipeCall_eq_none (hoff : f.port ≠ .pipe id) : f.pipeCall id = none := by
  cases f with
  | pipeRead pipe buf len => exact if_neg fun heq => hoff (congrArg Port.pipe heq)
  | pipeWrite pipe f => exact if_neg fun heq => hoff (congrArg Port.pipe heq)
  | ttyRead => rfl
  | ttyWrite => rfl

/-- **It is noted for its own pipe only.** -/
theorem AsPipe.ran_off (hr : m.AsPipe id s) (hentered : m.entered e = some f)
    (huser : e = .resume ∨ m.io.frame m.kernel.procs.running = none)
    (hact : m.Activates c e f r) (hoff : f.port ≠ .pipe id) :
    (m.pipeActs id e = [] ∧ m.pipeGiven id e = [] ∧ m.pipeTaken id e = []) ∧
      (leaveIo m.kernel.procs.running r).AsPipe id s := by
  constructor
  · unfold pipeActs pipeGiven pipeTaken
    rw [hentered]
    cases f with
    | pipeRead pipe buf len =>
      have hne : pipe ≠ id := fun heq => hoff (congrArg Port.pipe heq)
      refine ⟨if_neg hne, ?_, rfl⟩
      cases Filed.find m.io.pipe id with
      | none => rfl
      | some found => exact if_neg hne
    | pipeWrite pipe f =>
      have hne : pipe ≠ id := fun heq => hoff (congrArg Port.pipe heq)
      refine ⟨if_neg hne, rfl, ?_⟩
      cases Filed.find m.io.pipe id with
      | none => rfl
      | some found => exact if_neg hne
    | ttyRead => exact ⟨rfl, rfl, rfl⟩
    | ttyWrite => exact ⟨rfl, rfl, rfl⟩
  · obtain ⟨hframe, hcount⟩ := hact.kept
    refine hr.elsewhere hframe hcount (hact.find_pipe hoff) (fun g hg => ?_) fun g hg => ?_
    · rw [hact.frame_before huser hg]
      exact pipeCall_eq_none hoff
    · exact pipeCall_eq_none (hact.port_left hg ▸ hoff)

/-- **And there the other machine takes it too.** -/
theorem AsPipe.ran_on (hr : m.AsPipe id s) (hs : m.Sound) (hn : m.Numbered)
    (hentered : m.entered e = some f)
    (huser : e = .resume ∨ m.io.frame m.kernel.procs.running = none)
    (hact : m.Activates c e f r) (hon : f.port = .pipe id) :
    ∃ s', Run.exec PipeState.step s (m.pipeActs id e) = some s' ∧
      (leaveIo m.kernel.procs.running r).AsPipe id s' ∧
      s.Gains s' (m.pipeGiven id e) (m.pipeTaken id e) := by
  unfold pipeActs pipeGiven pipeTaken
  rw [hentered]
  cases hact with
  | ttyRead | ttyWrite | ttyReadBack | ttyWriteBack => cases hon
  | pipeRead id' buf len pipe hfind =>
    obtain rfl : id' = id := Port.pipe.inj hon
    rw [hfind]
    dsimp only
    rw [if_pos rfl, Run.exec_singleton, if_pos rfl]
    refine hr.reads hs hn hfind ?_
    rw [hr.live pipe hfind]
    exact if_pos (hr.idle_call (huser.resolve_left (by simp)))
  | pipeWrite id' buf len total pipe hfind =>
    obtain rfl : id' = id := Port.pipe.inj hon
    rw [hfind]
    dsimp only
    rw [if_pos rfl, Run.exec_singleton, if_pos rfl]
    refine hr.writes hs hn hfind ?_
    rw [hr.live pipe hfind]
    exact if_pos (hr.idle_call (huser.resolve_left (by simp)))
  | pipeReadBack id' buf len pipe hfind hf =>
    obtain rfl : id' = id := Port.pipe.inj hon
    rw [hfind]
    dsimp only
    rw [if_pos rfl, Run.exec_singleton, if_pos rfl]
    have hcall : s.call m.kernel.procs.running = some (.read len) := by
      rw [hr.call, hf]
      exact if_pos rfl
    have hactive : s.active m.kernel.procs.running .resume =
        some ({ pipe with unfulfilled := pipe.unfulfilled - 1 }, .read len) := by
      show (s.call m.kernel.procs.running).map _ = _
      rw [hcall, hr.live pipe hfind]
      rfl
    exact hr.reads hs hn hfind hactive
  | pipeWriteBack id' f pipe hfind hf =>
    obtain rfl : id' = id := Port.pipe.inj hon
    rw [hfind]
    dsimp only
    rw [if_pos rfl, Run.exec_singleton, if_pos rfl]
    have hcall : s.call m.kernel.procs.running = some (.write f) := by
      rw [hr.call, hf]
      exact if_pos rfl
    have hactive : s.active m.kernel.procs.running .resume =
        some ({ pipe with unfulfilled := pipe.unfulfilled - 1 }, .write f) := by
      show (s.call m.kernel.procs.running).map _ = _
      rw [hcall, hr.live pipe hfind]
      rfl
    exact hr.writes hs hn hfind hactive

variable [DecidableEq Addr] {b : Boot Node Addr} {es : List (Event Node Addr)}

/-- **One event.** -/
theorem AsPipe.step (hr : m.AsPipe id s) (hm : m.Lawful) (h : m.step e = some t) :
    ∃ s', Run.exec PipeState.step s (m.pipeActs id e) = some s' ∧ t.AsPipe id s' ∧
      s.Gains s' (m.pipeGiven id e) (m.pipeTaken id e) := by
  have hnone : m.entered e = none →
      m.pipeActs id e = [] ∧ m.pipeGiven id e = [] ∧ m.pipeTaken id e = [] := by
    intro hentered
    unfold pipeActs pipeGiven pipeTaken
    rw [hentered]
    exact ⟨rfl, rfl, rfl⟩
  have hspared : m.entered e = none → t.AsPipe id s →
      ∃ s', Run.exec PipeState.step s (m.pipeActs id e) = some s' ∧ t.AsPipe id s' ∧
        s.Gains s' (m.pipeGiven id e) (m.pipeTaken id e) := by
    intro hentered hafter
    obtain ⟨hacts, hgiven, htaken⟩ := hnone hentered
    rw [hacts, hgiven, htaken]
    exact ⟨s, rfl, hafter, PipeState.Gains.refl s⟩
  cases step_atIo h with
  | spared e t hentered hreceive htransmit hpipe hinput hout hframe =>
    exact hspared hentered (hr.refiled hm.numbered hpipe hframe)
  | received tty landing read =>
    exact hspared (entered_trap (by simp) (by simp))
      (hr.refiled hm.numbered (Refiles.same rfl le_rfl) rfl)
  | sent tty =>
    exact hspared (entered_trap (by simp) (by simp))
      (hr.refiled hm.numbered (Refiles.same rfl le_rfl) rfl)
  | ran c e f r hc hrun hentered huser hact =>
    by_cases hon : f.port = .pipe id
    · exact hr.ran_on hm.sound hm.numbered hentered huser hact hon
    · obtain ⟨⟨hacts, hgiven, htaken⟩, hafter⟩ := hr.ran_off hentered huser hact hon
      rw [hacts, hgiven, htaken]
      exact ⟨s, rfl, hafter, PipeState.Gains.refl s⟩

theorem start_asPipe (hb : start b = some m) (id : ℤ) (procs : ProcTable Node) :
    m.AsPipe id (PipeState.init procs) := by
  obtain ⟨k, hk, rfl⟩ := Option.map_eq_some_iff.mp hb
  exact ⟨fun pipe hfind => (by cases hfind), fun _ => rfl, fun _ => rfl⟩

omit [DecidableEq Node] [DecidableEq Addr] in
/-- Calls with lengths the functions are documented for are noted with
them. -/
theorem pipeActs_inDomain (he : e.PipeLens) : ∀ a ∈ m.pipeActs id e, a.2.InDomain := by
  intro a ha
  unfold pipeActs at ha
  cases hentered : m.entered e with
  | none =>
    rw [hentered] at ha
    cases ha
  | some f =>
    rw [hentered] at ha
    obtain ⟨c, -, henters⟩ := enters_of_entered hentered
    cases henters with
    | ttyRead => cases ha
    | ttyWrite => cases ha
    | pipeRead pipe buf len =>
      obtain ⟨-, ha⟩ := List.mem_ite_nil_right.mp ha
      obtain rfl := List.mem_singleton.mp ha
      exact he
    | pipeWrite pipe buf len total =>
      obtain ⟨-, ha⟩ := List.mem_ite_nil_right.mp ha
      obtain rfl := List.mem_singleton.mp ha
      exact he
    | back f =>
      cases f with
      | ttyRead => cases ha
      | ttyWrite => cases ha
      | pipeRead pipe buf len =>
        obtain ⟨-, ha⟩ := List.mem_ite_nil_right.mp ha
        obtain rfl := List.mem_singleton.mp ha
        trivial
      | pipeWrite pipe f =>
        obtain ⟨-, ha⟩ := List.mem_ite_nil_right.mp ha
        obtain rfl := List.mem_singleton.mp ha
        trivial

/-- **What a run is to one pipe**, and the bytes that went through it. -/
theorem asPipe_of_run (hb : start b = some m) (hes : ∀ e ∈ es, e.InRange)
    (hrun : Run.exec Machine.step m es = some u) (id : ℤ) (procs : ProcTable Node) :
    ∃ s, Run.exec PipeState.step (PipeState.init procs)
        (Run.noted Machine.step (pipeActs id) m es) = some s ∧ u.AsPipe id s ∧
      s.delivered = Run.noted Machine.step (pipeGiven id) m es ∧
      s.stream = Run.noted Machine.step (pipeTaken id) m es := by
  suffices hhistory : u.Lawful ∧ ∃ s, Run.exec PipeState.step (PipeState.init procs)
      (Run.noted Machine.step (pipeActs id) m es) = some s ∧ u.AsPipe id s ∧
      s.delivered = Run.noted Machine.step (pipeGiven id) m es ∧
      s.stream = Run.noted Machine.step (pipeTaken id) m es from hhistory.2
  refine Run.history_of_exec (H := fun es u => u.Lawful ∧ ∃ s,
    Run.exec PipeState.step (PipeState.init procs)
      (Run.noted Machine.step (pipeActs id) m es) = some s ∧ u.AsPipe id s ∧
    s.delivered = Run.noted Machine.step (pipeGiven id) m es ∧
    s.stream = Run.noted Machine.step (pipeTaken id) m es)
    ⟨start_lawful hb, _, rfl, start_asPipe hb id procs, rfl, rfl⟩ ?_ hes hrun
  rintro es t e u hes he ⟨hlawful, s, hexec, hr, hdelivered, hstream⟩ hstep
  obtain ⟨s', hs', hr', hgains⟩ := hr.step hlawful hstep
  refine ⟨step_lawful hlawful he hstep, s', ?_, hr', ?_, ?_⟩
  · rw [Run.noted_append hes, Run.noted_singleton hstep]
    exact Run.exec_append.mpr ⟨s, hexec, hs'⟩
  · rw [Run.noted_append hes, Run.noted_singleton hstep, hgains.delivered, hdelivered]
  · rw [Run.noted_append hes, Run.noted_singleton hstep, hgains.stream, hstream]

/-- **Every pipe is the pipe machine, and a stream.** For any id, the
activations a run notes on it are a run of the one-pipe machine, which ends
with the pipe on file and the calls in progress on it. Where every length is
one the calls are documented for, the bytes reads were given, in order, with
those in the pipe, are the bytes writes appended, and a writer sleeps on a
full pipe only. -/
theorem pipe_refines (hb : start b = some m) (hes : ∀ e ∈ es, e.InRange)
    (hrun : Run.exec Machine.step m es = some u) (id : ℤ) (procs : ProcTable Node) :
    (∃ s, Run.exec PipeState.step (PipeState.init procs)
      (Run.noted Machine.step (pipeActs id) m es) = some s ∧ u.AsPipe id s) ∧
    ((∀ e ∈ es, e.PipeLens) → ∀ pipe, Filed.find u.io.pipe id = some pipe →
      Run.noted Machine.step (pipeGiven id) m es ++ pipe.buffer.content =
        Run.noted Machine.step (pipeTaken id) m es ∧
      (pipe.writeblocked ≠ [] → pipe.buffer.room = 0)) := by
  obtain ⟨s, hexec, hr, hdelivered, hstream⟩ := asPipe_of_run hb hes hrun id procs
  refine ⟨⟨s, hexec, hr⟩, fun hlens pipe hfind => ?_⟩
  have hinv : s.Inv := Run.inv_of_exec (fun _ _ _ hs hd h => PipeState.inv_step hs hd h)
    (Run.forall_noted fun _ e he => pipeActs_inDomain (hlens e he)) (PipeState.inv_init procs) hexec
  rw [hr.live pipe hfind, ← hdelivered, ← hstream]
  exact ⟨hinv.stream, hinv.full⟩

/-- Init's child sleeps in a read, init writes, and the child comes back to
the bytes. -/
def sleepAndRead : List (Event ℕ ℕ) :=
  [.call (.pipeInit 0x1ff000), .call (.proc (.fork 2 2 2)), .clock,
    .call (.pipeRead 0 0x1ff000 4), .call (.pipeWrite 0 0x1ff000 4 0), .clock, .resume]

omit [Paging] [Devices] in
theorem pipe_refines_read :
    let _ := yalnixPaging
    let _ := yalnixDevices
    ∃ m u : Machine ℕ ℕ, start (smallBoot 140) = some m ∧
      Run.exec Machine.step m sleepAndRead = some u ∧
      (∃ s, Run.exec PipeState.step (PipeState.init m.kernel.procs)
        (Run.noted Machine.step (pipeActs 0) m sleepAndRead) = some s ∧ u.AsPipe 0 s) ∧
      ((∀ e ∈ sleepAndRead, e.PipeLens) → ∀ pipe, Filed.find u.io.pipe 0 = some pipe →
        Run.noted Machine.step (pipeGiven 0) m sleepAndRead ++ pipe.buffer.content =
          Run.noted Machine.step (pipeTaken 0) m sleepAndRead ∧
        (pipe.writeblocked ≠ [] → pipe.buffer.room = 0)) := by
  let _ := yalnixPaging
  let _ := yalnixDevices
  have hruns : ((start (smallBoot 140)).bind fun m : Machine ℕ ℕ =>
      Run.exec Machine.step m sleepAndRead).isSome = true := by
    decide +kernel
  obtain ⟨m, u, hm, hrun⟩ := Run.exists_exec hruns
  exact ⟨m, u, hm, hrun,
    pipe_refines hm (by simp [sleepAndRead, Event.InRange]) hrun 0 m.kernel.procs⟩

end Machine

end Yalnix
