import Yalnix.Machine.Buffers
import Yalnix.Process.Stores
/-!
# What the kernel stores to its callers

Six calls answer through their caller's memory: a status, an id, or the
bytes of a read. Each checks the address it is handed, and no check looks at
a protection bit or past the first byte of an `int`. A store is to writable
memory exactly where the page table has what the check left out.

A process that sleeps inside such a call is stored to when it comes back.
What was checked then still holds: nobody else touches its page table, and
it makes no call of its own.
-/

namespace Yalnix

open Paging

section Answers

variable [Paging] {pt : ℤ → Pte} {addr : ℤ} {n : ℕ}

theorem writable_iff : writable pt addr = true ↔ mapped pt addr ∧ writeBit pt addr := by
  unfold writable mapped writeBit
  simp only [decide_eq_true_eq]
  tauto

theorem unwritable_eq_nil : unwritable pt addr n = [] ↔
    ∀ i : ℕ, i < n → writable pt (addr + i) = true := by
  unfold unwritable
  rw [List.filter_eq_nil_iff]
  constructor
  · intro h i hi
    have hi' := h (addr + i) (List.mem_map_of_mem (List.mem_range.mpr hi))
    simpa using hi'
  · intro h a ha
    obtain ⟨i, hi, rfl⟩ := List.mem_map.mp ha
    rw [h i (List.mem_range.mp hi)]
    decide

/-- What the kernel is to store to its caller: a word behind a pointer, or
bytes into a buffer. -/
inductive Answer where
  | word (ptr : ℤ)
  | bytes (buf : ℤ) (n : ℕ)

/-- **What the check of the address has seen.** -/
def Answer.Checked (pt : ℤ → Pte) : Answer → Prop
  | .word ptr => mapped pt ptr
  | .bytes buf n => ∀ i : ℕ, i < n → mapped pt (buf + i)

/-- **What it has not looked at**: the protection of the pages, and for a
word the bytes past the page of the pointer. -/
def Answer.Fits (pt : ℤ → Pte) : Answer → Prop
  | .word ptr => ∀ i : ℕ, i < 4 → writeBit pt (ptr + i) ∧
      ((ptr + i) / pageSize ≠ ptr / pageSize →
        ptr + i < vmem1Limit ∧ (pteAt pt (ptr + i)).valid = true)
  | .bytes buf n => ∀ i : ℕ, i < n → writeBit pt (buf + i)

/-- Whether it does can be looked up. -/
instance Answer.decidableFits (pt : ℤ → Pte) : ∀ a : Answer, Decidable (a.Fits pt)
  | .word ptr => inferInstanceAs (Decidable (∀ i : ℕ, i < 4 →
      (pteAt pt (ptr + i)).prot &&& protWrite ≠ 0 ∧
      ((ptr + i) / pageSize ≠ ptr / pageSize →
        ptr + i < vmem1Limit ∧ (pteAt pt (ptr + i)).valid = true)))
  | .bytes buf n => inferInstanceAs (Decidable (∀ i : ℕ, i < n →
      (pteAt pt (buf + i)).prot &&& protWrite ≠ 0))

/-- What a call in progress has checked: every byte of the buffer of a
read. -/
def IoFrame.Checked (pt : ℤ → Pte) : IoFrame → Prop
  | .pipeRead _ buf len => ∀ i : ℕ, i < len.toNat → mapped pt (buf + i)
  | .pipeWrite _ _ => True
  | .ttyRead _ buf len => ∀ i : ℕ, i < len.toNat → mapped pt (buf + i)
  | .ttyWrite _ _ => True

/-- What of it is not writable. -/
def Answer.misses (pt : ℤ → Pte) : Answer → List ℤ
  | .word ptr => unwritable pt ptr 4
  | .bytes buf n => unwritable pt buf n

/-- **A checked answer goes to writable memory exactly where it fits.** -/
theorem Answer.Checked.misses_eq_nil {a : Answer} (h : a.Checked pt) :
    a.misses pt = [] ↔ a.Fits pt := by
  cases a with
  | word ptr =>
    refine unwritable_eq_nil.trans (forall₂_congr fun i hi => ?_)
    rw [writable_iff]
    constructor
    · rintro ⟨hmapped, hbit⟩
      exact ⟨hbit, fun _ => hmapped.2⟩
    · rintro ⟨hbit, hfar⟩
      refine ⟨?_, hbit⟩
      by_cases hpage : (ptr + i) / pageSize = ptr / pageSize
      · exact mapped_of_page h (by omega) hpage
      · have hlo := h.1
        exact ⟨by omega, hfar hpage⟩
  | bytes buf n =>
    refine unwritable_eq_nil.trans (forall₂_congr fun i hi => ?_)
    rw [writable_iff]
    exact and_iff_right (h i hi)

end Answers

variable {Node Addr : Type}

/-! ## Whom the checks are about -/

/-- Who lives, and with what page table. -/
def Kernel.users (k : Kernel Node Addr) (n : Node) : Option (Option (Kin Node Addr) × UserPt) :=
  (k.proc n).map fun c => (c.kin, c.userpt)

section Users

variable [DecidableEq Node] {k : Kernel Node Addr}

/-- A store to another field of a process. -/
theorem users_modify {n : Node} {f : Proc Node Addr → Proc Node Addr}
    (hf : ∀ c, (f c).kin = c.kin ∧ (f c).userpt = c.userpt) : (k.modify n f).users = k.users := by
  funext p
  unfold Kernel.users
  rcases eq_or_ne p n with rfl | hne
  · unfold Kernel.modify
    dsimp only
    rw [Function.update_self, Option.map_map]
    refine congrFun (congrArg _ (funext fun c => ?_)) _
    exact Prod.ext (hf c).1 (hf c).2
  · rw [modify_of_ne hne]

theorem users_checkDelay (k : Kernel Node Addr) :
    (checkDelay k).users = k.users ∧ (checkDelay k).waits = k.waits ∧
      (checkDelay k).misstored = k.misstored := by
  have hall : ∀ (sleepers : List Node) (k : Kernel Node Addr),
      (checkDelayLoop sleepers k).users = k.users ∧
      (checkDelayLoop sleepers k).waits = k.waits ∧
      (checkDelayLoop sleepers k).misstored = k.misstored := by
    intro sleepers
    induction sleepers with
    | nil => exact fun k => ⟨rfl, rfl, rfl⟩
    | cons curr rest ih =>
      intro k
      have hmodify : (k.modify curr fun c => { c with code := c.code - 1 }).users = k.users :=
        users_modify fun _ => ⟨rfl, rfl⟩
      unfold checkDelayLoop
      cases k.proc curr with
      | none => exact ⟨rfl, rfl, rfl⟩
      | some c =>
        dsimp only
        split
        · exact ⟨hmodify, rfl, rfl⟩
        · obtain ⟨husers, hwaits, hmiss⟩ := ih (k.modify curr fun c => { c with code := c.code - 1 })
          exact ⟨husers.trans hmodify, hwaits, hmiss⟩
  exact hall k.procs.delayed k

end Users

/-- Where a call that makes an object is to store the id. -/
def Syscall.idPointer : Syscall Node Addr → Option ℤ
  | .pipeInit ptr => some ptr
  | .lockInit ptr => some ptr
  | .cvarInit ptr _ => some ptr
  | _ => none

namespace Machine

variable [Paging] [Devices] [DecidableEq Node] [DecidableEq Addr]

open Devices

variable {m t : Machine Node Addr} {c : Proc Node Addr} {e : Event Node Addr} {f : IoFrame}
  {r : Machine Node Addr × Outcome IoFrame} {es : List (Event Node Addr)} {b : Boot Node Addr}
  {a : Answer} {p : Node}

/-! ## What an event stores -/

/-- **The event comes to store an answer**: the call is past its checks, and
has something to store. -/
inductive Stores (m : Machine Node Addr) (c : Proc Node Addr) : Event Node Addr → Answer → Prop
  | status (e : Event Node Addr) (act : ProcAct Node Addr) (kin : Kin Node Addr) (ptr : ℤ)
      (he : e = .call (.proc act) ∨ e = .resume ∧ act = .resume) (hkin : c.kin = some kin)
      (hptr : StoresStatus m.kernel c kin act ptr) : Stores m c e (.word ptr)
  | id (s : Syscall Node Addr) (ptr : ℤ) (hs : s.idPointer = some ptr)
      (hmem : noKernelMemory m.kernel 1 = false)
      (hcheck : checkAddr ptr protWrite c.userpt.pt = true) : Stores m c (.call s) (.word ptr)
  | tty (e : Event Node Addr) (tty buf len : ℤ) (h : m.Enters c e (.ttyRead tty buf len)) :
      Stores m c e (.bytes buf (min (m.io.input tty).buffer.filled len).toNat)
  | pipe (e : Event Node Addr) (id buf len : ℤ) (pipe : Pipe Node)
      (h : m.Enters c e (.pipeRead id buf len)) (hfind : Filed.find m.io.pipe id = some pipe) :
      Stores m c e (.bytes buf (min pipe.buffer.filled len).toNat)

/-- **What is left to the caller**: a terminal that is there, and pages that
have what the check left out. -/
structure StoresFit (m : Machine Node Addr) (e : Event Node Addr) : Prop where
  ttyRead : ∀ c tty buf len, m.kernel.curr = some c → m.Enters c e (.ttyRead tty buf len) → 0 ≤ tty
  ttyWrite : ∀ c tty f, m.kernel.curr = some c → m.Enters c e (.ttyWrite tty f) → 0 ≤ tty
  fits : ∀ c a, m.kernel.curr = some c → m.Stores c e a → a.Fits c.userpt.pt

omit [DecidableEq Node] [DecidableEq Addr] in
/-- A call on a pipe or a terminal is none of the others. -/
theorem Enters.not_status {act : ProcAct Node Addr} {kin : Kin Node Addr} {ptr : ℤ}
    (h : m.Enters c e f) (he : e = .call (.proc act) ∨ e = .resume ∧ act = .resume) :
    ¬ StoresStatus m.kernel c kin act ptr := by
  rintro ⟨hin, -⟩
  rcases he with rfl | ⟨rfl, rfl⟩
  · cases h
  · cases h with
    | back f hwaits =>
      rcases hin with ⟨heq, -⟩ | ⟨-, hw⟩
      · cases heq
      · rw [hwaits] at hw
        cases hw

omit [DecidableEq Node] [DecidableEq Addr] in
theorem Enters.not_id {s : Syscall Node Addr} {ptr : ℤ} (h : m.Enters c (.call s) f) :
    s.idPointer ≠ some ptr := by
  intro hs
  cases h <;> cases hs

omit [Paging] [Devices] [DecidableEq Node] [DecidableEq Addr] in
/-- What a process does is known by the event. -/
theorem act_unique {act act' : ProcAct Node Addr}
    (h : e = .call (.proc act) ∨ e = .resume ∧ act = .resume)
    (h' : e = .call (.proc act') ∨ e = .resume ∧ act' = .resume) : act = act' := by
  rcases h with rfl | ⟨rfl, rfl⟩
  · rcases h' with heq | ⟨heq, -⟩
    · cases heq
      rfl
    · cases heq
  · rcases h' with heq | ⟨-, rfl⟩
    · cases heq
    · rfl

omit [DecidableEq Node] [DecidableEq Addr] in
/-- **An event stores one answer.** -/
theorem Stores.unique {a' : Answer} (h : m.Stores c e a) (h' : m.Stores c e a') : a = a' := by
  have hproc : ∀ {s : Syscall Node Addr} {act : ProcAct Node Addr} {ptr : ℤ},
      s.idPointer = some ptr → ¬ ((.call s : Event Node Addr) = .call (.proc act) ∨
        (.call s : Event Node Addr) = .resume ∧ act = .resume) := by
    rintro s act ptr hs (heq | ⟨heq, -⟩)
    · cases heq
      cases hs
    · cases heq
  -- the kinds differ in their events; within one kind the event fixes the rest
  cases h with
  | status e act kin ptr he hkin hptr =>
    cases h' with
    | status _ act' kin' ptr' he' hkin' hptr' =>
      obtain rfl := act_unique he he'
      obtain rfl := Option.some.inj (hkin.symm.trans hkin')
      rw [hptr.1.unique hptr'.1]
    | id s ptr' hs => exact absurd he (hproc hs)
    | tty _ tty buf len henters => exact absurd hptr (henters.not_status he)
    | pipe _ id buf len pipe henters => exact absurd hptr (henters.not_status he)
  | id s ptr hs =>
    cases h' with
    | status _ act kin ptr' he => exact absurd he (hproc hs)
    | id _ ptr' hs' => rw [Option.some.inj (hs.symm.trans hs')]
    | tty _ tty buf len henters => exact absurd hs henters.not_id
    | pipe _ id buf len pipe henters => exact absurd hs henters.not_id
  | tty e tty buf len henters =>
    cases h' with
    | status _ act kin ptr he _ hptr => exact absurd hptr (henters.not_status he)
    | id s ptr hs => exact absurd hs henters.not_id
    | tty _ tty' buf' len' henters' =>
      cases henters.unique henters'
      rfl
    | pipe _ id buf' len' pipe henters' => cases henters.unique henters'
  | pipe e id buf len pipe henters hfind =>
    cases h' with
    | status _ act kin ptr he _ hptr => exact absurd hptr (henters.not_status he)
    | id s ptr hs => exact absurd hs henters.not_id
    | tty _ tty buf' len' henters' => cases henters.unique henters'
    | pipe _ id' buf' len' pipe' henters' hfind' =>
      cases henters.unique henters'
      obtain rfl := Option.some.inj (hfind.symm.trans hfind')
      rfl

/-! ## Every store is one of these -/

omit [Devices] [DecidableEq Node] [DecidableEq Addr] in
theorem storeUser_misstored {k : Kernel Node Addr} {pt : ℤ → Pte} {addr : ℤ} {bytes : List Byte} :
    (storeUser k pt addr bytes).misstored = k.misstored ++ unwritable pt addr bytes.length := rfl

omit [DecidableEq Node] [DecidableEq Addr] in
/-- **A read stores what it takes from the buffer**, and a write stores
nothing. -/
theorem Ran.stores (h : m.Ran c f r) (henters : m.Enters c e f) :
    (r.1.kernel.misstored = m.kernel.misstored ∧ ∀ a, ¬ m.Stores c e a) ∨
    ∃ a, m.Stores c e a ∧ r.1.kernel.misstored = m.kernel.misstored ++ a.misses c.userpt.pt := by
  have hwrite : (∀ tty buf len, f ≠ .ttyRead tty buf len) →
      (∀ id buf len, f ≠ .pipeRead id buf len) → ∀ a, ¬ m.Stores c e a := by
    intro htty hpipe a ha
    cases ha with
    | status _ act kin ptr he _ hptr => exact henters.not_status he hptr
    | id s ptr hs => exact henters.not_id hs
    | tty _ tty buf len h' => exact htty tty buf len (henters.unique h')
    | pipe _ id buf len pipe h' => exact hpipe id buf len (henters.unique h')
  cases h with
  | pipeRead id buf len pipe pipe' hfind hbuffer =>
    right
    refine ⟨_, Stores.pipe e id buf len pipe henters hfind, ?_⟩
    have hstored : (m.runPipeRead c.userpt.pt id pipe' buf len).1.kernel.misstored =
        m.kernel.misstored ++ unwritable c.userpt.pt buf
          (readPipe m.kernel.procs pipe' len).2.2.1.length := rfl
    rw [hstored, readPipe_dst, Buffer.length_readBuffer, hbuffer]
    rfl
  | pipeWrite id f => exact Or.inl ⟨rfl, hwrite (by simp) (by simp)⟩
  | ttyRead tty buf len =>
    right
    refine ⟨_, Stores.tty e tty buf len henters, ?_⟩
    have hstored : (m.runTtyRead c.userpt.pt tty buf len).1.kernel.misstored =
        m.kernel.misstored ++ unwritable c.userpt.pt buf
          (readTty m.kernel.procs (m.io.input tty) len).2.2.1.length := rfl
    rw [hstored, readTty_dst, Buffer.length_readBuffer]
    rfl
  | ttyWrite tty f => exact Or.inl ⟨rfl, hwrite (by simp) (by simp)⟩

omit [Devices] [DecidableEq Node] [DecidableEq Addr] in
/-- **A call that makes an object** stores its id, if it makes it. -/
theorem initObject_stores {pt : ℤ → Pte} {ptr : ℤ}
    {new : ℤ → Machine Node Addr → Machine Node Addr}
    (hnew : ∀ id s, (new id s).kernel = s.kernel) :
    (m.initObject pt ptr new).1.kernel.misstored = m.kernel.misstored ++
      if noKernelMemory m.kernel 1 = false ∧ checkAddr ptr protWrite pt = true then
        (Answer.word ptr).misses pt
      else [] := by
  unfold initObject
  by_cases hmem : noKernelMemory m.kernel 1 = true
  · rw [if_pos hmem, if_neg (by rw [hmem]; simp), List.append_nil]
  · rw [if_neg hmem]
    by_cases hcheck : checkAddr ptr protWrite pt = true
    · rw [if_neg (not_not.mpr hcheck), if_pos ⟨by simpa using hmem, hcheck⟩]
      dsimp only
      rw [if_pos (ne_zero_of_mapped (mapped_of_checkAddr hcheck))]
      dsimp only
      rw [storeUser_misstored, hnew]
      rfl
    · rw [if_pos hcheck, if_neg fun h => hcheck h.2, List.append_nil]

omit [DecidableEq Node] [DecidableEq Addr] in
theorem InitCall.stores {s : Syscall Node Addr} {r : Machine Node Addr × ℤ}
    (h : m.InitCall c s r) : ∃ ptr, s.idPointer = some ptr ∧
      r.1.kernel.misstored = m.kernel.misstored ++
        if noKernelMemory m.kernel 1 = false ∧ checkAddr ptr protWrite c.userpt.pt = true then
          (Answer.word ptr).misses c.userpt.pt
        else [] := by
  cases h with
  | pipeInit ptr => exact ⟨ptr, rfl, initObject_stores fun _ _ => rfl⟩
  | lockInit ptr => exact ⟨ptr, rfl, initObject_stores fun _ _ => rfl⟩
  | cvarInit ptr second => exact ⟨ptr, rfl, initObject_stores fun _ _ => rfl⟩

/-- **What an event stores**, and what of it is not writable. -/
def Answers (m : Machine Node Addr) (c : Proc Node Addr) (e : Event Node Addr)
    (t : Machine Node Addr) : Prop :=
  (t.kernel.misstored = m.kernel.misstored ∧ ∀ a, ¬ m.Stores c e a) ∨
    ∃ a, m.Stores c e a ∧ t.kernel.misstored = m.kernel.misstored ++ a.misses c.userpt.pt

omit [DecidableEq Node] [DecidableEq Addr] in
/-- An event that is no call of the six. -/
theorem answers_none (hmiss : t.kernel.misstored = m.kernel.misstored)
    (hact : ∀ act kin ptr, e = .call (.proc act) ∨ e = .resume ∧ act = .resume →
      c.kin = some kin → ¬ StoresStatus m.kernel c kin act ptr)
    (hid : ∀ s ptr, e = .call s → s.idPointer ≠ some ptr) (henters : ∀ f, ¬ m.Enters c e f) :
    m.Answers c e t := by
  refine Or.inl ⟨hmiss, fun a ha => ?_⟩
  cases ha with
  | status _ act kin ptr he hkin hptr => exact hact act kin ptr he hkin hptr
  | id s ptr hs => exact hid s ptr rfl hs
  | tty _ tty buf len h => exact henters _ h
  | pipe _ id buf len pipe h => exact henters _ h

omit [DecidableEq Node] [DecidableEq Addr] in
/-- A call that stores no status, makes no object and reads no buffer. -/
theorem answers_call {s : Syscall Node Addr} (hmiss : t.kernel.misstored = m.kernel.misstored)
    (hproc : ∀ act, s ≠ .proc act) (hid : s.idPointer = none)
    (henters : ∀ f, ¬ m.Enters c (.call s) f) : m.Answers c (.call s) t := by
  refine answers_none hmiss (fun act kin ptr he _ => ?_) (fun s' ptr hs => ?_) henters
  · rcases he with he | ⟨he, -⟩
    · exact absurd (Event.call.inj he) (hproc act)
    · cases he
  · rw [← Event.call.inj hs, hid]
    exact Option.some_ne_none ptr ∘ Eq.symm

omit [Paging] [Devices] [DecidableEq Addr] in
theorem leaveIo_frame_of_ne {q : Node} (hq : q ≠ p) :
    (leaveIo p r).io.frame q = r.1.io.frame q := by
  obtain ⟨t, out⟩ := r
  cases out with
  | returned v => exact Function.update_of_ne hq _ _
  | blocked g => exact Function.update_of_ne hq _ _

omit [Paging] [Devices] [DecidableEq Addr] in
/-- A process with a frame when it leaves is blocked. -/
theorem blocked_of_leaveIo (h : (leaveIo p r).io.frame p = some f) : r.2 = .blocked f := by
  obtain ⟨t, out⟩ := r
  cases out with
  | returned v =>
    have h' : Function.update t.io.frame p none p = some f := h
    rw [Function.update_self] at h'
    cases h'
  | blocked g =>
    have h' : Function.update t.io.frame p (some g) p = some f := h
    rw [Function.update_self] at h'
    exact congrArg _ (Option.some.inj h')

omit [DecidableEq Addr] in
theorem IoCall.answers (h : m.IoCall c e r) (hwaits : m.kernel.waits m.kernel.procs.running = none)
    (hsync : m.sync.frame m.kernel.procs.running = none) :
    m.Answers c e (leaveIo m.kernel.procs.running r) := by
  have hcalls : ∀ s, e = .call s → s.idPointer = none ∧ ∀ act, s ≠ .proc act := by
    rintro s rfl
    cases h <;> exact ⟨rfl, fun act heq => by cases heq⟩
  rcases h.enters hwaits hsync with ⟨rfl, hne, hno⟩ | ⟨f, henters, hran⟩
  · refine answers_none (congrArg _ leaveIo_kernel) (fun act kin ptr he _ => ?_)
      (fun s ptr hs => ?_) hno
    · rcases he with rfl | ⟨rfl, -⟩
      · exact absurd rfl ((hcalls _ rfl).2 act)
      · exact absurd rfl hne
    · rw [(hcalls s hs).1]
      exact Option.some_ne_none ptr ∘ Eq.symm
  · unfold Answers
    rw [leaveIo_kernel]
    exact hran.stores henters

/-- **What the process that is running stores.** -/
theorem ByProcess.answers {kin : Kin Node Addr} (hc : m.kernel.curr = some c)
    (hkin : c.kin = some kin) (h : ByProcess m c kin e t) : m.Answers c e t := by
  cases h with
  | acted e act k' he hout hsync heff =>
    -- among a process's own actions only a wait writes to its caller's memory
    have hno : ∀ f, ¬ m.Enters c e f := by
      intro f hf
      rcases he with rfl | ⟨rfl, rfl⟩
      · cases hf
      · obtain ⟨ptr, hptr⟩ := heff.inWait_of_resume
        cases hf with
        | back f hwaits =>
          rw [show m.kernel.waits m.kernel.procs.running = some ptr from hptr] at hwaits
          cases hwaits
    rcases heff.misstored (k := m.kernel.onStack c) hc with ⟨hsame, hnone⟩ | ⟨ptr, hptr, hmiss⟩
    · refine answers_none hsame (fun act' kin' ptr he' hkin' hptr => ?_) (fun s ptr hs => ?_) hno
      · obtain rfl := act_unique he he'
        obtain rfl := Option.some.inj (hkin.symm.trans hkin')
        exact hnone ptr hptr
      · rcases he with rfl | ⟨rfl, rfl⟩
        · cases hs
          exact Option.some_ne_none ptr ∘ Eq.symm
        · cases hs
    · exact Or.inr ⟨_, Stores.status e act kin ptr he hkin hptr, hmiss⟩
  | delayed clockTicks hsync =>
    refine answers_call ?_ (fun _ => nofun) rfl fun f hf => by cases hf
    unfold kernelDelay
    split
    · rfl
    · split <;> rfl
  | io e r hwaits hsync hcall => exact hcall.answers hwaits hsync
  | made s r hsync hinit =>
    obtain ⟨ptr, hptr, hmiss⟩ := hinit.stores
    split at hmiss
    · rename_i hgo
      exact Or.inr ⟨_, Stores.id s ptr hptr hgo.1 hgo.2, hmiss⟩
    · rename_i hno
      refine Or.inl ⟨by rw [hmiss, List.append_nil], fun a ha => ?_⟩
      cases ha with
      | status _ act kin ptr' he =>
        rcases he with he | ⟨he, -⟩
        · cases he
          cases hptr
        · cases he
      | id _ ptr' hs hmem hcheck =>
        obtain rfl := Option.some.inj (hptr.symm.trans hs)
        exact hno ⟨hmem, hcheck⟩
      | tty _ tty buf len henters => exact henters.not_id hptr
      | pipe _ id buf len pipe henters => exact henters.not_id hptr
  | synced call =>
    exact answers_call rfl (fun _ => nofun) rfl fun f hf => by cases hf
  | back f r hwaits hframe hr =>
    -- a lock's queue: neither a wait nor a device is entered
    refine answers_none rfl (fun act kin ptr he _ hptr => ?_) (fun s ptr hs => by cases hs)
      fun f hf => ?_
    · rcases hptr.1 with ⟨rfl, -⟩ | ⟨-, hw⟩
      · rcases he with he | ⟨-, he⟩ <;> cases he
      · rw [hwaits] at hw
        cases hw
    · cases hf with
      | back f _ hsync =>
        rw [hframe] at hsync
        cases hsync
  | reclaimed id size hsync =>
    refine answers_call ?_ (fun _ => nofun) rfl fun f hf => by cases hf
    rw [(kernelReclaim_fewer (m := m) id size).1]

omit [DecidableEq Node] [DecidableEq Addr] in
/-- A trap stores nothing. -/
theorem not_stores_of_trap
    (he : e = .clock ∨ (∃ tty landing read, e = .ttyReceive tty landing read) ∨
      ∃ tty, e = .ttyTransmit tty) : ¬ m.Stores c e a := by
  intro ha
  cases ha with
  | status _ act kin ptr he' =>
    rcases he with rfl | ⟨tty, landing, read, rfl⟩ | ⟨tty, rfl⟩ <;>
      rcases he' with he' | ⟨he', -⟩ <;> cases he'
  | id s ptr =>
    rcases he with he | ⟨tty, landing, read, he⟩ | ⟨tty, he⟩ <;> cases he
  | tty _ tty buf len henters =>
    rcases he with rfl | ⟨tty, landing, read, rfl⟩ | ⟨tty, rfl⟩ <;> cases henters
  | pipe _ id buf len pipe henters =>
    rcases he with rfl | ⟨tty, landing, read, rfl⟩ | ⟨tty, rfl⟩ <;> cases henters

/-- **An event stores what the process that is running asks for**, and a trap
nothing. -/
theorem step_answers (hs : m.Sound) (h : m.step e = some t) :
    (t.kernel.misstored = m.kernel.misstored ∧
      ∀ c a, m.kernel.curr = some c → ¬ m.Stores c e a) ∨
    ∃ c, m.kernel.curr = some c ∧ m.Answers c e t := by
  rcases step_cases hs h with ⟨c, kin, hc, hkin, hrun, hby⟩ | hby
  · exact Or.inr ⟨c, hc, hby.answers hc hkin⟩
  · left
    cases hby with
    | clock => exact ⟨(users_checkDelay m.kernel).2.2, fun _ _ _ => not_stores_of_trap (Or.inl rfl)⟩
    | receive tty landing read =>
      exact ⟨rfl, fun _ _ _ => not_stores_of_trap (Or.inr (Or.inl ⟨tty, landing, read, rfl⟩))⟩
    | transmit tty =>
      exact ⟨rfl, fun _ _ _ => not_stores_of_trap (Or.inr (Or.inr ⟨tty, rfl⟩))⟩

/-! ## Whom an event leaves alone -/

omit [DecidableEq Node] [DecidableEq Addr] [Devices] in
/-- Making an object changes nobody's page table. -/
theorem initObject_users {ptr : ℤ} {new : ℤ → Machine Node Addr → Machine Node Addr}
    (hnew : ∀ id s, (new id s).kernel = s.kernel) :
    (m.initObject c.userpt.pt ptr new).1.kernel.users = m.kernel.users ∧
      (m.initObject c.userpt.pt ptr new).1.kernel.waits = m.kernel.waits := by
  rcases initObject_cases (rfl : m.initObject c.userpt.pt ptr new = _) with
    heq | ⟨k, heq, rfl | rfl⟩
  · rw [heq]
    exact ⟨rfl, rfl⟩
  · rw [heq]
    dsimp only
    rw [hnew]
    exact ⟨rfl, rfl⟩
  · rw [heq]
    dsimp only
    rw [hnew]
    exact ⟨rfl, rfl⟩

/-- **Only an activation** changes who lives, the page tables and who is
inside `KernelWait`. -/
theorem step_users (hs : m.Sound) (h : m.step e = some t) :
    (t.kernel.users = m.kernel.users ∧ t.kernel.waits = m.kernel.waits) ∨
    ∃ c kin act k', m.kernel.curr = some c ∧ c.kin = some kin ∧
      (e = .call (.proc act) ∨ e = .resume ∧ act = .resume) ∧
      (act = .resume ∨ m.kernel.waits m.kernel.procs.running = none) ∧
      Effect (m.kernel.onStack c) c kin act k' ∧ t = { m with kernel := k' } := by
  rcases step_cases hs h with ⟨c, kin, hc, hkin, hrun, hby⟩ | htrap
  · cases hby with
    | acted e act k' he hout hsync heff =>
      exact Or.inr ⟨c, kin, act, k', hc, hkin, he, hout, heff, rfl⟩
    | delayed clockTicks hsync =>
      left
      unfold kernelDelay
      split
      · exact ⟨rfl, rfl⟩
      · split
        · have hmodify : (m.kernel.modify m.kernel.procs.running
              fun p => { p with code := clockTicks }).users = m.kernel.users :=
            users_modify fun _ => ⟨rfl, rfl⟩
          exact ⟨hmodify, rfl⟩
        · exact ⟨rfl, rfl⟩
    | io e r hwaits hsync hcall =>
      left
      have hkernel : r.1.kernel.users = m.kernel.users ∧ r.1.kernel.waits = m.kernel.waits := by
        rcases hcall.enters hwaits hsync with ⟨rfl, -⟩ | ⟨f, -, hran⟩
        · exact ⟨rfl, rfl⟩
        · cases hran <;> exact ⟨rfl, rfl⟩
      obtain ⟨t, out⟩ := r
      cases out <;> exact hkernel
    | made s r hsync hinit =>
      left
      cases hinit with
      | pipeInit ptr => exact initObject_users fun _ _ => rfl
      | lockInit ptr => exact initObject_users fun _ _ => rfl
      | cvarInit ptr second => exact initObject_users fun _ _ => rfl
    | synced call => exact Or.inl ⟨rfl, rfl⟩
    | back f r => exact Or.inl ⟨rfl, rfl⟩
    | reclaimed id size =>
      left
      rw [(kernelReclaim_fewer (m := m) id size).1]
      exact ⟨rfl, rfl⟩
  · cases htrap with
    | clock =>
      obtain ⟨husers, hwaits, -⟩ := users_checkDelay m.kernel
      exact Or.inl ⟨husers, hwaits⟩
    | receive => exact Or.inl ⟨rfl, rfl⟩
    | transmit => exact Or.inl ⟨rfl, rfl⟩

omit [Paging] [Devices] [DecidableEq Node] [DecidableEq Addr] in
theorem users_forth (husers : t.kernel.users = m.kernel.users) (hp : m.kernel.proc p = some c)
    (halive : c.kin.isSome) :
    ∃ c', t.kernel.proc p = some c' ∧ c'.kin.isSome ∧ c'.userpt = c.userpt := by
  have hp' : t.kernel.users p = some (c.kin, c.userpt) := by
    rw [husers]
    unfold Kernel.users
    rw [hp]
    rfl
  obtain ⟨c', hc', heq⟩ := Option.map_eq_some_iff.mp hp'
  obtain ⟨hkin, huserpt⟩ := Prod.ext_iff.mp heq
  refine ⟨c', hc', ?_, huserpt⟩
  rw [show c'.kin = c.kin from hkin]
  exact halive

/-- **Who stays alive keeps its page table**: everybody but the process that
makes a call. -/
theorem step_keepsUser (hs : m.Sound) (h : m.step e = some t) (hp : m.kernel.proc p = some c)
    (halive : c.kin.isSome) (hstay : p ≠ m.kernel.procs.running ∨ e = .resume) :
    ∃ c', t.kernel.proc p = some c' ∧ c'.kin.isSome ∧ c'.userpt = c.userpt := by
  rcases step_users hs h with ⟨husers, -⟩ | ⟨c₀, kin₀, act, k', hc₀, hkin₀, he, -, heff, rfl⟩
  · exact users_forth husers hp halive
  · have hk : (m.kernel.onStack c₀).Kindred := hs.kindred.congr rfl rfl rfl rfl
    refine heff.keepsUser hk hc₀ hkin₀ hp halive (hstay.imp_right fun heq => ?_)
    subst heq
    rcases he with he | ⟨-, hact⟩
    · cases he
    · exact hact

/-! ## What was checked stays so -/

/-- **Whoever sleeps inside a call** is alive, with a page table in which the
addresses it was called with pass their check. -/
structure Checked (m : Machine Node Addr) : Prop where
  waits : ∀ p ptr, m.kernel.waits p = some ptr → ∃ c, m.kernel.proc p = some c ∧ c.kin.isSome ∧
    (ptr = 0 ∨ mapped c.userpt.pt ptr)
  frames : ∀ p f, m.io.frame p = some f → ∃ c, m.kernel.proc p = some c ∧ c.kin.isSome ∧
    f.Checked c.userpt.pt

omit [DecidableEq Node] [DecidableEq Addr] in
theorem Enters.checked (h : m.Enters c e f) (hc : m.kernel.curr = some c) (hch : m.Checked) :
    f.Checked c.userpt.pt := by
  cases h with
  | ttyRead tty buf len htty hbuf =>
    exact fun i hi => mapped_of_checkAddr (checkBuffer_iff.mp hbuf i hi)
  | ttyWrite => trivial
  | pipeRead id buf len pipe hfind hbuf =>
    exact fun i hi => mapped_of_checkAddr (checkBuffer_iff.mp hbuf i hi)
  | pipeWrite => trivial
  | back f hwaits hsync hf =>
    obtain ⟨c', hc', -, hchecked⟩ := hch.frames _ f hf
    obtain rfl := Option.some.inj (hc.symm.trans hc')
    exact hchecked

omit [DecidableEq Node] [DecidableEq Addr] in
/-- **Every answer is one whose address was checked.** -/
theorem Stores.checked (h : m.Stores c e a) (hc : m.kernel.curr = some c) (hch : m.Checked) :
    a.Checked c.userpt.pt := by
  cases h with
  | status e act kin ptr he hkin hptr =>
    obtain ⟨⟨-, hptr', -⟩ | ⟨-, hw⟩, -, hne⟩ := hptr
    · exact mapped_of_checkAddr (hptr'.resolve_left hne)
    · obtain ⟨c', hc', -, hmapped⟩ := hch.waits _ ptr hw
      obtain rfl := Option.some.inj (hc.symm.trans hc')
      exact hmapped.resolve_left hne
  | id s ptr hs hmem hcheck => exact mapped_of_checkAddr hcheck
  | tty e tty buf len henters =>
    have hchecked : ∀ i : ℕ, i < len.toNat → mapped c.userpt.pt (buf + i) :=
      henters.checked hc hch
    exact fun i hi => hchecked i (by omega)
  | pipe e id buf len pipe henters =>
    have hchecked : ∀ i : ℕ, i < len.toNat → mapped c.userpt.pt (buf + i) :=
      henters.checked hc hch
    exact fun i hi => hchecked i (by omega)

omit [Devices] [DecidableEq Node] [DecidableEq Addr] in
/-- A call that blocks keeps the address it was called with. -/
theorem Ran.checked {pt : ℤ → Pte} {g : IoFrame} (h : m.Ran c f r) (hf : f.Checked pt)
    (hg : r.2 = .blocked g) : g.Checked pt := by
  cases h with
  | pipeRead id buf len pipe pipe' hfind hbuffer =>
    obtain ⟨len', hframe, rfl⟩ := blocked_of_map hg
    rw [readPipe_frame hframe]
    exact hf
  | pipeWrite id f =>
    obtain ⟨f', -, rfl⟩ := blocked_of_map hg
    trivial
  | ttyRead tty buf len =>
    obtain ⟨len', hframe, rfl⟩ := blocked_of_map hg
    rw [readTty_frame hframe]
    exact hf
  | ttyWrite tty f =>
    obtain ⟨f', -, rfl⟩ := blocked_of_map hg
    trivial

/-- **What sleepers checked stays checked.** -/
theorem step_checked (hs : m.Sound) (hch : m.Checked) (h : m.step e = some t) : t.Checked := by
  constructor
  · intro p ptr hw
    rcases step_users hs h with ⟨husers, hwaits⟩ | ⟨c, kin, act, k', hc, hkin, he, hout, heff, rfl⟩
    · rw [hwaits] at hw
      obtain ⟨c, hc, halive, hptr⟩ := hch.waits p ptr hw
      obtain ⟨c', hc', halive', huserpt⟩ := users_forth husers hc halive
      exact ⟨c', hc', halive', by rw [huserpt]; exact hptr⟩
    · have hold : m.kernel.waits p = some ptr → (p ≠ m.kernel.procs.running ∨ act = .resume) →
          ∃ c', k'.proc p = some c' ∧ c'.kin.isSome ∧ (ptr = 0 ∨ mapped c'.userpt.pt ptr) := by
        intro hw hstay
        obtain ⟨c₀, hc₀, halive, hptr⟩ := hch.waits p ptr hw
        have hk : (m.kernel.onStack c).Kindred := hs.kindred.congr rfl rfl rfl rfl
        obtain ⟨c', hc', halive', huserpt⟩ := heff.keepsUser hk hc hkin hc₀ halive hstay
        exact ⟨c', hc', halive', by rw [huserpt]; exact hptr⟩
      rcases eq_or_ne p m.kernel.procs.running with rfl | hne
      · rcases heff.waits_running (k := m.kernel.onStack c) hc hw with hw' | ⟨hproc, hptr⟩
        · refine hold hw' (Or.inr (hout.resolve_right fun hnone => ?_))
          rw [show m.kernel.waits m.kernel.procs.running = some ptr from hw'] at hnone
          cases hnone
        · refine ⟨c, (congrFun hproc _).trans hc, by rw [hkin]; rfl, ?_⟩
          exact hptr.imp_right mapped_of_checkAddr
      · have hsame : k'.waits p = m.kernel.waits p :=
          heff.waits_of_ne (k := m.kernel.onStack c) hc hne
        exact hold (hsame ▸ hw) (Or.inl hne)
  · intro p f hf
    -- a frame that was there before is one of a process that keeps its page table
    have hold : m.io.frame p = some f → ∃ c', t.kernel.proc p = some c' ∧ c'.kin.isSome ∧
        f.Checked c'.userpt.pt := by
      intro hf
      obtain ⟨c, hc, halive, hchecked⟩ := hch.frames p f hf
      have hstay : p ≠ m.kernel.procs.running ∨ e = .resume := by
        rcases step_inUser h with he | huser
        · exact Or.inr he
        · left
          rintro rfl
          rw [(inUser_iff.mp huser).2.2] at hf
          cases hf
      obtain ⟨c', hc', halive', huserpt⟩ := step_keepsUser hs h hc halive hstay
      exact ⟨c', hc', halive', by rw [huserpt]; exact hchecked⟩
    rcases step_toBuffers h with ⟨hio, -⟩ | ⟨c, hc, ⟨hio, -⟩ | ⟨f₀, r, henters, hran, rfl⟩⟩
    · exact hold (hio.frame ▸ hf)
    · exact hold (hio.frame ▸ hf)
    · rcases eq_or_ne p m.kernel.procs.running with rfl | hne
      · have hproc : (leaveIo m.kernel.procs.running r).kernel.proc = m.kernel.proc := by
          rw [leaveIo_kernel]
          cases hran <;> rfl
        obtain ⟨c₀, kin₀, hc₀, hkin₀⟩ := alive_iff.mp hs.running_alive
        obtain rfl := Option.some.inj (hc.symm.trans hc₀)
        refine ⟨c, (congrFun hproc _).trans hc, by rw [hkin₀]; rfl, ?_⟩
        exact hran.checked (henters.checked hc hch) (blocked_of_leaveIo hf)
      · refine hold ?_
        rw [leaveIo_frame_of_ne hne, hran.frame] at hf
        exact hf

/-! ## Every run -/

/-- **One event misses nothing** exactly where its answer fits. -/
theorem step_misses_iff (hs : m.Sound) (hch : m.Checked) (h : m.step e = some t) :
    t.kernel.misstored = m.kernel.misstored ↔
      ∀ c a, m.kernel.curr = some c → m.Stores c e a → a.Fits c.userpt.pt := by
  rcases step_answers hs h with ⟨hsame, hno⟩ | ⟨c, hc, ⟨hsame, hno⟩ | ⟨a, ha, hmiss⟩⟩
  · exact iff_of_true hsame fun c a hc ha => absurd ha (hno c a hc)
  · refine iff_of_true hsame fun c' a hc' ha => ?_
    obtain rfl := Option.some.inj (hc.symm.trans hc')
    exact absurd ha (hno a)
  · rw [hmiss, List.append_right_eq_self, (ha.checked hc hch).misses_eq_nil]
    constructor
    · intro hfits c' a' hc' ha'
      obtain rfl := Option.some.inj (hc.symm.trans hc')
      rw [← ha.unique ha']
      exact hfits
    · intro hfits
      exact hfits c a hc ha

theorem step_misstored (hs : m.Sound) (hch : m.Checked) (hm : m.kernel.misstored = [])
    (h : m.step e = some t) : t.kernel.misstored = [] ↔
      ∀ c a, m.kernel.curr = some c → m.Stores c e a → a.Fits c.userpt.pt := by
  rw [← step_misses_iff hs hch h, hm]

/-- A call on a terminal that is not there is refused, where it is not let
through. -/
theorem inRange_or_refused (hfit : m.StoresFit e) (h : m.step e = some t) : e.InRange ∨ t = m := by
  -- a call that enters no loop is refused, and the machine is as it was
  have hio : ∀ {s : Syscall Node Addr} {c : Proc Node Addr}
      {r : Machine Node Addr × Outcome IoFrame}, m.kernel.curr = some c → m.inUser = true →
      m.IoCall c (.call s) r → (∀ f, ¬ m.Enters c (.call s) f) →
      leaveIo m.kernel.procs.running r = m := by
    intro s c r hc huser hcall hno
    obtain ⟨hwaits, hsync, hframe⟩ := inUser_iff.mp huser
    rcases hcall.enters hwaits hsync with ⟨rfl, -⟩ | ⟨f, henters, -⟩
    · exact leaveIo_refused hframe _
    · exact absurd henters (hno f)
  cases e with
  | call s =>
    cases s with
    | ttyRead tty buf len =>
      rcases le_or_gt 0 tty with hlo | hneg
      · exact Or.inl hlo
      · right
        obtain ⟨c, hc, -, huser, hs⟩ := step_call h
        obtain rfl := Option.some.inj hs
        refine hio hc huser (IoCall.ttyRead tty buf len) fun f hf => ?_
        have hf' := hf
        cases hf with
        | ttyRead => exact absurd (hfit.ttyRead c tty buf len hc hf') (not_le.mpr hneg)
    | ttyWrite tty buf len =>
      rcases le_or_gt 0 tty with hlo | hneg
      · exact Or.inl hlo
      · right
        obtain ⟨c, hc, -, huser, hs⟩ := step_call h
        obtain rfl := Option.some.inj hs
        refine hio hc huser (IoCall.ttyWrite tty buf len) fun f hf => ?_
        have hf' := hf
        cases hf with
        | ttyWrite => exact absurd (hfit.ttyWrite c tty _ hc hf') (not_le.mpr hneg)
    | _ => exact Or.inl trivial
  | _ => exact Or.inl trivial

omit [DecidableEq Addr] in
/-- In a run that stays in range every terminal is there. -/
theorem there_of_inRange (hs : m.Sound) (he : e.InRange) :
    (∀ c tty buf len, m.Enters c e (.ttyRead tty buf len) → 0 ≤ tty) ∧
      ∀ c tty f, m.Enters c e (.ttyWrite tty f) → 0 ≤ tty := by
  constructor
  · intro c tty buf len h
    cases h with
    | ttyRead => exact he
    | back _ hwaits hsync hf => exact (hs.frames _ _ hf).1
  · intro c tty f h
    cases h with
    | ttyWrite => exact he
    | back _ hwaits hsync hf => exact (hs.frames _ _ hf).1

/-- **A call that is handed an address of no valid page of region 1** returns
ERROR, and nothing changes. -/
structure Refuses (m : Machine Node Addr) : Prop where
  wait : ∀ c ptr, m.kernel.curr = some c → ptr ≠ 0 → ¬ mapped c.userpt.pt ptr →
    kernelWait m.kernel ptr = some (m.kernel, .returned errorCode)
  init : ∀ c ptr, m.kernel.curr = some c → ¬ mapped c.userpt.pt ptr →
    m.kernelPipeInit c.userpt.pt ptr = (m, errorCode) ∧
    m.kernelLockInit c.userpt.pt ptr = (m, errorCode) ∧
    ∀ second, m.kernelCvarInit c.userpt.pt ptr second = (m, errorCode)
  read : ∀ c buf len, ∀ i : ℕ, m.kernel.curr = some c → i < len.toNat →
    ¬ mapped c.userpt.pt (buf + i) →
    (∀ tty, m.kernelTtyRead c.userpt.pt tty buf len = (m, .returned errorCode)) ∧
    ∀ id, m.kernelPipeRead c.userpt.pt id buf len = (m, .returned errorCode)

theorem refuses (m : Machine Node Addr) : m.Refuses where
  wait := by
    intro c ptr hc hne hno
    have hcheck : ¬ checkAddr ptr protWrite c.userpt.pt = true := fun h =>
      hno (mapped_of_checkAddr h)
    unfold kernelWait
    rw [hc]
    dsimp only
    rw [if_pos ⟨hne, hcheck⟩]
  init := by
    intro c ptr hc hno
    have hcheck : ¬ checkAddr ptr protWrite c.userpt.pt = true := fun h =>
      hno (mapped_of_checkAddr h)
    have hinit : ∀ new : ℤ → Machine Node Addr → Machine Node Addr,
        m.initObject c.userpt.pt ptr new = (m, errorCode) := by
      intro new
      unfold initObject
      by_cases hmem : noKernelMemory m.kernel 1 = true
      · rw [if_pos hmem]
      · rw [if_neg hmem, if_pos hcheck]
    exact ⟨hinit _, hinit _, fun second => hinit _⟩
  read := by
    intro c buf len i hc hi hno
    have hcheck : ¬ checkBuffer len buf protRead c.userpt.pt = true := fun h =>
      hno (mapped_of_checkAddr (checkBuffer_iff.mp h i hi))
    constructor
    · intro tty
      unfold kernelTtyRead
      rw [if_pos (Or.inr hcheck)]
    · intro id
      unfold kernelPipeRead
      cases Filed.find m.io.pipe id with
      | none => rfl
      | some pipe =>
        dsimp only
        rw [if_pos hcheck]

/-- **The kernel has stored only to writable memory**, and refuses what it is
to refuse. -/
def StoresWritable (m : Machine Node Addr) : Prop :=
  m.kernel.misstored = [] ∧ m.Refuses

theorem start_checked (hb : start b = some m) : m.Checked := by
  have hwaits : m.kernel.waits = fun _ => none := by
    obtain ⟨k, hk, rfl⟩ := Option.map_eq_some_iff.mp hb
    exact (kernelStart_family hk).2.2.2.2.2
  have hframe : m.io.frame = fun _ => none := by
    obtain ⟨k, hk, rfl⟩ := Option.map_eq_some_iff.mp hb
    rfl
  constructor
  · intro p ptr hp
    rw [hwaits] at hp
    cases hp
  · intro p f hp
    rw [hframe] at hp
    cases hp

omit [Devices] in
theorem kernelStart_misstored {k : Kernel Node Addr} (hb : kernelStart b = some k) :
    k.misstored = [] := by
  unfold kernelStart at hb
  split at hb
  · cases hb
  · obtain ⟨k₁, hk₁, rfl⟩ := Option.map_eq_some_iff.mp hb
    rw [idleSetup_eq]
    unfold initLoad at hk₁
    dsimp only at hk₁
    split at hk₁
    · cases hk₁
    · rw [← Option.some.inj hk₁]

/-- **The kernel stores only to writable memory** in every run whose callers
see to what the checks leave out; and where no terminal id is negative, in
no other. -/
theorem stores_writable_iff (hb : start b = some m) :
    (Run.Along step StoresFit m es → Run.Throughout step StoresWritable m es) ∧
    ((∀ e ∈ es, e.InRange) → Run.Throughout step StoresWritable m es →
      Run.Along step StoresFit m es) := by
  have hnone : m.kernel.misstored = [] := by
    obtain ⟨k, hk, rfl⟩ := Option.map_eq_some_iff.mp hb
    exact kernelStart_misstored hk
  have hinv : ∀ (s : Machine Node Addr) (e : Event Node Addr) (t : Machine Node Addr),
      s.Sound ∧ s.Checked → e.InRange → s.step e = some t → t.Sound ∧ t.Checked :=
    fun s e t hs he ht => ⟨(step_owes hs.1 he ht).1, step_checked hs.1 hs.2 ht⟩
  constructor
  · intro hok
    refine (Run.throughout_of_along (D := fun _ => True)
      (I := fun s => (s.Sound ∧ s.Checked) ∧ s.kernel.misstored = []) (fun s e t hs _ hfit ht => ?_)
      (fun _ _ => trivial) ⟨⟨(start_sound hb).1, start_checked hb⟩, hnone⟩ hok).mono
      fun s hs => ⟨hs.2, s.refuses⟩
    rcases inRange_or_refused hfit ht with he | rfl
    · exact ⟨hinv s e t hs.1 he ht,
        (step_misstored hs.1.1 hs.1.2 hs.2 ht).mpr hfit.fits⟩
    · exact hs
  · intro hes hall
    refine (Run.throughout_iff_along (I := fun s => s.Sound ∧ s.Checked)
      (P := fun s => s.kernel.misstored = []) hinv (fun s e t hs hp he ht => ?_) hes
      ⟨(start_sound hb).1, start_checked hb⟩ hnone).mp (hall.mono fun s hs => hs.1)
    rw [step_misstored hs.1 hs.2 hp ht]
    refine ⟨fun hfits => ?_, fun hfit => hfit.fits⟩
    obtain ⟨hread, hwrite⟩ := there_of_inRange (e := e) hs.1 he
    exact ⟨fun c tty buf len _ => hread c tty buf len, fun c tty f _ => hwrite c tty f, hfits⟩

omit [DecidableEq Node] [DecidableEq Addr] in
/-- A call that makes an object stores its id. -/
theorem storesFit_id {s : Syscall Node Addr} {ptr : ℤ} (hs : s.idPointer = some ptr)
    (hfit : ∀ c, m.kernel.curr = some c → (Answer.word ptr).Fits c.userpt.pt) :
    m.StoresFit (.call s) := by
  refine ⟨fun c tty buf len _ h => absurd hs h.not_id, fun c tty f _ h => absurd hs h.not_id,
    fun c a hc h => ?_⟩
  cases h with
  | status e act kin ptr he =>
    rcases he with he | ⟨he, -⟩
    · cases he
      cases hs
    · cases he
  | id s ptr' hs' =>
    obtain rfl := Option.some.inj (hs.symm.trans hs')
    exact hfit c hc
  | tty e tty buf len h => exact absurd hs h.not_id
  | pipe e id buf len pipe h => exact absurd hs h.not_id

omit [DecidableEq Node] [DecidableEq Addr] in
/-- A read from a pipe stores what it gets. -/
theorem storesFit_pipeRead {id buf len : ℤ} (hfit : ∀ c pipe, m.kernel.curr = some c →
    Filed.find m.io.pipe id = some pipe →
      (Answer.bytes buf (min pipe.buffer.filled len).toNat).Fits c.userpt.pt) :
    m.StoresFit (.call (.pipeRead id buf len)) := by
  refine ⟨fun c tty buf len _ h => ?_, fun c tty f _ h => ?_, fun c a hc h => ?_⟩
  · cases h
  · cases h
  · cases h with
    | status e act kin ptr he => rcases he with he | ⟨he, -⟩ <;> cases he
    | id s ptr hs => cases hs
    | tty e tty buf len h => cases h
    | pipe e id buf len pipe h hfind =>
      cases h
      exact hfit c pipe hc hfind

omit [DecidableEq Node] [DecidableEq Addr] in
/-- A write to a pipe stores nothing. -/
theorem storesFit_pipeWrite {id buf len total : ℤ} :
    m.StoresFit (.call (.pipeWrite id buf len total)) := by
  refine ⟨fun c tty buf len _ h => ?_, fun c tty f _ h => ?_, fun c a hc h => ?_⟩
  · cases h
  · cases h
  · cases h with
    | status e act kin ptr he => rcases he with he | ⟨he, -⟩ <;> cases he
    | id s ptr hs => cases hs
    | tty e tty buf len h => cases h
    | pipe e id buf len pipe h => cases h

omit [Paging] [Devices] in
/-- Init makes a pipe, has its id stored on the stack, and reads back there
what it has written to the pipe. -/
theorem stores_writable_iff_stack :
    let _ := yalnixPaging
    let _ := yalnixDevices
    let es : List (Event ℕ ℕ) := [.call (.pipeInit 0x1ff000), .call (.pipeWrite 0 0x1ff000 3 0),
      .call (.pipeRead 0 0x1ff004 2)]
    ∃ m u : Machine ℕ ℕ, start (smallBoot 140) = some m ∧ Run.exec step m es = some u ∧
      Run.Along step StoresFit m es ∧ Run.Throughout step StoresWritable m es := by
  let _ := yalnixPaging
  let _ := yalnixDevices
  intro _ _ es
  have hruns : ((start (smallBoot 140)).bind fun m =>
      (m.step (.call (.pipeInit 0x1ff000))).bind fun m₁ =>
        (m₁.step (.call (.pipeWrite 0 0x1ff000 3 0))).bind fun m₂ =>
          (m₂.step (.call (.pipeRead 0 0x1ff004 2))).bind fun _ =>
            m.kernel.curr.bind fun c => m₂.kernel.curr.bind fun c₂ =>
              (Filed.find m₂.io.pipe 0).map fun pipe =>
                (decide ((Answer.word 0x1ff000).Fits c.userpt.pt),
                  decide ((Answer.bytes 0x1ff004 (min pipe.buffer.filled 2).toNat).Fits
                    c₂.userpt.pt))) = some (true, true) := by
    decide +kernel
  obtain ⟨m, hm, hruns⟩ := Option.bind_eq_some_iff.mp hruns
  obtain ⟨m₁, hm₁, hruns⟩ := Option.bind_eq_some_iff.mp hruns
  obtain ⟨m₂, hm₂, hruns⟩ := Option.bind_eq_some_iff.mp hruns
  obtain ⟨u, hu, hruns⟩ := Option.bind_eq_some_iff.mp hruns
  obtain ⟨c, hc, hruns⟩ := Option.bind_eq_some_iff.mp hruns
  obtain ⟨c₂, hc₂, hruns⟩ := Option.bind_eq_some_iff.mp hruns
  obtain ⟨pipe, hfind, heq⟩ := Option.map_eq_some_iff.mp hruns
  obtain ⟨hid, hread⟩ := Prod.mk.inj heq
  have hfits : Run.Along step StoresFit m es := by
    refine (Run.along_cons hm₁).mpr ⟨storesFit_id rfl fun c' hc' => ?_,
      (Run.along_cons hm₂).mpr ⟨storesFit_pipeWrite, (Run.along_cons hu).mpr
        ⟨storesFit_pipeRead fun c' pipe' hc' hfind' => ?_, trivial⟩⟩⟩
    · obtain rfl := Option.some.inj (hc.symm.trans hc')
      exact of_decide_eq_true hid
    · obtain rfl := Option.some.inj (hc₂.symm.trans hc')
      obtain rfl := Option.some.inj (hfind.symm.trans hfind')
      exact of_decide_eq_true hread
  exact ⟨m, u, hm, Run.exec_cons.mpr ⟨m₁, hm₁, Run.exec_cons.mpr ⟨m₂, hm₂,
    Run.exec_singleton.trans hu⟩⟩, hfits, (stores_writable_iff hm).1 hfits⟩

omit [Paging] [Devices] in
/-- Init makes a pipe with the last byte of its data page for the id: three
bytes go to a page that is not valid. -/
theorem not_stores_writable :
    let _ := yalnixPaging
    let _ := yalnixDevices
    ∃ m₀ m : Machine ℕ ℕ, start (smallBoot 140) = some m₀ ∧
      Run.exec step m₀ [.call (.pipeInit 0x101fff)] = some m ∧
      m.kernel.misstored = [0x102000, 0x102001, 0x102002] ∧
      ¬ Run.Throughout step StoresWritable m₀ [.call (.pipeInit 0x101fff)] := by
  let _ := yalnixPaging
  let _ := yalnixDevices
  let es : List (Event ℕ ℕ) := [.call (.pipeInit 0x101fff)]
  have hruns : ((start (smallBoot 140)).bind fun m => (Run.exec step m es).map fun m =>
      m.kernel.misstored) = some [0x102000, 0x102001, 0x102002] := by
    decide +kernel
  obtain ⟨m₀, hm₀, hm⟩ := Option.bind_eq_some_iff.mp hruns
  obtain ⟨m, hrun, hmiss⟩ := Option.map_eq_some_iff.mp hm
  refine ⟨m₀, m, hm₀, hrun, hmiss, fun hall => ?_⟩
  have hnone := (hall.final hrun).1
  rw [show m.kernel.misstored = _ from hmiss] at hnone
  cases hnone

end Machine

end Yalnix
