import Yalnix.Machine.Lawful
import Yalnix.Machine.Stores
import Yalnix.Pilocvario.Shelves
/-!
# Ids

`pilocvar->count` numbers pipes, locks and condition variables alike, and
`KernelReclaim` is told an id and no kind. The machine is a registry of ids
in the sense of `Common/Registry.lean`, where a call that makes an object
issues one and a reclaim retires one, and its three lists in memory follow
it.
-/

namespace Yalnix

variable {Node Addr : Type}

/-- A pipe, a lock or a condition variable. -/
inductive Object (Node : Type) where
  | pipe (p : Pipe Node)
  | lock (l : Lock Node)
  | cvar (c : Cvar Node)

namespace Object

def kind : Object Node → Kind
  | .pipe _ => .pipe
  | .lock _ => .lock
  | .cvar _ => .cvar

/-- As `new_pipe`, `new_lock` or `new_cvar` leaves it. -/
def IsNew [Devices] : Object Node → Prop
  | .pipe p => p = newPipe
  | .lock l => l = newLock
  | .cvar c => ∃ second, c = newCvar second

end Object

namespace Machine

variable {m t : Machine Node Addr} {e : Event Node Addr} {k k' : Kind} {id id' : ℤ}
  {o : Object Node}

/-! ## The machine as a registry -/

/-- The ids on the list of a kind. -/
def ids (m : Machine Node Addr) : Kind → List ℤ
  | .pipe => m.io.pipe.map Filed.code
  | .lock => m.sync.lock.map Filed.code
  | .cvar => m.sync.cvar.map Filed.code

/-- What `find_pipe`, `find_lock` and `find_cvar` find. -/
def find (m : Machine Node Addr) (id : ℤ) : Kind → Option (Object Node)
  | .pipe => (Filed.find m.io.pipe id).map .pipe
  | .lock => (Filed.find m.sync.lock id).map .lock
  | .cvar => (Filed.find m.sync.cvar id).map .cvar

def registry (m : Machine Node Addr) : Registry Kind where
  next := m.count
  ids := m.ids

/-- An object is put on its list. -/
def file (m : Machine Node Addr) (id : ℤ) : Object Node → Machine Node Addr
  | .pipe p => { m with io := { m.io with pipe := m.io.pipe ++ [⟨id, p⟩] } }
  | .lock l => { m with sync := { m.sync with lock := m.sync.lock ++ [⟨id, l⟩] } }
  | .cvar c => { m with sync := { m.sync with cvar := m.sync.cvar ++ [⟨id, c⟩] } }

/-- An object is taken off its list. -/
def unfile (m : Machine Node Addr) (id : ℤ) : Kind → Machine Node Addr
  | .pipe => { m with io := { m.io with pipe := Filed.remove m.io.pipe id } }
  | .lock => { m with sync := { m.sync with lock := Filed.remove m.sync.lock id } }
  | .cvar => { m with sync := { m.sync with cvar := Filed.remove m.sync.cvar id } }

theorem isSome_find : (m.find id k).isSome = true ↔ id ∈ m.ids k := by
  cases k <;> exact (Bool.eq_iff_iff.mp Option.isSome_map).trans Filed.isSome_find

theorem nodup_ids (h : m.Numbered) (k : Kind) : (m.ids k).Nodup := by
  cases k
  · exact h.pipe_nodup
  · exact h.lock_nodup
  · exact h.cvar_nodup

theorem ids_file : (m.file id o).ids = Function.update m.ids o.kind (m.ids o.kind ++ [id]) := by
  funext k
  cases o <;> cases k <;> simp [file, ids, Object.kind]

theorem ids_unfile : (m.unfile id k).ids = Function.update m.ids k ((m.ids k).erase id) := by
  funext k'
  cases k <;> cases k' <;> simp [unfile, ids, Filed.map_code_remove]

/-- **A new object is found under its id**. -/
theorem find_file_self (hnew : id ∉ m.ids o.kind) : (m.file id o).find id o.kind = some o := by
  cases o <;> exact congrArg (Option.map _) (Filed.find_append_self hnew)

theorem find_file_of_ne (hne : (k', id') ≠ (o.kind, id)) :
    (m.file id o).find id' k' = m.find id' k' := by
  by_cases hid : id' = id
  · subst hid
    cases o <;> cases k' <;> first | rfl | exact absurd rfl hne
  · cases o <;> cases k' <;>
      first | rfl | exact congrArg (Option.map _) (Filed.find_append_of_ne hid)

/-- **A retired one is not found any more.** -/
theorem find_unfile_self (h : m.Numbered) : (m.unfile id k).find id k = none := by
  cases k
  · exact congrArg (Option.map _) (Filed.find_remove_self h.pipe_nodup)
  · exact congrArg (Option.map _) (Filed.find_remove_self h.lock_nodup)
  · exact congrArg (Option.map _) (Filed.find_remove_self h.cvar_nodup)

theorem find_unfile_of_ne (hne : (k', id') ≠ (k, id)) :
    (m.unfile id k).find id' k' = m.find id' k' := by
  by_cases hid : id' = id
  · subst hid
    cases k <;> cases k' <;> first | rfl | exact absurd rfl hne
  · cases k <;> cases k' <;>
      first | rfl | exact congrArg (Option.map _) (Filed.find_remove_of_ne hid)

/-! ## What a call does to the registry -/

section Deeds

variable [Paging] [Devices]

open Devices

/-- The list `KernelReclaim` takes the object from. -/
def reclaimKind (m : Machine Node Addr) (id : ℤ) : Kind :=
  if (Filed.find m.io.pipe id).isSome then .pipe
  else if (Filed.find m.sync.cvar id).isSome then .cvar
  else .lock

/-- A call that makes an object and returns `r`. -/
def initDeeds (m : Machine Node Addr) (k : Kind) (r : ℤ) : List (Deed Kind) :=
  if r = 0 then [.issue k m.count] else []

variable [DecidableEq Node]

/-- What a system call does that returns 0. -/
def callDeeds (m : Machine Node Addr) (c : Proc Node Addr) : Syscall Node Addr → List (Deed Kind)
  | .pipeInit ptr => m.initDeeds .pipe (m.kernelPipeInit c.userpt.pt ptr).2
  | .lockInit ptr => m.initDeeds .lock (m.kernelLockInit c.userpt.pt ptr).2
  | .cvarInit ptr second => m.initDeeds .cvar (m.kernelCvarInit c.userpt.pt ptr second).2
  | .reclaim id size =>
    if (m.kernelReclaim id size).2 = 0 then [.retire (m.reclaimKind id) id] else []
  | _ => []

/-- **What an event does to the registry.** -/
def deeds (m : Machine Node Addr) : Event Node Addr → List (Deed Kind)
  | .call s => m.kernel.curr.elim [] fun c => m.callDeeds c s
  | _ => []

omit [Devices] [DecidableEq Node] in
/-- **A call that makes an object**, where it is done: the object is filed
under the next id, and the id is stored for the caller. -/
theorem initObject_done {pt : ℤ → Pte} {ptr : ℤ} {new : ℤ → Machine Node Addr → Machine Node Addr}
    (h : (m.initObject pt ptr new).2 = 0) : (m.initObject pt ptr new).1 =
      let m' := new m.count { m with count := m.count + 1 }
      { m' with kernel := storeUser m'.kernel pt ptr (wordBytes m.count) } := by
  unfold initObject at h ⊢
  split at h
  · exact absurd h errorCode_ne_zero
  · rename_i hmem
    rw [if_neg hmem]
    split at h
    · exact absurd h errorCode_ne_zero
    · rename_i hcheck
      rw [if_neg hcheck]
      dsimp only
      rw [if_pos (ne_zero_of_mapped (mapped_of_checkAddr (not_not.mp hcheck)))]

omit [Devices] [DecidableEq Node] in
theorem initObject_file {pt : ℤ → Pte} {ptr : ℤ}
    (h : (m.initObject pt ptr fun id m => m.file id o).2 = 0) :
    (m.initObject pt ptr fun id m => m.file id o).1 =
      { m.file m.count o with
        kernel := storeUser m.kernel pt ptr (wordBytes m.count)
        count := m.count + 1 } := by
  rw [initObject_done h]
  cases o <;> rfl

omit [Devices] [DecidableEq Node] in
/-- Where it is not, nothing happens. -/
theorem initObject_failed {pt : ℤ → Pte} {ptr : ℤ}
    {new : ℤ → Machine Node Addr → Machine Node Addr} (h : (m.initObject pt ptr new).2 ≠ 0) :
    (m.initObject pt ptr new).1 = m := by
  rcases initObject_cases (rfl : m.initObject pt ptr new = _) with heq | ⟨k, heq, -⟩
  · rw [heq]
  · rw [heq] at h
    exact absurd rfl h

omit [DecidableEq Node] in
/-- **The three calls that make an object are one**, of the three kinds. -/
theorem InitCall.eq {c : Proc Node Addr} {s : Syscall Node Addr} {r : Machine Node Addr × ℤ}
    (h : m.InitCall c s r) : ∃ ptr o, s.idPointer = some ptr ∧ o.IsNew ∧
      r = m.initObject c.userpt.pt ptr (fun id m => m.file id o) ∧
      m.callDeeds c s = m.initDeeds o.kind r.2 := by
  cases h with
  | pipeInit ptr => exact ⟨ptr, .pipe newPipe, rfl, rfl, rfl, rfl⟩
  | lockInit ptr => exact ⟨ptr, .lock newLock, rfl, rfl, rfl, rfl⟩
  | cvarInit ptr second => exact ⟨ptr, .cvar (newCvar second), rfl, ⟨second, rfl⟩, rfl, rfl⟩

omit [Paging] [Devices] [DecidableEq Node] in
/-- **A reclaim** does nothing, or takes one object off its list. -/
theorem kernelReclaim_cases (id : ℤ) (size : ℤ → ℤ) :
    m.kernelReclaim id size = (m, errorCode) ∨
    id ∈ m.ids (m.reclaimKind id) ∧
      m.kernelReclaim id size = (m.unfile id (m.reclaimKind id), 0) := by
  rw [← isSome_find]
  unfold kernelReclaim reclaimKind
  cases hpipe : Filed.find m.io.pipe id with
  | some pipe =>
    dsimp only
    rw [Option.isSome_some, if_pos rfl, find, hpipe]
    unfold destroyPipe
    split
    · exact Or.inl rfl
    · exact Or.inr ⟨rfl, rfl⟩
  | none =>
    rw [Option.isSome_none, if_neg Bool.false_ne_true]
    cases hcvar : Filed.find m.sync.cvar id with
    | some cvar =>
      dsimp only
      rw [Option.isSome_some, if_pos rfl, find, hcvar]
      unfold Sync.destroyCvar
      split
      · exact Or.inl rfl
      · exact Or.inr ⟨rfl, rfl⟩
    | none =>
      rw [Option.isSome_none, if_neg Bool.false_ne_true]
      cases hlock : Filed.find m.sync.lock id with
      | some lock =>
        dsimp only
        rw [find, hlock]
        unfold Sync.destroyLock
        split
        · exact Or.inl rfl
        · exact Or.inr ⟨rfl, rfl⟩
      | none => exact Or.inl rfl

variable [DecidableEq Addr]

omit [DecidableEq Node] [DecidableEq Addr] in
/-- Only a call that makes or destroys has deeds. -/
theorem deeds_of_files (h : e.Files = false) : m.deeds e = [] := by
  cases e with
  | call s =>
    unfold deeds
    cases m.kernel.curr with
    | none => rfl
    | some c => cases s <;> first | rfl | cases h
  | resume => rfl
  | clock => rfl
  | ttyReceive tty landing read => rfl
  | ttyTransmit tty => rfl

omit [Paging] [Devices] [DecidableEq Node] [DecidableEq Addr] in
theorem inRange_of_files (h : e.Files = true) : e.InRange := by
  cases e with
  | call s => cases s <;> trivial
  | resume => trivial
  | clock => trivial
  | ttyReceive tty landing read => trivial
  | ttyTransmit tty => trivial

omit [DecidableEq Node] [DecidableEq Addr] in
theorem deeds_call {c : Proc Node Addr} (hc : m.kernel.curr = some c) (s : Syscall Node Addr) :
    m.deeds (.call s) = m.callDeeds c s := by
  unfold deeds
  rw [hc]
  rfl

/-- **The machine is a registry**: an event does to the ids what its deeds
say. -/
theorem step_registry (h : m.Lawful) (he : e.InRange) (hstep : m.step e = some t) :
    Run.exec Registry.step m.registry (m.deeds e) = some t.registry := by
  cases onIds h he hstep with
  | kept _ _ hfiles hpipe hlock hcvar hcount =>
    have hids : t.ids = m.ids := by
      funext k
      cases k
      · exact hpipe
      · exact hlock
      · exact hcvar
    rw [deeds_of_files hfiles]
    unfold registry
    rw [hids, hcount]
    rfl
  | made c s r hc hinit =>
    obtain ⟨ptr, o, -, -, hr, hdeeds⟩ := hinit.eq
    rw [deeds_call hc, hdeeds, hr]
    unfold initDeeds
    split
    · rename_i hdone
      rw [initObject_file hdone, Run.exec_singleton]
      refine (Registry.step_issue (r := m.registry) o.kind).trans (congrArg some ?_)
      exact congrArg (Registry.mk (m.count + 1)) ids_file.symm
    · rename_i hfailed
      rw [initObject_failed hfailed]
      rfl
  | reclaimed c id size hc =>
    have hdeeds : m.callDeeds c (.reclaim id size) =
      if (m.kernelReclaim id size).2 = 0 then [.retire (m.reclaimKind id) id] else [] := rfl
    rw [deeds_call hc, hdeeds]
    rcases kernelReclaim_cases (m := m) id size with heq | ⟨hin, heq⟩
    · rw [heq, if_neg errorCode_ne_zero]
      rfl
    · rw [heq, if_pos rfl, Run.exec_singleton]
      refine (Registry.step_retire (r := m.registry) hin).trans (congrArg some ?_)
      have hids : (m.unfile id (m.reclaimKind id)).ids = _ := ids_unfile
      have hcount : (m.unfile id (m.reclaimKind id)).count = m.count := by
        cases m.reclaimKind id <;> rfl
      unfold registry
      rw [hids, hcount]

/-! ## The law -/

/-- **A call that makes an object**: nobody had the id, it is stored for the
caller, and the new object is found under it. -/
structure Inits (m : Machine Node Addr) (e : Event Node Addr) (t : Machine Node Addr) (k : Kind)
    (id : ℤ) : Prop where
  unused : ∀ k', m.find id k' = none
  found : ∃ o : Object Node, o.IsNew ∧ o.kind = k ∧ t.find id k = some o
  others : ∀ k' id', (k', id') ≠ (k, id) → t.find id' k' = m.find id' k'
  stored : ∃ c s ptr, m.kernel.curr = some c ∧ e = .call s ∧ s.idPointer = some ptr ∧
    t.kernel = storeUser m.kernel c.userpt.pt ptr (wordBytes id)

/-- **A reclaim that is done** takes exactly one object off its list; in
memory too. -/
structure ReclaimsOne (node : ℤ → Node) (m t : Machine Node Addr) (s : Lists Kind Node) (k : Kind)
    (id : ℤ) : Prop where
  live : (m.find id k).isSome
  gone : t.find id k = none
  others : ∀ k' id', (k', id') ≠ (k, id) → t.find id' k' = m.find id' k'
  ids : t.ids = Function.update m.ids k ((m.ids k).erase id)
  lists : ∃ s', s.unfile k id = some s' ∧ s'.lookup k id = some none ∧
    (∀ k' id', (k', id') ≠ (k, id) → s'.lookup k' id' = s.lookup k' id') ∧
    ∀ k', k' ≠ k → s'.list k' = s.list k' ∧
      ∀ id' ∈ m.ids k', s'.heap (node id') = s.heap (node id')

/-- **Ids are unambiguous**, after the deeds that led to the state, with the
lists as memory has them. -/
structure Unambiguous (node : ℤ → Node) (deeds : List (Deed Kind)) (m : Machine Node Addr)
    (s : Lists Kind Node) : Prop where
  /-- No two live objects share an id. -/
  nodup : ∀ k, (m.ids k).Nodup
  kind : ∀ k k' id, (m.find id k).isSome → (m.find id k').isSome → k = k'
  once : (Registry.issued deeds).Nodup
  /-- The counter is an `int`. -/
  fits : m.count < 2 ^ 31 ∧ ∀ id ∈ Registry.issued deeds, 0 ≤ id ∧ id < m.count
  /-- An object is found while it is live, and only then. -/
  found : ∀ k id, (m.find id k).isSome ↔ Deed.issue k id ∈ deeds ∧ Deed.retire k id ∉ deeds
  /-- It is found in memory at the node that was made for the id. -/
  looked : ∀ k id, s.lookup k id = some (if (m.find id k).isSome then some (node id) else none)
  inits : ∀ e t k id, m.step e = some t → Deed.issue k id ∈ m.deeds e → m.Inits e t k id
  reclaims : ∀ id size, (m.kernelReclaim id size).2 = 0 →
    ∃ k, ReclaimsOne node m (m.kernelReclaim id size).1 s k id

omit [Paging] [Devices] [DecidableEq Node] [DecidableEq Addr] in
/-- An id in use is below the counter. -/
theorem Numbered.lt_count (h : m.Numbered) (hin : id ∈ m.ids k) : id < m.count := by
  refine h.below id ?_
  unfold codes
  cases k
  · exact List.mem_append_left _ (List.mem_append_left _ hin)
  · exact List.mem_append_left _ (List.mem_append_right _ hin)
  · exact List.mem_append_right _ hin

/-- **An id is issued by a call that makes an object.** -/
theorem step_inits (h : m.Lawful) (he : e.InRange) (hstep : m.step e = some t)
    (hin : Deed.issue k id ∈ m.deeds e) : m.Inits e t k id := by
  cases onIds h he hstep with
  | kept _ _ hfiles =>
    rw [deeds_of_files hfiles] at hin
    exact absurd hin List.not_mem_nil
  | made c s r hc hinit =>
    obtain ⟨ptr, o, hptr, hnew, hr, hdeeds⟩ := hinit.eq
    rw [deeds_call hc, hdeeds] at hin
    unfold initDeeds at hin
    split at hin
    · rename_i hdone
      obtain ⟨rfl, rfl⟩ := Deed.issue.inj (List.mem_singleton.mp hin)
      have hunused : ∀ k', m.count ∉ m.ids k' := fun k' hmem =>
        Int.lt_irrefl _ (h.numbered.lt_count hmem)
      rw [hr] at hdone ⊢
      rw [initObject_file hdone]
      have hfind : ∀ (m' : Machine Node Addr) (k' : Kernel Node Addr) (n : ℤ),
          ({ m' with kernel := k', count := n } : Machine Node Addr).find = m'.find := by
        intro m' k' n
        funext i k
        cases k <;> rfl
      refine ⟨fun k' => ?_, ⟨o, hnew, rfl, ?_⟩, fun k' id' hne => ?_, c, s, ptr, hc, rfl, hptr, rfl⟩
      · rw [← Option.not_isSome_iff_eq_none, isSome_find]
        exact hunused k'
      · rw [hfind]
        exact find_file_self (hunused o.kind)
      · rw [hfind]
        exact find_file_of_ne hne
    · exact absurd hin List.not_mem_nil
  | reclaimed c id' size hc =>
    have hdeeds : m.callDeeds c (.reclaim id' size) =
      if (m.kernelReclaim id' size).2 = 0 then [.retire (m.reclaimKind id') id'] else [] := rfl
    rw [deeds_call hc, hdeeds] at hin
    split at hin
    · cases List.mem_singleton.mp hin
    · exact absurd hin List.not_mem_nil

omit [Paging] [Devices] [DecidableEq Addr] in
/-- **A reclaim that is done** takes one object off its list. -/
theorem reclaimsOne {node : ℤ → Node} {s : Lists Kind Node} (h : m.Numbered)
    (hs : Shelved node s m.registry) {size : ℤ → ℤ} (hdone : (m.kernelReclaim id size).2 = 0) :
    ReclaimsOne node m (m.kernelReclaim id size).1 s (m.reclaimKind id) id := by
  rcases kernelReclaim_cases (m := m) id size with heq | ⟨hin, heq⟩
  · rw [heq] at hdone
    exact absurd hdone errorCode_ne_zero
  · rw [heq]
    obtain ⟨s', hs', hshelved, hothers⟩ := hs.unfile hin
    refine ⟨isSome_find.mpr hin, find_unfile_self h, fun k' id' => find_unfile_of_ne, ids_unfile,
      s', hs', ?_, fun k' id' hne => ?_, hothers⟩
    · have hgone : id ∉ Function.update m.ids (m.reclaimKind id)
          ((m.ids (m.reclaimKind id)).erase id) (m.reclaimKind id) := by
        rw [Function.update_self]
        exact fun hmem => ((nodup_ids h _).mem_erase_iff.mp hmem).1 rfl
      rw [hshelved.lookup]
      exact congrArg some (if_neg hgone)
    · rw [hshelved.lookup, hs.lookup]
      have hmem : id' ∈ Function.update m.ids (m.reclaimKind id)
          ((m.ids (m.reclaimKind id)).erase id) k' ↔ id' ∈ m.ids k' := by
        rcases eq_or_ne k' (m.reclaimKind id) with rfl | hk
        · rw [Function.update_self, List.mem_erase_of_ne]
          rintro rfl
          exact hne rfl
        · rw [Function.update_of_ne hk]
      exact congrArg some (if_congr hmem rfl rfl)

/-- **Ids are unambiguous over whole runs** with fewer than `2 ^ 31` objects
made, wherever `malloc` has put their nodes. -/
theorem ids_unambiguous {b : Boot Node Addr} {m₀ : Machine Node Addr} {es : List (Event Node Addr)}
    (hb : start b = some m₀) (hes : ∀ e ∈ es, e.InRange) (hrun : Run.exec step m₀ es = some m)
    (hinits : (Registry.issued (Run.noted step deeds m₀ es)).length < 2 ^ 31) {node : ℤ → Node}
    (hfresh : Run.Along Registry.step (FreshNode node) Registry.empty
      (Run.noted step deeds m₀ es)) (heap : Heap Node) :
    ∃ s, Run.exec (Lists.deed node) (Lists.newLists heap) (Run.noted step deeds m₀ es) = some s ∧
      Unambiguous node (Run.noted step deeds m₀ es) m s := by
  have hall := throughout_lawful hb hes
  have hlawful := hall.final hrun
  have hempty : m₀.registry = Registry.empty := by
    obtain ⟨k, hk, rfl⟩ := Option.map_eq_some_iff.mp hb
    refine congrArg (Registry.mk 0) (funext fun k => ?_)
    cases k <;> rfl
  have hexec : Run.exec Registry.step Registry.empty (Run.noted step deeds m₀ es) =
      some m.registry :=
    hempty ▸ Run.exec_noted (fun _ e he _ hs ht => step_registry hs (hes e he) ht) hall hrun
  have hhistory := Registry.history_of_exec hexec
  obtain ⟨s, hs, hshelved⟩ := (Shelved.newLists node heap).exec hfresh hexec
  have hnext : m.count = (Registry.issued (Run.noted step deeds m₀ es)).length := hhistory.next
  refine ⟨s, hs, nodup_ids hlawful.numbered, fun k k' id hk hk' => ?_, hhistory.issued_nodup,
    ⟨by omega, fun id hid => ?_⟩, fun k id => ?_, fun k id => ?_, fun e t k id ht hin => ?_,
    fun id size hdone => ⟨_, reclaimsOne hlawful.numbered hshelved hdone⟩⟩
  · exact hhistory.kind_unique (isSome_find.mp hk) (isSome_find.mp hk')
  · obtain ⟨k, hin⟩ := Registry.mem_issued.mp hid
    exact hhistory.lt_next hin
  · exact isSome_find.trans (hhistory.mem k id)
  · rw [hshelved.lookup]
    exact congrArg some (if_congr isSome_find.symm rfl rfl)
  · have hfiles : e.Files = true := by
      by_contra hnot
      rw [deeds_of_files (Bool.not_eq_true _ ▸ hnot)] at hin
      exact absurd hin List.not_mem_nil
    exact step_inits hlawful (inRange_of_files hfiles) ht hin

omit [Paging] [Devices] [DecidableEq Node] [DecidableEq Addr] in
/-- Init makes one object of each kind, reclaims the lock and makes another
pipe, the node of which is where the lock's was. -/
theorem ids_unambiguous_reused :
    let _ := yalnixPaging
    let _ := yalnixDevices
    let node : ℤ → ℕ := fun id => (id % 3 + id / 3).toNat
    let es : List (Event ℕ ℕ) := [.call (.pipeInit 0x1ff000), .call (.lockInit 0x1ff000),
      .call (.cvarInit 0x1ff000 0), .call (.reclaim 1 fun _ => 7), .call (.pipeInit 0x1ff000)]
    ∃ (m₀ m : Machine ℕ ℕ) (s : Lists Kind ℕ), start (smallBoot 140) = some m₀ ∧
      Run.exec step m₀ es = some m ∧
      Run.exec (Lists.deed node) (Lists.newLists fun _ => ⟨0, none, none⟩)
        (Run.noted step deeds m₀ es) = some s ∧
      Unambiguous node (Run.noted step deeds m₀ es) m s := by
  let _ := yalnixPaging
  let _ := yalnixDevices
  let node : ℤ → ℕ := fun id => (id % 3 + id / 3).toNat
  let es : List (Event ℕ ℕ) := [.call (.pipeInit 0x1ff000), .call (.lockInit 0x1ff000),
    .call (.cvarInit 0x1ff000 0), .call (.reclaim 1 fun _ => 7), .call (.pipeInit 0x1ff000)]
  have hruns : ((start (smallBoot 140)).bind fun m => (Run.exec step m es).map fun _ =>
      Run.noted step deeds m es) = some [.issue .pipe 0, .issue .lock 1, .issue .cvar 2,
        .retire .lock 1, .issue .pipe 3] := by
    decide +kernel
  obtain ⟨m₀, hm₀, hm⟩ := Option.bind_eq_some_iff.mp hruns
  obtain ⟨m, hrun, hnoted⟩ := Option.map_eq_some_iff.mp hm
  have hfresh : Run.Along Registry.step (FreshNode node) Registry.empty
      (Run.noted step deeds m₀ es) := by
    rw [hnoted]
    refine ⟨?_, ?_, ?_, trivial, ?_, trivial⟩
    all_goals
      intro k id' hid'
      revert hid'
      cases k <;> simp [Registry.empty, node] <;> omega
  have hinits : (Registry.issued (Run.noted step deeds m₀ es)).length < 2 ^ 31 := by
    rw [hnoted]
    decide
  obtain ⟨s, hs, hunambiguous⟩ := ids_unambiguous hm₀ (by simp [es, Event.InRange]) hrun hinits
    hfresh fun _ => ⟨0, none, none⟩
  exact ⟨m₀, m, s, hm₀, hrun, hs, hunambiguous⟩

end Deeds

end Machine

end Yalnix
