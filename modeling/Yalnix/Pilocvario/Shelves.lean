import Yalnix.Common.Registry
import Yalnix.LinkedList.Lists
/-!
# The lists of `pilocvar`

Every pipe, lock and condition variable has a node with its id for a `code`,
on the list of its kind. Over the links in memory, an object is filed with
`enqueue`, looked up with `find` and taken off with `remove`; together the
three lists are a registry of ids (`Shelved.exec`).
-/

namespace Yalnix

/-- The kinds of object. -/
inductive Kind where
  | pipe
  | lock
  | cvar
  deriving DecidableEq

variable {Node : Type} [DecidableEq Node]

namespace Lists

/-- `new_pipe`, `new_lock` and `new_cvar`: the node `new_node` has returned
gets the id and goes on the list. -/
def file (s : Lists Kind Node) (k : Kind) (id : ℤ) (n : Node) : Option (Lists Kind Node) :=
  ({ s with heap := s.heap.setCode n id }).enqueue k (some n)

omit [DecidableEq Node] in
/-- `find_pipe`, `find_lock` and `find_cvar`. -/
def lookup (s : Lists Kind Node) (k : Kind) (id : ℤ) : Option (Option Node) :=
  (s.list k).find s.heap id

/-- What `KernelReclaim` does to the list, where the object is not in use. -/
def unfile (s : Lists Kind Node) (k : Kind) (id : ℤ) : Option (Lists Kind Node) :=
  (s.lookup k id).bind fun n => (s.remove k n).map Prod.fst

/-- A deed, with the node of each id. -/
def deed (node : ℤ → Node) (s : Lists Kind Node) : Deed Kind → Option (Lists Kind Node)
  | .issue k id => s.file k id (node id)
  | .retire k id => s.unfile k id

omit [DecidableEq Node] in
/-- The lists `pilocvar_init` makes, in whatever memory. -/
def newLists (heap : Heap Node) : Lists Kind Node where
  heap := heap
  list := fun _ => ⟨0, none, none⟩

end Lists

/-- **What `malloc` sees to**: a new node is none that is in use. -/
def FreshNode (node : ℤ → Node) (r : Registry Kind) : Deed Kind → Prop
  | .issue _ id => ∀ k, ∀ id' ∈ r.ids k, node id' ≠ node id
  | .retire _ _ => True

/-- **The lists are a registry**: each holds the nodes of its ids, in
order. -/
structure Shelved (node : ℤ → Node) (s : Lists Kind Node) (r : Registry Kind) : Prop where
  holds : s.Holds ⟨fun k => (r.ids k).map node, fun n => (s.heap n).code⟩
  code : ∀ k, ∀ id ∈ r.ids k, (s.heap (node id)).code = id

namespace Shelved

variable {node : ℤ → Node} {s t : Lists Kind Node} {r r' : Registry Kind} {k : Kind} {id : ℤ}
variable {d : Deed Kind} {deeds : List (Deed Kind)}

omit [DecidableEq Node] in
/-- **A lookup finds the node of the id**, if the list has it. -/
theorem lookup (h : Shelved node s r) (k : Kind) (id : ℤ) :
    s.lookup k id = some (if id ∈ r.ids k then some (node id) else none) := by
  have hfind : ∀ ids : List ℤ, (∀ i ∈ ids, (s.heap (node i)).code = i) →
      (ids.map node).find? (fun n => (s.heap n).code = id) =
        if id ∈ ids then some (node id) else none := by
    intro ids hcode
    induction ids with
    | nil => rfl
    | cons i ids ih =>
      have hi := hcode i List.mem_cons_self
      have hrest := ih fun j hj => hcode j (List.mem_cons_of_mem _ hj)
      rw [List.map_cons, List.find?_cons]
      rcases eq_or_ne i id with rfl | hne
      · simp [hi]
      · simp [hi, hne, hne.symm, hrest]
  unfold Lists.lookup
  rw [(h.holds.list k).find]
  exact congrArg some (hfind _ (h.code k))

omit [DecidableEq Node] in
/-- Two ids in use have two nodes. -/
theorem node_ne {id' : ℤ} {k' : Kind} (h : Shelved node s r) (hin : id ∈ r.ids k)
    (hin' : id' ∈ r.ids k') (hne : id' ≠ id) : node id' ≠ node id := by
  intro heq
  refine hne ?_
  rw [← h.code k' id' hin', heq, h.code k id hin]

/-- **An object is filed**, and the others stay as they are. -/
theorem file (h : Shelved node s r) (k : Kind)
    (hfresh : ∀ k', ∀ id' ∈ r.ids k', node id' ≠ node id) :
    ∃ t, s.file k id (node id) = some t ∧
      Shelved node t ⟨r.next + 1, Function.update r.ids k (r.ids k ++ [id])⟩ := by
  -- the new node is on no list, so that its code is nobody else's
  let heap := s.heap.setCode (node id) id
  let a : Sequences Kind Node := ⟨fun k => (r.ids k).map node, fun n => (heap n).code⟩
  have hnew : a.Fresh (node id) := by
    intro k' hin
    obtain ⟨id', hid', heq⟩ := List.mem_map.mp hin
    exact hfresh k' id' hid' heq
  have hheap : ∀ n, n ≠ node id → heap n = s.heap n := fun n hn => Function.update_of_ne hn _ _
  have hholds : ({ s with heap := heap } : Lists Kind Node).Holds a := by
    refine ⟨fun k' => (h.holds.list k').congr fun n hn => ?_, h.holds.disjoint, fun _ => rfl⟩
    have hsame := hheap n fun heq => hnew k' (heq ▸ hn)
    exact ⟨congrArg Cell.next hsame, congrArg Cell.prev hsame⟩
  obtain ⟨t, ht, hchanged⟩ := hholds.enqueue k hnew
  have hcode : ∀ n, (t.heap n).code = (heap n).code := fun n => hchanged.holds.code n
  have hseq : (a.set k (a.seq k ++ [node id])).seq =
      fun k' => (Function.update r.ids k (r.ids k ++ [id]) k').map node := by
    funext k'
    rw [Sequences.set_seq]
    rcases eq_or_ne k' k with rfl | hne
    · rw [if_pos rfl, Function.update_self, List.map_append, List.map_singleton]
    · rw [if_neg hne, Function.update_of_ne hne]
  refine ⟨t, ht, ?_, fun k' id' hin => ?_⟩
  · have hcodes : (fun n => (t.heap n).code) = (a.set k (a.seq k ++ [node id])).code :=
      funext hcode
    dsimp only
    rw [← hseq, hcodes]
    exact hchanged.holds
  · rw [hcode]
    have hold : ∀ k'', id' ∈ r.ids k'' → (heap (node id')).code = id' := fun k'' hin' => by
      rw [hheap _ (hfresh k'' id' hin')]
      exact h.code k'' id' hin'
    rcases eq_or_ne k' k with rfl | hne
    · dsimp only at hin
      rw [Function.update_self, List.mem_append, List.mem_singleton] at hin
      rcases hin with hin | rfl
      · exact hold k' hin
      · simp only [heap, Heap.setCode, Function.update_self]
    · dsimp only at hin
      rw [Function.update_of_ne hne] at hin
      exact hold k' hin

/-- **An object is taken off its list**, and the other lists stay as they
are. -/
theorem unfile (h : Shelved node s r) (hin : id ∈ r.ids k) :
    ∃ t, s.unfile k id = some t ∧
      Shelved node t { r with ids := Function.update r.ids k ((r.ids k).erase id) } ∧
      ∀ k', k' ≠ k → t.list k' = s.list k' ∧
        ∀ id' ∈ r.ids k', t.heap (node id') = s.heap (node id') := by
  obtain ⟨t, ht, hchanged⟩ := h.holds.remove (List.mem_map_of_mem hin)
  have hcode : ∀ n, (t.heap n).code = (s.heap n).code := fun n => hchanged.holds.code n
  have herase : ((r.ids k).map node).erase (node id) = ((r.ids k).erase id).map node := by
    have hinj : ∀ ids : List ℤ, (∀ i ∈ ids, i ∈ r.ids k) →
        (ids.map node).erase (node id) = (ids.erase id).map node := by
      intro ids hsub
      induction ids with
      | nil => rfl
      | cons i ids ih =>
        have hrest := ih fun j hj => hsub j (List.mem_cons_of_mem _ hj)
        rcases eq_or_ne i id with rfl | hne
        · rw [List.map_cons, List.erase_cons_head, List.erase_cons_head]
        · have hnode := h.node_ne hin (hsub i List.mem_cons_self) hne
          rw [List.map_cons, List.erase_cons_tail (by simpa using hnode),
            List.erase_cons_tail (by simpa using hne), List.map_cons, hrest]
    exact hinj _ fun _ hi => hi
  have hseq : (Sequences.set (⟨fun k => (r.ids k).map node, fun n => (s.heap n).code⟩ :
      Sequences Kind Node) k (((r.ids k).map node).erase (node id))).seq =
      fun k' => (Function.update r.ids k ((r.ids k).erase id) k').map node := by
    funext k'
    rw [Sequences.set_seq]
    rcases eq_or_ne k' k with rfl | hne
    · rw [if_pos rfl, Function.update_self, herase]
    · rw [if_neg hne, Function.update_of_ne hne]
  refine ⟨t, ?_, ⟨?_, fun k' id' hid' => ?_⟩, fun k' hne => ?_⟩
  · unfold Lists.unfile
    rw [h.lookup k id, if_pos hin, Option.bind_some, ht]
    rfl
  · have hcodes : (fun n => (t.heap n).code) = fun n => (s.heap n).code := funext hcode
    dsimp only
    rw [← hseq, hcodes]
    exact hchanged.holds
  · have hmem : id' ∈ r.ids k' := by
      dsimp only at hid'
      rcases eq_or_ne k' k with rfl | hne
      · rw [Function.update_self] at hid'
        exact List.mem_of_mem_erase hid'
      · rwa [Function.update_of_ne hne] at hid'
    rw [hcode]
    exact h.code k' id' hmem
  · obtain ⟨hlist, -, hheap⟩ := hchanged.others k' (by simpa using hne)
    exact ⟨hlist, fun id' hid' => hheap _ (List.mem_map_of_mem hid')⟩

/-- **A deed on the registry is one on the lists.** -/
theorem deed (h : Shelved node s r) (hfresh : FreshNode node r d) (hstep : r.step d = some r') :
    ∃ t, s.deed node d = some t ∧ Shelved node t r' := by
  cases d with
  | issue k id =>
    obtain ⟨-, heq⟩ := Option.ite_none_right_eq_some.mp hstep
    obtain ⟨t, ht, hshelved⟩ := h.file k hfresh
    exact ⟨t, ht, Option.some.inj heq ▸ hshelved⟩
  | retire k id =>
    obtain ⟨hin, heq⟩ := Option.ite_none_right_eq_some.mp hstep
    obtain ⟨t, ht, hshelved, -⟩ := h.unfile hin
    exact ⟨t, ht, Option.some.inj heq ▸ hshelved⟩

omit [DecidableEq Node] in
/-- The lists `pilocvar_init` makes are empty. -/
theorem newLists (node : ℤ → Node) (heap : Heap Node) :
    Shelved node (Lists.newLists heap) Registry.empty where
  holds := ⟨fun _ => ⟨trivial, rfl, rfl, rfl, List.nodup_nil⟩,
    fun _ _ _ _ hn => absurd hn List.not_mem_nil, fun _ => rfl⟩
  code := fun _ _ hin => absurd hin List.not_mem_nil

/-- **Whatever the registry does, the lists do.** -/
theorem exec (h : Shelved node s r) (hfresh : Run.Along Registry.step (FreshNode node) r deeds)
    (hrun : Run.exec Registry.step r deeds = some r') :
    ∃ t, Run.exec (Lists.deed node) s deeds = some t ∧ Shelved node t r' :=
  Run.exec_of_along (R := fun r s => Shelved node s r)
    (fun _ _ _ _ hs hfresh hstep => hs.deed hfresh hstep) hfresh h hrun

end Shelved

end Yalnix
