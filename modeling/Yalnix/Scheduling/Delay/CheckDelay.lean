import Yalnix.Scheduling.Delay.Model
/-!
# One call of `check_delay`

`unblock` links the node it moves at the end of the ready queue, whose last
node has no next. The loop goes on from the node it has just moved, so the
first process to expire ends it: those behind it keep their counters.
`checkDelay_all` and `checkDelay_first` are the two ways a call goes, and
`tickExact_iff` says when that is what a tick should do.
-/

namespace Yalnix

namespace Clock

variable {Node : Type} [DecidableEq Node]
variable {s s' : Sched Node} {xs rs as bs : List Node} {x p : Node}

/-- **The two queues**: `delayed` holds the nodes `xs` and `ready` the nodes
`rs`, and they share none. -/
structure Queues (s : Sched Node) (xs rs : List Node) : Prop where
  delayed : IsList s.heap s.delayed xs
  ready : IsList s.heap s.ready rs
  disjoint : xs.Disjoint rs

omit [DecidableEq Node] in
theorem Queues.sleepers_eq (hq : Queues s xs rs) : s.sleepers = xs := hq.delayed.nodes_eq

omit [DecidableEq Node] in
theorem Queues.runnable_eq (hq : Queues s xs rs) : s.runnable = rs := hq.ready.nodes_eq

/-- Moving nodes between the queues changes no counter, and neither who is
running nor who is idle. -/
structure Same (s s' : Sched Node) : Prop where
  code : ∀ y, (s'.heap y).code = (s.heap y).code
  running : s'.running = s.running
  idleNode : s'.idleNode = s.idleNode

/-! ## What the scheduler's functions do to the queues -/

/-- **`ready` appends.** -/
theorem Queues.ready_spec (hq : Queues s xs rs) (hx : p ∉ xs) (hr : p ∉ rs) :
    ∃ s', Clock.ready s (some p) = some s' ∧ Queues s' xs (rs ++ [p]) ∧ Same s s' := by
  obtain ⟨h', q', hrun, hlist, hframe⟩ := hq.ready.enqueue hr
  have hdisj : (p :: rs).Disjoint xs := by
    rw [List.disjoint_cons_left]
    exact ⟨hx, fun y hr hy => hq.disjoint hy hr⟩
  refine ⟨{ s with heap := h', ready := q' }, by simp only [Clock.ready, hrun, Option.map_some],
    ⟨hq.delayed.frame hframe hdisj, hlist, ?_⟩, hframe.code, rfl, rfl⟩
  rw [List.disjoint_append_right, List.disjoint_singleton]
  exact ⟨hq.disjoint, hx⟩

/-- **`unblock` moves the node to the end of the ready queue**, and leaves
it with no next. -/
theorem Queues.unblock_spec (hq : Queues s (as ++ x :: bs) rs) :
    ∃ s', unblock s (some x) = some s' ∧ Queues s' (as ++ bs) (rs ++ [x]) ∧ Same s s' ∧
      (s'.heap x).next = none := by
  have hmem : x ∈ as ++ x :: bs := by simp
  have hempty : s.delayed.isEmpty = false := by
    rw [← Bool.not_eq_true, hq.delayed.isEmpty_iff]
    exact List.ne_nil_of_mem hmem
  obtain ⟨h', q', hrun, hrem⟩ := hq.delayed.remove
  have hready : IsList h' s.ready rs := hq.ready.frame hrem.frame hq.disjoint
  have hsub : as ++ bs ⊆ as ++ x :: bs := by
    intro y hy
    simp only [List.mem_append, List.mem_cons] at hy ⊢
    tauto
  have hq' : Queues { s with heap := h', delayed := q' } (as ++ bs) rs :=
    ⟨hrem.list, hready, List.disjoint_of_subset_left hsub hq.disjoint⟩
  have hx : x ∉ as ++ bs := by
    have := hq.delayed.nodup
    rw [List.nodup_middle] at this
    exact (List.nodup_cons.mp this).1
  obtain ⟨s', hrun', hq'', hsame⟩ := hq'.ready_spec hx fun hr => hq.disjoint hmem hr
  refine ⟨s', by simp only [unblock, hempty, hrun, Option.bind_some, hrun']; rfl, hq'',
    ⟨fun y => (hsame.code y).trans (hrem.frame.code y), hsame.running, hsame.idleNode⟩, ?_⟩
  exact hq''.ready.links.next_last (List.getLast?_concat ..)

/-! ## The loop -/

/-- One tick off the counters of the nodes `xs`. -/
def tick (h : Heap Node) (xs : List Node) : Heap Node := fun y =>
  if y ∈ xs then { h y with code := (h y).code - 1 } else h y

theorem tick_links (h : Heap Node) (xs : List Node) (y : Node) :
    (tick h xs y).next = (h y).next ∧ (tick h xs y).prev = (h y).prev := by
  unfold tick
  split
  · exact ⟨rfl, rfl⟩
  · exact ⟨rfl, rfl⟩

theorem tick_code (h : Heap Node) (xs : List Node) (y : Node) :
    (tick h xs y).code = if y ∈ xs then (h y).code - 1 else (h y).code := by
  unfold tick
  split
  · rfl
  · rfl

/-- The loop's way of ticking, one node at a time. -/
theorem tick_cons (h : Heap Node) (hx : x ∉ xs) :
    tick (h.setCode x ((h x).code - 1)) xs = tick h (x :: xs) := by
  funext y
  unfold tick Heap.setCode
  by_cases hy : y = x
  · subst hy
    simp [hx]
  · simp [hy]

@[simp] theorem tick_nil (h : Heap Node) : tick h [] = h := by
  funext y
  simp [tick]

theorem tick_singleton (h : Heap Node) (x : Node) :
    h.setCode x ((h x).code - 1) = tick h [x] := by
  rw [← tick_cons h List.not_mem_nil, tick_nil]

/-- Counters are not links. -/
theorem Queues.tick (hq : Queues s xs rs) (ys : List Node) :
    Queues { s with heap := Clock.tick s.heap ys } xs rs where
  delayed := hq.delayed.congr fun y _ => tick_links s.heap ys y
  ready := hq.ready.congr fun y _ => tick_links s.heap ys y
  disjoint := hq.disjoint

omit [DecidableEq Node] in
/-- The node after `x` on the delayed list is the one its links name. -/
theorem Queues.next_eq (hq : Queues s (as ++ x :: bs) rs) : (s.heap x).next = bs.head? := by
  have hseg := (Chain.seg_append.mp hq.delayed.links).2
  simpa using (Chain.seg_cons.mp hseg).2.1

/-- **While nothing expires the loop goes on**, and takes a tick off each
node it meets. -/
theorem loop_tick (fuel : ℕ) (as xs bs : List Node) (hq : Queues s (as ++ xs ++ bs) rs)
    (hcode : ∀ x ∈ xs, (s.heap x).code ≠ 1) :
    checkDelayLoop (fuel + xs.length) s (xs ++ bs).head? =
      checkDelayLoop fuel { s with heap := tick s.heap xs } bs.head? := by
  induction xs generalizing s as with
  | nil => simp
  | cons x xs ih =>
    have hnd : (x :: xs).Nodup := by
      have := hq.delayed.nodup
      rw [List.append_assoc] at this
      exact ((List.nodup_append.mp this).2.1).sublist (List.sublist_append_left _ _)
    obtain ⟨hx, -⟩ := List.nodup_cons.mp hnd
    have htick := tick_cons s.heap hx
    -- the queues as the loop finds them at the next node
    have hq' : Queues { s with heap := s.heap.setCode x ((s.heap x).code - 1) }
        (as ++ [x] ++ xs ++ bs) rs := by
      rw [tick_singleton]
      simpa using hq.tick [x]
    have hat : Queues { s with heap := s.heap.setCode x ((s.heap x).code - 1) }
        (as ++ x :: (xs ++ bs)) rs := by
      simpa using hq'
    have hnext : ((s.heap.setCode x ((s.heap x).code - 1)) x).next = (xs ++ bs).head? :=
      hat.next_eq
    have hne : ((s.heap.setCode x ((s.heap x).code - 1)) x).code ≠ 0 := by
      have := hcode x List.mem_cons_self
      simp only [Heap.setCode, Function.update_self]
      omega
    have hrest : ∀ y ∈ xs, ((s.heap.setCode x ((s.heap x).code - 1)) y).code ≠ 1 := by
      intro y hy
      have hyx : y ≠ x := fun he => hx (he ▸ hy)
      rw [Heap.setCode, Function.update_of_ne hyx]
      exact hcode y (List.mem_cons_of_mem _ hy)
    rw [List.length_cons, ← Nat.add_assoc, List.cons_append, List.head?_cons, checkDelayLoop]
    simp only [hne, if_false, Option.bind_some, hnext]
    rw [ih (as ++ [x]) hq' hrest, htick]

/-- **The first process to expire ends the loop.** -/
theorem loop_first (fuel : ℕ) (hq : Queues s (as ++ x :: bs) rs) (hcode : (s.heap x).code = 1) :
    ∃ s', checkDelayLoop (fuel + 2) s (some x) = some s' ∧ Queues s' (as ++ bs) (rs ++ [x]) ∧
      Same { s with heap := tick s.heap [x] } s' := by
  obtain ⟨s', hrun, hq', hsame, hnext⟩ := (hq.tick [x]).unblock_spec
  have hzero : (tick s.heap [x] x).code = 0 := by
    rw [tick_code, if_pos (List.mem_singleton_self x), hcode]
    rfl
  refine ⟨s', ?_, hq', hsame⟩
  rw [checkDelayLoop]
  simp only [tick_singleton, hzero, if_true, hrun, Option.bind_some, hnext]
  rfl

/-! ## The call -/

omit [DecidableEq Node] in
theorem Queues.fuel_eq (hq : Queues s xs rs) :
    s.delayed.size.toNat + 1 = 1 + xs.length ∧ s.delayed.head = xs.head? := by
  rw [hq.delayed.size, hq.delayed.head, Int.toNat_natCast]
  exact ⟨Nat.add_comm _ _, rfl⟩

/-- **A call in which nothing expires** ticks every counter. -/
theorem checkDelay_all (hq : Queues s xs rs) (hcode : ∀ x ∈ xs, (s.heap x).code ≠ 1) :
    checkDelay s = some { s with heap := tick s.heap xs } := by
  have hloop := loop_tick 1 [] xs [] (by simpa using hq) hcode
  obtain ⟨hfuel, hhead⟩ := hq.fuel_eq
  rw [checkDelay, hfuel, hhead]
  simpa [checkDelayLoop] using hloop

/-- **A call in which something expires** ends at the first to do so. -/
theorem checkDelay_first (hq : Queues s (as ++ x :: bs) rs)
    (hcode : ∀ a ∈ as, (s.heap a).code ≠ 1) (hx : (s.heap x).code = 1) :
    ∃ s', checkDelay s = some s' ∧ Queues s' (as ++ bs) (rs ++ [x]) ∧
      Same { s with heap := tick s.heap (as ++ [x]) } s' := by
  have hnd := hq.delayed.nodup
  rw [List.nodup_middle] at hnd
  have hxas : x ∉ as := fun hx => (List.nodup_cons.mp hnd).1 (List.mem_append_left _ hx)
  have htick : tick (tick s.heap as) [x] = tick s.heap (as ++ [x]) := by
    funext y
    unfold tick
    by_cases hy : y = x
    · subst hy
      simp [hxas]
    · simp [hy]
  have hcode' : (tick s.heap as x).code = 1 := by
    rw [tick_code, if_neg hxas, hx]
  obtain ⟨s', hrun, hq', hsame⟩ := loop_first bs.length (hq.tick as) hcode'
  have hloop := loop_tick (bs.length + 2) [] as (x :: bs) (by simpa using hq) hcode
  obtain ⟨hfuel, hhead⟩ := hq.fuel_eq
  refine ⟨s', ?_, hq', ?_⟩
  · have hlen : 1 + (as ++ x :: bs).length = bs.length + 2 + as.length := by
      rw [List.length_append, List.length_cons]
      omega
    rw [checkDelay, hfuel, hhead, hlen, hloop, List.head?_cons, hrun]
  · rw [← htick]
    exact hsame

omit [DecidableEq Node] in
/-- Either nothing expires at this tick or something is the first to. -/
theorem expires_cases (h : Heap Node) (xs : List Node) :
    (∀ x ∈ xs, (h x).code ≠ 1) ∨
      ∃ as x bs, xs = as ++ x :: bs ∧ (∀ a ∈ as, (h a).code ≠ 1) ∧ (h x).code = 1 := by
  induction xs with
  | nil => exact Or.inl fun x hx => absurd hx List.not_mem_nil
  | cons y ys ih =>
    by_cases hy : (h y).code = 1
    · exact Or.inr ⟨[], y, ys, rfl, fun a ha => absurd ha List.not_mem_nil, hy⟩
    · rcases ih with hall | ⟨as, x, bs, rfl, has, hx⟩
      · exact Or.inl (List.forall_mem_cons.mpr ⟨hy, hall⟩)
      · exact Or.inr ⟨y :: as, x, bs, rfl, List.forall_mem_cons.mpr ⟨hy, has⟩, hx⟩

/-- **What a tick should do**: take one off every sleeper's counter, move
those that reach 0 to the end of the ready queue in their order, and leave
the others in theirs. -/
def TickExact (s : Sched Node) : Prop :=
  ∃ s', checkDelay s = some s' ∧
    s'.sleepers = s.sleepers.filter (fun x => (s.heap x).code ≠ 1) ∧
    s'.runnable = s.runnable ++ s.sleepers.filter (fun x => (s.heap x).code = 1) ∧
    ∀ y, (s'.heap y).code = if y ∈ s.sleepers then (s.heap y).code - 1 else (s.heap y).code

/-- **Only the last sleeper may be about to expire.** -/
def OnlyLastExpires (s : Sched Node) : Prop :=
  ∀ x ∈ s.sleepers.dropLast, (s.heap x).code ≠ 1

/-- **A call does what a tick should exactly where only the last sleeper
expires.** -/
theorem tickExact_iff (hq : Queues s xs rs) : TickExact s ↔ OnlyLastExpires s := by
  have hxs := hq.sleepers_eq
  rcases expires_cases s.heap xs with hall | ⟨as, x, bs, rfl, has, hx⟩
  · -- nothing expires
    have hrun := checkDelay_all hq hall
    have hq' := hq.tick xs
    refine ⟨fun _ y hy => hall y (hxs ▸ (List.dropLast_sublist _).subset hy), fun _ => ⟨_, hrun, ?_⟩⟩
    rw [hq'.sleepers_eq, hq'.runnable_eq, hxs, hq.runnable_eq]
    refine ⟨?_, ?_, tick_code s.heap xs⟩
    · exact (List.filter_eq_self.mpr fun y hy => by simpa using hall y hy).symm
    · rw [List.filter_eq_nil_iff.mpr fun y hy => by simpa using hall y hy, List.append_nil]
  · obtain ⟨s', hrun, hq', hsame⟩ := checkDelay_first hq has hx
    have hnd := hq.delayed.nodup
    rw [List.nodup_middle, List.nodup_cons] at hnd
    have hcode : ∀ y, (s'.heap y).code =
        if y ∈ as ++ [x] then (s.heap y).code - 1 else (s.heap y).code := fun y =>
      (hsame.code y).trans (tick_code s.heap (as ++ [x]) y)
    cases bs with
    | nil =>
      -- the one that expires is the last
      have hfilter : as.filter (fun x => (s.heap x).code ≠ 1) = as :=
        List.filter_eq_self.mpr fun y hy => by simpa using has y hy
      have hfilter' : as.filter (fun x => (s.heap x).code = 1) = [] :=
        List.filter_eq_nil_iff.mpr fun y hy => by simpa using has y hy
      refine ⟨fun _ y hy => has y ?_, fun _ => ⟨s', hrun, ?_, ?_, ?_⟩⟩
      · rw [hxs, List.dropLast_concat] at hy
        exact hy
      · rw [hq'.sleepers_eq, hxs, List.filter_append, hfilter]
        simp [hx]
      · rw [hq'.runnable_eq, hq.runnable_eq, hxs, List.filter_append, hfilter']
        simp [hx]
      · rw [hxs]
        exact hcode
    | cons z zs =>
      -- the sleeper behind it is not ticked
      have hlast : x ∈ s.sleepers.dropLast := by
        rw [hxs, List.dropLast_append_of_ne_nil (by simp)]
        simp
      refine ⟨?_, fun honly => absurd hx (honly x hlast)⟩
      rintro ⟨s'', hrun', -, -, hexact⟩
      obtain rfl := Option.some.inj (hrun.symm.trans hrun')
      have hz : z ∉ as ++ [x] := by
        intro hz
        rw [List.nodup_append, List.nodup_cons] at hnd
        rcases List.mem_append.mp hz with hz | hz
        · exact hnd.2.2.2 z hz z List.mem_cons_self rfl
        · exact hnd.1 (List.mem_singleton.mp hz ▸ by simp)
      have := hexact z
      rw [hcode z, if_neg hz, hxs, if_pos (by simp)] at this
      omega

end Clock

end Yalnix
