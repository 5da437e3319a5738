import Yalnix.Process.Family.Tree
/-!
# What the system calls do to the family tree

`Fork` is a birth, `Wait` a collection, and `Exit` the walk of
`process_terminate` followed by `graveyard`. Each keeps `Kinship`; a birth
and a collection keep `AtHome` too, and an exit does where the process takes
no stranger for its child.
-/

namespace Yalnix

namespace Family

variable {Node Addr : Type} [DecidableEq Node] [DecidableEq Addr]
variable {f : Family Node Addr} {n p : Node} {m : Member Node Addr}

/-! ## A birth -/

section Adopt

variable {mp : Member Node Addr} {kin : Kin Node Addr} {child : Node} {data : Addr}

theorem adopt_child : (f.adopt p child data).member child =
    some ⟨data, some p, some ⟨[], []⟩, f.born, []⟩ := Function.update_self _ _ _

theorem adopt_parent (hp : f.member p = some mp) (hkin : mp.kin = some kin) (hne : p ≠ child) :
    (f.adopt p child data).member p = some { mp with
      kin := some { kin with aChildren := kin.aChildren ++ [data] }
      children := mp.children ++ [f.born] } := by
  unfold adopt
  dsimp only
  rw [Function.update_of_ne hne, modify_self _ hp, hkin]
  rfl

theorem adopt_other (h₁ : n ≠ child) (h₂ : n ≠ p) :
    (f.adopt p child data).member n = f.member n := by
  unfold adopt
  dsimp only
  rw [Function.update_of_ne h₁, modify_of_ne _ h₂]

/-- Whoever was there has at most gained the child. -/
theorem adopt_forth (data : Addr) (hp : f.member p = some mp) (hkin : mp.kin = some kin)
    (hchild : f.member child = none) (hm : f.member n = some m) :
    n ≠ child ∧ ∃ m', (f.adopt p child data).member n = some m' ∧
      m'.data = m.data ∧ m'.parent = m.parent ∧ m'.serial = m.serial ∧
      m'.children = (if n = p then m.children ++ [f.born] else m.children) ∧
      m'.kin = m.kin.map fun k =>
        if n = p then { k with aChildren := k.aChildren ++ [data] } else k := by
  have hne : n ≠ child := by
    rintro rfl
    rw [hm] at hchild
    cases hchild
  refine ⟨hne, ?_⟩
  rcases eq_or_ne n p with rfl | hnp
  · obtain rfl := Option.some.inj (hm.symm.trans hp)
    refine ⟨_, adopt_parent hp hkin hne, rfl, rfl, rfl, (if_pos rfl).symm, ?_⟩
    rw [hkin, Option.map_some, if_pos rfl]
  · refine ⟨m, by rw [adopt_other hne hnp, hm], rfl, rfl, rfl, (if_neg hnp).symm, ?_⟩
    cases m.kin with
    | none => rfl
    | some k => rw [Option.map_some, if_neg hnp]

/-- And whoever is there is the child, or was there. -/
theorem adopt_back {m' : Member Node Addr} (hp : f.member p = some mp) (hkin : mp.kin = some kin)
    (hchild : f.member child = none) (hm' : (f.adopt p child data).member n = some m') :
    (n = child ∧ m' = ⟨data, some p, some ⟨[], []⟩, f.born, []⟩) ∨
    (n ≠ child ∧ ∃ m, f.member n = some m ∧
      m'.data = m.data ∧ m'.parent = m.parent ∧ m'.serial = m.serial ∧
      m'.children = (if n = p then m.children ++ [f.born] else m.children) ∧
      m'.kin = m.kin.map fun k =>
        if n = p then { k with aChildren := k.aChildren ++ [data] } else k) := by
  rcases eq_or_ne n child with rfl | hne
  · exact Or.inl ⟨rfl, Option.some.inj (hm'.symm.trans adopt_child)⟩
  · refine Or.inr ⟨hne, ?_⟩
    obtain ⟨m, hm⟩ : ∃ m, f.member n = some m := by
      rcases eq_or_ne n p with rfl | hnp
      · exact ⟨mp, hp⟩
      · rw [adopt_other hne hnp] at hm'
        exact ⟨m', hm'⟩
    obtain ⟨-, m'', hm'', hfacts⟩ := adopt_forth data hp hkin hchild hm
    obtain rfl := Option.some.inj (hm'.symm.trans hm'')
    exact ⟨m, hm, hfacts⟩

/-- A birth on a list is the new one, or was there. -/
theorem adopt_children {m' : Member Node Addr} {s : ℕ} (hp : f.member p = some mp)
    (hkin : mp.kin = some kin) (hchild : f.member child = none)
    (hm' : (f.adopt p child data).member n = some m') (hs : s ∈ m'.children) :
    (∃ m, f.member n = some m ∧ m'.serial = m.serial ∧ s ∈ m.children) ∨
      (n = p ∧ m'.serial = mp.serial ∧ s = f.born) := by
  rcases adopt_back hp hkin hchild hm' with ⟨rfl, rfl⟩ | ⟨-, m, hm, -, -, hserial, hc, -⟩
  · cases hs
  rw [hc] at hs
  split at hs
  · rename_i hnp
    subst hnp
    rcases List.mem_append.mp hs with hs | hs
    · exact Or.inl ⟨m, hm, hserial, hs⟩
    · obtain rfl := Option.some.inj (hm.symm.trans hp)
      exact Or.inr ⟨rfl, hserial, List.mem_singleton.mp hs⟩
  · exact Or.inl ⟨m, hm, hserial, hs⟩

/-- **Who lives afterwards** is the child, with nothing on its lists, or
lived before, with the same dead and at least the same children. -/
theorem adopt_living {m' : Member Node Addr} {kin' : Kin Node Addr} (hp : f.member p = some mp)
    (hkin : mp.kin = some kin) (hchild : f.member child = none)
    (hm' : (f.adopt p child data).member n = some m') (hkin' : m'.kin = some kin') :
    (n = child ∧ kin' = ⟨[], []⟩ ∧ m'.children = [] ∧ m'.serial = f.born) ∨
    ∃ m kin₀, f.member n = some m ∧ m.kin = some kin₀ ∧ m'.serial = m.serial ∧
      kin'.dChildren = kin₀.dChildren ∧ m.children ⊆ m'.children ∧
      (n ≠ p → m'.children = m.children ∧ kin'.aChildren = kin₀.aChildren) ∧
      (n = p → kin'.aChildren = kin₀.aChildren ++ [data]) := by
  rcases adopt_back hp hkin hchild hm' with ⟨rfl, rfl⟩ | ⟨-, m, hm, -, -, hserial, hc, hk⟩
  · exact Or.inl ⟨rfl, (Option.some.inj hkin').symm, rfl, rfl⟩
  rw [hk, Option.map_eq_some_iff] at hkin'
  obtain ⟨kin₀, hkin₀, rfl⟩ := hkin'
  refine Or.inr ⟨m, kin₀, hm, hkin₀, hserial, ?_⟩
  rw [hc]
  split
  · rename_i hnp
    exact ⟨rfl, List.subset_append_left _ _, fun hne => absurd hnp hne, fun _ => rfl⟩
  · rename_i hnp
    exact ⟨rfl, List.Subset.refl _, fun _ => ⟨rfl, rfl⟩, fun heq => absurd heq hnp⟩

/-- The child's parent is the one that bore it, and nobody else's has
changed. -/
theorem Kinship.parent_lives_adopt (h : f.Kinship) {m' : Member Node Addr} {q : Node}
    (hp : f.member p = some mp) (hkin : mp.kin = some kin) (hchild : f.member child = none)
    (hm' : (f.adopt p child data).member n = some m') (hk : m'.kin.isSome)
    (hq : m'.parent = some q) :
    ∃ mq kinq, (f.adopt p child data).member q = some mq ∧ mq.kin = some kinq ∧
      m'.data ∈ kinq.aChildren ∧ m'.serial ∈ mq.children := by
  rcases adopt_back hp hkin hchild hm' with ⟨rfl, rfl⟩ | ⟨-, m, hm, hd, hpar, hs, -, hkm⟩
  · obtain rfl := Option.some.inj hq
    obtain ⟨-, mp', hmp', -, -, -, hc, hkp⟩ := adopt_forth data hp hkin hchild hp
    rw [hkin, Option.map_some, if_pos rfl] at hkp
    rw [if_pos rfl] at hc
    refine ⟨mp', _, hmp', hkp, List.mem_append_right _ (List.mem_singleton_self _), ?_⟩
    rw [hc]
    exact List.mem_append_right _ (List.mem_singleton_self _)
  · rw [hkm, Option.isSome_map] at hk
    obtain ⟨mq, kin₀, hmq, hkin₀, hin, hin'⟩ := h.parent_lives hm hk (hpar ▸ hq)
    obtain ⟨-, mq', hmq', -, -, -, hc, hkq⟩ := adopt_forth data hp hkin hchild hmq
    refine ⟨mq', _, hmq', by rw [hkq, hkin₀, Option.map_some], ?_, ?_⟩
    · rw [hd]
      split
      · exact List.mem_append_left _ hin
      · exact hin
    · rw [hs, hc]
      split
      · exact List.mem_append_left _ hin'
      · exact hin'

/-- **A birth**, of a process with a node and a block of its own. -/
theorem Kinship.adopt (h : f.Kinship) (hp : f.member p = some mp) (hkin : mp.kin = some kin)
    (hchild : f.member child = none) (hdata : f.pcbAt data = none) :
    (f.adopt p child data).Kinship where
  pcbAt_data {n m'} hm' := by
    show Function.update f.pcbAt data (some child) m'.data = some n
    rcases adopt_back hp hkin hchild hm' with ⟨rfl, rfl⟩ | ⟨-, m, hm, hd, -⟩
    · exact Function.update_self _ _ _
    · rw [hd, Function.update_of_ne, h.pcbAt_data hm]
      rintro rfl
      rw [h.pcbAt_data hm] at hdata
      cases hdata
  serial_lt {n m'} hm' := by
    show m'.serial < f.born + 1
    rcases adopt_back hp hkin hchild hm' with ⟨rfl, rfl⟩ | ⟨-, m, hm, -, -, hs, -⟩
    · exact Nat.lt_succ_self _
    · have := h.serial_lt hm
      omega
  serial_inj hm hm' heq := by
    rcases adopt_back hp hkin hchild hm with ⟨rfl, rfl⟩ | ⟨-, m₀, hm₀, -, -, hs, -⟩ <;>
      rcases adopt_back hp hkin hchild hm' with ⟨rfl, rfl⟩ | ⟨-, m₁, hm₁, -, -, hs₁, -⟩
    · rfl
    · have := h.serial_lt hm₁
      dsimp only at heq
      omega
    · have := h.serial_lt hm₀
      dsimp only at heq
      omega
    · exact h.serial_inj hm₀ hm₁ (by omega)
  children_lt hm' hs := by
    show _ < f.born + 1
    rcases adopt_children hp hkin hchild hm' hs with ⟨m, hm, -, hs⟩ | ⟨-, -, rfl⟩
    · exact Nat.lt_succ_of_lt (h.children_lt hm hs)
    · exact Nat.lt_succ_self _
  children_nodup hm' := by
    rcases adopt_back hp hkin hchild hm' with ⟨rfl, rfl⟩ | ⟨-, m, hm, -, -, -, hc, -⟩
    · exact List.nodup_nil
    rw [hc]
    split
    · refine (h.children_nodup hm).append (List.nodup_singleton _) ?_
      rw [List.disjoint_singleton]
      exact fun hin => absurd (h.children_lt hm hin) (lt_irrefl _)
    · exact h.children_nodup hm
  children_own hm hm' hs hs' := by
    rcases adopt_children hp hkin hchild hm hs with ⟨m₀, hm₀, -, hs⟩ | ⟨rfl, -, rfl⟩ <;>
      rcases adopt_children hp hkin hchild hm' hs' with ⟨m₁, hm₁, -, hs'⟩ | ⟨rfl, -, heq⟩
    · exact h.children_own hm₀ hm₁ hs hs'
    · exact absurd (h.children_lt hm₀ hs) (by omega)
    · exact absurd (h.children_lt hm₁ hs') (lt_irrefl _)
    · rfl
  parent_lives hm' hk hq := h.parent_lives_adopt hp hkin hchild hm' hk hq
  defunct hq' hkin' hn := by
    rcases adopt_living hp hkin hchild hq' hkin' with
      ⟨-, rfl, -⟩ | ⟨mq, kin₀, hq, hkin₀, -, hd, hsub, -⟩
    · cases hn
    obtain ⟨m, hm, hdead, hin⟩ := h.defunct hq hkin₀ (hd ▸ hn)
    obtain ⟨-, m', hm', -, -, hs, -, hk⟩ := adopt_forth data hp hkin hchild hm
    exact ⟨m', hm', by rw [hk, hdead]; rfl, hs ▸ hsub hin⟩
  defunct_nodup hq' hkin' := by
    rcases adopt_living hp hkin hchild hq' hkin' with
      ⟨-, rfl, -⟩ | ⟨mq, kin₀, hq, hkin₀, -, hd, -⟩
    · exact List.nodup_nil
    · exact hd ▸ h.defunct_nodup hq hkin₀
  listed {q mq' kin'} hq' hkin' hne := by
    rcases adopt_living hp hkin hchild hq' hkin' with
      ⟨-, -, hnil, -⟩ | ⟨mq, kin₀, hq, hkin₀, -, -, -, hother, hown⟩
    · exact absurd hnil hne
    by_cases hqp : q = p
    · rw [hown hqp]
      exact List.append_ne_nil_of_right_ne_nil _ (List.cons_ne_nil _ _)
    · obtain ⟨hc, ha⟩ := hother hqp
      rw [ha]
      exact h.listed hq hkin₀ (hc ▸ hne)

/-- The child can be found. -/
theorem AtHome.adopt (h : f.AtHome) (hp : f.member p = some mp) (hkin : mp.kin = some kin)
    (hchild : f.member child = none) : (f.adopt p child data).AtHome := by
  intro q mq' kin' s hq' hkin' hs
  rcases adopt_living hp hkin hchild hq' hkin' with
    ⟨-, -, hnil, -⟩ | ⟨mq, kin₀, hq, hkin₀, -, hd, -⟩
  · rw [hnil] at hs
    cases hs
  rcases adopt_children hp hkin hchild hq' hs with ⟨mq₁, hq₁, -, hold⟩ | ⟨rfl, -, rfl⟩
  · obtain rfl := Option.some.inj (hq.symm.trans hq₁)
    obtain ⟨n, m, hm, hserial, hwhere⟩ := h hq hkin₀ hold
    obtain ⟨-, m', hm', -, hpar, hs', -, hkm⟩ := adopt_forth data hp hkin hchild hm
    refine ⟨n, m', hm', hs'.trans hserial, ?_⟩
    rw [hkm, hpar, hd, Option.isSome_map, Option.map_eq_none_iff]
    exact hwhere
  · -- it was born just now
    exact ⟨child, _, adopt_child, rfl, Or.inl ⟨rfl, rfl⟩⟩

omit [DecidableEq Addr] in
/-- Who is laid stays so. -/
theorem Laid.adopt [DecidableEq Addr] (h : f.Laid n) (hne : n ≠ child) (hp : f.member p = some mp)
    (hkin : mp.kin = some kin) (hchild : f.member child = none) :
    (f.adopt p child data).Laid n := by
  constructor
  · intro m' hm'
    rcases adopt_back hp hkin hchild hm' with ⟨rfl, -⟩ | ⟨-, m, hm, -, -, -, -, hk⟩
    · exact absurd rfl hne
    · rw [hk, h.1 m hm]
      rfl
  · intro q mq kin' hq hkin' hn
    rcases adopt_living hp hkin hchild hq hkin' with
      ⟨-, rfl, -⟩ | ⟨m, kin₀, hm, hkin₀, -, hd, -⟩
    · cases hn
    · exact h.2 hm hkin₀ (hd ▸ hn)

end Adopt

/-! ## A collection -/

section Collect

variable {mp : Member Node Addr} {kin : Kin Node Addr} {rest : List Node}

omit [DecidableEq Addr] in
/-- **Lists after a collection** are the collector's, with the rest of its
dead, or were there before. -/
theorem collect_lists {q : Node} {mq : Member Node Addr} {kin' : Kin Node Addr}
    (hp : f.member p = some mp) (s : ℕ) (hq : (f.collect p kin rest s).member q = some mq)
    (hkin' : mq.kin = some kin') :
    (q = p ∧ mq.children = mp.children.erase s ∧ kin'.dChildren = rest) ∨
      (q ≠ p ∧ f.member q = some mq) := by
  rcases eq_or_ne q p with rfl | hne
  · rw [collect_self hp] at hq
    obtain rfl := Option.some.inj hq
    obtain rfl := Option.some.inj hkin'
    exact Or.inl ⟨rfl, rfl, rfl⟩
  · rw [collect_of_ne hne] at hq
    exact Or.inr ⟨hne, hq⟩

omit [DecidableEq Addr] in
/-- The child collected is nobody's any more. -/
theorem Kinship.laid_collect (h : f.Kinship) (hp : f.member p = some mp) (hkin : mp.kin = some kin)
    (hd : kin.dChildren = n :: rest) (s : ℕ) : (f.collect p kin rest s).Laid n := by
  have hin : n ∈ kin.dChildren := hd ▸ List.mem_cons_self
  have hnodup := h.defunct_nodup hp hkin
  rw [hd, List.nodup_cons] at hnodup
  obtain ⟨m, hm, hdead, -⟩ := h.defunct hp hkin hin
  have hne : n ≠ p := by
    rintro rfl
    exact h.not_defunct hm (Option.some.inj (hp.symm.trans hm) ▸ hkin) hp hkin hin
  constructor
  · intro m' hm'
    rw [collect_of_ne hne, hm] at hm'
    exact Option.some.inj hm' ▸ hdead
  · intro q mq kin' hq hkin' hn
    rcases collect_lists hp s hq hkin' with ⟨-, -, hrest⟩ | ⟨hqp, hq⟩
    · exact hnodup.1 (hrest ▸ hn)
    · exact hqp (h.defunct_own hq hkin' hp hkin hn hin)

omit [DecidableEq Addr] in
/-- Who is laid stays so. -/
theorem Laid.collect (h : f.Laid n) (hp : f.member p = some mp) (hkin : mp.kin = some kin)
    {n' : Node} (hd : kin.dChildren = n' :: rest) (s : ℕ) : (f.collect p kin rest s).Laid n := by
  have hne : n ≠ p := by
    rintro rfl
    have := h.1 mp hp
    rw [hkin] at this
    cases this
  constructor
  · intro m hm
    rw [collect_of_ne hne] at hm
    exact h.1 m hm
  · intro q mq kin' hq hkin' hn
    rcases collect_lists hp s hq hkin' with ⟨-, -, hrest⟩ | ⟨-, hq⟩
    · exact h.2 hp hkin (hd ▸ List.mem_cons_of_mem _ (hrest ▸ hn))
    · exact h.2 hq hkin' hn

omit [DecidableEq Addr] in
/-- And the others can be found. -/
theorem AtHome.collect (h : f.AtHome) (hk : f.Kinship) (hp : f.member p = some mp)
    (hkin : mp.kin = some kin) (hd : kin.dChildren = n :: rest) (hm : f.member n = some m) :
    (f.collect p kin rest m.serial).AtHome := by
  intro q mq kin' s hq hkin' hs
  -- the collector is found as it was, with other lists
  have hforth : ∀ {n' m'}, f.member n' = some m' →
      ∃ m'', (f.collect p kin rest m.serial).member n' = some m'' ∧ m''.serial = m'.serial ∧
        m''.kin.isSome = m'.kin.isSome ∧ m''.parent = m'.parent := by
    intro n' m' hm'
    rcases eq_or_ne n' p with rfl | hne
    · obtain rfl := Option.some.inj (hm'.symm.trans hp)
      exact ⟨_, collect_self hp _ _ _, rfl, by rw [hkin]; rfl, rfl⟩
    · exact ⟨m', by rw [collect_of_ne hne, hm'], rfl, rfl, rfl⟩
  have hfound : ∃ n' m', f.member n' = some m' ∧ m'.serial = s ∧
      (m'.kin.isSome ∧ m'.parent = some q ∨ m'.kin = none ∧ n' ∈ kin'.dChildren) := by
    rcases collect_lists hp m.serial hq hkin' with ⟨rfl, hchildren, hrest⟩ | ⟨-, hq⟩
    · rw [hchildren] at hs
      obtain ⟨n', m', hm', hserial, hwhere⟩ := h hp hkin (List.mem_of_mem_erase hs)
      refine ⟨n', m', hm', hserial, hwhere.imp_right fun hdead => ⟨hdead.1, ?_⟩⟩
      have hin := hdead.2
      rw [hd, List.mem_cons] at hin
      rw [hrest]
      refine hin.resolve_left ?_
      -- one birth is on the list once, so it is not the child collected
      rintro rfl
      obtain rfl := Option.some.inj (hm.symm.trans hm')
      rw [← hserial] at hs
      exact (hk.children_nodup hp).not_mem_erase hs
    · exact h hq hkin' hs
  obtain ⟨n', m', hm', hserial, hwhere⟩ := hfound
  obtain ⟨m'', hm'', hs'', hk'', hpar⟩ := hforth hm'
  refine ⟨n', m'', hm'', hs''.trans hserial, ?_⟩
  rw [hk'', hpar, ← Option.not_isSome_iff_eq_none, hk'', Option.not_isSome_iff_eq_none]
  exact hwhere

end Collect

/-! ## An exit -/

section Exit

variable {mx : Member Node Addr} {kin : Kin Node Addr} {x : Node}

/-- `process_terminate`: the children lose their parent, the process its
lists, and the first of its dead is freed. -/
def terminate (f : Family Node Addr) (x : Node) (kin : Kin Node Addr) : Family Node Addr :=
  destroyAll (kin.dChildren.take 1) ((f.orphan kin.aChildren).bereave x)

/-- `graveyard`: the process goes to its parent, if it has one. -/
def grave (f : Family Node Addr) (x : Node) : Family Node Addr :=
  match (f.member x).bind Member.parent with
  | some p => f.bury p x
  | none => f

theorem terminate_member : (f.terminate x kin).member n =
    if n ∈ kin.dChildren.take 1 then none
    else ((f.orphan kin.aChildren).member n).map fun m =>
      if n = x then { m with kin := none } else m := by
  unfold terminate
  rw [destroyAll_member]
  split
  · rfl
  · unfold bereave modify
    dsimp only
    rw [Function.update_apply]
    split
    · rename_i heq
      rw [heq]
    · exact Option.map_id'.symm

/-- **Whoever the exit leaves** is who it was, less perhaps a parent; the
process itself is dead. -/
theorem terminate_back {m' : Member Node Addr} (hm' : (f.terminate x kin).member n = some m') :
    n ∉ kin.dChildren.take 1 ∧ ∃ m, f.member n = some m ∧ m'.data = m.data ∧
      m'.serial = m.serial ∧ m'.children = m.children ∧
      m'.kin = (if n = x then none else m.kin) ∧
      (∀ p, m'.parent = some p → m.parent = some p ∧
        ¬ ∃ a ∈ kin.aChildren, f.pcbAt a = some n) := by
  rw [terminate_member] at hm'
  split at hm'
  · cases hm'
  · rename_i hnot
    obtain ⟨m₁, hm₁, rfl⟩ := Option.map_eq_some_iff.mp hm'
    obtain ⟨m, hm, hd, hk, hs, hc, hp⟩ := orphan_back hm₁
    refine ⟨hnot, m, hm, ?_⟩
    split
    · exact ⟨hd, hs, hc, rfl, hp⟩
    · exact ⟨hd, hs, hc, hk, hp⟩

theorem terminate_forth (hm : f.member n = some m) (hnot : n ∉ kin.dChildren.take 1) :
    ∃ m', (f.terminate x kin).member n = some m' ∧ m'.data = m.data ∧ m'.serial = m.serial ∧
      m'.children = m.children ∧ m'.kin = (if n = x then none else m.kin) ∧
      (m'.parent = if ∃ a ∈ kin.aChildren, f.pcbAt a = some n then none else m.parent) := by
  rw [terminate_member, if_neg hnot, orphan_member, hm]
  refine ⟨_, rfl, ?_⟩
  dsimp only [Option.map_some]
  split <;> split <;> exact ⟨rfl, rfl, rfl, rfl, rfl⟩

omit [DecidableEq Addr] in
/-- The dead of a dead process are nobody's. -/
theorem Kinship.laid_bereave (h : f.Kinship) (hx : f.member x = some mx) (hkin : mx.kin = some kin)
    (hn : n ∈ kin.dChildren) : ((f.orphan kin.aChildren).bereave x).Laid n := by
  have hne : n ≠ x := by
    rintro rfl
    exact h.not_defunct hx hkin hx hkin hn
  obtain ⟨m, hm, hdead, -⟩ := h.defunct hx hkin hn
  constructor
  · intro m' hm'
    unfold Family.bereave at hm'
    rw [modify_of_ne _ hne] at hm'
    obtain ⟨m₀, hm₀, -, hk, -⟩ := orphan_back hm'
    obtain rfl := Option.some.inj (hm.symm.trans hm₀)
    exact hk.trans hdead
  · intro p mp kin' hp hkin' hin
    unfold Family.bereave at hp
    rcases eq_or_ne p x with rfl | hpx
    · obtain ⟨m', hm', -⟩ := orphan_forth kin.aChildren hx
      rw [modify_self _ hm'] at hp
      obtain rfl := Option.some.inj hp
      cases hkin'
    · rw [modify_of_ne _ hpx] at hp
      obtain ⟨mp₀, hp₀, -, hk, -⟩ := orphan_back hp
      exact hpx (h.defunct_own hp₀ (hk ▸ hkin') hx hkin hin hn)

theorem Kinship.terminate (h : f.Kinship) (hx : f.member x = some mx) (hkin : mx.kin = some kin) :
    (f.terminate x kin).Kinship := by
  obtain ⟨m', hm', -, hk, -⟩ := orphan_forth kin.aChildren hx
  have hdead := (h.orphan kin.aChildren).bereave hm' (h.orphan_alone hx hkin)
  exact hdead.destroyAll fun n hn => h.laid_bereave hx hkin (List.mem_of_mem_take hn)

omit [DecidableEq Node] [DecidableEq Addr] in
/-- Nobody living is freed by it. -/
theorem Kinship.not_mem_take (h : f.Kinship) (hx : f.member x = some mx)
    (hkin : mx.kin = some kin) (hm : f.member n = some m) (halive : m.kin.isSome) :
    n ∉ kin.dChildren.take 1 := by
  intro hin
  obtain ⟨m', hm', hdead, -⟩ := h.defunct hx hkin (List.mem_of_mem_take hin)
  obtain rfl := Option.some.inj (hm.symm.trans hm')
  rw [hdead] at halive
  cases halive

/-- **The parent it has left lives**, and has not got it on its list. -/
theorem Kinship.parent_terminate (h : f.Kinship) {m' : Member Node Addr}
    (hx : f.member x = some mx) (hkin : mx.kin = some kin)
    (hm' : (f.terminate x kin).member x = some m') (hpar : m'.parent = some p) :
    mx.parent = some p ∧ p ≠ x ∧ ∃ mp kin', (f.terminate x kin).member p = some mp ∧
      mp.kin = some kin' ∧ x ∉ kin'.dChildren ∧ mx.serial ∈ mp.children := by
  obtain ⟨-, m₀, hm₀, -, -, -, -, hp⟩ := terminate_back hm'
  obtain rfl := Option.some.inj (hx.symm.trans hm₀)
  obtain ⟨hpar₀, hnot⟩ := hp p hpar
  have halive : mx.kin.isSome := by rw [hkin]; rfl
  obtain ⟨mp, kin', hmp, hkin', hin, hin'⟩ := h.parent_lives hx halive hpar₀
  have hne : p ≠ x := by
    rintro rfl
    obtain rfl := Option.some.inj (hx.symm.trans hmp)
    obtain rfl := Option.some.inj (hkin.symm.trans hkin')
    exact hnot ⟨_, hin, h.pcbAt_data hx⟩
  have hkeep := h.not_mem_take hx hkin hmp (by rw [hkin']; rfl)
  obtain ⟨mp', hmp', -, -, hc, hk, -⟩ := terminate_forth (x := x) hmp hkeep
  rw [if_neg hne] at hk
  exact ⟨hpar₀, hne, mp', kin', hmp', hk.trans hkin', h.not_defunct hx hkin hmp hkin',
    hc ▸ hin'⟩

/-- **An exit keeps the law.** -/
theorem Kinship.exit (h : f.Kinship) (hx : f.member x = some mx) (hkin : mx.kin = some kin) :
    ((f.terminate x kin).grave x).Kinship := by
  have hterm := h.terminate hx hkin
  obtain ⟨m', hm', -, hs, -, hk, -⟩ :=
    terminate_forth (x := x) hx (h.not_mem_take hx hkin hx (by rw [hkin]; rfl))
  rw [if_pos rfl] at hk
  unfold grave
  rw [hm', Option.bind_some]
  cases hpar : m'.parent with
  | none => exact hterm
  | some p =>
    obtain ⟨-, -, mp, kin', hmp, hkin', hnew, hin⟩ := h.parent_terminate hx hkin hm' hpar
    exact hterm.bury hmp hkin' hm' hk (hs ▸ hin) hnew

omit [DecidableEq Addr] in
theorem remains_grave (f : Family Node Addr) (x : Node) : (f.grave x).Remains f := by
  unfold grave
  cases (f.member x).bind Member.parent with
  | none => exact Remains.refl f
  | some p => exact remains_modify fun m _ => m.remains_buried x

omit [DecidableEq Addr] in
theorem grave_member : (f.grave x).member n = (f.member n).map fun m =>
    if (f.member x).bind Member.parent = some n then
      { m with kin := m.kin.map fun kin => { kin with dChildren := kin.dChildren ++ [x] } }
    else m := by
  unfold grave
  cases (f.member x).bind Member.parent with
  | none => simp
  | some p =>
    simp only [Option.some.injEq]
    rcases eq_or_ne n p with rfl | hne
    · cases hm : f.member n with
      | none => simp [bury, modify, hm]
      | some m => simp [bury, modify_self _ hm]
    · simp [bury, modify_of_ne _ hne, hne.symm]

/-- **A child can be found after an exit**, unless the process that exits
takes it for one of its own. -/
theorem AtHome.exit (h : f.AtHome) (hk : f.Kinship) (hx : f.member x = some mx)
    (hkin : mx.kin = some kin)
    (hown : ∀ a ∈ kin.aChildren, ∀ n m, f.pcbAt a = some n → f.member n = some m →
      m.kin.isSome → m.parent = some x) :
    ((f.terminate x kin).grave x).AtHome := by
  intro p mp' kin' s hp' hkin' hs
  have hxalive : mx.kin.isSome := by rw [hkin]; rfl
  obtain ⟨mx', hmx', -, hsx, -, hkx, hparx⟩ :=
    terminate_forth (x := x) hx (hk.not_mem_take hx hkin hx hxalive)
  rw [if_pos rfl] at hkx
  -- the parent was living before, and had the child on its list
  rw [grave_member, Option.map_eq_some_iff] at hp'
  obtain ⟨mt, hmt, rfl⟩ := hp'
  obtain ⟨-, mp, hmp, -, -, hct, hkt, -⟩ := terminate_back hmt
  have hne : p ≠ x := by
    rintro rfl
    rw [if_pos rfl] at hkt
    split at hkin'
    · simp [hkt] at hkin'
    · rw [hkt] at hkin'
      cases hkin'
  rw [if_neg hne] at hkt
  have hs₀ : s ∈ mp.children := by
    rw [← hct]
    split at hs <;> exact hs
  obtain ⟨kin₀, hkin₀, hsub⟩ : ∃ kin₀, mp.kin = some kin₀ ∧
      (∀ n, n ∈ kin₀.dChildren → n ∈ kin'.dChildren) := by
    rw [← hkt]
    split at hkin'
    · obtain ⟨kin₀, hkin₀, rfl⟩ := Option.map_eq_some_iff.mp hkin'
      exact ⟨kin₀, hkin₀, fun n hn => List.mem_append_left _ hn⟩
    · exact ⟨kin', hkin', fun n hn => hn⟩
  obtain ⟨n, m, hm, hserial, hwhere⟩ := h hmp hkin₀ hs₀
  -- a living child of somebody else keeps its parent
  have hkeeps : m.kin.isSome → m.parent = some p →
      ¬ ∃ a ∈ kin.aChildren, f.pcbAt a = some n := by
    rintro halive hpar ⟨a, ha, hat⟩
    have := hown a ha n m hat hm halive
    rw [hpar] at this
    exact hne (Option.some.inj this)
  have hnot : n ∉ kin.dChildren.take 1 := by
    rcases hwhere with ⟨halive, -⟩ | ⟨-, hin⟩
    · exact hk.not_mem_take hx hkin hm halive
    · exact fun hin' => hne (hk.defunct_own hmp hkin₀ hx hkin hin (List.mem_of_mem_take hin'))
  obtain ⟨m', hm', -, hs', -, hk', hpar'⟩ := terminate_forth (x := x) hm hnot
  refine ⟨n, _, by rw [grave_member, hm', Option.map_some], ?_, ?_⟩
  · split <;> exact hs'.trans hserial
  rcases hwhere with ⟨halive, hpar⟩ | ⟨hdead, hin⟩
  · rw [if_neg (hkeeps halive hpar), hpar] at hpar'
    rcases eq_or_ne n x with rfl | hnx
    · -- it is the one that exits, and goes to its parent's list
      right
      obtain rfl := Option.some.inj (hmx'.symm.trans hm')
      have hto : ((f.terminate n kin).member n).bind Member.parent = some p := by
        rw [hmx', Option.bind_some, hpar']
      rw [if_pos hto, hkt, hkin₀, Option.map_some] at hkin'
      obtain rfl := Option.some.inj hkin'
      refine ⟨?_, List.mem_append_right _ (List.mem_singleton_self n)⟩
      split
      · simp [hkx]
      · exact hkx
    · left
      rw [if_neg hnx] at hk'
      split
      · exact ⟨by simpa [hk'] using halive, hpar'⟩
      · exact ⟨hk' ▸ halive, hpar'⟩
  · right
    have hk'' : m'.kin = none := by
      rw [hk', hdead, ite_self]
    split
    · exact ⟨by simp [hk''], hsub n hin⟩
    · exact ⟨hk'', hsub n hin⟩

/-- **The living after an exit** have the lists they had; the parent of the
process has it on its own, too. -/
theorem Kinship.exit_forth (h : f.Kinship) (hx : f.member x = some mx) (hkin : mx.kin = some kin)
    {kin' : Kin Node Addr} (hm : f.member n = some m) (hkin' : m.kin = some kin') (hne : n ≠ x) :
    ∃ m', ((f.terminate x kin).grave x).member n = some m' ∧ m'.children = m.children ∧
      m'.kin = some (if ((f.terminate x kin).member x).bind Member.parent = some n then
        { kin' with dChildren := kin'.dChildren ++ [x] } else kin') := by
  have hnot := h.not_mem_take hx hkin hm (by rw [hkin']; rfl)
  obtain ⟨m', hm', -, -, hc, hk, -⟩ := terminate_forth (x := x) hm hnot
  rw [if_neg hne, hkin'] at hk
  refine ⟨_, by rw [grave_member, hm', Option.map_some], ?_, ?_⟩
  · split <;> exact hc
  · split
    · rw [hk, Option.map_some]
    · exact hk

/-- **And the process is dead**, and nobody's if it had no parent. -/
theorem Kinship.exit_self (h : f.Kinship) (hx : f.member x = some mx) (hkin : mx.kin = some kin) :
    (∃ m, ((f.terminate x kin).grave x).member x = some m ∧ m.kin = none) ∧
    (((f.terminate x kin).member x).bind Member.parent = none →
      ((f.terminate x kin).grave x).Laid x) := by
  obtain ⟨mx', hmx', -, -, -, hkx, -⟩ :=
    terminate_forth (x := x) hx (h.not_mem_take hx hkin hx (by rw [hkin]; rfl))
  rw [if_pos rfl] at hkx
  refine ⟨⟨_, by rw [grave_member, hmx', Option.map_some], by split <;> simp [hkx]⟩, ?_⟩
  intro hnone
  have hgrave : (f.terminate x kin).grave x = f.terminate x kin := by
    unfold grave
    rw [hnone]
  rw [hgrave]
  constructor
  · intro m hm
    obtain rfl := Option.some.inj (hmx'.symm.trans hm)
    exact hkx
  · intro p mp kin' hp hkin' hin
    obtain ⟨-, m, hm, -, -, -, hk, -⟩ := terminate_back hp
    split at hk
    · rw [hk] at hkin'
      cases hkin'
    · exact h.not_defunct hx hkin hm (hk ▸ hkin') hin

end Exit


end Family

end Yalnix
