import Yalnix.Process.Family.Moves
/-!
# Births, exits and collections

The books of a family: who was born to whom, in which order the processes
exited, and which exits each parent has been told of. A process is entered
under its number in the order of births, which is nobody else's.

Where no block is ever a second process's `pcb_t`, an exit orphans only the
children of the process that exits. So a living process is told of its
children in the order they exit, and those it has not been told of yet are
its dead (`owed`).
-/

namespace Yalnix

variable {Node Addr : Type}

/-- **The books.** A birth and a collection are entered with the parent's
number first. -/
structure Books (Addr : Type) where
  /-- Every block that has been a `pcb_t`. -/
  blocks : List Addr
  births : List (ℕ × ℕ)
  exits : List ℕ
  told : List (ℕ × ℕ)

namespace Books

/-- A process's children, in the order they exited. -/
def exitsOf (b : Books Addr) (σ : ℕ) : List ℕ := b.exits.filter fun s => (σ, s) ∈ b.births

/-- Those it has been told of. -/
def toldTo (b : Books Addr) (σ : ℕ) : List ℕ := (b.told.filter fun d => d.1 = σ).map Prod.snd

/-- A birth is entered. -/
def bear (b : Books Addr) (data : Addr) (σ s : ℕ) : Books Addr :=
  { b with blocks := b.blocks ++ [data], births := b.births ++ [(σ, s)] }

/-- An exit is entered. -/
def exit (b : Books Addr) (s : ℕ) : Books Addr := { b with exits := b.exits ++ [s] }

/-- A collection is entered. -/
def tell (b : Books Addr) (σ s : ℕ) : Books Addr := { b with told := b.told ++ [(σ, s)] }

variable {b : Books Addr} {σ σ' s : ℕ} {data : Addr}

@[simp] theorem toldTo_bear : (b.bear data σ s).toldTo σ' = b.toldTo σ' := rfl

@[simp] theorem toldTo_exit : (b.exit s).toldTo σ = b.toldTo σ := rfl

@[simp] theorem exitsOf_tell : (b.tell σ s).exitsOf σ' = b.exitsOf σ' := rfl

theorem mem_births_bear {σ₀ s₀ : ℕ} : (σ, s) ∈ (b.bear data σ₀ s₀).births ↔
    (σ, s) ∈ b.births ∨ σ = σ₀ ∧ s = s₀ := by
  show (σ, s) ∈ b.births ++ [(σ₀, s₀)] ↔ _
  rw [List.mem_append, List.mem_singleton, Prod.mk.injEq]

/-- A birth changes nobody's exits, the child being new. -/
theorem exitsOf_bear (h : s ∉ b.exits) : (b.bear data σ s).exitsOf σ' = b.exitsOf σ' := by
  refine List.filter_congr fun s' hs' => ?_
  have hne : s' ≠ s := fun heq => h (heq ▸ hs')
  simp only [mem_births_bear, hne, and_false, or_false]

theorem exitsOf_exit : (b.exit s).exitsOf σ =
    b.exitsOf σ ++ if (σ, s) ∈ b.births then [s] else [] := by
  show (b.exits ++ [s]).filter (fun s' => (σ, s') ∈ b.births) =
    b.exits.filter (fun s' => (σ, s') ∈ b.births) ++ _
  rw [List.filter_append, List.filter_singleton]
  congr 1
  by_cases h : (σ, s) ∈ b.births <;> simp [h]

theorem toldTo_tell : (b.tell σ s).toldTo σ' =
    b.toldTo σ' ++ if σ = σ' then [s] else [] := by
  show ((b.told ++ [(σ, s)]).filter _).map Prod.snd = _
  rw [List.filter_append, List.map_append, List.filter_singleton]
  congr 1
  by_cases h : σ = σ' <;> simp [h]

end Books

/-- **The books are in order.** -/
structure Family.InOrder (f : Family Node Addr) (b : Books Addr) : Prop where
  /-- A block in use is that of its process. -/
  owner : ∀ {a n}, f.pcbAt a = some n → ∃ m, f.member n = some m ∧ m.data = a
  births_lt : ∀ {σ s}, (σ, s) ∈ b.births → σ < s ∧ s < f.born
  births_own : ∀ {σ σ' s}, (σ, s) ∈ b.births → (σ', s) ∈ b.births → σ = σ'
  children : ∀ {n m s}, f.member n = some m → s ∈ m.children → (m.serial, s) ∈ b.births
  /-- Whoever has its block on an `a_children` list is a child. -/
  listed : ∀ {q mq kin a}, f.member q = some mq → mq.kin = some kin → a ∈ kin.aChildren →
    a ∈ b.blocks ∧ ∀ {n m}, f.pcbAt a = some n → f.member n = some m →
      (mq.serial, m.serial) ∈ b.births
  /-- A living child has its parent while that lives. -/
  parent : ∀ {n m p mp}, f.member n = some m → m.kin.isSome → f.member p = some mp →
    mp.kin.isSome → (mp.serial, m.serial) ∈ b.births → m.parent = some p
  exits_lt : ∀ {s}, s ∈ b.exits → s < f.born
  exits_nodup : b.exits.Nodup
  living : ∀ {n m}, f.member n = some m → m.kin.isSome → m.serial ∉ b.exits
  told_prefix : ∀ σ, b.toldTo σ <+: b.exitsOf σ
  /-- **What a living process has not been told of** is on its list. -/
  owed : ∀ {p mp kin}, f.member p = some mp → mp.kin = some kin →
    b.exitsOf mp.serial =
      b.toldTo mp.serial ++ kin.dChildren.filterMap fun n => (f.member n).map Member.serial

namespace Family.InOrder

variable {f : Family Node Addr} {b : Books Addr} {n p x : Node} {m mp mx : Member Node Addr}
  {kin : Kin Node Addr} {σ σ' s : ℕ} [DecidableEq Node] [DecidableEq Addr]

omit [DecidableEq Node] [DecidableEq Addr] in
/-- **The books stay in order for what is left** of a family: the births are
those there were, so only the parents of the living and the exits, with what
each was told of them, are left to see to. -/
theorem remains {f' : Family Node Addr} {b' : Books Addr} (h : f.InOrder b) (hr : f'.Remains f)
    (hblocks : b'.blocks = b.blocks) (hbirths : b'.births = b.births)
    (hthere : ∀ a n, f'.pcbAt a = some n → ∃ m, f'.member n = some m)
    (hparent : ∀ {n m m' p mp'}, f.member n = some m → f'.member n = some m' →
      f'.member p = some mp' → mp'.kin.isSome → (mp'.serial, m'.serial) ∈ b.births →
      m.parent = some p → m'.parent = some p)
    (hexits : ∀ {s}, s ∈ b'.exits → s < f.born) (hnodup : b'.exits.Nodup)
    (hliving : ∀ {n m'}, f'.member n = some m' → m'.kin.isSome → m'.serial ∈ b'.exits →
      m'.serial ∈ b.exits)
    (htold : ∀ σ, b'.toldTo σ <+: b'.exitsOf σ)
    (howed : ∀ {p mp kin}, f'.member p = some mp → mp.kin = some kin →
      b'.exitsOf mp.serial =
        b'.toldTo mp.serial ++ kin.dChildren.filterMap fun n => (f'.member n).map Member.serial) :
    f'.InOrder b' where
  owner hat := by
    obtain ⟨m', hm'⟩ := hthere _ _ hat
    obtain ⟨m, hm, hleft⟩ := hr.member hm'
    obtain ⟨m₀, hm₀, hdata⟩ := h.owner (hr.pcbAt hat)
    obtain rfl := Option.some.inj (hm.symm.trans hm₀)
    exact ⟨m', hm', hleft.data.trans hdata⟩
  births_lt hs := by
    rw [hr.born]
    exact h.births_lt (hbirths ▸ hs)
  births_own hs hs' := h.births_own (hbirths ▸ hs) (hbirths ▸ hs')
  children hm' hs := by
    obtain ⟨m, hm, hleft⟩ := hr.member hm'
    rw [hleft.serial, hbirths]
    exact h.children hm (hleft.children.subset hs)
  listed hq' hkin' ha := by
    obtain ⟨mq, hq, hleft⟩ := hr.member hq'
    obtain ⟨kin, hkin, heq⟩ := hleft.kin hkin'
    obtain ⟨hblock, hown⟩ := h.listed hq hkin (heq ▸ ha)
    refine ⟨hblocks ▸ hblock, fun hat hm' => ?_⟩
    obtain ⟨m, hm, hleft'⟩ := hr.member hm'
    rw [hleft.serial, hleft'.serial, hbirths]
    exact hown (hr.pcbAt hat) hm
  parent hm' hk' hp' hkp' hb := by
    obtain ⟨m, hm, hleft⟩ := hr.member hm'
    obtain ⟨mp, hp, hleftp⟩ := hr.member hp'
    rw [hbirths] at hb
    refine hparent hm hm' hp' hkp' hb ?_
    rw [hleft.serial, hleftp.serial] at hb
    exact h.parent hm (hleft.isSome hk') hp (hleftp.isSome hkp') hb
  exits_lt hs := by
    rw [hr.born]
    exact hexits hs
  exits_nodup := hnodup
  living hm' hk' hin := by
    obtain ⟨m, hm, hleft⟩ := hr.member hm'
    have hin₀ := hliving hm' hk' hin
    rw [hleft.serial] at hin₀
    exact h.living hm (hleft.isSome hk') hin₀
  told_prefix := htold
  owed := howed

/-- **A process that is freed** is in nobody's way, dead and on no list. -/
theorem destroy (h : f.InOrder b) (hlaid : f.Laid n) : (f.destroy n).InOrder b := by
  refine h.remains (remains_destroy f n) rfl rfl ?_ ?_ h.exits_lt h.exits_nodup
    (fun _ _ hin => hin) h.told_prefix ?_
  · intro a n' hat
    obtain ⟨m', hm', hdata⟩ := h.owner (destroy_pcbAt hat)
    rcases eq_or_ne n' n with rfl | hne
    · -- its own block is free
      unfold Family.destroy at hat
      rw [hm', ← hdata] at hat
      dsimp only at hat
      rw [Function.update_self] at hat
      cases hat
    · exact ⟨m', by rw [destroy_of_ne hne, hm']⟩
  · intro n' m m' p mp' hm hm' _ _ _ hp
    obtain rfl := Option.some.inj (hm.symm.trans (destroy_back hm').2)
    exact hp
  · intro p mp kin hp hkin
    have hp₀ := (destroy_back hp).2
    rw [h.owed hp₀ hkin]
    congr 1
    refine List.filterMap_congr fun n' hn' => ?_
    rw [destroy_of_ne]
    rintro rfl
    exact hlaid.2 hp₀ hkin hn'

theorem destroyAll {l : List Node} (h : f.InOrder b) (hl : ∀ n ∈ l, f.Laid n) :
    (Family.destroyAll l f).InOrder b := by
  induction l generalizing f with
  | nil => exact h
  | cons n rest ih =>
    exact ih (h.destroy (hl n List.mem_cons_self)) fun n' hn' =>
      (hl n' (List.mem_cons_of_mem _ hn')).destroy

/-! ## A birth -/

omit [DecidableEq Node] [DecidableEq Addr] in
/-- The next number is nobody's child yet. -/
theorem unborn (h : f.InOrder b) (σ : ℕ) : (σ, f.born) ∉ b.births :=
  fun hs => absurd (h.births_lt hs).2 (lt_irrefl _)

omit [DecidableEq Node] [DecidableEq Addr] in
/-- And nobody's parent. -/
theorem childless (h : f.InOrder b) (s : ℕ) : (f.born, s) ∉ b.births := fun hs => by
  have := h.births_lt hs
  omega

omit [DecidableEq Node] [DecidableEq Addr] in
theorem born_not_exited (h : f.InOrder b) : f.born ∉ b.exits :=
  fun hin => absurd (h.exits_lt hin) (lt_irrefl _)

omit [DecidableEq Node] [DecidableEq Addr] in
/-- The new birth is of the next number. -/
theorem births_bear_lt {σ₀ : ℕ} {data : Addr} (h : f.InOrder b) (hlt : σ₀ < f.born)
    (hs : (σ, s) ∈ (b.bear data σ₀ f.born).births) : σ < s ∧ s < f.born + 1 := by
  rcases Books.mem_births_bear.mp hs with hs | ⟨rfl, rfl⟩
  · have := h.births_lt hs
    omega
  · omega

omit [DecidableEq Node] [DecidableEq Addr] in
/-- So it gives nobody a second parent. -/
theorem births_bear_own {σ₀ : ℕ} {data : Addr} (h : f.InOrder b)
    (hs : (σ, s) ∈ (b.bear data σ₀ f.born).births)
    (hs' : (σ', s) ∈ (b.bear data σ₀ f.born).births) : σ = σ' := by
  rcases Books.mem_births_bear.mp hs with hold | ⟨rfl, rfl⟩ <;>
    rcases Books.mem_births_bear.mp hs' with hold' | ⟨rfl, heq⟩
  · exact h.births_own hold hold'
  · exact absurd (heq ▸ hold) (h.unborn _)
  · exact absurd hold' (h.unborn _)
  · rfl

section Adopt

variable {child : Node} {data : Addr} (h : f.InOrder b) (hp : f.member p = some mp)
  (hkin : mp.kin = some kin) (hchild : f.member child = none)

theorem adopt_pcbAt_self : (f.adopt p child data).pcbAt data = some child :=
  Function.update_self _ _ _

theorem adopt_pcbAt_of_ne {a : Addr} (hne : a ≠ data) :
    (f.adopt p child data).pcbAt a = f.pcbAt a := Function.update_of_ne hne _ _

include h hp hkin hchild

theorem owner_adopt {a : Addr} (hat : (f.adopt p child data).pcbAt a = some n) :
    ∃ m, (f.adopt p child data).member n = some m ∧ m.data = a := by
  by_cases hdata : a = data
  · subst hdata
    obtain rfl := Option.some.inj (adopt_pcbAt_self.symm.trans hat)
    exact ⟨_, adopt_child, rfl⟩
  · obtain ⟨m, hm, heq⟩ := h.owner ((adopt_pcbAt_of_ne hdata).symm.trans hat)
    obtain ⟨-, m', hm', hd, -⟩ := adopt_forth data hp hkin hchild hm
    exact ⟨m', hm', hd.trans heq⟩

theorem children_adopt (hm : (f.adopt p child data).member n = some m) (hs : s ∈ m.children) :
    (m.serial, s) ∈ (b.bear data mp.serial f.born).births := by
  rw [Books.mem_births_bear]
  rcases adopt_children hp hkin hchild hm hs with ⟨m₀, hm₀, hserial, hs⟩ | ⟨-, hserial, rfl⟩
  · exact Or.inl (hserial ▸ h.children hm₀ hs)
  · exact Or.inr ⟨hserial, rfl⟩

/-- A block on a list is the child's, or one that was on the list and has
been somebody's, so another than the child's. -/
theorem listed_adopt (hnew : data ∉ b.blocks) {q : Node} {mq : Member Node Addr}
    {kinq : Kin Node Addr} {a : Addr} (hq : (f.adopt p child data).member q = some mq)
    (hkinq : mq.kin = some kinq) (ha : a ∈ kinq.aChildren) :
    a ∈ (b.bear data mp.serial f.born).blocks ∧
      ∀ {n m}, (f.adopt p child data).pcbAt a = some n →
        (f.adopt p child data).member n = some m →
          (mq.serial, m.serial) ∈ (b.bear data mp.serial f.born).births := by
  rcases adopt_living hp hkin hchild hq hkinq with
    ⟨-, rfl, -⟩ | ⟨mq₀, kin₀, hq₀, hkin₀, hserial, -, -, hother, hown⟩
  · cases ha
  by_cases hold : a ∈ kin₀.aChildren
  · obtain ⟨hblock, hown⟩ := h.listed hq₀ hkin₀ hold
    have hne : a ≠ data := fun heq => hnew (heq ▸ hblock)
    refine ⟨List.mem_append_left _ hblock, fun {n m} hat hm => ?_⟩
    rw [adopt_pcbAt_of_ne hne] at hat
    obtain ⟨m₀, hm₀, -⟩ := h.owner hat
    obtain ⟨-, m', hm', -, -, hs, -⟩ := adopt_forth data hp hkin hchild hm₀
    obtain rfl := Option.some.inj (hm.symm.trans hm')
    rw [Books.mem_births_bear, hserial, hs]
    exact Or.inl (hown hat hm₀)
  · by_cases hqp : q = p
    · subst hqp
      obtain rfl := Option.some.inj (hq₀.symm.trans hp)
      rw [hown rfl] at ha
      have heq : a = data := List.mem_singleton.mp ((List.mem_append.mp ha).resolve_left hold)
      subst heq
      refine ⟨List.mem_append_right _ (List.mem_singleton_self _), fun {n m} hat hm => ?_⟩
      obtain rfl := Option.some.inj (adopt_pcbAt_self.symm.trans hat)
      obtain rfl := Option.some.inj (hm.symm.trans adopt_child)
      rw [Books.mem_births_bear, hserial]
      exact Or.inr ⟨rfl, rfl⟩
    · exact absurd ((hother hqp).2 ▸ ha) hold

theorem parent_adopt (hk : f.Kinship) {q : Node} {mq : Member Node Addr}
    (hm : (f.adopt p child data).member n = some m) (halive : m.kin.isSome)
    (hq : (f.adopt p child data).member q = some mq) (haliveq : mq.kin.isSome)
    (hb : (mq.serial, m.serial) ∈ (b.bear data mp.serial f.born).births) :
    m.parent = some q := by
  rw [Books.mem_births_bear] at hb
  rcases adopt_back hp hkin hchild hq with ⟨rfl, rfl⟩ | ⟨-, mq₀, hq₀, -, -, hserial, -, hkq⟩
  · -- the child has no children
    rcases hb with hb | ⟨heq, -⟩
    · exact absurd hb (h.childless _)
    · have := hk.serial_lt hp
      dsimp only at heq
      omega
  rw [hserial] at hb
  rw [hkq, Option.isSome_map] at haliveq
  rcases adopt_back hp hkin hchild hm with ⟨rfl, rfl⟩ | ⟨-, m₀, hm₀, -, hpar, hs, -, hkm⟩
  · rcases hb with hb | ⟨heq, -⟩
    · exact absurd hb (h.unborn _)
    · rw [hk.serial_inj hq₀ hp heq]
  · rw [hs] at hb
    rw [hkm, Option.isSome_map] at halive
    rw [hpar]
    rcases hb with hb | ⟨-, heq⟩
    · exact h.parent hm₀ halive hq₀ haliveq hb
    · have := hk.serial_lt hm₀
      omega

/-- The child is owed nothing, and the others what they were. -/
theorem owed_adopt (hk : f.Kinship) {q : Node} {mq : Member Node Addr} {kinq : Kin Node Addr}
    (hq : (f.adopt p child data).member q = some mq) (hkinq : mq.kin = some kinq) :
    b.exitsOf mq.serial = b.toldTo mq.serial ++
      kinq.dChildren.filterMap fun n => ((f.adopt p child data).member n).map Member.serial := by
  rcases adopt_living hp hkin hchild hq hkinq with
    ⟨-, rfl, -, hserial⟩ | ⟨mq₀, kin₀, hq₀, hkin₀, hserial, hd, -⟩
  · have hnil : b.exitsOf f.born = [] := by
      refine List.filter_eq_nil_iff.mpr fun s _ => ?_
      simp [h.childless s]
    have htold := h.told_prefix f.born
    rw [hnil, List.prefix_nil] at htold
    rw [hserial, hnil, htold]
    rfl
  · rw [hserial, h.owed hq₀ hkin₀, hd]
    congr 1
    refine List.filterMap_congr fun n hn => ?_
    obtain ⟨m, hm, -⟩ := hk.defunct hq₀ hkin₀ hn
    obtain ⟨-, m', hm', -, -, hs, -⟩ := adopt_forth data hp hkin hchild hm
    rw [hm, hm', Option.map_some, Option.map_some, hs]

/-- **A birth**, in a block nobody has had. -/
theorem adopt (hk : f.Kinship) (hnew : data ∉ b.blocks) :
    (f.adopt p child data).InOrder (b.bear data mp.serial f.born) where
  owner hat := h.owner_adopt hp hkin hchild hat
  births_lt hs := h.births_bear_lt (hk.serial_lt hp) hs
  births_own hs hs' := h.births_bear_own hs hs'
  children hm hs := h.children_adopt hp hkin hchild hm hs
  listed hq hkinq ha := h.listed_adopt hp hkin hchild hnew hq hkinq ha
  parent hm halive hq haliveq hb := h.parent_adopt hp hkin hchild hk hm halive hq haliveq hb
  exits_lt hs := Nat.lt_succ_of_lt (h.exits_lt hs)
  exits_nodup := h.exits_nodup
  living hm halive := by
    rcases adopt_back hp hkin hchild hm with ⟨rfl, rfl⟩ | ⟨-, m₀, hm₀, -, -, hs, -, hkm⟩
    · exact h.born_not_exited
    · rw [hkm, Option.isSome_map] at halive
      rw [hs]
      exact h.living hm₀ halive
  told_prefix σ := by
    rw [Books.toldTo_bear, Books.exitsOf_bear h.born_not_exited]
    exact h.told_prefix σ
  owed hq hkinq := by
    rw [Books.toldTo_bear, Books.exitsOf_bear h.born_not_exited]
    exact h.owed_adopt hp hkin hchild hk hq hkinq

end Adopt

/-! ## An exit -/

omit [DecidableEq Addr] in
theorem mourn_member {addrs : List Addr} : ((f.orphan addrs).bereave x).member n =
    (f.member n).map fun m => { m with
      parent := if ∃ a ∈ addrs, f.pcbAt a = some n then none else m.parent
      kin := if n = x then none else m.kin } := by
  unfold Family.bereave Family.modify
  dsimp only
  rw [Function.update_apply]
  split
  · rename_i heq
    subst heq
    rw [orphan_member, Option.map_map]
    congr 1
    funext m
    dsimp only [Function.comp_apply]
    split <;> rfl
  · rw [orphan_member]
    congr 1
    funext m
    split <;> rfl

omit [DecidableEq Addr] in
/-- **A death**: nobody loses a parent by it but the children of the process
that dies. -/
theorem mourn (h : f.InOrder b) (hk : f.Kinship) (hx : f.member x = some mx)
    (hkin : mx.kin = some kin) : ((f.orphan kin.aChildren).bereave x).InOrder b := by
  have hleft : ((f.orphan kin.aChildren).bereave x).Remains f :=
    (remains_modify fun m _ => m.remains_dead).trans (remains_orphan f kin.aChildren)
  refine h.remains hleft rfl rfl ?_ ?_ h.exits_lt h.exits_nodup (fun _ _ hin => hin)
    h.told_prefix ?_
  · intro a n hat
    obtain ⟨m, hm, -⟩ := h.owner (hleft.pcbAt hat)
    exact ⟨_, by rw [mourn_member, hm, Option.map_some]⟩
  · intro n m m' p mp' hm hm' hp' hkp' hb hpar
    rw [mourn_member, Option.map_eq_some_iff] at hm' hp'
    obtain ⟨m₀, hm₀, rfl⟩ := hm'
    obtain ⟨mp, hp, rfl⟩ := hp'
    obtain rfl := Option.some.inj (hm.symm.trans hm₀)
    dsimp only at hkp' hb ⊢
    rw [if_neg, hpar]
    -- nobody has two parents, and whose children these were is dead
    rintro ⟨a, ha, hat⟩
    have hsame := h.births_own hb ((h.listed hx hkin ha).2 hat hm)
    rw [if_pos (hk.serial_inj hp hx hsame)] at hkp'
    cases hkp'
  · intro p mp' kin' hp' hkin'
    rw [mourn_member, Option.map_eq_some_iff] at hp'
    obtain ⟨mp, hp, rfl⟩ := hp'
    dsimp only at hkin' ⊢
    split at hkin'
    · cases hkin'
    rw [h.owed hp hkin']
    congr 1
    refine List.filterMap_congr fun n _ => ?_
    rw [mourn_member, Option.map_map]
    rfl

omit [DecidableEq Addr] in
/-- **The dead go to their parents**, and the exit is entered. -/
theorem grave (h : f.InOrder b) (hx : f.member x = some mx) (hdead : mx.kin = none)
    (hlt : mx.serial < f.born) (hnew : mx.serial ∉ b.exits)
    (hinj : ∀ {n m}, f.member n = some m → m.serial = mx.serial → n = x)
    (hpar : ∀ {p mp kin}, f.member p = some mp → mp.kin = some kin →
      ((mp.serial, mx.serial) ∈ b.births ↔ mx.parent = some p)) :
    (f.grave x).InOrder (b.exit mx.serial) := by
  have hmember : ∀ n, (f.grave x).member n = (f.member n).map fun m =>
      if mx.parent = some n then { m with kin := m.kin.map fun kin =>
        { kin with dChildren := kin.dChildren ++ [x] } } else m := by
    intro n
    rw [grave_member, hx]
    rfl
  have hleft : (f.grave x).Remains f := remains_grave f x
  have hserial : ∀ n, ((f.grave x).member n).map Member.serial =
      (f.member n).map Member.serial := by
    intro n
    rw [hmember, Option.map_map]
    congr 1
    funext m
    dsimp only [Function.comp_apply]
    split <;> rfl
  refine h.remains hleft rfl rfl ?_ ?_ ?_ ?_ ?_ ?_ ?_
  · intro a n hat
    obtain ⟨m, hm, -⟩ := h.owner (hleft.pcbAt hat)
    exact ⟨_, by rw [hmember, hm, Option.map_some]⟩
  · intro n m m' p mp' hm hm' _ _ _ hp
    rw [hmember, hm, Option.map_some] at hm'
    obtain rfl := Option.some.inj hm'
    split <;> exact hp
  · intro s hs
    rcases List.mem_append.mp hs with hs | hs
    · exact h.exits_lt hs
    · rwa [List.mem_singleton.mp hs]
  · refine h.exits_nodup.append (List.nodup_singleton _) ?_
    rw [List.disjoint_singleton]
    exact hnew
  · -- the living are others than the one that exits
    intro n m' hm' hk' hin
    refine (List.mem_append.mp hin).resolve_right fun hin => ?_
    obtain ⟨m, hm, hlm⟩ := hleft.member hm'
    obtain rfl := hinj hm (hlm.serial ▸ List.mem_singleton.mp hin)
    obtain rfl := Option.some.inj (hx.symm.trans hm)
    rw [hlm.kin_none hdead] at hk'
    cases hk'
  · intro σ
    rw [Books.toldTo_exit, Books.exitsOf_exit]
    exact (h.told_prefix σ).trans (List.prefix_append _ _)
  · intro q mq' kin' hq' hkin'
    simp only [hserial]
    rw [hmember, Option.map_eq_some_iff] at hq'
    obtain ⟨mq, hq, rfl⟩ := hq'
    rw [Books.toldTo_exit, Books.exitsOf_exit]
    by_cases hown : mx.parent = some q
    · rw [if_pos hown] at hkin' ⊢
      obtain ⟨kin₀, hkin₀, rfl⟩ := Option.map_eq_some_iff.mp hkin'
      dsimp only
      rw [h.owed hq hkin₀, if_pos ((hpar hq hkin₀).mpr hown), List.append_assoc,
        List.filterMap_append, List.filterMap_cons, hx]
      rfl
    · rw [if_neg hown] at hkin' ⊢
      rw [h.owed hq hkin', if_neg fun hin => hown ((hpar hq hkin').mp hin), List.append_nil]

/-- **An exit** is entered, and the parent is owed the news. -/
theorem exit (h : f.InOrder b) (hk : f.Kinship) (hx : f.member x = some mx)
    (hkin : mx.kin = some kin) :
    ((f.terminate x kin).grave x).InOrder (b.exit mx.serial) := by
  have halive : mx.kin.isSome := by
    rw [hkin]
    rfl
  have hterm : (f.terminate x kin).InOrder b := (h.mourn hk hx hkin).destroyAll fun n hn =>
    hk.laid_bereave hx hkin (List.mem_of_mem_take hn)
  have hk' := hk.terminate hx hkin
  obtain ⟨m', hm', -, hserial, -, hdead, hpar⟩ :=
    terminate_forth (x := x) hx (hk.not_mem_take hx hkin hx halive)
  rw [if_pos rfl] at hdead
  rw [← hserial]
  -- nobody lists its own block
  have hself : ¬ ∃ a ∈ kin.aChildren, f.pcbAt a = some x := by
    rintro ⟨a, ha, hat⟩
    exact absurd (h.births_lt ((h.listed hx hkin ha).2 hat hx)).1 (lt_irrefl _)
  rw [if_neg hself] at hpar
  refine hterm.grave hm' hdead (hk'.serial_lt hm') (hserial ▸ h.living hx halive)
    (fun hn heq => hk'.serial_inj hn hm' heq) fun {p mp kinp} hp hkinp => ⟨fun hb => ?_, fun hb => ?_⟩
  · obtain ⟨-, mp₀, hp₀, -, hs, -, hkp, -⟩ := terminate_back hp
    rw [hkinp] at hkp
    split at hkp
    · cases hkp
    · rw [hpar]
      refine h.parent hx halive hp₀ (by rw [← hkp]; rfl) ?_
      rw [← hs, ← hserial]
      exact hb
  · obtain ⟨-, -, mp', kin', hmp', -, -, hin⟩ := hk.parent_terminate hx hkin hm' hb
    obtain rfl := Option.some.inj (hp.symm.trans hmp')
    rw [hserial]
    exact hterm.children hp hin

/-! ## A collection -/

omit [DecidableEq Addr] in
/-- **A collection** tells the parent of the first it is owed. -/
theorem collect {rest : List Node} (h : f.InOrder b) (hk : f.Kinship) (hp : f.member p = some mp)
    (hkin : mp.kin = some kin) (hd : kin.dChildren = n :: rest) (hm : f.member n = some m) :
    (f.collect p kin rest m.serial).InOrder (b.tell mp.serial m.serial) := by
  have hself : (f.collect p kin rest m.serial).member p = some { mp with
      kin := some { kin with dChildren := rest }
      children := mp.children.erase m.serial } := collect_self hp _ _ _
  have hother : ∀ {q}, q ≠ p → (f.collect p kin rest m.serial).member q = f.member q :=
    fun hne => collect_of_ne hne _ _ _
  have hleft : (f.collect p kin rest m.serial).Remains f := by
    refine remains_modify fun mp' hp' => ?_
    obtain rfl := Option.some.inj (hp.symm.trans hp')
    exact mp.remains_collected hkin rest m.serial
  have hserial : ∀ q, ((f.collect p kin rest m.serial).member q).map Member.serial =
      (f.member q).map Member.serial := by
    intro q
    rcases eq_or_ne q p with rfl | hne
    · rw [hself, hp]
      rfl
    · rw [hother hne]
  refine h.remains hleft rfl rfl ?_ ?_ h.exits_lt h.exits_nodup (fun _ _ hin => hin) ?_ ?_
  · intro a q hat
    obtain ⟨mq, hq, -⟩ := h.owner hat
    rcases eq_or_ne q p with rfl | hne
    · exact ⟨_, hself⟩
    · exact ⟨mq, (hother hne).trans hq⟩
  · intro q mq mq' _ _ hq hq' _ _ _ hpar
    rcases eq_or_ne q p with rfl | hne
    · obtain rfl := Option.some.inj (hself.symm.trans hq')
      obtain rfl := Option.some.inj (hp.symm.trans hq)
      exact hpar
    · obtain rfl := Option.some.inj (hq.symm.trans ((hother hne).symm.trans hq'))
      exact hpar
  · -- what the parent is told is the first of what it is owed
    intro σ
    rw [Books.exitsOf_tell, Books.toldTo_tell]
    split
    · rename_i heq
      subst heq
      rw [h.owed hp hkin, hd, List.filterMap_cons, hm]
      exact List.prefix_append_right_inj _ |>.mpr (List.prefix_append [m.serial] _)
    · rw [List.append_nil]
      exact h.told_prefix σ
  · intro q mq' kin' hq' hkin'
    simp only [hserial]
    rw [Books.exitsOf_tell, Books.toldTo_tell]
    rcases eq_or_ne q p with rfl | hne
    · obtain rfl := Option.some.inj (hself.symm.trans hq')
      obtain rfl := Option.some.inj hkin'
      dsimp only
      rw [if_pos rfl, h.owed hp hkin, hd, List.filterMap_cons, hm, List.append_assoc]
      rfl
    · rw [hother hne] at hq'
      rw [if_neg fun heq => hne (hk.serial_inj hq' hp heq.symm), List.append_nil]
      exact h.owed hq' hkin'

end Family.InOrder

end Yalnix
