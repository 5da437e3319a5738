import Yalnix.Process.Steps
/-!
# Families

What `Fork`, `Exit` and `Wait` do to who is whose child. A process is seen
here as its links and its births, and the system calls as five operations on
the tree of them: a process is born (`adopt`), its living children lose
their parent (`orphan`), it dies (`bereave`), its parent is handed the body
(`bury`), and the body is collected (`collect`) and freed (`destroy`).

`Kinship` is what they all keep, in every run: the links of the living lead
to the living, and the defunct of a process are dead, are its own, and are
nobody else's. `AtHome` is not: it says that every child that was not
collected can be found, and a process that exits with addresses of freed
blocks among its `a_children` may take it from a stranger. This module has
the tree and what each operation owes; `Moves.lean` has the system calls.
-/

namespace Yalnix

/-- What a process is to its relatives. -/
structure Member (Node Addr : Type) where
  /-- Where its `pcb_t` is. -/
  data : Addr
  parent : Option Node
  kin : Option (Kin Node Addr)
  serial : ℕ
  children : List ℕ

/-- **The family tree.** -/
structure Family (Node Addr : Type) where
  member : Node → Option (Member Node Addr)
  pcbAt : Addr → Option Node
  born : ℕ

variable {Node Addr : Type}

/-- **What is left of a process**: it is who it was, and has no parent, no
child and no list that it had not. -/
structure Member.Remains (m' m : Member Node Addr) : Prop where
  data : m'.data = m.data
  serial : m'.serial = m.serial
  parent : ∀ {p}, m'.parent = some p → m.parent = some p
  children : m'.children.Sublist m.children
  kin : ∀ {kin'}, m'.kin = some kin' → ∃ kin, m.kin = some kin ∧ kin'.aChildren = kin.aChildren

namespace Member

variable {m m' m'' : Member Node Addr}

theorem Remains.refl (m : Member Node Addr) : m.Remains m :=
  ⟨rfl, rfl, id, List.Sublist.refl _, fun h => ⟨_, h, rfl⟩⟩

theorem Remains.trans (h : m''.Remains m') (h' : m'.Remains m) : m''.Remains m where
  data := h.data.trans h'.data
  serial := h.serial.trans h'.serial
  parent hp := h'.parent (h.parent hp)
  children := h.children.trans h'.children
  kin hk := by
    obtain ⟨kin', hkin', heq'⟩ := h.kin hk
    obtain ⟨kin, hkin, heq⟩ := h'.kin hkin'
    exact ⟨kin, hkin, heq'.trans heq⟩

/-- It does not come to life. -/
theorem Remains.isSome (h : m'.Remains m) (halive : m'.kin.isSome) : m.kin.isSome := by
  obtain ⟨kin', hkin'⟩ := Option.isSome_iff_exists.mp halive
  obtain ⟨kin, hkin, -⟩ := h.kin hkin'
  rw [hkin]
  rfl

theorem Remains.kin_none (h : m'.Remains m) (hdead : m.kin = none) : m'.kin = none := by
  by_contra hne
  have halive := h.isSome (Option.isSome_iff_ne_none.mpr hne)
  rw [hdead] at halive
  cases halive

theorem remains_orphaned (m : Member Node Addr) : Remains { m with parent := none } m where
  data := rfl
  serial := rfl
  parent hp := by cases hp
  children := List.Sublist.refl _
  kin hk := ⟨_, hk, rfl⟩

theorem remains_dead (m : Member Node Addr) : Remains { m with kin := none } m where
  data := rfl
  serial := rfl
  parent := id
  children := List.Sublist.refl _
  kin hk := by cases hk

theorem remains_buried (m : Member Node Addr) (n : Node) :
    Remains { m with kin := m.kin.map fun kin =>
      { kin with dChildren := kin.dChildren ++ [n] } } m where
  data := rfl
  serial := rfl
  parent := id
  children := List.Sublist.refl _
  kin hk := by
    obtain ⟨kin, hkin, rfl⟩ := Option.map_eq_some_iff.mp hk
    exact ⟨kin, hkin, rfl⟩

theorem remains_collected {kin : Kin Node Addr} (m : Member Node Addr) (hkin : m.kin = some kin)
    (rest : List Node) (s : ℕ) :
    Remains { m with
      kin := some { kin with dChildren := rest }
      children := m.children.erase s } m where
  data := rfl
  serial := rfl
  parent := id
  children := List.erase_sublist
  kin hk := by
    obtain rfl := Option.some.inj hk
    exact ⟨kin, hkin, rfl⟩

end Member

namespace Family

/-- A store through a node. -/
def modify [DecidableEq Node] (f : Family Node Addr) (n : Node)
    (g : Member Node Addr → Member Node Addr) : Family Node Addr :=
  { f with member := Function.update f.member n ((f.member n).map g) }

/-- A birth: the parent lists the block and the child. -/
def adopt [DecidableEq Node] [DecidableEq Addr] (f : Family Node Addr) (p child : Node)
    (data : Addr) : Family Node Addr where
  member := Function.update
    (f.modify p fun m => { m with
      kin := m.kin.map fun kin => { kin with aChildren := kin.aChildren ++ [data] }
      children := m.children ++ [f.born] }).member
    child (some ⟨data, some p, some ⟨[], []⟩, f.born, []⟩)
  pcbAt := Function.update f.pcbAt data (some child)
  born := f.born + 1

/-- Whoever has its block at one of the addresses loses its parent. -/
def orphan [DecidableEq Node] (f : Family Node Addr) (addrs : List Addr) : Family Node Addr :=
  { f with member := fun n => (f.member n).map fun m =>
      if ∃ a ∈ addrs, f.pcbAt a = some n then { m with parent := none } else m }

/-- A death: both lists go. -/
def bereave [DecidableEq Node] (f : Family Node Addr) (n : Node) : Family Node Addr :=
  f.modify n fun m => { m with kin := none }

/-- A process is handed one of its dead. -/
def bury [DecidableEq Node] (f : Family Node Addr) (p n : Node) : Family Node Addr :=
  f.modify p fun m =>
    { m with kin := m.kin.map fun kin => { kin with dChildren := kin.dChildren ++ [n] } }

/-- A process takes the first of its dead off its list. -/
def collect [DecidableEq Node] (f : Family Node Addr) (p : Node) (kin : Kin Node Addr)
    (rest : List Node) (serial : ℕ) : Family Node Addr :=
  f.modify p fun m => { m with
    kin := some { kin with dChildren := rest }
    children := m.children.erase serial }

/-- Node and block are freed. -/
def destroy [DecidableEq Node] [DecidableEq Addr] (f : Family Node Addr) (n : Node) :
    Family Node Addr :=
  match f.member n with
  | none => f
  | some m =>
    { f with
      member := Function.update f.member n none
      pcbAt := Function.update f.pcbAt m.data none }

/-- **What every run keeps.** -/
structure Kinship (f : Family Node Addr) : Prop where
  /-- Everybody's block is their own. -/
  pcbAt_data : ∀ {n m}, f.member n = some m → f.pcbAt m.data = some n
  serial_lt : ∀ {n m}, f.member n = some m → m.serial < f.born
  serial_inj : ∀ {n n' m m'}, f.member n = some m → f.member n' = some m' →
    m.serial = m'.serial → n = n'
  children_lt : ∀ {n m s}, f.member n = some m → s ∈ m.children → s < f.born
  children_nodup : ∀ {n m}, f.member n = some m → m.children.Nodup
  /-- Nobody has two parents. -/
  children_own : ∀ {n n' m m' s}, f.member n = some m → f.member n' = some m' →
    s ∈ m.children → s ∈ m'.children → n = n'
  /-- **A living process's parent lives**, and lists it. -/
  parent_lives : ∀ {n m p}, f.member n = some m → m.kin.isSome → m.parent = some p →
    ∃ mp kin, f.member p = some mp ∧ mp.kin = some kin ∧
      m.data ∈ kin.aChildren ∧ m.serial ∈ mp.children
  /-- **The defunct of a process** are dead children it has not collected. -/
  defunct : ∀ {p mp kin n}, f.member p = some mp → mp.kin = some kin → n ∈ kin.dChildren →
    ∃ m, f.member n = some m ∧ m.kin = none ∧ m.serial ∈ mp.children
  defunct_nodup : ∀ {p mp kin}, f.member p = some mp → mp.kin = some kin → kin.dChildren.Nodup
  /-- `a_children` lists every child there ever was. -/
  listed : ∀ {p mp kin}, f.member p = some mp → mp.kin = some kin → mp.children ≠ [] →
    kin.aChildren ≠ []

/-- **Every child that was not collected can be found**: it lives and knows
its parent, or it is on the parent's list of the dead. -/
def AtHome (f : Family Node Addr) : Prop :=
  ∀ ⦃p mp kin s⦄, f.member p = some mp → mp.kin = some kin → s ∈ mp.children →
    ∃ n m, f.member n = some m ∧ m.serial = s ∧
      (m.kin.isSome ∧ m.parent = some p ∨ m.kin = none ∧ n ∈ kin.dChildren)

/-- The process is dead and on nobody's list, so that it may be freed. -/
def Laid (f : Family Node Addr) (n : Node) : Prop :=
  (∀ m, f.member n = some m → m.kin = none) ∧
    ∀ {p mp kin}, f.member p = some mp → mp.kin = some kin → n ∉ kin.dChildren

variable {f : Family Node Addr} {n p : Node} {m : Member Node Addr}

/-- The defunct of two processes are different. -/
theorem Kinship.defunct_own (h : f.Kinship) {p' : Node} {mp mp' : Member Node Addr}
    {kin kin' : Kin Node Addr} (hp : f.member p = some mp) (hkin : mp.kin = some kin)
    (hp' : f.member p' = some mp') (hkin' : mp'.kin = some kin') (hn : n ∈ kin.dChildren)
    (hn' : n ∈ kin'.dChildren) : p = p' := by
  obtain ⟨m, hm, -, hs⟩ := h.defunct hp hkin hn
  obtain ⟨m', hm', -, hs'⟩ := h.defunct hp' hkin' hn'
  obtain rfl := Option.some.inj (hm.symm.trans hm')
  exact h.children_own hp hp' hs hs'

/-- A living process is on nobody's list of the dead. -/
theorem Kinship.not_defunct (h : f.Kinship) {mp : Member Node Addr} {kin kin' : Kin Node Addr}
    (hm : f.member n = some m) (halive : m.kin = some kin') (hp : f.member p = some mp)
    (hkin : mp.kin = some kin) : n ∉ kin.dChildren := by
  intro hn
  obtain ⟨m', hm', hdead, -⟩ := h.defunct hp hkin hn
  obtain rfl := Option.some.inj (hm.symm.trans hm')
  rw [halive] at hdead
  cases hdead

/-! ## What is left of a family

All the operations but a birth take away: whoever is there afterwards was
there before. What that alone gives is proved here once. -/

/-- **What is left of a family.** -/
structure Remains (f' f : Family Node Addr) : Prop where
  born : f'.born = f.born
  pcbAt : ∀ {a n}, f'.pcbAt a = some n → f.pcbAt a = some n
  member : ∀ {n m'}, f'.member n = some m' → ∃ m, f.member n = some m ∧ m'.Remains m

theorem Remains.refl (f : Family Node Addr) : f.Remains f :=
  ⟨rfl, id, fun hm => ⟨_, hm, Member.Remains.refl _⟩⟩

theorem Remains.trans {f' f'' : Family Node Addr} (h : f''.Remains f') (h' : f'.Remains f) :
    f''.Remains f where
  born := h.born.trans h'.born
  pcbAt hat := h'.pcbAt (h.pcbAt hat)
  member hm := by
    obtain ⟨m', hm', hleft'⟩ := h.member hm
    obtain ⟨m, hm, hleft⟩ := h'.member hm'
    exact ⟨m, hm, hleft'.trans hleft⟩

/-- **Kinship is kept by what is left** where everybody's block is still
theirs, the parents of the living were spared, and the dead on the lists
were, too. -/
theorem Kinship.remains {f' : Family Node Addr} (h : f.Kinship) (hr : f'.Remains f)
    (hblock : ∀ {n m}, f'.member n = some m → f.pcbAt m.data = some n → f'.pcbAt m.data = some n)
    (hparent : ∀ n m p, f.member n = some m → m.kin.isSome → m.parent = some p →
      ∃ mp kin, f'.member p = some mp ∧ mp.kin = some kin ∧
        m.data ∈ kin.aChildren ∧ m.serial ∈ mp.children)
    (hdefunct : ∀ p mp kin, f'.member p = some mp → mp.kin = some kin → kin.dChildren.Nodup ∧
      ∀ n ∈ kin.dChildren, ∃ m, f'.member n = some m ∧ m.kin = none ∧
        m.serial ∈ mp.children) : f'.Kinship where
  pcbAt_data hm' := by
    obtain ⟨m, hm, hleft⟩ := hr.member hm'
    exact hblock hm' (hleft.data ▸ h.pcbAt_data hm)
  serial_lt hm' := by
    obtain ⟨m, hm, hleft⟩ := hr.member hm'
    rw [hleft.serial, hr.born]
    exact h.serial_lt hm
  serial_inj hm' hm₁' heq := by
    obtain ⟨m, hm, hleft⟩ := hr.member hm'
    obtain ⟨m₁, hm₁, hleft₁⟩ := hr.member hm₁'
    rw [hleft.serial, hleft₁.serial] at heq
    exact h.serial_inj hm hm₁ heq
  children_lt hm' hs := by
    obtain ⟨m, hm, hleft⟩ := hr.member hm'
    rw [hr.born]
    exact h.children_lt hm (hleft.children.subset hs)
  children_nodup hm' := by
    obtain ⟨m, hm, hleft⟩ := hr.member hm'
    exact (h.children_nodup hm).sublist hleft.children
  children_own hm' hm₁' hs hs₁ := by
    obtain ⟨m, hm, hleft⟩ := hr.member hm'
    obtain ⟨m₁, hm₁, hleft₁⟩ := hr.member hm₁'
    exact h.children_own hm hm₁ (hleft.children.subset hs) (hleft₁.children.subset hs₁)
  parent_lives hm' hk hp := by
    obtain ⟨m, hm, hleft⟩ := hr.member hm'
    rw [hleft.data, hleft.serial]
    exact hparent _ m _ hm (hleft.isSome hk) (hleft.parent hp)
  defunct hp hkin hn := (hdefunct _ _ _ hp hkin).2 _ hn
  defunct_nodup hp hkin := (hdefunct _ _ _ hp hkin).1
  listed hp' hkin' hne := by
    obtain ⟨mp, hp, hleft⟩ := hr.member hp'
    obtain ⟨kin, hkin, heq⟩ := hleft.kin hkin'
    rw [heq]
    refine h.listed hp hkin fun hnil => hne ?_
    rw [← List.sublist_nil, ← hnil]
    exact hleft.children

section Ops

variable [DecidableEq Node]

theorem modify_self (g : Member Node Addr → Member Node Addr) (hm : f.member n = some m) :
    (f.modify n g).member n = some (g m) := by
  unfold modify
  dsimp only
  rw [Function.update_self, hm]
  rfl

theorem modify_of_ne (g : Member Node Addr → Member Node Addr) {n' : Node} (h : n' ≠ n) :
    (f.modify n g).member n' = f.member n' :=
  Function.update_of_ne h _ _

theorem collect_self {mp : Member Node Addr} (hp : f.member n = some mp) (kin : Kin Node Addr)
    (rest : List Node) (serial : ℕ) : (f.collect n kin rest serial).member n = some { mp with
      kin := some { kin with dChildren := rest }
      children := mp.children.erase serial } :=
  modify_self _ hp

theorem collect_of_ne {n' : Node} (h : n' ≠ n) (kin : Kin Node Addr) (rest : List Node)
    (serial : ℕ) : (f.collect n kin rest serial).member n' = f.member n' :=
  modify_of_ne _ h

theorem remains_modify {g : Member Node Addr → Member Node Addr}
    (hg : ∀ m, f.member n = some m → (g m).Remains m) : (f.modify n g).Remains f where
  born := rfl
  pcbAt := id
  member := by
    intro n' m' hm'
    rcases eq_or_ne n' n with rfl | hne
    · unfold modify at hm'
      dsimp only at hm'
      rw [Function.update_self] at hm'
      obtain ⟨m, hm, rfl⟩ := Option.map_eq_some_iff.mp hm'
      exact ⟨m, hm, hg m hm⟩
    · rw [modify_of_ne g hne] at hm'
      exact ⟨m', hm', Member.Remains.refl m'⟩

/-- **What a store through a node owes**: the process keeps no more than it
had, its living children are still listed, and its dead are still its own. -/
theorem Kinship.modify (h : f.Kinship) {g : Member Node Addr → Member Node Addr}
    (hm : f.member n = some m) (hg : (g m).Remains m)
    (hliving : ∀ n' m', f.member n' = some m' → m'.kin.isSome → m'.parent = some n →
      ∃ kin, (g m).kin = some kin ∧ m'.data ∈ kin.aChildren ∧ m'.serial ∈ (g m).children)
    (hdefunct : ∀ kin, (g m).kin = some kin → kin.dChildren.Nodup ∧
      ∀ n' ∈ kin.dChildren, ∃ m', f.member n' = some m' ∧ m'.kin = none ∧
        m'.serial ∈ (g m).children) :
    (f.modify n g).Kinship := by
  -- the dead stay dead
  have hdead : ∀ {n' m'}, f.member n' = some m' → m'.kin = none →
      ∃ m'', (f.modify n g).member n' = some m'' ∧ m''.kin = none ∧ m''.serial = m'.serial := by
    intro n' m' hm' hk
    rcases eq_or_ne n' n with rfl | hne
    · obtain rfl := Option.some.inj (hm.symm.trans hm')
      exact ⟨g m, modify_self g hm, hg.kin_none hk, hg.serial⟩
    · exact ⟨m', by rw [modify_of_ne g hne, hm'], hk, rfl⟩
  have hleft : (f.modify n g).Remains f :=
    remains_modify fun _ hm' => Option.some.inj (hm.symm.trans hm') ▸ hg
  refine h.remains hleft (fun _ hat => hat) ?_ ?_
  · intro n' m₀ p hm₀ hk hp
    rcases eq_or_ne p n with rfl | hne
    · obtain ⟨kin, hkin, hin, hin'⟩ := hliving n' m₀ hm₀ hk hp
      exact ⟨g m, kin, modify_self g hm, hkin, hin, hin'⟩
    · obtain ⟨mp, kin, hmp, hkin, hin, hin'⟩ := h.parent_lives hm₀ hk hp
      exact ⟨mp, kin, by rw [modify_of_ne g hne, hmp], hkin, hin, hin'⟩
  · intro p mp kin hp hkin
    have hown : kin.dChildren.Nodup ∧ ∀ n' ∈ kin.dChildren, ∃ m', f.member n' = some m' ∧
        m'.kin = none ∧ m'.serial ∈ mp.children := by
      rcases eq_or_ne p n with rfl | hne
      · rw [modify_self g hm] at hp
        obtain rfl := Option.some.inj hp
        exact hdefunct kin hkin
      · rw [modify_of_ne g hne] at hp
        exact ⟨h.defunct_nodup hp hkin, fun n' hn' => h.defunct hp hkin hn'⟩
    refine ⟨hown.1, fun n' hn' => ?_⟩
    obtain ⟨m', hm', hk, hs⟩ := hown.2 n' hn'
    obtain ⟨m'', hm'', hk', hs'⟩ := hdead hm' hk
    exact ⟨m'', hm'', hk', hs' ▸ hs⟩

/-- **A death**, once no living process has the dead one for its parent. -/
theorem Kinship.bereave (h : f.Kinship) (hm : f.member n = some m)
    (halone : ∀ n' m', f.member n' = some m' → m'.kin.isSome → m'.parent ≠ some n) :
    (f.bereave n).Kinship := by
  refine h.modify hm m.remains_dead (fun n' m' hm' hk hp => absurd hp (halone n' m' hm' hk)) ?_
  intro kin hkin
  cases hkin

/-- **A burial**, of a dead process by the living one whose child it is. -/
theorem Kinship.bury (h : f.Kinship) {mp : Member Node Addr} {kin : Kin Node Addr}
    (hp : f.member p = some mp) (hkin : mp.kin = some kin) (hm : f.member n = some m)
    (hdead : m.kin = none) (hs : m.serial ∈ mp.children) (hnew : n ∉ kin.dChildren) :
    (f.bury p n).Kinship := by
  refine h.modify hp (mp.remains_buried n) ?_ ?_
  · intro n' m' hm' hk hpar
    obtain ⟨mp', kin', hp', hkin', hin, hin'⟩ := h.parent_lives hm' hk hpar
    obtain rfl := Option.some.inj (hp.symm.trans hp')
    obtain rfl := Option.some.inj (hkin.symm.trans hkin')
    exact ⟨_, congrArg (Option.map _) hkin, hin, hin'⟩
  · intro kin' hkin'
    rw [hkin] at hkin'
    obtain rfl := Option.some.inj hkin'
    have hdefunct := fun n' => h.defunct (n := n') hp hkin
    refine ⟨?_, fun n' hn' => ?_⟩
    · refine (h.defunct_nodup hp hkin).append (List.nodup_singleton n) ?_
      rw [List.disjoint_singleton]
      exact hnew
    · rcases List.mem_append.mp hn' with hold | hnew
      · exact hdefunct n' hold
      · rw [List.mem_singleton] at hnew
        subst hnew
        exact ⟨m, hm, hdead, hs⟩

/-- **A collection**: the first of the dead goes off the list, and its
birth with it. -/
theorem Kinship.collect (h : f.Kinship) {mp : Member Node Addr} {kin : Kin Node Addr}
    {rest : List Node} (hp : f.member p = some mp) (hkin : mp.kin = some kin)
    (hd : kin.dChildren = n :: rest) (hm : f.member n = some m) :
    (f.collect p kin rest m.serial).Kinship := by
  have hdead : m.kin = none := by
    obtain ⟨m', hm', hdead, -⟩ := h.defunct hp hkin (hd ▸ List.mem_cons_self)
    obtain rfl := Option.some.inj (hm.symm.trans hm')
    exact hdead
  -- another's birth is another number, and stays on the list
  have hkeep : ∀ {n' m'}, f.member n' = some m' → n' ≠ n → m'.serial ∈ mp.children →
      m'.serial ∈ mp.children.erase m.serial := by
    intro n' m' hm' hne hin
    refine (List.mem_erase_of_ne fun heq => hne ?_).mpr hin
    exact h.serial_inj hm' hm heq
  refine h.modify hp (mp.remains_collected hkin rest m.serial) ?_ ?_
  · intro n' m' hm' hk hpar
    obtain ⟨mp', kin', hp', hkin', hin, hin'⟩ := h.parent_lives hm' hk hpar
    obtain rfl := Option.some.inj (hp.symm.trans hp')
    obtain rfl := Option.some.inj (hkin.symm.trans hkin')
    refine ⟨_, rfl, hin, hkeep hm' ?_ hin'⟩
    rintro rfl
    obtain rfl := Option.some.inj (hm.symm.trans hm')
    rw [hdead] at hk
    cases hk
  · intro kin' hkin'
    obtain rfl := Option.some.inj hkin'
    have hnodup := h.defunct_nodup hp hkin
    rw [hd, List.nodup_cons] at hnodup
    refine ⟨hnodup.2, fun n' hn' => ?_⟩
    obtain ⟨m', hm', hk, hin⟩ := h.defunct hp hkin (hd ▸ List.mem_cons_of_mem _ hn')
    refine ⟨m', hm', hk, hkeep hm' ?_ hin⟩
    rintro rfl
    exact hnodup.1 hn'

theorem orphan_member {addrs : List Addr} : (f.orphan addrs).member n = (f.member n).map fun m =>
    if ∃ a ∈ addrs, f.pcbAt a = some n then { m with parent := none } else m := rfl

/-- Only the parent is not what it was. -/
theorem orphan_back {addrs : List Addr} {m' : Member Node Addr}
    (hm' : (f.orphan addrs).member n = some m') : ∃ m, f.member n = some m ∧
      m'.data = m.data ∧ m'.kin = m.kin ∧ m'.serial = m.serial ∧ m'.children = m.children ∧
      (∀ p, m'.parent = some p → m.parent = some p ∧ ¬ ∃ a ∈ addrs, f.pcbAt a = some n) := by
  rw [orphan_member, Option.map_eq_some_iff] at hm'
  obtain ⟨m, hm, rfl⟩ := hm'
  refine ⟨m, hm, ?_⟩
  split
  · refine ⟨rfl, rfl, rfl, rfl, fun p hp => ?_⟩
    cases hp
  · rename_i hno
    exact ⟨rfl, rfl, rfl, rfl, fun p hp => ⟨hp, hno⟩⟩

theorem orphan_forth (addrs : List Addr) (hm : f.member n = some m) :
    ∃ m', (f.orphan addrs).member n = some m' ∧
      m'.data = m.data ∧ m'.kin = m.kin ∧ m'.serial = m.serial ∧ m'.children = m.children := by
  refine ⟨_, by rw [orphan_member, hm]; rfl, ?_⟩
  split <;> exact ⟨rfl, rfl, rfl, rfl⟩

theorem remains_orphan (f : Family Node Addr) (addrs : List Addr) :
    (f.orphan addrs).Remains f where
  born := rfl
  pcbAt := id
  member := by
    intro n m' hm'
    rw [orphan_member, Option.map_eq_some_iff] at hm'
    obtain ⟨m, hm, rfl⟩ := hm'
    refine ⟨m, hm, ?_⟩
    split
    · exact m.remains_orphaned
    · exact Member.Remains.refl m

/-- **Nothing but a parent is lost** by `orphan`. -/
theorem Kinship.orphan (h : f.Kinship) (addrs : List Addr) : (f.orphan addrs).Kinship := by
  refine h.remains (remains_orphan f addrs) (fun _ hat => hat) ?_ ?_
  · intro n m p hm hk hp
    obtain ⟨mp, kin, hmp, hkin, hin, hin'⟩ := h.parent_lives hm hk hp
    obtain ⟨mp', hmp', -, hkp, -, hcp⟩ := orphan_forth addrs hmp
    exact ⟨mp', kin, hmp', hkp.trans hkin, hin, hcp ▸ hin'⟩
  · intro p mp' kin hp' hkin'
    obtain ⟨mp, hp, -, hkin, -, hc, -⟩ := orphan_back hp'
    refine ⟨h.defunct_nodup hp (hkin ▸ hkin'), fun n hn => ?_⟩
    obtain ⟨m, hm, hdead, hin⟩ := h.defunct hp (hkin ▸ hkin') hn
    obtain ⟨m', hm', -, hk, hs, -⟩ := orphan_forth addrs hm
    exact ⟨m', hm', hk.trans hdead, by rw [hs, hc]; exact hin⟩

/-- **Afterwards no living process has the parent** whose `a_children` these
were. -/
theorem Kinship.orphan_alone (h : f.Kinship) {mp : Member Node Addr} {kin : Kin Node Addr}
    (hp : f.member p = some mp) (hkin : mp.kin = some kin) :
    ∀ n m, (f.orphan kin.aChildren).member n = some m → m.kin.isSome → m.parent ≠ some p := by
  intro n m' hm' hk hpar
  obtain ⟨m, hm, -, hkin', -, -, hkeep⟩ := orphan_back hm'
  obtain ⟨hpar, hnot⟩ := hkeep p hpar
  obtain ⟨mp', kin', hp', hkinp, hin, -⟩ := h.parent_lives hm (hkin' ▸ hk) hpar
  obtain rfl := Option.some.inj (hp.symm.trans hp')
  obtain rfl := Option.some.inj (hkin.symm.trans hkinp)
  exact hnot ⟨m.data, hin, h.pcbAt_data hm⟩

variable [DecidableEq Addr]

theorem destroy_member {n' : Node} :
    (f.destroy n).member n' = if n' = n then none else f.member n' := by
  unfold destroy
  cases hm : f.member n with
  | none =>
    dsimp only
    split
    · rename_i heq
      rw [heq, hm]
    · rfl
  | some m => exact Function.update_apply _ _ _ _

theorem destroy_back {n' : Node} (hm : (f.destroy n).member n' = some m) :
    n' ≠ n ∧ f.member n' = some m := by
  rw [destroy_member] at hm
  split at hm
  · cases hm
  · rename_i hne
    exact ⟨hne, hm⟩

theorem destroy_of_ne {n' : Node} (h : n' ≠ n) : (f.destroy n).member n' = f.member n' := by
  rw [destroy_member, if_neg h]

theorem destroy_born : (f.destroy n).born = f.born := by
  unfold destroy
  split <;> rfl

theorem destroy_pcbAt {a : Addr} (hat : (f.destroy n).pcbAt a = some p) : f.pcbAt a = some p := by
  unfold destroy at hat
  split at hat
  · exact hat
  · dsimp only at hat
    rw [Function.update_apply] at hat
    split at hat
    · cases hat
    · exact hat

theorem remains_destroy (f : Family Node Addr) (n : Node) : (f.destroy n).Remains f where
  born := destroy_born
  pcbAt := destroy_pcbAt
  member hm := ⟨_, (destroy_back hm).2, Member.Remains.refl _⟩

/-- **The dead that nobody lists** may be freed. -/
theorem Kinship.destroy (h : f.Kinship) (hlaid : f.Laid n) : (f.destroy n).Kinship := by
  refine h.remains (remains_destroy f n) ?_ ?_ ?_
  · intro n' m' hm' hat
    obtain ⟨hne, -⟩ := destroy_back hm'
    unfold Family.destroy
    cases hm : f.member n with
    | none => exact hat
    | some m =>
      dsimp only
      rw [Function.update_of_ne, hat]
      intro heq
      rw [heq, h.pcbAt_data hm] at hat
      exact hne (Option.some.inj hat).symm
  · intro n' m' p hm' hk hp
    obtain ⟨mp, kin, hmp, hkin, hin⟩ := h.parent_lives hm' hk hp
    have hne : p ≠ n := by
      rintro rfl
      have := hlaid.1 mp hmp
      rw [hkin] at this
      cases this
    exact ⟨mp, kin, by rw [destroy_of_ne hne, hmp], hkin, hin⟩
  · intro p mp kin hp hkin
    have hp₀ := (destroy_back hp).2
    refine ⟨h.defunct_nodup hp₀ hkin, fun n' hn' => ?_⟩
    obtain ⟨m', hm', hdead, hin⟩ := h.defunct hp₀ hkin hn'
    have hne : n' ≠ n := by
      rintro rfl
      exact hlaid.2 hp₀ hkin hn'
    exact ⟨m', by rw [destroy_of_ne hne, hm'], hdead, hin⟩

/-- What may be freed may still be freed after another was. -/
theorem Laid.destroy {n' : Node} (h : f.Laid n) : (f.destroy n').Laid n :=
  ⟨fun m hm => h.1 m (destroy_back hm).2, fun hp => h.2 (destroy_back hp).2⟩

/-- Nobody misses them. -/
theorem AtHome.destroy (h : f.AtHome) (hlaid : f.Laid n) : (f.destroy n).AtHome := by
  intro p mp kin s hp hkin hs
  have hp₀ := (destroy_back hp).2
  obtain ⟨n', m, hm, hserial, hwhere⟩ := h hp₀ hkin hs
  have hne : n' ≠ n := by
    rintro rfl
    rcases hwhere with ⟨halive, -⟩ | ⟨-, hin⟩
    · rw [hlaid.1 m hm] at halive
      cases halive
    · exact hlaid.2 hp₀ hkin hin
  exact ⟨n', m, by rw [destroy_of_ne hne, hm], hserial, hwhere⟩

/-- Nodes and blocks are freed in turn. -/
def destroyAll : List Node → Family Node Addr → Family Node Addr
  | [], f => f
  | n :: rest, f => destroyAll rest (f.destroy n)

theorem destroyAll_member (l : List Node) :
    (destroyAll l f).member n = if n ∈ l then none else f.member n := by
  induction l generalizing f with
  | nil => rfl
  | cons n' rest ih =>
    rw [destroyAll, ih, destroy_member]
    by_cases h₁ : n ∈ rest
    · rw [if_pos h₁, if_pos (List.mem_cons_of_mem _ h₁)]
    · by_cases h₂ : n = n'
      · rw [if_neg h₁, if_pos h₂, if_pos (h₂ ▸ List.mem_cons_self)]
      · rw [if_neg h₁, if_neg h₂, if_neg (by simp [h₁, h₂])]

theorem Kinship.destroyAll {l : List Node} (h : f.Kinship) (hl : ∀ n ∈ l, f.Laid n) :
    (destroyAll l f).Kinship := by
  induction l generalizing f with
  | nil => exact h
  | cons n rest ih =>
    exact ih (h.destroy (hl n List.mem_cons_self)) fun n' hn' =>
      (hl n' (List.mem_cons_of_mem _ hn')).destroy

theorem AtHome.destroyAll {l : List Node} (h : f.AtHome) (hl : ∀ n ∈ l, f.Laid n) :
    (Family.destroyAll l f).AtHome := by
  induction l generalizing f with
  | nil => exact h
  | cons n rest ih =>
    exact ih (h.destroy (hl n List.mem_cons_self)) fun n' hn' =>
      (hl n' (List.mem_cons_of_mem _ hn')).destroy

theorem destroyAll_pcbAt {l : List Node} {a : Addr} (h : (destroyAll l f).pcbAt a = some n) :
    f.pcbAt a = some n := by
  induction l generalizing f with
  | nil => exact h
  | cons n' rest ih => exact destroy_pcbAt (ih h)

end Ops

end Family

end Yalnix
