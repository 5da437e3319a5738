import Yalnix.Common.Strings
import Yalnix.Memory.Built
/-!
# The arguments of a new program

`LoadProgram` packs the argument strings into a buffer of the kernel heap,
and from there, once the old image is gone, onto the new stack, under the
words for `argc`, `argv` and the environment. Both loops go from string to
string by `strlen`. What they leave is what `buildArgs` says, and it is the
argument list, whole.
-/

namespace Yalnix

variable [Paging]

open Paging Strings

/-! ## The loops -/

/-- The loop that saves the arguments, from `cp2` on, in a buffer that holds
`buf`. -/
def saveArgs (fuel : ℕ) : List (List Byte) → (ℤ → Byte) → ℤ → ℤ → Byte
  | [], buf, _ => buf
  | arg :: args, buf, cp2 =>
    let buf := fill (arg ++ [0]) buf cp2
    saveArgs fuel args buf (cp2 + strlen fuel buf cp2 + 1)

/-- The loop that lays `argcount` of them out, from the buffer at `cp2`: the
memory after it, and `cpp`. -/
def layArgs (fuel : ℕ) (pt : ℤ → Pte) (buf : ℤ → Byte) :
    ℕ → Memory → ℤ → ℤ → ℤ → Memory × ℤ
  | 0, mem, cpp, _, _ => (mem, cpp)
  | argcount + 1, mem, cpp, cp, cp2 =>
    let mem := storeBytes pt (wordBytes cp) mem cpp
    let mem := storeBytes pt (string fuel buf cp2 ++ [0]) mem cp
    layArgs fuel pt buf argcount mem (cpp + 4) (cp + strlen fuel (byteAt mem pt) cp + 1)
      (cp2 + strlen fuel buf cp2 + 1)

/-- The argument list, from `memset` to the two NULL pointers. -/
def buildArgList (fuel : ℕ) (pt : ℤ → Pte) (mem : Memory) (cpp cp : ℤ) (argcount : ℕ)
    (argbuf : ℤ → Byte) : Memory :=
  let mem := storeBytes pt (List.replicate (vmem1Limit - cpp).toNat 0) mem cpp
  let mem := storeBytes pt (wordBytes argcount) mem cpp
  let (mem, cpp) := layArgs fuel pt argbuf argcount mem (cpp + 4) cp 0
  storeBytes pt (wordBytes 0) (storeBytes pt (wordBytes 0) mem cpp) (cpp + 4)

/-! ## Rows in user memory -/

/-- **No two pages from `lo` to `hi` are one frame.** -/
def Unaliased (pt : ℤ → Pte) (lo hi : ℤ) : Prop :=
  ∀ a b, lo ≤ a → a < hi → lo ≤ b → b < hi →
    (pteAt pt a).pfn = (pteAt pt b).pfn → a / pageSize = b / pageSize

section Rows

variable {pt : ℤ → Pte} {mem : Memory} {lo hi p q : ℤ} {xs ys : List Byte}

/-- A byte stored is stored at one address. -/
theorem Unaliased.byteAt_storeByte (h : Unaliased pt lo hi) {a b : ℤ} (byte : Byte)
    (halo : lo ≤ a) (hahi : a < hi) (hblo : lo ≤ b) (hbhi : b < hi) :
    byteAt (storeByte pt mem a byte) pt b = Function.update (byteAt mem pt) a byte b := by
  rcases eq_or_ne b a with rfl | hne
  · rw [Function.update_self, Yalnix.byteAt_storeByte]
  · rw [Function.update_of_ne hne]
    by_cases hoff : b % pageSize = a % pageSize
    · -- the same place on another page, and so in another frame
      have hpfn : (pteAt pt b).pfn ≠ (pteAt pt a).pfn := by
        intro heq
        have hpage := h b a hblo hbhi halo hahi heq
        have hb := Int.emod_add_mul_ediv b pageSize
        have ha := Int.emod_add_mul_ediv a pageSize
        rw [hoff, hpage] at hb
        exact hne (hb.symm.trans ha)
      unfold byteAt storeByte
      dsimp only
      rw [Function.update_of_ne hpfn]
    · exact byteAt_storeByte_of_ne byte hoff

/-- **A row stored through the table** is stored as in flat memory. -/
theorem Unaliased.byteAt_storeBytes (h : Unaliased pt lo hi) (hlo : lo ≤ p)
    (hhi : p + xs.length ≤ hi) {b : ℤ} (hblo : lo ≤ b) (hbhi : b < hi) :
    byteAt (storeBytes pt xs mem p) pt b = fill xs (byteAt mem pt) p b := by
  induction xs generalizing mem p with
  | nil => rfl
  | cons x xs ih =>
    rw [List.length_cons, Nat.cast_succ] at hhi
    rw [storeBytes, ih (by omega) (by omega), fill]
    exact fill_congr (h.byteAt_storeByte x hlo (by omega) hblo hbhi)

theorem Unaliased.at_storeBytes (h : Unaliased pt lo hi) (hlo : lo ≤ p)
    (hhi : p + xs.length ≤ hi) : At (byteAt (storeBytes pt xs mem p) pt) p xs :=
  at_fill.congr fun _ ha ha' => h.byteAt_storeBytes hlo hhi (by omega) (by omega)

/-- What is beside the row stays. -/
theorem Unaliased.at_storeBytes_of_at (h : Unaliased pt lo hi) (hlo : lo ≤ p)
    (hhi : p + xs.length ≤ hi) (hqlo : lo ≤ q) (hqhi : q + ys.length ≤ hi)
    (hapart : q + ys.length ≤ p ∨ p + xs.length ≤ q) (hat : At (byteAt mem pt) q ys) :
    At (byteAt (storeBytes pt xs mem p) pt) q ys :=
  (hat.fill hapart).congr fun _ ha ha' => h.byteAt_storeBytes hlo hhi (by omega) (by omega)

theorem wordAt_of_at {word : ℤ} (h : At (byteAt mem pt) p (wordBytes word)) :
    wordAt mem pt p = word % 2 ^ 32 := wordAt_of_bytes word h

end Rows

/-! ## Saving -/

section Saving

variable {fuel : ℕ} {args : List (List Byte)} {buf : ℤ → Byte} {cp2 : ℤ}

omit [Paging] in
theorem argSize_cons (arg : List Byte) (args : List (List Byte)) :
    argSize (arg :: args) = arg.length + 1 + argSize args := rfl

omit [Paging] in
theorem length_packed (args : List (List Byte)) : ((packed args).length : ℤ) = argSize args := by
  induction args with
  | nil => rfl
  | cons arg args ih =>
    rw [packed_cons, argSize_cons, List.length_append, List.length_append, ← ih]
    push_cast
    rfl

omit [Paging] in
theorem argSize_nonneg (args : List (List Byte)) : 0 ≤ argSize args := by
  rw [← length_packed]
  exact Int.natCast_nonneg _

omit [Paging] in
/-- The loop writes the `size` bytes it was given, -/
theorem saveArgs_of_outside (hnul : ∀ arg ∈ args, (0 : Byte) ∉ arg)
    (hfuel : ∀ arg ∈ args, arg.length < fuel) {a : ℤ} (ha : a < cp2 ∨ cp2 + argSize args ≤ a) :
    saveArgs fuel args buf cp2 a = buf a := by
  induction args generalizing buf cp2 with
  | nil => rfl
  | cons arg args ih =>
    rw [List.forall_mem_cons] at hnul hfuel
    rw [argSize_cons] at ha
    have hrest := argSize_nonneg args
    have hlen : strlen fuel (fill (arg ++ [0]) buf cp2) cp2 = arg.length :=
      strlen_eq at_fill hnul.1 hfuel.1
    rw [saveArgs, hlen, ih hnul.2 hfuel.2 (by omega), fill_of_outside]
    rw [List.length_append, List.length_singleton]
    push_cast
    omega

omit [Paging] in
/-- **and they are the arguments**, packed. -/
theorem saveArgs_at (hnul : ∀ arg ∈ args, (0 : Byte) ∉ arg)
    (hfuel : ∀ arg ∈ args, arg.length < fuel) :
    At (saveArgs fuel args buf cp2) cp2 (packed args) := by
  induction args generalizing buf cp2 with
  | nil => exact at_nil
  | cons arg args ih =>
    rw [List.forall_mem_cons] at hnul hfuel
    have hlen : strlen fuel (fill (arg ++ [0]) buf cp2) cp2 = arg.length :=
      strlen_eq at_fill hnul.1 hfuel.1
    rw [saveArgs, hlen, at_packed_cons]
    refine ⟨at_fill.congr fun a _ ha => saveArgs_of_outside hnul.2 hfuel.2 (Or.inl ?_),
      ih hnul.2 hfuel.2⟩
    rw [List.length_append, List.length_singleton] at ha
    push_cast at ha
    omega

end Saving

/-! ## Laying out -/

/-- The pointers to strings packed from `cp` on. -/
def argPointers : List (List Byte) → ℤ → List ℤ
  | [], _ => []
  | arg :: args, cp => cp :: argPointers args (cp + arg.length + 1)

section Laying

variable {pt : ℤ → Pte} {mem : Memory} {args : List (List Byte)} {lo hi cpp cp cp2 : ℤ}

omit [Paging] in
@[simp] theorem length_argPointers (args : List (List Byte)) (cp : ℤ) :
    (argPointers args cp).length = args.length := by
  induction args generalizing cp with
  | nil => rfl
  | cons arg args ih => rw [argPointers, List.length_cons, ih, List.length_cons]

omit [Paging] in
theorem argPointers_get {i : ℕ} (hi : i < (argPointers args cp).length) :
    (argPointers args cp)[i] = cp + argSize (args.take i) := by
  induction args generalizing cp i with
  | nil => exact absurd hi (Nat.not_lt_zero _)
  | cons arg args ih =>
    cases i with
    | zero => exact (Int.add_zero cp).symm
    | succ i =>
      have hrest := @ih (cp + arg.length + 1) i (Nat.lt_of_succ_lt_succ hi)
      rw [List.take_succ_cons, argSize_cons]
      refine hrest.trans ?_
      omega

omit [Paging] in
theorem length_words (words : List ℤ) : (words.flatMap wordBytes).length = 4 * words.length := by
  induction words with
  | nil => rfl
  | cons word words ih =>
    rw [List.flatMap_cons, List.length_append, ih, length_wordBytes, List.length_cons]
    omega

theorem storeArgs_cpp : (storeArgs pt args mem cpp cp).2 = cpp + 4 * args.length := by
  induction args generalizing mem cpp cp with
  | nil => exact (Int.add_zero cpp).symm
  | cons arg args ih =>
    rw [storeArgs, ih, List.length_cons]
    push_cast
    omega

/-- The loop stores in its two blocks, -/
theorem Unaliased.storeArgs_of_outside (h : Unaliased pt lo hi) (hlo : lo ≤ cpp)
    (hmid : cpp + 4 * args.length ≤ cp) (hhi : cp + argSize args ≤ hi) {b : ℤ} (hblo : lo ≤ b)
    (hbhi : b < hi) (hcpp : b < cpp ∨ cpp + 4 * args.length ≤ b)
    (hcp : b < cp ∨ cp + argSize args ≤ b) :
    byteAt (storeArgs pt args mem cpp cp).1 pt b = byteAt mem pt b := by
  induction args generalizing mem cpp cp with
  | nil => rfl
  | cons arg args ih =>
    have hrest := argSize_nonneg args
    have hword := length_wordBytes cp
    rw [List.length_cons, Nat.cast_succ] at hmid hcpp
    rw [argSize_cons] at hhi hcp
    have hstr : ((arg ++ [0]).length : ℤ) = arg.length + 1 := by
      rw [List.length_append, List.length_singleton, Nat.cast_succ]
    rw [storeArgs, ih (by omega) (by omega) (by omega) (by omega) (by omega),
      h.byteAt_storeBytes (by omega) (by omega) hblo hbhi, fill_of_outside (by omega),
      h.byteAt_storeBytes hlo (by omega) hblo hbhi, fill_of_outside (by omega)]

/-- **and leaves the pointers and the strings there.** -/
theorem Unaliased.storeArgs_at (h : Unaliased pt lo hi) (hlo : lo ≤ cpp)
    (hmid : cpp + 4 * args.length ≤ cp) (hhi : cp + argSize args ≤ hi) :
    At (byteAt (storeArgs pt args mem cpp cp).1 pt) cpp
        ((argPointers args cp).flatMap wordBytes) ∧
      At (byteAt (storeArgs pt args mem cpp cp).1 pt) cp (packed args) := by
  induction args generalizing mem cpp cp with
  | nil => exact ⟨at_nil, at_nil⟩
  | cons arg args ih =>
    have hrest := argSize_nonneg args
    have hword := length_wordBytes cp
    rw [List.length_cons, Nat.cast_succ] at hmid
    rw [argSize_cons] at hhi
    have hstr : ((arg ++ [0]).length : ℤ) = arg.length + 1 := by
      rw [List.length_append, List.length_singleton, Nat.cast_succ]
    obtain ⟨mem', hmem'⟩ : ∃ mem', mem' =
        storeBytes pt (arg ++ [0]) (storeBytes pt (wordBytes cp) mem cpp) cp := ⟨_, rfl⟩
    obtain ⟨hptrs, hstrs⟩ := @ih mem' (cpp + 4) (cp + arg.length + 1) (by omega) (by omega)
      (by omega)
    have hkept : ∀ b, lo ≤ b → b < cpp + 4 ∨ (cp ≤ b ∧ b < cp + arg.length + 1) →
        byteAt (storeArgs pt args mem' (cpp + 4) (cp + arg.length + 1)).1 pt b =
          byteAt mem' pt b := by
      intro b hblo hb
      exact h.storeArgs_of_outside (by omega) (by omega) (by omega) hblo (by omega) (by omega)
        (by omega)
    have hptr : At (byteAt mem' pt) cpp (wordBytes cp) := by
      -- the pointer was there before the string was stored
      rw [hmem']
      exact h.at_storeBytes_of_at (by omega) (by omega) hlo (by omega) (by omega)
        (h.at_storeBytes hlo (by omega))
    have hown : At (byteAt mem' pt) cp (arg ++ [0]) := by
      rw [hmem']
      exact h.at_storeBytes (by omega) (by omega)
    rw [storeArgs, ← hmem', argPointers, List.flatMap_cons, at_append, at_packed_cons, hword]
    exact ⟨⟨hptr.congr fun b hb hb' => hkept b (by omega) (by omega), hptrs⟩,
      hown.congr fun b hb hb' => hkept b (by omega) (by omega), hstrs⟩

/-- **The loop that goes by `strlen`** lays out what was saved. -/
theorem Unaliased.layArgs_eq (h : Unaliased pt lo hi) {fuel : ℕ} {buf : ℤ → Byte}
    (hnul : ∀ arg ∈ args, (0 : Byte) ∉ arg) (hfuel : ∀ arg ∈ args, arg.length < fuel)
    (hbuf : At buf cp2 (packed args)) (hlo : lo ≤ cp) (hhi : cp + argSize args ≤ hi) :
    layArgs fuel pt buf args.length mem cpp cp cp2 = storeArgs pt args mem cpp cp := by
  induction args generalizing mem cpp cp cp2 with
  | nil => rfl
  | cons arg args ih =>
    have hrest := argSize_nonneg args
    rw [List.forall_mem_cons] at hnul hfuel
    rw [at_packed_cons] at hbuf
    rw [argSize_cons] at hhi
    have hstr : ((arg ++ [0]).length : ℤ) = arg.length + 1 := by
      rw [List.length_append, List.length_singleton, Nat.cast_succ]
    -- both scans stop at the end of the string, the one in the buffer and the one on the stack
    have hbuflen : strlen fuel buf cp2 = arg.length := strlen_eq hbuf.1 hnul.1 hfuel.1
    have hlen : strlen fuel (byteAt (storeBytes pt (arg ++ [0])
        (storeBytes pt (wordBytes cp) mem cpp) cp) pt) cp = arg.length :=
      strlen_eq (h.at_storeBytes hlo (by omega)) hnul.1 hfuel.1
    rw [List.length_cons, layArgs, string_eq hbuf.1 hnul.1 hfuel.1, hbuflen, hlen, storeArgs]
    exact ih hnul.2 hfuel.2 hbuf.2 (by omega) (by omega)

end Laying

/-! ## The list -/

section Building

variable {pt : ℤ → Pte} {mem : Memory} {args : List (List Byte)}

theorem argCp_add_argSize (args : List (List Byte)) : argCp args + argSize args = vmem1Limit := by
  unfold argCp
  omega

/-- The words end where the strings start, or below. -/
theorem argCpp_add_le (args : List (List Byte)) :
    argCpp args + 4 * (args.length + 3) ≤ argCp args := by
  have hspace := postArgvNullSpace_nonneg
  unfold argCpp
  omega

/-- The words of the argument list: `argc`, `argv` and an empty environment. -/
def argWords (args : List (List Byte)) : List ℤ :=
  args.length :: (argPointers args (argCp args) ++ [0, 0])

/-- The two NULL pointers leave what is beside them. -/
theorem Unaliased.at_storeNulls {lo hi p q : ℤ} {ys : List Byte}
    (h : Unaliased pt lo hi) (hlo : lo ≤ p) (hhi : p + 8 ≤ hi) (hqlo : lo ≤ q)
    (hqhi : q + ys.length ≤ hi) (hapart : q + ys.length ≤ p ∨ p + 8 ≤ q)
    (hat : At (byteAt mem pt) q ys) :
    At (byteAt (storeBytes pt (wordBytes 0) (storeBytes pt (wordBytes 0) mem p) (p + 4)) pt) q
      ys := by
  have hword := length_wordBytes 0
  exact h.at_storeBytes_of_at (by omega) (by omega) hqlo hqhi (by omega)
    (h.at_storeBytes_of_at hlo (by omega) hqlo hqhi (by omega) hat)

/-- **The words and the strings are there** once the list is built. -/
theorem Unaliased.buildArgs_at (h : Unaliased pt (argCpp args) vmem1Limit) :
    At (byteAt (buildArgs pt mem args) pt) (argCpp args) ((argWords args).flatMap wordBytes) ∧
      At (byteAt (buildArgs pt mem args) pt) (argCp args) (packed args) := by
  have hcp := argCp_add_argSize args
  have hcpp := argCpp_add_le args
  have hsize := argSize_nonneg args
  have hpacked := length_packed args
  have hwords := length_words (argPointers args (argCp args))
  rw [length_argPointers] at hwords
  obtain ⟨mem₂, hmem₂⟩ : ∃ mem₂, mem₂ = storeBytes pt (wordBytes args.length)
      (storeBytes pt (List.replicate (vmem1Limit - argCpp args).toNat 0) mem (argCpp args))
      (argCpp args) := ⟨_, rfl⟩
  obtain ⟨mem₃, hmem₃⟩ : ∃ mem₃, mem₃ =
      (storeArgs pt args mem₂ (argCpp args + 4) (argCp args)).1 := ⟨_, rfl⟩
  have hbuild : buildArgs pt mem args = storeBytes pt (wordBytes 0)
      (storeBytes pt (wordBytes 0) mem₃ (argCpp args + 4 + 4 * args.length))
      (argCpp args + 4 + 4 * args.length + 4) := by
    rw [hmem₃, hmem₂]
    unfold buildArgs
    dsimp only
    rw [storeArgs_cpp]
  have hnulls {q : ℤ} {ys : List Byte} := @Unaliased.at_storeNulls _ pt mem₃ (argCpp args)
    vmem1Limit (argCpp args + 4 + 4 * args.length) q ys h (by omega) (by omega)
  have hargc : At (byteAt mem₃ pt) (argCpp args) (wordBytes args.length) := by
    have hword := length_wordBytes args.length
    have hstored : At (byteAt mem₂ pt) (argCpp args) (wordBytes args.length) := by
      rw [hmem₂]
      exact h.at_storeBytes le_rfl (by omega)
    rw [hmem₃]
    exact hstored.congr fun b hb hb' => h.storeArgs_of_outside (by omega) (by omega) hcp.le
      (by omega) (by omega) (by omega) (by omega)
  obtain ⟨hptrs, hstrs⟩ := @Unaliased.storeArgs_at _ pt mem₂ args _ _ (argCpp args + 4)
    (argCp args) h (by omega) (by omega) hcp.le
  rw [← hmem₃] at hptrs hstrs
  have hword := length_wordBytes args.length
  have hnull := length_wordBytes 0
  rw [hbuild]
  refine ⟨?_, hnulls (by omega) (by omega) (by omega) hstrs⟩
  rw [argWords, List.flatMap_cons, List.flatMap_append, List.flatMap_cons, List.flatMap_cons,
    List.flatMap_nil, List.append_nil, at_append, at_append, at_append, hword, hwords, hnull]
  push_cast
  refine ⟨hnulls le_rfl (by omega) (by omega) hargc,
    hnulls (by omega) (by omega) (by omega) hptrs, ?_, ?_⟩
  · exact h.at_storeBytes_of_at (by omega) (by omega) (by omega) (by omega) (by omega)
      (h.at_storeBytes (by omega) (by omega))
  · exact h.at_storeBytes (by omega) (by omega)

/-- **The loops that go by `strlen`** build the same list, out of the buffer
the strings were saved in. -/
theorem Unaliased.buildArgList_eq (h : Unaliased pt (argCpp args) vmem1Limit) {fuel : ℕ}
    {heap : ℤ → Byte} (hnul : ∀ arg ∈ args, (0 : Byte) ∉ arg)
    (hfuel : ∀ arg ∈ args, arg.length < fuel) :
    buildArgList fuel pt mem (argCpp args) (argCp args) args.length (saveArgs fuel args heap 0) =
      buildArgs pt mem args := by
  have hcpp := argCpp_add_le args
  unfold buildArgList buildArgs
  dsimp only
  rw [h.layArgs_eq hnul hfuel (saveArgs_at hnul hfuel) (by omega) (argCp_add_argSize args).le]

/-- A word of the list, as it is read back. -/
theorem wordAt_argWords
    (h : At (byteAt mem pt) (argCpp args) ((argWords args).flatMap wordBytes)) {i : ℕ} {word : ℤ}
    (hi : (argWords args)[i]? = some word) :
    wordAt mem pt (argCpp args + 4 * i) = word % 2 ^ 32 := by
  obtain ⟨hlt, rfl⟩ := List.getElem?_eq_some_iff.mp hi
  refine wordAt_of_at ?_
  have hblock := h.block hlt
  rwa [length_words, List.length_take_of_le hlt.le, Nat.cast_mul] at hblock

end Building

/-! ## The arguments of the new program -/

section Intact

variable {mem : Memory} {u : UserPt} {uc : UserContext} {args : List (List Byte)} {env : LoadEnv}
  {li : LoadInfo} {l : Loaded}

/-- Where the `i`-th argument is. -/
def argPtr (args : List (List Byte)) (i : ℕ) : ℤ := argCp args + argSize (args.take i)

omit [Paging] in
theorem argSize_append (args args' : List (List Byte)) :
    argSize (args ++ args') = argSize args + argSize args' := by
  rw [argSize, List.map_append, List.sum_append]
  rfl

omit [Paging] in
theorem argSize_take_le (args : List (List Byte)) {i j : ℕ} (hij : i ≤ j) :
    argSize (args.take i) ≤ argSize (args.take j) := by
  have hsplit := argSize_append ((args.take j).take i) ((args.take j).drop i)
  have hrest := argSize_nonneg ((args.take j).drop i)
  rw [List.take_append_drop, List.take_take, Nat.min_eq_left hij] at hsplit
  omega

/-- The next argument is after the NUL of this one. -/
theorem argPtr_succ {i : ℕ} (hi : i < args.length) :
    argPtr args (i + 1) = argPtr args i + args[i].length + 1 := by
  have hone : argSize [args[i]] = args[i].length + 1 := by
    rw [argSize_cons]
    exact Int.add_zero _
  rw [argPtr, ← List.take_append_getElem hi, argSize_append, hone, argPtr]
  omega

theorem argPtr_mono {i j : ℕ} (hij : i ≤ j) : argPtr args i ≤ argPtr args j := by
  have := argSize_take_le args hij
  unfold argPtr
  omega

theorem argPtr_zero : argPtr args 0 = argCp args := Int.add_zero _

theorem argPtr_length : argPtr args args.length = vmem1Limit := by
  rw [argPtr, List.take_length, argCp_add_argSize]

theorem argWords_pointer {i : ℕ} (hi : i < args.length) :
    (argWords args)[i + 1]? = some (argPtr args i) := by
  have hptr : i < (argPointers args (argCp args)).length := by rwa [length_argPointers]
  rw [argWords, List.getElem?_cons_succ, List.getElem?_append_left hptr,
    List.getElem?_eq_getElem hptr, argPointers_get hptr, argPtr]

theorem argWords_null {k : ℕ} (hk : k < 2) :
    (argWords args)[args.length + (k + 1)]? = some 0 := by
  have hptrs := length_argPointers args (argCp args)
  rw [argWords, ← Nat.add_assoc, List.getElem?_cons_succ, List.getElem?_append_right (by omega),
    hptrs, Nat.add_sub_cancel_left]
  obtain rfl | rfl : k = 0 ∨ k = 1 := by omega
  · rfl
  · rfl

/-- **The arguments are intact**: what the new program finds above its stack
pointer `sp`. -/
structure ArgsIntact (mem : Memory) (pt : ℤ → Pte) (sp : ℤ) (args : List (List Byte)) :
    Prop where
  aligned : argCpp args % 8 = 0
  argc : wordAt mem pt (argCpp args) = args.length
  argv : ∀ i, i < args.length → wordAt mem pt (argCpp args + 4 * (i + 1 : ℕ)) = argPtr args i
  /-- Each of `argv` points to a copy of its argument, with a NUL after it. -/
  copy : ∀ (i : ℕ) (hi : i < args.length), At (byteAt mem pt)
    (wordAt mem pt (argCpp args + 4 * (i + 1 : ℕ))) (args[i] ++ [0])
  argv_end : wordAt mem pt (argCpp args + 4 * (args.length + 1 : ℕ)) = 0
  envp_end : wordAt mem pt (argCpp args + 4 * (args.length + 2 : ℕ)) = 0
  /-- The initial frame, the words and the strings are one after another. -/
  frame : sp + initialStackFrameSize = argCpp args
  words : argCpp args + 4 * (args.length + 3) ≤ argCp args ∧ argCp args ≤ vmem1Limit
  strings : ∀ i (hi : i < args.length), argCp args ≤ argPtr args i ∧
    argPtr args i + args[i].length + 1 ≤ vmem1Limit
  apart : ∀ i j (hij : i < j) (hj : j < args.length),
    argPtr args i + args[i].length + 1 ≤ argPtr args j
  /-- All of it is on pages of the stack. -/
  stack : ∀ a, sp ≤ a → a < vmem1Limit →
    mapped pt a ∧ a / pageSize - basePage1 ∈ stackPages args

/-- The stack is mapped from the stack pointer up, -/
theorem Built.mapped (h : Built mem u li args l) {a : ℤ} (hlo : l.uc.sp ≤ a)
    (hhi : a < vmem1Limit) : mapped l.userpt.pt a := by
  have hpage := h.cover a hlo hhi
  have hin := h.region _ (Or.inr (Or.inr hpage))
  refine ⟨(le_ediv_iff a basePage1).mp ?_, hhi, (h.valid_iff _ hin).mpr (Or.inr (Or.inr hpage))⟩
  rw [mem_pages] at hin
  omega

/-- **and no two of its pages are one frame.** -/
theorem Built.unaliased (h : Built mem u li args l) :
    Unaliased l.userpt.pt l.uc.sp vmem1Limit := by
  intro a b halo hahi hblo hbhi heq
  have hpage {c : ℤ} (hlo : l.uc.sp ≤ c) (hhi : c < vmem1Limit) :=
    h.region _ (Or.inr (Or.inr (h.cover c hlo hhi)))
  have := h.distinct _ (hpage halo hahi) _ (hpage hblo hbhi) (h.mapped halo hahi).2.2
    (h.mapped hblo hbhi).2.2 heq
  omega

theorem Unaliased.mono {pt : ℤ → Pte} {lo lo' hi : ℤ} (h : Unaliased pt lo hi)
    (hlo : lo ≤ lo') : Unaliased pt lo' hi :=
  fun a b halo hahi hblo hbhi => h a b (hlo.trans halo) hahi (hlo.trans hblo) hbhi

/-- What the list is made of, once its words and strings are there. Pointers
are of four bytes. -/
theorem argsIntact_of_at {pt : ℤ → Pte} {sp : ℤ} (h32 : vmem1Limit ≤ 2 ^ 32)
    (hsp : sp = argSp args)
    (hstack : ∀ a, sp ≤ a → a < vmem1Limit →
      Yalnix.mapped pt a ∧ a / pageSize - basePage1 ∈ stackPages args)
    (hwords : At (byteAt mem pt) (argCpp args) ((argWords args).flatMap wordBytes))
    (hstrs : At (byteAt mem pt) (argCp args) (packed args)) : ArgsIntact mem pt sp args := by
  have hcpp := argCpp_add_le args
  have hlim := argCp_add_argSize args
  have hsize := argSize_nonneg args
  have hframe := initialStackFrameSize_nonneg
  have hpos : 0 < vmem1Base := mul_pos basePage1_pos pageSize_pos
  have hbase : vmem1Base ≤ sp := by
    refine (hstack sp le_rfl ?_).1.1
    rw [hsp, argSp]
    omega
  rw [hsp, argSp] at hbase
  have hword {i : ℕ} {word : ℤ} (hi : (argWords args)[i]? = some word) :=
    wordAt_argWords hwords hi
  have hargv : ∀ i, i < args.length →
      wordAt mem pt (argCpp args + 4 * (i + 1 : ℕ)) = argPtr args i := by
    intro i hi
    have hlo := @argPtr_mono _ args 0 i (Nat.zero_le i)
    have hhi := @argPtr_mono _ args (i + 1) args.length hi
    have hsucc := argPtr_succ hi
    rw [argPtr_zero] at hlo
    rw [argPtr_length] at hhi
    rw [hword (argWords_pointer hi), Int.emod_eq_of_lt (by omega) (by omega)]
  constructor
  case aligned => exact Int.mul_emod_left _ 8
  case argc =>
    have hzero := hword (show (argWords args)[0]? = some (args.length : ℤ) from rfl)
    rw [Nat.cast_zero, Int.mul_zero, Int.add_zero] at hzero
    rw [hzero, Int.emod_eq_of_lt (by omega) (by omega)]
  case argv => exact hargv
  case copy =>
    intro i hi
    rw [hargv i hi]
    have hblock := hstrs.block hi
    rwa [show (args.take i).flatMap (fun arg => arg ++ [0]) = packed (args.take i) from rfl,
      length_packed] at hblock
  case argv_end => rw [hword (argWords_null (by decide)), Int.zero_emod]
  case envp_end => rw [hword (argWords_null (by decide)), Int.zero_emod]
  case frame =>
    rw [hsp, argSp]
    omega
  case words => exact ⟨hcpp, by omega⟩
  case strings =>
    intro i hi
    have hlo := @argPtr_mono _ args 0 i (Nat.zero_le i)
    have hhi := @argPtr_mono _ args (i + 1) args.length hi
    rw [argPtr_zero] at hlo
    rw [argPtr_length, argPtr_succ hi] at hhi
    exact ⟨hlo, hhi⟩
  case apart =>
    intro i j hij hj
    rw [← argPtr_succ (hij.trans hj)]
    exact argPtr_mono hij
  case stack => exact hstack

/-- **The list is built where the image is**, and by both loops. -/
theorem Completed.argsIntact {free : FreeFrame} {pt : ℤ → Pte} {mem₀ : Memory}
    (hdone : Completed free pt uc args li mem₀ l) (hbuilt : Built mem u li args l)
    (h32 : vmem1Limit ≤ 2 ^ 32) : ArgsIntact l.mem l.userpt.pt l.uc.sp args ∧
    ∀ fuel heap, (∀ arg ∈ args, (0 : Byte) ∉ arg) → (∀ arg ∈ args, arg.length < fuel) →
      l.mem = buildArgList fuel l.userpt.pt mem₀ (argCpp args) (argCp args) args.length
        (saveArgs fuel args heap 0) := by
  have hsp : l.uc.sp = argSp args := congrArg UserContext.sp hdone.uc_eq
  have hmem : l.mem = buildArgs l.userpt.pt mem₀ args := hdone.mem_eq
  have hframe := initialStackFrameSize_nonneg
  have hun : Unaliased l.userpt.pt (argCpp args) vmem1Limit := by
    refine hbuilt.unaliased.mono ?_
    rw [hsp, argSp]
    omega
  refine ⟨?_, fun fuel heap hnul hfuel => ?_⟩
  · obtain ⟨hwords, hstrs⟩ := @Unaliased.buildArgs_at _ l.userpt.pt mem₀ args hun
    rw [← hmem] at hwords hstrs
    exact argsIntact_of_at h32 hsp
      (fun a hlo hhi => ⟨hbuilt.mapped hlo hhi, hbuilt.cover a hlo hhi⟩) hwords hstrs
  · rw [hmem, hun.buildArgList_eq hnul hfuel]

/-- **The arguments reach the new program intact**, by way of both loops,
whatever the buffer held before and with turns enough to scan them. -/
theorem loadProgram_args {others : Set ℤ} (hf : mem.frames.Ok)
    (hheld : Held mem.frames u.pt others) (hli : ∀ li, env.info = some li → li.Ordered)
    (h32 : vmem1Limit ≤ 2 ^ 32) (hnul : ∀ arg ∈ args, (0 : Byte) ∉ arg)
    (h : loadProgram mem u uc args env = (l, .success)) :
    ArgsIntact l.mem l.userpt.pt l.uc.sp args ∧
    ∃ li mem₀, env.info = some li ∧
      Completed (destroyUsermem mem.frames u).1 (destroyUsermem mem.frames u).2.pt uc args li mem₀
        l ∧
      ∀ fuel heap, (∀ arg ∈ args, arg.length < fuel) →
        l.mem = buildArgList fuel l.userpt.pt mem₀ (argCpp args) (argCp args) args.length
          (saveArgs fuel args heap 0) := by
  obtain ⟨li, mem₀, hinfo, hroom, hdone⟩ := loadProgram_success h
  have hbuilt : Built mem u li args l := hdone.built hf hheld (hli li hinfo) hroom
  obtain ⟨hintact, hloops⟩ := hdone.argsIntact hbuilt h32
  exact ⟨hintact, li, mem₀, hinfo, hdone, fun fuel heap hfuel => hloops fuel heap hnul hfuel⟩

omit [Paging] in
theorem loadProgram_args_threePages : let _ := yalnixPaging
    ∃ l, loadProgram twoPagesMem twoPagesPt ⟨0, 0, fun _ => 0⟩ [[65], [66, 67]] threePages =
      (l, .success) ∧ ArgsIntact l.mem l.userpt.pt l.uc.sp [[65], [66, 67]] := by
  intro _
  obtain ⟨l, hl⟩ := threePages_loads
  obtain ⟨hintact, -⟩ := loadProgram_args twoPages_held.1 twoPages_held.2 threePages_ordered
    (by decide) (by decide) hl
  exact ⟨l, hl, hintact⟩

end Intact

end Yalnix
