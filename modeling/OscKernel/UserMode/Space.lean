import OscKernel.UserMode.Pagewalk

/-! # The address space of the exercise on user mode

What addresses mean under the tables that `setup_vm` and the two calls of `map_pages` leave.

* `UserSpace`: the entries of these tables.
* `setupVm_frames`: the root table after `setup_vm`.
* `userView`: what an address stands for.
* `UserSpace.translate`: the walk of the hardware comes to the same. -/

namespace OscKernel.UserMode.Space

open OscKernel.Lib.Memory OscKernel.Lib.Sv39 OscKernel.Vm.Tables OscKernel.UserMode.Pagewalk

/-- The page of the stack, at the end of the lower half. -/
def userStack : Word := 0x3ffffff000

/-- The entry for a page. -/
def leafEntry (f : ℕ) (prot : Word) : Word := paToPte (framePa f) ||| prot

/-- The root table after `setup_vm`: ten large pages, from the middle on. -/
def bootEntry (i : Fin 512) : Word :=
  if 256 ≤ i.val ∧ i.val < 266 then leafEntry ((i.val - 256) * 2 ^ 18) kernelPageFlags else 0

/-- The tables of a program in the page of the frame `g`, with its stack in that of `g + 3`. -/
structure UserSpace (F : Frames) (root g : ℕ) : Prop where
  root : ∀ i, F root i = if i = vpn 2 userStack then ptr (g + 4)
    else if i = vpn 2 0 then ptr (g + 1) else bootEntry i
  pmd : ∀ i, F (g + 1) i = if i = vpn 1 0 then ptr (g + 2) else 0
  pte : ∀ i, F (g + 2) i = if i = vpn 0 0 then leafEntry g protUserRx else 0
  stackPmd : ∀ i, F (g + 4) i = if i = vpn 1 userStack then ptr (g + 5) else 0
  stackPte : ∀ i, F (g + 5) i = if i = vpn 0 userStack then leafEntry (g + 3) protUserRw else 0

/-- The frames of the tables. -/
def tables (root g : ℕ) : Set ℕ := {root, g + 1, g + 2, g + 4, g + 5}

/-- What an address stands for: the program, its stack, or the linear mapping of the kernel. -/
def userView (g : ℕ) (va : Word) : Option Leaf :=
  if va.toNat < 4096 then some ⟨g * 4096 + va.toNat, protUserRx.toNat⟩
  else if 2 ^ 38 - 4096 ≤ va.toNat ∧ va.toNat < 2 ^ 38 then
    some ⟨(g + 3) * 4096 + va.toNat % 4096, protUserRw.toNat⟩
  else if 2 ^ 64 - 2 ^ 38 ≤ va.toNat ∧ va.toNat < 2 ^ 64 - 2 ^ 38 + 10 * 2 ^ 30 then
    some ⟨va.toNat - (2 ^ 64 - 2 ^ 38), kernelPageFlags.toNat⟩
  else none

/-! ### `setup_vm` -/

section Setup
variable {m : Mem} {root n : ℕ} {i : Fin 512}

/-- The entry that a round of `setup_vm` stores. -/
theorem round_entry {j : ℕ} (hj : j < 256) :
    (BitVec.ofNat 64 (j * (2 ^ 30 / 4096)) <<< 10) ||| kernelPageFlags =
      leafEntry (j * 2 ^ 18) kernelPageFlags := by
  have hshift : framePa (j * 2 ^ 18) >>> 12 = BitVec.ofNat 64 (j * (2 ^ 30 / 4096)) := by
    apply BitVec.eq_of_toNat_eq
    rw [BitVec.toNat_ushiftRight, framePa_toNat (by omega), Nat.shiftRight_eq_div_pow,
      BitVec.toNat_ofNat]
    omega
  rw [leafEntry, paToPte, hshift]

theorem setupLoop_frames (hroot : root < linearFrames) (hn : n ≤ 256) :
    framesOf ((List.range n).foldl (fun m i => store m (slotOf (page root) (256 + i))
      ((BitVec.ofNat 64 (i * (2 ^ 30 / 4096)) <<< 10) ||| kernelPageFlags)) m) =
      fun f i => if f = root ∧ 256 ≤ i.val ∧ i.val < 256 + n then
        leafEntry ((i.val - 256) * 2 ^ 18) kernelPageFlags else framesOf m f i := by
  induction n with
  | zero =>
    funext f i
    rw [if_neg (by omega)]
    rfl
  | succ n ih =>
    rw [List.range_succ, List.foldl_append, List.foldl_cons, List.foldl_nil,
      round_entry (by omega)]
    have hslot : (256 + n) = ((⟨256 + n, by omega⟩ : Fin 512) : ℕ) := rfl
    rw [hslot, framesOf_store hroot, ih (by omega)]
    funext f i
    simp only [set_apply, Fin.ext_iff]
    by_cases hf : f = root
    · by_cases hi : i.val = 256 + n
      · rw [if_pos ⟨hf, hi⟩, if_pos ⟨hf, by omega, by omega⟩, hi, Nat.add_sub_cancel_left]
      · rw [if_neg fun h => hi h.2]
        by_cases hlt : 256 ≤ i.val ∧ i.val < 256 + n
        · rw [if_pos ⟨hf, hlt⟩, if_pos ⟨hf, hlt.1, by omega⟩]
        · rw [if_neg fun h => hlt h.2, if_neg fun h => hlt ⟨h.2.1, by omega⟩]
    · rw [if_neg fun h => hf h.1, if_neg fun h => hf h.1, if_neg fun h => hf h.1]

/-- **`setup_vm`** over a table that is empty. -/
theorem setupVm_root (hroot : root < linearFrames) (h0 : ∀ i, framesOf m root i = 0) :
    framesOf (setupVm (page root) m) root i = bootEntry i := by
  have h := congrFun (congrFun (setupLoop_frames (m := m) (n := 10) hroot (by omega)) root) i
  refine h.trans ?_
  simp only [h0, true_and, bootEntry]

theorem setupVm_keeps : Keeps {root} m (setupVm (page root) m) := by
  have hloop : ∀ n ≤ 256, Keeps {root} m ((List.range n).foldl (fun m i =>
      store m (slotOf (page root) (256 + i))
        ((BitVec.ofNat 64 (i * (2 ^ 30 / 4096)) <<< 10) ||| kernelPageFlags)) m) := by
    intro n hn
    induction n with
    | zero => exact fun _ _ => rfl
    | succ n ih =>
      rw [List.range_succ, List.foldl_append, List.foldl_cons, List.foldl_nil]
      exact (ih (by omega)).trans (keeps_store ⟨256 + n, by omega⟩)
  exact hloop 10 (by omega)

end Setup

/-! ### The walk -/

section Walk
variable {F : Frames} {root g f p q : ℕ} {va base e prot : Word}

/-- A leaf entry, for the hardware. -/
structure IsLeaf (e : Word) (f : ℕ) (prot : Word) : Prop where
  usable : usable e = true
  leaf : isLeaf e = true
  ppn : ppn e = f
  flags : flags e = prot.toNat

/-- The flags of a page that can be read. -/
def PageFlags (prot : Word) : Prop :=
  prot.toNat < 2 ^ 10 ∧ prot.toNat.testBit 0 = true ∧ prot.toNat.testBit 1 = true

theorem isLeaf_leafEntry (hf : f < 2 ^ 44) (hp : PageFlags prot) :
    IsLeaf (leafEntry f prot) f prot := by
  obtain ⟨hlt, h0, h1⟩ := hp
  have hnat : (leafEntry f prot).toNat = f * 2 ^ 10 + prot.toNat :=
    mkPte_toNat (framePa_toNat hf) hf hlt
  have hflags := flags_of_toNat hnat hlt
  constructor
  · rw [Lib.Sv39.usable, hflags, h0, h1, reserved_of_toNat hnat hlt hf]
    rfl
  · rw [Lib.Sv39.isLeaf, hflags, h1]
    rfl
  · exact ppn_of_toNat hnat hlt hf
  · exact hflags

theorem usable_zero : usable 0 = false := by decide

theorem same_page (hv : va.toNat < 2 ^ 38) (hb : base.toNat < 2 ^ 38) (h2 : vpn 2 va = vpn 2 base) :
    vpn 1 va = vpn 1 base ∧ vpn 0 va = vpn 0 base ↔ va.toNat / 2 ^ 12 = base.toNat / 2 ^ 12 := by
  constructor
  · rintro ⟨h1, h0⟩
    exact vpn_ext hv hb h2 h1 h0
  · intro h
    constructor <;>
    · apply Fin.ext
      rw [vpn_val, vpn_val]
      omega

/-- **The walk along a path** that leads to one page. -/
theorem walk_path (hv : va.toNat < 2 ^ 38) (hb : base.toNat < 2 ^ 38) (h2 : vpn 2 va = vpn 2 base)
    (h1 : p < 2 ^ 44) (h0 : q < 2 ^ 44) (hroot : F root (vpn 2 base) = ptr p)
    (hpmd : ∀ i, F p i = if i = vpn 1 base then ptr q else 0)
    (hpte : ∀ i, F q i = if i = vpn 0 base then e else 0) (he : IsLeaf e f prot) :
    walk F va 2 root = if va.toNat / 2 ^ 12 = base.toNat / 2 ^ 12 then
      some ⟨f * 2 ^ 12 + va.toNat % 2 ^ 12, prot.toNat⟩ else none := by
  have hsame := same_page hv hb h2
  rw [← h2] at hroot
  rw [@walk_pointer F va 1 root (by rw [hroot, usable_ptr h1]) (by rw [hroot, isPointer_ptr h1]),
    hroot, ppn_ptr h1]
  by_cases hv1 : vpn 1 va = vpn 1 base
  · have hentry : F p (vpn 1 va) = ptr q := by rw [hpmd, if_pos hv1]
    rw [@walk_pointer F va 0 p (by rw [hentry, usable_ptr h0]) (by rw [hentry, isPointer_ptr h0]),
      hentry, ppn_ptr h0]
    by_cases hv0 : vpn 0 va = vpn 0 base
    · have hleaf : F q (vpn 0 va) = e := by rw [hpte, if_pos hv0]
      rw [if_pos (hsame.1 ⟨hv1, hv0⟩), walk_leaf (by rw [hleaf, he.usable]) (by rw [hleaf, he.leaf]),
        hleaf, leafAt, he.ppn, he.flags, if_pos (by rw [pow_zero, Nat.mod_one])]
    · rw [if_neg fun h => hv0 (hsame.2 h).2, walk_unusable (by rw [hpte, if_neg hv0, usable_zero])]
  · rw [if_neg fun h => hv1 (hsame.2 h).1, walk_unusable (by rw [hpmd, if_neg hv1, usable_zero])]

theorem flags_rx : PageFlags protUserRx := by unfold PageFlags; decide

theorem flags_rw : PageFlags protUserRw := by unfold PageFlags; decide

theorem flags_kernel : PageFlags kernelPageFlags := by unfold PageFlags; decide

theorem userStack_toNat : userStack.toNat = 2 ^ 38 - 4096 := by decide

theorem UserSpace.walk_lower (h : UserSpace F root g) (hg : g + 6 ≤ linearFrames)
    (hv : va.toNat < 2 ^ 38) :
    walk F va 2 root = userView g va := by
  unfold linearFrames at hg
  have hidx := vpn_val 2 va
  have hstack := vpn_val 2 userStack
  have hzero : (vpn 2 0 : ℕ) = 0 := by decide
  rw [userStack_toNat] at hstack
  by_cases h0 : vpn 2 va = vpn 2 0
  · have hne : vpn 2 0 ≠ vpn 2 userStack := by decide
    have hlt : va.toNat < 2 ^ 30 := by
      rw [h0, hzero] at hidx
      omega
    rw [walk_path (p := g + 1) (q := g + 2) hv (by decide) h0 (by omega) (by omega)
      (by rw [h.root, if_neg hne, if_pos rfl]) h.pmd h.pte
      (isLeaf_leafEntry (by omega) flags_rx), userView]
    have hdiv : (0 : Word).toNat / 2 ^ 12 = 0 := by decide
    rw [hdiv]
    split_ifs <;> first | omega | rfl | skip
    congr 2
    omega
  · by_cases h255 : vpn 2 va = vpn 2 userStack
    · rw [walk_path (p := g + 4) (q := g + 5) hv (by rw [userStack_toNat]; omega) h255 (by omega)
        (by omega) (by rw [h.root, if_pos rfl]) h.stackPmd h.stackPte
        (isLeaf_leafEntry (by omega) flags_rw), userView, userStack_toNat]
      rw [h255] at hidx
      split_ifs <;> first | omega | rfl
    · have hn0 : (vpn 2 va : ℕ) ≠ 0 := fun hz => h0 (Fin.ext (hz.trans hzero.symm))
      have hn255 : (vpn 2 va : ℕ) ≠ vpn 2 userStack := fun hz => h255 (Fin.ext hz)
      have hentry : F root (vpn 2 va) = 0 := by
        rw [h.root, if_neg h255, if_neg h0, bootEntry, if_neg (by omega)]
      rw [walk_unusable (by rw [hentry, usable_zero]), userView, if_neg (by omega),
        if_neg (by omega), if_neg (by omega)]

theorem UserSpace.walk_upper (h : UserSpace F root g) (hv : 2 ^ 64 - 2 ^ 38 ≤ va.toNat) :
    walk F va 2 root = userView g va := by
  have hlt := va.isLt
  have hidx := vpn_val 2 va
  have hstack : (vpn 2 userStack : ℕ) = 255 := by decide
  have hzero : (vpn 2 0 : ℕ) = 0 := by decide
  have hentry : F root (vpn 2 va) = bootEntry (vpn 2 va) := by
    rw [h.root, if_neg fun he => ?_, if_neg fun he => ?_]
    · rw [he, hzero] at hidx
      omega
    · rw [he, hstack] at hidx
      omega
  rw [userView, if_neg (by omega), if_neg (by omega)]
  by_cases hin : (vpn 2 va : ℕ) < 266
  · have hleaf := isLeaf_leafEntry (f := ((vpn 2 va : ℕ) - 256) * 2 ^ 18) (by omega) flags_kernel
    rw [bootEntry, if_pos ⟨by omega, hin⟩] at hentry
    rw [if_pos (by omega), walk_leaf (by rw [hentry, hleaf.usable]) (by rw [hentry, hleaf.leaf]),
      hentry, leafAt, hleaf.ppn, hleaf.flags, if_pos (by omega), Option.some.injEq, Leaf.mk.injEq]
    exact ⟨by omega, rfl⟩
  · rw [bootEntry, if_neg fun he => hin he.2] at hentry
    rw [if_neg (by omega), walk_unusable (by rw [hentry, usable_zero])]

/-- **What addresses mean.** -/
theorem UserSpace.translate (h : UserSpace F root g) (hg : g + 6 ≤ linearFrames) :
    translateAddr F root va = userView g va := by
  have hlt := va.isLt
  by_cases hc : Canonical va
  · rw [translateAddr, if_pos hc]
    rcases hc with hv | hv
    · exact h.walk_lower hg hv
    · exact h.walk_upper hv
  · rw [translateAddr, if_neg hc]
    unfold Canonical at hc
    rw [userView, if_neg (by omega), if_neg (by omega), if_neg (by omega)]

theorem UserSpace.congr {F' : Frames} (h : UserSpace F root g) (hF : ∀ f ∈ tables root g, F' f = F f) :
    UserSpace F' root g := by
  have hmem : ∀ f ∈ tables root g, ∀ i, F' f i = F f i := fun f hf i => congrFun (hF f hf) i
  constructor <;> intro i
  · rw [hmem _ (by simp [tables]), h.root]
  · rw [hmem _ (by simp [tables]), h.pmd]
  · rw [hmem _ (by simp [tables]), h.pte]
  · rw [hmem _ (by simp [tables]), h.stackPmd]
  · rw [hmem _ (by simp [tables]), h.stackPte]

end Walk

end OscKernel.UserMode.Space
