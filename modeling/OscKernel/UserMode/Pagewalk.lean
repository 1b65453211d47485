import OscKernel.Proc.Loading
import OscKernel.Vm.Setup

/-! # Page tables of the exercise on user mode

The kernel of `ex62` takes pages from the end of its image on and maps a user program with them. Its
tables lie in the memory that it copies files in, and it reaches all of it through the linear mapping.

* `pagewalk`, `mapPages`: the source.
* `framesOf`: memory as page frames, which is what the hardware sees of it.
* `framesOf_store`, `framesOf_zero`: what the writes of the kernel do to the frames.
* `nextTable_new`, `pagewalk_new`: a table that is missing is the next page. -/

namespace OscKernel.UserMode.Pagewalk

open OscKernel.Lib.Memory OscKernel.Lib.Sv39 OscKernel.Vm.Tables OscKernel.User.Process
open OscKernel.Proc.Images (Within)

/-! ### The source -/

/-- `PFN_DOWN`. -/
def pfnDown (x : Word) : Word := x >>> 12

/-- `PROT_USER_BASE`. -/
def protUserBase : Word := pteV ||| pteU ||| pteA ||| pteD

/-- `PROT_USER_RX`. -/
def protUserRx : Word := protUserBase ||| pteR ||| pteX

/-- `PROT_USER_RW`. -/
def protUserRw : Word := protUserBase ||| pteR ||| pteW

/-- Memory, by the pointers of the kernel, and `curr`. -/
structure Kernel where
  mem : Mem
  curr : Word

/-- `alloc_page`. -/
def allocPage (k : Kernel) : Word × Kernel :=
  let p := (k.curr + 0x1000 - 1) &&& ~~~(0x1000 - 1)
  (p, ⟨k.mem, p + 0x1000⟩)

/-- The address of `table[index]`. -/
def slotOf (table : Word) (index : ℕ) : Word := table + BitVec.ofNat 64 (8 * index)

/-- `setup_vm`, with the table as the kernel points to it later. -/
def setupVm (pgd : Word) (m : Mem) : Mem :=
  (List.range (0x280000 / (2 ^ 30 / 4096))).foldl (fun m i =>
    store m (slotOf pgd (256 + i))
      ((BitVec.ofNat 64 (i * (2 ^ 30 / 4096)) <<< 10) ||| kernelPageFlags)) m

/-- One round of the loop of `pagewalk`: the table of the next level. -/
def nextTable (va : Word) (level : ℕ) (table : Word) (k : Kernel) : Word × Kernel :=
  let index := ((va >>> (12 + level * 9)) &&& 0x1ff).toNat
  let entry := load k.mem (slotOf table index)
  if entry &&& pteV = 0 then
    let (newTable, k) := allocPage k
    let mem := memZero k.mem newTable 4096
    let entry := (pfnDown (virtToPhysAddr newTable) <<< 10) ||| pteV
    (physToVirtAddr ((entry >>> 10) <<< 12), ⟨store mem (slotOf table index) entry, k.curr⟩)
  else (physToVirtAddr ((entry >>> 10) <<< 12), k)

/-- `pagewalk`. -/
def pagewalk (pgd va pa prot : Word) (k : Kernel) : Kernel :=
  let (table, k) := nextTable va 2 pgd k
  let (table, k) := nextTable va 1 table k
  let pteIndex := ((va >>> 12) &&& 0x1ff).toNat
  ⟨store k.mem (slotOf table pteIndex) ((pfnDown pa <<< 10) ||| prot), k.curr⟩

/-- The loop of `map_pages`; `i` is an `int`. -/
def mapLoop (pgd va size pa prot : Word) : ℕ → BitVec 32 → Kernel → Option Kernel
  | 0, _, _ => none
  | fuel + 1, i, k =>
    if i.signExtend 64 < size then
      mapLoop pgd va size pa prot fuel (i + 4096)
        (pagewalk pgd (va + i.signExtend 64) (pa + i.signExtend 64) prot k)
    else some k

/-- `map_pages`. The loop comes back to `0` after `2 ^ 20` rounds. -/
def mapPages (pgd va size pa prot : Word) (k : Kernel) : Option Kernel :=
  mapLoop pgd va size pa prot (2 ^ 20 + 1) 0 k

/-! ### Memory as page frames -/

/-- The number of frames that the linear mapping has room for. -/
def linearFrames : ℕ := 2 ^ 26

/-- The page of a frame, as the kernel points to it. -/
def page (f : ℕ) : Word := physToVirtAddr (framePa f)

/-- The frames of memory. -/
def framesOf (m : Mem) : Frames := fun f i =>
  if f < linearFrames then load m (slotOf (page f) i) else 0

section Frames
variable {m : Mem} {f f' n : ℕ} {i : Fin 512} {a b e : Word}

theorem page_toNat (hf : f < linearFrames) : (page f).toNat = 2 ^ 64 - 2 ^ 38 + f * 4096 := by
  unfold linearFrames at hf
  have h := framePa_toNat (f := f) (by omega)
  have hk : kernelVaOffset.toNat = 2 ^ 64 - 2 ^ 38 := by decide
  rw [page, physToVirtAddr, BitVec.toNat_add, h, hk, Nat.mod_eq_of_lt (by omega)]
  omega

theorem page_unique (hf : f < linearFrames) (hf' : f' < linearFrames) (h : Within (page f) 4096 a)
    (h' : Within (page f') 4096 a) : f = f' := by
  have h1 := page_toNat hf
  have h2 := page_toNat hf'
  unfold Within at h h'
  unfold linearFrames at hf hf'
  rw [BitVec.toNat_sub] at h h'
  have := a.isLt
  omega

theorem slot_within {j : ℕ} (hj : j < 8) (i : Fin 512) :
    Within (page f) 4096 (slotOf (page f) i + BitVec.ofNat 64 j) := by
  have hi := i.isLt
  unfold Within slotOf
  bv_omega

/-- Bytes in other pages do not matter. -/
theorem framesOf_congr {m' : Mem} (hf : f < linearFrames)
    (h : ∀ a, Within (page f) 4096 a → m' a = m a) : framesOf m' f = framesOf m f := by
  funext i
  rw [framesOf, framesOf, if_pos hf, if_pos hf]
  exact ofBytes_congr fun j hj => h _ (slot_within hj i)

theorem framesOf_outside (hf : ¬ f < linearFrames) : framesOf m f = fun _ => 0 := by
  funext i
  exact if_neg hf

/-- A store into a slot of a table writes in its page. -/
theorem store_outside (h : ¬ Within (page f) 4096 a) : store m (slotOf (page f) i) e a = m a := by
  have hi := i.isLt
  unfold Within at h
  refine if_neg fun hlt => h ?_
  unfold slotOf at hlt
  bv_omega

/-- **A store** sets an entry. -/
theorem framesOf_store (hf : f < linearFrames) (i : Fin 512) (e : Word) :
    framesOf (store m (slotOf (page f) i) e) = set (framesOf m) f i e := by
  funext f' i'
  rw [set_apply]
  by_cases hf' : f' < linearFrames
  · by_cases hff : f' = f
    · subst hff
      rw [framesOf, framesOf, if_pos hf', if_pos hf']
      by_cases hii : i' = i
      · subst hii
        rw [if_pos ⟨rfl, rfl⟩, load_store_same]
      · have hne : (i' : ℕ) ≠ i := fun h => hii (Fin.ext h)
        have h1 := i.isLt
        have h2 := i'.isLt
        rw [if_neg fun h => hii h.2]
        refine load_store_of_disjoint _ _ ?_ ?_ <;>
        · unfold slotOf
          rcases Nat.lt_or_gt_of_ne hne with h | h <;> bv_omega
    · rw [if_neg fun h => hff h.1]
      exact congrFun (framesOf_congr hf' fun a ha =>
        store_outside fun h => hff (page_unique hf' hf ha h)) i'
  · rw [framesOf_outside hf', framesOf_outside hf', if_neg fun h : f' = f ∧ i' = i => hf' (h.1 ▸ hf)]

/-- **`memset`** of a page clears a table. -/
theorem framesOf_zero (hf : f < linearFrames) :
    framesOf (memZero m (page f) 4096) = clearTable (framesOf m) f := by
  funext f' i
  rw [clearTable, fill_apply]
  by_cases hf' : f' < linearFrames
  · by_cases hff : f' = f
    · subst hff
      rw [framesOf, if_pos hf', if_pos rfl]
      have hz : load (memZero m (page f') 4096) (slotOf (page f') i) = ofBytes fun _ => 0 :=
        ofBytes_congr fun j hj =>
          Proc.Images.memZero_inside (by omega) (slot_within hj i)
      rw [hz]
      rfl
    · rw [if_neg hff]
      exact congrFun (framesOf_congr hf' fun a ha =>
        Proc.Images.memZero_outside (by omega) fun h => hff (page_unique hf' hf ha h)) i
  · rw [framesOf_outside hf', framesOf_outside hf', if_neg fun h : f' = f => hf' (h ▸ hf)]

/-- The bytes outside of the pages of these frames are the same. -/
def Keeps (S : Set ℕ) (m m' : Mem) : Prop :=
  ∀ a, (∀ f ∈ S, ¬ Within (page f) 4096 a) → m' a = m a

variable {S T : Set ℕ} {m' m'' : Mem}

theorem Keeps.mono (h : Keeps S m m') (hST : S ⊆ T) : Keeps T m m' := fun a ha =>
  h a fun f hf => ha f (hST hf)

theorem Keeps.trans (h : Keeps S m m') (h' : Keeps S m' m'') : Keeps S m m'' := fun a ha =>
  (h' a ha).trans (h a ha)

theorem Keeps.framesOf_eq (h : Keeps S m m') (hS : ∀ g ∈ S, g < linearFrames) (hf : f ∉ S) :
    framesOf m' f = framesOf m f := by
  by_cases hlt : f < linearFrames
  · refine framesOf_congr hlt fun a ha => h a fun g hg hag => ?_
    exact hf (page_unique hlt (hS g hg) ha hag ▸ hg)
  · rw [framesOf_outside hlt, framesOf_outside hlt]

theorem keeps_store (i : Fin 512) : Keeps {f} m (store m (slotOf (page f) i) e) := fun _ ha =>
  store_outside (ha f rfl)

theorem keeps_zero : Keeps {f} m (memZero m (page f) 4096) := fun _ ha =>
  Proc.Images.memZero_outside (by omega) (ha f rfl)

end Frames

/-! ### Tables that are missing -/

/-- The next page that `alloc_page` gives is that of the frame. -/
def Next (curr : Word) (g : ℕ) : Prop := (curr + 0x1000 - 1) &&& ~~~(0x1000 - 1) = page g

section Tables
variable {k : Kernel} {f g level root : ℕ} {va e pa prot : Word} {F : Frames} {i : Fin 512}

theorem page_succ (f : ℕ) : page (f + 1) = page f + 0x1000 := by
  unfold page physToVirtAddr framePa
  bv_omega

theorem next_page (hg : g < linearFrames) : Next (page g) g := by
  have h := page_toNat hg
  unfold linearFrames at hg
  apply BitVec.eq_of_toNat_eq
  rw [Lib.Align.add_and_not_toNat (k := 12) rfl]
  · omega
  · rw [show (0x1000 : Word).toNat = 4096 from rfl]
    omega

theorem allocPage_eq (h : Next k.curr g) : allocPage k = (page g, ⟨k.mem, page (g + 1)⟩) := by
  unfold Next at h
  rw [allocPage, h, page_succ]

theorem index_eq (va : Word) (level : ℕ) :
    ((va >>> (12 + level * 9)) &&& 0x1ff).toNat = (vpn level va : ℕ) := by
  rw [vpn_val, BitVec.toNat_and, BitVec.toNat_ushiftRight, Nat.shiftRight_eq_div_pow,
    Nat.mul_comm level]
  exact Nat.and_two_pow_sub_one_eq_mod _ 9

theorem virtToPhys_page (g : ℕ) : virtToPhysAddr (page g) = framePa g := by
  rw [virtToPhysAddr, page, physToVirtAddr, BitVec.add_sub_cancel]

/-- **A table that is missing**: the next page becomes it. -/
theorem nextTable_new (va : Word) (level : ℕ) (hf : f < linearFrames) (hg : g < linearFrames)
    (hcurr : Next k.curr g) (h0 : framesOf k.mem f (vpn level va) = 0) :
    ∃ m, nextTable va level (page f) k = (page g, ⟨m, page (g + 1)⟩) ∧
      framesOf m = set (clearTable (framesOf k.mem) g) f (vpn level va) (ptr g) ∧
      Keeps {f, g} k.mem m := by
  have hentry : load k.mem (slotOf (page f) (vpn level va)) = 0 := by
    rwa [framesOf, if_pos hf] at h0
  have hptr : (pfnDown (virtToPhysAddr (page g)) <<< 10) ||| pteV = ptr g := by
    rw [virtToPhys_page]
    rfl
  have hback : physToVirtAddr ((ptr g >>> 10) <<< 12) = page g := by
    have h := pteToPa_ptr (f := g) (by unfold linearFrames at hg; omega)
    rw [page, ← h]
    rfl
  refine ⟨store (memZero k.mem (page g) 4096) (slotOf (page f) (vpn level va)) (ptr g), ?_, ?_, ?_⟩
  · rw [nextTable, index_eq, hentry, if_pos (by decide), allocPage_eq hcurr]
    simp only [hptr, hback]
  · rw [framesOf_store hf, framesOf_zero hg]
  · exact (keeps_zero.mono (by simp)).trans ((keeps_store _).mono (by simp))

/-- The tables on the way to an entry, in the frames from `g` on. -/
def withPath (F : Frames) (root g : ℕ) (va e : Word) : Frames :=
  let F := set (clearTable F g) root (vpn 2 va) (ptr g)
  let F := set (clearTable F (g + 1)) g (vpn 1 va) (ptr (g + 1))
  set F (g + 1) (vpn 0 va) e

theorem withPath_root (h : root < g) : withPath F root g va e root i =
    if i = vpn 2 va then ptr g else F root i := by
  have h1 : root ≠ g := by omega
  have h2 : root ≠ g + 1 := by omega
  simp only [withPath, set_apply, clearTable, fill_apply, h1, h2, true_and, false_and, if_false]

theorem withPath_pmd (h : root < g) : withPath F root g va e g i =
    if i = vpn 1 va then ptr (g + 1) else 0 := by
  have h1 : g ≠ root := by omega
  have h2 : g ≠ g + 1 := by omega
  simp only [withPath, set_apply, clearTable, fill_apply, h1, h2, if_true, true_and, false_and,
    if_false]

theorem withPath_pte : withPath F root g va e (g + 1) i = if i = vpn 0 va then e else 0 := by
  have h1 : g + 1 ≠ g := by omega
  simp only [withPath, set_apply, clearTable, h1, fill_self, true_and, false_and, if_false]

theorem withPath_other {f : ℕ} (h1 : f ≠ root) (h2 : f ≠ g) (h3 : f ≠ g + 1) :
    withPath F root g va e f = F f := by
  simp only [withPath, set_of_ne h3, set_of_ne h2, clearTable, fill_of_ne h3, set_of_ne h1,
    fill_of_ne h2]

/-- **`pagewalk`** to a place that no table leads to yet. -/
theorem pagewalk_new (va pa prot : Word) (hroot : root < g) (hg : g + 1 < linearFrames)
    (hcurr : Next k.curr g) (h0 : framesOf k.mem root (vpn 2 va) = 0) :
    ∃ m, pagewalk (page root) va pa prot k = ⟨m, page (g + 2)⟩ ∧
      framesOf m = withPath (framesOf k.mem) root g va (paToPte pa ||| prot) ∧
      Keeps {root, g, g + 1} k.mem m := by
  obtain ⟨m1, h1, hf1, hk1⟩ := nextTable_new va 2 (show root < linearFrames by omega)
    (show g < linearFrames by omega) hcurr h0
  have h0' : framesOf m1 g (vpn 1 va) = 0 := by
    rw [hf1, set_of_ne hroot.ne', clearTable, fill_self]
  obtain ⟨m2, h2, hf2, hk2⟩ := nextTable_new (k := ⟨m1, page (g + 1)⟩) va 1
    (show g < linearFrames by omega) hg (next_page hg) h0'
  refine ⟨store m2 (slotOf (page (g + 1)) (vpn 0 va)) (paToPte pa ||| prot), ?_, ?_, ?_⟩
  · rw [pagewalk, h1]
    dsimp only
    rw [h2]
    dsimp only
    rw [← index_eq va 0]
    rfl
  · rw [framesOf_store hg, hf2, hf1, withPath]
  · refine ((hk1.mono ?_).trans (hk2.mono ?_)).trans ((keeps_store _).mono ?_) <;>
    · intro x hx
      simp only [Set.mem_insert_iff, Set.mem_singleton_iff] at hx ⊢
      tauto

/-- **`map_pages`** of a page at most is a round of its loop. -/
theorem mapPages_page {pgd size : Word} (h0 : 0 < size.toNat) (h : size.toNat ≤ 4096) :
    mapPages pgd va size pa prot k = some (pagewalk pgd va pa prot k) := by
  have hloop : ∀ fuel, mapLoop pgd va size pa prot (fuel + 2) 0 k =
      some (pagewalk pgd va pa prot k) := by
    intro fuel
    have h1 : (0 : BitVec 32).signExtend 64 < size := BitVec.lt_def.2 h0
    have h2 : ¬ (4096 : BitVec 32).signExtend 64 < size := fun hlt =>
      (BitVec.lt_def.1 hlt).not_ge h
    have h3 : (0 : BitVec 32) + 4096 = 4096 := rfl
    have h4 : (0 : BitVec 32).signExtend 64 = 0#64 := rfl
    rw [mapLoop, if_pos h1, mapLoop, h3, if_neg h2, h4, BitVec.add_zero, BitVec.add_zero]
  exact hloop (2 ^ 20 - 1)

end Tables

end OscKernel.UserMode.Pagewalk
