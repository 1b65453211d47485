import Mathlib.Data.List.FinRange
import OscKernel.Lib.Sv39

/-! # Page tables of lab6

The constants and conversions of `vm.h`, and tables in memory. A table is a page frame; the kernel
reaches a frame through its linear mapping.

* `mkPte_toNat`: the number that an entry is.
* `ptr`: the entry that points to a table, for the hardware (`usable_ptr`, `ppn_ptr`) and for the code
  (`ptr_valid`, `ptr_nonLeaf`, `pteToPa_ptr`).
* `fill_apply`: what filling a table leaves in memory. -/

namespace OscKernel.Vm.Tables

open OscKernel.Lib.Memory OscKernel.Lib.Sv39

/-! ### The constants and conversions -/

/-- `KERNEL_VA_OFFSET`. -/
def kernelVaOffset : Word := 0xffffffc000000000

def pteV : Word := 1
def pteR : Word := 2
def pteW : Word := 4
def pteX : Word := 8
def pteU : Word := 16
def pteG : Word := 32
def pteA : Word := 64
def pteD : Word := 128

/-- `KERNEL_PAGE_FLAGS`. -/
def kernelPageFlags : Word := pteV ||| pteR ||| pteW ||| pteX ||| pteG ||| pteA ||| pteD

/-- `MMIO_PAGE_FLAGS`. -/
def mmioPageFlags : Word := pteV ||| pteR ||| pteW ||| pteG ||| pteA ||| pteD

/-- `PA_TO_PTE`. -/
def paToPte (pa : Word) : Word := (pa >>> 12) <<< 10

/-- `PTE_TO_PA`. -/
def pteToPa (pte : Word) : Word := (pte >>> 10) <<< 12

/-- `MAKE_SATP`. -/
def makeSatp (pgdPa : Word) : Word := (8 <<< 60 : Word) ||| (pgdPa >>> 12)

/-- `phys_to_virt_addr`. -/
def physToVirtAddr (pa : Word) : Word := pa + kernelVaOffset

/-- `virt_to_phys_addr`. -/
def virtToPhysAddr (va : Word) : Word := va - kernelVaOffset

/-! ### Tables -/

/-- The physical address of a frame. -/
def framePa (f : ℕ) : Word := BitVec.ofNat 64 (f * 2 ^ 12)

/-- The frame that a kernel pointer to a table leads to. -/
def tableAt (p : Word) : ℕ := (virtToPhysAddr p).toNat / 2 ^ 12

/-- `table[i] = e`. -/
def set (m : Frames) (f : ℕ) (i : Fin 512) (e : Word) : Frames :=
  Function.update m f (Function.update (m f) i e)

/-- A loop that writes all entries of a table. -/
def fill (m : Frames) (f : ℕ) (g : Fin 512 → Word) : Frames :=
  (List.finRange 512).foldl (fun m i => set m f i (g i)) m

/-- `clear_table`. -/
def clearTable (m : Frames) (f : ℕ) : Frames := fill m f fun _ => 0

section Memory
variable {m : Frames} {f f' : ℕ} {i i' : Fin 512} {e : Word} {g : Fin 512 → Word}

theorem set_self : set m f i e f i = e := by simp [set]

theorem set_of_ne (h : f' ≠ f) : set m f i e f' = m f' := Function.update_of_ne h ..

theorem set_of_index_ne (h : i' ≠ i) : set m f i e f i' = m f i' := by
  rw [set, Function.update_self, Function.update_of_ne h]

theorem set_apply : set m f i e f' i' = if f' = f ∧ i' = i then e else m f' i' := by
  by_cases hf : f' = f
  · subst hf
    by_cases hi : i' = i
    · subst hi; simp [set_self]
    · simp [set_of_index_ne hi, hi]
  · simp [set_of_ne hf, hf]

theorem foldl_set (l : List (Fin 512)) (m : Frames) :
    l.foldl (fun m i => set m f i (g i)) m =
      fun f' i' => if f' = f ∧ i' ∈ l then g i' else m f' i' := by
  induction l generalizing m with
  | nil => simp
  | cons i l ih =>
    rw [List.foldl_cons, ih]
    funext f' i'
    rw [set_apply]
    by_cases hf : f' = f <;> by_cases hl : i' ∈ l <;> by_cases hi : i' = i <;>
      simp [hf, hl, hi]

theorem fill_apply : fill m f g f' i' = if f' = f then g i' else m f' i' := by
  rw [fill, foldl_set]
  simp

theorem fill_self : fill m f g f i' = g i' := by rw [fill_apply, if_pos rfl]

theorem fill_of_ne (h : f' ≠ f) : fill m f g f' = m f' := by
  funext i
  rw [fill_apply, if_neg h]

end Memory

/-! ### Entries -/

variable {f : ℕ} {fl : Word}

theorem framePa_toNat (hf : f < 2 ^ 44) : (framePa f).toNat = f * 2 ^ 12 := by
  rw [framePa, BitVec.toNat_ofNat, Nat.mod_eq_of_lt (by omega)]

/-- The number of the frame and the flags, side by side. -/
theorem mkPte_toNat {pa : Word} (hp : pa.toNat = f * 2 ^ 12) (hf : f < 2 ^ 44)
    (hfl : fl.toNat < 2 ^ 10) : (paToPte pa ||| fl).toNat = f * 2 ^ 10 + fl.toNat := by
  have hshift : (paToPte pa).toNat = f <<< 10 := by
    rw [paToPte, BitVec.toNat_shiftLeft, BitVec.toNat_ushiftRight, hp, Nat.shiftRight_eq_div_pow,
      Nat.mul_div_cancel _ (by omega), Nat.mod_eq_of_lt]
    rw [Nat.shiftLeft_eq]
    omega
  rw [BitVec.toNat_or, hshift, ← Nat.shiftLeft_add_eq_or_of_lt hfl, Nat.shiftLeft_eq]

theorem flags_of_toNat {e : Word} {n : ℕ} (h : e.toNat = f * 2 ^ 10 + n) (hn : n < 2 ^ 10) :
    flags e = n := by
  rw [flags, h]
  omega

theorem ppn_of_toNat {e : Word} {n : ℕ} (h : e.toNat = f * 2 ^ 10 + n) (hn : n < 2 ^ 10)
    (hf : f < 2 ^ 44) : ppn e = f := by
  rw [ppn, h]
  omega

theorem reserved_of_toNat {e : Word} {n : ℕ} (h : e.toNat = f * 2 ^ 10 + n) (hn : n < 2 ^ 10)
    (hf : f < 2 ^ 44) : reserved e = false := by
  rw [reserved, decide_eq_false_iff_not, not_not, h]
  omega

/-- The flags of an entry, as the code tests them. -/
theorem and_toNat (e : Word) {mask : Word} (hm : mask.toNat < 2 ^ 10) :
    (e &&& mask).toNat = flags e &&& mask.toNat := by
  rw [BitVec.toNat_and, flags]
  conv_lhs => rw [← Nat.mod_eq_of_lt (Nat.and_lt_two_pow e.toNat hm), Nat.and_mod_two_pow]
  rw [Nat.mod_eq_of_lt hm]

/-- The entry that points to a table. -/
def ptr (f : ℕ) : Word := paToPte (framePa f) ||| pteV

theorem ptr_toNat (hf : f < 2 ^ 44) : (ptr f).toNat = f * 2 ^ 10 + 1 :=
  mkPte_toNat (framePa_toNat hf) hf (by decide)

theorem flags_ptr (hf : f < 2 ^ 44) : flags (ptr f) = 1 := flags_of_toNat (ptr_toNat hf) (by omega)

theorem ppn_ptr (hf : f < 2 ^ 44) : ppn (ptr f) = f := ppn_of_toNat (ptr_toNat hf) (by omega) hf

theorem usable_ptr (hf : f < 2 ^ 44) : usable (ptr f) = true := by
  rw [usable, flags_ptr hf, reserved_of_toNat (ptr_toNat hf) (by omega) hf]
  rfl

theorem isPointer_ptr (hf : f < 2 ^ 44) : isPointer (ptr f) = true := by
  rw [isPointer, isLeaf, flags_ptr hf]
  rfl

theorem ptr_valid (hf : f < 2 ^ 44) : ptr f &&& pteV ≠ 0 := fun h => by
  have := congrArg BitVec.toNat h
  rw [and_toNat _ (by decide), flags_ptr hf] at this
  simp [pteV] at this

theorem ptr_nonLeaf (hf : f < 2 ^ 44) : ptr f &&& (pteR ||| pteW ||| pteX) = 0 := by
  apply BitVec.eq_of_toNat_eq
  rw [and_toNat _ (by decide), flags_ptr hf]
  rfl

theorem pteToPa_ptr (hf : f < 2 ^ 44) : pteToPa (ptr f) = framePa f := by
  apply BitVec.eq_of_toNat_eq
  rw [pteToPa, BitVec.toNat_shiftLeft, BitVec.toNat_ushiftRight, ptr_toNat hf, framePa_toNat hf,
    Nat.shiftRight_eq_div_pow, Nat.shiftLeft_eq]
  omega

theorem tableAt_physToVirt (hf : f < 2 ^ 44) : tableAt (physToVirtAddr (framePa f)) = f := by
  rw [tableAt, virtToPhysAddr, physToVirtAddr, BitVec.add_sub_cancel, framePa_toNat hf,
    Nat.mul_div_cancel _ (by omega)]

end OscKernel.Vm.Tables
