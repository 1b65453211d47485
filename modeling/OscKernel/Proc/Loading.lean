import OscKernel.Proc.Copy
import OscKernel.Initrd.Cat

/-! # What the loader leaves in the load region

`user_load_image_from_initrd` clears the load region, copies the file to its start and puts the signal
trampoline on its last page. It accepts files that reach into that page, and files that lie in the
region.

* `memCopy_cleared`: what the copy finds after the clearing.
* `userLoadImage_trampoline`, `userLoadImage_file`, `userLoadImage_rest`: the bytes of the region.
* `userLoadImageFromInitrd_file`: the loader on the file that `initrd_find_file` finds.
* `loaded_iff`: a file is loaded whole unless the clearing or the trampoline takes a part of it;
  `survives_of_archive`: in an archive apart from the region, only the trampoline can. -/

namespace OscKernel.Proc.Loading

open OscKernel.Lib.Memory OscKernel.User.Signal OscKernel.User.Process
open OscKernel.Initrd.Lookup (sampleMem)
open OscKernel.Initrd.KString OscKernel.Initrd.Cpio OscKernel.Initrd.Bounds OscKernel.Initrd.Cat
open OscKernel.Proc.Images OscKernel.Proc.Copy

/-! ### The loader -/

/-- `user_load_image_from_initrd`: the memory, and the entry with the return value 0. -/
def userLoadImageFromInitrd (m : Mem) (initrdStart initrdEnd path : Word) :
    Option (Mem × Option Word) :=
  if path = 0 then some (m, none)
  else
    match initrdFindFile m initrdStart initrdEnd path with
    | none => none
    | some (.error _) => some (m, none)
    | some (.ok (fileData, fileSize)) =>
      if fileSize = 0 ∨ userProgMaxSize < fileSize.toNat then some (m, none)
      else
        let m := memZero m userProgBase userProgMaxSize
        let m := memCopy m userProgBase fileData fileSize.toNat
        some (memWrite m userSigtrampBase trampolineCode, some userProgBase)

/-- `USER_PROG_LOAD_MAX_SIZE`, to which nothing compares the size of a file. -/
def userProgLoadMaxSize : ℕ := userProgMaxSize - 0x1000

/-! ### The bytes of the region -/

section Region
variable {m m' : Mem} {data : List Byte} {entry a src b : Word} {n o : ℕ}

instance (b : Word) : Decidable (InLoadRegion b) := Nat.decLt _ _

/-- The byte at an offset of the copy, which finds the load region cleared, or what it has written
there itself: a file that starts below the region is repeated from where it enters it. -/
def copiedByte (m : Mem) (data : Word) (i : ℕ) : Byte :=
  if data < userProgBase then bytesAt m data (i % (userProgBase - data).toNat)
  else if InLoadRegion (data + BitVec.ofNat 64 i) then 0
  else bytesAt m data i

/-- **The copy** over the cleared region. -/
theorem memCopy_cleared (hn : n ≤ userProgMaxSize) {i : ℕ} (hi : i < n) :
    memCopy (memZero m userProgBase userProgMaxSize) userProgBase src n
      (userProgBase + BitVec.ofNat 64 i) = copiedByte m src i := by
  have hmax : userProgMaxSize = 0x400000 := rfl
  have hbase : userProgBase.toNat = 0x03000000 := by decide
  rw [memCopy_at (by omega) hi]
  induction i using Nat.strong_induction_on with
  | _ i ih =>
    by_cases hlt : src < userProgBase
    · set d := (userProgBase - src).toNat with hd
      have hdpos : 0 < d ∧ d ≤ 0x03000000 ∧ src.toNat + d = 0x03000000 := by bv_omega
      rw [copiedByte, if_pos hlt, ← hd]
      by_cases hid : i < d
      · -- the byte lies below the region
        have hout : ¬ InLoadRegion (src + BitVec.ofNat 64 i) := by
          rw [InLoadRegion, within_iff (by omega), BitVec.toNat_add, BitVec.toNat_ofNat]
          omega
        rw [memCopy_outside (by omega) fun hw => hout (lt_trans hw (by omega)),
          memZero_outside (by decide) hout, Nat.mod_eq_of_lt hid]
        rfl
      · -- the byte has been written by the copy
        have hsrc : src + BitVec.ofNat 64 i = userProgBase + BitVec.ofNat 64 (i - d) := by bv_omega
        have h1 := ih (i - d) (by omega) (by omega)
        rw [copiedByte, if_pos hlt, ← hd] at h1
        rw [hsrc, memCopy_at (by omega) (by omega), h1, ← Nat.mod_eq_sub_mod (not_lt.1 hid)]
    · rw [copiedByte, if_neg hlt]
      have hge : 0x03000000 ≤ src.toNat := by bv_omega
      have hahead : ¬ Within userProgBase i (src + BitVec.ofNat 64 i) := by
        rw [within_iff (by omega), BitVec.toNat_add, BitVec.toNat_ofNat]
        omega
      rw [memCopy_outside (by omega) hahead]
      split_ifs with hin
      · exact memZero_inside (by decide) hin
      · exact memZero_outside (by decide) hin

/-- The file as the copy finds it. -/
def copiedBytes (m : Mem) (data size : Word) : List Byte :=
  (List.range size.toNat).map (copiedByte m data)

theorem memCopy_eq_memWrite {l : List Byte} (hl : l.length ≤ 2 ^ 64)
    (h : ∀ i (hi : i < l.length), memCopy m a src l.length (a + BitVec.ofNat 64 i) = l[i]) :
    memCopy m a src l.length = memWrite m a l := by
  funext b
  by_cases hb : Within a l.length b
  · obtain ⟨i, hi, rfl⟩ : ∃ i < l.length, b = a + BitVec.ofNat 64 i := ⟨_, hb, by bv_omega⟩
    rw [h i hi, memWrite_inside hl hi]
  · rw [memCopy_outside hl hb, memWrite_outside hl hb]

theorem userSigtrampBase_eq :
    userSigtrampBase = userProgBase + BitVec.ofNat 64 userProgLoadMaxSize := by decide

theorem within_trampoline (ho : o < userProgMaxSize) :
    Within userSigtrampBase trampolineCode.length (userProgBase + BitVec.ofNat 64 o) ↔
      userProgLoadMaxSize ≤ o ∧ o < userProgLoadMaxSize + trampolineCode.length := by
  have h12 : trampolineCode.length = 12 := rfl
  have hmax : userProgMaxSize = 0x400000 := rfl
  have hload : userProgLoadMaxSize = 0x3FF000 := rfl
  have hbase : userProgBase.toNat = 0x03000000 := by decide
  have htramp : userSigtrampBase.toNat = 0x033FF000 := by decide
  rw [within_iff (by omega), BitVec.toNat_add, BitVec.toNat_ofNat]
  omega

theorem userLoadImage_eq (h0 : data ≠ []) (hl : data.length ≤ userProgMaxSize) :
    userLoadImage m (some data) =
      (memWrite (memWrite (memZero m userProgBase userProgMaxSize) userProgBase data)
        userSigtrampBase trampolineCode, some userProgBase) := by
  have hlen : ¬ (data.length = 0 ∨ userProgMaxSize < data.length) := by
    rw [not_or]
    exact ⟨fun h => h0 (List.eq_nil_of_length_eq_zero h), not_lt.2 hl⟩
  rw [userLoadImage, if_neg hlen]

/-- **The trampoline** is there, whatever the file is. -/
theorem userLoadImage_trampoline (h0 : data ≠ []) (hl : data.length ≤ userProgMaxSize) :
    Placed (userLoadImage m (some data)).1 userSigtrampBase trampolineCode := fun i hi => by
  rw [userLoadImage_eq h0 hl]
  exact memWrite_inside (by decide) hi

/-- **The file** is there, except where the trampoline is. -/
theorem userLoadImage_file (h0 : data ≠ []) (hl : data.length ≤ userProgMaxSize)
    (ho : o < data.length)
    (ht : ¬ Within userSigtrampBase trampolineCode.length (userProgBase + BitVec.ofNat 64 o)) :
    (userLoadImage m (some data)).1 (userProgBase + BitVec.ofNat 64 o) = data[o] := by
  have hmax : userProgMaxSize = 0x400000 := rfl
  rw [userLoadImage_eq h0 hl]
  dsimp only
  rw [memWrite_outside (by decide) ht, memWrite_inside (by omega) ho]

/-- **The rest** of the region is zero. -/
theorem userLoadImage_rest (h0 : data ≠ []) (hl : data.length ≤ userProgMaxSize)
    (hb : InLoadRegion b) (hd : ¬ Within userProgBase data.length b)
    (ht : ¬ Within userSigtrampBase trampolineCode.length b) :
    (userLoadImage m (some data)).1 b = 0 := by
  have hmax : userProgMaxSize = 0x400000 := rfl
  rw [userLoadImage_eq h0 hl]
  dsimp only
  rw [memWrite_outside (by decide) ht, memWrite_outside (by omega) hd,
    memZero_inside (by decide) hb]

/-! ### Whole programs -/

/-- The program is in the load region, with the trampoline and otherwise zeros. -/
structure LoadedWhole (data : List Byte) (m' : Mem) (entry : Word) : Prop where
  file : Placed m' userProgBase data
  trampoline : Placed m' userSigtrampBase trampolineCode
  rest : ∀ b, InLoadRegion b → ¬ Within userProgBase data.length b →
    ¬ Within userSigtrampBase trampolineCode.length b → m' b = 0
  entry : entry = userProgBase

/-- The file does not reach the place of the trampoline, or it has the bytes of the trampoline
there. -/
def Spared (data : List Byte) : Prop :=
  ∀ i (hi : i < trampolineCode.length) (hd : userProgLoadMaxSize + i < data.length),
    data[userProgLoadMaxSize + i] = trampolineCode[i]

theorem spared_of_le (h : data.length ≤ userProgLoadMaxSize) : Spared data := fun i _ hd => by
  omega

theorem LoadedWhole.spared (h : LoadedWhole data m' entry) : Spared data := by
  intro i hi hd
  have hf := h.file _ hd
  have ht := h.trampoline i hi
  rw [userSigtrampBase_eq, bytesAt_add] at ht
  rw [← hf, ht]

/-- **A loaded program** is a file of the same size, if they differ under the trampoline only. -/
theorem userLoadImage_whole_iff {file : List Byte} (hlen : file.length = data.length)
    (h : userLoadImage m (some data) = (m', some entry)) :
    LoadedWhole file m' entry ↔
      (∀ i (hi : i < data.length), ¬ Within userSigtrampBase trampolineCode.length
        (userProgBase + BitVec.ofNat 64 i) → data[i] = file[i]) ∧ Spared file := by
  obtain ⟨h0, hl⟩ : data ≠ [] ∧ data.length ≤ userProgMaxSize := by
    rcases userLoadImage_cases m (some data) with ⟨-, he⟩ | ⟨⟨d, hd, h0, hl⟩, -⟩
    · rw [h] at he
      cases he
    · obtain rfl := Option.some.inj hd
      exact ⟨fun hn => h0 (by rw [hn]; rfl), hl⟩
  have hm : m' = (userLoadImage m (some data)).1 := by rw [h]
  have hentry : entry = userProgBase := by
    rw [userLoadImage_eq h0 hl] at h
    exact (Option.some.inj (Prod.mk.inj h).2).symm
  have htramp := userLoadImage_trampoline (m := m) h0 hl
  rw [← hm] at htramp
  have hmax : userProgMaxSize = 0x400000 := rfl
  constructor
  · intro hw
    refine ⟨fun i hi ht => ?_, hw.spared⟩
    rw [← hw.file i (by omega), bytesAt, hm, userLoadImage_file h0 hl hi ht]
  · rintro ⟨hsame, hs⟩
    refine ⟨fun o ho => ?_, htramp, fun b hb hd ht => ?_, hentry⟩
    · by_cases ht : Within userSigtrampBase trampolineCode.length (userProgBase + BitVec.ofNat 64 o)
      · obtain ⟨h1, h2⟩ := (within_trampoline (by omega)).1 ht
        obtain ⟨i, rfl⟩ := Nat.exists_eq_add_of_le h1
        have hi : i < trampolineCode.length := by omega
        rw [← bytesAt_add, ← userSigtrampBase_eq, htramp i hi, hs i hi ho]
      · rw [bytesAt, hm, userLoadImage_file h0 hl (by omega) ht, hsame o (by omega) ht]
    · rw [hm, userLoadImage_rest h0 hl hb (hlen ▸ hd) ht]

end Region

/-! ### Files of the initrd -/

section Initrd
variable {m m' : Mem} {initrdStart initrdEnd path data size entry p : Word}

theorem walkTo_after {q : Word} (hfit : Placeable initrdEnd) : ∀ {n : ℕ} {p : Word} {ps : List Word},
    p.toNat ≤ initrdEnd.toNat + 3 → walkTo m path n p = some (ps, q) →
    (∀ r ∈ ps ++ [q], Fit m initrdEnd r) → p.toNat ≤ q.toNat
  | 0, _, _, _, hw, _ => by cases hw
  | n + 1, p, ps, hp, hw, hall => by
    obtain ⟨l, hl⟩ := walkTo_head hw
    have hpf : Fit m initrdEnd p := hall p (hl ▸ List.mem_cons_self ..)
    obtain ⟨-, ⟨rfl, rfl⟩ | ⟨qs, rfl, hw'⟩⟩ := walkTo_next hw
    · exact le_rfl
    · obtain ⟨hup, hle⟩ := next_toNat hfit hp hpf.2
      have hq := walkTo_after hfit hle hw' (List.forall_mem_cons.1 hall).2
      exact le_trans (by omega) hq

/-- **What is found** lies in the archive. -/
theorem initrdFindFile_inside (hfit : Placeable initrdEnd)
    (h : initrdFindFile m initrdStart initrdEnd path = some (.ok (data, size))) {i : ℕ}
    (hi : i < size.toNat) : Inside initrdStart initrdEnd (data + BitVec.ofNat 64 i) := by
  unfold initrdFindFile at h
  split_ifs at h with hav
  swap
  · cases h
  have hlt : initrdStart < initrdEnd := by
    simp only [initrdAvailable, Bool.and_eq_true, decide_eq_true_eq] at hav
    exact hav.2
  have hle : initrdStart.toNat ≤ initrdEnd.toNat + 3 := by bv_omega
  obtain ⟨ps, q, hw, hall, rfl, rfl⟩ := findLoop_file.1 h
  have hq : q ∈ ps ++ [q] := by simp
  have hafter := walkTo_after hfit hle hw hall
  have hend := walkTo_starts hfit hle hw hall q hq
  have hdata := (dataFits_toNat hfit (by bv_omega)).1 (hall q hq).2
  unfold Placeable at hfit
  constructor
  · bv_omega
  · bv_omega

/-- What the copy finds of the file is the file, but for bytes under the trampoline. -/
def Survives (m : Mem) (data size : Word) : Prop :=
  ∀ i < size.toNat, ¬ Within userSigtrampBase trampolineCode.length
    (userProgBase + BitVec.ofNat 64 i) → copiedByte m data i = bytesAt m data i

theorem survives_of_apart (hap : ∀ i < size.toNat, ¬ InLoadRegion (data + BitVec.ofNat 64 i)) :
    Survives m data size := fun i hi _ => by
  unfold copiedByte
  split_ifs with hlt hin
  · have hid : i < (userProgBase - data).toNat := by
      by_contra hid
      refine hap _ (lt_of_le_of_lt (not_lt.1 hid) hi) ?_
      have hback : data + BitVec.ofNat 64 (userProgBase - data).toNat = userProgBase := by bv_omega
      rw [hback]
      decide
    rw [Nat.mod_eq_of_lt hid]
  · exact absurd hin (hap i hi)
  · rfl

/-- **`user_load_image_from_initrd`** loads what the copy finds of the file. -/
theorem userLoadImageFromInitrd_file (hp : path ≠ 0)
    (hf : initrdFindFile m initrdStart initrdEnd path = some (.ok (data, size))) :
    userLoadImageFromInitrd m initrdStart initrdEnd path =
      some (userLoadImage m (some (copiedBytes m data size))) := by
  have hlen : (copiedBytes m data size).length = size.toNat := by simp [copiedBytes]
  have hzero : size = 0 ↔ size.toNat = 0 := by bv_omega
  rw [userLoadImageFromInitrd, if_neg hp, hf, userLoadImage, hlen]
  dsimp only
  by_cases hs : size.toNat = 0 ∨ userProgMaxSize < size.toNat
  · rw [if_pos hs, if_pos (by rwa [hzero])]
  rw [if_neg hs, if_neg (by rwa [hzero])]
  have hmax : userProgMaxSize = 0x400000 := rfl
  have hle : size.toNat ≤ userProgMaxSize := not_lt.1 (not_or.1 hs).2
  have hcopy : memCopy (memZero m userProgBase userProgMaxSize) userProgBase data
      (copiedBytes m data size).length =
      memWrite (memZero m userProgBase userProgMaxSize) userProgBase (copiedBytes m data size) := by
    refine memCopy_eq_memWrite (by omega) fun i hi => ?_
    rw [memCopy_cleared (by omega) hi]
    simp [copiedBytes]
  rw [← hcopy, hlen]

theorem exists_loaded (hp : path ≠ 0)
    (hf : initrdFindFile m initrdStart initrdEnd path = some (.ok (data, size)))
    (h0 : size.toNat ≠ 0) (hl : size.toNat ≤ userProgMaxSize) :
    ∃ m', userLoadImageFromInitrd m initrdStart initrdEnd path = some (m', some userProgBase) := by
  have hlen : (copiedBytes m data size).length = size.toNat := by simp [copiedBytes]
  have hload := userLoadImage_eq (m := m) (List.ne_nil_of_length_pos (by omega)) (hlen.trans_le hl)
  exact ⟨_, by rw [userLoadImageFromInitrd_file hp hf, hload]⟩

theorem path_ne_zero
    (h : userLoadImageFromInitrd m initrdStart initrdEnd path = some (m', some entry)) : path ≠ 0 := by
  rintro rfl
  rw [userLoadImageFromInitrd, if_pos rfl] at h
  cases h

/-- **The loader** leaves a file of the initrd whole in the load region exactly if neither the clearing
of the region nor the trampoline takes a part of it. -/
theorem loaded_iff (hf : initrdFindFile m initrdStart initrdEnd path = some (.ok (data, size)))
    (h : userLoadImageFromInitrd m initrdStart initrdEnd path = some (m', some entry)) :
    LoadedWhole (fileBytes m data size) m' entry ↔
      Survives m data size ∧ Spared (fileBytes m data size) := by
  have hfile : (fileBytes m data size).length = size.toNat := by simp [fileBytes]
  have hcopied : (copiedBytes m data size).length = size.toNat := by simp [copiedBytes]
  rw [userLoadImageFromInitrd_file (path_ne_zero h) hf] at h
  rw [userLoadImage_whole_iff (hfile.trans hcopied.symm) (Option.some.inj h)]
  refine and_congr_left fun _ => ⟨fun hw i hi ht => ?_, fun hs i hi ht => ?_⟩
  · simpa [copiedBytes, fileBytes] using hw i (by omega) ht
  · simpa [copiedBytes, fileBytes] using hs i (by omega) ht

/-- The only file of the sample archive is loaded whole. -/
theorem loaded_iff_sample :
    ∃ m' entry, userLoadImageFromInitrd sampleMem 4096 4336 4206 = some (m', some entry) ∧
      LoadedWhole (fileBytes sampleMem 4208 3) m' entry := by
  have hf : initrdFindFile sampleMem 4096 4336 4206 = some (.ok (4208, 3)) := by decide +kernel
  have hap : ∀ i < (3 : Word).toNat, ¬ InLoadRegion ((4208 : Word) + BitVec.ofNat 64 i) := by
    unfold InLoadRegion Within
    decide
  obtain ⟨m', hl⟩ := exists_loaded (by decide) hf (by decide) (by decide)
  have hlen : (fileBytes sampleMem 4208 3).length = 3 := by simp [fileBytes]
  exact ⟨m', _, hl, (loaded_iff hf hl).2
    ⟨survives_of_apart hap, spared_of_le (by rw [hlen]; decide)⟩⟩

theorem survives_of_archive (hfit : Placeable initrdEnd)
    (hap : ∀ b, Inside initrdStart initrdEnd b → ¬ InLoadRegion b)
    (hf : initrdFindFile m initrdStart initrdEnd path = some (.ok (data, size))) :
    Survives m data size :=
  survives_of_apart fun _ hi => hap _ (initrdFindFile_inside hfit hf hi)

end Initrd

/-! ### A file that is too large by one byte -/

/-- A record named `a` at 4096 with one byte more than `USER_PROG_LOAD_MAX_SIZE`, all zero. -/
def largeMem : Mem := fun a =>
  (ascii "070701" ++ [1, 33188, 0, 0, 1, 0, userProgLoadMaxSize + 1, 8, 1, 0, 0, 2, 0].flatMap
    (hex8 true) ++ ascii "a").getD (a.toNat - 4096) 0

/-- **The trampoline overwrites the last byte.** -/
theorem not_loaded_large :
    initrdFindFile largeMem 4096 0x500000 4206 = some (.ok (4208, 0x3FF001)) ∧
      ∃ m' entry, userLoadImageFromInitrd largeMem 4096 0x500000 4206 = some (m', some entry) ∧
        ¬ LoadedWhole (fileBytes largeMem 4208 0x3FF001) m' entry := by
  have hf : initrdFindFile largeMem 4096 0x500000 4206 = some (.ok (4208, 0x3FF001)) := by
    decide +kernel
  obtain ⟨m', hl⟩ := exists_loaded (by decide) hf (by decide) (by decide)
  refine ⟨hf, m', _, hl, fun hw => ?_⟩
  have hlen : (fileBytes largeMem 4208 0x3FF001).length = 0x3FF001 := by simp [fileBytes]
  have hlt : userProgLoadMaxSize + 0 < (fileBytes largeMem 4208 0x3FF001).length := by
    rw [hlen]
    decide
  have hbyte := hw.spared 0 (by decide) hlt
  simp only [fileBytes, List.getElem_map, List.getElem_range] at hbyte
  exact absurd hbyte (by decide +kernel)

end OscKernel.Proc.Loading
