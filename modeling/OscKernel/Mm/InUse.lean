import OscKernel.Mm.Contents
import OscKernel.Mm.Startup

/-! # What is in use at boot

The device tree, the kernel, the initramfs and the region of the user program are there before the
allocator is. It puts its `frame_array` elsewhere, and no call writes into them.

* `Noted rs L`: the noted regions cover the ranges `L`.
* `frameArray_apart`: `frame_array` has no byte of a range in use.
* `inUse_of_run`: the ranges in use hold after every run what they held at boot. -/

namespace OscKernel.Mm.InUse

open OscKernel.Lib.Memory OscKernel.Lib.Dyadic OscKernel.Lib.Transition OscKernel.Vm.Tables
  OscKernel.Mm.Frames OscKernel.Mm.Reserve OscKernel.Mm.Pages OscKernel.Mm.Init OscKernel.Mm.Held
  OscKernel.Mm.Chunks OscKernel.Mm.Heap OscKernel.Mm.Callers OscKernel.Mm.Complete
  OscKernel.Mm.Startup OscKernel.Mm.Contents

/-! ### The noted regions -/

/-- The regions cover the ranges, and end well below `2 ^ 64`. -/
structure Noted (rs : List Region) (L : List (ℕ × ℕ)) : Prop where
  covers : ∀ q ∈ L, ∀ x, q.1 ≤ x → x < q.2 → ∃ r ∈ rs, r.start.toNat ≤ x ∧ x < r.stop.toNat
  lt : ∀ r ∈ rs, r.start < r.stop
  stop_le : ∀ r ∈ rs, r.stop.toNat ≤ 2 ^ 64 - 2 ^ 37

section Noted
variable {rs rs' : List Region} {L : List (ℕ × ℕ)} {start size : Word} {q : ℕ × ℕ} {b : Boot}

theorem noted_nil : Noted [] [] := ⟨by simp, by simp, by simp⟩

theorem Noted.skip (h : Noted rs L) (hq : q.2 ≤ q.1) : Noted rs (L ++ [q]) := by
  refine ⟨fun q' hm x h1 h2 => ?_, h.lt, h.stop_le⟩
  rcases List.mem_append.1 hm with hm | hm
  · exact h.covers q' hm x h1 h2
  · obtain rfl := List.mem_singleton.1 hm
    omega

/-- **`early_reserve_add`** notes a range. -/
theorem Noted.add (h : Noted rs L) (hw : start.toNat + size.toNat + 4096 ≤ 2 ^ 64 - 2 ^ 37)
    (hadd : earlyReserveAdd rs start size = some rs') :
    Noted rs' (L ++ [(start.toNat, start.toNat + size.toNat)]) := by
  have hlt := earlyReserveAdd_lt hadd (by omega) h.lt
  unfold earlyReserveAdd at hadd
  split_ifs at hadd with h0 hfull
  · obtain rfl := Option.some.inj hadd
    have hz : size.toNat = 0 := by rw [h0]; rfl
    exact h.skip (by dsimp only; omega)
  · obtain rfl := Option.some.inj hadd
    have hsum : (start + size).toNat = start.toNat + size.toNat := by
      rw [BitVec.toNat_add, Nat.mod_eq_of_lt (by omega)]
    have hdown := alignDown_toNat start
    have hup := alignUp_toNat (a := start + size) (by omega)
    refine ⟨fun q hm x h1 h2 => ?_, hlt, fun r hr => ?_⟩
    · rcases List.mem_append.1 hm with hm | hm
      · obtain ⟨r, hr, hx⟩ := h.covers q hm x h1 h2
        exact ⟨r, List.mem_append_left _ hr, hx⟩
      · obtain rfl := List.mem_singleton.1 hm
        refine ⟨_, List.mem_append_right _ (List.mem_singleton_self _), ?_, ?_⟩
        · dsimp only at h1 ⊢
          omega
        · dsimp only at h2 ⊢
          omega
    · rcases List.mem_append.1 hr with hr | hr
      · exact h.stop_le r hr
      · rw [List.mem_singleton.1 hr]
        dsimp only
        omega

/-- **The regions that `mm_init` notes first** cover the ranges in use. -/
theorem noted_regions (hin : b.initrdEnd.toNat ≤ 2 ^ 38) (h : b.earlyReserved = some rs) :
    Noted rs b.regions := by
  obtain ⟨rs1, h1, h⟩ := Option.bind_eq_some_iff.1 h
  dsimp only at h
  obtain ⟨rs2, h2, h⟩ := Option.bind_eq_some_iff.1 h
  obtain ⟨rs3, h3, h4⟩ := Option.bind_eq_some_iff.1 h
  have hfdt := kernelPtrToPhys_lt b.fdt
  have hend := kernelPtrToPhys_lt b.kernelEnd
  have hsz : (b.fdtTotalsize.setWidth 64).toNat = b.fdtTotalsize.toNat :=
    BitVec.toNat_setWidth_of_le (by decide)
  have hsize := b.fdtTotalsize.isLt
  have hn1 := noted_nil.add (by omega) h1
  rw [hsz] at hn1
  -- the kernel
  have hn2 : Noted rs2 (b.regions.take 2) := by
    split_ifs at h2 with hlt
    · have hle := BitVec.le_of_lt hlt
      have hlen := BitVec.toNat_sub_of_le hle
      rw [BitVec.le_def] at hle
      have hn2 := hn1.add (by omega) h2
      rw [hlen, Nat.add_sub_cancel' hle] at hn2
      exact hn2
    · obtain rfl := Option.some.inj h2
      exact hn1.skip (BitVec.not_lt.1 hlt)
  -- the initramfs
  have hn3 : Noted rs3 (b.regions.take 3) := by
    split_ifs at h3 with hc
    · have hle := BitVec.le_of_lt hc.2.2
      have hlen := BitVec.toNat_sub_of_le hle
      rw [BitVec.le_def] at hle
      have hn3 := hn2.add (by omega) h3
      rw [hlen, Nat.add_sub_cancel' hle] at hn3
      have hq : b.regions.take 3 =
          b.regions.take 2 ++ [(b.initrdStart.toNat, b.initrdEnd.toNat)] := by
        rw [Boot.regions, if_neg hc.1]
        rfl
      rwa [hq]
    · obtain rfl := Option.some.inj h3
      refine hn2.skip ?_
      split
      · exact le_rfl
      next hs =>
        by_cases he : b.initrdEnd = 0
        · rw [he]
          exact Nat.zero_le _
        · exact BitVec.not_lt.1 fun hlt => hc ⟨hs, he, hlt⟩
  exact hn3.add (by decide) h4

end Noted

/-! ### The place of `frame_array` -/

section Place
variable {b : Boot} {st : MmState} {q : ℕ × ℕ} {x : ℕ}

/-- **`frame_array` has no byte of a range in use.** -/
theorem frameArray_apart (hinit : mmInit b = some st)
    (hl : b.managedBase.toNat + b.managedSize.toNat ≤ 2 ^ 38) (hin : b.initrdEnd.toNat ≤ 2 ^ 38)
    (hq : q ∈ b.regions) (h1 : q.1 ≤ x) (h2 : x < q.2) :
    ¬ ((kernelPtrToPhys st.framePtr).toNat ≤ x ∧
      x < (kernelPtrToPhys st.framePtr).toNat + st.frameCount * sizeofPage) := by
  rintro ⟨h3, h4⟩
  obtain ⟨-, -, hm, -, -, hsize, ⟨hp, hp0⟩, -⟩ := left_of_mmInit hinit (hl.trans (by decide))
  have hcount : st.frameCount = b.frameCount := by
    have h5 := hm.size
    have h6 := b.frameCount_mul
    rw [hsize] at h5
    omega
  have hfc := b.frameCount_mul
  have hfs : b.frameArraySize.toNat = b.frameCount * sizeofPage := by
    rw [Boot.frameArraySize, BitVec.toNat_ofNat, Nat.mod_eq_of_lt]
    unfold sizeofPage
    omega
  rw [hcount, ← hfs] at h4
  rw [framePtr_eq] at hp
  obtain ⟨rs, hrs, hp⟩ := Option.bind_eq_some_iff.1 hp
  obtain ⟨⟨range, p'⟩, hfound, hp'⟩ := Option.map_eq_some_iff.1 hp
  obtain ⟨found, hfind, hp⟩ := Option.map_eq_some_iff.1 hfound
  have hn := noted_regions hin hrs
  have hk : (4096 : Word).toNat = 2 ^ 12 := rfl
  have hsize' : b.frameArraySize.toNat + 4096 ≤ 2 ^ 36 := by
    rw [hfs]
    unfold sizeofPage
    omega
  have hbase : (alignUp b.managedBase 4096).toNat ≤ 2 ^ 64 - 2 ^ 37 := by
    have := alignUp_toNat (a := b.managedBase) (by omega)
    omega
  have hw : NoSumWraps rs (startupAllocatorInit b.managedBase (b.managedBase + b.managedSize))
      b.frameArraySize 4096 := .of_le hk hbase hn.stop_le (by omega)
  have hround := alignUp_toNat (a := b.frameArraySize) (by omega)
  obtain ⟨⟨hd, hge⟩, hleast⟩ := isLeast_alignUp hk hw.ptr
  rcases startupFind_spec hk (by omega) hn.lt hd hge (fun a ha => hleast ⟨ha.aligned, ha.ge⟩) hw.loop
    (Nat.lt_succ_of_le (List.length_filter_le ..)) with ⟨a, h5, -, h6, -⟩ | ⟨h5, -⟩
  · rw [h5] at hfind
    obtain rfl := Option.some.inj hfind
    have hptr : st.framePtr = physToVirtAddr a := hp'.symm.trans (congrArg Prod.snd hp).symm
    have hstop : a.toNat < 2 ^ 38 := by
      have h7 := h6.le
      have h8 : (alignDown (b.managedBase + b.managedSize) 4096).toNat ≤ 2 ^ 38 := by
        have := alignDown_toNat (b.managedBase + b.managedSize)
        rw [BitVec.toNat_add, Nat.mod_eq_of_lt (by omega)] at this
        omega
      change _ ≤ (alignDown (b.managedBase + b.managedSize) 4096).toNat at h7
      omega
    rw [hptr, kernelPtrToPhys_physToVirtAddr hstop] at h3 h4
    obtain ⟨r, hr, hx⟩ := hn.covers q hq x h1 h2
    exact h6.free r hr x h3 (by omega) hx
  · rw [h5] at hfind
    obtain rfl := Option.some.inj hfind
    exact hp0 (hp'.symm.trans (congrArg Prod.snd hp).symm)

theorem mmInit_mem (hinit : mmInit b = some st)
    (hl : b.managedBase.toNat + b.managedSize.toNat ≤ 2 ^ 63) : st.mem = b.mem := by
  obtain ⟨rs, hrs, h⟩ := Option.bind_eq_some_iff.1 hinit
  obtain ⟨p, -, h⟩ := Option.bind_eq_some_iff.1 h
  split_ifs at h
  obtain ⟨rs', hrs', h⟩ := Option.bind_eq_some_iff.1 h
  obtain ⟨st1, hcut, hreserve⟩ := Option.bind_eq_some_iff.1 h
  have hfc := b.frameCount_mul
  have hbound := kernelPtrToPhys_lt p
  have hfs : b.frameArraySize.toNat = b.frameCount * sizeofPage := by
    rw [Boot.frameArraySize, BitVec.toNat_ofNat, Nat.mod_eq_of_lt]
    unfold sizeofPage
    omega
  obtain ⟨rs2, L, hrs2, ht, hlen, -⟩ := b.earlyReserved_spec b.managedBase.toNat
    (b.managedBase.toNat + b.managedSize.toNat)
  obtain rfl := Option.some.inj (hrs2.symm.trans hrs)
  obtain ⟨rs3, hrs3, ht3⟩ := ht.add (kernelPtrToPhys p) b.frameArraySize
    (by rw [hlen]; decide) (by rw [hfs]; unfold sizeofPage; omega)
  obtain rfl := Option.some.inj (hrs3.symm.trans hrs')
  obtain ⟨st2, fl, hcut2, hc, hs⟩ := (cutting_start b rs3 p).cut b.frameCount le_rfl
  obtain rfl := Option.some.inj (hcut2.symm.trans hcut)
  have hord := ht3.ordered
  rw [← show st2.managedBase = b.managedBase from hs.managedBase,
    ← show st2.managedSize = b.managedSize from hs.managedSize] at hord
  obtain ⟨st3, fl', h3, hs3, -⟩ := reserveAll_spec hc ((Boot.managed_start hl rs3 p).congr hs) hord
  obtain rfl := Option.some.inj (h3.symm.trans hreserve)
  exact hs3.mem.trans hs.mem

theorem outside_linear (hm : Managed st) (hl : Mapped st) {F : Set ℕ} (hF : ∀ f ∈ F, f < st.frameCount)
    (hx : x < 2 ^ 38) (hn : ∀ f ∈ F, ¬ Touches st.managedBase.toNat f x (x + 1)) :
    Outside .linear st F (physToVirtAddr (BitVec.ofNat 64 x)) := by
  intro f hf
  have hlt := hF f hf
  have hsize := hm.size
  unfold Mapped at hl
  have hxw : (BitVec.ofNat 64 x).toNat = x := by
    rw [BitVec.toNat_ofNat, Nat.mod_eq_of_lt (by omega)]
  have hoff := offset_toNat hm (n := f * 4096) (by omega)
  have hv := physToVirtAddr_toNat (a := BitVec.ofNat 64 x) (by omega)
  have hp := physToVirtAddr_toNat (a := st.managedBase + BitVec.ofNat 64 (f * 4096)) (by omega)
  have hne := hn f hf
  rw [touches_iff (Nat.lt_succ_self x)] at hne
  rw [ptrAt, Pointers.linear_toPtr, BitVec.toNat_sub, hv, hp, hxw, hoff]
  omega

/-- **The free pages have no byte of a range in use.** -/
theorem outside_regions (hinit : mmInit b = some st)
    (hl : b.managedBase.toNat + b.managedSize.toNat ≤ 2 ^ 38) (hin : b.initrdEnd.toNat ≤ 2 ^ 38)
    (hx : x < 2 ^ 38) (hq : (∃ q ∈ b.regions, q.1 ≤ x ∧ x < q.2) ∨ x < b.managedBase.toNat ∨
      b.managedBase.toNat + b.managedSize.toNat ≤ x) :
    Outside .linear st (region st.freeBlocks) (physToVirtAddr (BitVec.ofNat 64 x)) := by
  obtain ⟨fl, F, hm, hc, hb, hs, -, -, hF, -⟩ := left_of_mmInit hinit (hl.trans (by decide))
  have hwrap : b.NoWrap := by
    unfold Boot.NoWrap
    omega
  have hmem : ∀ f, f ∈ region st.freeBlocks ↔ f < st.frameCount ∧ ¬ b.Reserved st f := fun f => by
    rw [hc.area.freeBlocks_eq]
    exact (hc.region f).trans (hF hwrap f)
  have hmapped : Mapped st := by
    unfold Mapped
    rwa [hb, hs]
  refine outside_linear hm hmapped (fun f hf => ((hmem f).1 hf).1) hx fun f hf ht => ?_
  obtain ⟨hlt, hno⟩ := (hmem f).1 hf
  have hsize := hm.size
  obtain ⟨y, h2, h3, h4, h5⟩ := ht
  obtain rfl : y = x := by omega
  rcases hq with ⟨q, hq, h6, h7⟩ | hq
  · exact hno ⟨q, List.mem_append_left _ hq, by omega, y, by omega, by omega, h4, h5⟩
  · rw [hb] at h4 h5
    rw [hs] at hsize
    omega

end Place

/-! ### Runs -/

section Run
variable {b : Boot} {st : MmState} {cs : List Call} {s : Sys} {x : ℕ}

/-- **A run** leaves alone what is in no free page. -/
theorem mem_of_run (hinit : mmInit b = some st)
    (hl : b.managedBase.toNat + b.managedSize.toNat ≤ 2 ^ 38) (hin : b.initrdEnd.toNat ≤ 2 ^ 38)
    (hr : Run (step .linear) (fun _ _ => True) ⟨st, []⟩ cs s) (hx : x < 2 ^ 38)
    (hq : (∃ q ∈ b.regions, q.1 ≤ x ∧ x < q.2) ∨ x < b.managedBase.toNat ∨
      b.managedBase.toNat + b.managedSize.toNat ≤ x) :
    s.mm.mem (physToVirtAddr (BitVec.ofNat 64 x)) = b.mem (physToVirtAddr (BitVec.ofNat 64 x)) := by
  obtain ⟨hinv, hm, hmapped⟩ := inv_of_run hinit hl (.nil _)
  have hout := outside_regions hinit hl hin hx hq
  rw [outside_run hinv (fun n => linear_ptr_ne hm hmapped) hr hout]
  exact congrFun (mmInit_mem hinit (hl.trans (by decide))) _

/-- **What is in use at boot stays as it is.** Take any run of calls on a machine whose managed range and
initramfs lie in the linear mapping. The device tree, the kernel, the initramfs, the region of the user
program and what is outside of the managed range hold what they held at boot, and `frame_array` has no
byte of the former. -/
theorem inUse_of_run (hinit : mmInit b = some st)
    (hl : b.managedBase.toNat + b.managedSize.toNat ≤ 2 ^ 38) (hin : b.initrdEnd.toNat ≤ 2 ^ 38)
    (hr : Run (step .linear) (fun _ _ => True) ⟨st, []⟩ cs s) :
    (∀ q ∈ b.regions, ∀ x, q.1 ≤ x → x < q.2 → x < 2 ^ 38 →
      s.mm.mem (physToVirtAddr (BitVec.ofNat 64 x)) = b.mem (physToVirtAddr (BitVec.ofNat 64 x)) ∧
      ¬ ((kernelPtrToPhys s.mm.framePtr).toNat ≤ x ∧
        x < (kernelPtrToPhys s.mm.framePtr).toNat + s.mm.frameCount * sizeofPage)) ∧
    ∀ x < 2 ^ 38, (x < s.mm.managedBase.toNat ∨ s.mm.managedBase.toNat + s.mm.managedSize.toNat ≤ x) →
      s.mm.mem (physToVirtAddr (BitVec.ofNat 64 x)) =
        b.mem (physToVirtAddr (BitVec.ofNat 64 x)) := by
  obtain ⟨hinv, -, -⟩ := inv_of_run hinit hl hr
  have hplace := hinv.place
  obtain ⟨-, -, -, -, hb, hs, -⟩ := left_of_mmInit hinit (hl.trans (by decide))
  refine ⟨fun q hq x h1 h2 hx => ⟨?_, ?_⟩, fun x hx hout => ?_⟩
  · exact mem_of_run hinit hl hin hr hx (.inl ⟨q, hq, h1, h2⟩)
  · rw [hplace.framePtr, hplace.frameCount]
    exact frameArray_apart hinit hl hin hq h1 h2
  · rw [hplace.managedBase, hplace.managedSize, hb, hs] at hout
    exact mem_of_run hinit hl hin hr hx (.inr hout)

end Run

theorem inUse_of_run_small : ∃ st s, mmInit smallBoot = some st ∧
    Run (step .linear) (fun _ _ => True) ⟨st, []⟩
      [.allocPages 0, .allocate 2000, .write 0xffffffc08000f803 7, .free 0xffffffc08000f800] s ∧
    (∀ q ∈ smallBoot.regions, ∀ x, q.1 ≤ x → x < q.2 → x < 2 ^ 38 →
      s.mm.mem (physToVirtAddr (BitVec.ofNat 64 x)) =
        smallBoot.mem (physToVirtAddr (BitVec.ofNat 64 x)) ∧
      ¬ ((kernelPtrToPhys s.mm.framePtr).toNat ≤ x ∧
        x < (kernelPtrToPhys s.mm.framePtr).toNat + s.mm.frameCount * sizeofPage)) ∧
    ∀ x < 2 ^ 38, (x < s.mm.managedBase.toNat ∨ s.mm.managedBase.toNat + s.mm.managedSize.toNat ≤ x) →
      s.mm.mem (physToVirtAddr (BitVec.ofNat 64 x)) =
        smallBoot.mem (physToVirtAddr (BitVec.ofNat 64 x)) := by
  obtain ⟨st, s, h1, h2, -⟩ := exists_run smallBoot [.allocPages 0, .allocate 2000,
    .write 0xffffffc08000f803 7, .free 0xffffffc08000f800] (fun s => s.live.length) 1
    (by decide +kernel)
  exact ⟨st, s, h1, h2, inUse_of_run h1 (by decide) (by decide) h2⟩

end OscKernel.Mm.InUse
