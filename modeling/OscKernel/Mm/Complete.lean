import OscKernel.Mm.Callers
import OscKernel.Mm.Coalesce

/-! # Allocation in lab6

In every state that callers can bring about, `alloc_pages` finds free frames in a row if there are
any, and takes them from a free block of the least sufficient order. A call that fails changes
nothing.

* `inv_of_run`: the frames are shared out after every run.
* `alloc_complete`: what the two functions return, and when. -/

namespace OscKernel.Mm.Complete

open OscKernel.Lib.Memory OscKernel.Lib.Dyadic OscKernel.Lib.Transition OscKernel.Vm.Tables
  OscKernel.Mm.Frames OscKernel.Mm.Reserve OscKernel.Mm.Pages OscKernel.Mm.Init OscKernel.Mm.Held
  OscKernel.Mm.Chunks OscKernel.Mm.Heap OscKernel.Mm.Callers OscKernel.Mm.Tags
open OscKernel.Mm.Coalesce (wideBoot wide_alloc)
open OscKernel.Vm.Setup (linearSize)

section Linear
variable {b : Boot} {st : MmState} {cs : List Call} {s : Sys}

theorem linear_ptr_ne (hm : Managed st) (hl : Mapped st) {n : ℕ} (hn : n < st.managedSize.toNat) :
    ptrAt .linear st n ≠ 0 := by
  have h := offset_toNat hm hn
  unfold Mapped at hl
  rw [ptrAt, Pointers.linear_toPtr]
  exact physToVirtAddr_ne_zero (by omega)

theorem mapped_of_place {st' : MmState} (hl : Mapped st) (hp : SamePlace st st') : Mapped st' := by
  unfold Mapped at *
  rwa [hp.managedBase, hp.managedSize]

/-- **The linear mapping translates** the pointers into the managed range. -/
theorem translates_linear (hm : Managed st) (hl : Mapped st) : Translates .linear st := by
  refine ⟨⟨kernelVaOffset, fun a => ?_⟩, fun n hn => ?_, fun n hn h0 => ?_⟩
  · rw [Pointers.linear_toPtr, physToVirtAddr]
  · have h := offset_toNat hm hn
    unfold Mapped at hl
    rw [ptrAt, Pointers.linear_toPtr, Pointers.linear_toPhys, kernelPtrToPhys_physToVirtAddr (by omega)]
  · exact absurd h0 (linear_ptr_ne hm hl hn)

theorem linear_ptr_mapped (hinit : mmInit b = some st)
    (hl : b.managedBase.toNat + b.managedSize.toNat ≤ linearSize) {n : ℕ}
    (hn : n < st.managedSize.toNat) : Pointers.linear.mapped (ptrAt .linear st n) := by
  obtain ⟨fl, F, hm, -, hb, hs, -⟩ := left_of_mmInit hinit (hl.trans (by decide))
  have h := offset_toNat hm hn
  rw [Pointers.linear_mapped, ptrAt, Pointers.linear_toPtr, virtToPhysAddr, physToVirtAddr,
    BitVec.add_sub_cancel, h]
  rw [hs] at hn
  rw [hb]
  omega

/-- **After every run** from `mm_init` on, the frames are shared out, and those that have a pool are
the pages that were cut up. -/
theorem invAt_of_run (hinit : mmInit b = some st)
    (hl : b.managedBase.toNat + b.managedSize.toNat ≤ 2 ^ 38)
    (hr : Run (step .linear) (fun _ _ => True) ⟨st, []⟩ cs s) :
    (∃ cp, InvAt .linear (region st.freeBlocks) st s cp ∧ Tagged s.mm cp) ∧ Managed st ∧ Mapped st := by
  obtain ⟨fl, F, hm, hc, hb, hs, -, hchunks, -⟩ := left_of_mmInit hinit (hl.trans (by decide))
  have hmapped : Mapped st := by
    unfold Mapped
    rwa [hb, hs]
  have h0 := invAt_init hc hm hchunks (translates_linear hm hmapped)
  refine ⟨hr.invariant (I := fun s => ∃ cp, InvAt .linear (region st.freeBlocks) st s cp ∧
    Tagged s.mm cp) ?_ ⟨[], h0, fun f => .inl (chunkPool_of_mmInit hinit f)⟩, hm, hmapped⟩
  rintro s c s' ⟨cp, hi, ht⟩ - hs
  obtain ⟨cp', hi', ht'⟩ := hi.step (hi.inv.not_loses fun n => linear_ptr_ne hm hmapped) hs
  exact ⟨cp', hi', ht' ht⟩

theorem inv_of_run (hinit : mmInit b = some st)
    (hl : b.managedBase.toNat + b.managedSize.toNat ≤ 2 ^ 38)
    (hr : Run (step .linear) (fun _ _ => True) ⟨st, []⟩ cs s) :
    Inv .linear (region st.freeBlocks) st s ∧ Managed st ∧ Mapped st := by
  obtain ⟨⟨cp, hi, -⟩, hm, hmapped⟩ := invAt_of_run hinit hl hr
  exact ⟨hi.inv, hm, hmapped⟩

/-- The frames that `mm_init` leaves free are in no reserved region, and `frame_array` is not
there. -/
theorem reserved_of_mmInit (hinit : mmInit b = some st)
    (hl : b.managedBase.toNat + b.managedSize.toNat ≤ 2 ^ 38) {f : ℕ}
    (hf : f ∈ region st.freeBlocks) :
    (∀ r ∈ st.earlyReserved, ¬ Touches st.managedBase.toNat f r.start.toNat r.stop.toNat) ∧
      ¬ Touches st.managedBase.toNat f (kernelPtrToPhys st.framePtr).toNat
        ((kernelPtrToPhys st.framePtr).toNat + st.frameCount * sizeofPage) := by
  obtain ⟨fl, F, -, hc, -, -, -, -, -, hres, harray⟩ := left_of_mmInit hinit (hl.trans (by decide))
  rw [hc.area.freeBlocks_eq, hc.region] at hf
  exact ⟨fun r hr ht => ((hres f).1 hf).2 ⟨r, hr, ht⟩, harray f hf⟩

end Linear

/-- Some `2 ^ order` free frames in a row start at a multiple of `2 ^ order`. -/
def HasRun (st : MmState) (order : ℕ) : Prop :=
  ∃ idx, (⟨idx, order⟩ : Block).Aligned ∧
    ∀ f, (⟨idx, order⟩ : Block).Covers f → f ∈ region st.freeBlocks

/-- The block `blk` was taken: it is part of a free block of the least sufficient order, and the free
frames are fewer by its own. -/
structure Taken (st st' : MmState) (blk : Block) : Prop where
  aligned : blk.Aligned
  source : ∃ whole ∈ st.freeBlocks, blk.order ≤ whole.order ∧ (∀ f, blk.Covers f → whole.Covers f) ∧
    ∀ other ∈ st.freeBlocks, blk.order ≤ other.order → whole.order ≤ other.order
  left : region st'.freeBlocks = region st.freeBlocks \ {f | blk.Covers f}

section Taken
variable {k : Pointers} {F0 : Set ℕ} {st st' : MmState} {fl : ℕ → List ℕ} {cp : List (ℕ × Fin 8)}
  {cl : Fin 8 → List ℕ} {live : List Extent} {order : ℕ} {p : Word}

/-- **`alloc_pages` fails** only if there are no free frames in a row. -/
theorem hasRun_of_failed (h : Shared k F0 st fl cp cl live)
    (hn : ∀ blk ∈ blocks fl, blk.order < order) :
    maxOrder < order ∨ ¬ HasRun st order := by
  refine or_iff_not_imp_left.2 fun ho ⟨idx, ha, hf⟩ => ?_
  rw [h.holding.coalesced.area.freeBlocks_eq] at hf
  obtain ⟨blk, hblk, hle⟩ := h.holding.exists_block (not_lt.1 ho) ha hf
  exact absurd (hn blk hblk) (not_lt.2 hle)

theorem taken_of_firstFit {fl' : ℕ → List ℕ} {idx current : ℕ} (h : Shared k F0 st fl cp cl live)
    (first : FirstFit fl order idx current) (aligned : (⟨idx, order⟩ : Block).Aligned)
    (left : ∀ f, f ∈ region (blocks fl') ↔
      f ∈ region (blocks fl) ∧ ¬ (⟨idx, order⟩ : Block).Covers f) (area : FreeArea st' fl') :
    Taken st st' ⟨idx, order⟩ := by
  have harea := h.holding.coalesced.area
  have hmem : (⟨idx, current⟩ : Block) ∈ st.freeBlocks := by
    rw [harea.freeBlocks_eq]
    exact ⟨first.le_max, List.mem_of_mem_head? first.head⟩
  refine ⟨aligned, ⟨_, hmem, first.order_le, fun f hf => ⟨hf.1, ?_⟩, fun other ho hle => ?_⟩, ?_⟩
  · exact lt_of_lt_of_le hf.2
      (Nat.add_le_add_left (Nat.pow_le_pow_right (by omega) first.order_le) idx)
  · rw [harea.freeBlocks_eq] at ho
    by_contra hlt
    have := ho.2
    rw [first.below _ hle (not_le.1 hlt)] at this
    cases this
  · rw [area.freeBlocks_eq, harea.freeBlocks_eq]
    exact Set.ext left

end Taken

/-- What a call of `alloc_pages` returns in the state `st`, and what it leaves. -/
structure PagesCall (st : MmState) (order : ℕ) (p : Word) (st' : MmState) : Prop where
  null_iff : p = 0 ↔ maxOrder < order ∨ ¬ HasRun st order
  unchanged : p = 0 → st' = st
  taken : p ≠ 0 → ∃ idx, p = physToVirtAddr (st.frameAddr idx) ∧ kernelVaOffset ≤ p ∧
    Taken st st' ⟨idx, order⟩

/-- What a call of `allocate` returns in the state `st` when it fails. -/
structure BytesCall (st : MmState) (size p : Word) (st' : MmState) : Prop where
  null_iff : p = 0 ↔ size = 0 ∨ maxAllocSize < size ∨
    (∃ i, findPool size = some i ∧ st.chunkFreeList i = 0 ∧ ¬ HasRun st 0) ∨
    (findPool size = none ∧ ¬ HasRun st (sizeToOrder size))
  unchanged : p = 0 → st' = st

section Calls
variable {F0 : Set ℕ} {st0 st st' : MmState} {fl : ℕ → List ℕ} {cp : List (ℕ × Fin 8)}
  {cl : Fin 8 → List ℕ} {live : List Extent} {order : ℕ} {p size : Word}

theorem pagesCall (h : Shared .linear F0 st fl cp cl live) (hl : Mapped st)
    (ht : PagesTaken .linear F0 st fl cp cl live order p st') : PagesCall st order p st' := by
  have hm := h.holding.managed
  have harea := h.holding.coalesced.area
  cases ht with
  | failed hn =>
    exact ⟨iff_of_true rfl (hasRun_of_failed h hn), fun _ => rfl, fun hne => absurd rfl hne⟩
  | @taken _ fl' idx current first aligned free left area changed same shared =>
    have hlt := harea.index_lt first.le_max (List.mem_of_mem_head? first.head)
    have hne : ptrAt .linear st (idx * 4096) ≠ 0 :=
      linear_ptr_ne hm hl (by rw [hm.size]; omega)
    have hrun : HasRun st order := ⟨idx, aligned, fun f hf => harea.freeBlocks_eq ▸ free f hf⟩
    refine ⟨iff_of_false hne ?_, fun h0 => absurd h0 hne, fun _ => ⟨idx, ?_, ?_,
      taken_of_firstFit h first aligned left area⟩⟩
    · rintro (hgt | hn)
      · exact absurd (first.order_le.trans first.le_max) (not_le.2 hgt)
      · exact hn hrun
    · rw [ptrAt_page, Pointers.linear_toPtr]
    · have := physToVirtAddr_toNat (frameAddr_lt hm hl hlt)
      rw [ptrAt_page, Pointers.linear_toPtr, BitVec.le_def, this, kernelVaOffset_toNat]
      exact Nat.le_add_left _ _

theorem bytesCall (h : Shared .linear F0 st fl cp cl live) (hl : Mapped st)
    (ht : Served .linear F0 st fl cp cl live size p st') : BytesCall st size p st' := by
  cases ht with
  | refused hr => exact ⟨iff_of_true rfl (hr.imp_right .inl), fun _ => rfl⟩
  | @chunk i _ _ size_ne le pool fits taken =>
    have hmax : ¬ maxAllocSize < size := BitVec.not_lt.2 (BitVec.le_trans le (by decide))
    -- the call fails only if the pool is empty and there is no page for it
    have hright : (size = 0 ∨ maxAllocSize < size ∨
        (∃ i, findPool size = some i ∧ st.chunkFreeList i = 0 ∧ ¬ HasRun st 0) ∨
        (findPool size = none ∧ ¬ HasRun st (sizeToOrder size))) ↔ cl i = [] ∧ ¬ HasRun st 0 := by
      rw [pool, or_iff_right size_ne, or_iff_right hmax, ← h.lists.head_eq]
      simp only [Option.some.injEq, exists_eq_left', reduceCtorEq, false_and, or_false]
    refine ⟨(?_ : p = 0 ↔ cl i = [] ∧ ¬ HasRun st 0).trans hright.symm, ?_⟩
    · cases taken with
      | @first _ n l list same shared =>
        refine iff_of_false (h.head_ne list) fun hn => ?_
        rw [list] at hn
        cases hn.1
      | empty list page =>
        exact iff_of_true rfl ⟨list, ((pagesCall h hl page).null_iff.1 rfl).resolve_left (by decide)⟩
      | @refilled _ _ _ n _ _ _ list taken page_ne shared same =>
        have hne : ptrAt .linear st n ≠ 0 := by
          rw [← ptrAt_congr same.managedBase]
          exact shared.chunk_ne
        exact iff_of_false hne fun hn => page_ne ((pagesCall h hl taken).null_iff.2 (.inr hn.2))
    · intro h0
      cases taken with
      | first list => exact absurd h0 (h.head_ne list)
      | empty list page => exact (pagesCall h hl page).unchanged rfl
      | refilled list taken page_ne shared same =>
        rw [← ptrAt_congr same.managedBase] at h0
        exact absurd h0 shared.chunk_ne
  | pages gt le pool fits taken =>
    have hcall := pagesCall h hl taken
    have h0 : size ≠ 0 := fun h0 => gt (h0 ▸ by decide)
    have hord : ¬ maxOrder < sizeToOrder size := not_lt.2 (sizeToOrder_spec (BitVec.not_lt.1 le)).1
    refine ⟨hcall.null_iff.trans ?_, hcall.unchanged⟩
    rw [pool, or_iff_right hord, or_iff_right h0, or_iff_right le]
    simp only [reduceCtorEq, false_and, exists_false, false_or, true_and]

end Calls

/-- **Allocation is complete, exact and atomic.** In every state that the calls can bring about,
`alloc_pages` returns the null pointer exactly when the order is too large or there are no free frames
in a row, and then nothing changes; otherwise it returns the pointer to an aligned block of free
frames, part of a free block of the least sufficient order, and the free frames are fewer by these.
`allocate` fails only if the size is `0` or too large, or if the block that it needs is not there, and
then nothing changes; it does not return when it cuts up a page that is not mapped, which none is
beyond 10 GiB. -/
theorem alloc_complete {b : Boot} {st : MmState} {cs : List Call} {s : Sys}
    (hinit : mmInit b = some st) (hl : b.managedBase.toNat + b.managedSize.toNat ≤ 2 ^ 38)
    (hr : Run (step .linear) (fun _ _ => True) ⟨st, []⟩ cs s) :
    (∀ order, ∃ p mm, allocPages .linear order s.mm = some (p, mm) ∧ PagesCall s.mm order p mm) ∧
      (∀ size p mm, allocate .linear size s.mm = some (p, mm) → BytesCall s.mm size p mm) ∧
      (b.managedBase.toNat + b.managedSize.toNat ≤ linearSize →
        ∀ size, (allocate .linear size s.mm).isSome) := by
  obtain ⟨hinv, hm, hmapped⟩ := inv_of_run hinit hl hr
  obtain ⟨fl, cp, cl, h⟩ := hinv.shared
  have hmapped' := mapped_of_place hmapped hinv.place
  refine ⟨fun order => ?_, fun size p mm hk => bytesCall h hmapped' (h.allocate hk),
    fun hten size => h.allocate_isSome size fun n hn => ?_⟩
  · obtain ⟨p, mm, h1, h2⟩ := h.allocPages order
    exact ⟨p, mm, h1, pagesCall h hmapped' h2⟩
  · rw [hinv.ptr_eq]
    exact linear_ptr_mapped hinit hten (hinv.place.managedSize ▸ hn)

theorem exists_run {β : Type*} (b : Boot) (cs : List Call) (view : Sys → β) (v : β)
    (h : (mmInit b).bind (fun st =>
      (exec (step .linear) (fun _ _ => true) ⟨st, []⟩ cs).map view) = some v) :
    ∃ st s, mmInit b = some st ∧ Run (step .linear) (fun _ _ => True) ⟨st, []⟩ cs s ∧
      view s = v := by
  obtain ⟨st, hst, h⟩ := Option.bind_eq_some_iff.1 h
  obtain ⟨s, hr, hv⟩ := Run.exists_of_exec (fun _ _ _ => trivial) h
  exact ⟨st, s, hst, hr, hv⟩

theorem alloc_complete_small : ∃ st s, mmInit smallBoot = some st ∧
    Run (step .linear) (fun _ _ => True) ⟨st, []⟩ [.allocPages 0, .allocate 2000,
      .write 0xffffffc08000f803 7, .free 0xffffffc08000f800, .freePages 0xffffffc080002000] s ∧
    (∀ order, ∃ p mm, allocPages .linear order s.mm = some (p, mm) ∧ PagesCall s.mm order p mm) ∧
      (∀ size p mm, allocate .linear size s.mm = some (p, mm) → BytesCall s.mm size p mm) ∧
      (smallBoot.managedBase.toNat + smallBoot.managedSize.toNat ≤ linearSize →
        ∀ size, (allocate .linear size s.mm).isSome) := by
  obtain ⟨st, s, h1, h2, -⟩ := exists_run smallBoot [.allocPages 0, .allocate 2000,
    .write 0xffffffc08000f803 7, .free 0xffffffc08000f800, .freePages 0xffffffc080002000]
    (fun s => s.live.length) 0 (by decide +kernel)
  exact ⟨st, s, h1, h2, alloc_complete h1 (by decide) h2⟩

/-- **Beyond the linear mapping** the pointer to a free block wraps to the null pointer: `alloc_pages`
returns it, although there are two free pages in a row, and they are gone. -/
theorem not_complete_wide : ∃ st mm, mmInit wideBoot = some st ∧
    allocPages .linear 1 st = some (0, mm) ∧ HasRun st 1 ∧ mm ≠ st := by
  obtain ⟨st, mm, h1, h2, hmem, hnot, -⟩ := wide_alloc le_rfl
  exact ⟨st, mm, h1, h2, ⟨_, ⟨33423360, rfl⟩, fun f hf => ⟨_, hmem, hf⟩⟩,
    fun he => hnot (he ▸ hmem)⟩

end OscKernel.Mm.Complete
