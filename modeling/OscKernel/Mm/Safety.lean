import OscKernel.Mm.Complete

/-! # Safety of the allocator of lab6

Whatever callers take and give back, what one of them holds is long enough, lies in the managed range,
and has no byte in common with anything else.

* `Safe s l`: what the caller of `l` can rely on.
* `safe_of_run`: it is so after every run. -/

namespace OscKernel.Mm.Safety

open OscKernel.Lib.Memory OscKernel.Lib.Dyadic OscKernel.Lib.Transition OscKernel.Vm.Tables
  OscKernel.Mm.Frames OscKernel.Mm.Reserve OscKernel.Mm.Pages OscKernel.Mm.Init OscKernel.Mm.Held
  OscKernel.Mm.Chunks OscKernel.Mm.Heap OscKernel.Mm.Callers OscKernel.Mm.Complete
open OscKernel.Mm.Coalesce (wideBoot wide_alloc)
open OscKernel.Vm.Setup (linearSize)

/-- The byte at an offset from `managed_base` lies in a range of physical addresses. -/
def InRange (st : MmState) (x lo hi : ℕ) : Prop :=
  lo ≤ st.managedBase.toNat + x ∧ st.managedBase.toNat + x < hi

/-- A pointer that a caller holds leads to enough bytes in the managed range. None of them is in a
block of `free_area`, in a chunk of `chunk_free_list`, in a reserved region or in `frame_array`. -/
structure Safe (s : Sys) (cl : Fin 8 → List ℕ) (l : Live) : Prop where
  ptr : l.ptr = physToVirtAddr (s.mm.managedBase + BitVec.ofNat 64 l.extent.offset)
  long : l.requested ≤ l.extent.length
  within : l.extent.offset + l.extent.length ≤ s.mm.managedSize.toNat
  freeArea : ∀ blk ∈ s.mm.freeBlocks, ∀ x, l.extent.Has x → ¬ (Extent.pages blk).Has x
  freeChunks : ∀ i, ∀ n ∈ cl i, ∀ x, l.extent.Has x → ¬ (Extent.chunk i n).Has x
  reserved : ∀ r ∈ s.mm.earlyReserved, ∀ x, l.extent.Has x →
    ¬ InRange s.mm x r.start.toNat r.stop.toNat
  frameArray : ∀ x, l.extent.Has x → ¬ InRange s.mm x (kernelPtrToPhys s.mm.framePtr).toNat
    ((kernelPtrToPhys s.mm.framePtr).toNat + s.mm.frameCount * sizeofPage)

theorem touches_of_inRange {st : MmState} {x lo hi : ℕ} (h : InRange st x lo hi) :
    Touches st.managedBase.toNat (x / 4096) lo hi :=
  ⟨st.managedBase.toNat + x, h.1, h.2, by omega, by omega⟩

section Run
variable {b : Boot} {st : MmState} {cs : List Call} {s : Sys}

/-- **Allocations are safe.** After every run of calls on a machine whose managed range lies in the
linear mapping, whatever is held is safe, and no two of the held extents have a byte in common. The
calls always return, `allocate` at least if the managed range ends within the first 10 GiB. -/
theorem safe_of_run (hinit : mmInit b = some st)
    (hl : b.managedBase.toNat + b.managedSize.toNat ≤ 2 ^ 38)
    (hr : Run (step .linear) (fun _ _ => True) ⟨st, []⟩ cs s) :
    (∃ cl, ChunkLists .linear s.mm cl ∧ ∀ l ∈ s.live, Safe s cl l) ∧
      (s.live.Pairwise fun l l' => ∀ x, l.extent.Has x → ¬ l'.extent.Has x) ∧
      (∀ order, (step .linear s (.allocPages order)).isSome) ∧
      (b.managedBase.toNat + b.managedSize.toNat ≤ linearSize →
        ∀ size, (step .linear s (.allocate size)).isSome) ∧
      ∀ l ∈ s.live, (step .linear s (giveBack l)).isSome := by
  obtain ⟨hinv, -, -⟩ := inv_of_run hinit hl hr
  obtain ⟨fl, cp, cl, h⟩ := hinv.shared
  have howner : ∀ l ∈ s.live, Owner cl (s.live.map Live.extent) l.extent :=
    fun l hl => .inl (List.mem_map.2 ⟨l, hl, rfl⟩)
  obtain ⟨hpages, hbytes, hback⟩ := hinv.progress
  refine ⟨⟨cl, h.lists, fun l hlive => ?_⟩, ?_, hpages,
    fun hten => hbytes fun n => linear_ptr_mapped hinit hten, hback⟩
  · have hstands := hinv.stands l hlive
    have hplace := hinv.place
    -- the page of a byte that is held was free after `mm_init`
    have hframe : ∀ x, l.extent.Has x → x / 4096 ∈ region st.freeBlocks ∧
        x / 4096 ∉ region (blocks fl) := by
      intro x hx
      obtain ⟨blk, hb, hcov⟩ := h.held_of_has (howner l hlive) hx
      exact ⟨h.holding.within blk hb _ hcov, h.holding.notFree hb hcov⟩
    refine ⟨?_, hstands.requested_le, ?_, fun blk hblk x hx hx' => ?_, fun i n hn x hx hx' => ?_,
      fun r hr x hx hin => ?_, fun x hx hin => ?_⟩
    · rw [hstands.ptr, ← hinv.ptr_eq, ptrAt, Pointers.linear_toPtr]
    · have h1 := l.extent.length_pos
      have := h.has_lt (howner l hlive) (x := l.extent.offset + l.extent.length - 1)
        ⟨by omega, by omega⟩
      omega
    · rw [h.holding.coalesced.area.freeBlocks_eq] at hblk
      exact (hframe x hx).2 ⟨blk, hblk, Extent.pages_has.1 hx'⟩
    · have heq := h.eq_of_has (howner l hlive) (.inr ⟨i, n, hn, rfl⟩) hx hx'
      exact h.notFree i n hn (List.mem_map.2 ⟨l, hlive, heq⟩)
    · rw [hplace.earlyReserved] at hr
      have ht := touches_of_inRange hin
      rw [hplace.managedBase] at ht
      exact (reserved_of_mmInit hinit hl (hframe x hx).1).1 r hr ht
    · have ht := touches_of_inRange hin
      rw [hplace.managedBase, hplace.framePtr, hplace.frameCount] at ht
      exact (reserved_of_mmInit hinit hl (hframe x hx).1).2 ht
  · refine (List.pairwise_map.1 h.live_nodup).imp_of_mem fun {l l'} hm hm' hne x hx hx' => ?_
    exact hne (h.eq_of_has (howner l hm) (howner l' hm') hx hx')

end Run

theorem safe_of_run_small : ∃ st s, mmInit smallBoot = some st ∧
    Run (step .linear) (fun _ _ => True) ⟨st, []⟩
      [.allocPages 0, .allocate 2000, .write 0xffffffc08000f803 7, .allocate 3000,
        .freePages 0xffffffc080002000] s ∧
    (∃ cl, ChunkLists .linear s.mm cl ∧ ∀ l ∈ s.live, Safe s cl l) ∧
      (s.live.Pairwise fun l l' => ∀ x, l.extent.Has x → ¬ l'.extent.Has x) ∧
      (∀ order, (step .linear s (.allocPages order)).isSome) ∧
      (smallBoot.managedBase.toNat + smallBoot.managedSize.toNat ≤ linearSize →
        ∀ size, (step .linear s (.allocate size)).isSome) ∧
      ∀ l ∈ s.live, (step .linear s (giveBack l)).isSome := by
  obtain ⟨st, s, h1, h2, -⟩ := exists_run smallBoot [.allocPages 0, .allocate 2000,
    .write 0xffffffc08000f803 7, .allocate 3000, .freePages 0xffffffc080002000]
    (fun s => s.live.map Live.ptr) [0xffffffc080005000, 0xffffffc08000f800] (by decide +kernel)
  exact ⟨st, s, h1, h2, safe_of_run h1 (by decide) h2⟩

/-- **Beyond the linear mapping** the pointer to a block wraps, and leads out of the managed range. -/
theorem not_safe_wide : ∃ st mm, mmInit wideBoot = some st ∧
    allocPages .linear 0 st = some (0x2000, mm) ∧
    ¬ mm.addrInManagedRange (kernelPtrToPhys 0x2000) := by
  obtain ⟨st, mm, h1, h2, -, -, hb, -⟩ := wide_alloc (Nat.zero_le 1)
  refine ⟨st, mm, h1, h2, fun h => ?_⟩
  have hlow := h.1
  rw [hb] at hlow
  exact absurd hlow (by decide)

end OscKernel.Mm.Safety
