import OscKernel.Lib.Transition
import OscKernel.Mm.Init
import OscKernel.Mm.Pages

/-! # Calls of the page allocator of lab6

The callers of `alloc_pages` and `free_pages`: a caller frees only what it holds.

* `Pages F0 st fl held`: of the frames `F0`, those in no held block are free, and the free lists hold
  them without buddies.
* `Pages.alloc`, `Pages.free`: what the calls do.
* `coalesced_of_run`: after any sequence of calls the free blocks are the maximal blocks of free
  frames. -/

namespace OscKernel.Mm.Coalesce

open OscKernel.Lib.Memory OscKernel.Lib.Dyadic OscKernel.Lib.Transition OscKernel.Vm.Tables
  OscKernel.Mm.Frames OscKernel.Mm.Reserve OscKernel.Mm.Pages OscKernel.Mm.Init

/-- The block that a pointer from `alloc_pages` and its order stand for. -/
def heldBlock (st : MmState) (q : Word × ℕ) : Block :=
  ⟨st.addrToFrameIndex (kernelPtrToPhys q.1), q.2⟩

/-- Of the frames `F0`, the held blocks are in use and the others free. -/
structure Pages (F0 : Set ℕ) (st : MmState) (fl : ℕ → List ℕ) (held : List (Word × ℕ)) : Prop where
  managed : Managed st
  mapped : Mapped st
  lt : ∀ f ∈ F0, f < st.frameCount
  coalesced : Coalesced st fl {f | f ∈ F0 ∧ ∀ q ∈ held, ¬ (heldBlock st q).Covers f}
  ptr : ∀ q ∈ held, q.1 = physToVirtAddr (st.frameAddr (heldBlock st q).index)
  order_le : ∀ q ∈ held, q.2 ≤ maxOrder
  aligned : ∀ q ∈ held, (heldBlock st q).Aligned
  within : ∀ q ∈ held, ∀ f, (heldBlock st q).Covers f → f ∈ F0
  order : ∀ q ∈ held, (st.frameArray (heldBlock st q).index).order = q.2
  nodup : held.Nodup
  disjoint : ∀ q ∈ held, ∀ q' ∈ held, ∀ f, (heldBlock st q).Covers f →
    (heldBlock st q').Covers f → q = q'

section Pages
variable {F0 : Set ℕ} {st st' : MmState} {fl : ℕ → List ℕ} {held : List (Word × ℕ)} {q : Word × ℕ}
  {idx : ℕ}

theorem heldBlock_congr (hs : SameRange st st') (q : Word × ℕ) :
    heldBlock st' q = heldBlock st q := by
  unfold heldBlock MmState.addrToFrameIndex
  rw [hs.managedBase]

theorem heldBlock_ptr (hm : Managed st) (hl : Mapped st) (hi : idx < st.frameCount) (order : ℕ) :
    heldBlock st (physToVirtAddr (st.frameAddr idx), order) = ⟨idx, order⟩ := by
  rw [heldBlock, kernelPtrToPhys_physToVirtAddr (frameAddr_lt hm hl hi),
    addrToFrameIndex_frameAddr hm hi]

/-- **A call of `alloc_pages`** returns the null pointer, or a block that is held from then on. -/
theorem Pages.alloc (h : Pages F0 st fl held) (order : ℕ) :
    ∃ p st', allocPages .linear order st = some (p, st') ∧ SameRange st st' ∧
      (p = 0 ∧ st' = st ∨ p ≠ 0 ∧ ∃ fl', Pages F0 st' fl' ((p, order) :: held) ∧
        st'.frameArray (heldBlock st (p, order)).index = ⟨order, .used, false, 0, -1⟩ ∧
        ∀ q ∈ held, st'.frameArray (heldBlock st q).index =
          st.frameArray (heldBlock st q).index) := by
  obtain ⟨p, st', h1, h2⟩ := allocPages_spec .linear h.coalesced order
  refine ⟨p, st', h1, ?_⟩
  cases h2 with
  | failed => exact ⟨.refl st, .inl ⟨rfl, rfl⟩⟩
  | @taken st' fl' idx current first ha hfree hc hs hpage hothers =>
    have ho := first.order_le.trans first.le_max
    rw [Pointers.linear_toPtr]
    have hidx := (hfree idx (Block.covers_index _)).1
    have hi := h.lt idx hidx
    have hblk : heldBlock st (physToVirtAddr (st.frameAddr idx), order) = ⟨idx, order⟩ :=
      heldBlock_ptr h.managed h.mapped hi order
    -- the metadata of the held blocks stays
    have hkeep : ∀ q ∈ held, st'.frameArray (heldBlock st q).index =
        st.frameArray (heldBlock st q).index := fun q hq =>
      hothers _ fun hf => hf.2 q hq (Block.covers_index _)
    have hmapped : Mapped st' := by
      have := h.mapped
      unfold Mapped at *
      rwa [hs.managedBase, hs.managedSize]
    have hnew : ((physToVirtAddr (st.frameAddr idx), order) :: held).Nodup := by
      refine List.nodup_cons.2 ⟨fun hm => ?_, h.nodup⟩
      refine (hfree idx (Block.covers_index _)).2 _ hm ?_
      rw [hblk]
      exact Block.covers_index _
    refine ⟨hs, .inr ⟨physToVirtAddr_ne_zero (frameAddr_lt h.managed h.mapped hi), fl', ?_, ?_,
      hkeep⟩⟩
    · refine ⟨h.managed.congr hs, hmapped, fun f hf => (h.lt f hf).trans_eq hs.frameCount.symm,
        hc.congr fun f => ?_, List.forall_mem_cons.2 ⟨?_, fun q hq => ?_⟩,
        List.forall_mem_cons.2 ⟨ho, h.order_le⟩, List.forall_mem_cons.2 ⟨?_, fun q hq => ?_⟩,
        List.forall_mem_cons.2 ⟨?_, fun q hq => ?_⟩, List.forall_mem_cons.2 ⟨?_, fun q hq => ?_⟩,
        hnew, ?_⟩
      · simp only [heldBlock_congr hs, Set.mem_ofPred_eq, List.forall_mem_cons, hblk, and_assoc]
        exact and_congr_right fun _ => and_comm
      · simp only [heldBlock_congr hs, hblk, frameAddr_congr hs]
      · rw [heldBlock_congr hs, frameAddr_congr hs]
        exact h.ptr q hq
      · rw [heldBlock_congr hs, hblk]
        exact ha
      · rw [heldBlock_congr hs]
        exact h.aligned q hq
      · rw [heldBlock_congr hs, hblk]
        exact fun f hf => (hfree f hf).1
      · rw [heldBlock_congr hs]
        exact h.within q hq
      · rw [heldBlock_congr hs, hblk, hpage]
      · rw [heldBlock_congr hs, hkeep q hq]
        exact h.order q hq
      · simp only [heldBlock_congr hs]
        intro a ham b hbm f hfa hfb
        rcases List.mem_cons.1 ham with rfl | ham <;> rcases List.mem_cons.1 hbm with rfl | hbm
        · rfl
        · rw [hblk] at hfa
          exact absurd hfb ((hfree f hfa).2 b hbm)
        · rw [hblk] at hfb
          exact absurd hfa ((hfree f hfb).2 a ham)
        · exact h.disjoint a ham b hbm f hfa hfb
    · rw [hblk]
      exact hpage

/-- **A call of `free_pages`** with a held block. -/
theorem Pages.free (h : Pages F0 st fl held) (hq : q ∈ held) :
    ∃ st' fl', freePages .linear q.1 st = some st' ∧ SameRange st st' ∧ Pages F0 st' fl' (held.erase q) ∧
      ∀ q' ∈ held.erase q, st'.frameArray (heldBlock st q').index =
        st.frameArray (heldBlock st q').index := by
  have hmem : ∀ {q'}, q' ∈ held.erase q ↔ q' ≠ q ∧ q' ∈ held := h.nodup.mem_erase_iff
  obtain ⟨st', fl', h1, hc, hs, hothers⟩ := freePages_linear h.coalesced h.managed h.mapped
    (h.order_le q hq) (h.aligned q hq)
    (fun f hf => ⟨fun hf' => hf'.2 q hq hf, h.lt f (h.within q hq f hf)⟩) (h.order q hq)
  have hcall : freePages .linear q.1 st = some st' := by
    rw [h.ptr q hq]
    exact h1
  have hkeep : ∀ q' ∈ held.erase q, st'.frameArray (heldBlock st q').index =
      st.frameArray (heldBlock st q').index := by
    intro q' hq'
    obtain ⟨hne, hq'⟩ := hmem.1 hq'
    refine hothers _ (fun hf => hf.2 q' hq' (Block.covers_index _)) fun hcov => hne ?_
    exact h.disjoint q' hq' q hq _ (Block.covers_index _) hcov
  have hmapped : Mapped st' := by
    have := h.mapped
    unfold Mapped at *
    rwa [hs.managedBase, hs.managedSize]
  refine ⟨st', fl', hcall, hs, ⟨h.managed.congr hs, hmapped,
    fun f hf => (h.lt f hf).trans_eq hs.frameCount.symm, hc.congr fun f => ?_, ?_, ?_, ?_, ?_, ?_,
    h.nodup.erase q, ?_⟩, hkeep⟩
  · simp only [heldBlock_congr hs, Set.mem_ofPred_eq]
    constructor
    · rintro (⟨hf, hn⟩ | hf)
      · exact ⟨hf, fun q' hq' => hn q' (hmem.1 hq').2⟩
      · refine ⟨h.within q hq f hf, fun q' hq' hf' => (hmem.1 hq').1 ?_⟩
        exact h.disjoint q' (hmem.1 hq').2 q hq f hf' hf
    · rintro ⟨hf, hn⟩
      by_cases hcov : (heldBlock st q).Covers f
      · exact .inr hcov
      · refine .inl ⟨hf, fun q' hq' hf' => ?_⟩
        rcases eq_or_ne q' q with rfl | hne
        · exact hcov hf'
        · exact hn q' (hmem.2 ⟨hne, hq'⟩) hf'
  · intro q' hq'
    rw [heldBlock_congr hs, frameAddr_congr hs]
    exact h.ptr q' (hmem.1 hq').2
  · exact fun q' hq' => h.order_le q' (hmem.1 hq').2
  · intro q' hq'
    rw [heldBlock_congr hs]
    exact h.aligned q' (hmem.1 hq').2
  · intro q' hq'
    rw [heldBlock_congr hs]
    exact h.within q' (hmem.1 hq').2
  · intro q' hq'
    rw [heldBlock_congr hs, hkeep q' hq']
    exact h.order q' (hmem.1 hq').2
  · simp only [heldBlock_congr hs]
    exact fun a ha b hb => h.disjoint a (hmem.1 ha).2 b (hmem.1 hb).2

end Pages

/-! ### The callers -/

/-- The allocator, and the pointers that callers hold, with their orders. -/
structure Sys where
  mm : MmState
  held : List (Word × ℕ)

/-- A call. -/
inductive Call
  | alloc (order : ℕ)
  | free (addr : Word)

/-- A caller frees only what is held. -/
def step (s : Sys) : Call → Option Sys
  | .alloc order => (allocPages .linear order s.mm).map fun (p, mm) =>
      ⟨mm, if p = 0 then s.held else (p, order) :: s.held⟩
  | .free addr => (s.held.find? fun q => q.1 = addr).bind fun q =>
      (freePages .linear addr s.mm).map fun mm => ⟨mm, s.held.erase q⟩

namespace Sys

/-- The frames that are free: those that a block of `st0`, the state after `mm_init`, covers and no
held block does. -/
def Free (st0 : MmState) (s : Sys) : Set ℕ :=
  {f | f ∈ region st0.freeBlocks ∧ ∀ q ∈ s.held, ¬ (heldBlock s.mm q).Covers f}

/-- What every call keeps. -/
def Inv (F0 : Set ℕ) (s : Sys) : Prop := ∃ fl, Pages F0 s.mm fl s.held

variable {F0 : Set ℕ} {s s' : Sys}

theorem Inv.progress (h : Inv F0 s) :
    (∀ order, (step s (.alloc order)).isSome) ∧ ∀ q ∈ s.held, (step s (.free q.1)).isSome := by
  obtain ⟨fl, h⟩ := h
  refine ⟨fun order => ?_, fun q hq => ?_⟩
  · obtain ⟨p, st', h1, -⟩ := h.alloc order
    rw [step, h1]
    rfl
  · obtain ⟨q', hq'⟩ : ∃ q', s.held.find? (fun q' => q'.1 = q.1) = some q' :=
      Option.isSome_iff_exists.1 (List.find?_isSome.2 ⟨q, hq, by simp⟩)
    have heq : q'.1 = q.1 := by simpa using List.find?_some hq'
    obtain ⟨st', fl', h1, -⟩ := h.free (List.mem_of_find?_eq_some hq')
    rw [step, hq', Option.bind_some, ← heq, h1]
    rfl

theorem Inv.step {c : Call} (h : Inv F0 s) (hs : step s c = some s') : Inv F0 s' := by
  obtain ⟨fl, h⟩ := h
  cases c with
  | alloc order =>
    obtain ⟨p, st', h1, -, hcase⟩ := h.alloc order
    rw [Coalesce.step, h1, Option.map_some, Option.some.injEq] at hs
    subst hs
    rcases hcase with ⟨hp, rfl⟩ | ⟨hp, fl', h', -⟩
    · exact ⟨fl, by simpa only [if_pos hp] using h⟩
    · exact ⟨fl', by simpa only [if_neg hp] using h'⟩
  | free addr =>
    rw [Coalesce.step] at hs
    obtain ⟨q, hq, hs⟩ := Option.bind_eq_some_iff.1 hs
    obtain ⟨mm, hmm, rfl⟩ := Option.map_eq_some_iff.1 hs
    have heq : q.1 = addr := by simpa using List.find?_some hq
    obtain ⟨st', fl', h1, -, h', -⟩ := h.free (List.mem_of_find?_eq_some hq)
    rw [heq, hmm, Option.some.injEq] at h1
    exact ⟨fl', h1 ▸ h'⟩

end Sys

/-- **After `mm_init`** nothing is held. -/
theorem pages_of_mmInit {b : Boot} {st : MmState} (h : mmInit b = some st)
    (hl : b.managedBase.toNat + b.managedSize.toNat ≤ 2 ^ 38) :
    ∃ fl, Pages (region st.freeBlocks) st fl [] := by
  obtain ⟨fl, F, hm, hc, hb, hs, -⟩ := left_of_mmInit h (hl.trans (by decide))
  have hreg : ∀ f, f ∈ region st.freeBlocks ↔ f ∈ F := by
    rw [hc.area.freeBlocks_eq]
    exact hc.region
  have hmapped : Mapped st := by
    unfold Mapped
    rwa [hb, hs]
  exact ⟨fl, hm, hmapped, fun f hf => hc.lt ((hreg f).1 hf), hc.congr fun f => by simp [hreg],
    by simp, by simp, by simp, by simp, by simp, List.nodup_nil, by simp⟩

theorem exists_run {β : Type*} (b : Boot) (cs : List Call) (view : MmState → Sys → β) (v : β)
    (h : (mmInit b).bind (fun st => (exec step (fun _ _ => true) ⟨st, []⟩ cs).map (view st)) =
      some v) :
    ∃ st s, mmInit b = some st ∧ Run step (fun _ _ => True) ⟨st, []⟩ cs s ∧ view st s = v := by
  obtain ⟨st, hst, h⟩ := Option.bind_eq_some_iff.1 h
  obtain ⟨s, hr, hv⟩ := Run.exists_of_exec (fun _ _ _ => trivial) h
  exact ⟨st, s, hst, hr, hv⟩

/-- **Coalescing is canonical.** After any sequence of calls, the free blocks are the maximal blocks
of free frames; none of order below `MAX_ORDER` is there together with its buddy. When nothing is
held, they are the blocks that `mm_init` left, whatever the order of the calls was. -/
theorem coalesced_of_run {b : Boot} {st : MmState} {cs : List Call} {s : Sys}
    (hinit : mmInit b = some st) (hl : b.managedBase.toNat + b.managedSize.toNat ≤ 2 ^ 38)
    (hr : Run step (fun _ _ => True) ⟨st, []⟩ cs s) :
    (∀ blk, blk ∈ s.mm.freeBlocks ↔ Maximal maxOrder (s.Free st) blk) ∧
      (∀ blk ∈ s.mm.freeBlocks, blk.order < maxOrder → blk.buddy ∉ s.mm.freeBlocks) ∧
      (s.held = [] → s.mm.freeBlocks = st.freeBlocks) ∧
      (∀ order, (step s (.alloc order)).isSome) ∧
      ∀ q ∈ s.held, (step s (.free q.1)).isSome := by
  obtain ⟨fl0, h0⟩ := pages_of_mmInit hinit hl
  have hinv : s.Inv (region st.freeBlocks) :=
    hr.invariant (fun _ _ _ hi _ hs => hi.step hs) ⟨fl0, h0⟩
  obtain ⟨hp1, hp2⟩ := hinv.progress
  obtain ⟨fl, h⟩ := hinv
  have hblk := h.coalesced.area.freeBlocks_eq
  have hreg : region (blocks fl) = s.Free st := Set.ext h.coalesced.region
  refine ⟨fun blk => ?_, ?_, fun hnil => ?_, hp1, hp2⟩
  · rw [hblk, h.coalesced.area.tiling.mem_iff_maximal h.coalesced.noBuddies, hreg]
  · rw [hblk]
    exact h.coalesced.noBuddies
  · rw [hblk, h0.coalesced.area.freeBlocks_eq]
    refine h.coalesced.area.tiling.eq_of_region h.coalesced.noBuddies h0.coalesced.area.tiling
      h0.coalesced.noBuddies (Set.ext fun f => ?_)
    rw [h.coalesced.region, h0.coalesced.region, hnil]
    simp

theorem coalesced_of_run_small : ∃ st s, mmInit smallBoot = some st ∧
    Run step (fun _ _ => True) ⟨st, []⟩
      [.alloc 0, .alloc 1, .free 0xffffffc080002000] s ∧
    (∀ blk, blk ∈ s.mm.freeBlocks ↔ Maximal maxOrder (s.Free st) blk) ∧
      (∀ blk ∈ s.mm.freeBlocks, blk.order < maxOrder → blk.buddy ∉ s.mm.freeBlocks) ∧
      (s.held = [] → s.mm.freeBlocks = st.freeBlocks) ∧
      (∀ order, (step s (.alloc order)).isSome) ∧
      ∀ q ∈ s.held, (step s (.free q.1)).isSome := by
  obtain ⟨st, s, h1, h2, -⟩ := exists_run smallBoot
    [.alloc 0, .alloc 1, .free 0xffffffc080002000] (fun _ s => s.held)
    [(0xffffffc080013000, 1)] (by decide +kernel)
  exact ⟨st, s, h1, h2, coalesced_of_run h1 (by decide) h2⟩

/-- A machine whose memory reaches three pages beyond the linear mapping. The initramfs lies behind
`frame_array`. -/
def wideBoot : Boot where
  dtbMemBase := 0x40000000
  dtbMemSize := 0x3fc0003000
  fdt := 0xffffffc008000000
  fdtTotalsize := 0x100
  kernelStart := 0xffffffc000200000
  kernelEnd := 0xffffffc000300000
  initrdStart := 0xff401000
  initrdEnd := 0x100000000
  mem := fun _ => 0

/-- The frames that `mm_init` leaves free on the machine. -/
def wideFrames : Set ℕ := {f | 786432 ≤ f ∧ f < 66846723}

theorem wide_ranges : wideBoot.regions ++ [((kernelPtrToPhys 0xffffffc040000000).toNat,
    (kernelPtrToPhys 0xffffffc040000000).toNat + 66846723 * sizeofPage)] =
    [(0x8000000, 0x8000100), (0x200000, 0x300000), (0xff401000, 0x100000000),
      (0x3000000, 0x3400000), (0x40000000, 0xff400090)] := by
  decide +kernel

theorem wide_reserved {st : MmState} {f : ℕ} (hb : st.managedBase = 0x40000000)
    (hp : st.framePtr = 0xffffffc040000000) (hn : st.frameCount = 66846723) :
    wideBoot.Reserved st f ↔ f < 786432 := by
  have hbase : (0x40000000 : Word).toNat = 0x40000000 := rfl
  unfold Boot.Reserved Touches
  rw [hp, hn, wide_ranges, hb, hbase]
  simp only [List.mem_cons, List.not_mem_nil, or_false, exists_eq_or_imp, exists_eq_left]
  constructor
  · rintro (⟨-, a, h⟩ | ⟨-, a, h⟩ | ⟨-, a, h⟩ | ⟨-, a, h⟩ | ⟨-, a, h⟩) <;> omega
  · intro hf
    rcases Nat.lt_or_ge f 783361 with hlt | hge
    · exact .inr (.inr (.inr (.inr ⟨by decide, 0x40000000 + f * 4096, by omega⟩)))
    · exact .inr (.inr (.inl ⟨by decide, 0x40000000 + f * 4096, by omega⟩))

theorem subset_wide {b : Block} : (∀ f, b.Covers f → f ∈ wideFrames) ↔
    786432 ≤ b.index ∧ b.index + 2 ^ b.order ≤ 66846723 := by
  have hpos := Nat.two_pow_pos b.order
  constructor
  · intro h
    have h1 := (h b.index b.covers_index).1
    have h2 := (h (b.index + 2 ^ b.order - 1) ⟨by omega, by omega⟩).2
    omega
  · rintro ⟨h1, h2⟩ f ⟨h3, h4⟩
    exact ⟨by omega, by omega⟩

theorem order_le_one {c : Block} {f : ℕ} (ha : c.Aligned) (ho : c.order ≤ maxOrder)
    (hs : ∀ f, c.Covers f → f ∈ wideFrames) (hf : c.Covers f) (hlast : 66846720 ≤ f) :
    c.order ≤ 1 ∧ 66846720 ≤ c.index := by
  obtain ⟨h1, h2⟩ := subset_wide.1 hs
  obtain ⟨j, hj⟩ := ha
  obtain ⟨m, hm⟩ : 2 ^ c.order ∣ 66846720 :=
    (Nat.pow_dvd_pow 2 ho).trans ⟨16320, rfl⟩
  have hindex : 66846720 ≤ c.index := by
    by_contra hlt
    have hjm : j + 1 ≤ m := Nat.lt_of_mul_lt_mul_left (hj ▸ hm ▸ not_le.1 hlt)
    have hle := Nat.mul_le_mul_left (2 ^ c.order) hjm
    rw [Nat.mul_add, ← hj, ← hm, Nat.mul_one] at hle
    have := hf.2
    omega
  refine ⟨?_, hindex⟩
  by_contra hgt
  have := Nat.pow_le_pow_right (show 0 < 2 by decide) (not_le.1 hgt)
  omega

/-- The last frame is the only free block of order `0`, and the two before it are that of order
`1`. -/
theorem wide_maximal {idx order : ℕ} (ho : order ≤ 1) :
    Maximal maxOrder wideFrames ⟨idx, order⟩ ↔ idx = 66846722 - 2 * order := by
  constructor
  · rintro ⟨ha, -, hsub, hmax⟩
    obtain ⟨h1, h2⟩ := subset_wide.1 hsub
    obtain ⟨j, hj⟩ : 2 ^ order ∣ idx := ha
    dsimp only at h1 h2
    -- the block of the next order around it does not fit
    have hparent : ¬ (786432 ≤ j / 2 * 2 ^ (order + 1) ∧
        j / 2 * 2 ^ (order + 1) + 2 ^ (order + 1) ≤ 66846723) := by
      intro hfit
      have := hmax ⟨j / 2 * 2 ^ (order + 1), order + 1⟩ (dvd_mul_left _ _)
        (by dsimp only [maxOrder]; omega) (subset_wide.2 hfit) fun f ⟨h3, h4⟩ => ?_
      · simpa using congrArg Block.order this
      · dsimp only at h3 h4
        obtain rfl | rfl : order = 0 ∨ order = 1 := by omega
        · exact ⟨by dsimp only; omega, by dsimp only; omega⟩
        · exact ⟨by dsimp only; omega, by dsimp only; omega⟩
    obtain rfl | rfl : order = 0 ∨ order = 1 := by omega
    · omega
    · omega
  · rintro rfl
    obtain rfl | rfl : order = 0 ∨ order = 1 := by omega
    · refine ⟨one_dvd _, Nat.zero_le _, subset_wide.2 (by decide), fun ⟨i, k⟩ hca hco hcs hbc => ?_⟩
      have hf := hbc 66846722 ⟨le_rfl, by decide⟩
      obtain ⟨-, hend⟩ := subset_wide.1 hcs
      have hk := (order_le_one hca hco hcs hf (by decide)).1
      obtain ⟨j, hj⟩ := hca
      obtain ⟨h1, h2⟩ := hf
      dsimp only at hk hj hend h1 h2
      obtain rfl | rfl : k = 0 ∨ k = 1 := by omega
      · exact Block.ext (by dsimp only; omega) rfl
      · omega
    · refine ⟨⟨33423360, rfl⟩, by decide, subset_wide.2 (by decide), fun ⟨i, k⟩ hca hco hcs hbc => ?_⟩
      have hf := hbc 66846720 ⟨le_rfl, by decide⟩
      obtain ⟨hk, hlow⟩ := order_le_one hca hco hcs hf le_rfl
      have hle := Block.order_le_of_subset hbc
      dsimp only at hk hlow hle
      obtain rfl : k = 1 := le_antisymm hk hle
      exact Block.ext (le_antisymm hf.1 hlow) rfl

theorem wide_init : ∃ st fl, mmInit wideBoot = some st ∧ Coalesced st fl wideFrames ∧
    st.managedBase = 0x40000000 ∧ st.managedSize = 0x3fc0003000 ∧ st.frameCount = 66846723 := by
  have hp : wideBoot.framePtr = some 0xffffffc040000000 := by decide +kernel
  obtain ⟨st, fl, F, h1, hm, hc, hb, hs, hfp, -, hF, -⟩ := mmInit_spec (b := wideBoot)
    (by decide) hp (by decide) (by decide)
  have hsize : st.managedSize = 0x3fc0003000 := hs
  have hcount : st.frameCount = 66846723 := by
    have h2 := hm.size
    have h3 : (0x3fc0003000 : Word).toNat = 66846723 * 4096 := rfl
    rw [hsize, h3] at h2
    omega
  refine ⟨st, fl, h1, hc.congr fun f => ?_, hb, hsize, hcount⟩
  rw [hF (by unfold Boot.NoWrap; decide), wide_reserved hb hfp hcount, hcount]
  exact ⟨fun h => ⟨by omega, h.1⟩, fun h => ⟨h.2, by have := h.1; omega⟩⟩

/-- **The first call of `alloc_pages`** for one page, or for two, takes what lies beyond the linear
mapping, and the pointer to it wraps. -/
theorem wide_alloc {order : ℕ} (ho : order ≤ 1) : ∃ st st', mmInit wideBoot = some st ∧
    allocPages .linear order st = some (BitVec.ofNat 64 (0x2000 - 0x2000 * order), st') ∧
    ⟨66846722 - 2 * order, order⟩ ∈ st.freeBlocks ∧
    ⟨66846722 - 2 * order, order⟩ ∉ st'.freeBlocks ∧
    st'.managedBase = 0x40000000 ∧ st'.managedSize = 0x3fc0003000 ∧ st'.frameCount = 66846723 := by
  obtain ⟨st, fl, h1, hc, hb, hs, hn⟩ := wide_init
  have hiff : ∀ idx, ⟨idx, order⟩ ∈ blocks fl ↔ idx = 66846722 - 2 * order := fun idx => by
    rw [hc.area.tiling.mem_iff_maximal hc.noBuddies, show region (blocks fl) = wideFrames from
      Set.ext hc.region, wide_maximal ho]
  have hmem := (hiff _).2 rfl
  obtain ⟨p, st', h2, h3⟩ := allocPages_spec .linear hc order
  cases h3 with
  | failed h => exact absurd (h _ hmem) (lt_irrefl order)
  | @taken _ fl' idx current first aligned free coalesced same page others =>
    -- the list of the order itself is not empty
    obtain rfl : order = current := by
      by_contra hne
      have hnil := first.below order le_rfl (lt_of_le_of_ne first.order_le hne)
      have hin := hmem.2
      dsimp only at hin
      rw [hnil] at hin
      cases hin
    obtain rfl := (hiff idx).1 ⟨first.le_max, List.mem_of_mem_head? first.head⟩
    refine ⟨st, st', h1, ?_, hc.area.freeBlocks_eq ▸ hmem, fun hm => ?_, same.managedBase.trans hb,
      same.managedSize.trans hs, same.frameCount.trans hn⟩
    · rw [h2, Pointers.linear_toPtr, MmState.frameAddr, hb]
      obtain rfl | rfl : order = 0 ∨ order = 1 := by omega
      · rfl
      · rfl
    · rw [coalesced.area.freeBlocks_eq] at hm
      have hcov := Block.covers_index (⟨66846722 - 2 * order, order⟩ : Block)
      exact ((coalesced.region _).1 ⟨_, hm, hcov⟩).2 hcov

/-- **Beyond the linear mapping** the pointer to a block wraps, and `free_pages` does not find the
block: after `alloc_pages(0)` and the matching call of `free_pages` a block is missing. -/
theorem not_coalesced_wide : ∃ st s, mmInit wideBoot = some st ∧
    Run step (fun _ _ => True) ⟨st, []⟩ [.alloc 0, .free 0x2000] s ∧
    s.held = [] ∧ s.mm.freeBlocks ≠ st.freeBlocks := by
  obtain ⟨st, st', h1, h2, hmem, hnot, hb, hs, -⟩ := wide_alloc (Nat.zero_le 1)
  have hfree : freePages .linear 0x2000 st' = some st' := by
    have hout : ¬ st'.addrInManagedRange (Pointers.linear.toPhys 0x2000) := by
      unfold MmState.addrInManagedRange
      rw [hb]
      exact fun h => absurd h.1 (by decide)
    rw [freePages, if_neg (by decide)]
    exact if_pos hout
  have hfirst : step ⟨st, []⟩ (.alloc 0) = some ⟨st', [(0x2000, 0)]⟩ := by
    rw [step, h2]
    rfl
  have hsecond : step ⟨st', [(0x2000, 0)]⟩ (.free 0x2000) = some ⟨st', []⟩ := by
    rw [step]
    change Option.bind (some ((0x2000 : Word), 0)) _ = _
    rw [Option.bind_some, hfree]
    rfl
  exact ⟨st, ⟨st', []⟩, h1, .cons trivial hfirst (.single trivial hsecond), rfl,
    fun he => hnot (he ▸ hmem)⟩

end OscKernel.Mm.Coalesce
