import OscKernel.Mm.Callers
import OscKernel.Mm.Init

/-! # The allocator of lab5

Its pointers are physical addresses, and a null pointer is a failure. When the managed range starts at
address `0`, the block that begins there is taken by a call that then reports a failure.

* `mmInit`: `mm_init` of lab5.
* `Keeps s c`: if the call fails, it changes nothing.
* `keeps_iff`: it is so unless the call takes the block at address `0`; as long as none does, no frame
  is lost. -/

namespace OscKernel.Mm.Direct

open OscKernel.Lib.Memory OscKernel.Lib.Dyadic OscKernel.Lib.Transition OscKernel.Vm.Tables
  OscKernel.Mm.Frames OscKernel.Mm.Reserve OscKernel.Mm.Pages OscKernel.Mm.Held OscKernel.Mm.Chunks
  OscKernel.Mm.Heap OscKernel.Mm.Callers
open OscKernel.Mm.Init (Boot earlyReserveAdd startupAlloc userProgBase userProgMaxSize sizeofPage cut
  reserveAll cutting_start reserveAll_spec aligned_alignUp)

/-! ### `mm_init` -/

/-- The regions that `mm_init` notes before it allocates `frame_array`. -/
def earlyReserved (b : Boot) : Option (List Region) :=
  (earlyReserveAdd [] b.fdt (b.fdtTotalsize.setWidth 64)).bind fun rs =>
    (if b.kernelStart < b.kernelEnd then
      earlyReserveAdd rs b.kernelStart (b.kernelEnd - b.kernelStart) else some rs).bind fun rs =>
    (if b.initrdStart ≠ 0 ∧ b.initrdEnd ≠ 0 ∧ b.initrdStart < b.initrdEnd then
      earlyReserveAdd rs b.initrdStart (b.initrdEnd - b.initrdStart)
      else some rs).bind fun rs =>
    earlyReserveAdd rs userProgBase userProgMaxSize

/-- The pointer to `frame_array` that `startup_alloc` returns. -/
def framePtr (b : Boot) : Option Word :=
  (earlyReserved b).bind fun rs =>
    startupAlloc .direct rs (alignUp b.managedBase 4096)
      (alignDown (b.managedBase + b.managedSize) 4096) b.frameArraySize 4096

/-- `mm_init`, with a memory region in the device tree. It hangs when there is no room for
`frame_array`. -/
def mmInit (b : Boot) : Option MmState :=
  (earlyReserved b).bind fun rs => (framePtr b).bind fun p =>
    if p = 0 then none
    else (earlyReserveAdd rs p b.frameArraySize).bind fun rs =>
      (cut b.frameCount 0 (b.start rs p)).bind fun st => reserveAll rs st

/-- The noted regions do not end before they begin, or are not in the managed range. -/
def Ordered (base top : ℕ) (rs : List Region) : Prop :=
  ∀ r ∈ rs, r.start ≤ r.stop ∨ top ≤ r.start.toNat ∨ r.stop.toNat ≤ base

section Init
variable {b : Boot} {st : MmState} {base top : ℕ} {rs rs' : List Region} {start size : Word}

/-- **`early_reserve_add`** of a range that does not wrap, or starts behind the managed range. -/
theorem Ordered.add (h : Ordered base top rs) (hadd : earlyReserveAdd rs start size = some rs')
    (hw : start.toNat + size.toNat < 2 ^ 64 ∨ top + 4096 ≤ start.toNat) : Ordered base top rs' := by
  unfold earlyReserveAdd at hadd
  split at hadd
  · exact Option.some.inj hadd ▸ h
  split at hadd
  · cases hadd
  obtain rfl := Option.some.inj hadd
  intro r hr
  rcases List.mem_append.1 hr with hr | hr
  · exact h r hr
  obtain rfl := List.mem_singleton.1 hr
  have hdown := alignDown_toNat start
  rcases hw with hw | hw
  · have hs : (start + size).toNat = start.toNat + size.toNat := by
      rw [BitVec.toNat_add, Nat.mod_eq_of_lt hw]
    by_cases hup : (start + size).toNat + 4095 < 2 ^ 64
    · have := alignUp_toNat hup
      exact .inl (BitVec.le_def.2 (by dsimp only; omega))
    · -- the end is rounded up to address `0`
      have hz : (alignUp (start + size) 4096).toNat = 0 := by
        have h1 : (start + size + 4095).toNat = (start + size).toNat + 4095 - 2 ^ 64 := by
          have := (start + size).isLt
          rw [BitVec.toNat_add]
          change ((start + size).toNat + 4095) % 2 ^ 64 = _
          omega
        rw [alignUp_eq, alignDown_toNat, h1]
        omega
      exact .inr (.inr (by dsimp only; omega))
  · exact .inr (.inl (by dsimp only; omega))

theorem Ordered.addIf {p : Prop} [Decidable p] {stop : Word} (h : Ordered base top rs)
    (hadd : (if p then earlyReserveAdd rs start (stop - start) else some rs) = some rs')
    (hp : p → start < stop) : Ordered base top rs' := by
  split at hadd
  next hc =>
    have hlt := hp hc
    have hle := BitVec.le_of_lt hlt
    have hsub := BitVec.toNat_sub_of_le hle
    have hstop := stop.isLt
    rw [BitVec.le_def] at hle
    exact h.add hadd (.inl (by omega))
  next => exact Option.some.inj hadd ▸ h

theorem earlyReserved_ordered (htop : top ≤ 2 ^ 63) (h : earlyReserved b = some rs) :
    Ordered base top rs := by
  obtain ⟨rs1, h1, h⟩ := Option.bind_eq_some_iff.1 h
  obtain ⟨rs2, h2, h⟩ := Option.bind_eq_some_iff.1 h
  obtain ⟨rs3, h3, h4⟩ := Option.bind_eq_some_iff.1 h
  have hsz : (b.fdtTotalsize.setWidth 64).toNat = b.fdtTotalsize.toNat := by
    rw [BitVec.toNat_setWidth, Nat.mod_eq_of_lt (b.fdtTotalsize.isLt.trans (by decide))]
  have hlt := b.fdtTotalsize.isLt
  have hnil : Ordered base top [] := fun r hr => absurd hr List.not_mem_nil
  have hfdt : b.fdt.toNat + (b.fdtTotalsize.setWidth 64).toNat < 2 ^ 64 ∨
      top + 4096 ≤ b.fdt.toNat := by omega
  exact (((hnil.add h1 hfdt).addIf h2 id).addIf h3 fun hc => hc.2.2).add h4 (.inl (by decide))

/-- **What `mm_init` of lab5 leaves**: no block is free together with its buddy, and the free frames
are those whose pages touch no noted region. -/
theorem mmInit_spec (hinit : mmInit b = some st)
    (hend : b.managedBase.toNat + b.managedSize.toNat ≤ 2 ^ 63) :
    ∃ fl F, Managed st ∧ Coalesced st fl F ∧ (st.chunkFreeList = fun _ => 0) ∧
      st.managedBase = b.managedBase ∧
      ∀ f, f ∈ F ↔ f < st.frameCount ∧ ¬ ∃ r ∈ st.earlyReserved,
        Touches st.managedBase.toNat f r.start.toNat r.stop.toNat := by
  obtain ⟨rs, hrs, h⟩ := Option.bind_eq_some_iff.1 hinit
  obtain ⟨p, hp, h⟩ := Option.bind_eq_some_iff.1 h
  split at h
  · cases h
  obtain ⟨rs', hrs', h⟩ := Option.bind_eq_some_iff.1 h
  obtain ⟨st1, h1, h2⟩ := Option.bind_eq_some_iff.1 h
  have hfc : b.managedSize.toNat = b.frameCount * 4096 := Boot.frameCount_mul
  have hfs : b.frameArraySize.toNat = b.frameCount * sizeofPage := by
    rw [Boot.frameArraySize, BitVec.toNat_ofNat, Nat.mod_eq_of_lt]
    unfold sizeofPage
    omega
  have hord : Ordered b.managedBase.toNat (b.managedBase.toNat + b.managedSize.toNat) rs' :=
    (earlyReserved_ordered hend hrs).add hrs' (by rw [hfs]; unfold sizeofPage; omega)
  obtain ⟨st1', fl1, h1', hc1, hs1⟩ := (cutting_start b rs' p).cut b.frameCount le_rfl
  obtain rfl := Option.some.inj (h1.symm.trans h1')
  have hm1 : Managed st1 := (Boot.managed_start hend rs' p).congr hs1
  have hb1 : st1.managedBase = b.managedBase := hs1.managedBase
  have hsz1 : st1.managedSize = b.managedSize := hs1.managedSize
  have hfc1 : st1.frameCount = b.frameCount := hs1.frameCount
  have hr1 : st1.earlyReserved = rs' := hs1.earlyReserved
  rw [← hb1, ← hsz1] at hord
  obtain ⟨st2, fl, h2', hs2, hc2⟩ := reserveAll_spec hc1 hm1 hord
  obtain rfl := Option.some.inj (h2.symm.trans h2')
  refine ⟨fl, _, hm1.congr hs2, hc2, hs2.chunkFreeList.trans hs1.chunkFreeList,
    hs2.managedBase.trans hb1, fun f => ?_⟩
  rw [hs2.frameCount, hs2.earlyReserved, hs2.managedBase, hfc1, hr1]
  exact Iff.rfl

/-- **Pointers are physical addresses.** -/
theorem translates_direct (hm : Managed st) : Translates .direct st := by
  refine ⟨⟨0, fun a => ?_⟩, fun n hn => rfl, fun n hn h0 => ?_⟩
  · rw [Pointers.direct_toPtr]
    exact (BitVec.add_zero a).symm
  · have h1 := offset_toNat hm hn
    rw [ptrAt, Pointers.direct_toPtr] at h0
    have hz : (0 : Word).toNat = 0 := rfl
    rw [h0, hz] at h1
    omega

end Init

/-! ### Failing calls -/

section Keeps
variable {k : Pointers} {F0 : Set ℕ} {s : Sys} {st' : MmState} {fl : ℕ → List ℕ}
  {cp : List (ℕ × Fin 8)} {cl : Fin 8 → List ℕ} {live : List Extent} {order : ℕ} {p size : Word}

/-- The first block of sufficient order, if there is one, does not begin at the null pointer. -/
def FirstNonnull (k : Pointers) (st : MmState) (order : ℕ) : Prop :=
  ∀ idx ∈ firstFit st order, k.toPtr (st.frameAddr idx) ≠ 0

/-- **`alloc_pages` fails without a change**, unless the block begins at the null pointer. -/
theorem pagesTaken_keeps (h : Shared k F0 s.mm fl cp cl live)
    (ht : PagesTaken k F0 s.mm fl cp cl live order p st') :
    (p = 0 → st' = s.mm) ↔ FirstNonnull k s.mm order := by
  have harea := h.holding.coalesced.area
  cases ht with
  | failed hn =>
    refine iff_of_true (fun _ => rfl) fun idx hi => ?_
    rw [firstFit_none harea hn] at hi
    cases hi
  | @taken _ fl' idx current first aligned free left area changed same shared =>
    have hfirst := firstFit_eq harea first
    constructor
    · -- the first frame of the block is free before and in use afterwards
      rintro hkeep idx' hi h0
      obtain rfl : idx = idx' := Option.some.inj (hfirst.symm.trans hi)
      rw [hkeep h0] at changed
      have hlisted := (harea.lists.listed _ first.le_max _ (List.mem_of_mem_head? first.head)).2.1
      rw [changed] at hlisted
      cases hlisted
    · intro hne h0
      exact absurd h0 (hne idx (by rw [hfirst]; rfl))

/-- **`allocate` fails without a change**, unless the block that it wants begins at the null
pointer. -/
theorem served_keeps (h : Shared k F0 s.mm fl cp cl live)
    (ht : Served k F0 s.mm fl cp cl live size p st') :
    (p = 0 → st' = s.mm) ↔ ∀ order ∈ wants s (.allocate size), FirstNonnull k s.mm order := by
  have hone : ∀ o, (∀ order ∈ (some o : Option ℕ), FirstNonnull k s.mm order) ↔
      FirstNonnull k s.mm o := fun o => by simp
  cases ht with
  | refused hr =>
    refine iff_of_true (fun _ => rfl) fun order ho => ?_
    rw [wants, if_pos hr] at ho
    cases ho
  | @chunk i _ _ size_ne le pool fits taken =>
    have hmax : ¬ maxAllocSize < size := BitVec.not_lt.2 (BitVec.le_trans le (by decide))
    have hwants : wants s (.allocate size) = if s.mm.chunkFreeList i = 0 then some 0 else none := by
      rw [wants, if_neg (not_or.2 ⟨size_ne, hmax⟩), pool]
    cases taken with
    | @first _ n l list same shared =>
      have hne : s.mm.chunkFreeList i ≠ 0 := fun h0 => by
        rw [h.lists.head_eq, list] at h0
        cases h0
      refine iff_of_true (fun h0 => ?_) fun order ho => ?_
      · exact absurd h0 (h.head_ne list)
      · rw [hwants, if_neg hne] at ho
        cases ho
    | empty list page =>
      rw [hwants, if_pos ((h.lists.head_eq i).2 list), hone]
      exact pagesTaken_keeps h page
    | @refilled _ _ _ n _ _ _ list taken page_ne shared same =>
      have hne : ptrAt k s.mm n ≠ 0 := by
        rw [← ptrAt_congr same.managedBase]
        exact shared.chunk_ne
      rw [hwants, if_pos ((h.lists.head_eq i).2 list), hone]
      exact iff_of_true (fun h0 => absurd h0 hne)
        ((pagesTaken_keeps h taken).1 fun h0 => absurd h0 page_ne)
  | pages gt le pool fits taken =>
    have h0 : size ≠ 0 := fun h0 => gt (h0 ▸ by decide)
    have hwants : wants s (.allocate size) = some (sizeToOrder size) := by
      rw [wants, if_neg (not_or.2 ⟨h0, le⟩), pool]
    rw [pagesTaken_keeps h taken, hwants, hone]

end Keeps

/-- If the call fails, it changes nothing: neither the lists nor the metadata of the frames. -/
def KeepsOnFailure (s : Sys) : Call → Prop
  | .allocPages order => ∀ mm, allocPages .direct order s.mm = some (0, mm) → mm = s.mm
  | .allocate size => ∀ mm, allocate .direct size s.mm = some (0, mm) → mm = s.mm
  | _ => True

/-- Every frame is reserved, free, cut into chunks, or held by a caller that got its address. -/
def Accounted (s : Sys) : Prop :=
  ∀ f < s.mm.frameCount,
    (∃ r ∈ s.mm.earlyReserved, Touches s.mm.managedBase.toNat f r.start.toNat r.stop.toNat) ∨
    f ∈ region s.mm.freeBlocks ∨ (s.mm.frameArray f).chunkSize ≠ 0 ∨
    ∃ l ∈ s.live, l.ptr ≠ 0 ∧ ∃ blk, l.extent = .pages blk ∧ blk.Covers f

section Run
variable {b : Boot} {st : MmState} {cs : List Call} {s : Sys}

/-- **A failing allocation loses no memory** unless it takes the block at address `0`: after every run
in which no call does, every frame is accounted for, and a call that fails changes nothing exactly if
it does not take that block. -/
theorem keeps_iff (hinit : mmInit b = some st)
    (hend : b.managedBase.toNat + b.managedSize.toNat ≤ 2 ^ 63)
    (hr : Run (step .direct) (fun s c => ¬ Loses .direct s c) ⟨st, []⟩ cs s) :
    Accounted s ∧ ∀ c, KeepsOnFailure s c ↔ ¬ Loses .direct s c := by
  obtain ⟨fl0, F, hm, hc, hchunks, -, hF⟩ := mmInit_spec hinit hend
  have hinv := (inv_init hc hm hchunks (translates_direct hm)).run hr
  obtain ⟨fl, cp, cl, h⟩ := hinv.shared
  refine ⟨fun f hf => ?_, fun c => ?_⟩
  · have hreg : f ∈ region st.freeBlocks ↔ f ∈ F := by
      rw [hc.area.freeBlocks_eq, hc.region]
    rw [hinv.place.frameCount] at hf
    rw [hinv.place.earlyReserved, hinv.place.managedBase]
    refine or_iff_not_imp_left.2 fun hnres => ?_
    have hF0 : f ∈ region st.freeBlocks := hreg.2 ((hF f).2 ⟨hf, hnres⟩)
    rw [h.holding.coalesced.area.freeBlocks_eq]
    by_cases hheld : ∃ blk ∈ heldBlocks cp (s.live.map Live.extent), blk.Covers f
    · obtain ⟨blk, hblk, hcov⟩ := hheld
      rcases mem_heldBlocks.1 hblk with hlive | ⟨c, hcp, rfl⟩
      · obtain ⟨l, hl, he⟩ := List.mem_map.1 hlive
        have hne := h.offset_ne (.inl hlive)
        rw [hinv.ptr_eq, ← he, ← (hinv.stands l hl).ptr] at hne
        exact .inr (.inr ⟨l, hl, hne, blk, he, hcov⟩)
      · obtain rfl : c.1 = f := by
          obtain ⟨h1, h2⟩ := hcov
          dsimp only at h1 h2
          omega
        have hpos := chunkSize_pos c.2
        refine .inr (.inl fun h0 => ?_)
        rw [(h.chunkPages c hcp).1] at h0
        rw [← poolSizes_toNat, h0] at hpos
        exact absurd hpos (by decide)
    · exact .inl ((h.holding.coalesced.region f).2 ⟨hF0, fun blk hb hcov => hheld ⟨blk, hb, hcov⟩⟩)
  · have hlose : ¬ Loses .direct s c ↔ ∀ order ∈ wants s c, FirstNonnull .direct s.mm order := by
      unfold Loses FirstNonnull
      push Not
      exact Iff.rfl
    rw [hlose]
    cases c with
    | allocPages order =>
      obtain ⟨p, mm, h1, h2⟩ := h.allocPages order
      have hone : (∀ o ∈ wants s (.allocPages order), FirstNonnull .direct s.mm o) ↔
          FirstNonnull .direct s.mm order := by simp [wants]
      rw [hone, ← pagesTaken_keeps h h2]
      change (∀ mm', allocPages .direct order s.mm = some (0, mm') → mm' = s.mm) ↔ _
      rw [h1]
      simp only [Option.some.injEq, Prod.mk.injEq]
      exact ⟨fun hk h0 => hk mm ⟨h0, rfl⟩, fun hk mm' h0 => h0.2 ▸ hk h0.1⟩
    | allocate size =>
      have hmap : ∀ n < s.mm.managedSize.toNat, Pointers.direct.mapped (ptrAt .direct s.mm n) :=
        fun n _ => Pointers.direct_mapped _
      obtain ⟨⟨p, mm⟩, h1⟩ := Option.isSome_iff_exists.1 (h.allocate_isSome size hmap)
      rw [← served_keeps h (h.allocate h1)]
      change (∀ mm', allocate .direct size s.mm = some (0, mm') → mm' = s.mm) ↔ _
      rw [h1]
      simp only [Option.some.injEq, Prod.mk.injEq]
      exact ⟨fun hk h0 => hk mm ⟨h0, rfl⟩, fun hk mm' h0 => h0.2 ▸ hk h0.1⟩
    | freePages p => exact iff_of_true trivial fun o ho => by cases ho
    | free p => exact iff_of_true trivial fun o ho => by cases ho
    | write addr v => exact iff_of_true trivial fun o ho => by cases ho

end Run

/-- A machine with RAM from address `0` on. The device tree lies in the second page. -/
def zeroBoot : Boot where
  dtbMemBase := 0
  dtbMemSize := 0x58000
  fdt := 0x1010
  fdtTotalsize := 0x100
  kernelStart := 0x6000
  kernelEnd := 0x7234
  initrdStart := 0
  initrdEnd := 0
  mem := fun _ => 0

theorem keeps_iff_zeroBoot : ∃ st s, mmInit zeroBoot = some st ∧
    Run (step .direct) (fun s c => ¬ Loses .direct s c) ⟨st, []⟩
      [.allocPages 1, .freePages 0x4000, .allocate 9000] s ∧
    Accounted s ∧ ∀ c, KeepsOnFailure s c ↔ ¬ Loses .direct s c := by
  have h : ((mmInit zeroBoot).bind fun st => (exec (step .direct)
      (fun s c => decide (¬ Loses .direct s c)) ⟨st, []⟩
      [.allocPages 1, .freePages 0x4000, .allocate 9000]).map fun s => s.live.map Live.ptr) =
      some [0x8000] := by
    decide +kernel
  obtain ⟨st, hst, h⟩ := Option.bind_eq_some_iff.1 h
  obtain ⟨s, hr, -⟩ := Run.exists_of_exec
    (C := fun (s : Sys) c => ¬ Loses .direct s c) (fun _ _ ho => of_decide_eq_true ho) h
  exact ⟨st, s, hst, hr, keeps_iff hst (by decide) hr⟩

/-- **The page at address `0` is lost**: the first call of `alloc_pages(0)` takes it and returns the
null pointer. -/
theorem not_keeps_zeroBoot : ∃ st, mmInit zeroBoot = some st ∧
    ¬ KeepsOnFailure ⟨st, []⟩ (.allocPages 0) := by
  have h : ((mmInit zeroBoot).bind fun st => (allocPages .direct 0 st).map fun q =>
      (st.freeList 0, q.1, q.2.freeList 0)) = some ([0], 0, []) := by
    decide +kernel
  obtain ⟨st, hst, h⟩ := Option.bind_eq_some_iff.1 h
  obtain ⟨⟨p, mm⟩, hq, hview⟩ := Option.map_eq_some_iff.1 h
  simp only [Prod.mk.injEq] at hview
  obtain ⟨h1, rfl, h2⟩ := hview
  refine ⟨st, hst, fun hkeep => ?_⟩
  rw [hkeep mm hq, h1] at h2
  cases h2

end OscKernel.Mm.Direct
