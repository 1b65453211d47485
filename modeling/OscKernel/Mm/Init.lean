import OscKernel.Mm.Reserve

/-! # Starting the allocator of lab6

`mm_init` notes the ranges that are in use at boot, finds room for `frame_array`, cuts the managed
range into blocks as large as fit, and takes the noted ranges out again.

* `Table base top rs L`: the noted regions `rs` are the ranges `L`, as far as the pages between `base`
  and `top` are concerned.
* `Cutting`: what the cut has done up to a frame.
* `mmInit_frees`: a frame is in one free block if its page is in no range in use, and in none
  otherwise. -/

namespace OscKernel.Mm.Init

open OscKernel.Lib.Memory OscKernel.Lib.DList OscKernel.Lib.Dyadic OscKernel.Vm.Tables
  OscKernel.Mm.Frames OscKernel.Mm.Reserve
open OscKernel.Vm.Setup (linearSize)

/-! ### The functions -/

/-- `MAX_EARLY_RESERVED`. -/
def maxEarlyReserved : ℕ := 16

/-- `USER_PROG_BASE`. -/
def userProgBase : Word := 0x03000000

/-- `USER_PROG_MAX_SIZE`. -/
def userProgMaxSize : Word := 0x00400000

/-- `sizeof(struct page)`. -/
def sizeofPage : ℕ := 48

/-- `early_reserve_add`. It hangs when the table is full. -/
def earlyReserveAdd (rs : List Region) (start size : Word) : Option (List Region) :=
  if size = 0 then some rs
  else if maxEarlyReserved ≤ rs.length then none
  else some (rs ++ [⟨alignDown start 4096, alignUp (start + size) 4096⟩])

/-- `range_overlap`. -/
def RangeOverlap (aStart aEnd bStart bEnd : Word) : Prop := aStart < bEnd ∧ bStart < aEnd

instance (aStart aEnd bStart bEnd : Word) : Decidable (RangeOverlap aStart aEnd bStart bEnd) := by
  unfold RangeOverlap; infer_instance

/-- The loop of `startup_alloc`. -/
def startupLoop (k : Pointers) (rs : List Region) (startupEnd size align : Word) :
    ℕ → Word → Option Word
  | 0, _ => none
  | fuel + 1, addr =>
    if addr + size ≤ startupEnd then
      match rs.find? fun r => RangeOverlap addr (addr + size) r.start r.stop with
      | some r => startupLoop k rs startupEnd size align fuel (alignUp r.stop align)
      | none => some (k.toPtr addr)
    else some 0

/-- `startup_alloc`, with the bounds that `startup_allocator_init` sets. -/
def startupAlloc (k : Pointers) (rs : List Region) (startupPtr startupEnd size align : Word) :
    Option Word :=
  startupLoop k rs startupEnd (alignUp size 4096) align (rs.length + 1) (alignUp startupPtr align)

/-- What `mm_init` finds: the memory region of the device tree, where the tree itself, the kernel and
the initramfs lie, and the contents of memory. -/
structure Boot where
  dtbMemBase : Word
  dtbMemSize : Word
  fdt : Word
  fdtTotalsize : BitVec 32
  kernelStart : Word
  kernelEnd : Word
  initrdStart : Word
  initrdEnd : Word
  mem : Mem

namespace Boot
variable (b : Boot)

/-- `managed_base`. -/
def managedBase : Word := alignUp b.dtbMemBase 4096

/-- `managed_size`. -/
def managedSize : Word := alignDown (b.dtbMemSize - (b.managedBase - b.dtbMemBase)) 4096

/-- `frame_count`. -/
def frameCount : ℕ := (b.managedSize / 4096).toNat

/-- `frame_array_size`. -/
def frameArraySize : Word := BitVec.ofNat 64 (b.frameCount * sizeofPage)

/-- The regions that `mm_init` notes before it allocates `frame_array`. -/
def earlyReserved : Option (List Region) :=
  (earlyReserveAdd [] (kernelPtrToPhys b.fdt) (b.fdtTotalsize.setWidth 64)).bind fun rs =>
    let kernelStart := kernelPtrToPhys b.kernelStart
    let kernelEnd := kernelPtrToPhys b.kernelEnd
    (if kernelStart < kernelEnd then earlyReserveAdd rs kernelStart (kernelEnd - kernelStart)
      else some rs).bind fun rs =>
    (if b.initrdStart ≠ 0 ∧ b.initrdEnd ≠ 0 ∧ b.initrdStart < b.initrdEnd then
      earlyReserveAdd rs b.initrdStart (b.initrdEnd - b.initrdStart)
      else some rs).bind fun rs =>
    earlyReserveAdd rs userProgBase userProgMaxSize

/-- The pointer to `frame_array` that `startup_alloc` returns. -/
def framePtr : Option Word :=
  b.earlyReserved.bind fun rs =>
    startupAlloc .linear rs (alignUp b.managedBase 4096)
      (alignDown (b.managedBase + b.managedSize) 4096) b.frameArraySize 4096

/-- The page tables lead from the pointer on to memory as far as `frame_array` reaches. -/
def FrameArrayMapped (p : Word) : Prop :=
  b.frameCount = 0 ∨ (virtToPhysAddr p).toNat + b.frameCount * sizeofPage ≤ linearSize

instance (p : Word) : Decidable (b.FrameArrayMapped p) := by unfold FrameArrayMapped; infer_instance

/-- The state before the cut: empty lists, and frames in use. -/
def start (rs : List Region) (framePtr : Word) : MmState where
  managedBase := b.managedBase
  managedSize := b.managedSize
  frameCount := b.frameCount
  earlyReserved := rs
  framePtr := framePtr
  frameArray := fun _ => ⟨-1, .used, false, 0, -1⟩
  links := (List.range (maxOrder + 1)).foldl (fun l o => l.init (.head o))
    ⟨fun _ => none, fun _ => none⟩
  chunkFreeList := fun _ => 0
  mem := b.mem

end Boot

/-- The greatest order up to the given one of a block from `idx` on that fits. -/
def selectedOrder (frameCount idx : ℕ) : ℕ → ℕ
  | 0 => 0
  | order + 1 =>
    if idx % 2 ^ (order + 1) = 0 ∧ idx + 2 ^ (order + 1) ≤ frameCount then order + 1
    else selectedOrder frameCount idx order

/-- The loop that puts all frames into the free lists. -/
def cut : ℕ → ℕ → MmState → Option MmState
  | 0, idx, st => if idx < st.frameCount then none else some st
  | fuel + 1, idx, st =>
    if idx < st.frameCount then
      let order := selectedOrder st.frameCount idx maxOrder
      (st.addFreeBlock idx order).bind fun st => cut fuel (idx + 2 ^ order) st
    else some st

/-- The loop that reserves the noted regions. -/
def reserveAll : List Region → MmState → Option MmState
  | [], st => some st
  | r :: rs, st => (memoryReserve st r.start (r.stop - r.start)).bind fun st => reserveAll rs st

/-- `mm_init`, with a memory region in the device tree. It hangs when there is no room for
`frame_array`, and faults when the room that it finds is not mapped. -/
def mmInit (b : Boot) : Option MmState :=
  b.earlyReserved.bind fun rs => b.framePtr.bind fun p =>
    if p = 0 ∨ ¬ b.FrameArrayMapped p then none
    else (earlyReserveAdd rs (kernelPtrToPhys p) b.frameArraySize).bind fun rs =>
      (cut b.frameCount 0 (b.start rs p)).bind fun st => reserveAll rs st

/-! ### The noted regions -/

theorem touches_round {base f lo hi : ℕ} (hb : 4096 ∣ base) (h : lo < hi) :
    Touches base f (lo / 4096 * 4096) ((hi + 4095) / 4096 * 4096) ↔ Touches base f lo hi := by
  obtain ⟨q, rfl⟩ := hb
  rw [touches_iff h, touches_iff (by omega)]
  omega

/-- The noted regions are the ranges, rounded outward to pages, for the pages between `base` and
`top`. -/
structure Table (base top : ℕ) (rs : List Region) (L : List (ℕ × ℕ)) : Prop where
  length : rs.length ≤ L.length
  aligned : ∀ r ∈ rs, 4096 ∣ r.stop.toNat
  ordered : ∀ r ∈ rs, r.start ≤ r.stop ∨ top ≤ r.start.toNat ∨ r.stop.toNat ≤ base
  touches : ∀ f, base + (f + 1) * 4096 ≤ top →
    ((∃ r ∈ rs, Touches base f r.start.toNat r.stop.toNat) ↔
      ∃ q ∈ L, q.1 < q.2 ∧ Touches base f (q.1 / 4096 * 4096) ((q.2 + 4095) / 4096 * 4096))

section Table
variable {base top : ℕ} {rs : List Region} {L : List (ℕ × ℕ)}

theorem table_nil : Table base top [] [] :=
  ⟨le_rfl, by simp, by simp, by simp⟩

theorem aligned_alignUp (a : Word) : 4096 ∣ (alignUp a 4096).toNat := by
  rw [alignUp_eq, alignDown_toNat]
  exact dvd_mul_left _ _

theorem Table.skip (h : Table base top rs L) {q : ℕ × ℕ} (hq : q.2 ≤ q.1) :
    Table base top rs (L ++ [q]) := by
  refine ⟨h.length.trans (by simp), h.aligned, h.ordered, fun f hf => (h.touches f hf).trans ?_⟩
  constructor
  · rintro ⟨q', hm, hlt, ht⟩
    exact ⟨q', List.mem_append_left _ hm, hlt, ht⟩
  · rintro ⟨q', hm, hlt, ht⟩
    rcases List.mem_append.1 hm with hm | hm
    · exact ⟨q', hm, hlt, ht⟩
    · obtain rfl := List.mem_singleton.1 hm
      omega

theorem Table.snoc (h : Table base top rs L) {r : Region} {q : ℕ × ℕ} (ha : 4096 ∣ r.stop.toNat)
    (ho : r.start ≤ r.stop ∨ top ≤ r.start.toNat ∨ r.stop.toNat ≤ base)
    (ht : ∀ f, base + (f + 1) * 4096 ≤ top → (Touches base f r.start.toNat r.stop.toNat ↔
      q.1 < q.2 ∧ Touches base f (q.1 / 4096 * 4096) ((q.2 + 4095) / 4096 * 4096))) :
    Table base top (rs ++ [r]) (L ++ [q]) := by
  refine ⟨?_, fun r' hr => ?_, fun r' hr => ?_, fun f hf => ?_⟩
  · rw [List.length_append, List.length_append]
    exact Nat.add_le_add_right h.length 1
  · rcases List.mem_append.1 hr with hr | hr
    · exact h.aligned r' hr
    · exact List.mem_singleton.1 hr ▸ ha
  · rcases List.mem_append.1 hr with hr | hr
    · exact h.ordered r' hr
    · exact List.mem_singleton.1 hr ▸ ho
  · simp only [List.mem_append, List.mem_singleton, or_and_right, exists_or, exists_eq_left,
      h.touches f hf, ht f hf]

/-- **`early_reserve_add`** notes a range whose end, rounded up, does not wrap, or which starts behind
the pages. -/
theorem Table.add (h : Table base top rs L) (start size : Word) (hL : L.length < maxEarlyReserved)
    (hw : start.toNat + size.toNat + 4095 < 2 ^ 64 ∨ top + 4096 ≤ start.toNat) :
    ∃ rs', earlyReserveAdd rs start size = some rs' ∧
      Table base top rs' (L ++ [(start.toNat, start.toNat + size.toNat)]) := by
  unfold earlyReserveAdd
  by_cases h0 : size = 0
  · rw [if_pos h0]
    have hz : size.toNat = 0 := by rw [h0]; rfl
    exact ⟨rs, rfl, h.skip (by dsimp only; omega)⟩
  have hpos : 0 < size.toNat := by
    rcases Nat.eq_zero_or_pos size.toNat with hz | hp
    · exact absurd (BitVec.eq_of_toNat_eq hz) h0
    · exact hp
  rw [if_neg h0, if_neg (not_le.2 (h.length.trans_lt hL))]
  have hdown := alignDown_toNat start
  refine ⟨_, rfl, h.snoc (aligned_alignUp _) ?_ fun f hf => ?_⟩
  · rcases hw with hw | hw
    · have hs : (start + size).toNat = start.toNat + size.toNat := by
        rw [BitVec.toNat_add, Nat.mod_eq_of_lt (by omega)]
      have hup := alignUp_toNat (a := start + size) (by omega)
      exact .inl (BitVec.le_def.2 (by dsimp only; omega))
    · exact .inr (.inl (by dsimp only; omega))
  · -- the new region and the new range touch the same pages
    rw [and_iff_right (by dsimp only; omega)]
    rcases hw with hw | hw
    · have hs : (start + size).toNat = start.toNat + size.toNat := by
        rw [BitVec.toNat_add, Nat.mod_eq_of_lt (by omega)]
      rw [hdown, alignUp_toNat (by omega), hs]
    · constructor <;>
      · rintro ⟨a, h1, -, -, h2⟩
        dsimp only at h1 h2
        omega

/-- A range whose end wraps when it is rounded up is noted as one that ends at address `0`. -/
theorem Table.add_wrapped (h : Table base top rs L) (start size : Word)
    (hL : L.length < maxEarlyReserved) (hs : start.toNat + size.toNat < 2 ^ 64)
    (hw : 2 ^ 64 ≤ start.toNat + size.toNat + 4095) :
    ∃ rs', earlyReserveAdd rs start size = some rs' ∧ Table base top rs' (L ++ [(0, 0)]) := by
  unfold earlyReserveAdd
  by_cases h0 : size = 0
  · rw [if_pos h0]
    exact ⟨rs, rfl, h.skip le_rfl⟩
  rw [if_neg h0, if_neg (not_le.2 (h.length.trans_lt hL))]
  have hstop : (alignUp (start + size) 4096).toNat = 0 := by
    have h1 : (start + size + 4095).toNat = start.toNat + size.toNat + 4095 - 2 ^ 64 := by bv_omega
    rw [alignUp_eq, alignDown_toNat, h1]
    omega
  have hnot : ∀ f, ¬ Touches base f (alignDown start 4096).toNat
      (alignUp (start + size) 4096).toNat := by
    rintro f ⟨a, -, h2, -⟩
    omega
  refine ⟨_, rfl, h.snoc (aligned_alignUp _) ?_ fun f _ => ?_⟩
  · exact .inr (.inr (by dsimp only; omega))
  · exact iff_of_false (hnot f) fun hn => lt_irrefl 0 hn.1

end Table

/-! ### The startup allocator -/

theorem alignUp_of_aligned {a : Word} (h : 4096 ∣ a.toNat) : alignUp a 4096 = a := by
  have ha := a.isLt
  refine BitVec.eq_of_toNat_eq ?_
  rw [alignUp_toNat (by omega)]
  omega

theorem length_filter_lt {rs : List Region} {addr stop : Word} {r : Region} (hm : r ∈ rs)
    (hlt : addr < r.stop) (hle : r.stop ≤ stop) :
    (rs.filter fun r' => stop < r'.stop).length < (rs.filter fun r' => addr < r'.stop).length := by
  have hsub := List.monotone_filter_right rs (p := fun r' => decide (stop < r'.stop))
    (q := fun r' => decide (addr < r'.stop)) fun r' hr' => by
      have h1 : stop < r'.stop := by simpa using hr'
      rw [BitVec.le_def] at hle
      rw [BitVec.lt_def] at hlt h1
      exact decide_eq_true (BitVec.lt_def.2 (hlt.trans (hle.trans_lt h1)))
  refine lt_of_le_of_ne hsub.length_le fun he => ?_
  have hin : r ∈ rs.filter fun r' => addr < r'.stop := List.mem_filter.2 ⟨hm, decide_eq_true hlt⟩
  rw [← hsub.eq_of_length he] at hin
  exact absurd (of_decide_eq_true (List.mem_filter.1 hin).2) (BitVec.not_lt.2 hle)

theorem startupLoop_isSome (k : Pointers) {rs : List Region} (hrs : ∀ r ∈ rs, 4096 ∣ r.stop.toNat)
    (startupEnd size : Word) {fuel : ℕ} {addr : Word}
    (hf : (rs.filter fun r => addr < r.stop).length < fuel) :
    (startupLoop k rs startupEnd size 4096 fuel addr).isSome := by
  induction fuel generalizing addr with
  | zero => exact absurd hf (Nat.not_lt_zero _)
  | succ fuel ih =>
    unfold startupLoop
    split
    · split
      next r hr =>
        have hm := List.mem_of_find?_eq_some hr
        have ho : RangeOverlap addr (addr + size) r.start r.stop := by
          simpa using List.find?_some hr
        rw [alignUp_of_aligned (hrs r hm)]
        have hlt := length_filter_lt hm ho.1 (BitVec.le_def.2 le_rfl)
        exact ih (lt_of_lt_of_le hlt (Nat.le_of_lt_succ hf))
      · rfl
    · rfl

theorem startupAlloc_isSome (k : Pointers) {rs : List Region}
    (hrs : ∀ r ∈ rs, 4096 ∣ r.stop.toNat) (startupPtr startupEnd size : Word) :
    (startupAlloc k rs startupPtr startupEnd size 4096).isSome :=
  startupLoop_isSome k hrs _ _ (Nat.lt_succ_of_le (List.length_filter_le ..))

/-! ### The cut -/

theorem selectedOrder_spec {frameCount idx : ℕ} (h : idx < frameCount) (k : ℕ) :
    selectedOrder frameCount idx k ≤ k ∧ 2 ^ selectedOrder frameCount idx k ∣ idx ∧
      idx + 2 ^ selectedOrder frameCount idx k ≤ frameCount ∧
      ∀ j ≤ k, 2 ^ j ∣ idx → idx + 2 ^ j ≤ frameCount → j ≤ selectedOrder frameCount idx k := by
  induction k with
  | zero => exact ⟨le_rfl, one_dvd _, h, fun j hj _ _ => hj⟩
  | succ k ih =>
    unfold selectedOrder
    split
    next hc => exact ⟨le_rfl, Nat.dvd_of_mod_eq_zero hc.1, hc.2, fun j hj _ _ => hj⟩
    next hc =>
      obtain ⟨h1, h2, h3, h4⟩ := ih
      refine ⟨h1.trans (Nat.le_succ k), h2, h3, fun j hj hd hle => ?_⟩
      rcases Nat.of_le_succ hj with hj | rfl
      · exact h4 j hj hd hle
      · exact absurd ⟨Nat.mod_eq_zero_of_dvd hd, hle⟩ hc

/-- The frames up to `idx` have been cut into blocks, each as large as fits. -/
structure Cutting (st : MmState) (fl : ℕ → List ℕ) (idx : ℕ) : Prop where
  area : FreeArea st fl
  region : ∀ f, f ∈ region (blocks fl) ↔ f < idx
  greatest : ∀ b ∈ blocks fl, b.order = selectedOrder st.frameCount b.index maxOrder
  le : idx ≤ st.frameCount

section Cut
variable {st : MmState} {fl : ℕ → List ℕ} {idx : ℕ}

theorem Cutting.noBuddies (h : Cutting st fl idx) : NoBuddies maxOrder (blocks fl) := by
  -- of two buddies, the lower one could be larger
  have hlow : ∀ b ∈ blocks fl, b.order < maxOrder → b.buddy ∈ blocks fl →
      2 ^ (b.order + 1) ∣ b.index → b.buddy = ⟨b.index + 2 ^ b.order, b.order⟩ → False := by
    intro b hb ho hbb hd he
    have hle := h.area.block_le hbb
    have hidx := h.area.block_le hb
    have hpos := Nat.two_pow_pos b.order
    rw [he] at hle
    dsimp only at hle
    have hp : 2 ^ (b.order + 1) = 2 ^ b.order + 2 ^ b.order := by rw [Nat.pow_succ]; omega
    have hlt : b.index < st.frameCount := by omega
    have := (selectedOrder_spec hlt maxOrder).2.2.2 (b.order + 1) ho hd (by omega)
    rw [← h.greatest b hb] at this
    omega
  intro b hb ho hbb
  rcases (h.area.tiling.aligned b hb).buddy_cases with ⟨hd, he⟩ | ⟨j, hd, hj, he⟩
  · exact hlow b hb ho hbb hd he
  · refine hlow b.buddy hbb ho (by rwa [Block.buddy_buddy]) ?_ ?_
    · rw [he]
      exact hd
    · rw [Block.buddy_buddy, he]
      exact Block.ext hj rfl

/-- **The loop of the cut** reaches the last frame. -/
theorem Cutting.cut (h : Cutting st fl idx) (fuel : ℕ) (hf : st.frameCount - idx ≤ fuel) :
    ∃ st' fl', cut fuel idx st = some st' ∧ Coalesced st' fl' {f | f < st.frameCount} ∧
      SameRange st st' := by
  induction fuel generalizing st fl idx with
  | zero =>
    have hidx : ¬ idx < st.frameCount := by omega
    refine ⟨st, fl, if_neg hidx, ⟨h.area, h.noBuddies, fun f => (h.region f).trans ?_⟩, .refl st⟩
    have := h.le
    rw [show idx = st.frameCount by omega]
    rfl
  | succ fuel ih =>
    unfold Init.cut
    by_cases hidx : idx < st.frameCount
    · rw [if_pos hidx]
      obtain ⟨ho, hd, hfit, -⟩ := selectedOrder_spec hidx maxOrder
      set order := selectedOrder st.frameCount idx maxOrder with horder
      obtain ⟨st1, h1, ha1, hs1, -⟩ := h.area.add ho hd fun f hf => by
        obtain ⟨h2, h3⟩ := hf
        dsimp only at h2 h3
        rw [h.region]
        omega
      have hstep : Cutting st1 (Function.update fl order (idx :: fl order)) (idx + 2 ^ order) := by
        refine ⟨ha1, fun f => ?_, fun b hb => ?_, by rw [hs1.frameCount]; exact hfit⟩
        · rw [blocks_cons ho, mem_region_insert, h.region, Block.Covers]
          dsimp only
          omega
        · rw [blocks_cons ho] at hb
          rw [hs1.frameCount]
          rcases hb with rfl | hb
          · exact horder
          · exact h.greatest b hb
      have hpos := Nat.two_pow_pos order
      obtain ⟨st', fl', h2, hc, hs2⟩ := ih hstep (by rw [hs1.frameCount]; omega)
      refine ⟨st', fl', ?_, ?_, hs1.trans hs2⟩
      · dsimp only
        rw [h1, Option.bind_some, h2]
      · rwa [hs1.frameCount] at hc
    · rw [if_neg hidx]
      refine ⟨st, fl, rfl, ⟨h.area, h.noBuddies, fun f => (h.region f).trans ?_⟩, .refl st⟩
      have := h.le
      rw [show idx = st.frameCount by omega]
      rfl

end Cut

theorem ring_foldl_init {o : ℕ} (ls : List ℕ) {l : Links Node}
    (h : o ∈ ls ∨ Ring l (.head o) []) :
    Ring (ls.foldl (fun l o => l.init (.head o)) l) (.head o) [] := by
  induction ls generalizing l with
  | nil => exact h.resolve_left List.not_mem_nil
  | cons o' ls ih =>
    refine ih ?_
    rcases eq_or_ne o o' with rfl | hne
    · exact .inr (Ring.init _ _)
    · refine h.imp (fun hm => (List.mem_cons.1 hm).resolve_left hne) fun hr => hr.init_of_ne ?_
      simpa using fun he => hne he.symm

theorem cutting_start (b : Boot) (rs : List Region) (p : Word) :
    Cutting (b.start rs p) (fun _ => []) 0 := by
  have h : Coalesced (b.start rs p) (fun _ => []) ∅ :=
    coalesced_nil (fun o ho => ring_foldl_init _ (.inl (List.mem_range.2 (Nat.lt_succ_of_le ho))))
      fun _ => rfl
  refine ⟨h.area, fun f => (h.region f).trans ?_, fun b hb => ?_, Nat.zero_le _⟩
  · exact iff_of_false (Set.notMem_empty f) (Nat.not_lt_zero f)
  · rw [blocks_nil] at hb
    exact hb.elim

/-! ### The whole of `mm_init` -/

/-- **Reserving the noted regions** takes out the frames whose pages touch one of them. -/
theorem reserveAll_spec {st : MmState} {fl : ℕ → List ℕ} {F : Set ℕ} (h : Coalesced st fl F)
    (hm : Managed st) {rs : List Region}
    (hr : ∀ r ∈ rs, r.start ≤ r.stop ∨
      st.managedBase.toNat + st.managedSize.toNat ≤ r.start.toNat ∨
      r.stop.toNat ≤ st.managedBase.toNat) :
    ∃ st' fl', reserveAll rs st = some st' ∧ SameRange st st' ∧
      Coalesced st' fl' {f | f ∈ F ∧
        ¬ ∃ r ∈ rs, Touches st.managedBase.toNat f r.start.toNat r.stop.toNat} := by
  induction rs generalizing st fl F with
  | nil =>
    exact ⟨st, fl, rfl, .refl st, coalesced_of_untouched h fun f _ ⟨r, hr, _⟩ => by cases hr⟩
  | cons r rs ih =>
    obtain ⟨st1, fl1, h1, hc1, hs1⟩ := memoryReserve_spec h hm r.start r.stop <|
      (hr r List.mem_cons_self).imp id (Or.imp_left fun hle => by rwa [BitVec.le_def, hm.end_toNat])
    obtain ⟨st', fl', h2, hs2, hc2⟩ := ih hc1 (hm.congr hs1) fun r' hr' => by
      rw [hs1.managedBase, hs1.managedSize]
      exact hr r' (List.mem_cons_of_mem _ hr')
    refine ⟨st', fl', by rw [reserveAll, h1, Option.bind_some, h2], hs1.trans hs2, hc2.area,
      hc2.noBuddies, fun f => (hc2.region f).trans ?_⟩
    rw [hs1.managedBase]
    simp only [Set.mem_ofPred_eq, List.exists_mem_cons_iff, not_or, and_assoc]

theorem kernelPtrToPhys_lt (a : Word) : (kernelPtrToPhys a).toNat + 2 ^ 38 ≤ 2 ^ 64 := by
  have hk : kernelVaOffset.toNat = 2 ^ 64 - 2 ^ 38 := by decide
  have ha := a.isLt
  unfold kernelPtrToPhys
  split
  next h =>
    rw [virtToPhysAddr, BitVec.toNat_sub_of_le h, hk]
    omega
  next h =>
    rw [BitVec.le_def, hk] at h
    omega

namespace Boot
variable (b : Boot)

/-- The ranges in use at boot: the device tree, the kernel, the initramfs and the region of the user
program. An initramfs at address `0` means that there is none. -/
def regions : List (ℕ × ℕ) :=
  [((kernelPtrToPhys b.fdt).toNat, (kernelPtrToPhys b.fdt).toNat + b.fdtTotalsize.toNat),
   ((kernelPtrToPhys b.kernelStart).toNat, (kernelPtrToPhys b.kernelEnd).toNat),
   if b.initrdStart = 0 then (0, 0) else (b.initrdStart.toNat, b.initrdEnd.toNat),
   (userProgBase.toNat, userProgBase.toNat + userProgMaxSize.toNat)]

/-- The end of the initramfs, rounded up to a page, does not wrap. The ends of the other ranges cannot
wrap. -/
def NoWrap : Prop := b.initrdEnd.toNat + 4095 < 2 ^ 64

/-- The page of a frame touches a range in use, rounded outward to pages, or `frame_array`. -/
def Reserved (st : MmState) (f : ℕ) : Prop :=
  ∃ q ∈ b.regions ++ [((kernelPtrToPhys st.framePtr).toNat,
      (kernelPtrToPhys st.framePtr).toNat + st.frameCount * sizeofPage)],
    q.1 < q.2 ∧ Touches st.managedBase.toNat f (q.1 / 4096 * 4096) ((q.2 + 4095) / 4096 * 4096)

/-- **The regions that `mm_init` notes first** are the ranges in use. -/
theorem earlyReserved_spec (base top : ℕ) :
    ∃ rs L, b.earlyReserved = some rs ∧ Table base top rs L ∧ L.length = 4 ∧
      (b.NoWrap → L = b.regions) := by
  have hfdt := kernelPtrToPhys_lt b.fdt
  have hend := kernelPtrToPhys_lt b.kernelEnd
  have hsz : (b.fdtTotalsize.setWidth 64).toNat = b.fdtTotalsize.toNat := by
    rw [BitVec.toNat_setWidth, Nat.mod_eq_of_lt (b.fdtTotalsize.isLt.trans (by decide))]
  have hsize := b.fdtTotalsize.isLt
  obtain ⟨rs1, h1, ht1⟩ := (@table_nil base top).add (kernelPtrToPhys b.fdt)
    (b.fdtTotalsize.setWidth 64) (by simp [maxEarlyReserved]) (.inl (by omega))
  rw [hsz] at ht1
  -- the kernel
  obtain ⟨rs2, h2, ht2⟩ : ∃ rs2,
      (if kernelPtrToPhys b.kernelStart < kernelPtrToPhys b.kernelEnd then
        earlyReserveAdd rs1 (kernelPtrToPhys b.kernelStart)
          (kernelPtrToPhys b.kernelEnd - kernelPtrToPhys b.kernelStart)
        else some rs1) = some rs2 ∧ Table base top rs2 (b.regions.take 2) := by
    split
    next hlt =>
      have hle := BitVec.le_of_lt hlt
      have hsz := BitVec.toNat_sub_of_le hle
      rw [BitVec.le_def] at hle
      obtain ⟨rs2, h2, ht2⟩ := ht1.add (kernelPtrToPhys b.kernelStart)
        (kernelPtrToPhys b.kernelEnd - kernelPtrToPhys b.kernelStart) (by simp [maxEarlyReserved])
        (.inl (by omega))
      rw [hsz, Nat.add_sub_cancel' hle] at ht2
      exact ⟨rs2, h2, ht2⟩
    next hge => exact ⟨rs1, rfl, ht1.skip (BitVec.not_lt.1 hge)⟩
  -- the initramfs
  obtain ⟨rs3, q, h3, ht3, hq⟩ : ∃ rs3 q,
      (if b.initrdStart ≠ 0 ∧ b.initrdEnd ≠ 0 ∧ b.initrdStart < b.initrdEnd then
        earlyReserveAdd rs2 b.initrdStart (b.initrdEnd - b.initrdStart)
        else some rs2) = some rs3 ∧ Table base top rs3 (b.regions.take 2 ++ [q]) ∧
      (b.NoWrap → q = if b.initrdStart = 0 then (0, 0)
        else (b.initrdStart.toNat, b.initrdEnd.toNat)) := by
    have hlen : (b.regions.take 2).length < maxEarlyReserved := by
      simp [Boot.regions, maxEarlyReserved]
    split
    next hc =>
      have hle := BitVec.le_of_lt hc.2.2
      have hsz := BitVec.toNat_sub_of_le hle
      rw [BitVec.le_def] at hle
      have hlt := b.initrdEnd.isLt
      by_cases hwrap : b.NoWrap
      · have hw : b.initrdEnd.toNat + 4095 < 2 ^ 64 := hwrap
        obtain ⟨rs3, h3, ht3⟩ := ht2.add b.initrdStart (b.initrdEnd - b.initrdStart) hlen
          (.inl (by omega))
        rw [hsz, Nat.add_sub_cancel' hle] at ht3
        exact ⟨rs3, _, h3, ht3, fun _ => (if_neg hc.1).symm⟩
      · have hw : ¬ b.initrdEnd.toNat + 4095 < 2 ^ 64 := hwrap
        obtain ⟨rs3, h3, ht3⟩ := ht2.add_wrapped b.initrdStart (b.initrdEnd - b.initrdStart) hlen
          (by omega) (by omega)
        exact ⟨rs3, _, h3, ht3, fun h => absurd h hwrap⟩
    next hc =>
      refine ⟨rs2, _, rfl, ht2.skip ?_, fun _ => rfl⟩
      split
      · exact le_rfl
      next hs =>
        by_cases he : b.initrdEnd = 0
        · rw [he]
          exact Nat.zero_le _
        · exact BitVec.not_lt.1 fun hlt => hc ⟨hs, he, hlt⟩
  obtain ⟨rs4, h4, ht4⟩ := ht3.add userProgBase userProgMaxSize
    (by simp [Boot.regions, maxEarlyReserved]) (.inl (by decide))
  refine ⟨rs4, _, ?_, ht4, rfl, fun h => by rw [hq h]; rfl⟩
  rw [earlyReserved, h1, Option.bind_some]
  dsimp only
  rw [h2, Option.bind_some, h3, Option.bind_some, h4]

/-- **`startup_alloc` returns** at boot, with room or without. -/
theorem framePtr_isSome : b.framePtr.isSome := by
  obtain ⟨rs, L, hrs, ht, -⟩ := b.earlyReserved_spec 0 0
  rw [framePtr, hrs, Option.bind_some]
  exact startupAlloc_isSome .linear ht.aligned _ _ _

variable {b}

theorem frameCount_mul : b.managedSize.toNat = b.frameCount * 4096 := by
  have h4096 : (4096 : Word).toNat = 4096 := rfl
  rw [frameCount, BitVec.toNat_udiv, h4096, managedSize, alignDown_toNat,
    Nat.mul_div_cancel _ (by decide)]

theorem managed_start (h : b.managedBase.toNat + b.managedSize.toNat ≤ 2 ^ 63) (rs : List Region)
    (p : Word) : Managed (b.start rs p) :=
  ⟨aligned_alignUp _, frameCount_mul, h.trans_lt (by decide)⟩

section Managed
variable (hsize : 4096 ≤ b.dtbMemSize.toNat)
  (hmem : b.dtbMemBase.toNat + b.dtbMemSize.toNat ≤ 2 ^ 63)
include hsize hmem

theorem managedBase_toNat : b.managedBase.toNat = (b.dtbMemBase.toNat + 4095) / 4096 * 4096 :=
  alignUp_toNat (by omega)

theorem managedSize_toNat : b.managedSize.toNat =
    (b.dtbMemSize.toNat - (b.managedBase.toNat - b.dtbMemBase.toNat)) / 4096 * 4096 := by
  have hb := managedBase_toNat hsize hmem
  have h1 : b.dtbMemBase ≤ b.managedBase := BitVec.le_def.2 (by omega)
  have h2 := BitVec.toNat_sub_of_le h1
  have h3 : b.managedBase - b.dtbMemBase ≤ b.dtbMemSize := BitVec.le_def.2 (by omega)
  rw [managedSize, alignDown_toNat, BitVec.toNat_sub_of_le h3, h2]

/-- **The managed range** lies in the memory region. -/
theorem managed_within : b.dtbMemBase.toNat ≤ b.managedBase.toNat ∧
    b.managedBase.toNat + b.managedSize.toNat ≤ b.dtbMemBase.toNat + b.dtbMemSize.toNat := by
  have hb := managedBase_toNat hsize hmem
  have hs := managedSize_toNat hsize hmem
  omega

end Managed

end Boot

/-- **What `mm_init` leaves**: no block is free together with its buddy, and the free frames are those
whose pages are in no range in use. -/
theorem mmInit_spec {b : Boot} {p : Word}
    (hend : b.managedBase.toNat + b.managedSize.toNat ≤ 2 ^ 63)
    (hp : b.framePtr = some p) (hp0 : p ≠ 0) (hmap : b.FrameArrayMapped p) :
    ∃ st fl F, mmInit b = some st ∧ Managed st ∧ Coalesced st fl F ∧
      st.managedBase = b.managedBase ∧ st.managedSize = b.managedSize ∧ st.framePtr = p ∧
      st.chunkFreeList = (fun _ => 0) ∧
      (b.NoWrap → ∀ f, f ∈ F ↔ f < st.frameCount ∧ ¬ b.Reserved st f) ∧
      (∀ f, f ∈ F ↔ f < st.frameCount ∧ ¬ ∃ r ∈ st.earlyReserved,
        Touches st.managedBase.toNat f r.start.toNat r.stop.toNat) ∧
      ∀ f ∈ F, ¬ Touches st.managedBase.toNat f (kernelPtrToPhys p).toNat
        ((kernelPtrToPhys p).toNat + st.frameCount * sizeofPage) := by
  have hfc : b.managedSize.toNat = b.frameCount * 4096 := Boot.frameCount_mul
  have hbound := kernelPtrToPhys_lt p
  obtain ⟨rs, L, hrs, ht, hlen, hL⟩ := b.earlyReserved_spec b.managedBase.toNat
    (b.managedBase.toNat + b.managedSize.toNat)
  have hfs : b.frameArraySize.toNat = b.frameCount * sizeofPage := by
    rw [Boot.frameArraySize, BitVec.toNat_ofNat, Nat.mod_eq_of_lt]
    unfold sizeofPage
    omega
  -- the array does not wrap, or it starts behind the managed range
  obtain ⟨rs', hrs', ht'⟩ := ht.add (kernelPtrToPhys p) b.frameArraySize
    (by rw [hlen]; decide) (by rw [hfs]; unfold sizeofPage; omega)
  obtain ⟨st1, fl1, h1, hc1, hs1⟩ := (cutting_start b rs' p).cut b.frameCount le_rfl
  have hm1 : Managed st1 := (Boot.managed_start hend rs' p).congr hs1
  have hb1 : st1.managedBase = b.managedBase := hs1.managedBase
  have hsz1 : st1.managedSize = b.managedSize := hs1.managedSize
  have hord := ht'.ordered
  rw [← hb1, ← hsz1] at hord
  obtain ⟨st, fl, h2, hs2, hc2⟩ := reserveAll_spec hc1 hm1 hord
  have hs := hs1.trans hs2
  refine ⟨st, fl, _, ?_, hm1.congr hs2, hc2, hs.managedBase, hs.managedSize, hs.framePtr,
    hs.chunkFreeList, fun hwrap f => ?_, fun f => ?_, fun f hf ht => ?_⟩
  · rw [mmInit, hrs, Option.bind_some, hp, Option.bind_some,
      if_neg (not_or.2 ⟨hp0, not_not.2 hmap⟩), hrs', Option.bind_some,
      h1, Option.bind_some, h2]
  · have hfc2 : st.frameCount = b.frameCount := hs.frameCount
    have hb2 : st.managedBase = b.managedBase := hs.managedBase
    have hp2 : st.framePtr = p := hs.framePtr
    rw [Set.mem_ofPred_eq, Set.mem_ofPred_eq, hfc2, hb1]
    refine and_congr_right fun hf => not_congr ?_
    change f < b.frameCount at hf
    rw [ht'.touches f (by omega), Boot.Reserved, hfs, hb2, hp2, hfc2, hL hwrap]
  · have hb2 : st.managedBase = st1.managedBase := hs2.managedBase
    have hr2 : st.earlyReserved = rs' := hs.earlyReserved
    have hfc2 : st.frameCount = b.frameCount := hs.frameCount
    rw [hb2, hr2, hfc2]
    exact Iff.rfl
  · have hb2 : st.managedBase = b.managedBase := hs.managedBase
    have hfc2 : st.frameCount = b.frameCount := hs.frameCount
    rw [Set.mem_ofPred_eq, Set.mem_ofPred_eq, hb1] at hf
    obtain ⟨hlt, hno⟩ := hf
    change f < b.frameCount at hlt
    refine hno ((ht'.touches f (by omega)).2
      ⟨_, List.mem_append_right _ (List.mem_singleton_self _), ?_, ?_⟩)
    · obtain ⟨a, h3, h4, -, -⟩ := ht
      rw [hfs, ← hfc2]
      dsimp only
      omega
    · rw [hb2] at ht
      have hpos :
          (kernelPtrToPhys p).toNat < (kernelPtrToPhys p).toNat + st.frameCount * sizeofPage := by
        obtain ⟨a, h3, h4, -, -⟩ := ht
        omega
      rw [hfs, ← hfc2]
      exact (touches_round (aligned_alignUp _) hpos).2 ht

theorem framePtr_of_mmInit {b : Boot} {st : MmState} (h : mmInit b = some st) :
    ∃ p, b.framePtr = some p ∧ p ≠ 0 ∧ b.FrameArrayMapped p := by
  obtain ⟨rs, -, h⟩ := Option.bind_eq_some_iff.1 h
  obtain ⟨p, hp, h⟩ := Option.bind_eq_some_iff.1 h
  split at h
  · cases h
  next hn =>
    rw [not_or, not_not] at hn
    exact ⟨p, hp, hn⟩

theorem left_of_mmInit {b : Boot} {st : MmState} (h : mmInit b = some st)
    (hend : b.managedBase.toNat + b.managedSize.toNat ≤ 2 ^ 63) :
    ∃ fl F, Managed st ∧ Coalesced st fl F ∧
      st.managedBase = b.managedBase ∧ st.managedSize = b.managedSize ∧
      (b.framePtr = some st.framePtr ∧ st.framePtr ≠ 0) ∧ st.chunkFreeList = (fun _ => 0) ∧
      (b.NoWrap → ∀ f, f ∈ F ↔ f < st.frameCount ∧ ¬ b.Reserved st f) ∧
      (∀ f, f ∈ F ↔ f < st.frameCount ∧ ¬ ∃ r ∈ st.earlyReserved,
        Touches st.managedBase.toNat f r.start.toNat r.stop.toNat) ∧
      ∀ f ∈ F, ¬ Touches st.managedBase.toNat f (kernelPtrToPhys st.framePtr).toNat
        ((kernelPtrToPhys st.framePtr).toNat + st.frameCount * sizeofPage) := by
  obtain ⟨p, hp, hp0, hmap⟩ := framePtr_of_mmInit h
  obtain ⟨st', fl, F, h1, hm, hc, hb, hs, rfl, hrest⟩ := mmInit_spec hend hp hp0 hmap
  obtain rfl := Option.some.inj (h.symm.trans h1)
  exact ⟨fl, F, hm, hc, hb, hs, ⟨hp, hp0⟩, hrest⟩

/-- **`mm_init` frees exactly the frames that are not in use.** With room for `frame_array` it
completes exactly if that room is mapped. The managed range lies in the memory region, the free blocks
are aligned and lie in the managed range, a frame whose page is in use is in none of them, and any
other frame in exactly one. -/
theorem mmInit_frees {b : Boot} {p : Word} (hsize : 4096 ≤ b.dtbMemSize.toNat)
    (hmem : b.dtbMemBase.toNat + b.dtbMemSize.toNat ≤ 2 ^ 63) (hwrap : b.NoWrap)
    (hp : b.framePtr = some p) (hp0 : p ≠ 0) :
    ((mmInit b).isSome ↔ b.FrameArrayMapped p) ∧ ∀ st, mmInit b = some st →
      st.framePtr = p ∧ st.frameCount = b.frameCount ∧ st.managedSize = b.managedSize ∧
      (b.dtbMemBase.toNat ≤ st.managedBase.toNat ∧ st.managedBase.toNat + st.managedSize.toNat ≤
        b.dtbMemBase.toNat + b.dtbMemSize.toNat) ∧
      (∀ blk ∈ st.freeBlocks, blk.Aligned ∧ blk.index + 2 ^ blk.order ≤ st.frameCount) ∧
      ∀ f < st.frameCount,
        (¬ b.Reserved st f → ∃! blk, blk ∈ st.freeBlocks ∧ blk.Covers f) ∧
          (b.Reserved st f → ∀ blk ∈ st.freeBlocks, ¬ blk.Covers f) := by
  have hw := Boot.managed_within hsize hmem
  refine ⟨⟨fun h => ?_, fun hmap => ?_⟩, fun st hst => ?_⟩
  · obtain ⟨st, hst⟩ := Option.isSome_iff_exists.1 h
    obtain ⟨p', hp', -, hmap⟩ := framePtr_of_mmInit hst
    rwa [← Option.some.inj (hp.symm.trans hp')] at hmap
  · obtain ⟨st, -, -, h1, -⟩ := mmInit_spec (hw.2.trans hmem) hp hp0 hmap
    rw [h1]
    rfl
  obtain ⟨fl, F, hm, hc, hb, hs, ⟨hp', -⟩, -, hF, -⟩ := left_of_mmInit hst (hw.2.trans hmem)
  have hfp : st.framePtr = p := Option.some.inj (hp'.symm.trans hp)
  have hfc : st.frameCount = b.frameCount := by
    have h2 := hm.size
    have h3 : b.managedSize.toNat = b.frameCount * 4096 := Boot.frameCount_mul
    rw [hs] at h2
    omega
  refine ⟨hfp, hfc, hs, by rw [hb, hs]; exact hw, ?_⟩
  rw [hc.area.freeBlocks_eq]
  refine ⟨fun blk hblk => ⟨hc.area.tiling.aligned blk hblk, hc.area.block_le hblk⟩,
    fun f hf => ⟨fun hn => ?_, fun hr blk hblk hcov => ?_⟩⟩
  · obtain ⟨blk, hblk, hcov⟩ := (hc.region f).2 ((hF hwrap f).2 ⟨hf, hn⟩)
    exact ⟨blk, ⟨hblk, hcov⟩, fun blk' h' => hc.area.tiling.disjoint _ h'.1 _ hblk f h'.2 hcov⟩
  · exact ((hF hwrap f).1 ((hc.region f).1 ⟨blk, hblk, hcov⟩)).2 hr

/-- A machine with some 40 pages from the middle of a page on; the initramfs begins and ends in the
middle of a page. -/
def smallBoot : Boot where
  dtbMemBase := 0x80000800
  dtbMemSize := 0x28000
  fdt := 0xffffffc080003010
  fdtTotalsize := 0x100
  kernelStart := 0xffffffc080006000
  kernelEnd := 0xffffffc080007234
  initrdStart := 0x80010004
  initrdEnd := 0x80012008
  mem := fun _ => 0

theorem mmInit_frees_small :
    ((mmInit smallBoot).isSome ↔ smallBoot.FrameArrayMapped 0xffffffc080001000) ∧
    ∀ st, mmInit smallBoot = some st → st.framePtr = 0xffffffc080001000 ∧
      st.frameCount = smallBoot.frameCount ∧ st.managedSize = smallBoot.managedSize ∧
      (0x80000800 ≤ st.managedBase.toNat ∧
        st.managedBase.toNat + st.managedSize.toNat ≤ 0x80028800) ∧
      (∀ blk ∈ st.freeBlocks, blk.Aligned ∧ blk.index + 2 ^ blk.order ≤ st.frameCount) ∧
      ∀ f < st.frameCount,
        (¬ smallBoot.Reserved st f → ∃! blk, blk ∈ st.freeBlocks ∧ blk.Covers f) ∧
          (smallBoot.Reserved st f → ∀ blk ∈ st.freeBlocks, ¬ blk.Covers f) :=
  mmInit_frees (b := smallBoot) (p := 0xffffffc080001000) (by decide) (by decide)
    (by unfold Boot.NoWrap; decide) (by decide +kernel) (by decide)

end OscKernel.Mm.Init
