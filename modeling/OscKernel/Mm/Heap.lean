import OscKernel.Mm.Chunks
import OscKernel.Mm.Tags

/-! # The heap

Blocks of pages and chunks share the frames that `mm_init` left free: some frames are free, some lie
in blocks of callers, and some were cut into chunks.

* `Extent`: what a caller can hold.
* `Shared k F0 st fl cp cl live`: the free blocks, the pages cut into chunks, the free chunks and the
  held extents share out the frames.
* `Shared.eq_of_has`: no byte belongs to two of them.
* `Shared.allocPages`, `Shared.freePages`, `Shared.allocate`, `Shared.freeChunk`: what the calls do.
* `Shared.allocate_isSome`: `allocate` faults only where the managed range is not mapped. -/

namespace OscKernel.Mm.Heap

open OscKernel.Lib.Memory OscKernel.Lib.Dyadic OscKernel.Lib.NodePool OscKernel.Vm.Tables
  OscKernel.Mm.Frames OscKernel.Mm.Reserve OscKernel.Mm.Pages OscKernel.Mm.Held OscKernel.Mm.Chunks

/-! ### Extents -/

/-- What a caller can hold: a block of pages, or the chunk of a pool at an offset from
`managed_base`. -/
inductive Extent
  | pages (blk : Block)
  | chunk (pool : Fin 8) (off : ℕ)
  deriving DecidableEq

namespace Extent

/-- Where the extent starts, counted from `managed_base`. -/
def offset : Extent → ℕ
  | pages blk => blk.index * 4096
  | chunk _ off => off

/-- The number of bytes. -/
def length : Extent → ℕ
  | pages blk => 2 ^ blk.order * 4096
  | chunk pool _ => chunkSize pool

/-- The block of an extent of pages. -/
def block? : Extent → Option Block
  | pages blk => some blk
  | chunk _ _ => none

/-- The byte at an offset lies in the extent. -/
def Has (e : Extent) (x : ℕ) : Prop := e.offset ≤ x ∧ x < e.offset + e.length

theorem length_pos (e : Extent) : 0 < e.length := by
  cases e with
  | pages blk => exact Nat.mul_pos (Nat.two_pow_pos _) (by omega)
  | chunk pool off => exact Nat.lt_of_lt_of_le (by omega) (chunkSize_pos pool)

theorem has_offset (e : Extent) : e.Has e.offset := ⟨le_rfl, by have := e.length_pos; omega⟩

theorem pages_has {blk : Block} {x : ℕ} : (pages blk).Has x ↔ blk.Covers (x / 4096) := by
  unfold Has Block.Covers
  change blk.index * 4096 ≤ x ∧ x < blk.index * 4096 + 2 ^ blk.order * 4096 ↔ _
  rw [← Nat.add_mul, Nat.le_div_iff_mul_le (by omega), Nat.div_lt_iff_lt_mul (by omega)]

theorem chunk_has {pool : Fin 8} {off x : ℕ} (h : chunkSize pool ∣ off)
    (hx : (chunk pool off).Has x) :
    x / 4096 = off / 4096 := by
  obtain ⟨h1, h2⟩ := hx
  change off ≤ x at h1
  change x < off + chunkSize pool at h2
  have := chunk_le h
  omega

theorem chunk_unique {pool : Fin 8} {n m x : ℕ} (hn : chunkSize pool ∣ n) (hm : chunkSize pool ∣ m)
    (hx : (chunk pool n).Has x) (hx' : (chunk pool m).Has x) : n = m := by
  obtain ⟨h1, h2⟩ := hx
  obtain ⟨h3, h4⟩ := hx'
  change n ≤ x at h1
  change x < n + chunkSize pool at h2
  change m ≤ x at h3
  change x < m + chunkSize pool at h4
  rcases Nat.lt_trichotomy n m with hlt | he | hlt
  · have := chunk_apart hn hm hlt
    omega
  · exact he
  · have := chunk_apart hm hn hlt
    omega

end Extent

/-- The blocks in use: those of the held extents, and the pages that were cut into chunks. -/
def heldBlocks (cp : List (ℕ × Fin 8)) (live : List Extent) : List Block :=
  live.filterMap Extent.block? ++ cp.map fun c => ⟨c.1, 0⟩

/-- **The frames `F0` are shared out.** The free lists hold `fl`, the pages `cp` were cut into chunks,
the chunks `cl` are free, and callers hold the extents `live`. -/
structure Shared (k : Pointers) (F0 : Set ℕ) (st : MmState) (fl : ℕ → List ℕ) (cp : List (ℕ × Fin 8))
    (cl : Fin 8 → List ℕ) (live : List Extent) : Prop where
  translates : Translates k st
  holding : Holding F0 st fl (heldBlocks cp live)
  ptr_ne : ∀ blk ∈ heldBlocks cp live, ptrAt k st (blk.index * 4096) ≠ 0
  pages : ∀ blk, .pages blk ∈ live → (st.frameArray blk.index).chunkSize = 0
  chunkPages : ∀ c ∈ cp, (st.frameArray c.1).chunkSize = poolSizes c.2 ∧
    (st.frameArray c.1).chunkPool = (c.2.1 : ℤ)
  lists : ChunkLists k st cl
  chunks : ∀ i n, n ∈ cl i ∨ .chunk i n ∈ live ↔ (n / 4096, i) ∈ cp ∧ chunkSize i ∣ n
  nodup : ∀ i, (cl i).Nodup
  notFree : ∀ i, ∀ n ∈ cl i, .chunk i n ∉ live
  live_nodup : live.Nodup
  mapped : ∀ c ∈ cp, ∀ n, n / 4096 = c.1 → chunkSize c.2 ∣ n → k.mapped (ptrAt k st n)

section Shared
variable {k : Pointers} {F0 : Set ℕ} {st st' : MmState} {fl : ℕ → List ℕ} {cp : List (ℕ × Fin 8)}
  {cl : Fin 8 → List ℕ} {live live' : List Extent} {e e' : Extent} {blk : Block} {i : Fin 8}
  {n x : ℕ}

theorem mem_heldBlocks : blk ∈ heldBlocks cp live ↔
    .pages blk ∈ live ∨ ∃ c ∈ cp, (⟨c.1, 0⟩ : Block) = blk := by
  unfold heldBlocks
  rw [List.mem_append, List.mem_map, List.mem_filterMap]
  refine or_congr_left ⟨?_, fun h => ⟨_, h, rfl⟩⟩
  rintro ⟨e, he, hb⟩
  cases e with
  | pages blk' =>
    obtain rfl := Option.some.inj hb
    exact he
  | chunk i n => cases hb

theorem Shared.pool_unique (h : Shared k F0 st fl cp cl live) {f : ℕ} {i i' : Fin 8}
    (hc : (f, i) ∈ cp)
    (hc' : (f, i') ∈ cp) : i = i' := by
  have hnd : (cp.map fun c => (⟨c.1, 0⟩ : Block)).Nodup :=
    (List.nodup_append.1 h.holding.nodup).2.1
  have := List.inj_on_of_nodup_map hnd hc hc' rfl
  exact congrArg Prod.snd this

theorem Shared.not_both (h : Shared k F0 st fl cp cl live) (hb : .pages blk ∈ live)
    (hc : (n, i) ∈ cp) :
    ¬ blk.Covers n := by
  intro hcov
  have hd := (List.pairwise_append.1 h.holding.disjoint).2.2 blk
    (List.mem_filterMap.2 ⟨_, hb, rfl⟩) ⟨n, 0⟩ (List.mem_map.2 ⟨_, hc, rfl⟩)
  exact hd n hcov (Block.covers_index _)

/-- The extents that are held, and the free chunks. -/
def Owner (cl : Fin 8 → List ℕ) (live : List Extent) (e : Extent) : Prop :=
  e ∈ live ∨ ∃ i n, n ∈ cl i ∧ e = .chunk i n

theorem Shared.owner_chunk (h : Shared k F0 st fl cp cl live) (ho : Owner cl live (.chunk i n)) :
    (n / 4096, i) ∈ cp ∧ chunkSize i ∣ n := by
  refine (h.chunks i n).1 ?_
  rcases ho with ho | ⟨j, m, hm, he⟩
  · exact .inr ho
  · cases he
    exact .inl hm

theorem owner_pages (ho : Owner cl live (.pages blk)) : .pages blk ∈ live := by
  rcases ho with ho | ⟨j, m, -, he⟩
  · exact ho
  · cases he

/-- **No byte belongs to two extents**, held or free chunks. -/
theorem Shared.eq_of_has (h : Shared k F0 st fl cp cl live) (he : Owner cl live e)
    (he' : Owner cl live e') (hx : e.Has x) (hx' : e'.Has x) : e = e' := by
  cases e with
  | pages b =>
    have hb := owner_pages he
    rw [Extent.pages_has] at hx
    cases e' with
    | pages b' =>
      have hb' := owner_pages he'
      rw [Extent.pages_has] at hx'
      rw [h.holding.eq_of_covers (mem_heldBlocks.2 (.inl hb)) (mem_heldBlocks.2 (.inl hb')) hx hx']
    | chunk i n =>
      obtain ⟨hc, hd⟩ := h.owner_chunk he'
      rw [Extent.chunk_has hd hx'] at hx
      exact absurd hx (h.not_both hb hc)
  | chunk i n =>
    obtain ⟨hc, hd⟩ := h.owner_chunk he
    have hf := Extent.chunk_has hd hx
    cases e' with
    | pages b' =>
      have hb' := owner_pages he'
      rw [Extent.pages_has, hf] at hx'
      exact absurd hx' (h.not_both hb' hc)
    | chunk j m =>
      obtain ⟨hc', hd'⟩ := h.owner_chunk he'
      have hf' := Extent.chunk_has hd' hx'
      obtain rfl := h.pool_unique hc (hf.symm.trans hf' ▸ hc')
      rw [Extent.chunk_unique hd hd' hx hx']

theorem Shared.held_of_has (h : Shared k F0 st fl cp cl live) (he : Owner cl live e) (hx : e.Has x) :
    ∃ blk ∈ heldBlocks cp live, blk.Covers (x / 4096) := by
  cases e with
  | pages b => exact ⟨b, mem_heldBlocks.2 (.inl (owner_pages he)), Extent.pages_has.1 hx⟩
  | chunk i n =>
    obtain ⟨hc, hd⟩ := h.owner_chunk he
    refine ⟨⟨n / 4096, 0⟩, mem_heldBlocks.2 (.inr ⟨_, hc, rfl⟩), ?_⟩
    rw [Extent.chunk_has hd hx]
    exact Block.covers_index _

theorem Shared.has_lt (h : Shared k F0 st fl cp cl live) (he : Owner cl live e) (hx : e.Has x) :
    x < st.managedSize.toNat := by
  obtain ⟨blk, hb, hcov⟩ := h.held_of_has he hx
  have := h.holding.lt _ (h.holding.within blk hb _ hcov)
  rw [h.holding.managed.size]
  omega

theorem Shared.apart (h : Shared k F0 st fl cp cl live) (he : Owner cl live e)
    (he' : Owner cl live e') (hne : e ≠ e') :
    e.offset + e.length ≤ e'.offset ∨ e'.offset + e'.length ≤ e.offset := by
  by_contra hn
  rw [not_or, not_le, not_le] at hn
  have h1 := e.length_pos
  have h2 := e'.length_pos
  rcases Nat.le_total e.offset e'.offset with hle | hle
  · exact hne (h.eq_of_has he he' ⟨hle, hn.1⟩ e'.has_offset)
  · exact hne (h.eq_of_has he he' e.has_offset ⟨hle, hn.2⟩)

theorem Shared.offset_ne (h : Shared k F0 st fl cp cl live) (he : Owner cl live e) :
    ptrAt k st e.offset ≠ 0 := by
  cases e with
  | pages b => exact h.ptr_ne b (mem_heldBlocks.2 (.inl (owner_pages he)))
  | chunk i n =>
    intro h0
    have hlt := h.has_lt he (Extent.has_offset _)
    obtain rfl : n = 0 := h.translates.null n hlt h0
    exact h.ptr_ne ⟨0, 0⟩ (mem_heldBlocks.2 (.inr ⟨_, (h.owner_chunk he).1, rfl⟩)) h0

theorem Shared.head_ne {l : List ℕ} (h : Shared k F0 st fl cp cl live) (hc : cl i = n :: l) :
    ptrAt k st n ≠ 0 :=
  h.offset_ne (e := .chunk i n) (.inr ⟨i, n, by rw [hc]; exact List.mem_cons_self, rfl⟩)

theorem Shared.chunk_ne (h : Shared k F0 st fl cp cl (.chunk i n :: live)) : ptrAt k st n ≠ 0 :=
  h.offset_ne (e := .chunk i n) (.inl List.mem_cons_self)

theorem Shared.chunk_mapped (h : Shared k F0 st fl cp cl live) (ho : Owner cl live (.chunk i n)) :
    k.mapped (ptrAt k st n) := by
  obtain ⟨hc, hd⟩ := h.owner_chunk ho
  exact h.mapped _ hc n rfl hd

end Shared

/-! ### The blocks of pages -/

theorem SameFrames.coalesced {st st' : MmState} {fl : ℕ → List ℕ} {F : Set ℕ} (hs : SameFrames st st')
    (h : Coalesced st fl F) : Coalesced st' fl F := by
  have hl := h.area.lists
  refine ⟨⟨⟨fun o ho => ?_, hl.unique, fun o ho idx hm => ?_, fun idx hn => ?_⟩, h.area.tiling,
    fun f hf => ?_⟩, h.noBuddies, h.region⟩
  · rw [hs.links]
    exact hl.ring o ho
  · rw [hs.frameArray]
    exact hl.listed o ho idx hm
  · rw [hs.frameArray]
    exact hl.notListed idx hn
  · rw [hs.frameCount]
    exact h.area.lt f hf

theorem SameFrames.holding {F0 : Set ℕ} {st st' : MmState} {fl : ℕ → List ℕ} {held : List Block}
    (hs : SameFrames st st') (h : Holding F0 st fl held) : Holding F0 st' fl held :=
  h.congr (SameFrames.coalesced hs h.coalesced) hs.managedBase hs.managedSize hs.frameCount
    fun b _ => by rw [hs.frameArray]

section Pages
variable {k : Pointers} {F0 : Set ℕ} {st st' : MmState} {fl fl' : ℕ → List ℕ}
  {cp : List (ℕ × Fin 8)} {cl : Fin 8 → List ℕ} {live live' : List Extent} {blk : Block}
  {idx order : ℕ}

theorem Shared.perm (h : Shared k F0 st fl cp cl live) (hp : live.Perm live') :
    Shared k F0 st fl cp cl live' := by
  have hb : (heldBlocks cp live).Perm (heldBlocks cp live') :=
    (hp.filterMap _).append_right _
  exact ⟨h.translates, h.holding.perm hb, fun b hm => h.ptr_ne b (hb.mem_iff.2 hm),
    fun b hm => h.pages b (hp.mem_iff.2 hm), h.chunkPages, h.lists,
    fun i n => by rw [← hp.mem_iff]; exact h.chunks i n, h.nodup,
    fun i n hn hm => h.notFree i n hn (hp.mem_iff.2 hm), hp.nodup_iff.1 h.live_nodup, h.mapped⟩

theorem SameRange.lists (hs : SameRange st st') (h : ChunkLists k st cl) : ChunkLists k st' cl :=
  h.congr hs.managedBase hs.chunkFreeList fun _ _ _ => by rw [hs.mem]

/-- **What `alloc_pages` does**: there is no free block of sufficient order, or the lower part of the
first one is taken. When the pointer to it is not null, the caller holds it. -/
inductive PagesTaken (k : Pointers) (F0 : Set ℕ) (st : MmState) (fl : ℕ → List ℕ)
    (cp : List (ℕ × Fin 8)) (cl : Fin 8 → List ℕ) (live : List Extent) (order : ℕ) :
    Word → MmState → Prop
  | failed (h : ∀ blk ∈ blocks fl, blk.order < order) : PagesTaken k F0 st fl cp cl live order 0 st
  | taken {st' : MmState} {fl' : ℕ → List ℕ} {idx current : ℕ}
      (first : FirstFit fl order idx current) (aligned : (⟨idx, order⟩ : Block).Aligned)
      (free : ∀ f, (⟨idx, order⟩ : Block).Covers f → f ∈ region (blocks fl))
      (left : ∀ f, f ∈ region (blocks fl') ↔
        f ∈ region (blocks fl) ∧ ¬ (⟨idx, order⟩ : Block).Covers f)
      (area : FreeArea st' fl') (changed : (st'.frameArray idx).state = .used) (same : SameRange st st')
      (shared : ptrAt k st (idx * 4096) ≠ 0 →
        Shared k F0 st' fl' cp cl (.pages ⟨idx, order⟩ :: live)) :
      PagesTaken k F0 st fl cp cl live order (ptrAt k st (idx * 4096)) st'

theorem PagesTaken.sameRange {p : Word} (h : PagesTaken k F0 st fl cp cl live order p st') :
    SameRange st st' := by
  cases h with
  | failed => exact .refl st
  | taken _ _ _ _ _ _ same _ => exact same

theorem Shared.allocPages (h : Shared k F0 st fl cp cl live) (order : ℕ) :
    ∃ p st', Pages.allocPages k order st = some (p, st') ∧
      PagesTaken k F0 st fl cp cl live order p st' := by
  obtain ⟨p, st', h1, h2⟩ := h.holding.alloc k order
  refine ⟨p, st', h1, ?_⟩
  cases h2 with
  | failed hn => exact .failed hn
  | @taken st' fl' idx current first free holding same page others =>
    have hself : (⟨idx, order⟩ : Block).Covers idx := Block.covers_index _
    refine .taken first (holding.aligned _ List.mem_cons_self)
      (fun f hf => (h.holding.coalesced.region f).2 (free f hf)) (fun f => ?_)
      holding.coalesced.area (by rw [page]) same fun hne => ?_
    · rw [holding.coalesced.region, h.holding.coalesced.region, Set.mem_ofPred_eq,
        Set.mem_ofPred_eq, List.forall_mem_cons, and_assoc]
      exact and_congr_right fun _ => and_comm
    · have hptr : ∀ n, ptrAt k st' n = ptrAt k st n := fun n => ptrAt_congr same.managedBase
      have hblocks : heldBlocks cp (.pages ⟨idx, order⟩ :: live) =
          ⟨idx, order⟩ :: heldBlocks cp live := rfl
      have hkeep : ∀ b ∈ heldBlocks cp live, st'.frameArray b.index = st.frameArray b.index :=
        fun b hb => others b hb _ (Block.covers_index b)
      refine ⟨h.translates.congr same.managedBase same.managedSize, holding, ?_, ?_, ?_,
        SameRange.lists same h.lists, fun i n => ?_, h.nodup, fun i n hn hm => ?_, ?_,
        fun c hc n hn hd => (hptr n).symm ▸ h.mapped c hc n hn hd⟩
      · rw [hblocks]
        refine List.forall_mem_cons.2 ⟨by rwa [hptr], fun b hb => ?_⟩
        rw [hptr]
        exact h.ptr_ne b hb
      · intro b hb
        rcases List.mem_cons.1 hb with he | hb
        · cases he
          rw [page]
        · rw [hkeep b (mem_heldBlocks.2 (.inl hb))]
          exact h.pages b hb
      · intro c hc
        rw [hkeep ⟨c.1, 0⟩ (mem_heldBlocks.2 (.inr ⟨c, hc, rfl⟩))]
        exact h.chunkPages c hc
      · rw [← h.chunks i n, List.mem_cons]
        simp
      · rcases List.mem_cons.1 hm with he | hm
        · cases he
        · exact h.notFree i n hn hm
      · refine List.nodup_cons.2 ⟨fun hm => ?_, h.live_nodup⟩
        exact (free idx hself).2 _ (mem_heldBlocks.2 (.inl hm)) hself

/-- **`free_pages`** gives back a block of pages that is held. -/
theorem Shared.freePages (h : Shared k F0 st fl cp cl (.pages blk :: live)) :
    ∃ st' fl', Pages.freePages k (ptrAt k st (blk.index * 4096)) st = some st' ∧ SameRange st st' ∧
      Shared k F0 st' fl' cp cl live := by
  have hblocks : heldBlocks cp (.pages blk :: live) = blk :: heldBlocks cp live := rfl
  have hmem : blk ∈ heldBlocks cp (.pages blk :: live) := mem_heldBlocks.2 (.inl List.mem_cons_self)
  have hlt := h.has_lt (.inl List.mem_cons_self) (Extent.has_offset (.pages blk))
  obtain ⟨st', fl', h1, same, holding, others⟩ := h.holding.free k hmem (h.ptr_ne blk hmem)
    (h.translates.toPhys _ hlt)
  rw [hblocks, List.erase_cons_head] at holding others
  have hkeep : ∀ b ∈ heldBlocks cp live, st'.frameArray b.index = st.frameArray b.index :=
    fun b hb => others b hb _ (Block.covers_index b)
  refine ⟨st', fl', h1, same, h.translates.congr same.managedBase same.managedSize, holding,
    fun b hb => ?_, fun b hb => ?_, fun c hc => ?_, SameRange.lists same h.lists, fun i n => ?_,
    h.nodup, fun i n hn hm => h.notFree i n hn (List.mem_cons_of_mem _ hm),
    (List.nodup_cons.1 h.live_nodup).2,
    fun c hc n hn hd => (ptrAt_congr same.managedBase).symm ▸ h.mapped c hc n hn hd⟩
  · rw [ptrAt_congr same.managedBase]
    exact h.ptr_ne b (List.mem_cons_of_mem _ hb)
  · rw [hkeep b (mem_heldBlocks.2 (.inl hb))]
    exact h.pages b (List.mem_cons_of_mem _ hb)
  · rw [hkeep ⟨c.1, 0⟩ (mem_heldBlocks.2 (.inr ⟨c, hc, rfl⟩))]
    exact h.chunkPages c hc
  · rw [← h.chunks i n, List.mem_cons]
    simp

end Pages

/-! ### The chunks -/

section Chunks
variable {k : Pointers} {F0 : Set ℕ} {st st' : MmState} {fl fl' : ℕ → List ℕ}
  {cp : List (ℕ × Fin 8)} {cl : Fin 8 → List ℕ} {live live' : List Extent} {i : Fin 8} {n : ℕ}
  {l : List ℕ}

theorem Shared.trade (h : Shared k F0 st fl cp cl live) (hs : SameFrames st st')
    {cl' : Fin 8 → List ℕ} (hb : ∀ blk, .pages blk ∈ live' ↔ .pages blk ∈ live)
    (hlive : heldBlocks cp live' = heldBlocks cp live) (hl : ChunkLists k st' cl')
    (hc : ∀ i n, n ∈ cl' i ∨ .chunk i n ∈ live' ↔ n ∈ cl i ∨ .chunk i n ∈ live)
    (hnd : ∀ i, (cl' i).Nodup) (hn : ∀ i, ∀ n ∈ cl' i, .chunk i n ∉ live') (hnd' : live'.Nodup) :
    Shared k F0 st' fl cp cl' live' := by
  refine ⟨h.translates.congr hs.managedBase hs.managedSize, ?_, fun b hm => ?_, fun b hm => ?_,
    fun c hm => ?_, hl, fun i n => (hc i n).trans (h.chunks i n), hnd, hn, hnd',
    fun c hm n hn hd => (ptrAt_congr hs.managedBase).symm ▸ h.mapped c hm n hn hd⟩
  · rw [hlive]
    exact SameFrames.holding hs h.holding
  · rw [hlive] at hm
    rw [ptrAt_congr hs.managedBase]
    exact h.ptr_ne b hm
  · rw [hs.frameArray]
    exact h.pages b ((hb b).1 hm)
  · rw [hs.frameArray]
    exact h.chunkPages c hm

theorem mem_update_cons {j : Fin 8} {m : ℕ} : m ∈ Function.update cl i (n :: cl i) j ↔
    (j = i ∧ m = n) ∨ m ∈ cl j := by
  rcases eq_or_ne j i with rfl | hne
  · simp
  · simp [hne]

theorem Shared.push (h : Shared k F0 st fl cp cl (.chunk i n :: live)) :
    Shared k F0 (pushed i (ptrAt k st n) st) fl cp (Function.update cl i (n :: cl i)) live := by
  have hmem : Owner cl (.chunk i n :: live) (.chunk i n) := .inl List.mem_cons_self
  have hlt : ∀ {e}, Owner cl (.chunk i n :: live) e → e.offset + e.length ≤ st.managedSize.toNat := by
    intro e he
    have h1 := e.length_pos
    have := h.has_lt he (x := e.offset + e.length - 1) ⟨by omega, by omega⟩
    omega
  have hsize := h.holding.managed.lt
  have hfree : ∀ j, ∀ m ∈ cl j, Apart n m ∧ m + 8 ≤ 2 ^ 64 := by
    intro j m hm
    have hm' : Owner cl (.chunk i n :: live) (.chunk j m) := .inr ⟨j, m, hm, rfl⟩
    have hne : Extent.chunk i n ≠ .chunk j m := by
      intro he
      cases he
      exact h.notFree i n hm List.mem_cons_self
    have h1 := chunkSize_pos i
    have h2 := chunkSize_pos j
    have h3 : m + chunkSize j ≤ st.managedSize.toNat := hlt hm'
    have h4 : n + chunkSize i ≤ m ∨ m + chunkSize j ≤ n := h.apart hmem hm' hne
    unfold Apart
    omega
  have h1 := chunkSize_pos i
  have h2 : n + chunkSize i ≤ st.managedSize.toNat := hlt hmem
  have hnot : n ∉ cl i := fun hm => h.notFree i n hm List.mem_cons_self
  refine h.trade (sameFrames_push ..) (fun blk => by simp) rfl
    (h.lists.push h.translates (h.offset_ne hmem) (by omega) hfree) (fun j m => ?_) (fun j => ?_)
    (fun j m hm hl => ?_) (List.nodup_cons.1 h.live_nodup).2
  · rw [mem_update_cons, List.mem_cons, Extent.chunk.injEq, or_assoc, or_left_comm]
  · rcases eq_or_ne j i with rfl | hne
    · rw [Function.update_self]
      exact List.nodup_cons.2 ⟨hnot, h.nodup j⟩
    · rw [Function.update_of_ne hne]
      exact h.nodup j
  · rcases mem_update_cons.1 hm with ⟨rfl, rfl⟩ | hm
    · exact (List.nodup_cons.1 h.live_nodup).1 hl
    · exact h.notFree j m hm (List.mem_cons_of_mem _ hl)

/-- **The first free chunk is taken.** -/
theorem Shared.pop (h : Shared k F0 st fl cp cl live) (hl : cl i = n :: l) :
    ∃ st', popChunk k i st = some (ptrAt k st n, st') ∧ SameFrames st st' ∧
      Shared k F0 st' fl cp (Function.update cl i l) (.chunk i n :: live) := by
  have hn : n ∈ cl i := by rw [hl]; exact List.mem_cons_self
  obtain ⟨st', h1, -, h2, rfl⟩ := h.lists.pop hl (h.chunk_mapped (.inr ⟨i, n, hn, rfl⟩))
  have hs : SameFrames st { st with
      chunkFreeList := Function.update st.chunkFreeList i (load st.mem (ptrAt k st n)) } :=
    ⟨rfl, rfl, rfl, rfl, rfl, rfl, rfl⟩
  have hnd := h.nodup i
  rw [hl] at hnd
  obtain ⟨hnot, hnd⟩ := List.nodup_cons.1 hnd
  have hmem : ∀ j m, m ∈ cl j ↔ (j = i ∧ m = n) ∨ m ∈ Function.update cl i l j := by
    intro j m
    rcases eq_or_ne j i with rfl | hne
    · rw [Function.update_self, hl, List.mem_cons]
      simp
    · rw [Function.update_of_ne hne]
      simp [hne]
  refine ⟨_, h1, hs, h.trade hs (fun blk => by simp) rfl h2 (fun j m => ?_) (fun j => ?_)
    (fun j m hm hlive => ?_) (List.nodup_cons.2 ⟨h.notFree i n hn, h.live_nodup⟩)⟩
  · rw [hmem j m, List.mem_cons, Extent.chunk.injEq, or_assoc, or_left_comm]
  · rcases eq_or_ne j i with rfl | hne
    · rw [Function.update_self]
      exact hnd
    · rw [Function.update_of_ne hne]
      exact h.nodup j
  · rcases List.mem_cons.1 hlive with he | hlive
    · cases he
      rw [Function.update_self] at hm
      exact hnot hm
    · exact h.notFree j m ((hmem j m).2 (.inr hm)) hlive

theorem heldBlocks_cut {idx : ℕ} :
    (heldBlocks cp (.pages ⟨idx, 0⟩ :: live)).Perm (heldBlocks ((idx, i) :: cp) live) := by
  have hmid : (live.filterMap Extent.block? ++ (⟨idx, 0⟩ : Block) ::
      cp.map fun c => ⟨c.1, 0⟩).Perm (⟨idx, 0⟩ :: heldBlocks cp live) := List.perm_middle
  exact hmid.symm

theorem Shared.holding_cut {idx : ℕ} (h : Shared k F0 st fl cp cl (.pages ⟨idx, 0⟩ :: live)) :
    Holding F0 (st.setPage idx fun p => { p with chunkSize := poolSizes i, chunkPool := i }) fl
      (heldBlocks ((idx, i) :: cp) live) := by
  have hheld : (⟨idx, 0⟩ : Block) ∈ heldBlocks cp (.pages ⟨idx, 0⟩ :: live) :=
    mem_heldBlocks.2 (.inl List.mem_cons_self)
  have hfree : idx ∉ {f | f ∈ F0 ∧ ∀ b ∈ heldBlocks cp (.pages ⟨idx, 0⟩ :: live), ¬ b.Covers f} :=
    fun hf => hf.2 _ hheld (Block.covers_index _)
  refine Holding.perm (h.holding.congr (h.holding.coalesced.setPage hfree fun _ hp => hp) rfl rfl
    rfl fun b _ => ?_) heldBlocks_cut
  rcases eq_or_ne b.index idx with he | hne
  · rw [he, frameArray_setPage_same]
  · rw [frameArray_setPage_of_ne _ hne]

theorem Shared.page_lt {idx x : ℕ} (h : Shared k F0 st fl cp cl (.pages ⟨idx, 0⟩ :: live))
    (hx : x < 4096) : idx * 4096 + x < st.managedSize.toNat :=
  h.has_lt (.inl List.mem_cons_self)
    ⟨Nat.le_add_right .., Nat.add_lt_add_left (by change x < 2 ^ 0 * 4096; omega) _⟩

/-- **A page is cut up** for an empty pool, if it is mapped. -/
theorem Shared.cut {idx : ℕ} (h : Shared k F0 st fl cp cl (.pages ⟨idx, 0⟩ :: live))
    (hl : cl i = []) (hk : chunkLoop k i (ptrAt k st (idx * 4096)) 4097 0
      (st.setPage idx fun p => { p with chunkSize := poolSizes i, chunkPool := i }) = some st') :
    ∃ l, l ≠ [] ∧ (∀ n, n ∈ l ↔ n / 4096 = idx ∧ chunkSize i ∣ n) ∧ SamePlace st st' ∧
      st'.frameArray = (st.setPage idx fun p =>
        { p with chunkSize := poolSizes i, chunkPool := i }).frameArray ∧
      Shared k F0 st' fl ((idx, i) :: cp) (Function.update cl i l) live := by
  have hmem : Owner cl (.pages ⟨idx, 0⟩ :: live) (.pages ⟨idx, 0⟩) := .inl List.mem_cons_self
  have hheld : (⟨idx, 0⟩ : Block) ∈ heldBlocks cp (.pages ⟨idx, 0⟩ :: live) :=
    mem_heldBlocks.2 (.inl List.mem_cons_self)
  have hself : (⟨idx, 0⟩ : Block).Covers idx := Block.covers_index _
  have hsize := h.holding.managed.size
  have hwrap := h.holding.managed.lt
  have hbase := h.holding.managed.base
  have hidx := h.holding.lt idx (h.holding.within _ hheld idx hself)
  have hend : (idx + 1) * 4096 ≤ 2 ^ 64 - 4096 := by omega
  set st1 := st.setPage idx fun p => { p with chunkSize := poolSizes i, chunkPool := i } with hst1
  have hlists : ChunkLists k st1 cl := h.lists.congr rfl rfl fun _ _ _ => rfl
  have ht : Translates k st1 := h.translates.congr rfl rfl
  have hptr : ∀ n, ptrAt k st1 n = ptrAt k st n := fun n => ptrAt_congr rfl
  -- the loop
  obtain ⟨l, h2, hnd, hl', hmapped, hs⟩ := chunkLoop_spec 4097 0 hlists ht
    hend (fun x hx h0 => by
      have hz := h.translates.null (idx * 4096 + x) (h.page_lt hx) h0
      obtain ⟨rfl, rfl⟩ : idx = 0 ∧ x = 0 := by omega
      exact h.ptr_ne _ hheld h0)
    (dvd_zero _) (Nat.zero_le _) (fun j m hm => by
      have hm' : Owner cl (.pages ⟨idx, 0⟩ :: live) (.chunk j m) := .inr ⟨j, m, hm, rfl⟩
      have h3 : idx * 4096 + 2 ^ 0 * 4096 ≤ m ∨ m + chunkSize j ≤ idx * 4096 :=
        h.apart hmem hm' (by simp)
      have h4 := h.has_lt hm' (Extent.has_offset _)
      change m < _ at h4
      have := chunkSize_pos j
      omega) hk
  rw [hl, List.append_nil] at h2
  have hin : ∀ n, n ∈ l ↔ n / 4096 = idx ∧ chunkSize i ∣ n := by
    intro n
    rw [hl' n, ← and_assoc]
    refine and_congr_left fun _ => ?_
    omega
  have hnot : ∀ j, (idx, j) ∉ cp := fun j hj => h.not_both List.mem_cons_self hj hself
  have hnew : ∀ blk, .pages blk ∈ live → blk.index ≠ idx := by
    rintro blk hb rfl
    have heq := h.holding.eq_of_covers (mem_heldBlocks.2 (.inl (List.mem_cons_of_mem _ hb))) hheld
      (Block.covers_index blk) hself
    exact (List.nodup_cons.1 h.live_nodup).1 (heq ▸ hb)
  have hholding : Holding F0 st1 fl (heldBlocks ((idx, i) :: cp) live) := h.holding_cut
  refine ⟨l, ?_, hin, SamePlace.trans (SameRange.place (.setPage _)) (SameFrames.place hs),
    hs.frameArray, ht.congr hs.managedBase hs.managedSize, SameFrames.holding hs hholding,
    fun b hb => ?_, fun b hb => ?_, fun c hc => ?_, h2, fun j n => ?_, fun j => ?_, fun j n hn hm => ?_,
    (List.nodup_cons.1 h.live_nodup).2, fun c hc n hn hd => ?_⟩
  · have hfirst : idx * 4096 ∈ l :=
      (hin _).2 ⟨Nat.mul_div_cancel idx (by decide), (chunkSize_dvd i).mul_left idx⟩
    exact List.ne_nil_of_mem hfirst
  · rw [ptrAt_congr hs.managedBase, hptr]
    exact h.ptr_ne b (heldBlocks_cut.mem_iff.2 hb)
  · rw [hs.frameArray, hst1, frameArray_setPage_of_ne _ (hnew b hb)]
    exact h.pages b (List.mem_cons_of_mem _ hb)
  · rw [hs.frameArray, hst1]
    rcases List.mem_cons.1 hc with rfl | hc
    · rw [frameArray_setPage_same]
      exact ⟨rfl, rfl⟩
    · have hne : c.1 ≠ idx := by
        intro he
        exact hnot c.2 (he ▸ hc)
      rw [frameArray_setPage_of_ne _ hne]
      exact h.chunkPages c hc
  · have hold := h.chunks j n
    rw [List.mem_cons, Prod.mk.injEq, or_and_right, ← hold]
    rcases eq_or_ne j i with rfl | hne
    · rw [Function.update_self, hin, hl]
      simp
    · rw [Function.update_of_ne hne]
      simp [hne]
  · rcases eq_or_ne j i with rfl | hne
    · rw [Function.update_self]
      exact hnd
    · rw [Function.update_of_ne hne]
      exact h.nodup j
  · rcases eq_or_ne j i with rfl | hne
    · rw [Function.update_self] at hn
      obtain ⟨hf, -⟩ := (hin n).1 hn
      have := ((h.chunks j n).1 (.inr (List.mem_cons_of_mem _ hm))).1
      rw [hf] at this
      exact hnot j this
    · rw [Function.update_of_ne hne] at hn
      exact h.notFree j n hn (List.mem_cons_of_mem _ hm)
  · rw [ptrAt_congr hs.managedBase, hptr]
    rcases List.mem_cons.1 hc with rfl | hc
    · exact hmapped n ((hin n).2 ⟨hn, hd⟩)
    · exact h.mapped c hc n hn hd

/-- **`refill_chunk_pool`** gets to the cutting of the page. -/
theorem Shared.refillChunkPool_eq {idx : ℕ} {st0 : MmState}
    (h : Shared k F0 st fl cp cl (.pages ⟨idx, 0⟩ :: live))
    (ha : Pages.allocPages k 0 st0 = some (ptrAt k st (idx * 4096), st)) :
    refillChunkPool k i st0 = chunkLoop k i (ptrAt k st (idx * 4096)) 4097 0
      (st.setPage idx fun p => { p with chunkSize := poolSizes i, chunkPool := i }) := by
  have hmem : Owner cl (.pages ⟨idx, 0⟩ :: live) (.pages ⟨idx, 0⟩) := .inl List.mem_cons_self
  have hlt : idx * 4096 < st.managedSize.toNat := h.has_lt hmem (Extent.has_offset _)
  have hsize := h.holding.managed.size
  have hidx : st.addrToFrameIndex (k.toPhys (ptrAt k st (idx * 4096))) = idx := by
    rw [h.translates.toPhys _ hlt, addrToFrameIndex_offset h.holding.managed hlt]
    exact Nat.mul_div_cancel idx (by decide)
  rw [refillChunkPool, ha, Option.bind_some]
  dsimp only
  have hne : ptrAt k st (idx * 4096) ≠ 0 := h.offset_ne hmem
  rw [if_neg hne, hidx, if_neg (by omega)]

end Chunks

/-! ### The calls -/

section Calls
variable {k : Pointers} {F0 : Set ℕ} {st st' : MmState} {fl fl' : ℕ → List ℕ}
  {cp : List (ℕ × Fin 8)} {cl : Fin 8 → List ℕ} {live live' : List Extent} {i : Fin 8} {n x : ℕ}
  {size : Word} {e : Extent}

/-- **What `alloc_chunk` does**: it takes the first chunk of the pool, if need be after a page was cut
up. -/
inductive ChunkTaken (k : Pointers) (F0 : Set ℕ) (st : MmState) (fl : ℕ → List ℕ)
    (cp : List (ℕ × Fin 8)) (cl : Fin 8 → List ℕ) (live : List Extent) (i : Fin 8) :
    Word → MmState → Prop
  | first {st' : MmState} {n : ℕ} {l : List ℕ} (list : cl i = n :: l) (same : SameFrames st st')
      (shared : Shared k F0 st' fl cp (Function.update cl i l) (.chunk i n :: live)) :
      ChunkTaken k F0 st fl cp cl live i (ptrAt k st n) st'
  | empty {st' : MmState} (list : cl i = []) (page : PagesTaken k F0 st fl cp cl live 0 0 st') :
      ChunkTaken k F0 st fl cp cl live i 0 st'
  | refilled {page : Word} {st1 st' : MmState} {n : ℕ} {fl' : ℕ → List ℕ} {cp' : List (ℕ × Fin 8)}
      {cl' : Fin 8 → List ℕ} (list : cl i = [])
      (taken : PagesTaken k F0 st fl cp cl live 0 page st1) (page_ne : page ≠ 0)
      (shared : Shared k F0 st' fl' cp' cl' (.chunk i n :: live))
      (same : SamePlace st st') :
      ChunkTaken k F0 st fl cp cl live i (ptrAt k st n) st'

/-- What `alloc_chunk` does, with the page that an empty pool gets. -/
inductive ChunkMoved (k : Pointers) (F0 : Set ℕ) (st : MmState) (fl : ℕ → List ℕ)
    (cp : List (ℕ × Fin 8)) (cl : Fin 8 → List ℕ) (live : List Extent) (i : Fin 8) :
    Word → MmState → Prop
  | first {st' : MmState} {n : ℕ} {l : List ℕ} (list : cl i = n :: l) (same : SameFrames st st')
      (shared : Shared k F0 st' fl cp (Function.update cl i l) (.chunk i n :: live)) :
      ChunkMoved k F0 st fl cp cl live i (ptrAt k st n) st'
  | empty {st' : MmState} (list : cl i = []) (page : PagesTaken k F0 st fl cp cl live 0 0 st') :
      ChunkMoved k F0 st fl cp cl live i 0 st'
  | refilled {page : Word} {st1 st' : MmState} {idx n : ℕ} {l : List ℕ} {fl' : ℕ → List ℕ}
      (list : cl i = []) (alloc : allocPages k 0 st = some (page, st1))
      (taken : PagesTaken k F0 st fl cp cl live 0 page st1) (page_ne : page ≠ 0)
      (free : idx ∈ region (blocks fl))
      (left : ∀ f, f ∈ region (blocks fl') ↔ f ∈ region (blocks fl) ∧ f ≠ idx)
      (chunks : ∀ m, m ∈ n :: l ↔ m / 4096 = idx ∧ chunkSize i ∣ m)
      (frames : st'.frameArray = (st1.setPage idx fun p =>
        { p with chunkSize := poolSizes i, chunkPool := i }).frameArray)
      (shared : Shared k F0 st' fl' ((idx, i) :: cp) (Function.update cl i l) (.chunk i n :: live))
      (same : SamePlace st st') :
      ChunkMoved k F0 st fl cp cl live i (ptrAt k st n) st'

theorem ChunkMoved.taken {p : Word} (h : ChunkMoved k F0 st fl cp cl live i p st') :
    ChunkTaken k F0 st fl cp cl live i p st' := by
  cases h with
  | first list same shared => exact .first list same shared
  | empty list page => exact .empty list page
  | refilled list alloc taken page_ne free left chunks frames shared same =>
    exact .refilled list taken page_ne shared same

/-- **`alloc_chunk`**, unless it faults. -/
theorem Shared.allocChunk_moved {p : Word} (h : Shared k F0 st fl cp cl live)
    (hi : findPool size = some i) (hk : Chunks.allocChunk k size st = some (p, st')) :
    ChunkMoved k F0 st fl cp cl live i p st' := by
  unfold Chunks.allocChunk at hk
  rw [hi] at hk
  dsimp only at hk
  obtain ⟨st2, h4, hpop⟩ := Option.bind_eq_some_iff.1 hk
  cases hl : cl i with
  | cons n l =>
    have hne : st.chunkFreeList i ≠ 0 := fun h0 => by
      rw [h.lists.head_eq, hl] at h0
      cases h0
    rw [if_neg hne] at h4
    obtain rfl := Option.some.inj h4
    obtain ⟨st1, h1, hs, h2⟩ := h.pop hl
    rw [h1] at hpop
    obtain ⟨rfl, rfl⟩ := Prod.mk.inj (Option.some.inj hpop)
    exact .first hl hs h2
  | nil =>
    rw [if_pos ((h.lists.head_eq i).2 hl)] at h4
    obtain ⟨page, st1, h1, h2⟩ := h.allocPages 0
    by_cases hpage : page = 0
    · -- the pool stays empty
      subst hpage
      rw [refillChunkPool, h1, Option.bind_some] at h4
      dsimp only at h4
      rw [if_pos rfl] at h4
      obtain rfl := Option.some.inj h4
      rw [popChunk_nil (SameRange.lists h2.sameRange h.lists) hl] at hpop
      obtain ⟨rfl, rfl⟩ := Prod.mk.inj (Option.some.inj hpop)
      exact .empty hl h2
    · have htaken := h2
      cases h2 with
      | failed => exact absurd rfl hpage
      | @taken _ fl1 idx current first ha free left area changed same shared =>
        have h3 := shared hpage
        have hptr : ∀ m, ptrAt k st1 m = ptrAt k st m := fun m => ptrAt_congr same.managedBase
        rw [h3.refillChunkPool_eq (by rw [h1, hptr])] at h4
        obtain ⟨l, hne, hin, hplace, hframes, h5⟩ := h3.cut hl h4
        obtain ⟨n, l', rfl⟩ := List.exists_cons_of_ne_nil hne
        obtain ⟨st3, h6, hs, h7⟩ := h5.pop (i := i) (n := n) (l := l') (Function.update_self ..)
        rw [h6] at hpop
        obtain ⟨rfl, rfl⟩ := Prod.mk.inj (Option.some.inj hpop)
        rw [Function.update_idem] at h7
        rw [ptrAt_congr hplace.managedBase, hptr]
        refine .refilled hl h1 htaken hpage (free idx (Block.covers_index _)) (fun f => ?_)
          hin (hs.frameArray.trans hframes) h7
          ((SamePlace.trans (SameRange.place same) hplace).trans (SameFrames.place hs))
        rw [left, Block.covers_zero]

/-- **`alloc_chunk` returns** where the managed range is mapped. -/
theorem Shared.allocChunk_isSome (h : Shared k F0 st fl cp cl live) (hi : findPool size = some i)
    (hmap : ∀ n < st.managedSize.toNat, k.mapped (ptrAt k st n)) :
    (Chunks.allocChunk k size st).isSome := by
  unfold Chunks.allocChunk
  rw [hi]
  dsimp only
  cases hl : cl i with
  | cons n l =>
    have hne : st.chunkFreeList i ≠ 0 := fun h0 => by
      rw [h.lists.head_eq, hl] at h0
      cases h0
    obtain ⟨st1, h1, -⟩ := h.pop hl
    rw [if_neg hne, Option.bind_some, h1]
    rfl
  | nil =>
    rw [if_pos ((h.lists.head_eq i).2 hl)]
    obtain ⟨page, st1, h1, h2⟩ := h.allocPages 0
    by_cases hpage : page = 0
    · subst hpage
      rw [refillChunkPool, h1, Option.bind_some]
      dsimp only
      rw [if_pos rfl, Option.bind_some, popChunk_nil (SameRange.lists h2.sameRange h.lists) hl]
      rfl
    · cases h2 with
      | failed => exact absurd rfl hpage
      | @taken _ fl1 idx current first ha free left area changed same shared =>
        have h3 := shared hpage
        have hptr : ∀ m, ptrAt k st1 m = ptrAt k st m := fun m => ptrAt_congr same.managedBase
        rw [h3.refillChunkPool_eq (by rw [h1, hptr])]
        have hpage : ∀ x < 4096, k.mapped (ptrAt k st1 (idx * 4096) + BitVec.ofNat 64 x) := by
          intro x hx
          rw [h3.translates.add, hptr]
          exact hmap _ (same.managedSize ▸ h3.page_lt hx)
        have hcut := chunkLoop_isSome (i := i) 4097 0
          (st1.setPage idx fun p => { p with chunkSize := poolSizes i, chunkPool := i })
          (by omega) (by omega) hpage
        obtain ⟨st2, h4⟩ := Option.isSome_iff_exists.1 hcut
        obtain ⟨l, hne, -, -, -, h5⟩ := h3.cut hl h4
        obtain ⟨n, l', rfl⟩ := List.exists_cons_of_ne_nil hne
        obtain ⟨st3, h6, -⟩ := h5.pop (i := i) (n := n) (l := l') (Function.update_self ..)
        rw [h4, Option.bind_some, h6]
        rfl

/-- **`free`** gives back a chunk that is held. -/
theorem Shared.freeChunk (h : Shared k F0 st fl cp cl (.chunk i n :: live)) :
    Chunks.free k (ptrAt k st n) st = some (pushed i (ptrAt k st n) st) := by
  have hmem : Owner cl (.chunk i n :: live) (.chunk i n) := .inl List.mem_cons_self
  have hlt : n < st.managedSize.toNat := h.has_lt hmem (Extent.has_offset _)
  have hp : ptrAt k st n ≠ 0 := h.chunk_ne
  obtain ⟨hsize, hpool⟩ := h.chunkPages _ (h.owner_chunk hmem).1
  have hne : poolSizes i ≠ 0 := by
    intro h0
    have h1 := chunkSize_pos i
    have h2 := poolSizes_toNat i
    rw [h0] at h2
    have h3 : (0 : Word).toNat = 0 := rfl
    omega
  have hm := h.holding.managed
  unfold Chunks.free
  rw [if_neg hp]
  dsimp only
  rw [h.translates.toPhys n hlt, if_neg (not_not.2 (addrInManagedRange_offset hm hlt)),
    addrToFrameIndex_offset hm hlt]
  dsimp only at hsize hpool
  rw [hsize, hpool, if_pos hne, Chunks.freeChunk, dif_pos ⟨by omega, by have := i.2; omega⟩]
  exact if_pos (h.chunk_mapped hmem)

/-- **`free`** gives back pages that are held. -/
theorem Shared.freeLarge {blk : Block} (h : Shared k F0 st fl cp cl (.pages blk :: live)) :
    Chunks.free k (ptrAt k st (blk.index * 4096)) st =
      Pages.freePages k (ptrAt k st (blk.index * 4096)) st := by
  have hmem : Owner cl (.pages blk :: live) (.pages blk) := .inl List.mem_cons_self
  have hlt : blk.index * 4096 < st.managedSize.toNat := h.has_lt hmem (Extent.has_offset _)
  have hp : ptrAt k st (blk.index * 4096) ≠ 0 := h.offset_ne hmem
  have hm := h.holding.managed
  unfold Chunks.free
  rw [if_neg hp]
  dsimp only
  rw [h.translates.toPhys _ hlt, if_neg (not_not.2 (addrInManagedRange_offset hm hlt)),
    addrToFrameIndex_offset hm hlt, Nat.mul_div_cancel _ (by decide),
    h.pages blk List.mem_cons_self, if_neg (not_not.2 rfl)]

theorem Shared.write (h : Shared k F0 st fl cp cl live) (he : e ∈ live) (hx : e.Has x) (v : Byte) :
    Shared k F0 { st with mem := Function.update st.mem (ptrAt k st x) v } fl cp cl live := by
  have hs : SameFrames st { st with mem := Function.update st.mem (ptrAt k st x) v } :=
    ⟨rfl, rfl, rfl, rfl, rfl, rfl, rfl⟩
  have hsize := h.holding.managed.lt
  have hxlt := h.has_lt (.inl he) hx
  refine h.trade hs (fun _ => Iff.rfl) rfl (h.lists.congr rfl rfl fun i m hm => ?_)
    (fun _ _ => Iff.rfl) h.nodup h.notFree h.live_nodup
  -- the first bytes of a free chunk are not written
  have howner : Owner cl live (.chunk i m) := .inr ⟨i, m, hm, rfl⟩
  have hpos := chunkSize_pos i
  refine load_congr fun j hj => ?_
  have hhas : (Extent.chunk i m).Has (m + j) :=
    ⟨Nat.le_add_right m j, Nat.add_lt_add_left (lt_of_lt_of_le hj (by change 8 ≤ chunkSize i; omega)) m⟩
  have hjlt := h.has_lt howner hhas
  rw [h.translates.add]
  refine Function.update_of_ne (fun heq => ?_) ..
  obtain rfl := h.translates.inj (by omega) (by omega) heq
  have := h.eq_of_has (.inl he) howner hx hhas
  subst this
  exact h.notFree i m hm he

/-- **What `allocate` does.** -/
inductive Served (k : Pointers) (F0 : Set ℕ) (st : MmState) (fl : ℕ → List ℕ)
    (cp : List (ℕ × Fin 8)) (cl : Fin 8 → List ℕ) (live : List Extent) (size : Word) :
    Word → MmState → Prop
  | refused (h : size = 0 ∨ maxAllocSize < size) : Served k F0 st fl cp cl live size 0 st
  | chunk {i : Fin 8} {p : Word} {st' : MmState} (size_ne : size ≠ 0) (le : size ≤ 2048)
      (pool : findPool size = some i) (fits : size.toNat ≤ chunkSize i)
      (taken : ChunkTaken k F0 st fl cp cl live i p st') : Served k F0 st fl cp cl live size p st'
  | pages {p : Word} {st' : MmState} (gt : ¬ size ≤ 2048) (le : ¬ maxAllocSize < size)
      (pool : findPool size = none) (fits : size.toNat ≤ 2 ^ sizeToOrder size * 4096)
      (taken : PagesTaken k F0 st fl cp cl live (sizeToOrder size) p st') :
      Served k F0 st fl cp cl live size p st'

/-- **`allocate`**, unless it faults. -/
theorem Shared.allocate {p : Word} (h : Shared k F0 st fl cp cl live)
    (hk : Chunks.allocate k size st = some (p, st')) : Served k F0 st fl cp cl live size p st' := by
  unfold Chunks.allocate at hk
  split at hk
  next h0 =>
    obtain ⟨rfl, rfl⟩ := Prod.mk.inj (Option.some.inj hk)
    exact .refused (.inl h0)
  next h0 =>
    split at hk
    next hmax =>
      obtain ⟨rfl, rfl⟩ := Prod.mk.inj (Option.some.inj hk)
      exact .refused (.inr hmax)
    next hmax =>
      split at hk
      next hle =>
        obtain ⟨i, hi, hfit⟩ := findPool_spec hle
        exact .chunk h0 hle hi hfit (h.allocChunk_moved hi hk).taken
      next hle =>
        obtain ⟨p', st'', h1, h2⟩ := h.allocPages (sizeToOrder size)
        obtain ⟨rfl, rfl⟩ := Prod.mk.inj (Option.some.inj (hk.symm.trans h1))
        exact .pages hle hmax (findPool_none hle) (sizeToOrder_spec (BitVec.not_lt.1 hmax)).2.1 h2

/-- **`allocate` returns** where the managed range is mapped. -/
theorem Shared.allocate_isSome (h : Shared k F0 st fl cp cl live) (size : Word)
    (hmap : ∀ n < st.managedSize.toNat, k.mapped (ptrAt k st n)) :
    (Chunks.allocate k size st).isSome := by
  unfold Chunks.allocate
  split
  · rfl
  split
  · rfl
  split
  next hle =>
    obtain ⟨i, hi, -⟩ := findPool_spec hle
    exact h.allocChunk_isSome hi hmap
  next =>
    obtain ⟨p, st1, h1, -⟩ := h.allocPages (sizeToOrder size)
    rw [h1]
    rfl

end Calls

end OscKernel.Mm.Heap
