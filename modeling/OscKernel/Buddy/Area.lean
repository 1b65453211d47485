import OscKernel.Lib.Dyadic
import Mathlib.Data.List.Nodup

/-! # The free areas of the exercises on the buddy system

The allocators of `lab3/ex31` and `lab3/ex32` keep a record for each page and a list of free blocks for
each order. A block is a run of pages from its first page on; the record of that page has its order.

* `BuddyArea`, `initLoop`: the source.
* `blocks`, `used`: the free blocks, and those that are handed out or reserved.
* `Tiles`: every page is in one block.
* `Good`: and what is free is merged as far as can be.
* `Hand`: every page is in one block, and one block is in none of the lists. `Hand.half`, `Hand.merge`,
  `Hand.put`, `Hand.use` say what can become of it. -/

namespace OscKernel.Buddy.Area

open OscKernel.Lib.Dyadic

/-! ### The source -/

/-- `NUM_PAGES`. -/
def numPages : ℕ := 0x280000

/-- `MAX_ORDER`. -/
def maxOrder : ℕ := 10

/-- `struct page`. -/
structure Page where
  order : ℕ
  refcount : ℕ
deriving DecidableEq

/-- `mem_map` and `free_area`. A page is given by its index. -/
structure BuddyArea where
  memMap : ℕ → Page
  freeArea : ℕ → List ℕ

namespace BuddyArea

/-- The record of a page. -/
def setPage (s : BuddyArea) (pfn : ℕ) (p : Page) : BuddyArea :=
  { s with memMap := Function.update s.memMap pfn p }

/-- The list of an order. -/
def setList (s : BuddyArea) (order : ℕ) (l : List ℕ) : BuddyArea :=
  { s with freeArea := Function.update s.freeArea order l }

/-- `push_back`. -/
def push (s : BuddyArea) (order pfn : ℕ) : BuddyArea := s.setList order (s.freeArea order ++ [pfn])

@[simp] theorem memMap_setPage (s : BuddyArea) (i : ℕ) (p : Page) :
    (s.setPage i p).memMap = Function.update s.memMap i p := rfl

@[simp] theorem freeArea_setPage (s : BuddyArea) (i : ℕ) (p : Page) :
    (s.setPage i p).freeArea = s.freeArea := rfl

@[simp] theorem memMap_setList (s : BuddyArea) (o : ℕ) (l : List ℕ) :
    (s.setList o l).memMap = s.memMap := rfl

@[simp] theorem freeArea_setList (s : BuddyArea) (o : ℕ) (l : List ℕ) :
    (s.setList o l).freeArea = Function.update s.freeArea o l := rfl

end BuddyArea

/-- The body of the loop of `main`, of `mm_init`: a block of the greatest order. -/
def initBlock (s : BuddyArea) (i : ℕ) : BuddyArea :=
  let pfn := i * 2 ^ maxOrder
  (s.setPage pfn { s.memMap pfn with order := maxOrder }).push maxOrder pfn

/-- The loop over the blocks of the greatest order. -/
def initLoop : BuddyArea :=
  (List.range (numPages / 2 ^ maxOrder)).foldl initBlock ⟨fun _ => ⟨0, 0⟩, fun _ => []⟩

/-! ### Blocks -/

/-- The free blocks. -/
def blocks (s : BuddyArea) : Set Block := {b | b.order ≤ maxOrder ∧ b.index ∈ s.freeArea b.order}

/-- The blocks that are handed out or reserved. -/
def used (s : BuddyArea) : Set Block :=
  {b | b.index < numPages ∧ (s.memMap b.index).refcount ≠ 0 ∧ (s.memMap b.index).order = b.order}

/-- The block has pages only that are there. -/
def Within (b : Block) : Prop := ∀ f, b.Covers f → f < numPages

/-- Every page is in one block. -/
structure Tiles (s : BuddyArea) : Prop where
  tiling : Tiling maxOrder (blocks s ∪ used s)
  total : ∀ f < numPages, f ∈ region (blocks s ∪ used s)
  within : ∀ b ∈ blocks s ∪ used s, Within b
  nodup : ∀ o, (s.freeArea o).Nodup
  free : ∀ b ∈ blocks s, s.memMap b.index = ⟨b.order, 0⟩

/-- Every page is in one block, and no free block is there together with its buddy. -/
structure Good (s : BuddyArea) : Prop extends Tiles s where
  apart : NoBuddies maxOrder (blocks s)

/-- Every page is in one block, one of which is in no list and has no reference. -/
structure Hand (s : BuddyArea) (b : Block) : Prop where
  tiling : Tiling maxOrder (blocks s ∪ used s)
  aligned : b.Aligned
  order_le : b.order ≤ maxOrder
  apart : ∀ f, b.Covers f → f ∉ region (blocks s ∪ used s)
  total : ∀ f < numPages, b.Covers f ∨ f ∈ region (blocks s ∪ used s)
  within : ∀ c ∈ blocks s ∪ used s, Within c
  inside : Within b
  nodup : ∀ o, (s.freeArea o).Nodup
  free : ∀ c ∈ blocks s, s.memMap c.index = ⟨c.order, 0⟩

/-- The number of pages is a multiple of the size of every block. -/
theorem within_of_covers {b : Block} {f : ℕ} (hb : b.Aligned) (ho : b.order ≤ maxOrder)
    (hf : b.Covers f) (hlt : f < numPages) : Within b := by
  intro g hg
  obtain ⟨m, hm⟩ : 2 ^ b.order ∣ numPages := (Nat.pow_dvd_pow 2 ho).trans (by decide)
  have hpos := Nat.two_pow_pos b.order
  rw [hb.covers_iff] at hf hg
  rw [hm] at hlt ⊢
  rw [Nat.mul_comm, ← Nat.div_lt_iff_lt_mul hpos] at hlt ⊢
  rw [hg, ← hf]
  exact hlt

section Blocks
variable {s : BuddyArea} {b c : Block} {i o : ℕ} {p : Page} {l : List ℕ}

theorem blocks_setPage : blocks (s.setPage i p) = blocks s := rfl

theorem used_setList : used (s.setList o l) = used s := rfl

theorem blocks_push (ho : b.order ≤ maxOrder) :
    blocks (s.push b.order b.index) = insert b (blocks s) := by
  ext c
  rw [Set.mem_insert_iff]
  change c.order ≤ maxOrder ∧ c.index ∈ Function.update s.freeArea b.order _ c.order ↔ _
  by_cases hc : c.order = b.order
  · rw [hc, Function.update_self, List.mem_append, List.mem_singleton]
    constructor
    · rintro ⟨-, h | h⟩
      · exact .inr ⟨hc.trans_le ho, hc ▸ h⟩
      · exact .inl (Block.ext h hc)
    · rintro (rfl | ⟨-, h⟩)
      · exact ⟨ho, .inr rfl⟩
      · exact ⟨ho, .inl (hc ▸ h)⟩
  · rw [Function.update_of_ne hc]
    constructor
    · exact .inr
    · rintro (rfl | h)
      · exact absurd rfl hc
      · exact h

theorem blocks_setList (hn : (s.freeArea o).Nodup)
    (hl : (s.freeArea o).Perm (i :: l)) : blocks (s.setList o l) = blocks s \ {⟨i, o⟩} := by
  have hi : i ∉ l := (List.nodup_cons.1 (hl.nodup_iff.1 hn)).1
  ext c
  rw [Set.mem_sdiff, Set.mem_singleton_iff]
  change c.order ≤ maxOrder ∧ c.index ∈ Function.update s.freeArea o l c.order ↔
    (c.order ≤ maxOrder ∧ c.index ∈ s.freeArea c.order) ∧ _
  by_cases hc : c.order = o
  · rw [hc, Function.update_self, hl.mem_iff, List.mem_cons]
    constructor
    · rintro ⟨h, hm⟩
      exact ⟨⟨h, .inr hm⟩, fun he => hi (by rw [he] at hm; exact hm)⟩
    · rintro ⟨⟨h, rfl | hm⟩, hne⟩
      · exact (hne (Block.ext rfl hc)).elim
      · exact ⟨h, hm⟩
  · rw [Function.update_of_ne hc]
    constructor
    · exact fun h => ⟨h, fun he => hc (by rw [he])⟩
    · exact fun h => h.1

theorem used_setPage (h0 : (s.memMap i).refcount = 0) (hp : p.refcount = 0) :
    used (s.setPage i p) = used s := by
  ext c
  change c.index < numPages ∧ (Function.update s.memMap i p c.index).refcount ≠ 0 ∧ _ ↔ _
  by_cases hc : c.index = i
  · rw [hc, Function.update_self]
    constructor
    · exact fun h => absurd hp h.2.1
    · rintro ⟨-, h, -⟩
      rw [hc] at h
      exact absurd h0 h
  · rw [BuddyArea.memMap_setPage, Function.update_of_ne hc]
    rfl

theorem used_use (h0 : (s.memMap b.index).refcount = 0) (hb : b.index < numPages) :
    used (s.setPage b.index ⟨b.order, 1⟩) = insert b (used s) := by
  ext c
  rw [Set.mem_insert_iff]
  change c.index < numPages ∧ (Function.update s.memMap b.index _ c.index).refcount ≠ 0 ∧
    (Function.update s.memMap b.index _ c.index).order = c.order ↔ _
  by_cases hc : c.index = b.index
  · rw [hc, Function.update_self]
    constructor
    · rintro ⟨-, -, h⟩
      exact .inl (Block.ext hc h.symm)
    · rintro (rfl | ⟨-, h, -⟩)
      · exact ⟨hb, one_ne_zero, rfl⟩
      · rw [hc] at h
        exact absurd h0 h
  · rw [Function.update_of_ne hc]
    constructor
    · exact .inr
    · rintro (rfl | h)
      · exact absurd rfl hc
      · exact h

theorem used_release (hb : b ∈ used s) (hp : p.refcount = 0) :
    used (s.setPage b.index p) = used s \ {b} := by
  ext c
  rw [Set.mem_sdiff, Set.mem_singleton_iff]
  change c.index < numPages ∧ (Function.update s.memMap b.index p c.index).refcount ≠ 0 ∧
    (Function.update s.memMap b.index p c.index).order = c.order ↔ _
  by_cases hc : c.index = b.index
  · rw [hc, Function.update_self]
    constructor
    · exact fun h => absurd hp h.2.1
    · rintro ⟨⟨-, -, h⟩, hne⟩
      rw [hc, hb.2.2] at h
      exact absurd (Block.ext hc h.symm) hne
  · rw [Function.update_of_ne hc]
    constructor
    · exact fun h => ⟨h, fun he => hc (by rw [he])⟩
    · exact fun h => h.1

end Blocks

theorem Tiles.tiling_blocks {s : BuddyArea} (h : Tiles s) : Tiling maxOrder (blocks s) :=
  ⟨fun b hb => h.tiling.aligned b (.inl hb), fun b hb => h.tiling.order_le b (.inl hb),
    fun a ha b hb => h.tiling.disjoint a (.inl ha) b (.inl hb)⟩

/-- The pages of free blocks are those that are in no other block. -/
theorem Tiles.mem_region {s : BuddyArea} {f : ℕ} (h : Tiles s) :
    f ∈ region (blocks s) ↔ f < numPages ∧ f ∉ region (used s) := by
  constructor
  · rintro ⟨b, hb, hf⟩
    refine ⟨h.within b (.inl hb) f hf, ?_⟩
    rintro ⟨c, hc, hfc⟩
    obtain rfl := h.tiling.disjoint b (.inl hb) c (.inr hc) f hf hfc
    exact hc.2.1 (by rw [h.free b hb])
  · rintro ⟨hf, hn⟩
    obtain ⟨b, hb | hb, hfb⟩ := h.total f hf
    · exact ⟨b, hb, hfb⟩
    · exact absurd ⟨b, hb, hfb⟩ hn

/-- **What is free is in blocks as great as can be.** -/
theorem Good.mem_blocks {s : BuddyArea} {b : Block} (h : Good s) :
    b ∈ blocks s ↔ Maximal maxOrder {f | f < numPages ∧ f ∉ region (used s)} b := by
  rw [h.tiling_blocks.mem_iff_maximal h.apart]
  have : region (blocks s) = {f | f < numPages ∧ f ∉ region (used s)} := Set.ext fun f => h.mem_region
  rw [this]

/-! ### A block in the hand -/

section Hand
variable {s : BuddyArea} {b c : Block} {i f : ℕ} {p : Page} {l : List ℕ}

theorem Hand.refcount (h : Hand s b) (hf : b.Covers f) : (s.memMap f).refcount = 0 := by
  by_contra hne
  refine h.apart f hf ⟨⟨f, (s.memMap f).order⟩, .inr ⟨h.inside f hf, hne, rfl⟩, ?_⟩
  exact Block.covers_index _

theorem Hand.index_ne (h : Hand s b) (hc : c ∈ blocks s ∪ used s) (hf : b.Covers f) : c.index ≠ f := by
  rintro rfl
  exact h.apart c.index hf ⟨c, hc, c.covers_index⟩

/-- The records of the block may be written, without a reference. -/
theorem Hand.setPage (h : Hand s b) (hf : b.Covers f) (hp : p.refcount = 0) :
    Hand (s.setPage f p) b := by
  have hu : used (s.setPage f p) = used s := used_setPage (h.refcount hf) hp
  have hb : blocks (s.setPage f p) = blocks s := rfl
  refine ⟨?_, h.aligned, h.order_le, ?_, ?_, ?_, h.inside, h.nodup, fun c hc => ?_⟩
  · rw [hu, hb]
    exact h.tiling
  · rw [hu, hb]
    exact h.apart
  · rw [hu, hb]
    exact h.total
  · rw [hu, hb]
    exact h.within
  · rw [BuddyArea.memMap_setPage, Function.update_of_ne (h.index_ne (.inl hc) hf)]
    exact h.free c hc

theorem Tiles.erase {s' : BuddyArea} (h : Tiles s) (hb : b ∈ blocks s ∪ used s)
    (hset : blocks s' ∪ used s' = (blocks s ∪ used s) \ {b}) (hn : ∀ o, (s'.freeArea o).Nodup)
    (hfree : ∀ c ∈ blocks s', s'.memMap c.index = ⟨c.order, 0⟩) : Hand s' b := by
  refine ⟨?_, h.tiling.aligned b hb, h.tiling.order_le b hb, ?_, ?_, ?_, h.within b hb, hn, hfree⟩
  · rw [hset]
    exact h.tiling.erase b
  · rw [hset]
    exact fun f hf hr => ((h.tiling.mem_region_erase hb).1 hr).2 hf
  · rw [hset]
    intro f hf
    by_cases hbf : b.Covers f
    · exact .inl hbf
    · exact .inr ((h.tiling.mem_region_erase hb).2 ⟨h.total f hf, hbf⟩)
  · rw [hset]
    exact fun c hc => h.within c hc.1

theorem Hand.account {s' : BuddyArea} (h : Hand s b)
    (hset : blocks s' ∪ used s' = insert b (blocks s ∪ used s)) (hn : ∀ o, (s'.freeArea o).Nodup)
    (hfree : ∀ c ∈ blocks s', s'.memMap c.index = ⟨c.order, 0⟩) : Tiles s' := by
  refine ⟨?_, ?_, ?_, hn, hfree⟩
  · rw [hset]
    exact h.tiling.insert h.aligned h.order_le h.apart
  · rw [hset]
    exact fun f hf => mem_region_insert.2 (h.total f hf)
  · rw [hset]
    rintro c (rfl | hc)
    · exact h.inside
    · exact h.within c hc

theorem Tiles.take (h : Tiles s) (hb : b ∈ blocks s) (hl : (s.freeArea b.order).Perm (b.index :: l)) :
    Hand (s.setList b.order l) b ∧ blocks (s.setList b.order l) = blocks s \ {b} := by
  have hbl : blocks (s.setList b.order l) = blocks s \ {b} := blocks_setList (h.nodup _) hl
  have hnot : b ∉ used s := fun hu => hu.2.1 (by rw [h.free b hb])
  refine ⟨h.erase (.inl hb) ?_ (fun o => ?_) ?_, hbl⟩
  · rw [hbl, used_setList, Set.union_sdiff_distrib, Set.sdiff_singleton_eq_self hnot]
  · change (Function.update s.freeArea b.order l o).Nodup
    by_cases ho : o = b.order
    · rw [ho, Function.update_self]
      exact (List.nodup_cons.1 (hl.nodup_iff.1 (h.nodup _))).2
    · rw [Function.update_of_ne ho]
      exact h.nodup o
  · rw [hbl]
    exact fun c hc => h.free c hc.1

theorem Tiles.release (h : Tiles s) (hb : b ∈ used s) (hp : p.refcount = 0) :
    Hand (s.setPage b.index p) b := by
  have hnot : b ∉ blocks s := fun hm => hb.2.1 (by rw [h.free b hm])
  refine h.erase (.inr hb) ?_ h.nodup fun c hc => ?_
  · rw [used_release hb hp, blocks_setPage, Set.union_sdiff_distrib, Set.sdiff_singleton_eq_self hnot]
  · have hne : c.index ≠ b.index := fun he => by
      refine hnot (h.tiling.disjoint c (.inl hc) b (.inr hb) c.index c.covers_index ?_ ▸ hc)
      rw [he]
      exact b.covers_index
    rw [BuddyArea.memMap_setPage, Function.update_of_ne hne]
    exact h.free c hc

theorem nodup_push {o : ℕ} (h : ∀ o, (s.freeArea o).Nodup) (hi : i ∉ s.freeArea o) (o' : ℕ) :
    ((s.push o i).freeArea o').Nodup := by
  change (Function.update s.freeArea o (s.freeArea o ++ [i]) o').Nodup
  by_cases ho : o' = o
  · rw [ho, Function.update_self, List.nodup_append_comm]
    exact List.nodup_cons.2 ⟨hi, h o⟩
  · rw [Function.update_of_ne ho]
    exact h o'

theorem Hand.put (h : Hand s b) (hp : s.memMap b.index = ⟨b.order, 0⟩) :
    Tiles (s.push b.order b.index) ∧ blocks (s.push b.order b.index) = insert b (blocks s) := by
  have hbl : blocks (s.push b.order b.index) = insert b (blocks s) := blocks_push h.order_le
  refine ⟨h.account ?_ (nodup_push h.nodup fun hm => ?_) ?_, hbl⟩
  · rw [hbl, Set.insert_union]
    rfl
  · exact h.index_ne (.inl ⟨h.order_le, hm⟩) b.covers_index rfl
  · rw [hbl]
    rintro c (rfl | hc)
    · exact hp
    · exact h.free c hc

theorem Hand.use (h : Hand s b) : Tiles (s.setPage b.index ⟨b.order, 1⟩) ∧
    used (s.setPage b.index ⟨b.order, 1⟩) = insert b (used s) := by
  have hu : used (s.setPage b.index ⟨b.order, 1⟩) = insert b (used s) :=
    used_use (h.refcount b.covers_index) (h.inside _ b.covers_index)
  refine ⟨h.account ?_ h.nodup fun c hc => ?_, hu⟩
  · rw [hu, Set.union_insert, blocks_setPage]
  · rw [BuddyArea.memMap_setPage, Function.update_of_ne (h.index_ne (.inl hc) b.covers_index)]
    exact h.free c hc

/-- One half of the block is put on its list, the other one stays in the hand. -/
theorem Hand.half (h : Hand s b.parent) (hb : b.Aligned) (hp : s.memMap b.index = ⟨b.order, 0⟩) :
    Hand (s.push b.order b.index) b.buddy ∧
      blocks (s.push b.order b.index) = insert b (blocks s) := by
  have ho : b.order + 1 ≤ maxOrder := h.order_le
  have hcov : ∀ f, b.Covers f → b.parent.Covers f := fun f hf => hb.parent_covers.2 (.inl hf)
  have hcov' : ∀ f, b.buddy.Covers f → b.parent.Covers f := fun f hf => hb.parent_covers.2 (.inr hf)
  have hbl : blocks (s.push b.order b.index) = insert b (blocks s) := blocks_push (by omega)
  have hset : blocks (s.push b.order b.index) ∪ used (s.push b.order b.index) =
      insert b (blocks s ∪ used s) := by
    rw [hbl, Set.insert_union]
    rfl
  refine ⟨⟨?_, hb.buddy, Nat.le_of_succ_le ho, ?_, ?_, ?_, fun f hf => h.inside f (hcov' f hf), ?_,
    ?_⟩, hbl⟩
  · rw [hset]
    exact h.tiling.insert hb (by omega) fun f hf => h.apart f (hcov f hf)
  · rw [hset]
    intro f hf hr
    rcases mem_region_insert.1 hr with hr | hr
    · exact hb.not_covers_buddy hr hf
    · exact h.apart f (hcov' f hf) hr
  · rw [hset]
    intro f hf
    rw [mem_region_insert]
    rcases h.total f hf with hr | hr
    · rcases hb.parent_covers.1 hr with hr | hr
      · exact .inr (.inl hr)
      · exact .inl hr
    · exact .inr (.inr hr)
  · rw [hset]
    rintro c (rfl | hc)
    · exact fun f hf => h.inside f (hcov f hf)
    · exact h.within c hc
  · exact nodup_push h.nodup fun hm =>
      h.index_ne (.inl ⟨by omega, hm⟩) (hcov _ b.covers_index) rfl
  · rw [hbl]
    rintro c (rfl | hc)
    · exact hp
    · exact h.free c hc

/-- **The record at the head of the buddy tells whether the buddy is free**: the block that the page
lies in is no larger than the buddy, and starts there. -/
theorem Hand.buddy_iff (h : Hand s b) (ho : b.order < maxOrder) :
    (s.memMap b.buddy.index).refcount = 0 ∧ (s.memMap b.buddy.index).order = b.order ↔
      b.buddy ∈ blocks s := by
  constructor
  · rintro ⟨h0, hord⟩
    have hal : b.buddy.Aligned := h.aligned.buddy
    have hin : b.buddy.index < numPages :=
      within_of_covers h.aligned.parent ho (h.aligned.parent_covers.2 (.inl b.covers_index))
        (h.inside _ b.covers_index) _ (h.aligned.parent_covers.2 (.inr b.buddy.covers_index))
    rcases h.total _ hin with hc | ⟨c, hc, hcov⟩
    · exact absurd b.buddy.covers_index (h.aligned.not_covers_buddy hc)
    · have hca : c.Aligned := h.tiling.aligned c hc
      -- a larger block would have the pages of the hand
      have hle : c.order ≤ b.order := by
        by_contra hlt
        refine h.apart b.index b.covers_index ⟨c, hc, ?_⟩
        refine h.aligned.parent.nested hca (Nat.lt_of_not_le hlt) (f := b.buddy.index) ?_ hcov ?_
        · exact h.aligned.parent_covers.2 (.inr b.buddy.covers_index)
        · exact h.aligned.parent_covers.2 (.inl b.covers_index)
      have hidx : c.index = b.buddy.index := by
        have hn := hca.nested hal hle hcov b.buddy.covers_index c.covers_index
        exact le_antisymm hcov.1 hn.1
      rcases hc with hc | hc
      · have hrec := h.free c hc
        rw [hidx] at hrec
        rw [hrec] at hord
        rwa [← show c = b.buddy from Block.ext hidx hord]
      · exact absurd (hidx ▸ h0) hc.2.1
  · intro hm
    rw [h.free b.buddy hm]
    exact ⟨rfl, rfl⟩

/-- **The buddy is taken from its list, and the hand has both.** -/
theorem Hand.merge (h : Hand s b) (ho : b.order < maxOrder) (hm : b.buddy ∈ blocks s)
    (hl : (s.freeArea b.order).Perm (b.buddy.index :: l)) :
    Hand (s.setList b.order l) b.parent ∧
      blocks (s.setList b.order l) = blocks s \ {b.buddy} := by
  have hbl : blocks (s.setList b.order l) = blocks s \ {b.buddy} :=
    blocks_setList (h.nodup _) hl
  have hmem : b.buddy ∈ blocks s ∪ used s := .inl hm
  have hnot : b.buddy ∉ used s := fun hu => hu.2.1 (by rw [h.free b.buddy hm])
  have hset : blocks (s.setList b.order l) ∪ used (s.setList b.order l) =
      (blocks s ∪ used s) \ {b.buddy} := by
    rw [hbl, used_setList, Set.union_sdiff_distrib, Set.sdiff_singleton_eq_self hnot]
  refine ⟨⟨?_, h.aligned.parent, ho, ?_, ?_, ?_, ?_, fun o => ?_, ?_⟩, hbl⟩
  · rw [hset]
    exact h.tiling.erase b.buddy
  · rw [hset]
    intro f hf hr
    rw [h.tiling.mem_region_erase hmem] at hr
    rcases h.aligned.parent_covers.1 hf with hf | hf
    · exact h.apart f hf hr.1
    · exact hr.2 hf
  · rw [hset]
    intro f hf
    by_cases hbf : b.buddy.Covers f
    · exact .inl (h.aligned.parent_covers.2 (.inr hbf))
    · rcases h.total f hf with hr | hr
      · exact .inl (h.aligned.parent_covers.2 (.inl hr))
      · exact .inr ((h.tiling.mem_region_erase hmem).2 ⟨hr, hbf⟩)
  · rw [hset]
    exact fun c hc => h.within c hc.1
  · intro f hf
    rcases h.aligned.parent_covers.1 hf with hf | hf
    · exact h.inside f hf
    · exact h.within b.buddy hmem f hf
  · change (Function.update s.freeArea b.order l o).Nodup
    by_cases ho : o = b.order
    · rw [ho, Function.update_self]
      exact (List.nodup_cons.1 (hl.nodup_iff.1 (h.nodup _))).2
    · rw [Function.update_of_ne ho]
      exact h.nodup o
  · rw [hbl]
    exact fun c hc => h.free c hc.1

end Hand

/-! ### The first state -/

/-- After `n` rounds of the loop the first `n` blocks are in the list. -/
theorem initLoop_eq (n : ℕ) :
    (List.range n).foldl initBlock ⟨fun _ => ⟨0, 0⟩, fun _ => []⟩ =
      ⟨fun f => ⟨if 2 ^ maxOrder ∣ f ∧ f < n * 2 ^ maxOrder then maxOrder else 0, 0⟩,
        fun o => if o = maxOrder then (List.range n).map (· * 2 ^ maxOrder) else []⟩ := by
  induction n with
  | zero => simp
  | succ n ih =>
    rw [List.range_succ, List.foldl_append, ih]
    have hpos := Nat.two_pow_pos maxOrder
    simp only [List.foldl_cons, List.foldl_nil, initBlock, BuddyArea.push, BuddyArea.setList,
      BuddyArea.setPage, BuddyArea.mk.injEq]
    generalize 2 ^ maxOrder = k at *
    refine ⟨funext fun f => ?_, funext fun o => ?_⟩
    · by_cases hf : f = n * k
      · have hlt : n * k < (n + 1) * k := Nat.mul_lt_mul_of_pos_right (Nat.lt_succ_self n) hpos
        rw [hf, Function.update_self, if_pos ⟨⟨n, Nat.mul_comm _ _⟩, hlt⟩]
      · rw [Function.update_of_ne hf]
        congr 2
        rw [eq_iff_iff]
        refine and_congr_right fun ⟨q, hq⟩ => ?_
        rw [hq, Nat.mul_comm, Nat.mul_lt_mul_right hpos, Nat.mul_lt_mul_right hpos]
        have : q ≠ n := fun h => hf (by rw [hq, h, Nat.mul_comm])
        omega
    · by_cases ho : o = maxOrder
      · subst ho
        simp only [Function.update_self, if_true, List.map_append, List.map_cons, List.map_nil]
      · simp only [Function.update_of_ne ho, if_neg ho]

theorem mem_blocks_initLoop {b : Block} :
    b ∈ blocks initLoop ↔ b.order = maxOrder ∧ b.Aligned ∧ b.index < numPages := by
  change b.order ≤ maxOrder ∧ b.index ∈ initLoop.freeArea b.order ↔ _
  rw [initLoop, initLoop_eq]
  have hn : numPages = numPages / 2 ^ maxOrder * 2 ^ maxOrder := by decide
  by_cases ho : b.order = maxOrder
  · simp only [ho, if_true, Block.Aligned, le_refl, true_and, List.mem_map, List.mem_range]
    have hpos := Nat.two_pow_pos maxOrder
    generalize numPages / 2 ^ maxOrder = m at *
    generalize 2 ^ maxOrder = k at *
    rw [hn]
    constructor
    · rintro ⟨q, hq, hb⟩
      rw [← hb]
      exact ⟨⟨q, Nat.mul_comm _ _⟩, Nat.mul_lt_mul_of_pos_right hq hpos⟩
    · rintro ⟨⟨q, hq⟩, hlt⟩
      rw [hq, Nat.mul_comm, Nat.mul_lt_mul_right hpos] at hlt
      exact ⟨q, hlt, by rw [hq, Nat.mul_comm]⟩
  · simp only [ho, if_false, List.not_mem_nil, and_false, false_and]

theorem used_initLoop : used initLoop = ∅ := by
  refine Set.eq_empty_of_forall_notMem fun b hb => hb.2.1 ?_
  rw [initLoop, initLoop_eq]

/-- **At first every page is in a free block of the greatest order.** -/
theorem tiles_initLoop : Tiles initLoop := by
  have hn : ∀ f : ℕ, f < numPages → f - f % 2 ^ maxOrder < numPages := fun f hf => by omega
  have hal : ∀ f : ℕ, 2 ^ maxOrder ∣ f - f % 2 ^ maxOrder := fun f => Nat.dvd_sub_mod f
  refine ⟨⟨?_, ?_, ?_⟩, ?_, ?_, fun o => ?_, ?_⟩
  · rw [used_initLoop, Set.union_empty]
    exact fun b hb => (mem_blocks_initLoop.1 hb).2.1
  · rw [used_initLoop, Set.union_empty]
    exact fun b hb => (mem_blocks_initLoop.1 hb).1.le
  · rw [used_initLoop, Set.union_empty]
    intro a ha b hb f hfa hfb
    rw [mem_blocks_initLoop] at ha hb
    exact ha.2.1.eq hb.2.1 (ha.1.trans hb.1.symm) hfa hfb
  · rw [used_initLoop, Set.union_empty]
    intro f hf
    refine ⟨⟨f - f % 2 ^ maxOrder, maxOrder⟩, mem_blocks_initLoop.2 ⟨rfl, hal f, hn f hf⟩, ?_, ?_⟩
    · exact Nat.sub_le _ _
    · have := Nat.mod_lt f (Nat.two_pow_pos maxOrder)
      dsimp only
      omega
  · rw [used_initLoop, Set.union_empty]
    intro b hb
    obtain ⟨ho, ha, hlt⟩ := mem_blocks_initLoop.1 hb
    exact within_of_covers ha ho.le b.covers_index hlt
  · rw [initLoop, initLoop_eq]
    dsimp only
    split
    · refine List.Nodup.map (fun a b hab => ?_) List.nodup_range
      exact Nat.eq_of_mul_eq_mul_right (Nat.two_pow_pos maxOrder) hab
    · exact List.nodup_nil
  · intro b hb
    obtain ⟨ho, ha, hlt⟩ := mem_blocks_initLoop.1 hb
    rw [Block.Aligned, ho] at ha
    have hm : numPages / 2 ^ maxOrder * 2 ^ maxOrder = numPages := by decide
    rw [initLoop, initLoop_eq, ho, hm]
    dsimp only
    rw [if_pos ⟨ha, hlt⟩]

theorem noBuddies_initLoop : NoBuddies maxOrder (blocks initLoop) :=
  fun _ hb hlt => absurd (mem_blocks_initLoop.1 hb).1 hlt.ne

theorem good_initLoop : Good initLoop := ⟨tiles_initLoop, noBuddies_initLoop⟩

end OscKernel.Buddy.Area
