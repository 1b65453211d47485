import OscKernel.Buddy.Area

/-! # Reserved regions of `lab3/ex32`

`memory_reserve` goes from the greatest order down. A free block that the region does not touch stays; one
that lies in the region is taken from its list, as is a page that the region touches; any other one is
split, and the next order sees the halves.

* `memoryReserve`, `mmInit`: the source.
* `Cleared`: what holds while the lists are gone through.
* `free_of_reserved`: what is free after any reservations. -/

namespace OscKernel.Buddy.Reserve

open OscKernel.Lib.Dyadic OscKernel.Buddy.Area

/-! ### The source -/

/-- `PAGE_SIZE`. -/
def pageSize : BitVec 64 := 4096

/-- The two halves of the block go to the list below. -/
def splitBlock (childOrder pfn : ℕ) (s : BuddyArea) : BuddyArea :=
  let half := 2 ^ childOrder
  let s := (s.setPage pfn ⟨childOrder, 0⟩).setPage (pfn + half) ⟨childOrder, 0⟩
  (s.push childOrder pfn).push childOrder (pfn + half)

/-- The loop over the blocks of an order. The iterator stands behind `seen`, and `rest` is to come. -/
def scanLoop (startPfn endPfn order : ℕ) : List ℕ → List ℕ → BuddyArea → BuddyArea
  | _, [], s => s
  | seen, pfn :: rest, s =>
    let blockEnd := pfn + 2 ^ order
    if blockEnd ≤ startPfn ∨ endPfn ≤ pfn then scanLoop startPfn endPfn order (seen ++ [pfn]) rest s
    else
      let s := s.setList order (seen ++ rest)
      scanLoop startPfn endPfn order seen rest
        (if (startPfn ≤ pfn ∧ blockEnd ≤ endPfn) ∨ order = 0 then s.setPage pfn ⟨order, 1⟩
        else splitBlock (order - 1) pfn s)

/-- The loop over the orders, down to 0. -/
def orderLoop (startPfn endPfn : ℕ) : ℕ → BuddyArea → BuddyArea
  | 0, s => scanLoop startPfn endPfn 0 [] (s.freeArea 0) s
  | order + 1, s =>
    orderLoop startPfn endPfn order
      (scanLoop startPfn endPfn (order + 1) [] (s.freeArea (order + 1)) s)

def memoryReserve (base size : BitVec 64) (s : BuddyArea) : BuddyArea :=
  if size = 0 then s
  else
    let startPfn := (base / pageSize).toNat
    let endPfn := ((base + size + pageSize - 1) / pageSize).toNat
    if numPages ≤ startPfn then s
    else
      let endPfn := if numPages < endPfn then numPages else endPfn
      if endPfn ≤ startPfn then s else orderLoop startPfn endPfn maxOrder s

/-- A region: its base and its size. -/
structure Region where
  base : BitVec 64
  size : BitVec 64

/-- The region that `mm_init` reserves. -/
def bootRegion : Region := ⟨0, 0x82a69510⟩

def mmInit : BuddyArea := memoryReserve bootRegion.base bootRegion.size initLoop

/-- The regions are reserved one after the other. -/
def reserveAll (rs : List Region) : BuddyArea :=
  rs.foldl (fun s r => memoryReserve r.base r.size s) mmInit

/-! ### What a reservation is for -/

/-- A byte of the region lies in the page. -/
def Region.Touches (r : Region) (f : ℕ) : Prop :=
  ∃ a, r.base.toNat ≤ a ∧ a < r.base.toNat + r.size.toNat ∧ a / 4096 = f

/-- The end of the region, rounded up, is an address. -/
def Region.Fits (r : Region) : Prop := r.base.toNat + r.size.toNat + 4095 < 2 ^ 64

/-- The block has a page of the range. -/
def Overlaps (startPfn endPfn : ℕ) (b : Block) : Prop := ∃ f, b.Covers f ∧ startPfn ≤ f ∧ f < endPfn

/-- What holds while the lists are gone through: buddies that are both free are still to be looked at,
and pages outside the range stay free. -/
structure Cleared (startPfn endPfn : ℕ) (F : Set ℕ) (s : BuddyArea) : Prop extends Tiles s where
  apart : ∀ b ∈ blocks s, b.order < maxOrder → b.buddy ∈ blocks s →
    Overlaps startPfn endPfn b ∨ Overlaps startPfn endPfn b.buddy
  sub : region (blocks s) ⊆ F
  keep : ∀ f ∈ F, ¬ (startPfn ≤ f ∧ f < endPfn) → f ∈ region (blocks s)

section Loops
variable {startPfn endPfn k pfn : ℕ} {F : Set ℕ} {s : BuddyArea} {b : Block} {seen rest l : List ℕ}

theorem overlaps_iff (hlt : startPfn < endPfn) :
    Overlaps startPfn endPfn b ↔ ¬ (b.index + 2 ^ b.order ≤ startPfn ∨ endPfn ≤ b.index) := by
  have hpos := Nat.two_pow_pos b.order
  simp only [Overlaps, Block.Covers]
  constructor
  · rintro ⟨f, hf, h1, h2⟩
    omega
  · intro h
    exact ⟨max startPfn b.index, by omega, by omega, by omega⟩

theorem Cleared.take (h : Cleared startPfn endPfn F s) (hb : b ∈ blocks s)
    (hl : (s.freeArea b.order).Perm (b.index :: l))
    (hin : ∀ f, b.Covers f → startPfn ≤ f ∧ f < endPfn) :
    Cleared startPfn endPfn F ((s.setList b.order l).setPage b.index ⟨b.order, 1⟩) := by
  obtain ⟨h1, hbl⟩ := h.toTiles.take hb hl
  have hset : blocks ((s.setList b.order l).setPage b.index ⟨b.order, 1⟩) = blocks s \ {b} := hbl
  refine ⟨h1.use.1, ?_, ?_, ?_⟩
  · rw [hset]
    exact fun c hc ho hm => h.apart c hc.1 ho hm.1
  · rw [hset]
    exact fun f hf => h.sub ((h.tiling_blocks.mem_region_erase hb).1 hf).1
  · rw [hset]
    intro f hf hout
    exact (h.tiling_blocks.mem_region_erase hb).2 ⟨h.keep f hf hout, fun hc => hout (hin f hc)⟩

theorem put_halves (h : Hand s ⟨pfn, k + 1⟩) (hp : s.memMap pfn = ⟨k, 0⟩)
    (hp' : s.memMap (pfn + 2 ^ k) = ⟨k, 0⟩) :
    Tiles ((s.push k pfn).push k (pfn + 2 ^ k)) ∧
      blocks ((s.push k pfn).push k (pfn + 2 ^ k)) =
        insert ⟨pfn + 2 ^ k, k⟩ (insert ⟨pfn, k⟩ (blocks s)) := by
  obtain ⟨hal, hbud, hpar⟩ := h.aligned.halves
  rw [← hpar] at h
  obtain ⟨h1, hbl1⟩ := h.half hal hp
  rw [hbud] at h1
  obtain ⟨h2, hbl2⟩ := h1.put hp'
  refine ⟨h2, hbl2.trans ?_⟩
  rw [← hbl1]

/-- **A block is split**: its pages stay free, and one of the halves is still to be looked at. -/
theorem Cleared.split (h : Cleared startPfn endPfn F s) (hb : ⟨pfn, k + 1⟩ ∈ blocks s)
    (hl : (s.freeArea (k + 1)).Perm (pfn :: l)) (ho : Overlaps startPfn endPfn ⟨pfn, k + 1⟩) :
    Cleared startPfn endPfn F (splitBlock k pfn (s.setList (k + 1) l)) := by
  obtain ⟨h1, hbl⟩ := h.toTiles.take hb hl
  obtain ⟨hal, hbud, hpar⟩ := h1.aligned.halves
  have hcov : ∀ f, (⟨pfn, k + 1⟩ : Block).Covers f ↔
      (⟨pfn, k⟩ : Block).Covers f ∨ (⟨pfn + 2 ^ k, k⟩ : Block).Covers f := by
    intro f
    rw [← hpar, hal.parent_covers, hbud]
  have hover : Overlaps startPfn endPfn ⟨pfn, k⟩ ∨ Overlaps startPfn endPfn ⟨pfn + 2 ^ k, k⟩ := by
    obtain ⟨f, hf, hin⟩ := ho
    rcases (hcov f).1 hf with hf | hf
    · exact .inl ⟨f, hf, hin⟩
    · exact .inr ⟨f, hf, hin⟩
  have hset : Tiles (splitBlock k pfn (s.setList (k + 1) l)) ∧
      blocks (splitBlock k pfn (s.setList (k + 1) l)) =
        insert ⟨pfn + 2 ^ k, k⟩ (insert ⟨pfn, k⟩ (blocks s \ {⟨pfn, k + 1⟩})) := by
    have hpos := Nat.two_pow_pos k
    have hne : pfn ≠ pfn + 2 ^ k := by omega
    have h2 := (h1.setPage ((hcov pfn).2 (.inl (Block.covers_index _))) (p := ⟨k, 0⟩) rfl).setPage
      ((hcov (pfn + 2 ^ k)).2 (.inr (Block.covers_index _))) (p := ⟨k, 0⟩) rfl
    obtain ⟨h3, hbl3⟩ := put_halves h2
      (by rw [BuddyArea.memMap_setPage, Function.update_of_ne hne, BuddyArea.memMap_setPage,
        Function.update_self])
      (by rw [BuddyArea.memMap_setPage, Function.update_self])
    refine ⟨h3, hbl3.trans ?_⟩
    rw [← hbl]
    rfl
  have hreg : region (blocks (splitBlock k pfn (s.setList (k + 1) l))) = region (blocks s) := by
    ext f
    rw [hset.2, mem_region_insert, mem_region_insert, h.tiling_blocks.mem_region_erase hb, or_left_comm,
      ← or_assoc, ← hcov]
    constructor
    · rintro (hf | hf)
      · exact ⟨_, hb, hf⟩
      · exact hf.1
    · intro hf
      by_cases hc : (⟨pfn, k + 1⟩ : Block).Covers f
      · exact .inl hc
      · exact .inr ⟨hf, hc⟩
  refine ⟨hset.1, ?_, ?_, ?_⟩
  · rw [hset.2]
    have hbud' : (⟨pfn + 2 ^ k, k⟩ : Block).buddy = ⟨pfn, k⟩ := by rw [← hbud, Block.buddy_buddy]
    rintro c (rfl | rfl | hc) ho hm
    · rw [hbud']
      exact hover.symm
    · rw [hbud]
      exact hover
    · rcases hm with hm | hm | hm
      · have hc' : c = ⟨pfn, k⟩ := by rw [← Block.buddy_buddy c, hm, hbud']
        rw [hm, hc']
        exact hover
      · have hc' : c = ⟨pfn + 2 ^ k, k⟩ := by rw [← Block.buddy_buddy c, hm, hbud]
        rw [hm, hc']
        exact hover.symm
      · exact h.apart c hc.1 ho hm.1
  · rw [hreg]
    exact h.sub
  · rw [hreg]
    exact h.keep

theorem freeArea_splitBlock {o : ℕ} (ho : k < o) :
    (splitBlock k pfn s).freeArea o = s.freeArea o := by
  simp only [splitBlock, BuddyArea.push, BuddyArea.freeArea_setList, BuddyArea.freeArea_setPage,
    Function.update_of_ne ho.ne']

/-- **The loop over an order** leaves no block of it that the range touches. -/
theorem scanLoop_spec (hlt : startPfn < endPfn) (ho : k ≤ maxOrder)
    (h : Cleared startPfn endPfn F s) (hl : s.freeArea k = seen ++ rest)
    (hseen : ∀ i ∈ seen, ¬ Overlaps startPfn endPfn ⟨i, k⟩) :
    Cleared startPfn endPfn F (scanLoop startPfn endPfn k seen rest s) ∧
      (∀ o, k < o → (scanLoop startPfn endPfn k seen rest s).freeArea o = s.freeArea o) ∧
      ∀ i ∈ (scanLoop startPfn endPfn k seen rest s).freeArea k, ¬ Overlaps startPfn endPfn ⟨i, k⟩ := by
  induction rest generalizing seen s with
  | nil =>
    rw [List.append_nil] at hl
    refine ⟨h, fun _ _ => rfl, fun i hi => hseen i ?_⟩
    rw [scanLoop, hl] at hi
    exact hi
  | cons pfn rest ih =>
    rw [scanLoop]
    dsimp only
    by_cases hno : pfn + 2 ^ k ≤ startPfn ∨ endPfn ≤ pfn
    · rw [if_pos hno]
      refine ih h ?_ fun i hi => ?_
      · rw [hl, List.append_assoc]
        rfl
      · rcases List.mem_append.1 hi with hi | hi
        · exact hseen i hi
        · rw [List.mem_singleton.1 hi, overlaps_iff hlt, not_not]
          exact hno
    · rw [if_neg hno]
      have hb : (⟨pfn, k⟩ : Block) ∈ blocks s := by
        refine ⟨ho, ?_⟩
        rw [hl]
        exact List.mem_append_right _ List.mem_cons_self
      have hperm : (s.freeArea k).Perm (pfn :: (seen ++ rest)) := by
        rw [hl]
        exact List.perm_middle
      have hself : (s.setList k (seen ++ rest)).freeArea k = seen ++ rest := Function.update_self _ _ _
      have hother : ∀ o, k < o → (s.setList k (seen ++ rest)).freeArea o = s.freeArea o :=
        fun o hlt => Function.update_of_ne hlt.ne' _ _
      by_cases hin : (startPfn ≤ pfn ∧ pfn + 2 ^ k ≤ endPfn) ∨ k = 0
      · rw [if_pos hin]
        have hall : ∀ f, (⟨pfn, k⟩ : Block).Covers f → startPfn ≤ f ∧ f < endPfn := by
          rintro f ⟨h1, h2⟩
          dsimp only at h1 h2
          rcases hin with hin | rfl
          · omega
          · rw [pow_zero] at h2 hno
            omega
        obtain ⟨h1, h2, h3⟩ := ih (h.take hb hperm hall) hself hseen
        exact ⟨h1, fun o hlt => (h2 o hlt).trans (hother o hlt), h3⟩
      · rw [if_neg hin]
        obtain ⟨j, rfl⟩ : ∃ j, k = j + 1 := ⟨k - 1, by omega⟩
        rw [Nat.add_sub_cancel]
        have hcl := h.split hb hperm ((overlaps_iff hlt).2 hno)
        obtain ⟨h1, h2, h3⟩ := ih hcl ((freeArea_splitBlock (Nat.lt_succ_self j)).trans hself) hseen
        refine ⟨h1, fun o hlt => ?_, h3⟩
        rw [h2 o hlt, freeArea_splitBlock (by omega), hother o hlt]

/-- After the loop over the order `k` no block of that order or a greater one is touched. -/
theorem scan_done (hlt : startPfn < endPfn) (ho : k ≤ maxOrder) (h : Cleared startPfn endPfn F s)
    (hdone : ∀ b ∈ blocks s, k < b.order → ¬ Overlaps startPfn endPfn b) :
    Cleared startPfn endPfn F (scanLoop startPfn endPfn k [] (s.freeArea k) s) ∧
      ∀ b ∈ blocks (scanLoop startPfn endPfn k [] (s.freeArea k) s), k ≤ b.order →
        ¬ Overlaps startPfn endPfn b := by
  obtain ⟨h1, h2, h3⟩ :=
    scanLoop_spec hlt ho h (List.nil_append _).symm fun i hi => absurd hi List.not_mem_nil
  refine ⟨h1, fun b hb hle => ?_⟩
  rcases hle.eq_or_lt with rfl | hlt'
  · exact h3 b.index hb.2
  · refine hdone b ⟨hb.1, ?_⟩ hlt'
    rw [← h2 b.order hlt']
    exact hb.2

/-- **The loop over the orders** leaves no block that the range touches. -/
theorem orderLoop_spec (hlt : startPfn < endPfn) (ho : k ≤ maxOrder)
    (h : Cleared startPfn endPfn F s)
    (hdone : ∀ b ∈ blocks s, k < b.order → ¬ Overlaps startPfn endPfn b) :
    Cleared startPfn endPfn F (orderLoop startPfn endPfn k s) ∧
      ∀ b ∈ blocks (orderLoop startPfn endPfn k s), ¬ Overlaps startPfn endPfn b := by
  induction k generalizing s with
  | zero =>
    obtain ⟨h1, h2⟩ := scan_done hlt ho h hdone
    exact ⟨h1, fun b hb => h2 b hb (Nat.zero_le _)⟩
  | succ k ih =>
    obtain ⟨h1, h2⟩ := scan_done hlt ho h hdone
    exact ih (by omega) h1 fun b hb hlt' => h2 b hb hlt'

end Loops

/-! ### A reservation -/

section Reserve
variable {s : BuddyArea} {r : Region} {startPfn endPfn f : ℕ}

theorem orderLoop_good (h : Good s) (hlt : startPfn < endPfn) :
    Good (orderLoop startPfn endPfn maxOrder s) ∧
      ∀ f, f ∈ region (blocks (orderLoop startPfn endPfn maxOrder s)) ↔
        f ∈ region (blocks s) ∧ ¬ (startPfn ≤ f ∧ f < endPfn) := by
  have hc : Cleared startPfn endPfn (region (blocks s)) s :=
    ⟨h.toTiles, fun b hb ho hm => absurd hm (h.apart b hb ho), subset_rfl, fun _ hf _ => hf⟩
  obtain ⟨h1, h2⟩ := orderLoop_spec hlt le_rfl hc fun b hb hlt' => absurd hb.1 (by omega)
  refine ⟨⟨h1.toTiles, fun b hb ho hm => ?_⟩, fun f => ⟨fun hf => ⟨h1.sub hf, fun hin => ?_⟩, ?_⟩⟩
  · rcases h1.apart b hb ho hm with hov | hov
    · exact h2 b hb hov
    · exact h2 _ hm hov
  · obtain ⟨b, hb, hfb⟩ := hf
    exact h2 b hb ⟨f, hfb, hin⟩
  · exact fun hf => h1.keep f hf.1 hf.2

theorem touches_iff (hr : r.Fits) (hsz : r.size ≠ 0) :
    r.Touches f ↔ (r.base / pageSize).toNat ≤ f ∧
      f < ((r.base + r.size + pageSize - 1) / pageSize).toNat := by
  have hfit : r.base.toNat + r.size.toNat + 4095 < 2 ^ 64 := hr
  have hpos : 0 < r.size.toNat := by
    rw [Nat.pos_iff_ne_zero]
    exact fun h0 => hsz (BitVec.eq_of_toNat_eq h0)
  have hp : pageSize.toNat = 4096 := rfl
  have hb : (r.base / pageSize).toNat = r.base.toNat / 4096 := by rw [BitVec.toNat_udiv, hp]
  have hsum : (r.base + r.size + pageSize - 1).toNat = r.base.toNat + r.size.toNat + 4095 := by
    rw [pageSize]
    bv_omega
  have he : ((r.base + r.size + pageSize - 1) / pageSize).toNat =
      (r.base.toNat + r.size.toNat + 4095) / 4096 := by
    rw [BitVec.toNat_udiv, hp, hsum]
  rw [hb, he, Region.Touches]
  constructor
  · rintro ⟨a, h1, h2, rfl⟩
    omega
  · rintro ⟨h1, h2⟩
    exact ⟨max r.base.toNat (f * 4096), by omega, by omega, by omega⟩

/-- **`memory_reserve` takes the pages that the region touches**, and no other ones. -/
theorem memoryReserve_spec (h : Good s) (hr : r.Fits) :
    Good (memoryReserve r.base r.size s) ∧
      ∀ f, f ∈ region (blocks (memoryReserve r.base r.size s)) ↔
        f ∈ region (blocks s) ∧ ¬ r.Touches f := by
  rw [memoryReserve]
  by_cases hsz : r.size = 0
  · rw [if_pos hsz]
    refine ⟨h, fun f => (and_iff_left ?_).symm⟩
    rintro ⟨a, h1, h2, -⟩
    rw [hsz] at h2
    exact absurd h2 (Nat.not_lt.2 h1)
  · rw [if_neg hsz]
    have ht : ∀ f, r.Touches f ↔ _ := fun f => touches_iff (f := f) hr hsz
    dsimp only
    generalize (r.base / pageSize).toNat = a at ht ⊢
    generalize ((r.base + r.size + pageSize - 1) / pageSize).toNat = e at ht ⊢
    have hin : ∀ f ∈ region (blocks s), f < numPages := fun f hf => (h.mem_region.1 hf).1
    by_cases ha : numPages ≤ a
    · rw [if_pos ha]
      refine ⟨h, fun f => ⟨fun hf => ⟨hf, fun hf' => ?_⟩, And.left⟩⟩
      have := hin f hf
      have := (ht f).1 hf'
      omega
    · rw [if_neg ha]
      -- the end is cut off at the last page
      obtain ⟨e', he', hcut⟩ : ∃ e', e' = (if numPages < e then numPages else e) ∧
          ∀ f < numPages, f < e' ↔ f < e := by
        refine ⟨_, rfl, fun f hf => ?_⟩
        split_ifs <;> omega
      rw [← he']
      by_cases hle : e' ≤ a
      · rw [if_pos hle]
        refine ⟨h, fun f => ⟨fun hf => ⟨hf, fun hf' => ?_⟩, And.left⟩⟩
        obtain ⟨h1, h2⟩ := (ht f).1 hf'
        have := (hcut f (hin f hf)).2 h2
        omega
      · rw [if_neg hle]
        obtain ⟨h1, h2⟩ := orderLoop_good h (Nat.lt_of_not_le hle)
        refine ⟨h1, fun f => (h2 f).trans (and_congr_right fun hf => not_congr ?_)⟩
        rw [ht, hcut f (hin f hf)]

end Reserve

/-! ### All reservations -/

theorem bootRegion_fits : bootRegion.Fits := by
  unfold Region.Fits
  decide

section All
variable {rs : List Region} {s : BuddyArea}

theorem foldl_spec (h : Good s) (hr : ∀ r ∈ rs, r.Fits) :
    Good (rs.foldl (fun s r => memoryReserve r.base r.size s) s) ∧
      ∀ f, f ∈ region (blocks (rs.foldl (fun s r => memoryReserve r.base r.size s) s)) ↔
        f ∈ region (blocks s) ∧ ∀ r ∈ rs, ¬ r.Touches f := by
  induction rs generalizing s with
  | nil => exact ⟨h, fun f => (and_iff_left fun r hr => absurd hr List.not_mem_nil).symm⟩
  | cons r rs ih =>
    obtain ⟨h1, h2⟩ := memoryReserve_spec h (hr r List.mem_cons_self)
    obtain ⟨h3, h4⟩ := ih h1 fun r' hr' => hr r' (List.mem_cons_of_mem _ hr')
    refine ⟨h3, fun f => (h4 f).trans ?_⟩
    rw [h2, List.forall_mem_cons, and_assoc]

theorem reserveAll_spec (hr : ∀ r ∈ rs, r.Fits) :
    Good (reserveAll rs) ∧ ∀ f, f ∈ region (blocks (reserveAll rs)) ↔
      f < numPages ∧ ∀ r ∈ bootRegion :: rs, ¬ r.Touches f := by
  have hall : ∀ r ∈ bootRegion :: rs, r.Fits := List.forall_mem_cons.2 ⟨bootRegion_fits, hr⟩
  obtain ⟨h1, h2⟩ := foldl_spec good_initLoop hall
  rw [List.foldl_cons, ← mmInit, ← reserveAll] at h1 h2
  refine ⟨h1, fun f => (h2 f).trans (and_congr_left fun _ => ?_)⟩
  rw [good_initLoop.mem_region, used_initLoop]
  exact and_iff_left fun ⟨_, hb, _⟩ => hb

end All

/-- **What is free does not depend on the order of the reservations.** After `mm_init` and any regions
that are reserved, the free blocks are the greatest aligned blocks of the pages that no region touches,
and every page that one touches is in a block that is not free. -/
theorem free_of_reserved {rs : List Region} (hr : ∀ r ∈ rs, r.Fits) :
    (∀ b, b ∈ blocks (reserveAll rs) ↔
      Maximal maxOrder {f | f < numPages ∧ ∀ r ∈ bootRegion :: rs, ¬ r.Touches f} b) ∧
      ∀ f < numPages, (∃ r ∈ bootRegion :: rs, r.Touches f) →
        ∃ b ∈ used (reserveAll rs), b.Covers f := by
  obtain ⟨h1, h2⟩ := reserveAll_spec hr
  refine ⟨fun b => ?_, fun f hf ⟨r, hm, ht⟩ => ?_⟩
  · have hset : {f | f < numPages ∧ ∀ r ∈ bootRegion :: rs, ¬ r.Touches f} =
        region (blocks (reserveAll rs)) := Set.ext fun f => (h2 f).symm
    rw [hset]
    exact h1.tiling_blocks.mem_iff_maximal h1.apart
  · by_contra hc
    exact ((h2 f).1 (h1.mem_region.2 ⟨hf, hc⟩)).2 r hm ht

/-- Two regions that overlap, and end within a page. -/
theorem free_of_reserved_two :
    let rs : List Region := [⟨0x90000000, 0x1234⟩, ⟨0x8fff0000, 0x10800⟩]
    (∀ b, b ∈ blocks (reserveAll rs) ↔
      Maximal maxOrder {f | f < numPages ∧ ∀ r ∈ bootRegion :: rs, ¬ r.Touches f} b) ∧
      ∀ f < numPages, (∃ r ∈ bootRegion :: rs, r.Touches f) →
        ∃ b ∈ used (reserveAll rs), b.Covers f := by
  intro rs
  refine free_of_reserved fun r hr => ?_
  simp only [rs, List.mem_cons, List.not_mem_nil, or_false] at hr
  unfold Region.Fits
  rcases hr with rfl | rfl <;> decide

end OscKernel.Buddy.Reserve
