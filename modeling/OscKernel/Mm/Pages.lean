import OscKernel.Mm.Reserve

/-! # The page allocator of lab6

`alloc_pages` takes a block of the least sufficient order and splits it until a block of the wanted
order is left; `free_pages` merges a block with its buddy as long as that one is free.

* `allocPages_spec`: the block that `alloc_pages` returns was free, and the others stay.
* `freePages_spec`: the frames of a block that `free_pages` is given are free again.

Both keep the free lists without buddies (`Coalesced`), so after any sequence of calls the free blocks
are the maximal blocks of free frames. -/

namespace OscKernel.Mm.Pages

open OscKernel.Lib.Memory OscKernel.Lib.Dyadic OscKernel.Vm.Tables OscKernel.Mm.Frames
  OscKernel.Mm.Reserve

/-! ### The functions -/

/-- The loop of `alloc_pages` that splits a block of the current order. -/
def splitLoop (idx order : ℕ) : ℕ → MmState → Option MmState
  | 0, st => some st
  | current + 1, st =>
    if order < current + 1 then
      (st.addFreeBlock (idx + 2 ^ current) current).bind fun st =>
        splitLoop idx order current (st.setPage idx fun p => { p with order := current })
    else some st

/-- The loop of `alloc_pages` over the orders from the current one on. -/
def allocLoop (k : Pointers) (order : ℕ) : ℕ → ℕ → MmState → Option (Word × MmState)
  | 0, _, st => some (0, st)
  | n + 1, current, st =>
    if st.listEmpty current then allocLoop k order n (current + 1) st
    else
      match st.links.next (.head current) with
      | some (.page idx) =>
        (st.removeFreeBlock idx).bind fun st => (splitLoop idx order current st).bind fun st =>
          let st := st.setPage idx fun _ => ⟨order, .used, false, 0, -1⟩
          some (k.toPtr (st.frameAddr idx), st)
      | _ => none

/-- `alloc_pages`. -/
def allocPages (k : Pointers) (order : ℕ) (st : MmState) : Option (Word × MmState) :=
  if maxOrder < order then some (0, st) else allocLoop k order (maxOrder + 1 - order) order st

/-- The merge loop of `free_pages`, with the number of orders that are left. -/
def mergeLoop : ℕ → ℕ → ℕ → MmState → Option (ℕ × ℕ × MmState)
  | 0, idx, order, st => some (idx, order, st)
  | n + 1, idx, order, st =>
    let buddyIdx := idx ^^^ 2 ^ order
    if st.frameCount ≤ buddyIdx then some (idx, order, st)
    else
      let buddy := st.frameArray buddyIdx
      if buddy.inFreeList = false ∨ buddy.state ≠ .free ∨ buddy.order ≠ order then
        some (idx, order, st)
      else (st.removeFreeBlock buddyIdx).bind fun st =>
        let idx := if buddyIdx < idx then buddyIdx else idx
        mergeLoop n idx (order + 1)
          (st.setPage idx fun p => { p with order := (order + 1 : ℕ), state := .free })

/-- `free_pages`. -/
def freePages (k : Pointers) (addr : Word) (st : MmState) : Option MmState :=
  if addr = 0 then some st
  else
    let a := k.toPhys addr
    if ¬ st.addrInManagedRange a then some st
    else if a &&& 4095 ≠ 0 then some st
    else
      let idx := st.addrToFrameIndex a
      let order := (BitVec.ofInt 32 (st.frameArray idx).order).toNat
      let st := st.setPage idx fun p => { p with state := .free, chunkSize := 0, chunkPool := -1 }
      (mergeLoop (maxOrder - order) idx order st).bind fun (idx, order, st) =>
        st.addFreeBlock idx order

/-! ### Allocating -/

section Alloc
variable {st : MmState} {fl : ℕ → List ℕ} {F : Set ℕ} {idx order current : ℕ}

/-- **The split loop** leaves the lower part of the block. -/
theorem splitLoop_spec
    (h : Coalesced st fl {f | f ∈ F ∧ ¬ (⟨idx, current⟩ : Block).Covers f})
    (ha : (⟨idx, current⟩ : Block).Aligned) (hc : current ≤ maxOrder) (ho : order ≤ current)
    (hF : ∀ f, (⟨idx, current⟩ : Block).Covers f → f ∈ F ∧ f < st.frameCount) :
    ∃ st' fl', splitLoop idx order current st = some st' ∧
      Coalesced st' fl' {f | f ∈ F ∧ ¬ (⟨idx, order⟩ : Block).Covers f} ∧
      (⟨idx, order⟩ : Block).Aligned ∧
      (∀ f, (⟨idx, order⟩ : Block).Covers f → (⟨idx, current⟩ : Block).Covers f) ∧
      SameRange st st' ∧
      ∀ f, ¬ (⟨idx, current⟩ : Block).Covers f → st'.frameArray f = st.frameArray f := by
  induction current generalizing st fl with
  | zero =>
    obtain rfl : order = 0 := Nat.le_zero.1 ho
    exact ⟨st, fl, rfl, h, ha, fun _ hf => hf, .refl st, fun _ _ => rfl⟩
  | succ k ih =>
    unfold splitLoop
    by_cases hlt : order < k + 1
    · rw [if_pos hlt]
      obtain ⟨hal, hbud, hpar⟩ := ha.halves
      have hcov : ∀ f, (⟨idx, k + 1⟩ : Block).Covers f ↔
          (⟨idx, k⟩ : Block).Covers f ∨ (⟨idx + 2 ^ k, k⟩ : Block).Covers f := by
        intro f
        rw [← hpar, hal.parent_covers, hbud]
      have hal' : (⟨idx + 2 ^ k, k⟩ : Block).Aligned := hbud ▸ hal.buddy
      have hdis : ∀ f, (⟨idx, k⟩ : Block).Covers f → ¬ (⟨idx + 2 ^ k, k⟩ : Block).Covers f :=
        fun f hf hf' => hal.not_covers_buddy hf (hbud ▸ hf')
      have hself : (⟨idx, k⟩ : Block).Covers idx := Block.covers_index _
      -- the upper half, whose buddy is being allocated
      obtain ⟨st1, fl1, h1, hc1, hs1, hf1⟩ := h.add (Nat.le_of_succ_le hc) hal'
        (fun f hf => ⟨fun hf' => hf'.2 ((hcov f).2 (.inr hf)), (hF f ((hcov f).2 (.inr hf))).2⟩)
        fun _ hm => by
          rw [← hbud, Block.buddy_buddy] at hm
          exact ((h.region idx).1 ⟨_, hm, hself⟩).2 ((hcov idx).2 (.inl hself))
      have hc2 : Coalesced st1 fl1 {f | f ∈ F ∧ ¬ (⟨idx, k⟩ : Block).Covers f} := by
        refine hc1.congr fun f => ⟨?_, fun ⟨hf, hn⟩ => ?_⟩
        · rintro (⟨hf, hn⟩ | hf)
          · exact ⟨hf, fun hk => hn ((hcov f).2 (.inl hk))⟩
          · exact ⟨(hF f ((hcov f).2 (.inr hf))).1, fun hk => hdis f hk hf⟩
        · by_cases hu : (⟨idx + 2 ^ k, k⟩ : Block).Covers f
          · exact .inr hu
          · exact .inl ⟨hf, fun hk => ((hcov f).1 hk).elim hn hu⟩
      have hout : idx ∉ {f | f ∈ F ∧ ¬ (⟨idx, k⟩ : Block).Covers f} := fun hf => hf.2 hself
      have hc3 := hc2.setPage hout (f := fun p => { p with order := k }) fun _ hp => hp
      obtain ⟨st', fl', h2, hc', ha', hsub, hs2, hf2⟩ := ih hc3 hal (Nat.le_of_succ_le hc)
        (Nat.le_of_lt_succ hlt) fun f hf => by
          have := hF f ((hcov f).2 (.inl hf))
          exact ⟨this.1, this.2.trans_eq hs1.frameCount.symm⟩
      refine ⟨st', fl', by rw [h1, Option.bind_some, h2], hc', ha',
        fun f hf => (hcov f).2 (.inl (hsub f hf)), (hs1.trans (.setPage _)).trans hs2, fun f hf => ?_⟩
      have hlow : ¬ (⟨idx, k⟩ : Block).Covers f := fun hk => hf ((hcov f).2 (.inl hk))
      have hne : f ≠ idx := by
        rintro rfl
        exact hlow hself
      have hne' : f ≠ idx + 2 ^ k := by
        rintro rfl
        exact hf ((hcov _).2 (.inr (Block.covers_index _)))
      rw [hf2 f hlow, frameArray_setPage_of_ne _ hne, hf1 f hne']
    · rw [if_neg hlt]
      obtain rfl : order = k + 1 := by omega
      exact ⟨st, fl, rfl, h, ha, fun _ hf => hf, .refl st, fun _ _ => rfl⟩

/-- The first block of sufficient order: `idx` comes first in the list of the least such order that
has any. -/
structure FirstFit (fl : ℕ → List ℕ) (order idx current : ℕ) : Prop where
  order_le : order ≤ current
  le_max : current ≤ maxOrder
  below : ∀ o, order ≤ o → o < current → fl o = []
  head : (fl current).head? = some idx

/-- What `alloc_pages` does, whatever the pointers: it finds no block of sufficient order, or takes
the lower part of the first one. -/
inductive Allocated (k : Pointers) (st : MmState) (fl : ℕ → List ℕ) (F : Set ℕ) (order : ℕ) :
    Word → MmState → Prop
  | failed (h : ∀ blk ∈ blocks fl, blk.order < order) : Allocated k st fl F order 0 st
  | taken {st' : MmState} {fl' : ℕ → List ℕ} {idx current : ℕ}
      (first : FirstFit fl order idx current) (aligned : (⟨idx, order⟩ : Block).Aligned)
      (free : ∀ f, (⟨idx, order⟩ : Block).Covers f → f ∈ F)
      (coalesced : Coalesced st' fl' {f | f ∈ F ∧ ¬ (⟨idx, order⟩ : Block).Covers f})
      (same : SameRange st st') (page : st'.frameArray idx = ⟨order, .used, false, 0, -1⟩)
      (others : ∀ f, f ∉ F → st'.frameArray f = st.frameArray f) :
      Allocated k st fl F order (k.toPtr (st.frameAddr idx)) st'

theorem listEmpty_iff (h : Coalesced st fl F) (hc : current ≤ maxOrder) :
    st.listEmpty current ↔ fl current = [] := by
  unfold MmState.listEmpty
  rw [h.area.lists.next_head hc]
  cases fl current with
  | nil => simp [front]
  | cons i l => simp [front]

theorem frameAddr_congr {st' : MmState} (hs : SameRange st st') (idx : ℕ) :
    st'.frameAddr idx = st.frameAddr idx := by
  unfold MmState.frameAddr
  rw [hs.managedBase]

/-- **The loop over the orders**, when those below the current one have no block. -/
theorem allocLoop_spec (k : Pointers) {n : ℕ} (h : Coalesced st fl F)
    (hn : current + n = maxOrder + 1) (ho : order ≤ current)
    (hbelow : ∀ o, order ≤ o → o < current → fl o = []) :
    ∃ p st', allocLoop k order n current st = some (p, st') ∧
      Allocated k st fl F order p st' := by
  induction n generalizing current with
  | zero =>
    refine ⟨0, st, rfl, .failed fun blk hb => ?_⟩
    by_contra hge
    have hle := hb.1
    have hm := hb.2
    rw [hbelow blk.order (not_lt.1 hge) (by omega)] at hm
    cases hm
  | succ n ih =>
    have hc : current ≤ maxOrder := by omega
    unfold allocLoop
    by_cases he : st.listEmpty current
    · rw [if_pos he]
      refine ih (by omega) (by omega) fun o ho' hlt => ?_
      rcases Nat.lt_succ_iff_lt_or_eq.1 hlt with hlt | rfl
      · exact hbelow o ho' hlt
      · exact (listEmpty_iff h hc).1 he
    · rw [if_neg he]
      obtain ⟨idx, rest, hfl⟩ := List.exists_cons_of_ne_nil fun hnil => he ((listEmpty_iff h hc).2 hnil)
      have hnext : st.links.next (.head current) = some (.page idx) := by
        rw [h.area.lists.next_head hc, hfl]
        rfl
      have hb : (⟨idx, current⟩ : Block) ∈ blocks fl := ⟨hc, by dsimp only; rw [hfl]; simp⟩
      have hF : ∀ f, (⟨idx, current⟩ : Block).Covers f → f ∈ F := fun f hf =>
        (h.region f).1 ⟨_, hb, hf⟩
      obtain ⟨st1, fl1, h1, hc1, hs1, -, hf1⟩ := h.remove hb
      obtain ⟨st2, fl2, h2, hc2, ha2, hsub, hs2, hf2⟩ :=
        splitLoop_spec hc1 (h.area.tiling.aligned _ hb) hc ho fun f hf =>
          ⟨hF f hf, (h.lt (hF f hf)).trans_eq hs1.frameCount.symm⟩
      have hself : (⟨idx, order⟩ : Block).Covers idx := Block.covers_index _
      have hout : idx ∉ {f | f ∈ F ∧ ¬ (⟨idx, order⟩ : Block).Covers f} := fun hf => hf.2 hself
      have hc3 := hc2.setPage hout (f := fun _ => ⟨order, .used, false, 0, -1⟩) fun _ _ => rfl
      have hs := hs1.trans hs2
      have hfirst : FirstFit fl order idx current := ⟨ho, hc, hbelow, by rw [hfl]; rfl⟩
      refine ⟨_, _, ?_, .taken hfirst ha2 (fun f hf => hF f (hsub f hf)) hc3
        (hs.trans (.setPage _)) (frameArray_setPage_same _) fun f hf => ?_⟩
      · rw [hnext]
        dsimp only
        rw [h1, Option.bind_some, h2, Option.bind_some]
        change some (k.toPtr (st2.frameAddr idx), _) = _
        rw [frameAddr_congr hs idx]
      · have hn' : ¬ (⟨idx, current⟩ : Block).Covers f := fun hk => hf (hF f hk)
        have hne : f ≠ idx := by
          rintro rfl
          exact hn' (Block.covers_index _)
        rw [frameArray_setPage_of_ne _ hne, hf2 f hn', hf1 f hne]

/-- **`alloc_pages`** takes the first block of sufficient order, or returns the null pointer. -/
theorem allocPages_spec (k : Pointers) (h : Coalesced st fl F) (order : ℕ) :
    ∃ p st', allocPages k order st = some (p, st') ∧ Allocated k st fl F order p st' := by
  unfold allocPages
  by_cases ho : maxOrder < order
  · rw [if_pos ho]
    exact ⟨0, st, rfl, .failed fun blk hb => hb.1.trans_lt ho⟩
  · rw [if_neg ho]
    exact allocLoop_spec k h (by omega) le_rfl fun o h1 h2 => absurd h1 (not_le.2 h2)

end Alloc

/-! ### Freeing -/

section Free
variable {st : MmState} {fl : ℕ → List ℕ} {F : Set ℕ} {idx order n : ℕ}

/-- **The metadata of a frame** tells whether a block is free. -/
theorem mem_blocks_iff (h : Coalesced st fl F) (ho : order ≤ maxOrder) :
    (⟨idx, order⟩ : Block) ∈ blocks fl ↔ (st.frameArray idx).inFreeList = true ∧
      (st.frameArray idx).state = .free ∧ (st.frameArray idx).order = order := by
  constructor
  · rintro ⟨-, hm⟩
    obtain ⟨h1, h2, h3⟩ := h.area.lists.listed order ho idx hm
    exact ⟨h3, h2, h1⟩
  · rintro ⟨h1, -, h3⟩
    obtain ⟨o, ho', hm⟩ := h.area.lists.exists_of_inFreeList h1
    have heq := (h.area.lists.listed o ho' idx hm).1
    rw [h3] at heq
    exact ⟨ho, Int.natCast_inj.1 heq ▸ hm⟩

/-- What the merge loop makes of a block and the free frames `F`: a block whose buddy is not free. The
free frames and those of the block together stay what they are. -/
structure Merged (st : MmState) (F : Set ℕ) (b : Block) (st' : MmState) (fl' : ℕ → List ℕ)
    (F' : Set ℕ) (b' : Block) : Prop where
  coalesced : Coalesced st' fl' F'
  order_le : b'.order ≤ maxOrder
  aligned : b'.Aligned
  outside : ∀ f, b'.Covers f → f ∉ F' ∧ f < st'.frameCount
  buddy : b'.order < maxOrder → b'.buddy ∉ blocks fl'
  total : ∀ f, f ∈ F' ∨ b'.Covers f ↔ f ∈ F ∨ b.Covers f
  same : SameRange st st'
  others : ∀ f, f ∉ F → ¬ b.Covers f → st'.frameArray f = st.frameArray f

/-- **The merge loop** merges a block as far as its buddies are free. -/
theorem mergeLoop_spec (h : Coalesced st fl F) (hn : order + n = maxOrder)
    (ha : (⟨idx, order⟩ : Block).Aligned)
    (hF : ∀ f, (⟨idx, order⟩ : Block).Covers f → f ∉ F ∧ f < st.frameCount) :
    ∃ idx' order' st' fl' F', mergeLoop n idx order st = some (idx', order', st') ∧
      Merged st F ⟨idx, order⟩ st' fl' F' ⟨idx', order'⟩ := by
  induction n generalizing st fl F idx order with
  | zero =>
    exact ⟨idx, order, st, fl, F, rfl, h, by dsimp only; omega, ha, hF,
      fun hlt => by dsimp only at hlt; omega, fun _ => Iff.rfl, .refl st, fun _ _ _ => rfl⟩
  | succ n ih =>
    have ho : order ≤ maxOrder := by omega
    have hsum : order + 1 + n = maxOrder := by omega
    -- what the loop leaves when it stops here
    have hstop : (⟨idx, order⟩ : Block).buddy ∉ blocks fl →
        ∃ idx' order' st' fl' F', some (idx, order, st) = some (idx', order', st') ∧
          Merged st F ⟨idx, order⟩ st' fl' F' ⟨idx', order'⟩ :=
      fun hb => ⟨idx, order, st, fl, F, rfl, h, ho, ha, hF, fun _ => hb, fun _ => Iff.rfl,
        .refl st, fun _ _ _ => rfl⟩
    unfold mergeLoop
    dsimp only
    by_cases hend : st.frameCount ≤ idx ^^^ 2 ^ order
    · rw [if_pos hend]
      exact hstop fun hm => absurd (h.area.index_lt ho hm.2) (not_lt.2 hend)
    rw [if_neg hend]
    by_cases hmeta : (st.frameArray (idx ^^^ 2 ^ order)).inFreeList = false ∨
        (st.frameArray (idx ^^^ 2 ^ order)).state ≠ .free ∨
        (st.frameArray (idx ^^^ 2 ^ order)).order ≠ order
    · rw [if_pos hmeta]
      refine hstop fun hm => ?_
      obtain ⟨h1, h2, h3⟩ := (mem_blocks_iff h ho).1 hm
      rcases hmeta with hf | hf | hf
      · rw [h1] at hf
        cases hf
      · exact hf h2
      · exact hf h3
    rw [if_neg hmeta]
    -- the buddy is free: the block becomes its parent
    simp only [not_or, Bool.not_eq_false, not_not] at hmeta
    have hm : (⟨idx, order⟩ : Block).buddy ∈ blocks fl := (mem_blocks_iff h ho).2 hmeta
    obtain ⟨st1, fl1, h1, hc1, hs1, -, hf1⟩ := h.remove hm
    have hbudF : ∀ f, (⟨idx, order⟩ : Block).buddy.Covers f → f ∈ F := fun f hf =>
      (h.region f).1 ⟨_, hm, hf⟩
    have hpar : (⟨if idx ^^^ 2 ^ order < idx then idx ^^^ 2 ^ order else idx, order + 1⟩ : Block) =
        (⟨idx, order⟩ : Block).parent := by
      refine Block.ext ?_ rfl
      change _ = min idx (idx ^^^ 2 ^ order)
      dsimp only
      split <;> omega
    have hcov : ∀ f, (⟨if idx ^^^ 2 ^ order < idx then idx ^^^ 2 ^ order else idx, order + 1⟩ :
        Block).Covers f ↔ (⟨idx, order⟩ : Block).Covers f ∨ (⟨idx, order⟩ : Block).buddy.Covers f := by
      intro f
      rw [hpar, ha.parent_covers]
    set low := if idx ^^^ 2 ^ order < idx then idx ^^^ 2 ^ order else idx with hlow
    have hout : ∀ f, (⟨low, order + 1⟩ : Block).Covers f →
        f ∉ {f | f ∈ F ∧ ¬ (⟨idx, order⟩ : Block).buddy.Covers f} := by
      rintro f hf ⟨hfF, hn'⟩
      rcases (hcov f).1 hf with hf | hf
      · exact (hF f hf).1 hfF
      · exact hn' hf
    have hc2 := hc1.setPage (hout low (Block.covers_index _))
      (f := fun p => { p with order := (order + 1 : ℕ), state := .free }) fun _ hp => hp
    obtain ⟨idx', order', st', fl', F', h2, hmg⟩ :=
      ih hc2 hsum (by rw [hpar]; exact ha.parent) fun f hf => by
        refine ⟨hout f hf, ?_⟩
        change f < st1.frameCount
        rw [hs1.frameCount]
        rcases (hcov f).1 hf with hf | hf
        · exact (hF f hf).2
        · exact h.lt (hbudF f hf)
    refine ⟨idx', order', st', fl', F', ?_, hmg.coalesced, hmg.order_le, hmg.aligned, hmg.outside,
      hmg.buddy, fun f => (hmg.total f).trans ?_, (hs1.trans (.setPage _)).trans hmg.same,
      fun f hf hn' => ?_⟩
    · have h1' : st.removeFreeBlock (idx ^^^ 2 ^ order) = some st1 := h1
      rw [h1', Option.bind_some, h2]
    · rw [hcov]
      constructor
      · rintro (⟨hf, -⟩ | hf | hf)
        · exact .inl hf
        · exact .inr hf
        · exact .inl (hbudF f hf)
      · rintro (hf | hf)
        · by_cases hb : (⟨idx, order⟩ : Block).buddy.Covers f
          · exact .inr (.inr hb)
          · exact .inl ⟨hf, hb⟩
        · exact .inr (.inl hf)
    · have hnb : ¬ (⟨idx, order⟩ : Block).buddy.Covers f := fun hb => hf (hbudF f hb)
      have hnp : ¬ (⟨low, order + 1⟩ : Block).Covers f := fun hp =>
        ((hcov f).1 hp).elim hn' hnb
      have hne : f ≠ low := by
        rintro rfl
        exact hnp (Block.covers_index _)
      have hne' : f ≠ (⟨idx, order⟩ : Block).buddy.index := by
        rintro rfl
        exact hnb (Block.covers_index _)
      rw [hmg.others f (fun hf' => hf hf'.1) hnp, frameArray_setPage_of_ne _ hne, hf1 f hne']

/-! ### Pointers -/

/-- The pointers to the pages lie in the linear mapping of `2 ^ 38` bytes. -/
def Mapped (st : MmState) : Prop := st.managedBase.toNat + st.managedSize.toNat ≤ 2 ^ 38

theorem frameAddr_toNat (hm : Managed st) (hi : idx < st.frameCount) :
    (st.frameAddr idx).toNat = st.managedBase.toNat + idx * 4096 := by
  have := hm.size
  have := hm.lt
  rw [MmState.frameAddr, BitVec.toNat_add, BitVec.toNat_ofNat, Nat.mod_eq_of_lt (a := idx * 4096)
    (by omega), Nat.mod_eq_of_lt (by omega)]

theorem kernelVaOffset_toNat : kernelVaOffset.toNat = 2 ^ 64 - 2 ^ 38 := by decide

theorem physToVirtAddr_toNat {a : Word} (ha : a.toNat < 2 ^ 38) :
    (physToVirtAddr a).toNat = a.toNat + (2 ^ 64 - 2 ^ 38) := by
  rw [physToVirtAddr, BitVec.toNat_add, kernelVaOffset_toNat, Nat.mod_eq_of_lt (by omega)]

theorem kernelPtrToPhys_physToVirtAddr {a : Word} (ha : a.toNat < 2 ^ 38) :
    kernelPtrToPhys (physToVirtAddr a) = a := by
  have hle : kernelVaOffset ≤ physToVirtAddr a := by
    rw [BitVec.le_def, physToVirtAddr_toNat ha, kernelVaOffset_toNat]
    omega
  rw [kernelPtrToPhys, if_pos hle, virtToPhysAddr, physToVirtAddr, BitVec.add_sub_cancel]

theorem physToVirtAddr_ne_zero {a : Word} (ha : a.toNat < 2 ^ 38) : physToVirtAddr a ≠ 0 := by
  intro h
  have h0 : (0 : Word).toNat = 0 := rfl
  have := physToVirtAddr_toNat ha
  rw [h, h0] at this
  omega

theorem frameAddr_lt (hm : Managed st) (hl : Mapped st) (hi : idx < st.frameCount) :
    (st.frameAddr idx).toNat < 2 ^ 38 := by
  have := hm.size
  unfold Mapped at hl
  rw [frameAddr_toNat hm hi]
  omega

theorem addrInManagedRange_frameAddr (hm : Managed st) (hi : idx < st.frameCount) :
    st.addrInManagedRange (st.frameAddr idx) := by
  have h1 := frameAddr_toNat hm hi
  have h2 := hm.end_toNat
  have h3 := hm.size
  exact ⟨BitVec.le_def.2 (by omega), BitVec.lt_def.2 (by omega)⟩

theorem addrToFrameIndex_frameAddr (hm : Managed st) (hi : idx < st.frameCount) :
    st.addrToFrameIndex (st.frameAddr idx) = idx := by
  have h1 := frameAddr_toNat hm hi
  rw [MmState.addrToFrameIndex, hm.index_toNat (addrInManagedRange_frameAddr hm hi).1, h1]
  omega

theorem frameAddr_and (hm : Managed st) (hi : idx < st.frameCount) :
    st.frameAddr idx &&& 4095 = 0 := by
  have h1 := frameAddr_toNat hm hi
  obtain ⟨q, hq⟩ := hm.base
  refine BitVec.eq_of_toNat_eq ?_
  have h0 : (0 : Word).toNat = 0 := rfl
  have h2 : (4095 : Word).toNat = 2 ^ 12 - 1 := rfl
  rw [BitVec.toNat_and, h2, Nat.and_two_pow_sub_one_eq_mod, h1, h0]
  omega

/-- **`free_pages`**, whatever the pointers, frees the frames of a block in use. -/
theorem freePages_spec (k : Pointers) {p : Word} (h : Coalesced st fl F) (hm : Managed st)
    (ho : order ≤ maxOrder) (ha : (⟨idx, order⟩ : Block).Aligned)
    (hF : ∀ f, (⟨idx, order⟩ : Block).Covers f → f ∉ F ∧ f < st.frameCount)
    (hp : (st.frameArray idx).order = order) (hp0 : p ≠ 0) (hphys : k.toPhys p = st.frameAddr idx) :
    ∃ st' fl', freePages k p st = some st' ∧
      Coalesced st' fl' {f | f ∈ F ∨ (⟨idx, order⟩ : Block).Covers f} ∧ SameRange st st' ∧
      ∀ f, f ∉ F → ¬ (⟨idx, order⟩ : Block).Covers f → st'.frameArray f = st.frameArray f := by
  have hself : (⟨idx, order⟩ : Block).Covers idx := Block.covers_index _
  obtain ⟨hidx, hi⟩ := hF idx hself
  have hord : (BitVec.ofInt 32 (st.frameArray idx).order).toNat = order := by
    rw [hp, BitVec.ofInt_natCast, BitVec.toNat_ofNat, Nat.mod_eq_of_lt]
    unfold maxOrder at ho
    omega
  have hc1 := h.setPage hidx
    (f := fun p => { p with state := .free, chunkSize := 0, chunkPool := -1 }) fun _ hp => hp
  obtain ⟨idx', order', st2, fl2, F2, h2, hmg⟩ :=
    mergeLoop_spec hc1 (n := maxOrder - order) (by omega) ha hF
  obtain ⟨st', fl', h3, hc3, hs3, hf3⟩ := hmg.coalesced.add hmg.order_le hmg.aligned hmg.outside
    hmg.buddy
  refine ⟨st', fl', ?_, hc3.congr hmg.total, ((SameRange.setPage _).trans hmg.same).trans hs3,
    fun f hf hn => ?_⟩
  · unfold freePages
    rw [if_neg hp0]
    dsimp only
    rw [hphys, if_neg (not_not.2 (addrInManagedRange_frameAddr hm hi)),
      if_neg (not_not.2 (frameAddr_and hm hi)), addrToFrameIndex_frameAddr hm hi, hord, h2]
    exact h3
  · have hne : f ≠ idx := by
      rintro rfl
      exact hn hself
    have hne' : f ≠ idx' := by
      rintro rfl
      exact ((hmg.total f).1 (.inr (Block.covers_index _))).elim hf hn
    rw [hf3 f hne', hmg.others f hf hn, frameArray_setPage_of_ne _ hne]

/-- **`free_pages`** of lab6 frees the frames of a block in use. -/
theorem freePages_linear (h : Coalesced st fl F) (hm : Managed st) (hl : Mapped st)
    (ho : order ≤ maxOrder) (ha : (⟨idx, order⟩ : Block).Aligned)
    (hF : ∀ f, (⟨idx, order⟩ : Block).Covers f → f ∉ F ∧ f < st.frameCount)
    (hp : (st.frameArray idx).order = order) :
    ∃ st' fl', freePages .linear (physToVirtAddr (st.frameAddr idx)) st = some st' ∧
      Coalesced st' fl' {f | f ∈ F ∨ (⟨idx, order⟩ : Block).Covers f} ∧ SameRange st st' ∧
      ∀ f, f ∉ F → ¬ (⟨idx, order⟩ : Block).Covers f → st'.frameArray f = st.frameArray f := by
  have haddr := frameAddr_lt hm hl (hF idx (Block.covers_index _)).2
  have hphys : Pointers.linear.toPhys (physToVirtAddr (st.frameAddr idx)) = st.frameAddr idx := by
    rw [Pointers.linear_toPhys, kernelPtrToPhys_physToVirtAddr haddr]
  exact freePages_spec .linear h hm ho ha hF hp (physToVirtAddr_ne_zero haddr) hphys

end Free

end OscKernel.Mm.Pages
