import OscKernel.Mm.Pages
import Mathlib.Data.List.Pairwise

/-! # The blocks in use

Whoever takes a block from `alloc_pages` has its frames to himself until he gives it back.

* `Holding F0 st fl held`: of the frames `F0`, those in no held block are free, and the free lists
  hold them without buddies.
* `Holding.alloc`, `Holding.free`: what the two functions do, whatever the pointers are.
* `Holding.exists_block`: free frames in a row are found. -/

namespace OscKernel.Mm.Held

open OscKernel.Lib.Memory OscKernel.Lib.Dyadic OscKernel.Mm.Frames OscKernel.Mm.Reserve
  OscKernel.Mm.Pages

/-- Of the frames `F0`, the held blocks are in use and the others free. -/
structure Holding (F0 : Set ℕ) (st : MmState) (fl : ℕ → List ℕ) (held : List Block) : Prop where
  managed : Managed st
  lt : ∀ f ∈ F0, f < st.frameCount
  coalesced : Coalesced st fl {f | f ∈ F0 ∧ ∀ b ∈ held, ¬ b.Covers f}
  order_le : ∀ b ∈ held, b.order ≤ maxOrder
  aligned : ∀ b ∈ held, b.Aligned
  within : ∀ b ∈ held, ∀ f, b.Covers f → f ∈ F0
  order : ∀ b ∈ held, (st.frameArray b.index).order = b.order
  disjoint : held.Pairwise fun a b => ∀ f, a.Covers f → ¬ b.Covers f

section Holding
variable {F0 : Set ℕ} {st st' : MmState} {fl : ℕ → List ℕ} {held : List Block} {b b' : Block}
  {idx order f : ℕ}

theorem Holding.eq_of_covers (h : Holding F0 st fl held) (hb : b ∈ held) (hb' : b' ∈ held)
    (hf : b.Covers f) (hf' : b'.Covers f) : b = b' := by
  by_contra hne
  have hsym : Std.Symm fun a b : Block => ∀ f, a.Covers f → ¬ b.Covers f :=
    ⟨fun _ _ h f hb ha => h f ha hb⟩
  exact h.disjoint.forall hb hb' hne f hf hf'

theorem Holding.nodup (h : Holding F0 st fl held) : held.Nodup := by
  refine List.Pairwise.imp ?_ h.disjoint
  rintro a b hd rfl
  exact hd a.index a.covers_index a.covers_index

theorem Holding.notFree (h : Holding F0 st fl held) (hb : b ∈ held) (hf : b.Covers f) :
    f ∉ region (blocks fl) := fun hr => ((h.coalesced.region f).1 hr).2 b hb hf

/-- The memory, the chunk lists and the metadata of blocks in use other than their order may
change. -/
theorem Holding.congr (h : Holding F0 st fl held) (hc : Coalesced st' fl
    {f | f ∈ F0 ∧ ∀ b ∈ held, ¬ b.Covers f}) (hb : st'.managedBase = st.managedBase)
    (hs : st'.managedSize = st.managedSize) (hn : st'.frameCount = st.frameCount)
    (ho : ∀ b ∈ held, (st'.frameArray b.index).order = (st.frameArray b.index).order) :
    Holding F0 st' fl held where
  managed := by
    obtain ⟨h1, h2, h3⟩ := h.managed
    exact ⟨hb ▸ h1, by rw [hs, hn]; exact h2, by rw [hb, hs]; exact h3⟩
  lt f hf := hn ▸ h.lt f hf
  coalesced := hc
  order_le := h.order_le
  aligned := h.aligned
  within := h.within
  order b hb := (ho b hb).trans (h.order b hb)
  disjoint := h.disjoint

theorem Holding.perm {held' : List Block} (h : Holding F0 st fl held) (hp : held.Perm held') :
    Holding F0 st fl held' where
  managed := h.managed
  lt := h.lt
  coalesced := h.coalesced.congr fun f => by simp only [hp.mem_iff]
  order_le b hb := h.order_le b (hp.mem_iff.2 hb)
  aligned b hb := h.aligned b (hp.mem_iff.2 hb)
  within b hb := h.within b (hp.mem_iff.2 hb)
  order b hb := h.order b (hp.mem_iff.2 hb)
  disjoint := h.disjoint.perm hp fun hd f hb ha => hd f ha hb

/-- What `alloc_pages` does with the held blocks. -/
inductive Alloc (k : Pointers) (F0 : Set ℕ) (st : MmState) (fl : ℕ → List ℕ) (held : List Block)
    (order : ℕ) : Word → MmState → Prop
  | failed (h : ∀ blk ∈ blocks fl, blk.order < order) : Alloc k F0 st fl held order 0 st
  | taken {st' : MmState} {fl' : ℕ → List ℕ} {idx current : ℕ}
      (first : FirstFit fl order idx current)
      (free : ∀ f, (⟨idx, order⟩ : Block).Covers f → f ∈ F0 ∧ ∀ b ∈ held, ¬ b.Covers f)
      (holding : Holding F0 st' fl' (⟨idx, order⟩ :: held)) (same : SameRange st st')
      (page : st'.frameArray idx = ⟨order, .used, false, 0, -1⟩)
      (others : ∀ b ∈ held, ∀ f, b.Covers f → st'.frameArray f = st.frameArray f) :
      Alloc k F0 st fl held order (k.toPtr (st.frameAddr idx)) st'

/-- **`alloc_pages`** finds no block of sufficient order, or takes the lower part of the first one. -/
theorem Holding.alloc (h : Holding F0 st fl held) (k : Pointers) (order : ℕ) :
    ∃ p st', allocPages k order st = some (p, st') ∧ Alloc k F0 st fl held order p st' := by
  obtain ⟨p, st', h1, h2⟩ := allocPages_spec k h.coalesced order
  refine ⟨p, st', h1, ?_⟩
  cases h2 with
  | failed hn => exact .failed hn
  | taken first ha hfree hc hs hpage hothers =>
    have hkeep : ∀ b ∈ held, ∀ f, b.Covers f → st'.frameArray f = st.frameArray f :=
      fun b hb f hf => hothers f fun hf' => hf'.2 b hb hf
    refine .taken first hfree ⟨h.managed.congr hs, fun f hf => (h.lt f hf).trans_eq
      hs.frameCount.symm, hc.congr fun f => ?_, ?_, ?_, ?_, ?_, ?_⟩ hs hpage hkeep
    · simp only [Set.mem_ofPred_eq, List.forall_mem_cons, and_assoc]
      exact and_congr_right fun _ => and_comm
    · exact List.forall_mem_cons.2 ⟨first.order_le.trans first.le_max, h.order_le⟩
    · exact List.forall_mem_cons.2 ⟨ha, h.aligned⟩
    · exact List.forall_mem_cons.2 ⟨fun f hf => (hfree f hf).1, h.within⟩
    · refine List.forall_mem_cons.2 ⟨by rw [hpage], fun b hb => ?_⟩
      rw [hkeep b hb _ (Block.covers_index _)]
      exact h.order b hb
    · exact List.pairwise_cons.2 ⟨fun b hb f hf => (hfree f hf).2 b hb, h.disjoint⟩

/-- **`free_pages`** gives a held block back. -/
theorem Holding.free (h : Holding F0 st fl held) (k : Pointers) {p : Word} (hb : b ∈ held)
    (hp0 : p ≠ 0) (hphys : k.toPhys p = st.frameAddr b.index) :
    ∃ st' fl', freePages k p st = some st' ∧ SameRange st st' ∧
      Holding F0 st' fl' (held.erase b) ∧
      ∀ b' ∈ held.erase b, ∀ f, b'.Covers f → st'.frameArray f = st.frameArray f := by
  have hmem : ∀ {b'}, b' ∈ held.erase b ↔ b' ≠ b ∧ b' ∈ held := h.nodup.mem_erase_iff
  obtain ⟨st', fl', h1, hc, hs, hothers⟩ := freePages_spec k h.coalesced h.managed
    (h.order_le b hb) (h.aligned b hb)
    (fun f hf => ⟨fun hf' => hf'.2 b hb hf, h.lt f (h.within b hb f hf)⟩) (h.order b hb) hp0 hphys
  have hkeep : ∀ b' ∈ held.erase b, ∀ f, b'.Covers f → st'.frameArray f = st.frameArray f := by
    intro b' hb' f hf
    obtain ⟨hne, hb'⟩ := hmem.1 hb'
    exact hothers f (fun hf' => hf'.2 b' hb' hf) fun hcov => hne (h.eq_of_covers hb' hb hf hcov)
  refine ⟨st', fl', h1, hs, ⟨h.managed.congr hs, fun f hf => (h.lt f hf).trans_eq
    hs.frameCount.symm, hc.congr fun f => ?_, fun b' hb' => h.order_le b' (hmem.1 hb').2,
    fun b' hb' => h.aligned b' (hmem.1 hb').2, fun b' hb' => h.within b' (hmem.1 hb').2,
    fun b' hb' => ?_, h.disjoint.sublist List.erase_sublist⟩, hkeep⟩
  · simp only [Set.mem_ofPred_eq]
    constructor
    · rintro (⟨hf, hn⟩ | hf)
      · exact ⟨hf, fun b' hb' => hn b' (hmem.1 hb').2⟩
      · exact ⟨h.within b hb f hf, fun b' hb' hf' =>
          (hmem.1 hb').1 (h.eq_of_covers (hmem.1 hb').2 hb hf' hf)⟩
    · rintro ⟨hf, hn⟩
      by_cases hcov : b.Covers f
      · exact .inr hcov
      · refine .inl ⟨hf, fun b' hb' hf' => ?_⟩
        rcases eq_or_ne b' b with rfl | hne
        · exact hcov hf'
        · exact hn b' (hmem.2 ⟨hne, hb'⟩) hf'
  · rw [hkeep b' hb' _ (Block.covers_index _)]
    exact h.order b' (hmem.1 hb').2

/-- **Free frames in a row are found**: if `2 ^ order` of them start at a multiple of it, some block
in the lists is large enough. -/
theorem Holding.exists_block (h : Holding F0 st fl held) (ho : order ≤ maxOrder)
    (ha : (⟨idx, order⟩ : Block).Aligned)
    (hf : ∀ f, (⟨idx, order⟩ : Block).Covers f → f ∈ region (blocks fl)) :
    ∃ blk ∈ blocks fl, order ≤ blk.order := by
  obtain ⟨blk, hblk, hs⟩ :=
    h.coalesced.area.tiling.exists_of_subset h.coalesced.noBuddies ha ho hf
  exact ⟨blk, hblk, Block.order_le_of_subset hs⟩

end Holding

end OscKernel.Mm.Held
