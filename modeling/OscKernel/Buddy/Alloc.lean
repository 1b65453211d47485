import OscKernel.Buddy.Area
import OscKernel.Lib.Transition

/-! # The buddy system of `lab3/ex31`

`alloc_pages` halves the first block of the least order that has one, `free_pages` merges a block with its
buddies as long as these are free. A caller may free what it likes: a page twice, a page in the middle of
a block, the null pointer.

* `allocPages`, `freePages`: the source. `Call`, `step`: the allocator under any sequence of calls.
* `Serves`: what an allocator of aligned blocks is to do, on the set of the blocks that are held.
* `refines_of_run`: every run is one of these. -/

namespace OscKernel.Buddy.Alloc

open OscKernel.Lib.Dyadic OscKernel.Lib.Transition OscKernel.Buddy.Area

/-! ### The source -/

/-- The loop of `alloc_pages` that splits the block: the right half of it goes to its list. -/
def splitLoop (order pfn : ℕ) : ℕ → BuddyArea → BuddyArea
  | 0, s => s
  | currentOrder + 1, s =>
    if order < currentOrder + 1 then
      let buddyPfn := pfn + 2 ^ currentOrder
      splitLoop order pfn currentOrder
        ((s.setPage buddyPfn ⟨currentOrder, 0⟩).push currentOrder buddyPfn)
    else s

/-- The loop of `alloc_pages` over the orders. -/
def allocLoop (order : ℕ) : List ℕ → BuddyArea → Option ℕ × BuddyArea
  | [], s => (none, s)
  | currentOrder :: orders, s =>
    match s.freeArea currentOrder with
    | [] => allocLoop order orders s
    | pfn :: l =>
      (some pfn, (splitLoop order pfn currentOrder (s.setList currentOrder l)).setPage pfn ⟨order, 1⟩)

def allocPages (order : ℕ) (s : BuddyArea) : Option ℕ × BuddyArea :=
  if maxOrder < order then (none, s)
  else allocLoop order (List.range' order (maxOrder + 1 - order)) s

/-- The loop of `free_pages`, at most `fuel` rounds of it: the first page and the order of the block, and
the lists without it. -/
def mergeLoop : ℕ → ℕ → ℕ → BuddyArea → (ℕ × ℕ) × BuddyArea
  | 0, pfn, order, s => ((pfn, order), s)
  | fuel + 1, pfn, order, s =>
    if order < maxOrder then
      let buddyPfn := pfn ^^^ 2 ^ order
      if numPages ≤ buddyPfn then ((pfn, order), s)
      else
        let buddy := s.memMap buddyPfn
        if buddy.refcount ≠ 0 ∨ buddy.order ≠ order then ((pfn, order), s)
        else
          let s := s.setList order ((s.freeArea order).filter (· != buddyPfn))
          let pfn := if buddyPfn < pfn then buddyPfn else pfn
          mergeLoop fuel pfn (order + 1) (s.setPage pfn { s.memMap pfn with order := order + 1 })
    else ((pfn, order), s)

/-- `free_pages`. The loop makes a round for each order at most. -/
def freePages (page : Option ℕ) (s : BuddyArea) : BuddyArea :=
  match page with
  | none => s
  | some pfn =>
    let p := s.memMap pfn
    if p.refcount = 0 then s
    else
      let r := mergeLoop maxOrder pfn p.order (s.setPage pfn { p with refcount := 0 })
      r.2.push r.1.2 r.1.1

/-! ### Calls -/

inductive Call
  | alloc (order : ℕ)
  | free (page : Option ℕ)
deriving DecidableEq

/-- A call, and the pointer that it returns. A pointer that is freed must point to a record. -/
def call (s : BuddyArea) : Call → Option (Option ℕ × BuddyArea)
  | .alloc order => some (allocPages order s)
  | .free none => some (none, freePages none s)
  | .free (some pfn) => if pfn < numPages then some (none, freePages (some pfn) s) else none

/-- The step of a call with its answer. -/
def step (s : BuddyArea) (e : Call × Option ℕ) : Option BuddyArea :=
  match call s e.1 with
  | none => none
  | some (r, t) => if r = e.2 then some t else none

/-! ### What the allocator is for -/

/-- What a call may answer when the blocks of `H` are held, and which ones are held then. -/
inductive Serves : Set Block → Call × Option ℕ → Set Block → Prop
  | alloc {H : Set Block} {b : Block} (ha : b.Aligned) (ho : b.order ≤ maxOrder) (hw : Within b)
      (hd : ∀ f, b.Covers f → f ∉ region H) : Serves H (.alloc b.order, some b.index) (insert b H)
  | full {H : Set Block} {k : ℕ} (hn : ∀ b : Block, b.Aligned → b.order = k → k ≤ maxOrder →
      Within b → ∃ f, b.Covers f ∧ f ∈ region H) : Serves H (.alloc k, none) H
  | free {H : Set Block} {b : Block} (hb : b ∈ H) : Serves H (.free (some b.index), none) (H \ {b})
  | ignored {H : Set Block} {p : Option ℕ} (hp : ∀ b ∈ H, p ≠ some b.index) :
      Serves H (.free p, none) H

/-- **Blocks that are held never overlap**, whatever the order of the calls. -/
theorem Serves.tiling {H H' : Set Block} {e : Call × Option ℕ} (h : Serves H e H')
    (hH : Tiling maxOrder H) : Tiling maxOrder H' := by
  cases h with
  | alloc ha ho _ hd => exact hH.insert ha ho hd
  | full _ => exact hH
  | free _ => exact hH.erase _
  | ignored _ => exact hH

/-! ### The loops -/

section Loops
variable {s : BuddyArea} {b : Block} {order pfn k n : ℕ}

/-- **Splitting**: the first half stays in the hand, down to the order that was asked for. -/
theorem splitLoop_spec (hk : order ≤ k) (h : Hand s ⟨pfn, k⟩) (hn : NoBuddies maxOrder (blocks s)) :
    Hand (splitLoop order pfn k s) ⟨pfn, order⟩ ∧
      NoBuddies maxOrder (blocks (splitLoop order pfn k s)) ∧
      used (splitLoop order pfn k s) = used s := by
  induction k generalizing s with
  | zero =>
    obtain rfl : order = 0 := by omega
    exact ⟨h, hn, rfl⟩
  | succ k ih =>
    rw [splitLoop]
    by_cases hlt : order < k + 1
    · rw [if_pos hlt]
      obtain ⟨hl, hbud, hpar⟩ := h.aligned.halves
      -- the right half, its buddy is the left one
      have hr : (⟨pfn + 2 ^ k, k⟩ : Block).Aligned := hbud ▸ hl.buddy
      have hb' : (⟨pfn + 2 ^ k, k⟩ : Block).buddy = ⟨pfn, k⟩ := by
        rw [← hbud, Block.buddy_buddy]
      have hp' : (⟨pfn + 2 ^ k, k⟩ : Block).parent = ⟨pfn, k + 1⟩ := by
        rw [Block.parent, hb', min_eq_right (Nat.le_add_right _ _)]
      have hcov : (⟨pfn, k + 1⟩ : Block).Covers (pfn + 2 ^ k) := by
        rw [← hp', hr.parent_covers]
        exact .inl (Block.covers_index _)
      have h0 : used (s.setPage (pfn + 2 ^ k) ⟨k, 0⟩) = used s :=
        used_setPage (h.refcount hcov) rfl
      have h1 : Hand (s.setPage (pfn + 2 ^ k) ⟨k, 0⟩) ⟨pfn, k + 1⟩ := h.setPage hcov rfl
      rw [← hp'] at h1
      obtain ⟨h2, hbl⟩ := h1.half hr (Function.update_self _ _ _)
      rw [hb'] at h2
      have hn' : NoBuddies maxOrder (blocks ((s.setPage (pfn + 2 ^ k) ⟨k, 0⟩).push k (pfn + 2 ^ k))) := by
        rw [hbl]
        refine hn.insert hr fun _ hm => ?_
        rw [hb'] at hm
        exact h.apart pfn (Block.covers_index ⟨pfn, k + 1⟩) ⟨_, .inl hm, Block.covers_index _⟩
      obtain ⟨h3, h4, h5⟩ := ih (by omega) h2 hn'
      exact ⟨h3, h4, h5.trans h0⟩
    · obtain rfl : order = k + 1 := by omega
      rw [if_neg hlt]
      exact ⟨h, hn, rfl⟩

/-- **Merging**: the hand takes buddies until there is none. -/
theorem mergeLoop_spec (hfuel : maxOrder ≤ b.order + n) (h : Hand s b)
    (hp : s.memMap b.index = ⟨b.order, 0⟩) (hn : NoBuddies maxOrder (blocks s)) :
    ∃ (c : Block) (t : BuddyArea), mergeLoop n b.index b.order s = ((c.index, c.order), t) ∧ Hand t c ∧
      t.memMap c.index = ⟨c.order, 0⟩ ∧ NoBuddies maxOrder (blocks t) ∧
      (c.order < maxOrder → c.buddy ∉ blocks t) ∧ used t = used s := by
  induction n generalizing s b with
  | zero =>
    exact ⟨b, s, rfl, h, hp, hn, fun hlt => absurd hlt (by omega), rfl⟩
  | succ n ih =>
    rw [mergeLoop]
    by_cases ho : b.order < maxOrder
    · rw [if_pos ho]
      have hin : b.buddy.index < numPages :=
        within_of_covers h.aligned.parent ho (h.aligned.parent_covers.2 (.inl b.covers_index))
          (h.inside _ b.covers_index) _ (h.aligned.parent_covers.2 (.inr b.buddy.covers_index))
      dsimp only
      rw [show b.index ^^^ 2 ^ b.order = b.buddy.index from rfl, if_neg (by omega)]
      by_cases hm : b.buddy ∈ blocks s
      · obtain ⟨h0, h1⟩ := (h.buddy_iff ho).2 hm
        rw [if_neg (by rw [h0, h1]; simp)]
        have hl : (s.freeArea b.order).Perm
            (b.buddy.index :: (s.freeArea b.order).filter (· != b.buddy.index)) := by
          rw [← List.Nodup.erase_eq_filter (h.nodup b.order)]
          exact List.perm_cons_erase hm.2
        obtain ⟨h2, hbl⟩ := h.merge ho hm hl
        have hu : used (s.setList b.order ((s.freeArea b.order).filter (· != b.buddy.index))) =
            used s := rfl
        have hi : (if b.buddy.index < b.index then b.buddy.index else b.index) = b.parent.index := by
          change _ = min b.index b.buddy.index
          rw [min_def]
          split_ifs <;> omega
        rw [hi]
        generalize s.setList b.order _ = t at h2 hbl hu ⊢
        have h0' : (t.memMap b.parent.index).refcount = 0 := h2.refcount b.parent.covers_index
        rw [h0']
        have h3 : Hand (t.setPage b.parent.index ⟨b.order + 1, 0⟩) b.parent :=
          h2.setPage b.parent.covers_index rfl
        have hn' : NoBuddies maxOrder (blocks t) := by
          rw [hbl]
          exact hn.mono Set.sdiff_subset
        have hfuel' : maxOrder ≤ b.parent.order + n := by
          change maxOrder ≤ b.order + 1 + n
          omega
        obtain ⟨c, u, h4, h5, h6, h7, h8, h9⟩ := ih hfuel' h3 (Function.update_self _ _ _) hn'
        refine ⟨c, u, h4, h5, h6, h7, h8, h9.trans ?_⟩
        exact (used_setPage h0' rfl).trans hu
      · rw [if_pos]
        · exact ⟨b, s, rfl, h, hp, hn, fun _ => hm, rfl⟩
        · by_contra hc
          rw [not_or, not_not, not_not] at hc
          exact hm ((h.buddy_iff ho).1 hc)
    · rw [if_neg ho]
      exact ⟨b, s, rfl, h, hp, hn, fun hlt => absurd hlt ho, rfl⟩

end Loops

/-! ### The calls -/

section Calls
variable {s t : BuddyArea} {b : Block} {order pfn : ℕ}

theorem allocLoop_cases (order : ℕ) (s : BuddyArea) (orders : List ℕ) :
    (allocLoop order orders s = (none, s) ∧ ∀ k ∈ orders, s.freeArea k = []) ∨
      ∃ k ∈ orders, ∃ pfn l, s.freeArea k = pfn :: l ∧
        allocLoop order orders s =
          (some pfn, (splitLoop order pfn k (s.setList k l)).setPage pfn ⟨order, 1⟩) := by
  induction orders with
  | nil => exact .inl ⟨rfl, fun k hk => absurd hk List.not_mem_nil⟩
  | cons k orders ih =>
    rw [allocLoop]
    cases hl : s.freeArea k with
    | nil =>
      rcases ih with ⟨h1, h2⟩ | ⟨k', hk', h2⟩
      · refine .inl ⟨h1, fun k' hk' => ?_⟩
        rcases List.mem_cons.1 hk' with rfl | hk'
        · exact hl
        · exact h2 k' hk'
      · exact .inr ⟨k', List.mem_cons_of_mem _ hk', h2⟩
    | cons pfn l => exact .inr ⟨k, List.mem_cons_self, pfn, l, hl, rfl⟩

/-- **`alloc_pages` hands out a block of the order if there is room for one.** -/
theorem allocPages_spec (order : ℕ) (h : Good s) :
    Good (allocPages order s).2 ∧
      Serves (used s) (.alloc order, (allocPages order s).1) (used (allocPages order s).2) := by
  rw [allocPages]
  by_cases ho : maxOrder < order
  · rw [if_pos ho]
    exact ⟨h, .full fun b _ _ hk _ => absurd ho (by omega)⟩
  · rw [if_neg ho]
    rcases allocLoop_cases order s (List.range' order (maxOrder + 1 - order)) with
      ⟨he, hempty⟩ | ⟨k, hk, pfn, l, hl, he⟩
    · rw [he]
      refine ⟨h, .full fun b hb hbo hk hw => ?_⟩
      by_contra hc
      push Not at hc
      -- a block without pages that are held lies in a free block
      obtain ⟨c, hcm, hsub⟩ := h.tiling_blocks.exists_of_subset h.apart hb (hbo.trans_le hk)
        fun f hf => h.mem_region.2 ⟨hw f hf, hc f hf⟩
      have hle := Block.order_le_of_subset hsub
      have hnil := hempty c.order (List.mem_range'_1.2 (by have := hcm.1; omega))
      have hmem := hcm.2
      rw [hnil] at hmem
      exact absurd hmem List.not_mem_nil
    · rw [List.mem_range'_1] at hk
      have hm : (⟨pfn, k⟩ : Block) ∈ blocks s := by
        refine ⟨by dsimp only; omega, ?_⟩
        rw [hl]
        exact List.mem_cons_self
      obtain ⟨h1, hbl⟩ := h.toTiles.take hm (l := l) (by rw [hl])
      have hn : NoBuddies maxOrder (blocks (s.setList k l)) := by
        rw [hbl]
        exact h.apart.mono Set.sdiff_subset
      obtain ⟨h2, h3, h4⟩ := splitLoop_spec hk.1 h1 hn
      obtain ⟨h5, h6⟩ := h2.use
      rw [he]
      refine ⟨⟨h5, h3⟩, ?_⟩
      dsimp only at h6 ⊢
      rw [h6, h4]
      refine Serves.alloc h2.aligned h2.order_le h2.inside fun f hf hr => ?_
      refine h2.apart f hf ?_
      obtain ⟨c, hc, hfc⟩ := hr
      exact ⟨c, .inr (h4 ▸ hc), hfc⟩

/-- **`free_pages` takes the block that starts at the page**, and does nothing if none does. -/
theorem freePages_spec (h : Good s) (hpfn : pfn < numPages) :
    Good (freePages (some pfn) s) ∧
      Serves (used s) (.free (some pfn), none) (used (freePages (some pfn) s)) := by
  rw [freePages]
  dsimp only
  by_cases h0 : (s.memMap pfn).refcount = 0
  · rw [if_pos h0]
    refine ⟨h, .ignored fun b hb he => hb.2.1 ?_⟩
    rw [← Option.some.inj he]
    exact h0
  · rw [if_neg h0]
    have hb : (⟨pfn, (s.memMap pfn).order⟩ : Block) ∈ used s := ⟨hpfn, h0, rfl⟩
    have hrel := h.toTiles.release hb (p := { s.memMap pfn with refcount := 0 }) rfl
    have hu : used (s.setPage pfn { s.memMap pfn with refcount := 0 }) = used s \ {⟨pfn, _⟩} :=
      used_release hb rfl
    obtain ⟨c, t, he, h1, h2, h3, h4, h5⟩ := mergeLoop_spec (n := maxOrder) (Nat.le_add_left _ _) hrel
      (Function.update_self _ _ _) h.apart
    dsimp only at he
    rw [he]
    obtain ⟨h6, h7⟩ := h1.put h2
    refine ⟨⟨h6, ?_⟩, ?_⟩
    · rw [h7]
      exact h3.insert h1.aligned h4
    · change Serves _ _ (used t)
      rw [h5, hu]
      exact .free hb

/-- **Every call is one of the abstract allocator.** -/
theorem step_spec {e : Call × Option ℕ} (h : Good s) (hs : step s e = some t) :
    Good t ∧ Serves (used s) e (used t) := by
  obtain ⟨c, r⟩ := e
  rw [step] at hs
  split at hs
  · cases hs
  · rename_i r' t' hc
    split_ifs at hs with hr
    cases hs
    obtain rfl : r' = r := hr
    cases c with
    | alloc order =>
      have ha := allocPages_spec order h
      rw [Option.some.inj hc] at ha
      exact ha
    | free page =>
      cases page with
      | none =>
        cases hc
        exact ⟨h, .ignored fun _ _ => Option.some_ne_none _ ∘ Eq.symm⟩
      | some pfn =>
        rw [call] at hc
        split_ifs at hc with hpfn
        cases hc
        exact freePages_spec h hpfn

end Calls

/-! ### Runs -/

/-- **The buddy system is an allocator of aligned blocks.** In every run from `main`'s loop on, whatever
the callers free, each call answers as the abstract allocator does: `alloc_pages` fails only if no
aligned block of the order is without pages that are held, and `free_pages` takes what starts at the page,
or nothing. The blocks that are held never overlap, and the others are merged as far as can be. -/
theorem refines_of_run {es : List (Call × Option ℕ)} {s : BuddyArea}
    (h : Run step (fun _ _ => True) initLoop es s) :
    Trace Serves ∅ es (used s) ∧ Tiling maxOrder (used s) ∧
      ∀ b, b ∈ blocks s ↔ Maximal maxOrder {f | f < numPages ∧ f ∉ region (used s)} b := by
  obtain ⟨hg, ht⟩ := h.simulate Good used
    (fun _ _ _ hs _ he => step_spec hs he) good_initLoop
  rw [used_initLoop] at ht
  exact ⟨ht, ht.invariant (fun _ _ _ hH hs => hs.tiling hH) tiling_empty, fun _ => hg.mem_blocks⟩

/-- What `main` does, a page freed twice, one within a block, and one too large. -/
theorem refines_of_run_main :
    let es : List (Call × Option ℕ) := [(.alloc 1, some 0), (.alloc 1, some 2), (.alloc 1, some 4),
      (.free (some 0), none), (.free (some 0), none), (.free (some 3), none), (.alloc 0, some 6),
      (.free (some 2), none), (.free (some 4), none), (.alloc 11, none)]
    ∃ s, Run step (fun _ _ => True) initLoop es s ∧ Trace Serves ∅ es (used s) ∧
      Tiling maxOrder (used s) ∧
      ∀ b, b ∈ blocks s ↔ Maximal maxOrder {f | f < numPages ∧ f ∉ region (used s)} b := by
  intro es
  have hx : (exec step (fun _ _ => true) initLoop es).map (fun _ => ()) = some () := by
    rw [initLoop, initLoop_eq]
    decide +kernel
  obtain ⟨s, hr, -⟩ := Run.exists_of_exec (C := fun _ _ => True) (fun _ _ _ => trivial) hx
  exact ⟨s, hr, refines_of_run hr⟩

end OscKernel.Buddy.Alloc
