import OscKernel.Mm.Frames

/-! # Reserving memory in lab6

`memory_reserve` takes the frames of a range out of the free lists, from the greatest order down: a
block within the range is removed, one that only overlaps it is split into its halves, which the next
order looks at again.

* `Reserving s e F`: the blocks cover the frames of `F` outside `[s, e)` and no other frames than
  those of `F`; of two buddies one overlaps the range. Each block that the loop looks at keeps it
  (`Reserving.step`), so a list keeps it (`Reserving.loop`) and all of them do
  (`Reserving.passes`).
* `Spares`: what happens to the frames that are in no block that overlaps the range.
* `memoryReserve_exact`: the frames whose pages touch the range are gone, the others stay, and so do
  the blocks that do not overlap the range. -/

namespace OscKernel.Mm.Reserve

open OscKernel.Lib.Memory OscKernel.Lib.Dyadic OscKernel.Mm.Frames

/-! ### The function -/

/-- The body of the loop over a list. -/
def reserveBlock (startIdx endIdx order idx : ℕ) (st : MmState) : Option MmState :=
  if idx + 2 ^ order ≤ startIdx ∨ endIdx ≤ idx then some st
  else (st.removeFreeBlock idx).bind fun st =>
    if (startIdx ≤ idx ∧ idx + 2 ^ order ≤ endIdx) ∨ order = 0 then
      some (st.setPage idx fun _ => ⟨order, .used, false, 0, -1⟩)
    else (st.addFreeBlock idx (order - 1)).bind fun st =>
      st.addFreeBlock (idx + 2 ^ (order - 1)) (order - 1)

/-- The loop over the list of an order, from a node on. -/
def reserveLoop (startIdx endIdx order : ℕ) : ℕ → Node → MmState → Option MmState
  | _, .head o, st => if o = order then some st else none
  | 0, .page _, _ => none
  | fuel + 1, .page idx, st =>
    (st.links.next (.page idx)).bind fun next =>
      (reserveBlock startIdx endIdx order idx st).bind fun st =>
        reserveLoop startIdx endIdx order fuel next st

/-- The pass over the list of an order. -/
def reserveOrder (startIdx endIdx order : ℕ) (st : MmState) : Option MmState :=
  (st.links.next (.head order)).bind fun p =>
    reserveLoop startIdx endIdx order (st.frameCount + 1) p st

/-- The passes from an order down. -/
def reserveOrders (startIdx endIdx : ℕ) : ℕ → MmState → Option MmState
  | 0, st => reserveOrder startIdx endIdx 0 st
  | order + 1, st =>
    (reserveOrder startIdx endIdx (order + 1) st).bind fun st =>
      reserveOrders startIdx endIdx order st

/-- `memory_reserve`. -/
def memoryReserve (st : MmState) (start size : Word) : Option MmState :=
  if size = 0 then some st
  else if st.managedSize = 0 ∨ st.frameCount = 0 then some st
  else
    let stop := start + size
    let managedEnd := st.managedBase + st.managedSize
    if stop ≤ st.managedBase ∨ managedEnd ≤ start then some st
    else
      let start := if start < st.managedBase then st.managedBase else start
      let stop := if managedEnd < stop then managedEnd else stop
      let reserveStart := alignDown start 4096
      let reserveEnd := alignUp stop 4096
      let startIdx := ((reserveStart - st.managedBase) >>> 12).toNat
      let endIdx := ((reserveEnd - st.managedBase) >>> 12).toNat
      let endIdx := if st.frameCount < endIdx then st.frameCount else endIdx
      reserveOrders startIdx endIdx maxOrder st

/-! ### The passes -/

/-- The block overlaps the range. -/
def Hits (s e : ℕ) (b : Block) : Prop := s < b.index + 2 ^ b.order ∧ b.index < e

/-- What the passes keep. -/
structure Reserving (s e : ℕ) (F : Set ℕ) (st : MmState) (fl : ℕ → List ℕ) : Prop where
  area : FreeArea st fl
  subset : ∀ f ∈ region (blocks fl), f ∈ F
  outside : ∀ f ∈ F, f < s ∨ e ≤ f → f ∈ region (blocks fl)
  buddies : ∀ b ∈ blocks fl, b.order < maxOrder → b.buddy ∈ blocks fl → Hits s e b ∨ Hits s e b.buddy

/-- The frame is in no free block that overlaps the range. -/
def Clear (s e : ℕ) (fl : ℕ → List ℕ) (f : ℕ) : Prop := ∀ b ∈ blocks fl, Hits s e b → ¬ b.Covers f

/-- Such a frame stays one, and its metadata stays as it is. -/
structure Spares (s e : ℕ) (st st' : MmState) (fl fl' : ℕ → List ℕ) : Prop where
  clear : ∀ f, Clear s e fl f → Clear s e fl' f
  page : ∀ f, Clear s e fl f → st'.frameArray f = st.frameArray f

section Passes
variable {s e order idx : ℕ} {F : Set ℕ} {st : MmState} {fl : ℕ → List ℕ}

theorem Spares.refl : Spares s e st st fl fl := ⟨fun _ h => h, fun _ _ => rfl⟩

theorem Spares.trans {st1 st' : MmState} {fl1 fl' : ℕ → List ℕ} (h : Spares s e st st1 fl fl1)
    (h' : Spares s e st1 st' fl1 fl') : Spares s e st st' fl fl' :=
  ⟨fun f hf => h'.clear f (h.clear f hf),
    fun f hf => (h'.page f (h.clear f hf)).trans (h.page f hf)⟩

theorem Spares.of_block {b : Block} (hb : b ∈ blocks fl) (hh : Hits s e b) {st' : MmState}
    {fl' : ℕ → List ℕ} (hp : ∀ f, ¬ b.Covers f → st'.frameArray f = st.frameArray f)
    (hbl : ∀ c ∈ blocks fl', c ∈ blocks fl ∨ ∀ f, c.Covers f → b.Covers f) :
    Spares s e st st' fl fl' := by
  refine ⟨fun f hf c hc hhc hcf => ?_, fun f hf => hp f (hf b hb hh)⟩
  rcases hbl c hc with hc | hcb
  · exact hf c hc hhc hcf
  · exact hf b hb hh (hcb f hcf)

theorem Reserving.full (h : Reserving s e F st fl) (ho : order ≤ maxOrder) (hm : idx ∈ fl order)
    (hs : s ≤ idx) (he : idx + 2 ^ order ≤ e) {st1 : MmState}
    (ha : FreeArea st1 (Function.update fl order ((fl order).erase idx))) :
    Reserving s e F st1 (Function.update fl order ((fl order).erase idx)) := by
  have hb : (⟨idx, order⟩ : Block) ∈ blocks fl := ⟨ho, hm⟩
  have hbl : blocks (Function.update fl order ((fl order).erase idx)) =
      blocks fl \ {⟨idx, order⟩} := h.area.lists.blocks_erase ho
  refine ⟨ha, fun f hf => ?_, fun f hf hout => ?_, fun b hbm hbo hbb => ?_⟩
  · rw [hbl, h.area.tiling.mem_region_erase hb] at hf
    exact h.subset f hf.1
  · rw [hbl, h.area.tiling.mem_region_erase hb]
    refine ⟨h.outside f hf hout, ?_⟩
    rintro ⟨h1, h2⟩
    dsimp only at h1 h2
    omega
  · rw [hbl] at hbm hbb
    exact h.buddies b hbm.1 hbo hbb.1

theorem Reserving.split (h : Reserving s e F st fl) (hse : s < e) (ho : order + 1 ≤ maxOrder)
    (hm : idx ∈ fl (order + 1)) (hhit : Hits s e ⟨idx, order + 1⟩) {st1 : MmState} {fl1 : ℕ → List ℕ}
    (hfl : blocks fl1 = blocks fl \ {⟨idx, order + 1⟩}) (ha : FreeArea st1 fl1)
    (hr : SameRange st st1) :
    ∃ st' fl', ((st1.addFreeBlock idx order).bind fun st =>
        st.addFreeBlock (idx + 2 ^ order) order) = some st' ∧
      Reserving s e F st' fl' ∧ SameRange st1 st' ∧ (∀ o > order, fl' o = fl1 o) ∧
      (∀ f, ¬ (⟨idx, order + 1⟩ : Block).Covers f → st'.frameArray f = st1.frameArray f) ∧
      ∀ c ∈ blocks fl', c ∈ blocks fl ∨ ∀ f, c.Covers f → (⟨idx, order + 1⟩ : Block).Covers f := by
  have hb : (⟨idx, order + 1⟩ : Block) ∈ blocks fl := ⟨ho, hm⟩
  obtain ⟨hal, hbud, hpar⟩ := (h.area.tiling.aligned _ hb).halves
  have hcov : ∀ f, (⟨idx, order + 1⟩ : Block).Covers f ↔
      (⟨idx, order⟩ : Block).Covers f ∨ (⟨idx + 2 ^ order, order⟩ : Block).Covers f := by
    intro f
    rw [← hpar, hal.parent_covers, hbud]
  have hal' : (⟨idx + 2 ^ order, order⟩ : Block).Aligned := hbud ▸ hal.buddy
  have hreg : ∀ f, f ∈ region (blocks fl1) ↔
      f ∈ region (blocks fl) ∧ ¬ (⟨idx, order + 1⟩ : Block).Covers f := by
    intro f
    rw [hfl, h.area.tiling.mem_region_erase hb]
  have hlt : ∀ f, (⟨idx, order + 1⟩ : Block).Covers f → f < st1.frameCount := by
    intro f hf
    rw [hr.frameCount]
    exact h.area.lt f ⟨_, hb, hf⟩
  have ho' : order ≤ maxOrder := Nat.le_of_succ_le ho
  -- the two halves
  obtain ⟨st2, h2, ha2, hr2, hp2⟩ := ha.add ho' hal fun f hf =>
    ⟨fun hf' => ((hreg f).1 hf').2 ((hcov f).2 (.inl hf)), hlt f ((hcov f).2 (.inl hf))⟩
  obtain ⟨st3, h3, ha3, hr3, hp3⟩ := ha2.add ho' hal' fun f hf => by
    rw [blocks_cons ho', mem_region_insert, hr2.frameCount]
    refine ⟨?_, hlt f ((hcov f).2 (.inr hf))⟩
    rintro (hf' | hf')
    · exact hal.not_covers_buddy hf' (hbud ▸ hf)
    · exact ((hreg f).1 hf').2 ((hcov f).2 (.inr hf))
  refine ⟨st3, _, by rw [h2, Option.bind_some, h3], ⟨ha3, ?_, ?_, ?_⟩, hr2.trans hr3, ?_, ?_, ?_⟩
  all_goals try rw [blocks_cons ho', blocks_cons ho']
  · intro f hf
    rw [mem_region_insert, mem_region_insert, hreg] at hf
    rcases hf with hf | hf | hf
    · exact h.subset f ⟨_, hb, (hcov f).2 (.inr hf)⟩
    · exact h.subset f ⟨_, hb, (hcov f).2 (.inl hf)⟩
    · exact h.subset f hf.1
  · intro f hf hout
    rw [mem_region_insert, mem_region_insert, hreg]
    by_cases hc : (⟨idx, order + 1⟩ : Block).Covers f
    · rcases (hcov f).1 hc with hc | hc
      · exact .inr (.inl hc)
      · exact .inl hc
    · exact .inr (.inr ⟨h.outside f hf hout, hc⟩)
  · -- the halves are buddies, and one of them overlaps the range
    have hhalf : Hits s e ⟨idx, order⟩ ∨ Hits s e ⟨idx + 2 ^ order, order⟩ := by
      obtain ⟨h1, h4⟩ := hhit
      have hp : 2 ^ (order + 1) = 2 ^ order + 2 ^ order := by rw [Nat.pow_succ]; omega
      dsimp only at h1 h4
      unfold Hits
      dsimp only
      omega
    have hbud' : (⟨idx + 2 ^ order, order⟩ : Block).buddy = ⟨idx, order⟩ := by
      rw [← hbud, Block.buddy_buddy]
    rintro b (rfl | rfl | hbm) hbo hbb
    · rw [hbud']
      exact hhalf.symm
    · rw [hbud]
      exact hhalf
    · rcases hbb with hbb | hbb | hbb
      · obtain rfl : b = ⟨idx, order⟩ := by rw [← hbud', ← hbb, Block.buddy_buddy]
        rw [hbud]
        exact hhalf
      · obtain rfl : b = ⟨idx + 2 ^ order, order⟩ := by rw [← hbud, ← hbb, Block.buddy_buddy]
        rw [hbud']
        exact hhalf.symm
      · rw [hfl] at hbm hbb
        exact h.buddies b hbm.1 hbo hbb.1
  · intro o ho
    rw [Function.update_of_ne (Nat.ne_of_gt ho), Function.update_of_ne (Nat.ne_of_gt ho)]
  · intro f hf
    have hne1 : f ≠ idx := fun he => hf ((hcov f).2 (.inl (he ▸ Block.covers_index _)))
    have hne2 : f ≠ idx + 2 ^ order := fun he => hf ((hcov f).2 (.inr (he ▸ Block.covers_index _)))
    rw [hp3, frameArray_setPage_of_ne _ hne2, hp2, frameArray_setPage_of_ne _ hne1]
  · rintro c (rfl | rfl | hc)
    · exact .inr fun f hf => (hcov f).2 (.inr hf)
    · exact .inr fun f hf => (hcov f).2 (.inl hf)
    · rw [hfl] at hc
      exact .inl hc.1

/-- **One block** of the list of an order. -/
theorem Reserving.step (h : Reserving s e F st fl) (hse : s < e) (ho : order ≤ maxOrder)
    (hm : idx ∈ fl order) :
    ∃ st' fl', reserveBlock s e order idx st = some st' ∧ Reserving s e F st' fl' ∧
      SameRange st st' ∧ Spares s e st st' fl fl' ∧ (∀ o > order, fl' o = fl o) ∧
      (fl' order = fl order ∧ ¬ Hits s e ⟨idx, order⟩ ∨ fl' order = (fl order).erase idx) := by
  unfold reserveBlock
  by_cases hno : idx + 2 ^ order ≤ s ∨ e ≤ idx
  · rw [if_pos hno]
    refine ⟨st, fl, rfl, h, .refl st, .refl, fun _ _ => rfl, .inl ⟨rfl, ?_⟩⟩
    rintro ⟨h1, h2⟩
    dsimp only at h1 h2
    omega
  · rw [if_neg hno]
    have hhit : Hits s e ⟨idx, order⟩ := ⟨by dsimp only; omega, by dsimp only; omega⟩
    have hb : (⟨idx, order⟩ : Block) ∈ blocks fl := ⟨ho, hm⟩
    have hbl : blocks (Function.update fl order ((fl order).erase idx)) =
        blocks fl \ {⟨idx, order⟩} := h.area.lists.blocks_erase ho
    obtain ⟨st1, h1, ha1, hr1, hp1⟩ := h.area.remove ho hm
    rw [h1, Option.bind_some]
    have hpage : ∀ f, ¬ (⟨idx, order⟩ : Block).Covers f →
        f ≠ idx ∧ st1.frameArray f = st.frameArray f := by
      intro f hf
      have hne : f ≠ idx := fun he => hf (he ▸ Block.covers_index _)
      exact ⟨hne, by rw [hp1, frameArray_setPage_of_ne _ hne]⟩
    have hother : ∀ o > order,
        Function.update fl order ((fl order).erase idx) o = fl o := fun o ho =>
      Function.update_of_ne (Nat.ne_of_gt ho) ..
    by_cases hfull : (s ≤ idx ∧ idx + 2 ^ order ≤ e) ∨ order = 0
    · rw [if_pos hfull]
      have hwithin : s ≤ idx ∧ idx + 2 ^ order ≤ e := by
        rcases hfull with hfull | rfl
        · exact hfull
        · -- a single frame that overlaps the range lies in it
          simp only [pow_zero] at hno ⊢
          omega
      have hn : NotListed (Function.update fl order ((fl order).erase idx)) idx := by
        intro o ho1 hmem
        obtain ⟨hmem, hne⟩ := (h.area.lists.mem_update_erase ho).1 hmem
        exact hne ⟨h.area.lists.unique o ho1 order ho idx hmem hm, rfl⟩
      have ha2 := ha1.setPage hn (f := fun _ => ⟨order, .used, false, 0, -1⟩) rfl
      refine ⟨_, _, rfl, h.full ho hm hwithin.1 hwithin.2 ha2, hr1.trans (.setPage _),
        .of_block hb hhit (fun f hf => ?_) (fun c hc => ?_), hother, .inr (Function.update_self ..)⟩
      · rw [frameArray_setPage_of_ne _ (hpage f hf).1, (hpage f hf).2]
      · rw [hbl] at hc
        exact .inl hc.1
    · rw [if_neg hfull]
      obtain ⟨k, rfl⟩ : ∃ k, order = k + 1 := ⟨order - 1, by omega⟩
      obtain ⟨st', fl', h2, h3, hr2, hfl2, hp2, hbl2⟩ := h.split hse ho hm hhit hbl ha1 hr1
      refine ⟨st', fl', h2, h3, hr1.trans hr2, .of_block hb hhit (fun f hf => ?_) hbl2,
        fun o ho => ?_, .inr ?_⟩
      · rw [hp2 f hf, (hpage f hf).2]
      · rw [hfl2 o (by omega), hother o ho]
      · rw [hfl2 (k + 1) (by omega), Function.update_self]

/-- **The loop over a list**, when `pre` has been visited and `bs` is left. -/
theorem Reserving.loop {pre bs : List ℕ} {fuel : ℕ} (h : Reserving s e F st fl) (hse : s < e)
    (ho : order ≤ maxOrder) (hfl : fl order = pre ++ bs)
    (hpre : ∀ i ∈ pre, ¬ Hits s e ⟨i, order⟩) (hfuel : bs.length ≤ fuel) :
    ∃ st' fl', reserveLoop s e order fuel (front order bs) st = some st' ∧
      Reserving s e F st' fl' ∧ SameRange st st' ∧ Spares s e st st' fl fl' ∧
      (∀ o > order, fl' o = fl o) ∧ ∀ i ∈ fl' order, ¬ Hits s e ⟨i, order⟩ := by
  induction bs generalizing pre fuel st fl with
  | nil =>
    refine ⟨st, fl, ?_, h, .refl st, .refl, fun _ _ => rfl, fun i hi => hpre i ?_⟩
    · change reserveLoop s e order fuel (.head order) st = _
      cases fuel <;> exact if_pos rfl
    · rwa [hfl, List.append_nil] at hi
  | cons idx bs ih =>
    obtain ⟨fuel, rfl⟩ : ∃ n, fuel = n + 1 := ⟨fuel - 1, by simp at hfuel; omega⟩
    have hm : idx ∈ fl order := by simp [hfl]
    obtain ⟨st1, fl1, h1, hr1, hs1, hsp1, hother, hcase⟩ := h.step hse ho hm
    -- the visited part of the list after this step
    obtain ⟨pre', hfl1, hpre'⟩ : ∃ pre', fl1 order = pre' ++ bs ∧
        ∀ i ∈ pre', ¬ Hits s e ⟨i, order⟩ := by
      rcases hcase with ⟨he, hn⟩ | he
      · refine ⟨pre ++ [idx], by simp [he, hfl], fun i hi => ?_⟩
        rcases List.mem_append.1 hi with hi | hi
        · exact hpre i hi
        · rwa [List.mem_singleton.1 hi]
      · have hnd := h.area.lists.nodup ho
        rw [hfl] at hnd
        have hni : idx ∉ pre := fun hp =>
          (List.nodup_append.1 hnd).2.2 idx hp idx (by simp) rfl
        refine ⟨pre, ?_, hpre⟩
        rw [he, hfl, List.erase_append_right _ hni, List.erase_cons_head]
    obtain ⟨st', fl', h2, hr2, hs2, hsp2, hother2, hdone⟩ :=
      ih hr1 hfl1 hpre' (by simpa using hfuel)
    refine ⟨st', fl', ?_, hr2, hs1.trans hs2, hsp1.trans hsp2, fun o ho => ?_, hdone⟩
    · change reserveLoop s e order (fuel + 1) (.page idx) st = _
      rw [reserveLoop, h.area.lists.next_page ho hfl, Option.bind_some, h1, Option.bind_some, h2]
    · rw [hother2 o ho, hother o ho]

/-- **The pass over the list of an order.** -/
theorem Reserving.pass (h : Reserving s e F st fl) (hse : s < e) (ho : order ≤ maxOrder) :
    ∃ st' fl', reserveOrder s e order st = some st' ∧
      Reserving s e F st' fl' ∧ SameRange st st' ∧ Spares s e st st' fl fl' ∧
      (∀ o > order, fl' o = fl o) ∧ ∀ i ∈ fl' order, ¬ Hits s e ⟨i, order⟩ := by
  have hlen := h.area.length_le ho
  rw [reserveOrder, h.area.lists.next_head ho, Option.bind_some]
  have hfl : fl order = [] ++ fl order := rfl
  exact h.loop hse ho hfl (by simp) (by omega)

/-- **The passes from an order down**, when the lists above it have been visited. -/
theorem Reserving.passes (h : Reserving s e F st fl) (hse : s < e) (ho : order ≤ maxOrder)
    (hdone : ∀ o > order, o ≤ maxOrder → ∀ i ∈ fl o, ¬ Hits s e ⟨i, o⟩) :
    ∃ st' fl', reserveOrders s e order st = some st' ∧ Reserving s e F st' fl' ∧
      SameRange st st' ∧ Spares s e st st' fl fl' ∧ ∀ b ∈ blocks fl', ¬ Hits s e b := by
  induction order generalizing st fl with
  | zero =>
    obtain ⟨st', fl', h1, hr, hs, hsp, hother, hno⟩ := h.pass hse ho
    refine ⟨st', fl', h1, hr, hs, hsp, ?_⟩
    rintro ⟨i, o⟩ ⟨hbo, hbm⟩
    rcases Nat.eq_zero_or_pos o with rfl | hpos
    · exact hno i hbm
    · dsimp only at hbm
      rw [hother o hpos] at hbm
      exact hdone o hpos hbo i hbm
  | succ k ih =>
    obtain ⟨st1, fl1, h1, hr1, hs1, hsp1, hother, hno⟩ := h.pass hse ho
    have hdone1 : ∀ o > k, o ≤ maxOrder → ∀ i ∈ fl1 o, ¬ Hits s e ⟨i, o⟩ := by
      intro o hok hom i hi
      rcases eq_or_ne o (k + 1) with rfl | hne
      · exact hno i hi
      · rw [hother o (by omega)] at hi
        exact hdone o (by omega) hom i hi
    obtain ⟨st', fl', h2, hr2, hs2, hsp2, hall⟩ := ih hr1 (by omega) hdone1
    exact ⟨st', fl', by rw [reserveOrders, h1, Option.bind_some, h2], hr2, hs1.trans hs2,
      hsp1.trans hsp2, hall⟩

/-- **All passes** take the frames of the range out. -/
theorem reserveOrders_spec (h : Coalesced st fl F) (hse : s < e) :
    ∃ st' fl', reserveOrders s e maxOrder st = some st' ∧
      Coalesced st' fl' {f | f ∈ F ∧ ¬ (s ≤ f ∧ f < e)} ∧ SameRange st st' ∧
      Spares s e st st' fl fl' := by
  have hinit : Reserving s e F st fl :=
    ⟨h.area, fun f hf => (h.region f).1 hf, fun f hf _ => (h.region f).2 hf,
      fun b hb hbo hbb => absurd hbb (h.noBuddies b hb hbo)⟩
  obtain ⟨st', fl', h1, hr, hs, hsp, hno⟩ := hinit.passes hse le_rfl fun o ho ho' => by omega
  refine ⟨st', fl', h1, ⟨hr.area, fun b hb hbo hbb => ?_, fun f => ⟨fun hf => ?_, fun hf => ?_⟩⟩, hs,
    hsp⟩
  · rcases hr.buddies b hb hbo hbb with hh | hh
    · exact hno b hb hh
    · exact hno _ hbb hh
  · refine ⟨hr.subset f hf, fun hin => ?_⟩
    obtain ⟨b, hb, hb1, hb2⟩ := hf
    exact hno b hb ⟨by omega, by omega⟩
  · exact hr.outside f hf.1 (by have := hf.2; omega)

end Passes

/-! ### The range -/

/-- The managed range consists of pages, and ends before the last one of the address space. -/
structure Managed (st : MmState) : Prop where
  base : 4096 ∣ st.managedBase.toNat
  size : st.managedSize.toNat = st.frameCount * 4096
  lt : st.managedBase.toNat + st.managedSize.toNat < 2 ^ 64

theorem Managed.congr {st st' : MmState} (h : Managed st) (hs : SameRange st st') : Managed st' :=
  ⟨hs.managedBase ▸ h.base, by rw [hs.managedSize, hs.frameCount, h.size],
    by rw [hs.managedBase, hs.managedSize]; exact h.lt⟩

section Range
variable {st : MmState} {fl : ℕ → List ℕ} {F : Set ℕ}

theorem Managed.end_toNat (h : Managed st) :
    (st.managedBase + st.managedSize).toNat = st.managedBase.toNat + st.managedSize.toNat := by
  have := h.lt
  rw [BitVec.toNat_add, Nat.mod_eq_of_lt this]

theorem Managed.index_toNat (_h : Managed st) {a : Word} (ha : st.managedBase ≤ a) :
    ((a - st.managedBase) >>> 12).toNat = (a.toNat - st.managedBase.toNat) / 4096 := by
  have hle : st.managedBase.toNat ≤ a.toNat := ha
  rw [BitVec.toNat_ushiftRight, BitVec.toNat_sub_of_le ha, Nat.shiftRight_eq_div_pow]

theorem coalesced_of_untouched (h : Coalesced st fl F) {P : ℕ → Prop} (hn : ∀ f ∈ F, ¬ P f) :
    Coalesced st fl {f | f ∈ F ∧ ¬ P f} :=
  ⟨h.area, h.noBuddies, fun f => (h.region f).trans ⟨fun hf => ⟨hf, hn f hf⟩, fun hf => hf.1⟩⟩

/-- **`memory_reserve`** does nothing if no page touches the range, and makes the passes over the
frames whose pages do otherwise. -/
theorem memoryReserve_cases (hm : Managed st) (start stop : Word)
    (hr : start ≤ stop ∨ st.managedBase + st.managedSize ≤ start ∨ stop ≤ st.managedBase) :
    (memoryReserve st start (stop - start) = some st ∧
      ∀ f < st.frameCount, ¬ Touches st.managedBase.toNat f start.toNat stop.toNat) ∨
    ∃ s e, s < e ∧ memoryReserve st start (stop - start) = reserveOrders s e maxOrder st ∧
      ∀ f < st.frameCount,
        s ≤ f ∧ f < e ↔ Touches st.managedBase.toNat f start.toNat stop.toNat := by
  have hend := hm.end_toNat
  have hsize := hm.size
  unfold memoryReserve
  by_cases h0 : stop - start = 0
  · rw [if_pos h0]
    have heq : stop = start := by simpa using BitVec.sub_eq_iff_eq_add.1 h0
    refine .inl ⟨rfl, ?_⟩
    rintro f - ⟨a, h1, h2, -⟩
    rw [heq] at h2
    omega
  rw [if_neg h0]
  by_cases h1 : st.managedSize = 0 ∨ st.frameCount = 0
  · rw [if_pos h1]
    refine .inl ⟨rfl, fun f hf => ?_⟩
    rcases h1 with h1 | h1
    · have hz : st.managedSize.toNat = 0 := by rw [h1]; rfl
      omega
    · omega
  rw [if_neg h1]
  dsimp only
  rw [BitVec.add_comm start, BitVec.sub_add_cancel]
  by_cases h2 : stop ≤ st.managedBase ∨ st.managedBase + st.managedSize ≤ start
  · rw [if_pos h2]
    refine .inl ⟨rfl, fun f hf => ?_⟩
    rintro ⟨a, h3, h4, h5, h6⟩
    rw [BitVec.le_def, BitVec.le_def, hend] at h2
    omega
  rw [if_neg h2]
  have hsz : 0 < st.managedSize.toNat := by
    rcases Nat.eq_zero_or_pos st.managedSize.toNat with hz | hp
    · exact absurd (.inl (BitVec.eq_of_toNat_eq hz)) h1
    · exact hp
  have hne : start.toNat ≠ stop.toNat := fun he =>
    h0 (by rw [BitVec.eq_of_toNat_eq he, BitVec.sub_self]; rfl)
  obtain ⟨q, hq⟩ := hm.base
  have hwrap := hm.lt
  rw [BitVec.le_def, BitVec.le_def, hend] at h2
  rw [BitVec.le_def, BitVec.le_def, BitVec.le_def, hend] at hr
  -- the clipped range
  set start1 := if start < st.managedBase then st.managedBase else start with hs1
  set stop1 := if st.managedBase + st.managedSize < stop then st.managedBase + st.managedSize
    else stop with he1
  have hstart1 : start1.toNat = max start.toNat st.managedBase.toNat := by
    rw [hs1]
    split
    next hc => rw [BitVec.lt_def] at hc; omega
    next hc => rw [BitVec.lt_def] at hc; omega
  have hstop1 : stop1.toNat = min stop.toNat (st.managedBase.toNat + st.managedSize.toNat) := by
    rw [he1]
    split
    next hc => rw [BitVec.lt_def, hend] at hc; rw [hend]; omega
    next hc => rw [BitVec.lt_def, hend] at hc; omega
  have hdown := alignDown_toNat start1
  have hup := alignUp_toNat (a := stop1) (by omega)
  rw [hm.index_toNat (BitVec.le_def.2 (by omega)), hm.index_toNat (BitVec.le_def.2 (by omega)),
    hdown, hup]
  set s := (start1.toNat / 4096 * 4096 - st.managedBase.toNat) / 4096 with hs
  set e := ((stop1.toNat + 4095) / 4096 * 4096 - st.managedBase.toNat) / 4096 with he
  have hle : ¬ st.frameCount < e := by omega
  rw [if_neg hle]
  refine .inr ⟨s, e, by omega, rfl, fun f hf => ?_⟩
  rw [touches_iff (by omega)]
  omega

theorem memoryReserve_spec (h : Coalesced st fl F) (hm : Managed st) (start stop : Word)
    (hr : start ≤ stop ∨ st.managedBase + st.managedSize ≤ start ∨ stop ≤ st.managedBase) :
    ∃ st' fl', memoryReserve st start (stop - start) = some st' ∧
      Coalesced st' fl' {f | f ∈ F ∧ ¬ Touches st.managedBase.toNat f start.toNat stop.toNat} ∧
      SameRange st st' := by
  have hlt : ∀ f ∈ F, f < st.frameCount := fun f hf => h.area.lt f ((h.region f).2 hf)
  rcases memoryReserve_cases hm start stop hr with ⟨h1, hn⟩ | ⟨s, e, hse, h1, ht⟩
  · exact ⟨st, fl, h1, coalesced_of_untouched h fun f hf => hn f (hlt f hf), .refl st⟩
  · obtain ⟨st', fl', h2, h3, h4, -⟩ := reserveOrders_spec h hse
    refine ⟨st', fl', h1.trans h2, ⟨h3.area, h3.noBuddies, fun f => (h3.region f).trans ?_⟩, h4⟩
    exact and_congr_right fun hf => not_congr (ht f (hlt f hf))

/-- The block has a frame whose page touches the range. -/
def Overlaps (base : ℕ) (b : Block) (lo hi : ℕ) : Prop := ∃ f, b.Covers f ∧ Touches base f lo hi

theorem hits_iff {s e lo hi base count : ℕ} {b : Block} (hse : s < e)
    (ht : ∀ f < count, s ≤ f ∧ f < e ↔ Touches base f lo hi) (hb : ∀ f, b.Covers f → f < count) :
    Hits s e b ↔ Overlaps base b lo hi := by
  constructor
  · rintro ⟨h1, h2⟩
    have hpos := Nat.two_pow_pos b.order
    have hc : b.Covers (max s b.index) := ⟨by omega, by omega⟩
    exact ⟨_, hc, (ht _ (hb _ hc)).1 ⟨by omega, by omega⟩⟩
  · rintro ⟨f, hc, hf⟩
    obtain ⟨h1, h2⟩ := (ht f (hb f hc)).2 hf
    exact ⟨lt_of_le_of_lt h1 hc.2, lt_of_le_of_lt hc.1 h2⟩

/-- **`memory_reserve` takes exactly the frames out whose pages touch the range.** Its loops end, and
what is left is again in disjoint aligned blocks without free buddies. A free block that does not
overlap the range stays what it is, and so does the metadata of a frame that is in no block that
does. -/
theorem memoryReserve_exact (h : Coalesced st fl F) (hm : Managed st) {start size : Word}
    (hw : start.toNat + size.toNat < 2 ^ 64) :
    ∃ st' fl', memoryReserve st start size = some st' ∧
      Coalesced st' fl' {f | f ∈ F ∧
        ¬ Touches st.managedBase.toNat f start.toNat (start.toNat + size.toNat)} ∧
      SameRange st st' ∧
      (∀ b ∈ st.freeBlocks,
        ¬ Overlaps st.managedBase.toNat b start.toNat (start.toNat + size.toNat) →
          b ∈ st'.freeBlocks ∧ ∀ f, b.Covers f → st'.frameArray f = st.frameArray f) ∧
      ∀ f, (∀ b ∈ st.freeBlocks, b.Covers f →
        ¬ Overlaps st.managedBase.toNat b start.toNat (start.toNat + size.toNat)) →
          st'.frameArray f = st.frameArray f := by
  have hstop : (start + size).toNat = start.toNat + size.toNat := by
    rw [BitVec.toNat_add, Nat.mod_eq_of_lt hw]
  have hsize : start + size - start = size := by rw [BitVec.add_comm, BitVec.add_sub_cancel]
  have hlt : ∀ f ∈ F, f < st.frameCount := fun f hf => h.area.lt f ((h.region f).2 hf)
  have hcases := memoryReserve_cases hm start (start + size)
    (.inl (BitVec.le_def.2 (by rw [hstop]; exact Nat.le_add_right ..)))
  rw [hsize, hstop] at hcases
  rw [h.area.freeBlocks_eq]
  rcases hcases with ⟨h1, hn⟩ | ⟨s, e, hse, h1, ht⟩
  · refine ⟨st, fl, h1, coalesced_of_untouched h fun f hf => hn f (hlt f hf), .refl st,
      fun b hb _ => ⟨?_, fun _ _ => rfl⟩, fun _ _ => rfl⟩
    rwa [h.area.freeBlocks_eq]
  · obtain ⟨st', fl', h2, h3, h4, h5⟩ := reserveOrders_spec h hse
    have hhit : ∀ b ∈ blocks fl, Hits s e b ↔
        Overlaps st.managedBase.toNat b start.toNat (start.toNat + size.toNat) := fun b hb =>
      hits_iff hse ht fun f hf => h.area.lt f ⟨b, hb, hf⟩
    have hpage : ∀ f, (∀ b ∈ blocks fl, b.Covers f →
        ¬ Overlaps st.managedBase.toNat b start.toNat (start.toNat + size.toNat)) →
          st'.frameArray f = st.frameArray f := fun f hf =>
      h5.page f fun b hb hh hc => hf b hb hc ((hhit b hb).1 hh)
    refine ⟨st', fl', h1.trans h2, ⟨h3.area, h3.noBuddies, fun f => (h3.region f).trans ?_⟩, h4,
      fun b hb hno => ⟨?_, fun f hf => hpage f fun c hc hcf => ?_⟩, hpage⟩
    · exact and_congr_right fun hf => not_congr (ht f (hlt f hf))
    · -- the frames of the block are left, and it is maximal among more frames
      rw [h3.area.freeBlocks_eq]
      refine h.area.tiling.mem_of_subset h.noBuddies h3.area.tiling h3.noBuddies
        (fun f hf => (h.region f).2 ((h3.region f).1 hf).1) hb fun f hf => (h3.region f).2 ?_
      have hfr : f ∈ region (blocks fl) := ⟨b, hb, hf⟩
      exact ⟨(h.region f).1 hfr, fun hin => hno ⟨f, hf, (ht f (h.area.lt f hfr)).1 hin⟩⟩
    · obtain rfl := h.area.tiling.disjoint c hc b hb f hcf hf
      exact hno

/-- Eight pages from `0x1000` on, none of them free. -/
def eightPages : MmState where
  managedBase := 0x1000
  managedSize := 0x8000
  frameCount := 8
  earlyReserved := []
  framePtr := 0
  frameArray := fun _ => ⟨0, .used, false, 0, -1⟩
  links := ⟨some, some⟩
  chunkFreeList := fun _ => 0
  mem := fun _ => 0

theorem exists_eightPages : ∃ st fl, SameRange eightPages st ∧
    Coalesced st fl {f | f < 2 ∨ 4 ≤ f ∧ f < 8} := by
  have h0 : Coalesced eightPages (fun _ => []) ∅ :=
    coalesced_nil (fun o _ => ⟨by simp, ⟨rfl, trivial⟩, ⟨rfl, trivial⟩⟩) fun _ => rfl
  obtain ⟨st1, fl1, -, h1, hs1, -⟩ := h0.add (by decide)
    (show (⟨0, 1⟩ : Block).Aligned by decide)
    (fun f hf => ⟨Set.notMem_empty f, lt_of_lt_of_le hf.2 (by decide)⟩) (by simp)
  have hmem : ∀ f, f ∈ region (blocks fl1) ↔ f < 2 := fun f =>
    (h1.region f).trans ⟨fun hf => hf.elim False.elim And.right, fun hf => .inr ⟨f.zero_le, hf⟩⟩
  have hnew : ∀ f, (⟨4, 2⟩ : Block).Covers f → f ∉ region (blocks fl1) := fun f hf hf' => by
    have h4 : 4 ≤ f := hf.1
    have := (hmem f).1 hf'
    omega
  have hbuddy : (⟨4, 2⟩ : Block).buddy ∉ blocks fl1 := fun hb => by
    have := (hmem 2).1 ⟨_, hb, by decide⟩
    omega
  obtain ⟨st2, fl2, -, h2, hs2, -⟩ := h1.add (by decide)
    (show (⟨4, 2⟩ : Block).Aligned by decide)
    (fun f hf => ⟨fun hf' => hnew f hf ((h1.region f).2 hf'), by rw [hs1.frameCount]; exact hf.2⟩)
    fun _ => hbuddy
  refine ⟨st2, fl2, hs1.trans hs2, h2.area, h2.noBuddies, fun f => (h2.region f).trans ?_⟩
  exact or_congr ((h1.region f).symm.trans (hmem f)) Iff.rfl

/-- Some bytes of the page `0` are reserved: the page `1` stays free, and nothing happens to the
others. -/
theorem memoryReserve_exact_sample : ∃ st fl st' fl', SameRange eightPages st ∧
    Coalesced st fl {f | f < 2 ∨ 4 ≤ f ∧ f < 8} ∧ memoryReserve st 0x1800 0x100 = some st' ∧
    Coalesced st' fl' {f | f = 1 ∨ 4 ≤ f ∧ f < 8} ∧ st'.frameArray 5 = st.frameArray 5 := by
  obtain ⟨st, fl, hs, hc⟩ := exists_eightPages
  have hbase : st.managedBase.toNat = 0x1000 := by rw [hs.managedBase]; rfl
  have hm : Managed st := Managed.congr ⟨by decide, rfl, by decide⟩ hs
  have ht : ∀ f, Touches 0x1000 f 0x1800 0x1900 ↔ f = 0 := fun f => by
    rw [touches_iff (by decide)]
    omega
  obtain ⟨st', fl', h1, h2, -, -, h5⟩ :=
    memoryReserve_exact hc hm (show (0x1800 : Word).toNat + (0x100 : Word).toNat < 2 ^ 64 by decide)
  have hlo : (0x1800 : Word).toNat = 0x1800 := rfl
  have hsize : (0x100 : Word).toNat = 0x100 := rfl
  rw [hbase, hlo, hsize] at h2 h5
  refine ⟨st, fl, st', fl', hs, hc, h1, ⟨h2.area, h2.noBuddies, fun f => (h2.region f).trans ?_⟩,
    h5 5 fun b hb hc5 => ?_⟩
  · rw [Set.mem_ofPred_eq, Set.mem_ofPred_eq, Set.mem_ofPred_eq, ht]
    omega
  · -- a block with the pages `0` and `5` would have the page `3`
    rintro ⟨f, hf, hft⟩
    obtain rfl := (ht f).1 hft
    rw [hc.area.freeBlocks_eq] at hb
    have h3 := (hc.region 3).1 ⟨b, hb, hf.1.trans (by decide), lt_of_lt_of_le (by decide) hc5.2⟩
    rw [Set.mem_ofPred_eq] at h3
    omega

end Range

end OscKernel.Mm.Reserve
