import OscKernel.Mm.Complete
import Mathlib.Data.Set.Card

/-! # The chunk pools of lab6

Each page that was cut up for a pool gives it as many chunks as fit, and every one of them is in the
list of the pool or held by one caller.

* `Conserved s cl`: it is so in the state `s`, where the lists go through the chunks `cl`.
* `Allocated`, `Returned`: what a call of `allocate` takes, and where `free` puts it.
* `conserved_of_run`: the pools after every run. -/

namespace OscKernel.Mm.Conserve

open OscKernel.Lib.Memory OscKernel.Lib.Dyadic OscKernel.Lib.NodePool OscKernel.Lib.Transition
  OscKernel.Vm.Tables OscKernel.Mm.Frames OscKernel.Mm.Reserve OscKernel.Mm.Pages
  OscKernel.Mm.Init OscKernel.Mm.Held OscKernel.Mm.Chunks OscKernel.Mm.Tags OscKernel.Mm.Heap
  OscKernel.Mm.Callers OscKernel.Mm.Complete
open OscKernel.Mm.Coalesce (wideBoot wide_alloc)
open OscKernel.Vm.Setup (linearSize)

/-! ### Statements -/

/-- A caller holds the chunk of pool `i` at the offset `n`. -/
def Holds (s : Sys) (i : Fin 8) (n : ℕ) : Prop := ∃ l ∈ s.live, l.extent = .chunk i n

/-- The metadata of the frame names pool `i`. -/
def InPool (st : MmState) (f : ℕ) (i : Fin 8) : Prop := (st.frameArray f).chunkPool = (i.1 : ℤ)

/-- **The pools conserve chunks.** The list of pool `i` goes through the chunks at the offsets `cl i`,
none of them twice. A frame of the pool has exactly the chunks that fit into a page, each in the list
or held, not both, and not by two callers; and all chunks of the pool are in frames of it. -/
structure Conserved (s : Sys) (cl : Fin 8 → List ℕ) : Prop where
  lists : ChunkLists .linear s.mm cl
  nodup : ∀ i, ((cl i).map (ptrAt .linear s.mm)).Nodup
  chunks : ∀ f i, InPool s.mm f i → ∀ n, n / 4096 = f ∧ (n ∈ cl i ∨ Holds s i n) ↔
    ∃ j < 4096 / (poolSizes i).toNat, n = f * 4096 + j * (poolSizes i).toNat
  count : ∀ f i, InPool s.mm f i →
    {n | n / 4096 = f ∧ (n ∈ cl i ∨ Holds s i n)}.ncard = 4096 / (poolSizes i).toNat
  inPool : ∀ i n, n ∈ cl i ∨ Holds s i n → InPool s.mm (n / 4096) i
  once : ∀ i, ∀ n ∈ cl i, ¬ Holds s i n
  extents : (s.live.map Live.extent).Nodup
  ptr : ∀ l ∈ s.live, l.ptr = ptrAt .linear s.mm l.extent.offset

/-- What `allocate` does for a size that belongs to pool `i`. If there is a free chunk, it takes the
first one, and the frames stay as they are. Otherwise it cuts up a free frame, if there is one. -/
inductive Allocated (s : Sys) (cl : Fin 8 → List ℕ) (size : Word) (i : Fin 8) (s' : Sys) : Prop
  | first {n : ℕ} {l : List ℕ} (list : cl i = n :: l)
      (live : s'.live = ⟨ptrAt .linear s.mm n, .chunk i n, size.toNat, .bytes⟩ :: s.live)
      (lists : ChunkLists .linear s'.mm (Function.update cl i l)) (same : SameFrames s.mm s'.mm)
  | refilled {f n : ℕ} {l : List ℕ} (list : cl i = []) (free : f ∈ region s.mm.freeBlocks)
      (left : region s'.mm.freeBlocks = region s.mm.freeBlocks \ {f}) (pool : InPool s'.mm f i)
      (chunks : ∀ m, m ∈ n :: l ↔
        ∃ j < 4096 / (poolSizes i).toNat, m = f * 4096 + j * (poolSizes i).toNat)
      (live : s'.live = ⟨ptrAt .linear s.mm n, .chunk i n, size.toNat, .bytes⟩ :: s.live)
      (lists : ChunkLists .linear s'.mm (Function.update cl i l))
  | failed (list : cl i = []) (full : region s.mm.freeBlocks = ∅) (same : s' = s)

/-- `free` puts the chunk at the offset `n` back into the list of pool `i`. -/
structure Returned (s : Sys) (cl : Fin 8 → List ℕ) (l : Live) (i : Fin 8) (n : ℕ) (s' : Sys) :
    Prop where
  live : s'.live = s.live.erase l
  lists : ChunkLists .linear s'.mm (Function.update cl i (n :: cl i))
  same : SameFrames s.mm s'.mm

/-! ### Pools and pages -/

theorem poolSizes_mono {i j : Fin 8} (h : i ≤ j) : poolSizes i ≤ poolSizes j := by
  rw [BitVec.le_def, poolSizes_toNat, poolSizes_toNat]
  exact Nat.pow_le_pow_right (by decide) (Nat.add_le_add_right h 4)

theorem findPool_least {size : Word} {i : Fin 8} (h : findPool size = some i) :
    size ≤ poolSizes i ∧ ∀ j, size ≤ poolSizes j → poolSizes i ≤ poolSizes j := by
  obtain ⟨hi, as, bs, hsplit, has⟩ := List.find?_eq_some_iff_append.1 h
  refine ⟨of_decide_eq_true hi, fun j hj => poolSizes_mono ?_⟩
  have hmem := List.mem_finRange j
  have hsorted := List.pairwise_lt_finRange 8
  rw [hsplit] at hmem hsorted
  rcases List.mem_append.1 hmem with hm | hm
  · have := has j hm
    rw [decide_eq_true hj] at this
    cases this
  · rcases List.mem_cons.1 hm with rfl | hm
    · exact le_rfl
    · exact ((List.pairwise_cons.1 (List.pairwise_append.1 hsorted).2.1).1 j hm).le

theorem chunk_in_page {i : Fin 8} {f n : ℕ} : n / 4096 = f ∧ chunkSize i ∣ n ↔
    ∃ j < 4096 / (poolSizes i).toNat, n = f * 4096 + j * (poolSizes i).toNat := by
  have hpos := chunkSize_pos i
  obtain ⟨q, hq⟩ := chunkSize_dvd i
  have hdiv : 4096 / chunkSize i = q := by
    rw [hq]
    exact Nat.mul_div_cancel_left q (by omega)
  rw [poolSizes_toNat, hdiv]
  constructor
  · rintro ⟨rfl, hd⟩
    have hmod : chunkSize i ∣ n % 4096 := (Nat.dvd_mod_iff (chunkSize_dvd i)).2 hd
    obtain ⟨j, hj⟩ := hmod
    have hlt := Nat.mod_lt n (show 0 < 4096 by decide)
    refine ⟨j, ?_, ?_⟩
    · rw [hj, hq] at hlt
      exact Nat.lt_of_mul_lt_mul_left hlt
    · rw [Nat.mul_comm j, ← hj]
      exact (Nat.div_add_mod' n 4096).symm
  · rintro ⟨j, hj, rfl⟩
    have hlt : j * chunkSize i < 4096 := by
      rw [hq, Nat.mul_comm]
      exact Nat.mul_lt_mul_of_pos_left hj (by omega)
    refine ⟨by omega, ?_⟩
    exact (Nat.dvd_add_right ((chunkSize_dvd i).mul_left f)).2 (Nat.dvd_mul_left ..)

section State
variable {F0 : Set ℕ} {st0 : MmState} {s s' : Sys} {fl : ℕ → List ℕ} {cp : List (ℕ × Fin 8)}
  {cl : Fin 8 → List ℕ} {i : Fin 8} {size : Word} {c : Call} {f n : ℕ}

theorem holds_iff : Holds s i n ↔ .chunk i n ∈ s.live.map Live.extent := List.mem_map.symm

theorem InPool.unique {st : MmState} {j : Fin 8} (h : InPool st f i) (h' : InPool st f j) : i = j :=
  Fin.ext (Int.ofNat_inj.1 (h.symm.trans h'))

theorem mem_of_inPool {st : MmState} (ht : Tagged st cp) (h : InPool st f i) : (f, i) ∈ cp := by
  rcases ht f with h1 | ⟨j, hj, h1⟩
  · unfold InPool at h
    omega
  · obtain rfl := h.unique h1
    exact hj

/-- **The frames that are shared out** make up the pools. -/
theorem conserved (hi : Inv .linear F0 st0 s)
    (h : Shared .linear F0 s.mm fl cp cl (s.live.map Live.extent)) (ht : Tagged s.mm cp) :
    Conserved s cl := by
  have hsize := s.mm.managedSize.isLt
  have howner : ∀ {i n}, n ∈ cl i → Owner cl (s.live.map Live.extent) (.chunk i n) :=
    fun hn => .inr ⟨_, _, hn, rfl⟩
  have hchunks : ∀ f i, InPool s.mm f i → ∀ n, n / 4096 = f ∧ (n ∈ cl i ∨ Holds s i n) ↔
      ∃ j < 4096 / (poolSizes i).toNat, n = f * 4096 + j * (poolSizes i).toNat := by
    intro f i hf n
    rw [holds_iff, h.chunks i n, ← chunk_in_page]
    refine and_congr_right fun hn => and_iff_right ?_
    rw [hn]
    exact mem_of_inPool ht hf
  refine ⟨h.lists, fun i => ?_, hchunks, fun f i hf => ?_, fun i n hn => ?_, fun i n hn hheld => ?_,
    h.live_nodup, fun l hl => ?_⟩
  · -- the pointers are as different as the offsets
    refine (h.nodup i).map_on fun n hn m hm he => ?_
    have h1 := h.has_lt (howner hn) (Extent.has_offset _)
    have h2 := h.has_lt (howner hm) (Extent.has_offset _)
    change n < _ at h1
    change m < _ at h2
    exact h.translates.inj (by omega) (by omega) he
  · have hpos : 0 < (poolSizes i).toNat := by
      have := chunkSize_pos i
      rw [poolSizes_toNat]
      omega
    have himage : {n | n / 4096 = f ∧ (n ∈ cl i ∨ Holds s i n)} =
        (fun j => f * 4096 + j * (poolSizes i).toNat) ''
          (Finset.range (4096 / (poolSizes i).toNat) : Set ℕ) := by
      ext n
      rw [Set.mem_ofPred_eq, hchunks f i hf n]
      simp only [Set.mem_image, Finset.coe_range, Set.mem_Iio, eq_comm]
    have hinj : Function.Injective fun j => f * 4096 + j * (poolSizes i).toNat := fun a b hab =>
      Nat.eq_of_mul_eq_mul_right hpos (Nat.add_left_cancel hab)
    rw [himage, Set.ncard_image_of_injective _ hinj, Set.ncard_coe_finset, Finset.card_range]
  · rw [holds_iff] at hn
    exact (h.chunkPages _ ((h.chunks i n).1 hn).1).2
  · exact h.notFree i n hn (holds_iff.1 hheld)
  · rw [(hi.stands l hl).ptr, hi.ptr_eq]

/-! ### The calls -/

/-- **`allocate`** for a size that belongs to a pool. -/
theorem allocated (hl : Mapped s.mm)
    (h : Shared .linear F0 s.mm fl cp cl (s.live.map Live.extent)) (h0 : size ≠ 0)
    (hle : size ≤ 2048) (hpool : findPool size = some i)
    (hs : step .linear s (.allocate size) = some s') : Allocated s cl size i s' := by
  have harea := h.holding.coalesced.area
  obtain ⟨⟨p, mm⟩, h1, rfl⟩ := Option.map_eq_some_iff.1 hs
  rw [allocate_small h0 hle] at h1
  have h2 := h.allocChunk_moved hpool h1
  dsimp only
  have hlive : ∀ {n fl' cp' cl'}, SamePlace s.mm mm →
      Shared .linear F0 mm fl' cp' cl' (.chunk i n :: s.live.map Live.extent) →
      (give s mm ⟨ptrAt .linear s.mm n, byteExtent .linear mm size (ptrAt .linear s.mm n), size.toNat,
        .bytes⟩).live = ⟨ptrAt .linear s.mm n, .chunk i n, size.toNat, .bytes⟩ :: s.live := by
    intro n fl' cp' cl' hplace h3
    have hptr : ptrAt .linear s.mm n = ptrAt .linear mm n := (ptrAt_congr hplace.managedBase).symm
    have hne : ptrAt .linear mm n ≠ 0 := h3.chunk_ne
    have hgive := give_ne_zero (l := ⟨ptrAt .linear mm n, .chunk i n, size.toNat, .bytes⟩) s mm hne
    rw [hptr, byteExtent_chunk h3 hpool, hgive]
  cases h2 with
  | first list same shared => exact .first list (hlive (SameFrames.place same) shared) shared.lists same
  | empty list page =>
    have hcall := pagesCall h hl page
    obtain rfl : mm = s.mm := hcall.unchanged rfl
    refine .failed list ?_ (give_zero s rfl)
    have hno := (hcall.null_iff.1 rfl).resolve_left (by decide)
    refine Set.eq_empty_of_forall_notMem fun f hf => hno ⟨f, one_dvd f, fun g hg => ?_⟩
    rwa [Block.covers_zero.1 hg]
  | @refilled page st1 _ f n l fl' list alloc taken page_ne free left chunks frames shared same =>
    refine .refilled list (harea.freeBlocks_eq ▸ free) ?_ ?_ (fun m => ?_) (hlive same shared)
      shared.lists
    · change region mm.freeBlocks = _
      rw [shared.holding.coalesced.area.freeBlocks_eq, harea.freeBlocks_eq]
      exact Set.ext left
    · exact (shared.chunkPages _ List.mem_cons_self).2
    · rw [chunks, chunk_in_page]

/-- **`free`** of a chunk that is held. -/
theorem returned (hi : InvAt .linear F0 st0 s cp)
    (h : Shared .linear F0 s.mm fl cp cl (s.live.map Live.extent)) {l : Live} (hl : l ∈ s.live)
    (hext : l.extent = .chunk i n) :
    ∃ s', step .linear s (.free l.ptr) = some s' ∧ Returned s cl l i n s' := by
  have hapi : l.api = .bytes := by
    cases ha : l.api with
    | pages =>
      obtain ⟨blk, hblk⟩ := (hi.stands l hl).pages ha
      rw [hext] at hblk
      cases hblk
    | bytes => rfl
  have hholder := hi.inv.holder_eq hl
  obtain ⟨-, -, -, hptr, hperm⟩ := hi.inv.take hholder
  rw [hext] at hptr hperm
  have h' := h.perm hperm
  refine ⟨⟨pushed i (ptrAt .linear s.mm n) s.mm, s.live.erase l⟩, ?_, rfl, h'.push.lists,
    sameFrames_push ..⟩
  rw [hapi] at hholder
  rw [step, hholder, Option.bind_some, hptr]
  change (free .linear (ptrAt .linear s.mm n) s.mm).map _ = _
  rw [h'.freeChunk]
  rfl

/-! ### Where pools come from -/

theorem untags_allocate {k : Pointers} {st st' : MmState} {p : Word} (hn : findPool size = none)
    (h : allocate k size st = some (p, st')) : Untags st st' := by
  have hsame : some ((0 : Word), st) = some (p, st') → Untags st st' := fun he =>
    (Prod.mk.inj (Option.some.inj he)).2 ▸ .refl
  unfold allocate at h
  split at h
  · exact hsame h
  · split at h
    · exact hsame h
    · split at h
      · unfold allocChunk at h
        rw [hn] at h
        exact hsame h
      · exact untags_allocPages h

theorem untags_free {k : Pointers} {st st' : MmState} {p : Word} (h : free k p st = some st') :
    Untags st st' := by
  unfold free at h
  dsimp only at h
  split at h
  · exact Option.some.inj h ▸ .refl
  · split at h
    · exact Option.some.inj h ▸ .refl
    · split at h
      · unfold freeChunk pushChunk at h
        split_ifs at h
        rw [← Option.some.inj h]
        exact .of_eq rfl
      · exact untags_freePages h

theorem untags_step {k : Pointers} (hs : step k s c = some s')
    (hc : ∀ size, c = .allocate size → findPool size = none) : Untags s.mm s'.mm := by
  cases c with
  | allocPages order =>
    obtain ⟨⟨p, mm⟩, h1, rfl⟩ := Option.map_eq_some_iff.1 hs
    exact untags_allocPages h1
  | freePages p =>
    obtain ⟨l, -, hs⟩ := Option.bind_eq_some_iff.1 hs
    obtain ⟨mm, h1, rfl⟩ := Option.map_eq_some_iff.1 hs
    exact untags_freePages h1
  | allocate size =>
    obtain ⟨⟨p, mm⟩, h1, rfl⟩ := Option.map_eq_some_iff.1 hs
    exact untags_allocate (hc size rfl) h1
  | free p =>
    obtain ⟨l, -, hs⟩ := Option.bind_eq_some_iff.1 hs
    obtain ⟨mm, h1, rfl⟩ := Option.map_eq_some_iff.1 hs
    exact untags_free h1
  | write addr v =>
    rw [step] at hs
    split at hs
    · obtain rfl := Option.some.inj hs
      exact .of_eq rfl
    · cases hs

theorem InPool.of_untags {st st' : MmState} (h : InPool st' f i) (hu : Untags st st') :
    InPool st f i := by
  unfold InPool at *
  rcases hu f with he | he <;> omega

/-- **A page is cut up for a pool** only when a chunk of it is wanted and its list is empty. -/
theorem inPool_step (hl : Mapped s.mm)
    (h : Shared .linear F0 s.mm fl cp cl (s.live.map Live.extent))
    (hs : step .linear s c = some s') (hf : InPool s'.mm f i) :
    InPool s.mm f i ∨ cl i = [] ∧ ∃ size, c = .allocate size ∧ findPool size = some i := by
  by_cases hc : ∀ size, c = .allocate size → findPool size = none
  · exact .inl (hf.of_untags (untags_step hs hc))
  · obtain ⟨size, hc⟩ := not_forall.1 hc
    rw [Classical.not_imp] at hc
    obtain ⟨rfl, hpool⟩ := hc
    obtain ⟨j, hj⟩ := Option.ne_none_iff_exists'.1 hpool
    obtain ⟨⟨p, mm⟩, h1, rfl⟩ := Option.map_eq_some_iff.1 hs
    have hle : size ≤ 2048 := by
      by_contra hgt
      exact hpool (findPool_none hgt)
    by_cases h0 : size = 0
    · rw [allocate, if_pos h0] at h1
      obtain ⟨-, rfl⟩ := Prod.mk.inj (Option.some.inj h1)
      exact .inl hf
    rw [allocate_small h0 hle] at h1
    change InPool mm f i at hf
    cases h.allocChunk_moved hj h1 with
    | first list same shared => exact .inl (hf.of_untags (.of_eq same.frameArray))
    | empty list page =>
      obtain rfl : mm = s.mm := (pagesCall h hl page).unchanged rfl
      exact .inl hf
    | @refilled page st1 _ idx n l fl' list alloc taken page_ne free left chunks frames shared same =>
      rcases eq_or_ne f idx with rfl | hne
      · obtain rfl := hf.unique (shared.chunkPages _ List.mem_cons_self).2
        exact .inr ⟨list, size, rfl, hj⟩
      · refine .inl (InPool.of_untags ?_ (untags_allocPages alloc))
        unfold InPool at *
        rwa [frames, frameArray_setPage_of_ne _ hne] at hf

end State

section Run
variable {b : Boot} {st : MmState} {cs : List Call} {s : Sys}

/-- **The pools conserve chunks in every run** on a machine whose managed range lies in the linear
mapping. In every state that is reached, `allocate` serves the sizes up to 2048 from the least pool that
fits, and takes a page only if that pool is empty; it always returns where the managed range lies in
the 10 GiB that are mapped. `free` puts a chunk back into the list that it came
from; and a frame gets a pool in no other way. -/
theorem conserved_of_run (hinit : mmInit b = some st)
    (hl : b.managedBase.toNat + b.managedSize.toNat ≤ 2 ^ 38)
    (hr : Run (step .linear) (fun _ _ => True) ⟨st, []⟩ cs s) :
    ∃ cl, Conserved s cl ∧
      (∀ size, size ≠ 0 → size ≤ 2048 → ∃ i, findPool size = some i ∧ size ≤ poolSizes i ∧
        (∀ j, size ≤ poolSizes j → poolSizes i ≤ poolSizes j) ∧
        (∀ s', step .linear s (.allocate size) = some s' → Allocated s cl size i s') ∧
        (b.managedBase.toNat + b.managedSize.toNat ≤ linearSize →
          (step .linear s (.allocate size)).isSome)) ∧
      (∀ l ∈ s.live, ∀ i n, l.extent = .chunk i n →
        ∃ s', step .linear s (.free l.ptr) = some s' ∧ Returned s cl l i n s') ∧
      ∀ c s', step .linear s c = some s' → ∀ f i, InPool s'.mm f i →
        InPool s.mm f i ∨ cl i = [] ∧ ∃ size, c = .allocate size ∧ findPool size = some i := by
  obtain ⟨⟨cp, hi, ht⟩, -, hmapped⟩ := invAt_of_run hinit hl hr
  obtain ⟨fl, cl, h⟩ := hi.shared
  have hmapped' := mapped_of_place hmapped hi.place
  refine ⟨cl, conserved hi.inv h ht, fun size h0 hle => ?_, fun l hl i n hext => returned hi h hl hext,
    fun c s' hs f i hf => inPool_step hmapped' h hs hf⟩
  obtain ⟨i, hpool, -⟩ := findPool_spec hle
  obtain ⟨hfit, hleast⟩ := findPool_least hpool
  exact ⟨i, hpool, hfit, hleast, fun s' hs => allocated hmapped' h h0 hle hpool hs,
    fun hten => hi.inv.progress.2.1 (fun n => linear_ptr_mapped hinit hten) size⟩

theorem conserved_of_run_small : ∃ st s, mmInit smallBoot = some st ∧
    Run (step .linear) (fun _ _ => True) ⟨st, []⟩ [.allocate 1500, .allocPages 0, .allocate 2000,
      .free 0xffffffc080002800, .allocate 40] s ∧ s.mm.chunkFreeList 7 = 0xffffffc080002800 ∧
    ∃ cl, Conserved s cl ∧
      (∀ size, size ≠ 0 → size ≤ 2048 → ∃ i, findPool size = some i ∧ size ≤ poolSizes i ∧
        (∀ j, size ≤ poolSizes j → poolSizes i ≤ poolSizes j) ∧
        (∀ s', step .linear s (.allocate size) = some s' → Allocated s cl size i s') ∧
        (smallBoot.managedBase.toNat + smallBoot.managedSize.toNat ≤ linearSize →
          (step .linear s (.allocate size)).isSome)) ∧
      (∀ l ∈ s.live, ∀ i n, l.extent = .chunk i n →
        ∃ s', step .linear s (.free l.ptr) = some s' ∧ Returned s cl l i n s') ∧
      ∀ c s', step .linear s c = some s' → ∀ f i, InPool s'.mm f i →
        InPool s.mm f i ∨ cl i = [] ∧ ∃ size, c = .allocate size ∧ findPool size = some i := by
  obtain ⟨st, s, h1, h2, h3⟩ := exists_run smallBoot [.allocate 1500, .allocPages 0, .allocate 2000,
    .free 0xffffffc080002800, .allocate 40] (fun s => s.mm.chunkFreeList 7) 0xffffffc080002800
    (by decide +kernel)
  exact ⟨st, s, h1, h2, h3, conserved_of_run h1 (by decide) h2⟩

/-- **Beyond the linear mapping** the pointer to a page wraps, and its metadata is not in `frame_array`:
`allocate(16)` does not return, although the pool is empty and there is a free page. -/
theorem not_conserved_wide : ∃ st, mmInit wideBoot = some st ∧ HasRun st 0 ∧
    step .linear ⟨st, []⟩ (.allocate 16) = none := by
  obtain ⟨st, mm, h1, h2, hmem, -, hb, -, hn⟩ := wide_alloc (Nat.zero_le 1)
  obtain ⟨-, -, -, -, -, -, -, hchunks, -⟩ := left_of_mmInit h1 (by decide)
  refine ⟨st, h1, ⟨_, one_dvd _, fun f hf => ⟨_, hmem, hf⟩⟩, ?_⟩
  have hrefill : refillChunkPool .linear 0 st = none := by
    rw [refillChunkPool, h2, Option.bind_some]
    dsimp only
    rw [if_neg (by decide), if_pos]
    rw [hn, MmState.addrToFrameIndex, hb]
    decide
  have hpool : findPool 16 = some 0 := by decide
  rw [step, allocate_small (by decide) (by decide), allocChunk, hpool]
  dsimp only
  rw [if_pos (by rw [hchunks]), hrefill]
  rfl

end Run

end OscKernel.Mm.Conserve
