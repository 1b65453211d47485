import OscKernel.Lib.Transition
import OscKernel.Mm.Heap

/-! # Callers of the allocator

Callers take and give back memory in any order, and write into what they hold. Each gives back only
what is held, once, and by the function that belongs to the one it came from.

* `step`: one call.
* `Loses s c`: the call takes the block that the null pointer stands for.
* `Inv.step`: every other call keeps the frames shared out. -/

namespace OscKernel.Mm.Callers

open OscKernel.Lib.Memory OscKernel.Lib.Dyadic OscKernel.Lib.Transition OscKernel.Vm.Tables
  OscKernel.Mm.Frames OscKernel.Mm.Reserve OscKernel.Mm.Pages OscKernel.Mm.Held OscKernel.Mm.Chunks
  OscKernel.Mm.Heap OscKernel.Mm.Tags

/-! ### The machine -/

/-- The functions that a pointer came from: `alloc_pages` and `free_pages`, or `allocate` and
`free`. -/
inductive Api
  | pages | bytes
  deriving DecidableEq

/-- What a caller holds: a pointer and the extent behind it, of which it wanted some bytes. -/
structure Live where
  ptr : Word
  extent : Extent
  requested : ℕ
  api : Api
  deriving DecidableEq

/-- The allocator and what callers hold. -/
structure Sys where
  mm : MmState
  live : List Live

/-- A call, or a write of a byte. -/
inductive Call
  | allocPages (order : ℕ)
  | freePages (p : Word)
  | allocate (size : Word)
  | free (p : Word)
  | write (addr : Word) (v : Byte)

variable (k : Pointers)

/-- The pointer is handed to a caller, if it is not null. -/
def give (s : Sys) (mm : MmState) (l : Live) : Sys := ⟨mm, if l.ptr = 0 then s.live else l :: s.live⟩

/-- What the pointer that `alloc_pages` returns stands for. -/
def pageExtent (mm : MmState) (order : ℕ) (p : Word) : Extent :=
  .pages ⟨mm.addrToFrameIndex (k.toPhys p), order⟩

/-- What the pointer that `allocate` returns stands for. -/
def byteExtent (mm : MmState) (size p : Word) : Extent :=
  match findPool size with
  | some i => .chunk i (k.toPhys p - mm.managedBase).toNat
  | none => pageExtent k mm (sizeToOrder size) p

/-- The one who holds the pointer from these functions. -/
def Sys.holder (s : Sys) (p : Word) (api : Api) : Option Live :=
  s.live.find? fun l => l.ptr = p ∧ l.api = api

/-- One call. -/
def step (s : Sys) : Call → Option Sys
  | .allocPages order => (allocPages k order s.mm).map fun (p, mm) =>
      give s mm ⟨p, pageExtent k mm order p, 2 ^ order * 4096, .pages⟩
  | .freePages p => (s.holder p .pages).bind fun l =>
      (freePages k p s.mm).map fun mm => ⟨mm, s.live.erase l⟩
  | .allocate size => (allocate k size s.mm).map fun (p, mm) =>
      give s mm ⟨p, byteExtent k mm size p, size.toNat, .bytes⟩
  | .free p => (s.holder p .bytes).bind fun l =>
      (free k p s.mm).map fun mm => ⟨mm, s.live.erase l⟩
  | .write addr v =>
      if k.mapped addr ∧ s.live.any fun l => (addr - l.ptr).toNat < l.extent.length then
        some { s with mm := { s.mm with mem := Function.update s.mm.mem addr v } }
      else none

/-! ### The null pointer -/

/-- The first frame of the first free block of sufficient order. -/
def firstFit (st : MmState) (order : ℕ) : Option ℕ :=
  (List.range' order (maxOrder + 1 - order)).findSome? fun o => (st.freeList o).head?

/-- The order of the block that a call wants from the page allocator. -/
def wants (s : Sys) : Call → Option ℕ
  | .allocPages order => some order
  | .allocate size =>
    if size = 0 ∨ maxAllocSize < size then none
    else
      match findPool size with
      | some i => if s.mm.chunkFreeList i = 0 then some 0 else none
      | none => some (sizeToOrder size)
  | _ => none

/-- The call takes a block, and the pointer to it is null. -/
def Loses (s : Sys) (c : Call) : Prop :=
  ∃ order ∈ wants s c, ∃ idx ∈ firstFit s.mm order, k.toPtr (s.mm.frameAddr idx) = 0

instance (s : Sys) (c : Call) : Decidable (Loses k s c) := by unfold Loses; infer_instance

section FirstFit
variable {st : MmState} {fl : ℕ → List ℕ} {idx order current : ℕ}

theorem firstFit_eq (h : FreeArea st fl) (hf : FirstFit fl order idx current) :
    firstFit st order = some idx := by
  obtain ⟨d, rfl⟩ := Nat.exists_eq_add_of_le hf.order_le
  have hle := hf.le_max
  have hsplit : List.range' order (maxOrder + 1 - order) =
      List.range' order d ++ (order + d) :: List.range' (order + d + 1) (maxOrder - (order + d)) := by
    rw [show maxOrder + 1 - order = d + (maxOrder - (order + d) + 1) by omega,
      ← List.range'_append_1, List.range'_succ]
  have hlow : (List.range' order d).findSome? (fun o => (st.freeList o).head?) = none := by
    refine List.findSome?_eq_none_iff.2 fun o ho => ?_
    obtain ⟨h1, h2⟩ := List.mem_range'_1.1 ho
    rw [h.freeList_eq (by omega), hf.below o h1 h2]
    rfl
  rw [firstFit, hsplit, List.findSome?_append, hlow, Option.none_or, List.findSome?_cons,
    h.freeList_eq hle, hf.head]

theorem firstFit_none (h : FreeArea st fl) (hf : ∀ blk ∈ blocks fl, blk.order < order) :
    firstFit st order = none := by
  refine List.findSome?_eq_none_iff.2 fun o ho => ?_
  obtain ⟨h1, h2⟩ := List.mem_range'_1.1 ho
  have hle : o ≤ maxOrder := by omega
  rw [h.freeList_eq hle]
  cases hl : fl o with
  | nil => rfl
  | cons i l =>
    have := hf ⟨i, o⟩ ⟨hle, by dsimp only; rw [hl]; exact List.mem_cons_self⟩
    exact absurd h1 (not_le.2 this)

end FirstFit

/-! ### What the calls keep -/

/-- The pointer leads to the extent, which is as long as the caller wanted. -/
structure Stands (st0 : MmState) (l : Live) : Prop where
  ptr : l.ptr = ptrAt k st0 l.extent.offset
  requested_le : l.requested ≤ l.extent.length
  pages : l.api = .pages → ∃ blk, l.extent = .pages blk

/-- The frames `F0` are shared out, in the managed range that `st0` has too. -/
structure Inv (F0 : Set ℕ) (st0 : MmState) (s : Sys) : Prop where
  place : SamePlace st0 s.mm
  shared : ∃ fl cp cl, Shared k F0 s.mm fl cp cl (s.live.map Live.extent)
  stands : ∀ l ∈ s.live, Stands k st0 l

/-- `Inv`, with the pages that were cut into chunks. -/
structure InvAt (F0 : Set ℕ) (st0 : MmState) (s : Sys) (cp : List (ℕ × Fin 8)) : Prop where
  place : SamePlace st0 s.mm
  shared : ∃ fl cl, Shared k F0 s.mm fl cp cl (s.live.map Live.extent)
  stands : ∀ l ∈ s.live, Stands k st0 l

variable {k}

section Step
variable {F0 : Set ℕ} {st0 : MmState} {s s' : Sys} {l : Live} {mm : MmState} {fl : ℕ → List ℕ}
  {cp cp' : List (ℕ × Fin 8)} {cl : Fin 8 → List ℕ} {order : ℕ} {p : Word} {size : Word}

theorem Inv.exists_at (h : Inv k F0 st0 s) : ∃ cp, InvAt k F0 st0 s cp := by
  obtain ⟨fl, cp, cl, hh⟩ := h.shared
  exact ⟨cp, h.place, ⟨fl, cl, hh⟩, h.stands⟩

theorem InvAt.inv (h : InvAt k F0 st0 s cp) : Inv k F0 st0 s := by
  obtain ⟨fl, cl, hh⟩ := h.shared
  exact ⟨h.place, ⟨fl, cp, cl, hh⟩, h.stands⟩

theorem Inv.ptr_eq (h : Inv k F0 st0 s) (n : ℕ) : ptrAt k s.mm n = ptrAt k st0 n :=
  ptrAt_congr h.place.managedBase

theorem ptr_ne_of_firstFit {st : MmState} {idx current : ℕ} (h : FreeArea st fl)
    (hf : FirstFit fl order idx current)
    (hn : ∀ idx ∈ firstFit st order, k.toPtr (st.frameAddr idx) ≠ 0) : ptrAt k st (idx * 4096) ≠ 0 :=
  hn idx (by rw [firstFit_eq h hf]; rfl)

theorem give_ne_zero (s : Sys) (mm : MmState) (h : l.ptr ≠ 0) : give s mm l = ⟨mm, l :: s.live⟩ := by
  rw [give, if_neg h]

theorem give_zero (s : Sys) (h : l.ptr = 0) : give s s.mm l = s := by
  rw [give, if_pos h]

theorem InvAt.giveNone (h : InvAt k F0 st0 s cp) (hl : l.ptr = 0) :
    InvAt k F0 st0 (give s s.mm l) cp := by
  rwa [give_zero s hl]

theorem InvAt.give (h : InvAt k F0 st0 s cp) (hs : SamePlace s.mm mm)
    (hshared : Shared k F0 mm fl cp' cl (l.extent :: s.live.map Live.extent))
    (hl : Stands k st0 l) : InvAt k F0 st0 (give s mm l) cp' := by
  have hplace := SamePlace.trans h.place hs
  have hne : l.ptr ≠ 0 := by
    rw [hl.ptr, ← ptrAt_congr hplace.managedBase]
    exact hshared.offset_ne (.inl List.mem_cons_self)
  rw [give_ne_zero s mm hne]
  exact ⟨hplace, ⟨fl, cl, hshared⟩, List.forall_mem_cons.2 ⟨hl, h.stands⟩⟩

theorem pageExtent_eq {fl : ℕ → List ℕ} {live : List Extent} {idx : ℕ}
    (h : Shared k F0 mm fl cp cl (.pages ⟨idx, order⟩ :: live)) :
    pageExtent k mm order (ptrAt k mm (idx * 4096)) = .pages ⟨idx, order⟩ := by
  have hlt : idx * 4096 < mm.managedSize.toNat :=
    h.has_lt (.inl List.mem_cons_self) (Extent.has_offset _)
  rw [pageExtent, h.translates.toPhys _ hlt, addrToFrameIndex_offset h.holding.managed hlt,
    Nat.mul_div_cancel idx (by decide)]

theorem byteExtent_chunk {live : List Extent} {i : Fin 8} {n : ℕ}
    (h : Shared k F0 mm fl cp cl (.chunk i n :: live)) (hi : findPool size = some i) :
    byteExtent k mm size (ptrAt k mm n) = .chunk i n := by
  have hlt : n < mm.managedSize.toNat := h.has_lt (.inl List.mem_cons_self) (Extent.has_offset _)
  have := mm.managedSize.isLt
  unfold byteExtent
  rw [hi]
  dsimp only
  rw [h.translates.toPhys n hlt, BitVec.add_comm, BitVec.add_sub_cancel, BitVec.toNat_ofNat,
    Nat.mod_eq_of_lt (by omega)]

/-- **`alloc_pages` of a caller**, from either function. -/
theorem InvAt.givePages (h : InvAt k F0 st0 s cp)
    (hh : Shared k F0 s.mm fl cp cl (s.live.map Live.extent))
    (ht : PagesTaken k F0 s.mm fl cp cl (s.live.map Live.extent) order p mm)
    (hn : ∀ idx ∈ firstFit s.mm order, k.toPtr (s.mm.frameAddr idx) ≠ 0) {l : Live}
    (hp : l.ptr = p) (he : l.extent = pageExtent k mm order p)
    (hreq : l.requested ≤ 2 ^ order * 4096) : InvAt k F0 st0 (Callers.give s mm l) cp := by
  cases ht with
  | failed => exact h.giveNone hp
  | @taken _ fl' idx current first ha free left area changed same shared =>
    have h2 := shared (ptr_ne_of_firstFit hh.holding.coalesced.area first hn)
    have hptr : ptrAt k s.mm (idx * 4096) = ptrAt k mm (idx * 4096) :=
      (ptrAt_congr same.managedBase).symm
    rw [hptr, pageExtent_eq h2] at he
    refine h.give (SameRange.place same) (he ▸ h2) ⟨?_, ?_, fun _ => ⟨_, he⟩⟩
    · rw [hp, he, h.inv.ptr_eq]
      rfl
    · rw [he]
      exact hreq

theorem pagesTaken_zero {live : List Extent} {st : MmState} (h : Shared k F0 st fl cp cl live)
    (ht : PagesTaken k F0 st fl cp cl live order 0 mm)
    (hn : ∀ idx ∈ firstFit st order, k.toPtr (st.frameAddr idx) ≠ 0) : mm = st := by
  generalize hp : (0 : Word) = p at ht
  cases ht with
  | failed => rfl
  | taken first ha free left area changed same shared =>
    exact absurd hp.symm (ptr_ne_of_firstFit h.holding.coalesced.area first hn)

theorem InvAt.giveChunk {i : Fin 8} (h : InvAt k F0 st0 s cp)
    (hh : Shared k F0 s.mm fl cp cl (s.live.map Live.extent))
    (ht : ChunkMoved k F0 s.mm fl cp cl (s.live.map Live.extent) i p mm)
    (hpool : findPool size = some i) (hfits : size.toNat ≤ chunkSize i)
    (hn : cl i = [] → ∀ idx ∈ firstFit s.mm 0, k.toPtr (s.mm.frameAddr idx) ≠ 0) :
    ∃ cp', InvAt k F0 st0
        (Callers.give s mm ⟨p, byteExtent k mm size p, size.toNat, .bytes⟩) cp' ∧
      (Tagged s.mm cp → Tagged mm cp') := by
  have hget : ∀ {n fl' cp' cl'}, SamePlace s.mm mm → p = ptrAt k s.mm n →
      Shared k F0 mm fl' cp' cl' (.chunk i n :: s.live.map Live.extent) →
      InvAt k F0 st0 (Callers.give s mm ⟨p, byteExtent k mm size p, size.toNat, .bytes⟩) cp' := by
    intro n fl' cp' cl' hplace hp h3
    rw [hp, ← ptrAt_congr hplace.managedBase, byteExtent_chunk h3 hpool]
    refine h.give hplace h3 ⟨?_, hfits, fun hapi => ?_⟩
    · rw [ptrAt_congr hplace.managedBase, h.inv.ptr_eq]
      rfl
    · cases hapi
  cases ht with
  | first list same shared =>
    exact ⟨cp, hget (SameFrames.place same) rfl shared, fun ht => ht.untag (.of_eq same.frameArray)⟩
  | @refilled page st1 _ idx n l fl' list alloc taken page_ne free left chunks frames shared same =>
    refine ⟨_, hget same rfl shared, fun ht => ?_⟩
    have hcut := (ht.untag (untags_allocPages alloc)).cut idx i (poolSizes i)
    exact hcut.untag (.of_eq frames)
  | empty list page =>
    obtain rfl := pagesTaken_zero hh page (hn list)
    exact ⟨cp, h.giveNone rfl, id⟩

/-- **The one who holds a pointer** gives its extent back. -/
theorem Inv.take (h : Inv k F0 st0 s) {api : Api} (hl : s.holder p api = some l) :
    l ∈ s.live ∧ l.ptr = p ∧ l.api = api ∧ p = ptrAt k s.mm l.extent.offset ∧
      (s.live.map Live.extent).Perm (l.extent :: (s.live.erase l).map Live.extent) := by
  have hm := List.mem_of_find?_eq_some hl
  have hp : l.ptr = p ∧ l.api = api := by simpa using List.find?_some hl
  refine ⟨hm, hp.1, hp.2, ?_, (List.perm_cons_erase hm).map Live.extent⟩
  rw [← hp.1, (h.stands l hm).ptr, h.ptr_eq]

theorem Inv.holder_eq (h : Inv k F0 st0 s) (hl : l ∈ s.live) : s.holder l.ptr l.api = some l := by
  obtain ⟨fl, cp, cl, hh⟩ := h.shared
  obtain ⟨l', hl'⟩ : ∃ l', s.holder l.ptr l.api = some l' :=
    Option.isSome_iff_exists.1 (List.find?_isSome.2 ⟨l, hl, by simp⟩)
  obtain ⟨hm, -, -, hptr, -⟩ := h.take hl'
  have howner : ∀ {l}, l ∈ s.live → Owner cl (s.live.map Live.extent) l.extent :=
    fun hl => .inl (List.mem_map.2 ⟨_, hl, rfl⟩)
  have hlt := hh.has_lt (howner hl) (Extent.has_offset _)
  have hlt' := hh.has_lt (howner hm) (Extent.has_offset _)
  have hsize := s.mm.managedSize.isLt
  have hoff : l.extent.offset = l'.extent.offset := by
    refine hh.translates.inj (by omega) (by omega) ?_
    rw [← hptr, h.ptr_eq, ← (h.stands l hl).ptr]
  have hext : l.extent = l'.extent :=
    hh.eq_of_has (howner hl) (howner hm) (Extent.has_offset _) (hoff ▸ Extent.has_offset _)
  rw [hl', List.inj_on_of_nodup_map hh.live_nodup hl hm hext]

theorem InvAt.drop (h : InvAt k F0 st0 s cp) (hs : SamePlace s.mm mm)
    (hshared : Shared k F0 mm fl cp cl ((s.live.erase l).map Live.extent)) :
    InvAt k F0 st0 ⟨mm, s.live.erase l⟩ cp :=
  ⟨SamePlace.trans h.place hs, ⟨fl, cl, hshared⟩,
    fun l' hl' => h.stands l' (List.mem_of_mem_erase hl')⟩

theorem allocate_small {st : MmState} (h0 : size ≠ 0) (hle : size ≤ 2048) :
    allocate k size st = allocChunk k size st := by
  rw [allocate, if_neg h0, if_neg (BitVec.not_lt.2 (BitVec.le_trans hle (by decide))), if_pos hle]

/-- **One call** that loses no block keeps the frames shared out, and the frames that have a pool are
the pages that were cut up. -/
theorem InvAt.step {c : Call} (h : InvAt k F0 st0 s cp) (hc : ¬ Loses k s c)
    (hs : step k s c = some s') :
    ∃ cp', InvAt k F0 st0 s' cp' ∧ (Tagged s.mm cp → Tagged s'.mm cp') := by
  obtain ⟨fl, cl, hh⟩ := h.shared
  have hlose : ∀ order ∈ wants s c, ∀ idx ∈ firstFit s.mm order, k.toPtr (s.mm.frameAddr idx) ≠ 0 :=
    fun order ho idx hi h0 => hc ⟨order, ho, idx, hi, h0⟩
  cases c with
  | allocPages order =>
    obtain ⟨p, mm, h1, h2⟩ := hh.allocPages order
    rw [Callers.step, h1, Option.map_some, Option.some.injEq] at hs
    subst hs
    exact ⟨cp, h.givePages hh h2 (hlose order rfl) rfl rfl le_rfl,
      fun ht => ht.untag (untags_allocPages h1)⟩
  | freePages p =>
    obtain ⟨l, hl, hs⟩ := Option.bind_eq_some_iff.1 hs
    obtain ⟨mm, hmm, rfl⟩ := Option.map_eq_some_iff.1 hs
    obtain ⟨hm, hp, hapi, hptr, hperm⟩ := h.inv.take hl
    obtain ⟨blk, hblk⟩ := (h.stands l hm).pages hapi
    rw [hblk] at hptr hperm
    obtain ⟨st', fl', h1, same, h2⟩ := (hh.perm hperm).freePages
    refine ⟨cp, ?_, fun ht => ht.untag (untags_freePages hmm)⟩
    rw [hptr] at hmm
    obtain rfl := Option.some.inj (hmm.symm.trans h1)
    exact h.drop (SameRange.place same) h2
  | allocate size =>
    obtain ⟨⟨p, mm⟩, h1, rfl⟩ := Option.map_eq_some_iff.1 hs
    cases hh.allocate h1 with
    | refused => exact ⟨cp, h.giveNone rfl, id⟩
    | @pages _ _ gt le pool fits taken =>
      have h0 : size ≠ 0 := fun h0 => gt (h0 ▸ by decide)
      have hwants : wants s (.allocate size) = some (sizeToOrder size) := by
        rw [wants, if_neg (not_or.2 ⟨h0, le⟩), pool]
      rw [allocate, if_neg h0, if_neg le, if_neg gt] at h1
      refine ⟨cp, h.givePages hh taken (hlose _ (by rw [hwants]; rfl)) rfl ?_ fits,
        fun ht => ht.untag (untags_allocPages h1)⟩
      change byteExtent k mm size p = _
      unfold byteExtent
      rw [pool]
    | @chunk i _ _ size_ne le pool fits taken =>
      rw [allocate_small size_ne le] at h1
      have moved := hh.allocChunk_moved pool h1
      refine h.giveChunk hh moved pool fits fun list => hlose 0 ?_
      have hmax : ¬ maxAllocSize < size := BitVec.not_lt.2 (BitVec.le_trans le (by decide))
      rw [wants, if_neg (not_or.2 ⟨size_ne, hmax⟩), pool]
      exact if_pos ((hh.lists.head_eq i).2 list)
  | free p =>
    obtain ⟨l, hl, hs⟩ := Option.bind_eq_some_iff.1 hs
    obtain ⟨mm, hmm, rfl⟩ := Option.map_eq_some_iff.1 hs
    obtain ⟨hm, hp, hapi, hptr, hperm⟩ := h.inv.take hl
    rw [hptr] at hmm
    cases he : l.extent with
    | pages blk =>
      rw [he] at hptr hperm hmm
      have hh' := hh.perm hperm
      obtain ⟨st', fl', h1, same, h2⟩ := hh'.freePages
      rw [show (Extent.pages blk).offset = blk.index * 4096 from rfl, hh'.freeLarge] at hmm
      refine ⟨cp, ?_, fun ht => ht.untag (untags_freePages hmm)⟩
      obtain rfl := Option.some.inj (hmm.symm.trans h1)
      exact h.drop (SameRange.place same) h2
    | chunk i n =>
      rw [he] at hptr hperm hmm
      have hh' := hh.perm hperm
      rw [show (Extent.chunk i n).offset = n from rfl, hh'.freeChunk] at hmm
      obtain rfl := Option.some.inj hmm
      exact ⟨cp, h.drop (SameFrames.place (sameFrames_push ..)) hh'.push,
        fun ht => ht.untag (.of_eq rfl)⟩
  | write addr v =>
    rw [Callers.step] at hs
    split at hs
    next hany =>
      obtain rfl := Option.some.inj hs
      obtain ⟨l, hl, hlt⟩ := List.any_eq_true.1 hany.2
      have hlt := of_decide_eq_true hlt
      have hx : addr = ptrAt k s.mm (l.extent.offset + (addr - l.ptr).toNat) := by
        rw [← hh.translates.add, h.inv.ptr_eq, ← (h.stands l hl).ptr, BitVec.ofNat_toNat,
          BitVec.setWidth_eq, BitVec.add_comm, BitVec.sub_add_cancel]
      refine ⟨cp, ⟨SamePlace.trans h.place ⟨rfl, rfl, rfl, rfl, rfl⟩, ⟨fl, cl, ?_⟩, h.stands⟩,
        fun ht => ht.untag (.of_eq rfl)⟩
      rw [hx]
      exact hh.write (List.mem_map.2 ⟨l, hl, rfl⟩) ⟨Nat.le_add_right _ _, Nat.add_lt_add_left hlt _⟩ v
    next => cases hs

/-- **One call** that loses no block keeps the frames shared out. -/
theorem Inv.step {c : Call} (h : Inv k F0 st0 s) (hc : ¬ Loses k s c) (hs : step k s c = some s') :
    Inv k F0 st0 s' := by
  obtain ⟨cp, hat⟩ := h.exists_at
  obtain ⟨cp', hat', -⟩ := hat.step hc hs
  exact hat'.inv

/-- **A run** whose calls lose no block keeps the frames shared out. -/
theorem Inv.run {cs : List Call} (h : Inv k F0 st0 s)
    (hr : Run (Callers.step k) (fun s c => ¬ Loses k s c) s cs s') : Inv k F0 st0 s' :=
  hr.invariant (fun _ _ _ hi hc hs => hi.step hc hs) h

/-- **At the start** nothing is held, and no page is cut up. -/
theorem invAt_init {st : MmState} {F : Set ℕ} (hc : Coalesced st fl F) (hm : Managed st)
    (hl : st.chunkFreeList = fun _ => 0) (ht : Translates k st) :
    InvAt k (region st.freeBlocks) st ⟨st, []⟩ [] := by
  have hreg : ∀ f, f ∈ region st.freeBlocks ↔ f ∈ F := by
    rw [hc.area.freeBlocks_eq]
    exact hc.region
  have hholding : Holding (region st.freeBlocks) st fl [] :=
    ⟨hm, fun f hf => hc.lt ((hreg f).1 hf), hc.congr fun f => by simp [hreg], by simp, by simp,
      by simp, by simp, List.Pairwise.nil⟩
  have hlists : ChunkLists k st fun _ => [] := fun i => by
    rw [hl]
    exact if_pos rfl
  exact ⟨.refl st, ⟨fl, fun _ => [], ht, hholding, by simp [heldBlocks], by simp, by simp, hlists,
    by simp, by simp, by simp, by simp, by simp⟩, by simp⟩

theorem inv_init {st : MmState} {F : Set ℕ} (hc : Coalesced st fl F) (hm : Managed st)
    (hl : st.chunkFreeList = fun _ => 0) (ht : Translates k st) :
    Inv k (region st.freeBlocks) st ⟨st, []⟩ :=
  (invAt_init hc hm hl ht).inv

theorem Inv.not_loses {c : Call} (h : Inv k F0 st0 s)
    (hn : ∀ n < st0.managedSize.toNat, ptrAt k st0 n ≠ 0) : ¬ Loses k s c := by
  rintro ⟨order, -, idx, hi, h0⟩
  obtain ⟨fl, cp, cl, hh⟩ := h.shared
  -- the block is a free one, and so it lies in the managed range
  obtain ⟨o, ho, hhead⟩ := List.exists_of_findSome?_eq_some hi
  have hle : o ≤ maxOrder := by
    have := List.mem_range'_1.1 ho
    omega
  have harea := hh.holding.coalesced.area
  rw [harea.freeList_eq hle] at hhead
  have hlt := harea.index_lt hle (List.mem_of_mem_head? hhead)
  rw [← ptrAt_page, h.ptr_eq] at h0
  refine hn (idx * 4096) ?_ h0
  rw [← h.place.managedSize, hh.holding.managed.size]
  omega

/-- What is held is given back by its function. -/
def giveBack (l : Live) : Call :=
  match l.api with
  | .pages => .freePages l.ptr
  | .bytes => .free l.ptr

/-- **The calls succeed**; `allocate` does where the managed range is mapped. -/
theorem Inv.progress (h : Inv k F0 st0 s) : (∀ order, (Callers.step k s (.allocPages order)).isSome) ∧
    ((∀ n < st0.managedSize.toNat, k.mapped (ptrAt k st0 n)) →
      ∀ size, (Callers.step k s (.allocate size)).isSome) ∧
    ∀ l ∈ s.live, (Callers.step k s (giveBack l)).isSome := by
  obtain ⟨fl, cp, cl, hh⟩ := h.shared
  refine ⟨fun order => ?_, fun hmap size => ?_, fun l hl => ?_⟩
  · obtain ⟨p, mm, h1, -⟩ := hh.allocPages order
    rw [Callers.step, h1]
    rfl
  · rw [Callers.step, Option.isSome_map]
    refine hh.allocate_isSome size fun n hn => ?_
    rw [h.ptr_eq]
    exact hmap n (h.place.managedSize ▸ hn)
  · have hl' := h.holder_eq hl
    obtain ⟨hm, -, hapi, hptr, hperm⟩ := h.take hl'
    unfold giveBack
    cases ha : l.api with
    | pages =>
      rw [ha] at hl' hapi
      obtain ⟨blk, hblk⟩ := (h.stands l hm).pages ha
      rw [hblk] at hptr hperm
      obtain ⟨st', fl', h1, -⟩ := (hh.perm hperm).freePages
      dsimp only
      rw [Callers.step, hl', Option.bind_some, hptr, Option.isSome_map,
        show (Extent.pages blk).offset = blk.index * 4096 from rfl, h1]
      rfl
    | bytes =>
      rw [ha] at hl'
      dsimp only
      rw [Callers.step, hl', Option.bind_some, hptr, Option.isSome_map]
      cases he : l.extent with
      | pages blk =>
        rw [he] at hperm
        have hh' := hh.perm hperm
        obtain ⟨st', fl', h1, -⟩ := hh'.freePages
        rw [show (Extent.pages blk).offset = blk.index * 4096 from rfl, hh'.freeLarge, h1]
        rfl
      | chunk i n =>
        rw [he] at hperm
        rw [show (Extent.chunk i n).offset = n from rfl, (hh.perm hperm).freeChunk]
        rfl

end Step

end OscKernel.Mm.Callers
