import OscKernel.Lib.NodePool
import OscKernel.Mm.Held
import Mathlib.Data.Fin.VecNotation

/-! # The chunk allocator

Requests of up to 2048 bytes are served from pools of chunks. A pool gets a page when it is empty and
cuts it up; a free chunk holds the pointer to the next one in its first bytes.

* `allocate`, `free`: the functions, for lab5 and lab6 alike. They fault at a chunk that no page table
  leads to.
* `Translates`: what the pointers have in common.
* `ChunkLists.push`, `ChunkLists.pop`, `chunkLoop_spec`: what becomes of the lists. -/

namespace OscKernel.Mm.Chunks

open OscKernel.Lib.Memory OscKernel.Lib.Dyadic OscKernel.Lib.NodePool OscKernel.Vm.Tables
  OscKernel.Mm.Frames OscKernel.Mm.Reserve OscKernel.Mm.Pages OscKernel.Mm.Held

/-! ### The functions -/

/-- `pool_sizes`. -/
def poolSizes : Fin 8 → Word := ![16, 32, 64, 128, 256, 512, 1024, 2048]

/-- `MAX_ALLOC_SIZE`. -/
def maxAllocSize : Word := 4096 * (1 <<< maxOrder)

/-- `find_pool`. -/
def findPool (size : Word) : Option (Fin 8) :=
  (List.finRange 8).find? fun i => size ≤ poolSizes i

/-- The loop of `size_to_order`. -/
def sizeToOrderLoop (pages : Word) : ℕ → Word → ℕ → ℕ
  | 0, _, order => order
  | fuel + 1, n, order =>
    if n < pages then sizeToOrderLoop pages fuel (n <<< 1) (order + 1) else order

/-- `size_to_order`. -/
def sizeToOrder (size : Word) : ℕ := sizeToOrderLoop ((size + 4095) >>> 12) 63 1 0

/-- What `push_chunk` leaves. -/
def pushed (pool : Fin 8) (ptr : Word) (st : MmState) : MmState :=
  { st with
    mem := store st.mem ptr (st.chunkFreeList pool)
    chunkFreeList := Function.update st.chunkFreeList pool ptr }

variable (k : Pointers)

/-- `push_chunk`. The pointer to a chunk is aligned, so that its first byte tells whether the store
faults. -/
def pushChunk (pool : Fin 8) (ptr : Word) (st : MmState) : Option MmState :=
  if k.mapped ptr then some (pushed pool ptr st) else none

/-- `pop_chunk`. -/
def popChunk (pool : Fin 8) (st : MmState) : Option (Word × MmState) :=
  let ptr := st.chunkFreeList pool
  if ptr ≠ 0 then
    if k.mapped ptr then
      some (ptr, { st with
        chunkFreeList := Function.update st.chunkFreeList pool (load st.mem ptr) })
    else none
  else some (ptr, st)

/-- The loop of `refill_chunk_pool` that cuts the page. -/
def chunkLoop (pool : Fin 8) (pageAddr : Word) : ℕ → ℕ → MmState → Option MmState
  | 0, _, _ => none
  | fuel + 1, off, st =>
    if off + (poolSizes pool).toNat ≤ 4096 then
      (pushChunk k pool (pageAddr + BitVec.ofNat 64 off) st).bind fun st =>
        chunkLoop pool pageAddr fuel (off + (poolSizes pool).toNat) st
    else some st

/-- `refill_chunk_pool`. The metadata of the page is in `frame_array` if the pointer leads back to the
managed range. -/
def refillChunkPool (pool : Fin 8) (st : MmState) : Option MmState :=
  (allocPages k 0 st).bind fun (pageAddr, st) =>
    if pageAddr = 0 then some st
    else
      let pageIdx := st.addrToFrameIndex (k.toPhys pageAddr)
      if st.frameCount ≤ pageIdx then none
      else
        chunkLoop k pool pageAddr 4097 0
          (st.setPage pageIdx fun p => { p with chunkSize := poolSizes pool, chunkPool := pool })

/-- `alloc_chunk`. -/
def allocChunk (size : Word) (st : MmState) : Option (Word × MmState) :=
  match findPool size with
  | none => some (0, st)
  | some pool =>
    (if st.chunkFreeList pool = 0 then refillChunkPool k pool st else some st).bind (popChunk k pool)

/-- `free_chunk`, for the pool that the metadata of the page names. -/
def freeChunk (ptr : Word) (pool : ℤ) (st : MmState) : Option MmState :=
  if h : 0 ≤ pool ∧ pool < 8 then pushChunk k ⟨pool.toNat, by omega⟩ ptr st else none

/-- `allocate`. -/
def allocate (size : Word) (st : MmState) : Option (Word × MmState) :=
  if size = 0 then some (0, st)
  else if maxAllocSize < size then some (0, st)
  else if size ≤ 2048 then allocChunk k size st
  else allocPages k (sizeToOrder size) st

/-- `free`. -/
def free (ptr : Word) (st : MmState) : Option MmState :=
  if ptr = 0 then some st
  else
    let pa := k.toPhys ptr
    if ¬ st.addrInManagedRange pa then some st
    else
      let page := st.frameArray (st.addrToFrameIndex pa)
      if page.chunkSize ≠ 0 then freeChunk k ptr page.chunkPool st else freePages k ptr st

/-! ### Sizes -/

/-- The size of the chunks of a pool. -/
def chunkSize (i : Fin 8) : ℕ := 2 ^ (i.1 + 4)

theorem poolSizes_toNat (i : Fin 8) : (poolSizes i).toNat = chunkSize i := by
  revert i
  decide

theorem chunkSize_pos (i : Fin 8) : 16 ≤ chunkSize i := by
  revert i
  decide

theorem chunkSize_le (i : Fin 8) : chunkSize i ≤ 2048 := by
  revert i
  decide

/-- **`find_pool`** finds the least pool that fits. -/
theorem findPool_spec {size : Word} (h : size ≤ 2048) :
    ∃ i, findPool size = some i ∧ size.toNat ≤ chunkSize i := by
  cases hi : findPool size with
  | none =>
    have hn := List.find?_eq_none.1 hi 7 (List.mem_finRange 7)
    exact absurd (decide_eq_true h) hn
  | some i =>
    have hle : size ≤ poolSizes i := by simpa using List.find?_some hi
    exact ⟨i, rfl, (poolSizes_toNat i) ▸ BitVec.le_def.1 hle⟩

theorem findPool_none {size : Word} (h : ¬ size ≤ 2048) : findPool size = none := by
  refine List.find?_eq_none.2 fun i _ hi => h (BitVec.le_trans (of_decide_eq_true hi) ?_)
  rw [BitVec.le_def, poolSizes_toNat]
  exact chunkSize_le i

/-- The loop of `size_to_order` ends with the least power of two that is large enough. -/
theorem sizeToOrderLoop_spec (pages : Word) (fuel order : ℕ) (hp : pages.toNat ≤ 2 ^ (order + fuel))
    (hf : order + fuel ≤ 63) (hlow : ∀ j < order, 2 ^ j < pages.toNat) :
    pages.toNat ≤ 2 ^ sizeToOrderLoop pages fuel (BitVec.ofNat 64 (2 ^ order)) order ∧
      ∀ j < sizeToOrderLoop pages fuel (BitVec.ofNat 64 (2 ^ order)) order, 2 ^ j < pages.toNat := by
  induction fuel generalizing order with
  | zero => exact ⟨hp, hlow⟩
  | succ fuel ih =>
    have hlt : 2 ^ order < 2 ^ 64 := Nat.pow_lt_pow_right (by omega) (by omega)
    unfold sizeToOrderLoop
    by_cases hn : BitVec.ofNat 64 (2 ^ order) < pages
    · have hn' : 2 ^ order < pages.toNat := by
        rwa [BitVec.lt_def, BitVec.toNat_ofNat, Nat.mod_eq_of_lt hlt] at hn
      have hshift : BitVec.ofNat 64 (2 ^ order) <<< 1 = BitVec.ofNat 64 (2 ^ (order + 1)) := by
        refine BitVec.eq_of_toNat_eq ?_
        rw [BitVec.toNat_shiftLeft, BitVec.toNat_ofNat, BitVec.toNat_ofNat, Nat.mod_eq_of_lt hlt,
          Nat.shiftLeft_eq, pow_one, ← pow_succ]
      rw [if_pos hn, hshift]
      refine ih (order + 1) (by rwa [Nat.add_assoc, Nat.add_comm 1]) (by omega) fun j hj => ?_
      rcases Nat.lt_succ_iff_lt_or_eq.1 hj with hj | rfl
      · exact hlow j hj
      · exact hn'
    · rw [if_neg hn]
      rw [BitVec.lt_def, BitVec.toNat_ofNat, Nat.mod_eq_of_lt hlt, not_lt] at hn
      exact ⟨hn, hlow⟩

/-- **`size_to_order`** gives the least order whose blocks are large enough. -/
theorem sizeToOrder_spec {size : Word} (h : size ≤ maxAllocSize) :
    sizeToOrder size ≤ maxOrder ∧ size.toNat ≤ 2 ^ sizeToOrder size * 4096 ∧
      ∀ j < sizeToOrder size, 2 ^ j * 4096 < size.toNat := by
  have hs : size.toNat ≤ 2 ^ 24 := BitVec.le_def.1 h
  have hp : ((size + 4095) >>> 12).toNat = (size.toNat + 4095) / 4096 := by
    have h1 : (size + 4095).toNat = size.toNat + 4095 := by bv_omega
    rw [BitVec.toNat_ushiftRight, h1, Nat.shiftRight_eq_div_pow]
  obtain ⟨h1, h2⟩ := sizeToOrderLoop_spec ((size + 4095) >>> 12) 63 0
    (by rw [hp]; omega) (by omega) fun j hj => absurd hj (Nat.not_lt_zero j)
  change _ ≤ 2 ^ sizeToOrder size at h1
  change ∀ j < sizeToOrder size, _ at h2
  rw [hp] at h1
  refine ⟨?_, by omega, fun j hj => ?_⟩
  · by_contra hgt
    have := h2 maxOrder (not_le.1 hgt)
    rw [hp, maxOrder] at this
    omega
  · have := h2 j hj
    rw [hp] at this
    omega

/-! ### Pointers into the managed range -/

/-- The pointer to the byte at an offset from `managed_base`. -/
def ptrAt (k : Pointers) (st : MmState) (n : ℕ) : Word := k.toPtr (st.managedBase + BitVec.ofNat 64 n)

/-- The pointers into the managed range lead back to their physical addresses, and only the first one
can be null. -/
structure Translates (k : Pointers) (st : MmState) : Prop where
  shift : ∃ c, ∀ a, k.toPtr a = a + c
  toPhys : ∀ n < st.managedSize.toNat,
    k.toPhys (ptrAt k st n) = st.managedBase + BitVec.ofNat 64 n
  null : ∀ n < st.managedSize.toNat, ptrAt k st n = 0 → n = 0

section Pointers
variable {k : Pointers} {st st' : MmState} {n m : ℕ}

theorem ptrAt_congr (hb : st'.managedBase = st.managedBase) : ptrAt k st' n = ptrAt k st n := by
  rw [ptrAt, ptrAt, hb]

theorem ptrAt_page (idx : ℕ) : ptrAt k st (idx * 4096) = k.toPtr (st.frameAddr idx) := rfl

theorem Translates.congr (h : Translates k st) (hb : st'.managedBase = st.managedBase)
    (hs : st'.managedSize = st.managedSize) : Translates k st' := by
  refine ⟨h.shift, fun n hn => ?_, fun n hn => ?_⟩
  · rw [hs] at hn
    rw [ptrAt_congr hb, hb]
    exact h.toPhys n hn
  · rw [hs] at hn
    rw [ptrAt_congr hb]
    exact h.null n hn

theorem Translates.add (h : Translates k st) (n m : ℕ) :
    ptrAt k st n + BitVec.ofNat 64 m = ptrAt k st (n + m) := by
  obtain ⟨c, hc⟩ := h.shift
  rw [ptrAt, ptrAt, hc, hc, BitVec.ofNat_add, BitVec.add_assoc, BitVec.add_assoc, BitVec.add_assoc,
    BitVec.add_comm c, BitVec.add_assoc (BitVec.ofNat 64 n)]

/-- The pointers are as far apart as the offsets. -/
theorem Translates.sub (h : Translates k st) (hle : m ≤ n) (hn : n < 2 ^ 64) :
    (ptrAt k st n - ptrAt k st m).toNat = n - m := by
  obtain ⟨d, rfl⟩ := Nat.exists_eq_add_of_le hle
  rw [← h.add m d, BitVec.add_comm, BitVec.add_sub_cancel, BitVec.toNat_ofNat,
    Nat.mod_eq_of_lt (by omega), Nat.add_sub_cancel_left]

theorem Translates.sub_of_lt (h : Translates k st) (hlt : n < m) (hm : m < 2 ^ 64) :
    (ptrAt k st n - ptrAt k st m).toNat = 2 ^ 64 - (m - n) := by
  have h1 := h.sub hlt.le hm
  have h2 : ptrAt k st n - ptrAt k st m = -(ptrAt k st m - ptrAt k st n) := by
    rw [BitVec.neg_sub, BitVec.add_comm, ← BitVec.sub_eq_add_neg]
  rw [h2, BitVec.toNat_neg, h1, Nat.mod_eq_of_lt (by omega)]

theorem Translates.inj (h : Translates k st) (hn : n < 2 ^ 64) (hm : m < 2 ^ 64)
    (he : ptrAt k st n = ptrAt k st m) : n = m := by
  have hz : (ptrAt k st n - ptrAt k st m).toNat = 0 := by
    rw [he, BitVec.sub_self]
    rfl
  rcases Nat.lt_or_ge n m with hlt | hge
  · rw [h.sub_of_lt hlt hm] at hz
    omega
  · rw [h.sub hge hn] at hz
    omega

/-- Two offsets whose doublewords have no byte in common. -/
def Apart (n m : ℕ) : Prop := n + 8 ≤ m ∨ m + 8 ≤ n

theorem Translates.apart (h : Translates k st) (ha : Apart n m) (hn : n + 8 ≤ 2 ^ 64)
    (hm : m + 8 ≤ 2 ^ 64) :
    8 ≤ (ptrAt k st n - ptrAt k st m).toNat ∧ 8 ≤ (ptrAt k st m - ptrAt k st n).toNat := by
  rcases ha with ha | ha
  · rw [h.sub_of_lt (by omega) (by omega), h.sub (by omega) (by omega)]
    omega
  · rw [h.sub_of_lt (m := n) (by omega) (by omega), h.sub (by omega) (by omega)]
    omega

section Managed
variable (hm : Managed st) (hn : n < st.managedSize.toNat)
include hm hn

theorem offset_toNat :
    (st.managedBase + BitVec.ofNat 64 n).toNat = st.managedBase.toNat + n := by
  have := hm.lt
  rw [BitVec.toNat_add, BitVec.toNat_ofNat, Nat.mod_eq_of_lt (a := n) (by omega),
    Nat.mod_eq_of_lt (by omega)]

theorem addrInManagedRange_offset : st.addrInManagedRange (st.managedBase + BitVec.ofNat 64 n) := by
  have h1 := offset_toNat hm hn
  have h2 := hm.end_toNat
  exact ⟨BitVec.le_def.2 (by omega), BitVec.lt_def.2 (by omega)⟩

theorem addrToFrameIndex_offset :
    st.addrToFrameIndex (st.managedBase + BitVec.ofNat 64 n) = n / 4096 := by
  rw [MmState.addrToFrameIndex, hm.index_toNat (addrInManagedRange_offset hm hn).1,
    offset_toNat hm hn, Nat.add_sub_cancel_left]

end Managed

end Pointers

/-! ### The lists of chunks -/

/-- A pointer that is not null. -/
def nonnull (p : Word) : Option Word := if p = 0 then none else some p

/-- The chunk that the first bytes of a free chunk point to. -/
def nextChunk (m : Mem) (p : Word) : Option Word := nonnull (load m p)

theorem nonnull_of_ne {p : Word} (h : p ≠ 0) : nonnull p = some p := if_neg h

@[simp] theorem nonnull_eq_none {p : Word} : nonnull p = none ↔ p = 0 := by
  unfold nonnull
  split <;> simp_all

theorem nonnull_eq_some {p q : Word} : nonnull p = some q ↔ p ≠ 0 ∧ p = q := by
  unfold nonnull
  split <;> simp_all

/-- The list of pool `i` goes through the chunks at the offsets `cl i`. -/
def ChunkLists (k : Pointers) (st : MmState) (cl : Fin 8 → List ℕ) : Prop :=
  ∀ i, Chain (nextChunk st.mem) (nonnull (st.chunkFreeList i)) ((cl i).map (ptrAt k st))

section Lists
variable {k : Pointers} {st st' : MmState} {cl : Fin 8 → List ℕ} {i : Fin 8} {n : ℕ} {l : List ℕ}

/-- The lists depend on the heads and on the first bytes of the free chunks. -/
theorem ChunkLists.congr (h : ChunkLists k st cl) (hb : st'.managedBase = st.managedBase)
    (hc : st'.chunkFreeList = st.chunkFreeList)
    (hm : ∀ i, ∀ m ∈ cl i, load st'.mem (ptrAt k st m) = load st.mem (ptrAt k st m)) :
    ChunkLists k st' cl := by
  intro i
  have hptr : (cl i).map (ptrAt k st') = (cl i).map (ptrAt k st) :=
    List.map_congr_left fun m _ => ptrAt_congr hb
  rw [hptr, hc]
  refine (h i).congr fun p hp => ?_
  obtain ⟨m, hmem, rfl⟩ := List.mem_map.1 hp
  rw [nextChunk, nextChunk, hm i m hmem]

/-- **`push_chunk`** puts a chunk at the front of its list. -/
theorem ChunkLists.push (h : ChunkLists k st cl) (ht : Translates k st) (hp : ptrAt k st n ≠ 0)
    (hn : n + 8 ≤ 2 ^ 64) (ha : ∀ j, ∀ m ∈ cl j, Apart n m ∧ m + 8 ≤ 2 ^ 64) :
    ChunkLists k (pushed i (ptrAt k st n) st) (Function.update cl i (n :: cl i)) := by
  -- the store goes into the new chunk only
  have hload : ∀ j, ∀ m ∈ cl j, load (store st.mem (ptrAt k st n) (st.chunkFreeList i)) (ptrAt k st m) =
      load st.mem (ptrAt k st m) := by
    intro j m hm
    obtain ⟨ha, hm⟩ := ha j m hm
    obtain ⟨h1, h2⟩ := ht.apart ha hn hm
    exact load_store_of_disjoint _ _ h2 h1
  have hchain : ChunkLists k { st with mem := store st.mem (ptrAt k st n) (st.chunkFreeList i) } cl :=
    h.congr rfl rfl hload
  intro j
  rcases eq_or_ne j i with rfl | hne
  · change Chain _ (nonnull (Function.update st.chunkFreeList j (ptrAt k st n) j))
      ((Function.update cl j (n :: cl j) j).map (ptrAt k st))
    rw [Function.update_self, Function.update_self, nonnull_of_ne hp]
    refine ⟨rfl, ?_⟩
    change Chain _ (nonnull (load (store st.mem (ptrAt k st n) _) (ptrAt k st n))) _
    rw [load_store_same]
    exact hchain j
  · change Chain _ (nonnull (Function.update st.chunkFreeList i (ptrAt k st n) j))
      ((Function.update cl i (n :: cl i) j).map (ptrAt k st))
    rw [Function.update_of_ne hne, Function.update_of_ne hne]
    exact hchain j

theorem ChunkLists.head_eq (h : ChunkLists k st cl) (i : Fin 8) :
    st.chunkFreeList i = 0 ↔ cl i = [] := by
  have hh := (h i).head
  rw [← nonnull_eq_none, hh]
  simp

/-- **`pop_chunk`** takes the chunk at the front of the list. -/
theorem ChunkLists.pop (h : ChunkLists k st cl) (hl : cl i = n :: l)
    (hmap : k.mapped (ptrAt k st n)) :
    ∃ st', popChunk k i st = some (ptrAt k st n, st') ∧ ptrAt k st n ≠ 0 ∧
      ChunkLists k st' (Function.update cl i l) ∧
      st' = { st with
        chunkFreeList := Function.update st.chunkFreeList i (load st.mem (ptrAt k st n)) } := by
  have hi := h i
  rw [hl] at hi
  obtain ⟨h1, h2⟩ := hi
  obtain ⟨hne, he⟩ := nonnull_eq_some.1 h1
  refine ⟨_, ?_, he ▸ hne, fun j => ?_, rfl⟩
  · rw [popChunk, if_pos hne, he, if_pos hmap]
  · rcases eq_or_ne j i with rfl | hj
    · change Chain _ (nonnull (Function.update st.chunkFreeList j _ j))
        ((Function.update cl j l j).map (ptrAt k st))
      rw [Function.update_self, Function.update_self]
      exact h2
    · change Chain _ (nonnull (Function.update st.chunkFreeList i _ j))
        ((Function.update cl i l j).map (ptrAt k st))
      rw [Function.update_of_ne hj, Function.update_of_ne hj]
      exact h j

theorem popChunk_nil (h : ChunkLists k st cl) (hl : cl i = []) :
    popChunk k i st = some (0, st) := by
  have h0 := (h.head_eq i).2 hl
  rw [popChunk, if_neg (not_not.2 h0), h0]

end Lists

/-! ### Cutting a page -/

/-- The frames and their lists do not change. -/
structure SameFrames (st st' : MmState) : Prop where
  managedBase : st'.managedBase = st.managedBase
  managedSize : st'.managedSize = st.managedSize
  frameCount : st'.frameCount = st.frameCount
  earlyReserved : st'.earlyReserved = st.earlyReserved
  framePtr : st'.framePtr = st.framePtr
  frameArray : st'.frameArray = st.frameArray
  links : st'.links = st.links

theorem SameFrames.refl (st : MmState) : SameFrames st st := ⟨rfl, rfl, rfl, rfl, rfl, rfl, rfl⟩

theorem SameFrames.trans {st st1 st' : MmState} (h : SameFrames st st1) (h' : SameFrames st1 st') :
    SameFrames st st' :=
  ⟨h'.managedBase.trans h.managedBase, h'.managedSize.trans h.managedSize,
    h'.frameCount.trans h.frameCount, h'.earlyReserved.trans h.earlyReserved,
    h'.framePtr.trans h.framePtr, h'.frameArray.trans h.frameArray, h'.links.trans h.links⟩

/-- The managed range stays where it is, and so do the reserved regions. -/
structure SamePlace (st st' : MmState) : Prop where
  managedBase : st'.managedBase = st.managedBase
  managedSize : st'.managedSize = st.managedSize
  frameCount : st'.frameCount = st.frameCount
  earlyReserved : st'.earlyReserved = st.earlyReserved
  framePtr : st'.framePtr = st.framePtr

theorem SamePlace.refl (st : MmState) : SamePlace st st := ⟨rfl, rfl, rfl, rfl, rfl⟩

theorem SamePlace.trans {st st1 st' : MmState} (h : SamePlace st st1) (h' : SamePlace st1 st') :
    SamePlace st st' :=
  ⟨h'.managedBase.trans h.managedBase, h'.managedSize.trans h.managedSize,
    h'.frameCount.trans h.frameCount, h'.earlyReserved.trans h.earlyReserved,
    h'.framePtr.trans h.framePtr⟩

theorem SameFrames.place {st st' : MmState} (h : SameFrames st st') : SamePlace st st' :=
  ⟨h.managedBase, h.managedSize, h.frameCount, h.earlyReserved, h.framePtr⟩

theorem SameRange.place {st st' : MmState} (h : SameRange st st') : SamePlace st st' :=
  ⟨h.managedBase, h.managedSize, h.frameCount, h.earlyReserved, h.framePtr⟩

theorem sameFrames_push (i : Fin 8) (p : Word) (st : MmState) : SameFrames st (pushed i p st) :=
  ⟨rfl, rfl, rfl, rfl, rfl, rfl, rfl⟩

theorem chunkSize_dvd (i : Fin 8) : chunkSize i ∣ 4096 := by
  revert i
  decide

theorem chunk_le {i : Fin 8} {n : ℕ} (h : chunkSize i ∣ n) :
    n + chunkSize i ≤ (n / 4096 + 1) * 4096 := by
  obtain ⟨q, hq⟩ := chunkSize_dvd i
  obtain ⟨j, rfl⟩ := h
  have hpos := chunkSize_pos i
  have hq0 : 0 < q := by
    rcases Nat.eq_zero_or_pos q with rfl | hq0
    · omega
    · exact hq0
  have hdiv : chunkSize i * j / 4096 = j / q := by
    rw [hq, Nat.mul_div_mul_left _ _ (by omega)]
  have hlt : j + 1 ≤ (j / q + 1) * q := by
    have h1 := Nat.div_add_mod j q
    have h2 := Nat.mod_lt j hq0
    have h3 : (j / q + 1) * q = q * (j / q) + q := by rw [Nat.add_mul, Nat.mul_comm, Nat.one_mul]
    omega
  calc chunkSize i * j + chunkSize i = chunkSize i * (j + 1) := by rw [Nat.mul_succ]
    _ ≤ chunkSize i * ((j / q + 1) * q) := Nat.mul_le_mul_left _ hlt
    _ = (j / q + 1) * (chunkSize i * q) := by rw [Nat.mul_left_comm]
    _ = (chunkSize i * j / 4096 + 1) * 4096 := by rw [hdiv, ← hq]

/-- Two chunks of a pool are one or apart. -/
theorem chunk_apart {i : Fin 8} {n m : ℕ} (hn : chunkSize i ∣ n) (hm : chunkSize i ∣ m)
    (hlt : n < m) :
    n + chunkSize i ≤ m := by
  obtain ⟨a, rfl⟩ := hn
  obtain ⟨b, rfl⟩ := hm
  have hab : a < b := Nat.lt_of_mul_lt_mul_left hlt
  calc chunkSize i * a + chunkSize i = chunkSize i * (a + 1) := by rw [Nat.mul_succ]
    _ ≤ chunkSize i * b := Nat.mul_le_mul_left _ hab

section Cut
variable {k : Pointers} {st : MmState} {cl : Fin 8 → List ℕ} {i : Fin 8} {idx : ℕ}

/-- **The loop that cuts a page** puts all its chunks from an offset on into the list. -/
theorem chunkLoop_spec {st' : MmState} (fuel off : ℕ) (h : ChunkLists k st cl)
    (ht : Translates k st) (hidx : (idx + 1) * 4096 ≤ 2 ^ 64 - 4096)
    (hne : ∀ x < 4096, ptrAt k st (idx * 4096 + x) ≠ 0) (hoff : chunkSize i ∣ off) (hle : off ≤ 4096)
    (hout : ∀ j, ∀ m ∈ cl j, (m + 8 ≤ idx * 4096 + off ∨ (idx + 1) * 4096 ≤ m) ∧ m + 8 ≤ 2 ^ 64)
    (hk : chunkLoop k i (ptrAt k st (idx * 4096)) fuel off st = some st') :
    ∃ l, ChunkLists k st' (Function.update cl i (l ++ cl i)) ∧ l.Nodup ∧
      (∀ n, n ∈ l ↔ idx * 4096 + off ≤ n ∧ n < (idx + 1) * 4096 ∧ chunkSize i ∣ n) ∧
      (∀ n ∈ l, k.mapped (ptrAt k st n)) ∧ SameFrames st st' := by
  have hpos := chunkSize_pos i
  induction fuel generalizing off st cl with
  | zero => cases hk
  | succ fuel ih =>
    rw [chunkLoop, poolSizes_toNat] at hk
    by_cases hnext : off + chunkSize i ≤ 4096
    · rw [if_pos hnext, ht.add, pushChunk] at hk
      by_cases hmap : k.mapped (ptrAt k st (idx * 4096 + off))
      case neg =>
        rw [if_neg hmap] at hk
        cases hk
      rw [if_pos hmap, Option.bind_some] at hk
      have hn : chunkSize i ∣ idx * 4096 + off :=
        (Nat.dvd_add_right ((chunkSize_dvd i).mul_left idx)).2 hoff
      have h1 := h.push (i := i) ht (hne off (by omega)) (by omega) fun j m hm =>
        ⟨by rcases (hout j m hm).1 with h | h <;> unfold Apart <;> omega, (hout j m hm).2⟩
      set st1 := pushed i (ptrAt k st (idx * 4096 + off)) st with hst1
      have hptr : ∀ n, ptrAt k st1 n = ptrAt k st n := fun _ => rfl
      obtain ⟨l, hl, hnd, hmem, hmapped, hs⟩ := ih _ h1 (ht.congr rfl rfl) hne
        ((Nat.dvd_add_right hoff).2 (dvd_refl _)) hnext (fun j m hm => by
          rcases eq_or_ne j i with rfl | hj
          · rw [Function.update_self, List.mem_cons] at hm
            rcases hm with rfl | hm
            · omega
            · have := hout j m hm
              omega
          · rw [Function.update_of_ne hj] at hm
            have := hout j m hm
            omega) hk
      rw [Function.update_self, Function.update_idem] at hl
      refine ⟨l ++ [idx * 4096 + off], ?_, ?_, fun n => ?_, fun n hn => ?_,
        (sameFrames_push ..).trans hs⟩
      · rwa [List.append_assoc]
      · refine List.nodup_append.2 ⟨hnd, List.nodup_singleton _, ?_⟩
        rintro a ha b hb rfl
        obtain rfl := List.mem_singleton.1 hb
        have := ((hmem _).1 ha).1
        omega
      · rw [List.mem_append, List.mem_singleton, hmem]
        constructor
        · rintro (⟨h1, h2, h3⟩ | rfl)
          · exact ⟨by omega, h2, h3⟩
          · exact ⟨le_rfl, by omega, hn⟩
        · rintro ⟨h1, h2, h3⟩
          rcases eq_or_lt_of_le h1 with he | hlt
          · exact .inr he.symm
          · have hnext := chunk_apart hn h3 hlt
            rw [Nat.add_assoc] at hnext
            exact .inl ⟨hnext, h2, h3⟩
      · rcases List.mem_append.1 hn with hn | hn
        · exact hptr n ▸ hmapped n hn
        · exact List.mem_singleton.1 hn ▸ hmap
    · rw [if_neg hnext] at hk
      obtain rfl := Option.some.inj hk
      refine ⟨[], by rwa [List.nil_append, Function.update_eq_self], List.nodup_nil,
        fun n => ⟨fun hn => absurd hn List.not_mem_nil, fun ⟨h1, h2, h3⟩ => ?_⟩,
        fun n hn => absurd hn List.not_mem_nil, .refl st⟩
      -- no chunk fits behind the offset
      have hn : chunkSize i ∣ idx * 4096 + off :=
        (Nat.dvd_add_right ((chunkSize_dvd i).mul_left idx)).2 hoff
      have hend : chunkSize i ∣ (idx + 1) * 4096 := (chunkSize_dvd i).mul_left _
      have := chunk_apart hn hend (by omega)
      omega

/-- The loop ends on a page that is mapped. -/
theorem chunkLoop_isSome {page : Word} (fuel off : ℕ) (st : MmState) (hfuel : 4096 < off + fuel)
    (hle : off ≤ 4096) (hmap : ∀ x < 4096, k.mapped (page + BitVec.ofNat 64 x)) :
    (chunkLoop k i page fuel off st).isSome := by
  have hpos := chunkSize_pos i
  induction fuel generalizing off st with
  | zero => omega
  | succ fuel ih =>
    rw [chunkLoop, poolSizes_toNat]
    split
    next hnext =>
      rw [pushChunk, if_pos (hmap off (by omega)), Option.bind_some]
      exact ih _ _ (by omega) hnext
    next => rfl

end Cut

end OscKernel.Mm.Chunks
