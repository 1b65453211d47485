import OscKernel.Lib.Align
import OscKernel.Lib.DList
import OscKernel.Lib.Dyadic
import OscKernel.Vm.Setup

/-! # Page frames of lab6

The metadata of the page frames in `mm.c` and the free lists that go through it. A pointer to a
`struct page` is a node: the head of a free list, or a frame. A function is partial where the source
would follow a null link, leave `free_area` or `frame_array`, or fault.

* `Pointers`: the pointers of a kernel. Those of lab6 lead as far as `setup_vm` maps
  (`linear_mapped_iff`).

* `Lists st fl`: the free list of order `o` is `fl o`, and the metadata of the frames says so.
* `addFreeBlock_spec`, `removeFreeBlock_spec`: what the list functions do. -/

namespace OscKernel.Mm.Frames

open OscKernel.Lib.Memory OscKernel.Lib.Align OscKernel.Lib.DList OscKernel.Lib.Dyadic
open OscKernel.Lib.Sv39 (translateAddr)
open OscKernel.Vm.Tables
open OscKernel.Vm.Setup (Layout Boot linearSize setupVm dropIdentityMap isSome_translate_dropped)

/-- `MAX_ORDER`. -/
def maxOrder : ℕ := 12

/-- `FRAME_FREE` and `FRAME_USED`. -/
inductive FrameState
  | free | used
  deriving DecidableEq, Repr

/-- `struct page` without its links. -/
structure Page where
  order : ℤ
  state : FrameState
  inFreeList : Bool
  chunkSize : Word
  chunkPool : ℤ

/-- What a `struct page *` points to: `free_area[order]` or `frame_array[idx]`. -/
inductive Node
  | head (order : ℕ)
  | page (idx : ℕ)
  deriving DecidableEq, Repr

/-- `struct early_reserved_region` without its name. -/
structure Region where
  start : Word
  stop : Word
  deriving DecidableEq, Repr

/-- The static data of `mm.c`, and the memory that the chunks lie in. `framePtr` is the pointer
`frame_array`, and `frameArray` what lies there: the entries from `frameCount` on are not part of it. -/
structure MmState where
  managedBase : Word
  managedSize : Word
  frameCount : ℕ
  earlyReserved : List Region
  framePtr : Word
  frameArray : ℕ → Page
  links : Links Node
  chunkFreeList : Fin 8 → Word
  mem : Mem

/-- `kernel_ptr_to_phys`. -/
def kernelPtrToPhys (addr : Word) : Word :=
  if kernelVaOffset ≤ addr then virtToPhysAddr addr else addr

/-- The pointers of a kernel: the pointer to a physical address, the physical address of a pointer,
and whether a pointer leads to memory. -/
structure Pointers where
  toPtr : Word → Word
  toPhys : Word → Word
  mapped : Word → Bool

/-- The pointers of lab6: `setup_vm` maps the first 10 GiB. -/
def Pointers.linear : Pointers :=
  ⟨physToVirtAddr, kernelPtrToPhys, fun p => (virtToPhysAddr p).toNat < linearSize⟩

/-- The pointers of lab5, which has no page tables. -/
def Pointers.direct : Pointers := ⟨id, id, fun _ => true⟩

/-- `align_up`. -/
def alignUp (val align : Word) : Word := (val + align - 1) &&& ~~~(align - 1)

/-- `align_down`. -/
def alignDown (val align : Word) : Word := val &&& ~~~(align - 1)

theorem alignDown_toNat (a : Word) : (alignDown a 4096).toNat = a.toNat / 4096 * 4096 :=
  and_not_toNat (show (4096 : Word).toNat = 2 ^ 12 from rfl)

theorem alignUp_eq (a : Word) : alignUp a 4096 = alignDown (a + 4095) 4096 := by
  rw [alignUp, alignDown, BitVec.sub_eq_add_neg (a + 4096), BitVec.add_assoc]
  rfl

theorem alignUp_toNat {a : Word} (ha : a.toNat + 4095 < 2 ^ 64) :
    (alignUp a 4096).toNat = (a.toNat + 4095) / 4096 * 4096 := by
  have h4096 : (4096 : Word).toNat = 2 ^ 12 := rfl
  exact add_and_not_toNat h4096 (by rw [h4096]; omega)

@[simp] theorem Pointers.linear_toPtr (a : Word) : Pointers.linear.toPtr a = physToVirtAddr a := by
  rw [Pointers.linear]

@[simp] theorem Pointers.linear_toPhys (a : Word) :
    Pointers.linear.toPhys a = kernelPtrToPhys a := by
  rw [Pointers.linear]

@[simp] theorem Pointers.linear_mapped (p : Word) :
    Pointers.linear.mapped p = true ↔ (virtToPhysAddr p).toNat < linearSize := by
  rw [Pointers.linear]
  exact decide_eq_true_iff

@[simp] theorem Pointers.direct_toPtr (a : Word) : Pointers.direct.toPtr a = a := rfl

@[simp] theorem Pointers.direct_toPhys (a : Word) : Pointers.direct.toPhys a = a := rfl

@[simp] theorem Pointers.direct_mapped (p : Word) : Pointers.direct.mapped p = true := rfl

/-- **The pointers of lab6 lead as far as the page tables do** that `setup_vm` and
`drop_identity_map` leave. -/
theorem linear_mapped_iff (L : Layout) (b : Boot) (p : Word) :
    Pointers.linear.mapped p = true ↔
      (translateAddr (dropIdentityMap L (setupVm L b).mem) L.pgd p).isSome := by
  rw [Pointers.linear_mapped, isSome_translate_dropped]

/-- The page of a frame has a byte in the range from `lo` to `hi`. -/
def Touches (base f lo hi : ℕ) : Prop :=
  ∃ a, lo ≤ a ∧ a < hi ∧ base + f * 4096 ≤ a ∧ a < base + (f + 1) * 4096

theorem touches_iff {base f lo hi : ℕ} (h : lo < hi) :
    Touches base f lo hi ↔ lo < base + (f + 1) * 4096 ∧ base + f * 4096 < hi := by
  constructor
  · rintro ⟨a, h1, h2, h3, h4⟩
    omega
  · rintro ⟨h1, h2⟩
    exact ⟨max lo (base + f * 4096), by omega, by omega, by omega, by omega⟩

namespace MmState
variable (st : MmState)

/-- `frame_addr`. -/
def frameAddr (idx : ℕ) : Word := st.managedBase + BitVec.ofNat 64 (idx * 4096)

/-- `addr_to_frame_index`. -/
def addrToFrameIndex (addr : Word) : ℕ := ((addr - st.managedBase) >>> 12).toNat

/-- `addr_in_managed_range`. -/
def addrInManagedRange (addr : Word) : Prop :=
  st.managedBase ≤ addr ∧ addr < st.managedBase + st.managedSize

instance (addr : Word) : Decidable (st.addrInManagedRange addr) := by
  unfold addrInManagedRange; infer_instance

/-- Changing the metadata of a frame. -/
def setPage (idx : ℕ) (f : Page → Page) : MmState :=
  { st with frameArray := Function.update st.frameArray idx (f (st.frameArray idx)) }

/-- Changing the links. -/
def setLinks (l : Links Node) : MmState := { st with links := l }

/-- `list_empty` of the free list of an order. -/
def listEmpty (order : ℕ) : Prop := st.links.next (.head order) = some (.head order)

instance (order : ℕ) : Decidable (st.listEmpty order) := by unfold listEmpty; infer_instance

/-- `add_free_block`. -/
def addFreeBlock (idx order : ℕ) : Option MmState :=
  if maxOrder < order ∨ st.frameCount ≤ idx then none
  else
    let st := st.setPage idx fun _ => ⟨order, .free, true, 0, -1⟩
    (st.links.add (.head order) (.page idx)).map st.setLinks

/-- `remove_free_block`. -/
def removeFreeBlock (idx : ℕ) : Option MmState :=
  if st.frameCount ≤ idx then none
  else (st.links.del (.page idx)).map fun l =>
    (st.setLinks l).setPage idx fun p => { p with inFreeList := false }

/-- The frames from a node on, up to the head of the order. -/
def walk (order : ℕ) : ℕ → Option Node → List ℕ
  | fuel + 1, some (.page idx) => idx :: walk order fuel (st.links.next (.page idx))
  | _, _ => []

/-- The first frames of the blocks in `free_area[order]`. -/
def freeList (order : ℕ) : List ℕ :=
  st.walk order (st.frameCount + 1) (st.links.next (.head order))

/-- The blocks in `free_area`. -/
def freeBlocks : Set Block := {b | b.order ≤ maxOrder ∧ b.index ∈ st.freeList b.order}

end MmState

/-! ### The free lists -/

/-- Neither the managed range nor the chunks change. -/
structure SameRange (st st' : MmState) : Prop where
  managedBase : st'.managedBase = st.managedBase
  managedSize : st'.managedSize = st.managedSize
  frameCount : st'.frameCount = st.frameCount
  earlyReserved : st'.earlyReserved = st.earlyReserved
  framePtr : st'.framePtr = st.framePtr
  chunkFreeList : st'.chunkFreeList = st.chunkFreeList
  mem : st'.mem = st.mem

theorem SameRange.refl (st : MmState) : SameRange st st := ⟨rfl, rfl, rfl, rfl, rfl, rfl, rfl⟩

theorem SameRange.trans {st st1 st' : MmState} (h : SameRange st st1) (h' : SameRange st1 st') :
    SameRange st st' :=
  ⟨h'.managedBase.trans h.managedBase, h'.managedSize.trans h.managedSize,
    h'.frameCount.trans h.frameCount, h'.earlyReserved.trans h.earlyReserved,
    h'.framePtr.trans h.framePtr, h'.chunkFreeList.trans h.chunkFreeList, h'.mem.trans h.mem⟩

/-- The frame is the first one of no free block. -/
def NotListed (fl : ℕ → List ℕ) (idx : ℕ) : Prop := ∀ o ≤ maxOrder, idx ∉ fl o

/-- The free list of the order `o` is `fl o`, and the metadata of the frames says so. -/
structure Lists (st : MmState) (fl : ℕ → List ℕ) : Prop where
  ring : ∀ o ≤ maxOrder, Ring st.links (.head o) ((fl o).map .page)
  unique : ∀ o ≤ maxOrder, ∀ o' ≤ maxOrder, ∀ idx, idx ∈ fl o → idx ∈ fl o' → o = o'
  listed : ∀ o ≤ maxOrder, ∀ idx ∈ fl o, (st.frameArray idx).order = o ∧
    (st.frameArray idx).state = .free ∧ (st.frameArray idx).inFreeList = true
  notListed : ∀ idx, NotListed fl idx → (st.frameArray idx).inFreeList = false

section Lists
variable {st : MmState} {fl : ℕ → List ℕ} {idx order : ℕ}

@[simp] theorem frameArray_setPage_same (f : Page → Page) :
    (st.setPage idx f).frameArray idx = f (st.frameArray idx) := Function.update_self ..

theorem frameArray_setPage_of_ne {i : ℕ} (f : Page → Page) (h : i ≠ idx) :
    (st.setPage idx f).frameArray i = st.frameArray i := Function.update_of_ne h ..

theorem page_mem_pages {l : List ℕ} : Node.page idx ∈ l.map Node.page ↔ idx ∈ l := by
  simp

theorem Lists.nodup (h : Lists st fl) (ho : order ≤ maxOrder) : (fl order).Nodup :=
  List.Nodup.of_map _ (List.nodup_cons.1 (h.ring order ho).nodup).2

theorem Lists.exists_of_inFreeList (h : Lists st fl) (hf : (st.frameArray idx).inFreeList = true) :
    ∃ o ≤ maxOrder, idx ∈ fl o := by
  by_contra hn
  rw [h.notListed idx fun o ho hm => hn ⟨o, ho, hm⟩] at hf
  cases hf

theorem Lists.setPage (h : Lists st fl) (hn : NotListed fl idx) {f : Page → Page}
    (hf : (f (st.frameArray idx)).inFreeList = false) : Lists (st.setPage idx f) fl := by
  refine ⟨h.ring, h.unique, fun o ho i hi => ?_, fun i hi => ?_⟩
  · have hne : i ≠ idx := by
      rintro rfl
      exact hn o ho hi
    rw [frameArray_setPage_of_ne f hne]
    exact h.listed o ho i hi
  · rcases eq_or_ne i idx with rfl | hne
    · rw [frameArray_setPage_same]
      exact hf
    · rw [frameArray_setPage_of_ne f hne]
      exact h.notListed i hi

theorem SameRange.setPage (f : Page → Page) : SameRange st (st.setPage idx f) :=
  ⟨rfl, rfl, rfl, rfl, rfl, rfl, rfl⟩

/-- A frame is in the list of an order after it was put there, or was in it before. -/
theorem mem_update_cons {o i : ℕ} : i ∈ Function.update fl order (idx :: fl order) o ↔
    (o = order ∧ i = idx) ∨ i ∈ fl o := by
  rcases eq_or_ne o order with rfl | hne
  · simp
  · simp [hne]

/-- The links of the other lists are not those that an operation on one list changes. -/
theorem Lists.notMem_other (h : Lists st fl) (ho : order ≤ maxOrder) {o : ℕ} (ho' : o ≤ maxOrder)
    (hne : o ≠ order) {z : Node} (hz : z ∈ Node.head o :: (fl o).map Node.page) :
    z ∉ Node.head order :: (fl order).map Node.page := by
  rw [List.mem_cons, List.mem_map] at hz ⊢
  rcases hz with rfl | ⟨i, hi, rfl⟩
  · rintro (he | ⟨i, -, he⟩)
    · cases he
      exact hne rfl
    · cases he
  · rintro (he | ⟨j, hj, he⟩)
    · cases he
    · cases he
      exact hne (h.unique o ho' order ho i hi hj)

/-- **`add_free_block`** puts a frame that is in no list at the front of one. -/
theorem addFreeBlock_spec (h : Lists st fl) (ho : order ≤ maxOrder) (hn : NotListed fl idx)
    (hlt : idx < st.frameCount) :
    ∃ st', st.addFreeBlock idx order = some st' ∧
      Lists st' (Function.update fl order (idx :: fl order)) ∧ SameRange st st' ∧
      st'.frameArray = (st.setPage idx fun _ => ⟨order, .free, true, 0, -1⟩).frameArray := by
  have hnode : Node.page idx ∉ Node.head order :: (fl order).map Node.page := by
    rw [List.mem_cons, page_mem_pages]
    rintro (he | hm)
    · cases he
    · exact hn order ho hm
  obtain ⟨l, hl, hring, hother⟩ := (h.ring order ho).add hnode
  set st1 := st.setPage idx fun _ => ⟨order, .free, true, 0, -1⟩ with hst1
  refine ⟨st1.setLinks l, ?_, ⟨?_, ?_, ?_, ?_⟩, ⟨rfl, rfl, rfl, rfl, rfl, rfl, rfl⟩, rfl⟩
  · unfold MmState.addFreeBlock
    rw [if_neg (not_or.2 ⟨not_lt.2 ho, not_le.2 hlt⟩)]
    change (st.links.add _ _).map _ = _
    rw [hl]
    rfl
  · intro o ho'
    rcases eq_or_ne o order with rfl | hne
    · rw [Function.update_self]
      exact hring
    · rw [Function.update_of_ne hne]
      refine (h.ring o ho').congr fun z hz => hother z ?_
      rw [List.mem_cons]
      rintro (rfl | hm)
      · rw [List.mem_cons, page_mem_pages] at hz
        rcases hz with he | hz
        · cases he
        · exact hn o ho' hz
      · exact h.notMem_other ho ho' hne hz hm
  · intro o ho1 o' ho2 i hi hi'
    rw [mem_update_cons] at hi hi'
    rcases hi with ⟨rfl, rfl⟩ | hi <;> rcases hi' with ⟨rfl, he⟩ | hi'
    · rfl
    · exact absurd hi' (hn o' ho2)
    · subst he
      exact absurd hi (hn o ho1)
    · exact h.unique o ho1 o' ho2 i hi hi'
  · intro o ho1 i hi
    rw [mem_update_cons] at hi
    change (st1.frameArray i).order = o ∧ (st1.frameArray i).state = .free ∧
      (st1.frameArray i).inFreeList = true
    rcases hi with ⟨rfl, rfl⟩ | hi
    · rw [hst1, frameArray_setPage_same]
      exact ⟨rfl, rfl, rfl⟩
    · have hne : i ≠ idx := by
        rintro rfl
        exact hn o ho1 hi
      rw [hst1, frameArray_setPage_of_ne _ hne]
      exact h.listed o ho1 i hi
  · intro i hi
    have hne : i ≠ idx := by
      rintro rfl
      exact hi order ho (mem_update_cons.2 (.inl ⟨rfl, rfl⟩))
    change (st1.frameArray i).inFreeList = false
    rw [hst1, frameArray_setPage_of_ne _ hne]
    exact h.notListed i fun o ho1 hm => hi o ho1 (mem_update_cons.2 (.inr hm))

theorem Lists.mem_update_erase (h : Lists st fl) (ho : order ≤ maxOrder) {o i : ℕ} :
    i ∈ Function.update fl order ((fl order).erase idx) o ↔ i ∈ fl o ∧ ¬ (o = order ∧ i = idx) := by
  rcases eq_or_ne o order with rfl | hne
  · rw [Function.update_self, (h.nodup ho).mem_erase_iff]
    tauto
  · rw [Function.update_of_ne hne]
    tauto

/-- **`remove_free_block`** takes a frame out of its list. -/
theorem removeFreeBlock_spec (h : Lists st fl) (ho : order ≤ maxOrder) (hm : idx ∈ fl order)
    (hlt : idx < st.frameCount) :
    ∃ st', st.removeFreeBlock idx = some st' ∧
      Lists st' (Function.update fl order ((fl order).erase idx)) ∧ SameRange st st' ∧
      st'.frameArray = (st.setPage idx fun p => { p with inFreeList := false }).frameArray := by
  obtain ⟨l, hl, hring, hother⟩ := (h.ring order ho).del (page_mem_pages.2 hm)
  set st1 := st.setPage idx fun p => { p with inFreeList := false } with hst1
  refine ⟨st1.setLinks l, ?_, ⟨?_, ?_, ?_, ?_⟩, ⟨rfl, rfl, rfl, rfl, rfl, rfl, rfl⟩, rfl⟩
  · rw [MmState.removeFreeBlock, if_neg (not_le.2 hlt), hl]
    rfl
  · intro o ho'
    rcases eq_or_ne o order with rfl | hne
    · rw [Function.update_self]
      rwa [List.map_erase (fun i j he => by cases he; rfl)]
    · rw [Function.update_of_ne hne]
      exact (h.ring o ho').congr fun z hz => hother z (h.notMem_other ho ho' hne hz)
  · intro o ho1 o' ho2 i hi hi'
    exact h.unique o ho1 o' ho2 i ((h.mem_update_erase ho).1 hi).1 ((h.mem_update_erase ho).1 hi').1
  · intro o ho1 i hi
    obtain ⟨hi, hne⟩ := (h.mem_update_erase ho).1 hi
    have hne' : i ≠ idx := by
      intro he
      exact hne ⟨h.unique o ho1 order ho i hi (he ▸ hm), he⟩
    change (st1.frameArray i).order = o ∧ (st1.frameArray i).state = .free ∧
      (st1.frameArray i).inFreeList = true
    rw [hst1, frameArray_setPage_of_ne _ hne']
    exact h.listed o ho1 i hi
  · intro i hi
    change (st1.frameArray i).inFreeList = false
    rcases eq_or_ne i idx with rfl | hne
    · rw [hst1, frameArray_setPage_same]
    · rw [hst1, frameArray_setPage_of_ne _ hne]
      refine h.notListed i fun o ho1 hmem => hi o ho1 ?_
      exact (h.mem_update_erase ho).2 ⟨hmem, fun he => hne he.2⟩

end Lists

/-! ### The blocks in the free lists -/

/-- The blocks of the lists. -/
def blocks (fl : ℕ → List ℕ) : Set Block := {b | b.order ≤ maxOrder ∧ b.index ∈ fl b.order}

/-- The free lists hold disjoint aligned blocks of frames. -/
structure FreeArea (st : MmState) (fl : ℕ → List ℕ) : Prop where
  lists : Lists st fl
  tiling : Tiling maxOrder (blocks fl)
  lt : ∀ f ∈ region (blocks fl), f < st.frameCount

/-- **The free lists hold the free frames `F`**, and no block together with its buddy. -/
structure Coalesced (st : MmState) (fl : ℕ → List ℕ) (F : Set ℕ) : Prop where
  area : FreeArea st fl
  noBuddies : NoBuddies maxOrder (blocks fl)
  region : ∀ f, f ∈ region (blocks fl) ↔ f ∈ F

section Blocks
variable {st : MmState} {fl : ℕ → List ℕ} {idx order : ℕ} {b : Block}

theorem blocks_cons (ho : order ≤ maxOrder) :
    blocks (Function.update fl order (idx :: fl order)) = insert ⟨idx, order⟩ (blocks fl) := by
  ext b
  rw [Set.mem_insert_iff, Block.ext_iff]
  constructor
  · rintro ⟨hb, hm⟩
    rcases mem_update_cons.1 hm with ⟨h1, h2⟩ | hm
    · exact .inl ⟨h2, h1⟩
    · exact .inr ⟨hb, hm⟩
  · rintro (⟨h1, h2⟩ | ⟨hb, hm⟩)
    · exact ⟨h2.trans_le ho, mem_update_cons.2 (.inl ⟨h2, h1⟩)⟩
    · exact ⟨hb, mem_update_cons.2 (.inr hm)⟩

theorem Lists.blocks_erase (h : Lists st fl) (ho : order ≤ maxOrder) :
    blocks (Function.update fl order ((fl order).erase idx)) = blocks fl \ {⟨idx, order⟩} := by
  ext b
  rw [Set.mem_sdiff, Set.mem_singleton_iff, Block.ext_iff]
  constructor
  · rintro ⟨hb, hm⟩
    obtain ⟨hm, hne⟩ := (h.mem_update_erase ho).1 hm
    exact ⟨⟨hb, hm⟩, fun he => hne ⟨he.2, he.1⟩⟩
  · rintro ⟨⟨hb, hm⟩, hne⟩
    exact ⟨hb, (h.mem_update_erase ho).2 ⟨hm, fun he => hne ⟨he.2, he.1⟩⟩⟩

theorem notListed_of_region (hn : idx ∉ region (blocks fl)) : NotListed fl idx :=
  fun o ho hm => hn ⟨⟨idx, o⟩, ⟨ho, hm⟩, Block.covers_index _⟩

/-- **Adding a block** of frames that are in none. -/
theorem FreeArea.add (h : FreeArea st fl) (ho : order ≤ maxOrder)
    (ha : (⟨idx, order⟩ : Block).Aligned)
    (hn : ∀ f, (⟨idx, order⟩ : Block).Covers f → f ∉ region (blocks fl) ∧ f < st.frameCount) :
    ∃ st', st.addFreeBlock idx order = some st' ∧
      FreeArea st' (Function.update fl order (idx :: fl order)) ∧ SameRange st st' ∧
      st'.frameArray = (st.setPage idx fun _ => ⟨order, .free, true, 0, -1⟩).frameArray := by
  obtain ⟨st', h1, h2, h3, h4⟩ :=
    addFreeBlock_spec h.lists ho (notListed_of_region (hn idx (Block.covers_index ⟨idx, order⟩)).1)
      (hn idx (Block.covers_index ⟨idx, order⟩)).2
  refine ⟨st', h1, ⟨h2, ?_, fun f hf => ?_⟩, h3, h4⟩
  · rw [blocks_cons ho]
    exact h.tiling.insert ha ho fun f hf => (hn f hf).1
  · rw [blocks_cons ho, mem_region_insert] at hf
    rw [h3.frameCount]
    rcases hf with hf | hf
    · exact (hn f hf).2
    · exact h.lt f hf

/-- **Removing a block.** -/
theorem FreeArea.remove (h : FreeArea st fl) (ho : order ≤ maxOrder) (hm : idx ∈ fl order) :
    ∃ st', st.removeFreeBlock idx = some st' ∧
      FreeArea st' (Function.update fl order ((fl order).erase idx)) ∧ SameRange st st' ∧
      st'.frameArray = (st.setPage idx fun p => { p with inFreeList := false }).frameArray := by
  obtain ⟨st', h1, h2, h3, h4⟩ := removeFreeBlock_spec h.lists ho hm
    (h.lt idx ⟨⟨idx, order⟩, ⟨ho, hm⟩, Block.covers_index _⟩)
  refine ⟨st', h1, ⟨h2, ?_, fun f hf => ?_⟩, h3, h4⟩
  · rw [h.lists.blocks_erase ho]
    exact h.tiling.erase _
  · rw [h.lists.blocks_erase ho] at hf
    rw [h3.frameCount]
    exact h.lt f (((h.tiling.mem_region_erase ⟨ho, hm⟩).1 hf).1)

/-- **Changing the metadata** of a frame in no block. -/
theorem FreeArea.setPage (h : FreeArea st fl) (hn : NotListed fl idx) {f : Page → Page}
    (hf : (f (st.frameArray idx)).inFreeList = false) : FreeArea (st.setPage idx f) fl :=
  ⟨h.lists.setPage hn hf, h.tiling, h.lt⟩

theorem FreeArea.index_lt (h : FreeArea st fl) (ho : order ≤ maxOrder) (hm : idx ∈ fl order) :
    idx < st.frameCount :=
  h.lt idx ⟨⟨idx, order⟩, ⟨ho, hm⟩, Block.covers_index _⟩

theorem FreeArea.block_le (h : FreeArea st fl) (hb : b ∈ blocks fl) :
    b.index + 2 ^ b.order ≤ st.frameCount := by
  have hpos := Nat.two_pow_pos b.order
  have := h.lt (b.index + 2 ^ b.order - 1) ⟨b, hb, by omega, by omega⟩
  omega

theorem FreeArea.length_le (h : FreeArea st fl) (ho : order ≤ maxOrder) :
    (fl order).length ≤ st.frameCount := by
  have hs : (fl order) ⊆ List.range st.frameCount := fun i hi =>
    List.mem_range.2 (h.index_lt ho hi)
  simpa using (List.subperm_of_subset (h.lists.nodup ho) hs).length_le

/-- The node from which on a list is left to visit. -/
def front (order : ℕ) (bs : List ℕ) : Node := (bs.map Node.page).headD (.head order)

theorem Lists.next_page (h : Lists st fl) (ho : order ≤ maxOrder) {as bs : List ℕ}
    (he : fl order = as ++ idx :: bs) : st.links.next (.page idx) = some (front order bs) := by
  have hr := h.ring order ho
  rw [he, List.map_append, List.map_cons] at hr
  exact hr.next_of_append

theorem Lists.next_head (h : Lists st fl) (ho : order ≤ maxOrder) :
    st.links.next (.head order) = some (front order (fl order)) := (h.ring order ho).next_head

theorem Lists.walk_eq (h : Lists st fl) (ho : order ≤ maxOrder) (as : List ℕ) {bs : List ℕ}
    {fuel : ℕ} (he : fl order = as ++ bs) (hf : bs.length ≤ fuel) :
    st.walk order fuel (some (front order bs)) = bs := by
  induction bs generalizing as fuel with
  | nil => cases fuel <;> rfl
  | cons i bs ih =>
    obtain ⟨fuel, rfl⟩ : ∃ n, fuel = n + 1 := ⟨fuel - 1, by simp at hf; omega⟩
    change i :: st.walk order fuel (st.links.next (.page i)) = _
    rw [h.next_page ho he, ih (as ++ [i]) (by simp [he]) (by simpa using hf)]

/-- **Walking a list** finds its blocks. -/
theorem FreeArea.freeList_eq (h : FreeArea st fl) (ho : order ≤ maxOrder) :
    st.freeList order = fl order := by
  have := h.length_le ho
  rw [MmState.freeList, h.lists.next_head ho]
  exact h.lists.walk_eq ho [] rfl (by omega)

theorem FreeArea.freeBlocks_eq (h : FreeArea st fl) : st.freeBlocks = blocks fl := by
  ext b
  constructor <;> rintro ⟨hb, hm⟩ <;> refine ⟨hb, ?_⟩
  · rwa [h.freeList_eq hb] at hm
  · rwa [h.freeList_eq hb]

variable {F : Set ℕ}

@[simp] theorem blocks_nil : blocks (fun _ => []) = ∅ := by
  ext b
  simp [blocks]

theorem coalesced_nil (hr : ∀ o ≤ maxOrder, Ring st.links (.head o) [])
    (hp : ∀ f, (st.frameArray f).inFreeList = false) : Coalesced st (fun _ => []) ∅ := by
  have hreg : ∀ f, f ∉ region (blocks fun _ => []) := by
    rintro f ⟨b, hb, -⟩
    rw [blocks_nil] at hb
    exact hb
  refine ⟨⟨⟨hr, ?_, ?_, fun f _ => hp f⟩, ?_, fun f hf => absurd hf (hreg f)⟩, ?_, fun f =>
    iff_of_false (hreg f) (Set.notMem_empty f)⟩
  · intro o _ o' _ idx hm
    cases hm
  · intro o _ idx hm
    cases hm
  · rw [blocks_nil]
    exact tiling_empty
  · intro b hb
    rw [blocks_nil] at hb
    exact hb.elim

/-- **Adding a block** whose buddy is not free. -/
theorem Coalesced.add (h : Coalesced st fl F) (ho : order ≤ maxOrder)
    (ha : (⟨idx, order⟩ : Block).Aligned)
    (hn : ∀ f, (⟨idx, order⟩ : Block).Covers f → f ∉ F ∧ f < st.frameCount)
    (hb : order < maxOrder → (⟨idx, order⟩ : Block).buddy ∉ blocks fl) :
    ∃ st' fl', st.addFreeBlock idx order = some st' ∧
      Coalesced st' fl' {f | f ∈ F ∨ (⟨idx, order⟩ : Block).Covers f} ∧ SameRange st st' ∧
      ∀ f, f ≠ idx → st'.frameArray f = st.frameArray f := by
  obtain ⟨st', h1, h2, h3, h4⟩ := h.area.add ho ha fun f hf =>
    ⟨fun hf' => (hn f hf).1 ((h.region f).1 hf'), (hn f hf).2⟩
  refine ⟨st', _, h1, ⟨h2, ?_, fun f => ?_⟩, h3, fun f hf => ?_⟩
  · rw [blocks_cons ho]
    rintro b (rfl | hm) hbo hbb
    · rcases hbb with he | hbb
      · have hc := Block.covers_index ⟨idx, order⟩
        exact ha.not_covers_buddy hc (by rw [he]; exact hc)
      · exact hb hbo hbb
    · rcases hbb with he | hbb
      · have hbord : b.order = order := congrArg Block.order he
        rw [← he, Block.buddy_buddy] at hb
        exact hb (hbord ▸ hbo) hm
      · exact h.noBuddies b hm hbo hbb
  · rw [blocks_cons ho, mem_region_insert, h.region]
    exact or_comm
  · rw [h4, frameArray_setPage_of_ne _ hf]

/-- **Removing a block.** -/
theorem Coalesced.remove (h : Coalesced st fl F) (hb : (⟨idx, order⟩ : Block) ∈ blocks fl) :
    ∃ st' fl', st.removeFreeBlock idx = some st' ∧
      Coalesced st' fl' {f | f ∈ F ∧ ¬ (⟨idx, order⟩ : Block).Covers f} ∧ SameRange st st' ∧
      blocks fl' = blocks fl \ {⟨idx, order⟩} ∧
      ∀ f, f ≠ idx → st'.frameArray f = st.frameArray f := by
  obtain ⟨st', h1, h2, h3, h4⟩ := h.area.remove hb.1 hb.2
  have hbl : blocks (Function.update fl order ((fl order).erase idx)) =
      blocks fl \ {⟨idx, order⟩} := h.area.lists.blocks_erase hb.1
  refine ⟨st', _, h1, ⟨h2, ?_, fun f => ?_⟩, h3, hbl, fun f hf => ?_⟩
  · rw [hbl]
    exact fun b hm hbo hbb => h.noBuddies b hm.1 hbo hbb.1
  · rw [hbl, h.area.tiling.mem_region_erase hb, h.region]
    rfl
  · rw [h4, frameArray_setPage_of_ne _ hf]

theorem Coalesced.notListed (h : Coalesced st fl F) (hf : idx ∉ F) : NotListed fl idx :=
  notListed_of_region fun hr => hf ((h.region idx).1 hr)

/-- **Changing the metadata** of a frame in use. -/
theorem Coalesced.setPage (h : Coalesced st fl F) (hn : idx ∉ F) {f : Page → Page}
    (hf : ∀ p, p.inFreeList = false → (f p).inFreeList = false) :
    Coalesced (st.setPage idx f) fl F :=
  have hl := h.notListed hn
  ⟨h.area.setPage hl (hf _ (h.area.lists.notListed idx hl)), h.noBuddies, h.region⟩

theorem Coalesced.congr (h : Coalesced st fl F) {F' : Set ℕ} (hF : ∀ f, f ∈ F ↔ f ∈ F') :
    Coalesced st fl F' :=
  ⟨h.area, h.noBuddies, fun f => (h.region f).trans (hF f)⟩

theorem Coalesced.lt (h : Coalesced st fl F) {f : ℕ} (hf : f ∈ F) : f < st.frameCount :=
  h.area.lt f ((h.region f).2 hf)

end Blocks

end OscKernel.Mm.Frames
