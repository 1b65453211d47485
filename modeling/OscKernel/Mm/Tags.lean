import OscKernel.Mm.Init
import OscKernel.Mm.Pages

/-! # Pools of frames

The metadata of a frame names the pool whose chunks the page was cut into. The functions for free
lists and pages name none: after each of them a frame has the pool that it had before, or `-1`
(`Untags`). So the pools of the frames come from `refill_chunk_pool` only (`Tagged`). -/

namespace OscKernel.Mm.Tags

open OscKernel.Lib.Memory OscKernel.Lib.Dyadic OscKernel.Mm.Frames OscKernel.Mm.Reserve
  OscKernel.Mm.Pages OscKernel.Mm.Init

/-- Each frame keeps its pool, or has none afterwards. -/
def Untags (st st' : MmState) : Prop := ∀ f,
  (st'.frameArray f).chunkPool = (st.frameArray f).chunkPool ∨ (st'.frameArray f).chunkPool = -1

section Untags
variable {st st1 st' : MmState} {idx order : ℕ} {k : Pointers} {p : Word}

theorem Untags.of_eq (h : st'.frameArray = st.frameArray) : Untags st st' := fun f =>
  .inl (by rw [h])

theorem Untags.refl : Untags st st := .of_eq rfl

theorem Untags.trans (h : Untags st st1) (h' : Untags st1 st') : Untags st st' := by
  intro f
  rcases h' f with he | he
  · rw [he]
    exact h f
  · exact .inr he

theorem Untags.bind {o : Option MmState} {g : MmState → Option MmState} (h : o.bind g = some st')
    (ho : ∀ st1, o = some st1 → Untags st st1) (hg : ∀ st1, g st1 = some st' → Untags st1 st') :
    Untags st st' := by
  obtain ⟨st1, h1, h2⟩ := Option.bind_eq_some_iff.1 h
  exact (ho st1 h1).trans (hg st1 h2)

theorem untags_setPage {f : Page → Page}
    (h : ∀ p, (f p).chunkPool = p.chunkPool ∨ (f p).chunkPool = -1) :
    Untags st (st.setPage idx f) := by
  intro i
  rcases eq_or_ne i idx with rfl | hne
  · rw [frameArray_setPage_same]
    exact h _
  · rw [frameArray_setPage_of_ne _ hne]
    exact .inl rfl

theorem untags_addFreeBlock (h : st.addFreeBlock idx order = some st') : Untags st st' := by
  unfold MmState.addFreeBlock at h
  split at h
  · cases h
  · obtain ⟨l, -, rfl⟩ := Option.map_eq_some_iff.1 h
    have hset : Untags st (st.setPage idx fun _ => ⟨order, .free, true, 0, -1⟩) :=
      untags_setPage fun _ => .inr rfl
    exact hset.trans (.of_eq rfl)

theorem untags_removeFreeBlock (h : st.removeFreeBlock idx = some st') : Untags st st' := by
  unfold MmState.removeFreeBlock at h
  split at h
  · cases h
  · obtain ⟨l, -, rfl⟩ := Option.map_eq_some_iff.1 h
    have hlinks : Untags st (st.setLinks l) := .of_eq rfl
    exact hlinks.trans (untags_setPage fun _ => .inl rfl)

/-! ### Pages -/

theorem untags_splitLoop {current : ℕ} (h : splitLoop idx order current st = some st') :
    Untags st st' := by
  induction current generalizing st with
  | zero => exact Option.some.inj h ▸ .refl
  | succ current ih =>
    unfold splitLoop at h
    split at h
    · refine .bind h (fun _ => untags_addFreeBlock) fun st1 h1 => Untags.trans ?_ (ih h1)
      exact untags_setPage fun _ => .inl rfl
    · exact Option.some.inj h ▸ .refl

theorem untags_allocLoop {n current : ℕ} (h : allocLoop k order n current st = some (p, st')) :
    Untags st st' := by
  induction n generalizing current with
  | zero => exact (Prod.mk.inj (Option.some.inj h)).2 ▸ .refl
  | succ n ih =>
    unfold allocLoop at h
    split at h
    · exact ih h
    · split at h
      · obtain ⟨st1, h1, h⟩ := Option.bind_eq_some_iff.1 h
        obtain ⟨st2, h2, h⟩ := Option.bind_eq_some_iff.1 h
        rw [← (Prod.mk.inj (Option.some.inj h)).2]
        exact (untags_removeFreeBlock h1).trans <|
          (untags_splitLoop h2).trans (untags_setPage fun _ => .inr rfl)
      · cases h

/-- `alloc_pages` names no pool. -/
theorem untags_allocPages (h : allocPages k order st = some (p, st')) : Untags st st' := by
  unfold allocPages at h
  split at h
  · exact (Prod.mk.inj (Option.some.inj h)).2 ▸ .refl
  · exact untags_allocLoop h

theorem untags_mergeLoop {n idx' order' : ℕ} (h : mergeLoop n idx order st = some (idx', order', st')) :
    Untags st st' := by
  induction n generalizing st idx order with
  | zero =>
    obtain ⟨-, -, rfl⟩ : idx = idx' ∧ order = order' ∧ st = st' := by simpa using Option.some.inj h
    exact .refl
  | succ n ih =>
    have hstop : some (idx, order, st) = some (idx', order', st') → Untags st st' := by
      intro he
      obtain ⟨-, -, rfl⟩ : idx = idx' ∧ order = order' ∧ st = st' := by simpa using he
      exact .refl
    unfold mergeLoop at h
    dsimp only at h
    split at h
    · exact hstop h
    · split at h
      · exact hstop h
      · obtain ⟨st1, h1, h2⟩ := Option.bind_eq_some_iff.1 h
        refine (untags_removeFreeBlock h1).trans (Untags.trans ?_ (ih h2))
        exact untags_setPage fun _ => .inl rfl

/-- `free_pages` names no pool. -/
theorem untags_freePages (h : freePages k p st = some st') : Untags st st' := by
  unfold freePages at h
  dsimp only at h
  split at h
  · exact Option.some.inj h ▸ .refl
  · split at h
    · exact Option.some.inj h ▸ .refl
    · split at h
      · exact Option.some.inj h ▸ .refl
      · obtain ⟨⟨idx, order, st1⟩, h1, h2⟩ := Option.bind_eq_some_iff.1 h
        exact (untags_setPage fun _ => .inr rfl).trans <|
          (untags_mergeLoop h1).trans (untags_addFreeBlock h2)

/-! ### Reserving, and `mm_init` -/

variable {s e : ℕ}

theorem untags_reserveBlock (h : reserveBlock s e order idx st = some st') : Untags st st' := by
  unfold reserveBlock at h
  split at h
  · exact Option.some.inj h ▸ .refl
  · refine .bind h (fun _ => untags_removeFreeBlock) fun st1 h1 => ?_
    split at h1
    · rw [← Option.some.inj h1]
      exact untags_setPage fun _ => .inr rfl
    · exact .bind h1 (fun _ => untags_addFreeBlock) fun _ => untags_addFreeBlock

theorem untags_reserveLoop {fuel : ℕ} {node : Node}
    (h : reserveLoop s e order fuel node st = some st') : Untags st st' := by
  have hhead : ∀ {o} {st : MmState}, (if o = order then some st else none) = some st' →
      Untags st st' := by
    intro o st he
    split at he
    · exact Option.some.inj he ▸ .refl
    · cases he
  induction fuel generalizing st node with
  | zero =>
    cases node with
    | head o => exact hhead h
    | page idx => cases h
  | succ fuel ih =>
    cases node with
    | head o => exact hhead h
    | page idx =>
      obtain ⟨next, -, h⟩ := Option.bind_eq_some_iff.1 h
      exact .bind h (fun _ => untags_reserveBlock) fun _ => ih

theorem untags_reserveOrders (h : reserveOrders s e order st = some st') : Untags st st' := by
  have hpass : ∀ {order st1 st2}, reserveOrder s e order st1 = some st2 → Untags st1 st2 := by
    intro order st1 st2 h1
    obtain ⟨p, -, h1⟩ := Option.bind_eq_some_iff.1 h1
    exact untags_reserveLoop h1
  induction order generalizing st with
  | zero => exact hpass h
  | succ order ih => exact .bind h (fun _ => hpass) fun _ => ih

theorem untags_memoryReserve {start size : Word} (h : memoryReserve st start size = some st') :
    Untags st st' := by
  have hsame : some st = some st' → Untags st st' := fun he => Option.some.inj he ▸ .refl
  unfold memoryReserve at h
  dsimp only at h
  split at h
  · exact hsame h
  · split at h
    · exact hsame h
    · split at h
      · exact hsame h
      · exact untags_reserveOrders h

theorem untags_cut {fuel : ℕ} (h : cut fuel idx st = some st') : Untags st st' := by
  induction fuel generalizing idx st with
  | zero =>
    unfold cut at h
    split at h
    · cases h
    · exact Option.some.inj h ▸ .refl
  | succ fuel ih =>
    unfold cut at h
    split at h
    · exact .bind h (fun _ => untags_addFreeBlock) fun _ => ih
    · exact Option.some.inj h ▸ .refl

theorem untags_reserveAll {rs : List Region} (h : reserveAll rs st = some st') : Untags st st' := by
  induction rs generalizing st with
  | nil => exact Option.some.inj h ▸ .refl
  | cons r rs ih => exact .bind h (fun _ => untags_memoryReserve) fun _ => ih

end Untags

/-- **After `mm_init`** no frame has a pool. -/
theorem chunkPool_of_mmInit {b : Boot} {st : MmState} (h : mmInit b = some st) (f : ℕ) :
    (st.frameArray f).chunkPool = -1 := by
  obtain ⟨rs, -, h⟩ := Option.bind_eq_some_iff.1 h
  obtain ⟨p, -, h⟩ := Option.bind_eq_some_iff.1 h
  split at h
  · cases h
  · obtain ⟨rs', -, h⟩ := Option.bind_eq_some_iff.1 h
    obtain ⟨st1, h1, h2⟩ := Option.bind_eq_some_iff.1 h
    rcases (untags_cut h1).trans (untags_reserveAll h2) f with he | he
    · exact he
    · exact he

/-! ### The pages that were cut up -/

/-- A frame has no pool, or it is one of the pages `cp`, with its pool. -/
def Tagged (st : MmState) (cp : List (ℕ × Fin 8)) : Prop := ∀ f,
  (st.frameArray f).chunkPool = -1 ∨ ∃ i, (f, i) ∈ cp ∧ (st.frameArray f).chunkPool = (i.1 : ℤ)

section Tagged
variable {st st' : MmState} {cp : List (ℕ × Fin 8)}

theorem Tagged.untag (h : Tagged st cp) (hu : Untags st st') : Tagged st' cp := by
  intro f
  rcases hu f with he | he
  · rw [he]
    exact h f
  · exact .inl he

/-- A page is cut up for a pool. -/
theorem Tagged.cut (h : Tagged st cp) (idx : ℕ) (i : Fin 8) (size : Word) :
    Tagged (st.setPage idx fun p => { p with chunkSize := size, chunkPool := i }) ((idx, i) :: cp) := by
  intro f
  rcases eq_or_ne f idx with rfl | hne
  · rw [frameArray_setPage_same]
    exact .inr ⟨i, List.mem_cons_self, rfl⟩
  · rw [frameArray_setPage_of_ne _ hne]
    exact (h f).imp_right fun ⟨j, hj, he⟩ => ⟨j, List.mem_cons_of_mem _ hj, he⟩

end Tagged

end OscKernel.Mm.Tags
