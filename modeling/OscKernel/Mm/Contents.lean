import OscKernel.Mm.Complete

/-! # What callers wrote

The lists of free chunks go through the chunks themselves, and so the allocator writes into memory that
callers had and others will have.

* `written a v cs`: the byte at `a` after the calls `cs`, if only callers write.
* `step_mem`: where a call writes.
* `contents_of_run`: as long as an extent is held, its bytes are what was last written to them.
* `outside_run`: what is not in the frames that are shared out stays as it is. -/

namespace OscKernel.Mm.Contents

open OscKernel.Lib.Memory OscKernel.Lib.Dyadic OscKernel.Lib.Transition OscKernel.Vm.Tables
  OscKernel.Mm.Frames OscKernel.Mm.Reserve OscKernel.Mm.Pages OscKernel.Mm.Init OscKernel.Mm.Held
  OscKernel.Mm.Chunks OscKernel.Mm.Heap OscKernel.Mm.Callers OscKernel.Mm.Complete

/-- The byte at `a` after the call. -/
def afterCall (a : Word) (v : Byte) : Call → Byte
  | .write addr w => if addr = a then w else v
  | _ => v

/-- The byte at `a` after the calls, if it was `v`. -/
def written (a : Word) (v : Byte) (cs : List Call) : Byte := cs.foldl (afterCall a) v

/-- The address lies in no page of the frames. -/
def Outside (k : Pointers) (st : MmState) (F : Set ℕ) (a : Word) : Prop :=
  ∀ f ∈ F, 4096 ≤ (a - ptrAt k st (f * 4096)).toNat

/-! ### The functions -/

section Functions
variable {k : Pointers} {F0 : Set ℕ} {st st' : MmState} {fl : ℕ → List ℕ} {cp : List (ℕ × Fin 8)}
  {cl : Fin 8 → List ℕ} {live : List Extent} {e e' : Extent} {i : Fin 8} {x n order : ℕ}
  {a p size : Word}

theorem pushed_mem (h : 8 ≤ (a - p).toNat) : (pushed i p st).mem a = st.mem a :=
  if_neg (not_lt.2 h)

theorem pushChunk_mem (h : 8 ≤ (a - p).toNat) (hk : pushChunk k i p st = some st') :
    st'.mem a = st.mem a := by
  unfold pushChunk at hk
  split_ifs at hk
  rw [← Option.some.inj hk, pushed_mem h]

/-- **The loop that cuts a page** writes into the page only. -/
theorem chunkLoop_mem (fuel off : ℕ) (ha : 4096 ≤ (a - p).toNat)
    (hk : chunkLoop k i p fuel off st = some st') : st'.mem a = st.mem a := by
  have hpos := chunkSize_pos i
  induction fuel generalizing off st with
  | zero => cases hk
  | succ fuel ih =>
    rw [chunkLoop, poolSizes_toNat] at hk
    split_ifs at hk with hle
    · have hfar : 8 ≤ (a - (p + BitVec.ofNat 64 off)).toNat := by bv_omega
      obtain ⟨st1, h1, h2⟩ := Option.bind_eq_some_iff.1 hk
      rw [ih _ h2, pushChunk_mem hfar h1]
    · rw [Option.some.inj hk]

theorem popChunk_mem (hk : popChunk k i st = some (p, st')) : st'.mem = st.mem := by
  unfold popChunk at hk
  dsimp only at hk
  split_ifs at hk
  · rw [← (Prod.mk.inj (Option.some.inj hk)).2]
  · rw [← (Prod.mk.inj (Option.some.inj hk)).2]

theorem allocPages_mem (h : Shared k F0 st fl cp cl live) (hk : allocPages k order st = some (p, st')) :
    st'.mem = st.mem := by
  obtain ⟨p', st1, h1, h2⟩ := h.allocPages order
  obtain ⟨rfl, rfl⟩ := Prod.mk.inj (Option.some.inj (h1.symm.trans hk))
  cases h2 with
  | failed => rfl
  | taken _ _ _ _ _ _ same _ => exact same.mem

/-- **`allocate`** writes into free pages only. -/
theorem allocate_mem (h : Shared k F0 st fl cp cl live) (ha : Outside k st (region (blocks fl)) a)
    (hk : allocate k size st = some (p, st')) : st'.mem a = st.mem a := by
  unfold Chunks.allocate at hk
  split_ifs at hk with h0 hmax hle
  · rw [(Prod.mk.inj (Option.some.inj hk)).2]
  · rw [(Prod.mk.inj (Option.some.inj hk)).2]
  · obtain ⟨i, hi, -⟩ := findPool_spec hle
    unfold Chunks.allocChunk at hk
    rw [hi] at hk
    dsimp only at hk
    obtain ⟨st1, h1, h2⟩ := Option.bind_eq_some_iff.1 hk
    rw [popChunk_mem h2]
    split_ifs at h1 with hempty
    · obtain ⟨⟨page, st2⟩, h3, h4⟩ := Option.bind_eq_some_iff.1 h1
      dsimp only at h4
      split_ifs at h4 with hpage hidx
      · rw [← Option.some.inj h4, allocPages_mem h h3]
      · -- the page that is cut was free
        obtain ⟨page', st3, h5, h6⟩ := h.allocPages 0
        obtain ⟨rfl, rfl⟩ := Prod.mk.inj (Option.some.inj (h5.symm.trans h3))
        have hmem := allocPages_mem h h3
        cases h6 with
        | failed => exact absurd rfl hpage
        | taken first aligned free left area changed same shared =>
          rw [chunkLoop_mem _ _ (ha _ (free _ (Block.covers_index _))) h4]
          exact congrFun hmem a
    · rw [Option.some.inj h1]
  · rw [allocPages_mem h hk]

theorem freePages_mem {blk : Block} (h : Shared k F0 st fl cp cl (.pages blk :: live))
    (hk : freePages k (ptrAt k st (blk.index * 4096)) st = some st') : st'.mem = st.mem := by
  obtain ⟨st1, fl', h1, same, -⟩ := h.freePages
  rw [← Option.some.inj (h1.symm.trans hk), same.mem]

/-- **`free`** writes into the chunk that is given back only. -/
theorem free_mem (h : Shared k F0 st fl cp cl (e :: live))
    (ha : ∀ i n, e = .chunk i n → 8 ≤ (a - ptrAt k st n).toNat)
    (hk : free k (ptrAt k st e.offset) st = some st') : st'.mem a = st.mem a := by
  cases e with
  | pages blk =>
    rw [show (Extent.pages blk).offset = blk.index * 4096 from rfl, h.freeLarge] at hk
    rw [freePages_mem h hk]
  | chunk i n =>
    rw [show (Extent.chunk i n).offset = n from rfl, h.freeChunk] at hk
    rw [← Option.some.inj hk]
    exact pushed_mem (ha i n rfl)

/-! ### Where they do not write -/

theorem far_of_apart (h : Shared k F0 st fl cp cl live) {d : ℕ} (hd : d ≤ 4096)
    (hx : x < st.managedSize.toNat) (hn : n < st.managedSize.toNat) (ha : x < n ∨ n + d ≤ x) :
    d ≤ (ptrAt k st x - ptrAt k st n).toNat := by
  have hlt := h.holding.managed.lt
  have hsize := h.holding.managed.size
  rcases ha with ha | ha
  · rw [h.translates.sub_of_lt ha (by omega)]
    omega
  · rw [h.translates.sub (by omega) (by omega)]
    omega

/-- **What is held** lies in no free page. -/
theorem held_outside (h : Shared k F0 st fl cp cl live) (he : e ∈ live) (hx : e.Has x) :
    Outside k st (region (blocks fl)) (ptrAt k st x) := by
  intro f hf
  have hlt := h.has_lt (.inl he) hx
  have hflt := h.holding.lt f (((h.holding.coalesced.region f).1 hf).1)
  have hsize := h.holding.managed.size
  have hne : x / 4096 ≠ f := by
    obtain ⟨blk, hb, hcov⟩ := h.held_of_has (.inl he) hx
    rintro rfl
    exact h.holding.notFree hb hcov hf
  exact far_of_apart h le_rfl hlt (by omega) (by omega)

theorem held_apart (h : Shared k F0 st fl cp cl (e' :: live)) (he : e ∈ live) (hx : e.Has x) :
    ∀ i n, e' = .chunk i n → 8 ≤ (ptrAt k st x - ptrAt k st n).toNat := by
  rintro i n rfl
  have howner : Owner cl (.chunk i n :: live) e := .inl (List.mem_cons_of_mem _ he)
  have hself : Owner cl (.chunk i n :: live) (.chunk i n) := .inl List.mem_cons_self
  have hne : e ≠ .chunk i n := by
    rintro rfl
    exact (List.nodup_cons.1 h.live_nodup).1 he
  have hpos := chunkSize_pos i
  have hapart := h.apart howner hself hne
  have hlt := h.has_lt howner hx
  have hlt' := h.has_lt hself (Extent.has_offset _)
  obtain ⟨h1, h2⟩ := hx
  refine far_of_apart h (by omega) hlt hlt' ?_
  change _ ∨ n + chunkSize i ≤ _ at hapart
  change _ ≤ n ∨ _ at hapart
  omega

theorem Outside.free (h : Shared k F0 st fl cp cl live) (ha : Outside k st F0 a) :
    Outside k st (region (blocks fl)) a :=
  fun f hf => ha f ((h.holding.coalesced.region f).1 hf).1

theorem Outside.apart (h : Shared k F0 st fl cp cl (e :: live)) (ha : Outside k st F0 a) :
    ∀ i n, e = .chunk i n → 8 ≤ (a - ptrAt k st n).toNat := by
  rintro i n rfl
  obtain ⟨hc, hd⟩ := h.owner_chunk (.inl List.mem_cons_self)
  have hpage : n / 4096 ∈ F0 :=
    h.holding.within _ (mem_heldBlocks.2 (.inr ⟨_, hc, rfl⟩)) _ (Block.covers_index _)
  have hfar := ha _ hpage
  have hle := chunk_le hd
  have hpos := chunkSize_pos i
  have hn : ptrAt k st n = ptrAt k st (n / 4096 * 4096) + BitVec.ofNat 64 (n % 4096) := by
    rw [h.translates.add, Nat.mul_comm, Nat.div_add_mod]
  rw [hn]
  have hlt : n % 4096 + 16 ≤ 4096 := by omega
  bv_omega

end Functions

/-! ### The calls -/

section Calls
variable {k : Pointers} {F0 : Set ℕ} {st0 : MmState} {s s' : Sys} {l : Live} {c : Call} {x : ℕ}
  {cs : List Call} {fl : ℕ → List ℕ} {cp : List (ℕ × Fin 8)} {cl : Fin 8 → List ℕ} {a : Word}

theorem addr_eq (h : Inv k F0 st0 s) (hh : Shared k F0 s.mm fl cp cl (s.live.map Live.extent))
    (hl : l ∈ s.live) (a : Word) : a = ptrAt k s.mm (l.extent.offset + (a - l.ptr).toNat) := by
  rw [← hh.translates.add, h.ptr_eq, ← (h.stands l hl).ptr, BitVec.ofNat_toNat, BitVec.setWidth_eq,
    BitVec.add_comm, BitVec.sub_add_cancel]

/-- **One call** writes only by `write`, unless into a free page or the chunk that is given back. -/
theorem step_mem (h : Shared k F0 s.mm fl cp cl (s.live.map Live.extent)) (hi : Inv k F0 st0 s)
    (hs : step k s c = some s') (hfree : Outside k s.mm (region (blocks fl)) a)
    (hgone : ∀ l ∈ s.live, s'.live = s.live.erase l → ∀ i n, l.extent = .chunk i n →
      8 ≤ (a - ptrAt k s.mm n).toNat) :
    s'.mm.mem a = afterCall a (s.mm.mem a) c := by
  cases c with
  | allocPages order =>
    obtain ⟨⟨p, mm⟩, h1, rfl⟩ := Option.map_eq_some_iff.1 hs
    exact congrFun (allocPages_mem h h1) a
  | freePages p =>
    obtain ⟨l0, h0, hs⟩ := Option.bind_eq_some_iff.1 hs
    obtain ⟨mm, h1, rfl⟩ := Option.map_eq_some_iff.1 hs
    obtain ⟨hm0, -, hapi, hptr, hperm⟩ := hi.take h0
    obtain ⟨blk, hblk⟩ := (hi.stands l0 hm0).pages hapi
    rw [hblk] at hptr hperm
    rw [hptr] at h1
    exact congrFun (freePages_mem (h.perm hperm) h1) a
  | allocate size =>
    obtain ⟨⟨p, mm⟩, h1, rfl⟩ := Option.map_eq_some_iff.1 hs
    exact allocate_mem h hfree h1
  | free p =>
    obtain ⟨l0, h0, hs⟩ := Option.bind_eq_some_iff.1 hs
    obtain ⟨mm, h1, rfl⟩ := Option.map_eq_some_iff.1 hs
    obtain ⟨hm0, -, -, hptr, hperm⟩ := hi.take h0
    rw [hptr] at h1
    exact free_mem (h.perm hperm) (hgone l0 hm0 rfl) h1
  | write addr v =>
    rw [Callers.step] at hs
    split_ifs at hs with hany
    rw [← Option.some.inj hs]
    change Function.update s.mm.mem addr v _ = _
    rw [Function.update_apply, afterCall]
    exact if_congr eq_comm rfl rfl

/-- **One call** changes the bytes of an extent that stays held by `write` only. -/
theorem held_step (h : Inv k F0 st0 s) (hs : step k s c = some s') (hl : l ∈ s.live)
    (hl' : l ∈ s'.live) (hx : l.extent.Has x) :
    s'.mm.mem (ptrAt k st0 x) = afterCall (ptrAt k st0 x) (s.mm.mem (ptrAt k st0 x)) c := by
  obtain ⟨fl, cp, cl, hh⟩ := h.shared
  rw [← h.ptr_eq]
  refine step_mem hh h hs (held_outside hh (List.mem_map.2 ⟨l, hl, rfl⟩) hx) fun l0 hm0 he => ?_
  have hperm : (s.live.map Live.extent).Perm (l0.extent :: (s.live.erase l0).map Live.extent) :=
    (List.perm_cons_erase hm0).map Live.extent
  rw [he] at hl'
  exact held_apart (hh.perm hperm) (List.mem_map.2 ⟨l, hl', rfl⟩) hx

/-- **One call** changes nothing outside of the frames that are shared out. -/
theorem outside_step (h : Inv k F0 st0 s) (hs : step k s c = some s') (ha : Outside k st0 F0 a) :
    s'.mm.mem a = s.mm.mem a := by
  obtain ⟨fl, cp, cl, hh⟩ := h.shared
  have ha' : Outside k s.mm F0 a := fun f hf => by
    rw [h.ptr_eq]
    exact ha f hf
  rw [step_mem hh h hs (ha'.free hh) fun l0 hm0 _ =>
    ha'.apart (hh.perm ((List.perm_cons_erase hm0).map Live.extent))]
  cases c with
  | write addr v =>
    rw [Callers.step] at hs
    split_ifs at hs with hany
    obtain ⟨l, hl, hlt⟩ := List.any_eq_true.1 hany.2
    have hlt := of_decide_eq_true hlt
    refine if_neg fun hne => ?_
    subst hne
    -- the byte that is written lies in a page of the frames
    have hx : l.extent.Has (l.extent.offset + (addr - l.ptr).toNat) :=
      ⟨Nat.le_add_right _ _, Nat.add_lt_add_left hlt _⟩
    have haddr := addr_eq h hh hl addr
    obtain ⟨blk, hb, hcov⟩ := hh.held_of_has (.inl (List.mem_map.2 ⟨l, hl, rfl⟩)) hx
    have hfar := ha' _ (hh.holding.within blk hb _ hcov)
    generalize l.extent.offset + (addr - l.ptr).toNat = y at *
    have hy : ptrAt k s.mm y = ptrAt k s.mm (y / 4096 * 4096) + BitVec.ofNat 64 (y % 4096) := by
      rw [hh.translates.add, Nat.mul_comm, Nat.div_add_mod]
    have hmod : y % 4096 < 4096 := Nat.mod_lt _ (by omega)
    rw [haddr, hy] at hfar
    bv_omega
  | _ => rfl

/-- **A run** in which the extent stays held. -/
theorem run_mem (h : Inv k F0 st0 s) (hn : ∀ n < st0.managedSize.toNat, ptrAt k st0 n ≠ 0)
    (hr : Run (step k) (fun s _ => l ∈ s.live) s cs s') (hl' : l ∈ s'.live) (hx : l.extent.Has x) :
    s'.mm.mem (ptrAt k st0 x) = written (ptrAt k st0 x) (s.mm.mem (ptrAt k st0 x)) cs := by
  induction hr with
  | nil => rfl
  | @cons s s1 s' c cs hl hs hr ih =>
    have hl1 : l ∈ s1.live := by
      cases hr with
      | nil => exact hl'
      | cons hc _ _ => exact hc
    rw [ih (h.step (h.not_loses hn) hs) hl', held_step h hs hl hl1 hx]
    rfl

/-- **A run** changes nothing outside of the frames that are shared out. -/
theorem outside_run (h : Inv k F0 st0 s) (hn : ∀ n < st0.managedSize.toNat, ptrAt k st0 n ≠ 0)
    (hr : Run (step k) (fun _ _ => True) s cs s') (ha : Outside k st0 F0 a) :
    s'.mm.mem a = s.mm.mem a := by
  have hinv : Inv k F0 st0 s' ∧ s'.mm.mem a = s.mm.mem a :=
    hr.invariant (I := fun r => Inv k F0 st0 r ∧ r.mm.mem a = s.mm.mem a)
      (fun r c r' ⟨hi, he⟩ _ hs => ⟨hi.step (hi.not_loses hn) hs, (outside_step hi hs ha).trans he⟩)
      ⟨h, rfl⟩
  exact hinv.2

end Calls

/-! ### lab6 -/

section Run
variable {b : Boot} {st : MmState} {cs cs' : List Call} {s s' : Sys} {l : Live} {a : Word}

/-- **Callers read what they wrote.** Take any run of calls on a machine whose managed range lies in
the linear mapping, and any further calls in which the extent of `l` stays held. Then each of its bytes
is what was last written to it, or what it was. -/
theorem contents_of_run (hinit : mmInit b = some st)
    (hl : b.managedBase.toNat + b.managedSize.toNat ≤ 2 ^ 38)
    (hr : Run (step .linear) (fun _ _ => True) ⟨st, []⟩ cs s)
    (hheld : Run (step .linear) (fun s _ => l ∈ s.live) s cs' s') (hl' : l ∈ s'.live)
    (ha : (a - l.ptr).toNat < l.extent.length) :
    s'.mm.mem a = written a (s.mm.mem a) cs' := by
  obtain ⟨hinv, hm, hmapped⟩ := inv_of_run hinit hl hr
  have hmem : l ∈ s.live := by
    cases hheld with
    | nil => exact hl'
    | cons hc _ _ => exact hc
  obtain ⟨fl, cp, cl, hh⟩ := hinv.shared
  have hptr := addr_eq hinv hh hmem a
  rw [hinv.ptr_eq] at hptr
  rw [hptr]
  exact run_mem hinv (fun n => linear_ptr_ne hm hmapped) hheld hl'
    ⟨Nat.le_add_right _ _, Nat.add_lt_add_left ha _⟩

end Run

/-- The chunk that the first call on a small machine gets. -/
def firstChunk : Live := ⟨0xffffffc080002800, .chunk 7 0x1800, 2000, .bytes⟩

/-- Its owner writes a byte twice. Meanwhile the rest of the page is handed out and comes back. -/
def secondCalls : List Call :=
  [.write 0xffffffc080002803 6, .allocate 2048, .write 0xffffffc080002803 7, .write 0xffffffc080002000 9,
    .free 0xffffffc080002000, .allocPages 0]

theorem contents_of_run_small : ∃ st s s', mmInit smallBoot = some st ∧
    Run (step .linear) (fun _ _ => True) ⟨st, []⟩ [.allocate 2000] s ∧
    Run (step .linear) (fun s _ => firstChunk ∈ s.live) s secondCalls s' ∧
    s'.mm.mem 0xffffffc080002803 =
      written 0xffffffc080002803 (s.mm.mem 0xffffffc080002803) secondCalls := by
  have hexec : ((mmInit smallBoot).bind fun st =>
      (exec (step .linear) (fun _ _ => true) ⟨st, []⟩ [.allocate 2000]).bind fun s =>
        (exec (step .linear) (fun s _ => decide (firstChunk ∈ s.live)) s secondCalls).map fun s' =>
          decide (firstChunk ∈ s'.live)) = some true := by decide +kernel
  obtain ⟨st, hst, hexec⟩ := Option.bind_eq_some_iff.1 hexec
  obtain ⟨s, hs, hexec⟩ := Option.bind_eq_some_iff.1 hexec
  obtain ⟨s', hr, hlive⟩ := Run.exists_of_exec (C := fun (s : Sys) _ => firstChunk ∈ s.live)
    (fun _ _ => of_decide_eq_true) hexec
  have hr0 := Run.of_exec (C := fun _ _ => True) (fun _ _ _ => trivial) hs
  exact ⟨st, s, s', hst, hr0, hr,
    contents_of_run hst (by decide) hr0 hr (of_decide_eq_true hlive) (by decide)⟩

end OscKernel.Mm.Contents
