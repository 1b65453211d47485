import OscKernel.Mm.Init
import Mathlib.Order.Bounds.Basic

/-! # The startup allocator of lab6

`startup_alloc` looks for room from `startup_ptr` on. A candidate that overlaps a noted region is given
up for the first aligned address behind that region, and the search starts again with the first region
of the table.

* `startupFind`, `startupAllocate`: the search, and what is left in `startup_ptr`; `mm_init` takes the
  pointer (`startupAlloc_eq`).
* `Fits`: an aligned region of the size, in the range, without an address of a noted region.
* `startupAllocate_first_fit`: the lowest region that fits is returned, if there is one. -/

namespace OscKernel.Mm.Startup

open OscKernel.Lib.Memory OscKernel.Lib.Align OscKernel.Vm.Tables OscKernel.Mm.Frames
open OscKernel.Mm.Init

/-! ### The functions -/

/-- `startup_ptr` and `startup_end`. -/
structure StartupRange where
  ptr : Word
  stop : Word
  deriving DecidableEq, Repr

/-- `startup_allocator_init`. -/
def startupAllocatorInit (start stop : Word) : StartupRange := ⟨alignUp start 4096, alignDown stop 4096⟩

/-- The first noted region that the candidate overlaps. -/
def conflict (rs : List Region) (addr size : Word) : Option Region :=
  rs.find? fun r => RangeOverlap addr (addr + size) r.start r.stop

/-- The loop of `startup_alloc`, up to an address or to the end of the range. -/
def startupFind (rs : List Region) (stop size align : Word) : ℕ → Word → Option (Option Word)
  | 0, _ => none
  | fuel + 1, addr =>
    if addr + size ≤ stop then
      match conflict rs addr size with
      | some r => startupFind rs stop size align fuel (alignUp r.stop align)
      | none => some (some addr)
    else some none

/-- `startup_alloc`, with the pointer that it returns. -/
def startupAllocate (rs : List Region) (st : StartupRange) (size align : Word) :
    Option (StartupRange × Word) :=
  let size := alignUp size 4096
  (startupFind rs st.stop size align (rs.length + 1) (alignUp st.ptr align)).map fun found =>
    found.elim (st, 0) fun addr => (⟨addr + size, st.stop⟩, physToVirtAddr addr)

/-- None of the sums that the loop computes wraps. -/
def LoopSums (rs : List Region) (stop size align : Word) : ℕ → Word → Prop
  | 0, _ => True
  | fuel + 1, addr => addr.toNat + size.toNat < 2 ^ 64 ∧
    (addr + size ≤ stop → ∀ r, conflict rs addr size = some r →
      r.stop.toNat + align.toNat ≤ 2 ^ 64 ∧ LoopSums rs stop size align fuel (alignUp r.stop align))

/-- None of the sums that `startup_alloc` computes wraps. -/
structure NoSumWraps (rs : List Region) (st : StartupRange) (size align : Word) : Prop where
  round : size.toNat + 4096 ≤ 2 ^ 64
  ptr : st.ptr.toNat + align.toNat ≤ 2 ^ 64
  loop : LoopSums rs st.stop (alignUp size 4096) align (rs.length + 1) (alignUp st.ptr align)

/-- **The region of `len` bytes from `a` on fits**: it is aligned, in the range, and has no address of a
noted region. -/
structure Fits (rs : List Region) (st : StartupRange) (len align a : ℕ) : Prop where
  aligned : align ∣ a
  ge : st.ptr.toNat ≤ a
  le : a + len ≤ st.stop.toNat
  free : ∀ r ∈ rs, ∀ x, a ≤ x → x < a + len → ¬ (r.start.toNat ≤ x ∧ x < r.stop.toNat)

/-! ### Rounding up -/

section Round
variable {a align : Word} {k : ℕ}

theorem alignUp_toNat_pow (hk : align.toNat = 2 ^ k) (ha : a.toNat + align.toNat ≤ 2 ^ 64) :
    (alignUp a align).toNat = (a.toNat + (2 ^ k - 1)) / 2 ^ k * 2 ^ k :=
  add_and_not_toNat hk ha

theorem isLeast_alignUp (hk : align.toNat = 2 ^ k) (ha : a.toNat + align.toNat ≤ 2 ^ 64) :
    IsLeast {x | align.toNat ∣ x ∧ a.toNat ≤ x} (alignUp a align).toNat := by
  have hpos := Nat.two_pow_pos k
  have hdiv := Nat.div_add_mod (a.toNat + (2 ^ k - 1)) (2 ^ k)
  have hmod := Nat.mod_lt (a.toNat + (2 ^ k - 1)) hpos
  rw [Nat.mul_comm] at hdiv
  rw [alignUp_toNat_pow hk ha, hk]
  refine ⟨⟨Nat.dvd_mul_left .., by omega⟩, ?_⟩
  rintro x ⟨⟨q, rfl⟩, hx⟩
  -- a multiple below would be at most the rounded sum less one step
  have hq : (a.toNat + (2 ^ k - 1)) / 2 ^ k ≤ q := by
    refine Nat.le_of_lt_succ ((Nat.div_lt_iff_lt_mul hpos).2 ?_)
    rw [Nat.succ_mul, Nat.mul_comm]
    omega
  rw [Nat.mul_comm]
  exact Nat.mul_le_mul_left _ hq

end Round

/-! ### Tables and sums -/

theorem earlyReserveAdd_lt {rs rs' : List Region} {start size : Word}
    (h : earlyReserveAdd rs start size = some rs') (hw : start.toNat + size.toNat + 4096 ≤ 2 ^ 64)
    (hrs : ∀ r ∈ rs, r.start < r.stop) : ∀ r ∈ rs', r.start < r.stop := by
  unfold earlyReserveAdd at h
  by_cases h0 : size = 0
  · rw [if_pos h0] at h
    exact Option.some.inj h ▸ hrs
  · rw [if_neg h0] at h
    split at h
    · cases h
    · obtain rfl := Option.some.inj h
      intro r hr
      rcases List.mem_append.1 hr with hr | hr
      · exact hrs r hr
      · rw [List.mem_singleton.1 hr, BitVec.lt_def]
        have hpos : size.toNat ≠ 0 := fun hz => h0 (BitVec.eq_of_toNat_eq hz)
        have hsum : (start + size).toNat = start.toNat + size.toNat := by
          rw [BitVec.toNat_add, Nat.mod_eq_of_lt (by omega)]
        have hdown := alignDown_toNat start
        have hup := alignUp_toNat (a := start + size) (by omega)
        dsimp only
        omega

section Sums
variable {rs : List Region} {st : StartupRange} {stop size align : Word} {k bound : ℕ}

theorem LoopSums.of_le (hk : align.toNat = 2 ^ k) (hrs : ∀ r ∈ rs, r.stop.toNat ≤ bound)
    (hb : bound + align.toNat + size.toNat ≤ 2 ^ 64) {fuel : ℕ} {addr : Word}
    (ha : addr.toNat < bound + align.toNat) : LoopSums rs stop size align fuel addr := by
  induction fuel generalizing addr with
  | zero => trivial
  | succ fuel ih =>
    refine ⟨by omega, fun _ r hc => ?_⟩
    have hr := hrs r (List.mem_of_find?_eq_some hc)
    have hle := Nat.div_mul_le_self (r.stop.toNat + (2 ^ k - 1)) (2 ^ k)
    have hpos := Nat.two_pow_pos k
    have hup : r.stop.toNat + align.toNat ≤ 2 ^ 64 := by omega
    refine ⟨hup, ih ?_⟩
    rw [alignUp_toNat_pow hk hup, hk]
    omega

/-- No sum wraps if `startup_ptr` and the noted regions leave room for the size and the alignment. -/
theorem NoSumWraps.of_le (hk : align.toNat = 2 ^ k) (hp : st.ptr.toNat ≤ bound)
    (hrs : ∀ r ∈ rs, r.stop.toNat ≤ bound)
    (hb : bound + align.toNat + size.toNat + 4096 ≤ 2 ^ 64) : NoSumWraps rs st size align := by
  have hpos := Nat.two_pow_pos k
  have hround := alignUp_toNat (a := size) (by omega)
  have hptr : st.ptr.toNat + align.toNat ≤ 2 ^ 64 := by omega
  have hle := Nat.div_mul_le_self (st.ptr.toNat + (2 ^ k - 1)) (2 ^ k)
  refine ⟨by omega, hptr, .of_le hk hrs (by omega) ?_⟩
  rw [alignUp_toNat_pow hk hptr, hk]
  omega

end Sums

/-! ### The search -/

section Search
variable {rs : List Region} {st : StartupRange} {size align : Word} {k : ℕ}

/-- A region and a nonempty one overlap, for `range_overlap`, if they have a common address. -/
theorem rangeOverlap_iff {addr : Word} {r : Region} (hr : r.start < r.stop) (hs : 0 < size.toNat)
    (hw : addr.toNat + size.toNat < 2 ^ 64) :
    RangeOverlap addr (addr + size) r.start r.stop ↔
      ∃ x, addr.toNat ≤ x ∧ x < addr.toNat + size.toNat ∧ r.start.toNat ≤ x ∧ x < r.stop.toNat := by
  rw [RangeOverlap, BitVec.lt_def, BitVec.lt_def, BitVec.toNat_add, Nat.mod_eq_of_lt hw]
  rw [BitVec.lt_def] at hr
  constructor
  · rintro ⟨h1, h2⟩
    exact ⟨max addr.toNat r.start.toNat, by omega, by omega, by omega, by omega⟩
  · rintro ⟨x, h1, h2, h3, h4⟩
    omega

theorem conflict_some {addr : Word} {r : Region} (h : conflict rs addr size = some r) :
    r ∈ rs ∧ RangeOverlap addr (addr + size) r.start r.stop :=
  ⟨List.mem_of_find?_eq_some h, by simpa using List.find?_some h⟩

theorem conflict_none {addr : Word} (h : conflict rs addr size = none) {r : Region} (hr : r ∈ rs) :
    ¬ RangeOverlap addr (addr + size) r.start r.stop := fun ho =>
  List.find?_eq_none.1 h r hr (decide_eq_true ho)

/-- No region that fits begins between a candidate and the end of a region that it overlaps. -/
theorem Fits.le_of_conflict {a : ℕ} {addr : Word} {r : Region} (h : Fits rs st size.toNat align.toNat a)
    (hle : addr.toNat ≤ a) (hrs : ∀ r ∈ rs, r.start < r.stop) (hs : 0 < size.toNat)
    (hw : addr.toNat + size.toNat < 2 ^ 64) (hc : conflict rs addr size = some r) :
    r.stop.toNat ≤ a := by
  obtain ⟨hm, ho⟩ := conflict_some hc
  obtain ⟨x, h1, h2, h3, h4⟩ := (rangeOverlap_iff (hrs r hm) hs hw).1 ho
  by_contra hlt
  have hr := hrs r hm
  rw [BitVec.lt_def] at hr
  -- the greater of the two first addresses lies in both regions
  exact h.free r hm (max a r.start.toNat) (by omega) (by omega) ⟨by omega, by omega⟩

/-- **The loop**, at an aligned candidate below which nothing fits, ends with the lowest region that
fits, or at the end of the range if nothing does. -/
theorem startupFind_spec (hk : align.toNat = 2 ^ k) (hs : 0 < size.toNat)
    (hrs : ∀ r ∈ rs, r.start < r.stop) {fuel : ℕ} {addr : Word} (hd : align.toNat ∣ addr.toNat)
    (hge : st.ptr.toNat ≤ addr.toNat)
    (hlow : ∀ a, Fits rs st size.toNat align.toNat a → addr.toNat ≤ a)
    (hw : LoopSums rs st.stop size align fuel addr)
    (hf : (rs.filter fun r => addr < r.stop).length < fuel) :
    (∃ a, startupFind rs st.stop size align fuel addr = some (some a) ∧
      a.toNat + size.toNat < 2 ^ 64 ∧ IsLeast {x | Fits rs st size.toNat align.toNat x} a.toNat) ∨
    startupFind rs st.stop size align fuel addr = some none ∧
      ∀ a, ¬ Fits rs st size.toNat align.toNat a := by
  induction fuel generalizing addr with
  | zero => exact absurd hf (Nat.not_lt_zero _)
  | succ fuel ih =>
    obtain ⟨hsum, hnext⟩ := hw
    have hend : (addr + size).toNat = addr.toNat + size.toNat := by
      rw [BitVec.toNat_add, Nat.mod_eq_of_lt hsum]
    unfold startupFind
    by_cases hle : addr + size ≤ st.stop
    · rw [if_pos hle]
      cases hc : conflict rs addr size with
      | none =>
        refine .inl ⟨addr, rfl, hsum, ⟨hd, hge, ?_, fun r hr x h1 h2 hx => ?_⟩, hlow⟩
        · rwa [BitVec.le_def, hend] at hle
        · exact conflict_none hc hr ((rangeOverlap_iff (hrs r hr) hs hsum).2 ⟨x, h1, h2, hx⟩)
      | some r =>
        obtain ⟨hup, hw'⟩ := hnext hle r hc
        obtain ⟨⟨hd', hle'⟩, hleast⟩ := isLeast_alignUp hk hup
        have hpass : addr < r.stop := (conflict_some hc).2.1
        refine ih hd' (hge.trans ((BitVec.lt_def.1 hpass).le.trans hle')) (fun a ha => ?_) hw' ?_
        · exact hleast ⟨ha.aligned, ha.le_of_conflict (hlow a ha) hrs hs hsum hc⟩
        · exact lt_of_lt_of_le (length_filter_lt (conflict_some hc).1 hpass (BitVec.le_def.2 hle'))
            (Nat.le_of_lt_succ hf)
    · rw [if_neg hle]
      refine .inr ⟨rfl, fun a ha => hle ?_⟩
      rw [BitVec.le_def, hend]
      exact (Nat.add_le_add_right (hlow a ha) _).trans ha.le

/-- **`startup_alloc` is first-fit and complete.** It ends. If a region of the size, rounded up to
pages, fits, it returns the lowest one, and `startup_ptr` becomes its end; otherwise it returns the
null pointer, and nothing changes. -/
theorem startupAllocate_first_fit (hk : align.toNat = 2 ^ k) (hs : 0 < size.toNat)
    (hrs : ∀ r ∈ rs, r.start < r.stop) (hw : NoSumWraps rs st size align) :
    ∃ st' p, startupAllocate rs st size align = some (st', p) ∧ st'.stop = st.stop ∧
      ((∃ a : Word, p = physToVirtAddr a ∧
          (a.toNat + kernelVaOffset.toNat < 2 ^ 64 → p ≠ 0) ∧
          IsLeast {x | Fits rs st ((size.toNat + 4095) / 4096 * 4096) align.toNat x} a.toNat ∧
          st'.ptr.toNat = a.toNat + (size.toNat + 4095) / 4096 * 4096) ∨
        p = 0 ∧ st' = st ∧ ∀ x, ¬ Fits rs st ((size.toNat + 4095) / 4096 * 4096) align.toNat x) := by
  have hround := hw.round
  have hlen : (alignUp size 4096).toNat = (size.toNat + 4095) / 4096 * 4096 :=
    alignUp_toNat (by omega)
  obtain ⟨⟨hd, hge⟩, hleast⟩ := isLeast_alignUp hk hw.ptr
  rw [startupAllocate, ← hlen]
  rcases startupFind_spec hk (by omega) hrs hd hge (fun a ha => hleast ⟨ha.aligned, ha.ge⟩) hw.loop
    (Nat.lt_succ_of_le (List.length_filter_le ..)) with ⟨a, h1, h2, h3⟩ | ⟨h1, h2⟩
  · rw [h1]
    refine ⟨_, _, rfl, rfl, .inl ⟨a, rfl, fun hva h0 => ?_, h3, ?_⟩⟩
    · have hp : (physToVirtAddr a).toNat = a.toNat + kernelVaOffset.toNat := by
        rw [physToVirtAddr, BitVec.toNat_add, Nat.mod_eq_of_lt hva]
      rw [show physToVirtAddr a = 0 from h0] at hp
      have hk : 0 < kernelVaOffset.toNat := by decide
      have h0 : (0 : Word).toNat = 0 := rfl
      omega
    · change (a + alignUp size 4096).toNat = _
      rw [BitVec.toNat_add, Nat.mod_eq_of_lt h2]
  · rw [h1]
    exact ⟨_, _, rfl, rfl, .inr ⟨rfl, rfl, h2⟩⟩

/-- Three regions, two of which overlap, and not in order. -/
def threeRegions : List Region := [⟨0x9000, 0xa000⟩, ⟨0x1000, 0x3000⟩, ⟨0x2000, 0x5000⟩]

/-- The room in front of `0x9000` is too small for two pages at a multiple of `0x4000`. -/
theorem startupAllocate_first_fit_sample :
    startupAllocate threeRegions ⟨0x1000, 0x20000⟩ 0x1800 0x4000 =
      some (⟨0xe000, 0x20000⟩, 0xffffffc00000c000) ∧
    IsLeast {x | Fits threeRegions ⟨0x1000, 0x20000⟩ 0x2000 0x4000 x} 0xc000 := by
  have hval : startupAllocate threeRegions ⟨0x1000, 0x20000⟩ 0x1800 0x4000 =
      some (⟨0xe000, 0x20000⟩, 0xffffffc00000c000) := by decide +kernel
  refine ⟨hval, ?_⟩
  have hk : (0x4000 : Word).toNat = 2 ^ 14 := rfl
  have hw : NoSumWraps threeRegions ⟨0x1000, 0x20000⟩ 0x1800 0x4000 :=
    .of_le hk (show _ ≤ 0x20000 by decide) (by decide) (by decide)
  obtain ⟨st', p, h1, -, h2⟩ := startupAllocate_first_fit hk (by decide) (by decide) hw
  rw [hval] at h1
  obtain ⟨rfl, rfl⟩ := Prod.mk.inj (Option.some.inj h1)
  rcases h2 with ⟨a, hp, -, h3, -⟩ | ⟨h0, -⟩
  · obtain rfl : a = 0xc000 := by
      rw [physToVirtAddr, ← BitVec.sub_eq_iff_eq_add] at hp
      exact hp.symm
    exact h3
  · exact absurd h0 (by decide)

end Search

/-! ### At boot -/

theorem startupAlloc_eq (rs : List Region) (startupPtr startupEnd size align : Word) :
    startupAlloc .linear rs startupPtr startupEnd size align =
      (startupAllocate rs ⟨startupPtr, startupEnd⟩ size align).map Prod.snd := by
  have hloop : ∀ fuel addr, startupLoop .linear rs startupEnd (alignUp size 4096) align fuel addr =
      (startupFind rs startupEnd (alignUp size 4096) align fuel addr).map
        fun found => found.elim 0 physToVirtAddr := by
    intro fuel
    induction fuel with
    | zero => exact fun _ => rfl
    | succ fuel ih =>
      intro addr
      unfold startupLoop startupFind
      by_cases hle : addr + alignUp size 4096 ≤ startupEnd
      · rw [if_pos hle, if_pos hle, conflict]
        cases rs.find? _ with
        | none => exact congrArg some (Pointers.linear_toPtr addr)
        | some r => exact ih _
      · rw [if_neg hle, if_neg hle]
        rfl
  rw [startupAlloc, hloop, startupAllocate, Option.map_map]
  refine congrArg (Option.map · _) (funext fun found => ?_)
  cases found <;> rfl

section Boot
variable {b : Boot} {rs : List Region}

theorem framePtr_eq : b.framePtr = b.earlyReserved.bind fun rs =>
    (startupAllocate rs (startupAllocatorInit b.managedBase (b.managedBase + b.managedSize))
      b.frameArraySize 4096).map Prod.snd :=
  congrArg b.earlyReserved.bind (funext fun _ => startupAlloc_eq ..)

theorem earlyReserved_lt (hwrap : b.NoWrap) (h : b.earlyReserved = some rs) :
    ∀ r ∈ rs, r.start < r.stop := by
  obtain ⟨rs1, h1, h⟩ := Option.bind_eq_some_iff.1 h
  dsimp only at h
  obtain ⟨rs2, h2, h⟩ := Option.bind_eq_some_iff.1 h
  obtain ⟨rs3, h3, h4⟩ := Option.bind_eq_some_iff.1 h
  -- the device tree
  have hfdt := kernelPtrToPhys_lt b.fdt
  have htot : (b.fdtTotalsize.setWidth 64).toNat < 2 ^ 32 := by
    rw [BitVec.toNat_setWidth_of_le (by decide)]
    exact b.fdtTotalsize.isLt
  have hr1 := earlyReserveAdd_lt h1 (by omega) fun r hr => by cases hr
  -- the kernel
  have hr2 : ∀ r ∈ rs2, r.start < r.stop := by
    split at h2
    next hlt =>
      have hend := kernelPtrToPhys_lt b.kernelEnd
      have hle := BitVec.le_of_lt hlt
      have hsz := BitVec.toNat_sub_of_le hle
      rw [BitVec.le_def] at hle
      exact earlyReserveAdd_lt h2 (by omega) hr1
    · exact Option.some.inj h2 ▸ hr1
  -- the initramfs
  have hr3 : ∀ r ∈ rs3, r.start < r.stop := by
    split at h3
    next hc =>
      have hw : b.initrdEnd.toNat + 4095 < 2 ^ 64 := hwrap
      have hle := BitVec.le_of_lt hc.2.2
      have hsz := BitVec.toNat_sub_of_le hle
      rw [BitVec.le_def] at hle
      exact earlyReserveAdd_lt h3 (by omega) hr2
    · exact Option.some.inj h3 ▸ hr2
  exact earlyReserveAdd_lt h4 (by decide) hr3

end Boot

end OscKernel.Mm.Startup
