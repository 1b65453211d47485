import OscKernel.Vm.Tables

/-! # The boot page tables of lab6

`setup_vm` and `drop_identity_map` of `vm.c`, run before and after the switch to the kernel's virtual
addresses.

* `setupVm_shared`, `setupVm_pgd`: the tables that `setup_vm` leaves.
* `walk_pmd`: below the root, the shared tables implement the linear map of a gibibyte.
* `setupVm_linear`: the linear map, before and after the identity map is dropped. -/

namespace OscKernel.Vm.Setup

open OscKernel.Lib.Memory OscKernel.Lib.Sv39 OscKernel.Vm.Tables

/-! ### The code -/

/-- `EARLY_MAP_GIB`. -/
def earlyMapGib : ℕ := 10

/-- `EARLY_PTE_TABLES`. -/
def earlyPteTables : ℕ := 4

/-- The frames of `early_pgd`, of `early_pmd[0]` and of `early_pte[0]`. The arrays are aligned to
frames and do not overlap. -/
structure Layout where
  pgd : ℕ
  pmd : ℕ
  pte : ℕ
  pgd_lt : pgd < 2 ^ 44
  pmd_le : pmd + earlyMapGib ≤ 2 ^ 44
  pte_le : pte + earlyPteTables ≤ 2 ^ 44
  pgd_pmd : pgd < pmd ∨ pmd + earlyMapGib ≤ pgd
  pgd_pte : pgd < pte ∨ pte + earlyPteTables ≤ pgd
  pmd_pte : pmd + earlyMapGib ≤ pte ∨ pte + earlyPteTables ≤ pmd

instance : Inhabited Layout :=
  ⟨⟨512, 513, 523, by decide, by decide, by decide, by decide, by decide, by decide⟩⟩

/-- Memory, `early_pte_used` and the register `satp`. -/
structure Boot where
  mem : Frames
  earlyPteUsed : ℕ
  satp : Word

variable (L : Layout)

/-- `map_mmio_2m_window`. -/
def mapMmio2mWindow (b : Boot) (pa : Word) : Boot :=
  let base := pa &&& ~~~((1 <<< 21 : Word) - 1)
  let pgdIndex := (base >>> 30) &&& 0x1ff
  let pmdIndex := (base >>> 21) &&& 0x1ff
  if pgdIndex.toNat ≥ earlyMapGib then b
  else if b.earlyPteUsed ≥ earlyPteTables then b
  else
    let pte := L.pte + b.earlyPteUsed
    let m := clearTable b.mem pte
    let m := fill m pte fun i =>
      paToPte (base + BitVec.ofNat 64 i * (1 <<< 12 : Word)) ||| mmioPageFlags
    let m := set m (L.pmd + pgdIndex.toNat) (Fin.ofNat 512 pmdIndex.toNat)
      (paToPte (framePa pte) ||| pteV)
    { b with mem := m, earlyPteUsed := b.earlyPteUsed + 1 }

/-- `kernel_pgd_base`. -/
def kernelPgdBase : ℕ := ((kernelVaOffset >>> 30) &&& 0x1ff).toNat

/-- A round of the loop of `setup_vm` over the gibibytes. -/
def mapGib (m : Frames) (gib : ℕ) : Frames :=
  let nonLeafEntry := paToPte (framePa (L.pmd + gib)) ||| pteV
  let m := set m L.pgd (Fin.ofNat 512 gib) nonLeafEntry
  let m := set m L.pgd (Fin.ofNat 512 (kernelPgdBase + gib)) nonLeafEntry
  fill m (L.pmd + gib) fun i =>
    paToPte (BitVec.ofNat 64 gib * (1 <<< 30 : Word) + BitVec.ofNat 64 i * (1 <<< 21 : Word)) |||
      kernelPageFlags

/-- `setup_vm`. -/
def setupVm (b : Boot) : Boot :=
  let m := clearTable b.mem L.pgd
  let m := (List.range earlyMapGib).foldl (fun m gib => clearTable m (L.pmd + gib)) m
  let m := (List.range earlyMapGib).foldl (mapGib L) m
  let b := { b with mem := m, earlyPteUsed := 0 }
  let b := mapMmio2mWindow L b 0xd4000000
  let b := mapMmio2mWindow L b 0xd4200000
  let b := mapMmio2mWindow L b 0xe0000000
  { b with satp := makeSatp (framePa L.pgd) }

/-- `drop_identity_map`. -/
def dropIdentityMap (m : Frames) : Frames :=
  (List.range earlyMapGib).foldl (fun m i => set m L.pgd (Fin.ofNat 512 i) 0) m

/-! ### The tables that it leaves -/

/-- The 2 MiB pages at `0xd4000000`, `0xd4200000` and `0xe0000000`, the windows of the devices. -/
def windowPage : ℕ → ℕ
  | 0 => 1696
  | 1 => 1697
  | _ => 1792

/-- The entry of a page of 2 MiB of the linear map. -/
def pmdLeaf (page : ℕ) : Word := paToPte (BitVec.ofNat 64 (page * 2 ^ 21)) ||| kernelPageFlags

/-- The entry `i` of `early_pmd[g]`. -/
def pmdEntry (g : ℕ) (i : Fin 512) : Word :=
  if g * 512 + i = windowPage 0 then ptr L.pte
  else if g * 512 + i = windowPage 1 then ptr (L.pte + 1)
  else if g * 512 + i = windowPage 2 then ptr (L.pte + 2)
  else pmdLeaf (g * 512 + i)

/-- The entry `i` of `early_pte[k]`. -/
def pteEntry (k : ℕ) (i : Fin 512) : Word :=
  paToPte (BitVec.ofNat 64 (windowPage k * 2 ^ 21 + i * 2 ^ 12)) ||| mmioPageFlags

/-- The tables below the root hold the linear map. -/
structure Shared (m : Frames) : Prop where
  pmd : ∀ g < earlyMapGib, ∀ i, m (L.pmd + g) i = pmdEntry L g i
  pte : ∀ k < 3, ∀ i, m (L.pte + k) i = pteEntry k i

/-- The upper half of a root table holds the linear map. -/
def KernelHalf (m : Frames) (root : ℕ) : Prop :=
  ∀ i : Fin 512, 256 ≤ i.val →
    m root i = if i.val < 256 + earlyMapGib then ptr (L.pmd + (i.val - 256)) else 0

/-- A root table leads to the linear map in the part of the upper half that it fills. -/
def KernelPart (m : Frames) (root : ℕ) : Prop :=
  ∀ i : Fin 512, 256 ≤ i.val → i.val < 256 + earlyMapGib → m root i = ptr (L.pmd + (i.val - 256))

theorem kernelPgdBase_eq : kernelPgdBase = 256 := by decide

variable {L}

theorem fin_ofNat_val {n : ℕ} (hn : n < 512) : (Fin.ofNat 512 n).val = n := Nat.mod_eq_of_lt hn

theorem mapGib_pmd (m : Frames) (g : ℕ) (i : Fin 512) :
    mapGib L m g (L.pmd + g) i = pmdLeaf (g * 512 + i) := by
  have ha : BitVec.ofNat 64 g * (1 <<< 30 : Word) + BitVec.ofNat 64 i * (1 <<< 21 : Word) =
      BitVec.ofNat 64 ((g * 512 + i) * 2 ^ 21) := by
    rw [show (1 <<< 30 : Word) = BitVec.ofNat 64 (2 ^ 30) from rfl,
      show (1 <<< 21 : Word) = BitVec.ofNat 64 (2 ^ 21) from rfl, ← BitVec.ofNat_mul,
      ← BitVec.ofNat_mul, ← BitVec.ofNat_add,
      show g * 2 ^ 30 + i.val * 2 ^ 21 = (g * 512 + i.val) * 2 ^ 21 by omega]
  rw [mapGib, fill_self, pmdLeaf, ha]

theorem mapGib_of_ne (m : Frames) {g f : ℕ} (hf : f ≠ L.pgd) (hg : f ≠ L.pmd + g) :
    mapGib L m g f = m f := by
  rw [mapGib, fill_of_ne hg, set_of_ne hf, set_of_ne hf]

theorem mapGib_pgd (m : Frames) {g : ℕ} (hg : g < earlyMapGib) (i : Fin 512) :
    mapGib L m g L.pgd i =
      if i.val = g ∨ i.val = 256 + g then ptr (L.pmd + g) else m L.pgd i := by
  have hne : L.pgd ≠ L.pmd + g := by have := L.pgd_pmd; omega
  unfold earlyMapGib at hg
  rw [mapGib, fill_of_ne hne, set_apply, set_apply, kernelPgdBase_eq]
  simp only [true_and, Fin.ext_iff, fin_ofNat_val (show g < 512 by omega),
    fin_ofNat_val (show 256 + g < 512 by omega), ptr]
  by_cases h1 : i.val = 256 + g <;> by_cases h2 : i.val = g <;> simp [h1, h2]

theorem foldl_mapGib (m : Frames) : ∀ n ≤ earlyMapGib,
    (∀ i : Fin 512, (List.range n).foldl (mapGib L) m L.pgd i =
      if i.val < n then ptr (L.pmd + i)
      else if 256 ≤ i.val ∧ i.val < 256 + n then ptr (L.pmd + (i.val - 256)) else m L.pgd i) ∧
    ∀ g < n, ∀ i, (List.range n).foldl (mapGib L) m (L.pmd + g) i = pmdLeaf (g * 512 + i)
  | 0, _ => by
    refine ⟨fun i => ?_, fun g hg => by omega⟩
    rw [if_neg (by omega), if_neg (by omega)]
    rfl
  | n + 1, hn => by
    obtain ⟨hpgd, hpmd⟩ := foldl_mapGib m n (by omega)
    simp only [List.range_succ, List.foldl_append, List.foldl_cons, List.foldl_nil]
    refine ⟨fun i => ?_, fun g hg i => ?_⟩
    · have hg : n < earlyMapGib := by omega
      unfold earlyMapGib at hn
      rw [mapGib_pgd _ hg, hpgd]
      by_cases hlow : i.val = n
      · rw [if_pos (.inl hlow), if_pos (by omega), hlow]
      by_cases hhigh : i.val = 256 + n
      · rw [if_pos (.inr hhigh), if_neg (by omega), if_pos (by omega), hhigh, Nat.add_sub_cancel_left]
      rw [if_neg (by omega)]
      by_cases h1 : i.val < n
      · rw [if_pos h1, if_pos (by omega)]
      by_cases h2 : 256 ≤ i.val ∧ i.val < 256 + n
      · rw [if_neg h1, if_pos h2, if_neg (by omega), if_pos (by omega)]
      · rw [if_neg h1, if_neg h2, if_neg (by omega), if_neg (by omega)]
    · rcases Nat.lt_succ_iff_lt_or_eq.1 hg with hg | rfl
      · rw [mapGib_of_ne _ (by have := L.pgd_pmd; omega) (by omega), hpmd g hg]
      · exact mapGib_pmd _ g i

/-- A window that starts at a multiple of its size, with its address split into the two indices. -/
structure Window (k : ℕ) (pa : Word) : Prop where
  addr : pa = BitVec.ofNat 64 (windowPage k * 2 ^ 21)
  aligned : pa &&& ~~~((1 <<< 21 : Word) - 1) = pa
  pgdIndex : ((pa >>> 30) &&& 0x1ff).toNat = 3
  pmdIndex : ((pa >>> 21) &&& 0x1ff).toNat = windowPage k - 3 * 512

theorem windowPage_lt (k : ℕ) : 3 * 512 ≤ windowPage k ∧ windowPage k < 4 * 512 := by
  unfold windowPage
  split <;> omega

/-- A window gets the next table of `early_pte`. -/
theorem mapMmio2mWindow_spec {b : Boot} {k : ℕ} {pa : Word} (hw : Window k pa) (hk : k < 3)
    (hu : b.earlyPteUsed = k) :
    (mapMmio2mWindow L b pa).earlyPteUsed = k + 1 ∧
      (∀ f, f ≠ L.pmd + 3 → f ≠ L.pte + k → (mapMmio2mWindow L b pa).mem f = b.mem f) ∧
      (∀ i, (mapMmio2mWindow L b pa).mem (L.pmd + 3) i =
        if 3 * 512 + i.val = windowPage k then ptr (L.pte + k) else b.mem (L.pmd + 3) i) ∧
      ∀ i, (mapMmio2mWindow L b pa).mem (L.pte + k) i = pteEntry k i := by
  obtain ⟨hlo, hhi⟩ := windowPage_lt k
  have hne : L.pmd + 3 ≠ L.pte + k := by
    have := L.pmd_pte
    unfold earlyMapGib earlyPteTables at this
    omega
  have heq : mapMmio2mWindow L b pa = { b with
      mem := set (fill (clearTable b.mem (L.pte + k)) (L.pte + k) fun i =>
        paToPte (pa + BitVec.ofNat 64 i * (1 <<< 12 : Word)) ||| mmioPageFlags) (L.pmd + 3)
        (Fin.ofNat 512 (windowPage k - 3 * 512)) (ptr (L.pte + k))
      earlyPteUsed := k + 1 } := by
    unfold mapMmio2mWindow
    simp only [hw.aligned, hw.pgdIndex, hw.pmdIndex, hu]
    rw [if_neg (by decide), if_neg (by unfold earlyPteTables; omega)]
    rfl
  rw [heq]
  refine ⟨rfl, fun f h1 h2 => ?_, fun i => ?_, fun i => ?_⟩
  · show set _ _ _ _ f = b.mem f
    rw [set_of_ne h1, fill_of_ne h2, clearTable, fill_of_ne h2]
  · show set _ _ _ _ _ i = _
    rw [set_apply, fill_of_ne hne, clearTable, fill_of_ne hne]
    simp only [true_and, Fin.ext_iff, fin_ofNat_val (show windowPage k - 3 * 512 < 512 by omega)]
    refine if_congr (by omega) rfl rfl
  · show set _ _ _ _ _ i = _
    have ha : pa + BitVec.ofNat 64 i * (1 <<< 12 : Word) =
        BitVec.ofNat 64 (windowPage k * 2 ^ 21 + i * 2 ^ 12) := by
      rw [hw.addr, show (1 <<< 12 : Word) = BitVec.ofNat 64 (2 ^ 12) from rfl, ← BitVec.ofNat_mul,
        ← BitVec.ofNat_add]
    rw [set_of_ne hne.symm, fill_self, ha]
    rfl

theorem window_zero : Window 0 0xd4000000 := ⟨rfl, by decide, by decide, by decide⟩

theorem window_one : Window 1 0xd4200000 := ⟨rfl, by decide, by decide, by decide⟩

theorem window_two : Window 2 0xe0000000 := ⟨rfl, by decide, by decide, by decide⟩

theorem foldl_clearTable {f : ℕ} (m : Frames) (l : List ℕ) (hf : ∀ g ∈ l, f ≠ L.pmd + g) :
    l.foldl (fun m gib => clearTable m (L.pmd + gib)) m f = m f := by
  induction l generalizing m with
  | nil => rfl
  | cons g l ih =>
    rw [List.foldl_cons, ih _ fun g' hg' => hf g' (by simp [hg']), clearTable,
      fill_of_ne (hf g (by simp))]

/-- The root table with the identity map. -/
def LowHalf (L : Layout) (m : Frames) : Prop :=
  ∀ i : Fin 512, i.val < 256 → m L.pgd i = if i.val < earlyMapGib then ptr (L.pmd + i) else 0

/-- **The tables of `setup_vm`.** -/
theorem setupVm_tables (L : Layout) (b : Boot) : Shared L (setupVm L b).mem ∧
    KernelHalf L (setupVm L b).mem L.pgd ∧ LowHalf L (setupVm L b).mem := by
  have hdisj := L.pgd_pmd
  have hdisj' := L.pgd_pte
  have hdisj'' := L.pmd_pte
  -- the memory after the loop over the gibibytes
  obtain ⟨m0, hm0⟩ : ∃ m0, m0 = (List.range earlyMapGib).foldl
      (fun m gib => clearTable m (L.pmd + gib)) (clearTable b.mem L.pgd) := ⟨_, rfl⟩
  have hzero : ∀ i, m0 L.pgd i = 0 := fun i => by
    rw [hm0, foldl_clearTable _ _ fun g hg => by have := List.mem_range.1 hg; omega, clearTable,
      fill_self]
  obtain ⟨hpgd, hpmd⟩ := foldl_mapGib (L := L) m0 earlyMapGib le_rfl
  obtain ⟨b0, hb0⟩ : ∃ b0 : Boot, b0 =
    { b with mem := (List.range earlyMapGib).foldl (mapGib L) m0, earlyPteUsed := 0 } := ⟨_, rfl⟩
  have hu0 : b0.earlyPteUsed = 0 := by rw [hb0]
  have hmem0 : b0.mem = (List.range earlyMapGib).foldl (mapGib L) m0 := by rw [hb0]
  -- the three windows
  have hmem : (setupVm L b).mem = (mapMmio2mWindow L (mapMmio2mWindow L (mapMmio2mWindow L b0
      0xd4000000) 0xd4200000) 0xe0000000).mem := by rw [hb0, hm0, setupVm]
  obtain ⟨hu1, hf1, hd1, ht1⟩ := mapMmio2mWindow_spec (L := L) window_zero (by omega) hu0
  obtain ⟨hu2, hf2, hd2, ht2⟩ := mapMmio2mWindow_spec (L := L) window_one (by omega) hu1
  obtain ⟨-, hf3, hd3, ht3⟩ := mapMmio2mWindow_spec (L := L) window_two (by omega) hu2
  rw [← hmem0] at hpgd hpmd
  unfold earlyMapGib earlyPteTables at *
  rw [hmem]
  generalize mapMmio2mWindow L (mapMmio2mWindow L (mapMmio2mWindow L b0 0xd4000000) 0xd4200000)
    0xe0000000 = b3 at *
  generalize mapMmio2mWindow L (mapMmio2mWindow L b0 0xd4000000) 0xd4200000 = b2 at *
  generalize mapMmio2mWindow L b0 0xd4000000 = b1 at *
  have hroot : ∀ i, b3.mem L.pgd i = b0.mem L.pgd i := fun i => by
    rw [hf3 _ (by omega) (by omega), hf2 _ (by omega) (by omega), hf1 _ (by omega) (by omega)]
  refine ⟨⟨fun g hg i => ?_, fun k hk i => ?_⟩, fun i hi => ?_, fun i hi => ?_⟩
  · unfold earlyMapGib at hg
    by_cases h3 : g = 3
    · subst h3
      rw [hd3, hd2, hd1, hpmd 3 hg i, pmdEntry]
      simp only [windowPage, Nat.add_zero]
      split_ifs <;> first | omega | with_reducible rfl
    · rw [hf3 _ (by omega) (by omega), hf2 _ (by omega) (by omega), hf1 _ (by omega) (by omega),
        pmdEntry, if_neg, if_neg, if_neg]
      · exact hpmd g hg i
      all_goals
        simp only [windowPage]
        omega
  · rcases (by omega : k = 0 ∨ k = 1 ∨ k = 2) with rfl | rfl | rfl
    · rw [hf3 _ (by omega) (by omega), hf2 _ (by omega) (by omega), ht1]
    · rw [hf3 _ (by omega) (by omega), ht2]
    · rw [ht3]
  · rw [hroot, hpgd, hzero, if_neg (by omega)]
    unfold earlyMapGib
    by_cases h : i.val < 256 + 10
    · rw [if_pos ⟨hi, h⟩, if_pos h]
    · rw [if_neg (fun h' => h h'.2), if_neg h]
  · rw [hroot, hpgd, hzero]
    unfold earlyMapGib
    by_cases h : i.val < 10
    · rw [if_pos h, if_pos h]
    · rw [if_neg h, if_neg (by omega), if_neg h]

/-! ### The linear map -/

/-- The physical address lies in one of the windows of the devices. -/
def InWindow (x : ℕ) : Prop :=
  x / 2 ^ 21 = windowPage 0 ∨ x / 2 ^ 21 = windowPage 1 ∨ x / 2 ^ 21 = windowPage 2

instance (x : ℕ) : Decidable (InWindow x) := instDecidableOr

/-- The flags of the linear map. -/
def linearFlags (x : ℕ) : ℕ := (if InWindow x then mmioPageFlags else kernelPageFlags).toNat

/-- A leaf entry with the flags `fl` for the frame `f`. -/
structure LeafEntry (e : Word) (f fl : ℕ) : Prop where
  usable : usable e = true
  leaf : isLeaf e = true
  ppn : ppn e = f
  flags : flags e = fl

theorem leafEntry_of_toNat {e : Word} {f fl : ℕ} (h : e.toNat = f * 2 ^ 10 + fl) (hf : f < 2 ^ 44)
    (hfl : fl = mmioPageFlags.toNat ∨ fl = kernelPageFlags.toNat) : LeafEntry e f fl := by
  have hlt : fl < 2 ^ 10 := by rcases hfl with rfl | rfl <;> decide
  have hflags := flags_of_toNat h hlt
  refine ⟨?_, ?_, ppn_of_toNat h hlt hf, hflags⟩
  · rw [usable, reserved_of_toNat h hlt hf, hflags]
    rcases hfl with rfl | rfl <;> rfl
  · rw [isLeaf, hflags]
    rcases hfl with rfl | rfl <;> rfl

theorem leafEntry_pmdLeaf (page : ℕ) (hp : page < 5120) :
    LeafEntry (pmdLeaf page) (page * 512) kernelPageFlags.toNat := by
  refine leafEntry_of_toNat (mkPte_toNat ?_ (by omega) (by decide)) (by omega) (.inr rfl)
  rw [BitVec.toNat_ofNat, Nat.mod_eq_of_lt (by omega)]
  omega

theorem leafEntry_pteEntry {k : ℕ} (i : Fin 512) :
    LeafEntry (pteEntry k i) (windowPage k * 512 + i) mmioPageFlags.toNat := by
  obtain ⟨-, hlt⟩ := windowPage_lt k
  have hi := i.isLt
  refine leafEntry_of_toNat (mkPte_toNat ?_ (by omega) (by decide)) (by omega) (.inl rfl)
  rw [BitVec.toNat_ofNat, Nat.mod_eq_of_lt (by omega)]
  omega

variable {m : Frames} {va : Word}

theorem walk_window (hs : Shared L m) {k : ℕ} (hk : k < 3) : walk m va 0 (L.pte + k) =
    some ⟨windowPage k * 2 ^ 21 + va.toNat % 2 ^ 21, mmioPageFlags.toNat⟩ := by
  have he := leafEntry_pteEntry (k := k) (vpn 0 va)
  have hread := hs.pte k hk (vpn 0 va)
  rw [walk_leaf (by rw [hread]; exact he.usable) (by rw [hread]; exact he.leaf), hread, leafAt,
    he.ppn, he.flags, if_pos (by rw [pow_zero, Nat.mod_one]), vpn_val,
    show (windowPage k * 512 + va.toNat / 2 ^ (12 + 9 * 0) % 512) * 2 ^ 12 +
      va.toNat % 2 ^ (12 + 9 * 0) = windowPage k * 2 ^ 21 + va.toNat % 2 ^ 21 by omega]

/-- An address within its gibibyte, from its page of 2 MiB. -/
theorem addr_of_page {g v w n : ℕ} (hv : v = n / 2 ^ 21 % 512) (h : g * 512 + v = w) :
    w * 2 ^ 21 + n % 2 ^ 21 = g * 2 ^ 30 + n % 2 ^ 30 := by
  rw [← h, hv, show (2 ^ 30 : ℕ) = 2 ^ 21 * 512 from rfl, Nat.mod_mul]
  ring

theorem inWindow_of_page {x k : ℕ} (hk : k < 3) (h : x / 2 ^ 21 = windowPage k) :
    InWindow x := by
  rcases (by omega : k = 0 ∨ k = 1 ∨ k = 2) with rfl | rfl | rfl
  · exact .inl h
  · exact .inr (.inl h)
  · exact .inr (.inr h)

/-- An entry of `early_pmd` points to the table of a window, or maps 2 MiB. -/
theorem pmdEntry_cases (g : ℕ) (i : Fin 512) :
    (∃ k < 3, g * 512 + i = windowPage k ∧ pmdEntry L g i = ptr (L.pte + k)) ∨
    (∀ x, x / 2 ^ 21 = g * 512 + i → ¬InWindow x) ∧ pmdEntry L g i = pmdLeaf (g * 512 + i) := by
  unfold pmdEntry
  by_cases h0 : g * 512 + i.val = windowPage 0
  · exact .inl ⟨0, by omega, h0, if_pos h0⟩
  by_cases h1 : g * 512 + i.val = windowPage 1
  · exact .inl ⟨1, by omega, h1, by rw [if_neg h0, if_pos h1]⟩
  by_cases h2 : g * 512 + i.val = windowPage 2
  · exact .inl ⟨2, by omega, h2, by rw [if_neg h0, if_neg h1, if_pos h2]⟩
  refine .inr ⟨fun x hx => ?_, by rw [if_neg h0, if_neg h1, if_neg h2]⟩
  rw [InWindow, hx]
  tauto

/-- The tables below the root implement the linear map. -/
theorem walk_pmd (hs : Shared L m) {g : ℕ} (hg : g < earlyMapGib) : walk m va 1 (L.pmd + g) =
    some ⟨g * 2 ^ 30 + va.toNat % 2 ^ 30, linearFlags (g * 2 ^ 30 + va.toNat % 2 ^ 30)⟩ := by
  have hread := hs.pmd g hg (vpn 1 va)
  have hv := vpn_val 1 va
  have hpte := L.pte_le
  unfold earlyPteTables at hpte
  have hpage : (g * 2 ^ 30 + va.toNat % 2 ^ 30) / 2 ^ 21 = g * 512 + (vpn 1 va).val := by omega
  rcases pmdEntry_cases (L := L) g (vpn 1 va) with ⟨k, hk, hw, he⟩ | ⟨hnot, he⟩
  · -- a window is one page of 2 MiB
    have hpa := addr_of_page hv hw
    have hf : L.pte + k < 2 ^ 44 := by omega
    rw [he] at hread
    rw [walk_pointer (by rw [hread]; exact usable_ptr hf) (by rw [hread]; exact isPointer_ptr hf),
      hread, ppn_ptr hf, walk_window hs hk, linearFlags,
      if_pos (inWindow_of_page hk (hpage.trans hw)), hpa]
  · rw [he] at hread
    have he := leafEntry_pmdLeaf (g * 512 + (vpn 1 va).val)
      (by unfold earlyMapGib at hg; omega)
    rw [walk_leaf (by rw [hread]; exact he.usable) (by rw [hread]; exact he.leaf), hread, leafAt,
      he.ppn, he.flags, if_pos (by rw [pow_one]; omega), linearFlags, if_neg (hnot _ hpage),
      show (g * 512 + (vpn 1 va).val) * 512 * 2 ^ 12 + va.toNat % 2 ^ (12 + 9 * 1) =
        g * 2 ^ 30 + va.toNat % 2 ^ 30 by omega]

variable {root : ℕ}

theorem KernelHalf.part (h : KernelHalf L m root) : KernelPart L m root := fun i h1 h2 => by
  rw [h i h1, if_pos h2]

/-- The bytes of the linear map. -/
def linearSize : ℕ := earlyMapGib * 2 ^ 30

theorem kernelVa_toNat {x : ℕ} (hx : x < linearSize) :
    (kernelVaOffset + BitVec.ofNat 64 x).toNat = 2 ^ 64 - 2 ^ 38 + x := by
  unfold linearSize earlyMapGib at hx
  rw [BitVec.toNat_add, BitVec.toNat_ofNat, kernelVaOffset]
  show (2 ^ 64 - 2 ^ 38 + _) % _ = _
  omega

/-- A root entry that points to a table of the linear map. -/
theorem translate_of_entry (hs : Shared L m) (hc : Canonical va) {g : ℕ} (hg : g < earlyMapGib)
    (he : m root (vpn 2 va) = ptr (L.pmd + g)) : translateAddr m root va =
      some ⟨g * 2 ^ 30 + va.toNat % 2 ^ 30, linearFlags (g * 2 ^ 30 + va.toNat % 2 ^ 30)⟩ := by
  have hf : L.pmd + g < 2 ^ 44 := by have := L.pmd_le; omega
  rw [translateAddr, if_pos hc, walk_pointer (by rw [he]; exact usable_ptr hf)
    (by rw [he]; exact isPointer_ptr hf), he, ppn_ptr hf, walk_pmd hs hg]

theorem translate_of_zero (he : m root (vpn 2 va) = 0) : translateAddr m root va = none := by
  rw [translateAddr, walk_unusable (by rw [he]; rfl), ite_self]

theorem translate_kernel (hs : Shared L m) (hk : KernelPart L m root) {x : ℕ}
    (hx : x < linearSize) :
    translateAddr m root (kernelVaOffset + BitVec.ofNat 64 x) = some ⟨x, linearFlags x⟩ := by
  have hva := kernelVa_toNat hx
  have hv := vpn_val 2 (kernelVaOffset + BitVec.ofNat 64 x)
  rw [hva] at hv
  unfold linearSize earlyMapGib at hx
  have hv2 : (vpn 2 (kernelVaOffset + BitVec.ofNat 64 x)).val = 256 + x / 2 ^ 30 := by omega
  have hx30 : x / 2 ^ 30 * 2 ^ 30 + (2 ^ 64 - 2 ^ 38 + x) % 2 ^ 30 = x := by omega
  have he := hk (vpn 2 (kernelVaOffset + BitVec.ofNat 64 x)) (by omega) (by unfold earlyMapGib; omega)
  rw [hv2, Nat.add_sub_cancel_left] at he
  rw [translate_of_entry hs (.inr (by rw [hva]; omega)) (by unfold earlyMapGib; omega) he, hva, hx30]

/-- Above the linear map nothing is mapped. -/
theorem translate_kernel_none (hk : KernelHalf L m root)
    (hva : 2 ^ 64 - 2 ^ 38 + linearSize ≤ va.toNat) : translateAddr m root va = none := by
  have hv := vpn_val 2 va
  have hlt := va.isLt
  unfold linearSize earlyMapGib at hva
  refine translate_of_zero ?_
  rw [hk _ (by omega), if_neg (by unfold earlyMapGib; omega)]

/-- The identity map of the lower half. -/
theorem translate_low (hs : Shared L m) (hl : LowHalf L m) {x : ℕ} (hx : x < linearSize) :
    translateAddr m L.pgd (BitVec.ofNat 64 x) = some ⟨x, linearFlags x⟩ := by
  unfold linearSize earlyMapGib at hx
  have hva : (BitVec.ofNat 64 x).toNat = x := Nat.mod_eq_of_lt (by omega)
  have hv := vpn_val 2 (BitVec.ofNat 64 x)
  rw [hva] at hv
  have hv2 : (vpn 2 (BitVec.ofNat 64 x)).val = x / 2 ^ 30 := by omega
  have hx30 : x / 2 ^ 30 * 2 ^ 30 + x % 2 ^ 30 = x := Nat.div_add_mod' ..
  have he := hl (vpn 2 (BitVec.ofNat 64 x)) (by omega)
  rw [if_pos (by unfold earlyMapGib; omega), hv2] at he
  rw [translate_of_entry hs (.inl (by rw [hva]; omega)) (by unfold earlyMapGib; omega) he, hva, hx30]

theorem translate_low_none (hl : LowHalf L m) (h1 : linearSize ≤ va.toNat)
    (h2 : va.toNat < 2 ^ 38) : translateAddr m L.pgd va = none := by
  have hv := vpn_val 2 va
  unfold linearSize earlyMapGib at h1
  refine translate_of_zero ?_
  rw [hl _ (by omega), if_neg (by unfold earlyMapGib; omega)]

/-! ### Dropping the identity map -/

theorem dropIdentityMap_of_ne {f : ℕ} (hf : f ≠ L.pgd) : dropIdentityMap L m f = m f := by
  have h : ∀ (l : List ℕ) (m : Frames),
      l.foldl (fun m i => set m L.pgd (Fin.ofNat 512 i) 0) m f = m f := by
    intro l
    induction l with
    | nil => intro m; rfl
    | cons i l ih => intro m; rw [List.foldl_cons, ih, set_of_ne hf]
  exact h _ m

theorem dropIdentityMap_pgd (i : Fin 512) :
    dropIdentityMap L m L.pgd i = if i.val < earlyMapGib then 0 else m L.pgd i := by
  have h : ∀ n ≤ earlyMapGib,
      (List.range n).foldl (fun m i => set m L.pgd (Fin.ofNat 512 i) 0) m L.pgd i =
        if i.val < n then 0 else m L.pgd i := by
    intro n hn
    induction n with
    | zero => rfl
    | succ n ih =>
      have hlt : n < 512 := by unfold earlyMapGib at hn; omega
      rw [List.range_succ, List.foldl_append, List.foldl_cons, List.foldl_nil, set_apply,
        ih (by omega)]
      simp only [true_and, Fin.ext_iff, fin_ofNat_val hlt]
      by_cases h1 : i.val = n
      · rw [if_pos h1, if_pos (by omega)]
      by_cases h2 : i.val < n
      · rw [if_neg h1, if_pos h2, if_pos (by omega)]
      · rw [if_neg h1, if_neg h2, if_neg (by omega)]
  exact h _ le_rfl

theorem dropIdentityMap_shared (hs : Shared L m) : Shared L (dropIdentityMap L m) := by
  have h1 := L.pgd_pmd
  have h2 := L.pgd_pte
  unfold earlyPteTables at h2
  refine ⟨fun g hg i => ?_, fun k hk i => ?_⟩
  · rw [dropIdentityMap_of_ne (by omega), hs.pmd g hg]
  · rw [dropIdentityMap_of_ne (by omega), hs.pte k hk]

theorem dropIdentityMap_kernelHalf (hk : KernelHalf L m L.pgd) :
    KernelHalf L (dropIdentityMap L m) L.pgd := fun i hi => by
  rw [dropIdentityMap_pgd, if_neg (by unfold earlyMapGib; omega), hk i hi]

theorem dropIdentityMap_low (hl : LowHalf L m) {i : Fin 512} (hi : i.val < 256) :
    dropIdentityMap L m L.pgd i = 0 := by
  rw [dropIdentityMap_pgd, hl i hi]
  split_ifs <;> rfl

/-! ### The linear map of the boot -/

/-- The root table that `satp` selects in the mode of Sv39. -/
def Boot.rootTable (b : Boot) : Option ℕ :=
  if b.satp >>> 60 = 8 then some (b.satp.toNat % 2 ^ 44) else none

/-- A translation to the physical address `x`, with the permissions of the linear map. -/
def LinearTo (r : Option Leaf) (x : ℕ) : Prop :=
  ∃ l, r = some l ∧ l.pa = x ∧ l.Readable ∧ l.Writable ∧ (l.Executable ↔ ¬InWindow x)

theorem linearTo_flags (x : ℕ) : LinearTo (some ⟨x, linearFlags x⟩) x := by
  refine ⟨_, rfl, rfl, ?_⟩
  unfold Leaf.Readable Leaf.Writable Leaf.Executable linearFlags
  by_cases h : InWindow x
  · simp only [h]
    decide
  · simp only [h]
    decide

theorem makeSatp_toNat {f : ℕ} (hf : f < 2 ^ 44) : (makeSatp (framePa f)).toNat = 8 * 2 ^ 60 + f := by
  have hpa : (framePa f >>> 12).toNat = f := by
    rw [BitVec.toNat_ushiftRight, framePa_toNat hf, Nat.shiftRight_eq_div_pow,
      Nat.mul_div_cancel _ (by omega)]
  have hmode : (8 <<< 60 : Word).toNat = 8 <<< 60 := rfl
  rw [makeSatp, BitVec.toNat_or, hpa, hmode, ← Nat.shiftLeft_add_eq_or_of_lt (by omega),
    Nat.shiftLeft_eq]

theorem setupVm_root (L : Layout) (b : Boot) : (setupVm L b).rootTable = some L.pgd := by
  have hf := L.pgd_lt
  have hsatp : (setupVm L b).satp = makeSatp (framePa L.pgd) := rfl
  have hmode : makeSatp (framePa L.pgd) >>> 60 = 8 := by
    apply BitVec.eq_of_toNat_eq
    rw [BitVec.toNat_ushiftRight, makeSatp_toNat hf, Nat.shiftRight_eq_div_pow]
    show _ = 8
    omega
  rw [Boot.rootTable, hsatp, if_pos hmode, makeSatp_toNat hf]
  congr 1
  omega

/-- **What is mapped once the identity map is dropped**: the addresses of the kernel for the physical
addresses below 10 GiB. -/
theorem isSome_translate_dropped (L : Layout) (b : Boot) (va : Word) :
    (translateAddr (dropIdentityMap L (setupVm L b).mem) L.pgd va).isSome ↔
      (virtToPhysAddr va).toNat < linearSize := by
  obtain ⟨hs, hk, hl⟩ := setupVm_tables L b
  have hk' := dropIdentityMap_kernelHalf hk
  have hsub : (virtToPhysAddr va).toNat = (va.toNat + 2 ^ 38) % 2 ^ 64 := by
    have h0 : kernelVaOffset.toNat = 2 ^ 64 - 2 ^ 38 := by decide
    rw [virtToPhysAddr, BitVec.toNat_sub, h0]
    omega
  constructor
  · intro h
    by_contra hge
    have hnone : translateAddr (dropIdentityMap L (setupVm L b).mem) L.pgd va = none := by
      by_cases hc : Canonical va
      · rcases hc with hc | hc
        · have hv := vpn_val 2 va
          exact translate_of_zero (dropIdentityMap_low hl (by omega))
        · refine translate_kernel_none hk' ?_
          have := va.isLt
          omega
      · rw [translateAddr, if_neg hc]
    rw [hnone] at h
    cases h
  · intro h
    have hva : va = kernelVaOffset + BitVec.ofNat 64 (virtToPhysAddr va).toNat := by
      rw [BitVec.ofNat_toNat, BitVec.setWidth_eq, virtToPhysAddr, BitVec.add_comm,
        BitVec.sub_add_cancel]
    rw [hva, translate_kernel (dropIdentityMap_shared hs) hk'.part h]
    rfl

/-- **The boot page tables**: `setup_vm` maps the physical addresses below 10 GiB at their own
addresses and at those of the kernel, and nothing else; dropping the identity map leaves the kernel's
half. -/
theorem setupVm_linear (L : Layout) (b : Boot) :
    (setupVm L b).rootTable = some L.pgd ∧
    (∀ x < linearSize, LinearTo (translateAddr (setupVm L b).mem L.pgd (BitVec.ofNat 64 x)) x ∧
      LinearTo (translateAddr (setupVm L b).mem L.pgd (kernelVaOffset + BitVec.ofNat 64 x)) x) ∧
    (∀ va, (∀ x < linearSize, va ≠ BitVec.ofNat 64 x ∧ va ≠ kernelVaOffset + BitVec.ofNat 64 x) →
      translateAddr (setupVm L b).mem L.pgd va = none) ∧
    (∀ va : Word, va.toNat < 2 ^ 63 →
      translateAddr (dropIdentityMap L (setupVm L b).mem) L.pgd va = none) ∧
    ∀ x < linearSize,
      translateAddr (dropIdentityMap L (setupVm L b).mem) L.pgd (kernelVaOffset + BitVec.ofNat 64 x) =
        translateAddr (setupVm L b).mem L.pgd (kernelVaOffset + BitVec.ofNat 64 x) := by
  obtain ⟨hs, hk, hl⟩ := setupVm_tables L b
  refine ⟨setupVm_root L b, fun x hx => ?_, fun va hva => ?_, fun va hva => ?_, fun x hx => ?_⟩
  · rw [translate_low hs hl hx, translate_kernel hs hk.part hx]
    exact ⟨linearTo_flags x, linearTo_flags x⟩
  · by_cases hc : Canonical va
    · rcases hc with hc | hc
      · refine translate_low_none hl (not_lt.1 fun hlt => ?_) hc
        exact (hva _ hlt).1 (BitVec.eq_of_toNat_eq (Nat.mod_eq_of_lt va.isLt).symm)
      · refine translate_kernel_none hk (not_lt.1 fun hlt => ?_)
        have hx : va.toNat - (2 ^ 64 - 2 ^ 38) < linearSize := by omega
        refine (hva _ hx).2 (BitVec.eq_of_toNat_eq ?_)
        rw [kernelVa_toNat hx]
        omega
    · rw [translateAddr, if_neg hc]
  · by_cases hc : Canonical va
    · have hlow : va.toNat < 2 ^ 38 := hc.resolve_right (by omega)
      have hv := vpn_val 2 va
      exact translate_of_zero (dropIdentityMap_low hl (by omega))
    · rw [translateAddr, if_neg hc]
  · rw [translate_kernel hs hk.part hx,
      translate_kernel (dropIdentityMap_shared hs) (dropIdentityMap_kernelHalf hk).part hx]

end OscKernel.Vm.Setup
