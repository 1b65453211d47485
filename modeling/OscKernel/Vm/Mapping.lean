import OscKernel.Vm.Isolation

/-! # What `map_pages_to` maps

* `mapLoop_private`: the loop writes the page entries of a range, unless one of them is valid or
  memory runs out.
* `mapLoop_pages`: memory runs out when `alloc_pages` returns null, which is called twice a page at
  most.
* `decode_entry`: what an entry with the flags of a page translates to.
* `installed_of_run`: a call on a user page table, in every run. -/

namespace OscKernel.Vm.Mapping

open OscKernel.Lib.Memory OscKernel.Lib.Sv39 OscKernel.Lib.Transition
open OscKernel.Vm.Tables OscKernel.Vm.Setup OscKernel.Vm.Map OscKernel.Vm.Space OscKernel.Vm.Isolation

variable {L : Layout} {b : Boot} {m0 m m' : Frames} {role : ℕ → Role} {s s' : State} {v v' : Machine}
  {u f i n t : ℕ} {va pa size prot pgd : Word} {pages : List Word} {r : Except Failure Unit}

/-! ### The loop -/

/-- The address of the page `t` from an address on. -/
def addr (a : Word) (t : ℕ) : Word := a + BitVec.ofNat 64 t * 4096

/-- The entry belongs to one of `n` pages from the page `i` on. -/
def InRange (u : ℕ) (va : Word) (i n : ℕ) (u' : ℕ) (a b c : Fin 512) : Prop :=
  ∃ t, i ≤ t ∧ t < i + n ∧ PageOf u (addr va t) u' a b c

/-- The indices of two addresses are the same. -/
def SamePage (a b : Word) : Prop := vpn 2 a = vpn 2 b ∧ vpn 1 a = vpn 1 b ∧ vpn 0 a = vpn 0 b

/-- The pages have entries of their own, outside the kernel's part. -/
structure Separate (va : Word) (i n : ℕ) : Prop where
  priv : ∀ t, i ≤ t → t < i + n → Private (vpn 2 (addr va t))
  inj : ∀ t t', i ≤ t → t < i + n → i ≤ t' → t' < i + n → SamePage (addr va t) (addr va t') → t = t'

/-- The last-level entry of the page is valid. -/
def Mapped (m : Frames) (u : ℕ) (va : Word) : Prop := entryOf m u va &&& pteV ≠ 0

/-- How the loop ends. -/
def Outcome (v v' : Machine) (u : ℕ) (va pa prot : Word) (i n : ℕ) (r : Except Failure Unit) : Prop :=
  r = .error .memory ∨
  r = .error .mapped ∧ (∃ t, i ≤ t ∧ t < i + n ∧ Mapped v.mem u (addr va t)) ∨
  r = .ok () ∧ ∀ t, i ≤ t → t < i + n → ¬Mapped v.mem u (addr va t) ∧
    entryOf v'.mem u (addr va t) = paToPte (addr pa t) ||| prot ||| pteV

theorem mapLoop_private (va pa prot : Word) (n : ℕ) :
    ∀ {i : ℕ} {role : ℕ → Role} {v : Machine}, Good L m0 role v.mem →
    Avail role v.pages → role u = .root → u < 2 ^ 44 → Separate va i n →
    ∃ role' v' r, mapLoop (physToVirtAddr (framePa u)) va pa prot n i v = (r, v') ∧
      Good L m0 role' v'.mem ∧ Extends (InRange u va i n) role role' v v' ∧
      Outcome v v' u va pa prot i n r := by
  induction n with
  | zero =>
    intro i role v h ha hu hlt hsep
    exact ⟨role, v, _, rfl, h, .refl role v, .inr (.inr ⟨rfl, fun t h1 h2 => by omega⟩)⟩
  | succ n ih =>
    intro i role v h ha hu hlt hsep
    obtain ⟨role1, v1, h1, ha1, hx1, hm⟩ := mapPage_private (addr va i) (addr pa i) prot
      h ha hu hlt (hsep.priv i le_rfl (by omega))
    have hx1' : Extends (InRange u va i (n + 1)) role role1 v v1 :=
      hx1.mono fun u' a b c hp => ⟨i, le_rfl, by omega, hp⟩
    rcases hm with hm | ⟨hv, hm⟩ | ⟨hv, he, hm⟩ <;> unfold addr at hm
    · exact ⟨role1, v1, .error .memory, by rw [mapLoop, hm], h1, hx1', .inl rfl⟩
    · exact ⟨role1, v1, .error .mapped, by rw [mapLoop, hm], h1, hx1',
        .inr (.inl ⟨rfl, i, le_rfl, by omega, hv⟩)⟩
    have hu1 : role1 u = .root := by rw [hx1.roles u (by rw [hu]; simp), hu]
    have hsep' : Separate va (i + 1) n :=
      ⟨fun t ht ht' => hsep.priv t (by omega) (by omega),
        fun t t' h1 h2 h3 h4 => hsep.inj t t' (by omega) (by omega) (by omega) (by omega)⟩
    obtain ⟨role2, v2, r, hl, h2, hx2, ho⟩ := ih h1 ha1 hu1 hlt hsep'
    -- the entries of the pages that follow are not the one of this page
    have hlater : ∀ t, i + 1 ≤ t → t < i + 1 + n →
        entryOf v1.mem u (addr va t) = entryOf v.mem u (addr va t) := fun t ht ht' => by
      refine hx1.entries u _ _ _ hu (hsep.priv t (by omega) (by omega)) fun hp => ?_
      have := hsep.inj t i (by omega) (by omega) le_rfl (by omega) hp.2
      omega
    refine ⟨role2, v2, r, by rw [mapLoop, hm]; exact hl, h2, hx1'.trans (hx2.mono ?_), ?_⟩
    · rintro u' a b c ⟨t, ht, ht', hp⟩
      exact ⟨t, by omega, by omega, hp⟩
    rcases ho with hr | ⟨hr, t, ht, ht', hv'⟩ | ⟨hr, hall⟩
    · exact .inl hr
    · refine .inr (.inl ⟨hr, t, by omega, by omega, ?_⟩)
      rwa [Mapped, hlater t ht ht'] at hv'
    · refine .inr (.inr ⟨hr, fun t ht ht' => ?_⟩)
      rcases Nat.eq_or_lt_of_le ht with rfl | hlt'
      · refine ⟨not_not.2 hv, he ▸ hx2.entries u _ _ _ hu1 (hsep.priv i le_rfl (by omega)) ?_⟩
        rintro ⟨t, ht, ht', hp⟩
        have := hsep.inj i t le_rfl (by omega) (by omega) (by omega) hp.2
        omega
      · obtain ⟨hn, hw⟩ := hall t hlt' (by omega)
        exact ⟨by rwa [Mapped, hlater t hlt' (by omega)] at hn, hw⟩

/-! ### Running out of memory -/

/-- A part of the code that calls `alloc_pages` at most `c` times, one of which returns null if memory
runs out. -/
def Used {α : Type} (c : ℕ) (v : Machine) (x : Except Failure α × Machine) : Prop :=
  (∃ k ≤ c, x.2.pages = v.pages.drop k) ∧ (x.1 = .error .memory → ∃ k < c, v.pages.getD k 0 = 0)

section Used
variable {α β : Type} {c d : ℕ}

theorem Used.none {x : Except Failure α} (hx : x ≠ .error .memory) (hp : v'.pages = v.pages) :
    Used c v (x, v') :=
  ⟨⟨0, Nat.zero_le c, hp⟩, fun h => absurd h hx⟩

theorem Used.error {e : Failure} (h : Used c v ((.error e : Except Failure α), v')) :
    Used (c + d) v ((.error e : Except Failure β), v') := by
  obtain ⟨⟨k, hk, he⟩, hm⟩ := h
  refine ⟨⟨k, by omega, he⟩, fun hp => ?_⟩
  obtain ⟨k, hk, h0⟩ := hm (by rw [Except.error.inj hp])
  exact ⟨k, by omega, h0⟩

theorem Used.trans {a : α} {y : Except Failure β × Machine}
    (h : Used c v ((.ok a : Except Failure α), v')) (h' : Used d v' y) : Used (c + d) v y := by
  obtain ⟨⟨k, hk, he⟩, -⟩ := h
  obtain ⟨⟨k', hk', he'⟩, hm⟩ := h'
  refine ⟨⟨k + k', by omega, by rw [he', ← List.drop_drop, ← he]⟩, fun hq => ?_⟩
  obtain ⟨j, hj, h0⟩ := hm hq
  rw [show v'.pages = v.pages.drop k from he, List.getD_eq_getElem?_getD, List.getElem?_drop,
    ← List.getD_eq_getElem?_getD] at h0
  exact ⟨k + j, by omega, h0⟩

end Used

theorem nextTable_pages (v : Machine) (table : Word) (j : Fin 512) :
    Used 1 v (nextTable v table j) := by
  have hhead : v.pages.getD 0 0 = v.pages.headD 0 := by cases v.pages <;> rfl
  unfold nextTable allocPages
  by_cases h0 : v.mem (tableAt table) j &&& pteV = 0
  · simp only [h0, if_true]
    by_cases hn : v.pages.headD 0 = 0
    · simp only [hn, if_true]
      exact ⟨⟨1, le_rfl, List.drop_one.symm⟩, fun _ => ⟨0, by omega, hhead.trans hn⟩⟩
    · simp only [hn, if_false]
      exact ⟨⟨1, le_rfl, List.drop_one.symm⟩, fun h => by cases h⟩
  · simp only [h0, if_false]
    split_ifs
    · exact .none (by simp) rfl
    · exact .none (by simp) rfl

theorem walkCreate_pages (v : Machine) (table va : Word) : Used 2 v (walkCreate v table va) := by
  have h1 := nextTable_pages v table (Fin.ofNat 512 ((va >>> 30) &&& 0x1ff).toNat)
  rcases hx : nextTable v table (Fin.ofNat 512 ((va >>> 30) &&& 0x1ff).toNat) with ⟨e | pmd, v1⟩ <;>
    rw [hx] at h1
  · simp only [walkCreate, hx]
    exact h1.error (d := 1)
  have h2 := nextTable_pages v1 pmd (Fin.ofNat 512 ((va >>> 21) &&& 0x1ff).toNat)
  rcases hy : nextTable v1 pmd (Fin.ofNat 512 ((va >>> 21) &&& 0x1ff).toNat) with ⟨e | pte, v2⟩ <;>
    rw [hy] at h2 <;> simp only [walkCreate, hx, hy]
  · exact h1.trans (h2.error (d := 0))
  · exact h1.trans (h2.trans (d := 0) (.none (by simp) rfl))

theorem mapPage_pages (v : Machine) (table va pa prot : Word) :
    Used 2 v (mapPage v table va pa prot) := by
  unfold mapPage
  have h1 := walkCreate_pages v table va
  rcases hx : walkCreate v table va with ⟨e | ⟨pte, j⟩, v1⟩ <;> rw [hx] at h1 <;> simp only
  · exact h1.error (d := 0)
  refine h1.trans (d := 0) ?_
  split_ifs
  · exact .none (by simp) rfl
  · exact .none (by simp) rfl

theorem mapLoop_pages (table va pa prot : Word) (n : ℕ) : ∀ (i : ℕ) (v : Machine),
    Used (2 * n) v (mapLoop table va pa prot n i v) := by
  induction n with
  | zero => exact fun i v => .none (by simp) rfl
  | succ n ih =>
    intro i v
    rw [mapLoop, show 2 * (n + 1) = 2 + 2 * n by omega]
    have h1 := mapPage_pages v table (va + BitVec.ofNat 64 i * 4096)
      (pa + BitVec.ofNat 64 i * 4096) prot
    rcases hx : mapPage v table (va + BitVec.ofNat 64 i * 4096) (pa + BitVec.ofNat 64 i * 4096) prot
      with ⟨e | a, v1⟩ <;> rw [hx] at h1 <;> simp only
    · exact h1.error
    · exact h1.trans (ih (i + 1) v1)

/-! ### The entries -/

/-- The flags of a page: only flags are set, R or X is, and W only together with R. -/
structure PageFlags (prot : Word) : Prop where
  lt : prot.toNat < 2 ^ 10
  page : prot.toNat.testBit 1 = true ∨ prot.toNat.testBit 3 = true
  write : prot.toNat.testBit 2 = true → prot.toNat.testBit 1 = true

/-- An entry with the flags of a page maps its frame. -/
theorem decode_entry (hp : PageFlags prot) (ha : pa.toNat = f * 2 ^ 12) (hf : f < 2 ^ 44) :
    decode (paToPte pa ||| prot ||| pteV) va =
      some ⟨f * 2 ^ 12 + va.toNat % 2 ^ 12, (prot ||| pteV).toNat⟩ := by
  have hor : (prot ||| pteV).toNat = prot.toNat ||| 1 := BitVec.toNat_or ..
  have hlt : (prot ||| pteV).toNat < 2 ^ 10 := by
    rw [hor]
    exact Nat.or_lt_two_pow hp.lt (by omega)
  have he := mkPte_toNat ha hf hlt
  rw [← BitVec.or_assoc] at he
  have hfl := flags_of_toNat he hlt
  have hbit : ∀ k, (flags (paToPte pa ||| prot ||| pteV)).testBit k =
      (prot.toNat.testBit k || Nat.testBit 1 k) := fun k => by rw [hfl, hor, Nat.testBit_or]
  have hleaf : isLeaf (paToPte pa ||| prot ||| pteV) = true := by
    rw [isLeaf, hbit, hbit]
    rcases hp.page with h | h <;> simp [h]
  have hvalid : usable (paToPte pa ||| prot ||| pteV) = true := by
    rw [usable, reserved_of_toNat he hlt hf, hbit, hbit, hbit]
    cases h2 : prot.toNat.testBit 2 with
    | false => simp [show Nat.testBit 1 2 = false from rfl]
    | true => simp [hp.write h2]
  rw [decode, hvalid, hleaf, Bool.and_self, if_pos rfl, leafAt, ppn_of_toNat he hlt hf, hfl,
    if_pos (by rw [pow_zero, Nat.mod_one])]

/-- Without a valid entry nothing is mapped. -/
theorem decode_of_not_mapped {e : Word} (he : e &&& pteV = 0) : decode e va = none := by
  have hbit : (flags e).testBit 0 = false := by
    have h := congrArg (fun w => w.toNat.testBit 0) he
    simp only [and_toNat e (show pteV.toNat < 2 ^ 10 by decide), Nat.testBit_and] at h
    simpa [pteV] using h
  rw [decode, usable, hbit]
  rfl

/-! ### The addresses of the pages -/

/-- The bytes of the whole pages that a size takes. -/
def pages4k (size : Word) : ℕ := (size.toNat + 4095) / 4096

/-- The ranges that a caller may ask for: pages of the lower half. -/
structure Request (va size pa : Word) : Prop where
  va_aligned : va.toNat % 4096 = 0
  pa_aligned : pa.toNat % 4096 = 0
  size_pos : 0 < size.toNat
  va_le : va.toNat + size.toNat ≤ 2 ^ 38
  pa_lt : pa.toNat + size.toNat < 2 ^ 56

theorem add_ofNat_toNat {a : Word} {o : ℕ} (h : a.toNat + o < 2 ^ 64) :
    (a + BitVec.ofNat 64 o).toNat = a.toNat + o := by
  rw [BitVec.toNat_add, BitVec.toNat_ofNat, Nat.add_mod_mod, Nat.mod_eq_of_lt h]

theorem addr_eq (a : Word) (t : ℕ) : addr a t = a + BitVec.ofNat 64 (t * 4096) := by
  rw [addr, BitVec.ofNat_mul]
  rfl

theorem addr_toNat {a : Word} (h : a.toNat + t * 4096 < 2 ^ 64) :
    (addr a t).toNat = a.toNat + t * 4096 := by
  rw [addr_eq, add_ofNat_toNat h]

/-- The addresses of a page have the same indices. -/
theorem samePage_of {a c : Word} (h : a.toNat / 2 ^ 12 = c.toNat / 2 ^ 12) : SamePage a c := by
  have hv : ∀ level, vpn level a = vpn level c := fun level => by
    apply Fin.ext
    rw [vpn_val, vpn_val, pow_add, ← Nat.div_div_eq_div_mul, ← Nat.div_div_eq_div_mul, h]
  exact ⟨hv 2, hv 1, hv 0⟩

theorem SamePage.entryOf {a c : Word} (h : SamePage a c) : entryOf m u a = entryOf m u c := by
  rw [Space.entryOf, Space.entryOf, h.1, h.2.1, h.2.2]

namespace Request

variable (h : Request va size pa)
include h

theorem pages4k_le : va.toNat + pages4k size * 4096 ≤ 2 ^ 38 ∧
    pa.toNat + pages4k size * 4096 ≤ 2 ^ 56 := by
  obtain ⟨h1, h2, -, h4, h5⟩ := h
  unfold pages4k
  omega

theorem count : ((size + 4096 - 1) / 4096 : Word).toNat = pages4k size := by
  have hle := h.va_le
  have he : (size + 4096 - 1).toNat = size.toNat + 4095 := by
    rw [show size + 4096 - 1 = size + BitVec.ofNat 64 4095 by bv_omega, add_ofNat_toNat (by omega)]
  rw [BitVec.toNat_udiv, he]
  rfl

theorem separate : Separate va 0 (pages4k size) := by
  obtain ⟨hle, -⟩ := h.pages4k_le
  have hlow : ∀ t < pages4k size, (addr va t).toNat = va.toNat + t * 4096 ∧
      (addr va t).toNat < 2 ^ 38 := fun t ht => by
    rw [addr_toNat (by omega)]
    omega
  refine ⟨fun t _ ht => .inl ?_, fun t t' _ ht _ ht' hp => ?_⟩
  · obtain ⟨-, hlt⟩ := hlow t (by omega)
    rw [vpn_val]
    omega
  · obtain ⟨he, hlt⟩ := hlow t (by omega)
    obtain ⟨he', hlt'⟩ := hlow t' (by omega)
    have := vpn_ext hlt hlt' hp.1 hp.2.1 hp.2.2
    have := h.va_aligned
    omega

end Request

/-! ### The call -/

/-- The call has installed the mapping that was asked for, and only this. -/
structure Installed (m m' : Frames) (u : ℕ) (va size pa prot : Word) : Prop where
  inside : ∀ o < pages4k size * 4096, translateAddr m' u (va + BitVec.ofNat 64 o) =
    some ⟨pa.toNat + o, (prot ||| pteV).toNat⟩
  outside : ∀ a, (∀ o < pages4k size * 4096, a ≠ va + BitVec.ofNat 64 o) →
    translateAddr m' u a = translateAddr m u a
  fresh : ∀ o < pages4k size * 4096, ¬Mapped m u (va + BitVec.ofNat 64 o) ∧
    translateAddr m u (va + BitVec.ofNat 64 o) = none

/-- An address of the range lies in one of the pages. -/
theorem Request.page (h : Request va size pa) {o : ℕ} (ho : o < pages4k size * 4096) :
    o / 4096 < pages4k size ∧ SamePage (va + BitVec.ofNat 64 o) (addr va (o / 4096)) ∧
      (va + BitVec.ofNat 64 o).toNat = va.toNat + o ∧ va.toNat + o < 2 ^ 38 := by
  obtain ⟨hle, -⟩ := h.pages4k_le
  have ha := h.va_aligned
  have hva : (va + BitVec.ofNat 64 o).toNat = va.toNat + o := add_ofNat_toNat (by omega)
  refine ⟨by omega, samePage_of ?_, hva, by omega⟩
  rw [hva, addr_toNat (by omega)]
  omega

theorem installed_of_loop (h : Request va size pa) (hprot : PageFlags prot) {role' : ℕ → Role}
    (hg : Good L m0 role v.mem) (hg' : Good L m0 role' v'.mem) (hu : role u = .root)
    (hx : Extends (InRange u va 0 (pages4k size)) role role' v v')
    (ho : ∀ t, 0 ≤ t → t < 0 + pages4k size → ¬Mapped v.mem u (addr va t) ∧
      entryOf v'.mem u (addr va t) = paToPte (addr pa t) ||| prot ||| pteV) :
    Installed v.mem v'.mem u va size pa prot := by
  have hu' : role' u = .root := by rw [hx.roles u (by rw [hu]; simp), hu]
  obtain ⟨hle, hle'⟩ := h.pages4k_le
  have hva := h.va_aligned
  have hpa := h.pa_aligned
  refine ⟨fun o hlt => ?_, fun a ha => ?_, fun o hlt => ?_⟩
  · obtain ⟨ht, hp, hn, hlow⟩ := h.page hlt
    obtain ⟨-, he⟩ := ho (o / 4096) (Nat.zero_le _) (by omega)
    have hframe : (addr pa (o / 4096)).toNat = (pa.toNat / 4096 + o / 4096) * 2 ^ 12 := by
      rw [addr_toNat (by omega)]
      omega
    rw [translate_private hg' hu' (.inl (by rw [hn]; exact hlow))
      (hp.1 ▸ h.separate.priv _ (Nat.zero_le _) (by omega)), hp.entryOf, he,
      decode_entry hprot hframe (by omega), hn]
    congr 2
    omega
  · by_cases hc : Canonical a
    · refine translate_congr hg hg' hu hu' fun hi => hx.entries u _ _ _ hu hi ?_
      rintro ⟨t, -, ht, -, hp⟩
      have hta : (addr va t).toNat = va.toNat + t * 4096 := addr_toNat (by omega)
      have hv2 : (vpn 2 a).val < 256 := by
        rw [hp.1, vpn_val, hta]
        omega
      rw [vpn_val] at hv2
      have hlow : a.toNat < 2 ^ 38 := hc.resolve_right (by omega)
      have hpage := vpn_ext hlow (by omega) hp.1 hp.2.1 hp.2.2
      rw [hta] at hpage
      refine ha (a.toNat - va.toNat) (by omega) (BitVec.eq_of_toNat_eq ?_)
      rw [add_ofNat_toNat (by omega)]
      omega
    · rw [translateAddr, translateAddr, if_neg hc, if_neg hc]
  · obtain ⟨ht, hp, hn, hlow⟩ := h.page hlt
    obtain ⟨hm, -⟩ := ho (o / 4096) (Nat.zero_le _) (by omega)
    rw [Mapped, ← hp.entryOf] at hm
    refine ⟨hm, ?_⟩
    rw [translate_private hg hu (.inl (by rw [hn]; exact hlow))
      (hp.1 ▸ h.separate.priv _ (Nat.zero_le _) (by omega)), decode_of_not_mapped (not_not.1 hm)]

/-- How a call on a user page table ends, in every run. -/
structure Called (L : Layout) (s s' : State) (u : ℕ) (va size pa prot : Word) (pages : List Word)
    (r : Except Failure Unit) (m0 : Frames) (role role' : ℕ → Role) : Prop where
  before : Good L m0 role s.mem
  after : Good L m0 role' s'.mem
  root : role u = .root
  grows : Extends (InRange u va 0 (pages4k size)) role role' ⟨s.mem, pages⟩ ⟨s'.mem, []⟩
  outcome : Outcome ⟨s.mem, pages⟩ ⟨s'.mem, []⟩ u va pa prot 0 (pages4k size) r
  memory : r = .error .memory → ∃ k < 2 * pages4k size, pages.getD k 0 = 0

theorem called_of_run {es : List Event} (h : Run (next L) Fresh (boot L b) es s)
    (hf : FreshPages s.tables pages) (hr : Request va size pa)
    (hs : Map.step L s (.map pgd va size pa prot pages) = some (s', some r)) :
    ∃ m0 role role', Called L s s' (tableAt pgd) va size pa prot pages r m0 role role' := by
  obtain ⟨role, hi⟩ := inv_of_run h
  obtain ⟨hmem, r', v', hm, hr', rfl⟩ := step_map hs
  obtain rfl := Option.some.inj hr'
  obtain ⟨u, hu, hp, hrole⟩ := hi.user pgd hmem
  have htab : tableAt pgd = u := by rw [hp, tableAt_physToVirt hu]
  have hsize : size ≠ 0 := fun h0 => by
    have := hr.size_pos
    rw [h0] at this
    exact absurd this (by decide)
  rw [mapPagesTo, if_neg (not_or.2 ⟨hi.nonnull pgd hmem, hsize⟩), hr.count] at hm
  have hused := mapLoop_pages pgd va pa prot (pages4k size) 0 ⟨s.mem, pages⟩
  obtain ⟨role', v'', r', hl, hg', hx, ho⟩ := mapLoop_private va pa prot (pages4k size)
    (v := ⟨s.mem, pages⟩) hi.good (hi.avail hf) hrole hu hr.separate
  rw [← hp, hm, Prod.mk.injEq] at hl
  obtain ⟨rfl, rfl⟩ := hl
  rw [hm] at hused
  rw [htab]
  exact ⟨_, role, role', hi.good, hg', hrole,
    ⟨hx.roles, hx.made, fun p hp => absurd hp (by simp), hx.kernel, hx.entries⟩, ho, hused.2⟩

/-- **What `map_pages_to` does** to a user page table, in every run: when it returns 0 the range is
mapped as asked for, nothing else has changed and no page of the range was mapped; and if no page of
the range is mapped it returns 0, unless `alloc_pages` returns null. -/
theorem installed_of_run {es : List Event} (h : Run (next L) Fresh (boot L b) es s)
    (hf : FreshPages s.tables pages) (hr : Request va size pa) (hp : PageFlags prot)
    (hs : Map.step L s (.map pgd va size pa prot pages) = some (s', some r)) :
    (r = .ok () → Installed s.mem s'.mem (tableAt pgd) va size pa prot) ∧
    ((∀ o < pages4k size * 4096, ¬Mapped s.mem (tableAt pgd) (va + BitVec.ofNat 64 o)) →
      r = .ok () ∨ r = .error .memory ∧ ∃ k < 2 * pages4k size, pages.getD k 0 = 0) := by
  obtain ⟨m0, role, role', hc⟩ := called_of_run h hf hr hs
  refine ⟨fun hok => ?_, fun hfree => ?_⟩
  · rcases hc.outcome with hr' | ⟨hr', -⟩ | ⟨-, hall⟩
    · rw [hok] at hr'
      cases hr'
    · rw [hok] at hr'
      cases hr'
    · exact installed_of_loop hr hp hc.before hc.after hc.root hc.grows hall
  · rcases hc.outcome with hr' | ⟨-, t, -, ht, hv⟩ | ⟨hr', -⟩
    · exact .inr ⟨hr', hc.memory hr'⟩
    · refine absurd hv ?_
      rw [addr_eq]
      exact hfree (t * 4096) (by omega)
    · exact .inl hr'

theorem not_mapped_of_root (h : m u (vpn 2 va) = 0) : ¬Mapped m u va := by
  rw [Mapped, entryOf, pageEntry_of_root h]
  exact fun hn => hn rfl

theorem request_page : Request 0x1000 0x1000 0 :=
  ⟨by decide, by decide, by decide, by decide, by decide⟩

/-- The page `0x1000` of a new user page table, with any flags. -/
theorem oneTable_map (prot : Word) : ∃ s s',
    Run (next default) Fresh (boot default zeroed) [.create [pageAt 1024]] s ∧
    FreshPages s.tables [pageAt 1025, pageAt 1026] ∧
    Map.step default s (.map (pageAt 1024) 0x1000 0x1000 0 prot [pageAt 1025, pageAt 1026]) =
      some (s', some (.ok ())) := by
  obtain ⟨s, hr, hu, hf, h0⟩ := oneTable_run
  obtain ⟨s', hs⟩ := next_map_exists (L := default) 0x1000 0x1000 0 prot
    [pageAt 1025, pageAt 1026] (by rw [hu]; exact .head _)
  obtain ⟨o, ho⟩ := next_eq_some hs
  obtain ⟨-, r, v', -, rfl, -⟩ := step_map ho
  obtain ⟨m0, role, role', hc⟩ := called_of_run hr hf request_page ho
  have hcount : pages4k 0x1000 = 1 := by decide
  have hroot : tableAt (pageAt 1024) = 1024 := tableAt_physToVirt (by decide)
  refine ⟨s, s', hr, hf, ?_⟩
  rcases hc.outcome with hr' | ⟨hr', t, -, ht, hv⟩ | ⟨hr', -⟩
  · obtain ⟨k, hk, hz⟩ := hc.memory hr'
    rcases (by omega : k = 0 ∨ k = 1) with rfl | rfl <;> exact absurd hz (by decide)
  · obtain rfl : t = 0 := by omega
    rw [hroot] at hv
    exact absurd hv (not_mapped_of_root (h0 _ (by decide)))
  · rw [ho, hr']

/-- What `alloc_pages` gives out when three pages are asked for. -/
def sixPages : List Word := [1025, 1026, 1027, 1028, 1029, 1030].map pageAt

/-- Three pages from `0x1ff000` on, the last two in another table than the first. -/
theorem installed_threePages : ∃ s s',
    Run (next default) Fresh (boot default zeroed) [.create [pageAt 1024]] s ∧
    Map.step default s (.map (pageAt 1024) 0x1ff000 0x3000 0x5000 (pteR ||| pteU) sixPages) =
      some (s', some (.ok ())) ∧
    Installed s.mem s'.mem (tableAt (pageAt 1024)) 0x1ff000 0x3000 0x5000 (pteR ||| pteU) := by
  obtain ⟨s, hr, hu, -, h0⟩ := oneTable_run
  have hf : FreshPages s.tables sixPages := by
    rw [oneTable_tables hr]
    exact freshPages_of_frames _ (by decide) (by decide)
  have hreq : Request 0x1ff000 0x3000 0x5000 :=
    ⟨by decide, by decide, by decide, by decide, by decide⟩
  obtain ⟨s', hs⟩ := next_map_exists (L := default) 0x1ff000 0x3000 0x5000 (pteR ||| pteU) sixPages
    (by rw [hu]; exact .head _)
  obtain ⟨o, ho⟩ := next_eq_some hs
  obtain ⟨-, r, v', -, rfl, -⟩ := step_map ho
  obtain ⟨m0, role, role', hc⟩ := called_of_run hr hf hreq ho
  have hcount : pages4k 0x3000 = 3 := by decide
  have hroot : tableAt (pageAt 1024) = 1024 := tableAt_physToVirt (by decide)
  have hok : r = .ok () := by
    rcases hc.outcome with hr' | ⟨hr', t, -, ht, hv⟩ | ⟨hr', -⟩
    · obtain ⟨k, hk, hz⟩ := hc.memory hr'
      have hpages : ∀ k < 6, sixPages.getD k 0 ≠ 0 := by decide
      exact absurd hz (hpages k (by omega))
    · rw [hroot] at hv
      have hlow : ∀ t < 3, (vpn 2 (addr 0x1ff000 t)).val < 256 := by decide
      exact absurd hv (not_mapped_of_root (h0 _ (hlow t (by omega))))
    · exact hr'
  subst hok
  exact ⟨s, s', hr, ho, (installed_of_run hr hf hreq ⟨by decide, by decide, by decide⟩ ho).1 rfl⟩

/-- A page with W but not R: the call returns 0, and the page is not mapped. -/
theorem not_installed_writeOnly : ∃ s s',
    Run (next default) Fresh (boot default zeroed) [.create [pageAt 1024]] s ∧
    FreshPages s.tables [pageAt 1025, pageAt 1026] ∧ Request 0x1000 0x1000 0 ∧
    Map.step default s (.map (pageAt 1024) 0x1000 0x1000 0 pteW [pageAt 1025, pageAt 1026]) =
      some (s', some (.ok ())) ∧
    ¬Installed s.mem s'.mem (tableAt (pageAt 1024)) 0x1000 0x1000 0 pteW := by
  obtain ⟨s, s', hr, hf, hs⟩ := oneTable_map pteW
  refine ⟨s, s', hr, hf, request_page, hs, fun hi => ?_⟩
  obtain ⟨m0, role, role', hc⟩ := called_of_run hr hf request_page hs
  have hroot : role' (tableAt (pageAt 1024)) = .root := by
    rw [hc.grows.roles _ (by rw [hc.root]; simp), hc.root]
  rcases hc.outcome with hr' | ⟨hr', -⟩ | ⟨-, hall⟩
  · cases hr'
  · cases hr'
  obtain ⟨-, he⟩ := hall 0 le_rfl (by decide)
  have htr := hi.inside 0 (by decide)
  rw [show (0x1000 + BitVec.ofNat 64 0 : Word) = addr 0x1000 0 from rfl,
    translate_private hc.after hroot (by decide) (.inl (by decide)), he] at htr
  cases htr

end OscKernel.Vm.Mapping
