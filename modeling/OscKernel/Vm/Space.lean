import OscKernel.Vm.Map

/-! # The shape of the page tables

Every table has one role: it is one of the shared tables of the kernel, the root of a user page table,
or the one table of the second or last level for its indices under such a root. What a root maps
outside the kernel's part is then a function of the three indices (`pageEntry`).

* `Good`: the invariant of the tables.
* `nextTable_root`, `nextTable_pmd`: a level of `walk_create` makes a table where there is none, and
  leaves every page entry as it was.
* `mapPage_private`, `mapPage_kernel`: a round of `map_pages_to` writes one page entry, or none.
* `translate_private`: the translation depends on the page entry. -/

namespace OscKernel.Vm.Space

open OscKernel.Lib.Memory OscKernel.Lib.Sv39 OscKernel.Vm.Tables OscKernel.Vm.Setup OscKernel.Vm.Map

/-! ### The invariant -/

/-- What a frame holds. -/
inductive Role
  | free
  | kernel
  | root
  | pmd (root : ℕ) (i : Fin 512)
  | pte (root : ℕ) (i j : Fin 512)
deriving DecidableEq

/-- The entry of a root table does not belong to the linear map of the kernel. -/
def Private (i : Fin 512) : Prop := i.val < 256 ∨ 256 + earlyMapGib ≤ i.val

/-- The roles of the frames describe the tables in memory. -/
structure Good (L : Layout) (m0 : Frames) (role : ℕ → Role) (m : Frames) : Prop where
  pgdRole : role L.pgd = .kernel
  pmdRole : ∀ g < earlyMapGib, role (L.pmd + g) = .kernel
  pteRole : ∀ k < earlyPteTables, role (L.pte + k) = .kernel
  fixed : ∀ f, role f = .kernel → f ≠ L.pgd → m f = m0 f
  shared : Shared L m
  half : KernelHalf L m L.pgd
  low : ∀ i : Fin 512, i.val < 256 →
    m L.pgd i = 0 ∨ ∃ g < earlyMapGib, m L.pgd i = ptr (L.pmd + g)
  part : ∀ u, role u = .root → KernelPart L m u
  root : ∀ u, role u = .root → ∀ i, Private i →
    m u i = 0 ∨ ∃ f < 2 ^ 44, m u i = ptr f ∧ role f = .pmd u i
  pmd : ∀ f u i, role f = .pmd u i → ∀ j,
    m f j = 0 ∨ ∃ g < 2 ^ 44, m f j = ptr g ∧ role g = .pte u i j

/-- The page entry under a root for three indices; zero where a table is missing. -/
def pageEntry (m : Frames) (u : ℕ) (i j k : Fin 512) : Word :=
  if m u i = 0 then 0 else if m (ppn (m u i)) j = 0 then 0 else m (ppn (m (ppn (m u i)) j)) k

/-- The pages that `alloc_pages` has left have no role. -/
structure Avail (role : ℕ → Role) (pages : List Word) : Prop where
  frame : ∀ p ∈ pages, p ≠ 0 → ∃ f < 2 ^ 44, p = physToVirtAddr (framePa f) ∧ role f = .free
  distinct : pages.Pairwise fun p q => p = q → p = 0

/-- Tables have been made out of pages given out; of the page entries only those in `C` may have
changed. -/
structure Extends (C : ℕ → Fin 512 → Fin 512 → Fin 512 → Prop) (role role' : ℕ → Role)
    (v v' : Machine) :
    Prop where
  roles : ∀ f, role f ≠ .free → role' f = role f
  made : ∀ f, role' f ≠ .free → role f ≠ .free ∨ f ∈ framesOf v.pages
  pages : ∀ p ∈ v'.pages, p ∈ v.pages
  kernel : ∀ f, role f = .kernel → v'.mem f = v.mem f
  entries : ∀ u i j k, role u = .root → Private i → ¬C u i j k →
    pageEntry v'.mem u i j k = pageEntry v.mem u i j k

/-- No page entry. -/
def NoEntry (_ : ℕ) (_ _ _ : Fin 512) : Prop := False

/-- The role of the table that an entry of a table leads to. -/
inductive Child : Role → ℕ → Fin 512 → Role → Prop
  | root {t : ℕ} {i : Fin 512} (hi : Private i) : Child .root t i (.pmd t i)
  | pmd {u t : ℕ} {i j : Fin 512} : Child (.pmd u i) t j (.pte u i j)

variable {L : Layout} {m0 m : Frames} {role role' role'' : ℕ → Role} {v v' v'' : Machine} {u f t : ℕ}
  {i j k : Fin 512} {pages : List Word} {C C' : ℕ → Fin 512 → Fin 512 → Fin 512 → Prop} {r : Role}

theorem framesOf_mono {l l' : List Word} (h : ∀ p ∈ l', p ∈ l) {f : ℕ} (hf : f ∈ framesOf l') :
    f ∈ framesOf l := by
  obtain ⟨p, hp, rfl⟩ := List.mem_map.1 hf
  obtain ⟨hp, h0⟩ := List.mem_filter.1 hp
  exact List.mem_map.2 ⟨p, List.mem_filter.2 ⟨h p hp, h0⟩, rfl⟩

theorem Extends.refl (role : ℕ → Role) (v : Machine) : Extends C role role v v :=
  ⟨fun _ _ => rfl, fun _ h => .inl h, fun _ h => h, fun _ _ => rfl, fun _ _ _ _ _ _ _ => rfl⟩

theorem Extends.mono (h : Extends C role role' v v') (hC : ∀ u i j k, C u i j k → C' u i j k) :
    Extends C' role role' v v' :=
  { h with entries := fun u i j k hu hi hc => h.entries u i j k hu hi fun h => hc (hC _ _ _ _ h) }

theorem Extends.trans (h : Extends C role role' v v') (h' : Extends C role' role'' v' v'') :
    Extends C role role'' v v'' where
  roles f hf := by rw [h'.roles f (by rwa [h.roles f hf]), h.roles f hf]
  made f hf := by
    rcases h'.made f hf with hf | hf
    · exact h.made f hf
    · exact .inr (framesOf_mono h.pages hf)
  pages p hp := h.pages p (h'.pages p hp)
  kernel f hf := by
    rw [h'.kernel f (by rw [h.roles f (by rw [hf]; simp), hf]), h.kernel f hf]
  entries u i j k hu hi hc := by
    rw [h'.entries u i j k (by rw [h.roles u (by rw [hu]; simp), hu]) hi hc,
      h.entries u i j k hu hi hc]

theorem Extends.null (role : ℕ → Role) (v : Machine) :
    Extends C role role v { v with pages := v.pages.tail } :=
  ⟨fun _ _ => rfl, fun _ h => .inl h, fun _ h => List.mem_of_mem_tail h, fun _ _ => rfl,
    fun _ _ _ _ _ _ _ => rfl⟩

theorem Avail.tail (h : Avail role pages) : Avail role pages.tail :=
  ⟨fun p hp => h.frame p (List.mem_of_mem_tail hp), h.distinct.tail⟩

/-- A call of `alloc_pages` returns null, or the pointer to a frame without a role; with the role that
it gets, the pages left are still available. -/
theorem alloc_cases (h : Avail role v.pages) : (v.pages.headD 0 = 0) ∨
    ∃ f < 2 ^ 44, v.pages.headD 0 = physToVirtAddr (framePa f) ∧ v.pages.headD 0 ≠ 0 ∧
      role f = .free ∧ f ∈ framesOf v.pages ∧
      ∀ r, Avail (Function.update role f r) v.pages.tail := by
  cases hp : v.pages with
  | nil => exact .inl rfl
  | cons p ps =>
    rw [hp] at h
    by_cases h0 : p = 0
    · exact .inl h0
    obtain ⟨f, hf, hpf, hrole⟩ := h.frame p (by simp) h0
    have htab : tableAt p = f := by rw [hpf, tableAt_physToVirt hf]
    refine .inr ⟨f, hf, hpf, h0, hrole, ?_, fun r => ⟨fun q hq hq0 => ?_, h.distinct.tail⟩⟩
    · exact List.mem_map.2 ⟨p, List.mem_filter.2 ⟨by simp, by simpa using h0⟩, htab⟩
    · obtain ⟨f', hf', hqf, hrole'⟩ := h.frame q (List.mem_cons_of_mem _ hq) hq0
      have hne : f' ≠ f := fun he => by
        have hpq : p = q := by rw [hpf, hqf, he]
        exact h0 ((List.pairwise_cons.1 h.distinct).1 q hq hpq)
      exact ⟨f', hf', hqf, by rw [Function.update_of_ne hne]; exact hrole'⟩

/-! ### A level of `walk_create` -/

theorem Good.child (h : Good L m0 role m) (hc : Child (role t) t i r) :
    m t i = 0 ∨ ∃ f < 2 ^ 44, m t i = ptr f ∧ role f = r := by
  generalize hr : role t = rt at hc
  cases hc with
  | root hi => exact h.root t hr i hi
  | pmd => exact h.pmd t _ _ hr i

theorem ptr_ne_zero (hf : f < 2 ^ 44) : ptr f ≠ 0 := fun h0 => ptr_valid hf (by rw [h0]; rfl)

theorem pageEntry_of_root (h : m u i = 0) : pageEntry m u i j k = 0 := by rw [pageEntry, if_pos h]

theorem pageEntry_of_ptr (hf : f < 2 ^ 44) (h : m u i = ptr f) :
    pageEntry m u i j k = if m f j = 0 then 0 else m (ppn (m f j)) k := by
  rw [pageEntry, h, if_neg (ptr_ne_zero hf), ppn_ptr hf]

theorem pageEntry_of_path {g : ℕ} (hf : f < 2 ^ 44) (h : m u i = ptr f) (hg : g < 2 ^ 44)
    (h' : m f j = ptr g) : pageEntry m u i j k = m g k := by
  rw [pageEntry_of_ptr hf h, h', if_neg (ptr_ne_zero hg), ppn_ptr hg]

theorem Good.path (h : Good L m0 role m) (hu : role u = .root) (hi : Private i) (j : Fin 512) :
    (m u i = 0 ∧ ∀ k, pageEntry m u i j k = 0) ∨
    ∃ f < 2 ^ 44, m u i = ptr f ∧ role f = .pmd u i ∧
      ((m f j = 0 ∧ ∀ k, pageEntry m u i j k = 0) ∨
      ∃ g < 2 ^ 44, m f j = ptr g ∧ role g = .pte u i j ∧ ∀ k, pageEntry m u i j k = m g k) := by
  rcases h.root u hu i hi with h0 | ⟨f, hf, he, hr⟩
  · exact .inl ⟨h0, fun k => pageEntry_of_root h0⟩
  refine .inr ⟨f, hf, he, hr, ?_⟩
  rcases h.pmd f u i hr j with h0 | ⟨g, hg, he', hr'⟩
  · exact .inl ⟨h0, fun k => by rw [pageEntry_of_ptr hf he, if_pos h0]⟩
  · exact .inr ⟨g, hg, he', hr', fun k => pageEntry_of_path hf he hg he'⟩

/-- A cleared table in the frame `f`, with the entry `i` of the table `t` that points to it. -/
def newTable (m : Frames) (t : ℕ) (i : Fin 512) (f : ℕ) : Frames :=
  set (clearTable m f) t i (ptr f)

theorem newTable_entry : newTable m t i f t i = ptr f := set_self

theorem newTable_table (hft : f ≠ t) : newTable m t i f f j = 0 := by
  rw [newTable, set_of_ne hft, clearTable, fill_self]

theorem newTable_of_ne {x : ℕ} (hx : x ≠ f) (h : ¬(x = t ∧ j = i)) :
    newTable m t i f x j = m x j := by
  rw [newTable, set_apply, if_neg h, clearTable, fill_of_ne hx]

theorem newTable_frame {x : ℕ} (hx : x ≠ f) (ht : x ≠ t) : newTable m t i f x = m x :=
  funext fun _ => newTable_of_ne hx fun h => ht h.1

theorem Child.not_free (hc : Child (role t) t i r) : role t ≠ .free := fun h => by
  rw [h] at hc
  cases hc

theorem Child.not_kernel (hc : Child (role t) t i r) : role t ≠ .kernel := fun h => by
  rw [h] at hc
  cases hc

/-- A table that gets a role keeps the roles of the others. -/
theorem update_role (hfree : role f = .free) {x : ℕ} (hx : role x ≠ .free) :
    x ≠ f ∧ Function.update role f r x = role x := by
  have hne : x ≠ f := fun h => hx (h ▸ hfree)
  exact ⟨hne, Function.update_of_ne hne ..⟩

/-- The frames of the kernel do not change when a table is made. -/
theorem newTable_kernel (hc : Child (role t) t i r) (hfree : role f = .free) {x : ℕ}
    (hx : role x = .kernel) : newTable m t i f x = m x :=
  newTable_frame (update_role (r := r) hfree (by rw [hx]; simp)).1 fun h => hc.not_kernel (h ▸ hx)

theorem Good.newTable (h : Good L m0 role m) (hc : Child (role t) t i r) (hf : f < 2 ^ 44)
    (hfree : role f = .free) :
    Good L m0 (Function.update role f r) (newTable m t i f) := by
  have hft : f ≠ t := fun he => hc.not_free (he ▸ hfree)
  have hold : ∀ {x}, role x ≠ .free → x ≠ f ∧ Function.update role f r x = role x :=
    update_role hfree
  have hrole : ∀ {x y}, role x = y → y ≠ .free → Function.update role f r x = y :=
    fun hx hy => by rw [(hold (by rwa [hx])).2, hx]
  have hback : ∀ {x y}, Function.update role f r x = y → y ≠ r → x ≠ f ∧ role x = y := by
    intro x y hx hy
    have hne : x ≠ f := fun he => hy (by rw [← hx, he, Function.update_self])
    rw [Function.update_of_ne hne] at hx
    exact ⟨hne, hx⟩
  have hker : ∀ {x}, role x = .kernel → Space.newTable m t i f x = m x := newTable_kernel hc hfree
  have hr : r ≠ .kernel ∧ r ≠ .root := by
    generalize role t = rt at hc
    cases hc <;> simp
  refine
    { pgdRole := hrole h.pgdRole (by simp)
      pmdRole := fun g hg => hrole (h.pmdRole g hg) (by simp)
      pteRole := fun k hk => hrole (h.pteRole k hk) (by simp)
      fixed := fun x hx hne => ?_
      shared := ⟨fun g hg i => ?_, fun k hk i => ?_⟩
      half := fun i hi => ?_
      low := fun i hi => ?_
      part := fun u hu i' h1 h2 => ?_
      root := fun u hu i' hi' => ?_
      pmd := fun x u i' hx j => ?_ }
  · obtain ⟨-, hx⟩ := hback hx hr.1.symm
    rw [hker hx, h.fixed x hx hne]
  · rw [hker (h.pmdRole g hg), h.shared.pmd g hg]
  · rw [hker (h.pteRole k (by unfold earlyPteTables; omega)), h.shared.pte k hk]
  · rw [hker h.pgdRole, h.half i hi]
  · rw [hker h.pgdRole]
    exact h.low i hi
  · obtain ⟨hne, hu⟩ := hback hu hr.2.symm
    rw [newTable_of_ne hne, h.part u hu i' h1 h2]
    rintro ⟨rfl, rfl⟩
    rw [hu] at hc
    rcases hc with hp | _
    rcases hp with hp | hp <;> omega
  · obtain ⟨hne, hu⟩ := hback hu hr.2.symm
    by_cases he : u = t ∧ i' = i
    · obtain ⟨rfl, rfl⟩ := he
      rw [hu] at hc
      cases hc
      exact .inr ⟨f, hf, newTable_entry, Function.update_self ..⟩
    · rw [newTable_of_ne hne he]
      rcases h.root u hu i' hi' with h0 | ⟨g, hg, he, hr⟩
      · exact .inl h0
      · exact .inr ⟨g, hg, he, hrole hr (by simp)⟩
  · by_cases hxf : x = f
    · subst hxf
      exact .inl (newTable_table hft)
    rw [Function.update_of_ne hxf] at hx
    by_cases he : x = t ∧ j = i
    · obtain ⟨rfl, rfl⟩ := he
      rw [hx] at hc
      cases hc
      exact .inr ⟨f, hf, newTable_entry, Function.update_self ..⟩
    · rw [newTable_of_ne hxf he]
      rcases h.pmd x u i' hx j with h0 | ⟨g, hg, he, hr⟩
      · exact .inl h0
      · exact .inr ⟨g, hg, he, hrole hr (by simp)⟩

/-- A new table is empty, so that it has the page entries that were missing. -/
theorem Good.newTable_entries (h : Good L m0 role m) (hc : Child (role t) t i r) (hf : f < 2 ^ 44)
    (hfree : role f = .free) (h0 : m t i = 0) {u : ℕ} {i' j' k' : Fin 512} (hu : role u = .root)
    (hi' : Private i') :
    pageEntry (Space.newTable m t i f) u i' j' k' = pageEntry m u i' j' k' := by
  have hft : f ≠ t := fun he => hc.not_free (he ▸ hfree)
  have hne : ∀ {x}, role x ≠ .free → x ≠ f := fun hx => (update_role (r := r) hfree hx).1
  have huf : u ≠ f := hne (by rw [hu]; simp)
  rcases h.root u hu i' hi' with hz | ⟨g, hg, he, hr⟩
  · rw [pageEntry_of_root hz]
    by_cases hat : u = t ∧ i' = i
    · obtain ⟨rfl, rfl⟩ := hat
      rw [pageEntry_of_ptr hf newTable_entry, newTable_table hft, if_pos rfl]
    · exact pageEntry_of_root (by rw [newTable_of_ne huf hat, hz])
  have he' : Space.newTable m t i f u i' = ptr g := by
    rw [newTable_of_ne huf, he]
    rintro ⟨rfl, rfl⟩
    exact ptr_ne_zero hg (by rw [← he, h0])
  have hgf : g ≠ f := hne (by rw [hr]; simp)
  rw [pageEntry_of_ptr hg he', pageEntry_of_ptr hg he]
  rcases h.pmd g u i' hr j' with hz | ⟨p, hp, hpe, hpr⟩
  · rw [if_pos hz]
    by_cases hat : g = t ∧ j' = i
    · obtain ⟨rfl, rfl⟩ := hat
      rw [newTable_entry, if_neg (ptr_ne_zero hf), ppn_ptr hf, newTable_table hft]
    · rw [newTable_of_ne hgf hat, if_pos hz]
  · have hat : ¬(g = t ∧ j' = i) := by
      rintro ⟨rfl, rfl⟩
      exact ptr_ne_zero hp (by rw [← hpe, h0])
    have hpt : p ≠ t := by
      rintro rfl
      rw [hpr] at hc
      cases hc
    rw [newTable_of_ne hgf hat, hpe, if_neg (ptr_ne_zero hp), if_neg (ptr_ne_zero hp), ppn_ptr hp,
      newTable_frame (hne (by rw [hpr]; simp)) hpt]

variable {p : Word}

theorem nextTable_zero (ht : t < 2 ^ 44) (h0 : v.mem t i = 0) :
    nextTable v (physToVirtAddr (framePa t)) i =
      if v.pages.headD 0 = 0 then (.error .memory, { v with pages := v.pages.tail })
      else (.ok (v.pages.headD 0), ⟨set (clearTable v.mem (tableAt (v.pages.headD 0))) t i
        (paToPte (virtToPhysAddr (v.pages.headD 0)) ||| pteV), v.pages.tail⟩) := by
  rw [nextTable, tableAt_physToVirt ht, h0, if_pos (by decide)]
  rfl

theorem nextTable_ptr {g : ℕ} (ht : t < 2 ^ 44) (hg : g < 2 ^ 44) (he : v.mem t i = ptr g) :
    nextTable v (physToVirtAddr (framePa t)) i = (.ok (physToVirtAddr (framePa g)), v) := by
  rw [nextTable, tableAt_physToVirt ht, he, if_neg (ptr_valid hg), ptr_nonLeaf hg,
    if_neg (not_not.2 rfl), pteToPa_ptr hg]

theorem nextTable_leaf (ht : t < 2 ^ 44) (hv : v.mem t i &&& pteV ≠ 0)
    (hl : v.mem t i &&& (pteR ||| pteW ||| pteX) ≠ 0) :
    nextTable v (physToVirtAddr (framePa t)) i = (.error .leaf, v) := by
  rw [nextTable, tableAt_physToVirt ht, if_neg hv, if_pos hl]

/-- **A level of `walk_create`**, in a table for user pages: it leads to the table for the index,
which is new if there was none, or memory has run out. -/
theorem nextTable_child (h : Good L m0 role v.mem) (ha : Avail role v.pages) (ht : t < 2 ^ 44)
    (hc : Child (role t) t i r) : ∃ role' v', Good L m0 role' v'.mem ∧ Avail role' v'.pages ∧
      Extends C role role' v v' ∧
      (∀ x y, role x ≠ .free → v.mem x y ≠ 0 → v'.mem x y = v.mem x y) ∧
      (nextTable v (physToVirtAddr (framePa t)) i = (.error .memory, v') ∨
      ∃ f < 2 ^ 44, role' f = r ∧ v'.mem t i = ptr f ∧
        nextTable v (physToVirtAddr (framePa t)) i = (.ok (physToVirtAddr (framePa f)), v')) := by
  rcases h.child hc with h0 | ⟨f, hf, he, hr⟩
  · rw [nextTable_zero ht h0]
    rcases alloc_cases ha with hn | ⟨f, hf, hp, hn, hfree, hmem, havail⟩
    · refine ⟨role, { v with pages := v.pages.tail }, h, ha.tail, .null role v, fun _ _ _ _ => rfl,
        .inl ?_⟩
      rw [if_pos hn]
    · rw [if_neg hn, hp, tableAt_physToVirt hf, physToVirtAddr, virtToPhysAddr, BitVec.add_sub_cancel]
      refine ⟨Function.update role f r, ⟨newTable v.mem t i f, v.pages.tail⟩, h.newTable hc hf hfree,
        havail r, ⟨fun x hx => (update_role hfree hx).2, fun x hx => ?_,
        fun _ hx => List.mem_of_mem_tail hx, fun x hx => newTable_kernel hc hfree hx,
        fun u i' j' k' hu hi' _ => h.newTable_entries hc hf hfree h0 hu hi'⟩, fun x y hx hy => ?_,
        .inr ⟨f, hf, Function.update_self .., newTable_entry, rfl⟩⟩
      · by_cases hxf : x = f
        · exact .inr (hxf ▸ hmem)
        · rw [Function.update_of_ne hxf] at hx
          exact .inl hx
      · refine newTable_of_ne (update_role (r := r) hfree hx).1 ?_
        rintro ⟨rfl, rfl⟩
        exact hy h0
  · exact ⟨role, v, h, ha, .refl role v, fun _ _ _ _ => rfl,
      .inr ⟨f, hf, hr, he, nextTable_ptr ht hf he⟩⟩

/-! ### A round of `map_pages_to` -/

theorem and_1ff_toNat (w : Word) : (w &&& 0x1ff).toNat = w.toNat % 512 := by
  rw [BitVec.toNat_and, show (0x1ff : Word).toNat = 2 ^ 9 - 1 from rfl, Nat.and_two_pow_sub_one_eq_mod]

theorem ofNat_index (level : ℕ) (va : Word) :
    Fin.ofNat 512 ((va >>> (12 + 9 * level)) &&& 0x1ff).toNat = vpn level va := by
  apply Fin.ext
  rw [vpn_val, and_1ff_toNat, BitVec.toNat_ushiftRight, Nat.shiftRight_eq_div_pow,
    fin_ofNat_val (Nat.mod_lt _ (by omega))]

/-- The entry is the one of the page of an address. -/
def PageOf (u : ℕ) (va : Word) (u' : ℕ) (i j k : Fin 512) : Prop :=
  u' = u ∧ i = vpn 2 va ∧ j = vpn 1 va ∧ k = vpn 0 va

/-- The page entry of an address. -/
def entryOf (m : Frames) (u : ℕ) (va : Word) : Word := pageEntry m u (vpn 2 va) (vpn 1 va) (vpn 0 va)

/-- An entry of a table of the last level may hold anything. -/
theorem Good.setEntry {g : ℕ} {e : Word} (h : Good L m0 role m) (hg : role g = .pte u i j) :
    Good L m0 role (set m g k e) := by
  have hne : ∀ {x y}, role x = y → y ≠ .pte u i j → set m g k e x = m x := fun hx hy =>
    set_of_ne fun he => hy (by rw [← hx, he, hg])
  refine
    { pgdRole := h.pgdRole
      pmdRole := h.pmdRole
      pteRole := h.pteRole
      fixed := fun x hx hxp => by rw [hne hx (by simp), h.fixed x hx hxp]
      shared := ⟨fun g hg i => ?_, fun k hk i => ?_⟩
      half := fun i hi => by rw [hne h.pgdRole (by simp), h.half i hi]
      low := fun i hi => by rw [hne h.pgdRole (by simp)]; exact h.low i hi
      part := fun u hu i h1 h2 => by rw [hne hu (by simp), h.part u hu i h1 h2]
      root := fun u hu i hi => by rw [hne hu (by simp)]; exact h.root u hu i hi
      pmd := fun f u i hf j => by rw [hne hf (by simp)]; exact h.pmd f u i hf j }
  · rw [hne (h.pmdRole g hg) (by simp), h.shared.pmd g hg]
  · rw [hne (h.pteRole k (by unfold earlyPteTables; omega)) (by simp), h.shared.pte k hk]

/-- An entry of a table of the last level is the page entry for its three indices and for no others. -/
theorem Good.setEntry_entries {g : ℕ} {e : Word} (h : Good L m0 role m) (hg : role g = .pte u i j)
    {u' : ℕ} {i' j' k' : Fin 512} (hu : role u' = .root) (hi' : Private i')
    (hne : ¬(u' = u ∧ i' = i ∧ j' = j ∧ k' = k)) :
    pageEntry (set m g k e) u' i' j' k' = pageEntry m u' i' j' k' := by
  have hset : ∀ {x y}, role x = y → y ≠ .pte u i j → set m g k e x = m x := fun hx hy =>
    set_of_ne fun he => hy (by rw [← hx, he, hg])
  have hroot : set m g k e u' = m u' := hset hu (by simp)
  rcases h.path hu hi' j' with ⟨h0, hz⟩ | ⟨f, hf, he, hr, ⟨h0, hz⟩ | ⟨p, hp, hpe, hpr, hz⟩⟩
  · rw [hz, pageEntry_of_root (by rw [hroot, h0])]
  · have hpmd : set m g k e f = m f := hset hr (by simp)
    rw [hz, pageEntry_of_ptr hf (by rw [hroot, he]), hpmd, if_pos h0]
  · have hpmd : set m g k e f = m f := hset hr (by simp)
    rw [hz, pageEntry_of_path hf (by rw [hroot, he]) hp (by rw [hpmd, hpe]), set_apply, if_neg]
    rintro ⟨rfl, rfl⟩
    rw [hpr, Role.pte.injEq] at hg
    exact hne ⟨hg.1, hg.2.1, hg.2.2, rfl⟩

variable {va : Word}

theorem walkCreate_private (h : Good L m0 role v.mem) (ha : Avail role v.pages) (hu : role u = .root)
    (hlt : u < 2 ^ 44) (hi : Private (vpn 2 va)) : ∃ role' v', Good L m0 role' v'.mem ∧
      Avail role' v'.pages ∧ Extends NoEntry role role' v v' ∧
      (walkCreate v (physToVirtAddr (framePa u)) va = (.error .memory, v') ∨
      ∃ f < 2 ^ 44, ∃ g < 2 ^ 44, v'.mem u (vpn 2 va) = ptr f ∧ v'.mem f (vpn 1 va) = ptr g ∧
        role' f = .pmd u (vpn 2 va) ∧ role' g = .pte u (vpn 2 va) (vpn 1 va) ∧
        walkCreate v (physToVirtAddr (framePa u)) va =
          (.ok (physToVirtAddr (framePa g), vpn 0 va), v')) := by
  obtain ⟨role1, v1, h1, ha1, hx1, -, hn1 | ⟨f, hf, hr1, he1, hn1⟩⟩ :=
    nextTable_child (C := NoEntry) h ha hlt (hu ▸ Child.root hi)
  · refine ⟨role1, v1, h1, ha1, hx1, .inl ?_⟩
    simp only [walkCreate, ofNat_index 2 va, hn1]
  obtain ⟨role2, v2, h2, ha2, hx2, hkept, hn2 | ⟨g, hg, hr2, he2, hn2⟩⟩ :=
    nextTable_child (C := NoEntry) (i := vpn 1 va) h1 ha1 hf (hr1 ▸ Child.pmd)
  · refine ⟨role2, v2, h2, ha2, hx1.trans hx2, .inl ?_⟩
    simp only [walkCreate, ofNat_index 2 va, ofNat_index 1 va, hn1, hn2]
  have hu1 : role1 u = .root := by rw [hx1.roles u (by rw [hu]; simp), hu]
  refine ⟨role2, v2, h2, ha2, hx1.trans hx2, .inr ⟨f, hf, g, hg, ?_, he2, ?_, hr2, ?_⟩⟩
  · rw [hkept u _ (by rw [hu1]; simp) (by rw [he1]; exact ptr_ne_zero hf), he1]
  · rw [hx2.roles f (by rw [hr1]; simp), hr1]
  · simp only [walkCreate, ofNat_index 2 va, ofNat_index 1 va, ofNat_index 0 va, hn1, hn2]

/-- **A round of `map_pages_to`** outside the kernel's part: memory runs out, or the page is mapped,
or its entry is written and no other. -/
theorem mapPage_private (va pa prot : Word) (h : Good L m0 role v.mem) (ha : Avail role v.pages)
    (hu : role u = .root)
    (hlt : u < 2 ^ 44) (hi : Private (vpn 2 va)) : ∃ role' v', Good L m0 role' v'.mem ∧
      Avail role' v'.pages ∧ Extends (PageOf u va) role role' v v' ∧
      (mapPage v (physToVirtAddr (framePa u)) va pa prot = (.error .memory, v') ∨
      entryOf v.mem u va &&& pteV ≠ 0 ∧
        mapPage v (physToVirtAddr (framePa u)) va pa prot = (.error .mapped, v') ∨
      entryOf v.mem u va &&& pteV = 0 ∧
        entryOf v'.mem u va = paToPte pa ||| prot ||| pteV ∧
        mapPage v (physToVirtAddr (framePa u)) va pa prot = (.ok (), v')) := by
  obtain ⟨role', v', h', ha', hx, hw | ⟨f, hf, g, hg, he1, he2, hr1, hr2, hw⟩⟩ :=
    walkCreate_private h ha hu hlt hi
  · refine ⟨role', v', h', ha', hx.mono fun _ _ _ _ => False.elim, .inl ?_⟩
    simp only [mapPage, hw]
  have hentry : v'.mem g (vpn 0 va) = entryOf v.mem u va := by
    rw [entryOf, ← hx.entries u _ _ _ hu hi False.elim, pageEntry_of_path hf he1 hg he2]
  by_cases hv : entryOf v.mem u va &&& pteV = 0
  · have hset : ∀ x, role' x ≠ role' g →
        set v'.mem g (vpn 0 va) (paToPte pa ||| prot ||| pteV) x = v'.mem x :=
      fun x hne => set_of_ne fun he => hne (by rw [he])
    have hrole : ∀ x, role x ≠ .free → role' x = role x := hx.roles
    refine ⟨role', { v' with mem := set v'.mem g (vpn 0 va) (paToPte pa ||| prot ||| pteV) },
      h'.setEntry hr2, ha', ⟨hx.roles, hx.made, hx.pages, fun x hxk => ?_,
        fun u' i j k hu' hi' hne => ?_⟩, .inr (.inr ⟨hv, ?_, ?_⟩)⟩
    · rw [← hx.kernel x hxk]
      refine hset x ?_
      rw [hrole x (by rw [hxk]; simp), hxk, hr2]
      simp
    · rw [← hx.entries u' i j k hu' hi' False.elim]
      exact h'.setEntry_entries hr2 (by rw [hrole u' (by rw [hu']; simp), hu']) hi' hne
    · have hu' := hset u (by rw [hrole u (by rw [hu]; simp), hu, hr2]; simp)
      have hf' := hset f (by rw [hr1, hr2]; simp)
      rw [entryOf]
      exact (pageEntry_of_path hf ((congrFun hu' _).trans he1) hg ((congrFun hf' _).trans he2)).trans
        set_self
    · simp only [mapPage, hw, tableAt_physToVirt hg, hentry, hv, ne_eq, not_true_eq_false, if_false]
  · refine ⟨role', v', h', ha', hx.mono fun _ _ _ _ => False.elim, .inr (.inl ⟨hv, ?_⟩)⟩
    simp only [mapPage, hw, tableAt_physToVirt hg, hentry, hv, ne_eq, not_false_eq_true, if_true]

theorem and_ne_zero {e : Word} (mask : Word) {fl : ℕ} (hm : mask.toNat < 2 ^ 10) (hf : flags e = fl)
    (h : fl &&& mask.toNat ≠ 0) : e &&& mask ≠ 0 := fun h0 => by
  refine h ?_
  rw [← hf, ← and_toNat e hm, h0]
  rfl

theorem gib_of_not_private (hi : ¬Private i) :
    ∃ g < earlyMapGib, g = i.val - 256 ∧ 256 ≤ i.val ∧ i.val < 256 + earlyMapGib := by
  unfold Private at hi
  exact ⟨i.val - 256, by omega, rfl, by omega, by omega⟩

/-- Among the kernel's indices every entry is taken, and the round fails. -/
theorem mapPage_kernel (pa prot : Word) (h : Good L m0 role v.mem) (hu : role u = .root)
    (hlt : u < 2 ^ 44)
    (hi : ¬Private (vpn 2 va)) :
    ∃ e, mapPage v (physToVirtAddr (framePa u)) va pa prot = (.error e, v) := by
  have hpmd := L.pmd_le
  have hpte := L.pte_le
  obtain ⟨g, hgt, hg, hlo, hhi⟩ := gib_of_not_private hi
  have hf : L.pmd + g < 2 ^ 44 := by omega
  have hn1 := nextTable_ptr (v := v) hlt hf (by rw [h.part u hu _ hlo hhi, hg])
  have hread := h.shared.pmd g hgt (vpn 1 va)
  rcases pmdEntry_cases (L := L) g (vpn 1 va) with ⟨k, hk, -, he⟩ | ⟨-, he⟩
  · have hf' : L.pte + k < 2 ^ 44 := by unfold earlyPteTables at hpte; omega
    have hn2 := nextTable_ptr (v := v) hf hf' (by rw [hread, he])
    refine ⟨.mapped, ?_⟩
    have hv : v.mem (L.pte + k) (vpn 0 va) &&& pteV ≠ 0 := by
      rw [h.shared.pte k hk]
      exact and_ne_zero _ (by decide) (leafEntry_pteEntry (k := k) (vpn 0 va)).flags (by decide)
    simp only [mapPage, walkCreate, ofNat_index 2 va, ofNat_index 1 va, ofNat_index 0 va, hn1, hn2,
      tableAt_physToVirt hf', ne_eq, hv, not_false_eq_true, if_true]
  · have hl := leafEntry_pmdLeaf (g * 512 + (vpn 1 va).val)
      (by unfold earlyMapGib at hgt; omega)
    rw [← he, ← hread] at hl
    have hn2 := nextTable_leaf hf (and_ne_zero pteV (by decide) hl.flags (by decide))
      (and_ne_zero _ (by decide) hl.flags (by decide))
    refine ⟨.leaf, ?_⟩
    simp only [mapPage, walkCreate, ofNat_index 2 va, ofNat_index 1 va, hn1, hn2]

/-! ### Translations -/

/-- What a page entry gives an address. -/
def decode (e va : Word) : Option Leaf := if usable e && isLeaf e then leafAt 0 e va else none

theorem translate_private (h : Good L m0 role m) (hu : role u = .root) (hc : Canonical va)
    (hi : Private (vpn 2 va)) : translateAddr m u va = decode (entryOf m u va) va := by
  rw [translateAddr, if_pos hc, entryOf]
  rcases h.path hu hi (vpn 1 va) with ⟨h0, hz⟩ | ⟨f, hf, he, -, hp⟩
  · rw [hz, walk_unusable (by rw [h0]; rfl)]
    rfl
  rw [walk_pointer (by rw [he]; exact usable_ptr hf) (by rw [he]; exact isPointer_ptr hf), he,
    ppn_ptr hf]
  rcases hp with ⟨h0, hz⟩ | ⟨g, hg, he, -, hz⟩
  · rw [hz, walk_unusable (by rw [h0]; rfl)]
    rfl
  · rw [walk_pointer (by rw [he]; exact usable_ptr hg) (by rw [he]; exact isPointer_ptr hg), he,
      ppn_ptr hg, hz]
    rfl

variable {m' : Frames}

/-- The translation under the root of a user page table depends on the page entry, if at all. -/
theorem translate_congr (h : Good L m0 role m) (h' : Good L m0 role' m') (hu : role u = .root)
    (hu' : role' u = .root) (he : Private (vpn 2 va) → entryOf m' u va = entryOf m u va) :
    translateAddr m' u va = translateAddr m u va := by
  by_cases hc : Canonical va
  · by_cases hi : Private (vpn 2 va)
    · rw [translate_private h hu hc hi, translate_private h' hu' hc hi, he hi]
    · obtain ⟨g, hg, hgi, hlo, hhi⟩ := gib_of_not_private hi
      rw [translate_of_entry h.shared hc hg (by rw [h.part u hu _ hlo hhi, hgi]),
        translate_of_entry h'.shared hc hg (by rw [h'.part u hu' _ hlo hhi, hgi])]
  · rw [translateAddr, translateAddr, if_neg hc, if_neg hc]

theorem translate_pgd (h : Good L m0 role m) (h' : Good L m0 role' m') (hp : m' L.pgd = m L.pgd) :
    translateAddr m' L.pgd va = translateAddr m L.pgd va := by
  have hzero : m L.pgd (vpn 2 va) = 0 →
      translateAddr m' L.pgd va = translateAddr m L.pgd va := fun h0 => by
    rw [translate_of_zero h0, translate_of_zero (by rw [hp, h0])]
  have hgib : ∀ g < earlyMapGib, m L.pgd (vpn 2 va) = ptr (L.pmd + g) →
      translateAddr m' L.pgd va = translateAddr m L.pgd va := fun g hg he => by
    by_cases hc : Canonical va
    · rw [translate_of_entry h.shared hc hg he, translate_of_entry h'.shared hc hg (by rw [hp, he])]
    · rw [translateAddr, translateAddr, if_neg hc, if_neg hc]
  rcases lt_or_ge (vpn 2 va).val 256 with hlt | hge
  · rcases h.low _ hlt with h0 | ⟨g, hg, he⟩
    · exact hzero h0
    · exact hgib g hg he
  · have he := h.half _ hge
    split_ifs at he with hg
    · exact hgib _ (Nat.sub_lt_left_of_lt_add hge hg) he
    · exact hzero he

end OscKernel.Vm.Space
