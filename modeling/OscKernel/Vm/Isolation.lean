import OscKernel.Vm.Space

/-! # User page tables are isolated

The machine of the calls on user page tables, from the boot tables on, as long as `alloc_pages`
returns page frames that hold no page table.

* `Inv`: every frame in use has one role, and every user page table is a root.
* `copyKernelHalf_apply`, `mapLoop_good`: what creating and extending a page table does to the roles.
* `isolated_of_run`: the shared tables never change, the linear map of the kernel is the same
  everywhere, and a step changes no other page table. -/

namespace OscKernel.Vm.Isolation

open OscKernel.Lib.Memory OscKernel.Lib.Sv39 OscKernel.Lib.Transition
open OscKernel.Vm.Tables OscKernel.Vm.Setup OscKernel.Vm.Map OscKernel.Vm.Space

/-- The machine without the results of the calls. -/
def next (L : Layout) (s : State) (e : Event) : Option State := (step L s e).map Prod.fst

/-- The root tables: `early_pgd` and those of the users. -/
def roots (L : Layout) (s : State) : List ℕ := L.pgd :: s.users.map tableAt

/-- The root table that a step works on. -/
def target (L : Layout) : Event → Option ℕ
  | .dropIdentity => some L.pgd
  | .create _ => none
  | .map pgd _ _ _ _ _ => some (tableAt pgd)

/-! ### The invariant -/

structure Inv (L : Layout) (m0 : Frames) (role : ℕ → Role) (s : State) : Prop where
  good : Good L m0 role s.mem
  user : ∀ p ∈ s.users, ∃ u < 2 ^ 44, p = physToVirtAddr (framePa u) ∧ role u = .root
  nonnull : ∀ p ∈ s.users, p ≠ 0
  table : ∀ f, role f ≠ .free → f ∈ s.tables

variable {L : Layout} {b : Boot} {m0 m : Frames} {role role' : ℕ → Role} {s s' : State}
  {v v' : Machine}
  {u f : ℕ} {va pa prot : Word} {pages : List Word}

/-- The roles of the boot tables. -/
def bootRole (L : Layout) (f : ℕ) : Role :=
  if f ∈ L.pgd :: (List.range' L.pmd earlyMapGib ++ List.range' L.pte earlyPteTables) then .kernel
  else .free

theorem inv_boot (L : Layout) (b : Boot) : Inv L (boot L b).mem (bootRole L) (boot L b) := by
  obtain ⟨hs, hk, hl⟩ := setupVm_tables L b
  have hrole : ∀ f, bootRole L f = .kernel ∨ bootRole L f = .free := fun f => by
    unfold bootRole
    split_ifs <;> simp
  refine ⟨⟨?_, fun g hg => ?_, fun k hk => ?_, fun _ _ _ => rfl, hs, hk, fun i hi => ?_,
    fun u hu => ?_, fun u hu => ?_, fun f u i hf => ?_⟩, fun p hp => ?_, fun p hp => ?_, fun f hf => ?_⟩
  · exact if_pos (by simp)
  · exact if_pos (by simp [List.mem_range'_1, hg])
  · exact if_pos (by simp [List.mem_range'_1, hk])
  · show (setupVm L b).mem _ _ = _ ∨ ∃ g < _, (setupVm L b).mem _ _ = _
    rw [hl i hi]
    split_ifs with hg
    · exact .inr ⟨i, hg, rfl⟩
    · exact .inl rfl
  · rcases hrole u with h | h <;> rw [h] at hu <;> cases hu
  · rcases hrole u with h | h <;> rw [h] at hu <;> cases hu
  · rcases hrole f with h | h <;> rw [h] at hf <;> cases hf
  · simp [boot] at hp
  · simp [boot] at hp
  · unfold bootRole at hf
    split_ifs at hf with h
    · exact h
    · exact absurd rfl hf

theorem Inv.avail (h : Inv L m0 role s) (hf : FreshPages s.tables pages) : Avail role pages where
  frame p hp h0 := by
    obtain ⟨f, hlt, he, hn⟩ := hf.frame p hp h0
    exact ⟨f, hlt, he, by_contra fun hr => hn (h.table f hr)⟩
  distinct := hf.distinct

/-! ### Dropping the identity map -/

theorem Good.dropIdentity (h : Good L m0 role m) : Good L m0 role (dropIdentityMap L m) := by
  have hne : ∀ {f}, f ≠ L.pgd → dropIdentityMap L m f = m f := dropIdentityMap_of_ne
  have hrole : ∀ {f r}, role f = r → r ≠ .kernel → f ≠ L.pgd := fun hf hr he =>
    hr (by rw [← hf, he, h.pgdRole])
  refine
    { h with
      fixed := fun f hf hp => by rw [hne hp, h.fixed f hf hp]
      shared := dropIdentityMap_shared h.shared
      half := dropIdentityMap_kernelHalf h.half
      low := fun i hi => ?_
      part := fun u hu i h1 h2 => by rw [hne (hrole hu (by simp)), h.part u hu i h1 h2]
      root := fun u hu i hi => by rw [hne (hrole hu (by simp))]; exact h.root u hu i hi
      pmd := fun f u i hf j => by rw [hne (hrole hf (by simp))]; exact h.pmd f u i hf j }
  rw [dropIdentityMap_pgd]
  split_ifs with hg
  · exact .inl rfl
  · exact h.low i hi

/-- The page entries depend on the tables for user pages. -/
theorem Good.entries_congr (h : Good L m0 role m) {m' : Frames}
    (hm : ∀ f, role f ≠ .free → role f ≠ .kernel → m' f = m f) (hu : role u = .root)
    {i j k : Fin 512} (hi : Private i) : pageEntry m' u i j k = pageEntry m u i j k := by
  have hroot : m' u = m u := hm u (by rw [hu]; simp) (by rw [hu]; simp)
  rcases h.path hu hi j with ⟨h0, hz⟩ | ⟨f, hf, he, hr, hp⟩
  · rw [hz, pageEntry_of_root (by rw [hroot, h0])]
  have hpmd : m' f = m f := hm f (by rw [hr]; simp) (by rw [hr]; simp)
  rcases hp with ⟨h0, hz⟩ | ⟨g, hg, he', hr', hz⟩
  · rw [hz, pageEntry_of_ptr hf (by rw [hroot, he]), hpmd, if_pos h0]
  · rw [hz, pageEntry_of_path hf (by rw [hroot, he]) hg (by rw [hpmd, he']),
      hm g (by rw [hr']; simp) (by rw [hr']; simp)]

/-! ### Creating a page table -/

theorem copyKernelHalf_apply (hu : u ≠ L.pgd) (f : ℕ) (i : Fin 512) :
    copyKernelHalf L m u f i = if f = u ∧ 256 ≤ i.val then m L.pgd i else m f i := by
  have h : ∀ n ≤ 256, ∀ f (i : Fin 512), (List.range n).foldl (fun m i =>
      set m u (Fin.ofNat 512 (256 + i)) (m L.pgd (Fin.ofNat 512 (256 + i)))) m f i =
        if f = u ∧ 256 ≤ i.val ∧ i.val < 256 + n then m L.pgd i else m f i := by
    intro n hn
    induction n with
    | zero =>
      intro f i
      rw [if_neg (by omega)]
      rfl
    | succ n ih =>
      intro f i
      have hidx := fin_ofNat_val (show 256 + n < 512 by omega)
      have hpgd := ih (by omega) L.pgd (Fin.ofNat 512 (256 + n))
      rw [if_neg fun h => hu h.1.symm] at hpgd
      rw [List.range_succ, List.foldl_append, List.foldl_cons, List.foldl_nil, set_apply, hpgd,
        ih (by omega) f]
      by_cases hi : i = Fin.ofNat 512 (256 + n)
      · subst hi
        rw [hidx]
        by_cases hf : f = u
        · rw [if_pos ⟨hf, rfl⟩, if_pos ⟨hf, by omega, by omega⟩]
        · rw [if_neg fun h => hf h.1, if_neg fun h => hf h.1, if_neg fun h => hf h.1]
      · have hne : i.val ≠ 256 + n := fun he => hi (Fin.ext (by rw [he, hidx]))
        rw [if_neg fun h => hi h.2]
        exact if_congr (by omega) rfl rfl
  rw [copyKernelHalf, h 256 le_rfl]
  exact if_congr (by omega) rfl rfl

/-- The memory with a new user page table. -/
def newRoot (L : Layout) (m : Frames) (u : ℕ) : Frames := copyKernelHalf L (clearTable m u) u

theorem newRoot_of_ne (hu : u ≠ L.pgd) (hf : f ≠ u) : newRoot L m u f = m f := by
  funext i
  rw [newRoot, copyKernelHalf_apply hu, if_neg fun h => hf h.1, clearTable, fill_of_ne hf]

theorem newRoot_self (hu : u ≠ L.pgd) (i : Fin 512) :
    newRoot L m u u i = if 256 ≤ i.val then m L.pgd i else 0 := by
  rw [newRoot, copyKernelHalf_apply hu, clearTable, fill_of_ne hu.symm, fill_self]
  exact if_congr (by simp) rfl rfl

theorem Good.newRoot (h : Good L m0 role m) (hfree : role u = .free) :
    Good L m0 (Function.update role u .root) (newRoot L m u) := by
  have hu : u ≠ L.pgd := fun he => by rw [he, h.pgdRole] at hfree; cases hfree
  have hrole : ∀ {f r}, role f = r → r ≠ .free → Function.update role u .root f = r :=
    fun hf hr => by rw [(update_role hfree (by rwa [hf])).2, hf]
  have hmem : ∀ {f r}, role f = r → r ≠ .free → Isolation.newRoot L m u f = m f := fun hf hr =>
    newRoot_of_ne hu fun he => hr (by rw [← hf, he, hfree])
  have hback : ∀ {f r}, Function.update role u .root f = r → r ≠ .root → role f = r := by
    intro f r hf hr
    rwa [Function.update_of_ne fun he => hr (by rw [← hf, he, Function.update_self])] at hf
  refine
    { pgdRole := hrole h.pgdRole (by simp)
      pmdRole := fun g hg => hrole (h.pmdRole g hg) (by simp)
      pteRole := fun k hk => hrole (h.pteRole k hk) (by simp)
      fixed := fun f hf hp => ?_
      shared := ⟨fun g hg i => ?_, fun k hk i => ?_⟩
      half := fun i hi => by rw [hmem h.pgdRole (by simp), h.half i hi]
      low := fun i hi => by rw [hmem h.pgdRole (by simp)]; exact h.low i hi
      part := fun x hx i h1 h2 => ?_
      root := fun x hx i hi => ?_
      pmd := fun f x i hf j => ?_ }
  · have hf := hback hf (by simp)
    rw [hmem hf (by simp), h.fixed f hf hp]
  · rw [hmem (h.pmdRole g hg) (by simp), h.shared.pmd g hg]
  · rw [hmem (h.pteRole k (by unfold earlyPteTables; omega)) (by simp), h.shared.pte k hk]
  · by_cases hxu : x = u
    · rw [hxu, newRoot_self hu, if_pos h1, h.half i h1, if_pos h2]
    · rw [Function.update_of_ne hxu] at hx
      rw [hmem hx (by simp), h.part x hx i h1 h2]
  · by_cases hxu : x = u
    · left
      rw [hxu, newRoot_self hu]
      split_ifs with h1
      · rw [h.half i h1, if_neg (by unfold Private at hi; omega)]
      · rfl
    · rw [Function.update_of_ne hxu] at hx
      rw [hmem hx (by simp)]
      rcases h.root x hx i hi with h0 | ⟨g, hg, he, hr⟩
      · exact .inl h0
      · exact .inr ⟨g, hg, he, hrole hr (by simp)⟩
  · have hf := hback hf (by simp)
    rw [hmem hf (by simp)]
    rcases h.pmd f x i hf j with h0 | ⟨g, hg, he, hr⟩
    · exact .inl h0
    · exact .inr ⟨g, hg, he, hrole hr (by simp)⟩

/-! ### Extending a page table -/

/-- The page entries under a root. -/
def Under (u u' : ℕ) (_ _ _ : Fin 512) : Prop := u' = u

theorem mapPage_good (va pa prot : Word) (h : Good L m0 role v.mem) (ha : Avail role v.pages)
    (hu : role u = .root)
    (hlt : u < 2 ^ 44) : ∃ role' v' r, mapPage v (physToVirtAddr (framePa u)) va pa prot = (r, v') ∧
      Good L m0 role' v'.mem ∧ Avail role' v'.pages ∧ Extends (Under u) role role' v v' := by
  by_cases hi : Private (vpn 2 va)
  · obtain ⟨role', v', h', ha', hx, hm⟩ := mapPage_private va pa prot h ha hu hlt hi
    have hx := hx.mono fun u' i j k hp => show Under u u' i j k from hp.1
    rcases hm with hm | ⟨-, hm⟩ | ⟨-, -, hm⟩
    · exact ⟨role', v', _, hm, h', ha', hx⟩
    · exact ⟨role', v', _, hm, h', ha', hx⟩
    · exact ⟨role', v', _, hm, h', ha', hx⟩
  · obtain ⟨e, hm⟩ := mapPage_kernel pa prot h hu hlt hi
    exact ⟨role, v, _, hm, h, ha, .refl role v⟩

/-- The loop of `map_pages_to`, for any address and any number of pages. -/
theorem mapLoop_good (va pa prot : Word) (n : ℕ) :
    ∀ {i : ℕ} {role : ℕ → Role} {v : Machine}, Good L m0 role v.mem →
    Avail role v.pages → role u = .root → u < 2 ^ 44 →
    ∃ role' v' r, mapLoop (physToVirtAddr (framePa u)) va pa prot n i v = (r, v') ∧
      Good L m0 role' v'.mem ∧ Avail role' v'.pages ∧ Extends (Under u) role role' v v' := by
  induction n with
  | zero =>
    intro i role v h ha hu hlt
    exact ⟨role, v, _, rfl, h, ha, .refl role v⟩
  | succ n ih =>
    intro i role v h ha hu hlt
    obtain ⟨role1, v1, r, hm, h1, ha1, hx1⟩ := mapPage_good (va + BitVec.ofNat 64 i * 4096)
      (pa + BitVec.ofNat 64 i * 4096) prot h ha hu hlt
    rw [mapLoop, hm]
    cases r with
    | error e => exact ⟨role1, v1, _, rfl, h1, ha1, hx1⟩
    | ok =>
      have hu1 : role1 u = .root := by rw [hx1.roles u (by rw [hu]; simp), hu]
      obtain ⟨role2, v2, r, hl, h2, ha2, hx2⟩ := ih (i := i + 1) h1 ha1 hu1 hlt
      exact ⟨role2, v2, r, hl, h2, ha2, hx1.trans hx2⟩

theorem mapPagesTo_good (va size pa prot : Word) (h : Good L m0 role v.mem) (ha : Avail role v.pages)
    (hu : role u = .root) (hlt : u < 2 ^ 44) : ∃ role' v' r,
      mapPagesTo v (physToVirtAddr (framePa u)) va size pa prot = (r, v') ∧
      Good L m0 role' v'.mem ∧ Extends (Under u) role role' v v' := by
  rw [mapPagesTo]
  split_ifs
  · exact ⟨role, v, _, rfl, h, .refl role v⟩
  · obtain ⟨role', v', r, hl, h', -, hx⟩ := mapLoop_good va pa prot
      ((size + 4096 - 1) / 4096 : Word).toNat (i := 0) h ha hu hlt
    exact ⟨role', v', r, hl, h', hx⟩

/-! ### Steps -/

/-- The state after a step has the invariant, and the translations under the roots other than the
target are as before. -/
def Keeps (L : Layout) (m0 : Frames) (s : State) (e : Event) (s' : State) : Prop :=
  ∃ role', Inv L m0 role' s' ∧ ∀ root ∈ roots L s, target L e ≠ some root →
    ∀ va, translateAddr s'.mem root va = translateAddr s.mem root va

/-- A root table is `early_pgd`, or that of a user. -/
theorem Inv.root_cases (h : Inv L m0 role s) {root : ℕ} (hr : root ∈ roots L s) :
    root = L.pgd ∨ role root = .root := by
  rcases List.mem_cons.1 hr with rfl | hr
  · exact .inl rfl
  · obtain ⟨p, hp, rfl⟩ := List.mem_map.1 hr
    obtain ⟨u, hu, rfl, hrole⟩ := h.user p hp
    rw [tableAt_physToVirt hu]
    exact .inr hrole

theorem next_create (hs : next L s (.create pages) = some s') :
    s'.tables = s.tables ++ framesOf pages ∧
    (pages.headD 0 = 0 ∧ s'.mem = s.mem ∧ s'.users = s.users ∨
    pages.headD 0 ≠ 0 ∧ s'.mem = newRoot L s.mem (tableAt (pages.headD 0)) ∧
      s'.users = pages.headD 0 :: s.users) := by
  rw [next, Map.step, vmCreateUserPgd, allocPages] at hs
  generalize pages.headD 0 = p at hs ⊢
  by_cases hp : p = 0
  · simp only [hp, if_true, Option.map_some, Option.some.injEq] at hs
    rw [← hs]
    exact ⟨rfl, .inl ⟨hp, rfl, rfl⟩⟩
  · simp only [hp, if_false, Option.map_some, Option.some.injEq] at hs
    rw [← hs, newRoot]
    exact ⟨rfl, .inr ⟨hp, by with_reducible rfl, rfl⟩⟩

theorem step_map {pgd size : Word} {o : Option (Except Failure Unit)}
    (hs : Map.step L s (.map pgd va size pa prot pages) = some (s', o)) :
    pgd ∈ s.users ∧ ∃ r v', mapPagesTo ⟨s.mem, pages⟩ pgd va size pa prot = (r, v') ∧ o = some r ∧
      s' = ⟨v'.mem, s.users, s.tables ++ framesOf pages⟩ := by
  rw [Map.step] at hs
  by_cases hmem : pgd ∈ s.users
  · rw [if_pos hmem] at hs
    generalize mapPagesTo ⟨s.mem, pages⟩ pgd va size pa prot = x at hs ⊢
    obtain ⟨r, v'⟩ := x
    simp only [Option.some.injEq, Prod.mk.injEq] at hs
    exact ⟨hmem, r, v', rfl, hs.2.symm, hs.1.symm⟩
  · rw [if_neg hmem] at hs
    cases hs

theorem next_eq_some {e : Event} (hs : next L s e = some s') :
    ∃ o, Map.step L s e = some (s', o) := by
  obtain ⟨⟨t, o⟩, ht, rfl⟩ := Option.map_eq_some_iff.1 hs
  exact ⟨o, ht⟩

theorem Inv.dropIdentity (h : Inv L m0 role s) (hs : next L s .dropIdentity = some s') :
    Keeps L m0 s .dropIdentity s' := by
  have hs' : s' = { s with mem := dropIdentityMap L s.mem } := (Option.some.inj hs).symm
  have hgood := Good.dropIdentity h.good
  subst hs'
  refine ⟨role, ⟨hgood, h.user, h.nonnull, h.table⟩, fun root hr hne va => ?_⟩
  rcases h.root_cases hr with rfl | hu
  · exact absurd rfl hne
  · refine translate_congr h.good hgood hu hu fun hi => ?_
    exact Good.entries_congr h.good (fun f _ hk => dropIdentityMap_of_ne fun he =>
      hk (by rw [he, h.good.pgdRole])) hu hi

theorem Inv.create (h : Inv L m0 role s) (hf : FreshPages s.tables pages)
    (hs : next L s (.create pages) = some s') : Keeps L m0 s (.create pages) s' := by
  have hold : ∀ f, role f ≠ .free → f ∈ s.tables ++ framesOf pages := fun f hr =>
    List.mem_append_left _ (h.table f hr)
  have halloc := alloc_cases (v := ⟨s.mem, pages⟩) (h.avail hf)
  obtain ⟨htables, ⟨-, hm, husers⟩ | ⟨hn, hm, husers⟩⟩ := next_create hs
  · refine ⟨role, ⟨hm ▸ h.good, fun p hp => h.user p (husers ▸ hp),
      fun p hp => h.nonnull p (husers ▸ hp),
      fun f hr => htables ▸ hold f hr⟩, fun root hr hne va => by rw [hm]⟩
  obtain ⟨u, hu, hp, -, hfree, hmem, -⟩ := halloc.resolve_left hn
  have hne : u ≠ L.pgd := fun he => by rw [he, h.good.pgdRole] at hfree; cases hfree
  have hgood := Good.newRoot h.good hfree
  have hsame : ∀ {f}, role f ≠ .free → newRoot L s.mem u f = s.mem f := fun hr =>
    newRoot_of_ne hne (update_role (r := .root) hfree hr).1
  have htab : tableAt (pages.headD 0) = u := by
    rw [show pages.headD 0 = physToVirtAddr (framePa u) from hp, tableAt_physToVirt hu]
  rw [htab] at hm
  rw [← hm] at hgood hsame
  refine ⟨Function.update role u .root, ⟨hgood, fun p hpm => ?_, fun p hpm => ?_, fun f hr => ?_⟩,
    fun root hr _ va => ?_⟩
  · rw [husers] at hpm
    rcases List.mem_cons.1 hpm with rfl | hpm
    · exact ⟨u, hu, hp, Function.update_self ..⟩
    · obtain ⟨u', hu', he, hr⟩ := h.user p hpm
      exact ⟨u', hu', he, by rw [(update_role hfree (by rw [hr]; simp)).2, hr]⟩
  · rw [husers] at hpm
    rcases List.mem_cons.1 hpm with rfl | hpm
    · exact hn
    · exact h.nonnull p hpm
  · rw [htables]
    by_cases hfu : f = u
    · exact List.mem_append_right _ (hfu ▸ hmem)
    · rw [Function.update_of_ne hfu] at hr
      exact hold f hr
  · rcases h.root_cases hr with rfl | hr
    · exact translate_pgd h.good hgood (hsame (by rw [h.good.pgdRole]; simp))
    · refine translate_congr h.good hgood hr ?_ fun hi =>
        Good.entries_congr h.good (fun f hf _ => hsame hf) hr hi
      rw [(update_role hfree (by rw [hr]; simp)).2, hr]

theorem Inv.map {pgd size : Word} (h : Inv L m0 role s) (hf : FreshPages s.tables pages)
    (hs : next L s (.map pgd va size pa prot pages) = some s') :
    Keeps L m0 s (.map pgd va size pa prot pages) s' := by
  obtain ⟨o, hs⟩ := next_eq_some hs
  obtain ⟨hmem, r, v', hm, -, rfl⟩ := step_map hs
  obtain ⟨u, hu, hp, hrole⟩ := h.user pgd hmem
  obtain ⟨role', v'', r', hm', hgood, hx⟩ := mapPagesTo_good va size pa prot
    (v := ⟨s.mem, pages⟩) h.good (h.avail hf) hrole hu
  rw [← hp, hm, Prod.mk.injEq] at hm'
  obtain ⟨-, rfl⟩ := hm'
  have htarget : tableAt pgd = u := by rw [hp, tableAt_physToVirt hu]
  refine ⟨role', ⟨hgood, fun p hp => ?_, h.nonnull, fun f hr => ?_⟩, fun root hr hne va => ?_⟩
  · obtain ⟨u', hu', he, hr⟩ := h.user p hp
    exact ⟨u', hu', he, by rw [hx.roles u' (by rw [hr]; simp), hr]⟩
  · rcases hx.made f hr with hr | hr
    · exact List.mem_append_left _ (h.table f hr)
    · exact List.mem_append_right _ hr
  · rw [target, htarget] at hne
    rcases h.root_cases hr with rfl | hr
    · exact translate_pgd h.good hgood (hx.kernel _ h.good.pgdRole)
    · refine translate_congr h.good hgood hr (by rw [hx.roles root (by rw [hr]; simp), hr]) fun hi => ?_
      exact hx.entries root _ _ _ hr hi fun he => hne (congrArg some (show root = u from he).symm)

/-- **A step** keeps the invariant and the translations of the page tables that it does not work
on. -/
theorem Inv.step {e : Event} (h : Inv L m0 role s) (hf : Fresh s e) (hs : next L s e = some s') :
    Keeps L m0 s e s' := by
  cases e with
  | dropIdentity => exact h.dropIdentity hs
  | create pages => exact h.create hf hs
  | map pgd va size pa prot pages => exact h.map hf hs

theorem inv_of_run {es : List Event} (h : Run (next L) Fresh (boot L b) es s) :
    ∃ role, Inv L (boot L b).mem role s := by
  refine Run.invariant (I := fun s => ∃ role, Inv L (boot L b).mem role s)
    (fun s e s' ⟨role, hi⟩ hc hs => ?_) h ⟨bootRole L, inv_boot L b⟩
  obtain ⟨role', hi', -⟩ := hi.step hc hs
  exact ⟨role', hi'⟩

/-! ### Isolation -/

/-- The shared tables hold what they held at the start, the linear map of the kernel is the same under
every root, and the next step changes no translation under a root other than its target. -/
structure Isolated (L : Layout) (s0 s : State) : Prop where
  pmd : ∀ g < earlyMapGib, s.mem (L.pmd + g) = s0.mem (L.pmd + g)
  pte : ∀ k < earlyPteTables, s.mem (L.pte + k) = s0.mem (L.pte + k)
  linear : ∀ root ∈ roots L s, ∀ x < linearSize,
    translateAddr s.mem root (kernelVaOffset + BitVec.ofNat 64 x) =
      translateAddr s0.mem L.pgd (kernelVaOffset + BitVec.ofNat 64 x)
  others : ∀ e s', Fresh s e → next L s e = some s' → ∀ root ∈ roots L s, target L e ≠ some root →
    ∀ va, translateAddr s'.mem root va = translateAddr s.mem root va

/-- **Isolation of the address spaces**, in every run. -/
theorem isolated_of_run {es : List Event} (h : Run (next L) Fresh (boot L b) es s) :
    Isolated L (boot L b) s := by
  obtain ⟨role, hi⟩ := inv_of_run h
  have hg := hi.good
  have hg0 := (inv_boot L b).good
  have hpmd := L.pgd_pmd
  have hpte := L.pgd_pte
  refine ⟨fun g hlt => hg.fixed _ (hg.pmdRole g hlt) (by omega),
    fun k hlt => hg.fixed _ (hg.pteRole k hlt) (by omega), fun root hr x hx => ?_,
    fun e s' hf hs root hr hne va => ?_⟩
  · rw [translate_kernel hg0.shared hg0.half.part hx]
    rcases hi.root_cases hr with rfl | hr
    · exact translate_kernel hg.shared hg.half.part hx
    · exact translate_kernel hg.shared (hg.part root hr) hx
  · obtain ⟨role', -, hk⟩ := hi.step hf hs
    exact hk root hr hne va

/-- The pointer to a frame. -/
def pageAt (f : ℕ) : Word := physToVirtAddr (framePa f)

/-- Frames that hold no page table may be given out. -/
theorem freshPages_of_frames {tables : List ℕ} (fs : List ℕ) (h : ∀ f ∈ fs, f < 2 ^ 44 ∧ f ∉ tables)
    (hn : fs.Nodup) : FreshPages tables (fs.map pageAt) where
  frame p hp _ := by
    obtain ⟨f, hf, rfl⟩ := List.mem_map.1 hp
    exact ⟨f, (h f hf).1, rfl, (h f hf).2⟩
  distinct := by
    refine List.pairwise_map.2 (hn.imp_of_mem fun {f g} hf hg hne he => absurd ?_ hne)
    rw [← tableAt_physToVirt (h f hf).1, ← tableAt_physToVirt (h g hg).1]
    exact congrArg tableAt he

theorem next_create_exists (s : State) (pages : List Word) :
    ∃ s', next L s (.create pages) = some s' := by
  rw [next, Map.step]
  generalize vmCreateUserPgd L ⟨s.mem, pages⟩ = x
  obtain ⟨pgd, v⟩ := x
  exact ⟨_, rfl⟩

theorem next_map_exists {pgd : Word} (va size pa prot : Word) (pages : List Word)
    (h : pgd ∈ s.users) :
    ∃ s', next L s (.map pgd va size pa prot pages) = some s' := by
  rw [next, Map.step, if_pos h]
  generalize mapPagesTo ⟨s.mem, pages⟩ pgd va size pa prot = x
  obtain ⟨r, v⟩ := x
  exact ⟨_, rfl⟩

/-- The zeroed memory before the boot. -/
def zeroed : Boot := ⟨fun _ _ => 0, 0, 0⟩

/-- A user page table in the frame 1024, where the page `0x1000` is mapped to the frame 0; the two
tables that it takes are the frames 1025 and 1026. -/
def onePage : List Event :=
  [.create [pageAt 1024],
    .map (pageAt 1024) 0x1000 0x1000 0 (pteR ||| pteU) [pageAt 1025, pageAt 1026]]

theorem oneTable_run : ∃ s, Run (next default) Fresh (boot default zeroed) [.create [pageAt 1024]] s ∧
    s.users = [pageAt 1024] ∧ FreshPages s.tables [pageAt 1025, pageAt 1026] ∧
    ∀ i : Fin 512, i.val < 256 → s.mem 1024 i = 0 := by
  obtain ⟨s, hs⟩ := next_create_exists (L := default) (boot default zeroed) [pageAt 1024]
  obtain ⟨ht, hc⟩ := next_create hs
  obtain ⟨-, hm, husers⟩ := hc.resolve_left fun h => absurd h.1 (by decide)
  have htab : tableAt ([pageAt 1024].headD 0) = 1024 := tableAt_physToVirt (by decide)
  have hf : FreshPages (boot default zeroed).tables ([1024].map pageAt) :=
    freshPages_of_frames [1024] (by decide) (by decide)
  refine ⟨s, .single hf hs, husers, ?_, fun i hi => ?_⟩
  · rw [ht]
    exact freshPages_of_frames [1025, 1026] (by decide) (by decide)
  · rw [hm, htab, newRoot_self (by decide), if_neg (by omega)]

theorem oneTable_tables (h : Run (next default) Fresh (boot default zeroed) [.create [pageAt 1024]] s) :
    s.tables = (boot default zeroed).tables ++ [1024] := by
  obtain _ | ⟨-, hs, hr⟩ := h
  cases hr
  exact (next_create hs).1

/-- A call on a user page table after a run. -/
theorem run_map {es : List Event} (pgd va size pa prot : Word) (fs : List ℕ)
    (hr : Run (next default) Fresh (boot default zeroed) es s) (hu : pgd ∈ s.users)
    (hfs : ∀ f ∈ fs, f < 2 ^ 44 ∧ f ∉ s.tables) (hn : fs.Nodup) :
    ∃ s', Run (next default) Fresh (boot default zeroed)
        (es ++ [.map pgd va size pa prot (fs.map pageAt)]) s' ∧ s'.users = s.users ∧
      s'.tables = s.tables ++ framesOf (fs.map pageAt) := by
  obtain ⟨s', hs⟩ := next_map_exists (L := default) va size pa prot (fs.map pageAt) hu
  obtain ⟨o, ho⟩ := next_eq_some hs
  obtain ⟨-, r, v', -, -, rfl⟩ := step_map ho
  exact ⟨_, hr.snoc (freshPages_of_frames fs hfs hn) hs, rfl, rfl⟩

/-- Two user page tables in the frames 1024 and 1025, where the page `0x1000` is mapped to different
frames. -/
def twoSpaces : List Event :=
  [.create [pageAt 1024], .create [pageAt 1025],
    .map (pageAt 1024) 0x1000 0x1000 0 (pteR ||| pteU) ([1026, 1027].map pageAt),
    .map (pageAt 1025) 0x1000 0x1000 0x1000 (pteR ||| pteU) ([1028, 1029].map pageAt)]

theorem twoSpaces_run : ∃ s, Run (next default) Fresh (boot default zeroed) twoSpaces s ∧
    s.users = [pageAt 1025, pageAt 1024] := by
  obtain ⟨s1, hr1, hu1, -, -⟩ := oneTable_run
  have ht1 := oneTable_tables hr1
  obtain ⟨s2, hs2⟩ := next_create_exists (L := default) s1 [pageAt 1025]
  obtain ⟨ht2, hc2⟩ := next_create hs2
  obtain ⟨-, -, hu2⟩ := hc2.resolve_left fun h => absurd h.1 (by decide)
  have hu2 : s2.users = [pageAt 1025, pageAt 1024] := by rw [hu2, hu1]; rfl
  have hf2 : FreshPages s1.tables [pageAt 1025] := by
    rw [ht1]
    exact freshPages_of_frames [1025] (by decide) (by decide)
  have hr2 : Run (next default) Fresh (boot default zeroed) (twoSpaces.take 2) s2 := hr1.snoc hf2 hs2
  obtain ⟨s3, hr3, hu3, ht3⟩ := run_map (pageAt 1024) 0x1000 0x1000 0 (pteR ||| pteU) [1026, 1027] hr2
    (by rw [hu2]; simp) (by rw [ht2, ht1]; decide) (by decide)
  obtain ⟨s4, hr4, hu4, -⟩ := run_map (pageAt 1025) 0x1000 0x1000 0x1000 (pteR ||| pteU) [1028, 1029]
    hr3 (by rw [hu3, hu2]; simp) (by rw [ht3, ht2, ht1]; decide) (by decide)
  exact ⟨s4, hr4, by rw [hu4, hu3, hu2]⟩

theorem isolated_twoSpaces : ∃ s, s.users = [pageAt 1025, pageAt 1024] ∧
    Isolated default (boot default zeroed) s := by
  obtain ⟨s, hs, hu⟩ := twoSpaces_run
  exact ⟨s, hu, isolated_of_run hs⟩

end OscKernel.Vm.Isolation
