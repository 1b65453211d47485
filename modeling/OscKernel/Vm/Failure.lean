import OscKernel.Vm.Mapping

/-! # What a failed `map_pages_to` leaves behind

The loop enters one page after the other, and nothing takes an entry back.

* `mapLoop_stops`: if the loop fails at a page, the pages before it are entered and no other page entry
  has changed.
* `failed_of_run`: a call that returns -1 on a user page table, in every run. -/

namespace OscKernel.Vm.Failure

open OscKernel.Lib.Memory OscKernel.Lib.Sv39 OscKernel.Lib.Transition
open OscKernel.Vm.Tables OscKernel.Vm.Setup OscKernel.Vm.Map OscKernel.Vm.Space OscKernel.Vm.Isolation
open OscKernel.Vm.Mapping

variable {L : Layout} {b : Boot} {m0 m m' : Frames} {role role' : ℕ → Role} {s s' : State}
  {v v' : Machine} {u c i k n : ℕ} {va pa size prot pgd : Word} {pages : List Word} {e : Failure}

/-- The loop has entered `c` pages from the page `i` on, and fails at the next one. -/
def StopsAt (v v' : Machine) (pgd va pa prot : Word) (i c : ℕ) (e : Failure) : Prop :=
  ∃ w, mapLoop pgd va pa prot c i v = (.ok (), w) ∧
    mapPage w pgd (addr va (i + c)) (addr pa (i + c)) prot = (.error e, v')

/-- The pages were not mapped, and have the entries that were asked for. -/
def Entered (m m' : Frames) (u : ℕ) (va pa prot : Word) (i c : ℕ) : Prop :=
  ∀ t, i ≤ t → t < i + c → Private (vpn 2 (addr va t)) ∧ ¬Mapped m u (addr va t) ∧
    entryOf m' u (addr va t) = paToPte (addr pa t) ||| prot ||| pteV

theorem or_pteV_valid (w : Word) : (w ||| pteV) &&& pteV ≠ 0 := fun h => by
  have hbit := congrArg (fun w => w.getLsbD 0) h
  simp only [BitVec.getLsbD_and, BitVec.getLsbD_or] at hbit
  rw [show pteV.getLsbD 0 = true by decide, Bool.or_true, Bool.and_true] at hbit
  exact absurd hbit (by decide)

theorem mapPage_failed (h : Good L m0 role v.mem) (ha : Avail role v.pages) (hu : role u = .root)
    (hlt : u < 2 ^ 44) (hm : mapPage v (physToVirtAddr (framePa u)) va pa prot = (.error e, v')) :
    ∃ role', Good L m0 role' v'.mem ∧ Extends NoEntry role role' v v' ∧
      (e = .mapped → Private (vpn 2 va) → Mapped v.mem u va) := by
  by_cases hi : Private (vpn 2 va)
  · obtain ⟨role', w, h', -, hx, hw | ⟨f, hf, g, hg, he1, he2, -, -, hw⟩⟩ :=
      walkCreate_private h ha hu hlt hi
    · simp only [mapPage, hw, Prod.mk.injEq, Except.error.injEq] at hm
      obtain ⟨rfl, rfl⟩ := hm
      exact ⟨role', h', hx, fun h _ => by cases h⟩
    · have hentry : w.mem g (vpn 0 va) = entryOf v.mem u va := by
        rw [entryOf, ← hx.entries u _ _ _ hu hi False.elim, pageEntry_of_path hf he1 hg he2]
      simp only [mapPage, hw, tableAt_physToVirt hg, hentry] at hm
      split_ifs at hm with hv
      · simp only [Prod.mk.injEq] at hm
        obtain ⟨-, rfl⟩ := hm
        exact ⟨role', h', hx, fun _ _ => hv⟩
      · simp at hm
  · obtain ⟨e', hk⟩ := mapPage_kernel pa prot h hu hlt hi
    rw [hm, Prod.mk.injEq] at hk
    obtain ⟨-, rfl⟩ := hk
    exact ⟨role, h, .refl role _, fun _ hp => absurd hp hi⟩

theorem mapPage_entered (h : Good L m0 role v.mem) (ha : Avail role v.pages) (hu : role u = .root)
    (hlt : u < 2 ^ 44) {x : Unit}
    (hm : mapPage v (physToVirtAddr (framePa u)) va pa prot = (.ok x, v')) :
    ∃ role', Good L m0 role' v'.mem ∧ Avail role' v'.pages ∧ Extends (PageOf u va) role role' v v' ∧
      Private (vpn 2 va) ∧ ¬Mapped v.mem u va ∧
      entryOf v'.mem u va = paToPte pa ||| prot ||| pteV := by
  by_cases hi : Private (vpn 2 va)
  · obtain ⟨role', w, h', ha', hx, hw | ⟨-, hw⟩ | ⟨hv, he, hw⟩⟩ :=
      mapPage_private va pa prot h ha hu hlt hi
    · rw [hm] at hw
      cases hw
    · rw [hm] at hw
      cases hw
    · rw [hm, Prod.mk.injEq] at hw
      obtain ⟨-, rfl⟩ := hw
      exact ⟨role', h', ha', hx, hi, not_not.2 hv, he⟩
  · obtain ⟨e, hk⟩ := mapPage_kernel pa prot h hu hlt hi
    rw [hm] at hk
    cases hk

/-- **A loop that fails** has entered the pages before the one at which it fails, and changed no other
page entry. -/
theorem mapLoop_stops (va pa prot : Word) (n : ℕ) : ∀ {i : ℕ} {role : ℕ → Role} {v : Machine},
    Good L m0 role v.mem → Avail role v.pages → role u = .root → u < 2 ^ 44 →
    mapLoop (physToVirtAddr (framePa u)) va pa prot n i v = (.error e, v') →
    ∃ role' c, c < n ∧ StopsAt v v' (physToVirtAddr (framePa u)) va pa prot i c e ∧
      Good L m0 role' v'.mem ∧ Extends (InRange u va i c) role role' v v' ∧
      Entered v.mem v'.mem u va pa prot i c ∧
      (e = .mapped → Private (vpn 2 (addr va (i + c))) → Mapped v'.mem u (addr va (i + c))) := by
  induction n with
  | zero =>
    intro i role v h ha hu hlt hl
    rw [mapLoop, Prod.mk.injEq] at hl
    cases hl.1
  | succ n ih =>
    intro i role v h ha hu hlt hl
    rw [mapLoop] at hl
    rcases hm : mapPage v (physToVirtAddr (framePa u)) (addr va i) (addr pa i) prot with
      ⟨e' | x, v1⟩ <;> have hm' := hm <;> unfold addr at hm' <;> rw [hm'] at hl
    · -- it fails at this page
      simp only [Prod.mk.injEq, Except.error.injEq] at hl
      obtain ⟨rfl, rfl⟩ := hl
      obtain ⟨role', h', hx, hmapped⟩ := mapPage_failed h ha hu hlt hm
      refine ⟨role', 0, by omega, ⟨v, rfl, hm⟩, h', hx.mono fun _ _ _ _ => False.elim,
        fun t ht ht' => by omega, fun he hi => ?_⟩
      rw [Nat.add_zero] at hi ⊢
      have hv := hmapped he hi
      rwa [Mapped, entryOf, ← hx.entries u _ _ _ hu hi False.elim] at hv
    · obtain ⟨role1, h1, ha1, hx1, hi, hv, he⟩ := mapPage_entered h ha hu hlt hm
      have hu1 : role1 u = .root := by rw [hx1.roles u (by rw [hu]; simp), hu]
      obtain ⟨role', c, hc, ⟨w, hw, hfail⟩, h', hx, hall, hmapped⟩ := ih h1 ha1 hu1 hlt hl
      -- a page entered later is not this one, whose entry is valid by now
      have hne : ∀ t, i + 1 ≤ t → t < i + 1 + c → ¬SamePage (addr va t) (addr va i) :=
        fun t ht ht' hp => by
          refine (hall t ht ht').2.1 ?_
          rw [Mapped, hp.entryOf, he]
          exact or_pteV_valid _
      refine ⟨role', c + 1, by omega, ⟨w, ?_, ?_⟩, h', (hx1.mono ?_).trans (hx.mono ?_),
        fun t ht ht' => ?_, ?_⟩
      · rw [mapLoop, hm']
        exact hw
      · rw [show i + (c + 1) = i + 1 + c by omega]
        exact hfail
      · exact fun u' _ _ _ hp => ⟨i, le_rfl, by omega, hp⟩
      · rintro u' _ _ _ ⟨t, ht, ht', hp⟩
        exact ⟨t, by omega, by omega, hp⟩
      · rcases Nat.eq_or_lt_of_le ht with rfl | hlt'
        · refine ⟨hi, hv, ?_⟩
          rw [← he]
          refine hx.entries u _ _ _ hu1 hi ?_
          rintro ⟨t, ht, ht', hp⟩
          exact hne t ht ht' ⟨hp.2.1.symm, hp.2.2.1.symm, hp.2.2.2.symm⟩
        · obtain ⟨hpriv, hn, hw⟩ := hall t hlt' (by omega)
          refine ⟨hpriv, ?_, hw⟩
          have hkeep : entryOf v1.mem u (addr va t) = entryOf v.mem u (addr va t) :=
            hx1.entries u _ _ _ hu hpriv fun hp => hne t hlt' (by omega) hp.2
          rwa [Mapped, hkeep] at hn
      · rw [show i + (c + 1) = i + 1 + c by omega]
        exact hmapped

/-- What a call that fails at the page `k` leaves behind. -/
structure LeftBehind (m m' : Frames) (u : ℕ) (va pa prot : Word) (k : ℕ) : Prop where
  others : ∀ a, (∀ t < k, ¬SamePage a (addr va t)) → translateAddr m' u a = translateAddr m u a
  entered : ∀ t < k, ¬Mapped m u (addr va t) ∧
    entryOf m' u (addr va t) = paToPte (addr pa t) ||| prot ||| pteV

/-- The call fails at the page `k` of its range; an argument that it refuses counts as the page 0. -/
def FailsAt (v v' : Machine) (pgd va size pa prot : Word) (k : ℕ) (e : Failure) : Prop :=
  e = .argument ∧ k = 0 ∨
    k < ((size + 4096 - 1) / 4096 : Word).toNat ∧ StopsAt v v' pgd va pa prot 0 k e

/-- The state after a call that fails at the page `k`, in a run. -/
structure Stopped (L : Layout) (m0 : Frames) (role role' : ℕ → Role) (s s' : State) (u : ℕ)
    (va pa prot : Word) (pages : List Word) (k : ℕ) (e : Failure) : Prop where
  before : Good L m0 role s.mem
  after : Good L m0 role' s'.mem
  root : role u = .root
  grows : Extends (InRange u va 0 k) role role' ⟨s.mem, pages⟩ ⟨s'.mem, []⟩
  entered : Entered s.mem s'.mem u va pa prot 0 k
  mapped : e = .mapped → Private (vpn 2 (addr va k)) → Mapped s'.mem u (addr va k)

theorem stopped_of_run {es : List Event} (h : Run (next L) Fresh (boot L b) es s)
    (hf : FreshPages s.tables pages)
    (hs : Map.step L s (.map pgd va size pa prot pages) = some (s', some (.error e))) :
    ∃ m0 role role' k v', Stopped L m0 role role' s s' (tableAt pgd) va pa prot pages k e ∧
      s'.mem = v'.mem ∧ FailsAt ⟨s.mem, pages⟩ v' pgd va size pa prot k e := by
  obtain ⟨role, hi⟩ := inv_of_run h
  obtain ⟨hmem, r, v', hm, hr, rfl⟩ := step_map hs
  obtain rfl := Option.some.inj hr
  obtain ⟨u, hlt, hp, hu⟩ := hi.user pgd hmem
  have htab : tableAt pgd = u := by rw [hp, tableAt_physToVirt hlt]
  rw [htab]
  rw [mapPagesTo] at hm
  split_ifs at hm with harg
  · simp only [Prod.mk.injEq, Except.error.injEq] at hm
    obtain ⟨rfl, rfl⟩ := hm
    refine ⟨_, role, role, 0, ⟨s.mem, pages⟩, ⟨hi.good, hi.good, hu, ?_, ?_, fun he => by cases he⟩,
      rfl, .inl ⟨rfl, rfl⟩⟩
    · exact ⟨fun _ _ => rfl, fun _ hr => .inl hr, fun _ hp => absurd hp List.not_mem_nil,
        fun _ _ => rfl, fun _ _ _ _ _ _ _ => rfl⟩
    · exact fun t _ ht => absurd ht (by omega)
  · rw [hp] at hm
    obtain ⟨role', k, hk, hstop, h', hx, hall, hmapped⟩ :=
      mapLoop_stops va pa prot _ hi.good (hi.avail hf) hu hlt hm
    refine ⟨_, role, role', k, v', ⟨hi.good, h', hu, ?_, hall, ?_⟩, rfl, .inr ⟨hk, hp ▸ hstop⟩⟩
    · exact ⟨hx.roles, hx.made, fun _ hp => absurd hp List.not_mem_nil, hx.kernel, hx.entries⟩
    · rwa [Nat.zero_add] at hmapped

theorem Stopped.leftBehind (h : Stopped L m0 role role' s s' u va pa prot pages k e) :
    LeftBehind s.mem s'.mem u va pa prot k := by
  have hu' : role' u = .root := by rw [h.grows.roles u (by rw [h.root]; simp), h.root]
  refine ⟨fun a ha => ?_, fun t ht => (h.entered t (Nat.zero_le _) (by omega)).2⟩
  refine translate_congr h.before h.after h.root hu' fun hpriv => ?_
  refine h.grows.entries u _ _ _ h.root hpriv ?_
  rintro ⟨t, -, ht, hp⟩
  exact ha t (by omega) hp.2

/-- **A call of `map_pages_to` that returns -1** on a user page table, in every run: all addresses
outside the pages before the one at which it fails translate as before, and those pages stay mapped. -/
theorem failed_of_run {es : List Event} (h : Run (next L) Fresh (boot L b) es s)
    (hf : FreshPages s.tables pages)
    (hs : Map.step L s (.map pgd va size pa prot pages) = some (s', some (.error e))) :
    ∃ k v', s'.mem = v'.mem ∧ FailsAt ⟨s.mem, pages⟩ v' pgd va size pa prot k e ∧
      LeftBehind s.mem s'.mem (tableAt pgd) va pa prot k := by
  obtain ⟨m0, role, role', k, v', hstop, hv', hfail⟩ := stopped_of_run h hf hs
  exact ⟨k, v', hv', hfail, hstop.leftBehind⟩

/-! ### The second page is taken -/

/-- The pages that `alloc_pages` gives out in the call. -/
def fourPages : List Word := [1027, 1028, 1029, 1030].map pageAt

/-- The page `0x1000` is mapped, and the two pages from the address 0 on are asked for. -/
theorem onePage_failed : ∃ s s', Run (next default) Fresh (boot default zeroed) onePage s ∧
    FreshPages s.tables fourPages ∧
    Map.step default s (.map (pageAt 1024) 0 0x2000 0 (pteR ||| pteU) fourPages) =
      some (s', some (.error .mapped)) ∧ ¬Mapped s.mem 1024 0 := by
  obtain ⟨s0, s, hr0, hf0, hs0⟩ := oneTable_map (pteR ||| pteU)
  obtain ⟨t, ht, -, -, hzero⟩ := oneTable_run
  obtain rfl := hr0.unique ht
  have hroot : tableAt (pageAt 1024) = 1024 := tableAt_physToVirt (by decide)
  obtain ⟨hmem, _, _, -, -, he⟩ := step_map hs0
  have htables : s.tables = (boot default zeroed).tables ++ [1024] ++
      framesOf [pageAt 1025, pageAt 1026] := by rw [he, oneTable_tables hr0]
  have husers : s.users = s0.users := by rw [he]
  have hrun : Run (next default) Fresh (boot default zeroed) onePage s :=
    hr0.snoc hf0 (by rw [next, hs0]; rfl)
  have hf : FreshPages s.tables fourPages := by
    rw [htables]
    exact freshPages_of_frames _ (by decide) (by decide)
  obtain ⟨_, _, _, hc0⟩ := called_of_run hr0 hf0 request_page hs0
  have hcount : pages4k 0x1000 = 1 := by decide
  have hfree : ¬Mapped s.mem 1024 0 := by
    have hkeep := hc0.grows.entries _ (vpn 2 0) (vpn 1 0) (vpn 0 0) hc0.root (.inl (by decide)) (by
      rintro ⟨t, -, ht, -, -, -, hp⟩
      obtain rfl : t = 0 := by omega
      exact absurd hp (by decide))
    rw [hroot] at hkeep
    rw [Mapped, entryOf]
    rw [show pageEntry s.mem 1024 (vpn 2 0) (vpn 1 0) (vpn 0 0) = _ from hkeep,
      pageEntry_of_root (hzero _ (by decide))]
    exact fun h => h rfl
  have htaken : Mapped s.mem 1024 (addr 0 1) := by
    rcases hc0.outcome with hr | ⟨hr, -⟩ | ⟨-, hall⟩
    · cases hr
    · cases hr
    · obtain ⟨-, hentry⟩ := hall 0 le_rfl (by omega)
      rw [hroot] at hentry
      rw [Mapped, show addr 0 1 = addr 0x1000 0 by decide]
      exact hentry ▸ or_pteV_valid _
  have hreq : Request 0 0x2000 0 := ⟨by decide, by decide, by decide, by decide, by decide⟩
  obtain ⟨s', hs⟩ := next_map_exists (L := default) 0 0x2000 0 (pteR ||| pteU) fourPages
    (husers ▸ hmem)
  obtain ⟨o, ho⟩ := next_eq_some hs
  obtain ⟨-, r, _, -, rfl, -⟩ := step_map ho
  obtain ⟨_, _, _, hc⟩ := called_of_run hrun hf hreq ho
  refine ⟨s, s', hrun, hf, ?_, hfree⟩
  rcases hc.outcome with hr | ⟨hr, -⟩ | ⟨-, hall⟩
  · obtain ⟨k, hk, hz⟩ := hc.memory hr
    rw [show pages4k 0x2000 = 2 by decide] at hk
    have : ∀ k < 4, fourPages.getD k 0 ≠ 0 := by decide
    exact absurd hz (this k hk)
  · rw [ho, hr]
  · exact absurd (hroot ▸ htaken) (hall 1 (by omega) (by decide)).1

/-- **A call that fails at its second page**: the first one is mapped afterwards. -/
theorem not_unchanged_onePage : ∃ s s', Run (next default) Fresh (boot default zeroed) onePage s ∧
    FreshPages s.tables fourPages ∧
    Map.step default s (.map (pageAt 1024) 0 0x2000 0 (pteR ||| pteU) fourPages) =
      some (s', some (.error .mapped)) ∧
    translateAddr s'.mem (tableAt (pageAt 1024)) 0 ≠ translateAddr s.mem (tableAt (pageAt 1024)) 0 := by
  obtain ⟨s, s', hr, hf, hs, hfree⟩ := onePage_failed
  have hroot : tableAt (pageAt 1024) = 1024 := tableAt_physToVirt (by decide)
  refine ⟨s, s', hr, hf, hs, ?_⟩
  obtain ⟨m0, role, role', k, v', hstop, -, hfail⟩ := stopped_of_run hr hf hs
  have hk : k < 2 := by
    rcases hfail with ⟨he, -⟩ | ⟨hk, -⟩
    · cases he
    · exact hk.trans_eq (by decide)
  have hpriv : Private (vpn 2 0) := .inl (by decide)
  have hroot' : role' (tableAt (pageAt 1024)) = .root := by
    rw [hstop.grows.roles _ (by rw [hstop.root]; simp), hstop.root]
  rcases (by omega : k = 0 ∨ k = 1) with rfl | rfl
  · -- the first page would have been mapped before
    have hm := hstop.mapped rfl hpriv
    have hkeep := hstop.grows.entries _ _ (vpn 1 0) (vpn 0 0) hstop.root hpriv (by
      rintro ⟨t, -, ht, -⟩
      omega)
    refine absurd ?_ hfree
    rw [Mapped, entryOf, ← hroot]
    exact hkeep ▸ hm
  · obtain ⟨-, -, he⟩ := hstop.entered 0 le_rfl (by omega)
    rw [show addr 0 0 = 0 by decide] at he
    rw [translate_private hstop.before hstop.root (by decide) hpriv,
      translate_private hstop.after hroot' (by decide) hpriv, he, hroot,
      decode_of_not_mapped (not_not.1 hfree)]
    decide

theorem failed_onePage : ∃ s s' k, Map.step default s (.map (pageAt 1024) 0 0x2000 0 (pteR ||| pteU)
      fourPages) = some (s', some (.error .mapped)) ∧
    LeftBehind s.mem s'.mem (tableAt (pageAt 1024)) 0 0 (pteR ||| pteU) k := by
  obtain ⟨s, s', hr, hf, hs, -⟩ := onePage_failed
  obtain ⟨k, v', -, -, hl⟩ := failed_of_run hr hf hs
  exact ⟨s, s', k, hs, hl⟩

end OscKernel.Vm.Failure
