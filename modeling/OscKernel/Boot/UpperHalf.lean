import OscKernel.Boot.Entry
import OscKernel.Lib.Transition

/-! # `start_kernel` is entered

The way of `_start` through the image, where it was loaded and where it is linked, phase by phase: the
bss (`Cleared`), the call of `setup_vm` (`Mapped` at `0`), the jump (`Mapped` at `KERNEL_VA_OFFSET`), the
call of `drop_identity_map` (`Dropped`), and the way out.

* `step_line`: at a line a step is what the instruction does, wherever the image is mapped.
* `clearing_step`: a round of `bss_clear`.
* `start_reaches`: `start_kernel` is entered on every way. -/

namespace OscKernel.Boot.UpperHalf

open OscKernel.Lib.Memory OscKernel.Lib.Sv39 OscKernel.Vm.Tables OscKernel.Vm.Setup
  OscKernel.Boot.Entry
open OscKernel.Lib.Riscv (Reg)
open OscKernel.Lib.Transition hiding exec

/-! ### One line -/

/-- The hart is at the line `i`, and the image is mapped from `base` on. -/
structure At (I : Image) (base : Word) (i : ℕ) (h : Hart) : Prop where
  pc : h.pc = base + BitVec.ofNat 64 (I.line i)
  maps : Maps h.satp h.mem base

section Line
variable {I : Image} {base : Word} {i ret : ℕ} {h t : Hart} {ins : Instr} {P : Hart → Prop}

theorem lt_limit (I : Image) {x : ℕ} (hx : x ≤ I.stackTop) : x ≤ imageLimit :=
  (hx.trans I.stack_le).trans I.kernelEnd_le

theorem text_le (I : Image) : I.textStop ≤ I.stackTop := by
  have h1 := I.textStop_le
  have h2 := I.bss_le
  have h3 := I.bssStop_le
  unfold Image.stackTop
  omega

theorem place_line (hi : i < 20) : place I (I.line i) = some (.line i) := by
  have hne := I.ret_ne.2 i hi
  have hfind : (List.range 20).find? (fun j => decide (I.line j = I.line i)) = some i := by
    rw [List.find?_range_eq_some]
    refine ⟨decide_eq_true rfl, List.mem_range.2 hi, fun j hj => ?_⟩
    rw [Bool.not_eq_true', decide_eq_false_iff_not]
    exact (I.line_mono hj).ne
  rw [place, if_neg (by tauto), hfind]
  rfl

theorem place_ret (hret : ret = I.setupVmRet ∨ ret = I.dropRet) : place I ret = some .ret :=
  if_pos hret

theorem fetch_of_maps {x : ℕ} {l : Leaf} (hm : Maps h.satp h.mem base) (hx : x < imageLimit)
    (hpc : h.pc = base + BitVec.ofNat 64 x) (hf : translateUnder h.satp h.mem h.pc = some l) :
    l.pa = x := by
  obtain ⟨l', ht, hpa, -⟩ := hm x hx
  rw [hpc, ht] at hf
  rw [← Option.some.inj hf, hpa]

theorem step_line (ha : At I base i h) (hi : (start I)[i]? = some ins) :
    Step I h t ↔ Does I i h t ins := by
  have hlt : i < 20 := (List.getElem?_eq_some_iff.1 hi).1
  have hx : I.line i < imageLimit := by
    have h1 := I.line_mono hlt
    have h2 := lt_limit I (text_le I)
    have h3 := I.line_lt
    omega
  constructor
  · rintro (⟨hf, -, hp, hi', hd⟩ | ⟨hf, -, hp, -⟩)
    · rw [fetch_of_maps ha.maps hx ha.pc hf, place_line hlt] at hp
      obtain rfl : i = _ := by simpa using hp
      rw [hi] at hi'
      rw [Option.some.inj hi']
      exact hd
    · rw [fetch_of_maps ha.maps hx ha.pc hf, place_line hlt] at hp
      simp at hp
  · intro hd
    obtain ⟨l, hf, hpa, -, -, hex⟩ := ha.maps _ hx
    exact .line (by rw [ha.pc, hf]) hex (by rw [hpa, place_line hlt]) hi hd

theorem eventually_exec (ha : At I base i h) (hi : (start I)[i]? = some ins)
    (hins : ∀ t, Does I i h t ins ↔ exec I i h ins = some t) (he : exec I i h ins = some t)
    (hP : Eventually (Step I) P t) : Eventually (Step I) P h := by
  refine .next ⟨t, (step_line ha hi).2 ((hins t).2 he)⟩ fun u hu => ?_
  have := (hins u).1 ((step_line ha hi).1 hu)
  rw [he] at this
  exact Option.some.inj this ▸ hP

theorem eventually_ret (hm : Maps h.satp h.mem base) (hret : ret = I.setupVmRet ∨ ret = I.dropRet)
    (hpc : h.pc = base + BitVec.ofNat 64 ret) (hP : Eventually (Step I) P (h.goto (h.reg .ra))) :
    Eventually (Step I) P h := by
  have hx : ret < imageLimit := by
    have h1 := I.ret_lt
    have h2 := lt_limit I (text_le I)
    omega
  refine .next ⟨h.goto (h.reg .ra), ?_⟩ fun u hu => ?_
  · obtain ⟨l, hf, hpa, -, -, hex⟩ := hm _ hx
    exact .ret (by rw [hpc, hf]) hex (by rw [hpa, place_ret hret]) rfl
  · rcases hu with ⟨hf, -, hp, -, -⟩ | ⟨-, -, -, rfl⟩
    · rw [fetch_of_maps hm hx hpc hf, place_ret hret] at hp
      simp at hp
    · exact hP

/-- `t` is what writing a register and going on to the line `i` leaves. -/
structure Sets (I : Image) (base : Word) (i : ℕ) (h : Hart) (rd : Reg) (v : Word) (t : Hart) : Prop
    where
  loc : At I base i t
  reg : t.reg = Function.update h.reg rd v
  satp : t.satp = h.satp
  stvec : t.stvec = h.stvec
  mem : t.mem = h.mem

theorem eventually_set {rd : Reg} {v : Word} (ha : At I base i h) (hi : (start I)[i]? = some ins)
    (hins : ∀ t, Does I i h t ins ↔ exec I i h ins = some t)
    (he : exec I i h ins = some ((h.set rd v).goto (h.rel (I.line i) (I.line (i + 1)))))
    (hP : ∀ t, Sets I base (i + 1) h rd v t → Eventually (Step I) P t) : Eventually (Step I) P h :=
  eventually_exec ha hi hins he (hP _ ⟨⟨rel_eq ha.pc, ha.maps⟩, rfl, rfl, rfl, rfl⟩)

theorem mapsStack_of_maps (hm : Maps h.satp h.mem base)
    (hsp : h.reg .sp = base + BitVec.ofNat 64 I.stackTop) : MapsStack I h := by
  intro d hd
  have hlim := lt_limit I le_rfl
  have htop : I.stackTop = I.stackBottom + 0x4000 := rfl
  have hva : h.reg .sp - 0x4000 + BitVec.ofNat 64 d = base + BitVec.ofNat 64 (I.stackBottom + d) := by
    rw [hsp, htop, BitVec.ofNat_add, BitVec.ofNat_add]
    bv_omega
  obtain ⟨l, ht, hpa, hr, hw, -⟩ := hm (I.stackBottom + d) (by omega)
  exact ⟨l, by rw [hva, ht], hr, hw, hpa⟩

end Line

/-! ### Clearing the bss -/

theorem zero_add_word (w : Word) : (0 : Word) + w = w := BitVec.zero_add w

/-- The loop has come to the address `x`. -/
structure Clearing (I : Image) (h : Hart) (x : ℕ) (t : Hart) : Prop where
  loc : At I 0 2 t
  start_le : I.bssStart ≤ x
  le_stop : x ≤ I.bssStop
  t0 : t.reg .t0 = BitVec.ofNat 64 x
  t1 : t.reg .t1 = BitVec.ofNat 64 I.bssStop
  a1 : t.reg .a1 = h.reg .a1
  bare : t.satp >>> 60 = 0
  mem : ∀ y, byteAt t.mem y = if I.bssStart ≤ y ∧ y < x then 0 else byteAt h.mem y

/-- The bss is clear. -/
structure Cleared (I : Image) (h t : Hart) : Prop where
  loc : At I 0 6 t
  a1 : t.reg .a1 = h.reg .a1
  bare : t.satp >>> 60 = 0
  mem : ∀ y, byteAt t.mem y = if I.bssStart ≤ y ∧ y < I.bssStop then 0 else byteAt h.mem y

section Bss
variable {I : Image} {h t : Hart} {x : ℕ}

theorem storeByte_bare {va : Word} {b : Byte} (hb : h.satp >>> 60 = 0) :
    storeByte h va b = some { h with mem := setByte h.mem va.toNat b } := by
  have hw : Nat.testBit 0xf 2 = true := by decide
  rw [storeByte, translateUnder, if_pos hb]
  simp only [hw, if_true]

theorem bss_lt (I : Image) : I.bssStop < 2 ^ 64 := by
  have h1 := lt_limit I (show I.bssStop ≤ I.stackTop from I.bssStop_le.trans (Nat.le_add_right ..))
  unfold imageLimit at h1
  omega

theorem clearing_step (hc : Clearing I h x t) : Eventually (Step I)
    (fun u => Cleared I h u ∨ x < I.bssStop ∧ Clearing I h (x + 1) u) t := by
  have hlt := bss_lt I
  have hle := hc.le_stop
  have hx : (BitVec.ofNat 64 x).toNat = x := Nat.mod_eq_of_lt (by omega)
  have hstop : (BitVec.ofNat 64 I.bssStop).toNat = I.bssStop := Nat.mod_eq_of_lt hlt
  by_cases hlast : x = I.bssStop
  · have hbr : exec I 2 t (.bgeu .t0 .t1 6) = some (t.goto (t.rel (I.line 2) (I.line 6))) :=
      if_pos (by rw [hc.t0, hc.t1, hlast]; exact BitVec.le_refl _)
    refine eventually_exec hc.loc rfl (fun _ => Iff.rfl) hbr (.here (.inl ?_))
    exact ⟨⟨rel_eq hc.loc.pc, hc.loc.maps⟩, hc.a1, hc.bare, by rw [← hlast]; exact hc.mem⟩
  · have hbr : exec I 2 t (.bgeu .t0 .t1 6) = some (t.goto (t.rel (I.line 2) (I.line 3))) := by
      refine if_neg fun hge => ?_
      rw [hc.t0, hc.t1, BitVec.le_def, hx, hstop] at hge
      omega
    refine eventually_exec hc.loc rfl (fun _ => Iff.rfl) hbr ?_
    set u := t.goto (t.rel (I.line 2) (I.line 3)) with hu
    have hau : At I 0 3 u := ⟨rel_eq hc.loc.pc, hc.loc.maps⟩
    have hsb : exec I 3 u (.sbZero .t0) =
        some ({ u with mem := setByte t.mem x 0 }.goto (u.rel (I.line 3) (I.line 4))) := by
      have hb : u.satp >>> 60 = 0 := hc.bare
      change (storeByte u (t.reg .t0) 0).map _ = _
      rw [storeByte_bare hb, hc.t0, hx]
      rfl
    refine eventually_exec hau rfl (fun _ => Iff.rfl) hsb ?_
    refine eventually_set (i := 4) ⟨rel_eq hau.pc, maps_bare hc.bare⟩ rfl (fun _ => Iff.rfl) rfl
      fun v hv => ?_
    have hj : exec I 5 v (.j 2) = some (v.goto (v.rel (I.line 5) (I.line 2))) := rfl
    refine eventually_exec hv.loc rfl (fun _ => Iff.rfl) hj (.here (.inr ⟨by omega, ?_⟩))
    refine ⟨⟨rel_eq hv.loc.pc, hv.loc.maps⟩, by have := hc.start_le; omega, by omega, ?_, ?_, ?_, ?_,
      fun y => ?_⟩
    · change v.reg .t0 = _
      rw [hv.reg, Function.update_self, BitVec.ofNat_add]
      change t.reg .t0 + 1 = _
      rw [hc.t0]
      rfl
    · change v.reg .t1 = _
      rw [hv.reg, Function.update_of_ne (by decide)]
      exact hc.t1
    · change v.reg .a1 = _
      rw [hv.reg, Function.update_of_ne (by decide)]
      exact hc.a1
    · change v.satp >>> 60 = 0
      rw [hv.satp]
      exact hc.bare
    · change byteAt v.mem y = _
      have hs := hc.start_le
      rw [hv.mem]
      change byteAt (setByte t.mem x 0) y = _
      rw [byteAt_setByte, hc.mem]
      by_cases hy : y = x
      · rw [if_pos hy, if_pos (by omega)]
      · rw [if_neg hy]
        exact if_congr (by omega) rfl rfl

/-- **The bss.** -/
theorem cleared_of_start (hpc : h.pc = BitVec.ofNat 64 (I.line 0)) (hb : h.satp >>> 60 = 0) :
    Eventually (Step I) (Cleared I h) h := by
  have hloc : At I 0 0 h := ⟨by rw [hpc, zero_add_word], maps_bare hb⟩
  refine eventually_set hloc rfl (fun _ => Iff.rfl) rfl fun s hs => ?_
  refine eventually_set hs.loc rfl (fun _ => Iff.rfl) rfl fun t ht => ?_
  have hc : Clearing I h I.bssStart t := by
    refine ⟨ht.loc, le_rfl, I.bss_le, ?_, ?_, ?_, by rw [ht.satp, hs.satp, hb], fun y => ?_⟩
    · rw [ht.reg, Function.update_of_ne (by decide), hs.reg, Function.update_self, rel_eq hloc.pc,
        zero_add_word]
    · rw [ht.reg, Function.update_self, rel_eq hs.loc.pc, zero_add_word]
    · rw [ht.reg, Function.update_of_ne (by decide), hs.reg, Function.update_of_ne (by decide)]
    · rw [ht.mem, hs.mem, if_neg (by omega)]
  -- what is left of the bss gets smaller
  refine Eventually.loop (fun n u => ∃ x, n = I.bssStop - x ∧ Clearing I h x u) (fun n u hn => ?_)
    (I.bssStop - I.bssStart) t ⟨I.bssStart, rfl, hc⟩
  obtain ⟨x, rfl, hc⟩ := hn
  refine (clearing_step hc).bind fun v hv => .here ?_
  rcases hv with hv | ⟨hlt, hv⟩
  · exact .inl hv
  · exact .inr ⟨I.bssStop - (x + 1), by omega, x + 1, rfl, hv⟩

end Bss

/-! ### Memory between the calls -/

/-- Memory as `start_kernel` finds it, apart from the tables, the stack and `early_pte_used`. -/
structure Kept (I : Image) (h : Hart) (m : Frames) : Prop where
  cleared : ∀ x, I.bssStart ≤ x → x < I.bssStop → ¬ I.Scratch x → ¬ I.Table (x / 4096) →
    byteAt m x = 0
  kept : ∀ x, x < I.bssStart ∨ I.stackTop ≤ x → byteAt m x = byteAt h.mem x

section Kept
variable {I : Image} {h t : Hart} {m m' : Frames} {x : ℕ}

/-- The tables, the stack and `early_pte_used` lie in the bss and behind it. -/
theorem apart (I : Image) (hx : x < I.bssStart ∨ I.stackTop ≤ x) :
    ¬ I.Scratch x ∧ ¬ I.Table (x / 4096) := by
  have h1 := I.bss_le
  have h2 := I.bssStop_le
  have h3 := I.used_bss
  have htop : I.stackTop = I.stackBottom + 0x4000 := rfl
  refine ⟨fun hs => ?_, fun ht => ?_⟩
  · rcases hs with hs | hs <;> omega
  · have := I.tables_bss _ ht
    omega

theorem Cleared.kept (hc : Cleared I h t) : Kept I h t.mem := by
  have h1 := I.bss_le
  have h2 := I.bssStop_le
  have htop : I.stackTop = I.stackBottom + 0x4000 := rfl
  refine ⟨fun x hx hx' _ _ => ?_, fun x hx => ?_⟩
  · rw [hc.mem, if_pos ⟨hx, hx'⟩]
  · rw [hc.mem, if_neg (by omega)]

theorem Kept.congr (hk : Kept I h m) (hm : ∀ x, ¬ I.Scratch x → ¬ I.Table (x / 4096) →
    byteAt m' x = byteAt m x) : Kept I h m' := by
  refine ⟨fun x h1 h2 h3 h4 => ?_, fun x hx => ?_⟩
  · rw [hm x h3 h4, hk.cleared x h1 h2 h3 h4]
  · obtain ⟨h1, h2⟩ := apart I hx
    rw [hm x h1 h2, hk.kept x hx]

end Kept

/-! ### The calls -/

/-- The translation is on, with the identity map, at the line `i` of the image at `base`. -/
structure Mapped (I : Image) (h : Hart) (base : Word) (i : ℕ) (t : Hart) : Prop where
  pc : t.pc = base + BitVec.ofNat 64 (I.line i)
  s0 : t.reg .s0 = h.reg .a1
  satp : t.satp = makeSatp (framePa I.tables.pgd)
  linear : Linear I t.mem
  low : LowHalf I.tables t.mem
  mem : Kept I h t.mem

/-- The upper half is all that is left. -/
structure Dropped (I : Image) (h t : Hart) : Prop where
  pc : t.pc = kernelVaOffset + BitVec.ofNat 64 (I.line 17)
  s0 : t.reg .s0 = h.reg .a1
  sp : t.reg .sp = kernelVaOffset + BitVec.ofNat 64 I.stackTop
  satp : t.satp = makeSatp (framePa I.tables.pgd)
  stvec : t.stvec = kernelVaOffset + BitVec.ofNat 64 I.handleException
  linear : Linear I t.mem
  empty : ∀ j : Fin 512, j.val < 256 → t.mem I.tables.pgd j = 0
  mem : Kept I h t.mem

section Calls
variable {I : Image} {h t : Hart} {base : Word} {i ret : ℕ} {satp : Word} {m : Frames} {P : Hart → Prop}

theorem eventually_returns (hm : Maps t.satp t.mem base) (hret : ret = I.setupVmRet ∨ ret = I.dropRet)
    (hpc : h.pc = base + BitVec.ofNat 64 (I.line i)) (hr : Returns I i ret h satp m t)
    (hP : Eventually (Step I) P (t.goto (base + BitVec.ofNat 64 (I.line (i + 1))))) :
    Eventually (Step I) P t := by
  refine eventually_ret hm hret (by rw [hr.pc, rel_eq hpc]) ?_
  rw [hr.ra, rel_eq hpc]
  exact hP

theorem exists_returns (I : Image) (i ret : ℕ) (h : Hart) (satp : Word) (m : Frames) :
    ∃ t, Returns I i ret h satp m t := by
  refine ⟨⟨h.rel (I.line i) ret, Function.update h.reg .ra (h.rel (I.line i) (I.line (i + 1))), satp,
    h.stvec, m⟩, rfl, ?_, ?_, ?_, rfl, rfl, fun _ _ => rfl⟩
  · dsimp only
    rw [Function.update_self]
  · dsimp only
    rw [Function.update_of_ne (by decide)]
  · dsimp only
    rw [Function.update_of_ne (by decide)]

/-- **The translation goes on.** -/
theorem mapped_of_cleared (hc : Cleared I h t) : Eventually (Step I) (Mapped I h 0 9) t := by
  refine eventually_set hc.loc rfl (fun _ => Iff.rfl) rfl fun u hu => ?_
  refine eventually_set hu.loc rfl (fun _ => Iff.rfl) rfl fun v hv => ?_
  have hbare : v.satp >>> 60 = 0 := by rw [hv.satp, hu.satp, hc.bare]
  have hsp : v.reg .sp = 0 + BitVec.ofNat 64 I.stackTop := by
    rw [hv.reg, Function.update_of_ne (by decide), hu.reg, Function.update_self, rel_eq hc.loc.pc]
  have hs0 : v.reg .s0 = h.reg .a1 := by
    rw [hv.reg, Function.update_self, hu.reg, Function.update_of_ne (by decide), hc.a1]
  have hmem : v.mem = t.mem := by rw [hv.mem, hu.mem]
  have hpgd : v.rel (I.line 8) (I.tables.pgd * 4096) = framePa I.tables.pgd := by
    rw [rel_eq hv.loc.pc, zero_add_word]
    rfl
  have hi : (start I)[8]? = some .callSetupVm := rfl
  obtain ⟨h1, h2, h3⟩ := setupVm_tables I.tables ⟨v.mem, 0, v.satp⟩
  -- the state in which `setup_vm` returns: its tables are there, and translate
  have hback : ∀ {w}, Returns I 8 I.setupVmRet v (setupVm I.tables ⟨v.mem, 0, v.satp⟩).satp
      (setupVm I.tables ⟨v.mem, 0, v.satp⟩).mem w →
      Linear I w.mem ∧ LowHalf I.tables w.mem ∧ Maps w.satp w.mem 0 := by
    intro w hr
    have htab : ∀ f, I.Table f → w.mem f = (setupVm I.tables ⟨v.mem, 0, v.satp⟩).mem f :=
      fun f hf => table_eq hr.mem hf
    have hlin : Linear I w.mem := Linear.congr ⟨h1, h2⟩ htab
    have hlow : LowHalf I.tables w.mem := fun j hj => by rw [htab _ (.inl rfl), h3 j hj]
    have hsatp : w.satp = makeSatp (framePa I.tables.pgd) := hr.satp
    exact ⟨hlin, hlow, by rw [hsatp]; exact hlin.maps_low hlow⟩
  obtain ⟨w, hw⟩ := exists_returns I 8 I.setupVmRet v (setupVm I.tables ⟨v.mem, 0, v.satp⟩).satp
    (setupVm I.tables ⟨v.mem, 0, v.satp⟩).mem
  have hstack := mapsStack_of_maps hv.loc.maps hsp
  have hstack' := mapsStack_of_maps (hback hw).2.2 (hw.sp.trans hsp)
  refine .next ⟨w, (step_line hv.loc hi).2 ⟨hstack, hstack', hbare, hpgd, hw⟩⟩ fun w hw => ?_
  obtain ⟨-, -, -, -, hr⟩ := (step_line hv.loc hi).1 hw
  obtain ⟨hlin, hlow, hmaps⟩ := hback hr
  refine eventually_returns hmaps (.inl rfl) hv.loc.pc hr (.here ?_)
  refine ⟨rfl, by rw [← hs0]; exact hr.s0, hr.satp, hlin, hlow, hc.kept.congr fun x hx hx' => ?_⟩
  change byteAt w.mem x = _
  rw [hr.mem x hx, byteAt_of_frame (setupVm_of_ne hx'), ← hmem]

/-- **The jump.** -/
theorem high_of_mapped (hm : Mapped I h 0 9 t) :
    Eventually (Step I) (Mapped I h kernelVaOffset 13) t := by
  have hmaps : Maps t.satp t.mem 0 := by
    rw [hm.satp]
    exact hm.linear.maps_low hm.low
  refine eventually_set ⟨hm.pc, hmaps⟩ rfl (fun _ => Iff.rfl) rfl fun u hu => ?_
  refine eventually_set hu.loc rfl (fun _ => Iff.rfl) rfl fun v hv => ?_
  refine eventually_set hv.loc rfl (fun _ => Iff.rfl) rfl fun w hw => ?_
  have hj : exec I 12 w (.jr .t0) = some (w.goto (w.reg .t0)) := rfl
  refine eventually_exec hw.loc rfl (fun _ => Iff.rfl) hj (.here ?_)
  have hmem : w.mem = t.mem := by rw [hw.mem, hv.mem, hu.mem]
  refine ⟨?_, ?_, ?_, ?_, ?_, ?_⟩
  · change w.reg .t0 = _
    rw [hw.reg, Function.update_self, hv.reg, Function.update_self,
      Function.update_of_ne (by decide), hu.reg, Function.update_self, rel_eq hm.pc, zero_add_word,
      BitVec.add_comm]
  · change w.reg .s0 = _
    rw [hw.reg, Function.update_of_ne (by decide), hv.reg, Function.update_of_ne (by decide), hu.reg,
      Function.update_of_ne (by decide), hm.s0]
  · change w.satp = _
    rw [hw.satp, hv.satp, hu.satp, hm.satp]
  · change Linear I w.mem
    rw [hmem]
    exact hm.linear
  · change LowHalf I.tables w.mem
    rw [hmem]
    exact hm.low
  · change Kept I h w.mem
    rw [hmem]
    exact hm.mem

/-- **The identity map goes.** -/
theorem dropped_of_high (hm : Mapped I h kernelVaOffset 13 t) :
    Eventually (Step I) (Dropped I h) t := by
  have hmaps : Maps t.satp t.mem kernelVaOffset := by
    rw [hm.satp]
    exact hm.linear.maps
  refine eventually_set ⟨hm.pc, hmaps⟩ rfl (fun _ => Iff.rfl) rfl fun u hu => ?_
  refine eventually_set hu.loc rfl (fun _ => Iff.rfl) rfl fun v hv => ?_
  have hcsr : exec I 15 v (.csrwStvec .t0) =
      some ({ v with stvec := v.reg .t0 }.goto (v.rel (I.line 15) (I.line 16))) := rfl
  refine eventually_exec hv.loc rfl (fun _ => Iff.rfl) hcsr ?_
  set w := { v with stvec := v.reg .t0 }.goto (v.rel (I.line 15) (I.line 16)) with hw
  have hloc : At I kernelVaOffset 16 w := ⟨rel_eq hv.loc.pc, hv.loc.maps⟩
  have hmem : w.mem = t.mem := hv.mem.trans hu.mem
  have hsatp : w.satp = makeSatp (framePa I.tables.pgd) := (hv.satp.trans hu.satp).trans hm.satp
  have hsp : w.reg .sp = kernelVaOffset + BitVec.ofNat 64 I.stackTop := by
    change v.reg .sp = _
    rw [hv.reg, Function.update_of_ne (by decide), hu.reg, Function.update_self, rel_eq hm.pc]
  have hs0 : w.reg .s0 = h.reg .a1 := by
    change v.reg .s0 = _
    rw [hv.reg, Function.update_of_ne (by decide), hu.reg, Function.update_of_ne (by decide), hm.s0]
  have hstvec : w.stvec = kernelVaOffset + BitVec.ofNat 64 I.handleException := by
    change v.reg .t0 = _
    rw [hv.reg, Function.update_self, rel_eq hu.loc.pc]
  have hlin : Linear I w.mem := by
    rw [hmem]
    exact hm.linear
  have hstores := dropStores_eq hlin hsatp hloc.pc
  have hi : (start I)[16]? = some .callDropIdentityMap := rfl
  have hstack := mapsStack_of_maps hloc.maps hsp
  -- the state in which `drop_identity_map` returns: the upper half is still mapped
  have hback : ∀ {r}, Returns I 16 I.dropRet w w.satp (dropIdentityMap I.tables w.mem) r →
      Linear I r.mem ∧ r.satp = makeSatp (framePa I.tables.pgd) ∧
        Maps r.satp r.mem kernelVaOffset := by
    intro r hr
    have hrlin : Linear I r.mem := Linear.congr
      ⟨dropIdentityMap_shared hlin.shared, dropIdentityMap_kernelHalf hlin.kernel⟩
      fun f hf => table_eq hr.mem hf
    have hrsatp : r.satp = makeSatp (framePa I.tables.pgd) := hr.satp.trans hsatp
    exact ⟨hrlin, hrsatp, by rw [hrsatp]; exact hrlin.maps⟩
  obtain ⟨r, hr⟩ := exists_returns I 16 I.dropRet w w.satp (dropIdentityMap I.tables w.mem)
  have hstack' := mapsStack_of_maps (hback hr).2.2 (hr.sp.trans hsp)
  refine .next ⟨r, (step_line hloc hi).2 ⟨hstack, hstack', _, hstores, hr⟩⟩ fun r hr => ?_
  obtain ⟨-, -, m, hdrop, hr⟩ := (step_line hloc hi).1 hr
  rw [hstores] at hdrop
  obtain rfl := Option.some.inj hdrop
  obtain ⟨hrlin, hrsatp, hrmaps⟩ := hback hr
  have htab : ∀ f, I.Table f → r.mem f = dropIdentityMap I.tables w.mem f :=
    fun f hf => table_eq hr.mem hf
  refine eventually_returns hrmaps (.inr rfl) hloc.pc hr (.here ?_)
  refine ⟨rfl, hr.s0.trans hs0, hr.sp.trans hsp, hrsatp, hr.stvec.trans hstvec, hrlin,
    fun j hj => ?_, hm.mem.congr fun x hx hx' => ?_⟩
  · change r.mem I.tables.pgd j = 0
    rw [htab _ (.inl rfl), hmem, dropIdentityMap_low hm.low hj]
  · change byteAt r.mem x = _
    rw [hr.mem x hx, byteAt_of_frame (dropIdentityMap_of_ne fun he => hx' (.inl he)), hmem]

theorem view_eq (hlin : Linear I t.mem) (hs : t.satp = makeSatp (framePa I.tables.pgd)) {x : ℕ}
    (hx : x < linearSize) : t.view (physToVirtAddr (BitVec.ofNat 64 x)) = byteAt t.mem x := by
  rw [Hart.view, physToVirtAddr, BitVec.add_comm, hs, hlin.translate_eq hx]

/-- **The way out.** -/
theorem started_of_dropped (hd : Dropped I h t) : Eventually (Step I) (Started I h) t := by
  have hmaps : Maps t.satp t.mem kernelVaOffset := by
    rw [hd.satp]
    exact hd.linear.maps
  refine eventually_set ⟨hd.pc, hmaps⟩ rfl (fun _ => Iff.rfl) rfl fun u hu => ?_
  refine eventually_set hu.loc rfl (fun _ => Iff.rfl) rfl fun v hv => ?_
  have htail : exec I 19 v (.tail I.startKernel) =
      some (v.goto (v.rel (I.line 19) I.startKernel)) := rfl
  refine eventually_exec hv.loc rfl (fun _ => Iff.rfl) htail (.here ?_)
  have hmem : v.mem = t.mem := hv.mem.trans hu.mem
  have hsatp : v.satp = makeSatp (framePa I.tables.pgd) := (hv.satp.trans hu.satp).trans hd.satp
  set w := v.goto (v.rel (I.line 19) I.startKernel) with hw
  have hlin : Linear I w.mem := by
    change Linear I v.mem
    rw [hmem]
    exact hd.linear
  have hk : Kept I h w.mem := by
    change Kept I h v.mem
    rw [hmem]
    exact hd.mem
  refine ⟨rel_eq hv.loc.pc, ?_, ?_, ?_, fun x hx => ?_, fun va hva => ?_, fun x h1 h2 h3 h4 => ?_,
    fun x hx hx' => ?_⟩
  · change v.reg .a0 = _
    rw [hv.reg, Function.update_self, hu.reg, Function.update_of_ne (by decide), Function.update_self,
      hd.s0, physToVirtAddr]
  · change v.reg .sp = _
    rw [hv.reg, Function.update_of_ne (by decide), hu.reg, Function.update_of_ne (by decide), hd.sp]
  · change v.stvec = _
    rw [hv.stvec, hu.stvec, hd.stvec]
  · rw [show w.satp = _ from hsatp, hlin.translate_eq hx]
    exact linearTo_flags x
  · rw [show w.satp = _ from hsatp]
    refine translate_empty (fun j hj => ?_) hva
    change v.mem I.tables.pgd j = 0
    rw [hmem, hd.empty j hj]
  · have hle := lt_limit I (show I.bssStop ≤ I.stackTop from
      I.bssStop_le.trans (Nat.le_add_right ..))
    unfold imageLimit at hle
    rw [view_eq hlin hsatp (by unfold linearSize earlyMapGib; omega), hk.cleared x h1 h2 h3 h4]
  · rw [view_eq hlin hsatp hx, hk.kept x hx']

end Calls

/-! ### The result -/

/-- **`start_kernel` is entered.** The firmware enters `_start` at the physical address of the image
with the translation off. Then `start_kernel` is reached on every way, at the address that it is linked
at, with the device tree's address in the upper half, a new stack and the vector of traps there, the
first 10 GiB of memory mapped and nothing in the lower half, the bss clear, and all memory outside of
the image as it was. -/
theorem start_reaches (I : Image) (h : Hart) (hpc : h.pc = BitVec.ofNat 64 (I.line 0))
    (hb : h.satp >>> 60 = 0) : Eventually (Step I) (Started I h) h :=
  (cleared_of_start hpc hb).bind fun _ hc => (mapped_of_cleared hc).bind fun _ hm =>
    (high_of_mapped hm).bind fun _ hh => (dropped_of_high hh).bind fun _ hd => started_of_dropped hd

/-! ### A small image -/

/-- An image with two frames of code, and the tables from the next frame on. -/
def smallImage : Image where
  tables := ⟨0x203, 0x204, 0x20e, by decide, by decide, by decide, by decide, by decide, by decide⟩
  line i := kernelStart + 8 * i
  setupVmRet := 0x201000
  dropRet := 0x201040
  handleException := 0x201080
  startKernel := 0x201100
  textStop := 0x202000
  bssStart := 0x202f00
  bssStop := 0x212008
  earlyPteUsed := 0x212000
  stackBottom := 0x212010
  kernelEnd := 0x217000
  line_mono a b hab := by
    dsimp only
    omega
  line_zero := rfl
  line_lt := by decide
  ret_lt := by decide
  ret_ne := by decide
  textStop_le := by decide
  bss_le := by decide
  bssStop_le := by decide
  stack_le := by decide
  kernelEnd_le := by decide
  tables_bss f hf := by
    simp only [earlyMapGib, earlyPteTables] at hf
    omega
  used_bss := by decide

/-- The hart of the firmware, with a device tree at `0x47f00000`. -/
def smallHart : Hart where
  pc := 0x200000
  reg r := if r = .a1 then 0x47f00000 else 0
  satp := 0
  stvec := 0
  mem f i := BitVec.ofNat 64 (f * 512 + i)

theorem start_reaches_small : Eventually (Step smallImage) (Started smallImage smallHart) smallHart :=
  start_reaches smallImage smallHart rfl (by decide)

end OscKernel.Boot.UpperHalf
