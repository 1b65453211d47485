import Mathlib.Logic.Relation
import OscKernel.UserMode.Exception
import OscKernel.UserMode.Program

/-! # What a program in user mode can do

The program that `exec` of `ex62` starts runs instructions of its own, stores to the pages that it may
write, and takes traps.

* `Step`: the steps of the program.
* `Confined`: it is in user mode, and all but its stack and the kernel stack is as `exec` left it.
* `program_of_run`: it finds its file at address `0` and never leaves its pages. -/

namespace OscKernel.UserMode.Sandbox

open OscKernel.Lib.Memory OscKernel.Lib.Sv39 OscKernel.Vm.Tables OscKernel.Initrd.KString
open OscKernel.Lib.Riscv (Cpu Reg ToSret)
open OscKernel.Initrd.Cpio (Entry Fields archive)
open OscKernel.Proc.Images (Within)
open OscKernel.UserMode.Pagewalk OscKernel.UserMode.Space OscKernel.UserMode.Program
  OscKernel.UserMode.Exception

/-! ### Steps -/

/-- Where the kernel stack ends: it has the last `0x4000` bytes of the image. -/
def stackLow (L : Layout) : Word := physToVirtAddr (BitVec.ofNat 64 (L.stop - 0x4000))

/-- A page for user mode. -/
def OfUser (l : Leaf) : Prop := l.flags.testBit 4 = true

/-- The program computes, stores a byte, or takes a trap, with whatever cause. -/
inductive Step (L : Layout) (base : Word) (callee : Cpu → Cpu) : Cpu → Cpu → Prop
  | compute {s : Cpu} (reg : Reg → Word) (pc : Word) (hm : s.mode = .user) :
      Step L base callee s { s with reg := reg, pc := pc }
  | store {s : Cpu} (va pc : Word) (v : Byte) (leaf : Leaf) (hm : s.mode = .user)
      (hl : translateAddr (framesOf s.mem) L.pgd va = some leaf) (hu : OfUser leaf)
      (hw : leaf.Writable) : Step L base callee s
        { s with
          mem := Function.update s.mem (physToVirtAddr (BitVec.ofNat 64 leaf.pa)) v
          pc := pc }
  | trap {s r : Cpu} (cause tval : Word)
      (hr : ToSret base handleException callee (s.takeTrap cause tval) r) : Step L base callee s r

/-- The states that the program comes to. -/
abbrev Runs (L : Layout) (base : Word) (callee : Cpu → Cpu) : Cpu → Cpu → Prop :=
  Relation.ReflTransGen (Step L base callee)

/-! ### The invariant -/

/-- The program is in user mode, and the bytes outside of its stack and of the kernel stack are those
of `m`. -/
structure Confined (L : Layout) (base sp : Word) (m : Mem) (s : Cpu) : Prop where
  mode : s.mode = .user
  stvec : s.csr .stvec = base
  sscratch : s.csr .sscratch = sp
  mem : ∀ a, ¬ Within (page (L.first + 3)) 4096 a →
    ¬ Within (stackLow L) (sp - (stackLow L)).toNat a → s.mem a = m a

section Invariant
variable {L : Layout} {base sp : Word} {callee : Cpu → Cpu} {m : Mem} {s s' : Cpu} {va : Word}
  {leaf : Leaf}

theorem stack_apart {f : ℕ} {a : Word} (hsp : sp.toNat ≤ L.image.toNat)
    (hlow : (stackLow L).toNat ≤ sp.toNat) (hf : f = L.pgd ∨ L.first ≤ f ∧ f < L.first + 6)
    (ha : Within (page f) 4096 a) : ¬ Within (stackLow L) (sp - (stackLow L)).toNat a := by
  obtain ⟨h1, h2, h3, h4⟩ := L.bounds
  have h5 := L.pgd_le
  have h6 := L.stop_le
  have hlt : f < linearFrames := by omega
  have hpage := page_toNat hlt
  have himage : L.image.toNat = 2 ^ 64 - 2 ^ 38 + L.stop := physToVirt_toNat (by omega)
  have hstack : (stackLow L).toNat = 2 ^ 64 - 2 ^ 38 + (L.stop - 0x4000) := physToVirt_toNat (by omega)
  have hspan : (sp - (stackLow L)).toNat = sp.toNat - (stackLow L).toNat := by
    have := sp.isLt
    rw [BitVec.toNat_sub]
    omega
  unfold linearFrames at hlt
  rw [Proc.Images.within_iff (by omega), hpage] at ha
  rw [Proc.Images.within_iff (by omega), hspan]
  omega

/-- **What addresses mean** does not change. -/
theorem Confined.space (h : Confined L base sp m s) (hsp : sp.toNat ≤ L.image.toNat)
    (hlow : (stackLow L).toNat ≤ sp.toNat) (hm : UserSpace (framesOf m) L.pgd L.first) :
    UserSpace (framesOf s.mem) L.pgd L.first := by
  obtain ⟨h1, h2, h3, h4⟩ := L.bounds
  refine hm.congr fun f hf => ?_
  have hf' : f = L.pgd ∨ L.first ≤ f ∧ f < L.first + 6 := by
    simp only [tables, Set.mem_insert_iff, Set.mem_singleton_iff] at hf
    omega
  have hne : f ≠ L.first + 3 := by
    simp only [tables, Set.mem_insert_iff, Set.mem_singleton_iff] at hf
    omega
  refine framesOf_congr (by omega) fun a ha => h.mem a (fun hw => hne ?_) (stack_apart hsp hlow hf' ha)
  exact page_unique (by omega) (by omega) ha hw

theorem writable_eq (hs : UserSpace (framesOf m) L.pgd L.first)
    (hl : translateAddr (framesOf m) L.pgd va = some leaf) (hu : OfUser leaf) (hw : leaf.Writable) :
    Within (page (L.first + 3)) 4096 (physToVirtAddr (BitVec.ofNat 64 leaf.pa)) := by
  obtain ⟨h1, h2, h3, h4⟩ := L.bounds
  rw [hs.translate h4, userView] at hl
  have hrx : protUserRx.toNat.testBit 2 = false := by decide
  have hker : kernelPageFlags.toNat.testBit 4 = false := by decide
  unfold OfUser at hu
  unfold Leaf.Writable at hw
  split_ifs at hl <;> obtain rfl := Option.some.inj hl
  · rw [hrx] at hw
    cases hw
  · have hpage := page_toNat (f := L.first + 3) (by omega)
    have hlt := Nat.mod_lt va.toNat (show 0 < 4096 by decide)
    rw [Proc.Images.within_iff (by omega), hpage]
    dsimp only
    rw [physToVirt_toNat (by omega)]
    omega
  · rw [hker] at hu
    cases hu

/-- **One step** of the program. -/
theorem Confined.step (hc : Compiled (stackLow L) callee) (hsp : sp.toNat ≤ L.image.toNat)
    (hlow : (stackLow L).toNat + 280 ≤ sp.toNat) (hm : UserSpace (framesOf m) L.pgd L.first)
    (h : Confined L base sp m s) (hs : Step L base callee s s') : Confined L base sp m s' := by
  cases hs with
  | compute reg pc _ => exact ⟨h.mode, h.stvec, h.sscratch, h.mem⟩
  | store va pc v leaf _ hl hu hw =>
    have hpage := writable_eq (h.space hsp (by omega) hm) hl hu hw
    refine ⟨h.mode, h.stvec, h.sscratch, fun a ha ha' => ?_⟩
    have hne : a ≠ physToVirtAddr (BitVec.ofNat 64 leaf.pa) := fun he => ha (he ▸ hpage)
    have hsame := h.mem a ha ha'
    rwa [← Function.update_of_ne hne v s.mem] at hsame
  | trap cause tval hr =>
    obtain ⟨r, hr', hret⟩ := trap_user cause tval h.stvec h.mode
      (by rw [h.sscratch]; exact hlow) hc
    obtain rfl := hr.unique hr'
    refine ⟨hret.mode, hret.stvec, hret.sscratch.trans h.sscratch, fun a ha ha' => ?_⟩
    rw [hret.mem a (by rwa [h.sscratch]), h.mem a ha ha']

theorem Confined.run (hc : Compiled (stackLow L) callee) (hsp : sp.toNat ≤ L.image.toNat)
    (hlow : (stackLow L).toNat + 280 ≤ sp.toNat) (hm : UserSpace (framesOf m) L.pgd L.first)
    (h : Confined L base sp m s) (hr : Runs L base callee s s') : Confined L base sp m s' := by
  induction hr with
  | refl => exact h
  | tail _ hs ih => exact ih.step hc hsp hlow hm hs

end Invariant

/-! ### The result -/

/-- What holds while the program of the file `data` runs: addresses mean the program, its stack or, for
the kernel only, the linear mapping; the program is that of the file; what `exec` did not write to and
is not on the kernel stack is as it was in `m`; and a trap goes on behind its instruction. -/
structure Sandboxed (L : Layout) (base : Word) (callee : Cpu → Cpu) (data : List Byte) (m : Mem)
    (s : Cpu) : Prop where
  mode : s.mode = .user
  view : ∀ va, translateAddr (framesOf s.mem) L.pgd va = userView L.first va
  program : Placed s.mem (page L.first) data
  kernel : ∀ a, (∀ f ∈ footprint L.pgd L.first, ¬ Within (page f) 4096 a) →
    ¬ Within (stackLow L) (L.image - stackLow L).toNat a → s.mem a = m a
  trap : ∀ cause tval, ∃ r, ToSret base handleException callee (s.takeTrap cause tval) r ∧
    Returned base (stackLow L) s r

section Result
variable {L : Layout} {base : Word} {callee : Cpu → Cpu} {m : Mem} {c u s : Cpu} {es : List Entry}
  {e : Entry} {f : Fields} {filename : ℕ → Byte} {l : List Byte}

theorem toUser_spec (c : Cpu) : (toUser c).mode = .user ∧ (toUser c).pc = 0 ∧
    (toUser c).get .sp = 0x4000000000 ∧ (toUser c).csr .sscratch = c.get .sp ∧
    (toUser c).csr .stvec = c.csr .stvec ∧ (toUser c).mem = c.mem := by
  have hbit : ∀ v : Word, (v &&& ~~~(1 <<< 8 : Word)).getLsbD 8 = false := fun v => by
    rw [BitVec.getLsbD_and]
    have h : (~~~(1 <<< 8 : Word)).getLsbD 8 = false := by decide
    rw [h, Bool.and_false]
  refine ⟨?_, rfl, rfl, rfl, rfl, rfl⟩
  change Lib.Riscv.Mode.ofSpp ((c.csr .sstatus &&& ~~~(1 <<< 8 : Word)).getLsbD 8) = _
  rw [hbit]
  rfl

theorem boot_memory (h0 : ∀ i, framesOf m L.pgd i = 0) (hp : Placed m initrdBase (archive es f))
    (hfit : 0x88200000 + (archive es f).length ≤ 2 ^ 38) :
    (∀ i, framesOf (setupVm (page L.pgd) m) L.pgd i = bootEntry i) ∧
      Placed (setupVm (page L.pgd) m) initrdBase (archive es f) := by
  obtain ⟨h1, h2, h3, h4⟩ := L.bounds
  refine ⟨fun i => setupVm_root (by omega) h0, fun i hi => ?_⟩
  rw [← hp i hi]
  refine setupVm_keeps _ fun x hx hw => ?_
  obtain rfl : x = L.pgd := hx
  have hpage := page_toNat (f := L.pgd) (by omega)
  have hbase : initrdBase.toNat = 2 ^ 64 - 2 ^ 38 + 0x88200000 := by decide
  rw [Proc.Images.within_iff (by omega), hpage, BitVec.toNat_add, hbase, BitVec.toNat_ofNat] at hw
  omega

theorem Confined.sandboxed {m' : Mem} {data : List Byte} (hc : Compiled (stackLow L) callee)
    (hsp : (c.get .sp).toNat ≤ L.image.toNat) (hlow : (stackLow L).toNat + 280 ≤ (c.get .sp).toNat)
    (hm : UserSpace (framesOf m') L.pgd L.first) (hdata : Placed m' (page L.first) data)
    (hlen : data.length ≤ 4096) (hk : Keeps (footprint L.pgd L.first) m m')
    (h : Confined L base (c.get .sp) m' s) : Sandboxed L base callee data m s := by
  obtain ⟨h1, h2, h3, h4⟩ := L.bounds
  have himage := L.image.isLt
  have hsame : ∀ a, ¬ Within (page (L.first + 3)) 4096 a →
      ¬ Within (stackLow L) (L.image - stackLow L).toNat a → s.mem a = m' a := fun a ha ha' =>
    h.mem a ha fun hw => ha' <| by
      have hle : (c.get .sp - stackLow L).toNat ≤ (L.image - stackLow L).toNat := by
        rw [BitVec.toNat_sub, BitVec.toNat_sub]
        omega
      exact lt_of_lt_of_le hw hle
  refine ⟨h.mode, fun va => (h.space hsp (by omega) hm).translate h4, fun i hi => ?_,
    fun a ha ha' => ?_, fun cause tval => ?_⟩
  · have hpage := within_page (show i < 4096 by omega) L.first
    rw [← hdata i hi]
    refine h.mem _ (fun hw => ?_) (stack_apart hsp (by omega) (.inr ⟨le_refl _, by omega⟩) hpage)
    have := page_unique (by omega) (by omega) hw hpage
    omega
  · rw [hsame a (ha _ (.inr ⟨by omega, by omega⟩)) ha', hk a ha]
  · exact trap_user cause tval h.stvec h.mode (by rw [h.sscratch]; exact hlow) hc

/-- **The program of the archive runs, and only it.** Without a file of the name `exec` returns -1. With
one of a page at most it drops to user mode at address `0`, and then, whatever the program computes,
stores and traps on, it finds its file at address `0`, has one page for its stack besides, and cannot
get at anything else. -/
theorem program_of_run (h0 : ∀ i, framesOf m L.pgd i = 0) (hc : c.mem = setupVm (page L.pgd) m)
    (hp : Placed m initrdBase (archive es f))
    (hfit : 0x88200000 + (archive es f).length ≤ 2 ^ 38) (hok : ∀ x ∈ es, Packed x)
    (hl : Reads filename l) (hb : c.csr .stvec = base) (hcallee : Compiled (stackLow L) callee)
    (hsp : (c.get .sp).toNat ≤ L.image.toNat)
    (hlow : (stackLow L).toNat + 280 ≤ (c.get .sp).toNat) :
    (es.find? (·.name = l) = none → exec (page L.pgd) L.image filename c = some none) ∧
      ∀ e, es.find? (·.name = l) = some e → 0 < e.data.length → e.data.length ≤ 4096 →
        ∃ u, exec (page L.pgd) L.image filename c = some (some u) ∧ u.pc = 0 ∧
          u.get .sp = 0x4000000000 ∧
          ∀ s, Runs L base callee u s → Sandboxed L base callee e.data c.mem s := by
  obtain ⟨hboot, harch⟩ := boot_memory h0 hp hfit
  rw [← hc] at hboot harch
  refine ⟨exec_none harch hfit hok hl, fun e he hpos hlen => ?_⟩
  obtain ⟨m', hexec, hspace, hdata, hkeep⟩ := exec_named hboot harch hfit hok hl he hpos hlen
  obtain ⟨hmode, hpc, hstack, hscratch, hstvec, hmem⟩ := toUser_spec { c with mem := m' }
  have hstart : Confined L base (c.get .sp) m' (toUser { c with mem := m' }) :=
    ⟨hmode, hstvec.trans hb, hscratch, fun a _ _ => by rw [hmem]⟩
  exact ⟨_, hexec, hpc, hstack, fun s hr =>
    (hstart.run hcallee hsp hlow hspace hr).sandboxed hcallee hsp hlow hspace hdata hlen hkeep⟩

end Result

/-! ### A program that stores a byte and traps -/

/-- The kernel up to `0x80210000`, with `pgd` at `0x80202000`. -/
def sampleLayout : Layout := ⟨0x80202, 0x80210000, by decide, by decide⟩

def sampleFields : Fields := ⟨true, 1, 0x81a4, 0, 0, 1, 0, 0, 0, 0, 0, 0⟩

/-- `ecall`, and a jump to itself. -/
def sampleEntry : Entry := ⟨sampleFields, ascii "prog.bin", [0x73, 0, 0, 0, 0x6f, 0, 0, 0]⟩

/-- The archive, and nothing else. -/
def sampleMem : Mem := fun a => (archive [sampleEntry] sampleFields).getD (a - initrdBase).toNat 0

def sampleCpu : Cpu where
  reg := fun r => if r = .sp then 0xffffffc08020ffc0 else 0
  csr := fun q => if q = .stvec then 0xffffffc080200040 else 0
  mode := .supervisor
  pc := 0xffffffc080200800
  mem := setupVm (page sampleLayout.pgd) sampleMem

/-- A `do_trap` that uses no stack. -/
def sampleCallee (s : Cpu) : Cpu := { s with mem := doTrap (s.reg .a0) s.mem }

theorem length_sample : (archive [sampleEntry] sampleFields).length = 252 := by decide +kernel

theorem sampleMem_outside {a : Word} (h : 252 ≤ (a - initrdBase).toNat) : sampleMem a = 0 :=
  List.getD_eq_default _ _ (by rw [length_sample]; exact h)

theorem program_of_run_sample : ∃ u s, exec (page sampleLayout.pgd) sampleLayout.image
      (literal "prog.bin") sampleCpu = some (some u) ∧
    Runs sampleLayout 0xffffffc080200040 sampleCallee u s ∧ s.pc = 8 ∧
    Sandboxed sampleLayout 0xffffffc080200040 sampleCallee sampleEntry.data sampleCpu.mem s := by
  have h0 : ∀ i, framesOf sampleMem sampleLayout.pgd i = 0 := fun i => by
    have hlt : sampleLayout.pgd < linearFrames := by decide
    have hz : framesOf sampleMem sampleLayout.pgd = framesOf (fun _ => 0) sampleLayout.pgd :=
      framesOf_congr hlt fun a ha => sampleMem_outside <| by
        have hpage := page_toNat hlt
        have hbase : initrdBase.toNat = 2 ^ 64 - 2 ^ 38 + 0x88200000 := by decide
        have hframe : sampleLayout.pgd = 0x80202 := rfl
        rw [Proc.Images.within_iff (by omega), hpage] at ha
        rw [BitVec.toNat_sub]
        omega
    rw [hz, framesOf, if_pos hlt]
    rfl
  have hp : Placed sampleMem initrdBase (archive [sampleEntry] sampleFields) := fun i hi => by
    have hsub : (initrdBase + BitVec.ofNat 64 i - initrdBase).toNat = i := by
      rw [length_sample] at hi
      bv_omega
    rw [bytesAt, sampleMem, hsub, List.getD_eq_getElem _ _ hi]
  have hok : ∀ x ∈ [sampleEntry], Packed x := fun x hx => by
    rw [List.mem_singleton.1 hx]
    exact ⟨rfl, by decide, by decide, by decide⟩
  have hcallee : Compiled (stackLow sampleLayout) sampleCallee := fun s => ⟨rfl, rfl, rfl, rfl,
    fun _ _ => rfl⟩
  obtain ⟨u, hexec, hpc, -, hrun⟩ := (program_of_run (c := sampleCpu) h0 rfl hp
    (by rw [length_sample]; decide) hok (reads_literal (s := "prog.bin") (by decide)) rfl hcallee
    (by decide) (by decide)).2 sampleEntry (List.find?_cons_of_pos (by decide)) (by decide) (by decide)
  -- a store to the stack
  have hview := (hrun u .refl).view 0x3ffffffff8
  rw [userView, if_neg (by decide), if_pos (by decide)] at hview
  have h1 : Step sampleLayout 0xffffffc080200040 sampleCallee u _ := .store 0x3ffffffff8 4 7 _
    (hrun u .refl).mode hview (by unfold OfUser; decide) (by unfold Leaf.Writable; decide)
  -- a trap
  obtain ⟨r, hr, hret⟩ := (hrun _ (.single h1)).trap 8 0
  have h2 := (Relation.ReflTransGen.single h1).tail (Step.trap 8 0 hr)
  exact ⟨u, r, hexec, h2, hret.pc, hrun r h2⟩

end OscKernel.UserMode.Sandbox
