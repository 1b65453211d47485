import OscKernel.Lib.Riscv
import OscKernel.Proc.Images

/-! # `handle_exception` of the exercise on user mode

The trap entry and exit of `start.S` of `ex62`, instruction by instruction, for a trap from user mode:
the kernel stack pointer waits in `sscratch`, and the registers are kept below it.

* `handleException`, `doTrap`: the source.
* `entry_run`, `exit_run`: the two halves.
* `trap_user`: the program goes on behind the instruction that trapped. -/

namespace OscKernel.UserMode.Exception

open OscKernel.Lib.Memory OscKernel.Lib.Riscv
open OscKernel.Proc.Images (Within)

/-! ### The source -/

/-- The registers that the entry saves and the exit restores, in the order of the listing; slot `k` is
the field at offset `8 * k` of `struct pt_regs`. -/
def savedRegs : List (ℕ × Reg) :=
  [(0, .ra), (2, .gp), (3, .tp), (4, .t0), (5, .t1), (6, .t2), (7, .s0), (8, .s1), (9, .a0),
    (10, .a1), (11, .a2), (12, .a3), (13, .a4), (14, .a5), (15, .a6), (16, .a7), (17, .s2),
    (18, .s3), (19, .s4), (20, .s5), (21, .s6), (22, .s7), (23, .s8), (24, .s9), (25, .s10),
    (26, .s11), (27, .t3), (28, .t4), (29, .t5), (30, .t6)]

/-- The size of `struct pt_regs`. -/
def frameSize : Word := 8 * 35

/-- The CSRs, through `s0` to `s4`, up to `call do_trap`. -/
def saveCsrs : List Instr :=
  [.csrr .s0 .sscratch, .csrr .s1 .sepc, .csrr .s2 .sstatus, .csrr .s3 .scause, .csrr .s4 .stval,
    .sd .s0 1 .sp, .sd .s1 31 .sp, .sd .s2 32 .sp, .sd .s3 33 .sp, .sd .s4 34 .sp,
    .csrw .sscratch .zero, .mv .a0 .sp]

/-- The entry up to `call do_trap`; the target of the branch is `save_context`. -/
def entry : List Instr :=
  [.csrrw .sp .sscratch .sp, .bnez .sp 2, .csrr .sp .sscratch, .addi .sp .sp (-frameSize)] ++
    savedRegs.map (fun p => .sd p.2 p.1 .sp) ++ saveCsrs

/-- `ret_from_exception` up to the label `1`. -/
def leave : List Instr :=
  [.ld .s0 32 .sp, .andi .s0 .s0 0x100, .bnez .s0 3, .addi .s0 .sp frameSize, .csrw .sscratch .s0]

/-- The rest up to `sret`. -/
def restore : List Instr :=
  [.ld .s1 31 .sp, .ld .s2 32 .sp, .csrw .sepc .s1, .csrw .sstatus .s2] ++
    savedRegs.map (fun p => .ld p.2 p.1 .sp) ++ [.ld .sp 1 .sp]

/-- **`handle_exception`.** -/
def handleException : List Instr := entry ++ [.call] ++ leave ++ restore ++ [.sret]

/-- What `do_trap` does to memory. -/
def doTrap (regs : Word) (m : Mem) : Mem := store m (slot regs 31) (load m (slot regs 31) + 4)

/-- The compiled `do_trap`, on a stack that reaches down to `low`: it gives the stack pointer back and
touches no CSR. -/
def Compiled (low : Word) (callee : Cpu → Cpu) : Prop :=
  ∀ s, (callee s).reg .sp = s.reg .sp ∧ (callee s).pc = s.pc ∧ (callee s).csr = s.csr ∧
    (callee s).mode = s.mode ∧
    ∀ a, ¬ Within low (s.reg .sp - low).toNat a → (callee s).mem a = doTrap (s.reg .a0) s.mem a

/-! ### One trap -/

section Trap
variable {base low : Word} {callee : Cpu → Cpu} {c s : Cpu} {cause tval : Word}

/-- The frame of a trap that the program takes. -/
def frameStores (c : Cpu) (cause tval : Word) : List (ℕ × Word) :=
  savedRegs.map (fun p => (p.1, c.reg p.2)) ++
    [(1, c.reg .sp), (31, c.pc), (32, (c.takeTrap cause tval).csr .sstatus), (33, cause), (34, tval)]

/-- The address of the frame. -/
def frameOf (c : Cpu) : Word := c.csr .sscratch - frameSize

/-- The state at `call do_trap`. -/
structure AtCall (base : Word) (c : Cpu) (cause tval : Word) (s : Cpu) : Prop where
  sp : s.reg .sp = frameOf c
  a0 : s.reg .a0 = frameOf c
  mem : s.mem = stores c.mem (frameOf c) (frameStores c cause tval)
  stvec : s.csr .stvec = base
  pc : s.pc = base + BitVec.ofNat 64 (4 * 46)

theorem stores_append (m : Mem) (b : Word) : ∀ l l' : List (ℕ × Word),
    stores m b (l ++ l') = stores (stores m b l) b l'
  | [], _ => rfl
  | (_, _) :: l, l' => stores_append _ b l l'

/-- **The entry** of a trap from user mode. -/
theorem entry_run (cause tval : Word) (hb : c.csr .stvec = base) (hk : c.csr .sscratch ≠ 0) :
    ∃ s, Steps base handleException (c.takeTrap cause tval) s ∧ AtCall base c cause tval s := by
  have h1 : Steps base handleException (c.takeTrap cause tval) _ :=
    Steps.segment (k := 0) [.csrrw .sp .sscratch .sp] (by decide) (by decide) (by decide)
      (by simp [hb])
  have h2 := h1.trans (Steps.bnez_taken (k := 1) (d := 2) (r := .sp) (by rfl) (by decide)
    (by rw [pc_execAll _ _ (by decide)]; simp [hb])
    (by simpa [exec, Cpu.next, Cpu.set, Cpu.setCsr, Cpu.get] using hk))
  have h3 := h2.trans (Steps.segment (k := 3) ([.addi .sp .sp (-frameSize)] ++
    savedRegs.map (fun p => .sd p.2 p.1 .sp) ++ saveCsrs) (by decide) (by decide) (by decide) rfl)
  refine ⟨_, h3, ?_⟩
  have hfr : c.csr .sscratch + -frameSize = frameOf c := by
    rw [frameOf, BitVec.sub_eq_add_neg]
  rw [execAll_append, execAll_append, execAll_sds]
  have hregs : ∀ c' : Cpu, (∀ r, r ≠ .sp → c'.reg r = c.reg r) →
      savedRegs.map (fun p => (p.1, c'.get p.2)) = savedRegs.map (fun p => (p.1, c.reg p.2)) := by
    intro c' h
    refine List.map_congr_left fun p hp => ?_
    have hp' : p.2 ≠ .sp ∧ p.2 ≠ .zero := by revert p; decide
    rw [Cpu.get, if_neg hp'.2, h _ hp'.1]
  rw [hregs _ fun r hr => by simp [exec, Cpu.next, Cpu.set, Cpu.setCsr, Cpu.get, hr]]
  constructor
  · simp [saveCsrs, exec, Cpu.next, Cpu.set, Cpu.setCsr, Cpu.get, hfr]
  · simp [saveCsrs, exec, Cpu.next, Cpu.set, Cpu.setCsr, Cpu.get, hfr]
  · rw [frameStores, stores_append]
    simp [saveCsrs, exec, Cpu.next, Cpu.set, Cpu.setCsr, Cpu.get, hfr, stores, Cpu.takeTrap]
  · simp [saveCsrs, exec, Cpu.next, Cpu.set, Cpu.setCsr, Cpu.get, Cpu.takeTrap, hb]
  · simp [saveCsrs, savedRegs, exec, Cpu.next, Cpu.set, Cpu.setCsr, Cpu.get]
    bv_omega

/-- What the exit restores from the frame at the stack pointer of `u`, if the frame is that of a trap
from user mode. -/
structure Resumed (u r : Cpu) : Prop where
  reg : ∀ p ∈ savedRegs, r.reg p.2 = load u.mem (slot (u.reg .sp) p.1)
  sp : r.reg .sp = load u.mem (slot (u.reg .sp) 1)
  pc : r.pc = load u.mem (slot (u.reg .sp) 31)
  mode : r.mode = .user
  sscratch : r.csr .sscratch = u.reg .sp + frameSize
  stvec : r.csr .stvec = u.csr .stvec
  mem : r.mem = u.mem

/-- **The exit** to user mode. -/
theorem exit_run {u : Cpu} (callee : Cpu → Cpu) (hpc : u.pc = base + BitVec.ofNat 64 (4 * 47))
    (hspp : (load u.mem (slot (u.reg .sp) 32)).getLsbD sppBit = false) :
    ∃ r, ToSret base handleException callee u r ∧ Resumed u r := by
  have hand : load u.mem (slot (u.reg .sp) 32) &&& 0x100 = 0 := by
    have h := BitVec.and_twoPow (load u.mem (slot (u.reg .sp) 32)) 8
    rw [show (0x100 : Word) = BitVec.twoPow 64 8 from rfl, h, show (8 : ℕ) = sppBit from rfl, hspp]
    rfl
  have h1 : Steps base handleException u _ :=
    Steps.segment (k := 47) [.ld .s0 32 .sp, .andi .s0 .s0 0x100] (by decide) (by decide) (by decide)
      hpc
  have h2 := h1.trans (Steps.bnez_next (k := 49) (d := 3) (r := .s0) (by rfl) (by decide)
    (by rw [pc_execAll _ _ (by decide), hpc]; simp; bv_omega)
    (by simpa [exec, Cpu.next, Cpu.set, Cpu.get] using hand))
  have h3 := h2.trans (Steps.segment (k := 50) ([.addi .s0 .sp frameSize, .csrw .sscratch .s0,
    .ld .s1 31 .sp, .ld .s2 32 .sp, .csrw .sepc .s1, .csrw .sstatus .s2] ++
    savedRegs.map (fun p => .ld p.2 p.1 .sp) ++ [.ld .sp 1 .sp]) (by decide) (by decide) (by decide)
    rfl)
  have hne : ∀ p ∈ savedRegs, p.2 ≠ .sp ∧ p.2 ≠ .zero := by decide
  have hl : lastLoad .sp savedRegs = none := by decide
  refine ⟨_, h3.toSret (.sret ?_), ?_⟩
  · rw [pc_execAll _ _ (by decide)]
    change fetch base handleException (base + BitVec.ofNat 64 (4 * (49 + 1)) + _) = _
    rw [BitVec.add_assoc, ← BitVec.ofNat_add, ← Nat.mul_add, fetch_at (by decide)]
    rfl
  · rw [execAll_append, execAll_append, execAll_lds .sp _ _ hne]
    constructor
    · intro p hp
      obtain ⟨h1, h2⟩ := hne p hp
      have hl : lastLoad p.2 savedRegs = some p.1 := by revert p; decide
      simp [exec, Cpu.next, Cpu.set, Cpu.setCsr, Cpu.get, Cpu.sret, h1, hl]
    case mode =>
      simp [exec, Cpu.next, Cpu.set, Cpu.setCsr, Cpu.get, Cpu.sret, hspp, Mode.ofSpp]
    all_goals
      simp [exec, Cpu.next, Cpu.set, Cpu.setCsr, Cpu.get, Cpu.sret, hl]

theorem stores_outside {m : Mem} {b a : Word} {l : List (ℕ × Word)} (hl : ∀ p ∈ l, p.1 < 35)
    (ha : ¬ Within b 280 a) : stores m b l a = m a := by
  induction l generalizing m with
  | nil => rfl
  | cons p l ih =>
    have hp := hl p (by simp)
    have hfar : ¬ (a - slot b p.1).toNat < 8 := fun h => ha <| by
      unfold Within
      unfold slot at h
      bv_omega
    rw [stores, ih fun q hq => hl q (by simp [hq]), store, if_neg hfar]

/-- The frame when `do_trap` returns. -/
def returnStores (c : Cpu) (cause tval : Word) : List (ℕ × Word) :=
  frameStores c cause tval ++ [(31, c.pc + 4)]

theorem returnStores_lt (c : Cpu) (cause tval : Word) :
    ∀ p ∈ returnStores c cause tval, p.1 < 35 := by
  simp [returnStores, frameStores, savedRegs]

theorem doTrap_stores (m : Mem) (b : Word) :
    doTrap b (stores m b (frameStores c cause tval)) = stores m b (returnStores c cause tval) := by
  have hlt : ∀ p ∈ frameStores c cause tval, p.1 < 2 ^ 60 := fun p hp =>
    (returnStores_lt c cause tval p (List.mem_append_left _ hp)).trans (by decide)
  have hload : load (stores m b (frameStores c cause tval)) (slot b 31) = c.pc := by
    rw [load_stores b (by decide) _ _ hlt]
    rfl
  rw [doTrap, hload, returnStores, stores_append]
  rfl

theorem lastStore_append (k : ℕ) (l l' : List (ℕ × Word)) :
    lastStore k (l ++ l') = (lastStore k l').or (lastStore k l) := by
  induction l with
  | nil => rw [List.nil_append, lastStore, Option.or_none]
  | cons p l ih => rw [List.cons_append, lastStore, ih, lastStore, Option.or_assoc]

theorem lastStore_of_ne {k : ℕ} {l : List (ℕ × Word)} (h : ∀ p ∈ l, p.1 ≠ k) :
    lastStore k l = none := by
  induction l with
  | nil => rfl
  | cons p l ih =>
    rw [lastStore, ih fun q hq => h q (List.mem_cons_of_mem _ hq), if_neg (h p (by simp)),
      Option.or_none]

/-- Each register has a slot of its own. -/
theorem lastStore_map {l : List (ℕ × Reg)} (hl : (l.map Prod.fst).Nodup) {p : ℕ × Reg} (hp : p ∈ l)
    (v : Reg → Word) : lastStore p.1 (l.map fun q => (q.1, v q.2)) = some (v p.2) := by
  induction l with
  | nil => cases hp
  | cons q l ih =>
    rw [List.map_cons, List.nodup_cons] at hl
    rw [List.map_cons, lastStore]
    rcases List.mem_cons.1 hp with rfl | hp
    · rw [lastStore_of_ne, Option.none_or, if_pos rfl]
      intro x hx he
      obtain ⟨y, hy, rfl⟩ := List.mem_map.1 hx
      exact hl.1 (he ▸ List.mem_map_of_mem hy)
    · rw [ih hl.2 hp, Option.some_or]

theorem lastStore_savedRegs (c : Cpu) (cause tval : Word) :
    ∀ p ∈ savedRegs, lastStore p.1 (returnStores c cause tval) = some (c.reg p.2) := by
  intro p hp
  have hslots : ∀ p ∈ savedRegs, p.1 ∉ [1, 31, 32, 33, 34, 31] := by decide
  rw [returnStores, frameStores, List.append_assoc, lastStore_append,
    lastStore_map (by decide) hp c.reg, lastStore_of_ne, Option.none_or]
  intro x hx he
  exact hslots p hp (he ▸ List.mem_map_of_mem hx)

theorem lastStore_csrs (c : Cpu) (cause tval : Word) :
    lastStore 1 (returnStores c cause tval) = some (c.reg .sp) ∧
      lastStore 31 (returnStores c cause tval) = some (c.pc + 4) ∧
      lastStore 32 (returnStores c cause tval) = some ((c.takeTrap cause tval).csr .sstatus) := by
  simp [savedRegs, returnStores, frameStores, lastStore]

theorem mem_savedRegs {q : Reg} (h0 : q ≠ .zero) (hsp : q ≠ .sp) : ∃ k < 35, (k, q) ∈ savedRegs := by
  cases q <;> first | exact absurd rfl h0 | exact absurd rfl hsp | skip
  all_goals simp [savedRegs]

/-- The state in which the program goes on: behind the instruction, with its registers, and with the
memory that is not on the kernel stack as it was. -/
structure Returned (base low : Word) (c r : Cpu) : Prop where
  reg : ∀ q, r.get q = c.get q
  pc : r.pc = c.pc + 4
  mode : r.mode = .user
  sscratch : r.csr .sscratch = c.csr .sscratch
  stvec : r.csr .stvec = base
  mem : ∀ a, ¬ Within low (c.csr .sscratch - low).toNat a → r.mem a = c.mem a

/-- **One trap from user mode.** -/
theorem trap_user (cause tval : Word) (hb : c.csr .stvec = base) (hm : c.mode = .user)
    (hk : low.toNat + 280 ≤ (c.csr .sscratch).toNat) (hc : Compiled low callee) :
    ∃ r, ToSret base handleException callee (c.takeTrap cause tval) r ∧ Returned base low c r := by
  have hK := (c.csr .sscratch).isLt
  have hF : (frameOf c).toNat = (c.csr .sscratch).toNat - 280 := by
    have h280 : frameSize.toNat = 280 := by decide
    rw [frameOf, BitVec.toNat_sub, h280]
    omega
  have hspan : (frameOf c - low).toNat = (c.csr .sscratch).toNat - 280 - low.toNat := by
    rw [BitVec.toNat_sub, hF]
    omega
  have hspan' : (c.csr .sscratch - low).toNat = (c.csr .sscratch).toNat - low.toNat := by
    rw [BitVec.toNat_sub]
    omega
  obtain ⟨s, hs, hat⟩ := entry_run cause tval hb fun h0 => by
    rw [h0] at hk
    exact absurd hk (by simp)
  obtain ⟨hsp, hpc, hcsr, -, hmem⟩ := hc s
  obtain ⟨hslot1, hslot31, hslot32⟩ := lastStore_csrs c cause tval
  rw [hat.sp, hspan, hat.a0, hat.mem, doTrap_stores] at hmem
  -- the slots of the frame
  have hload : ∀ k < 35, ∀ v, lastStore k (returnStores c cause tval) = some v →
      load (callee s).next.mem (slot ((callee s).next.reg .sp) k) = v := by
    intro k hk' v hv
    have hlt : ∀ p ∈ returnStores c cause tval, p.1 < 2 ^ 60 := fun p hp =>
      (returnStores_lt c cause tval p hp).trans (by decide)
    have hsame : load (callee s).mem (slot (frameOf c) k) =
        load (stores c.mem (frameOf c) (returnStores c cause tval)) (slot (frameOf c) k) :=
      load_congr fun i hi => hmem _ fun hw => by
        rw [Proc.Images.within_iff (by omega), slot, BitVec.toNat_add, BitVec.toNat_add,
          BitVec.toNat_ofNat, BitVec.toNat_ofNat] at hw
        omega
    simp only [Cpu.next, hsp, hat.sp]
    rw [hsame, load_stores _ (by omega) _ _ hlt, hv, Option.getD_some]
  have hspp : (load (callee s).next.mem (slot ((callee s).next.reg .sp) 32)).getLsbD sppBit =
      false := by
    rw [hload 32 (by decide) _ hslot32]
    simp only [Cpu.takeTrap, trapStatus_spp, hm, Mode.toSpp]
  have hpc' : (callee s).next.pc = base + BitVec.ofNat 64 (4 * 47) := by
    rw [Cpu.next, hpc, hat.pc]
    bv_omega
  obtain ⟨r, hr, hres⟩ := exit_run callee hpc' hspp
  have hcall : fetch base handleException s.pc = some .call := by
    rw [hat.pc, fetch_at (by decide)]
    rfl
  refine ⟨r, hs.toSret (.call hcall hr), ?_, ?_, hres.mode, ?_, ?_, ?_⟩
  · intro q
    by_cases h0 : q = .zero
    · simp [Cpu.get, h0]
    · rw [Cpu.get, if_neg h0, Cpu.get, if_neg h0]
      by_cases hq : q = .sp
      · rw [hq, hres.sp]
        exact hload 1 (by decide) _ hslot1
      · obtain ⟨k, hk', hmem'⟩ := mem_savedRegs h0 hq
        have hslot : lastStore k (returnStores c cause tval) = some (c.reg q) :=
          lastStore_savedRegs c cause tval (k, q) hmem'
        rw [hres.reg _ hmem']
        exact hload k hk' _ hslot
  · rw [hres.pc]
    exact hload 31 (by decide) _ hslot31
  · rw [hres.sscratch]
    simp only [Cpu.next, hsp, hat.sp, frameOf, BitVec.sub_add_cancel]
  · rw [hres.stvec]
    simp only [Cpu.next, hcsr, hat.stvec]
  · intro a ha
    rw [hspan', Proc.Images.within_iff (by omega)] at ha
    have h1 : ¬ Within low ((c.csr .sscratch).toNat - 280 - low.toNat) a := fun hw => by
      rw [Proc.Images.within_iff (by omega)] at hw
      omega
    have h2 : ¬ Within (frameOf c) 280 a := fun hw => by
      rw [Proc.Images.within_iff (by omega), hF] at hw
      omega
    rw [hres.mem]
    exact (hmem a h1).trans (stores_outside (returnStores_lt c cause tval) h2)

end Trap

end OscKernel.UserMode.Exception
