import OscKernel.Lib.Riscv

/-! # `handle_exception` of lab5

The trap entry and exit of `start.S`, instruction by instruction, and what one pass through it does.
The trap frame has `35` doublewords: slot `k` is the field at offset `8 * k` of
`struct trap_frame`.

* `AtCall`, `entry_run`: the entry fills the frame, in which `t0` holds the result of the `SPP` test.
* `Resumed`, `exit_run`: the exit restores every register from the frame. -/

namespace OscKernel.Trap.Exception

open OscKernel.Lib.Memory OscKernel.Lib.Riscv

/-- `TF_SIZE`. -/
def tfSize : Word := 280

/-- `SSTATUS_SPP`. -/
def sstatusSpp : Word := 0x100

/-- The slot of `tf->ra`. -/
def tfRa : ℕ := 0
/-- The slot of `tf->sp`. -/
def tfSp : ℕ := 1
/-- The slot of `tf->t0`. -/
def tfT0 : ℕ := 4
/-- The slot of `tf->sepc`. -/
def tfSepc : ℕ := 31
/-- The slot of `tf->sstatus`. -/
def tfSstatus : ℕ := 32
/-- The slot of `tf->scause`. -/
def tfScause : ℕ := 33
/-- The slot of `tf->stval`. -/
def tfStval : ℕ := 34

/-- The registers saved after `ra`, `t0` and `sp`, in the order of the listing. -/
def savedRegs : List (ℕ × Reg) :=
  [(2, .gp), (3, .tp), (5, .t1), (6, .t2), (7, .s0), (8, .s1), (9, .a0), (10, .a1), (11, .a2),
    (12, .a3), (13, .a4), (14, .a5), (15, .a6), (16, .a7), (17, .s2), (18, .s3), (19, .s4),
    (20, .s5), (21, .s6), (22, .s7), (23, .s8), (24, .s9), (25, .s10), (26, .s11), (27, .t3),
    (28, .t4), (29, .t5), (30, .t6)]

/-- The registers restored, in the order of the listing; `sp` comes back through `sscratch`. -/
def restoredRegs : List (ℕ × Reg) :=
  [(0, .ra), (2, .gp), (3, .tp), (4, .t0), (5, .t1), (6, .t2), (7, .s0), (8, .s1), (9, .a0),
    (10, .a1), (11, .a2), (12, .a3), (13, .a4), (14, .a5), (15, .a6), (16, .a7), (17, .s2),
    (18, .s3), (19, .s4), (20, .s5), (21, .s6), (22, .s7), (23, .s8), (24, .s9), (25, .s10),
    (26, .s11), (27, .t3), (28, .t4), (29, .t5), (30, .t6)]

/-- The end of the entry: `sepc`, `sstatus`, `scause`, `stval` through `t0`, then `mv a0, sp`. -/
def saveCsrs : List Instr :=
  [.csrr .t0 .sepc, .sd .t0 tfSepc .sp, .csrr .t0 .sstatus, .sd .t0 tfSstatus .sp,
    .csrr .t0 .scause, .sd .t0 tfScause .sp, .csrr .t0 .stval, .sd .t0 tfStval .sp,
    .mv .a0 .sp]

/-- The entry of `handle_exception` up to `call do_trap`. The branch targets are the labels `1`,
`2` and `3` of the source. -/
def entry : List Instr :=
  [.csrr .t0 .sstatus, .andi .t0 .t0 sstatusSpp, .bnez .t0 2,
    .csrrw .sp .sscratch .sp,
    -- 1:
    .addi .sp .sp (-tfSize), .sd .ra tfRa .sp, .sd .t0 tfT0 .sp,
    .csrr .t0 .sstatus, .andi .t0 .t0 sstatusSpp, .bnez .t0 4,
    .csrr .t0 .sscratch, .sd .t0 tfSp .sp, .j 3,
    -- 2:
    .addi .t0 .sp tfSize, .sd .t0 tfSp .sp] ++
    -- 3:
    savedRegs.map (fun p => .sd p.2 p.1 .sp) ++ saveCsrs

/-- The exit: the CSRs. -/
def restoreCsrs : List Instr :=
  [.ld .t0 tfSepc .sp, .csrw .sepc .t0, .ld .t0 tfSstatus .sp, .csrw .sstatus .t0,
    .ld .t0 tfSp .sp, .csrw .sscratch .t0]

/-- The exit up to `sret`. -/
def epilogue : List Instr :=
  restoreCsrs ++ restoredRegs.map (fun p => .ld p.2 p.1 .sp) ++
    [.addi .sp .sp tfSize, .csrrw .sp .sscratch .sp]

/-- **`handle_exception`.** -/
def handleException : List Instr := entry ++ [.call] ++ epilogue ++ [.sret]

/-! ### The frame -/

/-- The address of the trap frame: below the kernel stack top `sscratch` for a trap from U-mode,
below the interrupted `sp` for a trap from S-mode. -/
def frameOf (c : Cpu) : Word :=
  (match c.mode with
    | .user => c.csr .sscratch
    | .supervisor => c.reg .sp) - tfSize

/-- What `t0` holds when the entry saves it: the `SPP` bit it has just tested. -/
def savedT0 (c : Cpu) : Word :=
  match c.mode with
  | .user => 0
  | .supervisor => sstatusSpp

/-- The frame the entry writes for a trap taken in the state `c`, in the order of the listing. -/
def frameStores (c : Cpu) (cause tval : Word) : List (ℕ × Word) :=
  [(tfRa, c.reg .ra), (tfT0, savedT0 c), (tfSp, c.reg .sp)] ++
    savedRegs.map (fun p => (p.1, c.reg p.2)) ++
    [(tfSepc, c.pc), (tfSstatus, (c.takeTrap cause tval).csr .sstatus), (tfScause, cause),
      (tfStval, tval)]

/-- `do_trap` returns with the frame it was given and, as the calling convention asks, with the
stack pointer it was called with. -/
structure KeepsFrame (s s' : Cpu) : Prop where
  sp : s'.reg .sp = s.reg .sp
  frame : ∀ k < 35, load s'.mem (slot (s.reg .sp) k) = load s.mem (slot (s.reg .sp) k)
  pc : s'.pc = s.pc

theorem and_sstatusSpp (v : Word) : v &&& sstatusSpp = if v.getLsbD sppBit then sstatusSpp else 0 :=
  BitVec.and_twoPow v 8

/-- The `SPP` bit after the hardware has taken the trap is the interrupted mode. -/
theorem takeTrap_spp (c : Cpu) (cause tval : Word) :
    ((c.takeTrap cause tval).csr .sstatus).getLsbD sppBit = c.mode.toSpp := by
  simp only [Cpu.takeTrap, trapStatus_spp]

theorem takeTrap_and_spp (c : Cpu) (cause tval : Word) :
    (c.takeTrap cause tval).csr .sstatus &&& sstatusSpp = savedT0 c := by
  rw [and_sstatusSpp, takeTrap_spp]
  cases h : c.mode <;> simp [Mode.toSpp, savedT0, h]

theorem takeTrap_spie (c : Cpu) (cause tval : Word) :
    ((c.takeTrap cause tval).csr .sstatus).getLsbD spieBit = c.sie := by
  simp only [Cpu.takeTrap, trapStatus_spie, Cpu.sie]

theorem frameOf_add (c : Cpu) :
    frameOf c + tfSize = match c.mode with
      | .user => c.csr .sscratch
      | .supervisor => c.reg .sp := by
  cases h : c.mode <;> simp only [frameOf, h, BitVec.sub_add_cancel]

/-! ### The entry -/

section Entry
variable {base : Word} {c s : Cpu} {cause tval : Word}

/-- The state at label `3` of the entry: `ra`, `t0` and `sp` are saved. -/
structure Entered (base : Word) (c : Cpu) (cause tval : Word) (s : Cpu) : Prop where
  sp : s.reg .sp = frameOf c
  reg : ∀ r, r ≠ .sp → r ≠ .t0 → s.reg r = c.reg r
  csr : ∀ q, q ≠ .sscratch → s.csr q = (c.takeTrap cause tval).csr q
  mem : s.mem = stores c.mem (frameOf c) [(tfRa, c.reg .ra), (tfT0, savedT0 c), (tfSp, c.reg .sp)]
  pc : s.pc = base + BitVec.ofNat 64 (4 * 15)

theorem enter_user (hm : c.mode = .user) (hb : c.csr .stvec = base) :
    ∃ s, Steps base handleException (c.takeTrap cause tval) s ∧ Entered base c cause tval s := by
  have ht0 : (c.takeTrap cause tval).csr .sstatus &&& sstatusSpp = 0 := by
    rw [takeTrap_and_spp]; simp [savedT0, hm]
  have hfr : c.csr .sscratch + -tfSize = frameOf c := by
    simp [frameOf, hm, BitVec.sub_eq_add_neg]
  have h1 : Steps base handleException (c.takeTrap cause tval) _ :=
    Steps.segment (k := 0) [.csrr .t0 .sstatus, .andi .t0 .t0 sstatusSpp] (by decide) (by decide)
      (by decide) (by simp [hb])
  have h2 := h1.trans (Steps.bnez_next (k := 2) (d := 2) (r := .t0) (by rfl) (by decide)
    (by rw [pc_execAll _ _ (by decide)]; simp [hb])
    (by simpa [exec, Cpu.next, Cpu.set, Cpu.get] using ht0))
  have h3 := h2.trans (Steps.segment (k := 3) [.csrrw .sp .sscratch .sp, .addi .sp .sp (-tfSize),
    .sd .ra tfRa .sp, .sd .t0 tfT0 .sp, .csrr .t0 .sstatus, .andi .t0 .t0 sstatusSpp] (by decide)
    (by decide) (by decide) rfl)
  have h4 := h3.trans (Steps.bnez_next (k := 9) (d := 4) (r := .t0) (by rfl) (by decide)
    (by rw [pc_execAll _ _ (by decide)]; simp; bv_omega)
    (by simpa [exec, Cpu.next, Cpu.set, Cpu.setCsr, Cpu.get] using ht0))
  have h5 := h4.trans (Steps.segment (k := 10) [.csrr .t0 .sscratch, .sd .t0 tfSp .sp] (by decide)
    (by decide) (by decide) rfl)
  have h6 := h5.trans (Steps.jump (k := 12) (d := 3) (by rfl) (by decide)
    (by rw [pc_execAll _ _ (by decide)]; simp; bv_omega))
  refine ⟨_, h6, ?_, ?_, ?_, ?_, rfl⟩
  · simp [exec, Cpu.next, Cpu.set, Cpu.setCsr, Cpu.get, hfr]
  · intro r h1 h2
    simp [exec, Cpu.next, Cpu.set, Cpu.setCsr, Cpu.get, h1, h2]
  · intro q hq
    simp [exec, Cpu.next, Cpu.set, Cpu.setCsr, Cpu.get, hq]
  · simp [exec, Cpu.next, Cpu.set, Cpu.setCsr, Cpu.get, hfr, ht0, stores, savedT0, hm]

theorem enter_supervisor (hm : c.mode = .supervisor) (hb : c.csr .stvec = base) :
    ∃ s, Steps base handleException (c.takeTrap cause tval) s ∧ Entered base c cause tval s := by
  have ht0 : (c.takeTrap cause tval).csr .sstatus &&& sstatusSpp = sstatusSpp := by
    rw [takeTrap_and_spp]; simp [savedT0, hm]
  have hne : sstatusSpp ≠ 0 := by decide
  have hfr : c.reg .sp + -tfSize = frameOf c := by
    simp [frameOf, hm, BitVec.sub_eq_add_neg]
  have h1 : Steps base handleException (c.takeTrap cause tval) _ :=
    Steps.segment (k := 0) [.csrr .t0 .sstatus, .andi .t0 .t0 sstatusSpp] (by decide) (by decide)
      (by decide) (by simp [hb])
  have h2 := h1.trans (Steps.bnez_taken (k := 2) (d := 2) (r := .t0) (by rfl) (by decide)
    (by rw [pc_execAll _ _ (by decide)]; simp [hb])
    (by simpa [exec, Cpu.next, Cpu.set, Cpu.get, ht0] using hne))
  have h3 := h2.trans (Steps.segment (k := 4) [.addi .sp .sp (-tfSize), .sd .ra tfRa .sp,
    .sd .t0 tfT0 .sp, .csrr .t0 .sstatus, .andi .t0 .t0 sstatusSpp] (by decide) (by decide)
    (by decide) rfl)
  have h4 := h3.trans (Steps.bnez_taken (k := 9) (d := 4) (r := .t0) (by rfl) (by decide)
    (by rw [pc_execAll _ _ (by decide)]; simp; bv_omega)
    (by simpa [exec, Cpu.next, Cpu.set, Cpu.get, ht0] using hne))
  have h5 := h4.trans (Steps.segment (k := 13) [.addi .t0 .sp tfSize, .sd .t0 tfSp .sp] (by decide)
    (by decide) (by decide) rfl)
  refine ⟨_, h5, ?_, ?_, ?_, ?_, ?_⟩
  · simp [exec, Cpu.next, Cpu.set, Cpu.get, hfr]
  · intro r h1 h2
    simp [exec, Cpu.next, Cpu.set, Cpu.get, h1, h2]
  · intro q _
    simp [exec, Cpu.next, Cpu.set, Cpu.get]
  · have hsp : frameOf c + tfSize = c.reg .sp := by rw [← hfr, BitVec.add_assoc]; simp [tfSize]
    simp [exec, Cpu.next, Cpu.set, Cpu.get, hfr, ht0, stores, savedT0, hm, hsp]
  · rw [pc_execAll _ _ (by decide)]; simp; bv_omega

theorem stores_append (m : Mem) (b : Word) : ∀ l l' : List (ℕ × Word),
    stores m b (l ++ l') = stores (stores m b l) b l'
  | [], _ => rfl
  | (_, _) :: l, l' => stores_append _ b l l'

/-- The state at `call do_trap`. -/
structure AtCall (base : Word) (c : Cpu) (cause tval : Word) (s : Cpu) : Prop where
  sp : s.reg .sp = frameOf c
  mem : s.mem = stores c.mem (frameOf c) (frameStores c cause tval)
  pc : s.pc = base + BitVec.ofNat 64 (4 * 52)

theorem Entered.toCall {s' : Cpu} (h : Entered base c cause tval s') :
    ∃ s, Steps base handleException s' s ∧ AtCall base c cause tval s := by
  refine ⟨_, Steps.segment (k := 15) (savedRegs.map (fun p => .sd p.2 p.1 .sp) ++ saveCsrs)
    (by decide) (by decide) (by decide) h.pc, ?_⟩
  · have hregs : savedRegs.map (fun p => (p.1, s'.get p.2)) =
        savedRegs.map (fun p => (p.1, c.reg p.2)) := by
      refine List.map_congr_left fun p hp => ?_
      have hp' : p.2 ≠ .sp ∧ p.2 ≠ .t0 ∧ p.2 ≠ .zero := by revert p; decide
      rw [Cpu.get, if_neg hp'.2.2, h.reg _ hp'.1 hp'.2.1]
    have hsp : s'.get .sp = frameOf c := h.sp
    have hcsr : ∀ q, q ≠ .sscratch → s'.csr q = (c.takeTrap cause tval).csr q := h.csr
    rw [execAll_append, execAll_sds, hregs, hsp, h.mem]
    refine ⟨?_, ?_, ?_⟩
    · simp [saveCsrs, exec, Cpu.next, Cpu.set, Cpu.get, h.sp]
    · simp only [frameStores, stores_append]
      simp [saveCsrs, exec, Cpu.next, Cpu.set, Cpu.get, h.sp, hcsr, stores, Cpu.takeTrap]
    · rw [pc_execAll _ _ (by decide), h.pc]
      simp [savedRegs, saveCsrs]
      bv_omega

/-- **The entry reaches `do_trap`** with the interrupted context in the frame, except that the slot
of `t0` holds the `SPP` test. -/
theorem entry_run (hb : c.csr .stvec = base) :
    ∃ s, Steps base handleException (c.takeTrap cause tval) s ∧ AtCall base c cause tval s := by
  have hpre : ∃ s', Steps base handleException (c.takeTrap cause tval) s' ∧
      Entered base c cause tval s' := by
    cases hm : c.mode with
    | user => exact enter_user hm hb
    | supervisor => exact enter_supervisor hm hb
  obtain ⟨s', hrun, he⟩ := hpre
  obtain ⟨s, hs, hat⟩ := he.toCall
  exact ⟨s, hrun.trans hs, hat⟩

theorem frameStores_lt (c : Cpu) (cause tval : Word) :
    ∀ p ∈ frameStores c cause tval, p.1 < 2 ^ 60 := by
  simp [frameStores, savedRegs, tfRa, tfT0, tfSp, tfSepc, tfSstatus, tfScause, tfStval]

theorem AtCall.load_frame (h : AtCall base c cause tval s) {k : ℕ} (hk : k < 2 ^ 60) {v : Word}
    (hv : lastStore k (frameStores c cause tval) = some v) :
    load s.mem (slot (s.reg .sp) k) = v := by
  rw [h.mem, h.sp, load_stores _ hk _ _ (frameStores_lt c cause tval), hv, Option.getD_some]

theorem AtCall.fetch (h : AtCall base c cause tval s) :
    fetch base handleException s.pc = some .call := by
  rw [h.pc, fetch_at (by decide)]
  rfl

end Entry

/-! ### The exit -/

/-- What the exit restores from the frame below the stack pointer of `u`. -/
structure Resumed (u r : Cpu) : Prop where
  reg : ∀ p ∈ restoredRegs, r.reg p.2 = load u.mem (slot (u.reg .sp) p.1)
  sp : r.reg .sp = load u.mem (slot (u.reg .sp) tfSp)
  pc : r.pc = load u.mem (slot (u.reg .sp) tfSepc)
  mode : r.mode = Mode.ofSpp ((load u.mem (slot (u.reg .sp) tfSstatus)).getLsbD sppBit)
  sie : r.sie = (load u.mem (slot (u.reg .sp) tfSstatus)).getLsbD spieBit
  sscratch : r.csr .sscratch = u.reg .sp + tfSize
  mem : r.mem = u.mem

theorem sie_sret (c : Cpu) : c.sret.sie = (c.csr .sstatus).getLsbD spieBit := by
  simp only [Cpu.sret, Cpu.sie, sretStatus_sie]

/-- The state the exit ends in. -/
theorem execAll_epilogue (u : Cpu) : Resumed u (exec .sret (execAll epilogue u)) := by
  have hne : ∀ p ∈ restoredRegs, p.2 ≠ .sp ∧ p.2 ≠ .zero := by decide
  have hl : lastLoad .sp restoredRegs = none := by decide
  unfold epilogue
  rw [execAll_append, execAll_append, execAll_lds .sp _ _ hne]
  refine ⟨?_, ?_, ?_, ?_, ?_, ?_, ?_⟩
  · intro p hp
    obtain ⟨h1, h2⟩ := hne p hp
    have hl : lastLoad p.2 restoredRegs = some p.1 := by revert p; decide
    simp [restoreCsrs, exec, Cpu.next, Cpu.set, Cpu.setCsr, Cpu.get, Cpu.sret, h1, hl]
  case refine_5 =>
    rw [exec, sie_sret]
    simp [restoreCsrs, exec, Cpu.next, Cpu.set, Cpu.setCsr, Cpu.get]
  all_goals
    simp [restoreCsrs, exec, Cpu.next, Cpu.set, Cpu.setCsr, Cpu.get, Cpu.sret, hl]

/-- **The exit** returns to the context in the frame. -/
theorem exit_run {base : Word} {callee : Cpu → Cpu} {u : Cpu}
    (hpc : u.pc = base + BitVec.ofNat 64 (4 * 53)) :
    ∃ r, ToSret base handleException callee u r ∧ Resumed u r := by
  refine ⟨_, (Steps.segment (k := 53) epilogue (by decide) (by decide) (by decide) hpc).toSret
    (.sret ?_), execAll_epilogue u⟩
  rw [pc_execAll _ _ (by decide), hpc, BitVec.add_assoc, ← BitVec.ofNat_add, ← Nat.mul_add,
    fetch_at (by decide)]
  rfl

end OscKernel.Trap.Exception
