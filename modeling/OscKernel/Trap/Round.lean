import OscKernel.Trap.Exception

/-! # What a trap does to the interrupted code

One pass through `handle_exception` around a `do_trap` that returns with the frame it was given.
`trap_round` says in which state the interrupted code goes on: everything is back except `t0`,
which holds the `SPP` test of the entry. -/

namespace OscKernel.Trap.Round

open OscKernel.Lib.Memory OscKernel.Lib.Riscv OscKernel.Trap.Exception

section Round
variable {base : Word} {c s : Cpu} {cause tval : Word} {doTrap : Cpu → Cpu}

/-- `do_trap`, when `handle_exception` calls it for a trap taken in `c`, returns with the frame it
was given unchanged. -/
def ReturnsFrame (base : Word) (doTrap : Cpu → Cpu) (c : Cpu) (cause tval : Word) : Prop :=
  ∀ s, Steps base handleException (c.takeTrap cause tval) s →
    fetch base handleException s.pc = some .call → KeepsFrame s (doTrap s)

/-! ### The frame at the call -/

/-- The register that slot `p.1` of the frame holds at the call, `t0` apart. -/
def trappedReg (c : Cpu) (r : Reg) : Word := if r = .t0 then savedT0 c else c.reg r

theorem lastStore_restoredRegs (c : Cpu) (cause tval : Word) :
    ∀ p ∈ restoredRegs, lastStore p.1 (frameStores c cause tval) = some (trappedReg c p.2) := by
  simp [restoredRegs, frameStores, savedRegs, lastStore, trappedReg, tfRa, tfT0, tfSp, tfSepc,
    tfSstatus, tfScause, tfStval]

/-! ### One round -/

/-- The state in which the code interrupted in `c` goes on. -/
structure Returned (c r : Cpu) : Prop where
  reg : ∀ q, q ≠ .t0 → r.get q = c.get q
  t0 : r.get .t0 = savedT0 c
  pc : r.pc = c.pc
  mode : r.mode = c.mode
  sie : r.sie = c.sie
  sscratch : r.csr .sscratch = frameOf c + tfSize

theorem mem_restoredRegs {q : Reg} (h0 : q ≠ .zero) (hsp : q ≠ .sp) :
    ∃ k < 35, (k, q) ∈ restoredRegs := by
  cases q <;> first | exact absurd rfl h0 | exact absurd rfl hsp | skip
  all_goals simp [restoredRegs]

/-- **One trap**: the code goes on as it was interrupted, except for `t0`. -/
theorem trap_round (hb : c.csr .stvec = base) (hk : ReturnsFrame base doTrap c cause tval) :
    ∃ r, ToSret base handleException doTrap (c.takeTrap cause tval) r ∧ Returned c r := by
  obtain ⟨s, hs, hat⟩ : ∃ s, Steps base handleException (c.takeTrap cause tval) s ∧
      AtCall base c cause tval s := entry_run hb
  have hkeep := hk s hs hat.fetch
  have hpc : (doTrap s).next.pc = base + BitVec.ofNat 64 (4 * 53) := by
    rw [Cpu.next, hkeep.pc, hat.pc]
    bv_omega
  obtain ⟨r, hr, hres⟩ := @exit_run base doTrap _ hpc
  have hload : ∀ k < 35, ∀ v, lastStore k (frameStores c cause tval) = some v →
      load (doTrap s).next.mem (slot ((doTrap s).next.reg .sp) k) = v := by
    intro k hk v hv
    simp only [Cpu.next, hkeep.sp]
    rw [hkeep.frame k hk, hat.load_frame (by omega) hv]
  refine ⟨r, hs.toSret (.call hat.fetch hr), ?_, ?_, ?_, ?_, ?_, ?_⟩
  · intro q hq
    by_cases h0 : q = .zero
    · simp [Cpu.get, h0]
    · rw [Cpu.get, if_neg h0, Cpu.get, if_neg h0]
      by_cases hsp : q = .sp
      · rw [hsp, hres.sp]
        exact hload _ (by decide) _ rfl
      · obtain ⟨k, hk, hmem⟩ := mem_restoredRegs h0 hsp
        rw [hres.reg _ hmem]
        refine hload _ hk _ ?_
        rw [lastStore_restoredRegs c cause tval _ hmem, trappedReg, if_neg hq]
  · rw [Cpu.get, if_neg (by decide), hres.reg (tfT0, .t0) (by decide)]
    exact hload _ (by decide) _ rfl
  · rw [hres.pc]
    exact hload _ (by decide) _ rfl
  · rw [hres.mode, hload _ (by decide) _ rfl, takeTrap_spp, Mode.ofSpp_toSpp]
  · rw [hres.sie, hload _ (by decide) _ rfl, takeTrap_spie]
  · rw [hres.sscratch]
    simp only [Cpu.next, hkeep.sp, hat.sp]

end Round

/-! ### Transparency -/

/-- The trap taken in `c` is transparent: `handle_exception` returns, with every general register,
the pc and the mode as they were, and with `sscratch` as it was if the trap came from U-mode. -/
def Transparent (base : Word) (doTrap : Cpu → Cpu) (c : Cpu) (cause tval : Word) : Prop :=
  ∃ r, ToSret base handleException doTrap (c.takeTrap cause tval) r ∧
    (∀ q, r.get q = c.get q) ∧ r.pc = c.pc ∧ r.mode = c.mode ∧
    (c.mode = .user → r.csr .sscratch = c.csr .sscratch)

/-- **A trap is transparent exactly when `t0` holds what the `SPP` test leaves in it**: `0` in
U-mode, the `SPP` mask in S-mode. -/
theorem transparent_iff {base : Word} {doTrap : Cpu → Cpu} {c : Cpu} {cause tval : Word}
    (hb : c.csr .stvec = base) (hk : ReturnsFrame base doTrap c cause tval) :
    Transparent base doTrap c cause tval ↔ c.get .t0 = savedT0 c := by
  obtain ⟨r, hr, hret⟩ := trap_round hb hk
  constructor
  · rintro ⟨r', hr', hreg, -⟩
    rw [← hreg .t0, hr'.unique hr, hret.t0]
  · intro ht0
    refine ⟨r, hr, fun q => ?_, hret.pc, hret.mode, fun hm => ?_⟩
    · by_cases hq : q = .t0
      · rw [hq, hret.t0, ht0]
      · exact hret.reg q hq
    · rw [hret.sscratch, frameOf_add, hm]

/-- A user program at `0x1000` with `v` in `t0` and the number of the register in every other one,
interrupted with its kernel stack top at `0x8000` in `sscratch`. -/
def userAt (base v : Word) : Cpu where
  reg := fun r => if r = .t0 then v else BitVec.ofNat 64 r.ctorIdx
  csr := fun q => match q with
    | .stvec => base
    | .sscratch => 0x8000
    | _ => 0
  mode := .user
  pc := 0x1000
  mem := fun _ => 0

/-- The trap cause of a supervisor timer interrupt. -/
def timerCause : Word := 0x8000000000000005

theorem returnsFrame_id (base : Word) (c : Cpu) (cause tval : Word) :
    ReturnsFrame base id c cause tval := fun _ _ _ => ⟨rfl, fun _ _ => rfl, rfl⟩

/-- A timer interrupt is transparent to a user program with `0` in `t0`. -/
theorem transparent_userAt_zero : Transparent 0x80200000 id (userAt 0x80200000 0) timerCause 0 :=
  (transparent_iff (c := userAt 0x80200000 0) rfl (returnsFrame_id _ _ _ _)).2 rfl

/-- A timer interrupt taken while a user program has `1` in `t0` is not transparent. -/
theorem not_transparent_userAt_one : ¬ ∀ (base : Word) (doTrap : Cpu → Cpu) (c : Cpu)
    (cause tval : Word), c.csr .stvec = base → ReturnsFrame base doTrap c cause tval →
    Transparent base doTrap c cause tval := by
  intro h
  obtain ⟨r, hr, hreg, -⟩ := h 0x80200000 id (userAt 0x80200000 1) timerCause 0 rfl
    (returnsFrame_id _ _ _ _)
  obtain ⟨r', hr', hret⟩ := trap_round (c := userAt 0x80200000 1) rfl
    (returnsFrame_id 0x80200000 (userAt 0x80200000 1) timerCause 0)
  have ht0 := hreg .t0
  rw [hr.unique hr', hret.t0] at ht0
  exact absurd ht0 (by decide)

end OscKernel.Trap.Round
