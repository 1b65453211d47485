import OscKernel.Lib.Memory

/-! # A fragment of the RISC-V supervisor machine

The general registers, the supervisor CSRs of the trap mechanism, the privilege mode and a
byte-addressed memory, with the instructions a trap entry or a return path is written in. A listing
`prog` sits at an address `base`, four bytes an instruction. Calls are not part of the fragment:
a state transformer `callee` says in which state a call returns.

* `takeTrap`: what the hardware does when it takes a trap; `exec .sret` is its inverse.
* `Steps`, `ToSret`: a run without calls and returns, and a run through its next `sret`.
* `Steps.segment`: a branch-free block of the listing runs as a fold.
* `execAll_sds`, `execAll_lds`: a block of stores, and a block of loads, of one frame. -/

namespace OscKernel.Lib.Riscv

open OscKernel.Lib.Memory

/-- The general registers. -/
inductive Reg
  | zero | ra | sp | gp | tp | t0 | t1 | t2 | s0 | s1 | a0 | a1 | a2 | a3 | a4 | a5 | a6 | a7
  | s2 | s3 | s4 | s5 | s6 | s7 | s8 | s9 | s10 | s11 | t3 | t4 | t5 | t6
  deriving DecidableEq, Repr

/-- The supervisor CSRs of the trap mechanism. -/
inductive Csr
  | sstatus | sepc | scause | stval | sscratch | stvec
  deriving DecidableEq, Repr

/-- The privilege mode. -/
inductive Mode
  | user | supervisor
  deriving DecidableEq, Repr

/-- The machine state. -/
structure Cpu where
  reg : Reg → Word
  csr : Csr → Word
  mode : Mode
  pc : Word
  mem : Mem

/-! ### Bits of `sstatus` -/

/-- The position of `sstatus.SIE`. -/
def sieBit : ℕ := 1

/-- The position of `sstatus.SPIE`. -/
def spieBit : ℕ := 5

/-- The position of `sstatus.SPP`. -/
def sppBit : ℕ := 8

/-- The word with bit `i` set to `b`. -/
def withBit (v : Word) (i : ℕ) (b : Bool) : Word :=
  if b then v ||| BitVec.twoPow 64 i else v &&& ~~~ BitVec.twoPow 64 i

@[simp] theorem getLsbD_withBit (v : Word) {i : ℕ} (hi : i < 64) (b : Bool) (j : ℕ) :
    (withBit v i b).getLsbD j = if i = j then b else v.getLsbD j := by
  by_cases hj : j < 64
  · rcases eq_or_ne i j with rfl | hij
    · cases b <;> simp [withBit, hi]
    · cases b <;> simp [withBit, hij, hij.symm, hj]
  · have hij : i ≠ j := by omega
    rw [if_neg hij, BitVec.getLsbD_of_ge _ _ (by omega), BitVec.getLsbD_of_ge _ _ (by omega)]

/-- The mode the `SPP` bit names. -/
def Mode.ofSpp (b : Bool) : Mode := if b then .supervisor else .user

/-- The `SPP` bit of a mode. -/
def Mode.toSpp : Mode → Bool
  | .user => false
  | .supervisor => true

@[simp] theorem Mode.ofSpp_toSpp (m : Mode) : Mode.ofSpp m.toSpp = m := by cases m <;> rfl

/-- `sstatus` after a trap from the mode `m`: `SPP` and `SPIE` keep the mode and `SIE`, and interrupts
are disabled. -/
def trapStatus (v : Word) (m : Mode) : Word :=
  withBit (withBit (withBit v sppBit m.toSpp) spieBit (v.getLsbD sieBit)) sieBit false

/-- `sstatus` after `sret`: `SIE` comes from `SPIE`. -/
def sretStatus (v : Word) : Word :=
  withBit (withBit (withBit v sieBit (v.getLsbD spieBit)) spieBit true) sppBit false

theorem trapStatus_spp (v : Word) (m : Mode) : (trapStatus v m).getLsbD sppBit = m.toSpp := by
  rw [trapStatus, getLsbD_withBit _ (by decide), if_neg (by decide), getLsbD_withBit _ (by decide),
    if_neg (by decide), getLsbD_withBit _ (by decide), if_pos rfl]

theorem trapStatus_spie (v : Word) (m : Mode) :
    (trapStatus v m).getLsbD spieBit = v.getLsbD sieBit := by
  rw [trapStatus, getLsbD_withBit _ (by decide), if_neg (by decide), getLsbD_withBit _ (by decide),
    if_pos rfl]

theorem trapStatus_sie (v : Word) (m : Mode) : (trapStatus v m).getLsbD sieBit = false := by
  rw [trapStatus, getLsbD_withBit _ (by decide), if_pos rfl]

theorem sretStatus_sie (v : Word) : (sretStatus v).getLsbD sieBit = v.getLsbD spieBit := by
  rw [sretStatus, getLsbD_withBit _ (by decide), if_neg (by decide), getLsbD_withBit _ (by decide),
    if_neg (by decide), getLsbD_withBit _ (by decide), if_pos rfl]

namespace Cpu

/-- The interrupt-enable bit. -/
def sie (c : Cpu) : Bool := (c.csr .sstatus).getLsbD sieBit

/-- Reading a register: `zero` reads as `0`. -/
def get (c : Cpu) (r : Reg) : Word := if r = .zero then 0 else c.reg r

/-- Writing a register: writes to `zero` are dropped. -/
def set (c : Cpu) (r : Reg) (v : Word) : Cpu :=
  if r = .zero then c else { c with reg := fun q => if q = r then v else c.reg q }

/-- Writing a CSR. -/
def setCsr (c : Cpu) (r : Csr) (v : Word) : Cpu :=
  { c with csr := fun q => if q = r then v else c.csr q }

/-- The next instruction. -/
def next (c : Cpu) : Cpu := { c with pc := c.pc + 4 }

/-- **The hardware takes a trap**: `sepc`, `scause` and `stval` are written, `SPP` and `SPIE` keep
the mode and `SIE`, interrupts are disabled and the handler at `stvec` starts in S-mode. -/
def takeTrap (c : Cpu) (cause tval : Word) : Cpu where
  reg := c.reg
  csr := fun
    | .sstatus => trapStatus (c.csr .sstatus) c.mode
    | .sepc => c.pc
    | .scause => cause
    | .stval => tval
    | .sscratch => c.csr .sscratch
    | .stvec => c.csr .stvec
  mode := .supervisor
  pc := c.csr .stvec
  mem := c.mem

/-- `sret`: back to `sepc` in the mode of `SPP`, with `SIE` from `SPIE`. -/
def sret (c : Cpu) : Cpu where
  reg := c.reg
  csr := fun
    | .sstatus => sretStatus (c.csr .sstatus)
    | r => c.csr r
  mode := Mode.ofSpp ((c.csr .sstatus).getLsbD sppBit)
  pc := c.csr .sepc
  mem := c.mem

@[simp] theorem takeTrap_reg (c : Cpu) (cause tval : Word) : (c.takeTrap cause tval).reg = c.reg :=
  rfl

@[simp] theorem takeTrap_mem (c : Cpu) (cause tval : Word) : (c.takeTrap cause tval).mem = c.mem :=
  rfl

@[simp] theorem takeTrap_pc (c : Cpu) (cause tval : Word) :
    (c.takeTrap cause tval).pc = c.csr .stvec := rfl

@[simp] theorem takeTrap_sscratch (c : Cpu) (cause tval : Word) :
    (c.takeTrap cause tval).csr .sscratch = c.csr .sscratch := rfl

end Cpu

/-- The instructions. Branch targets count instructions forward from the branch. -/
inductive Instr
  | csrr (rd : Reg) (c : Csr)
  | csrw (c : Csr) (rs : Reg)
  | csrrw (rd : Reg) (c : Csr) (rs : Reg)
  | andi (rd rs : Reg) (imm : Word)
  | addi (rd rs : Reg) (imm : Word)
  | mv (rd rs : Reg)
  | sd (rs : Reg) (k : ℕ) (base : Reg)
  | ld (rd : Reg) (k : ℕ) (base : Reg)
  | bnez (rs : Reg) (d : ℕ)
  | j (d : ℕ)
  | call
  | sret
  deriving DecidableEq, Repr

/-- Executing one instruction. The offset of `sd` and `ld` is `8 * k`. -/
def exec : Instr → Cpu → Cpu
  | .csrr rd r, c => (c.set rd (c.csr r)).next
  | .csrw r rs, c => (c.setCsr r (c.get rs)).next
  | .csrrw rd r rs, c => ((c.setCsr r (c.get rs)).set rd (c.csr r)).next
  | .andi rd rs imm, c => (c.set rd (c.get rs &&& imm)).next
  | .addi rd rs imm, c => (c.set rd (c.get rs + imm)).next
  | .mv rd rs, c => (c.set rd (c.get rs)).next
  | .sd rs k b, c => { c with mem := store c.mem (slot (c.get b) k) (c.get rs) }.next
  | .ld rd k b, c => (c.set rd (load c.mem (slot (c.get b) k))).next
  | .bnez rs d, c => if c.get rs ≠ 0 then { c with pc := c.pc + BitVec.ofNat 64 (4 * d) } else c.next
  | .j d, c => { c with pc := c.pc + BitVec.ofNat 64 (4 * d) }
  | .call, c => c.next
  | .sret, c => c.sret

/-- Neither a jump nor a call nor a return. -/
def Instr.Straight : Instr → Bool
  | .bnez _ _ | .j _ | .call | .sret => false
  | _ => true

/-- A branch-free block of instructions. -/
def execAll (l : List Instr) (c : Cpu) : Cpu := l.foldl (fun c i => exec i c) c

@[simp] theorem execAll_nil (c : Cpu) : execAll [] c = c := rfl

@[simp] theorem execAll_cons (i : Instr) (l : List Instr) (c : Cpu) :
    execAll (i :: l) c = execAll l (exec i c) := rfl

theorem execAll_append (l l' : List Instr) (c : Cpu) :
    execAll (l ++ l') c = execAll l' (execAll l c) := by
  simp [execAll, List.foldl_append]

/-! ### Blocks of stores and loads of one frame -/

theorem execAll_sds (b : Reg) : ∀ (l : List (ℕ × Reg)) (c : Cpu),
    execAll (l.map fun p => .sd p.2 p.1 b) c =
      { c with
        mem := stores c.mem (c.get b) (l.map fun p => (p.1, c.get p.2))
        pc := c.pc + BitVec.ofNat 64 (4 * l.length) }
  | [], c => by simp [stores]
  | p :: l, c => by
    rw [List.map_cons, execAll_cons, execAll_sds b l]
    simp only [exec, Cpu.next, Cpu.get, List.map_cons, stores, List.length_cons, Cpu.mk.injEq,
      true_and]
    refine ⟨?_, trivial⟩
    bv_omega

/-- The slot a list of loads reads into `r` last, if it loads `r`. -/
def lastLoad (r : Reg) : List (ℕ × Reg) → Option ℕ
  | [] => none
  | (k, q) :: l => (lastLoad r l).or (if q = r then some k else none)

theorem execAll_lds (b : Reg) : ∀ (l : List (ℕ × Reg)) (c : Cpu),
    (∀ p ∈ l, p.2 ≠ b ∧ p.2 ≠ .zero) →
    execAll (l.map fun p => .ld p.2 p.1 b) c =
      { c with
        reg := fun r => ((lastLoad r l).map fun k => load c.mem (slot (c.get b) k)).getD (c.reg r)
        pc := c.pc + BitVec.ofNat 64 (4 * l.length) }
  | [], c, _ => by simp [lastLoad]
  | (k, q) :: l, c, h => by
    obtain ⟨hqb, hq0⟩ := h (k, q) (by simp)
    simp only at hqb hq0
    rw [List.map_cons, execAll_cons, execAll_lds b l _ (fun p hp => h p (by simp [hp]))]
    have hget : (exec (.ld q k b) c).get b = c.get b := by
      simp [exec, Cpu.next, Cpu.set, Cpu.get, hq0, hqb.symm]
    rw [hget]
    simp only [exec, Cpu.next, Cpu.set, if_neg hq0, List.length_cons, Cpu.mk.injEq, true_and]
    refine ⟨?_, ?_, trivial⟩
    · funext r
      simp only [lastLoad]
      cases lastLoad r l with
      | some j => simp
      | none =>
        by_cases hr : q = r
        · simp [hr]
        · simp [hr, Ne.symm hr]
    · bv_omega

section Run
variable (base : Word) (prog : List Instr) (callee : Cpu → Cpu)

/-- The instruction of the listing at the address `pc`. -/
def fetch (pc : Word) : Option Instr :=
  if (pc - base).toNat % 4 = 0 then prog[(pc - base).toNat / 4]? else none

/-- The run from `c` comes to the state `s` without a call or an `sret`. -/
inductive Steps : Cpu → Cpu → Prop
  | refl (c : Cpu) : Steps c c
  | step {c s : Cpu} {i : Instr} (h : fetch base prog c.pc = some i) (hc : i ≠ .call)
      (hr : i ≠ .sret) (hs : Steps (exec i c) s) : Steps c s

/-- The run from `c` executes its next `sret` and is then in the state `s`; calls return in the
state `callee` says. -/
inductive ToSret : Cpu → Cpu → Prop
  | sret {c : Cpu} (h : fetch base prog c.pc = some .sret) : ToSret c (exec .sret c)
  | call {c s : Cpu} (h : fetch base prog c.pc = some .call) (hs : ToSret (callee c).next s) :
      ToSret c s
  | step {c s : Cpu} {i : Instr} (h : fetch base prog c.pc = some i) (hc : i ≠ .call)
      (hr : i ≠ .sret) (hs : ToSret (exec i c) s) : ToSret c s

variable {base prog callee}

theorem Steps.trans {c s t : Cpu} (h : Steps base prog c s) (h' : Steps base prog s t) :
    Steps base prog c t := by
  induction h with
  | refl => exact h'
  | step h hc hr _ ih => exact .step h hc hr (ih h')

/-- **A run returns in one state at most.** -/
theorem ToSret.unique {c s s' : Cpu} (h : ToSret base prog callee c s)
    (h' : ToSret base prog callee c s') : s = s' := by
  induction h with
  | sret h =>
    cases h' with
    | sret => rfl
    | call h2 => rw [h] at h2; cases h2
    | step h2 _ hr => rw [h] at h2; cases h2; exact absurd rfl hr
  | call h _ ih =>
    cases h' with
    | sret h2 => rw [h] at h2; cases h2
    | call _ hs => exact ih hs
    | step h2 hc => rw [h] at h2; cases h2; exact absurd rfl hc
  | step h hc hr _ ih =>
    cases h' with
    | sret h2 => rw [h] at h2; cases h2; exact absurd rfl hr
    | call h2 => rw [h] at h2; cases h2; exact absurd rfl hc
    | step h2 _ _ hs => rw [h] at h2; cases h2; exact ih hs

theorem Steps.toSret {c s s' : Cpu} (h : Steps base prog c s)
    (hs : ToSret base prog callee s s') : ToSret base prog callee c s' := by
  induction h with
  | refl => exact hs
  | step h hc hr _ ih => exact .step h hc hr (ih hs)

theorem fetch_at {k : ℕ} (hk : k < 2 ^ 60) :
    fetch base prog (base + BitVec.ofNat 64 (4 * k)) = prog[k]? := by
  have h : (base + BitVec.ofNat 64 (4 * k) - base).toNat = 4 * k := by bv_omega
  unfold Riscv.fetch
  rw [h, if_pos (by omega)]
  congr 1
  omega

theorem pc_set (c : Cpu) (r : Reg) (v : Word) : (c.set r v).pc = c.pc := by
  unfold Cpu.set; split_ifs <;> rfl

theorem pc_exec {i : Instr} (h : i.Straight = true) (c : Cpu) : (exec i c).pc = c.pc + 4 := by
  cases i <;> simp_all [Instr.Straight, exec, Cpu.next, pc_set, Cpu.setCsr]

theorem pc_execAll : ∀ (l : List Instr) (c : Cpu), (∀ i ∈ l, i.Straight = true) →
    (execAll l c).pc = c.pc + BitVec.ofNat 64 (4 * l.length)
  | [], c, _ => by simp
  | i :: l, c, h => by
    rw [execAll_cons, pc_execAll l _ (fun j hj => h j (by simp [hj])), pc_exec (h i (by simp))]
    simp only [List.length_cons]
    bv_omega

/-- The block `l` stands at position `k` of the listing. -/
def Segment (prog : List Instr) (k : ℕ) (l : List Instr) : Prop := l <+: prog.drop k

theorem Segment.head {k : ℕ} {i : Instr} {l : List Instr} (h : Segment prog k (i :: l)) :
    prog[k]? = some i := by
  obtain ⟨t, ht⟩ := h
  have := congrArg (fun m => m[0]?) ht
  simpa using this.symm

theorem Segment.tail {k : ℕ} {i : Instr} {l : List Instr} (h : Segment prog k (i :: l)) :
    Segment prog (k + 1) l := by
  obtain ⟨t, ht⟩ := h
  refine ⟨t, ?_⟩
  rw [← List.drop_drop, ← ht]
  simp

instance (k : ℕ) (l : List Instr) : Decidable (Segment prog k l) := by
  unfold Segment; infer_instance

theorem Instr.Straight.ne {i : Instr} (h : i.Straight = true) : i ≠ .call ∧ i ≠ .sret := by
  cases i <;> simp_all [Instr.Straight]

/-- **A branch-free block runs as a fold.** -/
theorem Steps.segment : ∀ (l : List Instr) {c : Cpu} {k : ℕ},
    (∀ i ∈ l, i.Straight = true) → Segment prog k l → k + l.length < 2 ^ 60 →
      c.pc = base + BitVec.ofNat 64 (4 * k) → Steps base prog c (execAll l c)
  | [], c, k, _, _, _, _ => .refl c
  | i :: l, c, k, hs, hseg, hk, hpc => by
    have hf : Riscv.fetch base prog c.pc = some i := by
      rw [hpc, fetch_at (by simp at hk; omega)]
      exact hseg.head
    have hi := hs i (by simp)
    refine .step hf (Instr.Straight.ne hi).1 (Instr.Straight.ne hi).2
      (Steps.segment (k := k + 1) l (fun j hj => hs j (by simp [hj])) hseg.tail
        (by simp at hk; omega) ?_)
    rw [pc_exec hi, hpc]
    bv_omega

/-- A branch that is taken. -/
theorem Steps.bnez_taken {c : Cpu} {k d : ℕ} {r : Reg} (hk : prog[k]? = some (.bnez r d))
    (hb : k < 2 ^ 60) (hpc : c.pc = base + BitVec.ofNat 64 (4 * k)) (hr : c.get r ≠ 0) :
    Steps base prog c { c with pc := base + BitVec.ofNat 64 (4 * (k + d)) } := by
  have he : exec (.bnez r d) c = { c with pc := base + BitVec.ofNat 64 (4 * (k + d)) } := by
    simp only [exec, if_pos hr]
    rw [hpc, Nat.mul_add, BitVec.ofNat_add, BitVec.add_assoc]
  exact .step (i := .bnez r d) (by rw [hpc, fetch_at hb, hk]) (by simp) (by simp)
    (he ▸ .refl _)

/-- A branch that is not taken. -/
theorem Steps.bnez_next {c : Cpu} {k d : ℕ} {r : Reg} (hk : prog[k]? = some (.bnez r d))
    (hb : k < 2 ^ 60) (hpc : c.pc = base + BitVec.ofNat 64 (4 * k)) (hr : c.get r = 0) :
    Steps base prog c { c with pc := base + BitVec.ofNat 64 (4 * (k + 1)) } := by
  have he : exec (.bnez r d) c = { c with pc := base + BitVec.ofNat 64 (4 * (k + 1)) } := by
    simp only [exec, Cpu.next, hr, ne_eq, not_true, if_false]
    rw [hpc, Nat.mul_add, BitVec.ofNat_add, BitVec.add_assoc]; rfl
  exact .step (i := .bnez r d) (by rw [hpc, fetch_at hb, hk]) (by simp) (by simp)
    (he ▸ .refl _)

/-- A jump. -/
theorem Steps.jump {c : Cpu} {k d : ℕ} (hk : prog[k]? = some (.j d)) (hb : k < 2 ^ 60)
    (hpc : c.pc = base + BitVec.ofNat 64 (4 * k)) :
    Steps base prog c { c with pc := base + BitVec.ofNat 64 (4 * (k + d)) } := by
  have he : exec (.j d) c = { c with pc := base + BitVec.ofNat 64 (4 * (k + d)) } := by
    simp only [exec]
    rw [hpc, Nat.mul_add, BitVec.ofNat_add, BitVec.add_assoc]
  exact .step (i := .j d) (by rw [hpc, fetch_at hb, hk]) (by simp) (by simp) (he ▸ .refl _)

end Run

end OscKernel.Lib.Riscv
