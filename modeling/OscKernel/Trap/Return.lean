import OscKernel.Trap.Round
import OscKernel.Thread.Task

/-! # The two returns to user mode of lab5

`return_to_user`, called by `user_process_entry`, and the end of `handle_exception`, instruction by
instruction, with interrupts between the instructions. An interrupt in S-mode leaves `sepc` at the
interrupted instruction, `sscratch` at the interrupted stack pointer, and the `SPP` test in `t0`.

* `interrupt_round`: this is what `handle_exception` does around a `do_trap` that keeps its frame.
* `enter_lands`, `leave_lands`: without interrupts both ways end in the frame's user code. -/

namespace OscKernel.Trap.Return

open OscKernel.Lib.Memory OscKernel.Lib.Riscv OscKernel.Thread.Task
open OscKernel.Trap.Exception OscKernel.Trap.Round

/-! ### The listings -/

/-- `return_to_user`. -/
def returnToUser : List Instr :=
  [.mv .t6 .a0, .ld .t0 tfSstatus .t6, .csrw .sstatus .t0, .ld .t0 tfSepc .t6, .csrw .sepc .t0] ++
    restoredRegs.dropLast.map (fun p => .ld p.2 p.1 .t6) ++ [.ld .sp tfSp .t6, .ld .t6 30 .t6, .sret]

/-- `user_process_entry` up to the call of `return_to_user`. The registers stand for the operands that
the compiler has chosen: `current->kernel_sp` and `&current->trapframe`. -/
def userProcessEntry : List Instr := [.csrw .sscratch .a5, .mv .a0 .a4]

/-- The ways to user mode: a process enters it for the first time, or it leaves a trap. -/
inductive Path
  | enter | leave
  deriving DecidableEq, Repr

/-- The instructions of a way to user mode. The call of `return_to_user` only moves `pc`, and is left
out. -/
def Path.code : Path → List Instr
  | .enter => userProcessEntry ++ returnToUser
  | .leave => epilogue ++ [.sret]

/-- The doublewords of a trap frame. -/
def frameSlot (tf : TrapFrame) (k : ℕ) : Word :=
  if k = tfSepc then tf.sepc
  else if k = tfSstatus then tf.sstatus
  else if k = tfScause then tf.scause
  else if k = tfStval then tf.stval
  else (((tfSp, .sp) :: restoredRegs).lookup k).elim 0 tf.reg

/-- An instruction of a way to user mode: it loads from the trap frame only. -/
def execFrame (F : ℕ → Word) (i : Instr) (c : Cpu) : Cpu :=
  match i with
  | .ld rd k _ => (c.set rd (F k)).next
  | i => exec i c

/-- Instructions one after another. -/
def execFrames (F : ℕ → Word) (l : List Instr) (c : Cpu) : Cpu :=
  l.foldl (fun c i => execFrame F i c) c

/-- An interrupt in S-mode that has been handled. -/
def interrupted (c : Cpu) : Cpu :=
  { c with
    reg := Function.update c.reg .t0 sstatusSpp
    csr := fun
      | .sstatus => sretStatus (trapStatus (c.csr .sstatus) .supervisor)
      | .sepc => c.pc
      | .sscratch => c.reg .sp
      | q => c.csr q }

section Return
variable {F : ℕ → Word} {c : Cpu} {base cause tval : Word} {doTrap : Cpu → Cpu}

theorem interrupted_reg {q : Reg} (hq : q ≠ .t0) : (interrupted c).reg q = c.reg q :=
  Function.update_of_ne hq _ _

theorem execFrame_eq {i : Instr}
    (h : ∀ rd k b, i = .ld rd k b → load c.mem (slot (c.get b) k) = F k) :
    execFrame F i c = exec i c := by
  cases i with
  | ld rd k b => rw [execFrame, exec, h rd k b rfl]
  | _ => rfl

/-! ### Interrupts -/

/-- What the code that was interrupted sees. -/
structure Agrees (r s : Cpu) : Prop where
  reg : ∀ q, r.get q = s.get q
  pc : r.pc = s.pc
  mode : r.mode = s.mode
  csr : ∀ q ∈ [Csr.sstatus, .sepc, .sscratch], r.csr q = s.csr q

theorem csr_epilogue (u : Cpu) :
    (exec .sret (execAll epilogue u)).csr .sepc = load u.mem (slot (u.reg .sp) tfSepc) ∧
      (exec .sret (execAll epilogue u)).csr .sstatus =
        sretStatus (load u.mem (slot (u.reg .sp) tfSstatus)) := by
  have hne : ∀ p ∈ restoredRegs, p.2 ≠ .sp ∧ p.2 ≠ .zero := by decide
  unfold epilogue
  rw [execAll_append, execAll_append, execAll_lds .sp _ _ hne]
  simp [restoreCsrs, exec, Cpu.next, Cpu.set, Cpu.setCsr, Cpu.get, Cpu.sret]

/-- **An interrupt in S-mode**, handled by `handle_exception` around a `do_trap` that keeps its
frame. -/
theorem interrupt_round (hb : c.csr .stvec = base) (hm : c.mode = .supervisor)
    (hk : ReturnsFrame base doTrap c cause tval) :
    ∃ r, ToSret base handleException doTrap (c.takeTrap cause tval) r ∧ Agrees r (interrupted c) := by
  obtain ⟨r, hr, hret⟩ := trap_round hb hk
  obtain ⟨s, hs, hat⟩ : ∃ s, Steps base handleException (c.takeTrap cause tval) s ∧
      AtCall base c cause tval s := entry_run hb
  have hkeep := hk s hs hat.fetch
  have hpc : (doTrap s).next.pc = base + BitVec.ofNat 64 (4 * 53) := by
    rw [Cpu.next, hkeep.pc, hat.pc]
    bv_omega
  -- the same run, with the state in which it ends
  have hend : ToSret base handleException doTrap (doTrap s).next
      (exec .sret (execAll epilogue (doTrap s).next)) := by
    refine (Steps.segment (k := 53) epilogue (by decide) (by decide) (by decide) hpc).toSret (.sret ?_)
    rw [pc_execAll _ _ (by decide), hpc, BitVec.add_assoc, ← BitVec.ofNat_add, ← Nat.mul_add,
      fetch_at (by decide)]
    rfl
  obtain rfl := hr.unique (hs.toSret (.call hat.fetch hend))
  have hload : ∀ k < 35, ∀ v, lastStore k (frameStores c cause tval) = some v →
      load (doTrap s).next.mem (slot ((doTrap s).next.reg .sp) k) = v := by
    intro k hk v hv
    simp only [Cpu.next, hkeep.sp]
    rw [hkeep.frame k hk, hat.load_frame (by omega) hv]
  obtain ⟨hsepc, hsstatus⟩ := csr_epilogue (doTrap s).next
  have h1 := hload tfSepc (by decide) c.pc rfl
  have h2 := hload tfSstatus (by decide) ((c.takeTrap cause tval).csr .sstatus) rfl
  refine ⟨_, hr, ?_, hret.pc, hret.mode, ?_⟩
  · intro q
    by_cases hq : q = .t0
    · subst hq
      rw [hret.t0, savedT0, hm]
      rfl
    · rw [hret.reg q hq]
      simp [Cpu.get, interrupted_reg hq]
  · intro q hq
    simp only [List.mem_cons, List.not_mem_nil, or_false] at hq
    rcases hq with rfl | rfl | rfl
    · rw [hsstatus, h2]
      simp only [Cpu.takeTrap, hm, interrupted]
    · rw [hsepc, h1]
      rfl
    · rw [hret.sscratch, frameOf_add, hm]
      rfl

/-! ### Landing -/

theorem execFrames_lds (b : Reg) : ∀ (l : List (ℕ × Reg)) (c : Cpu),
    (execFrames F (l.map fun p => .ld p.2 p.1 b) c).csr = c.csr ∧
      ∀ r, (∀ p ∈ l, p.2 ≠ r) → (execFrames F (l.map fun p => .ld p.2 p.1 b) c).reg r = c.reg r
  | [], _ => ⟨rfl, fun _ _ => rfl⟩
  | p :: l, c => by
    obtain ⟨hcsr, hreg⟩ := execFrames_lds b l (execFrame F (.ld p.2 p.1 b) c)
    have hset : (execFrame F (.ld p.2 p.1 b) c).csr = c.csr := by
      unfold execFrame Cpu.next Cpu.set
      dsimp only
      split_ifs <;> rfl
    constructor
    · exact hcsr.trans hset
    · intro r hr
      refine (hreg r fun q hq => hr q (List.mem_cons_of_mem _ hq)).trans ?_
      have hpr := hr p (List.mem_cons_self ..)
      unfold execFrame Cpu.next Cpu.set
      dsimp only
      split_ifs
      · rfl
      · exact if_neg fun he => hpr he.symm

theorem execFrames_append (l l' : List Instr) (c : Cpu) :
    execFrames F (l ++ l') c = execFrames F l' (execFrames F l c) := by
  simp [execFrames, List.foldl_append]

/-- The hart executes the code of the frame in user mode, with `top` in `sscratch`. -/
structure Lands (F : ℕ → Word) (top : Word) (c : Cpu) : Prop where
  mode : c.mode = .user
  pc : c.pc = F tfSepc
  sscratch : c.csr .sscratch = top

theorem lands_sret {top : Word} (hspp : (F tfSstatus).getLsbD sppBit = false)
    (h1 : c.csr .sstatus = F tfSstatus) (h2 : c.csr .sepc = F tfSepc) (h3 : c.csr .sscratch = top) :
    Lands F top (exec .sret c) := by
  refine ⟨?_, h2, h3⟩
  change Mode.ofSpp ((c.csr .sstatus).getLsbD sppBit) = .user
  rw [h1, hspp]
  rfl

/-- **The first return**: `user_process_entry` and `return_to_user`. -/
theorem enter_lands (hspp : (F tfSstatus).getLsbD sppBit = false) :
    Lands F (c.reg .a5) (execFrames F (Path.code .enter) c) := by
  unfold Path.code returnToUser
  rw [← List.append_assoc, ← List.append_assoc, execFrames_append, execFrames_append]
  set c1 := execFrames F (userProcessEntry ++ [.mv .t6 .a0, .ld .t0 tfSstatus .t6, .csrw .sstatus .t0,
    .ld .t0 tfSepc .t6, .csrw .sepc .t0]) c with hc1
  have h1 : c1.csr .sstatus = F tfSstatus ∧ c1.csr .sepc = F tfSepc ∧ c1.csr .sscratch = c.reg .a5 := by
    rw [hc1]
    simp [userProcessEntry, execFrames, execFrame, exec, Cpu.next, Cpu.set, Cpu.setCsr, Cpu.get]
  obtain ⟨hcsr, -⟩ := execFrames_lds (F := F) .t6 restoredRegs.dropLast c1
  set c2 := execFrames F (restoredRegs.dropLast.map fun p => .ld p.2 p.1 .t6) c1
  change Lands F _ (exec .sret (execFrames F [.ld .sp tfSp .t6, .ld .t6 30 .t6] c2))
  have hkeep := (execFrames_lds (F := F) .t6 [(tfSp, .sp), (30, .t6)] c2).1.trans hcsr
  exact lands_sret hspp ((congrFun hkeep _).trans h1.1) ((congrFun hkeep _).trans h1.2.1)
    ((congrFun hkeep _).trans h1.2.2)

/-- **The end of a trap**: the epilogue of `handle_exception`. -/
theorem leave_lands (hspp : (F tfSstatus).getLsbD sppBit = false) :
    Lands F (c.reg .sp + tfSize) (execFrames F (Path.code .leave) c) := by
  have hsp : ∀ p ∈ restoredRegs, p.2 ≠ .sp := by decide
  unfold Path.code epilogue
  rw [execFrames_append, execFrames_append, execFrames_append]
  set c1 := execFrames F restoreCsrs c with hc1
  have h1 : c1.csr .sstatus = F tfSstatus ∧ c1.csr .sepc = F tfSepc ∧ c1.reg .sp = c.reg .sp := by
    rw [hc1]
    simp [restoreCsrs, execFrames, execFrame, exec, Cpu.next, Cpu.set, Cpu.setCsr, Cpu.get]
  obtain ⟨hcsr, hreg⟩ := execFrames_lds (F := F) .sp restoredRegs c1
  set c2 := execFrames F (restoredRegs.map fun p => .ld p.2 p.1 .sp) c1
  have h2 : c2.reg .sp = c.reg .sp := (hreg .sp hsp).trans h1.2.2
  refine lands_sret hspp ?_ ?_ ?_
  · simpa [execFrames, execFrame, exec, Cpu.next, Cpu.set, Cpu.setCsr] using
      (congrFun hcsr .sstatus).trans h1.1
  · simpa [execFrames, execFrame, exec, Cpu.next, Cpu.set, Cpu.setCsr] using
      (congrFun hcsr .sepc).trans h1.2.1
  · simp [execFrames, execFrame, exec, Cpu.next, Cpu.set, Cpu.setCsr, Cpu.get, h2]

end Return

end OscKernel.Trap.Return
