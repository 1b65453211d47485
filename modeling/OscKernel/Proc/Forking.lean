import OscKernel.Proc.Images

/-! # `fork` in a signal handler

A process that executes a signal handler stands on its signal stack, which `user_fork` does not copy.
The child goes on in a copy of the handler, but it is in no handler.

* `forkInHandler_step`: what such a call of `fork` does.
* `forkInHandler_shares`: the child shares the signal stack, and its `sigreturn` does not bring it
  back to what its parent was interrupted at. -/

namespace OscKernel.Proc.Forking

open OscKernel.Lib.Memory OscKernel.Lib.Riscv OscKernel.Lib.Transition
open OscKernel.Thread.Task OscKernel.Thread.RunQueue OscKernel.Thread.Sched OscKernel.Thread.Inv
open OscKernel.Thread.Effect OscKernel.User.Signal OscKernel.User.Process
open OscKernel.Proc.Ops OscKernel.Proc.System OscKernel.Proc.Step OscKernel.Proc.PerTask
open OscKernel.Proc.Homes
open OscKernel.Proc.Handlers (returnToUser_handles)
open OscKernel.Proc.Images (LiveUser threadCreate_live)
open OscKernel.Proc.Delivery (step signalRun)

/-! ### Stacks -/

/-- `signal_stacks[i]`. -/
def signalStackBase (L : Layout) (i : Slot) : Word :=
  L.signalStacks + BitVec.ofNat 64 (stackSize * i.val)

/-- A stack pointer for the stack from `base` up to `top`. -/
def PointsInto (base top ptr : Word) : Prop := base ≤ ptr ∧ ptr ≤ top

instance (base top ptr : Word) : Decidable (PointsInto base top ptr) := by
  unfold PointsInto; infer_instance

/-- The user stacks and the signal stacks are two arrays. -/
structure StacksApart (L : Layout) : Prop where
  user : L.userStacks.toNat + 16 * stackSize ≤ 2 ^ 64
  signal : L.signalStacks.toNat + 16 * stackSize ≤ 2 ^ 64
  apart : L.userStacks.toNat + 16 * stackSize ≤ L.signalStacks.toNat ∨
    L.signalStacks.toNat + 16 * stackSize ≤ L.userStacks.toNat

section Stacks
variable {L : Layout} {p : Slot} {ptr : Word}

theorem toNat_stack {arr : Word} (h : arr.toNat + 16 * stackSize ≤ 2 ^ 64) (i : Slot) :
    (arr + BitVec.ofNat 64 (stackSize * i.val)).toNat = arr.toNat + stackSize * i.val ∧
      ((arr + BitVec.ofNat 64 (stackSize * i.val) + BitVec.ofNat 64 stackSize) &&& ~~~ 0xF).toNat ≤
        arr.toNat + stackSize * i.val + stackSize := by
  have hi := i.isLt
  have hbase := Images.toNat_element h i
  refine ⟨hbase, ?_⟩
  rw [BitVec.toNat_and]
  refine Nat.and_le_left.trans ?_
  rw [BitVec.toNat_add, hbase, BitVec.toNat_ofNat]
  unfold stackSize at h ⊢
  omega

/-- **A pointer into the signal stack** of a process is none into its user stack. -/
theorem StacksApart.not_user (h : StacksApart L)
    (hp : PointsInto (signalStackBase L p) (L.signalStackTop p) ptr) :
    ¬ PointsInto (L.userStackBase p) (L.userStackTop p) ptr := by
  intro hu
  obtain ⟨hs1, hs2⟩ := toNat_stack h.signal p
  obtain ⟨hu1, hu2⟩ := toNat_stack h.user p
  have h1 := BitVec.le_def.1 hp.1
  have h2 := BitVec.le_def.1 hp.2
  have h3 := BitVec.le_def.1 hu.1
  have h4 := BitVec.le_def.1 hu.2
  have ha := h.apart
  rw [signalStackBase, hs1] at h1
  rw [Layout.userStackBase, hu1] at h3
  have h2 := h2.trans hs2
  have h4 := h4.trans hu2
  unfold stackSize at *
  omega

end Stacks

/-! ### The call -/

/-- The live user process `p` calls `fork` while it executes a signal handler, with `sp` in its signal
stack. -/
structure ForksInHandler (L : Layout) (s : Sys) (e : Event) (p : Slot) : Prop where
  live : LiveUser s.k p
  handling : (s.k.tasks p).handlingSignal = true
  call : ∃ tf reg sepc stval file, s.place = .user tf ∧ e = .trap reg sepc causeEcall stval file ∧
    reg .tp = L.taskAddr p ∧ Syscall.ofNumber (reg .a7) = some .fork ∧
    PointsInto (signalStackBase L p) (L.signalStackTop p) (reg .sp)

/-- The slot that `thread_create` gives to the child of `p`. -/
def NewSlot (L : Layout) (k : Kernel) (p c : Slot) : Prop :=
  ∃ k', threadCreate L L.userProcessEntry (k.setTp (some p)) = some (k', some c)

/-- The child `c` runs on stack memory that `p` does not use. -/
def OwnStack (L : Layout) (k : Kernel) (p c : Slot) : Prop :=
  ¬ PointsInto (signalStackBase L p) (L.signalStackTop p) ((k.tasks c).trapframe.reg .sp) ∧
    ¬ PointsInto (k.tasks p).userStackBase (k.tasks p).userStackTop ((k.tasks c).trapframe.reg .sp)

/-- `sigreturn` of the task in the slot `i` resumes it with the frame `F`. -/
def Resumes (k : Kernel) (i : Slot) (F : TrapFrame) : Prop :=
  ∃ tf k', sysSigreturn (k.setTp (some i)) tf = (k', F, 0)

section Fork
variable {L : Layout} {k k' : Kernel} {s t : Sys} {e : Event} {os : List Obs} {p c : Slot} {v : ℤ}
  {tf : TrapFrame}

theorem not_resumes (h : (k.tasks c).handlingSignal = false) (F : TrapFrame) : ¬ Resumes k c F := by
  rintro ⟨tf, k', hs⟩
  unfold sysSigreturn at hs
  rw [Kernel.setTp_tp] at hs
  dsimp only at hs
  split_ifs at hs with h1 h2
  · simp at hs
  · simp at hs
  · exact h2 h

theorem resumes_of_handling (hu : (k.tasks p).isUser = true)
    (hh : (k.tasks p).handlingSignal = true) : Resumes k p (k.tasks p).signalSavedTf := by
  refine ⟨.zero, (k.setTp (some p)).modify p endHandler, ?_⟩
  unfold sysSigreturn
  rw [Kernel.setTp_tp]
  dsimp only
  rw [if_neg (by simp [hu]), if_neg (by simp [hh])]
  rfl

/-- **The child of a fork** is in no handler, and its stack pointer is that of its parent, if that
points into no user stack. -/
theorem userFork_child {k1 : Kernel} (ht : k.tp = some p) (hp : LiveUser k p)
    (hc : threadCreate L L.userProcessEntry k = some (k1, some c))
    (hk : userFork L tf k = some (k', v)) :
    k'.tp = some p ∧ (k'.tasks p).core = (k.tasks p).core ∧
      (k'.tasks c).handlingSignal = false ∧
      (¬ PointsInto (k.tasks p).userStackBase (k.tasks p).userStackTop (tf.reg .sp) →
        (k'.tasks c).trapframe.reg .sp = tf.reg .sp) := by
  obtain ⟨hcore, hne⟩ := threadCreate_live hp.2 hc
  have hpc : p ≠ c := fun he => hne (congrArg some he.symm)
  have hbase := proj_of_core TaskStruct.userStackBase (fun _ => rfl) hcore
  have htop := proj_of_core TaskStruct.userStackTop (fun _ => rfl) hcore
  obtain ⟨-, rfl⟩ := userFork_of_created ht hp.1 hc hk
  refine ⟨(threadCreate_tp hc).trans ht, ?_, ?_, fun hn => ?_⟩
  · change ((k1.modify c _).tasks p).core = _
    rw [Kernel.modify_of_ne _ c _ hpc]
    exact hcore
  · change ((k1.modify c _).tasks c).handlingSignal = _
    rw [Kernel.modify_same]
    rfl
  · change ((k1.modify c _).tasks c).trapframe.reg .sp = _
    rw [Kernel.modify_same]
    have hsp : ∀ t : TaskStruct, (forkChild L c p (k1.tasks p) tf t).trapframe.reg .sp =
        if (k1.tasks p).userStackBase ≤ tf.reg .sp ∧ tf.reg .sp ≤ (k1.tasks p).userStackTop then
          L.userStackBase c + (tf.reg .sp - (k1.tasks p).userStackBase)
        else tf.reg .sp := by
      intro t
      simp [forkChild, signalFork, TrapFrame.setReg, translateStackPtr]
    rw [hsp, hbase, htop]
    exact if_neg hn

theorem leaveTrap_handling (ht : k.tp = some p) (hh : (k.tasks p).handlingSignal = true)
    (hs : s.leaveTrap L k tf = some (t, os)) : t.k = k := by
  have hd : signalTryDeliver L k tf = some (k, .ret, tf) := by
    unfold signalTryDeliver
    rw [ht]
    dsimp only
    split_ifs
    · rfl
    · rfl
  unfold Sys.leaveTrap at hs
  rw [hd] at hs
  obtain ⟨⟨t1, os1⟩, h1, h2⟩ := Option.map_eq_some_iff.1 hs
  rw [Prod.mk.injEq] at h2
  obtain ⟨rfl, -⟩ := h2
  exact (returnToUser_handles h1).2.2.1

/-- **`fork` in a handler**: the step is the call of `user_fork`. -/
theorem forkInHandler_step (h : ForksInHandler L s e p) (hst : s.step L e = some (t, os))
    (hc : NewSlot L s.k p c) :
    ∃ call v, userFork L call (s.k.setTp (some p)) = some (t.k, v) ∧
      PointsInto (signalStackBase L p) (L.signalStackTop p) (call.reg .sp) := by
  obtain ⟨tf, reg, sepc, stval, file, hplace, rfl, htp, hcall, hsp⟩ := h.call
  obtain ⟨k1, hc⟩ := hc
  set frame := trapFrame s.sstatus reg sepc causeEcall stval with hframe
  set call : TrapFrame := { frame with sepc := frame.sepc + 4 } with hcallframe
  unfold Sys.step at hst
  rw [hplace] at hst
  dsimp only at hst
  unfold Sys.trap at hst
  rw [htp, Layout.taskOf_taskAddr] at hst
  dsimp only at hst
  rw [Sys.doTrap, if_neg (by exact (by decide : causeEcall ≠ causeTimer)),
    if_neg (by exact (by decide : causeEcall ≠ causeExternal)), if_pos (by rfl)] at hst
  have hsys : ∀ st, syscallHandler L file st (s.k.setTp (some p)) call =
      (userFork L call (s.k.setTp (some p))).map fun r => (r.1, .ret call (BitVec.ofInt 64 r.2)) := by
    intro st
    unfold syscallHandler
    dsimp only
    rw [show Syscall.ofNumber (call.reg .a7) = some .fork from hcall]
  unfold Sys.ecall at hst
  dsimp only at hst
  rw [hsys] at hst
  rcases hf : userFork L call (s.k.setTp (some p)) with _ | ⟨k', v⟩
  · rw [hf] at hst
    cases hst
  · rw [hf] at hst
    obtain ⟨⟨t1, os1⟩, h1, h2⟩ := Option.map_eq_some_iff.1 hst
    rw [Prod.mk.injEq] at h2
    obtain ⟨rfl, -⟩ := h2
    have hlive : LiveUser (s.k.setTp (some p)) p := h.live
    obtain ⟨htp', hcore, -⟩ := userFork_child rfl hlive hc hf
    have hh : (k'.tasks p).handlingSignal = true :=
      (proj_of_core TaskStruct.handlingSignal (fun _ => rfl) hcore).trans h.handling
    refine ⟨call, v, ?_, hsp⟩
    rw [leaveTrap_handling htp' hh h1]
    exact hf

end Fork

/-! ### All runs -/

/-- No handler is started in the slot `c`. -/
def QuietIn (L : Layout) (c : Slot) (s : Sys) (e : Event) : Prop :=
  ∀ t os, s.step L e = some (t, os) → Quiet (· = c) os

section Run
variable {L : Layout} {m : Mem} {es : List Event} {s t : Sys} {e : Event} {os : List Obs} {p c : Slot}

/-- **`fork` in a signal handler**, in every run: the child has the stack pointer of its parent,
in the signal stack of its parent. While its parent will be resumed by `sigreturn`, the child, as
long as no handler of its own is started, will not: neither with the frame of its parent nor with
any other. -/
theorem forkInHandler_shares (hL : StacksApart L)
    (hrun : Run (step L) (fun _ _ => True) (boot L m) es s) (h : ForksInHandler L s e p)
    (hst : s.step L e = some (t, os)) (hc : NewSlot L s.k p c) :
    Resumes t.k p (s.k.tasks p).signalSavedTf ∧ ¬ OwnStack L t.k p c ∧
      ∀ fs u, Run (step L) (QuietIn L c) t fs u → ∀ F, ¬ Resumes u.k c F := by
  obtain ⟨call, v, hfork, hsp⟩ := forkInHandler_step h hst hc
  obtain ⟨k1, hcreate⟩ := hc
  have hlive : LiveUser (s.k.setTp (some p)) p := h.live
  obtain ⟨-, hcore, hquiet, hsame⟩ := userFork_child rfl hlive hcreate hfork
  have hhome := (housed_of_run hrun p).stack h.live.1
  refine ⟨?_, fun hown => ?_, fun fs u hr => ?_⟩
  · have hu := (proj_of_core TaskStruct.isUser (fun _ => rfl) hcore).trans h.live.1
    have hh := (proj_of_core TaskStruct.handlingSignal (fun _ => rfl) hcore).trans h.handling
    have hsaved := proj_of_core TaskStruct.signalSavedTf (fun _ => rfl) hcore
    rw [Kernel.setTp_tasks] at hsaved
    exact hsaved ▸ resumes_of_handling hu hh
  · have hn : ¬ PointsInto (s.k.tasks p).userStackBase (s.k.tasks p).userStackTop (call.reg .sp) := by
      rw [hhome.1, hhome.2]
      exact hL.not_user hsp
    exact hown.1 ((hsame hn).symm ▸ hsp)
  · have hall : AllTasks (Housed L (· = c)) t.k := fun i =>
      ⟨(housed_step (housed_of_run hrun) hst (fun _ _ hf => hf.elim) i).stack, fun hi => hi ▸ hquiet⟩
    exact not_resumes ((housed_since hall hr c).quiet rfl)

end Run

/-! ### A handler that forks -/

theorem place_of_trap {L : Layout} {s : Sys} {r : Sys × List Obs} {reg : Reg → Word}
    {sepc scause stval : Word} {file : Option (List Byte)}
    (h : s.step L (.trap reg sepc scause stval file) = some r) : ∃ tf, s.place = .user tf := by
  unfold Sys.step at h
  split at h
  · rename_i act _ _
    unfold Sys.kernelStep at h
    split at h <;> simp_all
  · rename_i heq
    cases heq
  · rename_i heq
    cases heq
  · rename_i tf _ _ _ _ _ hp _
    exact ⟨tf, hp⟩
  · cases h

/-- The process in the slot `1` sends itself the signal `1`, whose handler is started. -/
def handlerRun : List Event := signalRun ++ [callOf sampleLayout 1 12 1 1]

/-- The handler calls `fork`. -/
def forkEvent : Event :=
  .trap (Function.update (callRegs (sampleLayout.taskAddr 1) 4 0 0) .sp
    (sampleLayout.signalStackTop 1 - 32)) 0x304 causeEcall 0 none

/-- What is looked at before and after the call. -/
def forkView (s : Sys) : Option (Bool × Option (Option Slot) × Word × Bool) :=
  (s.step sampleLayout forkEvent).map fun r =>
    (decide ((s.k.tasks 1).isUser = true ∧ s.k.state 1 = .running ∧
        (s.k.tasks 1).handlingSignal = true),
      (threadCreate sampleLayout sampleLayout.userProcessEntry (s.k.setTp (some 1))).map Prod.snd,
      (r.1.k.tasks 2).trapframe.reg .sp, (r.1.k.tasks 2).handlingSignal)

theorem handlerRun_forks : ∃ s t os, Run (step sampleLayout) (TpKept sampleLayout)
    (boot sampleLayout fun _ => 0) handlerRun s ∧ ForksInHandler sampleLayout s forkEvent 1 ∧
      s.step sampleLayout forkEvent = some (t, os) ∧ NewSlot sampleLayout s.k 1 2 ∧
      (t.k.tasks 2).trapframe.reg .sp = sampleLayout.signalStackTop 1 - 32 ∧
      (t.k.tasks 2).handlingSignal = false := by
  have hex : ((exec (step sampleLayout) (fun s e => decide (TpKept sampleLayout s e))
      (boot sampleLayout fun _ => 0) handlerRun).map forkView) =
      some (some (true, some (some 2), sampleLayout.signalStackTop 1 - 32, false)) := by decide +kernel
  obtain ⟨s, hr, hv⟩ := Run.exists_of_exec (C := TpKept sampleLayout)
    (fun _ _ ho => of_decide_eq_true ho) hex
  obtain ⟨⟨t, os⟩, hst, hv⟩ := Option.map_eq_some_iff.1 hv
  simp only [Prod.mk.injEq, decide_eq_true_eq] at hv
  obtain ⟨⟨hu, hs, hh⟩, hc, hsp, hq⟩ := hv
  obtain ⟨tf, hp⟩ := place_of_trap hst
  obtain ⟨⟨k', r⟩, hc, rfl⟩ := Option.map_eq_some_iff.1 hc
  refine ⟨s, t, os, hr, ⟨⟨hu, .inr hs⟩, hh, tf, _, _, _, _, hp, rfl, ?_, ?_, ?_⟩, hst, ⟨k', hc⟩,
    hsp, hq⟩
  · decide
  · decide
  · decide

theorem forkInHandler_shares_sample : ∃ s t os, Run (step sampleLayout) (fun _ _ => True)
    (boot sampleLayout fun _ => 0) handlerRun s ∧ ForksInHandler sampleLayout s forkEvent 1 ∧
      s.step sampleLayout forkEvent = some (t, os) ∧
      Resumes t.k 1 (s.k.tasks 1).signalSavedTf ∧ ¬ OwnStack sampleLayout t.k 1 2 ∧
      ∀ fs u, Run (step sampleLayout) (QuietIn sampleLayout 2) t fs u → ∀ F, ¬ Resumes u.k 2 F := by
  have hL : StacksApart sampleLayout := ⟨by decide, by decide, .inl (by decide)⟩
  obtain ⟨s, t, os, hr, hf, hst, hc, -⟩ := handlerRun_forks
  have hr : Run (step sampleLayout) (fun _ _ => True) _ handlerRun s := hr.mono fun _ _ _ => trivial
  exact ⟨s, t, os, hr, hf, hst, forkInHandler_shares hL hr hf hst hc⟩

/-- **The child has no stack of its own, and is not resumed.** -/
theorem not_own_stack_sample : ∃ s t os, Run (step sampleLayout) (TpKept sampleLayout)
    (boot sampleLayout fun _ => 0) handlerRun s ∧ ForksInHandler sampleLayout s forkEvent 1 ∧
      s.step sampleLayout forkEvent = some (t, os) ∧ NewSlot sampleLayout s.k 1 2 ∧
      ¬ OwnStack sampleLayout t.k 1 2 ∧ ∀ F, ¬ Resumes t.k 2 F := by
  obtain ⟨s, t, os, hr, hf, hst, hc, hsp, hq⟩ := handlerRun_forks
  refine ⟨s, t, os, hr, hf, hst, hc, fun hown => hown.1 ?_, not_resumes hq⟩
  rw [hsp]
  decide

end OscKernel.Proc.Forking
