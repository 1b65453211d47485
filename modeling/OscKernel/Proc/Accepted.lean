import OscKernel.Proc.Signals

/-! # Accepted signals

`Accepts` is a step in which a `kill` for a signal with a handler returns `0`. A signal is pending
exactly if it was accepted since its handler was last started, since the last `exec` of its task, and
since its task was created; and the end of a trap acts on the lowest signal that is pending.

* `step_pends`: what one step does to the pending signals.
* `trapEnd_acts`: what the end of a trap does.
* `pending_of_run`: all runs. -/

namespace OscKernel.Proc.Accepted

open OscKernel.Lib.Memory OscKernel.Lib.Riscv OscKernel.Lib.Transition
open OscKernel.Thread.Task OscKernel.Thread.RunQueue OscKernel.Thread.Sched OscKernel.Thread.Inv
open OscKernel.Thread.Effect OscKernel.User.Signal OscKernel.User.Process OscKernel.User.Effect
open OscKernel.Proc.Ops OscKernel.Proc.System OscKernel.Proc.Step OscKernel.Proc.Stands
open OscKernel.Proc.Handlers OscKernel.Proc.Buffer OscKernel.Proc.Delivery OscKernel.Proc.Signals

/-! ### Steps that accept and drop signals -/

/-- The task on the processor calls `kill` for the signal of the task in the slot, which has a handler
for it, and the call returns `0`. -/
def Accepts (s : Sys) (e : Event) (os : List Obs) (i : Slot) (sig : Fin maxSignals) : Prop :=
  callBy s e s.me = some .kill ∧ ∃ call, KillsWithHandler s.k call i sig ∧ .sysRet call 0 ∈ os

/-- The task in the slot calls `exec`, and the call returns `0`. -/
def Execs (s : Sys) (e : Event) (os : List Obs) (i : Slot) : Prop :=
  i = s.me ∧ callBy s e i = some .exec ∧ ∃ call, .sysRet call 0 ∈ os

/-- What one step does to the pending signals. -/
def StepPends (s : Sys) (e : Event) (t : Sys) (os : List Obs) : Prop :=
  ∀ i sig, Pending t.k i sig ↔ ¬ Starts os t i sig ∧
    (Accepts s e os i sig ∨ (¬ Execs s e os i ∧ SameTask s.k t.k i ∧ Pending s.k i sig))

section Step
variable {L : Layout} {s t : Sys} {e : Event} {os : List Obs} {k : Kernel}

theorem StepPends.of_carries (hc : Carries s.k k) (h : Settles k t os)
    (hn : callBy s e s.me ≠ some .kill) (hx : callBy s e s.me ≠ some .exec) : StepPends s e t os := by
  intro i sig
  have hne : ¬ Execs s e os i := by
    rintro ⟨rfl, he, -⟩
    exact hx he
  rw [h.pending, hc i sig, h.sameTask, or_iff_right fun ha : Accepts s e os i sig => hn ha.1,
    and_iff_right hne]

theorem callBy_of_kernel {act : Act} (hp : s.place = .kernel act ∨ s.place = .calls act) (i : Slot) :
    callBy s e i = none := by
  unfold callBy
  rcases hp with hp | hp <;> rw [hp]

theorem StepPends.of_kernel {act : Act} (hp : s.place = .kernel act ∨ s.place = .calls act)
    (hc : Carries s.k k) (h : Settles k t os) : StepPends s e t os := by
  refine .of_carries hc h ?_ ?_ <;>
  · rw [callBy_of_kernel hp]
    decide

theorem StepPends.of_call {call : TrapFrame} {out : Outcome}
    (hc : CallPends s.me s.k call k out) (h : Settles k t os)
    (hn : callBy s e s.me = Syscall.ofNumber (call.reg .a7))
    (hret : ∀ call' v, .sysRet call' v ∈ os ↔ call' = call ∧ returned out = some v) :
    StepPends s e t os := by
  intro i sig
  have ha : Accepts s e os i sig ↔ KillsWithHandler s.k call i sig ∧ returned out = some 0 := by
    constructor
    · rintro ⟨-, call', hk, hm⟩
      obtain ⟨rfl, hr⟩ := (hret call' 0).1 hm
      exact ⟨hk, hr⟩
    · rintro ⟨hk, hr⟩
      exact ⟨hn.trans hk.number, call, hk, (hret call 0).2 ⟨rfl, hr⟩⟩
  have hx : Execs s e os i ↔ i = s.me ∧ Syscall.ofNumber (call.reg .a7) = some .exec ∧
      returned out = some 0 := by
    constructor
    · rintro ⟨rfl, he, call', hm⟩
      exact ⟨rfl, hn ▸ he, ((hret call' 0).1 hm).2⟩
    · rintro ⟨rfl, he, hr⟩
      exact ⟨rfl, hn.trans he, call, (hret call 0).2 ⟨rfl, hr⟩⟩
  rw [h.pending, hc i sig, h.sameTask, ha, hx]

theorem ecall_pends {file : Option (List Byte)} {tf : TrapFrame} (hi : SysInv L s) (hz : Clean s.k)
    (hn : callBy s e s.me = Syscall.ofNumber (tf.reg .a7))
    (hs : s.ecall L file tf = some (t, os)) : StepPends s e t os := by
  obtain ⟨k', tf', v, hc, hs⟩ | ⟨k', act, hc, hs⟩ | ⟨k', prev, next, hc, hs⟩ :=
    Sys.ecall_outcome hs
  · have hst : Stays L s.me (.sweep s.k) s.k _ := syscallHandler_ok hi.tp hi.table hi.tidy hc
    refine .of_call (syscallHandler_pends hi.tp hi.table hz hc) (afterSyscall_settles hst hs) hn
      fun call' v => ?_
    rw [(afterSyscall_place hst hs).2, returned, Option.some.injEq, @eq_comm _ v]
  · refine .of_call (syscallHandler_pends hi.tp hi.table hz hc) (goto_settles hs) hn fun call' v => ?_
    exact iff_of_false ((goto_plain hs).noRet call' v) fun hx => nomatch hx.2
  · refine .of_call (syscallHandler_pends hi.tp hi.table hz hc) (switch_settles hs) hn
      fun call' v => ?_
    exact iff_of_false ((switch_plain hs).noRet call' v) fun hx => nomatch hx.2

theorem trap_pends {reg : Reg → Word} {sepc scause stval : Word} {file : Option (List Byte)}
    {tf0 : TrapFrame} (hi : SysInv L s) (hz : Clean s.k) (hp : s.place = .user tf0)
    (hr : reg .tp = L.taskAddr s.me) (hs : s.trap L reg sepc scause stval file = some (t, os)) :
    StepPends s (.trap reg sepc scause stval file) t os := by
  have hcall : callBy s (.trap reg sepc scause stval file) s.me =
      if scause = causeEcall then Syscall.ofNumber (reg .a7) else none := by
    unfold callBy
    rw [hp]
    simp
  have hnone : scause ≠ causeEcall →
      ∀ n, callBy s (.trap reg sepc scause stval file) s.me ≠ some n := by
    intro hsc n
    rw [hcall, if_neg hsc]
    rintro ⟨⟩
  rw [trap_eq hi.tp hr] at hs
  have hi' : SysInv L { s with sstatus := trapStatus s.sstatus .user } :=
    ⟨hi.tp, hi.table, hi.tidy, hi.place⟩
  have hrefl : Stays L s.me .nothing s.k s.k := .refl hi.tp hi.table
  have hc := (Steady.refl s.k).carries hz
  unfold Sys.doTrap at hs
  split_ifs at hs with h1 h2 h3
  · have hne : scause ≠ causeEcall := fun he => absurd (he.symm.trans h1) (by decide)
    exact .of_carries hc (goto_settles hs) (hnone hne _) (hnone hne _)
  · have hne : scause ≠ causeEcall := fun he => absurd (he.symm.trans h2) (by decide)
    exact .of_carries hc (leaveTrap_settles (s := { s with sstatus := trapStatus s.sstatus .user })
      hrefl hs) (hnone hne _) (hnone hne _)
  · have hsc : scause = causeEcall := h3
    have h := ecall_pends (e := .trap reg sepc scause stval file) hi' hz
      (hcall.trans (if_pos hsc)) hs
    exact h

theorem waitForNew_pends {act : Act} {r : Option (Kernel × Option Slot)} (hp : s.place = .kernel act)
    (h : ∀ k r', r = some (k, r') → Carries s.k k) (hs : s.waitForNew r = some (t, os)) :
    StepPends s e t os := by
  unfold Sys.waitForNew at hs
  split at hs
  · cases hs
  · exact .of_kernel (.inl hp) (h _ _ rfl) (goto_settles hs)
  · exact .of_kernel (.inl hp) (h _ _ rfl) (goto_settles hs)

theorem startThread_settles (hi : SysInv L s) (hs : s.startThread L = some (t, os)) :
    Settles s.k t os := by
  unfold Sys.startThread at hs
  rw [hi.tp] at hs
  dsimp only at hs
  split_ifs at hs
  · exact returnToUser_settles hs
  · exact exitThread_settles hi hs
  · exact goto_settles hs

theorem reap_carries (hz : Clean s.k) (i : Slot) :
    Carries s.k (if s.k.state i = .zombie then taskReap s.k (some i) else s.k) := by
  split_ifs
  · exact taskReap_carries hz _
  · exact (Steady.refl s.k).carries hz

theorem kernelStep_pends {act : Act} (hi : SysInv L s) (hz : Clean s.k) (hp : s.place = .kernel act)
    (hs : s.kernelStep L act e = some (t, os)) : StepPends s e t os := by
  have hrefl : Stays L s.me .nothing s.k s.k := .refl hi.tp hi.table
  have hc := (Steady.refl s.k).carries hz
  have hpl : s.place = .kernel act ∨ s.place = .calls act := .inl hp
  cases Sys.kernelStep_outcome hs with
  | start next => exact .of_kernel hpl hc (startThread_settles hi next)
  | create call next =>
    exact .of_kernel hpl (threadCreate_carries hi.table hz call).1 (goto_settles next)
  | createUser next =>
    exact waitForNew_pends hp (fun k r hk => userProcessCreate_carries hi.table hz hk) next
  | runUserFile next =>
    exact waitForNew_pends hp (fun k r hk => userProcessCreateFromFile_carries hi.table hz hk) next
  | sweep next => exact .of_kernel hpl (killZombies_carries hi.table hz) (goto_settles next)
  | exits next => exact .of_kernel hpl hc (exitThread_settles hi next)
  | doneOver _ next => exact .of_kernel hpl (reap_carries hz _) (goto_settles next)
  | timer next => exact .of_kernel hpl hc (leaveTrap_settles hrefl next)
  | @waitpidOver tf pid child ready _ next =>
    have hal : allows s (.go ready) = ⟨fun j => j = child, fun _ => False⟩ := by
      unfold allows
      rw [hp]
    exact .of_kernel hpl (reap_carries hz child) (afterSyscall_settles (reap_stays hi hal) next)
  | readNext _ next => exact .of_kernel hpl ((Steady.store ..).carries hz) (goto_settles next)
  | readOver _ _ next =>
    exact .of_kernel hpl ((Steady.store ..).carries hz) (afterSyscall_settles (hrefl.setMem _) next)
  | sleepOver next => exact .of_kernel hpl hc (afterSyscall_settles hrefl next)
  | yields next | doneOn next | exitLoop next | waitpidOn next | readOn next | sleepOn next =>
    exact .of_kernel hpl hc (goto_settles next)

/-- **What a step does to the pending signals**, while user code leaves `tp` alone. -/
theorem step_pends (hi : SysInv L s) (hz : Clean s.k) (hu : TpKept L s e)
    (hs : s.step L e = some (t, os)) : StepPends s e t os := by
  unfold Sys.step at hs
  split at hs
  · rename_i hp
    exact kernelStep_pends hi hz hp hs
  · rename_i hp
    exact .of_kernel (.inr hp) ((Steady.refl s.k).carries hz) (callSchedule_settles hi hs)
  · rename_i a v hp
    have hcall : ∀ n, callBy s (.store a v) s.me ≠ some n := fun n => by
      unfold callBy
      rw [hp]
      rintro ⟨⟩
    exact .of_carries ((Steady.store ..).carries hz) (goto_settles (Sys.userStore_outcome hs).2)
      (hcall _) (hcall _)
  · rename_i hp
    exact trap_pends hi hz hp hu hs
  · cases hs

theorem StepPends.clean (h : StepPends s e t os) (ho : StepOk L s e t) : Clean t.k := by
  intro i hu sig hp
  rcases ((h i sig).1 hp).2 with ⟨-, call, hk, -⟩ | ⟨-, hs, -⟩
  · -- a task that can be sent a signal is not reaped by the same step
    obtain ⟨hused, hlive⟩ := isRunnable_iff.1 hk.live
    exact hlive (Clears.zombie ⟨hused, .inl hu⟩ ho.effect).1
  · exact hs.2.1 hu

end Step

/-! ### The end of a trap -/

/-- The frame in which `do_trap` leaves the value of a system call. -/
def resultFrame (call tf : TrapFrame) (v : Word) : TrapFrame :=
  if Syscall.ofNumber (call.reg .a7) = some .sigreturn then tf else tf.setReg .a0 v

/-- The kernel and the frame with which a step comes to the end of a trap from user mode, where
`do_trap` calls `signal_try_deliver`. -/
def trapEnd (L : Layout) (s : Sys) (e : Event) : Option (Kernel × TrapFrame) :=
  match s.place, e with
  | .kernel (.timer tf), .go _ => some (s.k, tf)
  | .kernel (.waitpid tf pid child), .go _ =>
    if hasEnded s.k child then
      some (if s.k.state child = .zombie then taskReap s.k (some child) else s.k,
        resultFrame tf tf (BitVec.ofInt 64 pid))
    else none
  | .kernel (.read tf i), .getc c =>
    let a := tf.reg .a0 + BitVec.ofNat 64 i
    if UserMem L a ∧ i + 1 = (tf.reg .a1).toNat then
      some (s.k.store a c, resultFrame tf tf (tf.reg .a1))
    else none
  | .kernel (.sleep tf), .go ready => if ready then some (s.k, resultFrame tf tf 0) else none
  | .user _, .trap reg sepc scause stval file =>
    match L.taskOf (reg .tp) with
    | none => none
    | some tp =>
      let tf := trapFrame s.sstatus reg sepc scause stval
      if scause = causeExternal then some (s.k.setTp tp, tf)
      else if scause = causeEcall then
        let call := { tf with sepc := tf.sepc + 4 }
        match syscallHandler L file (trapStatus s.sstatus .user) (s.k.setTp tp) call with
        | some (k, .ret tf v) => some (k, resultFrame call tf v)
        | _ => none
      else none
  | _, _ => none

/-- The signal is the lowest one that is pending. -/
def Lowest (k : Kernel) (i : Slot) (sig : Fin maxSignals) : Prop :=
  sig ≠ 0 ∧ Pending k i sig ∧ ∀ low, low ≠ 0 → low < sig → ¬ Pending k i low

/-- From `k` and the frame `tf` on, the handler of the task in the slot for the signal is started; or,
if there is none, the task dies of the signal. -/
def ActsOn (L : Layout) (k : Kernel) (tf : TrapFrame) (i : Slot) (sig : Fin maxSignals) (t : Sys)
    (os : List Obs) : Prop :=
  if (k.tasks i).signalHandlers sig = 0 then
    t.k.state i = .zombie ∧ (t.k.tasks i).exitStatus = BitVec.ofInt 32 (-sig.val)
  else
    t.me = i ∧ t.place = .user (handlerFrame L i sig ((k.tasks i).signalHandlers sig) tf) ∧
      t.k.tasks i = startHandler sig tf (k.tasks i) ∧ .handler i tf ∈ os

section End
variable {L : Layout} {s t : Sys} {e : Event} {os : List Obs} {k : Kernel} {tf : TrapFrame}

theorem threadExit_exitStatus {k' : Kernel} {flow : Flow} (h : threadExit k = some (k', flow))
    (i : Slot) : (k'.tasks i).exitStatus = (k.tasks i).exitStatus := by
  obtain ⟨c, n, k1, -, hq, -, rfl⟩ := threadExit_cases h
  rw [Kernel.setState_proj _ _ TaskStruct.exitStatus _ fun _ => rfl,
    Kernel.setState_proj _ _ TaskStruct.exitStatus _ fun _ => rfl,
    hq.proj TaskStruct.exitStatus fun _ => rfl]

theorem taskKill_self_status {c n : Slot} {k' : Kernel} {pid v : ℤ} {status : BitVec 32}
    (ht : k.tp = some c) (h : taskKill k pid status = some (k', .switch c n, v)) :
    (k'.tasks c).exitStatus = status := by
  rcases taskKill_cases h with ⟨-, hf⟩ | ⟨d, hd, -, he⟩ | ⟨-, -, -, -, hf, -⟩
  · cases hf
  · rw [ht, Option.some.injEq] at hd
    subst hd
    rw [threadExit_exitStatus he, Kernel.setExitStatus, Kernel.modify_same]
  · cases hf

/-- **`signal_try_deliver`** acts on the lowest pending signal. -/
theorem leaveTrap_acts {al : Allow} {sig : Fin maxSignals} (h : Stays L s.me al s.k k)
    (h0 : s.me ≠ 0) (hu : (k.tasks s.me).isUser = true)
    (hh : (k.tasks s.me).handlingSignal = false) (hsig : Lowest k s.me sig)
    (hs : s.leaveTrap L k tf = some (t, os)) : ActsOn L k tf s.me sig t os := by
  have hfind : findPendingSignal (k.tasks s.me) = some sig := findPendingSignal_eq_some.2 hsig
  unfold Sys.leaveTrap at hs
  rw [signalTryDeliver_eq h.tp hu hh, hfind] at hs
  unfold ActsOn
  by_cases hz : (k.tasks s.me).signalHandlers sig = 0
  · obtain ⟨k', n, hkill, hsw, hzombie⟩ := taskKill_self h.tp h.table h0 (BitVec.ofInt 32 (-sig.val))
    rw [if_pos hz]
    simp only [hz, if_true, hkill, Option.map_some] at hs
    obtain ⟨⟨k'', me, a⟩, h1, h2⟩ := Option.map_eq_some_iff.1 hs
    rw [Prod.mk.injEq] at h2
    obtain ⟨rfl, -⟩ := h2
    change k''.state s.me = .zombie ∧ (k''.tasks s.me).exitStatus = _
    rw [(switchTo_cases h1).1, Kernel.setTp_state, Kernel.setTp_tasks, Kernel.state,
      k'.setContext_proj _ TaskStruct.state _ fun _ => rfl,
      k'.setContext_proj _ TaskStruct.exitStatus _ fun _ => rfl]
    exact ⟨hzombie, taskKill_self_status h.tp hkill⟩
  · rw [if_neg hz]
    simp only [hz, if_false] at hs
    obtain ⟨⟨t1, os1⟩, h1, h2⟩ := Option.map_eq_some_iff.1 hs
    rw [Prod.mk.injEq] at h2
    obtain ⟨rfl, rfl⟩ := h2
    obtain ⟨-, hme, hk, hp, -⟩ := returnToUser_handles h1
    rw [hk, k.modify_same]
    refine ⟨hme, hp, rfl, List.mem_append_left _ (mem_handlerStarts.2 ⟨hh, ?_, rfl⟩)⟩
    rw [k.modify_same]
    rfl

theorem afterSyscall_acts {call : TrapFrame} {v : Word} {al : Allow} {sig : Fin maxSignals}
    (h : Stays L s.me al s.k k) (h0 : s.me ≠ 0) (hu : (k.tasks s.me).isUser = true)
    (hh : (k.tasks s.me).handlingSignal = false) (hsig : Lowest k s.me sig)
    (hs : s.afterSyscall L k call tf v = some (t, os)) :
    ActsOn L k (resultFrame call tf v) s.me sig t os := by
  obtain ⟨⟨t1, os1⟩, h1, h2⟩ := Option.map_eq_some_iff.1 hs
  rw [Prod.mk.injEq] at h2
  obtain ⟨rfl, rfl⟩ := h2
  have ha : ActsOn L k (resultFrame call tf v) s.me sig t1 os1 := leaveTrap_acts h h0 hu hh hsig h1
  unfold ActsOn at ha ⊢
  simpa only [List.mem_cons, reduceCtorEq, false_or] using ha

/-- **The end of a trap** acts on the lowest pending signal of a task that is in no handler. -/
theorem trapEnd_acts {sig : Fin maxSignals} (hi : DeliveryInv L s) (hu : TpKept L s e)
    (hend : trapEnd L s e = some (k, tf)) (huser : (k.tasks s.me).isUser = true)
    (hh : (k.tasks s.me).handlingSignal = false) (hsig : Lowest k s.me sig)
    (hs : s.step L e = some (t, os)) : ActsOn L k tf s.me sig t os := by
  have hrefl : Stays L s.me .nothing s.k s.k := .refl hi.1.tp hi.1.table
  -- the idle task is no user process, before and after the system call
  have h0 : ∀ {al : Allow}, Stays L s.me al s.k k → s.me ≠ 0 := by
    intro al hst hme
    have hk := kept_of_not_clears hst.effect hi.1.table
      (isRunnable_iff.1 hi.1.table.isRunnable_cur).1 (not_clears_cur hst.effect hi.1.table)
    rw [hk.isUser, hme, hi.2] at huser
    cases huser
  unfold trapEnd at hend
  split at hend
  · rename_i hp
    rw [Option.some.injEq, Prod.mk.injEq] at hend
    obtain ⟨rfl, rfl⟩ := hend
    unfold Sys.step at hs
    rw [hp] at hs
    exact leaveTrap_acts hrefl (h0 hrefl) huser hh hsig hs
  · rename_i child ready hp
    by_cases he : hasEnded s.k child
    · rw [if_pos he, Option.some.injEq, Prod.mk.injEq] at hend
      obtain ⟨rfl, rfl⟩ := hend
      have hal : allows s (.go ready) = ⟨fun j => j = child, fun _ => False⟩ := by
        unfold allows
        rw [hp]
      have hst := reap_stays hi.1 hal
      unfold Sys.step at hs
      rw [hp] at hs
      simp only [Sys.kernelStep, Sys.sysWaitpid, if_pos he] at hs
      exact afterSyscall_acts hst (h0 hst) huser hh hsig hs
    · rw [if_neg he] at hend
      cases hend
  · rename_i tf' n c hp
    dsimp only at hend
    split_ifs at hend with hb
    rw [Option.some.injEq, Prod.mk.injEq] at hend
    obtain ⟨rfl, rfl⟩ := hend
    have hst : Stays L s.me .nothing s.k (s.k.store (tf'.reg .a0 + BitVec.ofNat 64 n) c) :=
      hrefl.setMem _
    unfold Sys.step at hs
    rw [hp] at hs
    simp only [Sys.kernelStep, Sys.sysUartRead, if_pos hb.1, if_pos hb.2] at hs
    exact afterSyscall_acts hst (h0 hst) huser hh hsig hs
  · rename_i hp
    split_ifs at hend with hready
    rw [Option.some.injEq, Prod.mk.injEq] at hend
    obtain ⟨rfl, rfl⟩ := hend
    unfold Sys.step at hs
    rw [hp] at hs
    simp only [Sys.kernelStep, hready, if_true] at hs
    exact afterSyscall_acts hrefl (h0 hrefl) huser hh hsig hs
  · rename_i reg sepc scause stval file hp
    have hi' : SysInv L { s with sstatus := trapStatus s.sstatus .user } :=
      ⟨hi.1.tp, hi.1.table, hi.1.tidy, hi.1.place⟩
    have htp : s.k.setTp (some s.me) = s.k := by
      rw [← hi.1.tp]
      rfl
    unfold Sys.step at hs
    rw [hp] at hs
    dsimp only at hs
    rw [trap_eq hi.1.tp hu] at hs
    rw [show reg .tp = L.taskAddr s.me from hu, L.taskOf_taskAddr] at hend
    dsimp only at hend
    rw [htp] at hend
    unfold Sys.doTrap at hs
    by_cases hx : scause = causeExternal
    · rw [if_pos hx, Option.some.injEq, Prod.mk.injEq] at hend
      obtain ⟨rfl, rfl⟩ := hend
      rw [if_neg (by exact fun ht => absurd (hx.symm.trans ht) (by decide)), if_pos (by exact hx)] at hs
      exact leaveTrap_acts (s := { s with sstatus := trapStatus s.sstatus .user }) hrefl (h0 hrefl)
        huser hh hsig hs
    · rw [if_neg hx] at hend
      split_ifs at hend with hc
      rw [if_neg (by exact fun ht => absurd (hc.symm.trans ht) (by decide)), if_neg (by exact hx),
        if_pos (by exact hc)] at hs
      split at hend
      · rename_i hcall
        rw [Option.some.injEq, Prod.mk.injEq] at hend
        obtain ⟨rfl, rfl⟩ := hend
        have hst : Stays L s.me (.sweep s.k) s.k _ :=
          syscallHandler_ok hi.1.tp hi.1.table hi.1.tidy hcall
        unfold Sys.ecall at hs
        simp only [hcall] at hs
        exact afterSyscall_acts (s := { s with sstatus := trapStatus s.sstatus .user }) hst (h0 hst)
          huser hh hsig hs
      · cases hend
  · cases hend

theorem goto_not_user {act : Act} {F : TrapFrame} {place : Place}
    (hp : place = .kernel act ∨ place = .calls act) (hs : s.goto k place = some (t, os)) :
    t.place ≠ .user F := by
  rw [Sys.goto, Option.some.injEq, Prod.mk.injEq] at hs
  rw [← hs.1]
  rcases hp with rfl | rfl <;> rintro ⟨⟩

theorem switch_not_user {prev next : Slot} {act : Act} {F : TrapFrame}
    (hs : s.switch L k prev next act = some (t, os)) : t.place ≠ .user F := by
  obtain ⟨r, -, h2⟩ := Option.map_eq_some_iff.1 hs
  rw [Prod.mk.injEq] at h2
  rw [← h2.1]
  rintro ⟨⟩

theorem waitForNew_not_user {r : Option (Kernel × Option Slot)} {F : TrapFrame}
    (hs : s.waitForNew r = some (t, os)) : t.place ≠ .user F := by
  unfold Sys.waitForNew at hs
  split at hs
  · cases hs
  · exact goto_not_user (.inl rfl) hs
  · exact goto_not_user (.inl rfl) hs

theorem exitThread_not_user {F : TrapFrame} (hs : s.exitThread L = some (t, os)) :
    t.place ≠ .user F := by
  obtain ⟨-, hs⟩ | ⟨-, k', prev, next, hx, hs⟩ := Sys.exitThread_outcome hs
  · exact goto_not_user (.inl rfl) hs
  · exact switch_not_user hs

/-- **Every way back to user mode** is the end of a trap, or the start of a process; otherwise user
code has stored a byte. -/
theorem trapEnd_of_user {F : TrapFrame} (hs : s.step L e = some (t, os)) (ht : t.place = .user F) :
    s.place = .kernel .fresh ∨ (s.place = .user F ∧ ∃ a v, e = .store a v) ∨
      ∃ k tf, trapEnd L s e = some (k, tf) := by
  unfold Sys.step at hs
  unfold trapEnd
  split at hs <;> rename_i hp
  · rw [hp]
    cases Sys.kernelStep_outcome hs with
    | start _ => exact .inl rfl
    | createUser next | runUserFile next => exact absurd ht (waitForNew_not_user next)
    | exits next => exact absurd ht (exitThread_not_user next)
    | create _ next | sweep next | doneOver _ next | readNext _ next =>
      exact absurd ht (goto_not_user (.inl rfl) next)
    | yields next | doneOn next | exitLoop next | waitpidOn next | readOn next | sleepOn next =>
      exact absurd ht (goto_not_user (.inr rfl) next)
    | timer _ => exact .inr (.inr ⟨_, _, rfl⟩)
    | waitpidOver ended _ => exact .inr (.inr ⟨_, _, if_pos ended⟩)
    | readOver buf last _ => exact .inr (.inr ⟨_, _, if_pos ⟨buf, last⟩⟩)
    | sleepOver _ => exact .inr (.inr ⟨_, _, if_pos rfl⟩)
  · obtain ⟨k', hc, hs⟩ | ⟨k', prev, next, hc, hs⟩ := Sys.callSchedule_outcome hs
    · exact absurd ht (goto_not_user (.inl rfl) hs)
    · exact absurd ht (switch_not_user hs)
  · have hgo := (Sys.userStore_outcome hs).2
    rw [Sys.goto, Option.some.injEq, Prod.mk.injEq] at hgo
    rw [← hgo.1] at ht
    exact .inr (.inl ⟨ht, _, _, rfl⟩)
  · rename_i reg sepc scause stval file
    rw [hp]
    unfold Sys.trap at hs
    split at hs
    · cases hs
    · rename_i tp htp
      right
      right
      dsimp only
      rw [htp]
      dsimp only
      unfold Sys.doTrap at hs
      split_ifs at hs with h1 h2 h3
      · exact absurd ht (goto_not_user (.inr rfl) hs)
      · exact ⟨_, _, if_pos h2⟩
      · obtain ⟨k', tf', v, hc, hs⟩ | ⟨k', act, hc, hs⟩ | ⟨k', prev, next, hc, hs⟩ :=
          Sys.ecall_outcome hs
        · have hx : ¬ scause = causeExternal := h2
          have he : scause = causeEcall := h3
          rw [if_neg hx, if_pos he, hc]
          exact ⟨_, _, rfl⟩
        · exact absurd ht (goto_not_user (.inl rfl) hs)
        · exact absurd ht (switch_not_user hs)
  · cases hs

end End

/-! ### All runs -/

/-- The step accepts the signal for the task in the slot, and does not start its handler. -/
def AcceptStep (L : Layout) (i : Slot) (sig : Fin maxSignals) (s : Sys) (e : Event) : Prop :=
  ∃ t os, s.step L e = some (t, os) ∧ Accepts s e os i sig ∧ ¬ Starts os t i sig

/-- The step starts the handler for the signal in the slot, or its task calls `exec` with success, or
it is not the same task any more. -/
def DropStep (L : Layout) (i : Slot) (sig : Fin maxSignals) (s : Sys) (e : Event) : Prop :=
  ∃ t os, s.step L e = some (t, os) ∧
    (Starts os t i sig ∨ Execs s e os i ∨ ¬ SameTask s.k t.k i)

/-- **What a step keeps of the pending signals**: they go only if their handlers start, by `exec`
or by reaping; the end of a trap acts on the lowest one; and user code goes on at the end of a
trap only, until it traps again. -/
structure StepKeeps (L : Layout) (s : Sys) (e : Event) (t : Sys) (os : List Obs) : Prop where
  dropped : ∀ i sig, Pending s.k i sig → ¬ Pending t.k i sig →
    (i = s.me ∧ (Starts os t i sig ∨ Execs s e os i)) ∨
      (s.k.state i = .zombie ∧ ¬ SameTask s.k t.k i)
  acts : ∀ k tf sig, trapEnd L s e = some (k, tf) → (k.tasks s.me).isUser = true →
    (k.tasks s.me).handlingSignal = false → Lowest k s.me sig → ActsOn L k tf s.me sig t os
  ends : ∀ F, t.place = .user F → s.place = .kernel .fresh ∨
    (s.place = .user F ∧ ∃ a v, e = .store a v) ∨ ∃ k tf, trapEnd L s e = some (k, tf)

/-- The invariant: nothing is pending in a free slot. -/
def PendingInv (L : Layout) (s : Sys) : Prop := DeliveryInv L s ∧ Clean s.k

theorem boot_not_pending (L : Layout) (m : Mem) (i : Slot) (sig : Fin maxSignals) :
    ¬ Pending (boot L m).k i sig := by
  unfold Pending
  rw [boot_proj L m i TaskStruct.pendingSignals fun _ => rfl]
  unfold bootTask
  split_ifs <;> exact not_hasSignal_zero

section Run
variable {L : Layout} {m : Mem} {s t : Sys} {e : Event} {es : List Event} {os : List Obs}

theorem acceptStep_iff {i : Slot} {sig : Fin maxSignals} (hs : s.step L e = some (t, os)) :
    AcceptStep L i sig s e ↔ Accepts s e os i sig ∧ ¬ Starts os t i sig := by
  constructor
  · rintro ⟨t', os', hs', h⟩
    rw [hs, Option.some.injEq, Prod.mk.injEq] at hs'
    obtain ⟨rfl, rfl⟩ := hs'
    exact h
  · exact fun h => ⟨t, os, hs, h⟩

theorem dropStep_iff {i : Slot} {sig : Fin maxSignals} (hs : s.step L e = some (t, os)) :
    DropStep L i sig s e ↔ Starts os t i sig ∨ Execs s e os i ∨ ¬ SameTask s.k t.k i := by
  constructor
  · rintro ⟨t', os', hs', h⟩
    rw [hs, Option.some.injEq, Prod.mk.injEq] at hs'
    obtain ⟨rfl, rfl⟩ := hs'
    exact h
  · exact fun h => ⟨t, os, hs, h⟩

theorem pendingInv_step (hi : PendingInv L s) (hu : TpKept L s e) (hs : s.step L e = some (t, os)) :
    PendingInv L t :=
  ⟨deliveryInv_step hi.1 hu hs, (step_pends hi.1.1 hi.2 hu hs).clean (step_ok hi.1.1 hu hs)⟩

theorem pendingInv_of_run (h : Run (step L) (TpKept L) (boot L m) es s) : PendingInv L s := by
  refine h.invariant (I := PendingInv L) ?_
    ⟨⟨sysInv_boot L m, (boot_task L m 0).2.2.1⟩, fun i _ => boot_not_pending L m i⟩
  intro s e t hi hu hs
  obtain ⟨os, hst⟩ := step_eq_some hs
  exact pendingInv_step hi hu hst

theorem stepKeeps (hi : PendingInv L s) (hu : TpKept L s e) (hs : s.step L e = some (t, os)) :
    StepKeeps L s e t os := by
  have ho := step_ok hi.1.1 hu hs
  refine ⟨fun i sig hp hn => ?_, fun k tf sig hend huser hh hsig =>
    trapEnd_acts hi.1 hu hend huser hh hsig hs, fun F ht => trapEnd_of_user hs ht⟩
  rw [step_pends hi.1.1 hi.2 hu hs i sig, not_and_or, not_not, not_or, not_and_or, not_not] at hn
  rcases hn with hst | ⟨-, hx | hrest⟩
  · obtain ⟨F, hF⟩ := hst.1
    exact .inl ⟨(handler_start hi.1.1 hu hs hF).1, .inl hst⟩
  · exact .inl ⟨hx.1, .inr hx⟩
  · have hne : ¬ SameTask s.k t.k i := fun hsame => hrest ⟨hsame, hp⟩
    have hused : s.k.state i ≠ .unused := fun h0 => hi.2 i h0 sig hp
    refine .inr ⟨(Clears.zombie ⟨hused, ?_⟩ ho.effect).1, hne⟩
    by_contra hc
    rw [not_or, not_not] at hc
    exact hne ⟨hused, hc⟩

/-- **Accepted signals are neither lost nor invented**, if user code leaves `tp` alone: in every state
a signal is pending exactly if it was accepted and not dropped since, and every step keeps it so. -/
theorem pending_of_run (h : Run (step L) (TpKept L) (boot L m) es s) :
    (∀ i sig, Pending s.k i sig ↔
      Since (step L) (AcceptStep L i sig) (DropStep L i sig) (boot L m) es s) ∧
    ∀ e t os, TpKept L s e → s.step L e = some (t, os) → StepKeeps L s e t os := by
  refine ⟨fun i sig => ?_, fun e t os hu hs => stepKeeps (pendingInv_of_run h) hu hs⟩
  refine h.snoc_induction (motive := fun es s => Pending s.k i sig ↔
    Since (step L) (AcceptStep L i sig) (DropStep L i sig) (boot L m) es s) ?_ ?_
  · exact iff_of_false (boot_not_pending L m i sig) not_since_nil
  · intro es s e t hr ih hu hs
    obtain ⟨os, hst⟩ := step_eq_some hs
    have hi := pendingInv_of_run hr
    rw [since_snoc hr hs, acceptStep_iff hst, dropStep_iff hst, ← ih,
      step_pends hi.1.1 hi.2 hu hst i sig]
    tauto

end Run

/-- In the handler for the signal `1`, the process sends itself the signal `2`, which stays
pending. -/
theorem pending_in_handler : ∃ s,
    Run (step sampleLayout) (TpKept sampleLayout) (boot sampleLayout fun _ => 0)
      (signalRun ++ [callOf sampleLayout 1 12 1 1, callOf sampleLayout 1 12 1 2]) s ∧
    Pending s.k 1 2 ∧ ¬ Pending s.k 1 1 ∧
    (∀ i sig, Pending s.k i sig ↔ Since (step sampleLayout) (AcceptStep sampleLayout i sig)
      (DropStep sampleLayout i sig) (boot sampleLayout fun _ => 0)
      (signalRun ++ [callOf sampleLayout 1 12 1 1, callOf sampleLayout 1 12 1 2]) s) ∧
    ∀ e t os, TpKept sampleLayout s e → s.step sampleLayout e = some (t, os) →
      StepKeeps sampleLayout s e t os := by
  have hex : (exec (step sampleLayout) (fun s e => decide (TpKept sampleLayout s e))
      (boot sampleLayout fun _ => 0)
      (signalRun ++ [callOf sampleLayout 1 12 1 1, callOf sampleLayout 1 12 1 2])).map
        (fun s => (decide (Pending s.k 1 2), decide (Pending s.k 1 1))) = some (true, false) := by
    decide +kernel
  obtain ⟨s, hr, hv⟩ := Run.exists_of_exec (C := TpKept sampleLayout)
    (fun _ _ => of_decide_eq_true) hex
  simp only [Prod.mk.injEq, decide_eq_true_eq, decide_eq_false_iff_not] at hv
  exact ⟨s, hr, hv.1, hv.2, pending_of_run hr⟩

theorem not_actsOn_of {L : Layout} {k : Kernel} {tf : TrapFrame} {i : Slot} {sig : Fin maxSignals}
    {t : Sys} {os : List Obs} (h : (k.tasks i).signalHandlers sig ≠ 0)
    (hh : (t.k.tasks i).handlingSignal = false) : ¬ ActsOn L k tf i sig t os := by
  unfold ActsOn
  rw [if_neg h]
  rintro ⟨-, -, ht, -⟩
  rw [ht] at hh
  cases hh

instance (k : Kernel) (i : Slot) (sig : Fin maxSignals) : Decidable (Lowest k i sig) := by
  unfold Lowest; infer_instance

/-- The process has set its handlers and calls `kill(1, 1)`, with `tp` cleared. -/
def clearsTp : Event := .trap (callRegs 0 12 1 1) 0x1000 causeEcall 0 none

/-- The states before and after this call, what it lets be seen, and the end of its trap. -/
def tpRun : Option (Sys × Sys × List Obs × Kernel × TrapFrame) := do
  let s ← exec (step sampleLayout) (fun _ _ => true) (boot sampleLayout fun _ => 0) signalRun
  let (t, os) ← s.step sampleLayout clearsTp
  let (k, tf) ← trapEnd sampleLayout s clearsTp
  some (s, t, os, k, tf)

/-- Whether user code runs. -/
def inUser : Place → Bool
  | .user _ => true
  | _ => false

/-- A signal stays pending at the end of the trap: the process goes on without its handler. -/
theorem tpRun_ends : ∃ s t os k tf,
    Run (step sampleLayout) (fun _ _ => True) (boot sampleLayout fun _ => 0) signalRun s ∧
    s.step sampleLayout clearsTp = some (t, os) ∧ s.me = 1 ∧ t.me = 1 ∧ inUser t.place = true ∧
    trapEnd sampleLayout s clearsTp = some (k, tf) ∧ (k.tasks 1).isUser = true ∧
    (k.tasks 1).handlingSignal = false ∧ Lowest k 1 1 ∧ ¬ ActsOn sampleLayout k tf 1 1 t os := by
  have hex : (tpRun.map fun (s, t, _, k, _) =>
      (decide (s.me = 1 ∧ t.me = 1 ∧ inUser t.place = true ∧ (t.k.tasks 1).handlingSignal = false),
        decide ((k.tasks 1).isUser = true ∧ (k.tasks 1).handlingSignal = false ∧ Lowest k 1 1 ∧
          (k.tasks 1).signalHandlers 1 ≠ 0))) = some (true, true) := by decide +kernel
  obtain ⟨⟨s, t, os, k, tf⟩, hrun, hv⟩ := Option.map_eq_some_iff.1 hex
  simp only [Prod.mk.injEq, decide_eq_true_eq] at hv
  obtain ⟨⟨hs, ht, hp, hth⟩, hu, hh, hlow, hne⟩ := hv
  obtain ⟨s', hexec, hrun⟩ := Option.bind_eq_some_iff.1 hrun
  obtain ⟨⟨t', os'⟩, hstep, hrun⟩ := Option.bind_eq_some_iff.1 hrun
  obtain ⟨⟨k', tf'⟩, hend, hrun⟩ := Option.bind_eq_some_iff.1 hrun
  simp only [Option.some.injEq, Prod.mk.injEq] at hrun
  obtain ⟨rfl, rfl, rfl, rfl, rfl⟩ := hrun
  exact ⟨s', t', os', k', tf', Run.of_exec (fun _ _ _ => trivial) hexec, hstep, hs, ht, hp, hend, hu,
    hh, hlow, not_actsOn_of hne hth⟩

/-- In the handler for the signal `1`, the process reads a character into its pending signals. -/
theorem pendingRead_ends : ∃ s u,
    Run (step sampleLayout) (TpKept sampleLayout) (boot sampleLayout fun _ => 0)
      (signalRun ++ [callOf sampleLayout 1 12 1 1]) s ∧ ¬ Pending s.k 1 2 ∧
    Run (bufferSys sampleLayout) (TpKept sampleLayout) s
      (readInto sampleLayout 1 1 pendingOffset [4]) u ∧ Pending u.k 1 2 := by
  have hex : ((exec (step sampleLayout) (fun s e => decide (TpKept sampleLayout s e))
      (boot sampleLayout fun _ => 0) (signalRun ++ [callOf sampleLayout 1 12 1 1])).map fun s =>
        (decide (Pending s.k 1 2),
          (exec (bufferSys sampleLayout) (fun s e => decide (TpKept sampleLayout s e)) s
            (readInto sampleLayout 1 1 pendingOffset [4])).map fun u =>
              decide (Pending u.k 1 2))) = some (false, some true) := by decide +kernel
  obtain ⟨s, hr, hv⟩ := Run.exists_of_exec (C := TpKept sampleLayout)
    (fun _ _ => of_decide_eq_true) hex
  obtain ⟨hn, hv⟩ := Prod.mk.inj hv
  obtain ⟨u, hu, hp⟩ := Run.exists_of_exec (C := TpKept sampleLayout)
    (fun _ _ => of_decide_eq_true) hv
  exact ⟨s, u, hr, of_decide_eq_false hn, hu, of_decide_eq_true hp⟩

/-- **A signal is not acted on, or not sent by anyone**: it stays pending at the end of a trap if user
code has cleared `tp`; and a signal is pending that no process has sent, if the buffer of `uart_read`
lies in the pending signals. -/
theorem not_acts_tp :
    (∃ s t os k tf,
      Run (step sampleLayout) (fun _ _ => True) (boot sampleLayout fun _ => 0) signalRun s ∧
      s.step sampleLayout clearsTp = some (t, os) ∧ s.me = 1 ∧ t.me = 1 ∧ inUser t.place = true ∧
      trapEnd sampleLayout s clearsTp = some (k, tf) ∧ (k.tasks 1).isUser = true ∧
      (k.tasks 1).handlingSignal = false ∧ Lowest k 1 1 ∧ ¬ ActsOn sampleLayout k tf 1 1 t os) ∧
    ∃ s u,
      Run (step sampleLayout) (TpKept sampleLayout) (boot sampleLayout fun _ => 0)
        (signalRun ++ [callOf sampleLayout 1 12 1 1]) s ∧ ¬ Pending s.k 1 2 ∧
      Run (bufferSys sampleLayout) (TpKept sampleLayout) s
        (readInto sampleLayout 1 1 pendingOffset [4]) u ∧ Pending u.k 1 2 :=
  ⟨tpRun_ends, pendingRead_ends⟩

end OscKernel.Proc.Accepted
