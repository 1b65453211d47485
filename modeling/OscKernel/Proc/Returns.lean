import OscKernel.Proc.PerTask
import OscKernel.Proc.Contexts

/-! # How a thread comes to user mode

`step_leads`: user mode is entered with a frame of user mode, at the start of a user process or at the
end of a trap of the same thread; and a thread starts only when `switch_to` has given it the
processor. This holds whatever task user code has put into `tp`.

`onStack_inv`: the kernel stacks of user processes. -/

namespace OscKernel.Proc.Returns

open OscKernel.Lib.Memory OscKernel.Lib.Riscv OscKernel.Lib.Transition
open OscKernel.Thread.Task OscKernel.Thread.RunQueue OscKernel.Thread.Sched
open OscKernel.Thread.Effect OscKernel.User.Signal OscKernel.User.Process
open OscKernel.Proc.Ops OscKernel.Proc.System OscKernel.Proc.Step OscKernel.Proc.Contexts
open OscKernel.Proc.PerTask
open OscKernel.Proc.Delivery (step)

/-! ### The place after a step -/

/-- The thread that has the processor is about to start, and it is the current task. -/
def Starting (k : Kernel) (me : Slot) : Prop :=
  k.tp = some me ∨ ∃ i, (k.tasks i).context = .saved me .fresh

/-- How a step leads to a place. -/
def Leads (L : Layout) (s t : Sys) : Place → Prop
  | .user tf => tf.sstatus.getLsbD sppBit = false ∧ (Place.trapped s.place = true ∨
      (s.place = .kernel .fresh ∧ t.k = s.k ∧
        ∃ c, s.k.tp = some c ∧ (s.k.tasks c).entry = L.userProcessEntry))
  | .calls a => a ≠ .fresh
  | .kernel a => a = .fresh → s.place = .calls .fresh ∨ Starting t.k t.me

section Leads
variable {L : Layout} {s t : Sys} {e : Event} {os : List Obs} {k : Kernel}

theorem goto_leads {place : Place} (hp : ∀ tf, place ≠ .user tf) (hc : place ≠ .calls .fresh)
    (hk : place = .kernel .fresh → s.place = .calls .fresh) (hs : s.goto k place = some (t, os)) :
    Leads L s t t.place := by
  rw [Sys.goto, Option.some.injEq, Prod.mk.injEq] at hs
  rw [← hs.1]
  cases place with
  | user tf => exact absurd rfl (hp tf)
  | calls a => exact fun ha => hc (congrArg Place.calls ha)
  | kernel a => exact fun ha => .inl (hk (congrArg Place.kernel ha))

/-- A place in the kernel at which no thread starts. -/
theorem goto_kernel {a : Act} (ha : a ≠ .fresh) (hs : s.goto k (.kernel a) = some (t, os)) :
    Leads L s t t.place :=
  goto_leads (by simp) (by simp) (fun he => absurd (Place.kernel.inj he) ha) hs

theorem goto_calls {a : Act} (ha : a ≠ .fresh) (hs : s.goto k (.calls a) = some (t, os)) :
    Leads L s t t.place :=
  goto_leads (by simp) (fun he => ha (Place.calls.inj he)) (by simp) hs

theorem switch_leads {prev next : Slot} {act : Act} (hs : s.switch L k prev next act = some (t, os)) :
    Leads L s t t.place := by
  obtain ⟨⟨k', me, a⟩, h1, h2⟩ := Option.map_eq_some_iff.1 hs
  rw [Prod.mk.injEq] at h2
  rw [← h2.1]
  obtain ⟨hk', hc⟩ := switchTo_cases h1
  rintro rfl
  right
  rcases hc with ⟨hr, -⟩ | hc
  · left
    rw [hk', (Prod.mk.inj hr).1]
    rfl
  · exact .inr ⟨next, hc⟩

theorem returnToUser_leads {tf : TrapFrame} (hp : Place.trapped s.place = true)
    (hs : s.returnToUser k tf = some (t, os)) : Leads L s t t.place := by
  unfold Sys.returnToUser at hs
  split_ifs at hs with hspp
  rw [Option.some.injEq, Prod.mk.injEq] at hs
  rw [← hs.1]
  exact ⟨by simpa using hspp, .inl hp⟩

theorem leaveTrap_leads {tf : TrapFrame} (hp : Place.trapped s.place = true)
    (hs : s.leaveTrap L k tf = some (t, os)) : Leads L s t t.place := by
  obtain ⟨k', tf', os1, hd, h1, rfl⟩ | ⟨k', prev, next, tf', hd, hs⟩ := Sys.leaveTrap_outcome hs
  · exact returnToUser_leads hp h1
  · exact switch_leads hs

theorem afterSyscall_leads {call tf : TrapFrame} {v : Word} (hp : Place.trapped s.place = true)
    (hs : s.afterSyscall L k call tf v = some (t, os)) : Leads L s t t.place := by
  obtain ⟨⟨t1, os1⟩, h1, h2⟩ := Option.map_eq_some_iff.1 hs
  rw [Prod.mk.injEq] at h2
  rw [← h2.1]
  exact leaveTrap_leads hp h1

theorem exitThread_leads (hs : s.exitThread L = some (t, os)) : Leads L s t t.place := by
  obtain ⟨-, hs⟩ | ⟨-, k', prev, next, -, hs⟩ := Sys.exitThread_outcome hs
  · exact goto_kernel (by simp) hs
  · exact switch_leads hs

theorem doTrap_leads {file : Option (List Byte)} {tf : TrapFrame}
    (hp : Place.trapped s.place = true) (hs : s.doTrap L file tf = some (t, os)) :
    Leads L s t t.place := by
  unfold Sys.doTrap at hs
  split_ifs at hs
  · exact goto_calls (by simp) hs
  · exact leaveTrap_leads hp hs
  · obtain ⟨k', tf', v, hc, hs⟩ | ⟨k', act, hc, hs⟩ | ⟨k', prev, next, hc, hs⟩ :=
      Sys.ecall_outcome hs
    · exact afterSyscall_leads hp hs
    · refine goto_kernel ?_ hs
      rcases syscallHandler_loop hc with ⟨pid, j, rfl, -⟩ | ⟨rfl, -⟩ | ⟨rfl, -⟩ | rfl <;> simp
    · exact switch_leads hs

theorem startThread_leads (hp : s.place = .kernel .fresh) (hs : s.startThread L = some (t, os)) :
    Leads L s t t.place := by
  unfold Sys.startThread at hs
  split at hs
  · cases hs
  · rename_i c htp
    split_ifs at hs with he
    · unfold Sys.returnToUser at hs
      split_ifs at hs with hspp
      rw [Option.some.injEq, Prod.mk.injEq] at hs
      rw [← hs.1]
      exact ⟨by simpa using hspp, .inr ⟨hp, rfl, c, htp, he⟩⟩
    · exact exitThread_leads hs
    · exact goto_kernel (by simp) hs

theorem waitForNew_leads {r : Option (Kernel × Option Slot)} (hs : s.waitForNew r = some (t, os)) :
    Leads L s t t.place := by
  unfold Sys.waitForNew at hs
  split at hs
  · cases hs
  · exact goto_kernel (by simp) hs
  · exact goto_kernel (by simp) hs

theorem kernelStep_leads {act : Act} (hp : s.place = .kernel act)
    (hs : s.kernelStep L act e = some (t, os)) : Leads L s t t.place := by
  have htr : act.inTrap = true → Place.trapped s.place = true := by
    rw [hp]
    exact id
  cases Sys.kernelStep_outcome hs with
  | start next => exact startThread_leads hp next
  | createUser next | runUserFile next => exact waitForNew_leads next
  | exits next => exact exitThread_leads next
  | timer next => exact leaveTrap_leads (htr rfl) next
  | waitpidOver _ next | readOver _ _ next | sleepOver next =>
    exact afterSyscall_leads (htr rfl) next
  | create _ next | sweep next | doneOver _ next | readNext _ next => exact goto_kernel (by simp) next
  | yields next | doneOn next | exitLoop next | waitpidOn next | readOn next | sleepOn next =>
    exact goto_calls (by simp) next

/-- **The place after a step**, unless user code stores a byte. -/
theorem step_leads (he : ∀ a v, e ≠ .store a v) (hs : s.step L e = some (t, os)) :
    Leads L s t t.place := by
  unfold Sys.step at hs
  split at hs
  · rename_i hp
    exact kernelStep_leads hp hs
  · rename_i act _ hp
    obtain ⟨k', -, hs⟩ | ⟨k', prev, next, -, hs⟩ := Sys.callSchedule_outcome hs
    · refine goto_leads (by simp) (by simp) (fun he => ?_) hs
      rw [hp, Place.kernel.inj he]
    · exact switch_leads hs
  · exact absurd rfl (he _ _)
  · rename_i tf reg sepc scause stval file hp
    unfold Sys.trap at hs
    split at hs
    · cases hs
    · rename_i tp _
      have htr : Place.trapped s.place = true := by rw [hp, Place.trapped]
      have h1 := doTrap_leads (by exact htr) hs
      cases ht : t.place with
      | user tf =>
        rw [ht] at h1
        exact ⟨h1.1, .inl htr⟩
      | calls a =>
        rw [ht] at h1
        exact h1
      | kernel a =>
        rw [ht] at h1
        intro ha
        rcases h1 ha with h2 | h2
        · exact .inl h2
        · exact .inr h2
  · cases hs

end Leads

/-! ### Kernel stacks -/

/-- A user process, and a thread at `user_process_entry`, has the kernel stack of its slot. -/
structure OnStack (L : Layout) (i : Slot) (t : TaskStruct) : Prop where
  user : t.isUser = true → t.kernelSp = L.stackTop i
  entry : t.entry = L.userProcessEntry → t.kernelSp = L.stackTop i

section OnStack
variable {L : Layout}

theorem onStack_inv (h0 : L.userProcessEntry ≠ 0) :
    TaskInv L (· ≠ L.userProcessEntry) (fun _ => False) (OnStack L) where
  same i t t' he h := by
    have hu := proj_of_frozen TaskStruct.isUser (fun _ => rfl) he
    have hn := proj_of_frozen TaskStruct.entry (fun _ => rfl) he
    have hs := proj_of_frozen TaskStruct.kernelSp (fun _ => rfl) he
    constructor
    · rw [hu, hs]
      exact h.user
    · rw [hn, hs]
      exact h.entry
  reaped _ _ _ := ⟨fun hu => absurd hu Bool.false_ne_true, fun he => absurd he.symm h0⟩
  thread _ _ _ _ hfn h := ⟨h.user, fun he => absurd he hfn⟩
  process i t t1 pid _ _ _ hcore _ := by
    have hsp : t1.context.sp = L.stackTop i :=
      congrArg CpuContext.sp (proj_of_core TaskStruct.context (fun _ => rfl) hcore)
    exact ⟨fun _ => hsp, fun _ => hsp⟩
  child i t t1 pid _ _ _ hcore _ := by
    have hsp : t1.context.sp = L.stackTop i :=
      congrArg CpuContext.sp (proj_of_core TaskStruct.context (fun _ => rfl) hcore)
    exact ⟨fun _ => hsp, fun _ => hsp⟩
  exec _ _ h := ⟨h.user, h.entry⟩
  startHandler _ _ _ _ _ h := ⟨h.user, h.entry⟩
  endHandler _ _ h := ⟨h.user, h.entry⟩

/-- The start. -/
theorem onStack_boot (h0 : L.userProcessEntry ≠ 0) (hidle : L.idle ≠ L.userProcessEntry) (m : Mem) :
    AllTasks (OnStack L) (boot L m).k := by
  intro i
  constructor
  · intro hu
    rw [(boot_task L m i).2.2.1] at hu
    cases hu
  · intro he
    rw [boot_proj L m i TaskStruct.entry fun _ => rfl] at he
    unfold bootTask at he
    split_ifs at he
    · exact absurd he hidle
    · exact absurd he.symm h0

end OnStack

end OscKernel.Proc.Returns
