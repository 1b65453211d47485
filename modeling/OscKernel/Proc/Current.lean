import OscKernel.Proc.Contexts
import OscKernel.Proc.Images

/-! # The current task

`get_current` returns what is in `tp`. The kernel writes `tp` in `switch_to` only, and a trap from user
mode leaves in it what user code had there.

* `currents`: what the calls of `get_current` return, one after the other.
* `currents_eq`: within a step they all return the task that was in `tp` at its start.
* `Own`: the kernel stack of a task is used with the task in `tp`, and is saved in its slot only.
* `current_of_run`: user code that leaves `tp` alone is handled as the task that it is, whatever task
  other user code puts there. -/

namespace OscKernel.Proc.Current

open OscKernel.Lib.Memory OscKernel.Lib.Riscv OscKernel.Lib.Transition
open OscKernel.Thread.Task OscKernel.Thread.RunQueue OscKernel.Thread.Sched OscKernel.Thread.Effect
open OscKernel.User.Signal OscKernel.User.Process
open OscKernel.Proc.Ops OscKernel.Proc.System OscKernel.Proc.Step OscKernel.Proc.Contexts
open OscKernel.Proc.Delivery (step step_eq_some)
open OscKernel.Proc.Images (forkRun)

/-! ### What `get_current` returns -/

/-- In `task_kill`: for the comparison with the task, and in `thread_exit` if it is the same. -/
def taskKillCurrents (k : Kernel) (pid : ℤ) (status : BitVec 32) : List (Option Slot) :=
  match taskFindByPid k pid with
  | none => []
  | some task =>
    if k.idleTask = some task then []
    else if k.state task = .unused ∨ k.state task = .zombie then []
    else if k.tp = some task then [k.tp, (k.setExitStatus task status).tp]
    else [k.tp]

/-- In `sys_kill`, which calls `task_kill` if there is no handler. -/
def sysKillCurrents (k : Kernel) (pid signum : ℤ) : List (Option Slot) :=
  if ¬ validSignal signum then []
  else
    match taskFindByPid k pid with
    | none => []
    | some i =>
      if (k.tasks i).isUser = false then []
      else if k.state i = .unused ∨ k.state i = .zombie then []
      else if (k.tasks i).signalHandlers (signalIndex signum) = 0 then
        taskKillCurrents k pid (BitVec.ofInt 32 (-signum))
      else []

/-- In `signal_try_deliver`, which calls `task_kill` if there is no handler. -/
def signalTryDeliverCurrents (k : Kernel) : List (Option Slot) :=
  k.tp :: match k.tp with
    | none => []
    | some i =>
      if (k.tasks i).isUser = false then []
      else if (k.tasks i).handlingSignal = true then []
      else
        match findPendingSignal (k.tasks i) with
        | none => []
        | some signum =>
          if (k.tasks i).signalHandlers signum = 0 then
            taskKillCurrents k (k.tasks i).pid (BitVec.ofInt 32 (-signum.val))
          else []

/-- In `sys_exit`, which calls `thread_exit`. -/
def sysExitCurrents (k : Kernel) (status : BitVec 32) : List (Option Slot) :=
  k.tp :: match k.tp with
    | none => []
    | some i => [(k.setExitStatus i status).tp]

/-- In `syscall_handler`. -/
def syscallCurrents (k : Kernel) (tf : TrapFrame) : List (Option Slot) :=
  match Syscall.ofNumber (tf.reg .a7) with
  | none | some .uartRead | some .uartWrite | some .display | some .usleep => []
  | some .getpid | some .exec | some .fork | some .waitpid | some .signal | some .sigreturn => [k.tp]
  | some .exit => sysExitCurrents k ((tf.reg .a0).setWidth 32)
  | some .stop => taskKillCurrents k (tf.reg .a0).toInt (-1)
  | some .kill => sysKillCurrents k (tf.reg .a0).toInt ((tf.reg .a1).setWidth 32).toInt

/-- In `do_trap` for an `ecall`. -/
def ecallCurrents (L : Layout) (s : Sys) (file : Option (List Byte)) (tf : TrapFrame) :
    List (Option Slot) :=
  let call := { tf with sepc := tf.sepc + 4 }
  syscallCurrents s.k call ++
    match syscallHandler L file s.sstatus s.k call with
    | some (k, .ret _ _) => signalTryDeliverCurrents k
    | _ => []

/-- In `do_trap`, up to the call of `schedule` in a timer interrupt. -/
def doTrapCurrents (L : Layout) (s : Sys) (file : Option (List Byte)) (tf : TrapFrame) :
    List (Option Slot) :=
  if tf.scause = causeTimer then []
  else if tf.scause = causeExternal then signalTryDeliverCurrents s.k
  else if tf.scause = causeEcall then ecallCurrents L s file tf
  else []

/-- In a step of `do_trap`: from the trap to the first call of `schedule`, in `schedule`, and from the
last call of `schedule` on. -/
def currents (L : Layout) (s : Sys) (e : Event) : List (Option Slot) :=
  match s.place, e with
  | .user _, .trap reg sepc scause stval file =>
    match L.taskOf (reg .tp) with
    | none => []
    | some tp =>
      doTrapCurrents L { s with k := s.k.setTp tp, sstatus := trapStatus s.sstatus .user } file
        (trapFrame s.sstatus reg sepc scause stval)
  | .calls _, .go _ => [s.k.tp]
  | .kernel (.timer _), .go _ => signalTryDeliverCurrents s.k
  | .kernel (.waitpid _ _ child), .go _ =>
    if hasEnded s.k child then
      signalTryDeliverCurrents (if s.k.state child = .zombie then taskReap s.k (some child) else s.k)
    else []
  | .kernel (.read tf i), .getc c =>
    if i + 1 = (tf.reg .a1).toNat then
      signalTryDeliverCurrents (s.k.store (tf.reg .a0 + BitVec.ofNat 64 i) c)
    else []
  | .kernel (.sleep _), .go ready => if ready then signalTryDeliverCurrents s.k else []
  | _, _ => []

/-- The task that is in `tp` when the step begins. -/
def entered (L : Layout) (s : Sys) (e : Event) : Option Slot :=
  match s.place, e with
  | .user _, .trap reg _ _ _ _ => (L.taskOf (reg .tp)).join
  | _, _ => s.k.tp

section Step
variable {L : Layout} {s t : Sys} {e : Event} {os : List Obs} {k k' : Kernel} {c : Option Slot}
  {prev next : Slot}

/-- No function of the kernel writes `tp`. -/
theorem tp_rel (L : Layout) : KernelRel L (fun _ => True) fun k k' => k'.tp = k.tp where
  refl _ := rfl
  trans _ _ _ h h' := h'.trans h
  queueOnly _ _ h := h.tp
  setMem _ _ := rfl
  edit _ _ _ _ _ := rfl
  reap _ _ := rfl
  create _ _ _ _ := rfl

theorem taskKillCurrents_eq {pid : ℤ} {status : BitVec 32} :
    ∀ x ∈ taskKillCurrents k pid status, x = k.tp := by
  unfold taskKillCurrents
  intro x hx
  split at hx
  · cases hx
  · split_ifs at hx
    · cases hx
    · cases hx
    · simpa [Kernel.setExitStatus] using hx
    · simpa using hx

theorem signalTryDeliverCurrents_eq : ∀ x ∈ signalTryDeliverCurrents k, x = k.tp := by
  unfold signalTryDeliverCurrents
  intro x hx
  rcases List.mem_cons.1 hx with rfl | hx
  · rfl
  · split at hx
    · cases hx
    · split_ifs at hx
      · cases hx
      · cases hx
      · split at hx
        · cases hx
        · split_ifs at hx
          · exact taskKillCurrents_eq x hx
          · cases hx

theorem sysKillCurrents_eq {pid signum : ℤ} : ∀ x ∈ sysKillCurrents k pid signum, x = k.tp := by
  unfold sysKillCurrents
  intro x hx
  split_ifs at hx
  · split at hx
    · cases hx
    · split_ifs at hx
      · cases hx
      · cases hx
      · exact taskKillCurrents_eq x hx
      · cases hx
  · cases hx

theorem sysExitCurrents_eq {status : BitVec 32} : ∀ x ∈ sysExitCurrents k status, x = k.tp := by
  unfold sysExitCurrents
  intro x hx
  rcases List.mem_cons.1 hx with rfl | hx
  · rfl
  · split at hx
    · cases hx
    · exact List.mem_singleton.1 hx

theorem syscallCurrents_eq {tf : TrapFrame} : ∀ x ∈ syscallCurrents k tf, x = k.tp := by
  unfold syscallCurrents
  intro x hx
  split at hx
  all_goals first
    | cases hx; done
    | exact List.mem_singleton.1 hx
    | exact sysExitCurrents_eq x hx
    | exact taskKillCurrents_eq x hx
    | exact sysKillCurrents_eq x hx

theorem doTrapCurrents_eq {file : Option (List Byte)} {tf : TrapFrame} :
    ∀ x ∈ doTrapCurrents L s file tf, x = s.k.tp := by
  unfold doTrapCurrents ecallCurrents
  intro x hx
  split_ifs at hx
  · cases hx
  · exact signalTryDeliverCurrents_eq x hx
  · rcases List.mem_append.1 hx with hx | hx
    · exact syscallCurrents_eq x hx
    · split at hx
      · rename_i hc
        rw [signalTryDeliverCurrents_eq x hx]
        exact syscallHandler_rel (tp_rel L) trivial hc
      · cases hx
  · cases hx

theorem entered_trap {tf : TrapFrame} {reg : Reg → Word} {sepc scause stval : Word}
    {file : Option (List Byte)} (hp : s.place = .user tf) :
    entered L s (.trap reg sepc scause stval file) = (L.taskOf (reg .tp)).join := by
  unfold entered
  rw [hp]

theorem entered_kernel (hp : ∀ tf, s.place ≠ .user tf) : entered L s e = s.k.tp := by
  unfold entered
  split
  · rename_i hu
    exact absurd hu (hp _)
  · rfl

/-- **Within a step** `get_current` returns one and the same task. -/
theorem currents_eq : ∀ x ∈ currents L s e, x = entered L s e := by
  intro x hx
  by_cases hu : ∃ tf, s.place = .user tf
  · obtain ⟨tf, hp⟩ := hu
    unfold currents at hx
    rw [hp] at hx
    cases e with
    | trap reg sepc scause stval file =>
      dsimp only at hx
      split at hx
      · cases hx
      · rename_i heq
        rw [entered_trap hp, heq, doTrapCurrents_eq x hx]
        rfl
    | _ => cases hx
  · rw [not_exists] at hu
    rw [entered_kernel hu]
    unfold currents at hx
    split at hx
    · rename_i hp
      exact absurd hp (hu _)
    · exact List.mem_singleton.1 hx
    · exact signalTryDeliverCurrents_eq x hx
    · split_ifs at hx with hz
      · rw [signalTryDeliverCurrents_eq x hx]
        exact taskReap_rel (tp_rel L) s.k _
      · exact signalTryDeliverCurrents_eq x hx
      · cases hx
    · split_ifs at hx
      · exact signalTryDeliverCurrents_eq x hx
      · cases hx
    · split_ifs at hx
      · exact signalTryDeliverCurrents_eq x hx
      · cases hx
    · cases hx

/-! ### Who calls `switch_to` -/

theorem taskKill_prev {pid r : ℤ} {status : BitVec 32}
    (h : taskKill k pid status = some (k', .switch prev next, r)) : k.tp = some prev := by
  rcases taskKill_cases h with ⟨-, hf⟩ | ⟨c, ht, -, he⟩ | ⟨j, k1, -, -, hf, -⟩
  · cases hf
  · obtain ⟨c', n, k1, ht', -, hf, -⟩ := threadExit_cases he
    rw [Flow.switch.injEq] at hf
    rw [hf.1]
    exact ht'
  · cases hf

theorem sysKill_prev {pid signum r : ℤ} (h : sysKill k pid signum = some (k', .switch prev next, r)) :
    k.tp = some prev := by
  rcases sysKill_outcome h with ⟨-, hf, -⟩ | ⟨i, -, -, -, -, ⟨-, hk⟩ | ⟨-, hf, -⟩⟩
  · cases hf
  · exact taskKill_prev hk
  · cases hf

theorem signalTryDeliver_prev {tf tf' : TrapFrame}
    (h : signalTryDeliver L k tf = some (k', .switch prev next, tf')) : k.tp = some prev := by
  rcases signalTryDeliver_outcome h with
    ⟨-, hf, -⟩ | ⟨i, signum, -, -, -, -, ⟨-, -, v, hk⟩ | ⟨-, hf, -⟩⟩
  · cases hf
  · exact taskKill_prev hk
  · cases hf

theorem ofFlow_switch {tf : TrapFrame} {r : Kernel × Flow × ℤ}
    (h : Outcome.ofFlow tf r = (k', .switch prev next)) : r.2.1 = .switch prev next := by
  obtain ⟨k1, _ | _, v⟩ := r
  · simp [Outcome.ofFlow] at h
  · simp only [Outcome.ofFlow, Prod.mk.injEq, Outcome.switch.injEq] at h
    rw [h.2.1, h.2.2]

theorem sysExit_prev {tf : TrapFrame} {status : BitVec 32}
    (h : sysExit k tf status = some (k', .switch prev next)) : k.tp = some prev := by
  obtain ⟨i, -, ⟨-, -, ho⟩ | ⟨-, k1, flow, he, ho⟩⟩ := sysExit_outcome h
  · cases ho
  · have hf : flow = .switch prev next := ofFlow_switch ho
    obtain ⟨c, n, k1, ht, -, hc, -⟩ := threadExit_cases he
    rw [hf, Flow.switch.injEq] at hc
    rw [hc.1]
    exact ht

theorem syscallHandler_prev {file : Option (List Byte)} {sstatus : Word} {tf : TrapFrame}
    (h : syscallHandler L file sstatus k tf = some (k', .switch prev next)) : k.tp = some prev := by
  have hret : ∀ {k1 : Kernel} {tf' v}, some (k1, Outcome.ret tf' v) ≠ some (k', .switch prev next) :=
    by simp
  unfold syscallHandler at h
  dsimp only at h
  split at h
  · exact absurd h hret
  · obtain ⟨i, -, h2⟩ := Option.map_eq_some_iff.1 h
    exact absurd (congrArg some h2) hret
  · split_ifs at h <;> cases h
  · split_ifs at h <;> cases h
  · exact absurd h hret
  · obtain ⟨⟨k1, v⟩, -, h2⟩ := Option.map_eq_some_iff.1 h
    exact absurd (congrArg some h2) hret
  · split at h <;> cases h
  · exact sysExit_prev h
  · obtain ⟨⟨k1, f1, r1⟩, h1, h2⟩ := Option.map_eq_some_iff.1 h
    have hf : f1 = .switch prev next := ofFlow_switch h2
    exact taskKill_prev (hf ▸ h1)
  · exact absurd h hret
  · split_ifs at h <;> cases h
  · exact absurd h hret
  · exact absurd h hret
  · obtain ⟨⟨k1, f1, r1⟩, h1, h2⟩ := Option.map_eq_some_iff.1 h
    have hf : f1 = .switch prev next := ofFlow_switch h2
    exact sysKill_prev (hf ▸ h1)

/-! ### Steps -/

/-- The step began with `c` in `tp`: `c` is still there, or it is `c` that has called `switch_to`. -/
def Began (c : Option Slot) (t : Sys) (os : List Obs) : Prop :=
  (switchOf os = none ∧ t.k.tp = c) ∨ ∃ prev next, switchOf os = some (prev, next) ∧ c = some prev

theorem goto_began {place : Place} (hk : k.tp = c) (hs : s.goto k place = some (t, os)) :
    Began c t os := by
  rw [Sys.goto, Option.some.injEq, Prod.mk.injEq] at hs
  obtain ⟨rfl, rfl⟩ := hs
  exact .inl ⟨rfl, hk⟩

theorem switch_began {act : Act} (hk : c = some prev)
    (hs : s.switch L k prev next act = some (t, os)) : Began c t os := by
  obtain ⟨⟨k', me, a⟩, h1, h2⟩ := Option.map_eq_some_iff.1 hs
  rw [Prod.mk.injEq] at h2
  rw [← h2.2]
  exact .inr ⟨prev, next, rfl, hk⟩

theorem returnToUser_began {tf : TrapFrame} {os' : List Obs} (hk : k.tp = c)
    (hs : s.returnToUser k tf = some (t, os)) (ho : switchOf os' = switchOf os) : Began c t os' := by
  unfold Sys.returnToUser at hs
  split_ifs at hs
  rw [Option.some.injEq, Prod.mk.injEq] at hs
  obtain ⟨rfl, rfl⟩ := hs
  exact .inl ⟨ho, hk⟩

theorem exitThread_began (hs : s.exitThread L = some (t, os)) : Began s.k.tp t os := by
  obtain ⟨-, hs⟩ | ⟨-, k', prev, next, hx, hs⟩ := Sys.exitThread_outcome hs
  · exact goto_began rfl hs
  · obtain ⟨c, n, k1, ht, -, hf, -⟩ := threadExit_cases hx
    rw [Flow.switch.injEq] at hf
    exact switch_began (hf.1 ▸ ht) hs

theorem leaveTrap_began {tf : TrapFrame} (hk : k.tp = c) (hs : s.leaveTrap L k tf = some (t, os)) :
    Began c t os := by
  obtain ⟨k', tf', os1, hd, h1, rfl⟩ | ⟨k', prev, next, tf', hd, hs⟩ := Sys.leaveTrap_outcome hs
  · have ht := signalTryDeliver_rel (tp_rel L) hd
    exact returnToUser_began (ht.trans hk) h1 (switchOf_handlerStarts ..)
  · exact switch_began (hk ▸ signalTryDeliver_prev hd) hs

theorem afterSyscall_began {call tf : TrapFrame} {v : Word} (hk : k.tp = c)
    (hs : s.afterSyscall L k call tf v = some (t, os)) : Began c t os := by
  obtain ⟨⟨t1, os1⟩, h1, h2⟩ := Option.map_eq_some_iff.1 hs
  rw [Prod.mk.injEq] at h2
  obtain ⟨rfl, rfl⟩ := h2
  have hb := leaveTrap_began hk h1
  exact hb

theorem doTrap_began {file : Option (List Byte)} {tf : TrapFrame}
    (hs : s.doTrap L file tf = some (t, os)) : Began s.k.tp t os := by
  unfold Sys.doTrap at hs
  split_ifs at hs
  · exact goto_began rfl hs
  · exact leaveTrap_began rfl hs
  · obtain ⟨k', tf', v, hc, hs⟩ | ⟨k', act, hc, hs⟩ | ⟨k', prev, next, hc, hs⟩ :=
      Sys.ecall_outcome hs
    · exact afterSyscall_began (syscallHandler_rel (tp_rel L) trivial hc) hs
    · exact goto_began (syscallHandler_rel (tp_rel L) trivial hc) hs
    · exact switch_began (syscallHandler_prev hc) hs

theorem waitForNew_began {r : Option (Kernel × Option Slot)}
    (h : ∀ k r', r = some (k, r') → k.tp = c) (hs : s.waitForNew r = some (t, os)) :
    Began c t os := by
  unfold Sys.waitForNew at hs
  split at hs
  · cases hs
  · exact goto_began (h _ _ rfl) hs
  · exact goto_began (h _ _ rfl) hs

theorem startThread_began (hs : s.startThread L = some (t, os)) : Began s.k.tp t os := by
  unfold Sys.startThread at hs
  split at hs
  · cases hs
  · split_ifs at hs
    · exact returnToUser_began rfl hs rfl
    · exact exitThread_began hs
    · exact goto_began rfl hs

theorem kernelStep_began {act : Act} (hs : s.kernelStep L act e = some (t, os)) :
    Began s.k.tp t os := by
  have hR := tp_rel L
  cases Sys.kernelStep_outcome hs with
  | start next => exact startThread_began next
  | create call next => exact goto_began (threadCreate_rel hR trivial call) next
  | createUser next =>
    exact waitForNew_began (fun k r hc => userProcessCreate_rel hR trivial hc) next
  | runUserFile next =>
    exact waitForNew_began (fun k r hc => userProcessCreateFromFile_rel hR trivial hc) next
  | sweep next => exact goto_began (killZombies_rel hR _) next
  | exits next => exact exitThread_began next
  | doneOver _ next => exact goto_began (reap_rel hR _ _) next
  | timer next => exact leaveTrap_began rfl next
  | waitpidOver _ next => exact afterSyscall_began (reap_rel hR _ _) next
  | readNext _ next => exact goto_began (s.k.store_tp _ _) next
  | readOver _ _ next => exact afterSyscall_began (s.k.store_tp _ _) next
  | sleepOver next => exact afterSyscall_began rfl next
  | yields next | doneOn next | exitLoop next | waitpidOn next | readOn next | sleepOn next =>
    exact goto_began rfl next

/-- **A step** goes on with the task that was in `tp`, or it is that task that calls `switch_to`. -/
theorem step_began (hs : s.step L e = some (t, os)) : Began (entered L s e) t os := by
  unfold Sys.step at hs
  split at hs
  · rename_i hp
    rw [entered_kernel (by simp [hp])]
    exact kernelStep_began hs
  · rename_i hp
    rw [entered_kernel (by simp [hp])]
    obtain ⟨k', hc, hs⟩ | ⟨k', prev, next, hc, hs⟩ := Sys.callSchedule_outcome hs
    · exact goto_began (schedule_rel (tp_rel L) hc) hs
    · rcases schedule_cases hc with ⟨-, hf⟩ | ⟨c, n, ht, hf, -⟩
      · cases hf
      · rw [Flow.switch.injEq] at hf
        exact switch_began (hf.1 ▸ ht) hs
  · rename_i a v hp
    have hent : entered L s (.store a v) = s.k.tp := by
      unfold entered
      rw [hp]
    rw [hent]
    exact goto_began (s.k.store_tp a v) (Sys.userStore_outcome hs).2
  · rename_i hp
    rw [entered_trap hp]
    unfold Sys.trap at hs
    split at hs
    · cases hs
    · rename_i heq
      rw [heq]
      exact doTrap_began hs
  · cases hs

end Step

/-! ### Tasks whose code leaves `tp` alone -/

/-- On the kernel stack of the task `T` the kernel works with `T` in `tp`, and where that stack is
saved it is saved in `T`. -/
structure Own (T : Slot) (s : Sys) : Prop where
  saved : ∀ i a, (s.k.tasks i).context = .saved T a → i = T
  current : s.me = T → (∀ tf, s.place ≠ .user tf) → s.k.tp = some T

/-- User code traps. -/
def Event.isTrap : Event → Prop
  | .trap _ _ _ _ _ => True
  | _ => False

section Own
variable {L : Layout} {T : Slot} {s t : Sys} {e : Event} {os : List Obs}

/-- User code goes on, or it traps. -/
theorem isTrap_of_step (hs : s.step L e = some (t, os)) {tf : TrapFrame} (hp : s.place = .user tf) :
    Event.isTrap e ∨ ∃ a v, s.goto (s.k.store a v) s.place = some (t, os) := by
  unfold Sys.step at hs
  rw [hp] at hs
  cases e with
  | trap reg sepc scause stval file => exact .inl trivial
  | store a v => exact .inr ⟨a, v, (Sys.userStore_outcome hs).2⟩
  | _ => cases hs

theorem isTrap_of_currents {x : Option Slot} (hx : x ∈ currents L s e) {tf : TrapFrame}
    (hp : s.place = .user tf) : Event.isTrap e := by
  unfold currents at hx
  rw [hp] at hx
  cases e with
  | trap reg sepc scause stval file => trivial
  | _ => cases hx

/-- If user code on the stack of `T` has left `tp` alone, every step there begins with `T` in `tp`. -/
theorem Own.entered_eq (h : Own T s) (hu : TpKept L s e) (hme : s.me = T)
    (hp : ∀ tf, s.place = .user tf → Event.isTrap e) : entered L s e = some T := by
  by_cases hu' : ∃ tf, s.place = .user tf
  · obtain ⟨tf, hs⟩ := hu'
    have htrap := hp tf hs
    cases e with
    | trap reg sepc scause stval file =>
      rw [entered_trap hs, show reg .tp = L.taskAddr T from hme ▸ hu, L.taskOf_taskAddr]
      rfl
    | _ => cases htrap
  · rw [not_exists] at hu'
    rw [entered_kernel hu']
    exact h.current hme hu'

theorem Own.step (h : Own T s) (hu : s.me = T → TpKept L s e)
    (hs : s.step L e = some (t, os)) : Own T t := by
  by_cases hst : ∃ tf a v, s.place = .user tf ∧ s.goto (s.k.store a v) s.place = some (t, os)
  · obtain ⟨tf, a, v, hp, hgo⟩ := hst
    rw [Sys.goto, Option.some.injEq, Prod.mk.injEq] at hgo
    rw [← hgo.1]
    exact ⟨h.saved, fun _ hp' => absurd hp (hp' tf)⟩
  have hent : s.me = T → entered L s e = some T := by
    refine fun hme => h.entered_eq (hu hme) hme fun tf hp => (isTrap_of_step hs hp).resolve_right ?_
    rintro ⟨a, v, hgo⟩
    exact hst ⟨tf, a, v, hp, hgo⟩
  have hbegan := step_began hs
  rcases step_turn hs with ⟨hk, hm, ho, -⟩ | ⟨k, prev, next, act, a, hk, hsw, ho, -⟩
  · refine ⟨fun i b hc => h.saved i b (hk.saved hc), fun hme hp => ?_⟩
    rcases hbegan with ⟨-, ht⟩ | ⟨prev, next, ho', -⟩
    · rw [ht, hent (hm ▸ hme)]
    · rw [ho] at ho'
      cases ho'
  · have hprev : s.me = T → prev = T := fun hme => by
      rcases hbegan with ⟨ho', -⟩ | ⟨prev', next', ho', hc⟩
      · rw [ho] at ho'
        cases ho'
      · rw [ho, Option.some.injEq, Prod.mk.injEq] at ho'
        rw [hent hme, ← ho'.1, Option.some.injEq] at hc
        exact hc.symm
    obtain ⟨htk, hr⟩ := switchTo_cases hsw
    have hsaved : ∀ i b, (t.k.tasks i).context = .saved T b → i = T := fun i b hc => by
      rw [htk, Kernel.setTp_tasks] at hc
      rcases eq_or_ne i prev with rfl | hne
      · rw [k.setContext_same, CpuContext.saved.injEq] at hc
        exact hprev hc.1
      · rw [k.setContext_of_ne prev _ hne] at hc
        exact h.saved i b (hk.saved hc)
    refine ⟨hsaved, fun hme _ => ?_⟩
    have htp : t.k.tp = some next := by
      rw [htk]
      rfl
    rw [htp]
    rcases hr with ⟨hfresh, -⟩ | hc
    · rw [← hme, (Prod.mk.inj hfresh).1]
    · rw [hsaved next a (hme ▸ hc)]

theorem own_boot (L : Layout) (m : Mem) (T : Slot) : Own T (boot L m) := by
  refine ⟨fun i a hc => ?_, fun hme _ => ?_⟩
  · rw [(boot_task L m i).2.2.2] at hc
    split_ifs at hc
  · rw [← hme]
    exact (sysInv_boot L m).tp

theorem own_of_run {m : Mem} {es : List Event}
    (h : Run (step L) (fun s e => s.me = T → TpKept L s e) (boot L m) es s) : Own T s := by
  refine h.invariant (fun s e t hi hu hst => ?_) (own_boot L m T)
  obtain ⟨os, hs⟩ := step_eq_some hst
  exact hi.step hu hs

/-- **User code that leaves `tp` alone is handled as the task that it is**: in every run in which the
user code of the task `T` does so, whatever task other user code puts there, every call of
`get_current` in a trap on the kernel stack of `T` returns `T`. -/
theorem current_of_run {m : Mem} {es : List Event}
    (h : Run (step L) (fun s e => s.me = T → TpKept L s e) (boot L m) es s) (hme : s.me = T)
    (he : TpKept L s e) : ∀ x ∈ currents L s e, x = some T := by
  intro x hx
  rw [currents_eq x hx]
  exact (own_of_run h).entered_eq he hme fun _ hp => isTrap_of_currents hx hp

/-- After a fork the child makes a system call with the task of the shell in `tp`, and then its parent
goes on. -/
def mixedRun : List Event :=
  forkRun ++ [callOf sampleLayout 0 0 0, timerOf sampleLayout 2, .go true, .go true, .go true, .go true]

theorem current_of_run_mixed : ∃ s,
    Run (step sampleLayout) (fun s e => s.me = 1 → TpKept sampleLayout s e)
    (boot sampleLayout fun _ => 0) mixedRun s ∧
      currents sampleLayout s (callOf sampleLayout 1 3 0) = [some 1, some 1] ∧
      ∀ x ∈ currents sampleLayout s (callOf sampleLayout 1 3 0), x = some 1 := by
  have hex : ((exec (step sampleLayout) (fun s e => decide (s.me = 1 → TpKept sampleLayout s e))
      (boot sampleLayout fun _ => 0) mixedRun).map fun s =>
        (s.me, currents sampleLayout s (callOf sampleLayout 1 3 0))) =
      some (1, [some 1, some 1]) := by decide +kernel
  obtain ⟨s, hr, hv⟩ := Run.exists_of_exec
    (C := fun s e => s.me = 1 → TpKept sampleLayout s e) (fun _ _ ho => of_decide_eq_true ho) hex
  obtain ⟨hme, hc⟩ := Prod.mk.inj hv
  have hkept : TpKept sampleLayout s (callOf sampleLayout 1 3 0) := by
    rw [callOf, TpKept, hme]
    rfl
  exact ⟨s, hr, hc, current_of_run hr hme hkept⟩

/-- **User code that changes `tp`** is handled as another task: the child of a fork asks for its pid
with its parent in `tp`. -/
theorem not_current_forkRun : ∃ s, Run (step sampleLayout) (TpKept sampleLayout)
    (boot sampleLayout fun _ => 0) forkRun s ∧ s.me = 2 ∧ s.k.state 2 = .running ∧
      (s.k.tasks 2).isUser = true ∧
      currents sampleLayout s (callOf sampleLayout 1 0 0) = [some 1, some 1] := by
  have hex : ((exec (step sampleLayout) (fun s e => decide (TpKept sampleLayout s e))
      (boot sampleLayout fun _ => 0) forkRun).map fun s =>
        (s.me, s.k.state 2, (s.k.tasks 2).isUser,
          currents sampleLayout s (callOf sampleLayout 1 0 0))) =
      some (2, .running, true, [some 1, some 1]) := by decide +kernel
  obtain ⟨s, hr, hv⟩ := Run.exists_of_exec (C := TpKept sampleLayout)
    (fun _ _ ho => of_decide_eq_true ho) hex
  simp only [Prod.mk.injEq] at hv
  exact ⟨s, hr, hv⟩

end Own

end OscKernel.Proc.Current
