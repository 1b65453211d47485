import OscKernel.Proc.Delivery

/-! # Properties that the functions of the kernel keep

* `KernelInv L P Q J`: every function of the kernel keeps the property `J`, as long as kernel threads are
  created at functions of `P` only and no handler is started in a slot of `Q`. Then every step and every
  run keep it, whatever task user code has put into `tp` (`step_keeps`, `run_keeps`).
* `TaskInv L P Q I`: the property `I i t` of the task `t` of a slot `i` is kept by whatever the kernel
  writes to a task. Then it is kept for all tasks (`step_allTasks`, `run_allTasks`). -/

namespace OscKernel.Proc.PerTask

open OscKernel.Lib.Memory OscKernel.Lib.Riscv OscKernel.Lib.Transition
open OscKernel.Thread.Task OscKernel.Thread.RunQueue OscKernel.Thread.Sched
open OscKernel.Thread.Effect OscKernel.User.Signal OscKernel.User.Process
open OscKernel.Proc.Ops OscKernel.Proc.System OscKernel.Proc.Step OscKernel.Proc.Handlers
open OscKernel.Proc.Delivery (step step_eq_some)

/-! ### Properties of the kernel -/

/-- A property of the kernel after a function has ended; `switch_to` still saves a context. -/
def AtFlow (J : Kernel → Prop) (k : Kernel) : Flow → Prop
  | .ret => J k
  | .switch prev _ => ∀ c, J (k.setContext prev c)

/-- A property of the kernel after `syscall_handler`. -/
def AtOutcome (J : Kernel → Prop) (k : Kernel) : Outcome → Prop
  | .ret _ _ | .loop _ => J k
  | .switch prev _ => ∀ c, J (k.setContext prev c)

/-- No handler is started in a slot of `Q`. -/
def Quiet (Q : Slot → Prop) (os : List Obs) : Prop := ∀ i F, Q i → .handler i F ∉ os

/-- A property that every function of the kernel keeps, as long as kernel threads are created at
functions of `P` only and no handler is started in a slot of `Q`. -/
structure KernelInv (L : Layout) (P : Word → Prop) (Q : Slot → Prop) (J : Kernel → Prop) : Prop where
  setTp : ∀ k tp, J k → J (k.setTp tp)
  store : ∀ k a v, UserMem L a → J k → J (k.store a v)
  thread : ∀ k k' fn r, P fn → J k → threadCreate L fn k = some (k', r) → J k'
  process : ∀ k k' entry sstatus r, J k → userProcessCreate L entry sstatus k = some (k', r) → J k'
  file : ∀ k k' file sstatus r, J k →
    userProcessCreateFromFile L file sstatus k = some (k', r) → J k'
  reap : ∀ k i, J k → J (taskReap k (some i))
  sweep : ∀ k, J k → J (killZombies k)
  schedule : ∀ k k' flow, J k → schedule k = some (k', flow) → AtFlow J k' flow
  exit : ∀ k k' flow, J k → k.tp ≠ k.idleTask → threadExit k = some (k', flow) → AtFlow J k' flow
  deliver : ∀ k k' flow tf tf', J k → signalTryDeliver L k tf = some (k', flow, tf') →
    (flow = .ret → Quiet Q (handlerStarts k k' tf)) → AtFlow J k' flow
  syscall : ∀ k k' file sstatus tf out, J k →
    syscallHandler L file sstatus k tf = some (k', out) → AtOutcome J k' out

section KernelStep
variable {L : Layout} {P : Word → Prop} {Q : Slot → Prop} {J : Kernel → Prop}
  {s t : Sys} {e : Event} {os : List Obs} {k : Kernel}

theorem goto_keeps {place : Place} (h : J k) (hs : s.goto k place = some (t, os)) : J t.k := by
  rw [Sys.goto, Option.some.injEq, Prod.mk.injEq] at hs
  rw [← hs.1]
  exact h

theorem returnToUser_keeps {tf : TrapFrame} (h : J k)
    (hs : s.returnToUser k tf = some (t, os)) : J t.k := by
  unfold Sys.returnToUser at hs
  split_ifs at hs
  rw [Option.some.injEq, Prod.mk.injEq] at hs
  rw [← hs.1]
  exact h

theorem waitForNew_keeps {r : Option (Kernel × Option Slot)}
    (h : ∀ k r', r = some (k, r') → J k) (hs : s.waitForNew r = some (t, os)) : J t.k := by
  unfold Sys.waitForNew at hs
  split at hs
  · cases hs
  · exact goto_keeps (h _ _ rfl) hs
  · exact goto_keeps (h _ _ rfl) hs

section Inv
variable (hJ : KernelInv L P Q J)
include hJ

theorem switch_keeps {prev next : Slot} {act : Act} (h : AtFlow J k (.switch prev next))
    (hs : s.switch L k prev next act = some (t, os)) : J t.k := by
  obtain ⟨⟨k', me, a⟩, h1, h2⟩ := Option.map_eq_some_iff.1 hs
  rw [Prod.mk.injEq] at h2
  rw [← h2.1, (switchTo_cases h1).1]
  exact hJ.setTp _ _ (h _)

theorem exitThread_keeps (h : J s.k) (hs : s.exitThread L = some (t, os)) : J t.k := by
  obtain ⟨-, hs⟩ | ⟨h0, k', prev, next, hx, hs⟩ := Sys.exitThread_outcome hs
  · exact goto_keeps h hs
  · exact switch_keeps hJ (hJ.exit _ _ _ h h0 hx) hs

theorem leaveTrap_keeps {tf : TrapFrame} (h : J k) (hs : s.leaveTrap L k tf = some (t, os))
    (hq : Quiet Q os) : J t.k := by
  obtain ⟨k', tf', os1, hd, h1, rfl⟩ | ⟨k', prev, next, tf', hd, hs⟩ := Sys.leaveTrap_outcome hs
  · refine returnToUser_keeps (hJ.deliver _ _ _ _ _ h hd fun _ i F hi hm => ?_) h1
    exact hq i F hi (List.mem_append_left _ hm)
  · exact switch_keeps hJ (hJ.deliver _ _ _ _ _ h hd fun hf => by cases hf) hs

theorem afterSyscall_keeps {call tf : TrapFrame} {v : Word} (h : J k)
    (hs : s.afterSyscall L k call tf v = some (t, os)) (hq : Quiet Q os) : J t.k := by
  obtain ⟨⟨t1, os1⟩, h1, h2⟩ := Option.map_eq_some_iff.1 hs
  rw [Prod.mk.injEq] at h2
  obtain ⟨rfl, rfl⟩ := h2
  exact leaveTrap_keeps hJ h h1 fun i F hi hm => hq i F hi (List.mem_cons_of_mem _ hm)

theorem trap_keeps {reg : Reg → Word} {sepc scause stval : Word} {file : Option (List Byte)}
    (h : J s.k) (hs : s.trap L reg sepc scause stval file = some (t, os)) (hq : Quiet Q os) :
    J t.k := by
  unfold Sys.trap at hs
  split at hs
  · cases hs
  · rename_i tp _
    have h1 : J (s.k.setTp tp) := hJ.setTp _ _ h
    unfold Sys.doTrap at hs
    split_ifs at hs
    · exact goto_keeps h1 hs
    · exact leaveTrap_keeps hJ h1 hs hq
    · obtain ⟨k', tf', v, hc, hs⟩ | ⟨k', act, hc, hs⟩ | ⟨k', prev, next, hc, hs⟩ :=
        Sys.ecall_outcome hs
      · exact afterSyscall_keeps hJ (hJ.syscall _ _ _ _ _ _ h1 hc) hs hq
      · exact goto_keeps (hJ.syscall _ _ _ _ _ _ h1 hc) hs
      · have hflow : AtFlow J _ (.switch prev next) := hJ.syscall _ _ _ _ _ _ h1 hc
        exact switch_keeps hJ hflow hs

theorem startThread_keeps (h : J s.k) (hs : s.startThread L = some (t, os)) : J t.k := by
  unfold Sys.startThread at hs
  split at hs
  · cases hs
  · split_ifs at hs
    · exact returnToUser_keeps h hs
    · exact exitThread_keeps hJ h hs
    · exact goto_keeps h hs

theorem reap_keeps (h : J k) (i : Slot) :
    J (if k.state i = .zombie then taskReap k (some i) else k) := by
  split_ifs
  · exact hJ.reap _ _ h
  · exact h

theorem kernelStep_keeps {act : Act} (h : J s.k) (hP : ∀ fn, e = .threadCreate fn → P fn)
    (hs : s.kernelStep L act e = some (t, os)) (hq : Quiet Q os) : J t.k := by
  cases Sys.kernelStep_outcome hs with
  | start next => exact startThread_keeps hJ h next
  | create call next => exact goto_keeps (hJ.thread _ _ _ _ (hP _ rfl) h call) next
  | createUser next => exact waitForNew_keeps (fun k r hc => hJ.process _ _ _ _ _ h hc) next
  | runUserFile next => exact waitForNew_keeps (fun k r hc => hJ.file _ _ _ _ _ h hc) next
  | sweep next => exact goto_keeps (hJ.sweep _ h) next
  | exits next => exact exitThread_keeps hJ h next
  | doneOver _ next => exact goto_keeps (reap_keeps hJ h _) next
  | timer next => exact leaveTrap_keeps hJ h next hq
  | waitpidOver _ next => exact afterSyscall_keeps hJ (reap_keeps hJ h _) next hq
  | readNext buf next => exact goto_keeps (hJ.store _ _ _ buf h) next
  | readOver buf _ next => exact afterSyscall_keeps hJ (hJ.store _ _ _ buf h) next hq
  | sleepOver next => exact afterSyscall_keeps hJ h next hq
  | yields next | doneOn next | exitLoop next | waitpidOn next | readOn next | sleepOn next =>
    exact goto_keeps h next

/-- **One step** keeps the property, whatever task user code has put into `tp`. -/
theorem step_keeps (h : J s.k) (hP : ∀ fn, e = .threadCreate fn → P fn)
    (hs : s.step L e = some (t, os)) (hq : Quiet Q os) : J t.k := by
  unfold Sys.step at hs
  split at hs
  · exact kernelStep_keeps hJ h hP hs hq
  · obtain ⟨k', hc, hs⟩ | ⟨k', prev, next, hc, hs⟩ := Sys.callSchedule_outcome hs
    · exact goto_keeps (hJ.schedule _ _ _ h hc) hs
    · exact switch_keeps hJ (hJ.schedule _ _ _ h hc) hs
  · obtain ⟨hm, hs⟩ := Sys.userStore_outcome hs
    exact goto_keeps (hJ.store _ _ _ hm h) hs
  · exact trap_keeps hJ h hs hq
  · cases hs

/-- **A run** keeps the property. -/
theorem run_keeps {es : List Event} (h : J s.k)
    (hr : Run (step L) (fun s e => (∀ fn, e = .threadCreate fn → P fn) ∧
      ∀ t os, s.step L e = some (t, os) → Quiet Q os) s es t) : J t.k := by
  refine hr.invariant (I := fun s => J s.k) ?_ h
  intro a e b hi hc hs
  obtain ⟨os, hst⟩ := step_eq_some hs
  exact step_keeps hJ hi hc.1 hst (hc.2 b os hst)

end Inv

end KernelStep

/-! ### Properties of single tasks -/

/-- The task without the fields that the scheduler, `sys_signal` and `sys_kill` write. -/
def TaskStruct.frozen (t : TaskStruct) : TaskStruct :=
  { t with
    context := .clear
    state := .unused
    next := none
    exitStatus := 0
    signalHandlers := fun _ => 0
    pendingSignals := 0 }

/-- A field other than the link of the queue. -/
theorem proj_of_core {β : Type*} {t t' : TaskStruct} (f : TaskStruct → β) (hf : ∀ t, f t.core = f t)
    (h : t'.core = t.core) : f t' = f t := by
  rw [← hf t', h, hf]

theorem frozen_of_core {t t' : TaskStruct} (h : t'.core = t.core) :
    TaskStruct.frozen t' = TaskStruct.frozen t :=
  proj_of_core TaskStruct.frozen (fun _ => rfl) h

theorem proj_of_frozen {β : Type*} {t t' : TaskStruct} (f : TaskStruct → β)
    (hf : ∀ t, f (TaskStruct.frozen t) = f t) (h : TaskStruct.frozen t' = TaskStruct.frozen t) :
    f t' = f t := by
  rw [← hf t', h, hf]

/-- A property of a slot and its task that the kernel keeps. -/
structure TaskInv (L : Layout) (P : Word → Prop) (Q : Slot → Prop) (I : Slot → TaskStruct → Prop) :
    Prop where
  same : ∀ i t t', TaskStruct.frozen t' = TaskStruct.frozen t → I i t → I i t'
  reaped : ∀ i t, I i t → I i (reaped t)
  thread : ∀ i t fn pid, P fn → I i t → I i (newThread L fn pid i t)
  process : ∀ i t t1 pid parent entry sstatus,
    t1.core = (newThread L L.userProcessEntry pid i t).core → I i t →
      I i (newProcess L i parent entry sstatus t1)
  child : ∀ i t t1 pid p parent tf, t1.core = (newThread L L.userProcessEntry pid i t).core → I i t →
    I i (forkChild L i p parent tf t1)
  exec : ∀ i t, I i t → I i { t.signalTaskInit with
    userStackBase := L.userStackBase i
    userStackTop := L.userStackTop i }
  startHandler : ∀ i t signum tf, ¬ Q i → I i t → I i (startHandler signum tf t)
  endHandler : ∀ i t, I i t → I i (endHandler t)

/-- The property holds of all tasks. -/
def AllTasks (I : Slot → TaskStruct → Prop) (k : Kernel) : Prop := ∀ i, I i (k.tasks i)

section Functions
variable {L : Layout} {P : Word → Prop} {Q : Slot → Prop} {I : Slot → TaskStruct → Prop}
  {k k' : Kernel} {i : Slot} {flow : Flow}

theorem AllTasks.modify {f : TaskStruct → TaskStruct} (h : AllTasks I k)
    (hf : I i (k.tasks i) → I i (f (k.tasks i))) : AllTasks I (k.modify i f) := by
  intro j
  rcases eq_or_ne j i with rfl | hj
  · rw [k.modify_same]
    exact hf (h j)
  · rw [k.modify_of_ne i f hj]
    exact h j

theorem ofFlow_allTasks {tf : TrapFrame} {r : Kernel × Flow × ℤ} {out : Outcome}
    (hr : AllTasks I r.1) (h : Outcome.ofFlow tf r = (k', out)) : AllTasks I k' := by
  obtain ⟨k1, _ | _, v⟩ := r <;>
    · rw [Outcome.ofFlow, Prod.mk.injEq] at h
      exact h.1 ▸ hr

section Inv
variable (hI : TaskInv L P Q I)
include hI

/-- A change of fields that no property of tasks looks at. -/
theorem TaskInv.keep {f : TaskStruct → TaskStruct} (h : AllTasks I k)
    (hf : ∀ t, TaskStruct.frozen (f t) = TaskStruct.frozen t) : AllTasks I (k.modify i f) :=
  h.modify fun hi => hI.same i _ _ (hf _) hi

theorem TaskInv.queueOnly (h : AllTasks I k) (hq : QueueOnly k k') : AllTasks I k' :=
  fun i => hI.same i _ _ (hq.proj TaskStruct.frozen (fun _ => rfl) i) (h i)

/-! ### Threads -/

theorem taskReap_allTasks (h : AllTasks I k) (r : Option Slot) : AllTasks I (taskReap k r) := by
  unfold taskReap
  split
  · exact h
  · split_ifs
    · exact h
    · exact h
    · exact h.modify (hI.reaped _ _)

theorem killZombies_allTasks (h : AllTasks I k) : AllTasks I (killZombies k) := by
  unfold killZombies
  generalize (List.finRange 16).drop 1 = l
  induction l generalizing k with
  | nil => exact h
  | cons i l ih =>
    rw [List.foldl_cons]
    refine ih ?_
    unfold killZombie
    split_ifs
    · exact h
    · exact h
    · exact taskReap_allTasks hI h _

/-- **`thread_create`** sets up the slot that it returns, and keeps the property elsewhere. -/
theorem threadCreate_slots {fn : Word} {r : Option Slot} (h : AllTasks I k)
    (hk : threadCreate L fn k = some (k', r)) :
    (∀ j, r ≠ some j → I j (k'.tasks j)) ∧
      ∀ i, r = some i → ∃ t pid, I i t ∧ (k'.tasks i).core = (newThread L fn pid i t).core := by
  have hz : AllTasks I (killZombies k) := killZombies_allTasks hI h
  rcases threadCreate_cases hk with ⟨rfl, rfl, -⟩ | ⟨i, rfl, -, -, rfl⟩
  · exact ⟨fun j _ => hz j, fun i hi => absurd hi (by simp)⟩
  · set k1 := killZombies k with hk1
    have hcore : ∀ j, ((runqAdd { k1.modify i (newThread L fn k1.nextPid i) with
        nextPid := k1.nextPid + 1 } i).tasks j).core =
        ((k1.modify i (newThread L fn k1.nextPid i)).tasks j).core :=
      (runqAdd_queueOnly _ i).core
    refine ⟨fun j hj => ?_, fun j hj => ?_⟩
    · have hji : j ≠ i := fun he => hj (congrArg some he.symm)
      have hj := hcore j
      rw [k1.modify_of_ne i _ hji] at hj
      exact hI.same j _ _ (frozen_of_core hj) (hz j)
    · obtain rfl := Option.some.inj hj
      have hj := hcore i
      rw [k1.modify_same] at hj
      exact ⟨k1.tasks i, k1.nextPid, hz i, hj⟩

theorem threadCreate_allTasks {fn : Word} {r : Option Slot} (h : AllTasks I k) (hP : P fn)
    (hk : threadCreate L fn k = some (k', r)) : AllTasks I k' := by
  obtain ⟨hother, hnew⟩ := threadCreate_slots hI h hk
  intro j
  by_cases hj : r = some j
  · obtain ⟨t, pid, ht, hcore⟩ := hnew j hj
    exact hI.same j _ _ (frozen_of_core hcore) (hI.thread j t fn pid hP ht)
  · exact hother j hj

theorem threadCreate_none {fn : Word} (h : AllTasks I k)
    (hk : threadCreate L fn k = some (k', none)) : AllTasks I k' :=
  fun j => (threadCreate_slots hI h hk).1 j (by simp)

theorem schedule_allTasks (h : AllTasks I k) (hs : schedule k = some (k', flow)) :
    AllTasks I k' := by
  have hst : ∀ {k1 : Kernel} {j s}, AllTasks I k1 → AllTasks I (k1.setState j s) :=
    fun h1 => hI.keep h1 fun _ => rfl
  rcases schedule_cases hs with ⟨rfl, -⟩ | ⟨c, n, -, -, rfl | rfl⟩
  · exact h
  · exact hst h
  · exact hst (hst h)

theorem threadExit_allTasks (h : AllTasks I k) (hs : threadExit k = some (k', flow)) :
    AllTasks I k' := by
  have hst : ∀ {k1 : Kernel} {j s}, AllTasks I k1 → AllTasks I (k1.setState j s) :=
    fun h1 => hI.keep h1 fun _ => rfl
  obtain ⟨c, n, k1, -, hq, -, rfl⟩ := threadExit_cases hs
  exact hst (hst (hI.queueOnly h hq))

theorem taskKill_allTasks {pid r : ℤ} {status : BitVec 32} (h : AllTasks I k)
    (hs : taskKill k pid status = some (k', flow, r)) : AllTasks I k' := by
  have hex : ∀ {k1 : Kernel} {j}, AllTasks I k1 → AllTasks I (k1.setExitStatus j status) :=
    fun h1 => hI.keep h1 fun _ => rfl
  rcases taskKill_cases hs with ⟨rfl, -⟩ | ⟨c, -, -, he⟩ | ⟨j, k1, -, hq, -, -, -, rfl⟩
  · exact h
  · exact threadExit_allTasks hI (hex h) he
  · exact hI.keep (hex (hI.queueOnly h hq)) fun _ => rfl

/-- The new slot is written once more. -/
theorem threadCreate_modify {fn : Word} {f : TaskStruct → TaskStruct} (h : AllTasks I k)
    (hk : threadCreate L fn k = some (k', some i))
    (hf : ∀ t pid, I i t → (k'.tasks i).core = (newThread L fn pid i t).core → I i (f (k'.tasks i))) :
    AllTasks I (k'.modify i f) := by
  obtain ⟨hother, hnew⟩ := threadCreate_slots hI h hk
  intro j
  rcases eq_or_ne j i with rfl | hj
  · obtain ⟨t, pid, ht, hcore⟩ := hnew j rfl
    rw [k'.modify_same]
    exact hf t pid ht hcore
  · rw [k'.modify_of_ne i f hj]
    exact hother j fun he => hj (Option.some.inj he).symm

/-! ### User processes -/

theorem userProcessCreate_allTasks {entry sstatus : Word} {r : Option Slot} (h : AllTasks I k)
    (hk : userProcessCreate L entry sstatus k = some (k', r)) : AllTasks I k' := by
  rcases userProcessCreate_cases hk with ⟨-, hc⟩ | ⟨i, k1, -, hc, rfl⟩
  · exact threadCreate_none hI h hc
  · have h1 : AllTasks I (k1.modify i (newProcess L i k1.tp entry sstatus)) :=
      threadCreate_modify hI h hc fun t pid ht hcore => hI.process i t _ pid _ _ _ hcore ht
    exact h1

theorem userProcessCreateFromFile_allTasks {file : Option (List Byte)} {sstatus : Word}
    {r : Option Slot} (h : AllTasks I k)
    (hk : userProcessCreateFromFile L file sstatus k = some (k', r)) : AllTasks I k' := by
  rcases userProcessCreateFromFile_cases hk with ⟨-, m, -, rfl⟩ | ⟨m, entry, -, hk⟩
  · exact h
  · have hm : AllTasks I { k with mem := m } := h
    exact userProcessCreate_allTasks hI hm hk

theorem userFork_allTasks {tf : TrapFrame} {v : ℤ} (h : AllTasks I k)
    (hk : userFork L tf k = some (k', v)) : AllTasks I k' := by
  rcases userFork_cases hk with ⟨rfl, -⟩ | ⟨p, -, -, ⟨-, hc⟩ | ⟨i, k1, hc, -, rfl⟩⟩
  · exact h
  · exact threadCreate_none hI h hc
  · have h1 : AllTasks I (k1.modify i (forkChild L i p (k1.tasks p) tf)) :=
      threadCreate_modify hI h hc fun t pid ht hcore => hI.child i t _ pid _ _ _ hcore ht
    exact h1

theorem userExecCurrent_allTasks {file : Option (List Byte)} {sstatus : Word} {tf : TrapFrame}
    (h : AllTasks I k) : AllTasks I (userExecCurrent L file sstatus k tf).1 := by
  unfold userExecCurrent
  split
  · exact h
  · rename_i i _
    split_ifs
    · exact h
    · split
      · exact h
      · rename_i m _ _
        have hm : AllTasks I { k with mem := memZero m (L.userStackBase i) stackSize } := h
        dsimp only
        exact hm.modify (hI.exec i _)

/-! ### Signals -/

theorem sysSignal_allTasks {signum : ℤ} {handler : Word} (h : AllTasks I k) :
    AllTasks I (sysSignal k signum handler).1 := by
  unfold sysSignal
  split
  · exact h
  · split_ifs
    · exact h
    · dsimp only
      exact hI.keep h fun _ => rfl
    · exact h

theorem sysSigreturn_allTasks {tf : TrapFrame} (h : AllTasks I k) :
    AllTasks I (sysSigreturn k tf).1 := by
  unfold sysSigreturn
  split
  · exact h
  · split_ifs
    · exact h
    · exact h
    · exact h.modify (hI.endHandler _ _)

theorem sysKill_allTasks {pid signum r : ℤ} (h : AllTasks I k)
    (hs : sysKill k pid signum = some (k', flow, r)) : AllTasks I k' := by
  rcases sysKill_outcome hs with ⟨rfl, -⟩ | ⟨i, -, -, -, -, ⟨-, hk⟩ | ⟨-, -, -, rfl⟩⟩
  · exact h
  · exact taskKill_allTasks hI h hk
  · exact hI.keep h fun _ => rfl

/-- **`signal_try_deliver`** starts a handler, or it keeps all tasks out of handlers. -/
theorem signalTryDeliver_allTasks {tf tf' : TrapFrame} (h : AllTasks I k)
    (hs : signalTryDeliver L k tf = some (k', flow, tf'))
    (hq : flow = .ret → ∀ i F, Q i → .handler i F ∉ handlerStarts k k' tf) : AllTasks I k' := by
  rcases signalTryDeliver_outcome hs with
    ⟨rfl, -⟩ | ⟨c, signum, -, -, hh, -, ⟨-, -, v, hk⟩ | ⟨-, rfl, rfl, -⟩⟩
  · exact h
  · exact taskKill_allTasks hI h hk
  · refine h.modify (hI.startHandler c _ _ _ fun hc => ?_)
    refine absurd (mem_handlerStarts.2 ⟨by simpa using hh, ?_, rfl⟩) (hq rfl c tf hc)
    rw [k.modify_same]
    rfl

theorem sysExit_allTasks {tf : TrapFrame} {status : BitVec 32} {out : Outcome} (h : AllTasks I k)
    (hs : sysExit k tf status = some (k', out)) : AllTasks I k' := by
  obtain ⟨i, -, ho⟩ := sysExit_outcome hs
  have h1 : AllTasks I (k.setExitStatus i status) := hI.keep h fun _ => rfl
  rcases ho with ⟨-, rfl, -⟩ | ⟨-, k1, flow, he, hf⟩
  · exact h1
  · exact ofFlow_allTasks (threadExit_allTasks hI h1 he) hf

/-- **`syscall_handler`** starts no handler. -/
theorem syscallHandler_allTasks {file : Option (List Byte)} {sstatus : Word} {tf : TrapFrame}
    {out : Outcome} (h : AllTasks I k)
    (hs : syscallHandler L file sstatus k tf = some (k', out)) : AllTasks I k' := by
  have hstay : ∀ {k1 : Kernel} {o}, AllTasks I k1 → some (k1, o) = some (k', out) →
      AllTasks I k' := by
    intro k1 o h1 he
    rw [Option.some.injEq, Prod.mk.injEq] at he
    exact he.1 ▸ h1
  unfold syscallHandler at hs
  dsimp only at hs
  split at hs
  · exact hstay h hs
  · obtain ⟨i, -, h2⟩ := Option.map_eq_some_iff.1 hs
    exact hstay h (congrArg some h2)
  · split_ifs at hs <;> exact hstay h hs
  · split_ifs at hs <;> exact hstay h hs
  · exact hstay (userExecCurrent_allTasks hI h) hs
  · obtain ⟨⟨k1, v⟩, h1, h2⟩ := Option.map_eq_some_iff.1 hs
    exact hstay (userFork_allTasks hI h h1) (congrArg some h2)
  · split at hs <;> exact hstay h hs
  · exact sysExit_allTasks hI h hs
  · obtain ⟨r, h1, h2⟩ := Option.map_eq_some_iff.1 hs
    exact ofFlow_allTasks (taskKill_allTasks hI h h1) h2
  · exact hstay h hs
  · split_ifs at hs <;> exact hstay h hs
  · exact hstay (sysSignal_allTasks hI h) hs
  · exact hstay (sysSigreturn_allTasks hI h) hs
  · obtain ⟨r, h1, h2⟩ := Option.map_eq_some_iff.1 hs
    exact ofFlow_allTasks (sysKill_allTasks hI h h1) h2

theorem atFlow_of_keep (h : AllTasks I k) (flow : Flow) : AtFlow (AllTasks I) k flow := by
  cases flow with
  | ret => exact h
  | switch prev next => exact fun _ => hI.keep h fun _ => rfl

end Inv

end Functions

/-- **A property of single tasks** is a property of the kernel that all functions keep. -/
theorem TaskInv.kernelInv {L : Layout} {P : Word → Prop} {Q : Slot → Prop}
    {I : Slot → TaskStruct → Prop} (hI : TaskInv L P Q I) : KernelInv L P Q (AllTasks I) where
  setTp _ _ h := h
  store _ _ _ _ h := h
  thread _ _ _ _ hP h hk := threadCreate_allTasks hI h hP hk
  process _ _ _ _ _ h hk := userProcessCreate_allTasks hI h hk
  file _ _ _ _ _ h hk := userProcessCreateFromFile_allTasks hI h hk
  reap _ _ h := taskReap_allTasks hI h _
  sweep _ h := killZombies_allTasks hI h
  schedule _ _ _ h hk := atFlow_of_keep hI (schedule_allTasks hI h hk) _
  exit _ _ _ h _ hk := atFlow_of_keep hI (threadExit_allTasks hI h hk) _
  deliver _ _ _ _ _ h hk hq := atFlow_of_keep hI (signalTryDeliver_allTasks hI h hk hq) _
  syscall _ _ _ _ _ out h hk := by
    have h1 := syscallHandler_allTasks hI h hk
    cases out with
    | ret => exact h1
    | loop => exact h1
    | switch => exact fun _ => hI.keep h1 fun _ => rfl

section Step
variable {L : Layout} {P : Word → Prop} {Q : Slot → Prop} {I : Slot → TaskStruct → Prop}
  {s t : Sys} {e : Event} {os : List Obs} (hI : TaskInv L P Q I)
include hI

/-- **One step** keeps the property of all tasks. -/
theorem step_allTasks (h : AllTasks I s.k) (hP : ∀ fn, e = .threadCreate fn → P fn)
    (hs : s.step L e = some (t, os)) (hq : Quiet Q os) : AllTasks I t.k :=
  step_keeps hI.kernelInv h hP hs hq

/-- **A run** keeps the property of all tasks. -/
theorem run_allTasks {es : List Event} (h : AllTasks I s.k)
    (hr : Run (step L) (fun s e => (∀ fn, e = .threadCreate fn → P fn) ∧
      ∀ t os, s.step L e = some (t, os) → Quiet Q os) s es t) : AllTasks I t.k :=
  run_keeps hI.kernelInv h hr

end Step

end OscKernel.Proc.PerTask
