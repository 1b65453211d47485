import OscKernel.Lib.Riscv

/-! # The task table of lab5

`struct task_struct`, `struct trap_frame` and the global state of `thread.c`. A pointer to a task is
the index of its slot in `tasks[]`, or `none` for the null pointer. The registers that `switch_to`
saves are represented by where the thread stands in its code. -/

namespace OscKernel.Thread.Task

open OscKernel.Lib.Memory OscKernel.Lib.Riscv

/-- A slot of `tasks[MAX_THREADS]`. -/
abbrev Slot := Fin 16

instance neZero_slots : NeZero 16 := ⟨by decide⟩

/-- `STACK_SIZE`, `USER_STACK_SIZE` and `SIGNAL_STACK_SIZE`. -/
def stackSize : ℕ := 16384

/-- `sizeof(struct task_struct)`. -/
def taskSize : ℕ := 1016

/-- `MAX_SIGNALS`. -/
abbrev maxSignals : ℕ := 32

instance neZero_maxSignals : NeZero maxSignals := ⟨by decide⟩

/-- `enum task_state`. -/
inductive TaskState
  | unused | runnable | running | zombie
  deriving DecidableEq, Repr

/-- `struct trap_frame`. The component of `zero` is not part of the frame. -/
@[ext]
structure TrapFrame where
  reg : Reg → Word
  sepc : Word
  sstatus : Word
  scause : Word
  stval : Word

/-- The frame of `mem_zero`. -/
def TrapFrame.zero : TrapFrame := ⟨fun _ => 0, 0, 0, 0, 0⟩

/-- Writing a register of the frame. -/
def TrapFrame.setReg (tf : TrapFrame) (r : Reg) (v : Word) : TrapFrame :=
  { tf with reg := Function.update tf.reg r v }

/-- Where a thread stands: at the start of `thread_trampoline`; in its own code; in the loop of
`wait_user_task_done`; in the loop of `thread_exit` for the idle task, in a trap or not; in `do_trap`
for a frame, in the timer branch, in the loop of `sys_waitpid`, in that of `sys_uart_read` before the
byte `i`, or in that of `sys_usleep`; or at the end of `thread_exit`. -/
inductive Act
  | fresh
  | code
  | waitDone (task : Slot)
  | exitLoop (inTrap : Bool)
  | timer (tf : TrapFrame)
  | waitpid (tf : TrapFrame) (pid : ℤ) (child : Slot)
  | read (tf : TrapFrame) (i : ℕ)
  | sleep (tf : TrapFrame)
  | dead

/-- The thread stands in `do_trap` of a trap from user mode. -/
def Act.inTrap : Act → Bool
  | .timer _ | .waitpid _ _ _ | .read _ _ | .sleep _ => true
  | .exitLoop b => b
  | _ => false

/-- `struct cpu_context`: cleared, set up by hand with a return address and a stack pointer, or saved
by `switch_to` for the thread whose kernel stack is that of the slot `owner`. -/
inductive CpuContext
  | clear
  | start (ra sp : Word)
  | saved (owner : Slot) (act : Act)

/-- `context.sp` of a context that has not run yet. -/
def CpuContext.sp : CpuContext → Word
  | .start _ sp => sp
  | _ => 0

/-- `struct task_struct`. -/
structure TaskStruct where
  context : CpuContext
  pid : ℤ
  state : TaskState
  entry : Word
  stackBase : Word
  next : Option Slot
  isUser : Bool
  exitStatus : BitVec 32
  trapframe : TrapFrame
  kernelSp : Word
  userStackBase : Word
  userStackTop : Word
  parent : Option Slot
  signalHandlers : Fin maxSignals → Word
  pendingSignals : Word
  handlingSignal : Bool
  currentSignal : ℕ
  signalSavedTf : TrapFrame

/-- `signal_task_init`. -/
def TaskStruct.signalTaskInit (t : TaskStruct) : TaskStruct :=
  { t with
    signalHandlers := fun _ => 0
    pendingSignals := 0
    handlingSignal := false
    currentSignal := 0
    signalSavedTf := .zero }

/-- The task without its link in the queue. -/
def TaskStruct.core (t : TaskStruct) : TaskStruct := { t with next := none }

/-- Where the linker puts the tables and the code that tasks refer to. -/
structure Layout where
  tasks : Word
  kernelStacks : Word
  userStacks : Word
  signalStacks : Word
  idle : Word
  threadTrampoline : Word
  userProcessEntry : Word
  tasks_pos : 0 < tasks.toNat
  tasks_fit : tasks.toNat + 16 * taskSize ≤ 2 ^ 64

namespace Layout
variable (L : Layout)

/-- `&tasks[i]`. -/
def taskAddr (i : Slot) : Word := L.tasks + BitVec.ofNat 64 (taskSize * i.val)

/-- `stacks[i]`. -/
def stackBase (i : Slot) : Word := L.kernelStacks + BitVec.ofNat 64 (stackSize * i.val)

/-- `&stacks[i][STACK_SIZE] & ~0xF`. -/
def stackTop (i : Slot) : Word := (L.stackBase i + BitVec.ofNat 64 stackSize) &&& ~~~ 0xF

/-- `user_stacks[i]`. -/
def userStackBase (i : Slot) : Word := L.userStacks + BitVec.ofNat 64 (stackSize * i.val)

/-- `&user_stacks[i][USER_STACK_SIZE] & ~0xF`. -/
def userStackTop (i : Slot) : Word := (L.userStackBase i + BitVec.ofNat 64 stackSize) &&& ~~~ 0xF

/-- `&signal_stacks[i][SIGNAL_STACK_SIZE] & ~0xF`. -/
def signalStackTop (i : Slot) : Word :=
  (L.signalStacks + BitVec.ofNat 64 (stackSize * i.val) + BitVec.ofNat 64 stackSize) &&& ~~~ 0xF

/-- The task a word points to: `some none` for the null pointer, `none` for a word that is no pointer
to a task. -/
def taskOf (w : Word) : Option (Option Slot) :=
  if w = 0 then some none
  else ((List.finRange 16).find? fun i => L.taskAddr i = w).map some

theorem toNat_taskAddr (i : Slot) : (L.taskAddr i).toNat = L.tasks.toNat + taskSize * i.val := by
  have hf := L.tasks_fit
  have hi := i.isLt
  unfold taskSize at hf
  rw [taskAddr, taskSize, BitVec.toNat_add, BitVec.toNat_ofNat, Nat.mod_eq_of_lt (a := 1016 * i.val)
    (by omega), Nat.mod_eq_of_lt (by omega)]

theorem taskAddr_ne_zero (i : Slot) : L.taskAddr i ≠ 0 := by
  intro h
  have h0 := L.tasks_pos
  have ht := L.toNat_taskAddr i
  rw [h] at ht
  simp at ht
  omega

theorem taskAddr_injective {i j : Slot} (h : L.taskAddr i = L.taskAddr j) : i = j := by
  have hi := L.toNat_taskAddr i
  rw [h, L.toNat_taskAddr j, taskSize] at hi
  exact Fin.ext (by omega)

/-- **A pointer to a slot is read back.** -/
@[simp] theorem taskOf_taskAddr (i : Slot) : L.taskOf (L.taskAddr i) = some (some i) := by
  have hfind : ((List.finRange 16).find? fun j => L.taskAddr j = L.taskAddr i) = some i := by
    rw [List.find?_eq_some_iff_append]
    refine ⟨by simp, ?_⟩
    obtain ⟨as, bs, hab⟩ := List.append_of_mem (List.mem_finRange i)
    refine ⟨as, bs, hab, fun j hj => ?_⟩
    have hnd : (as ++ i :: bs).Nodup := hab ▸ List.nodup_finRange 16
    have hne : j ≠ i := fun he => (List.nodup_append.1 hnd).2.2 j hj i (by simp) he
    simpa using fun he => hne (L.taskAddr_injective he)
  rw [taskOf, if_neg (L.taskAddr_ne_zero i), hfind, Option.map_some]

end Layout

/-- The state of `thread.c`: the table, the queue, the idle task and the next pid; the register `tp`,
which holds the current task; and the memory of user code. -/
structure Kernel where
  tasks : Slot → TaskStruct
  runQueueTail : Option Slot
  idleTask : Option Slot
  nextPid : ℤ
  tp : Option Slot
  mem : Mem

namespace Kernel

/-- Changing the task in a slot. -/
def modify (k : Kernel) (i : Slot) (f : TaskStruct → TaskStruct) : Kernel :=
  { k with tasks := Function.update k.tasks i (f (k.tasks i)) }

/-- `task->next = v`. -/
def setNext (k : Kernel) (i : Slot) (v : Option Slot) : Kernel :=
  k.modify i fun t => { t with next := v }

/-- `task->state = s`. -/
def setState (k : Kernel) (i : Slot) (s : TaskState) : Kernel :=
  k.modify i fun t => { t with state := s }

/-- `task->exit_status = v`. -/
def setExitStatus (k : Kernel) (i : Slot) (v : BitVec 32) : Kernel :=
  k.modify i fun t => { t with exitStatus := v }

/-- `task->context`, as `switch_to` writes it. -/
def setContext (k : Kernel) (i : Slot) (v : CpuContext) : Kernel :=
  k.modify i fun t => { t with context := v }

/-- `tp = v`. -/
def setTp (k : Kernel) (v : Option Slot) : Kernel := { k with tp := v }

/-- `*a = v`. -/
def store (k : Kernel) (a : Word) (v : Byte) : Kernel :=
  { k with mem := Function.update k.mem a v }

/-- `run_queue_tail = v`. -/
def setTail (k : Kernel) (v : Option Slot) : Kernel := { k with runQueueTail := v }

/-- The links of the queue. -/
def next (k : Kernel) (i : Slot) : Option Slot := (k.tasks i).next

/-- The states of the tasks. -/
def state (k : Kernel) (i : Slot) : TaskState := (k.tasks i).state

section Modify
variable (k : Kernel) (i : Slot) (f : TaskStruct → TaskStruct)

@[simp] theorem modify_same : (k.modify i f).tasks i = f (k.tasks i) := Function.update_self ..

theorem modify_of_ne {j : Slot} (h : j ≠ i) : (k.modify i f).tasks j = k.tasks j :=
  Function.update_of_ne h ..

@[simp] theorem modify_runQueueTail : (k.modify i f).runQueueTail = k.runQueueTail := rfl
@[simp] theorem modify_idleTask : (k.modify i f).idleTask = k.idleTask := rfl
@[simp] theorem modify_nextPid : (k.modify i f).nextPid = k.nextPid := rfl
@[simp] theorem modify_tp : (k.modify i f).tp = k.tp := rfl

@[simp] theorem setTail_tasks (v : Option Slot) : (k.setTail v).tasks = k.tasks := rfl
@[simp] theorem setTail_runQueueTail (v : Option Slot) : (k.setTail v).runQueueTail = v := rfl
@[simp] theorem setTail_next (v : Option Slot) : (k.setTail v).next = k.next := rfl

@[simp] theorem store_tasks (a : Word) (v : Byte) : (k.store a v).tasks = k.tasks := rfl
@[simp] theorem store_tp (a : Word) (v : Byte) : (k.store a v).tp = k.tp := rfl

@[simp] theorem setTp_tasks (v : Option Slot) : (k.setTp v).tasks = k.tasks := rfl
@[simp] theorem setTp_tp (v : Option Slot) : (k.setTp v).tp = v := rfl
@[simp] theorem setTp_runQueueTail (v : Option Slot) :
    (k.setTp v).runQueueTail = k.runQueueTail := rfl
@[simp] theorem setTp_next (v : Option Slot) : (k.setTp v).next = k.next := rfl
@[simp] theorem setTp_state (v : Option Slot) : (k.setTp v).state = k.state := rfl

theorem next_modify : (k.modify i f).next = Function.update k.next i (f (k.tasks i)).next := by
  funext j
  rcases eq_or_ne j i with rfl | hj
  · simp [next]
  · simp [next, modify_of_ne k i f hj, hj]

@[simp] theorem next_setNext (v : Option Slot) :
    (k.setNext i v).next = Function.update k.next i v := k.next_modify i _

theorem state_setState (s : TaskState) (j : Slot) :
    (k.setState i s).state j = if j = i then s else k.state j := by
  rcases eq_or_ne j i with rfl | hj
  · simp [setState, state]
  · simp [setState, state, k.modify_of_ne i _ hj, hj]

@[simp] theorem setContext_same (v : CpuContext) :
    ((k.setContext i v).tasks i).context = v := by
  simp [setContext]

theorem setContext_of_ne (v : CpuContext) {j : Slot} (h : j ≠ i) :
    (k.setContext i v).tasks j = k.tasks j := k.modify_of_ne i _ h

/-- The rest of a task is kept. -/
theorem setContext_proj {β : Type*} (p : TaskStruct → β) (v : CpuContext)
    (hp : ∀ t : TaskStruct, p { t with context := v } = p t) (j : Slot) :
    p ((k.setContext i v).tasks j) = p (k.tasks j) := by
  rcases eq_or_ne j i with rfl | hj
  · simp only [setContext, modify_same, hp]
  · simp only [setContext, k.modify_of_ne i _ hj]

/-- The rest of a task is kept. -/
theorem setState_proj {β : Type*} (p : TaskStruct → β) (s : TaskState)
    (hp : ∀ t : TaskStruct, p { t with state := s } = p t) (j : Slot) :
    p ((k.setState i s).tasks j) = p (k.tasks j) := by
  rcases eq_or_ne j i with rfl | hj
  · simp only [setState, modify_same, hp]
  · simp only [setState, k.modify_of_ne i _ hj]

theorem state_modify : (k.modify i f).state = Function.update k.state i (f (k.tasks i)).state := by
  funext j
  rcases eq_or_ne j i with rfl | hj
  · simp [state]
  · simp [state, modify_of_ne k i f hj, hj]

theorem modify_modify (g : TaskStruct → TaskStruct) :
    (k.modify i f).modify i g = k.modify i (g ∘ f) := by
  simp [modify]

/-- A projection that the change keeps. -/
theorem modify_proj {β : Type*} (p : TaskStruct → β) (h : p (f (k.tasks i)) = p (k.tasks i))
    (j : Slot) : p ((k.modify i f).tasks j) = p (k.tasks j) := by
  rcases eq_or_ne j i with rfl | hj
  · rw [modify_same, h]
  · rw [modify_of_ne k i f hj]

end Modify

end Kernel

/-- How a kernel function ends: it returns, or it calls `switch_to(prev, next)`. -/
inductive Flow
  | ret
  | switch (prev next : Slot)
  deriving DecidableEq, Repr

end OscKernel.Thread.Task
