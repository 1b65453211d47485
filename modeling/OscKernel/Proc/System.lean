import OscKernel.Proc.Ops
import OscKernel.Video.Display

/-! # The system of lab5

The shell, kernel threads and user processes on one hart, step by step. A step ends where a kernel
function calls `schedule()`, where `switch_to` comes back in another thread, where a loop around
`schedule()` starts its next round, and where user code starts, stores a byte or stops. Kernel code
between two such points is one step: a trap from S-mode neither reschedules nor delivers a signal.

User code keeps to its memory: it stores there only, the buffer of `uart_read` lies there, and in a trap
`tp` is null or points to a task.

A step also yields the calls of `switch_to`, the returns of system calls and the starts of signal
handlers that it made. -/

namespace OscKernel.Proc.System

open OscKernel.Lib.Memory OscKernel.Lib.Riscv
open OscKernel.Thread.Task OscKernel.Thread.Sched OscKernel.User.Signal OscKernel.User.Process
open OscKernel.Proc.Ops

/-- The system calls, in the order of `SYS_GETPID` to `SYS_KILL`. -/
inductive Syscall
  | getpid | uartRead | uartWrite | exec | fork | waitpid | exit | stop | display | usleep | signal
  | sigreturn | kill
  deriving DecidableEq, Repr

/-- The system call with a number. -/
def Syscall.ofNumber (a7 : Word) : Option Syscall :=
  [getpid, uartRead, uartWrite, exec, fork, waitpid, exit, stop, display, usleep, signal, sigreturn,
    kill][a7.toNat]?

/-- How a system call goes on: it returns a value, with the frame it leaves; it stands at the head of
a loop around `schedule()`; or it calls `switch_to`. -/
inductive Outcome
  | ret (tf : TrapFrame) (v : Word)
  | loop (act : Act)
  | switch (prev next : Slot)

/-- The outcome of a call that may end the current task. -/
def Outcome.ofFlow (tf : TrapFrame) : Kernel × Flow × ℤ → Kernel × Outcome
  | (k, .ret, v) => (k, .ret tf (BitVec.ofInt 64 v))
  | (k, .switch prev next, _) => (k, .switch prev next)

/-- `sys_exit`. -/
def sysExit (k : Kernel) (tf : TrapFrame) (status : BitVec 32) : Option (Kernel × Outcome) := do
  let i ← k.tp
  let k := k.setExitStatus i status
  if k.tp = k.idleTask then some (k, .loop (.exitLoop true))
  else do
    let (k, flow) ← threadExit k
    some (Outcome.ofFlow tf (k, flow, 0))

/-- **`sys_exit`** stays in its loop if the idle task calls it, and else ends the task. -/
theorem sysExit_outcome {k k' : Kernel} {tf : TrapFrame} {status : BitVec 32} {out : Outcome}
    (h : sysExit k tf status = some (k', out)) :
    ∃ i, k.tp = some i ∧
      ((k.tp = k.idleTask ∧ k' = k.setExitStatus i status ∧ out = .loop (.exitLoop true)) ∨
        (k.tp ≠ k.idleTask ∧ ∃ k1 flow, threadExit (k.setExitStatus i status) = some (k1, flow) ∧
          Outcome.ofFlow tf (k1, flow, 0) = (k', out))) := by
  unfold sysExit at h
  obtain ⟨i, ht, h⟩ := Option.bind_eq_some_iff.1 h
  refine ⟨i, ht, ?_⟩
  dsimp only at h
  split_ifs at h with h0
  · rw [Option.some.injEq, Prod.mk.injEq] at h
    exact .inl ⟨h0, h.1.symm, h.2.symm⟩
  · obtain ⟨⟨k1, flow⟩, he, h⟩ := Option.bind_eq_some_iff.1 h
    exact .inr ⟨h0, k1, flow, he, Option.some.inj h⟩

/-- The result of `video_display`, which writes to the framebuffer only. -/
def videoDisplay (bmpImage : Word) (width height : BitVec 32) : ℤ :=
  if bmpImage = 0 then -1
  else if width = 0 ∨ height = 0 then -1
  else if width > Video.Display.fbWidth ∨ height > Video.Display.fbHeight then -1
  else 0

theorem videoDisplay_result {s t : Video.Display.Machine} {img : Word} {width height : BitVec 32}
    {ret : ℤ} (h : Video.Display.videoDisplay s img width height = some (ret, t)) :
    ret = videoDisplay img width height := by
  unfold Video.Display.videoDisplay at h
  unfold videoDisplay
  split_ifs at h ⊢ with h0 h1 h2
  · exact (Prod.mk.inj (Option.some.inj h)).1.symm
  · exact (Prod.mk.inj (Option.some.inj h)).1.symm
  · exact (Prod.mk.inj (Option.some.inj h)).1.symm
  · obtain ⟨s', -, hs⟩ := Option.map_eq_some_iff.1 h
    exact (Prod.mk.inj hs).1.symm

/-- `syscall_handler`. The file is what `initrd_find_file` finds for the path of `exec`. -/
def syscallHandler (L : Layout) (file : Option (List Byte)) (sstatus : Word) (k : Kernel)
    (tf : TrapFrame) : Option (Kernel × Outcome) :=
  let a0 := tf.reg .a0
  let a1 := tf.reg .a1
  match Syscall.ofNumber (tf.reg .a7) with
  | none => some (k, .ret tf (-1))
  | some .getpid => k.tp.map fun i => (k, .ret tf (BitVec.ofInt 64 (k.tasks i).pid))
  | some .uartRead =>
    if a0 = 0 ∨ a1.toInt < 0 then some (k, .ret tf (-1))
    else if a1 = 0 then some (k, .ret tf 0)
    else some (k, .loop (.read tf 0))
  | some .uartWrite =>
    if a0 = 0 ∨ a1.toInt < 0 then some (k, .ret tf (-1)) else some (k, .ret tf a1)
  | some .exec =>
    let (k, tf, v) := userExecCurrent L file sstatus k tf
    some (k, .ret tf (BitVec.ofInt 64 v))
  | some .fork => (userFork L tf k).map fun (k, v) => (k, .ret tf (BitVec.ofInt 64 v))
  | some .waitpid =>
    match waitpidChild k a0.toInt with
    | none => some (k, .ret tf (-1))
    | some child => some (k, .loop (.waitpid tf a0.toInt child))
  | some .exit => sysExit k tf (a0.setWidth 32)
  | some .stop => (taskKill k a0.toInt (-1)).map (Outcome.ofFlow tf)
  | some .display =>
    some (k, .ret tf (BitVec.ofInt 64 (videoDisplay a0 (a1.setWidth 32)
      ((tf.reg .a2).setWidth 32))))
  | some .usleep =>
    if a0.setWidth 32 = 0#32 then some (k, .ret tf 0) else some (k, .loop (.sleep tf))
  | some .signal =>
    let (k, v) := sysSignal k (a0.setWidth 32).toInt a1
    some (k, .ret tf v)
  | some .sigreturn =>
    let (k, tf, v) := sysSigreturn k tf
    some (k, .ret tf (BitVec.ofInt 64 v))
  | some .kill => (sysKill k a0.toInt (a1.setWidth 32).toInt).map (Outcome.ofFlow tf)

/-- Where the hart is: in the kernel, at `act`; in the kernel, about to call `schedule()` at `act`; or
in user code that was resumed with a frame. -/
inductive Place
  | kernel (act : Act)
  | calls (act : Act)
  | user (tf : TrapFrame)

/-- The state: the kernel, the slot whose kernel stack is in use, the place, and `sstatus`. -/
structure Sys where
  k : Kernel
  me : Slot
  place : Place
  sstatus : Word

/-- `sstatus.SIE`. -/
def Sys.sie (s : Sys) : Bool := s.sstatus.getLsbD sieBit

/-- What a step lets be seen: a call of `switch_to`, the return of the system call that was made with
a frame, and the start of a signal handler for a task at a frame. -/
inductive Obs
  | switched (prev next : Slot)
  | sysRet (tf : TrapFrame) (v : Word)
  | handler (task : Slot) (tf : TrapFrame)

/-- The handlers that `signal_try_deliver`, called with a frame, has started. -/
def handlerStarts (k k' : Kernel) (tf : TrapFrame) : List Obs :=
  ((List.finRange 16).filter fun i =>
    (k.tasks i).handlingSignal = false ∧ (k'.tasks i).handlingSignal = true).map (.handler · tf)

/-- What happens next: thread-level code calls a function of the kernel, a command of the shell, or
`schedule()`; kernel code goes on, with what it reads from the clock, or gets a character from the
UART; or user code stores a byte, or traps, with all its registers and the file that the path of an
`exec` names. -/
inductive Event
  | threadCreate (fn : Word)
  | createUser (entry : Word)
  | runUserFile (file : Option (List Byte))
  | killZombies
  | schedule
  | threadExit
  | go (ready : Bool)
  | getc (c : Byte)
  | store (a : Word) (v : Byte)
  | trap (reg : Reg → Word) (sepc scause stval : Word) (file : Option (List Byte))

/-- `SCAUSE_SUPERVISOR_TIMER` with the interrupt bit. -/
def causeTimer : Word := 0x8000000000000005

/-- `SCAUSE_SUPERVISOR_EXTERNAL` with the interrupt bit. -/
def causeExternal : Word := 0x8000000000000009

/-- `SCAUSE_ECALL_FROM_U`. -/
def causeEcall : Word := 8

/-- The trap frame of a trap from U-mode: the slot of `t0` holds the `SPP` test. -/
def trapFrame (sstatus : Word) (reg : Reg → Word) (sepc scause stval : Word) : TrapFrame :=
  ⟨Function.update reg .t0 0, sepc, trapStatus sstatus .user, scause, stval⟩

namespace Sys
variable (L : Layout) (s : Sys)

/-- The next step at a place. -/
def goto (k : Kernel) (place : Place) : Option (Sys × List Obs) := some ({ s with k, place }, [])

/-- `switch_to`, called at `act`. -/
def switch (k : Kernel) (prev next : Slot) (act : Act) : Option (Sys × List Obs) :=
  (switchTo L k prev next s.me act).map fun (k, me, act) =>
    ({ s with k, me, place := .kernel act }, [.switched prev next])

/-- `schedule`, called at `act`. -/
def callSchedule (act : Act) : Option (Sys × List Obs) :=
  match schedule s.k with
  | none => none
  | some (k, .ret) => s.goto k (.kernel act)
  | some (k, .switch prev next) => s.switch L k prev next act

/-- `thread_exit`. -/
def exitThread : Option (Sys × List Obs) :=
  if s.k.tp = s.k.idleTask then s.goto s.k (.kernel (.exitLoop false))
  else
    match threadExit s.k with
    | none => none
    | some (_, .ret) => none
    | some (k, .switch prev next) => s.switch L k prev next .dead

/-- The end of `handle_exception` and of `return_to_user`: `sret` with the frame. -/
def returnToUser (k : Kernel) (tf : TrapFrame) : Option (Sys × List Obs) :=
  if tf.sstatus.getLsbD sppBit then none
  else some ({ s with k, place := .user tf, sstatus := sretStatus tf.sstatus }, [])

/-- `do_trap` for a trap from U-mode from `signal_try_deliver` on. -/
def leaveTrap (k : Kernel) (tf : TrapFrame) : Option (Sys × List Obs) :=
  match signalTryDeliver L k tf with
  | none => none
  | some (k', .ret, tf') =>
    (s.returnToUser k' tf').map fun (t, os) => (t, handlerStarts k k' tf ++ os)
  | some (k', .switch prev next, _) => s.switch L k' prev next .dead

/-- `do_trap` after `syscall_handler`, called with the frame `call`, has returned. -/
def afterSyscall (k : Kernel) (call tf : TrapFrame) (v : Word) : Option (Sys × List Obs) :=
  (s.leaveTrap L k (if Syscall.ofNumber (call.reg .a7) = some .sigreturn then tf
    else tf.setReg .a0 v)).map fun (t, os) => (t, .sysRet call v :: os)

/-- `do_trap` for an `ecall`. -/
def ecall (file : Option (List Byte)) (tf : TrapFrame) : Option (Sys × List Obs) :=
  let call := { tf with sepc := tf.sepc + 4 }
  match syscallHandler L file s.sstatus s.k call with
  | none => none
  | some (k, .ret tf v) => s.afterSyscall L k call tf v
  | some (k, .loop act) => s.goto k (.kernel act)
  | some (k, .switch prev next) => s.switch L k prev next .dead

/-- `do_trap` for a trap from U-mode. An unhandled trap stops the hart. -/
def doTrap (file : Option (List Byte)) (tf : TrapFrame) : Option (Sys × List Obs) :=
  if tf.scause = causeTimer then s.goto s.k (.calls (.timer tf))
  else if tf.scause = causeExternal then s.leaveTrap L s.k tf
  else if tf.scause = causeEcall then s.ecall L file tf
  else none

/-- A trap from U-mode. `get_current` reads what user code has put into `tp`. -/
def trap (reg : Reg → Word) (sepc scause stval : Word) (file : Option (List Byte)) :
    Option (Sys × List Obs) :=
  match L.taskOf (reg .tp) with
  | none => none
  | some tp =>
    { s with k := s.k.setTp tp, sstatus := trapStatus s.sstatus .user }.doTrap L file
      (trapFrame s.sstatus reg sepc scause stval)

/-- `thread_trampoline`: a user process starts with its frame, a kernel thread at its entry. -/
def startThread : Option (Sys × List Obs) :=
  match s.k.tp with
  | none => none
  | some i =>
    if (s.k.tasks i).entry = L.userProcessEntry then s.returnToUser s.k (s.k.tasks i).trapframe
    else if (s.k.tasks i).entry = 0 then s.exitThread L
    else s.goto s.k (.kernel .code)

/-- The loop of `wait_user_task_done`. -/
def waitUserTaskDone (task : Slot) : Option (Sys × List Obs) :=
  if hasEnded s.k task then
    s.goto (if s.k.state task = .zombie then taskReap s.k (some task) else s.k) (.kernel .code)
  else s.goto s.k (.calls (.waitDone task))

/-- The loop of `sys_waitpid`. -/
def sysWaitpid (tf : TrapFrame) (pid : ℤ) (child : Slot) : Option (Sys × List Obs) :=
  if hasEnded s.k child then
    s.afterSyscall L (if s.k.state child = .zombie then taskReap s.k (some child) else s.k) tf tf
      (BitVec.ofInt 64 pid)
  else s.goto s.k (.calls (.waitpid tf pid child))

/-- The loop of `sys_uart_read` with the next character. The buffer is memory of user code. -/
def sysUartRead (tf : TrapFrame) (i : ℕ) (c : Byte) : Option (Sys × List Obs) :=
  let a := tf.reg .a0 + BitVec.ofNat 64 i
  if UserMem L a then
    if i + 1 = (tf.reg .a1).toNat then s.afterSyscall L (s.k.store a c) tf tf (tf.reg .a1)
    else s.goto (s.k.store a c) (.kernel (.read tf (i + 1)))
  else none

/-- A store of user code to its memory. -/
def userStore (a : Word) (v : Byte) : Option (Sys × List Obs) :=
  if UserMem L a then s.goto (s.k.store a v) s.place else none

/-- `run_user_test`, and `run_user_file` after its file is loaded: the new process is waited for. -/
def waitForNew (r : Option (Kernel × Option Slot)) : Option (Sys × List Obs) :=
  match r with
  | none => none
  | some (k, none) => s.goto k (.kernel .code)
  | some (k, some i) => s.goto k (.kernel (.waitDone i))

/-- A step in the kernel. -/
def kernelStep (act : Act) (e : Event) : Option (Sys × List Obs) :=
  match act, e with
  | .fresh, .go _ => s.startThread L
  | .code, .threadCreate fn =>
    match threadCreate L fn s.k with
    | none => none
    | some (k, _) => s.goto k (.kernel .code)
  | .code, .createUser entry => s.waitForNew (userProcessCreate L entry s.sstatus s.k)
  | .code, .runUserFile file => s.waitForNew (userProcessCreateFromFile L file s.sstatus s.k)
  | .code, .killZombies => s.goto (killZombies s.k) (.kernel .code)
  | .code, .schedule => s.goto s.k (.calls .code)
  | .code, .threadExit => s.exitThread L
  | .waitDone task, .go _ => s.waitUserTaskDone task
  | .exitLoop b, .go _ => s.goto s.k (.calls (.exitLoop b))
  | .timer tf, .go _ => s.leaveTrap L s.k tf
  | .waitpid tf pid child, .go _ => s.sysWaitpid L tf pid child
  | .read tf i, .go _ => s.goto s.k (.calls (.read tf i))
  | .read tf i, .getc c => s.sysUartRead L tf i c
  | .sleep tf, .go ready =>
    if ready then s.afterSyscall L s.k tf tf 0 else s.goto s.k (.calls (.sleep tf))
  | _, _ => none

/-- One step. -/
def step (e : Event) : Option (Sys × List Obs) :=
  match s.place, e with
  | .kernel act, e => s.kernelStep L act e
  | .calls act, .go _ => s.callSchedule L act
  | .user _, .store a v => s.userStore L a v
  | .user _, .trap reg sepc scause stval file => s.trap L reg sepc scause stval file
  | _, _ => none

variable {L s} {t : Sys} {os : List Obs}

/-- **`schedule`** returns, or switches. -/
theorem callSchedule_outcome {act : Act} (h : s.callSchedule L act = some (t, os)) :
    (∃ k, schedule s.k = some (k, .ret) ∧ s.goto k (.kernel act) = some (t, os)) ∨
      ∃ k prev next, schedule s.k = some (k, .switch prev next) ∧
        s.switch L k prev next act = some (t, os) := by
  unfold callSchedule at h
  split at h
  · cases h
  · rename_i k hc
    exact .inl ⟨k, hc, h⟩
  · rename_i k prev next hc
    exact .inr ⟨k, prev, next, hc, h⟩

/-- **`thread_exit`** stays in its loop if the idle task calls it, and else switches. -/
theorem exitThread_outcome (h : s.exitThread L = some (t, os)) :
    (s.k.tp = s.k.idleTask ∧ s.goto s.k (.kernel (.exitLoop false)) = some (t, os)) ∨
      (s.k.tp ≠ s.k.idleTask ∧ ∃ k prev next, threadExit s.k = some (k, .switch prev next) ∧
        s.switch L k prev next .dead = some (t, os)) := by
  unfold exitThread at h
  split_ifs at h with h0
  · exact .inl ⟨h0, h⟩
  · split at h
    · cases h
    · cases h
    · rename_i k prev next hx
      exact .inr ⟨h0, k, prev, next, hx, h⟩

/-- **The end of a trap**: it returns to user mode, or the task has died and switches away. -/
theorem leaveTrap_outcome {k : Kernel} {tf : TrapFrame} (h : s.leaveTrap L k tf = some (t, os)) :
    (∃ k' tf' os', signalTryDeliver L k tf = some (k', .ret, tf') ∧
      s.returnToUser k' tf' = some (t, os') ∧ os = handlerStarts k k' tf ++ os') ∨
    ∃ k' prev next tf', signalTryDeliver L k tf = some (k', .switch prev next, tf') ∧
      s.switch L k' prev next .dead = some (t, os) := by
  unfold leaveTrap at h
  split at h
  · cases h
  · rename_i k' tf' hd
    obtain ⟨⟨t1, os1⟩, h1, h2⟩ := Option.map_eq_some_iff.1 h
    rw [Prod.mk.injEq] at h2
    obtain ⟨rfl, rfl⟩ := h2
    exact .inl ⟨k', tf', os1, hd, h1, rfl⟩
  · rename_i k' prev next tf' hd
    exact .inr ⟨k', prev, next, tf', hd, h⟩

/-- **A system call**: it returns, it goes into its loop, or the task has died and switches away. -/
theorem ecall_outcome {file : Option (List Byte)} {tf : TrapFrame}
    (h : s.ecall L file tf = some (t, os)) :
    (∃ k tf' v, syscallHandler L file s.sstatus s.k { tf with sepc := tf.sepc + 4 } =
      some (k, .ret tf' v) ∧ s.afterSyscall L k { tf with sepc := tf.sepc + 4 } tf' v =
        some (t, os)) ∨
    (∃ k act, syscallHandler L file s.sstatus s.k { tf with sepc := tf.sepc + 4 } =
      some (k, .loop act) ∧ s.goto k (.kernel act) = some (t, os)) ∨
    ∃ k prev next, syscallHandler L file s.sstatus s.k { tf with sepc := tf.sepc + 4 } =
      some (k, .switch prev next) ∧ s.switch L k prev next .dead = some (t, os) := by
  unfold ecall at h
  dsimp only at h
  split at h
  · cases h
  · rename_i k tf' v hc
    exact .inl ⟨k, tf', v, hc, h⟩
  · rename_i k act hc
    exact .inr (.inl ⟨k, act, hc, h⟩)
  · rename_i k prev next hc
    exact .inr (.inr ⟨k, prev, next, hc, h⟩)

/-- The steps in the kernel. A wait is over, or it goes on. -/
inductive KernelStep (L : Layout) (s : Sys) (t : Sys) (os : List Obs) : Act → Event → Prop
  | start {ready : Bool} (next : s.startThread L = some (t, os)) :
      KernelStep L s t os .fresh (.go ready)
  | create {fn : Word} {k : Kernel} {r : Option Slot} (call : threadCreate L fn s.k = some (k, r))
      (next : s.goto k (.kernel .code) = some (t, os)) : KernelStep L s t os .code (.threadCreate fn)
  | createUser {entry : Word}
      (next : s.waitForNew (userProcessCreate L entry s.sstatus s.k) = some (t, os)) :
      KernelStep L s t os .code (.createUser entry)
  | runUserFile {file : Option (List Byte)}
      (next : s.waitForNew (userProcessCreateFromFile L file s.sstatus s.k) = some (t, os)) :
      KernelStep L s t os .code (.runUserFile file)
  | sweep (next : s.goto (killZombies s.k) (.kernel .code) = some (t, os)) :
      KernelStep L s t os .code .killZombies
  | yields (next : s.goto s.k (.calls .code) = some (t, os)) : KernelStep L s t os .code .schedule
  | exits (next : s.exitThread L = some (t, os)) : KernelStep L s t os .code .threadExit
  | doneOver {task : Slot} {ready : Bool} (ended : hasEnded s.k task)
      (next : s.goto (if s.k.state task = .zombie then taskReap s.k (some task) else s.k)
        (.kernel .code) = some (t, os)) : KernelStep L s t os (.waitDone task) (.go ready)
  | doneOn {task : Slot} {ready : Bool}
      (next : s.goto s.k (.calls (.waitDone task)) = some (t, os)) :
      KernelStep L s t os (.waitDone task) (.go ready)
  | exitLoop {b ready : Bool} (next : s.goto s.k (.calls (.exitLoop b)) = some (t, os)) :
      KernelStep L s t os (.exitLoop b) (.go ready)
  | timer {tf : TrapFrame} {ready : Bool} (next : s.leaveTrap L s.k tf = some (t, os)) :
      KernelStep L s t os (.timer tf) (.go ready)
  | waitpidOver {tf : TrapFrame} {pid : ℤ} {child : Slot} {ready : Bool} (ended : hasEnded s.k child)
      (next : s.afterSyscall L (if s.k.state child = .zombie then taskReap s.k (some child) else s.k)
        tf tf (BitVec.ofInt 64 pid) = some (t, os)) :
      KernelStep L s t os (.waitpid tf pid child) (.go ready)
  | waitpidOn {tf : TrapFrame} {pid : ℤ} {child : Slot} {ready : Bool}
      (next : s.goto s.k (.calls (.waitpid tf pid child)) = some (t, os)) :
      KernelStep L s t os (.waitpid tf pid child) (.go ready)
  | readOn {tf : TrapFrame} {i : ℕ} {ready : Bool}
      (next : s.goto s.k (.calls (.read tf i)) = some (t, os)) :
      KernelStep L s t os (.read tf i) (.go ready)
  | readNext {tf : TrapFrame} {i : ℕ} {c : Byte} (buf : UserMem L (tf.reg .a0 + BitVec.ofNat 64 i))
      (next : s.goto (s.k.store (tf.reg .a0 + BitVec.ofNat 64 i) c) (.kernel (.read tf (i + 1))) =
        some (t, os)) : KernelStep L s t os (.read tf i) (.getc c)
  | readOver {tf : TrapFrame} {i : ℕ} {c : Byte} (buf : UserMem L (tf.reg .a0 + BitVec.ofNat 64 i))
      (last : i + 1 = (tf.reg .a1).toNat)
      (next : s.afterSyscall L (s.k.store (tf.reg .a0 + BitVec.ofNat 64 i) c) tf tf (tf.reg .a1) =
        some (t, os)) : KernelStep L s t os (.read tf i) (.getc c)
  | sleepOver {tf : TrapFrame} (next : s.afterSyscall L s.k tf tf 0 = some (t, os)) :
      KernelStep L s t os (.sleep tf) (.go true)
  | sleepOn {tf : TrapFrame} (next : s.goto s.k (.calls (.sleep tf)) = some (t, os)) :
      KernelStep L s t os (.sleep tf) (.go false)

theorem userStore_outcome {a : Word} {v : Byte} (h : s.userStore L a v = some (t, os)) :
    UserMem L a ∧ s.goto (s.k.store a v) s.place = some (t, os) := by
  unfold userStore at h
  split_ifs at h with hm
  exact ⟨hm, h⟩

/-- **A store** is one of user code, which goes on. -/
theorem step_store {a : Word} {v : Byte} (h : s.step L (.store a v) = some (t, os)) :
    UserMem L a ∧ (∃ tf, s.place = .user tf) ∧ t = { s with k := s.k.store a v } := by
  unfold step at h
  split at h
  · rename_i act _ _
    unfold kernelStep at h
    split at h <;> simp_all
  · rename_i heq
    cases heq
  · rename_i tf _ _ hp heq
    cases heq
    obtain ⟨hm, h⟩ := userStore_outcome h
    rw [goto, Option.some.injEq, Prod.mk.injEq] at h
    exact ⟨hm, ⟨tf, hp⟩, h.1.symm⟩
  · rename_i heq
    cases heq
  · cases h

theorem kernelStep_outcome {act : Act} {e : Event} (h : s.kernelStep L act e = some (t, os)) :
    KernelStep L s t os act e := by
  unfold kernelStep at h
  split at h
  · exact .start h
  · split at h
    · cases h
    · rename_i hc
      exact .create hc h
  · exact .createUser h
  · exact .runUserFile h
  · exact .sweep h
  · exact .yields h
  · exact .exits h
  · unfold waitUserTaskDone at h
    split at h
    · rename_i he
      exact .doneOver he h
    · exact .doneOn h
  · exact .exitLoop h
  · exact .timer h
  · unfold sysWaitpid at h
    split at h
    · rename_i he
      exact .waitpidOver he h
    · exact .waitpidOn h
  · exact .readOn h
  · unfold sysUartRead at h
    dsimp only at h
    split_ifs at h with hm hn
    · exact .readOver hm hn h
    · exact .readNext hm h
  · split_ifs at h with hr
    · exact hr ▸ .sleepOver h
    · rw [Bool.not_eq_true] at hr
      exact hr ▸ .sleepOn h
  · cases h

end Sys

/-- The start: the shell after `thread_init`, with interrupts enabled. -/
def boot (L : Layout) (m : Mem) : Sys :=
  ⟨threadInit L (bootKernel m), 0, .kernel .code, BitVec.twoPow 64 sieBit⟩

/-! ### Events of user code that leaves `tp` alone -/

/-- The registers of a system call. -/
def callRegs (tp a7 a0 a1 : Word) : Reg → Word
  | .tp => tp
  | .a7 => a7
  | .a0 => a0
  | .a1 => a1
  | _ => 0

/-- A system call of the user process in the slot `i`. -/
def callOf (L : Layout) (i : Slot) (a7 a0 : Word) (a1 : Word := 0) : Event :=
  .trap (callRegs (L.taskAddr i) a7 a0 a1) 0x1000 causeEcall 0 none

/-- A timer interrupt in the user process in the slot `i`. -/
def timerOf (L : Layout) (i : Slot) : Event :=
  .trap (callRegs (L.taskAddr i) 0 0 0) 0x1000 causeTimer 0 none

end OscKernel.Proc.System
