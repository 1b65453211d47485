import OscKernel.Lib.Transition
import OscKernel.Thread.Inv
import OscKernel.User.Process

/-! # Any sequence of scheduler operations

The machine of the operations of `thread.c`, `user.c` and `sys_waitpid`: whatever task is current may
call any of them next, with any arguments. A task that is in the loop of `sys_waitpid`, or in the loop
of `thread_exit` as the idle task, can only go on there. A task that is switched to goes on where it
called `switch_to`.

`queueOk_of_run`: in every state of every run the run queue is one cycle of exactly the runnable
tasks, the current task is the one that runs, and every operation is defined. -/

namespace OscKernel.Proc.Ops

open OscKernel.Lib.Memory OscKernel.Lib.Cyclic OscKernel.Lib.Transition
open OscKernel.Thread.Task OscKernel.Thread.RunQueue OscKernel.Thread.Sched OscKernel.Thread.Inv
open OscKernel.User.Signal OscKernel.User.Process

/-- The start of `sys_waitpid`: the child, if there is one and it is a child of the caller. -/
def waitpidChild (k : Kernel) (pid : ℤ) : Option Slot :=
  (taskFindByPid k pid).filter fun child => (k.tasks child).parent = k.tp

/-- The loop condition of `sys_waitpid` and `wait_user_task_done` does not hold any more. -/
def hasEnded (k : Kernel) (task : Slot) : Prop := k.state task = .zombie ∨ k.state task = .unused

instance (k : Kernel) (task : Slot) : Decidable (hasEnded k task) := by
  unfold hasEnded; infer_instance

/-- The table and the place of the current task in its code. -/
structure OpState where
  k : Kernel
  act : Act

/-- The operations; `resume` is the next round of the loop in which the task stands. -/
inductive Op
  | threadCreate (fn : Word)
  | userProcessCreate (entry sstatus : Word)
  | userFork (tf : TrapFrame)
  | schedule
  | threadExit
  | taskKill (pid : ℤ) (status : BitVec 32)
  | killZombies
  | taskReap (task : Option Slot)
  | sysWaitpid (pid : ℤ)
  | resume

/-- The end of an operation: it returns, and the task stands at `act`, or it calls `switch_to`
there. -/
def finish (L : Layout) (k : Kernel) (flow : Flow) (act : Act) : Option OpState :=
  match flow with
  | .ret => some ⟨k, act⟩
  | .switch prev next => (switchTo L k prev next prev act).map fun (k, _, act) => ⟨k, act⟩

/-- `schedule`, called by a task that stands at `act`. -/
def scheduleAt (L : Layout) (k : Kernel) (act : Act) : Option OpState := do
  let (k, flow) ← schedule k
  finish L k flow act

/-- The end of `thread_exit` and `task_kill` of the current task: it does not come back. -/
def finishExit (L : Layout) (k : Kernel) (flow : Flow) : Option OpState :=
  finish L k flow (if flow = .ret then .code else .dead)

/-- An operation called by a task in its own code. -/
def call (L : Layout) (k : Kernel) : Op → Option OpState
  | .threadCreate fn => (threadCreate L fn k).map fun (k, _) => ⟨k, .code⟩
  | .userProcessCreate entry sstatus =>
    (userProcessCreate L entry sstatus k).map fun (k, _) => ⟨k, .code⟩
  | .userFork tf => (userFork L tf k).map fun (k, _) => ⟨k, .code⟩
  | .schedule => scheduleAt L k .code
  | .threadExit =>
    if k.tp = k.idleTask then some ⟨k, .exitLoop false⟩
    else do
      let (k, flow) ← threadExit k
      finishExit L k flow
  | .taskKill pid status => do
    let (k, flow, _) ← taskKill k pid status
    finishExit L k flow
  | .killZombies => some ⟨killZombies k, .code⟩
  | .taskReap task => some ⟨taskReap k task, .code⟩
  | .sysWaitpid pid =>
    match waitpidChild k pid with
    | none => some ⟨k, .code⟩
    | some child => some ⟨k, .waitpid .zero pid child⟩
  | .resume => none

/-- One operation. -/
def opStep (L : Layout) (s : OpState) (op : Op) : Option OpState :=
  match s.act, op with
  | .dead, _ => none
  | .exitLoop b, .resume => scheduleAt L s.k (.exitLoop b)
  | .exitLoop _, _ => none
  | .waitpid tf pid child, .resume =>
    if hasEnded s.k child then
      some ⟨if s.k.state child = .zombie then taskReap s.k (some child) else s.k, .code⟩
    else scheduleAt L s.k (.waitpid tf pid child)
  | .waitpid _ _ _, _ => none
  | _, op => call L s.k op

/-- The machine after `thread_init`. -/
def start (L : Layout) (m : Mem) : OpState := ⟨threadInit L (bootKernel m), .code⟩

/-! ### The invariant -/

/-- The invariant of the machine. -/
structure OpInv (L : Layout) (s : OpState) : Prop where
  sched : SchedInv L s.k
  act : s.act ≠ .dead

section Step
variable {L : Layout} {k k' : Kernel} {s s' : OpState} {act : Act}

theorem userProcessCreate_inv {entry sstatus : Word} {r : Option Slot} (h : SchedInv L k)
    (hk : userProcessCreate L entry sstatus k = some (k', r)) : SchedInv L k' := by
  obtain ⟨c, ht, h⟩ := h
  rcases userProcessCreate_cases hk with ⟨-, hc⟩ | ⟨i, k1, -, hc, rfl⟩
  · exact ⟨c, (threadCreate_tp hc).trans ht, threadCreate_inv h hc⟩
  · have h1 := (threadCreate_inv h hc).modify (i := i)
      (f := newProcess L i k1.tp entry sstatus) fun _ => rfl
    exact ⟨c, (threadCreate_tp hc).trans ht, h1.congr (fun _ => rfl) rfl rfl rfl⟩

theorem userProcessCreate_defined (L : Layout) (entry sstatus : Word) (hp : k.nextPid < intMax) :
    ∃ k' r, userProcessCreate L entry sstatus k = some (k', r) := by
  obtain ⟨k1, r, hc⟩ := threadCreate_defined L L.userProcessEntry hp
  unfold userProcessCreate
  rw [hc]
  cases r <;> exact ⟨_, _, rfl⟩

theorem userFork_inv {tf : TrapFrame} {r : ℤ} (h : SchedInv L k)
    (hk : userFork L tf k = some (k', r)) : SchedInv L k' := by
  obtain ⟨p, ht, h⟩ := h
  rcases userFork_cases hk with ⟨rfl, -⟩ | ⟨q, -, -, ⟨-, hc⟩ | ⟨i, k1, hc, -, rfl⟩⟩
  · exact ⟨p, ht, h⟩
  · exact ⟨p, (threadCreate_tp hc).trans ht, threadCreate_inv h hc⟩
  · have h1 := (threadCreate_inv h hc).modify (i := i) (f := forkChild L i q (k1.tasks q) tf)
      fun _ => rfl
    exact ⟨p, (threadCreate_tp hc).trans ht, h1.congr (fun _ => rfl) rfl rfl rfl⟩

theorem userFork_defined (L : Layout) (tf : TrapFrame) (hp : k.nextPid < intMax) :
    ∃ k' r, userFork L tf k = some (k', r) := by
  obtain ⟨k1, r, hc⟩ := threadCreate_defined L L.userProcessEntry hp
  unfold userFork
  split
  · exact ⟨_, _, rfl⟩
  · split_ifs
    · exact ⟨_, _, rfl⟩
    · rw [hc]
      cases r <;> exact ⟨_, _, rfl⟩

/-- **`schedule`** at any place but the end of `thread_exit`. -/
theorem scheduleAt_inv (h : SchedInv L k) (ha : act ≠ .dead) :
    ∃ s, scheduleAt L k act = some s ∧ OpInv L s := by
  obtain ⟨c, ht, hc⟩ := h
  unfold scheduleAt
  rcases schedule_inv ht hc with hs | ⟨k', n, hs, hsw, -, -⟩
  · rw [hs]
    exact ⟨⟨k, act⟩, rfl, ⟨c, ht, hc⟩, ha⟩
  · obtain ⟨k2, a, hk2, ht2, hc2, ha2⟩ := switchTo_inv _ hsw (.inl ha)
    rw [hs]
    refine ⟨⟨k2, a⟩, ?_, ⟨n, ht2, hc2⟩, ha2⟩
    simp only [Option.bind_eq_bind, Option.bind_some, finish, hk2, Option.map_some]

theorem finishExit_inv {c n : Slot} (h : Switching L k c n) (hz : k.state c = .zombie) :
    ∃ s, finishExit L k (.switch c n) = some s ∧ OpInv L s := by
  have hr : k.state c ≠ .runnable := by
    rw [hz]
    decide
  obtain ⟨k2, a, hk2, ht2, hc2, ha2⟩ := switchTo_inv .dead h (.inr hr)
  refine ⟨⟨k2, a⟩, ?_, ⟨n, ht2, hc2⟩, ha2⟩
  simp only [finishExit, finish, reduceCtorEq, if_false, hk2, Option.map_some]

/-- The operation creates a task. -/
def Op.Creates : Op → Prop
  | .threadCreate _ | .userProcessCreate _ _ | .userFork _ => True
  | _ => False

/-- **One operation** of a task in its own code is defined while `next_pid` does not overflow, and
keeps the invariant. -/
theorem call_inv (h : SchedInv L k) {op : Op} (hop : op ≠ .resume) :
    (∀ s, call L k op = some s → OpInv L s) ∧
      ((op.Creates → k.nextPid < intMax) → ∃ s, call L k op = some s) := by
  obtain ⟨c, ht, hc⟩ := h
  have hcode : (Act.code : Act) ≠ .dead := by simp
  cases op with
  | threadCreate fn =>
    refine ⟨fun s hs => ?_, fun hp => ?_⟩
    · rw [call] at hs
      obtain ⟨⟨k1, r⟩, h1, rfl⟩ := Option.map_eq_some_iff.1 hs
      exact ⟨⟨c, (threadCreate_tp h1).trans ht, threadCreate_inv hc h1⟩, hcode⟩
    · obtain ⟨k1, r, h1⟩ := threadCreate_defined L fn (hp trivial)
      exact ⟨_, by rw [call, h1]; rfl⟩
  | userProcessCreate entry sstatus =>
    refine ⟨fun s hs => ?_, fun hp => ?_⟩
    · rw [call] at hs
      obtain ⟨⟨k1, r⟩, h1, rfl⟩ := Option.map_eq_some_iff.1 hs
      exact ⟨userProcessCreate_inv ⟨c, ht, hc⟩ h1, hcode⟩
    · obtain ⟨k1, r, h1⟩ := userProcessCreate_defined L entry sstatus (hp trivial)
      exact ⟨_, by rw [call, h1]; rfl⟩
  | userFork tf =>
    refine ⟨fun s hs => ?_, fun hp => ?_⟩
    · rw [call] at hs
      obtain ⟨⟨k1, r⟩, h1, rfl⟩ := Option.map_eq_some_iff.1 hs
      exact ⟨userFork_inv ⟨c, ht, hc⟩ h1, hcode⟩
    · obtain ⟨k1, r, h1⟩ := userFork_defined L tf (hp trivial)
      exact ⟨_, by rw [call, h1]; rfl⟩
  | schedule =>
    obtain ⟨s1, h1, hi⟩ := scheduleAt_inv ⟨c, ht, hc⟩ hcode
    refine ⟨fun s hs => ?_, fun _ => ⟨s1, h1⟩⟩
    rw [call, h1, Option.some.injEq] at hs
    exact hs ▸ hi
  | threadExit =>
    by_cases hid : k.tp = k.idleTask
    · have he : call L k .threadExit = some ⟨k, .exitLoop false⟩ := by rw [call, if_pos hid]
      refine ⟨fun s hs => ?_, fun _ => ⟨_, he⟩⟩
      rw [he, Option.some.injEq] at hs
      exact hs ▸ ⟨⟨c, ht, hc⟩, by simp⟩
    · have h0 : c ≠ 0 := fun h0 => hid (by rw [ht, hc.idleTask, h0])
      obtain ⟨k1, n, h1, hsw, -, hz⟩ := threadExit_inv ht hc h0
      obtain ⟨s1, h2, hi⟩ := finishExit_inv hsw hz
      have he : call L k .threadExit = some s1 := by
        rw [call, if_neg hid, h1]
        exact h2
      refine ⟨fun s hs => ?_, fun _ => ⟨_, he⟩⟩
      rw [he, Option.some.injEq] at hs
      exact hs ▸ hi
  | taskKill pid status =>
    rcases taskKill_inv ht hc pid status with ⟨k1, r, h1, ht1, hc1⟩ | ⟨k1, n, h1, hsw, hz⟩
    · have he : call L k (.taskKill pid status) = some ⟨k1, .code⟩ := by
        rw [call, h1]
        rfl
      refine ⟨fun s hs => ?_, fun _ => ⟨_, he⟩⟩
      rw [he, Option.some.injEq] at hs
      exact hs ▸ ⟨⟨c, ht1, hc1⟩, hcode⟩
    · obtain ⟨s1, h2, hi⟩ := finishExit_inv hsw hz
      have he : call L k (.taskKill pid status) = some s1 := by
        rw [call, h1]
        exact h2
      refine ⟨fun s hs => ?_, fun _ => ⟨_, he⟩⟩
      rw [he, Option.some.injEq] at hs
      exact hs ▸ hi
  | killZombies =>
    refine ⟨fun s hs => ?_, fun _ => ⟨_, rfl⟩⟩
    rw [call, Option.some.injEq] at hs
    exact hs ▸ ⟨⟨c, (killZombies_frame k).1.trans ht, killZombies_inv hc⟩, hcode⟩
  | taskReap task =>
    refine ⟨fun s hs => ?_, fun _ => ⟨_, rfl⟩⟩
    rw [call, Option.some.injEq] at hs
    exact hs ▸ ⟨⟨c, (taskReap_frame k task).1.trans ht, taskReap_inv hc task⟩, hcode⟩
  | sysWaitpid pid =>
    have hcall : call L k (.sysWaitpid pid) = some ⟨k, .code⟩ ∨
        ∃ child, call L k (.sysWaitpid pid) = some ⟨k, .waitpid .zero pid child⟩ := by
      rw [call]
      cases waitpidChild k pid with
      | none => exact .inl rfl
      | some child => exact .inr ⟨child, rfl⟩
    rcases hcall with he | ⟨child, he⟩
    · refine ⟨fun s hs => ?_, fun _ => ⟨_, he⟩⟩
      rw [he, Option.some.injEq] at hs
      exact hs ▸ ⟨⟨c, ht, hc⟩, hcode⟩
    · refine ⟨fun s hs => ?_, fun _ => ⟨_, he⟩⟩
      rw [he, Option.some.injEq] at hs
      exact hs ▸ ⟨⟨c, ht, hc⟩, by simp⟩
  | resume => exact absurd rfl hop

/-- The operation is the one with which the current task goes on, or the task is in its own code and
the operation is any. -/
def Enabled (s : OpState) (op : Op) : Prop :=
  match s.act with
  | .dead => False
  | .exitLoop _ | .waitpid _ _ _ => op = .resume
  | _ => op ≠ .resume

theorem opStep_call {op : Op} (he : Enabled s op) (hop : op ≠ .resume) :
    opStep L s op = call L s.k op := by
  obtain ⟨k, act⟩ := s
  cases act with
  | dead => exact he.elim
  | exitLoop _ => exact absurd he hop
  | waitpid _ _ _ => exact absurd he hop
  | _ => rfl

theorem enabled_of_opStep {op : Op} (hs : opStep L s op = some s') : Enabled s op := by
  obtain ⟨k, act⟩ := s
  cases act with
  | dead => cases hs
  | exitLoop _ => cases op <;> first | rfl | cases hs
  | waitpid _ _ _ => cases op <;> first | rfl | cases hs
  | _ =>
    rintro rfl
    cases hs

theorem resume_inv (h : OpInv L s) (he : Enabled s .resume) :
    ∃ s', opStep L s .resume = some s' ∧ OpInv L s' := by
  obtain ⟨k, act⟩ := s
  obtain ⟨hi, ha⟩ := h
  cases act with
  | exitLoop _ => exact scheduleAt_inv hi ha
  | waitpid tf pid child =>
    by_cases hc : hasEnded k child
    · obtain ⟨c, ht, hc'⟩ := hi
      refine ⟨_, if_pos hc, ?_, by simp⟩
      dsimp only
      split_ifs
      · exact ⟨c, (taskReap_frame k _).1.trans ht, taskReap_inv hc' _⟩
      · exact ⟨c, ht, hc'⟩
    · obtain ⟨s', hs, hi'⟩ := scheduleAt_inv hi ha
      refine ⟨s', ?_, hi'⟩
      simp only [opStep, if_neg hc]
      exact hs
  | dead => exact he.elim
  | _ => exact absurd rfl he

theorem OpInv.step (h : OpInv L s) {op : Op} (hs : opStep L s op = some s') : OpInv L s' := by
  have he := enabled_of_opStep hs
  by_cases hop : op = .resume
  · subst hop
    obtain ⟨s1, h1, hi⟩ := resume_inv h he
    rw [h1, Option.some.injEq] at hs
    exact hs ▸ hi
  · rw [opStep_call he hop] at hs
    exact (call_inv h.sched hop).1 s' hs

/-- **No operation gets stuck** while `next_pid` does not overflow. -/
theorem OpInv.exists_step (h : OpInv L s) {op : Op} (he : Enabled s op)
    (hp : op.Creates → s.k.nextPid < intMax) : ∃ s', opStep L s op = some s' := by
  by_cases hop : op = .resume
  · subst hop
    obtain ⟨s1, h1, -⟩ := resume_inv h he
    exact ⟨s1, h1⟩
  · rw [opStep_call he hop]
    exact (call_inv h.sched hop).2 hp

end Step

/-! ### The run queue in every run -/

/-- The run queue and the task table fit together. -/
structure QueueOk (k : Kernel) : Prop where
  cycle : ∃ tail xs, k.runQueueTail = some tail ∧ RingList k.next tail xs ∧
    ∀ i, i ∈ xs ↔ k.state i = .runnable ∨ k.state i = .running
  current : ∃ c, k.tp = some c ∧ ∀ i, k.state i = .running ↔ i = c
  idle : ∃ t, k.idleTask = some t ∧ isRunnable k t
  pid : ∀ i j, k.state i ≠ .unused → k.state j ≠ .unused →
    (k.tasks i).pid = (k.tasks j).pid → i = j
  pickNext : ∀ i, isRunnable k i → ∃ next, pickNext k i = some next
  runqRemove : ∀ i, isRunnable k i → ∃ k', runqRemove k i = some k'

theorem queueOk_of_schedInv {L : Layout} {k : Kernel} (h : SchedInv L k) : QueueOk k := by
  obtain ⟨c, ht, h⟩ := h
  refine ⟨h.queue, ⟨c, ht, fun i => ?_⟩, ⟨0, h.idleTask, h.idle⟩, h.pid_inj, fun i hi => ?_,
    fun i hi => exists_runqRemove h hi⟩
  · rw [h.running, Option.some.injEq, eq_comm]
  · obtain ⟨n, hn, -⟩ := exists_pickNext h hi
    exact ⟨n, hn⟩

theorem opInv_start (L : Layout) (m : Mem) : OpInv L (start L m) :=
  ⟨threadInit_inv L m, by simp [start]⟩

theorem opInv_of_run {L : Layout} {m : Mem} {ops : List Op} {s : OpState}
    (h : Run (opStep L) (fun _ _ => True) (start L m) ops s) : OpInv L s :=
  h.invariant (fun _ _ _ hi _ hs => hi.step hs) (opInv_start L m)

/-- **The run queue in every run**: it is one cycle of the runnable tasks, the current task is the one
that runs, pids are distinct, the queue functions end, and no operation gets stuck while `next_pid`
does not overflow. -/
theorem queueOk_of_run {L : Layout} {m : Mem} {ops : List Op} {s : OpState}
    (h : Run (opStep L) (fun _ _ => True) (start L m) ops s) :
    QueueOk s.k ∧ ∀ op, Enabled s op → (op.Creates → s.k.nextPid < intMax) →
      ∃ s', opStep L s op = some s' :=
  ⟨queueOk_of_schedInv (opInv_of_run h).sched, fun _ he hp => (opInv_of_run h).exists_step he hp⟩

/-- A memory map for examples. -/
def sampleLayout : Layout where
  tasks := 0x210000
  kernelStacks := 0x220000
  userStacks := 0x260000
  signalStacks := 0x2A0000
  idle := 0x200100
  threadTrampoline := 0x200200
  userProcessEntry := 0x200300
  tasks_pos := by decide
  tasks_fit := by decide

/-- The run queue after a thread was created and has been given the processor. -/
theorem queueOk_create_schedule : ∃ s,
    Run (opStep sampleLayout) (fun _ _ => True) (start sampleLayout fun _ => 0)
      [.threadCreate 0x201000, .schedule] s ∧ QueueOk s.k := by
  have h0 := opInv_start sampleLayout fun _ => 0
  have he0 : Enabled (start sampleLayout fun _ => 0) (.threadCreate 0x201000) := by
    simp [Enabled, start]
  obtain ⟨s1, h1⟩ := h0.exists_step he0 fun _ => by decide
  have hact : s1.act = .code := by
    rw [opStep_call he0 (by simp), call] at h1
    obtain ⟨⟨k1, r⟩, -, rfl⟩ := Option.map_eq_some_iff.1 h1
    rfl
  have he1 : Enabled s1 .schedule := by simp [Enabled, hact]
  obtain ⟨s2, h2⟩ := (h0.step h1).exists_step he1 fun hc => hc.elim
  have hrun : Run (opStep sampleLayout) (fun _ _ => True) (start sampleLayout fun _ => 0)
      [.threadCreate 0x201000, .schedule] s2 := .cons trivial h1 (.single trivial h2)
  exact ⟨s2, hrun, (queueOk_of_run hrun).1⟩

end OscKernel.Proc.Ops
