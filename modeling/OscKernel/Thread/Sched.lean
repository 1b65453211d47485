import OscKernel.Thread.RunQueue

/-! # Threads of lab5

The functions of `thread.c`: creation, `schedule`, exit, kill and the reaping of zombies, and
`switch_to` of `start.S`. A function is partial where the source dereferences a null pointer, where a
loop does not end, and where `next_pid` overflows. -/

namespace OscKernel.Thread.Sched

open OscKernel.Lib.Memory OscKernel.Thread.Task OscKernel.Thread.RunQueue

/-- The greatest `int`. -/
def intMax : ℤ := 2147483647

/-- What `task_reap` writes to a slot. -/
def reaped (t : TaskStruct) : TaskStruct :=
  TaskStruct.signalTaskInit { t with
    pid := -1
    state := .unused
    entry := 0
    stackBase := 0
    next := none
    isUser := false
    exitStatus := 0
    kernelSp := 0
    userStackBase := 0
    userStackTop := 0
    parent := none
    context := .clear
    trapframe := .zero }

/-- `task_reap`. -/
def taskReap (k : Kernel) (task : Option Slot) : Kernel :=
  match task with
  | none => k
  | some i =>
    if k.idleTask = some i then k
    else if k.state i ≠ .zombie then k
    else k.modify i reaped

/-- The parent of the task is a user process that can still wait for it. -/
def waitedFor (k : Kernel) (i : Slot) : Prop :=
  ∃ p, (k.tasks i).parent = some p ∧ (k.tasks p).isUser = true ∧ k.state p ≠ .unused ∧
    k.state p ≠ .zombie

instance (k : Kernel) (i : Slot) : Decidable (waitedFor k i) :=
  match h : (k.tasks i).parent with
  | none => isFalse fun ⟨p, hp, _⟩ => by rw [h] at hp; cases hp
  | some q =>
    if hq : (k.tasks q).isUser = true ∧ k.state q ≠ .unused ∧ k.state q ≠ .zombie then
      isTrue ⟨q, h, hq⟩
    else isFalse fun ⟨p, hp, h'⟩ => hq (by rw [h, Option.some.injEq] at hp; exact hp ▸ h')

/-- One round of the loop of `kill_zombies`. -/
def killZombie (k : Kernel) (i : Slot) : Kernel :=
  if k.state i ≠ .zombie then k
  else if waitedFor k i then k
  else taskReap k (some i)

/-- `kill_zombies`: the loop starts at slot `1`. -/
@[irreducible] def killZombies (k : Kernel) : Kernel := ((List.finRange 16).drop 1).foldl killZombie k

/-- `alloc_task`. -/
def allocTask (k : Kernel) : Kernel × Option Slot :=
  (killZombies k, (List.finRange 16).find? fun i => (killZombies k).state i = .unused)

/-- What `thread_create` writes to the slot `i`. -/
def newThread (L : Layout) (fn : Word) (pid : ℤ) (i : Slot) (t : TaskStruct) : TaskStruct :=
  { t with
    pid := pid
    state := .runnable
    entry := fn
    stackBase := L.stackBase i
    next := none
    context := .start L.threadTrampoline (L.stackTop i) }

@[simp] theorem newThread_state (L : Layout) (fn : Word) (pid : ℤ) (i : Slot) (t : TaskStruct) :
    (newThread L fn pid i t).state = .runnable := rfl

@[simp] theorem newThread_pid (L : Layout) (fn : Word) (pid : ℤ) (i : Slot) (t : TaskStruct) :
    (newThread L fn pid i t).pid = pid := rfl

/-- `thread_create`. -/
def threadCreate (L : Layout) (fn : Word) (k : Kernel) : Option (Kernel × Option Slot) :=
  match allocTask k with
  | (k, none) => some (k, none)
  | (k, some i) =>
    if intMax ≤ k.nextPid then none
    else
      let k' := k.modify i (newThread L fn k.nextPid i)
      some (runqAdd { k' with nextPid := k.nextPid + 1 } i, some i)

/-- **`thread_create`** reaps; then no slot is free, or a free one gets the thread. -/
theorem threadCreate_cases {L : Layout} {fn : Word} {k k' : Kernel} {r : Option Slot}
    (h : threadCreate L fn k = some (k', r)) :
    (r = none ∧ k' = killZombies k ∧ ∀ i, (killZombies k).state i ≠ .unused) ∨
      ∃ i, r = some i ∧ (killZombies k).state i = .unused ∧ (killZombies k).nextPid < intMax ∧
        k' = runqAdd { (killZombies k).modify i (newThread L fn (killZombies k).nextPid i) with
          nextPid := (killZombies k).nextPid + 1 } i := by
  unfold threadCreate allocTask at h
  split at h
  · rename_i heq
    obtain ⟨rfl, hfind⟩ := Prod.mk.inj heq
    rw [Option.some.injEq, Prod.mk.injEq] at h
    refine .inl ⟨h.2.symm, h.1.symm, fun i => ?_⟩
    simpa using List.find?_eq_none.1 hfind i (List.mem_finRange i)
  · rename_i i heq
    obtain ⟨rfl, hfind⟩ := Prod.mk.inj heq
    split_ifs at h with hp
    rw [Option.some.injEq, Prod.mk.injEq] at h
    exact .inr ⟨i, h.2.symm, by simpa using List.find?_some hfind, not_le.1 hp, h.1.symm⟩

/-- `schedule`, up to the call of `switch_to`. -/
def schedule (k : Kernel) : Option (Kernel × Flow) :=
  match k.tp, k.runQueueTail with
  | none, _ | _, none => some (k, .ret)
  | some prev, some _ => do
    let next ← pickNext k prev
    if next = prev then some (k, .ret)
    else
      let k := if k.state prev = .running then k.setState prev .runnable else k
      some (k.setState next .running, .switch prev next)

/-- The task that `thread_exit` of `prev` switches to: the parent, if it is alive, or the next one. -/
def exitTarget (k : Kernel) (prev : Slot) : Option Slot :=
  match (k.tasks prev).parent with
  | some p => if k.state p ≠ .unused ∧ k.state p ≠ .zombie then some p else pickNext k prev
  | none => pickNext k prev

/-- `thread_exit` of a task other than the idle task, up to the call of `switch_to`. -/
def threadExit (k : Kernel) : Option (Kernel × Flow) := do
  let prev ← k.tp
  let target ← exitTarget k prev
  let k ← runqRemove k prev
  let k := k.setState prev .zombie
  let next ← if target = prev then k.idleTask else some target
  some (k.setState next .running, .switch prev next)

/-- `task_find_by_pid`. -/
def taskFindByPid (k : Kernel) (pid : ℤ) : Option Slot :=
  (List.finRange 16).find? fun i => k.state i ≠ .unused ∧ (k.tasks i).pid = pid

/-- `task_kill`, with its result where it returns. -/
def taskKill (k : Kernel) (pid : ℤ) (status : BitVec 32) : Option (Kernel × Flow × ℤ) :=
  match taskFindByPid k pid with
  | none => some (k, .ret, -1)
  | some task =>
    if k.idleTask = some task then some (k, .ret, -1)
    else if k.state task = .unused ∨ k.state task = .zombie then some (k, .ret, -1)
    else if k.tp = some task then do
      let (k, flow) ← threadExit (k.setExitStatus task status)
      some (k, flow, 0)
    else do
      let k ← runqRemove k task
      some ((k.setExitStatus task status).setState task .zombie, .ret, 0)

/-- `switch_to`: the thread on the kernel stack of `me`, which stands at `act`, is saved in `prev`,
and the thread saved in `next` goes on. -/
def switchTo (L : Layout) (k : Kernel) (prev next me : Slot) (act : Act) :
    Option (Kernel × Slot × Act) :=
  let k := (k.setContext prev (.saved me act)).setTp (some next)
  match (k.tasks next).context with
  | .clear => none
  | .start ra _ => if ra = L.threadTrampoline then some (k, next, .fresh) else none
  | .saved owner act => some (k, owner, act)

/-- A task whose memory is zero, as at the start of the kernel. -/
def zeroTask : TaskStruct where
  context := .clear
  pid := 0
  state := .unused
  entry := 0
  stackBase := 0
  next := none
  isUser := false
  exitStatus := 0
  trapframe := .zero
  kernelSp := 0
  userStackBase := 0
  userStackTop := 0
  parent := none
  signalHandlers := fun _ => 0
  pendingSignals := 0
  handlingSignal := false
  currentSignal := 0
  signalSavedTf := .zero

/-- The static data of `thread.c` at the start of the kernel. -/
def bootKernel (m : Mem) : Kernel where
  tasks := fun _ => zeroTask
  runQueueTail := none
  idleTask := none
  nextPid := 1
  tp := none
  mem := m

/-- `thread_init`. -/
def threadInit (L : Layout) (k : Kernel) : Kernel :=
  let k := { k with tasks := fun i => { k.tasks i with
    pid := -1
    state := .unused
    entry := 0
    stackBase := 0
    next := none
    context := .clear
    isUser := false
    exitStatus := 0
    kernelSp := 0
    userStackBase := 0
    userStackTop := 0
    parent := none } }
  let k := { k with idleTask := some 0 }
  let k := k.modify 0 fun t => { t with
    pid := 0
    state := .running
    entry := L.idle
    stackBase := L.stackBase 0
    context := .start L.idle (L.stackTop 0) }
  { runqAdd k 0 with tp := some 0 }

end OscKernel.Thread.Sched
