import OscKernel.Deferred.Task
import OscKernel.Deferred.Timer
import OscKernel.Lib.Transition

/-! # The machine of the deferred work of lab5

The task queue and the timers together, with the calls that traps nest: `timer_handle_interrupt` and
`run_pending_task` are entered one inside another, each going through its loop round by round, and the
callbacks they call run until they return. `add_task`, `add_timer` and `timer_trigger_now` come at any
point, and so does another trap.

* `step`: one event, with what it shows to the outside.
* `Log`: the history kept along a run.
* `runFrom`: the runs after `task_init` and `timer_init`. -/

namespace OscKernel.Deferred.Machine

open OscKernel.Lib.NodePool OscKernel.Lib.Transition
open OscKernel.Deferred.Task OscKernel.Deferred.Timer

/-- A function that has been entered and has not returned. -/
inductive Frame
  /-- `timer_handle_interrupt`, at the top of its loop -/
  | timer
  /-- a callback called by `timer_handle_interrupt` itself -/
  | direct (callback arg : ℕ)
  /-- `run_pending_task`, at the top of its loop -/
  | pending
  /-- the callback of a task called by `run_pending_task`, with its `prev_priority` -/
  | running (prevPriority : ℤ) (event : TaskEvent)
deriving DecidableEq

/-- The innermost frame comes first. -/
structure State where
  tasks : TaskQueue
  timers : TimerQueue
  clock : ℕ
  frames : List Frame

inductive Event
  | addTask (callback arg : ℕ) (priority : ℤ)
  | addTimer (callback arg : ℕ) (sec : ℤ)
  | triggerNow
  | advance (ticks : ℕ)
  /-- `timer_handle_interrupt` is entered -/
  | timerInterrupt
  /-- `run_pending_task` is entered -/
  | runPending
  /-- the innermost frame is one of these two functions and goes through its loop once -/
  | round
  /-- the innermost frame is a callback and returns -/
  | done
deriving DecidableEq

/-- What an event shows to the outside. -/
inductive Output
  | quiet
  /-- `add_task` returned 0 -/
  | taskAdded (node : Fin 64) (callback arg : ℕ) (priority : ℤ)
  /-- `add_timer` returned 0 -/
  | timerAdded (node : Fin 32) (callback arg : ℕ) (sec : ℤ)
  /-- a callback of a timer was handed to `add_task`, which gave it a node, or else was called -/
  | dispatched (node : Fin 32) (callback arg : ℕ) (task : Option (Fin 64))
  /-- a timer without a callback was taken from the queue -/
  | dropped
  /-- `timer_handle_interrupt` returned -/
  | handled
  /-- `run_pending_task` was entered -/
  | entered
  /-- `run_pending_task` called the callback of a task -/
  | started (node : Fin 64) (event : TaskEvent)
  /-- the callback of a task returned -/
  | finished
  /-- `run_pending_task` returned -/
  | returned
deriving DecidableEq

/-- The innermost frame goes through its loop once. -/
def roundStep (s : State) : Option (State × Output) :=
  match s.frames with
  | .timer :: fs =>
    match handlerRound s.timers s.clock with
    | none => none
    | some (none, t) => some ({ s with timers := t, frames := fs }, .handled)
    | some (some (n, e), t) =>
      if e.callback = 0 then some ({ s with timers := t }, .dropped)
      else
        (addTask s.tasks e.callback e.arg 1).map fun
          | (none, q) =>
            ({ s with timers := t, tasks := q, frames := .direct e.callback e.arg :: s.frames },
              .dispatched n e.callback e.arg none)
          | (some m, q) =>
            ({ s with timers := t, tasks := q }, .dispatched n e.callback e.arg (some m))
  | .pending :: fs =>
    match pendingRound s.tasks with
    | none => some ({ s with frames := fs }, .returned)
    | some (k, q) =>
      some ({ s with tasks := q, frames := .running k.prevPriority k.event :: fs },
        .started k.node k.event)
  | _ => none

/-- The callback of the innermost frame returns. -/
def doneStep (s : State) : Option (State × Output) :=
  match s.frames with
  | .direct _ _ :: fs => some ({ s with frames := fs }, .quiet)
  | .running prev _ :: fs =>
    some ({ s with tasks := restorePriority s.tasks prev, frames := .pending :: fs }, .finished)
  | _ => none

def step (s : State) : Event → Option (State × Output)
  | .addTask callback arg priority =>
    (addTask s.tasks callback arg priority).map fun
      | (none, q) => ({ s with tasks := q }, .quiet)
      | (some n, q) => ({ s with tasks := q }, .taskAdded n callback arg priority)
  | .addTimer callback arg sec =>
    (addTimer s.timers s.clock callback arg sec).map fun
      | (none, t) => ({ s with timers := t }, .quiet)
      | (some n, t) => ({ s with timers := t }, .timerAdded n callback arg sec)
  | .triggerNow => some ({ s with timers := timerTriggerNow s.timers s.clock }, .quiet)
  | .advance ticks => some ({ s with clock := s.clock + ticks }, .quiet)
  | .timerInterrupt => some ({ s with frames := .timer :: s.frames }, .quiet)
  | .runPending => some ({ s with frames := .pending :: s.frames }, .entered)
  | .round => roundStep s
  | .done => doneStep s

/-- The state before `task_init` and `timer_init`. -/
def zeroed : State :=
  ⟨⟨⟨fun _ => ⟨0, 0, 0⟩, fun _ => none, none, none⟩, idlePriority⟩,
    ⟨⟨fun _ => ⟨0, 0, 0⟩, fun _ => none, none, none⟩, 0, 0, 0, false⟩, 0, []⟩

/-- `task_init` and `timer_init`, at the time `now`. -/
def init (s : State) (now : ℕ) : State := ⟨taskInit s.tasks, timerInit s.timers now, now, []⟩

/-! ### The history -/

/-- A call of a callback, or its handing over to `add_task`, by `timer_handle_interrupt`. -/
structure Dispatch where
  callback : ℕ
  arg : ℕ
  time : ℕ
deriving DecidableEq

/-- The tasks accepted and started; those that run, the innermost first, and those that have
finished; `task_current_priority` when each `run_pending_task` was entered, the innermost first. -/
structure TaskLog where
  ledger : Ledger 64 TaskEvent
  active : List (TaskEvent × ℕ)
  finished : List (TaskEvent × ℕ)
  entries : List ℤ

/-- The timers accepted and dispatched, and the dispatches. -/
structure TimerLog where
  ledger : Ledger 32 TimerEvent
  dispatches : List Dispatch

structure Log where
  tasks : TaskLog
  timers : TimerLog

def Log.empty : Log := ⟨⟨.empty, [], [], []⟩, ⟨.empty, []⟩⟩

def TaskLog.add (g : TaskLog) (n : Fin 64) (e : TaskEvent) : TaskLog :=
  { g with ledger := g.ledger.accept n e }

def TaskLog.start (g : TaskLog) (n : Fin 64) (e : TaskEvent) : TaskLog :=
  { g with ledger := g.ledger.take n e, active := (e, g.ledger.owner n) :: g.active }

def TaskLog.finish (g : TaskLog) : TaskLog :=
  { g with finished := g.finished ++ g.active.head?.toList, active := g.active.tail }

def Log.update (g : Log) (s : State) : Output → State → Log
  | .taskAdded n callback arg priority, _ =>
    { g with tasks := g.tasks.add n ⟨priority, callback, arg⟩ }
  | .timerAdded n callback arg sec, _ =>
    { g with
      timers.ledger :=
        g.timers.ledger.accept n ⟨s.clock + sec.toNat * timerFreq, callback, arg⟩ }
  | .dispatched n callback arg task, _ =>
    { tasks :=
        match task with
        | none => g.tasks
        | some m => g.tasks.add m ⟨1, callback, arg⟩
      timers :=
        ⟨g.timers.ledger.take n (s.timers.pool.node n),
          g.timers.dispatches ++ [⟨callback, arg, s.clock⟩]⟩ }
  | .entered, _ => { g with tasks.entries := s.tasks.currentPriority :: g.tasks.entries }
  | .started n e, _ => { g with tasks := g.tasks.start n e }
  | .finished, _ => { g with tasks := g.tasks.finish }
  | .returned, _ => { g with tasks.entries := g.tasks.entries.tail }
  | .quiet, _ | .dropped, _ | .handled, _ => g

/-- The machine with its history. -/
def logged : State × Log → Event → Option (State × Log) := withHistory step Log.update

/-! ### What a step does to the tasks -/

/-- What has become of the task queue, by what the step shows. -/
def TaskEffect (s : State) : Output → State → Prop
  | .taskAdded n callback arg priority, s' =>
    addTask s.tasks callback arg priority = some (some n, s'.tasks)
  | .dispatched _ callback arg (some n), s' =>
    addTask s.tasks callback arg 1 = some (some n, s'.tasks)
  | .started n e, s' => ∃ prev, pendingRound s.tasks = some (⟨n, e, prev⟩, s'.tasks)
  | _, s' => s'.tasks.pool = s.tasks.pool

theorem step_taskEffect {s s' : State} {e : Event} {o : Output} (h : step s e = some (s', o)) :
    TaskEffect s o s' := by
  cases e with
  | addTask callback arg priority =>
    obtain ⟨⟨r, t⟩, ha, hr⟩ := Option.map_eq_some_iff.1 h
    cases r with
    | none =>
      cases hr
      exact congrArg TaskQueue.pool (addTask_refused ha)
    | some n =>
      cases hr
      exact ha
  | addTimer callback arg sec =>
    obtain ⟨⟨r, t⟩, -, hr⟩ := Option.map_eq_some_iff.1 h
    cases r <;> cases hr <;> rfl
  | triggerNow | advance | timerInterrupt | runPending => cases h; rfl
  | done =>
    rw [step, doneStep] at h
    split at h <;> cases h <;> rfl
  | round =>
    rw [step, roundStep] at h
    split at h
    · split at h
      · cases h
      · cases h
        rfl
      · split_ifs at h
        · cases h
          rfl
        · obtain ⟨⟨r, u⟩, ha, hr⟩ := Option.map_eq_some_iff.1 h
          cases r with
          | none =>
            cases hr
            exact congrArg TaskQueue.pool (addTask_refused ha)
          | some m =>
            cases hr
            exact ha
    · split at h
      · cases h
        rfl
      · rename_i k u hr
        cases h
        exact ⟨k.prevPriority, hr⟩
    · cases h

/-- What has become of the timers, by what the step shows. -/
def TimerEffect (s : State) : Output → State → Prop
  | .timerAdded n callback arg sec, s' =>
    addTimer s.timers s.clock callback arg sec = some (some n, s'.timers)
  | .dispatched n callback arg _, s' => ∃ expiresAt,
    handlerRound s.timers s.clock = some (some (n, ⟨expiresAt, callback, arg⟩), s'.timers)
  | .dropped, s' => ∃ n e, e.callback = 0 ∧
    handlerRound s.timers s.clock = some (some (n, e), s'.timers)
  | _, s' => s'.timers.pool = s.timers.pool

theorem step_timerEffect {s s' : State} {e : Event} {o : Output} (h : step s e = some (s', o)) :
    TimerEffect s o s' := by
  cases e with
  | addTask callback arg priority =>
    obtain ⟨⟨r, t⟩, -, hr⟩ := Option.map_eq_some_iff.1 h
    cases r <;> cases hr <;> rfl
  | addTimer callback arg sec =>
    obtain ⟨⟨r, t⟩, ha, hr⟩ := Option.map_eq_some_iff.1 h
    cases r with
    | none =>
      cases hr
      exact congrArg TimerQueue.pool (addTimer_refused ha)
    | some n =>
      cases hr
      exact ha
  | triggerNow | advance | timerInterrupt | runPending => cases h; rfl
  | done =>
    rw [step, doneStep] at h
    split at h <;> cases h <;> rfl
  | round =>
    rw [step, roundStep] at h
    split at h
    · split at h
      · cases h
      · rename_i t hr
        cases h
        exact handlerRound_returns hr
      · rename_i n ev t hr
        split_ifs at h with hz
        · cases h
          exact ⟨n, ev, hz, hr⟩
        · obtain ⟨⟨r, u⟩, -, ho⟩ := Option.map_eq_some_iff.1 h
          cases r <;> cases ho <;> exact ⟨ev.expiresAt, hr⟩
    · split at h <;> cases h <;> rfl
    · cases h

/-- The event that an output answers, if it is the acceptance of a task or a timer. -/
def Output.accepts : Output → Option Event
  | .taskAdded _ callback arg priority => some (.addTask callback arg priority)
  | .timerAdded _ callback arg sec => some (.addTimer callback arg sec)
  | _ => none

theorem eq_of_accepts {s s' : State} {e e' : Event} {o : Output} (h : step s e = some (s', o))
    (ho : o.accepts = some e') : e' = e := by
  cases e with
  | addTask callback arg priority =>
    obtain ⟨⟨r, t⟩, -, hr⟩ := Option.map_eq_some_iff.1 h
    cases r <;> cases hr <;> cases ho
    rfl
  | addTimer callback arg sec =>
    obtain ⟨⟨r, t⟩, -, hr⟩ := Option.map_eq_some_iff.1 h
    cases r <;> cases hr <;> cases ho
    rfl
  | triggerNow | advance | timerInterrupt | runPending => cases h; cases ho
  | done =>
    rw [step, doneStep] at h
    split at h <;> cases h <;> cases ho
  | round =>
    rw [step, roundStep] at h
    split at h
    · split at h
      · cases h
      · cases h; cases ho
      · split_ifs at h
        · cases h; cases ho
        · obtain ⟨⟨r, u⟩, -, hr⟩ := Option.map_eq_some_iff.1 h
          cases r <;> cases hr <;> cases ho
    · split at h <;> cases h <;> cases ho
    · cases h

/-- The callback that a frame has called, and its argument. -/
def Frame.call : Frame → Option (ℕ × ℕ)
  | .direct callback arg => some (callback, arg)
  | .running _ e => some (e.callback, e.arg)
  | .timer | .pending => none

/-- The calls of callbacks that have not returned, the innermost first. -/
def State.calls (s : State) : List (ℕ × ℕ) := s.frames.filterMap Frame.call

theorem State.calls_eq {s : State} {f : Frame} {fs : List Frame} (h : s.frames = f :: fs)
    (hf : f.call = none) : s.calls = fs.filterMap Frame.call := by
  rw [State.calls, h]
  simp only [List.filterMap_cons, hf]

/-- What a step other than a return does to the calls, by what it shows. -/
def CallEffect (s : State) : Output → State → Prop
  | .dispatched _ callback arg none, s' => s'.calls = (callback, arg) :: s.calls
  | .started _ e, s' => s'.calls = (e.callback, e.arg) :: s.calls
  | _, s' => s'.calls = s.calls

theorem step_callEffect {s s' : State} {e : Event} {o : Output} (h : step s e = some (s', o))
    (he : e ≠ .done) : CallEffect s o s' := by
  cases e with
  | addTask callback arg priority =>
    obtain ⟨⟨r, t⟩, -, hr⟩ := Option.map_eq_some_iff.1 h
    cases r <;> cases hr <;> rfl
  | addTimer callback arg sec =>
    obtain ⟨⟨r, t⟩, -, hr⟩ := Option.map_eq_some_iff.1 h
    cases r <;> cases hr <;> rfl
  | triggerNow | advance | timerInterrupt | runPending => cases h; rfl
  | done => exact absurd rfl he
  | round =>
    rw [step, roundStep] at h
    split at h
    · rename_i fs hfs
      split at h
      · cases h
      · cases h
        exact (State.calls_eq hfs rfl).symm
      · split_ifs at h
        · cases h
          rfl
        · obtain ⟨⟨r, u⟩, -, ho⟩ := Option.map_eq_some_iff.1 h
          cases r <;> cases ho <;> rfl
    · rename_i fs hfs
      have hcalls := State.calls_eq hfs rfl
      split at h
      · cases h
        exact hcalls.symm
      · cases h
        exact congrArg _ hcalls.symm
    · cases h

/-- A return takes away the innermost call, and leaves the pools as they are. -/
theorem done_calls {s s' : State} {o : Output} (h : step s .done = some (s', o)) :
    ∃ c, s.frames.head?.bind Frame.call = some c ∧ s.calls = c :: s'.calls ∧
      s'.tasks.pool = s.tasks.pool ∧ s'.timers = s.timers := by
  rw [step, doneStep] at h
  split at h
  · rename_i callback arg fs hfs
    cases h
    exact ⟨(callback, arg), by rw [hfs]; rfl, by rw [State.calls, hfs]; rfl, rfl, rfl⟩
  · rename_i prev ev fs hfs
    cases h
    exact ⟨(ev.callback, ev.arg), by rw [hfs]; rfl, by rw [State.calls, hfs]; rfl, rfl, rfl⟩
  · cases h

/-- The frames of `run_pending_task`. -/
def Frame.ofTask : Frame → Bool
  | .pending | .running _ _ => true
  | .timer | .direct _ _ => false

def State.taskFrames (s : State) : List Frame := s.frames.filter Frame.ofTask

/-- The moves of the task queue. -/
inductive TaskMove (p : State × Log) (ev : Event) (q : State × Log) : Prop
  | same (ht : q.1.tasks = p.1.tasks) (hf : q.1.taskFrames = p.1.taskFrames)
      (hg : q.2.tasks = p.2.tasks)
  | add (n : Fin 64) (e : TaskEvent)
      (ht : addTask p.1.tasks e.callback e.arg e.priority = some (some n, q.1.tasks))
      (hf : q.1.taskFrames = p.1.taskFrames) (hg : q.2.tasks = p.2.tasks.add n e)
  | enter (ht : q.1.tasks = p.1.tasks) (hf : q.1.taskFrames = .pending :: p.1.taskFrames)
      (hg : q.2.tasks =
        { p.2.tasks with entries := p.1.tasks.currentPriority :: p.2.tasks.entries })
  | start (k : Taken) (fs : List Frame) (he : ev = .round)
      (hpf : p.1.taskFrames = .pending :: fs) (hpt : p.1.frames.head? = some .pending)
      (ht : pendingRound p.1.tasks = some (k, q.1.tasks))
      (hf : q.1.taskFrames = .running k.prevPriority k.event :: fs)
      (hg : q.2.tasks = p.2.tasks.start k.node k.event)
  | finish (prev : ℤ) (e : TaskEvent) (fs : List Frame)
      (hpf : p.1.taskFrames = .running prev e :: fs)
      (ht : q.1.tasks = restorePriority p.1.tasks prev) (hf : q.1.taskFrames = .pending :: fs)
      (hg : q.2.tasks = p.2.tasks.finish)
  | leave (fs : List Frame) (hpf : p.1.taskFrames = .pending :: fs)
      (hr : pendingRound p.1.tasks = none) (ht : q.1.tasks = p.1.tasks) (hf : q.1.taskFrames = fs)
      (hg : q.2.tasks = { p.2.tasks with entries := p.2.tasks.entries.tail })

theorem logged_taskMove {p q : State × Log} {e : Event} (h : logged p e = some q) :
    TaskMove p e q := by
  obtain ⟨o, hs, hg⟩ := withHistory_eq_some h
  obtain ⟨s, g⟩ := p
  obtain ⟨s', g'⟩ := q
  dsimp only at hs hg
  subst hg
  cases e with
  | addTask callback arg priority =>
    obtain ⟨⟨r, t⟩, ha, hr⟩ := Option.map_eq_some_iff.1 hs
    cases r with
    | none =>
      cases hr
      exact .same (addTask_refused ha) rfl rfl
    | some n =>
      cases hr
      exact .add n ⟨priority, callback, arg⟩ ha rfl rfl
  | addTimer callback arg sec =>
    obtain ⟨⟨r, t⟩, ha, hr⟩ := Option.map_eq_some_iff.1 hs
    cases r <;> cases hr <;> exact .same rfl rfl rfl
  | triggerNow => cases hs; exact .same rfl rfl rfl
  | advance ticks => cases hs; exact .same rfl rfl rfl
  | timerInterrupt => cases hs; exact .same rfl rfl rfl
  | runPending => cases hs; exact .enter rfl rfl rfl
  | done =>
    rw [step, doneStep] at hs
    split at hs
    · rename_i fs hfs
      cases hs
      exact .same rfl (by rw [State.taskFrames, State.taskFrames, hfs]; rfl) rfl
    · rename_i prev ev fs hfs
      cases hs
      exact .finish prev ev _ (by rw [State.taskFrames, hfs]; rfl) rfl rfl rfl
    · cases hs
  | round =>
    rw [step, roundStep] at hs
    split at hs
    · rename_i fs hfs
      split at hs
      · cases hs
      · cases hs
        exact .same rfl (by rw [State.taskFrames, State.taskFrames, hfs]; rfl) rfl
      · rename_i n ev t hr
        split_ifs at hs
        · cases hs
          exact .same rfl rfl rfl
        · obtain ⟨⟨r, u⟩, ha, hr⟩ := Option.map_eq_some_iff.1 hs
          cases r with
          | none =>
            cases hr
            exact .same (addTask_refused ha) rfl rfl
          | some m =>
            cases hr
            exact .add m ⟨1, ev.callback, ev.arg⟩ ha rfl rfl
    · rename_i fs hfs
      have hpf : s.taskFrames = .pending :: fs.filter Frame.ofTask := by
        rw [State.taskFrames, hfs]
        rfl
      split at hs
      · rename_i hr
        cases hs
        exact .leave _ hpf hr rfl rfl rfl
      · rename_i k u hr
        cases hs
        exact .start k _ rfl hpf (by rw [hfs]; rfl) hr rfl rfl
    · cases hs

/-! ### What a step does to the timers -/

/-- The moves of the timers. -/
inductive TimerMove (p : State × Log) (ev : Event) (q : State × Log) : Prop
  | same (ht : q.1.timers = p.1.timers) (hc : p.1.clock ≤ q.1.clock) (hg : q.2.timers = p.2.timers)
  | add (n : Fin 32) (callback arg : ℕ) (sec : ℤ) (he : ev = .addTimer callback arg sec)
      (ht : addTimer p.1.timers p.1.clock callback arg sec = some (some n, q.1.timers))
      (hc : q.1.clock = p.1.clock)
      (hg : q.2.timers = { p.2.timers with
        ledger := p.2.timers.ledger.accept n ⟨p.1.clock + sec.toNat * timerFreq, callback, arg⟩ })
  | trigger (ht : q.1.timers = timerTriggerNow p.1.timers p.1.clock)
      (hc : q.1.clock = p.1.clock) (hg : q.2.timers = p.2.timers)
  | handle (he : ev = .round) (ht : handlerRound p.1.timers p.1.clock = some (none, q.1.timers))
      (hc : q.1.clock = p.1.clock) (hg : q.2.timers = p.2.timers)
  | dispatch (n : Fin 32) (e : TimerEvent) (he : ev = .round)
      (ht : handlerRound p.1.timers p.1.clock = some (some (n, e), q.1.timers))
      (hc : q.1.clock = p.1.clock)
      (hg : q.2.timers = ⟨p.2.timers.ledger.take n (p.1.timers.pool.node n),
        p.2.timers.dispatches ++ [⟨e.callback, e.arg, p.1.clock⟩]⟩)
  | drop (n : Fin 32) (e : TimerEvent) (he : ev = .round)
      (ht : handlerRound p.1.timers p.1.clock = some (some (n, e), q.1.timers))
      (hz : e.callback = 0)

theorem logged_timerMove {p q : State × Log} {e : Event} (h : logged p e = some q) :
    TimerMove p e q := by
  obtain ⟨o, hs, hg⟩ := withHistory_eq_some h
  obtain ⟨s, g⟩ := p
  obtain ⟨s', g'⟩ := q
  dsimp only at hs hg
  subst hg
  cases e with
  | addTask callback arg priority =>
    obtain ⟨⟨r, t⟩, ha, hr⟩ := Option.map_eq_some_iff.1 hs
    cases r <;> cases hr <;> exact .same rfl le_rfl rfl
  | addTimer callback arg sec =>
    obtain ⟨⟨r, t⟩, ha, hr⟩ := Option.map_eq_some_iff.1 hs
    cases r with
    | none =>
      cases hr
      exact .same (addTimer_refused ha) le_rfl rfl
    | some n =>
      cases hr
      exact .add n callback arg sec rfl ha rfl rfl
  | triggerNow => cases hs; exact .trigger rfl rfl rfl
  | advance ticks => cases hs; exact .same rfl (Nat.le_add_right ..) rfl
  | timerInterrupt => cases hs; exact .same rfl le_rfl rfl
  | runPending => cases hs; exact .same rfl le_rfl rfl
  | done =>
    rw [step, doneStep] at hs
    split at hs <;> cases hs <;> exact .same rfl le_rfl rfl
  | round =>
    rw [step, roundStep] at hs
    split at hs
    · split at hs
      · cases hs
      · rename_i t hr
        cases hs
        exact .handle rfl hr rfl rfl
      · rename_i n ev t hr
        split_ifs at hs with hz
        · cases hs
          exact .drop n ev rfl hr hz
        · obtain ⟨⟨r, u⟩, -, ho⟩ := Option.map_eq_some_iff.1 hs
          cases r <;> cases ho <;> exact .dispatch n ev rfl hr rfl rfl
    · split at hs <;> cases hs <;> exact .same rfl le_rfl rfl
    · cases hs

end OscKernel.Deferred.Machine
