import OscKernel.Lib.NodePool

/-! # The task queue of lab5

`task.c`: callbacks wait in a queue sorted by priority, and `run_pending_task` runs them before a trap
returns. A critical section between `local_irq_save` and `local_irq_restore` is one step.

* `addTask_spec`, `pendingRound_spec`: what the critical sections do to the pool and the queue. -/

namespace OscKernel.Deferred.Task

open OscKernel.Lib.NodePool

/-- `struct task_event`, less its link. A callback is an address; 0 is the null pointer. -/
structure TaskEvent where
  priority : ℤ
  callback : ℕ
  arg : ℕ
deriving DecidableEq, Repr

/-- `task_pool`, `task_free_list`, `task_head` and `task_current_priority`. -/
structure TaskQueue where
  pool : Pool 64 TaskEvent
  currentPriority : ℤ

/-- `INT_MIN + 1`: no task is running. -/
def idlePriority : ℤ := -2147483647

/-- The order of the queue: `a.priority > b.priority`. -/
def Higher (a b : TaskEvent) : Prop := b.priority < a.priority

instance : DecidableRel Higher := fun a b => inferInstanceAs (Decidable (b.priority < a.priority))

/-- `task_init`. -/
def taskInit (t : TaskQueue) : TaskQueue := ⟨t.pool.init, idlePriority⟩

/-- `add_task`. A node stands for the return value 0, which says that the node now holds the task;
its absence stands for -1. -/
def addTask (t : TaskQueue) (callback arg : ℕ) (priority : ℤ) :
    Option (Option (Fin 64) × TaskQueue) :=
  if callback = 0 then some (none, t)
  else
    match t.pool.alloc with
    | none => some (none, t)
    | some (n, p) => ((p.write n ⟨priority, callback, arg⟩).enqueue Higher n).map fun p =>
        (some n, { t with pool := p })

/-- What a round of the loop of `run_pending_task` takes from the queue: the node, its task, and the
priority to go back to. -/
structure Taken where
  node : Fin 64
  event : TaskEvent
  prevPriority : ℤ
deriving DecidableEq

/-- A round of the loop of `run_pending_task` up to the callback, or `none` when it returns. -/
def pendingRound (t : TaskQueue) : Option (Taken × TaskQueue) :=
  match t.pool.popHead with
  | none => none
  | some (n, p) =>
    if t.currentPriority > (t.pool.node n).priority then none
    else some (⟨n, t.pool.node n, t.currentPriority⟩, ⟨p, (t.pool.node n).priority⟩)

/-- The end of a round, after the callback. -/
def restorePriority (t : TaskQueue) (prev : ℤ) : TaskQueue := { t with currentPriority := prev }

/-! ### What the critical sections do -/

/-- The key by which the queue is sorted. -/
def rank (a : TaskEvent) : ℤᵒᵈ := .toDual a.priority

theorem higher_iff (a b : TaskEvent) : Higher a b ↔ rank a < rank b := Iff.rfl

variable {t : TaskQueue} {fl ql : List (Fin 64)}

theorem taskInit_holds (t : TaskQueue) : Holds (taskInit t).pool [] (List.finRange 64) [] :=
  init_holds t.pool

theorem addTask_refused {callback arg : ℕ} {priority : ℤ} {q : TaskQueue}
    (h : addTask t callback arg priority = some (none, q)) : q = t := by
  unfold addTask at h
  split_ifs at h
  · exact (Prod.mk.inj (Option.some.inj h)).2.symm
  · split at h
    · exact (Prod.mk.inj (Option.some.inj h)).2.symm
    · obtain ⟨_, -, h⟩ := Option.map_eq_some_iff.1 h
      simp at h

/-- A task is refused, and nothing changes, or it gets a free node and its place in the queue. -/
theorem addTask_spec (hp : Holds t.pool [] fl ql) (callback arg : ℕ) (priority : ℤ) :
    (addTask t callback arg priority = some (none, t) ∧ (callback = 0 ∨ fl = [])) ∨
    ∃ n fl' t', addTask t callback arg priority = some (some n, t') ∧ callback ≠ 0 ∧
      fl = n :: fl' ∧ n ∉ ql ∧ t'.currentPriority = t.currentPriority ∧
      t'.pool.node = Function.update t.pool.node n ⟨priority, callback, arg⟩ ∧
      Holds t'.pool [] fl'
        (ql.orderedInsert (fun x y => Higher (t'.pool.node x) (t'.pool.node y)) n) := by
  unfold addTask
  by_cases hc : callback = 0
  · exact .inl ⟨if_pos hc, .inl hc⟩
  · rw [if_neg hc]
    rcases insert_spec Higher hp ⟨priority, callback, arg⟩ with
      ⟨ha, hfl⟩ | ⟨n, fl', p', p'', hfl, hnq, ha, -, he, hnode, hp''⟩
    · exact .inl ⟨by rw [ha], .inr hfl⟩
    · exact .inr ⟨n, fl', { t with pool := p'' }, by simp only [ha, he, Option.map_some], hc, hfl,
        hnq, rfl, hnode, hp''⟩

/-- The loop returns when the queue is empty or its first task has a lower priority than the one
running; otherwise it takes the first task. -/
theorem pendingRound_spec (hp : Holds t.pool [] fl ql) :
    (pendingRound t = none ∧ ∀ n ∈ ql.head?, (t.pool.node n).priority < t.currentPriority) ∨
    ∃ n ql' t', ql = n :: ql' ∧ t.currentPriority ≤ (t.pool.node n).priority ∧
      pendingRound t = some (⟨n, t.pool.node n, t.currentPriority⟩, t') ∧
      t'.currentPriority = (t.pool.node n).priority ∧ t'.pool.node = t.pool.node ∧
      Holds t'.pool [] (n :: fl) ql' := by
  unfold pendingRound
  rcases popHead_spec hp with ⟨hpop, hql⟩ | ⟨n, ql', p', hql, hpop, hp', hn⟩
  · exact .inl ⟨by rw [hpop], by simp [hql]⟩
  · rw [hpop]
    by_cases hlt : t.currentPriority > (t.pool.node n).priority
    · refine .inl ⟨if_pos hlt, fun m hm => ?_⟩
      rw [hql, List.head?_cons, Option.mem_some_iff] at hm
      exact hm ▸ hlt
    · exact .inr ⟨n, ql', _, hql, not_lt.1 hlt, if_neg hlt, rfl, hn, hp'⟩

end OscKernel.Deferred.Task
