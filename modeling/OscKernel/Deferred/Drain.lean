import OscKernel.Deferred.Nesting

/-! # What the outermost activation leaves in the task queue

`run_pending_task` returns when the first task waiting has a lower priority than the current one, and
`INT_MIN + 1` is current while no task runs. `add_task` accepts every `int`, `INT_MIN` too.

* `noneBelow_of_run`: no task below `INT_MIN + 1` is ever started.
* `left_of_run`: the tasks that an activation leaves behind which was entered while no task ran.
* `drained_iff`: it leaves none exactly as long as no task below `INT_MIN + 1` has been accepted. -/

namespace OscKernel.Deferred.Drain

open OscKernel.Lib.NodePool OscKernel.Lib.Transition
open OscKernel.Deferred.Task OscKernel.Deferred.Machine OscKernel.Deferred.Nesting

variable {C : State × Log → Event → Prop} {s s' : State} {now : ℕ} {es : List Event}
  {p q : State × Log} {e : Event} {fl ql : List (Fin 64)}

theorem idle_le : ∀ {cur : ℤ} {fs : List Frame} {vs : List ℤ} {as : List (TaskEvent × ℕ)},
    Levels cur fs vs as → idlePriority ≤ cur
  | _, [], [], [], h => le_of_eq h.symm
  | _, .pending :: _, _ :: _, _, h => h.1 ▸ idle_le h.2
  | _, .running _ _ :: _, _ :: _, _ :: _, ⟨hc, _, _, hv, h⟩ => hc ▸ (idle_le h).trans hv

/-- No task below the priority of no task has been started. -/
def NoneBelow (p : State × Log) : Prop :=
  ∀ x ∈ p.2.tasks.ledger.taken, idlePriority ≤ x.1.priority

theorem NoneBelow.step (hn : NoneBelow p) (hi : TaskInv p fl ql) (h : TaskMove p e q) :
    NoneBelow q := by
  unfold NoneBelow
  cases h with
  | same _ _ hg => rwa [hg]
  | add n a _ _ hg => rwa [hg]
  | enter _ _ hg => rwa [hg]
  | finish _ _ _ _ _ _ hg => rwa [hg]
  | leave _ _ _ _ _ hg => rwa [hg]
  | start k fs _ _ _ ht _ hg =>
    rcases pendingRound_spec hi.holds with ⟨hr, -⟩ | ⟨n, ql', t', rfl, hle, hr, -⟩
    · simp [hr] at ht
    rw [hr] at ht
    cases ht
    rw [hg]
    intro x hx
    rcases List.mem_append.1 hx with hx | hx
    · exact hn x hx
    · obtain rfl := List.mem_singleton.1 hx
      exact (idle_le hi.levels).trans hle

theorem noneBelow_of_run (h : Run logged C (init s now, .empty) es p) :
    (∃ fl ql, TaskInv p fl ql) ∧ NoneBelow p := by
  refine h.invariant (I := fun p => (∃ fl ql, TaskInv p fl ql) ∧ NoneBelow p) ?_
    ⟨⟨_, _, taskInv_init s now⟩, by simp [NoneBelow, Log.empty, Ledger.empty]⟩
  rintro p e q ⟨⟨fl, ql, hi⟩, hn⟩ - he
  exact ⟨hi.step (logged_taskMove he), hn.step hi (logged_taskMove he)⟩

theorem below_of_ended (hi : TaskInv p fl ql) (hc : p.1.tasks.currentPriority = idlePriority)
    (hr : pendingRound p.1.tasks = none) :
    ∀ x ∈ p.2.tasks.ledger.waiting p.1.tasks.pool.node ql, x.1.priority < idlePriority := by
  rcases pendingRound_spec hi.holds with ⟨-, hhead⟩ | ⟨n, ql', t', -, -, hr', -⟩
  swap
  · rw [hr] at hr'
    cases hr'
  cases ql with
  | nil => simp [Ledger.waiting]
  | cons n ql =>
    have hn := hhead n rfl
    rw [hc] at hn
    obtain ⟨hfirst, -⟩ := List.pairwise_cons.1 hi.ledger.sorted
    refine List.forall_mem_cons.2 ⟨hn, fun x hx => lt_of_le_of_lt ?_ hn⟩
    rcases hfirst x hx with hb | ⟨hb, -⟩
    · exact (OrderDual.toDual_lt_toDual.1 hb).le
    · exact (OrderDual.toDual_inj.1 hb).ge

/-- **What is left behind**: when an activation returns that was entered while no task ran, exactly the
tasks below `INT_MIN + 1` that have been accepted are in the queue. -/
theorem left_of_run (h : Run logged C (init s now, .empty) es p)
    (he : p.2.tasks.entries.head? = some idlePriority)
    (hs : step p.1 .round = some (s', .returned)) : ∃ fl ql, Holds s'.tasks.pool [] fl ql ∧
      ∀ x, x ∈ p.2.tasks.ledger.waiting p.1.tasks.pool.node ql ↔
        x ∈ p.2.tasks.ledger.accepted.zipIdx ∧ x.1.priority < idlePriority := by
  obtain ⟨⟨fl, ql, hi⟩, hn⟩ := noneBelow_of_run h
  obtain ⟨⟨fs, hfs⟩, hr, ht⟩ := round_returned hs
  have hc : p.1.tasks.currentPriority = idlePriority := by
    have hv := hi.levels
    rw [taskFrames_pending hfs] at hv
    obtain ⟨vs, hvs, -⟩ := hv.pending
    rw [hvs] at he
    exact Option.some.inj he
  have hbelow := below_of_ended hi hc hr
  refine ⟨fl, ql, ht ▸ hi.holds, fun x => ⟨fun hx => ⟨?_, hbelow x hx⟩, fun ⟨hx, hlt⟩ => ?_⟩⟩
  · exact hi.ledger.once.mem_iff.1 (List.mem_append_right _ hx)
  · exact (List.mem_append.1 (hi.ledger.once.mem_iff.2 hx)).resolve_left fun hx =>
      absurd (hn x hx) (not_le.2 hlt)

/-- **When the queue is drained**: an activation of `run_pending_task` that was entered while no task ran
returns with an empty queue exactly if no task below `INT_MIN + 1` has been accepted. -/
theorem drained_iff (h : Run logged C (init s now, .empty) es p)
    (he : p.2.tasks.entries.head? = some idlePriority)
    (hs : step p.1 .round = some (s', .returned)) :
    s'.tasks.pool.head = none ↔ ∀ a ∈ p.2.tasks.ledger.accepted, idlePriority ≤ a.priority := by
  obtain ⟨fl, ql, hp, hleft⟩ := left_of_run h he hs
  rw [hp.queue.head, List.head?_eq_none_iff]
  constructor
  · rintro rfl a ha
    obtain ⟨i, hi, rfl⟩ := List.mem_iff_getElem.1 ha
    by_contra hlt
    have hmem := (hleft (p.2.tasks.ledger.accepted[i], i)).2
      ⟨List.mem_zipIdx_iff_getElem?.2 (List.getElem?_eq_getElem hi), not_le.1 hlt⟩
    exact absurd hmem List.not_mem_nil
  · intro hall
    by_contra hne
    obtain ⟨n, ql', rfl⟩ := List.exists_cons_of_ne_nil hne
    obtain ⟨hx, hlt⟩ := (hleft _).1 (List.mem_cons_self ..)
    exact absurd (hall _ (List.fst_mem_of_mem_zipIdx hx)) (not_le.2 hlt)

/-! ### One task -/

/-- What the next round shows, the priorities found on entry, the tasks accepted and `task_head`
afterwards. -/
structure Ending where
  output : Output
  entries : List ℤ
  accepted : List TaskEvent
  head : Option (Fin 64)
deriving DecidableEq

def ending (p : State × Log) : Option Ending :=
  (step p.1 .round).map fun r =>
    ⟨r.2, p.2.tasks.entries, p.2.tasks.ledger.accepted, r.1.tasks.pool.head⟩

theorem exists_ending {es : List Event} {v : Ending}
    (h : (exec logged (fun _ _ => true) (init zeroed 0, .empty) es).map ending = some (some v)) :
    ∃ (p : State × Log) (s' : State), Run logged (fun _ _ => True) (init zeroed 0, .empty) es p ∧
      step p.1 .round = some (s', v.output) ∧ p.2.tasks.entries = v.entries ∧
      p.2.tasks.ledger.accepted = v.accepted ∧ s'.tasks.pool.head = v.head := by
  obtain ⟨p, hp, hv⟩ := Run.exists_of_exec (C := fun _ _ => True) (fun _ _ _ => trivial) h
  obtain ⟨⟨s', o⟩, hs, rfl⟩ := Option.map_eq_some_iff.1 hv
  exact ⟨p, s', hp, hs, rfl, rfl, rfl⟩

/-- A task is added and run, and its callback adds another one. -/
def twoTasks : List Event :=
  [.addTask 100 1 5, .runPending, .round, .addTask 200 2 (-2147483647), .done, .round, .done]

theorem drained_twoTasks : ∃ (p : State × Log) (s' : State),
    p.2.tasks.ledger.accepted = [⟨5, 100, 1⟩, ⟨-2147483647, 200, 2⟩] ∧
      step p.1 .round = some (s', .returned) ∧ s'.tasks.pool.head = none := by
  have hex : (exec logged (fun _ _ => true) (init zeroed 0, .empty) twoTasks).map ending =
      some (some ⟨.returned, [idlePriority], [⟨5, 100, 1⟩, ⟨-2147483647, 200, 2⟩], none⟩) := by
    decide +kernel
  obtain ⟨p, s', hp, hs, he, ha, -⟩ := exists_ending hex
  refine ⟨p, s', ha, hs, (drained_iff hp (by rw [he]; rfl) hs).2 ?_⟩
  rw [ha]
  decide

/-- **A task of the priority `INT_MIN`** is left behind. -/
theorem not_drained_intMin : ∃ (p : State × Log) (s' : State),
    Run logged (fun _ _ => True) (init zeroed 0, .empty)
      [.addTask 100 1 (-2147483648), .runPending] p ∧
    p.2.tasks.entries.head? = some idlePriority ∧ step p.1 .round = some (s', .returned) ∧
      s'.tasks.pool.head ≠ none := by
  have hex : (exec logged (fun _ _ => true) (init zeroed 0, .empty)
      [.addTask 100 1 (-2147483648), .runPending]).map ending =
      some (some ⟨.returned, [idlePriority], [⟨-2147483648, 100, 1⟩], some 0⟩) := by
    decide +kernel
  obtain ⟨p, s', hp, hs, he, -, hq⟩ := exists_ending hex
  exact ⟨p, s', hp, by rw [he]; rfl, hs, by rw [hq]; simp⟩

end OscKernel.Deferred.Drain
