import OscKernel.Deferred.Machine

/-! # Nested activations of the task queue

`run_pending_task` is entered again while a callback of a task runs, to any depth, and tasks are added
at every point.

* `orderly_of_run`: every task is started at most once, the first in the queue first, and every
  activation leaves `task_current_priority` as it found it.
* `inOrder_of_run`: as long as no activation inside a callback finds a task of the priority that is
  running, tasks of one priority do not overlap, and they start and finish in the order in which they
  were added.
* `not_inOrder`: with two timers, the callback of one runs inside that of the other. -/

namespace OscKernel.Deferred.Nesting

open OscKernel.Lib.NodePool OscKernel.Lib.Transition
open OscKernel.Deferred.Task OscKernel.Deferred.Timer OscKernel.Deferred.Machine

/-! ### The levels of the stack -/

/-- The priority that is current, over the frames, the priorities found on entry and the tasks that
run: every activation goes back to what it found, and runs a task of at least that priority. -/
def Levels : ℤ → List Frame → List ℤ → List (TaskEvent × ℕ) → Prop
  | cur, [], [], [] => cur = idlePriority
  | cur, .pending :: fs, v :: vs, as => cur = v ∧ Levels v fs vs as
  | cur, .running prev e :: fs, v :: vs, a :: as =>
    cur = e.priority ∧ prev = v ∧ a.1 = e ∧ v ≤ e.priority ∧ Levels v fs vs as
  | _, _, _, _ => False

section Levels
variable {cur : ℤ} {fs : List Frame} {vs : List ℤ} {as : List (TaskEvent × ℕ)}

/-- No task that runs has a priority above the current one. -/
theorem Levels.le : ∀ {cur : ℤ} {fs : List Frame} {vs : List ℤ} {as : List (TaskEvent × ℕ)},
    Levels cur fs vs as → ∀ a ∈ as, a.1.priority ≤ cur
  | _, [], [], [], _, a, ha => by simp at ha
  | _, .pending :: _, _ :: _, _, h, a, ha => h.1 ▸ h.2.le a ha
  | _, .running _ _ :: _, _ :: _, _ :: _, ⟨hc, _, hb, hv, h⟩, a, ha => by
    rcases List.mem_cons.1 ha with rfl | ha
    · rw [hc, hb]
    · exact (h.le a ha).trans (hv.trans hc.ge)

theorem Levels.exists_running : ∀ {cur : ℤ} {fs : List Frame} {vs : List ℤ}
    {as : List (TaskEvent × ℕ)}, Levels cur fs vs as → as ≠ [] → ∃ prev e, Frame.running prev e ∈ fs
  | _, [], [], [], _, h => absurd rfl h
  | _, .pending :: _, _ :: _, _, h, hne => by
    obtain ⟨prev, e, hm⟩ := h.2.exists_running hne
    exact ⟨prev, e, List.mem_cons_of_mem _ hm⟩
  | _, .running prev e :: _, _ :: _, _ :: _, _, _ => ⟨prev, e, by simp⟩

theorem Levels.pending (h : Levels cur (.pending :: fs) vs as) :
    ∃ vs', vs = cur :: vs' ∧ Levels cur fs vs' as := by
  cases vs with
  | nil => cases as <;> exact h.elim
  | cons v vs' =>
    obtain ⟨rfl, h⟩ := h
    exact ⟨vs', rfl, h⟩

theorem Levels.running {prev : ℤ} {e : TaskEvent} (h : Levels cur (.running prev e :: fs) vs as) :
    ∃ vs' a as', vs = prev :: vs' ∧ as = a :: as' ∧ a.1 = e ∧ Levels prev fs vs' as' := by
  cases vs with
  | nil => cases as <;> exact h.elim
  | cons v vs' =>
    cases as with
    | nil => exact h.elim
    | cons a as' =>
      obtain ⟨-, rfl, ha, -, h⟩ := h
      exact ⟨vs', a, as', rfl, rfl, ha, h⟩

end Levels

/-! ### The invariant -/

/-- Of two tasks of one priority, the first was added before the second. -/
def Fifo (x y : TaskEvent × ℕ) : Prop := x.1.priority = y.1.priority → x.2 < y.2

theorem fifo_of_before {x y : TaskEvent × ℕ} (h : Before rank x y) : Fifo x y := by
  rintro he
  rcases h with h | ⟨-, h⟩
  · exact absurd (congrArg OrderDual.toDual he) h.ne
  · exact h

structure TaskInv (p : State × Log) (fl ql : List (Fin 64)) : Prop where
  holds : Holds p.1.tasks.pool [] fl ql
  ledger : p.2.tasks.ledger.Ok rank Fifo p.1.tasks.pool.node ql
  levels : Levels p.1.tasks.currentPriority p.1.taskFrames p.2.tasks.entries p.2.tasks.active

theorem taskInv_init (s : State) (now : ℕ) :
    TaskInv (init s now, .empty) (List.finRange 64) [] :=
  ⟨taskInit_holds s.tasks, Ledger.empty_ok, rfl⟩

theorem TaskInv.step {p q : State × Log} {e : Event} {fl ql : List (Fin 64)} (hi : TaskInv p fl ql)
    (h : TaskMove p e q) : ∃ fl' ql', TaskInv q fl' ql' := by
  obtain ⟨hp, hl, hv⟩ := hi
  cases h with
  | same ht hf hg =>
    refine ⟨fl, ql, ?_, ?_, ?_⟩
    · rw [ht]; exact hp
    · rw [ht, hg]; exact hl
    · rw [ht, hf, hg]; exact hv
  | add n e ht hf hg =>
    rcases addTask_spec hp e.callback e.arg e.priority with
      ⟨hr, -⟩ | ⟨m, fl', t', hr, -, -, hnq, hcur, hnode, hp'⟩
    · simp [hr] at ht
    rw [hr] at ht
    cases ht
    refine ⟨fl', _, hp', ?_, ?_⟩
    · rw [hg]
      refine Ledger.Ok.accept Higher hl hnq (fun j hj => ?_) ?_ higher_iff
        (fun _ _ => fifo_of_before) fun x hx _ => hl.number_lt (List.mem_append_left _ hx)
      · rw [hnode, Function.update_of_ne (ne_of_mem_of_not_mem hj hnq)]
      · rw [hnode, Function.update_self]
    · rw [hcur, hf, hg]; exact hv
  | enter ht hf hg =>
    refine ⟨fl, ql, ?_, ?_, ?_⟩
    · rw [ht]; exact hp
    · rw [ht, hg]; exact hl
    · rw [ht, hf, hg]; exact ⟨rfl, hv⟩
  | start k fs _ hpf _ ht hf hg =>
    rcases pendingRound_spec hp with ⟨hr, -⟩ | ⟨n, ql', t', rfl, hle, hr, hcur, hnode, hp'⟩
    · simp [hr] at ht
    rw [hr] at ht
    cases ht
    rw [hpf] at hv
    obtain ⟨vs', hvs, hv'⟩ := hv.pending
    refine ⟨n :: fl, ql', hp', ?_, ?_⟩
    · rw [hg, hnode]; exact hl.take
    · rw [hcur, hf, hg]
      show Levels _ _ p.2.tasks.entries _
      rw [hvs]
      exact ⟨rfl, rfl, rfl, hle, hv'⟩
  | finish prev e fs hpf ht hf hg =>
    rw [hpf] at hv
    obtain ⟨vs', a, as', hvs, has, -, hv'⟩ := hv.running
    refine ⟨fl, ql, ?_, ?_, ?_⟩
    · rw [ht]; exact hp
    · rw [ht, hg]; exact hl
    · rw [ht, hf, hg]
      show Levels prev _ p.2.tasks.entries p.2.tasks.active.tail
      rw [hvs, has]
      exact ⟨rfl, hv'⟩
  | leave fs hpf hr ht hf hg =>
    rw [hpf] at hv
    obtain ⟨vs', hvs, hv'⟩ := hv.pending
    refine ⟨fl, ql, ?_, ?_, ?_⟩
    · rw [ht]; exact hp
    · rw [ht, hg]; exact hl
    · rw [ht, hf, hg]
      show Levels _ _ p.2.tasks.entries.tail _
      rw [hvs]
      exact hv'

theorem taskInv_of_run {C : State × Log → Event → Prop} {s : State} {now : ℕ} {es : List Event}
    {p : State × Log} (h : Run logged C (init s now, .empty) es p) : ∃ fl ql, TaskInv p fl ql :=
  h.invariant (I := fun p => ∃ fl ql, TaskInv p fl ql)
    (fun _ _ _ ⟨_, _, hi⟩ _ he => hi.step (logged_taskMove he)) ⟨_, _, taskInv_init s now⟩

/-! ### Exactly once, the highest priority first -/

/-- The free list `fl` and the queue `ql` share out the nodes; the queue is sorted, with equal
priorities in the order in which they were added; every task accepted is waiting or has been started,
once; a task that is started has the highest priority of those waiting, and no lower one than those
that run; and an activation that returns leaves the priority that it found. -/
structure Orderly (p : State × Log) (fl ql : List (Fin 64)) : Prop where
  pool : Holds p.1.tasks.pool [] fl ql
  sorted : (p.2.tasks.ledger.waiting p.1.tasks.pool.node ql).Pairwise (Before rank)
  once : (p.2.tasks.ledger.taken ++ p.2.tasks.ledger.waiting p.1.tasks.pool.node ql).Perm
    p.2.tasks.ledger.accepted.zipIdx
  highest : ∀ s' n e, step p.1 .round = some (s', .started n e) →
    (∀ m ∈ ql, (p.1.tasks.pool.node m).priority ≤ e.priority) ∧
      ∀ x ∈ p.2.tasks.active, x.1.priority ≤ e.priority
  restored : ∀ s', step p.1 .round = some (s', .returned) →
    p.2.tasks.entries.head? = some s'.tasks.currentPriority

/-- A round that starts a task takes the first one of the queue. -/
theorem round_started {s s' : State} {n : Fin 64} {e : TaskEvent}
    (h : step s .round = some (s', .started n e)) :
    ∃ fs k, s.frames = .pending :: fs ∧ k.node = n ∧ k.event = e ∧
      pendingRound s.tasks = some (k, s'.tasks) := by
  rw [step, roundStep] at h
  split at h
  · split at h
    · cases h
    · cases h
    · split_ifs at h
      · cases h
      · obtain ⟨⟨r, u⟩, -, hr⟩ := Option.map_eq_some_iff.1 h
        cases r <;> cases hr
  · rename_i fs hfs
    split at h
    · cases h
    · rename_i k q hk
      cases h
      exact ⟨fs, k, hfs, rfl, rfl, hk⟩
  · cases h

theorem round_returned {s s' : State} (h : step s .round = some (s', .returned)) :
    (∃ fs, s.frames = .pending :: fs) ∧ pendingRound s.tasks = none ∧ s'.tasks = s.tasks := by
  rw [step, roundStep] at h
  split at h
  · split at h
    · cases h
    · cases h
    · split_ifs at h
      · cases h
      · obtain ⟨⟨r, u⟩, -, hr⟩ := Option.map_eq_some_iff.1 h
        cases r <;> cases hr
  · rename_i fs hfs
    split at h
    · rename_i hr
      cases h
      exact ⟨⟨fs, hfs⟩, hr, rfl⟩
    · cases h
  · cases h

theorem taskFrames_pending {s : State} {fs : List Frame} (h : s.frames = .pending :: fs) :
    s.taskFrames = .pending :: fs.filter Frame.ofTask := by
  rw [State.taskFrames, h]
  rfl

/-- **The task queue under nesting**: in every run every state is orderly. -/
theorem orderly_of_run {s : State} {now : ℕ} {es : List Event} {p : State × Log}
    (h : Run logged (fun _ _ => True) (init s now, .empty) es p) : ∃ fl ql, Orderly p fl ql := by
  obtain ⟨fl, ql, hi⟩ := taskInv_of_run h
  refine ⟨fl, ql, hi.holds, hi.ledger.sorted, hi.ledger.once, fun s' n e hs => ?_, fun s' hs => ?_⟩
  · obtain ⟨fs, k, -, -, rfl, hk⟩ := round_started hs
    rcases pendingRound_spec hi.holds with ⟨hr, -⟩ | ⟨n, ql', t', rfl, hle, hr, -⟩
    · simp [hr] at hk
    rw [hr] at hk
    cases hk
    refine ⟨fun m hm => ?_, fun x hx => (hi.levels.le x hx).trans hle⟩
    rcases List.mem_cons.1 hm with rfl | hm
    · exact le_rfl
    · have hb := List.pairwise_cons.1 hi.ledger.sorted |>.1 _ (List.mem_map_of_mem hm)
      rcases hb with hb | ⟨hb, -⟩
      · exact (OrderDual.toDual_lt_toDual.1 hb).le
      · exact (OrderDual.toDual_inj.1 hb).ge
  · obtain ⟨⟨fs, hfs⟩, -, ht⟩ := round_returned hs
    have hv := hi.levels
    rw [taskFrames_pending hfs] at hv
    obtain ⟨vs', hvs, -⟩ := hv.pending
    rw [hvs, ht]
    rfl

/-! ### Tasks of one priority -/

/-- The tasks of a list that have the priority `c`. -/
def ofPriority (c : ℤ) (l : List (TaskEvent × ℕ)) : List (TaskEvent × ℕ) :=
  l.filter fun x => x.1.priority = c

/-- A task runs inside another only if its priority is higher; of each priority at most one task
runs at a time, and the tasks start and finish in the order in which they were added. -/
structure InOrder (g : TaskLog) : Prop where
  nested : g.active.Pairwise fun x y => y.1.priority < x.1.priority
  alone : ∀ c, (ofPriority c g.active).length ≤ 1
  finished : ∀ c, ofPriority c g.ledger.taken = ofPriority c g.finished ++ ofPriority c g.active
  fifo : ∀ c, (ofPriority c g.ledger.taken).Pairwise fun x y => x.2 < y.2

/-- No activation of `run_pending_task` inside the callback of a task finds at the head of the queue a
task of exactly the priority that is running. -/
def NoTie (p : State × Log) (e : Event) : Prop :=
  e = .round → p.1.frames.head? = some .pending → (∃ prev ev, Frame.running prev ev ∈ p.1.frames) →
    ∀ n ∈ p.1.tasks.pool.head, (p.1.tasks.pool.node n).priority ≠ p.1.tasks.currentPriority

section OfPriority
variable {c : ℤ} {x : TaskEvent × ℕ} {l : List (TaskEvent × ℕ)}

theorem ofPriority_append (c : ℤ) (l l' : List (TaskEvent × ℕ)) :
    ofPriority c (l ++ l') = ofPriority c l ++ ofPriority c l' := List.filter_append ..

theorem ofPriority_cons_self (h : x.1.priority = c) : ofPriority c (x :: l) = x :: ofPriority c l :=
  List.filter_cons_of_pos (by simpa using h)

theorem ofPriority_cons_ne (h : x.1.priority ≠ c) : ofPriority c (x :: l) = ofPriority c l :=
  List.filter_cons_of_neg (by simpa using h)

theorem ofPriority_eq_nil (h : ∀ y ∈ l, y.1.priority ≠ c) : ofPriority c l = [] :=
  List.filter_eq_nil_iff.2 fun y hy => by simpa using h y hy

/-- Where the priorities fall from each task to the next, each of them occurs once. -/
theorem ofPriority_length_le (h : l.Pairwise fun x y => y.1.priority < x.1.priority) :
    (ofPriority c l).length ≤ 1 := by
  induction l with
  | nil => simp [ofPriority]
  | cons x l ih =>
    obtain ⟨hx, hl⟩ := List.pairwise_cons.1 h
    by_cases hc : x.1.priority = c
    · rw [ofPriority_cons_self hc, ofPriority_eq_nil fun y hy => (hc ▸ hx y hy).ne]
      simp
    · rw [ofPriority_cons_ne hc]
      exact ih hl

end OfPriority

/-- What the moves preserve where there are no ties. -/
structure NestInv (g : TaskLog) : Prop where
  nested : g.active.Pairwise fun x y => y.1.priority < x.1.priority
  finished : ∀ c, ofPriority c g.ledger.taken = ofPriority c g.finished ++ ofPriority c g.active

/-- A task of a higher priority than all that run is started. -/
theorem NestInv.start {g : TaskLog} (hg : NestInv g) {n : Fin 64} {e : TaskEvent}
    (hlt : ∀ x ∈ g.active, x.1.priority < e.priority) : NestInv (g.start n e) := by
  refine ⟨List.pairwise_cons.2 ⟨hlt, hg.nested⟩, fun c => ?_⟩
  show ofPriority c (g.ledger.taken ++ [(e, g.ledger.owner n)]) =
    ofPriority c g.finished ++ ofPriority c ((e, g.ledger.owner n) :: g.active)
  rw [ofPriority_append, hg.finished]
  by_cases hc : e.priority = c
  · have hnil : ofPriority c g.active = [] := ofPriority_eq_nil fun y hy => (hc ▸ hlt y hy).ne
    rw [ofPriority_cons_self hc, ofPriority_cons_self hc, hnil, List.append_nil]
    rfl
  · rw [ofPriority_cons_ne hc, ofPriority_cons_ne hc]
    simp [ofPriority]

theorem NestInv.finish {g : TaskLog} (hg : NestInv g) : NestInv g.finish := by
  unfold TaskLog.finish
  cases has : g.active with
  | nil =>
    refine ⟨.nil, fun c => ?_⟩
    have hf := hg.finished c
    rw [has] at hf
    simpa using hf
  | cons a as =>
    have hn := hg.nested
    rw [has] at hn
    obtain ⟨ha, has'⟩ := List.pairwise_cons.1 hn
    refine ⟨has', fun c => ?_⟩
    show ofPriority c g.ledger.taken = ofPriority c (g.finished ++ [a]) ++ ofPriority c as
    rw [hg.finished, has, ofPriority_append, List.append_assoc]
    congr 1
    by_cases hc : a.1.priority = c
    · rw [ofPriority_cons_self hc, ofPriority_cons_self hc]
      rfl
    · rw [ofPriority_cons_ne hc, ofPriority_cons_ne hc]
      rfl

theorem NestInv.step {p q : State × Log} {e : Event} {fl ql : List (Fin 64)} (hi : TaskInv p fl ql)
    (hg : NestInv p.2.tasks) (hn : NoTie p e) (h : TaskMove p e q) : NestInv q.2.tasks := by
  cases h with
  | same _ _ hq => rw [hq]; exact hg
  | add n e _ _ hq => rw [hq]; exact ⟨hg.nested, hg.finished⟩
  | enter _ _ hq => rw [hq]; exact ⟨hg.nested, hg.finished⟩
  | finish prev e fs _ _ _ hq => rw [hq]; exact hg.finish
  | leave fs _ _ _ _ hq => rw [hq]; exact ⟨hg.nested, hg.finished⟩
  | start k fs he hpf hpt ht _ hq =>
    rw [hq]
    rcases pendingRound_spec hi.holds with ⟨hr, -⟩ | ⟨n, ql', t', rfl, hle, hr, -⟩
    · simp [hr] at ht
    rw [hr] at ht
    cases ht
    refine hg.start fun x hx => lt_of_le_of_lt (hi.levels.le x hx) (hle.lt_of_ne fun htie => ?_)
    obtain ⟨prev, ev, hm⟩ := hi.levels.exists_running (List.ne_nil_of_mem hx)
    exact hn he hpt ⟨prev, ev, List.mem_of_mem_filter hm⟩ n (by rw [hi.holds.queue.1]; rfl)
      htie.symm

/-- **Tasks of one priority**: in a run without ties every state is in order. -/
theorem inOrder_of_run {s : State} {now : ℕ} {es : List Event} {p : State × Log}
    (h : Run logged NoTie (init s now, .empty) es p) : InOrder p.2.tasks := by
  have hI : (∃ fl ql, TaskInv p fl ql) ∧ NestInv p.2.tasks := by
    refine h.invariant (I := fun p => (∃ fl ql, TaskInv p fl ql) ∧ NestInv p.2.tasks) ?_
      ⟨⟨_, _, taskInv_init s now⟩, .nil, fun _ => rfl⟩
    rintro p e q ⟨⟨fl, ql, hi⟩, hg⟩ hc he
    exact ⟨hi.step (logged_taskMove he), hg.step hi hc (logged_taskMove he)⟩
  obtain ⟨⟨fl, ql, hi⟩, hg⟩ := hI
  refine ⟨hg.nested, fun c => ofPriority_length_le hg.nested, hg.finished, fun c => ?_⟩
  have ho := (List.pairwise_append.1 hi.ledger.order).1.filter fun x => x.1.priority = c
  refine (List.Pairwise.and_mem.1 ho).imp fun ⟨hx, hy, hxy⟩ => hxy ?_
  have hx := (List.mem_filter.1 hx).2
  have hy := (List.mem_filter.1 hy).2
  simp only [decide_eq_true_eq] at hx hy
  exact hx.trans hy.symm

/-! ### Two timers -/

/-- One timer for a second, half a second later another one; the second expires while the callback of
the first runs. -/
def twoTimers : List Event :=
  [.addTimer 100 1 1, .advance 12000000, .addTimer 200 2 1, .advance 12000000, .timerInterrupt, .round,
    .round, .runPending, .round, .advance 12000000, .timerInterrupt, .round, .round, .runPending,
    .round]

theorem twoTimers_active :
    (exec logged (fun _ _ => true) (init zeroed 0, .empty) twoTimers).map
      (fun p => p.2.tasks.active) = some [(⟨1, 200, 2⟩, 1), (⟨1, 100, 1⟩, 0)] := by
  decide +kernel

theorem orderly_twoTimers : ∃ (p : State × Log) (fl ql : List (Fin 64)),
    p.2.tasks.active = [(⟨1, 200, 2⟩, 1), (⟨1, 100, 1⟩, 0)] ∧ Orderly p fl ql := by
  obtain ⟨p, hp, ha⟩ := Run.exists_of_exec (C := fun _ _ => True) (fun _ _ _ => trivial)
    twoTimers_active
  obtain ⟨fl, ql, ho⟩ := orderly_of_run hp
  exact ⟨p, fl, ql, ha, ho⟩

/-- The callback of the second timer runs inside that of the first. -/
theorem not_inOrder : ¬∀ (s : State) (now : ℕ) (es : List Event) (p : State × Log),
    Run logged (fun _ _ => True) (init s now, .empty) es p → InOrder p.2.tasks := by
  intro h
  obtain ⟨p, hp, ha⟩ := Run.exists_of_exec (C := fun _ _ => True) (fun _ _ _ => trivial)
    twoTimers_active
  have hn := (h _ _ _ _ hp).nested
  rw [ha] at hn
  simp at hn

/-- A task is added and started, and inside its callback one of a higher priority. -/
def higherTask : List Event :=
  [.addTask 100 1 1, .runPending, .round, .addTask 200 2 2, .runPending, .round]

/-- The check that a step meets `NoTie`. -/
def noTie (p : State × Log) (e : Event) : Bool :=
  decide (e ≠ .round) || p.1.frames.head? != some .pending ||
    p.1.frames.all (fun f => match f with | .running _ _ => false | _ => true) ||
    p.1.tasks.pool.head.all fun n =>
      decide ((p.1.tasks.pool.node n).priority ≠ p.1.tasks.currentPriority)

theorem noTie_sound (p : State × Log) (e : Event) (h : noTie p e = true) : NoTie p e := by
  rintro he hpt ⟨prev, ev, hm⟩ n hn
  simp only [noTie, Bool.or_eq_true, decide_eq_true_eq, bne_iff_ne, List.all_eq_true,
    Option.all_eq_true] at h
  rcases h with ((h | h) | h) | h
  · exact absurd he h
  · exact absurd hpt h
  · exact absurd (h _ hm) (by simp)
  · exact h n hn

theorem inOrder_higherTask : ∃ p : State × Log,
    p.2.tasks.active = [(⟨2, 200, 2⟩, 1), (⟨1, 100, 1⟩, 0)] ∧ InOrder p.2.tasks := by
  have hex : (exec logged noTie (init zeroed 0, .empty) higherTask).map
      (fun p => p.2.tasks.active) = some [(⟨2, 200, 2⟩, 1), (⟨1, 100, 1⟩, 0)] := by
    decide +kernel
  obtain ⟨p, hp, ha⟩ := Run.exists_of_exec noTie_sound hex
  exact ⟨p, ha, inOrder_of_run hp⟩

end OscKernel.Deferred.Nesting
