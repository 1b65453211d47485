import OscKernel.Deferred.Nesting

/-! # The deadlines of the timers

Timers are added, the clock advances and timer interrupts are handled in any order. The clock stays
below the wrap of the 64-bit counter by as much as the code adds to it (`NoWrap`).

* `onTime_of_run`: every timer is dispatched once, not early, and in the order of the deadlines.
* `armed_of_run`: the hardware timer is set no later than the next deadline, or to a time that has
  come.
* `step_exists`: the loops of the code end, so that no event leaves a run stuck.
* `not_early`: `timer_trigger_now` can move it past the next deadline. -/

namespace OscKernel.Deferred.Deadlines

open OscKernel.Lib.NodePool OscKernel.Lib.Transition
open OscKernel.Deferred.Task OscKernel.Deferred.Timer OscKernel.Deferred.Machine
open OscKernel.Deferred.Nesting

/-- What the code adds to the clock in a step. -/
def added (t : TimerQueue) : Event → ℕ
  | .addTimer _ _ sec => sec.toNat * timerFreq
  | .round => t.tickInterval
  | _ => 0

/-- The clock and what is added to it stay below the wrap. -/
def NoWrap (p : State × Log) (e : Event) : Prop := p.1.clock + added p.1.timers e < 2 ^ 64

instance (p : State × Log) (e : Event) : Decidable (NoWrap p e) :=
  Nat.decLt (p.1.clock + added p.1.timers e) (2 ^ 64)

/-- A dispatch of the timer: its own callback and argument, and not before it expires. -/
def Due (x : TimerEvent × ℕ) (d : Dispatch) : Prop :=
  d.callback = x.1.callback ∧ d.arg = x.1.arg ∧ x.1.expiresAt ≤ d.time

/-! ### The invariant -/

structure TimerInv (p : State × Log) (fl ql : List (Fin 32)) : Prop where
  holds : Holds p.1.timers.pool [] fl ql
  ledger : p.2.timers.ledger.Ok TimerEvent.expiresAt (Before TimerEvent.expiresAt)
    p.1.timers.pool.node ql
  callback : ∀ n ∈ ql, (p.1.timers.pool.node n).callback ≠ 0
  past : ∀ x ∈ p.2.timers.ledger.taken, x.1.expiresAt ≤ p.1.clock
  dispatched : List.Forall₂ Due p.2.timers.ledger.taken p.2.timers.dispatches
  interval : 0 < p.1.timers.tickInterval
  stie : p.1.timers.stie = true
  programmed : p.1.timers.programmed ≤ p.1.timers.deadline ∨ p.1.timers.programmed ≤ p.1.clock

theorem timerInv_init (s : State) (now : ℕ) :
    TimerInv (init s now, .empty) (List.finRange 32) [] where
  holds := timerInit_holds s.timers now
  ledger := Ledger.empty_ok
  callback := by simp
  past := by simp [Log.empty, Ledger.empty]
  dispatched := .nil
  interval := timerInit_interval s.timers now
  stie := rfl
  programmed := .inl (timerInit_programmed s.timers now).le

variable {p q : State × Log} {fl ql : List (Fin 32)}

/-- The deadline does not fall when the next tick moves on and the first event is taken. -/
theorem deadline_le_of_take {t : TimerQueue} {n : Fin 32} {tick : ℕ} {pool : Pool 32 TimerEvent}
    (hp : Holds t.pool [] fl (n :: ql)) (hp' : Holds pool [] (n :: fl) ql)
    (hn : pool.node = t.pool.node) (hle : t.nextTick ≤ tick)
    (hs : ∀ m ∈ ql, (t.pool.node n).expiresAt ≤ (t.pool.node m).expiresAt) :
    t.deadline ≤ TimerQueue.deadline { t with pool := pool, nextTick := tick } := by
  rw [deadline_eq hp, deadline_eq (t := { t with pool := pool, nextTick := tick }) hp']
  cases ql with
  | nil => exact (min_le_left _ _).trans hle
  | cons m ql =>
    simp only [List.head?_cons, Option.elim_some, hn]
    have := hs m (by simp)
    omega

theorem TimerInv.step {e : Event} (hi : TimerInv p fl ql) (hw : NoWrap p e)
    (h : TimerMove p e q) : ∃ fl' ql', TimerInv q fl' ql' := by
  obtain ⟨hp, hl, hcb, hpast, hd, hint, hstie, hprog⟩ := hi
  obtain ⟨⟨tasks, timers, clock, frames⟩, g⟩ := q
  cases h with
  | same ht hc hg =>
    refine ⟨fl, ql, ?_, ?_, ?_, ?_, ?_, ?_, ?_, ?_⟩
    · rw [ht]; exact hp
    · rw [ht, hg]; exact hl
    · rw [ht]; exact hcb
    · rw [hg]; exact fun x hx => (hpast x hx).trans hc
    · rw [hg]; exact hd
    · rw [ht]; exact hint
    · rw [ht]; exact hstie
    · rw [ht]; exact hprog.imp_right fun h => h.trans hc
  | add n callback arg sec he ht hc hg =>
    subst he
    rcases addTimer_spec hp callback arg sec hw with
      ⟨hr, -⟩ | ⟨m, fl', t', hr, hcne, -, -, hnq, hti, -, hnode, hp', hset⟩
    · simp [hr] at ht
    rw [hr] at ht
    cases ht
    have hold : ∀ j ∈ ql, timers.pool.node j = p.1.timers.pool.node j := fun j hj => by
      rw [hnode, Function.update_of_ne (ne_of_mem_of_not_mem hj hnq)]
    refine ⟨fl', _, hp', ?_, ?_, ?_, ?_, ?_, ?_, ?_⟩
    · rw [hg]
      refine Ledger.Ok.accept Earlier hl hnq hold ?_ earlier_iff (fun _ _ => id) fun x hx => ?_
      · rw [hnode, Function.update_self]
      · have hx' := hl.number_lt (List.mem_append_left _ hx)
        rcases ((hpast x hx).trans (Nat.le_add_right _ (sec.toNat * timerFreq))).lt_or_eq with h | h
        · exact .inl h
        · exact .inr ⟨h, hx'⟩
    · intro j hj
      rcases (List.mem_orderedInsert _).1 hj with rfl | hj
      · rw [hnode, Function.update_self]; exact hcne
      · rw [hold j hj]; exact hcb j hj
    · rw [hg, hc]; exact hpast
    · rw [hg]; exact hd
    · rw [hti]; exact hint
    · rcases hset with ⟨-, h⟩ | ⟨-, h, -⟩
      · exact h
      · rw [h]; exact hstie
    · rcases hset with ⟨h, -⟩ | ⟨h, -, hd'⟩
      · exact .inl h.le
      · rw [h, hd', hc]; exact hprog
  | trigger ht hc hg =>
    refine ⟨fl, ql, ?_, ?_, ?_, ?_, ?_, ?_, ?_, ?_⟩
    · rw [ht]; exact hp
    · rw [ht, hg]; exact hl
    · rw [ht]; exact hcb
    · rw [hg, hc]; exact hpast
    · rw [hg]; exact hd
    · rw [ht]; exact hint
    · rw [ht]; rfl
    · rw [ht, hc]; exact .inr le_rfl
  | handle he ht hc hg =>
    subst he
    obtain ⟨tick, -, -, -, ⟨hr, -⟩ | ⟨m, ql', pool, -, -, hr, -⟩⟩ := handlerRound_spec hp hint hw
    · rw [hr] at ht
      cases ht
      refine ⟨fl, ql, hp, ?_, hcb, ?_, ?_, hint, rfl, .inl (next_eq_deadline _).le⟩
      · rw [hg]; exact hl
      · rw [hg, hc]; exact hpast
      · rw [hg]; exact hd
    · simp [hr] at ht
  | dispatch n e he ht hc hg =>
    subst he
    obtain ⟨tick, -, htick, -, ⟨hr, -⟩ | ⟨m, ql', pool, rfl, hexp, hr, hnode, hp'⟩⟩ :=
      handlerRound_spec hp hint hw
    · simp [hr] at ht
    rw [hr] at ht
    cases ht
    have hfirst : ∀ j ∈ ql', (p.1.timers.pool.node n).expiresAt ≤ (p.1.timers.pool.node j).expiresAt :=
      fun j hj => by
        rcases List.pairwise_cons.1 hl.sorted |>.1 _ (List.mem_map_of_mem hj) with h | ⟨h, -⟩
        · exact le_of_lt h
        · exact le_of_eq h
    refine ⟨n :: fl, ql', hp', ?_, ?_, ?_, ?_, hint, hstie, ?_⟩
    · rw [hg, hnode]; exact hl.take
    · rw [hnode]; exact fun j hj => hcb j (by simp [hj])
    · rw [hg, hc]
      intro x hx
      rcases List.mem_append.1 hx with hx | hx
      · exact hpast x hx
      · rw [List.mem_singleton.1 hx]; exact hexp
    · rw [hg]
      exact List.rel_append hd (.cons ⟨rfl, rfl, hexp⟩ .nil)
    · rw [hc]
      exact hprog.imp_left fun h => h.trans (deadline_le_of_take hp hp' hnode htick hfirst)
  | drop n e he ht hz =>
    subst he
    obtain ⟨tick, -, -, -, ⟨hr, -⟩ | ⟨m, ql', pool, rfl, -, hr, -⟩⟩ := handlerRound_spec hp hint hw
    · simp [hr] at ht
    · rw [hr] at ht
      cases ht
      exact absurd hz (hcb n (by simp))

theorem timerInv_of_run {s : State} {now : ℕ} {es : List Event} {p : State × Log}
    (h : Run logged NoWrap (init s now, .empty) es p) : ∃ fl ql, TimerInv p fl ql :=
  h.invariant (I := fun p => ∃ fl ql, TimerInv p fl ql)
    (fun _ _ _ ⟨_, _, hi⟩ hc he => hi.step hc (logged_timerMove he)) ⟨_, _, timerInv_init s now⟩

theorem round_handled {s s' : State} (h : step s .round = some (s', .handled)) :
    handlerRound s.timers s.clock = some (none, s'.timers) := by
  rw [step, roundStep] at h
  split at h
  · split at h
    · cases h
    · rename_i t hr
      cases h
      exact hr
    · split_ifs at h
      · cases h
      · obtain ⟨⟨r, u⟩, -, ho⟩ := Option.map_eq_some_iff.1 h
        cases r <;> cases ho
  · split at h <;> cases h
  · cases h

/-! ### The loops end -/

/-- The innermost frame is one that the event is about. -/
def Fits (fs : List Frame) : Event → Prop
  | .round => fs.head? = some .timer ∨ fs.head? = some .pending
  | .done => (∃ cb arg, fs.head? = some (.direct cb arg)) ∨ ∃ prev e, fs.head? = some (.running prev e)
  | _ => True

theorem step_exists {s : State} {now : ℕ} {es : List Event} {p : State × Log} {e : Event}
    (h : Run logged NoWrap (init s now, .empty) es p) (hw : NoWrap p e) (hf : Fits p.1.frames e) :
    ∃ q, logged p e = some q := by
  obtain ⟨fl, ql, hi⟩ := timerInv_of_run h
  obtain ⟨tfl, tql, ht⟩ := taskInv_of_run h
  have hadd : ∀ callback arg priority, ∃ r, addTask p.1.tasks callback arg priority = some r := by
    intro callback arg priority
    rcases addTask_spec ht.holds callback arg priority with ⟨hr, -⟩ | ⟨n, fl', t', hr, -⟩
    · exact ⟨_, hr⟩
    · exact ⟨_, hr⟩
  suffices hstep : ∃ r, step p.1 e = some r by
    obtain ⟨⟨t, o⟩, hr⟩ := hstep
    exact ⟨(t, p.2.update p.1 o t), by rw [logged, withHistory, hr]; rfl⟩
  cases e with
  | addTask callback arg priority =>
    obtain ⟨r, hr⟩ := hadd callback arg priority
    exact ⟨_, by rw [step, hr]; rfl⟩
  | addTimer callback arg sec =>
    rcases addTimer_spec hi.holds callback arg sec hw with ⟨hr, -⟩ | ⟨n, fl', t', hr, -⟩
    · exact ⟨_, by rw [step, hr]; rfl⟩
    · exact ⟨_, by rw [step, hr]; rfl⟩
  | triggerNow | advance | timerInterrupt | runPending => exact ⟨_, rfl⟩
  | done =>
    rcases hf with ⟨cb, arg, hf⟩ | ⟨prev, ev, hf⟩
    · obtain ⟨fs, hfs⟩ := List.head?_eq_some_iff.1 hf
      exact ⟨_, by rw [step, doneStep, hfs]⟩
    · obtain ⟨fs, hfs⟩ := List.head?_eq_some_iff.1 hf
      exact ⟨_, by rw [step, doneStep, hfs]⟩
  | round =>
    rw [step, roundStep]
    rcases hf with hf | hf
    · obtain ⟨fs, hfs⟩ := List.head?_eq_some_iff.1 hf
      rw [hfs]
      obtain ⟨tick, -, -, -, ⟨hr, -⟩ | ⟨n, ql', pool, -, -, hr, -⟩⟩ :=
        handlerRound_spec hi.holds hi.interval hw
      · simp only [hr]
        exact ⟨_, rfl⟩
      · simp only [hr]
        split_ifs
        · exact ⟨_, rfl⟩
        · obtain ⟨r, hr⟩ := hadd (p.1.timers.pool.node n).callback (p.1.timers.pool.node n).arg 1
          exact ⟨_, by rw [hr]; rfl⟩
    · obtain ⟨fs, hfs⟩ := List.head?_eq_some_iff.1 hf
      rw [hfs]
      cases hr : pendingRound p.1.tasks with
      | none => exact ⟨_, rfl⟩
      | some r => exact ⟨_, rfl⟩

/-! ### Exactly once, not early, in order -/

/-- The free list `fl` and the queue `ql` share out the nodes; the queue is sorted, with equal
deadlines in the order in which they were registered; every timer accepted is waiting or has been
dispatched, once; the dispatches are in the order of the deadlines, each with its own callback and
not early; and no timer that has expired is left when the handler returns. -/
structure OnTime (p : State × Log) (fl ql : List (Fin 32)) : Prop where
  pool : Holds p.1.timers.pool [] fl ql
  sorted : (p.2.timers.ledger.waiting p.1.timers.pool.node ql).Pairwise
    (Before TimerEvent.expiresAt)
  once : (p.2.timers.ledger.taken ++ p.2.timers.ledger.waiting p.1.timers.pool.node ql).Perm
    p.2.timers.ledger.accepted.zipIdx
  due : List.Forall₂ Due p.2.timers.ledger.taken p.2.timers.dispatches
  order : p.2.timers.ledger.taken.Pairwise (Before TimerEvent.expiresAt)
  handled : ∀ s', step p.1 .round = some (s', .handled) → NoWrap p .round →
    s'.timers.pool = p.1.timers.pool ∧ ∀ n ∈ ql, p.1.clock < (p.1.timers.pool.node n).expiresAt

/-- **The software timers**: in every run every state is on time. -/
theorem onTime_of_run {s : State} {now : ℕ} {es : List Event} {p : State × Log}
    (h : Run logged NoWrap (init s now, .empty) es p) : ∃ fl ql, OnTime p fl ql := by
  obtain ⟨fl, ql, hi⟩ := timerInv_of_run h
  refine ⟨fl, ql, hi.holds, hi.ledger.sorted, hi.ledger.once, hi.dispatched,
    (List.pairwise_append.1 hi.ledger.order).1, fun s' hs hw => ?_⟩
  have ht := round_handled hs
  obtain ⟨tick, -, -, -, ⟨hr, hlt⟩ | ⟨n, ql', pool, -, -, hr, -⟩⟩ :=
    handlerRound_spec hi.holds hi.interval hw
  · rw [hr, Option.some.injEq, Prod.mk.injEq] at ht
    refine ⟨by rw [← ht.2]; rfl, fun n hn => ?_⟩
    cases ql with
    | nil => simp at hn
    | cons m ql =>
      have hm := hlt m rfl
      rcases List.mem_cons.1 hn with rfl | hn
      · exact hm
      · rcases List.pairwise_cons.1 hi.ledger.sorted |>.1 _ (List.mem_map_of_mem hn) with h | ⟨h, -⟩
        · exact lt_trans hm h
        · exact lt_of_lt_of_eq hm h
  · simp [hr] at ht

/-- A timer for three seconds, two for a second and one for ten; after four seconds the first three
are handled. -/
def fourTimers : List Event :=
  [.addTimer 100 1 3, .addTimer 200 2 1, .addTimer 300 3 10, .addTimer 400 4 1, .advance 96000000,
    .timerInterrupt, .round, .round, .round]

theorem fourTimers_dispatches :
    (exec logged (fun p e => decide (NoWrap p e)) (init zeroed 0, .empty) fourTimers).map
      (fun p => p.2.timers.dispatches) =
        some [⟨200, 2, 96000000⟩, ⟨400, 4, 96000000⟩, ⟨100, 1, 96000000⟩] := by
  decide +kernel

theorem onTime_fourTimers : ∃ (p : State × Log) (fl ql : List (Fin 32)),
    p.2.timers.dispatches = [⟨200, 2, 96000000⟩, ⟨400, 4, 96000000⟩, ⟨100, 1, 96000000⟩] ∧
      OnTime p fl ql := by
  obtain ⟨p, hp, hd⟩ := Run.exists_of_exec (C := NoWrap) (fun _ _ => of_decide_eq_true)
    fourTimers_dispatches
  obtain ⟨fl, ql, ho⟩ := onTime_of_run hp
  exact ⟨p, fl, ql, hd, ho⟩

/-! ### The hardware timer -/

/-- Timer interrupts are enabled, and the hardware timer is set no later than the next deadline or to
a time that has come; when the handler returns it is set to the next deadline, and the next tick is in
the future. -/
structure Armed (p : State × Log) : Prop where
  stie : p.1.timers.stie = true
  programmed : p.1.timers.programmed ≤ p.1.timers.deadline ∨ p.1.timers.programmed ≤ p.1.clock
  handled : ∀ s', step p.1 .round = some (s', .handled) → NoWrap p .round →
    s'.timers.programmed = s'.timers.deadline ∧ p.1.clock < s'.timers.nextTick

/-- **The hardware timer**: in every run it is armed in every state. -/
theorem armed_of_run {s : State} {now : ℕ} {es : List Event} {p : State × Log}
    (h : Run logged NoWrap (init s now, .empty) es p) : Armed p := by
  obtain ⟨fl, ql, hi⟩ := timerInv_of_run h
  refine ⟨hi.stie, hi.programmed, fun s' hs hw => ?_⟩
  have ht := round_handled hs
  obtain ⟨tick, htick, -, -, ⟨hr, -⟩ | ⟨n, ql', pool, -, -, hr, -⟩⟩ :=
    handlerRound_spec hi.holds hi.interval hw
  · rw [hr, Option.some.injEq, Prod.mk.injEq] at ht
    rw [← ht.2]
    exact ⟨next_eq_deadline _, htick⟩
  · simp [hr] at ht

/-- The next tick comes while `timer_trigger_now` has the interrupts disabled, before it reads the
clock. -/
def lateTrigger : List Event := [.advance 750001, .triggerNow]

theorem lateTrigger_timers :
    (exec logged (fun p e => decide (NoWrap p e)) (init zeroed 0, .empty) lateTrigger).map
      (fun p => (p.1.frames, p.1.timers.programmed, p.1.timers.deadline)) =
      some ([], 750001, 750000) := by
  decide +kernel

theorem armed_lateTrigger : ∃ p : State × Log, p.1.timers.programmed = 750001 ∧ Armed p := by
  obtain ⟨p, hp, hv⟩ := Run.exists_of_exec (C := NoWrap) (fun _ _ => of_decide_eq_true)
    lateTrigger_timers
  exact ⟨p, (Prod.mk.inj (Prod.mk.inj hv).2).1, armed_of_run hp⟩

/-- Outside of any trap the hardware timer may be set to a time after the next tick. -/
theorem not_early : ¬∀ (s : State) (now : ℕ) (es : List Event) (p : State × Log),
    Run logged NoWrap (init s now, .empty) es p → p.1.frames = [] →
      p.1.timers.programmed ≤ p.1.timers.deadline := by
  intro h
  obtain ⟨p, hp, hv⟩ := Run.exists_of_exec (C := NoWrap) (fun _ _ => of_decide_eq_true)
    lateTrigger_timers
  obtain ⟨hf, hv⟩ := Prod.mk.inj hv
  obtain ⟨hprog, hdead⟩ := Prod.mk.inj hv
  have hle := h _ _ _ _ hp hf
  rw [hprog, hdead] at hle
  omega

end OscKernel.Deferred.Deadlines
