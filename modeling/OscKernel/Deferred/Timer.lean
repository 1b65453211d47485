import OscKernel.Lib.NodePool

/-! # The software timers of lab5

`timer.c`: callbacks wait in a queue sorted by the time at which they expire, and the hardware timer
is set to the first of these times or to the next scheduler tick, whichever comes first. Times are
64-bit values of the time counter; `sbi_set_timer` succeeds.

* `addTimer_spec`, `handlerRound_spec`: what the critical sections do to the pool and the queue.
* `catchUp_spec`: the catch-up loop ends with the next tick in the future. -/

namespace OscKernel.Deferred.Timer

open OscKernel.Lib.NodePool

/-- `TIMER_FREQ`. -/
def timerFreq : ℕ := 24000000

/-- `TIMER_HZ`. -/
def timerHz : ℕ := 32

/-- `struct timer_event`, less its link. A callback is an address; 0 is the null pointer. -/
structure TimerEvent where
  expiresAt : ℕ
  callback : ℕ
  arg : ℕ
deriving DecidableEq, Repr

/-- `timer_pool`, `timer_free_list` and `timer_head`; `sched_tick_interval` and `sched_next_tick`; the
last value given to `sbi_set_timer`, and the timer bit of `sie`. -/
structure TimerQueue where
  pool : Pool 32 TimerEvent
  tickInterval : ℕ
  nextTick : ℕ
  programmed : ℕ
  stie : Bool

/-- The order of the queue: `a.expires_at < b.expires_at`. -/
def Earlier (a b : TimerEvent) : Prop := a.expiresAt < b.expiresAt

instance : DecidableRel Earlier := fun a b =>
  inferInstanceAs (Decidable (a.expiresAt < b.expiresAt))

/-- The value that `timer_program_next_locked` gives to `sbi_set_timer`. -/
def TimerQueue.next (t : TimerQueue) : ℕ :=
  match t.pool.head with
  | none => t.nextTick
  | some n => if (t.pool.node n).expiresAt < t.nextTick then (t.pool.node n).expiresAt else t.nextTick

/-- `timer_program_next_locked`. -/
def timerProgramNextLocked (t : TimerQueue) : TimerQueue :=
  { t with programmed := t.next, stie := true }

/-- `timer_init`, called at the time `now`. -/
def timerInit (t : TimerQueue) (now : ℕ) : TimerQueue :=
  timerProgramNextLocked
    { t with
      pool := t.pool.init
      tickInterval := timerFreq / timerHz
      nextTick := (now + timerFreq / timerHz) % 2 ^ 64 }

/-- `add_timer`, called at the time `now`. A node stands for the return value 0, which says that the
node now holds the event; its absence stands for -1. -/
def addTimer (t : TimerQueue) (now callback arg : ℕ) (sec : ℤ) :
    Option (Option (Fin 32) × TimerQueue) :=
  if callback = 0 ∨ sec < 0 then some (none, t)
  else
    match t.pool.alloc with
    | none => some (none, t)
    | some (n, p) =>
      let delay := sec.toNat * timerFreq % 2 ^ 64
      let p := p.write n ⟨(now + delay) % 2 ^ 64, callback, arg⟩
      (p.enqueue Earlier n).map fun q =>
        (some n,
          if p.First Earlier n then timerProgramNextLocked { t with pool := q }
          else { t with pool := q })

/-- The loop of `timer_handle_interrupt` that moves the next tick past the time `now`. -/
def catchUp (interval now : ℕ) : ℕ → ℕ → Option ℕ
  | 0, _ => none
  | k + 1, tick =>
    if tick ≤ now then catchUp interval now k ((tick + interval) % 2 ^ 64) else some tick

/-- A round of the loop of `timer_handle_interrupt` at the time `now`, up to the call of `add_task`.
An event is the expired one taken from the queue; none says that the function returns. -/
def handlerRound (t : TimerQueue) (now : ℕ) :
    Option (Option (Fin 32 × TimerEvent) × TimerQueue) :=
  (catchUp t.tickInterval now (2 ^ 64) t.nextTick).map fun tick =>
    match t.pool.popHead with
    | none => (none, timerProgramNextLocked { t with nextTick := tick })
    | some (n, p) =>
      if (t.pool.node n).expiresAt > now then
        (none, timerProgramNextLocked { t with nextTick := tick })
      else (some (n, t.pool.node n), { t with pool := p, nextTick := tick })

/-- `timer_trigger_now`, called at the time `now`. -/
def timerTriggerNow (t : TimerQueue) (now : ℕ) : TimerQueue :=
  { t with programmed := now, stie := true }

/-! ### What the critical sections do -/

theorem earlier_iff (a b : TimerEvent) : Earlier a b ↔ a.expiresAt < b.expiresAt := Iff.rfl

/-- The earliest of the next tick and the first event. -/
def TimerQueue.deadline (t : TimerQueue) : ℕ :=
  t.pool.head.elim t.nextTick fun n => min t.nextTick (t.pool.node n).expiresAt

theorem next_eq_deadline (t : TimerQueue) : t.next = t.deadline := by
  unfold TimerQueue.next TimerQueue.deadline
  cases t.pool.head with
  | none => rfl
  | some n =>
    show (if (t.pool.node n).expiresAt < t.nextTick then _ else _) = min _ _
    split_ifs with h
    · exact (min_eq_right h.le).symm
    · exact (min_eq_left (not_lt.1 h)).symm

variable {t : TimerQueue} {fl ql : List (Fin 32)} {now : ℕ}

@[simp] theorem timerProgramNextLocked_pool (t : TimerQueue) :
    (timerProgramNextLocked t).pool = t.pool := rfl

@[simp] theorem timerProgramNextLocked_nextTick (t : TimerQueue) :
    (timerProgramNextLocked t).nextTick = t.nextTick := rfl

@[simp] theorem timerProgramNextLocked_tickInterval (t : TimerQueue) :
    (timerProgramNextLocked t).tickInterval = t.tickInterval := rfl

@[simp] theorem timerProgramNextLocked_programmed (t : TimerQueue) :
    (timerProgramNextLocked t).programmed = t.deadline := next_eq_deadline t

@[simp] theorem timerProgramNextLocked_deadline (t : TimerQueue) :
    (timerProgramNextLocked t).deadline = t.deadline := rfl

@[simp] theorem timerProgramNextLocked_stie (t : TimerQueue) :
    (timerProgramNextLocked t).stie = true := rfl

theorem deadline_eq (hp : Holds t.pool [] fl ql) :
    t.deadline = ql.head?.elim t.nextTick fun n => min t.nextTick (t.pool.node n).expiresAt := by
  rw [TimerQueue.deadline, hp.queue.head]

/-- The next tick is moved past the present time, by no more than one interval. -/
theorem catchUp_spec {interval : ℕ} (hi : 0 < interval) (hw : now + interval < 2 ^ 64) :
    ∀ (k tick : ℕ), now < tick + k → ∃ next, catchUp interval now (k + 1) tick = some next ∧
      now < next ∧ tick ≤ next ∧ next ≤ max tick (now + interval)
  | 0, tick, hk => ⟨tick, if_neg (by omega), by omega, le_rfl, le_max_left _ _⟩
  | k + 1, tick, hk => by
    rw [catchUp]
    split_ifs with htick
    · rw [Nat.mod_eq_of_lt (by omega)]
      obtain ⟨next, hc, h1, h2, h3⟩ := catchUp_spec hi hw k (tick + interval) (by omega)
      exact ⟨next, hc, h1, by omega, by omega⟩
    · exact ⟨tick, rfl, by omega, le_rfl, le_max_left _ _⟩

theorem timerInit_holds (t : TimerQueue) (now : ℕ) :
    Holds (timerInit t now).pool [] (List.finRange 32) [] :=
  init_holds t.pool

theorem addTimer_refused {callback arg : ℕ} {sec : ℤ} {q : TimerQueue}
    (h : addTimer t now callback arg sec = some (none, q)) : q = t := by
  unfold addTimer at h
  split_ifs at h
  · exact (Prod.mk.inj (Option.some.inj h)).2.symm
  · split at h
    · exact (Prod.mk.inj (Option.some.inj h)).2.symm
    · obtain ⟨_, -, h⟩ := Option.map_eq_some_iff.1 h
      simp at h

theorem reason_of_refused {callback arg : ℕ} {sec : ℤ} {q : TimerQueue}
    (h : addTimer t now callback arg sec = some (none, q)) :
    callback = 0 ∨ sec < 0 ∨ t.pool.free = none := by
  unfold addTimer at h
  split_ifs at h with hc
  · exact hc.imp_right .inl
  · split at h
    · rename_i ha
      exact .inr (.inr (Option.map_eq_none_iff.1 ha))
    · obtain ⟨_, -, h⟩ := Option.map_eq_some_iff.1 h
      simp at h

/-- Whatever the time: a timer that is accepted gets a free node and its place in the queue. -/
theorem addTimer_holds (hp : Holds t.pool [] fl ql) {callback arg : ℕ} {sec : ℤ} {n : Fin 32}
    {t' : TimerQueue} (h : addTimer t now callback arg sec = some (some n, t')) :
    ∃ fl' ql', 0 ≤ sec ∧ fl = n :: fl' ∧ n ∉ ql ∧
      t'.pool.node = Function.update t.pool.node n
        ⟨(now + sec.toNat * timerFreq % 2 ^ 64) % 2 ^ 64, callback, arg⟩ ∧ ql'.Perm (n :: ql) ∧
      Holds t'.pool [] fl' ql' := by
  unfold addTimer at h
  split_ifs at h with hc
  · cases h
  rw [not_or, not_lt] at hc
  rcases insert_spec Earlier hp
      ⟨(now + sec.toNat * timerFreq % 2 ^ 64) % 2 ^ 64, callback, arg⟩ with
    ⟨ha, -⟩ | ⟨m, fl', p', p'', hfl, hnq, ha, -, he, hnode, hp''⟩
  · simp [ha] at h
  simp only [ha, he, Option.map_some, Option.some.injEq, Prod.mk.injEq] at h
  obtain ⟨rfl, rfl⟩ := h
  have hpool : ∀ {c : Prop} [Decidable c],
      (if c then timerProgramNextLocked { t with pool := p'' }
        else { t with pool := p'' } : TimerQueue).pool = p'' := by
    intro c _
    split_ifs <;> rfl
  rw [hpool]
  exact ⟨fl', _, hc.2, hfl, hnq, hnode, List.perm_orderedInsert _ m ql, hp''⟩

/-- Whatever the time: the handler takes the first timer. -/
theorem handlerRound_holds (hp : Holds t.pool [] fl ql) {n : Fin 32} {e : TimerEvent}
    {t' : TimerQueue} (h : handlerRound t now = some (some (n, e), t')) :
    ∃ ql', ql = n :: ql' ∧ e = t.pool.node n ∧ t'.pool.node = t.pool.node ∧
      Holds t'.pool [] (n :: fl) ql' := by
  obtain ⟨tick, -, hr⟩ := Option.map_eq_some_iff.1 h
  rcases popHead_spec hp with ⟨hpop, -⟩ | ⟨m, ql', p', hql, hpop, hp', hn⟩
  · simp [hpop] at hr
  rw [hpop] at hr
  dsimp only at hr
  split_ifs at hr
  · simp at hr
  · simp only [Prod.mk.injEq, Option.some.injEq] at hr
    obtain ⟨⟨rfl, rfl⟩, rfl⟩ := hr
    exact ⟨ql', hql, rfl, hn, hp'⟩

theorem handlerRound_returns {q : TimerQueue} (h : handlerRound t now = some (none, q)) :
    q.pool = t.pool := by
  obtain ⟨tick, -, hr⟩ := Option.map_eq_some_iff.1 h
  split at hr
  · cases hr
    rfl
  · split_ifs at hr
    · cases hr
      rfl
    · cases hr

theorem timerInit_interval (t : TimerQueue) (now : ℕ) : 0 < (timerInit t now).tickInterval := by
  simp [timerInit, timerFreq, timerHz]

theorem timerInit_programmed (t : TimerQueue) (now : ℕ) :
    (timerInit t now).programmed = (timerInit t now).deadline := by
  rw [timerInit, timerProgramNextLocked_programmed, timerProgramNextLocked_deadline]

/-- A timer is refused, and nothing changes, or it gets a free node and its place in the queue; the
hardware timer is set anew when that place is the first one. -/
theorem addTimer_spec (hp : Holds t.pool [] fl ql) (callback arg : ℕ) (sec : ℤ)
    (hw : now + sec.toNat * timerFreq < 2 ^ 64) :
    (addTimer t now callback arg sec = some (none, t) ∧ (callback = 0 ∨ sec < 0 ∨ fl = [])) ∨
    ∃ n fl' t', addTimer t now callback arg sec = some (some n, t') ∧ callback ≠ 0 ∧ 0 ≤ sec ∧
      fl = n :: fl' ∧ n ∉ ql ∧ t'.tickInterval = t.tickInterval ∧ t'.nextTick = t.nextTick ∧
      t'.pool.node = Function.update t.pool.node n ⟨now + sec.toNat * timerFreq, callback, arg⟩ ∧
      Holds t'.pool [] fl'
        (ql.orderedInsert (fun x y => Earlier (t'.pool.node x) (t'.pool.node y)) n) ∧
      ((t'.programmed = t'.deadline ∧ t'.stie = true) ∨
        (t'.programmed = t.programmed ∧ t'.stie = t.stie ∧ t'.deadline = t.deadline)) := by
  have hd : (now + sec.toNat * timerFreq % 2 ^ 64) % 2 ^ 64 = now + sec.toNat * timerFreq := by
    rw [Nat.mod_eq_of_lt (a := sec.toNat * timerFreq) (by omega), Nat.mod_eq_of_lt hw]
  unfold addTimer
  by_cases hc : callback = 0 ∨ sec < 0
  · exact .inl ⟨if_pos hc, by tauto⟩
  rw [if_neg hc]
  rw [not_or, not_lt] at hc
  rcases insert_spec Earlier hp ⟨now + sec.toNat * timerFreq, callback, arg⟩ with
    ⟨ha, hfl⟩ | ⟨n, fl', p', p'', hfl, hnq, ha, hf, he, hnode, hp''⟩
  · exact .inl ⟨by rw [ha], .inr (.inr hfl)⟩
  right
  simp only [ha, hd, he, Option.map_some]
  split_ifs with hfirst
  · exact ⟨n, fl', _, rfl, hc.1, hc.2, hfl, hnq, rfl, rfl, hnode, hp'',
      .inl ⟨next_eq_deadline _, rfl⟩⟩
  · refine ⟨n, fl', _, rfl, hc.1, hc.2, hfl, hnq, rfl, rfl, hnode, hp'', .inr ⟨rfl, rfl, ?_⟩⟩
    -- the first event is the same as before
    rw [hf] at hfirst
    cases ql with
    | nil => exact absurd (by simp) hfirst
    | cons h ql =>
      have hnot : ¬Earlier ⟨now + sec.toNat * timerFreq, callback, arg⟩ (t.pool.node h) :=
        fun he => hfirst fun j hj => by
          rw [List.head?_cons, Option.mem_some_iff] at hj
          exact hj ▸ he
      have hhn : h ≠ n := fun e => hnq (by simp [e])
      have hh : p''.node h = t.pool.node h := by rw [hnode, Function.update_of_ne hhn]
      rw [deadline_eq hp, deadline_eq hp'', List.orderedInsert_cons, if_neg]
      · simp only [List.head?_cons, Option.elim_some, hh]
      · rw [hh, hnode, Function.update_self]
        exact hnot

/-- The handler moves the next tick on. Then it returns, with the hardware timer set, when no event
has expired; otherwise it takes the first one. -/
theorem handlerRound_spec (hp : Holds t.pool [] fl ql) (hi : 0 < t.tickInterval)
    (hw : now + t.tickInterval < 2 ^ 64) : ∃ tick, now < tick ∧ t.nextTick ≤ tick ∧
      tick ≤ max t.nextTick (now + t.tickInterval) ∧
      ((handlerRound t now = some (none, timerProgramNextLocked { t with nextTick := tick }) ∧
          ∀ n ∈ ql.head?, now < (t.pool.node n).expiresAt) ∨
        ∃ n ql' p, ql = n :: ql' ∧ (t.pool.node n).expiresAt ≤ now ∧
          handlerRound t now =
            some (some (n, t.pool.node n), { t with pool := p, nextTick := tick }) ∧
          p.node = t.pool.node ∧ Holds p [] (n :: fl) ql') := by
  obtain ⟨tick, hc, h1, h2, h3⟩ :=
    catchUp_spec hi hw (2 ^ 64 - 1) t.nextTick (by omega)
  refine ⟨tick, h1, h2, h3, ?_⟩
  unfold handlerRound
  rw [show (2 ^ 64 : ℕ) = 2 ^ 64 - 1 + 1 from rfl, hc, Option.map_some]
  rcases popHead_spec hp with ⟨hpop, hql⟩ | ⟨n, ql', p', hql, hpop, hp', hn⟩
  · exact .inl ⟨by rw [hpop], by simp [hql]⟩
  · rw [hpop]
    by_cases hlt : (t.pool.node n).expiresAt > now
    · refine .inl ⟨by simp only [if_pos hlt], fun m hm => ?_⟩
      rw [hql, List.head?_cons, Option.mem_some_iff] at hm
      exact hm ▸ hlt
    · exact .inr ⟨n, ql', p', hql, not_lt.1 hlt, by simp only [if_neg hlt], hn, hp'⟩

end OscKernel.Deferred.Timer
