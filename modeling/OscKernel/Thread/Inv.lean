import OscKernel.Thread.Sched

/-! # The invariant of the scheduler

`TableInv L k cur out` ties the task table, the run queue and the running task `cur` together, if
there is one; the task `out` is on its way into `switch_to`, so its context is not saved yet.
`SchedInv L k` is the invariant between two kernel functions: the current task runs and no task is on
its way.

One lemma for each function of `thread.c` says that it is defined and keeps the invariant:
`taskReap_inv`, `killZombies_inv`, `threadCreate_inv`, `schedule_inv`, `threadExit_inv`,
`taskKill_inv`, `switchTo_inv`. -/

namespace OscKernel.Thread.Inv

open OscKernel.Lib.Memory OscKernel.Lib.Cyclic
open OscKernel.Thread.Task OscKernel.Thread.RunQueue OscKernel.Thread.Sched

/-- The context of a task that can be switched to. -/
def Suspended (L : Layout) (i : Slot) : CpuContext → Prop
  | .clear => False
  | .start ra _ => ra = L.threadTrampoline
  | .saved owner act => owner = i ∧ act ≠ .dead

theorem suspended_newThread (L : Layout) (fn : Word) (pid : ℤ) (i : Slot) (t : TaskStruct) :
    Suspended L i (newThread L fn pid i t).context := by
  simp [Suspended, newThread]

/-- The invariant of the task table and the run queue. -/
structure TableInv (L : Layout) (k : Kernel) (cur out : Option Slot) : Prop where
  queue : ∃ tail xs, k.runQueueTail = some tail ∧ RingList k.next tail xs ∧
    ∀ i, i ∈ xs ↔ isRunnable k i
  idleTask : k.idleTask = some 0
  idle : isRunnable k 0
  running : ∀ i, k.state i = .running ↔ cur = some i
  nextPid : k.nextPid ≤ intMax
  pid_lt : ∀ i, k.state i ≠ .unused → (k.tasks i).pid < k.nextPid
  pid_inj : ∀ i j, k.state i ≠ .unused → k.state j ≠ .unused →
    (k.tasks i).pid = (k.tasks j).pid → i = j
  context : ∀ i, k.state i = .runnable → some i ≠ out → Suspended L i (k.tasks i).context

/-- The invariant between two kernel functions. -/
def SchedInv (L : Layout) (k : Kernel) : Prop := ∃ cur, k.tp = some cur ∧ TableInv L k (some cur) none

/-- What the invariant looks at. -/
def view (t : TaskStruct) : Option Slot × TaskState × ℤ × CpuContext :=
  (t.next, t.state, t.pid, t.context)

section Table
variable {L : Layout} {k k' : Kernel} {i c : Slot} {cur out : Option Slot}

theorem TableInv.isRunnable_cur (h : TableInv L k (some c) out) : isRunnable k c :=
  .inr ((h.running c).2 rfl)

theorem TableInv.weaken (h : TableInv L k cur none) (out : Option Slot) : TableInv L k cur out :=
  { h with context := fun i hi _ => h.context i hi (by simp) }

theorem TableInv.congr (h : TableInv L k cur out) (hv : ∀ i, view (k'.tasks i) = view (k.tasks i))
    (ht : k'.runQueueTail = k.runQueueTail) (hi : k'.idleTask = k.idleTask)
    (hp : k'.nextPid = k.nextPid) : TableInv L k' cur out := by
  have hnext : k'.next = k.next := funext fun i => congrArg Prod.fst (hv i)
  have hstate : k'.state = k.state := funext fun i => congrArg (·.2.1) (hv i)
  have hpid : ∀ i, (k'.tasks i).pid = (k.tasks i).pid := fun i => congrArg (·.2.2.1) (hv i)
  have hctx : ∀ i, (k'.tasks i).context = (k.tasks i).context := fun i => congrArg (·.2.2.2) (hv i)
  refine ⟨?_, hi.trans h.idleTask, ?_, ?_, ?_, ?_, ?_, ?_⟩
  · simpa only [ht, hnext, isRunnable, hstate] using h.queue
  · simpa only [isRunnable, hstate] using h.idle
  · simpa only [hstate] using h.running
  · simpa only [hp] using h.nextPid
  · simpa only [hstate, hpid, hp] using h.pid_lt
  · simpa only [hstate, hpid] using h.pid_inj
  · simpa only [hstate, hctx] using h.context

theorem TableInv.modify (h : TableInv L k cur out) {f : TaskStruct → TaskStruct}
    (hf : ∀ t, view (f t) = view t) : TableInv L (k.modify i f) cur out :=
  h.congr (k.modify_proj i f view (hf _)) rfl rfl rfl

theorem TableInv.modify_dead (h : TableInv L k cur out) {f : TaskStruct → TaskStruct}
    (hi : ¬ isRunnable k i) (hf : ∀ t, (f t).state = .unused) :
    TableInv L (k.modify i f) cur out := by
  have hstate : ∀ j, (k.modify i f).state j = if j = i then .unused else k.state j := by
    intro j
    rw [k.state_modify, Function.update_apply, hf]
  have hrun : ∀ j, isRunnable (k.modify i f) j ↔ isRunnable k j := by
    intro j
    unfold isRunnable
    rw [hstate]
    split_ifs with hj
    · subst hj
      simpa [isRunnable] using hi
    · rfl
  have hne : ∀ j, (k.modify i f).state j ≠ .unused → j ≠ i ∧ k.state j ≠ .unused := by
    intro j hj
    rw [hstate] at hj
    split_ifs at hj with he
    · exact absurd rfl hj
    · exact ⟨he, hj⟩
  refine ⟨?_, h.idleTask, (hrun 0).2 h.idle, ?_, h.nextPid, ?_, ?_, ?_⟩
  · obtain ⟨tail, xs, ht, hr, hm⟩ := h.queue
    refine ⟨tail, xs, ht, hr.congr fun z hz => ?_, fun j => (hm j).trans (hrun j).symm⟩
    have hz' : z ≠ i := fun he => hi ((hm i).1 (he ▸ hz))
    rw [k.next_modify, Function.update_of_ne hz']
  · intro j
    rw [hstate, ← h.running j]
    split_ifs with hj
    · subst hj
      have hj : k.state j ≠ .running := fun he => hi (.inr he)
      simp [hj]
    · rfl
  · intro j hj
    obtain ⟨h1, h2⟩ := hne j hj
    rw [k.modify_of_ne i f h1]
    exact h.pid_lt j h2
  · intro j l hj hl
    obtain ⟨h1, h2⟩ := hne j hj
    obtain ⟨h3, h4⟩ := hne l hl
    rw [k.modify_of_ne i f h1, k.modify_of_ne i f h3]
    exact h.pid_inj j l h2 h4
  · intro j hj ho
    obtain ⟨h1, -⟩ := hne j (by rw [hj]; decide)
    rw [k.modify_of_ne i f h1]
    refine h.context j ?_ ho
    rw [hstate, if_neg h1] at hj
    exact hj

/-! ### Reaping -/

theorem taskReap_inv (h : TableInv L k cur out) (task : Option Slot) :
    TableInv L (taskReap k task) cur out := by
  unfold taskReap
  split
  · exact h
  · split_ifs with h1 h2
    · exact h
    · exact h
    · refine h.modify_dead ?_ fun _ => rfl
      rw [not_not] at h2
      simp [isRunnable, h2]

theorem killZombie_inv (h : TableInv L k cur out) (i : Slot) :
    TableInv L (killZombie k i) cur out := by
  unfold killZombie
  split_ifs
  · exact h
  · exact h
  · exact taskReap_inv h _

theorem killZombies_inv (h : TableInv L k cur out) : TableInv L (killZombies k) cur out := by
  unfold killZombies
  generalize (List.finRange 16).drop 1 = l
  induction l generalizing k with
  | nil => exact h
  | cons i l ih => exact ih (killZombie_inv h i)

theorem taskReap_frame (k : Kernel) (task : Option Slot) :
    (taskReap k task).tp = k.tp ∧ (taskReap k task).nextPid = k.nextPid ∧
      (taskReap k task).idleTask = k.idleTask := by
  unfold taskReap
  split
  · exact ⟨rfl, rfl, rfl⟩
  · split_ifs <;> exact ⟨rfl, rfl, rfl⟩

theorem killZombies_frame (k : Kernel) :
    (killZombies k).tp = k.tp ∧ (killZombies k).nextPid = k.nextPid ∧
      (killZombies k).idleTask = k.idleTask := by
  unfold killZombies
  generalize (List.finRange 16).drop 1 = l
  induction l generalizing k with
  | nil => exact ⟨rfl, rfl, rfl⟩
  | cons i l ih =>
    have hi : (killZombie k i).tp = k.tp ∧ (killZombie k i).nextPid = k.nextPid ∧
        (killZombie k i).idleTask = k.idleTask := by
      unfold killZombie
      split_ifs
      · exact ⟨rfl, rfl, rfl⟩
      · exact ⟨rfl, rfl, rfl⟩
      · exact taskReap_frame k _
    obtain ⟨h1, h2, h3⟩ := ih (killZombie k i)
    exact ⟨h1.trans hi.1, h2.trans hi.2.1, h3.trans hi.2.2⟩

/-! ### Creation -/

theorem TableInv.create (h : TableInv L k cur out) (hi : k.state i = .unused)
    (hp : k.nextPid < intMax) {f : TaskStruct → TaskStruct} (hs : ∀ t, (f t).state = .runnable)
    (hpid : ∀ t, (f t).pid = k.nextPid) (hc : ∀ t, Suspended L i (f t).context) :
    TableInv L (runqAdd { k.modify i f with nextPid := k.nextPid + 1 } i) cur out := by
  obtain ⟨tail, xs, ht, hr, hm⟩ := h.queue
  have hix : i ∉ xs := by
    rw [hm]
    simp [isRunnable, hi]
  set k1 : Kernel := { k.modify i f with nextPid := k.nextPid + 1 } with hk1
  have hr1 : RingList k1.next tail xs := hr.congr fun z hz => by
    have hzi : z ≠ i := fun he => hix (he ▸ hz)
    change (k.modify i f).next z = _
    rw [k.next_modify, Function.update_of_ne hzi]
  obtain ⟨ht2, hr2⟩ := runqAdd_spec (k := k1) ht hr1 hix
  have hq := runqAdd_queueOnly k1 i
  have hstate : ∀ j, (runqAdd k1 i).state j = if j = i then .runnable else k.state j := by
    intro j
    rw [hq.state]
    change (k.modify i f).state j = _
    rw [k.state_modify, Function.update_apply, hs]
  have hpid2 : ∀ j, ((runqAdd k1 i).tasks j).pid = if j = i then k.nextPid else (k.tasks j).pid := by
    intro j
    rw [hq.proj TaskStruct.pid fun _ => rfl]
    change ((k.modify i f).tasks j).pid = _
    split_ifs with hj
    · rw [hj, k.modify_same, hpid]
    · rw [k.modify_of_ne i f hj]
  have hctx2 : ∀ j, ((runqAdd k1 i).tasks j).context =
      if j = i then (f (k.tasks i)).context else (k.tasks j).context := by
    intro j
    rw [hq.proj TaskStruct.context fun _ => rfl]
    change ((k.modify i f).tasks j).context = _
    split_ifs with hj
    · rw [hj, k.modify_same]
    · rw [k.modify_of_ne i f hj]
  have hlt : ∀ j, j ≠ i → (runqAdd k1 i).state j ≠ .unused → (k.tasks j).pid < k.nextPid := by
    intro j hj hu
    rw [hstate, if_neg hj] at hu
    exact h.pid_lt j hu
  refine ⟨⟨i, _, ht2, hr2, fun j => ?_⟩, hq.idleTask.trans h.idleTask, ?_, fun j => ?_, ?_, ?_, ?_, ?_⟩
  · rw [List.mem_append, hm, isRunnable, isRunnable, hstate]
    split_ifs with hj
    · simp [hj]
    · simp [hj]
  · rw [isRunnable, hstate]
    split_ifs
    · exact .inl rfl
    · exact h.idle
  · rw [hstate, ← h.running j]
    split_ifs with hj
    · simp [hj, hi]
    · rfl
  · rw [hq.nextPid]
    change k.nextPid + 1 ≤ intMax
    omega
  · intro j hu
    rw [hpid2, hq.nextPid]
    change _ < k.nextPid + 1
    split_ifs with hj
    · omega
    · have := hlt j hj hu
      omega
  · intro j l hj hl he
    rw [hpid2, hpid2] at he
    split_ifs at he with h1 h2 h2
    · rw [h1, h2]
    · have := hlt l h2 hl
      omega
    · have := hlt j h1 hj
      omega
    · rw [hstate, if_neg h1] at hj
      rw [hstate, if_neg h2] at hl
      exact h.pid_inj j l hj hl he
  · intro j hj ho
    rw [hctx2]
    rw [hstate] at hj
    split_ifs at hj ⊢ with he
    · exact he ▸ hc _
    · exact h.context j hj ho

/-- **`thread_create`** is defined while `next_pid` does not overflow, and keeps the invariant. -/
theorem threadCreate_inv (h : TableInv L k cur out) {fn : Word} {r : Option Slot}
    (hk : threadCreate L fn k = some (k', r)) : TableInv L k' cur out := by
  have hz := killZombies_inv h
  rcases threadCreate_cases hk with ⟨-, rfl, -⟩ | ⟨i, -, hi, hp, rfl⟩
  · exact hz
  · exact hz.create hi hp (newThread_state L fn _ i) (newThread_pid L fn _ i)
      (suspended_newThread L fn _ i)

theorem threadCreate_tp {fn : Word} {r : Option Slot} (hk : threadCreate L fn k = some (k', r)) :
    k'.tp = k.tp := by
  have hz := (killZombies_frame k).1
  rcases threadCreate_cases hk with ⟨-, rfl, -⟩ | ⟨i, -, -, -, rfl⟩
  · exact hz
  · rw [(runqAdd_queueOnly _ i).tp]
    exact hz

theorem threadCreate_defined (L : Layout) (fn : Word) (hp : k.nextPid < intMax) :
    ∃ k' r, threadCreate L fn k = some (k', r) := by
  unfold threadCreate
  rcases hk : allocTask k with ⟨k1, _ | i⟩
  · exact ⟨_, _, rfl⟩
  · have hk1 : (allocTask k).1 = k1 := by rw [hk]
    have hp1 : ¬ intMax ≤ k1.nextPid := by
      rw [← hk1, allocTask, (killZombies_frame k).2.1]
      exact not_le.2 hp
    simp only [if_neg hp1]
    exact ⟨_, _, rfl⟩

/-! ### Switching -/

theorem TableInv.setState (h : TableInv L k cur out) (hi : isRunnable k i) {s : TaskState}
    (hs : s = .runnable ∨ s = .running) {cur' out' : Option Slot}
    (hrun : ∀ j, (k.setState i s).state j = .running ↔ cur' = some j)
    (hctx : ∀ j, (k.setState i s).state j = .runnable → some j ≠ out' →
      Suspended L j (k.tasks j).context) : TableInv L (k.setState i s) cur' out' := by
  have hr : ∀ j, isRunnable (k.setState i s) j ↔ isRunnable k j := by
    intro j
    unfold isRunnable
    rw [k.state_setState]
    split_ifs with hj
    · subst hj
      exact iff_of_true hs hi
    · rfl
  have hu : ∀ j, (k.setState i s).state j ≠ .unused → k.state j ≠ .unused := by
    intro j hj
    rw [k.state_setState] at hj
    split_ifs at hj with he
    · subst he
      rcases hi with hi | hi <;> rw [hi] <;> decide
    · exact hj
  have hpid := k.setState_proj i TaskStruct.pid s fun _ => rfl
  have hcx := k.setState_proj i TaskStruct.context s fun _ => rfl
  have hnx : (k.setState i s).next = k.next :=
    funext (k.setState_proj i TaskStruct.next s fun _ => rfl)
  refine ⟨?_, h.idleTask, (hr 0).2 h.idle, hrun, h.nextPid, ?_, ?_, ?_⟩
  · obtain ⟨tail, xs, ht, hring, hm⟩ := h.queue
    exact ⟨tail, xs, ht, hnx ▸ hring, fun j => (hm j).trans (hr j).symm⟩
  · intro j hj
    rw [hpid]
    exact h.pid_lt j (hu j hj)
  · intro j l hj hl
    rw [hpid, hpid]
    exact h.pid_inj j l (hu j hj) (hu l hl)
  · intro j hj ho
    rw [hcx]
    exact hctx j hj ho

theorem TableInv.park (h : TableInv L k (some c) none) :
    TableInv L (k.setState c .runnable) none (some c) := by
  refine h.setState h.isRunnable_cur (.inl rfl) (fun j => ?_) fun j hj ho => ?_
  · rw [k.state_setState]
    split_ifs with hj
    · simp
    · rw [h.running]
      simpa using Ne.symm hj
  · have hjc : j ≠ c := fun he => ho (by rw [he])
    rw [k.state_setState, if_neg hjc] at hj
    exact h.context j hj (by simp)

theorem TableInv.start (h : TableInv L k none out) (hi : isRunnable k i) :
    TableInv L (k.setState i .running) (some i) out := by
  refine h.setState hi (.inr rfl) (fun j => ?_) fun j hj ho => ?_
  · rw [k.state_setState]
    split_ifs with hj
    · simp [hj]
    · rw [h.running]
      simpa using Ne.symm hj
  · rw [k.state_setState] at hj
    split_ifs at hj
    exact h.context j hj ho

theorem TableInv.retire (h : TableInv L k cur out) (hi : isRunnable k i) (h0 : i ≠ 0)
    {cur' : Option Slot} (hcur : ∀ j, (j ≠ i ∧ k.state j = .running) ↔ cur' = some j) :
    ∃ k1, runqRemove k i = some k1 ∧ QueueOnly k k1 ∧
      ∀ f : TaskStruct → TaskStruct, (∀ t, (f t).state = .zombie) → (∀ t, (f t).pid = t.pid) →
        TableInv L (k1.modify i f) cur' out := by
  obtain ⟨tail, xs, ht, hring, hm⟩ := h.queue
  obtain ⟨k1, tail', hk1, hq, ht', hring'⟩ :=
    runqRemove_spec ht hring ((hm i).2 hi) ((hm 0).2 h.idle) (Ne.symm h0)
  refine ⟨k1, hk1, hq, fun f hf hfp => ?_⟩
  have hstate : ∀ j, (k1.modify i f).state j = if j = i then .zombie else k.state j := by
    intro j
    rw [k1.state_modify, Function.update_apply, hf, hq.state]
  have hpid : ∀ j, ((k1.modify i f).tasks j).pid = (k.tasks j).pid := by
    intro j
    rw [k1.modify_proj i f TaskStruct.pid (hfp _), hq.proj TaskStruct.pid fun _ => rfl]
  have hu : ∀ j, (k1.modify i f).state j ≠ .unused → k.state j ≠ .unused := by
    intro j hj
    rw [hstate] at hj
    split_ifs at hj with he
    · subst he
      rcases hi with hi | hi <;> rw [hi] <;> decide
    · exact hj
  have hrun : ∀ j, isRunnable (k1.modify i f) j ↔ j ≠ i ∧ isRunnable k j := by
    intro j
    unfold isRunnable
    rw [hstate]
    split_ifs with hj <;> simp [hj]
  refine ⟨⟨tail', _, ht', hring'.congr fun z hz => ?_, fun j => ?_⟩, hq.idleTask.trans h.idleTask,
    (hrun 0).2 ⟨Ne.symm h0, h.idle⟩, fun j => ?_, hq.nextPid ▸ h.nextPid, fun j hj => ?_,
    fun j l hj hl => ?_, fun j hj ho => ?_⟩
  · have hz' : z ≠ i := (hring.nodup.mem_erase_iff.1 hz).1
    rw [k1.next_modify, Function.update_of_ne hz']
  · rw [hring.nodup.mem_erase_iff, hm, hrun]
  · rw [hstate, ← hcur]
    split_ifs with hj <;> simp [hj]
  · rw [hpid]
    change _ < k1.nextPid
    rw [hq.nextPid]
    exact h.pid_lt j (hu j hj)
  · rw [hpid, hpid]
    exact h.pid_inj j l (hu j hj) (hu l hl)
  · rw [hstate] at hj
    split_ifs at hj with he
    rw [k1.modify_of_ne i f he, hq.proj TaskStruct.context fun _ => rfl]
    exact h.context j hj ho

/-! ### `schedule`, `thread_exit`, `task_kill` and `switch_to` -/

theorem exists_pickNext (h : TableInv L k cur out) (hi : isRunnable k i) :
    ∃ n, pickNext k i = some n ∧ isRunnable k n := by
  obtain ⟨tail, xs, -, hring, hm⟩ := h.queue
  obtain ⟨n, hn, hp⟩ := pickNext_spec hring (fun j hj => (hm j).1 hj) ((hm i).2 hi)
  exact ⟨n, hp, (hm n).1 hn⟩

theorem exists_runqRemove (h : TableInv L k cur out) (hi : isRunnable k i) :
    ∃ k', runqRemove k i = some k' := by
  by_cases h0 : i = 0
  · by_cases hn : k.next i = some i
    · obtain ⟨tail, -, ht, -⟩ := h.queue
      unfold runqRemove
      rw [ht]
      exact ⟨_, if_pos hn⟩
    · obtain ⟨tail, xs, ht, hring, hm⟩ := h.queue
      obtain ⟨j, hj, hij⟩ := hring.next_mem ((hm i).2 hi)
      have hne : j ≠ i := fun he => hn (he ▸ hij)
      obtain ⟨k', -, hk', -⟩ := runqRemove_spec ht hring ((hm i).2 hi) hj hne
      exact ⟨k', hk'⟩
  · obtain ⟨tail, xs, ht, hring, hm⟩ := h.queue
    obtain ⟨k', -, hk', -⟩ := runqRemove_spec ht hring ((hm i).2 hi) ((hm 0).2 h.idle) (Ne.symm h0)
    exact ⟨k', hk'⟩

/-- The state in which a kernel function calls `switch_to(prev, next)`. -/
structure Switching (L : Layout) (k : Kernel) (prev next : Slot) : Prop where
  tp : k.tp = some prev
  ne : next ≠ prev
  table : TableInv L k (some next) (some prev)
  context : Suspended L next (k.tasks next).context

/-- **`schedule`** returns, or it switches to another task of the queue. -/
theorem schedule_inv (ht : k.tp = some c) (h : TableInv L k (some c) none) :
    schedule k = some (k, .ret) ∨ ∃ k' n, schedule k = some (k', .switch c n) ∧ Switching L k' c n ∧
      isRunnable k n ∧ k' = (k.setState c .runnable).setState n .running := by
  obtain ⟨tail, -, htail, -⟩ := h.queue
  obtain ⟨n, hn, hr⟩ := exists_pickNext h h.isRunnable_cur
  have hc : k.state c = .running := (h.running c).2 rfl
  unfold schedule
  rw [ht, htail]
  simp only [hn, Option.bind_eq_bind, Option.bind_some]
  by_cases hnc : n = c
  · left
    rw [if_pos hnc]
  · right
    rw [if_neg hnc, if_pos hc]
    have hstart : isRunnable (k.setState c .runnable) n := by
      rw [isRunnable, k.state_setState, if_neg hnc]
      exact hr
    refine ⟨_, n, rfl, ⟨ht, hnc, h.park.start hstart, ?_⟩, hr, rfl⟩
    rw [Kernel.setState_proj _ _ TaskStruct.context _ fun _ => rfl,
      k.setState_proj c TaskStruct.context _ fun _ => rfl]
    refine h.context n (hr.resolve_right fun he => hnc ?_) (by simp)
    simpa using ((h.running n).1 he).symm

/-- **`thread_exit`** of a task other than the idle task switches to another task of the queue. -/
theorem threadExit_inv (ht : k.tp = some c) (h : TableInv L k (some c) none) (h0 : c ≠ 0) :
    ∃ k' n, threadExit k = some (k', .switch c n) ∧ Switching L k' c n ∧ isRunnable k n ∧
      k'.state c = .zombie := by
  obtain ⟨m, hm, hmr⟩ := exists_pickNext h h.isRunnable_cur
  obtain ⟨t, htar, htr⟩ : ∃ t, exitTarget k c = some t ∧ isRunnable k t := by
    unfold exitTarget
    split
    · rename_i p _
      split_ifs with hp
      · refine ⟨p, rfl, ?_⟩
        unfold isRunnable
        cases hs : k.state p
        · exact absurd hs hp.1
        · exact .inl rfl
        · exact .inr rfl
        · exact absurd hs hp.2
      · exact ⟨m, hm, hmr⟩
    · exact ⟨m, hm, hmr⟩
  have hcur : ∀ j, (j ≠ c ∧ k.state j = .running) ↔ (none : Option Slot) = some j := by
    intro j
    rw [h.running]
    simpa using fun hj he => hj he.symm
  obtain ⟨k1, hk1, hq, hz⟩ := h.retire h.isRunnable_cur h0 hcur
  have hdead : TableInv L (k1.setState c .zombie) none none := hz _ (fun _ => rfl) fun _ => rfl
  have hn : ∃ n, (if t = c then k1.idleTask else some t) = some n ∧ n ≠ c ∧ isRunnable k n := by
    split_ifs with htc
    · exact ⟨0, hq.idleTask.trans h.idleTask, Ne.symm h0, h.idle⟩
    · exact ⟨t, rfl, htc, htr⟩
  obtain ⟨n, hnx, hnc, hnr⟩ := hn
  have hnr' : isRunnable (k1.setState c .zombie) n := by
    rw [isRunnable, Kernel.state_setState, if_neg hnc, hq.state]
    exact hnr
  refine ⟨(k1.setState c .zombie).setState n .running, n, ?_, ⟨?_, hnc, ?_, ?_⟩, hnr, ?_⟩
  · unfold threadExit
    rw [ht]
    simp only [Option.bind_eq_bind, Option.bind_some, htar, hk1]
    split_ifs at hnx ⊢ with htc
    · have hidle : (k1.setState c .zombie).idleTask = some n := hnx
      rw [hidle]
      rfl
    · rw [Option.some.injEq] at hnx
      rw [hnx]
  · exact hq.tp.trans ht
  · exact (hdead.start hnr').weaken _
  · rw [Kernel.setState_proj _ _ TaskStruct.context _ fun _ => rfl]
    refine hdead.context n (hnr'.resolve_right fun he => ?_) (by simp)
    simpa using (hdead.running n).1 he
  · rw [Kernel.state_setState, if_neg (Ne.symm hnc), Kernel.state_setState, if_pos rfl]

/-- **`task_kill`** returns, or the current task dies and it switches to another task. -/
theorem taskKill_inv (ht : k.tp = some c) (h : TableInv L k (some c) none) (pid : ℤ)
    (status : BitVec 32) :
    (∃ k' r, taskKill k pid status = some (k', .ret, r) ∧ k'.tp = some c ∧
      TableInv L k' (some c) none) ∨
    ∃ k' n, taskKill k pid status = some (k', .switch c n, 0) ∧ Switching L k' c n ∧
      k'.state c = .zombie := by
  unfold taskKill
  split
  · exact .inl ⟨k, _, rfl, ht, h⟩
  · rename_i i _
    rw [h.idleTask, ht]
    split_ifs with h1 h2 h3
    · exact .inl ⟨k, _, rfl, ht, h⟩
    · exact .inl ⟨k, _, rfl, ht, h⟩
    · right
      rw [Option.some.injEq] at h1 h3
      subst h3
      have ht' : (k.setExitStatus c status).tp = some c := ht
      have hk : TableInv L (k.setExitStatus c status) (some c) none := h.modify fun _ => rfl
      obtain ⟨k', n, he, hs, -, hz⟩ := threadExit_inv ht' hk (Ne.symm h1)
      refine ⟨k', n, ?_, hs, hz⟩
      rw [he]
      rfl
    · left
      rw [Option.some.injEq] at h1 h3
      rw [not_or] at h2
      have hi : isRunnable k i := by
        unfold isRunnable
        cases hs : k.state i
        · exact absurd hs h2.1
        · exact .inl rfl
        · exact .inr rfl
        · exact absurd hs h2.2
      have hcur : ∀ j, (j ≠ i ∧ k.state j = .running) ↔ some c = some j := by
        intro j
        rw [h.running, Option.some.injEq]
        refine ⟨fun hj => hj.2, fun hj => ⟨?_, hj⟩⟩
        rintro rfl
        exact h3 hj
      obtain ⟨k1, hk1, hq, hz⟩ := h.retire hi (Ne.symm h1) hcur
      have hd := hz (fun t => { t with exitStatus := status, state := .zombie }) (fun _ => rfl)
        fun _ => rfl
      refine ⟨(k1.setExitStatus i status).setState i .zombie, 0, by rw [hk1]; rfl, hq.tp.trans ht, ?_⟩
      rwa [Kernel.setExitStatus, Kernel.setState, Kernel.modify_modify]

/-- **`switch_to`** of a suspended task. -/
theorem switchTo_inv {n : Slot} (act : Act) (h : Switching L k c n)
    (ha : act ≠ .dead ∨ k.state c ≠ .runnable) :
    ∃ k' a, switchTo L k c n c act = some (k', n, a) ∧ k'.tp = some n ∧
      TableInv L k' (some n) none ∧ a ≠ .dead := by
  set k1 := (k.setContext c (.saved c act)).setTp (some n) with hk1
  have hctx : (k1.tasks n).context = (k.tasks n).context := by
    rw [hk1, Kernel.setTp_tasks, k.setContext_of_ne c _ h.ne]
  have hstate : k1.state = k.state :=
    funext (k.setContext_proj c TaskStruct.state _ fun _ => rfl)
  have hnext : k1.next = k.next := funext (k.setContext_proj c TaskStruct.next _ fun _ => rfl)
  have hpid : ∀ j, (k1.tasks j).pid = (k.tasks j).pid :=
    k.setContext_proj c TaskStruct.pid _ fun _ => rfl
  have htail : k1.runQueueTail = k.runQueueTail := rfl
  have hnp : k1.nextPid = k.nextPid := rfl
  have htab : TableInv L k1 (some n) none := by
    refine ⟨?_, h.table.idleTask, ?_, ?_, h.table.nextPid, ?_, ?_, fun j hj _ => ?_⟩
    · simpa only [htail, hnext, isRunnable, hstate] using h.table.queue
    · simpa only [isRunnable, hstate] using h.table.idle
    · simpa only [hstate] using h.table.running
    · simpa only [hstate, hpid, hnp] using h.table.pid_lt
    · simpa only [hstate, hpid] using h.table.pid_inj
    · rw [hstate] at hj
      rw [hk1, Kernel.setTp_tasks]
      rcases eq_or_ne j c with rfl | hjc
      · rw [k.setContext_same]
        exact ⟨rfl, ha.resolve_right fun hr => hr hj⟩
      · rw [k.setContext_of_ne c _ hjc]
        exact h.table.context j hj (by simpa using hjc)
  have hsus := h.context
  unfold switchTo
  simp only [← hk1, hctx]
  cases hc : (k.tasks n).context with
  | clear =>
    rw [hc] at hsus
    exact hsus.elim
  | start ra sp =>
    rw [hc] at hsus
    have hra : ra = L.threadTrampoline := hsus
    exact ⟨k1, .fresh, by simp only [if_pos hra], rfl, htab, by simp⟩
  | saved owner a =>
    rw [hc] at hsus
    obtain ⟨ho, had⟩ := hsus
    exact ⟨k1, a, by rw [ho], rfl, htab, had⟩

end Table

/-! ### The start -/

/-- **`thread_init`** sets the invariant up. -/
theorem threadInit_inv (L : Layout) (m : Mem) : SchedInv L (threadInit L (bootKernel m)) := by
  obtain ⟨k, hk, htail, hstate, hidle, hpid, hnp⟩ : ∃ k : Kernel,
      threadInit L (bootKernel m) = (runqAdd k 0).setTp (some 0) ∧ k.runQueueTail = none ∧
      (∀ i, k.state i = if i = 0 then .running else .unused) ∧ k.idleTask = some 0 ∧
      (k.tasks 0).pid = 0 ∧ k.nextPid = 1 := by
    refine ⟨_, rfl, rfl, fun i => ?_, rfl, by simp, rfl⟩
    rw [Kernel.state_modify, Function.update_apply]
    rfl
  obtain ⟨ht, hring⟩ := runqAdd_empty 0 htail
  have hq := runqAdd_queueOnly k 0
  have hs : ∀ i, (runqAdd k 0).state i = if i = 0 then .running else .unused := by
    rw [hq.state]
    exact hstate
  have hz : ∀ i, (runqAdd k 0).state i ≠ .unused → i = 0 := by
    intro i hi
    rw [hs] at hi
    split_ifs at hi with h0
    · exact h0
    · exact absurd rfl hi
  rw [hk]
  refine ⟨0, rfl, ⟨0, [0], ht, hring, fun i => ?_⟩, hq.idleTask.trans hidle, ?_, fun i => ?_, ?_,
    fun i hi => ?_, fun i j hi hj _ => ?_, fun i hi _ => ?_⟩
  · rw [isRunnable, Kernel.setTp_state, hs]
    split_ifs with h0 <;> simp [h0]
  · rw [isRunnable, Kernel.setTp_state, hs]
    simp
  · rw [Kernel.setTp_state, hs]
    split_ifs with h0
    · simp [h0]
    · simpa using Ne.symm h0
  · change (runqAdd k 0).nextPid ≤ intMax
    rw [hq.nextPid, hnp]
    decide
  · change ((runqAdd k 0).tasks i).pid < (runqAdd k 0).nextPid
    rw [hz i hi, hq.proj TaskStruct.pid fun _ => rfl, hpid, hq.nextPid, hnp]
    decide
  · rw [hz i hi, hz j hj]
  · rw [Kernel.setTp_state, hs] at hi
    split_ifs at hi

theorem taskFindByPid_eq {k : Kernel} {cur out : Option Slot} {i : Slot} {pid : ℤ}
    (hi : TableInv L k cur out) (hu : k.state i ≠ .unused) (hp : (k.tasks i).pid = pid) :
    taskFindByPid k pid = some i := by
  rcases hf : taskFindByPid k pid with _ | j
  · have := List.find?_eq_none.1 hf i (List.mem_finRange i)
    simp [hu, hp] at this
  · have hj := List.find?_some hf
    simp only [ne_eq, decide_eq_true_eq] at hj
    rw [hi.pid_inj j i hj.1 hu (hj.2.trans hp.symm)]

/-- **A task that kills itself** dies, unless it is the idle task. -/
theorem taskKill_self {L : Layout} {k : Kernel} {c : Slot} (ht : k.tp = some c)
    (h : TableInv L k (some c) none) (h0 : c ≠ 0) (status : BitVec 32) :
    ∃ k' n, taskKill k (k.tasks c).pid status = some (k', .switch c n, 0) ∧ Switching L k' c n ∧
      k'.state c = .zombie := by
  have hlive : k.state c ≠ .unused ∧ k.state c ≠ .zombie := by
    rcases h.isRunnable_cur with hr | hr <;> rw [hr] <;> decide
  have hk : TableInv L (k.setExitStatus c status) (some c) none := h.modify fun _ => rfl
  obtain ⟨k', n, he, hs, -, hz⟩ := threadExit_inv (k := k.setExitStatus c status) ht hk h0
  refine ⟨k', n, ?_, hs, hz⟩
  unfold taskKill
  rw [taskFindByPid_eq h hlive.1 rfl]
  dsimp only
  rw [h.idleTask, if_neg fun hx => h0 (Option.some.inj hx).symm, if_neg (not_or.2 hlive), if_pos ht, he]
  rfl

end OscKernel.Thread.Inv
