import OscKernel.Proc.Images

/-! # What holds whatever task user code puts into `tp`

`SoundTable k`: the run queue is one cycle of exactly the runnable tasks, the other tasks have no link,
and a slot that is not in use is blank. The functions of the kernel keep it with any task in `tp`: from a
slot that is not in use there is no way on to another task, since it has neither a link nor a parent.

* `sound_inv`: every function of the kernel keeps it.
* `sound_of_run`: it holds in every run.
* `recycled_of_run`: what follows for a slot that is used again.
* `not_recycled_read`: a buffer of `uart_read` in the task table. -/

namespace OscKernel.Proc.Sound

open OscKernel.Lib.Memory OscKernel.Lib.Cyclic OscKernel.Lib.Transition
open OscKernel.Thread.Task OscKernel.Thread.RunQueue OscKernel.Thread.Sched OscKernel.Thread.Inv
open OscKernel.Thread.Effect OscKernel.User.Signal OscKernel.User.Process
open OscKernel.Proc.Ops OscKernel.Proc.System OscKernel.Proc.Step OscKernel.Proc.PerTask
open OscKernel.Proc.Buffer
open OscKernel.Proc.Delivery (step)

/-- A slot as `thread_init` and `task_reap` leave it. -/
def blankTask : TaskStruct := { zeroTask with pid := -1 }

theorem reaped_eq (t : TaskStruct) : reaped t = blankTask := rfl

/-- What holds between two functions of the kernel. -/
structure SoundTable (k : Kernel) : Prop where
  queue : Queued k
  off : ∀ i, ¬ isRunnable k i → k.next i = none
  idleTask : k.idleTask = some 0
  idle : isRunnable k 0
  nextPid : 0 < k.nextPid
  blank : ∀ i, k.state i = .unused → k.tasks i = blankTask

section Kernel
variable {L : Layout} {k k' k1 : Kernel} {i c n : Slot} {flow : Flow} {f : TaskStruct → TaskStruct}

/-! ### Changes of one slot -/

theorem SoundTable.modify (h : SoundTable k) (hu : k.state i ≠ .unused)
    (hs : (f (k.tasks i)).state = (k.tasks i).state) (hn : (f (k.tasks i)).next = (k.tasks i).next) :
    SoundTable (k.modify i f) := by
  have hstate : (k.modify i f).state = k.state :=
    funext (k.modify_proj i f TaskStruct.state hs)
  have hnext : (k.modify i f).next = k.next := funext (k.modify_proj i f TaskStruct.next hn)
  refine ⟨h.queue.congr (fun j _ => congrFun hnext j) (fun j => ?_) rfl, fun j hj => ?_, h.idleTask, ?_,
    h.nextPid, fun j hj => ?_⟩
  · rw [isRunnable, hstate, isRunnable]
  · rw [isRunnable, hstate] at hj
    rw [hnext]
    exact h.off j hj
  · rw [isRunnable, hstate]
    exact h.idle
  · rw [hstate] at hj
    have hji : j ≠ i := fun he => hu (he ▸ hj)
    rw [k.modify_of_ne i f hji]
    exact h.blank j hj

theorem SoundTable.reap (h : SoundTable k) (hz : k.state i = .zombie) :
    SoundTable (k.modify i reaped) := by
  have hi : ¬ isRunnable k i := by simp [isRunnable, hz]
  have hrun : ∀ j, isRunnable (k.modify i reaped) j ↔ isRunnable k j := fun j => by
    rcases eq_or_ne j i with rfl | hj
    · refine iff_of_false ?_ hi
      rw [isRunnable, k.state_modify, Function.update_self]
      simp [reaped, TaskStruct.signalTaskInit]
    · rw [isRunnable, Kernel.state, k.modify_of_ne i _ hj]
      rfl
  refine ⟨h.queue.congr (fun j hj => ?_) hrun rfl, fun j hj => ?_, h.idleTask, (hrun 0).2 h.idle,
    h.nextPid, fun j hj => ?_⟩
  · have hji : j ≠ i := fun he => hi (he ▸ hj)
    rw [k.next_modify, Function.update_of_ne hji]
  · rcases eq_or_ne j i with rfl | hji
    · rw [k.next_modify, Function.update_self]
      rfl
    · rw [k.next_modify, Function.update_of_ne hji]
      exact h.off j fun hr => hj ((hrun j).2 hr)
  · rcases eq_or_ne j i with rfl | hji
    · rw [k.modify_same]
      rfl
    · rw [k.modify_of_ne i _ hji]
      rw [Kernel.state, k.modify_of_ne i _ hji] at hj
      exact h.blank j hj

theorem SoundTable.setState (h : SoundTable k) (hi : isRunnable k i) {s : TaskState}
    (hs : s = .runnable ∨ s = .running) : SoundTable (k.setState i s) := by
  have hrun : ∀ j, isRunnable (k.setState i s) j ↔ isRunnable k j := fun j => by
    rw [isRunnable, k.state_setState]
    split_ifs with hj
    · exact iff_of_true hs (hj ▸ hi)
    · rfl
  have hnext : (k.setState i s).next = k.next :=
    funext (k.setState_proj i TaskStruct.next s fun _ => rfl)
  refine ⟨h.queue.congr (fun j _ => congrFun hnext j) hrun rfl, fun j hj => ?_, h.idleTask,
    (hrun 0).2 h.idle, h.nextPid, fun j hj => ?_⟩
  · rw [hnext]
    exact h.off j fun hr => hj ((hrun j).2 hr)
  · have hji : j ≠ i := by
      rintro rfl
      rw [k.state_setState, if_pos rfl] at hj
      rcases hs with rfl | rfl <;> cases hj
    rw [Kernel.setState, k.modify_of_ne i _ hji]
    rw [k.state_setState, if_neg hji] at hj
    exact h.blank j hj

theorem SoundTable.create (h : SoundTable k) (hi : k.state i = .unused)
    (hs : (f (k.tasks i)).state = .runnable) {p : ℤ} (hp : 0 < p) :
    SoundTable (runqAdd { k.modify i f with nextPid := p } i) := by
  set k1 : Kernel := { k.modify i f with nextPid := p } with hk1
  have hir : ¬ isRunnable k i := by simp [isRunnable, hi]
  have hother : ∀ j, j ≠ i → k1.tasks j = k.tasks j := fun j hj => k.modify_of_ne i f hj
  have hsame : k1.state i = .runnable := by
    change (k.modify i f).state i = _
    rw [k.state_modify, Function.update_self, hs]
  have hrun : ∀ j, isRunnable k1 j ↔ isRunnable k j ∨ j = i := fun j => by
    rcases eq_or_ne j i with rfl | hj
    · exact iff_of_true (.inl hsame) (.inr rfl)
    · rw [isRunnable, Kernel.state, hother j hj]
      simp [hj, isRunnable, Kernel.state]
  have hq := runqAdd_queueOnly k1 i
  have hstate : (runqAdd k1 i).state = k1.state := hq.state
  obtain ⟨tail, xs, htail, hring, hm⟩ := h.queue
  have hnext : ∀ j, j ≠ i → ¬ isRunnable k j → (runqAdd k1 i).tasks j = k.tasks j := fun j hj hn => by
    have hjt : j ≠ tail := fun he => hn ((hm j).1 (he ▸ hring.tail_mem))
    unfold runqAdd
    rw [show k1.runQueueTail = some tail from htail]
    dsimp only
    rw [Kernel.setTail_tasks, Kernel.setNext, Kernel.setNext, Kernel.modify_of_ne _ _ _ hjt,
      Kernel.modify_of_ne _ _ _ hj, hother j hj]
  refine ⟨h.queue.add hir (fun j hj => ?_) rfl hrun, fun j hj => ?_, hq.idleTask.trans h.idleTask, ?_,
    ?_, fun j hj => ?_⟩
  · have hji : j ≠ i := fun he => hir (he ▸ hj)
    rw [Kernel.next, hother j hji]
    rfl
  · rw [isRunnable, hstate] at hj
    have hj : ¬ isRunnable k1 j := hj
    rw [hrun, not_or] at hj
    rw [Kernel.next, hnext j hj.2 hj.1]
    exact h.off j hj.1
  · rw [isRunnable, hstate]
    exact (hrun 0).2 (.inl h.idle)
  · rw [hq.nextPid]
    exact hp
  · rw [hstate] at hj
    have hji : j ≠ i := by
      rintro rfl
      rw [hsame] at hj
      cases hj
    have hju : k.state j = .unused := by
      rw [Kernel.state, hother j hji] at hj
      exact hj
    rw [hnext j hji (by simp [isRunnable, hju])]
    exact h.blank j hju

/-- **A task dies**: it leaves the queue, if it is in there. -/
theorem SoundTable.retire (h : SoundTable k) (hu : k.state i ≠ .unused) (h0 : i ≠ 0)
    (hk : runqRemove k i = some k1) (hs : ∀ t, (f t).state = .zombie)
    (hn : ∀ t, (f t).next = t.next) : SoundTable (k1.modify i f) := by
  rcases h.queue.remove_tasks (h.off i) hk with ⟨rfl, hr⟩ | ⟨hr, hnone, hother⟩
  · refine h.modify hu ?_ (hn _)
    rw [hs]
    cases hst : k1.state i with
    | unused => exact absurd hst hu
    | runnable => exact absurd (.inl hst) hr
    | running => exact absurd (.inr hst) hr
    | zombie => exact hst.symm
  · obtain ⟨k2, hk2, hq, hqueue⟩ := h.queue.remove hr h.idle (Ne.symm h0)
    obtain rfl := Option.some.inj (hk.symm.trans hk2)
    have hstate : ∀ j, (k1.modify i f).state j = if j = i then .zombie else k.state j := fun j => by
      rw [k1.state_modify, Function.update_apply, hs, hq.state]
    have hrun : ∀ j, isRunnable (k1.modify i f) j ↔ j ≠ i ∧ isRunnable k j := fun j => by
      unfold isRunnable
      rw [hstate]
      split_ifs with hj <;> simp [hj]
    refine ⟨hqueue _ (fun z hz => ?_) rfl hrun, fun j hj => ?_, hq.idleTask.trans h.idleTask,
      (hrun 0).2 ⟨Ne.symm h0, h.idle⟩, ?_, fun j hj => ?_⟩
    · rw [k1.next_modify, Function.update_of_ne hz]
    · rcases eq_or_ne j i with rfl | hji
      · rw [k1.next_modify, Function.update_self, hn]
        exact hnone
      · have hjr : ¬ isRunnable k j := fun hr => hj ((hrun j).2 ⟨hji, hr⟩)
        rw [Kernel.next, k1.modify_of_ne i f hji, hother j hji hjr]
        exact h.off j hjr
    · change 0 < k1.nextPid
      rw [hq.nextPid]
      exact h.nextPid
    · rw [hstate] at hj
      split_ifs at hj with hji
      rw [k1.modify_of_ne i f hji, hother j hji (by simp [isRunnable, hj])]
      exact h.blank j hj

/-! ### The functions of `thread.c` -/

theorem taskReap_sound (h : SoundTable k) (r : Option Slot) : SoundTable (taskReap k r) := by
  unfold taskReap
  split
  · exact h
  · split_ifs with h1 h2
    · exact h
    · exact h
    · exact h.reap (not_not.1 h2)

theorem killZombies_sound (h : SoundTable k) : SoundTable (killZombies k) := by
  unfold killZombies
  generalize (List.finRange 16).drop 1 = l
  induction l generalizing k with
  | nil => exact h
  | cons i l ih =>
    rw [List.foldl_cons]
    refine ih ?_
    unfold killZombie
    split_ifs
    · exact h
    · exact h
    · exact taskReap_sound h _

/-- **`thread_create`** returns the slot of a runnable task. -/
theorem threadCreate_sound {fn : Word} {r : Option Slot} (h : SoundTable k)
    (hk : threadCreate L fn k = some (k', r)) :
    SoundTable k' ∧ ∀ i, r = some i → k'.state i = .runnable := by
  have hz := killZombies_sound h
  rcases threadCreate_cases hk with ⟨rfl, rfl, -⟩ | ⟨i, rfl, hi, -, rfl⟩
  · exact ⟨hz, fun i hi => by cases hi⟩
  · have hp := hz.nextPid
    refine ⟨hz.create hi (newThread_state L fn _ i _) (by omega), fun j hj => ?_⟩
    obtain rfl := Option.some.inj hj
    rw [(runqAdd_queueOnly _ i).state]
    change ((killZombies k).modify i _).state i = _
    rw [Kernel.state_modify, Function.update_self, newThread_state]

theorem threadCreate_new {fn : Word} (h : SoundTable k) (hk : threadCreate L fn k = some (k', some i)) :
    ¬ isRunnable k i ∧ (k'.tasks i).core = (newThread L fn k.nextPid i blankTask).core := by
  have hz := killZombies_sound h
  have hpid := (killZombies_frame k).2.1
  rcases threadCreate_cases hk with ⟨hi, -⟩ | ⟨j, hj, hu, -, rfl⟩
  · cases hi
  · obtain rfl := Option.some.inj hj
    refine ⟨fun hr => ?_, ?_⟩
    · rw [Kernel.state, Images.killZombies_live hr] at hu
      exact (isRunnable_iff.1 hr).1 hu
    · rw [(runqAdd_queueOnly _ i).core, hpid]
      change (((killZombies k).modify i _).tasks i).core = _
      rw [Kernel.modify_same, hz.blank i hu]

theorem threadCreate_full {fn : Word} (hk : threadCreate L fn k = some (k', none)) :
    k' = killZombies k := by
  rcases threadCreate_cases hk with ⟨-, hk', -⟩ | ⟨i, hi, -⟩
  · exact hk'
  · cases hi

theorem pickLoop_runnable : ∀ {m : ℕ} {o : Option Slot}, pickLoop k c m o = some n →
    n = c ∨ isRunnable k n
  | m + 1, some j, h => by
    unfold pickLoop at h
    split_ifs at h with hj hr
    · exact .inl (Option.some.inj h).symm
    · exact .inr (Option.some.inj h ▸ hr)
    · exact pickLoop_runnable h

/-- **`pick_next`** goes on from a runnable task only, and finds one. -/
theorem pickNext_sound (h : SoundTable k) (hp : pickNext k c = some n) :
    isRunnable k c ∧ isRunnable k n := by
  have hc : isRunnable k c := by
    by_contra hc
    rw [pickNext, h.off c hc] at hp
    cases hp
  refine ⟨hc, ?_⟩
  rcases pickLoop_runnable hp with rfl | hn
  · exact hc
  · exact hn

theorem exitTarget_sound (h : SoundTable k) (ht : exitTarget k c = some n) :
    k.state c ≠ .unused ∧ isRunnable k n := by
  unfold exitTarget at ht
  have hpick : pickNext k c = some n → k.state c ≠ .unused ∧ isRunnable k n := fun hp =>
    ⟨(isRunnable_iff.1 (pickNext_sound h hp).1).1, (pickNext_sound h hp).2⟩
  split at ht
  · rename_i p hp
    split_ifs at ht with hl
    · obtain rfl := Option.some.inj ht
      refine ⟨fun hu => ?_, isRunnable_iff.2 hl⟩
      rw [h.blank c hu] at hp
      cases hp
    · exact hpick ht
  · exact hpick ht

theorem SoundTable.setContext (h : SoundTable k) (hu : k.state i ≠ .unused) (x : CpuContext) :
    SoundTable (k.setContext i x) :=
  h.modify hu rfl rfl

theorem SoundTable.setExitStatus (h : SoundTable k) (hu : k.state i ≠ .unused) (v : BitVec 32) :
    SoundTable (k.setExitStatus i v) :=
  h.modify hu rfl rfl

theorem schedule_sound (h : SoundTable k) (hs : schedule k = some (k', flow)) :
    AtFlow SoundTable k' flow := by
  unfold schedule at hs
  split at hs
  · simp only [Option.some.injEq, Prod.mk.injEq] at hs
    obtain ⟨rfl, rfl⟩ := hs
    exact h
  · simp only [Option.some.injEq, Prod.mk.injEq] at hs
    obtain ⟨rfl, rfl⟩ := hs
    exact h
  · rename_i c _ _ _
    obtain ⟨n, hp, hs⟩ := Option.bind_eq_some_iff.1 hs
    obtain ⟨hc, hn⟩ := pickNext_sound h hp
    have hpark : ∀ {k1 : Kernel}, k1 = k ∨ k1 = k.setState c .runnable →
        SoundTable k1 ∧ isRunnable k1 n ∧ k1.state c ≠ .unused := by
      rintro k1 (rfl | rfl)
      · exact ⟨h, hn, (isRunnable_iff.1 hc).1⟩
      · refine ⟨h.setState hc (.inl rfl), ?_, ?_⟩
        · rw [isRunnable, k.state_setState]
          split_ifs
          · exact .inl rfl
          · exact hn
        · rw [k.state_setState, if_pos rfl]
          decide
    have hswitch : ∀ {k1 : Kernel}, k1 = k ∨ k1 = k.setState c .runnable →
        AtFlow SoundTable (k1.setState n .running) (.switch c n) := fun hk1 x => by
      obtain ⟨h1, hn1, hc1⟩ := hpark hk1
      refine (h1.setState hn1 (.inr rfl)).setContext ?_ x
      rw [Kernel.state_setState]
      split_ifs
      · decide
      · exact hc1
    dsimp only at hs
    split_ifs at hs <;> rw [Option.some.injEq, Prod.mk.injEq] at hs <;> obtain ⟨rfl, rfl⟩ := hs
    · exact h
    · exact hswitch (.inr rfl)
    · exact hswitch (.inl rfl)

/-- **`thread_exit`** of a task other than the idle task. -/
theorem threadExit_sound (h : SoundTable k) (h0 : k.tp ≠ k.idleTask)
    (hs : threadExit k = some (k', flow)) : AtFlow SoundTable k' flow := by
  unfold threadExit at hs
  obtain ⟨c, htp, hs⟩ := Option.bind_eq_some_iff.1 hs
  obtain ⟨t, ht, hs⟩ := Option.bind_eq_some_iff.1 hs
  obtain ⟨k1, hk1, hs⟩ := Option.bind_eq_some_iff.1 hs
  obtain ⟨hu, htr⟩ := exitTarget_sound h ht
  have hc0 : c ≠ 0 := fun he => h0 (by rw [htp, h.idleTask, he])
  have hq := runqRemove_queueOnly hk1
  have h1 : SoundTable (k1.setState c .zombie) := h.retire hu hc0 hk1 (fun _ => rfl) fun _ => rfl
  have hidle : (k1.setState c .zombie).idleTask = some 0 := h1.idleTask
  -- the next task is another one, and it is in the queue
  have hswitch : ∀ {n : Slot}, n ≠ c → isRunnable k n →
      AtFlow SoundTable ((k1.setState c .zombie).setState n .running) (.switch c n) := by
    intro n hnc hnr x
    have hn1 : isRunnable (k1.setState c .zombie) n := by
      rw [isRunnable, Kernel.state_setState, if_neg hnc, hq.state]
      exact hnr
    refine (h1.setState hn1 (.inr rfl)).setContext ?_ x
    rw [Kernel.state_setState, if_neg (Ne.symm hnc), Kernel.state_setState, if_pos rfl]
    decide
  dsimp only at hs
  rw [hidle] at hs
  split_ifs at hs with htc <;>
    simp only [Option.bind_eq_bind, Option.bind_some, Option.some.injEq, Prod.mk.injEq] at hs <;>
    obtain ⟨rfl, rfl⟩ := hs
  · exact hswitch (Ne.symm hc0) h.idle
  · exact hswitch htc htr

theorem exitWith_sound (h : SoundTable k) (htp : k.tp = some c) (h0 : k.tp ≠ k.idleTask) {v : BitVec 32}
    (hs : threadExit (k.setExitStatus c v) = some (k', flow)) : AtFlow SoundTable k' flow := by
  by_cases hu : k.state c = .unused
  · -- no task is found to switch to
    exfalso
    unfold threadExit at hs
    obtain ⟨c', hc', hs⟩ := Option.bind_eq_some_iff.1 hs
    obtain rfl := Option.some.inj (htp.symm.trans hc')
    obtain ⟨t, ht, -⟩ := Option.bind_eq_some_iff.1 hs
    have hparent : ((k.setExitStatus c v).tasks c).parent = none := by
      rw [Kernel.setExitStatus, k.modify_same, h.blank c hu]
      rfl
    have hnext : (k.setExitStatus c v).next c = none := by
      rw [Kernel.setExitStatus, k.next_modify, Function.update_self, h.blank c hu]
      rfl
    rw [exitTarget, hparent] at ht
    dsimp only at ht
    rw [pickNext, hnext] at ht
    cases ht
  · exact threadExit_sound (h.setExitStatus hu v) h0 hs

theorem taskKill_sound {pid r : ℤ} {status : BitVec 32} (h : SoundTable k)
    (hs : taskKill k pid status = some (k', flow, r)) : AtFlow SoundTable k' flow := by
  have hret : ∀ {v : ℤ}, some (k, Flow.ret, v) = some (k', flow, r) → AtFlow SoundTable k' flow := by
    intro v he
    rw [Option.some.injEq, Prod.mk.injEq, Prod.mk.injEq] at he
    obtain ⟨rfl, rfl, -⟩ := he
    exact h
  unfold taskKill at hs
  split at hs
  · exact hret hs
  · rename_i i _
    split_ifs at hs with h1 h2 h3
    · exact hret hs
    · exact hret hs
    · obtain ⟨⟨k1, f1⟩, he, hs⟩ := Option.bind_eq_some_iff.1 hs
      rw [Option.some.injEq, Prod.mk.injEq, Prod.mk.injEq] at hs
      obtain ⟨rfl, rfl, -⟩ := hs
      exact exitWith_sound h h3 (fun he => h1 (he.symm.trans h3)) he
    · obtain ⟨k1, hk1, hs⟩ := Option.bind_eq_some_iff.1 hs
      rw [Option.some.injEq, Prod.mk.injEq, Prod.mk.injEq] at hs
      obtain ⟨rfl, rfl, -⟩ := hs
      have hi0 : i ≠ 0 := fun he => h1 (he ▸ h.idleTask)
      have hz := h.retire (f := fun t => { t with exitStatus := status, state := .zombie })
        (not_or.1 h2).1 hi0 hk1 (fun _ => rfl) fun _ => rfl
      rw [Kernel.setExitStatus, Kernel.setState, Kernel.modify_modify]
      exact hz

/-! ### User processes and signals -/

theorem SoundTable.setMem (h : SoundTable k) (m : Mem) : SoundTable { k with mem := m } :=
  ⟨h.queue, h.off, h.idleTask, h.idle, h.nextPid, h.blank⟩

theorem SoundTable.adopt (h : SoundTable k) (hi : k.state i = .runnable)
    (hs : ∀ t, (f t).state = t.state) (hn : ∀ t, (f t).next = t.next) : SoundTable (k.modify i f) :=
  h.modify (by rw [hi]; decide) (hs _) (hn _)

theorem userProcessCreate_sound {entry sstatus : Word} {r : Option Slot} (h : SoundTable k)
    (hk : userProcessCreate L entry sstatus k = some (k', r)) : SoundTable k' := by
  rcases userProcessCreate_cases hk with ⟨-, hc⟩ | ⟨i, k1, -, hc, rfl⟩
  · exact (threadCreate_sound h hc).1
  · obtain ⟨h1, hi⟩ := threadCreate_sound h hc
    have h2 : SoundTable (k1.modify i (newProcess L i k1.tp entry sstatus)) :=
      h1.adopt (hi i rfl) (fun _ => rfl) fun _ => rfl
    exact h2.setMem _

theorem userProcessCreateFromFile_sound {file : Option (List Byte)} {sstatus : Word}
    {r : Option Slot} (h : SoundTable k)
    (hk : userProcessCreateFromFile L file sstatus k = some (k', r)) : SoundTable k' := by
  rcases userProcessCreateFromFile_cases hk with ⟨-, m, -, rfl⟩ | ⟨m, entry, -, hk⟩
  · exact h.setMem _
  · exact userProcessCreate_sound (h.setMem _) hk

theorem userFork_sound {tf : TrapFrame} {v : ℤ} (h : SoundTable k)
    (hk : userFork L tf k = some (k', v)) : SoundTable k' := by
  rcases userFork_cases hk with ⟨rfl, -⟩ | ⟨p, -, -, ⟨-, hc⟩ | ⟨i, k1, hc, -, rfl⟩⟩
  · exact h
  · exact (threadCreate_sound h hc).1
  · obtain ⟨h1, hi⟩ := threadCreate_sound h hc
    have h2 : SoundTable (k1.modify i (forkChild L i p (k1.tasks p) tf)) :=
      h1.adopt (hi i rfl) (fun _ => rfl) fun _ => rfl
    exact h2.setMem _

theorem SoundTable.used (h : SoundTable k) (hu : (k.tasks i).isUser ≠ false) : k.state i ≠ .unused := by
  intro hs
  rw [h.blank i hs] at hu
  exact hu rfl

theorem userExecCurrent_sound {file : Option (List Byte)} {sstatus : Word} {tf : TrapFrame}
    (h : SoundTable k) : SoundTable (userExecCurrent L file sstatus k tf).1 := by
  unfold userExecCurrent
  split
  · exact h
  · rename_i i _
    split_ifs with hu
    · exact h
    · split
      · exact h.setMem _
      · dsimp only
        exact (h.setMem _).modify (h.used hu) rfl rfl

theorem sysSignal_sound {signum : ℤ} {handler : Word} (h : SoundTable k) :
    SoundTable (sysSignal k signum handler).1 := by
  unfold sysSignal
  split
  · exact h
  · split_ifs with hu
    · exact h
    · dsimp only
      exact h.modify (h.used hu) rfl rfl
    · exact h

theorem sysSigreturn_sound {tf : TrapFrame} (h : SoundTable k) : SoundTable (sysSigreturn k tf).1 := by
  unfold sysSigreturn
  split
  · exact h
  · split_ifs with hu
    · exact h
    · exact h
    · exact h.modify (h.used hu) rfl rfl

theorem sysKill_sound {pid signum r : ℤ} (h : SoundTable k)
    (hs : sysKill k pid signum = some (k', flow, r)) : AtFlow SoundTable k' flow := by
  rcases sysKill_outcome hs with
    ⟨rfl, rfl, -⟩ | ⟨i, -, -, hu, -, ⟨-, hk⟩ | ⟨-, rfl, -, rfl⟩⟩
  · exact h
  · exact taskKill_sound h hk
  · exact h.modify (h.used hu) rfl rfl

/-- **`signal_try_deliver`**. -/
theorem signalTryDeliver_sound {tf tf' : TrapFrame} (h : SoundTable k)
    (hs : signalTryDeliver L k tf = some (k', flow, tf')) : AtFlow SoundTable k' flow := by
  rcases signalTryDeliver_outcome hs with
    ⟨rfl, rfl, -⟩ | ⟨i, signum, -, hu, -, -, ⟨-, -, v, hk⟩ | ⟨-, rfl, rfl, -⟩⟩
  · exact h
  · exact taskKill_sound h hk
  · exact h.modify (h.used hu) rfl rfl

theorem ofFlow_sound {tf : TrapFrame} {v : ℤ} {out : Outcome} (h : AtFlow SoundTable k1 flow)
    (ho : Outcome.ofFlow tf (k1, flow, v) = (k', out)) : AtOutcome SoundTable k' out := by
  cases flow <;>
    · rw [Outcome.ofFlow, Prod.mk.injEq] at ho
      obtain ⟨rfl, rfl⟩ := ho
      exact h

theorem sysExit_sound {tf : TrapFrame} {status : BitVec 32} {out : Outcome} (h : SoundTable k)
    (hs : sysExit k tf status = some (k', out)) : AtOutcome SoundTable k' out := by
  obtain ⟨i, htp, ⟨h0, rfl, rfl⟩ | ⟨h0, k1, flow, he, hf⟩⟩ := sysExit_outcome hs
  · rw [htp, h.idleTask, Option.some.injEq] at h0
    exact h.setExitStatus (h0 ▸ (isRunnable_iff.1 h.idle).1) status
  · exact ofFlow_sound (exitWith_sound h htp h0 he) hf

theorem syscallHandler_sound {file : Option (List Byte)} {sstatus : Word} {tf : TrapFrame}
    {out : Outcome} (h : SoundTable k) (hs : syscallHandler L file sstatus k tf = some (k', out)) :
    AtOutcome SoundTable k' out := by
  have hret : ∀ {k1 : Kernel} {tf' v}, SoundTable k1 → some (k1, Outcome.ret tf' v) = some (k', out) →
      AtOutcome SoundTable k' out := by
    intro k1 tf' v h1 he
    rw [Option.some.injEq, Prod.mk.injEq] at he
    obtain ⟨rfl, rfl⟩ := he
    exact h1
  have hloop : ∀ {act}, some (k, Outcome.loop act) = some (k', out) → AtOutcome SoundTable k' out := by
    intro act he
    rw [Option.some.injEq, Prod.mk.injEq] at he
    obtain ⟨rfl, rfl⟩ := he
    exact h
  unfold syscallHandler at hs
  dsimp only at hs
  split at hs
  · exact hret h hs
  · obtain ⟨i, -, h2⟩ := Option.map_eq_some_iff.1 hs
    exact hret h (congrArg some h2)
  · split_ifs at hs
    · exact hret h hs
    · exact hret h hs
    · exact hloop hs
  · split_ifs at hs <;> exact hret h hs
  · exact hret (userExecCurrent_sound h) hs
  · obtain ⟨⟨k1, v⟩, h1, h2⟩ := Option.map_eq_some_iff.1 hs
    exact hret (userFork_sound h h1) (congrArg some h2)
  · split at hs
    · exact hret h hs
    · exact hloop hs
  · exact sysExit_sound h hs
  · obtain ⟨⟨k1, flow, v⟩, h1, h2⟩ := Option.map_eq_some_iff.1 hs
    exact ofFlow_sound (taskKill_sound h h1) h2
  · exact hret h hs
  · split_ifs at hs
    · exact hret h hs
    · exact hloop hs
  · exact hret (sysSignal_sound h) hs
  · exact hret (sysSigreturn_sound h) hs
  · obtain ⟨⟨k1, flow, v⟩, h1, h2⟩ := Option.map_eq_some_iff.1 hs
    exact ofFlow_sound (sysKill_sound h h1) h2

end Kernel

/-! ### All runs -/

/-- **Every function of the kernel** keeps it. -/
theorem sound_inv (L : Layout) : KernelInv L (fun _ => True) (fun _ => False) SoundTable where
  setTp _ _ h := ⟨h.queue, h.off, h.idleTask, h.idle, h.nextPid, h.blank⟩
  store _ _ _ _ h := ⟨h.queue, h.off, h.idleTask, h.idle, h.nextPid, h.blank⟩
  thread _ _ _ _ _ h hk := (threadCreate_sound h hk).1
  process _ _ _ _ _ h hk := userProcessCreate_sound h hk
  file _ _ _ _ _ h hk := userProcessCreateFromFile_sound h hk
  reap _ _ h := taskReap_sound h _
  sweep _ h := killZombies_sound h
  schedule _ _ _ h hk := schedule_sound h hk
  exit _ _ _ h h0 hk := threadExit_sound h h0 hk
  deliver _ _ _ _ _ h hk _ := signalTryDeliver_sound h hk
  syscall _ _ _ _ _ _ h hk := syscallHandler_sound h hk

theorem sound_boot (L : Layout) (m : Mem) : SoundTable (boot L m).k := by
  have hi := sysInv_boot L m
  have hblank : ∀ i, i ≠ 0 → (boot L m).k.tasks i = blankTask := fun i h0 => by
    obtain ⟨k, hk, ht, hp⟩ : ∃ k : Kernel, threadInit L (bootKernel m) = (runqAdd k 0).setTp (some 0) ∧
        k.runQueueTail = none ∧ k.tasks i = blankTask :=
      ⟨_, rfl, rfl, Kernel.modify_of_ne _ _ _ h0⟩
    change (threadInit L (bootKernel m)).tasks i = _
    rw [hk, Kernel.setTp_tasks, runqAdd, ht]
    dsimp only
    rw [Kernel.setTail_tasks, Kernel.setNext, Kernel.modify_of_ne _ _ _ h0, hp]
  refine ⟨hi.table.queue, fun i hr => ?_, hi.table.idleTask, hi.table.idle, Int.one_pos, fun i hu => ?_⟩
  · rw [Kernel.next, hblank i fun h0 => hr (h0 ▸ hi.table.idle)]
    rfl
  · exact hblank i fun h0 => (isRunnable_iff.1 hi.table.idle).1 (h0 ▸ hu)

/-- **In every run**, whatever task user code puts into `tp`. -/
theorem sound_of_run {L : Layout} {C : Sys → Event → Prop} {m : Mem} {es : List Event} {s : Sys}
    (h : Run (step L) C (boot L m) es s) : SoundTable s.k :=
  run_keeps (sound_inv L) (sound_boot L m)
    (h.mono fun _ _ _ => ⟨fun _ _ => trivial, fun _ _ _ _ _ hf => hf.elim⟩)

/-! ### Recycled slots -/

/-- Nothing is left of the task that was in the slot. -/
structure Cleared (t : TaskStruct) : Prop where
  parent : t.parent = none
  isUser : t.isUser = false
  handlers : t.signalHandlers = fun _ => 0
  pending : t.pendingSignals = 0
  handling : t.handlingSignal = false
  current : t.currentSignal = 0
  frame : t.trapframe = .zero
  saved : t.signalSavedTf = .zero

/-- A task without what a creation reads off the moment: the link in the run queue, the parent and
`sstatus`. -/
def contents (t : TaskStruct) : TaskStruct :=
  { t with next := none, parent := none, trapframe := { t.trapframe with sstatus := 0 } }

theorem contents_of_core {t t' : TaskStruct} (h : t'.core = t.core) : contents t' = contents t :=
  proj_of_core contents (fun _ => rfl) h

section Recycle
variable {L : Layout} {k k' : Kernel} {fn entry sstatus : Word} {i : Slot}

/-- **A new thread** is determined by its entry, slot and pid. -/
theorem threadCreate_contents (h : SoundTable k) (hk : threadCreate L fn k = some (k', some i)) :
    contents (k'.tasks i) = contents (newThread L fn (k'.tasks i).pid i blankTask) := by
  obtain ⟨-, hcore⟩ := threadCreate_new h hk
  have hpid : (k'.tasks i).pid = k.nextPid := proj_of_core TaskStruct.pid (fun _ => rfl) hcore
  rw [contents_of_core hcore, hpid]

theorem contents_newProcess {parent parent' : Option Slot} {sstatus' : Word} {t t' : TaskStruct}
    (h : t'.core = t.core) : contents (newProcess L i parent entry sstatus t') =
      contents (newProcess L i parent' entry sstatus' t) :=
  proj_of_core (fun t => contents (newProcess L i parent entry sstatus t)) (fun _ => rfl) h

/-- **A new process** is determined by its entry, slot and pid. -/
theorem userProcessCreate_contents (h : SoundTable k)
    (hk : userProcessCreate L entry sstatus k = some (k', some i)) :
    contents (k'.tasks i) = contents (newProcess L i none entry 0
      (newThread L L.userProcessEntry (k'.tasks i).pid i blankTask)) := by
  rcases userProcessCreate_cases hk with ⟨hi, -⟩ | ⟨j, k1, hj, hc, hk'⟩
  · cases hi
  · obtain rfl := Option.some.inj hj
    obtain ⟨-, hcore⟩ := threadCreate_new h hc
    have htask : k'.tasks i = newProcess L i k1.tp entry sstatus (k1.tasks i) := by
      rw [hk']
      exact k1.modify_same i _
    have hpid : (k'.tasks i).pid = k.nextPid := by
      rw [htask]
      exact proj_of_core TaskStruct.pid (fun _ => rfl) hcore
    rw [hpid, htask]
    exact contents_newProcess hcore

end Recycle

section Run
variable {L : Layout} {m m' : Mem} {es es' : List Event} {s s' : Sys}

/-- **Recycled slots carry nothing over**: in every state of every run a slot that is not in use is
cleared; and after any two histories the tasks that `thread_create` or `user_process_create` make with
the same entry, slot and pid are the same, apart from the link in the run queue, the parent and
`sstatus`. -/
theorem recycled_of_run (h : Run (step L) (fun _ _ => True) (boot L m) es s)
    (h' : Run (step L) (fun _ _ => True) (boot L m') es' s') :
    (∀ i, s.k.state i = .unused → Cleared (s.k.tasks i)) ∧
    (∀ fn i k k', threadCreate L fn s.k = some (k, some i) →
      threadCreate L fn s'.k = some (k', some i) → (k.tasks i).pid = (k'.tasks i).pid →
      contents (k.tasks i) = contents (k'.tasks i)) ∧
    ∀ entry sstatus sstatus' i k k', userProcessCreate L entry sstatus s.k = some (k, some i) →
      userProcessCreate L entry sstatus' s'.k = some (k', some i) →
      (k.tasks i).pid = (k'.tasks i).pid → contents (k.tasks i) = contents (k'.tasks i) := by
  have hs := sound_of_run h
  have hs' := sound_of_run h'
  refine ⟨fun i hu => ?_, fun fn i k k' hk hk' hp => ?_, fun entry st st' i k k' hk hk' hp => ?_⟩
  · rw [hs.blank i hu]
    exact ⟨rfl, rfl, rfl, rfl, rfl, rfl, rfl, rfl⟩
  · rw [threadCreate_contents hs hk, threadCreate_contents hs' hk', hp]
  · rw [userProcessCreate_contents hs hk, userProcessCreate_contents hs' hk', hp]

end Run

/-- The slot `1` is used by a kernel thread, which exits. -/
def threadHistory : List Event :=
  [.threadCreate 0x1000, .schedule, .go true, .go true, .threadExit]

/-- The slot `1` is used by a user process, which calls `exit`. -/
def processHistory : List Event :=
  [.runUserFile (some [0x13]), .go true, .go true, .go true, callOf sampleLayout 1 6 7, .go true]

theorem recycled_sample : ∃ s s' k k', Run (step sampleLayout) (fun _ _ => True)
    (boot sampleLayout fun _ => 0) threadHistory s ∧ Run (step sampleLayout) (fun _ _ => True)
    (boot sampleLayout fun _ => 0) processHistory s' ∧
      userProcessCreate sampleLayout 0x2000 0 s.k = some (k, some 1) ∧
      userProcessCreate sampleLayout 0x2000 1 s'.k = some (k', some 1) ∧
      contents (k.tasks 1) = contents (k'.tasks 1) := by
  have hex : ∀ x ∈ [(threadHistory, (0 : Word)), (processHistory, 1)],
      ((exec (step sampleLayout) (fun _ _ => true) (boot sampleLayout fun _ => 0) x.1).map fun s =>
        (userProcessCreate sampleLayout 0x2000 x.2 s.k).map fun r => (r.2, (r.1.tasks 1).pid)) =
      some (some (some 1, 2)) := by decide +kernel
  have hrun : ∀ x ∈ [(threadHistory, (0 : Word)), (processHistory, 1)], ∃ s k,
      Run (step sampleLayout) (fun _ _ => True) (boot sampleLayout fun _ => 0) x.1 s ∧
        userProcessCreate sampleLayout 0x2000 x.2 s.k = some (k, some 1) ∧ (k.tasks 1).pid = 2 := by
    intro x hx
    obtain ⟨s, hr, hv⟩ := Run.exists_of_exec (C := fun _ _ => True) (fun _ _ _ => trivial) (hex x hx)
    obtain ⟨⟨k, r⟩, hk, hv⟩ := Option.map_eq_some_iff.1 hv
    obtain ⟨rfl, hp⟩ := Prod.mk.inj hv
    exact ⟨s, k, hr, hk, hp⟩
  obtain ⟨s, k, hr, hk, hp⟩ := hrun (threadHistory, 0) (by simp)
  obtain ⟨s', k', hr', hk', hp'⟩ := hrun (processHistory, 1) (by simp)
  exact ⟨s, s', k, k', hr, hr', hk, hk',
    (recycled_of_run hr hr').2.2 _ _ _ _ _ _ hk hk' (hp.trans hp'.symm)⟩

/-! ### A buffer in the task table -/

/-- A process reads a character into the handler for the signal `1` of the slot `5`. -/
def readRun : List Event :=
  [.runUserFile (some [0x13]), .go true, .go true, .go true] ++
    readInto sampleLayout 1 5 (handlersOffset + 8) [0x41]

/-- **A slot that is not in use has a handler** after a process has read a character into it. -/
theorem not_recycled_read : ∃ s, Run (bufferSys sampleLayout) (TpKept sampleLayout)
    (boot sampleLayout fun _ => 0) readRun s ∧ s.k.state 5 = .unused ∧
      ¬ Cleared (s.k.tasks 5) := by
  have hex : ((exec (bufferSys sampleLayout) (fun s e => decide (TpKept sampleLayout s e))
      (boot sampleLayout fun _ => 0) readRun).map fun s =>
        (s.k.state 5, (s.k.tasks 5).signalHandlers 1)) = some (.unused, 0x41) := by decide +kernel
  obtain ⟨s, hr, hv⟩ := Run.exists_of_exec (C := TpKept sampleLayout)
    (fun _ _ ho => of_decide_eq_true ho) hex
  obtain ⟨hs, hh⟩ := Prod.mk.inj hv
  refine ⟨s, hr, hs, fun hc => ?_⟩
  rw [hc.handlers] at hh
  exact absurd hh (by decide)

end OscKernel.Proc.Sound
