import OscKernel.Lib.Amortized
import OscKernel.Lib.Turn
import OscKernel.User.Effect

/-! # How long a task waits for the processor

`turnsOf k t` counts the switches after which the task `t` has the processor if every task just passes
it on: its distance from the current task in the run queue. A switch to the next task of the queue takes
one off, a new task adds one at most, and the death of another task adds nothing. Only a task that ends
while its parent is alive breaks the order: the processor goes to the parent, wherever that stands.

* `switches_of_waiting`: the switches that pass a waiting task over are at most fifteen, one more for
  each task that is created, and fourteen more for each task that hands the processor to its parent. -/

namespace OscKernel.Proc.Turns

open OscKernel.Lib.Memory OscKernel.Lib.Cyclic OscKernel.Lib.Transition
open OscKernel.Thread.Task OscKernel.Thread.RunQueue OscKernel.Thread.Sched OscKernel.Thread.Inv
open OscKernel.Thread.Effect OscKernel.User.Signal OscKernel.User.Process OscKernel.Proc.Ops

/-- The run queue as it is read from the task `c` on, which comes last. -/
structure Reads (k : Kernel) (c : Slot) (ys : List Slot) : Prop where
  ring : RingList k.next c ys
  mem : ∀ i, i ∈ ys ↔ isRunnable k i

/-- The switches after which the task `t` has the processor. -/
def turnsOf (k : Kernel) (t : Slot) : ℕ :=
  match k.tp with
  | none => 0
  | some c => if isRunnable k t then turns k.next t 17 c else 0

section Reads
variable {L : Layout} {k k' : Kernel} {c n t : Slot} {cur out : Option Slot} {ys : List Slot}

theorem Reads.length_le (h : Reads k c ys) : ys.length ≤ 16 := by
  have := h.ring.nodup.length_le_card
  simpa using this

theorem exists_reads (h : TableInv L k cur out) (hc : isRunnable k c) : ∃ ys, Reads k c ys := by
  obtain ⟨tail, xs, -, hring, hm⟩ := h.queue
  obtain ⟨ys, hy, hmem⟩ := hring.exists_rotate ((hm c).2 hc)
  exact ⟨ys, hy, fun i => (hmem i).trans (hm i)⟩

theorem turnsOf_self (ht : k.tp = some t) : turnsOf k t = 0 := by
  rw [turnsOf, ht]
  dsimp only
  rw [turns_self, ite_self]

theorem turnsOf_of_not (hr : ¬ isRunnable k t) : turnsOf k t = 0 := by
  unfold turnsOf
  split
  · rfl
  · exact if_neg hr

theorem turnsOf_eq (ht : k.tp = some c) (h : Reads k c ys) (hr : isRunnable k t) (hne : t ≠ c) :
    turnsOf k t = ys.idxOf t + 1 := by
  have hlen := h.length_le
  rw [turnsOf, ht]
  dsimp only
  rw [if_pos hr, h.ring.turns_eq ((h.mem t).2 hr) hne (by omega)]

theorem turnsOf_lt (ht : k.tp = some c) (h : Reads k c ys) : turnsOf k t < ys.length := by
  have hpos : 0 < ys.length := List.length_pos_of_mem h.ring.tail_mem
  rcases eq_or_ne t c with rfl | hne
  · rwa [turnsOf_self ht]
  · by_cases hr : isRunnable k t
    · rw [turnsOf_eq ht h hr hne]
      exact h.ring.idxOf_lt ((h.mem t).2 hr) hne
    · rwa [turnsOf_of_not hr]

theorem Reads.pickNext_eq (h : Reads k c ys) : pickNext k c = k.next c := by
  obtain ⟨n, hn, hcn⟩ := h.ring.next_mem h.ring.tail_mem
  rw [pickNext, hcn, pickLoop]
  split_ifs with he hr
  · rw [he]
  · rfl
  · exact absurd ((h.mem n).1 hn) hr

/-- The queue is the same. -/
structure SameQueue (k k' : Kernel) : Prop where
  next : ∀ i, isRunnable k i → k'.next i = k.next i
  mem : ∀ i, isRunnable k' i ↔ isRunnable k i

theorem SameQueue.trans {k1 : Kernel} (h : SameQueue k k1) (h' : SameQueue k1 k') :
    SameQueue k k' where
  next := fun i hi => (h'.next i ((h.mem i).2 hi)).trans (h.next i hi)
  mem := fun i => (h'.mem i).trans (h.mem i)

theorem SameQueue.of_view (h : ∀ i, view (k'.tasks i) = view (k.tasks i)) : SameQueue k k' := by
  have hs : ∀ i, k'.state i = k.state i := fun i => congrArg (·.2.1) (h i)
  refine ⟨fun i _ => congrArg Prod.fst (h i), fun i => ?_⟩
  rw [isRunnable, isRunnable, hs]

theorem SameQueue.reads (h : SameQueue k k') (hr : Reads k c ys) : Reads k' c ys :=
  ⟨hr.ring.congr fun z hz => h.next z ((hr.mem z).1 hz), fun i => (hr.mem i).trans (h.mem i).symm⟩

theorem SameQueue.turnsOf (h : SameQueue k k') (ht : k.tp = some c) (ht' : k'.tp = some c)
    (hr : Reads k c ys) : turnsOf k' t = turnsOf k t := by
  rcases eq_or_ne t c with rfl | hne
  · rw [turnsOf_self ht, turnsOf_self ht']
  · by_cases hk : isRunnable k t
    · rw [turnsOf_eq ht hr hk hne, turnsOf_eq ht' (h.reads hr) ((h.mem t).2 hk) hne]
    · rw [turnsOf_of_not hk, turnsOf_of_not fun hk' => hk ((h.mem t).1 hk')]

theorem SameQueue.reap {i : Slot} {f : TaskStruct → TaskStruct} (hi : ¬ isRunnable k i)
    (hf : (f (k.tasks i)).state = .unused) : SameQueue k (k.modify i f) := by
  refine ⟨fun j hj => ?_, fun j => ?_⟩
  · have hji : j ≠ i := fun he => hi (he ▸ hj)
    rw [k.next_modify, Function.update_of_ne hji]
  · rcases eq_or_ne j i with rfl | hj
    · refine iff_of_false ?_ hi
      rw [isRunnable, k.state_modify, Function.update_self, hf]
      decide
    · rw [isRunnable, isRunnable, k.state_modify, Function.update_of_ne hj]

theorem taskReap_sameQueue (k : Kernel) (task : Option Slot) : SameQueue k (taskReap k task) := by
  unfold taskReap
  split
  · exact .of_view fun _ => rfl
  · rename_i i
    split_ifs with h1 h2
    · exact .of_view fun _ => rfl
    · exact .of_view fun _ => rfl
    · refine .reap ?_ rfl
      rw [not_not] at h2
      rw [isRunnable, h2]
      decide

theorem killZombies_sameQueue (k : Kernel) : SameQueue k (killZombies k) := by
  unfold killZombies
  generalize (List.finRange 16).drop 1 = l
  induction l generalizing k with
  | nil => exact .of_view fun _ => rfl
  | cons i l ih =>
    have hi : SameQueue k (killZombie k i) := by
      unfold killZombie
      split_ifs
      · exact .of_view fun _ => rfl
      · exact .of_view fun _ => rfl
      · exact taskReap_sameQueue k _
    exact hi.trans (ih _)

theorem SameQueue.modify {i : Slot} {f : TaskStruct → TaskStruct} (hf : ∀ t, view (f t) = view t) :
    SameQueue k (k.modify i f) :=
  .of_view (k.modify_proj i f view (hf _))

end Reads

/-! ### One step -/

section Step
variable {L : Layout} {k k' : Kernel} {c n t : Slot}

theorem runqAdd_turns {k1 : Kernel} {i : Slot} (ht : k.tp = some c) (ht' : k1.tp = some c)
    (h : TableInv L k (some c) none) (hr : isRunnable k t) (hne : t ≠ c) (hi : ¬ isRunnable k i)
    (hn : ∀ j, isRunnable k j → k1.next j = k.next j) (htail : k1.runQueueTail = k.runQueueTail)
    (hm : ∀ j, isRunnable k1 j ↔ isRunnable k j ∨ j = i) :
    turnsOf (runqAdd k1 i) t ≤ turnsOf k t + 1 := by
  obtain ⟨tail, xs, hxt, hring, hxm⟩ := h.queue
  have hix : i ∉ xs := fun hx => hi ((hxm i).1 hx)
  have hring1 : RingList k1.next tail xs := hring.congr fun z hz => hn z ((hxm z).1 hz)
  obtain ⟨-, hring2⟩ := runqAdd_spec (htail.trans hxt) hring1 hix
  have hq := runqAdd_queueOnly k1 i
  obtain ⟨ys, ys', hys, hys', hmem, hmem', hle⟩ :=
    hring.insert_turns hring2 ((hxm c).2 h.isRunnable_cur)
  have hrun : ∀ j, isRunnable (runqAdd k1 i) j ↔ isRunnable k j ∨ j = i := by
    intro j
    rw [isRunnable, hq.state]
    exact hm j
  have hreads : Reads k c ys := ⟨hys, fun j => (hmem j).trans (hxm j)⟩
  have hreads' : Reads (runqAdd k1 i) c ys' := ⟨hys', fun j => by rw [hmem', hrun, hxm]⟩
  have hti : t ≠ i := fun he => hi (he ▸ hr)
  rw [turnsOf_eq ht hreads hr hne, turnsOf_eq (hq.tp.trans ht') hreads' ((hrun t).2 (.inl hr)) hne]
  have := hle t hti
  omega

/-- **`thread_create`** delays a waiting task by one turn, if it makes a task. -/
theorem threadCreate_turns {fn : Word} {r : Option Slot} (ht : k.tp = some c)
    (h : TableInv L k (some c) none) (hr : isRunnable k t) (hne : t ≠ c)
    (hk : threadCreate L fn k = some (k', r)) :
    turnsOf k' t ≤ turnsOf k t + (k'.nextPid - k.nextPid).toNat := by
  have hz := killZombies_inv h
  have hsame := killZombies_sameQueue k
  obtain ⟨htp, hnp, -⟩ := killZombies_frame k
  obtain ⟨zs, hzs⟩ := exists_reads h h.isRunnable_cur
  have heq : turnsOf (killZombies k) t = turnsOf k t := hsame.turnsOf ht (htp.trans ht) hzs
  rcases threadCreate_cases hk with ⟨-, rfl, -⟩ | ⟨i, -, hi, -, rfl⟩
  · rw [heq]
    omega
  · have hin : ¬ isRunnable (killZombies k) i := by
      rw [isRunnable, hi]
      decide
    have hpid : (runqAdd { (killZombies k).modify i (newThread L fn (killZombies k).nextPid i) with
        nextPid := (killZombies k).nextPid + 1 } i).nextPid = k.nextPid + 1 := by
      rw [(runqAdd_queueOnly _ i).nextPid, ← hnp]
    have hadd : turnsOf (runqAdd { (killZombies k).modify i (newThread L fn (killZombies k).nextPid i) with
        nextPid := (killZombies k).nextPid + 1 } i) t ≤ turnsOf (killZombies k) t + 1 := by
      refine runqAdd_turns (htp.trans ht) (htp.trans ht) hz ((hsame.mem t).2 hr) hne hin
        (fun j hj => ?_) rfl fun j => ?_
      · have hji : j ≠ i := fun he => hin (he ▸ hj)
        change ((killZombies k).modify i _).next j = _
        rw [Kernel.next_modify, Function.update_of_ne hji]
      · rw [isRunnable]
        change ((killZombies k).modify i _).state j = _ ∨ ((killZombies k).modify i _).state j = _ ↔ _
        rw [Kernel.state_modify, Function.update_apply]
        split_ifs with hj
        · simp [hj]
        · simp [hj, isRunnable]
    rw [heq] at hadd
    rw [hpid]
    omega

theorem runqRemove_turns {k1 : Kernel} {i : Slot} (ht : k.tp = some c)
    (ht' : k'.tp = some c) (h : TableInv L k (some c) none) (hr : isRunnable k t) (hne : t ≠ c)
    (hi : isRunnable k i) (hic : i ≠ c) (hk : runqRemove k i = some k1)
    (hn : ∀ j, j ≠ i → k'.next j = k1.next j)
    (hm : ∀ j, isRunnable k' j ↔ isRunnable k j ∧ j ≠ i) : turnsOf k' t ≤ turnsOf k t := by
  rcases eq_or_ne t i with rfl | hti
  · rw [turnsOf_of_not fun hk' => ((hm t).1 hk').2 rfl]
    exact Nat.zero_le _
  obtain ⟨tail, xs, hxt, hring, hxm⟩ := h.queue
  obtain ⟨k2, tail', hk2, hq, -, hring2⟩ :=
    runqRemove_spec hxt hring ((hxm i).2 hi) ((hxm c).2 h.isRunnable_cur) hic.symm
  obtain rfl := Option.some.inj (hk.symm.trans hk2)
  have hring3 : RingList k'.next tail' (xs.erase i) :=
    hring2.congr fun z hz => hn z ((hring.nodup.mem_erase_iff.1 hz).1)
  obtain ⟨ys, ys', hys, hys', hmem, hmem', hle⟩ :=
    hring.erase_turns hring3 ((hxm c).2 h.isRunnable_cur) hic
  have hreads : Reads k c ys := ⟨hys, fun j => (hmem j).trans (hxm j)⟩
  have hreads' : Reads k' c ys' := ⟨hys', fun j => by rw [hmem', hm, hxm]⟩
  rw [turnsOf_eq ht hreads hr hne, turnsOf_eq ht' hreads' ((hm t).2 ⟨hr, hti⟩) hne]
  have := hle t hti
  omega

/-- **A switch to the next task** takes one turn off. -/
theorem next_turns {ys : List Slot} (ht : k.tp = some c) (ht' : k'.tp = some n) (h : Reads k c ys)
    (hn : k.next c = some n) (hnc : n ≠ c) (hs : SameQueue k k') (hr : isRunnable k t) (hne : t ≠ c) :
    turnsOf k' t + 1 = turnsOf k t := by
  have hlen := h.length_le
  have hnr : n ∈ ys := by
    obtain ⟨m, hm, hcm⟩ := h.ring.next_mem h.ring.tail_mem
    rw [hn, Option.some.injEq] at hcm
    exact hcm ▸ hm
  have hstep : turnsOf k t = turns k.next t 16 n + 1 := by
    rw [turnsOf, ht]
    dsimp only
    rw [if_pos hr, turns, if_neg hne.symm, hn]
  rcases eq_or_ne t n with rfl | htn
  · rw [hstep, turnsOf_self ht', turns_self]
  · obtain ⟨zs, hz, hmem⟩ := h.ring.exists_rotate hnr
    have hreads : Reads k n zs := ⟨hz, fun i => (hmem i).trans (h.mem i)⟩
    have hlen' := hreads.length_le
    rw [hstep, turnsOf_eq ht' (hs.reads hreads) ((hs.mem t).2 hr) htn,
      hz.turns_eq ((hreads.mem t).2 hr) htn hlen']

theorem SameQueue.setState {i : Slot} (hi : isRunnable k i) {v : TaskState}
    (hv : v = .runnable ∨ v = .running) : SameQueue k (k.setState i v) := by
  refine ⟨fun j _ => k.setState_proj i TaskStruct.next v (fun _ => rfl) j, fun j => ?_⟩
  rw [isRunnable, k.state_setState]
  split_ifs with hj
  · subst hj
    exact iff_of_true hv hi
  · rfl

theorem switchTo_sameQueue {prev next me : Slot} {act : Act} {r : Slot × Act}
    (h : switchTo L k prev next me act = some (k', r)) :
    k'.tp = some next ∧ k'.nextPid = k.nextPid ∧ k'.state = k.state ∧ SameQueue k k' := by
  obtain ⟨rfl, -⟩ := switchTo_cases h
  have hs : ∀ i, ((k.setContext prev (.saved me act)).setTp (some next)).state i = k.state i :=
    k.setContext_proj prev TaskStruct.state _ fun _ => rfl
  refine ⟨rfl, rfl, funext hs, fun i _ => ?_, fun i => ?_⟩
  · exact k.setContext_proj prev TaskStruct.next _ (fun _ => rfl) i
  · rw [isRunnable, isRunnable, hs]

/-- The next task of the queue is another one while a task waits. -/
theorem exists_next {ys : List Slot} (h : Reads k c ys) (hr : isRunnable k t) (hne : t ≠ c) :
    ∃ n, k.next c = some n ∧ pickNext k c = some n ∧ n ≠ c ∧ isRunnable k n := by
  obtain ⟨n, hn, hcn⟩ := h.ring.next_mem h.ring.tail_mem
  refine ⟨n, hcn, h.pickNext_eq.trans hcn, ?_, (h.mem n).1 hn⟩
  rintro rfl
  have hy := h.ring.eq_singleton hn hcn
  have htm := (h.mem t).2 hr
  rw [hy, List.mem_singleton] at htm
  exact hne htm

theorem schedule_next (ht : k.tp = some c) (h : TableInv L k (some c) none)
    (hp : pickNext k c = some n) (hnc : n ≠ c) :
    schedule k = some ((k.setState c .runnable).setState n .running, .switch c n) := by
  obtain ⟨tail, -, htail, -⟩ := h.queue
  have hc : k.state c = .running := (h.running c).2 rfl
  unfold schedule
  rw [ht, htail]
  simp only [hp, Option.bind_eq_bind, Option.bind_some, if_neg hnc, if_pos hc]

/-- **`schedule`** passes the turn on while a task waits. -/
theorem scheduleAt_turns {act : Act} {s' : OpState} (ht : k.tp = some c)
    (h : TableInv L k (some c) none) (hr : isRunnable k t) (hne : t ≠ c)
    (hs : scheduleAt L k act = some s') :
    turnsOf s'.k t + 1 = turnsOf k t ∧ s'.k.tp ≠ k.tp ∧ s'.k.nextPid = k.nextPid := by
  obtain ⟨ys, hys⟩ := exists_reads h h.isRunnable_cur
  obtain ⟨n, hcn, hp, hnc, hnr⟩ := exists_next hys hr hne
  have hsched := schedule_next ht h hp hnc
  have hsame : SameQueue k ((k.setState c .runnable).setState n .running) := by
    have h1 : SameQueue k (k.setState c .runnable) := .setState h.isRunnable_cur (.inl rfl)
    exact h1.trans (.setState ((h1.mem n).2 hnr) (.inr rfl))
  unfold scheduleAt at hs
  rw [hsched] at hs
  simp only [Option.bind_eq_bind, Option.bind_some, finish] at hs
  obtain ⟨⟨k2, r⟩, hsw, rfl⟩ := Option.map_eq_some_iff.1 hs
  obtain ⟨htp, hnp, -, hq⟩ := switchTo_sameQueue hsw
  refine ⟨next_turns ht htp hys hcn hnc (hsame.trans hq) hr hne, ?_, hnp⟩
  change k2.tp ≠ k.tp
  rw [htp, ht]
  simpa using hnc

theorem threadExit_parts {flow : Flow} (ht : k.tp = some c) (h : threadExit k = some (k', flow)) :
    ∃ p n k1, exitTarget k c = some p ∧ runqRemove k c = some k1 ∧
      (p ≠ c → n = p) ∧ flow = .switch c n ∧ k' = (k1.setState c .zombie).setState n .running := by
  unfold threadExit at h
  rw [ht] at h
  simp only [Option.bind_eq_bind, Option.bind_some] at h
  rcases he : exitTarget k c with _ | p
  · rw [he] at h
    cases h
  · rcases hr : runqRemove k c with _ | k1
    · rw [he, hr] at h
      cases h
    · rw [he, hr] at h
      simp only [Option.bind_some] at h
      split_ifs at h with hpc
      · rcases hi : (k1.setState c .zombie).idleTask with _ | n
        · rw [hi] at h
          cases h
        · rw [hi] at h
          simp only [Option.bind_some, Option.some.injEq, Prod.mk.injEq] at h
          exact ⟨p, n, k1, rfl, rfl, fun hn => absurd hpc hn, h.2.symm, h.1.symm⟩
      · simp only [Option.some.injEq, Prod.mk.injEq] at h
        exact ⟨p, p, k1, rfl, rfl, fun _ => rfl, h.2.symm, h.1.symm⟩

/-- The current task ends while its parent is alive, and its parent is not the next task of the queue. -/
def HandsOver (k : Kernel) (c : Slot) : Prop := exitTarget k c ≠ pickNext k c

instance (k : Kernel) (c : Slot) : Decidable (HandsOver k c) := by
  unfold HandsOver; infer_instance

/-- **`thread_exit`** takes one turn off, unless the processor goes to the parent. -/
theorem finishExit_turns {flow : Flow} {s' : OpState} (ht : k.tp = some c)
    (h : TableInv L k (some c) none) (h0 : c ≠ 0) (hr : isRunnable k t) (hne : t ≠ c)
    (he : threadExit k = some (k', flow)) (hs : finishExit L k' flow = some s') :
    turnsOf s'.k t + 1 ≤ turnsOf k t + 14 * (if HandsOver k c then 1 else 0) ∧
      s'.k.tp ≠ k.tp ∧ s'.k.nextPid = k.nextPid ∧ s'.k.state c = .zombie := by
  obtain ⟨ys, hys⟩ := exists_reads h h.isRunnable_cur
  obtain ⟨m, hcm, hp, hmc, hmr⟩ := exists_next hys hr hne
  obtain ⟨tail, xs, htail, hring, hxm⟩ := h.queue
  obtain ⟨k3, n', he', hsw', hnr, hz⟩ := threadExit_inv ht h h0
  obtain ⟨p, n, k1, hp1, hk1, hpn, rfl, rfl⟩ := threadExit_parts ht he
  rw [he, Option.some.injEq, Prod.mk.injEq, Flow.switch.injEq] at he'
  obtain ⟨rfl, -, rfl⟩ := he'
  obtain ⟨k2, tail', hk2, hq, -, hring2⟩ :=
    runqRemove_spec htail hring ((hxm c).2 h.isRunnable_cur) ((hxm m).2 hmr) hmc
  obtain rfl := Option.some.inj (hk1.symm.trans hk2)
  unfold finishExit finish at hs
  simp only [reduceCtorEq, if_false] at hs
  obtain ⟨⟨k4, r⟩, hsw, rfl⟩ := Option.map_eq_some_iff.1 hs
  obtain ⟨htp, hnp, hst, hsame⟩ := switchTo_sameQueue hsw
  have hnc : n ≠ c := hsw'.ne
  have hstate : ∀ j, k4.state j = if j = n then .running else if j = c then .zombie else k.state j := by
    intro j
    rw [hst, Kernel.state_setState, Kernel.state_setState, hq.state]
  have hrun : ∀ j, isRunnable k4 j ↔ isRunnable k j ∧ j ≠ c := by
    intro j
    unfold isRunnable
    rw [hstate]
    split_ifs with h1 h2
    · subst h1
      exact iff_of_true (.inr rfl) ⟨hnr, hnc⟩
    · simp [h2]
    · simp [h2]
  have hnext : ∀ j, k4.next j = k1.next j := by
    obtain ⟨rfl, -⟩ := switchTo_cases hsw
    intro j
    change ((Kernel.setContext _ _ _).tasks j).next = (k1.tasks j).next
    rw [Kernel.setContext_proj _ _ TaskStruct.next _ fun _ => rfl,
      Kernel.setState_proj _ _ TaskStruct.next _ fun _ => rfl,
      Kernel.setState_proj _ _ TaskStruct.next _ fun _ => rfl]
  have hring4 : RingList k4.next tail' (xs.erase c) := hring2.congr fun z _ => hnext z
  refine ⟨?_, ?_, hnp.trans hq.nextPid, ?_⟩
  · change turnsOf k4 t + 1 ≤ _
    have htr : isRunnable k4 t := (hrun t).2 ⟨hr, hne⟩
    have hteq : turnsOf k t = ys.idxOf t + 1 := turnsOf_eq ht hys hr hne
    by_cases hh : HandsOver k c
    · -- The processor goes to the parent, which may stand right behind the waiting task.
      rw [if_pos hh, hteq]
      have hnx : n ∈ xs.erase c := by
        rw [hring.nodup.mem_erase_iff, hxm]
        exact ⟨hnc, hnr⟩
      obtain ⟨zs, hzs, hzm⟩ := hring4.exists_rotate hnx
      have hmz : ∀ j, j ∈ zs ↔ isRunnable k j ∧ j ≠ c := fun j => by
        rw [hzm, hring.nodup.mem_erase_iff, hxm, and_comm]
      have hcz : (c :: zs).Nodup := List.nodup_cons.2 ⟨fun hc => ((hmz c).1 hc).2 rfl, hzs.nodup⟩
      have hlen : (c :: zs).length ≤ 16 := by simpa using hcz.length_le_card
      have hlt := turnsOf_lt (t := t) htp ⟨hzs, fun j => (hmz j).trans (hrun j).symm⟩
      rw [List.length_cons] at hlen
      omega
    · rw [if_neg hh]
      have hpm : p = m := by
        rw [HandsOver, not_not, hp1, hp, Option.some.injEq] at hh
        exact hh
      have hnm : n = m := (hpn (hpm ▸ hmc)).trans hpm
      subst hnm
      obtain ⟨zs, zs', hzs, hzs', hmem, hmem', hidx⟩ :=
        hring.pass_turns hring4 ((hxm c).2 h.isRunnable_cur) hcm hmc
      have hreads : Reads k c zs := ⟨hzs, fun j => (hmem j).trans (hxm j)⟩
      have hreads' : Reads k4 n zs' := ⟨hzs', fun j => by rw [hmem', hrun, hxm]⟩
      have hone := turnsOf_eq ht hreads hr hne
      rcases eq_or_ne t n with rfl | htn
      · rw [turnsOf_self htp]
        omega
      · have := hidx t ((hxm t).2 hr) hne htn
        rw [turnsOf_eq htp hreads' htr htn, hone]
        omega
  · change k4.tp ≠ k.tp
    rw [htp, ht]
    simpa using hnc
  · change k4.state c = _
    rw [hstate, if_neg hnc.symm, if_pos rfl]

end Step

/-! ### Runs -/

/-- The processor went to another task. -/
def switched (s : OpState) (_ : Op) (s' : OpState) : ℕ := if s'.k.tp = s.k.tp then 0 else 1

/-- The tasks that were created. -/
def created (s : OpState) (_ : Op) (s' : OpState) : ℕ := (s'.k.nextPid - s.k.nextPid).toNat

/-- The current task ended, and the processor went to its parent out of turn. -/
def handedOver (s : OpState) (_ : Op) (s' : OpState) : ℕ :=
  match s.k.tp with
  | none => 0
  | some c => if s'.k.state c = .zombie ∧ HandsOver s.k c then 1 else 0

section Run
variable {L : Layout} {k k' : Kernel} {c t : Slot} {s s' : OpState} {op : Op}

theorem switched_of_eq (h : s'.k.tp = s.k.tp) : switched s op s' = 0 := if_pos h

theorem switched_le (s : OpState) (op : Op) (s' : OpState) : switched s op s' ≤ 1 := by
  unfold switched
  split_ifs <;> omega

/-- What a waiting task pays for a step. -/
def Paid (t : Slot) (s : OpState) (op : Op) (s' : OpState) : Prop :=
  switched s op s' + turnsOf s'.k t ≤ turnsOf s.k t + (created s op s' + 14 * handedOver s op s')

theorem Paid.of_create (htp : s'.k.tp = s.k.tp)
    (h : turnsOf s'.k t ≤ turnsOf s.k t + (s'.k.nextPid - s.k.nextPid).toNat) : Paid t s op s' := by
  unfold Paid created
  rw [switched_of_eq htp]
  omega

theorem Paid.of_le (htp : s'.k.tp = s.k.tp) (h : turnsOf s'.k t ≤ turnsOf s.k t) :
    Paid t s op s' :=
  .of_create htp (by omega)

theorem Paid.of_switch (h : turnsOf s'.k t + 1 ≤ turnsOf s.k t + 14 * handedOver s op s') :
    Paid t s op s' := by
  have := switched_le s op s'
  unfold Paid
  omega

/-- A task is created, and fields that the scheduler does not look at are set. -/
theorem create_turns {k1 : Kernel} {fn : Word} {r : Option Slot} (ht : k.tp = some c)
    (h : TableInv L k (some c) none) (hr : isRunnable k t) (hne : t ≠ c)
    (hc : threadCreate L fn k = some (k1, r)) (hv : ∀ i, view (k'.tasks i) = view (k1.tasks i))
    (htp : k'.tp = k1.tp) (hnp : k'.nextPid = k1.nextPid) :
    k'.tp = k.tp ∧ turnsOf k' t ≤ turnsOf k t + (k'.nextPid - k.nextPid).toNat := by
  have htp1 := threadCreate_tp hc
  have h1 := threadCreate_inv h hc
  obtain ⟨ys, hys⟩ := exists_reads h1 h1.isRunnable_cur
  have heq := (SameQueue.of_view hv).turnsOf (t := t) (htp1.trans ht) (htp.trans (htp1.trans ht)) hys
  refine ⟨htp.trans htp1, ?_⟩
  rw [heq, hnp]
  exact threadCreate_turns ht h hr hne hc

theorem handsOver_setExitStatus {ys : List Slot} {status : BitVec 32} {i : Slot} (h : Reads k c ys) :
    HandsOver (k.setExitStatus i status) c ↔ HandsOver k c := by
  have hs : ∀ j, (k.setExitStatus i status).state j = k.state j :=
    k.modify_proj i _ TaskStruct.state rfl
  have hp : ∀ j, ((k.setExitStatus i status).tasks j).parent = (k.tasks j).parent :=
    k.modify_proj i _ TaskStruct.parent rfl
  have hn : ∀ j, (k.setExitStatus i status).next j = k.next j :=
    k.modify_proj i _ TaskStruct.next rfl
  have hsame : SameQueue k (k.setExitStatus i status) := .modify fun _ => rfl
  have hpick : pickNext (k.setExitStatus i status) c = pickNext k c := by
    rw [(hsame.reads h).pickNext_eq, h.pickNext_eq, hn]
  unfold HandsOver exitTarget
  simp only [hpick, hs, hp]

theorem taskKill_other {pid r : ℤ} {status : BitVec 32} {flow : Flow} (ht : k.tp = some c)
    (h : taskKill k pid status = some (k', flow, r)) :
    (k' = k ∧ flow = .ret) ∨
    (k.idleTask ≠ some c ∧ threadExit (k.setExitStatus c status) = some (k', flow)) ∨
    ∃ i k1, i ≠ c ∧ isRunnable k i ∧ runqRemove k i = some k1 ∧ flow = .ret ∧
      k' = (k1.setExitStatus i status).setState i .zombie := by
  unfold taskKill at h
  split at h
  · simp only [Option.some.injEq, Prod.mk.injEq] at h
    exact .inl ⟨h.1.symm, h.2.1.symm⟩
  · rename_i i _
    split_ifs at h with h1 h2 h3
    · simp only [Option.some.injEq, Prod.mk.injEq] at h
      exact .inl ⟨h.1.symm, h.2.1.symm⟩
    · simp only [Option.some.injEq, Prod.mk.injEq] at h
      exact .inl ⟨h.1.symm, h.2.1.symm⟩
    · obtain rfl := Option.some.inj (ht.symm.trans h3)
      obtain ⟨⟨k1, f⟩, he, heq⟩ := Option.bind_eq_some_iff.1 h
      simp only [Option.some.injEq, Prod.mk.injEq] at heq
      exact .inr (.inl ⟨h1, by rw [he, heq.1, heq.2.1]⟩)
    · obtain ⟨k1, hk1, heq⟩ := Option.bind_eq_some_iff.1 h
      simp only [Option.some.injEq, Prod.mk.injEq] at heq
      rw [not_or] at h2
      refine .inr (.inr ⟨i, k1, fun he => h3 (he ▸ ht), ?_, hk1, heq.2.1.symm, heq.1.symm⟩)
      unfold isRunnable
      rcases hs : k.state i
      · exact absurd hs h2.1
      · exact .inl rfl
      · exact .inr rfl
      · exact absurd hs h2.2

/-- **An operation** of a task in its own code. -/
theorem call_turns (ht : s.k.tp = some c) (h : TableInv L s.k (some c) none)
    (hr : s.k.state t = .runnable) (hs : call L s.k op = some s') : Paid t s op s' := by
  have hrun : isRunnable s.k t := .inl hr
  have hne : t ≠ c := by
    rintro rfl
    have := (h.running t).2 rfl
    rw [hr] at this
    cases this
  obtain ⟨ys, hys⟩ := exists_reads h h.isRunnable_cur
  cases op with
  | threadCreate fn =>
    obtain ⟨⟨k1, r⟩, h1, rfl⟩ := Option.map_eq_some_iff.1 hs
    exact .of_create (threadCreate_tp h1) (threadCreate_turns ht h hrun hne h1)
  | userProcessCreate entry sstatus =>
    obtain ⟨⟨k1, r⟩, h1, rfl⟩ := Option.map_eq_some_iff.1 hs
    rcases userProcessCreate_cases h1 with ⟨-, hc⟩ | ⟨i, k2, -, hc, rfl⟩
    · exact .of_create (threadCreate_tp hc) (threadCreate_turns ht h hrun hne hc)
    · obtain ⟨htp, hle⟩ := create_turns ht h hrun hne hc
        (k2.modify_proj i (newProcess L i k2.tp entry sstatus) view rfl) rfl rfl
      exact .of_create htp hle
  | userFork tf =>
    obtain ⟨⟨k1, r⟩, h1, rfl⟩ := Option.map_eq_some_iff.1 hs
    rcases userFork_cases h1 with ⟨rfl, -⟩ | ⟨p, -, -, ⟨-, hc⟩ | ⟨i, k2, hc, -, rfl⟩⟩
    · exact .of_le rfl le_rfl
    · exact .of_create (threadCreate_tp hc) (threadCreate_turns ht h hrun hne hc)
    · obtain ⟨htp, hle⟩ := create_turns ht h hrun hne hc
        (k2.modify_proj i (forkChild L i p (k2.tasks p) tf) view rfl) rfl rfl
      exact .of_create htp hle
  | schedule =>
    obtain ⟨hlt, -, -⟩ := scheduleAt_turns ht h hrun hne hs
    exact .of_switch (by omega)
  | threadExit =>
    rw [call] at hs
    split_ifs at hs with hid
    · rw [Option.some.injEq] at hs
      subst hs
      exact .of_le rfl le_rfl
    · have h0 : c ≠ 0 := fun h0 => hid (by rw [ht, h.idleTask, h0])
      obtain ⟨⟨k1, flow⟩, he, hf⟩ := Option.bind_eq_some_iff.1 hs
      obtain ⟨hle, -, -, hz⟩ := finishExit_turns ht h h0 hrun hne he hf
      refine .of_switch ?_
      rw [handedOver, ht]
      simpa only [hz, true_and] using hle
  | taskKill pid status =>
    obtain ⟨⟨k1, flow, r⟩, hk, hf⟩ := Option.bind_eq_some_iff.1 hs
    rcases taskKill_other ht hk with ⟨rfl, rfl⟩ | ⟨hid, he⟩ | ⟨i, k2, hic, hi, hk2, rfl, rfl⟩
    · simp only [finishExit, finish, if_true, Option.some.injEq] at hf
      subst hf
      exact .of_le rfl le_rfl
    · have h0 : c ≠ 0 := fun h0 => hid (by rw [h.idleTask, h0])
      have hsame : SameQueue s.k (s.k.setExitStatus c status) := .modify fun _ => rfl
      have heq : turnsOf (s.k.setExitStatus c status) t = turnsOf s.k t := hsame.turnsOf ht ht hys
      obtain ⟨hle, -, -, hz⟩ := finishExit_turns (k := s.k.setExitStatus c status) ht
        (h.modify fun _ => rfl) h0 ((hsame.mem t).2 hrun) hne he hf
      refine .of_switch ?_
      rw [handedOver, ht]
      simpa only [hz, true_and, heq, handsOver_setExitStatus hys] using hle
    · simp only [finishExit, finish, if_true, Option.some.injEq] at hf
      subst hf
      have hq := runqRemove_queueOnly hk2
      have hmod : (k2.setExitStatus i status).setState i .zombie =
          k2.modify i fun t => { t with exitStatus := status, state := .zombie } := by
        rw [Kernel.setExitStatus, Kernel.setState, Kernel.modify_modify]
        rfl
      have hle : turnsOf ((k2.setExitStatus i status).setState i .zombie) t ≤ turnsOf s.k t := by
        refine runqRemove_turns ht (hq.tp.trans ht) h hrun hne hi hic hk2 (fun j hj => ?_) fun j => ?_
        · rw [hmod, Kernel.next_modify, Function.update_of_ne hj]
        · rw [isRunnable, hmod, Kernel.state_modify, Function.update_apply, hq.state]
          split_ifs with hj
          · simp [hj]
          · simp [hj, isRunnable]
      exact .of_le hq.tp hle
  | killZombies =>
    rw [call, Option.some.injEq] at hs
    subst hs
    have htp := (killZombies_frame s.k).1
    exact .of_le htp ((killZombies_sameQueue s.k).turnsOf ht (htp.trans ht) hys).le
  | taskReap task =>
    rw [call, Option.some.injEq] at hs
    subst hs
    have htp := (taskReap_frame s.k task).1
    exact .of_le htp ((taskReap_sameQueue s.k task).turnsOf ht (htp.trans ht) hys).le
  | sysWaitpid pid =>
    have hk : s'.k = s.k := by
      rw [call] at hs
      split at hs <;> rw [Option.some.injEq] at hs <;> rw [← hs]
    exact .of_le (by rw [hk]) (by rw [hk])
  | resume => cases hs

/-- **One step** of the machine. -/
theorem opStep_turns (h : OpInv L s) (hr : s.k.state t = .runnable) (hs : opStep L s op = some s') :
    Paid t s op s' := by
  have he := enabled_of_opStep hs
  obtain ⟨⟨c, ht, hc⟩, -⟩ := h
  have hne : t ≠ c := by
    rintro rfl
    have := (hc.running t).2 rfl
    rw [hr] at this
    cases this
  have hpass : ∀ act, scheduleAt L s.k act = some s' → Paid t s op s' := by
    intro act hs
    obtain ⟨hlt, -, -⟩ := scheduleAt_turns ht hc (.inl hr) hne hs
    exact .of_switch (by omega)
  by_cases hop : op = .resume
  · subst hop
    obtain ⟨k, act⟩ := s
    cases act with
    | exitLoop b => exact hpass _ hs
    | waitpid tf pid child =>
      simp only [opStep] at hs
      split_ifs at hs with hend hz
      · rw [Option.some.injEq] at hs
        subst hs
        obtain ⟨ys, hys⟩ := exists_reads hc hc.isRunnable_cur
        have htp := (taskReap_frame k (some child)).1
        exact .of_le htp ((taskReap_sameQueue k _).turnsOf ht (htp.trans ht) hys).le
      · rw [Option.some.injEq] at hs
        subst hs
        exact .of_le rfl le_rfl
      · exact hpass _ hs
    | dead => exact he.elim
    | _ => exact absurd rfl he
  · rw [opStep_call he hop] at hs
    exact call_turns ht hc hr hs

theorem turnsOf_le (h : SchedInv L k) (t : Slot) : turnsOf k t ≤ 15 := by
  obtain ⟨c, ht, hc⟩ := h
  obtain ⟨ys, hys⟩ := exists_reads hc hc.isRunnable_cur
  have := turnsOf_lt (t := t) ht hys
  have := hys.length_le
  omega

end Run

/-- **A waiting task is passed over** by at most fifteen switches, one more for each task that is
created, and fourteen more for each task that ends and hands the processor to its parent. -/
theorem switches_of_waiting {L : Layout} {m : Mem} {ops ops' : List Op} {s s' : OpState} {t : Slot}
    (h : Run (opStep L) (fun _ _ => True) (start L m) ops s)
    (hw : Run (opStep L) (fun s _ => s.k.state t = .runnable) s ops' s') :
    total (opStep L) switched s ops' ≤
      15 + total (opStep L) created s ops' + 14 * total (opStep L) handedOver s ops' := by
  have hi := opInv_of_run h
  have hpaid : total (opStep L) switched s ops' + turnsOf s'.k t ≤ turnsOf s.k t +
      total (opStep L) (fun s op s' => created s op s' + 14 * handedOver s op s') s ops' :=
    hw.amortized (p := fun s => turnsOf s.k t) (I := OpInv L)
      (fun _ _ _ hi hr hs => ⟨hi.step hs, opStep_turns hi hr hs⟩) hi
  have hle := turnsOf_le hi.sched t
  rw [total_add, total_mul] at hpaid
  omega

/-- The second of two threads waits while the first one gets the processor. -/
theorem switches_of_two : ∃ s s', Run (opStep sampleLayout) (fun _ _ => True)
      (start sampleLayout fun _ => 0) [.threadCreate 0x201000, .threadCreate 0x201000] s ∧
    opStep sampleLayout s .schedule = some s' ∧
    total (opStep sampleLayout) switched s [.schedule] ≤
      15 + total (opStep sampleLayout) created s [.schedule] +
        14 * total (opStep sampleLayout) handedOver s [.schedule] := by
  have hex : (exec (opStep sampleLayout) (fun _ _ => true) (start sampleLayout fun _ => 0)
      [.threadCreate 0x201000, .threadCreate 0x201000]).map (fun s =>
        (s.k.state 2, (opStep sampleLayout s .schedule).isSome)) = some (.runnable, true) := by
    decide +kernel
  obtain ⟨s, hr, hv⟩ := Run.exists_of_exec (C := fun _ _ => True) (fun _ _ _ => trivial) hex
  rw [Prod.mk.injEq] at hv
  obtain ⟨s', hs⟩ := Option.isSome_iff_exists.1 hv.2
  exact ⟨s, s', hr, hs, switches_of_waiting hr (.single hv.1 hs)⟩

end OscKernel.Proc.Turns
