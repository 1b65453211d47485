import Mathlib.Data.Fintype.Card
import OscKernel.Lib.Cyclic
import OscKernel.Thread.Task

/-! # The run queue of lab5

`runq_add`, `runq_remove` and `pick_next` of `thread.c` on the links of the task table. A function is
partial where the source would follow a null link; the fuel of a loop is one more than the number of
slots, so running out of it means that the loop of the source does not end.

* `runqAdd_spec`, `runqRemove_spec`: on a circular list they link a task in and out.
* `pickNext_spec`: from a task of the list, `pick_next` ends at once.
* `QueueOnly`: what the queue functions leave alone.
* `Queued`: the queue holds the runnable tasks; `Queued.add`, `Queued.remove`: a task comes in or goes. -/

namespace OscKernel.Thread.RunQueue

open OscKernel.Lib.Cyclic OscKernel.Thread.Task

/-- `runq_add`. -/
def runqAdd (k : Kernel) (task : Slot) : Kernel :=
  match k.runQueueTail with
  | none => (k.setNext task (some task)).setTail (some task)
  | some tail =>
    ((k.setNext task (k.next tail)).setNext tail (some task)).setTail (some task)

/-- `runq_remove`. -/
def runqRemove (k : Kernel) (task : Slot) : Option Kernel :=
  match k.runQueueTail with
  | none => some k
  | some tail =>
    if k.next task = some task then some ((k.setNext task none).setTail none)
    else
      match findPrev k.next tail task 17 tail with
      | none => none
      | some none => some k
      | some (some prev) =>
        some (((k.setNext prev (k.next task)).setNext task none).setTail
          (if tail = task then some prev else some tail))

/-- `is_runnable`. -/
def isRunnable (k : Kernel) (task : Slot) : Prop := k.state task = .runnable ∨ k.state task = .running

instance (k : Kernel) (task : Slot) : Decidable (isRunnable k task) := by
  unfold isRunnable; infer_instance

/-- The loop of `pick_next`. -/
def pickLoop (k : Kernel) (current : Slot) : ℕ → Option Slot → Option Slot
  | 0, _ => none
  | _ + 1, none => none
  | n + 1, some next =>
    if next = current then some current
    else if isRunnable k next then some next
    else pickLoop k current n (k.next next)

/-- `pick_next`. -/
def pickNext (k : Kernel) (current : Slot) : Option Slot := pickLoop k current 17 (k.next current)

/-! ### What the queue functions leave alone -/

/-- The two states differ in the queue only. -/
structure QueueOnly (k k' : Kernel) : Prop where
  core : ∀ i, (k'.tasks i).core = (k.tasks i).core
  idleTask : k'.idleTask = k.idleTask
  nextPid : k'.nextPid = k.nextPid
  tp : k'.tp = k.tp
  mem : k'.mem = k.mem

namespace QueueOnly
variable {k k' k'' : Kernel}

theorem trans (h : QueueOnly k k') (h' : QueueOnly k' k'') : QueueOnly k k'' where
  core := fun i => (h'.core i).trans (h.core i)
  idleTask := h'.idleTask.trans h.idleTask
  nextPid := h'.nextPid.trans h.nextPid
  tp := h'.tp.trans h.tp
  mem := h'.mem.trans h.mem

theorem proj (h : QueueOnly k k') {β : Type*} (p : TaskStruct → β) (hp : ∀ t, p t = p t.core)
    (i : Slot) : p (k'.tasks i) = p (k.tasks i) := by
  rw [hp, h.core, ← hp]

theorem state (h : QueueOnly k k') : k'.state = k.state := by
  funext i
  exact h.proj TaskStruct.state (fun _ => rfl) i

theorem setNext (k : Kernel) (i : Slot) (v : Option Slot) : QueueOnly k (k.setNext i v) where
  core := Kernel.modify_proj k i (fun t => { t with next := v }) TaskStruct.core rfl
  idleTask := rfl
  nextPid := rfl
  tp := rfl
  mem := rfl

theorem setTail (k : Kernel) (v : Option Slot) : QueueOnly k (k.setTail v) :=
  ⟨fun _ => rfl, rfl, rfl, rfl, rfl⟩

end QueueOnly

section Spec
variable {k : Kernel} {tail task : Slot} {xs : List Slot}

theorem runqAdd_queueOnly (k : Kernel) (task : Slot) : QueueOnly k (runqAdd k task) := by
  unfold runqAdd
  split
  · exact (QueueOnly.setNext k task _).trans (.setTail _ _)
  · exact ((QueueOnly.setNext k task _).trans (.setNext _ _ _)).trans (.setTail _ _)

/-- **`runq_add`** links the task in behind the last one. -/
theorem runqAdd_spec (ht : k.runQueueTail = some tail) (h : RingList k.next tail xs)
    (hn : task ∉ xs) :
    (runqAdd k task).runQueueTail = some task ∧
      RingList (runqAdd k task).next task (xs ++ [task]) := by
  unfold runqAdd
  rw [ht]
  refine ⟨rfl, ?_⟩
  rw [Kernel.setTail_next, Kernel.next_setNext, Kernel.next_setNext]
  exact h.insert hn

theorem runqAdd_empty (task : Slot) (ht : k.runQueueTail = none) :
    (runqAdd k task).runQueueTail = some task ∧ RingList (runqAdd k task).next task [task] := by
  unfold runqAdd
  rw [ht]
  refine ⟨rfl, .single ?_⟩
  rw [Kernel.setTail_next, Kernel.next_setNext, Function.update_self]

/-- **`runq_remove`** of a task of a queue of several links it out. -/
theorem runqRemove_spec (ht : k.runQueueTail = some tail) (h : RingList k.next tail xs)
    (hm : task ∈ xs) {other : Slot} (ho : other ∈ xs) (hne : other ≠ task) :
    ∃ k' tail', runqRemove k task = some k' ∧ QueueOnly k k' ∧ k'.runQueueTail = some tail' ∧
      RingList k'.next tail' (xs.erase task) := by
  have hself : k.next task ≠ some task := by
    intro he
    have := h.eq_singleton hm he
    rw [this] at ho
    exact hne (by simpa using ho)
  have hlen : xs.length ≤ 17 := by
    have := h.nodup.length_le_card
    simp at this
    omega
  obtain ⟨prev, -, -, hfind, hring⟩ := h.exists_findPrev hm hself hlen
  unfold runqRemove
  rw [ht]
  simp only [if_neg hself, hfind]
  refine ⟨_, if tail = task then prev else tail, rfl, ?_, ?_, ?_⟩
  · exact ((QueueOnly.setNext k prev _).trans (.setNext _ task none)).trans (.setTail _ _)
  · split_ifs <;> rfl
  · rw [Kernel.setTail_next, Kernel.next_setNext, Kernel.next_setNext]
    exact hring

/-- **`pick_next`** ends at once: it is the link of the current task. -/
theorem pickNext_spec (h : RingList k.next tail xs) (hr : ∀ i ∈ xs, isRunnable k i)
    (hm : task ∈ xs) : ∃ next ∈ xs, pickNext k task = some next := by
  obtain ⟨n, hn, hnext⟩ := h.next_mem hm
  refine ⟨n, hn, ?_⟩
  unfold pickNext
  rw [hnext, pickLoop]
  split_ifs with he
  · rw [he]
  · rfl
  · exact absurd (hr n hn) ‹_›

end Spec

/-! ### The queue of the runnable tasks -/

/-- The queue is one cycle of exactly the runnable tasks. -/
def Queued (k : Kernel) : Prop :=
  ∃ tail xs, k.runQueueTail = some tail ∧ RingList k.next tail xs ∧ ∀ i, i ∈ xs ↔ isRunnable k i

section Queued
variable {k k1 k' : Kernel} {i j : Slot}

theorem Queued.congr (h : Queued k) (hn : ∀ i, isRunnable k i → k'.next i = k.next i)
    (hr : ∀ i, isRunnable k' i ↔ isRunnable k i) (ht : k'.runQueueTail = k.runQueueTail) :
    Queued k' := by
  obtain ⟨tail, xs, htail, hring, hm⟩ := h
  exact ⟨tail, xs, ht.trans htail, hring.congr fun z hz => hn z ((hm z).1 hz),
    fun i => (hm i).trans (hr i).symm⟩

/-- **`runq_add`** of a task that has become runnable. -/
theorem Queued.add (h : Queued k) (hi : ¬ isRunnable k i)
    (hn : ∀ j, isRunnable k j → k1.next j = k.next j) (ht : k1.runQueueTail = k.runQueueTail)
    (hr : ∀ j, isRunnable k1 j ↔ isRunnable k j ∨ j = i) : Queued (runqAdd k1 i) := by
  obtain ⟨tail, xs, htail, hring, hm⟩ := h
  have hix : i ∉ xs := fun hx => hi ((hm i).1 hx)
  have hring1 : RingList k1.next tail xs := hring.congr fun z hz => hn z ((hm z).1 hz)
  obtain ⟨ht2, hr2⟩ := runqAdd_spec (ht.trans htail) hring1 hix
  refine ⟨i, _, ht2, hr2, fun j => ?_⟩
  rw [List.mem_append, List.mem_singleton, hm, ← hr, isRunnable, isRunnable,
    (runqAdd_queueOnly k1 i).state]

/-- **`runq_remove`** of a runnable task that then stops to be runnable. -/
theorem Queued.remove (h : Queued k) (hi : isRunnable k i) (hj : isRunnable k j) (hij : j ≠ i) :
    ∃ k1, runqRemove k i = some k1 ∧ QueueOnly k k1 ∧
      ∀ k', (∀ z, z ≠ i → k'.next z = k1.next z) → k'.runQueueTail = k1.runQueueTail →
        (∀ z, isRunnable k' z ↔ z ≠ i ∧ isRunnable k z) → Queued k' := by
  obtain ⟨tail, xs, htail, hring, hm⟩ := h
  obtain ⟨k1, tail', hk1, hq, ht', hring'⟩ :=
    runqRemove_spec htail hring ((hm i).2 hi) ((hm j).2 hj) hij
  refine ⟨k1, hk1, hq, fun k' hn ht hr => ⟨tail', _, ht.trans ht', hring'.congr fun z hz => ?_,
    fun z => ?_⟩⟩
  · exact hn z (hring.nodup.mem_erase_iff.1 hz).1
  · rw [hring.nodup.mem_erase_iff, hm, hr]

/-- What `runq_remove` does to the tasks that are not runnable: nothing, but for the link of the one that
is removed. -/
theorem Queued.remove_tasks (h : Queued k) (ho : ¬ isRunnable k i → k.next i = none)
    (hk : runqRemove k i = some k1) :
    k1 = k ∧ ¬ isRunnable k i ∨ isRunnable k i ∧ k1.next i = none ∧
      ∀ z, z ≠ i → ¬ isRunnable k z → k1.tasks z = k.tasks z := by
  obtain ⟨tail, xs, htail, hring, hm⟩ := h
  have hrun : ∀ {z}, k.next z = some i → z ∈ xs → isRunnable k i := fun hz hx => by
    obtain ⟨y, hy, hzy⟩ := hring.next_mem hx
    rw [hz, Option.some.injEq] at hzy
    exact (hm i).1 (hzy ▸ hy)
  unfold runqRemove at hk
  rw [htail] at hk
  dsimp only at hk
  by_cases hself : k.next i = some i
  · have hr : isRunnable k i := by
      by_contra hn
      rw [ho hn] at hself
      cases hself
    rw [if_pos hself, Option.some.injEq] at hk
    subst hk
    refine .inr ⟨hr, ?_, fun z hz _ => ?_⟩
    · simp
    · rw [Kernel.setTail_tasks, Kernel.setNext, k.modify_of_ne i _ hz]
  · rw [if_neg hself] at hk
    split at hk
    · cases hk
    · rename_i hf
      refine .inl ⟨(Option.some.inj hk).symm, fun hr => ?_⟩
      have hlen : xs.length ≤ 17 := by
        have := hring.nodup.length_le_card
        simp at this
        omega
      obtain ⟨prev, -, -, hfind, -⟩ := hring.exists_findPrev ((hm i).2 hr) hself hlen
      rw [hf] at hfind
      cases hfind
    · rename_i prev hf
      rw [Option.some.injEq] at hk
      subst hk
      have hp : prev ∈ xs := findPrev_mem hring hring.tail_mem hf
      have hr := hrun (findPrev_link hf) hp
      refine .inr ⟨hr, ?_, fun z hz hn => ?_⟩
      · simp
      · have hzp : z ≠ prev := fun he => hn ((hm z).1 (he ▸ hp))
        rw [Kernel.setTail_tasks, Kernel.setNext, Kernel.setNext, Kernel.modify_of_ne _ i _ hz,
          k.modify_of_ne prev _ hzp]

end Queued

end OscKernel.Thread.RunQueue
