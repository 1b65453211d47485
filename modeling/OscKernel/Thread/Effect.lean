import OscKernel.Thread.Inv

/-! # What the functions of `thread.c` do to each task

`Affects c al k k'`: between `k` and `k'`, while the task `c` runs, every slot keeps its task, or it is
cleared, or it gets a new task. Only slots that `al` allows are cleared or get a kernel thread. Only
the task `c` changes its own signal state and its own context.

* `killZombies_tasks`: `kill_zombies` clears the zombies that nobody can wait for.
* `Affects.trans`: how effects compose. -/

namespace OscKernel.Thread.Effect

open OscKernel.Lib.Memory
open OscKernel.Thread.Task OscKernel.Thread.RunQueue OscKernel.Thread.Sched OscKernel.Thread.Inv

/-- The signal state of a task without the pending signals. -/
def signals (t : TaskStruct) : (Fin maxSignals → Word) × Bool × ℕ × TrapFrame :=
  (t.signalHandlers, t.handlingSignal, t.currentSignal, t.signalSavedTf)

/-- The slot keeps its task; only its own code changes its signal state and its context. -/
structure Kept (own : Prop) (t t' : TaskStruct) : Prop where
  pid : t'.pid = t.pid
  parent : t'.parent = t.parent
  isUser : t'.isUser = t.isUser
  unused : t'.state = .unused ↔ t.state = .unused
  zombie : t.state = .zombie → t'.state = .zombie
  other : ¬ own → signals t' = signals t ∧ t'.context = t.context

theorem Kept.refl (own : Prop) (t : TaskStruct) : Kept own t t :=
  ⟨rfl, rfl, rfl, Iff.rfl, id, fun _ => ⟨rfl, rfl⟩⟩

theorem Kept.trans {own : Prop} {t t1 t2 : TaskStruct} (h : Kept own t t1) (h' : Kept own t1 t2) :
    Kept own t t2 where
  pid := h'.pid.trans h.pid
  parent := h'.parent.trans h.parent
  isUser := h'.isUser.trans h.isUser
  unused := h'.unused.trans h.unused
  zombie := fun hz => h'.zombie (h.zombie hz)
  other := fun ho => ⟨(h'.other ho).1.trans (h.other ho).1, (h'.other ho).2.trans (h.other ho).2⟩

theorem Kept.of_eq {own : Prop} {t t' : TaskStruct} (hp : t'.pid = t.pid)
    (hpar : t'.parent = t.parent)
    (hu : t'.isUser = t.isUser) (hs : t'.state = t.state)
    (ho : ¬ own → signals t' = signals t ∧ t'.context = t.context) : Kept own t t' :=
  ⟨hp, hpar, hu, by rw [hs], fun hz => hs.trans hz, ho⟩

/-- What may become of the slots: which may be cleared, and which may get a kernel thread. -/
structure Allow where
  clear : Slot → Prop
  thread : Slot → Prop

/-- Nothing is cleared, and there is no new kernel thread. -/
def Allow.nothing : Allow := ⟨fun _ => False, fun _ => False⟩

/-- What becomes of a slot. -/
inductive Fate (c : Slot) (own clr thr : Prop) (lo hi : ℤ) (t t' : TaskStruct) : Prop
  | kept (h : Kept own t t')
  | cleared (hc : clr) (hz : t.state = .zombie) (hu : t'.state = .unused) (hp : t'.parent = none)
      (hus : t'.isUser = false)
  | born (hc : t.state = .unused ∨ t.state = .zombie ∧ clr) (hu : t'.state ≠ .unused) (ho : ¬ own)
      (hlo : lo ≤ t'.pid) (hhi : t'.pid < hi)
      (hp : (thr ∧ t'.isUser = false ∧ t'.parent = none) ∨ (t'.isUser = true ∧ t'.parent = some c))
      (hx : ∃ ra sp, t'.context = .start ra sp)

/-- The effect on all slots. -/
structure Affects (c : Slot) (al : Allow) (k k' : Kernel) : Prop where
  fate : ∀ i, Fate c (i = c) (al.clear i) (al.thread i) k.nextPid k'.nextPid (k.tasks i) (k'.tasks i)
  nextPid : k.nextPid ≤ k'.nextPid

section Affects
variable {c i : Slot} {al : Allow} {k k1 k' : Kernel}

theorem Affects.refl (c : Slot) (al : Allow) (k : Kernel) : Affects c al k k :=
  ⟨fun _ => .kept (.refl _ _), le_rfl⟩

theorem Affects.congr (h : Affects c al k k1) (ht : k'.tasks = k1.tasks)
    (hp : k'.nextPid = k1.nextPid) : Affects c al k k' :=
  ⟨fun i => by rw [ht, hp]; exact h.fate i, by rw [hp]; exact h.nextPid⟩

/-- **Effects compose**: first slots are cleared, then no more. -/
theorem Affects.trans (h : Affects c al k k1) (h' : Affects c .nothing k1 k') : Affects c al k k' := by
  refine ⟨fun i => ?_, h.nextPid.trans h'.nextPid⟩
  have hle := h.nextPid
  have hle' := h'.nextPid
  rcases h'.fate i with hk' | hc' | ⟨hc', hu', ho', hlo', hhi', hp', hx'⟩
  · rcases h.fate i with hk | ⟨hc, hz, hu, hp, hus⟩ | ⟨hc, hu, ho, hlo, hhi, hp, hx⟩
    · exact .kept (hk.trans hk')
    · exact .cleared hc hz (hk'.unused.2 hu) (hk'.parent.trans hp) (hk'.isUser.trans hus)
    · refine .born hc (fun hn => hu (hk'.unused.1 hn)) ho ?_ ?_ ?_ ?_
      · rw [hk'.pid]
        exact hlo
      · rw [hk'.pid]
        omega
      · rwa [hk'.isUser, hk'.parent]
      · rwa [(hk'.other ho).2]
  · exact hc'.elim
  · have hu1 : (k1.tasks i).state = .unused := hc'.resolve_right fun hn => hn.2
    have hp1 := hp'.resolve_left fun hn => hn.1
    rcases h.fate i with hk | ⟨hc, hz, -, -, -⟩ | ⟨-, hu, -⟩
    · exact .born (.inl (hk.unused.1 hu1)) hu' ho' (hle.trans hlo') hhi' (.inr hp1) hx'
    · exact .born (.inr ⟨hz, hc⟩) hu' ho' (hle.trans hlo') hhi' (.inr hp1) hx'
    · exact absurd hu1 hu

theorem Affects.mono {b : Allow} (h : Affects c al k k') (hc : ∀ i, al.clear i → b.clear i)
    (ht : ∀ i, al.thread i → b.thread i) : Affects c b k k' := by
  refine ⟨fun i => ?_, h.nextPid⟩
  rcases h.fate i with hk | ⟨hc1, hz, hu, hp, hus⟩ | ⟨hc1, hu, ho, hlo, hhi, hp, hx⟩
  · exact .kept hk
  · exact .cleared (hc i hc1) hz hu hp hus
  · exact .born (hc1.imp_right fun hn => ⟨hn.1, hc i hn.2⟩) hu ho hlo hhi
      (hp.imp_left fun hn => ⟨ht i hn.1, hn.2⟩) hx

theorem Affects.of_nothing (h : Affects c .nothing k k') : Affects c al k k' :=
  h.mono (fun _ hn => hn.elim) fun _ hn => hn.elim

theorem Affects.modify {f : TaskStruct → TaskStruct} (h : Kept (i = c) (k.tasks i) (f (k.tasks i))) :
    Affects c al k (k.modify i f) := by
  refine ⟨fun j => .kept ?_, le_rfl⟩
  rcases eq_or_ne j i with rfl | hj
  · rwa [k.modify_same]
  · rw [k.modify_of_ne i f hj]
    exact .refl _ _

theorem Affects.queueOnly (h : QueueOnly k k') : Affects c al k k' := by
  refine ⟨fun i => .kept ?_, h.nextPid.ge⟩
  refine .of_eq (h.proj TaskStruct.pid (fun _ => rfl) i) (h.proj TaskStruct.parent (fun _ => rfl) i)
    (h.proj TaskStruct.isUser (fun _ => rfl) i) (h.proj TaskStruct.state (fun _ => rfl) i)
    fun _ => ⟨h.proj signals (fun _ => rfl) i, h.proj TaskStruct.context (fun _ => rfl) i⟩

theorem Affects.setState (hi : isRunnable k i) {s : TaskState} (hs : s ≠ .unused) :
    Affects c al k (k.setState i s) := by
  refine Affects.modify ⟨rfl, rfl, rfl, ?_, ?_, fun _ => ⟨rfl, rfl⟩⟩
  · refine iff_of_false hs ?_
    rcases hi with hi | hi <;> exact fun hn => by rw [Kernel.state, hn] at hi; cases hi
  · intro hz
    rcases hi with hi | hi <;> rw [Kernel.state, hz] at hi <;> cases hi

end Affects

/-- A free slot has no parent and is no user process. -/
def Tidy (k : Kernel) : Prop :=
  ∀ i, k.state i = .unused → (k.tasks i).parent = none ∧ (k.tasks i).isUser = false

theorem Affects.tidy {c : Slot} {al : Allow} {k k' : Kernel} (h : Affects c al k k')
    (ht : Tidy k) : Tidy k' := by
  intro i hi
  rcases h.fate i with hk | ⟨-, -, -, hp, hus⟩ | ⟨-, hu, -⟩
  · obtain ⟨hp, hu⟩ := ht i (hk.unused.1 hi)
    exact ⟨hk.parent.trans hp, hk.isUser.trans hu⟩
  · exact ⟨hp, hus⟩
  · exact absurd hi hu

theorem Affects.adopt {c i : Slot} {clr : Slot → Prop} {k k' : Kernel}
    (h : Affects c ⟨clr, fun j => j = i⟩ k k')
    (hi : k.state i = .unused ∨ k.state i = .zombie ∧ clr i) (hic : i ≠ c)
    (hu : k'.state i ≠ .unused) (hx : ∃ ra sp, (k'.tasks i).context = .start ra sp)
    (hlo : k.nextPid ≤ (k'.tasks i).pid) (hhi : (k'.tasks i).pid < k'.nextPid)
    {f : TaskStruct → TaskStruct} (hv : ∀ t, view (f t) = view t) (hus : ∀ t, (f t).isUser = true)
    (hpar : ∀ t, (f t).parent = some c) :
    Affects c ⟨clr, fun _ => False⟩ k (k'.modify i f) := by
  refine ⟨fun j => ?_, h.nextPid⟩
  rcases eq_or_ne j i with rfl | hj
  · rw [k'.modify_same]
    have hs : (f (k'.tasks j)).state = (k'.tasks j).state := congrArg (·.2.1) (hv _)
    have hp : (f (k'.tasks j)).pid = (k'.tasks j).pid := congrArg (·.2.2.1) (hv _)
    have hc : (f (k'.tasks j)).context = (k'.tasks j).context := congrArg (·.2.2.2) (hv _)
    refine .born hi ?_ hic ?_ ?_ (.inr ⟨hus _, hpar _⟩) ?_
    · rw [hs]
      exact hu
    · rw [hp]
      exact hlo
    · rw [hp]
      exact hhi
    · rw [hc]
      exact hx
  · rw [k'.modify_of_ne i f hj]
    rcases h.fate j with hk | ⟨hc, hz, hu, hp, hus⟩ | ⟨hc, hu, ho, hlo, hhi, hp, hx⟩
    · exact .kept hk
    · exact .cleared hc hz hu hp hus
    · exact .born hc hu ho hlo hhi (.inr (hp.resolve_left fun hn => hj hn.1)) hx

/-! ### Reaping -/

section Reap
variable {c i : Slot} {k : Kernel}

theorem taskReap_effect (h0 : k.idleTask ≠ some i) (hz : k.state i = .zombie) :
    Affects c ⟨fun j => j = i, fun _ => False⟩ k (taskReap k (some i)) := by
  have hr : taskReap k (some i) = k.modify i reaped := by
    rw [taskReap, if_neg h0, if_neg (not_not.2 hz)]
  rw [hr]
  refine ⟨fun j => ?_, le_rfl⟩
  rcases eq_or_ne j i with rfl | hj
  · rw [k.modify_same]
    exact .cleared rfl hz rfl rfl rfl
  · rw [k.modify_of_ne i _ hj]
    exact .kept (.refl _ _)

theorem killZombie_of_ne {j : Slot} (hj : j ≠ i) : (killZombie k i).tasks j = k.tasks j := by
  unfold killZombie taskReap
  dsimp only
  split_ifs <;> first | rfl | exact k.modify_of_ne i _ hj

/-- Reaping a zombie that nobody can wait for changes nothing for the others. -/
theorem waitedFor_killZombie {j : Slot} (hj : j ≠ i) :
    waitedFor (killZombie k i) j ↔ waitedFor k j := by
  unfold waitedFor
  rw [killZombie_of_ne hj]
  refine exists_congr fun p => and_congr_right fun _ => ?_
  rcases eq_or_ne p i with rfl | hp
  · have hcases : killZombie k p = k ∨ (killZombie k p = k.modify p reaped ∧ k.state p = .zombie) := by
      unfold killZombie taskReap
      dsimp only
      split_ifs with h1 h2 h3
      · exact .inl rfl
      · exact .inl rfl
      · exact .inl rfl
      · exact .inr ⟨rfl, not_not.1 h1⟩
    rcases hcases with he | ⟨he, hz⟩
    · rw [he]
    · refine iff_of_false (fun h => h.2.1 ?_) fun h => h.2.2 hz
      rw [he, k.state_modify, Function.update_self]
      rfl
  · rw [Kernel.state, killZombie_of_ne hp, Kernel.state]

theorem foldl_killZombie_tasks (h0 : k.idleTask = some 0) (l : List Slot) (hl : l.Nodup)
    (hl0 : 0 ∉ l) (i : Slot) :
    (l.foldl killZombie k).tasks i =
      if i ∈ l ∧ k.state i = .zombie ∧ ¬ waitedFor k i then reaped (k.tasks i) else k.tasks i := by
  induction l generalizing k with
  | nil => simp
  | cons a l ih =>
    obtain ⟨ha, hl⟩ := List.nodup_cons.1 hl
    have ha0 : a ≠ 0 := fun he => hl0 (by simp [he])
    have hidle : (killZombie k a).idleTask = some 0 := by
      unfold killZombie
      split_ifs
      · exact h0
      · exact h0
      · exact (taskReap_frame k _).2.2.trans h0
    rw [List.foldl_cons, ih hidle hl fun h => hl0 (by simp [h])]
    rcases eq_or_ne i a with rfl | hi
    · rw [if_neg fun h => ha h.1]
      have hna : ¬ k.idleTask = some i := by
        rw [h0, Option.some.injEq]
        exact ha0.symm
      by_cases h1 : k.state i = .zombie
      · by_cases h2 : waitedFor k i
        · rw [if_neg fun h => h.2.2 h2, killZombie, if_neg (not_not.2 h1), if_pos h2]
        · rw [if_pos ⟨by simp, h1, h2⟩, killZombie, if_neg (not_not.2 h1), if_neg h2, taskReap,
            if_neg hna, if_neg (not_not.2 h1), k.modify_same]
      · rw [if_neg fun h => h1 h.2.1, killZombie, if_pos h1]
    · simp only [waitedFor_killZombie hi, Kernel.state, killZombie_of_ne hi, List.mem_cons, hi,
        false_or]

/-- **`kill_zombies`** clears the zombies that nobody can wait for. -/
theorem killZombies_tasks (h0 : k.idleTask = some 0) (i : Slot) :
    (killZombies k).tasks i =
      if i ≠ 0 ∧ k.state i = .zombie ∧ ¬ waitedFor k i then reaped (k.tasks i) else k.tasks i := by
  have hl : ((List.finRange 16).drop 1).Nodup := (List.nodup_finRange 16).sublist (List.drop_sublist ..)
  have hl0 : (0 : Slot) ∉ (List.finRange 16).drop 1 := by decide
  have hmem : i ∈ (List.finRange 16).drop 1 ↔ i ≠ 0 := by
    revert i
    decide
  unfold killZombies
  rw [foldl_killZombie_tasks h0 _ hl hl0]
  simp only [hmem]

/-- The zombies that `kill_zombies` clears. -/
def unclaimed (k : Kernel) (i : Slot) : Prop := k.state i = .zombie ∧ ¬ waitedFor k i

/-- `kill_zombies` may run. -/
def Allow.sweep (k : Kernel) : Allow := ⟨unclaimed k, fun _ => False⟩

theorem killZombies_effect {thr : Slot → Prop} (h0 : k.idleTask = some 0) :
    Affects c ⟨unclaimed k, thr⟩ k (killZombies k) := by
  refine ⟨fun i => ?_, (killZombies_frame k).2.1.ge⟩
  rw [killZombies_tasks h0]
  split_ifs with h
  · exact .cleared h.2 h.2.1 rfl rfl rfl
  · exact .kept (.refl _ _)

end Reap

/-! ### Creation -/

section Create
variable {L : Layout} {c : Slot} {k k' : Kernel} {fn : Word} {r : Option Slot}

/-- The slot `i` has a new task in `k'`. -/
structure Created (k k' : Kernel) (i : Slot) : Prop where
  free : k.state i = .unused ∨ k.state i = .zombie ∧ unclaimed k i
  context : ∃ ra sp, (k'.tasks i).context = .start ra sp
  state : k'.state i = .runnable
  pid : (k'.tasks i).pid = k.nextPid
  nextPid : k'.nextPid = k.nextPid + 1

theorem Affects.create {i : Slot} {k1 : Kernel} {clr : Slot → Prop} {f : TaskStruct → TaskStruct}
    (h : Affects c ⟨clr, fun j => j = i⟩ k k1) (ht : Tidy k) (hc : isRunnable k c)
    (hi : k1.state i = .unused)
    (hs : ∀ t, (f t).state = .runnable) (hp : ∀ t, (f t).pid = k1.nextPid)
    (hus : ∀ t, (f t).isUser = t.isUser) (hpar : ∀ t, (f t).parent = t.parent)
    (hx : ∀ t, ∃ ra sp, (f t).context = .start ra sp) :
    Affects c ⟨clr, fun j => j = i⟩ k { k1.modify i f with nextPid := k1.nextPid + 1 } := by
  have hn := h.nextPid
  refine ⟨fun j => ?_, by change _ ≤ k1.nextPid + 1; omega⟩
  change Fate c (j = c) (clr j) (j = i) k.nextPid (k1.nextPid + 1) (k.tasks j) ((k1.modify i f).tasks j)
  rcases eq_or_ne j i with rfl | hj
  · rw [k1.modify_same]
    obtain ⟨hp1, hu1⟩ := h.tidy ht j hi
    have hfree : k.state j = .unused ∨ k.state j = .zombie ∧ clr j := by
      rcases h.fate j with hk | ⟨hc, hz, -, -, -⟩ | ⟨-, hu, -⟩
      · exact .inl (hk.unused.1 hi)
      · exact .inr ⟨hz, hc⟩
      · exact absurd hi hu
    have hjc : j ≠ c := by
      rintro rfl
      rcases hfree with he | ⟨he, -⟩ <;> rcases hc with hc | hc <;> rw [he] at hc <;> cases hc
    refine .born hfree ?_ hjc ?_ ?_ (.inl ⟨rfl, (hus _).trans hu1, (hpar _).trans hp1⟩) (hx _)
    · rw [hs]
      decide
    · rw [hp]
      exact hn
    · rw [hp]
      omega
  · rw [k1.modify_of_ne i f hj]
    rcases h.fate j with hk | ⟨hc, hz, hu, hp, hus⟩ | ⟨hc, hu, ho, hlo, hhi, hp, hx⟩
    · exact .kept hk
    · exact .cleared hc hz hu hp hus
    · exact .born hc hu ho hlo (by omega) hp hx

/-- **`thread_create`** reaps, and gives a free slot to the new thread. -/
theorem threadCreate_effect (h0 : k.idleTask = some 0) (ht : Tidy k) (hc : isRunnable k c)
    (h : threadCreate L fn k = some (k', r)) :
    Affects c ⟨unclaimed k, fun j => r = some j⟩ k k' ∧ ∀ i, r = some i → Created k k' i := by
  have hz : ∀ thr, Affects c ⟨unclaimed k, thr⟩ k (killZombies k) := fun _ => killZombies_effect h0
  have hnp := (killZombies_frame k).2.1
  rcases threadCreate_cases h with ⟨rfl, rfl, -⟩ | ⟨i, rfl, hi, -, rfl⟩
  · exact ⟨hz _, fun i hi => by cases hi⟩
  · set k1 : Kernel := { (killZombies k).modify i (newThread L fn (killZombies k).nextPid i) with
      nextPid := (killZombies k).nextPid + 1 } with hk1
    have h1 : Affects c ⟨unclaimed k, fun j => j = i⟩ k k1 :=
      (hz _).create ht hc hi (newThread_state L fn _ i) (newThread_pid L fn _ i) (fun _ => rfl)
        (fun _ => rfl) fun _ => ⟨_, _, rfl⟩
    have hq := runqAdd_queueOnly k1 i
    have htask : k1.tasks i = newThread L fn (killZombies k).nextPid i ((killZombies k).tasks i) :=
      (killZombies k).modify_same i _
    have h2 := (h1.trans (.queueOnly hq)).mono (b := ⟨unclaimed k, fun j => some i = some j⟩)
      (fun _ hn => hn) fun _ hn => congrArg some hn.symm
    refine ⟨h2, fun j hj => ?_⟩
    rw [Option.some.injEq] at hj
    subst hj
    refine ⟨?_, ?_, ?_, ?_, ?_⟩
    · rcases (hz fun _ => False).fate i with hk | ⟨hc, hz, -, -, -⟩ | ⟨-, hu, -⟩
      · exact .inl (hk.unused.1 hi)
      · exact .inr ⟨hz, hc⟩
      · exact absurd hi hu
    · rw [hq.proj TaskStruct.context fun _ => rfl, htask]
      exact ⟨_, _, rfl⟩
    · rw [hq.state, Kernel.state, htask, newThread_state]
    · rw [hq.proj TaskStruct.pid fun _ => rfl, htask, newThread_pid, hnp]
    · rw [hq.nextPid, hk1]
      change (killZombies k).nextPid + 1 = _
      rw [hnp]

end Create

/-! ### Switching -/

section Switch
variable {L : Layout} {c i : Slot} {k k' : Kernel} {flow : Flow}

theorem runqRemove_queueOnly (h : runqRemove k i = some k') : QueueOnly k k' := by
  unfold runqRemove at h
  split at h
  · rw [Option.some.injEq] at h
    exact h ▸ ⟨fun _ => rfl, rfl, rfl, rfl, rfl⟩
  · by_cases hn : k.next i = some i
    · rw [if_pos hn, Option.some.injEq] at h
      exact h ▸ (QueueOnly.setNext k i none).trans (.setTail _ none)
    · simp only [if_neg hn] at h
      split at h
      · cases h
      · rw [Option.some.injEq] at h
        exact h ▸ ⟨fun _ => rfl, rfl, rfl, rfl, rfl⟩
      · rename_i prev _
        rw [Option.some.injEq] at h
        exact h ▸ ((QueueOnly.setNext k prev _).trans (.setNext _ i none)).trans (.setTail _ _)

theorem schedule_cases (h : schedule k = some (k', flow)) :
    (k' = k ∧ flow = .ret) ∨ ∃ c n, k.tp = some c ∧ flow = .switch c n ∧
      (k' = k.setState n .running ∨ k' = (k.setState c .runnable).setState n .running) := by
  unfold schedule at h
  split at h
  · simp only [Option.some.injEq, Prod.mk.injEq] at h
    exact .inl ⟨h.1.symm, h.2.symm⟩
  · simp only [Option.some.injEq, Prod.mk.injEq] at h
    exact .inl ⟨h.1.symm, h.2.symm⟩
  · rename_i c _ ht _
    rcases hp : pickNext k c with _ | n
    · rw [hp] at h
      cases h
    · rw [hp] at h
      simp only [Option.bind_eq_bind, Option.bind_some] at h
      split_ifs at h <;> simp only [Option.some.injEq, Prod.mk.injEq] at h
      · exact .inl ⟨h.1.symm, h.2.symm⟩
      · exact .inr ⟨c, n, ht, h.2.symm, .inr h.1.symm⟩
      · exact .inr ⟨c, n, ht, h.2.symm, .inl h.1.symm⟩

theorem threadExit_cases (h : threadExit k = some (k', flow)) :
    ∃ c n k1, k.tp = some c ∧ QueueOnly k k1 ∧ flow = .switch c n ∧
      k' = (k1.setState c .zombie).setState n .running := by
  unfold threadExit at h
  rcases ht : k.tp with _ | c
  · rw [ht] at h
    cases h
  · rw [ht] at h
    simp only [Option.bind_eq_bind, Option.bind_some] at h
    rcases he : exitTarget k c with _ | t
    · rw [he] at h
      cases h
    · rw [he] at h
      rcases hr : runqRemove k c with _ | k1
      · rw [hr] at h
        cases h
      · rw [hr] at h
        simp only [Option.bind_some] at h
        split_ifs at h
        · rcases hi : (k1.setState c .zombie).idleTask with _ | n
          · rw [hi] at h
            cases h
          · rw [hi] at h
            simp only [Option.bind_some, Option.some.injEq, Prod.mk.injEq] at h
            exact ⟨c, n, k1, rfl, runqRemove_queueOnly hr, h.2.symm, h.1.symm⟩
        · simp only [Option.some.injEq, Prod.mk.injEq] at h
          exact ⟨c, t, k1, rfl, runqRemove_queueOnly hr, h.2.symm, h.1.symm⟩

theorem taskKill_cases {pid r : ℤ} {status : BitVec 32}
    (h : taskKill k pid status = some (k', flow, r)) :
    (k' = k ∧ flow = .ret) ∨
    (∃ c, k.tp = some c ∧ k.idleTask ≠ some c ∧
      threadExit (k.setExitStatus c status) = some (k', flow)) ∨
    ∃ i k1, k.tp ≠ some i ∧ QueueOnly k k1 ∧ flow = .ret ∧ k.state i ≠ .unused ∧ k.state i ≠ .zombie ∧
      k' = (k1.setExitStatus i status).setState i .zombie := by
  unfold taskKill at h
  split at h
  · simp only [Option.some.injEq, Prod.mk.injEq] at h
    exact .inl ⟨h.1.symm, h.2.1.symm⟩
  · rename_i i _
    split_ifs at h with h1 h2 h3
    · simp only [Option.some.injEq, Prod.mk.injEq] at h
      exact .inl ⟨h.1.symm, h.2.1.symm⟩
    · simp only [Option.some.injEq, Prod.mk.injEq] at h
      exact .inl ⟨h.1.symm, h.2.1.symm⟩
    · rcases he : threadExit (k.setExitStatus i status) with _ | ⟨k1, f⟩
      · rw [he] at h
        cases h
      · rw [he] at h
        simp only [Option.bind_eq_bind, Option.bind_some, Option.some.injEq, Prod.mk.injEq] at h
        exact .inr (.inl ⟨i, h3, h1, by rw [he, h.1, h.2.1]⟩)
    · rcases hr : runqRemove k i with _ | k1
      · rw [hr] at h
        cases h
      · rw [hr] at h
        simp only [Option.bind_eq_bind, Option.bind_some, Option.some.injEq, Prod.mk.injEq] at h
        rw [not_or] at h2
        exact .inr (.inr ⟨i, k1, h3, runqRemove_queueOnly hr, h.2.1.symm, h2.1, h2.2, h.1.symm⟩)

/-- **`schedule`** keeps every task. -/
theorem schedule_effect (ht : k.tp = some c) (h : TableInv L k (some c) none)
    (hs : schedule k = some (k', flow)) :
    Affects c .nothing k k' := by
  rcases schedule_inv ht h with he | ⟨k1, n, he, -, hn, hk1⟩
  · rw [he, Option.some.injEq, Prod.mk.injEq] at hs
    exact hs.1 ▸ .refl _ _ _
  · rw [he, Option.some.injEq, Prod.mk.injEq] at hs
    have hr : isRunnable (k.setState c .runnable) n := by
      rw [isRunnable, k.state_setState]
      split_ifs
      · exact .inl rfl
      · exact hn
    rw [← hs.1, hk1]
    exact (Affects.setState h.isRunnable_cur (by decide)).trans (.setState hr (by decide))

/-- **`thread_exit`** keeps every task. -/
theorem threadExit_effect (ht : k.tp = some c) (h : TableInv L k (some c) none) (h0 : c ≠ 0)
    (hs : threadExit k = some (k', flow)) : Affects c .nothing k k' := by
  obtain ⟨k2, n, he, hsw, hn, -⟩ := threadExit_inv ht h h0
  obtain ⟨c', n', k1, ht', hq, hf, hk'⟩ := threadExit_cases hs
  rw [he, Option.some.injEq, Prod.mk.injEq] at hs
  obtain ⟨rfl, hflow⟩ := hs
  rw [ht, Option.some.injEq] at ht'
  subst ht'
  rw [← hflow, Flow.switch.injEq] at hf
  obtain ⟨-, rfl⟩ := hf
  have hc1 : isRunnable k1 c := by
    rw [isRunnable, hq.state]
    exact h.isRunnable_cur
  have hn1 : isRunnable (k1.setState c .zombie) n := by
    rw [isRunnable, Kernel.state_setState, if_neg hsw.ne, hq.state]
    exact hn
  rw [hk']
  exact ((Affects.queueOnly hq).trans (.setState hc1 (by decide))).trans (.setState hn1 (by decide))

theorem setExitStatus_effect (status : BitVec 32) : Affects c .nothing k (k.setExitStatus i status) :=
  .modify (.of_eq rfl rfl rfl rfl fun _ => ⟨rfl, rfl⟩)

/-- **`task_kill`** keeps every task. -/
theorem taskKill_effect {pid r : ℤ} {status : BitVec 32} (ht : k.tp = some c)
    (h : TableInv L k (some c) none) (hs : taskKill k pid status = some (k', flow, r)) :
    Affects c .nothing k k' := by
  rcases taskKill_cases hs with ⟨rfl, -⟩ | ⟨d, htd, hid, he⟩ | ⟨i, k1, -, hq, -, hu, hz, rfl⟩
  · exact .refl _ _ _
  · rw [ht, Option.some.injEq] at htd
    subst htd
    have h0 : c ≠ 0 := fun h0 => hid (by rw [h.idleTask, h0])
    exact (setExitStatus_effect status).trans
      (threadExit_effect (by exact ht) (h.modify fun _ => rfl) h0 he)
  · have hi : isRunnable (k1.setExitStatus i status) i := by
      rw [isRunnable, Kernel.setExitStatus, Kernel.state_modify, Function.update_self]
      change (k1.tasks i).state = _ ∨ (k1.tasks i).state = _
      rw [hq.proj TaskStruct.state fun _ => rfl]
      change k.state i = _ ∨ k.state i = _
      rcases hsi : k.state i <;> simp_all
    exact ((Affects.queueOnly hq).trans (setExitStatus_effect status)).trans (.setState hi (by decide))

/-- **`switch_to`** saves the context of the task it leaves and goes on with that of the next one. -/
theorem switchTo_cases {prev next me : Slot} {act : Act} {r : Slot × Act}
    (h : switchTo L k prev next me act = some (k', r)) :
    k' = (k.setContext prev (.saved me act)).setTp (some next) ∧
      ((r = (next, .fresh) ∧ ∃ ra sp, (k'.tasks next).context = .start ra sp) ∨
        (k'.tasks next).context = .saved r.1 r.2) := by
  unfold switchTo at h
  dsimp only at h
  split at h
  · cases h
  · rename_i heq
    split_ifs at h
    rw [Option.some.injEq, Prod.mk.injEq] at h
    obtain ⟨rfl, rfl⟩ := h
    exact ⟨rfl, .inl ⟨rfl, _, _, heq⟩⟩
  · rename_i heq
    rw [Option.some.injEq, Prod.mk.injEq] at h
    obtain ⟨rfl, rfl⟩ := h
    exact ⟨rfl, .inr heq⟩

end Switch

end OscKernel.Thread.Effect
