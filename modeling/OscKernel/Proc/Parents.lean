import OscKernel.Proc.Step

/-! # Parent links

The history keeps the pid of the process that created the task of each slot. A parent link is a slot:
`task_reap` clears a slot without a look at the tasks that have it as their parent.

* `parentsOk_iff`: a step keeps the links right exactly if no slot is cleared before the tasks that
  have it as their parent.
* `parentsOk_of_run`: the links in a whole run. -/

namespace OscKernel.Proc.Parents

open OscKernel.Lib.Memory OscKernel.Lib.Riscv OscKernel.Lib.Transition
open OscKernel.Thread.Task OscKernel.Thread.Sched OscKernel.Thread.Inv OscKernel.Thread.Effect
open OscKernel.Proc.Ops OscKernel.Proc.System OscKernel.Proc.Step

/-- The pid of the process that created the task of each slot. -/
abbrev Creators : Type := Slot → ℤ

/-- A task with a new pid is created by the process on the processor. -/
def Creators.update (h : Creators) (s : Sys) (_ : List Obs) (t : Sys) : Creators := fun i =>
  if s.k.nextPid ≤ (t.k.tasks i).pid then (s.k.tasks s.me).pid else h i

/-- The system with the history of creation. -/
def step (L : Layout) : Sys × Creators → Event → Option (Sys × Creators) :=
  withHistory (Sys.step L) Creators.update

/-- The start. -/
def start (L : Layout) (m : Mem) : Sys × Creators := (boot L m, fun _ => 0)

/-- Every parent link leads to the process that created the task. -/
def ParentsOk (k : Kernel) (creator : Creators) : Prop :=
  ∀ i p, k.state i ≠ .unused → (k.tasks i).parent = some p →
    k.state p ≠ .unused ∧ (k.tasks p).pid = creator i

/-- A slot is cleared only with, or after, all tasks that have it as their parent. -/
def ChildrenFirst (k k' : Kernel) : Prop :=
  ∀ p i, Clears k k' p → k.state i ≠ .unused → (k.tasks i).parent = some p → Clears k k' i

/-- The condition on a step: user code leaves `tp` alone, and children are cleared first. -/
def Condition (L : Layout) (s : Sys × Creators) (e : Event) : Prop :=
  TpKept L s.1 e ∧ ∀ t os, s.1.step L e = some (t, os) → ChildrenFirst s.1.k t.k

section Step
variable {L : Layout} {s t : Sys} {h : Creators} {os : List Obs} {e : Event}

theorem update_kept (hi : SysInv L s) {i : Slot} (hu : s.k.state i ≠ .unused)
    (hp : (t.k.tasks i).pid = (s.k.tasks i).pid) : h.update s os t i = h i := by
  have := hi.table.pid_lt i hu
  rw [Creators.update, if_neg (by omega)]

/-- **One step** keeps the parent links right if and only if children are cleared first. -/
theorem parentsOk_iff (hi : SysInv L s) (ho : StepOk L s e t) (hk : ParentsOk s.k h) :
    ParentsOk t.k (h.update s os t) ↔ ChildrenFirst s.k t.k := by
  refine ⟨fun hok p i hc hu hpar => ?_, fun hcf i p hu hpar => ?_⟩
  · by_contra hn
    obtain ⟨hup, hpid⟩ := hk i p hu hpar
    have hkept := kept_of_not_clears ho.effect hi.table hu hn
    have hu' : t.k.state i ≠ .unused := fun hh => hu (hkept.unused.1 hh)
    obtain ⟨hp1, hp2⟩ := hok i p hu' (hkept.parent.trans hpar)
    rw [update_kept hi hu hkept.pid, ← hpid] at hp2
    rcases hc.2 with hn1 | hn2
    · exact hp1 hn1
    · exact hn2 hp2
  · rcases kept_or_new ho.effect hu with ⟨hu', hkept⟩ | ⟨hnew, -, hp⟩
    · have hpar' : (s.k.tasks i).parent = some p := hkept.parent ▸ hpar
      obtain ⟨hup, hpid⟩ := hk i p hu' hpar'
      have hnc : ¬ Clears s.k t.k p := by
        intro hc
        rcases (hcf p i hc hu' hpar').2 with h1 | h1
        · exact hu h1
        · exact h1 hkept.pid
      have hkp := kept_of_not_clears ho.effect hi.table hup hnc
      rw [update_kept hi hu' hkept.pid, hkp.pid]
      exact ⟨fun hh => hup (hkp.unused.1 hh), hpid⟩
    · -- a new task is a child of the task on the processor
      have hpme : p = s.me := by
        rcases hp with ⟨-, hp⟩ | ⟨-, hp⟩ <;> rw [hp] at hpar
        · cases hpar
        · exact (Option.some.inj hpar).symm
      subst hpme
      have hru : s.k.state s.me ≠ .unused := by
        rcases hi.table.isRunnable_cur with hr | hr <;> rw [hr] <;> decide
      have hkp := kept_of_not_clears ho.effect hi.table hru (not_clears_cur ho.effect hi.table)
      rw [Creators.update, if_pos hnew]
      exact ⟨fun hh => hru (hkp.unused.1 hh), hkp.pid⟩

end Step

/-- What the parent links are good for: a process can wait for the processes that it has created only,
and `thread_exit` hands the processor to the process that created the one that ends. -/
structure LinksOk (s : Sys) (creator : Creators) : Prop where
  parents : ParentsOk s.k creator
  waitpid : ∀ pid child, waitpidChild s.k pid = some child →
    (s.k.tasks child).pid = pid ∧ (s.k.tasks s.me).pid = creator child
  exit : ∀ p, (s.k.tasks s.me).parent = some p → (s.k.tasks p).pid = creator s.me

theorem linksOk_of_parentsOk {L : Layout} {s : Sys} {creator : Creators} (hi : SysInv L s)
    (hk : ParentsOk s.k creator) : LinksOk s creator := by
  refine ⟨hk, fun pid child hc => ?_, fun p hp => (hk s.me p ?_ hp).2⟩
  · obtain ⟨hf, hpar⟩ := Option.filter_eq_some_iff.1 hc
    have hfind := List.find?_some hf
    simp only [ne_eq, decide_eq_true_eq] at hfind hpar
    rw [hi.tp] at hpar
    exact ⟨hfind.2, (hk child s.me hfind.1 hpar).2⟩
  · rcases hi.table.isRunnable_cur with hr | hr <;> rw [hr] <;> decide

theorem inv_of_run {L : Layout} {m : Mem} {es : List Event} {s : Sys × Creators}
    (h : Run (step L) (Condition L) (start L m) es s) : SysInv L s.1 ∧ ParentsOk s.1.k s.2 := by
  refine h.invariant (I := fun s => SysInv L s.1 ∧ ParentsOk s.1.k s.2) ?_ ⟨sysInv_boot L m, ?_⟩
  · rintro s e t ⟨hi, hk⟩ ⟨htp, hcf⟩ hs
    obtain ⟨os, hst, hh⟩ := withHistory_eq_some hs
    have ho := step_ok hi htp hst
    refine ⟨ho.inv, ?_⟩
    rw [hh]
    exact (parentsOk_iff hi ho hk).2 (hcf t.1 os hst)
  · intro i p _ hp
    change ((boot L m).k.tasks i).parent = some p at hp
    rw [(boot_task L m i).2.1] at hp
    cases hp

/-- **Parent links identify the real parent** in every run in which user code leaves `tp` alone and no
slot is cleared before the tasks that have it as their parent. -/
theorem linksOk_of_run {L : Layout} {m : Mem} {es : List Event} {s : Sys × Creators}
    (h : Run (step L) (Condition L) (start L m) es s) : LinksOk s.1 s.2 :=
  linksOk_of_parentsOk (inv_of_run h).1 (inv_of_run h).2

/-! ### Two runs -/

instance (k k' : Kernel) : Decidable (ChildrenFirst k k') := by
  unfold ChildrenFirst; infer_instance

/-- The condition, as a check. -/
def check (L : Layout) (s : Sys × Creators) (e : Event) : Bool :=
  decide (TpKept L s.1 e) &&
    match s.1.step L e with
    | none => true
    | some (t, _) => decide (ChildrenFirst s.1.k t.k)

theorem condition_of_check {L : Layout} {s : Sys × Creators} {e : Event} (h : check L s e = true) :
    Condition L s e := by
  unfold check at h
  rw [Bool.and_eq_true, decide_eq_true_eq] at h
  refine ⟨h.1, fun t os ht => ?_⟩
  have h2 := h.2
  rw [ht] at h2
  exact of_decide_eq_true h2

/-- The shell starts a process that forks, waits for its child and exits. -/
def familyRun : List Event :=
  [.createUser 0x201000, .go true, .go true, .go true, callOf sampleLayout 1 4 0,
    callOf sampleLayout 1 5 2, .go true, .go true, .go true, callOf sampleLayout 2 6 0, .go true,
    callOf sampleLayout 1 6 0, .go true]

theorem linksOk_familyRun : ∃ s, Run (step sampleLayout) (Condition sampleLayout)
    (start sampleLayout fun _ => 0) familyRun s ∧ LinksOk s.1 s.2 := by
  have hex : (exec (step sampleLayout) (check sampleLayout) (start sampleLayout fun _ => 0)
      familyRun).isSome = true := by decide +kernel
  obtain ⟨s, hs⟩ := Option.isSome_iff_exists.1 hex
  have hrun := Run.of_exec (fun _ _ => condition_of_check) hs
  exact ⟨s, hrun, linksOk_of_run hrun⟩

/-- The shell starts a process that forks and exits; its slot is cleared, and the next process that
the shell starts gets it. -/
def orphanRun : List Event :=
  [.createUser 0x201000, .go true, .go true, .go true, callOf sampleLayout 1 4 0,
    callOf sampleLayout 1 6 0, .go true, .createUser 0x201000, .go true, .go true, .go true,
    timerOf sampleLayout 2, .go true, .go true]

/-- **A process is taken for the parent of an orphan**: the process with pid `3` can wait for the
child of the process with pid `1`. -/
theorem not_linksOk_orphanRun : ∃ s,
    Run (step sampleLayout) (fun s e => TpKept sampleLayout s.1 e)
      (start sampleLayout fun _ => 0) orphanRun s ∧
    ¬ LinksOk s.1 s.2 ∧ ¬ ParentsOk s.1.k s.2 ∧ (s.1.k.tasks s.1.me).pid = 3 ∧ s.2 2 = 1 ∧
    waitpidChild s.1.k 2 = some 2 := by
  have hex : ((exec (step sampleLayout) (fun s e => decide (TpKept sampleLayout s.1 e))
      (start sampleLayout fun _ => 0) orphanRun).map fun s =>
        (s.1.k.state 2, (s.1.k.tasks 2).parent, (s.1.k.tasks 1).pid, s.1.me, s.2 2,
          waitpidChild s.1.k 2)) =
      some (.runnable, some 1, 3, 1, 1, some 2) := by decide +kernel
  obtain ⟨s, hs, hv⟩ := Option.map_eq_some_iff.1 hex
  simp only [Prod.mk.injEq] at hv
  obtain ⟨h2, hp, h1, hme, hc, hw⟩ := hv
  have hnp : ¬ ParentsOk s.1.k s.2 := by
    intro hok
    have := (hok 2 1 (by rw [h2]; decide) hp).2
    rw [h1, hc] at this
    cases this
  exact ⟨s, Run.of_exec (fun _ _ => of_decide_eq_true) hs, fun hok => hnp hok.parents, hnp,
    hme ▸ h1, hc, hw⟩

end OscKernel.Proc.Parents
