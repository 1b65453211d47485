import OscKernel.Proc.Stands
import OscKernel.Proc.Contexts

/-! # Waiting for processes

The shell waits in `wait_user_task_done` for the process that it has started; a user process waits in
`sys_waitpid` for a child. Both hold a slot, and `kill_zombies` clears the zombies whose parent is not
a user process: the processes of the shell.

`waitsOk_of_run`: every wait ends with the process that was waited for, in every run in which the slot
that the shell waits for does not get a new process. -/

namespace OscKernel.Proc.Waits

open OscKernel.Lib.Memory OscKernel.Lib.Riscv OscKernel.Lib.Transition
open OscKernel.Thread.Task OscKernel.Thread.RunQueue OscKernel.Thread.Sched OscKernel.Thread.Inv
open OscKernel.Thread.Effect OscKernel.User.Effect
open OscKernel.Proc.Ops OscKernel.Proc.System OscKernel.Proc.Step OscKernel.Proc.Stands
open OscKernel.Proc.Contexts

/-- A process has forked another one: slots and pids. -/
structure Fork where
  parent : Slot
  parentPid : ℤ
  child : Slot
  childPid : ℤ
  deriving DecidableEq

/-- What has happened: the process that the shell waits for, and the forks whose child has not been
waited for. -/
structure WaitHist where
  job : Option (Slot × ℤ)
  forks : List Fork

/-- The slot has a task that the step has created. -/
def isNew (s t : Sys) (i : Slot) : Prop := t.k.state i ≠ .unused ∧ s.k.nextPid ≤ (t.k.tasks i).pid

instance (s t : Sys) (i : Slot) : Decidable (isNew s t i) := by unfold isNew; infer_instance

/-- The process on the processor gets back from `sys_waitpid` for the child of the fork. -/
def waited (s : Sys) (f : Fork) : Obs → Bool
  | .sysRet call _ => decide (Syscall.ofNumber (call.reg .a7) = some .waitpid ∧
      (call.reg .a0).toInt = f.childPid ∧ (s.k.tasks s.me).pid = f.parentPid)
  | _ => false

/-- The forks of a step. -/
def newForks (s t : Sys) : List Fork :=
  match s.place with
  | .user _ => ((List.finRange 16).filter fun i => isNew s t i).map fun i =>
      ⟨s.me, (s.k.tasks s.me).pid, i, (t.k.tasks i).pid⟩
  | _ => []

/-- The wait of the shell starts with the process it has created, and ends when it goes on. -/
def WaitHist.updateJob (h : WaitHist) (s t : Sys) : Option (Slot × ℤ) :=
  if s.me = 0 ∧ t.me = 0 then
    match s.place, t.place with
    | .kernel .code, .kernel (.waitDone i) => some (i, (t.k.tasks i).pid)
    | .kernel (.waitDone _), .kernel .code => none
    | _, _ => h.job
  else h.job

/-- The history after a step. -/
def WaitHist.update (h : WaitHist) (s : Sys) (os : List Obs) (t : Sys) : WaitHist where
  job := h.updateJob s t
  forks := (h.forks.filter fun f => !os.any (waited s f)) ++ newForks s t

/-- The system with the history of waits. -/
def step (L : Layout) : Sys × WaitHist → Event → Option (Sys × WaitHist) :=
  withHistory (Sys.step L) WaitHist.update

/-- The start. -/
def start (L : Layout) (m : Mem) : Sys × WaitHist := (boot L m, ⟨none, []⟩)

/-- The parent of the fork lives. -/
def Fork.ParentLives (f : Fork) (k : Kernel) : Prop :=
  isRunnable k f.parent ∧ (k.tasks f.parent).pid = f.parentPid

/-- No task with the pid can run. -/
def HasEnded (k : Kernel) (pid : ℤ) : Prop := ∀ i, isRunnable k i → (k.tasks i).pid ≠ pid

/-- **Waits are right in a step** from `s` to `t`: the wait of the shell returns only after its
process has ended, and no other process is reaped; while its parent lives and has not waited for it, a
forked process keeps its slot; and when the parent waits for it, `sys_waitpid` returns its pid, after
it has ended. -/
structure WaitsOk (s : Sys) (h : WaitHist) (os : List Obs) (t : Sys) : Prop where
  shell : ∀ i p, h.job = some (i, p) → s.me = 0 → t.me = 0 → t.place = .kernel .code →
    HasEnded s.k p ∧ ∀ j, Clears s.k t.k j → (s.k.tasks j).pid = p
  slot : ∀ f ∈ h.forks, f.ParentLives s.k →
    s.k.state f.child ≠ .unused ∧ (s.k.tasks f.child).pid = f.childPid
  waitpid : ∀ f ∈ h.forks, (s.k.tasks s.me).pid = f.parentPid → ∀ call v, .sysRet call v ∈ os →
    Syscall.ofNumber (call.reg .a7) = some .waitpid → (call.reg .a0).toInt = f.childPid →
      v = BitVec.ofInt 64 f.childPid ∧ HasEnded s.k f.childPid

/-- The condition on a step of the shell and user processes, without kernel threads: user code leaves
`tp` alone, and the slot that the shell waits for does not get a new process. -/
def Condition (L : Layout) (s : Sys × WaitHist) (e : Event) : Prop :=
  (∀ fn, e ≠ .threadCreate fn) ∧ TpKept L s.1 e ∧ ∀ t os, s.1.step L e = some (t, os) →
    ∀ i p, s.2.job = some (i, p) → ¬ isNew s.1 t i

/-! ### The invariant -/

/-- The shell waits in the slot `i` for the process `p`. -/
structure JobOk (s : Sys) (i : Slot) (p : ℤ) : Prop where
  pid_lt : p < s.k.nextPid
  stands : StandsAt s 0 (.waitDone i)
  slot : s.k.state i = .unused ∨ ((s.k.tasks i).pid = p ∧ (s.k.tasks i).parent = some 0)
  only : ∀ j, s.k.state j ≠ .unused → (s.k.tasks j).pid = p → j = i

/-- The process in the slot `q` waits for its child in the slot `j`. -/
structure WaitOk (k : Kernel) (q : Slot) (tf : TrapFrame) (pid : ℤ) (j : Slot) : Prop where
  number : Syscall.ofNumber (tf.reg .a7) = some .waitpid
  arg : (tf.reg .a0).toInt = pid
  used : k.state j ≠ .unused
  pid : (k.tasks j).pid = pid
  parent : (k.tasks j).parent = some q

/-- The child of a fork is there as long as its parent lives and has not waited for it. -/
structure ForkOk (k : Kernel) (f : Fork) : Prop where
  pid_lt : f.parentPid < k.nextPid
  only : ∀ i, k.state i ≠ .unused → (k.tasks i).pid = f.parentPid → i = f.parent
  child : f.ParentLives k → f.parent ≠ 0 ∧ k.state f.child ≠ .unused ∧
    (k.tasks f.child).pid = f.childPid ∧ (k.tasks f.child).parent = some f.parent

/-- The loop of `sys_uart_read` or of `sys_usleep`. -/
def Polls (tf : TrapFrame) (act : Act) : Prop := act = .sleep tf ∨ ∃ i, act = .read tf i

/-- The invariant. -/
structure WaitInv (L : Layout) (s : Sys) (h : WaitHist) : Prop where
  users : ∀ i, i ≠ 0 → s.k.state i ≠ .unused → (s.k.tasks i).isUser = true
  entry : ∀ i, i ≠ 0 → ∀ ra sp, (s.k.tasks i).context = .start ra sp →
    (s.k.tasks i).entry = L.userProcessEntry
  fresh : ∀ q, StandsAt s q .fresh →
    q = s.me ∧ s.place = .kernel .fresh ∧ ∃ ra sp, (s.k.tasks q).context = .start ra sp
  code : ∀ q, StandsAt s q .code → q = 0
  shell : ∀ act, StandsAt s 0 act → act.inTrap = false ∧ act ≠ .fresh
  shellUser : s.me = 0 → ∀ tf, s.place ≠ .user tf
  idle : s.me ≠ 0 → ∃ act, (s.k.tasks 0).context = .saved 0 act
  waitDone : ∀ q i, StandsAt s q (.waitDone i) → q = 0 ∧ ∃ p, h.job = some (i, p)
  polls : ∀ q act tf, Polls tf act → StandsAt s q act →
    Syscall.ofNumber (tf.reg .a7) ≠ some .waitpid
  job : ∀ i p, h.job = some (i, p) → JobOk s i p
  waiting : ∀ q tf pid j, StandsAt s q (.waitpid tf pid j) → WaitOk s.k q tf pid j
  forks : ∀ f ∈ h.forks, ForkOk s.k f

section Step
variable {L : Layout} {s t : Sys} {h : WaitHist} {e : Event} {os : List Obs}

theorem allows_thread {i : Slot} (ha : (allows s e).thread i) : ∃ fn, e = .threadCreate fn := by
  unfold allows at ha
  split at ha
  · exact ha.elim
  · exact ha.elim
  · exact ha

/-- A new task is a user process of the one on the processor. -/
theorem new_user (ho : StepOk L s e t) (hd : ∀ fn, e ≠ .threadCreate fn) {i : Slot}
    (hu : t.k.state i ≠ .unused) :
    (s.k.state i ≠ .unused ∧ Kept (i = s.me) (s.k.tasks i) (t.k.tasks i)) ∨
      (s.k.nextPid ≤ (t.k.tasks i).pid ∧ i ≠ s.me ∧ (t.k.tasks i).isUser = true ∧
        (t.k.tasks i).parent = some s.me) := by
  rcases kept_or_new ho.effect hu with hk | ⟨hn, hne, ⟨ht, -⟩ | hp⟩
  · exact .inl hk
  · obtain ⟨fn, he⟩ := allows_thread ht
    exact absurd he (hd fn)
  · exact .inr ⟨hn, hne, hp⟩

/-- **A child of a living user process is cleared by its parent only.** -/
theorem clears_child (hw : WaitInv L s h) (ho : StepOk L s e t) {c q : Slot}
    (hc : Clears s.k t.k c) (hpar : (s.k.tasks c).parent = some q) (hq0 : q ≠ 0)
    (hq : isRunnable s.k q) :
    q = s.me ∧ ∃ tf pid, s.place = .kernel (.waitpid tf pid c) := by
  obtain ⟨hz, hal⟩ := hc.zombie ho.effect
  unfold allows at hal
  split at hal
  · rename_i j hp
    obtain rfl : c = j := hal
    obtain ⟨-, p, hj⟩ := hw.waitDone s.me c (.inl ⟨rfl, .inl hp⟩)
    rcases (hw.job c p hj).slot with hu | ⟨-, h0⟩
    · exact absurd hu hc.1
    · rw [hpar, Option.some.injEq] at h0
      exact absurd h0 hq0
  · rename_i tf pid j hp
    obtain rfl : c = j := hal
    have hwo := hw.waiting s.me tf pid c (.inl ⟨rfl, .inl hp⟩)
    have hqm := hwo.parent
    rw [hpar, Option.some.injEq] at hqm
    exact ⟨hqm, tf, pid, hp⟩
  · obtain ⟨h1, h2⟩ := isRunnable_iff.1 hq
    exact absurd ⟨q, hpar, hw.users q hq0 h1, h1, h2⟩ hal.2

/-! ### One step -/

theorem users_step (hw : WaitInv L s h) (ho : StepOk L s e t) (hd : ∀ fn, e ≠ .threadCreate fn)
    (i : Slot)
    (h0 : i ≠ 0) (hu : t.k.state i ≠ .unused) : (t.k.tasks i).isUser = true := by
  rcases new_user ho hd hu with ⟨hus, hk⟩ | ⟨-, -, hn, -⟩
  · rw [hk.isUser]
    exact hw.users i h0 hus
  · exact hn

/-- Tasks that have not run are user processes. -/
theorem entry_step (hw : WaitInv L s h) (hd : ∀ fn, e ≠ .threadCreate fn)
    (hst : s.step L e = some (t, os)) (i : Slot) (h0 : i ≠ 0) (ra sp : Word)
    (hc : (t.k.tasks i).context = .start ra sp) : (t.k.tasks i).entry = L.userProcessEntry := by
  obtain ⟨k, hk, hck, hek⟩ : ∃ k, ContextFates (entries L e) s.k k ∧
      (k.tasks i).context = .start ra sp ∧ (t.k.tasks i).entry = (k.tasks i).entry := by
    rcases step_turn hst with ⟨hk, -⟩ | ⟨k, prev, next, act, a, hk, hsw, -⟩
    · exact ⟨t.k, hk, hc, rfl⟩
    · obtain ⟨hkt, -⟩ := switchTo_cases hsw
      rw [hkt, Kernel.setTp_tasks] at hc ⊢
      rcases eq_or_ne i prev with rfl | hi
      · rw [k.setContext_same] at hc
        cases hc
      · rw [k.setContext_of_ne prev _ hi] at hc ⊢
        exact ⟨k, hk, hc, rfl⟩
  rw [hek]
  rcases hk.start hck with ⟨hcs, he⟩ | he | he
  · exact he.trans (hw.entry i h0 ra sp hcs)
  · exact he
  · exact absurd he (hd _)

theorem fresh_user (hw : WaitInv L s h) (hi : SysInv L s) (hp : s.place = .kernel .fresh)
    (hst : s.step L e = some (t, os)) : t.me = s.me ∧ ∃ tf, t.place = .user tf := by
  have hst0 : StandsAt s s.me .fresh := .inl ⟨rfl, .inl hp⟩
  have h0 : s.me ≠ 0 := fun h0 => (hw.shell .fresh (h0 ▸ hst0)).2 rfl
  obtain ⟨-, -, ra, sp, hc⟩ := hw.fresh s.me hst0
  unfold Sys.step at hst
  rw [hp] at hst
  cases e with
  | go ready =>
    simp only [Sys.kernelStep, Sys.startThread, hi.tp, hw.entry s.me h0 ra sp hc, if_pos,
      Sys.returnToUser] at hst
    split_ifs at hst
    rw [Option.some.injEq, Prod.mk.injEq] at hst
    rw [← hst.1]
    exact ⟨rfl, _, rfl⟩
  | _ => cases hst

theorem fresh_step (hw : WaitInv L s h) (hi : SysInv L s) (ho : StepOk L s e t)
    (hst : s.step L e = some (t, os)) (q : Slot) (hs : StandsAt t q .fresh) :
    q = t.me ∧ t.place = .kernel .fresh ∧ ∃ ra sp, (t.k.tasks q).context = .start ra sp := by
  rcases hs.back ho with hs' | ⟨-, hq, -, hx⟩ | ⟨-, -, hf⟩
  · obtain ⟨rfl, hp, -⟩ := hw.fresh q hs'
    obtain ⟨hme, tf, hu⟩ := fresh_user hw hi hp hst
    rcases hs with ⟨-, hp' | hp'⟩ | ⟨hne, -⟩
    · rw [hu] at hp'
      cases hp'
    · rw [hu] at hp'
      cases hp'
    · exact absurd hme.symm hne
  · refine ⟨hq, ?_, hx⟩
    rcases hs with ⟨-, hp | hp⟩ | ⟨hne, -⟩
    · exact hp
    · have ha : Place.Alive t.place := ho.inv.place
      rw [hp] at ha
      exact absurd rfl ha.2
    · exact absurd hq hne
  · exact hf.elim

theorem code_step (hw : WaitInv L s h) (hi : SysInv L s) (ho : StepOk L s e t)
    (hst : s.step L e = some (t, os)) (q : Slot) (hs : StandsAt t q .code) : q = 0 := by
  rcases hs.back ho with hs' | ⟨he, -⟩ | ⟨hq, hme, ⟨i, hp⟩ | hp⟩
  · exact hw.code q hs'
  · cases he
  · rw [hq]
    exact (hw.waitDone s.me i (.inl ⟨rfl, .inl hp⟩)).1
  · obtain ⟨-, tf, hu⟩ := fresh_user hw hi hp hst
    rcases hs with ⟨-, hp' | hp'⟩ | ⟨hne, -⟩
    · rw [hu] at hp'
      cases hp'
    · rw [hu] at hp'
      cases hp'
    · exact absurd (hq.trans hme.symm) hne

theorem shell_step (hw : WaitInv L s h) (hi : SysInv L s) (ho : StepOk L s e t) (act : Act)
    (hs : StandsAt t 0 act) : act.inTrap = false ∧ act ≠ .fresh := by
  rcases hs.back ho with hs | ⟨-, h0, hne, ra, sp, hc⟩ | ⟨h0, -, he⟩
  · exact hw.shell act hs
  · have hme : s.me ≠ 0 := fun hm => hne (h0.symm.trans hm.symm)
    obtain ⟨act', hc'⟩ := hw.idle hme
    rw [suspended_forward ho hme.symm hi.table.idle, hc'] at hc
    cases hc
  · have hnu := hw.shellUser h0.symm
    cases act with
    | fresh => exact he.elim
    | timer tf => exact absurd he.choose_spec (hnu _)
    | sleep tf => exact absurd he.1.choose_spec (hnu _)
    | read tf i =>
      rcases he with ⟨⟨tf0, hp⟩, -⟩ | ⟨j, -, hp⟩
      · exact absurd hp (hnu _)
      · cases (hw.shell _ (.inl ⟨h0, .inl hp⟩)).1
    | waitpid tf pid j => exact absurd he.1.choose_spec (hnu _)
    | exitLoop b =>
      cases b with
      | true => exact absurd he.choose_spec (hnu _)
      | false => exact ⟨rfl, by simp⟩
    | _ => exact ⟨rfl, by simp⟩

theorem shellUser_step (hw : WaitInv L s h) (ho : StepOk L s e t) (h0 : t.me = 0) (tf : TrapFrame) :
    t.place ≠ .user tf := by
  intro hp
  rcases ho.me with ⟨hme, hps⟩ | ⟨-, -, a, hp', -⟩
  · have hs0 : s.me = 0 := hme.symm.trans h0
    rw [hp] at hps
    rcases hps with ⟨tf', hu⟩ | hf | ⟨act, ha, hin⟩
    · exact hw.shellUser hs0 tf' hu
    · exact (hw.shell .fresh (.inl ⟨hs0.symm, .inl hf⟩)).2 rfl
    · rw [(hw.shell act (.inl ⟨hs0.symm, .inl ha⟩)).1] at hin
      cases hin
  · rw [hp'] at hp
    cases hp

theorem idle_step (hw : WaitInv L s h) (hi : SysInv L s) (ho : StepOk L s e t) (h0 : t.me ≠ 0) :
    ∃ act, (t.k.tasks 0).context = .saved 0 act := by
  by_cases hs0 : s.me = 0
  · rcases ho.me with ⟨hme, -⟩ | ⟨-, hleft, -⟩
    · exact absurd (hme.trans hs0) h0
    · rw [hs0] at hleft
      rcases hleft with ⟨act, -, hc⟩ | hz
      · exact ⟨act, hc⟩
      · exact absurd hz (isRunnable_iff.1 ho.inv.table.idle).2
  · rw [suspended_forward ho (Ne.symm hs0) hi.table.idle]
    exact hw.idle hs0

/-- While the shell stands in its loop, its job is the same. -/
theorem updateJob_eq {i : Slot} (hs : StandsAt s 0 (.waitDone i)) (ht : StandsAt t 0 (.waitDone i)) :
    h.updateJob s t = h.job := by
  unfold WaitHist.updateJob
  split_ifs with h0
  · rcases hs with ⟨-, hp⟩ | ⟨hne, -⟩
    · rcases ht with ⟨-, hp'⟩ | ⟨hne, -⟩
      · rcases hp with hp | hp <;> rcases hp' with hp' | hp' <;> rw [hp, hp']
      · exact absurd h0.2.symm hne
    · exact absurd h0.1.symm hne
  · rfl

theorem updateJob_new {i : Slot} (hs0 : s.me = 0) (ht0 : t.me = 0) (hp : s.place = .kernel .code)
    (hp' : t.place = .kernel (.waitDone i)) : h.updateJob s t = some (i, (t.k.tasks i).pid) := by
  unfold WaitHist.updateJob
  rw [if_pos ⟨hs0, ht0⟩, hp, hp']

theorem waitDone_step' (hw : WaitInv L s h) (ho : StepOk L s e t) (q i : Slot)
    (hs : StandsAt t q (.waitDone i)) : q = 0 ∧ ∃ p, h.updateJob s t = some (i, p) := by
  rcases hs.back ho with hs' | ⟨he, -⟩ | ⟨hq, hme, hp, -⟩
  · obtain ⟨rfl, p, hj⟩ := hw.waitDone q i hs'
    exact ⟨rfl, p, by rw [updateJob_eq hs' hs, hj]⟩
  · cases he
  · have h0 : s.me = 0 := hw.code s.me (.inl ⟨rfl, .inl hp⟩)
    have ht0 := hme.trans h0
    rcases hs with ⟨-, hp' | hp'⟩ | ⟨hne, -⟩
    · exact ⟨hq.trans h0, _, updateJob_new h0 ht0 hp hp'⟩
    · rcases ho.me with ⟨-, hps⟩ | ⟨hne, -⟩
      · rw [hp'] at hps
        rcases hps with ⟨hp2, -⟩ | ⟨⟨tf, ht⟩, -⟩
        · rw [hp] at hp2
          cases hp2
        · cases ht
      · exact absurd hme hne
    · exact absurd (hq.trans hme.symm) hne

theorem polls_step (hw : WaitInv L s h) (ho : StepOk L s e t) (q : Slot) (act : Act) (tf : TrapFrame)
    (hpoll : Polls tf act) (hs : StandsAt t q act) :
    Syscall.ofNumber (tf.reg .a7) ≠ some .waitpid := by
  rcases hs.back ho with hs' | ⟨rfl, -⟩ | ⟨-, -, he⟩
  · exact hw.polls q act tf hpoll hs'
  · rcases hpoll with hf | ⟨i, hf⟩ <;> cases hf
  · rcases hpoll with rfl | ⟨i, rfl⟩
    · rw [he.2]
      decide
    · rcases he with ⟨-, hn⟩ | ⟨j, -, hp⟩
      · rw [hn]
        decide
      · exact hw.polls s.me _ tf (.inr ⟨j, rfl⟩) (.inl ⟨rfl, .inl hp⟩)

theorem waiting_step (hw : WaitInv L s h) (hi : SysInv L s) (ho : StepOk L s e t)
    (hst : s.step L e = some (t, os)) (q : Slot) (tf : TrapFrame) (pid : ℤ) (j : Slot)
    (hs : StandsAt t q (.waitpid tf pid j)) : WaitOk t.k q tf pid j := by
  rcases hs.back ho with hs' | ⟨he, -⟩ | ⟨rfl, -, -, hk, hc, hn, ha⟩
  · have hwo := hw.waiting q tf pid j hs'
    have hq0 : q ≠ 0 := by
      rintro rfl
      cases (hw.shell _ hs').1
    have hnc : ¬ Clears s.k t.k j := by
      intro hc
      -- then the parent itself has come to the end of its wait
      obtain ⟨rfl, tf', pid', hp⟩ := clears_child hw ho hc hwo.parent hq0 (hs'.live hi)
      rcases waitpid_step hi hp hst with ⟨-, rfl, -⟩ | ⟨-, hm, -⟩
      · exact hc.2.elim hc.1 fun hn => hn rfl
      · rcases hs with ⟨hme, hp' | hp'⟩ | ⟨hne, hr, -⟩
        · rcases hm with ⟨-, tf'', hu⟩ | hm
          · rw [hp'] at hu
            cases hu
          · exact hm hme.symm
        · rcases hm with ⟨-, tf'', hu⟩ | hm
          · rw [hp'] at hu
            cases hu
          · exact hm hme.symm
        · rcases ho.me with ⟨hme, -⟩ | ⟨-, hleft, -⟩
          · exact hne hme.symm
          · rcases hleft with ⟨act, hp', -⟩ | hz
            · rw [hp] at hp'
              cases hp'
            · exact (isRunnable_iff.1 hr).2 hz
    have hk := kept_of_not_clears ho.effect hi.table hwo.used hnc
    exact ⟨hwo.number, hwo.arg, fun hu => hwo.used (hk.unused.1 hu), hk.pid.trans hwo.pid,
      hk.parent.trans hwo.parent⟩
  · cases he
  · obtain ⟨hf, hpar⟩ := Option.filter_eq_some_iff.1 hc
    have hfind := List.find?_some hf
    simp only [ne_eq, decide_eq_true_eq] at hfind hpar
    rw [hk]
    exact ⟨hn, ha, hfind.1, hfind.2, hpar.trans hi.tp⟩

theorem forks_step (hw : WaitInv L s h) (hi : SysInv L s) (ho : StepOk L s e t)
    (hd : ∀ fn, e ≠ .threadCreate fn)
    (hst : s.step L e = some (t, os)) (f : Fork) (hf : f ∈ (h.update s os t).forks) :
    ForkOk t.k f := by
  rcases List.mem_append.1 hf with hf | hf
  · obtain ⟨hf, hnw⟩ := List.mem_filter.1 hf
    obtain ⟨hlt, honly, hch⟩ := hw.forks f hf
    refine ⟨hlt.trans_le ho.effect.nextPid, fun i hu hp => ?_, fun hl => ?_⟩
    · rcases kept_or_new ho.effect hu with ⟨hus, hk⟩ | ⟨hn, -⟩
      · exact honly i hus (hk.pid.symm.trans hp)
      · omega
    have hls : f.ParentLives s.k := by
      obtain ⟨h1, h2⟩ := isRunnable_iff.1 hl.1
      rcases kept_or_new ho.effect h1 with ⟨hu, hk⟩ | ⟨hn, -⟩
      · exact ⟨isRunnable_iff.2 ⟨hu, fun hz => h2 (hk.zombie hz)⟩, hk.pid.symm.trans hl.2⟩
      · rw [hl.2] at hn
        omega
    obtain ⟨h0, hu, hp, hpar⟩ := hch hls
    have hnc : ¬ Clears s.k t.k f.child := by
      intro hc
      obtain ⟨hme, tf, pid, hpl⟩ := clears_child hw ho hc hpar h0 hls.1
      have hwo := hw.waiting s.me tf pid f.child (.inl ⟨rfl, .inl hpl⟩)
      rcases waitpid_step hi hpl hst with ⟨-, rfl, -⟩ | ⟨-, -, hret⟩
      · exact hc.2.elim hc.1 fun hn => hn rfl
      · have hany : os.any (waited s f) = true := by
          refine List.any_eq_true.2 ⟨_, (hret tf _).2 ⟨rfl, rfl⟩, ?_⟩
          simp only [waited, decide_eq_true_eq]
          exact ⟨hwo.number, hwo.arg.trans (hwo.pid.symm.trans hp), hme ▸ hls.2⟩
        rw [hany] at hnw
        cases hnw
    have hk := kept_of_not_clears ho.effect hi.table hu hnc
    exact ⟨h0, fun hn => hu (hk.unused.1 hn), hk.pid.trans hp, hk.parent.trans hpar⟩
  · unfold newForks at hf
    split at hf
    · rename_i tf hp
      obtain ⟨i, hi', rfl⟩ := List.mem_map.1 hf
      obtain ⟨hu, hn⟩ : isNew s t i := by simpa using hi'
      have hru := (isRunnable_iff.1 hi.table.isRunnable_cur).1
      have hlt := hi.table.pid_lt s.me hru
      refine ⟨hlt.trans_le ho.effect.nextPid, fun j hj he => ?_, fun _ => ?_⟩
      · change (t.k.tasks j).pid = (s.k.tasks s.me).pid at he
        rcases kept_or_new ho.effect hj with ⟨hus, hk⟩ | ⟨hn, -⟩
        · exact hi.table.pid_inj j s.me hus hru (hk.pid.symm.trans he)
        · omega
      refine ⟨fun h0 => hw.shellUser h0 tf hp, hu, rfl, ?_⟩
      rcases new_user ho hd hu with ⟨hus, hk⟩ | ⟨-, -, -, hpar⟩
      · have := hi.table.pid_lt i hus
        rw [hk.pid] at hn
        omega
      · exact hpar
    · cases hf

theorem job_kept (hw : WaitInv L s h) (hi : SysInv L s) (ho : StepOk L s e t)
    (hst : s.step L e = some (t, os)) {i : Slot} {p : ℤ} (hj : h.job = some (i, p))
    (hnew : ¬ isNew s t i)
    (hend : ¬ (s.me = 0 ∧ s.place = .kernel (.waitDone i) ∧ t.me = 0 ∧ t.place = .kernel .code)) :
    JobOk t i p := by
  obtain ⟨hlt, hstands, hslot, honly⟩ := hw.job i p hj
  have hcalls : ∀ act, s.place = .calls act → t.me = s.me → t.place = .kernel act := by
    intro act hp hme
    rcases calls_step hi hp hst with hne | rfl
    · exact absurd hme hne
    · rfl
  refine ⟨hlt.trans_le ho.effect.nextPid, ?_, ?_, fun j hu hp => ?_⟩
  · rcases hstands.forward ho hcalls ho.inv.table.idle with hs | ⟨h0, hp⟩
    · exact hs
    · rcases waitDone_step hp hst with ⟨-, rfl, -⟩ | ⟨-, hme, hp', -⟩
      · exact .inl ⟨h0, .inr rfl⟩
      · exact absurd ⟨h0.symm, hp, hme.trans h0.symm, hp'⟩ hend
  · by_cases hu : t.k.state i = .unused
    · exact .inl hu
    · right
      rcases kept_or_new ho.effect hu with ⟨hus, hk⟩ | ⟨hn, -⟩
      · obtain ⟨h1, h2⟩ := hslot.resolve_left hus
        exact ⟨hk.pid.trans h1, hk.parent.trans h2⟩
      · exact absurd ⟨hu, hn⟩ hnew
  · rcases kept_or_new ho.effect hu with ⟨hus, hk⟩ | ⟨hn, -⟩
    · exact honly j hus (hk.pid.symm.trans hp)
    · omega

theorem job_new (ho : StepOk L s e t) {i : Slot} (hs0 : s.me = 0) (ht0 : t.me = 0)
    (hp : s.place = .kernel .code) (hp' : t.place = .kernel (.waitDone i)) :
    JobOk t i (t.k.tasks i).pid := by
  obtain ⟨hc, -, hpar⟩ : Created s.k t.k i ∧ (t.k.tasks i).isUser = true ∧
      (t.k.tasks i).parent = some s.me := by
    rcases ho.me with ⟨-, hps⟩ | ⟨hne, -⟩
    · rw [hp'] at hps
      rcases hps with h1 | h1 | h1
      · rw [hp] at h1
        cases h1
      · rw [hp] at h1
        cases h1
      · exact h1.2
    · exact absurd (ht0.trans hs0.symm) hne
  have hu : t.k.state i ≠ .unused := by
    rw [hc.state]
    decide
  refine ⟨ho.inv.table.pid_lt i hu, .inl ⟨ht0.symm, .inl hp'⟩, .inr ⟨rfl, hs0 ▸ hpar⟩,
    fun j hj he => ho.inv.table.pid_inj j i hj hu he⟩

theorem job_step (hw : WaitInv L s h) (hi : SysInv L s) (ho : StepOk L s e t)
    (hst : s.step L e = some (t, os)) (hnew : ∀ i p, h.job = some (i, p) → ¬ isNew s t i)
    (i : Slot) (p : ℤ) (hj : h.updateJob s t = some (i, p)) : JobOk t i p := by
  unfold WaitHist.updateJob at hj
  split_ifs at hj with h0
  · split at hj
    · rename_i hp hp'
      rw [Option.some.injEq, Prod.mk.injEq] at hj
      obtain ⟨rfl, rfl⟩ := hj
      exact job_new ho h0.1 h0.2 hp hp'
    · cases hj
    · rename_i hne
      exact job_kept hw hi ho hst hj (hnew i p hj) fun hh => hne i hh.2.1 hh.2.2.2
  · exact job_kept hw hi ho hst hj (hnew i p hj) fun hh => h0 ⟨hh.1, hh.2.2.1⟩

/-- **One step** keeps the invariant. -/
theorem waitInv_step (hw : WaitInv L s h) (hi : SysInv L s) (hc : Condition L (s, h) e)
    (hst : s.step L e = some (t, os)) : SysInv L t ∧ WaitInv L t (h.update s os t) := by
  obtain ⟨hd, hu, hnew⟩ := hc
  have ho := step_ok hi hu hst
  exact ⟨ho.inv, users_step hw ho hd, entry_step hw hd hst, fresh_step hw hi ho hst,
    code_step hw hi ho hst, shell_step hw hi ho, shellUser_step hw ho,
    idle_step hw hi ho, waitDone_step' hw ho, polls_step hw ho,
    job_step hw hi ho hst (hnew t os hst), waiting_step hw hi ho hst, forks_step hw hi ho hd hst⟩

/-- **In one step** that meets the condition, waits are right. -/
theorem waitsOk_step (hw : WaitInv L s h) (hi : SysInv L s) (hc : Condition L (s, h) e)
    (hst : s.step L e = some (t, os)) : WaitsOk s h os t := by
  have ho := step_ok hi hc.2.1 hst
  refine ⟨fun i p hj hs0 ht0 hp => ?_, fun f hf hl => ?_, fun f hf hme call v hm hn ha => ?_⟩
  · obtain ⟨hlt, hstands, hslot, honly⟩ := hw.job i p hj
    have hpl : s.place = .kernel (.waitDone i) := by
      rcases hstands with ⟨-, h1 | h1⟩ | ⟨hne, -⟩
      · exact h1
      · rcases calls_step hi h1 hst with hne | rfl
        · exact absurd (ht0.trans hs0.symm) hne
        · cases hp
      · exact absurd hs0.symm hne
    have hended : hasEnded s.k i := by
      rcases waitDone_step hpl hst with ⟨-, rfl, -⟩ | ⟨he, -⟩
      · cases hp
      · exact he
    refine ⟨fun j hr he => ?_, fun j hcl => ?_⟩
    · obtain ⟨h1, h2⟩ := isRunnable_iff.1 hr
      obtain rfl := honly j h1 he
      exact hended.elim h2 h1
    · obtain ⟨hz, hal⟩ := hcl.zombie ho.effect
      unfold allows at hal
      rw [hpl] at hal
      obtain rfl : j = i := hal
      exact (hslot.resolve_left hcl.1).1
  · obtain ⟨-, hu, hp, -⟩ := (hw.forks f hf).child hl
    exact ⟨hu, hp⟩
  · have hrun := hi.table.isRunnable_cur
    have hmf : s.me = f.parent := (hw.forks f hf).only s.me (isRunnable_iff.1 hrun).1 hme
    have hlives : f.ParentLives s.k := by
      rw [Fork.ParentLives, ← hmf]
      exact ⟨hrun, hme⟩
    obtain ⟨-, hu, hp, hpar⟩ := (hw.forks f hf).child hlives
    rcases sysRet_cases hi hc.2.1 hst hm with
      ⟨pid, j, hpl, hend, rfl⟩ | hpl | ⟨i, hpl⟩ | ⟨_, _, _, _, _, _, hsc⟩
    · have hwo := hw.waiting s.me call pid j (.inl ⟨rfl, .inl hpl⟩)
      have hpid : pid = f.childPid := hwo.arg.symm.trans ha
      subst hpid
      refine ⟨rfl, fun i hr he => ?_⟩
      obtain ⟨h1, h2⟩ := isRunnable_iff.1 hr
      obtain rfl := hi.table.pid_inj i j h1 hwo.used (he.trans hwo.pid.symm)
      exact hend.elim h2 h1
    · exact absurd hn (hw.polls s.me _ call (.inl rfl) (.inl ⟨rfl, .inl hpl⟩))
    · exact absurd hn (hw.polls s.me _ call (.inr ⟨i, rfl⟩) (.inl ⟨rfl, .inl hpl⟩))
    · have hnone := syscallHandler_waitpid hn hsc
      rw [ha, waitpidChild, Option.filter_eq_none_iff] at hnone
      have hfind := taskFindByPid_eq hi.table hu hp
      exact absurd (by simp [hi.tp, hpar, hmf]) (hnone _ hfind)

end Step

/-! ### All runs -/

theorem waitInv_start (L : Layout) (m : Mem) : WaitInv L (boot L m) ⟨none, []⟩ := by
  have hcode : ∀ q act, StandsAt (boot L m) q act → q = 0 ∧ act = .code := by
    rintro q act (⟨rfl, hp | hp⟩ | ⟨hne, hr, -⟩)
    · exact ⟨rfl, (Place.kernel.inj hp).symm⟩
    · cases hp
    · have hs := (boot_task L m q).1
      have h0 : q ≠ 0 := hne
      rw [if_neg h0] at hs
      exact absurd hs (isRunnable_iff.1 hr).1
  refine ⟨fun i h0 hu => ?_, fun i h0 ra sp hc => ?_, fun q hs => ?_, fun q hs => (hcode q _ hs).1,
    fun act hs => ?_, fun _ tf hp => ?_, fun h0 => absurd rfl h0, fun q i hs => ?_,
    fun q act tf hpoll hs => ?_, fun i p hj => ?_, fun q tf pid j hs => ?_, fun f hf => ?_⟩
  · have hs := (boot_task L m i).1
    rw [if_neg h0] at hs
    exact absurd hs hu
  · rw [(boot_task L m i).2.2.2, if_neg h0] at hc
    cases hc
  · cases (hcode q _ hs).2
  · rw [(hcode 0 act hs).2]
    exact ⟨rfl, by simp⟩
  · cases hp
  · cases (hcode q _ hs).2
  · obtain rfl := (hcode q act hs).2
    rcases hpoll with hf | ⟨i, hf⟩ <;> cases hf
  · cases hj
  · cases (hcode q _ hs).2
  · cases hf

theorem inv_of_run {L : Layout} {m : Mem} {es : List Event} {s : Sys × WaitHist}
    (h : Run (step L) (Condition L) (start L m) es s) : SysInv L s.1 ∧ WaitInv L s.1 s.2 := by
  refine h.invariant (I := fun s => SysInv L s.1 ∧ WaitInv L s.1 s.2) ?_
    ⟨sysInv_boot L m, waitInv_start L m⟩
  rintro s e t ⟨hi, hw⟩ hc hs
  obtain ⟨os, hst, hh⟩ := withHistory_eq_some hs
  rw [hh]
  exact waitInv_step hw hi hc hst

/-- **Waits reap the right process** in every run of the shell and user processes in which user code
leaves `tp` alone and the slot that the shell waits for does not get a new process. -/
theorem waitsOk_of_run {L : Layout} {m : Mem} {es : List Event} {s : Sys × WaitHist} {e : Event}
    {t : Sys} {os : List Obs} (h : Run (step L) (Condition L) (start L m) es s)
    (hc : Condition L s e) (hs : s.1.step L e = some (t, os)) : WaitsOk s.1 s.2 os t :=
  waitsOk_step (inv_of_run h).2 (inv_of_run h).1 hc hs

/-! ### Two runs -/

/-- The shell and user processes that leave `tp` alone. -/
def Quiet (L : Layout) (s : Sys × WaitHist) (e : Event) : Prop :=
  (∀ fn, e ≠ .threadCreate fn) ∧ TpKept L s.1 e

/-- `Quiet`, as a check. -/
def checkQuiet (L : Layout) (s : Sys × WaitHist) (e : Event) : Bool :=
  (match e with | .threadCreate _ => false | _ => true) && decide (TpKept L s.1 e)

theorem quiet_of_check {L : Layout} {s : Sys × WaitHist} {e : Event}
    (h : checkQuiet L s e = true) : Quiet L s e := by
  unfold checkQuiet at h
  rw [Bool.and_eq_true, decide_eq_true_eq] at h
  refine ⟨fun fn he => ?_, h.2⟩
  rw [he] at h
  exact absurd h.1 (by simp)

/-- The condition, as a check. -/
def check (L : Layout) (s : Sys × WaitHist) (e : Event) : Bool :=
  checkQuiet L s e &&
    match s.1.step L e, s.2.job with
    | some (t, _), some (i, _) => decide (¬ isNew s.1 t i)
    | _, _ => true

theorem condition_of_check {L : Layout} {s : Sys × WaitHist} {e : Event} (h : check L s e = true) :
    Condition L s e := by
  unfold check at h
  rw [Bool.and_eq_true] at h
  obtain ⟨hd, hu⟩ := quiet_of_check h.1
  refine ⟨hd, hu, fun t os ht i p hj => ?_⟩
  have h2 := h.2
  rw [ht, hj] at h2
  exact of_decide_eq_true h2

/-- The hart is in the own code of a thread. -/
def atCode : Place → Bool
  | .kernel .code => true
  | _ => false

theorem eq_of_atCode {p : Place} (h : atCode p = true) : p = .kernel .code := by
  unfold atCode at h
  split at h
  · rfl
  · cases h

/-- The shell starts a process that forks, waits for its child and exits. -/
def waitRun : List Event :=
  [.createUser 0x201000, .go true, .go true, .go true, callOf sampleLayout 1 4 0,
    callOf sampleLayout 1 5 2, .go true, .go true, .go true, callOf sampleLayout 2 6 0, .go true,
    callOf sampleLayout 1 6 0]

theorem waitsOk_waitRun : ∃ s t os, Run (step sampleLayout) (Condition sampleLayout)
    (start sampleLayout fun _ => 0) waitRun s ∧ s.1.step sampleLayout (.go true) = some (t, os) ∧
    s.2.job = some (1, 1) ∧ t.place = .kernel .code ∧ WaitsOk s.1 s.2 os t := by
  have hex : ((exec (step sampleLayout) (check sampleLayout) (start sampleLayout fun _ => 0)
      waitRun).bind fun s => (s.1.step sampleLayout (.go true)).map fun r =>
        (check sampleLayout s (.go true), s.2.job, atCode r.1.place)) =
      some (true, some (1, 1), true) := by decide +kernel
  obtain ⟨s, hs, hr⟩ := Option.bind_eq_some_iff.1 hex
  obtain ⟨⟨t, os⟩, ht, hv⟩ := Option.map_eq_some_iff.1 hr
  simp only [Prod.mk.injEq] at hv
  have hrun := Run.of_exec (fun _ _ => condition_of_check) hs
  exact ⟨s, t, os, hrun, ht, hv.2.1, eq_of_atCode hv.2.2,
    waitsOk_of_run hrun (condition_of_check hv.1) ht⟩

/-- The child of the process that the shell waits for kills its parent and forks: the new process gets
the slot that the shell waits for, and exits. -/
def stolenRun : List Event :=
  [.createUser 0x201000, .go true, .go true, .go true, callOf sampleLayout 1 4 0,
    timerOf sampleLayout 1, .go true, .go true, callOf sampleLayout 2 7 1, callOf sampleLayout 2 4 0,
    timerOf sampleLayout 2, .go true, .go true, callOf sampleLayout 1 6 0, .go true,
    timerOf sampleLayout 2, .go true]

/-- The shell reaps the process of the other one, and starts a new process in its slot. -/
def lostRun : List Event :=
  stolenRun ++ [.go true, .createUser 0x201000, .go true, .go true, .go true]

/-- **The shell reaps a process that it has not started**: the process with pid `3`, while it waits
for the one with pid `1`; and the parent of the process with pid `3` gets `-1` from `sys_waitpid`. -/
theorem not_waitsOk_stolenRun :
    (∃ s t os,
      Run (step sampleLayout) (Quiet sampleLayout) (start sampleLayout fun _ => 0) stolenRun s ∧
      s.1.step sampleLayout (.go true) = some (t, os) ∧ s.2.job = some (1, 1) ∧
      ¬ WaitsOk s.1 s.2 os t) ∧
    ∃ s t os, Run (step sampleLayout) (Quiet sampleLayout) (start sampleLayout fun _ => 0) lostRun s ∧
      s.1.step sampleLayout (callOf sampleLayout 2 5 3) = some (t, os) ∧
      ⟨2, 2, 1, 3⟩ ∈ s.2.forks ∧ ¬ WaitsOk s.1 s.2 os t := by
  constructor
  · have hex : ((exec (step sampleLayout) (checkQuiet sampleLayout) (start sampleLayout fun _ => 0)
        stolenRun).bind fun s => (s.1.step sampleLayout (.go true)).map fun r =>
          (s.2.job, s.1.me, r.1.me, atCode r.1.place, decide (Clears s.1.k r.1.k 1),
            (s.1.k.tasks 1).pid)) =
        some (some (1, 1), 0, 0, true, true, 3) := by decide +kernel
    obtain ⟨s, hs, hr⟩ := Option.bind_eq_some_iff.1 hex
    obtain ⟨⟨t, os⟩, ht, hv⟩ := Option.map_eq_some_iff.1 hr
    simp only [Prod.mk.injEq, decide_eq_true_eq] at hv
    obtain ⟨hj, hs0, ht0, hp, hc, hpid⟩ := hv
    refine ⟨s, t, os, Run.of_exec (fun _ _ => quiet_of_check) hs, ht, hj, fun hok => ?_⟩
    have := (hok.shell 1 1 hj hs0 ht0 (eq_of_atCode hp)).2 1 hc
    rw [hpid] at this
    cases this
  · have hex : ((exec (step sampleLayout) (checkQuiet sampleLayout) (start sampleLayout fun _ => 0)
        lostRun).bind fun s => (s.1.step sampleLayout (callOf sampleLayout 2 5 3)).map fun r =>
          (decide (⟨2, 2, 1, 3⟩ ∈ s.2.forks), (s.1.k.tasks s.1.me).pid,
            r.2.any fun o => match o with
              | .sysRet call v => decide (Syscall.ofNumber (call.reg .a7) = some .waitpid ∧
                  (call.reg .a0).toInt = 3 ∧ v = -1)
              | _ => false)) =
        some (true, 2, true) := by decide +kernel
    obtain ⟨s, hs, hr⟩ := Option.bind_eq_some_iff.1 hex
    obtain ⟨⟨t, os⟩, ht, hv⟩ := Option.map_eq_some_iff.1 hr
    simp only [Prod.mk.injEq, decide_eq_true_eq] at hv
    obtain ⟨hf, hme, hany⟩ := hv
    refine ⟨s, t, os, Run.of_exec (fun _ _ => quiet_of_check) hs, ht, hf, fun hok => ?_⟩
    obtain ⟨o, ho, hm⟩ := List.any_eq_true.1 hany
    cases o with
    | sysRet call v =>
      simp only [decide_eq_true_eq] at hm
      have := (hok.waitpid _ hf hme call v ho hm.1 hm.2.1).1
      rw [hm.2.2] at this
      exact absurd this (by decide)
    | _ => cases hm

end OscKernel.Proc.Waits
