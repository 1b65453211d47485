import OscKernel.Proc.System
import OscKernel.User.Effect

/-! # One step of the system

`SysInv L s` is the invariant of the system while user code leaves `tp` as the kernel has set it: the
current task is the one whose kernel stack is in use, and the invariant of the scheduler holds.

`step_ok` says, once for all steps, what a step does: it keeps the invariant, it has an effect on the
tasks that the thread on the processor can have, and control stays or goes to a suspended thread. -/

namespace OscKernel.Proc.Step

open OscKernel.Lib.Memory OscKernel.Lib.Riscv OscKernel.Lib.Transition
open OscKernel.Thread.Task OscKernel.Thread.RunQueue OscKernel.Thread.Sched OscKernel.Thread.Inv
open OscKernel.Thread.Effect OscKernel.User.Signal OscKernel.User.Process OscKernel.User.Effect
open OscKernel.Proc.Ops OscKernel.Proc.System

/-- A place at which a thread can go on. -/
def Place.Alive : Place → Prop
  | .kernel act => act ≠ .dead
  | .calls act => act ≠ .dead ∧ act ≠ .fresh
  | .user _ => True

/-- The invariant of the system. -/
structure SysInv (L : Layout) (s : Sys) : Prop where
  tp : s.k.tp = some s.me
  table : TableInv L s.k (some s.me) none
  tidy : Tidy s.k
  place : Place.Alive s.place

theorem isRunnable_iff {k : Kernel} {i : Slot} :
    isRunnable k i ↔ k.state i ≠ .unused ∧ k.state i ≠ .zombie := by
  unfold isRunnable
  cases k.state i <;> simp

/-- Between `k` and `k'` the slot `i` is cleared; it may have a new task. -/
def Clears (k k' : Kernel) (i : Slot) : Prop :=
  k.state i ≠ .unused ∧ (k'.state i = .unused ∨ (k'.tasks i).pid ≠ (k.tasks i).pid)

instance (k k' : Kernel) (i : Slot) : Decidable (Clears k k' i) := by unfold Clears; infer_instance

section Clears
variable {L : Layout} {c i : Slot} {cur out : Option Slot} {al : Allow} {k k' : Kernel}

theorem kept_of_not_clears (h : Affects c al k k') (ht : TableInv L k cur out)
    (hu : k.state i ≠ .unused) (hn : ¬ Clears k k' i) : Kept (i = c) (k.tasks i) (k'.tasks i) := by
  rcases h.fate i with hk | ⟨-, -, hu', -, -⟩ | ⟨-, -, -, hlo, -⟩
  · exact hk
  · exact absurd ⟨hu, .inl hu'⟩ hn
  · have := ht.pid_lt i hu
    exact absurd ⟨hu, .inr (by omega)⟩ hn

theorem Clears.zombie (hc : Clears k k' i) (h : Affects c al k k') :
    k.state i = .zombie ∧ al.clear i := by
  rcases h.fate i with hk | ⟨hc', hz, -, -, -⟩ | ⟨hf, -⟩
  · rcases hc.2 with hu | hp
    · exact absurd (hk.unused.1 hu) hc.1
    · exact absurd hk.pid hp
  · exact ⟨hz, hc'⟩
  · exact hf.resolve_left hc.1

/-- A task of a later state is an old one, or it has a new pid. -/
theorem kept_or_new (h : Affects c al k k') (hu : k'.state i ≠ .unused) :
    (k.state i ≠ .unused ∧ Kept (i = c) (k.tasks i) (k'.tasks i)) ∨
      (k.nextPid ≤ (k'.tasks i).pid ∧ i ≠ c ∧
        ((al.thread i ∧ (k'.tasks i).parent = none) ∨
          ((k'.tasks i).isUser = true ∧ (k'.tasks i).parent = some c))) := by
  rcases h.fate i with hk | ⟨-, -, hu', -, -⟩ | ⟨-, -, ho, hlo, -, hp, -⟩
  · exact .inl ⟨fun hn => hu (hk.unused.2 hn), hk⟩
  · exact absurd hu' hu
  · exact .inr ⟨hlo, ho, hp.imp_left fun h => ⟨h.1, h.2.2⟩⟩

theorem not_clears_cur (h : Affects c al k k') (ht : TableInv L k (some c) out) : ¬ Clears k k' c := by
  intro hc
  have hz := (hc.zombie h).1
  rcases ht.isRunnable_cur with hr | hr <;> rw [hz] at hr <;> cases hr

end Clears

/-- The user code that traps has left its task in `tp`. -/
def TpKept (L : Layout) (s : Sys) : Event → Prop
  | .trap reg _ _ _ _ => reg .tp = L.taskAddr s.me
  | _ => True

instance (L : Layout) (s : Sys) (e : Event) : Decidable (TpKept L s e) := by
  cases e <;> unfold TpKept <;> infer_instance

/-- What the next step may do to the slots: a wait clears the slot that is waited for; other code may
call `kill_zombies`, and kernel threads are created on purpose only. -/
def allows (s : Sys) (e : Event) : Allow :=
  match s.place with
  | .kernel (.waitDone j) => ⟨fun i => i = j, fun _ => False⟩
  | .kernel (.waitpid _ _ j) => ⟨fun i => i = j, fun _ => False⟩
  | _ => ⟨unclaimed s.k, fun _ => ∃ fn, e = .threadCreate fn⟩

theorem allows_of_user {s : Sys} {e : Event} {tf : TrapFrame} (hp : s.place = .user tf) :
    allows s e = ⟨unclaimed s.k, fun _ => ∃ fn, e = .threadCreate fn⟩ := by
  unfold allows
  rw [hp]

theorem allows_of_code {s : Sys} {e : Event} (hp : s.place = .kernel .code) :
    allows s e = ⟨unclaimed s.k, fun _ => ∃ fn, e = .threadCreate fn⟩ := by
  unfold allows
  rw [hp]

/-- A thread comes to stand at a place of its code at which it did not stand before. -/
def Enters (s : Sys) (k : Kernel) : Act → Prop
  | .fresh => False
  | .code => (∃ i, s.place = .kernel (.waitDone i)) ∨ s.place = .kernel .fresh
  | .waitDone i => s.place = .kernel .code ∧ Created s.k k i ∧ (k.tasks i).isUser = true ∧
      (k.tasks i).parent = some s.me
  | .waitpid tf pid j => (∃ tf0, s.place = .user tf0) ∧ k = s.k ∧ waitpidChild s.k pid = some j ∧
      Syscall.ofNumber (tf.reg .a7) = some .waitpid ∧ (tf.reg .a0).toInt = pid
  | .read tf i => ((∃ tf0, s.place = .user tf0) ∧ Syscall.ofNumber (tf.reg .a7) = some .uartRead) ∨
      ∃ j, i = j + 1 ∧ s.place = .kernel (.read tf j)
  | .sleep tf => (∃ tf0, s.place = .user tf0) ∧ Syscall.ofNumber (tf.reg .a7) = some .usleep
  | .timer _ | .exitLoop true => ∃ tf, s.place = .user tf
  | _ => True

/-- How a thread that keeps control comes to a place. -/
def PlaceStep (s : Sys) (k : Kernel) : Place → Prop
  | .user _ => (∃ tf, s.place = .user tf) ∨ s.place = .kernel .fresh ∨
      ∃ act, s.place = .kernel act ∧ act.inTrap = true
  | .kernel act => s.place = .calls act ∨ s.place = .kernel act ∨ Enters s k act
  | .calls act => (s.place = .kernel act ∧ k = s.k) ∨ ((∃ tf, act = .timer tf) ∧ Enters s k act)

/-- Control goes to another thread, which was suspended or starts; the one before has called
`schedule` or has died. -/
structure Resumes (s t : Sys) : Prop where
  ne : t.me ≠ s.me
  left : (∃ act, s.place = .calls act ∧ (t.k.tasks s.me).context = .saved s.me act) ∨
    t.k.state s.me = .zombie
  place : ∃ a, t.place = .kernel a ∧
    ((a = .fresh ∧ ∃ ra sp, (t.k.tasks t.me).context = .start ra sp) ∨
      (isRunnable s.k t.me ∧ (s.k.tasks t.me).context = .saved t.me a))

/-- What a step does. -/
structure StepOk (L : Layout) (s : Sys) (e : Event) (t : Sys) : Prop where
  inv : SysInv L t
  effect : Affects s.me (allows s e) s.k t.k
  me : (t.me = s.me ∧ PlaceStep s t.k t.place) ∨ Resumes s t

section Step
variable {L : Layout} {s t : Sys} {k : Kernel} {os : List Obs} {e : Event}

theorem goto_ok {place : Place} (hi : SysInv L s) (hs : s.goto k place = some (t, os))
    (h : Stays L s.me (allows s e) s.k k) (hp : Place.Alive place) (hps : PlaceStep s k place) :
    StepOk L s e t := by
  rw [Sys.goto, Option.some.injEq, Prod.mk.injEq] at hs
  obtain ⟨rfl, -⟩ := hs
  exact ⟨⟨h.tp, h.table, h.effect.tidy hi.tidy, hp⟩, h.effect, .inl ⟨rfl, hps⟩⟩

/-- **`switch_to`** is called by the thread on the processor. -/
theorem switch_ok {next : Slot} {act : Act} (hi : SysInv L s) (hsw : Switching L k s.me next)
    (he : Affects s.me (allows s e) s.k k)
    (ha : (act ≠ .dead ∧ s.place = .calls act) ∨ k.state s.me = .zombie)
    (hs : s.switch L k s.me next act = some (t, os)) : StepOk L s e t := by
  have hact : act ≠ .dead ∨ k.state s.me ≠ .runnable := by
    rcases ha with ⟨ha, -⟩ | hz
    · exact .inl ha
    · right
      rw [hz]
      decide
  obtain ⟨k', a, hk', htp, htab, had⟩ := switchTo_inv _ hsw hact
  rw [Sys.switch, hk'] at hs
  simp only [Option.map_some, Option.some.injEq, Prod.mk.injEq] at hs
  obtain ⟨rfl, -⟩ := hs
  obtain ⟨hke, hctx⟩ := switchTo_cases hk'
  have hown : Affects s.me .nothing k (k.setContext s.me (.saved s.me act)) :=
    .modify (.of_eq rfl rfl rfl rfl fun hn => absurd rfl hn)
  have heff : Affects s.me (allows s e) s.k k' := by
    rw [hke]
    exact he.trans (hown.congr rfl rfl)
  refine ⟨⟨htp, htab, heff.tidy hi.tidy, had⟩, heff, .inr ⟨hsw.ne, ?_, a, rfl, ?_⟩⟩
  · rcases ha with ⟨-, hp⟩ | hz
    · left
      refine ⟨act, hp, ?_⟩
      rw [hke, Kernel.setTp_tasks, k.setContext_same]
    · right
      rw [hke, Kernel.setTp_state, Kernel.state,
        k.setContext_proj _ TaskStruct.state _ fun _ => rfl]
      exact hz
  · rcases hctx with ⟨hf, hstart⟩ | hc
    · exact .inl ⟨(Prod.mk.inj hf).2, hstart⟩
    · right
      -- the context of `next` is the one it had before the step
      rw [hke, Kernel.setTp_tasks, k.setContext_of_ne s.me _ hsw.ne] at hc
      have hrun : k.state next = .running := (hsw.table.running next).2 rfl
      rcases he.fate next with hk | ⟨-, -, hu, -, -⟩ | ⟨-, -, -, -, -, -, ra, sp, hx⟩
      · refine ⟨isRunnable_iff.2 ⟨fun hu => ?_, fun hz => ?_⟩, (hk.other hsw.ne).2 ▸ hc⟩
        · rw [Kernel.state, hk.unused.2 hu] at hrun
          cases hrun
        · rw [Kernel.state, hk.zombie hz] at hrun
          cases hrun
      · rw [Kernel.state, hu] at hrun
        cases hrun
      · rw [hx] at hc
        cases hc

/-- A function called by the thread on the processor has ended with `switch_to`. -/
theorem ends_ok {prev next : Slot} (hi : SysInv L s)
    (h : Ends L s.me (allows s e) s.k k (.switch prev next))
    (hs : s.switch L k prev next .dead = some (t, os)) : StepOk L s e t := by
  obtain ⟨rfl, hl⟩ := h
  exact switch_ok hi hl.switching hl.effect (.inr hl.zombie) hs

theorem callSchedule_ok {act : Act} (hi : SysInv L s) (ha : act ≠ .dead) (hp : s.place = .calls act)
    (hs : s.callSchedule L act = some (t, os)) : StepOk L s e t := by
  have he : ∀ k' flow, schedule s.k = some (k', flow) → Affects s.me (allows s e) s.k k' :=
    fun k' flow h => (schedule_effect hi.tp hi.table h).of_nothing
  unfold Sys.callSchedule at hs
  rcases schedule_inv hi.tp hi.table with h | ⟨k', n, h, hsw, -, -⟩
  · rw [h] at hs
    exact goto_ok hi hs (.refl hi.tp hi.table) (show Place.Alive (.kernel act) from ha) (.inl hp)
  · rw [h] at hs
    exact switch_ok hi hsw (he _ _ h) (.inl ⟨ha, hp⟩) hs

theorem exitThread_ok (hi : SysInv L s) (hs : s.exitThread L = some (t, os)) : StepOk L s e t := by
  obtain ⟨-, hs⟩ | ⟨h0, k', prev, next, hx, hs⟩ := Sys.exitThread_outcome hs
  · exact goto_ok hi hs (.refl hi.tp hi.table) (by simp [Place.Alive]) (.inr (.inr trivial))
  · have hne : s.me ≠ 0 := fun he => h0 (by rw [hi.tp, hi.table.idleTask, he])
    exact ends_ok hi ((Stays.refl hi.tp hi.table).ends (threadExit_ends hi.tp hi.table hne hx)) hs

theorem returnToUser_ok {tf : TrapFrame} (hi : SysInv L s)
    (hs : s.returnToUser k tf = some (t, os)) (h : Stays L s.me (allows s e) s.k k)
    (hps : PlaceStep s k (.user tf)) : StepOk L s e t := by
  unfold Sys.returnToUser at hs
  split_ifs at hs
  rw [Option.some.injEq, Prod.mk.injEq] at hs
  obtain ⟨rfl, -⟩ := hs
  exact ⟨⟨h.tp, h.table, h.effect.tidy hi.tidy, trivial⟩, h.effect, .inl ⟨rfl, hps⟩⟩

theorem leaveTrap_ok {tf : TrapFrame} (hi : SysInv L s) (hs : s.leaveTrap L k tf = some (t, os))
    (h : Stays L s.me (allows s e) s.k k) (hps : PlaceStep s k (.user tf)) : StepOk L s e t := by
  obtain ⟨k', tf', os1, hd, h1, rfl⟩ | ⟨k', prev, next, tf', hd, hs⟩ := Sys.leaveTrap_outcome hs
  · exact returnToUser_ok hi h1 (h.ends (signalTryDeliver_ends h.tp h.table hd)) hps
  · exact ends_ok hi (h.ends (signalTryDeliver_ends h.tp h.table hd)) hs

theorem afterSyscall_ok {call tf : TrapFrame} {v : Word} (hi : SysInv L s)
    (hs : s.afterSyscall L k call tf v = some (t, os)) (h : Stays L s.me (allows s e) s.k k)
    (hps : PlaceStep s k (.user tf)) : StepOk L s e t := by
  obtain ⟨⟨t1, os1⟩, h1, h2⟩ := Option.map_eq_some_iff.1 hs
  rw [Prod.mk.injEq] at h2
  exact h2.1 ▸ leaveTrap_ok hi h1 h hps

/-- How `syscall_handler` ends. -/
def OutcomeOk (L : Layout) (c : Slot) (al : Allow) (k k' : Kernel) : Outcome → Prop
  | .ret _ _ => Stays L c al k k'
  | .loop act => Stays L c al k k' ∧ act ≠ .dead
  | .switch prev next => Ends L c al k k' (.switch prev next)

theorem ofFlow_ok {c : Slot} {al : Allow} {k k' : Kernel} {flow : Flow} {tf : TrapFrame} {v : ℤ}
    {out : Outcome} {k1 : Kernel} (h : Ends L c al k k' flow)
    (ho : Outcome.ofFlow tf (k', flow, v) = (k1, out)) : OutcomeOk L c al k k1 out := by
  rcases flow with _ | ⟨prev, next⟩ <;>
  · rw [Outcome.ofFlow, Prod.mk.injEq] at ho
    obtain ⟨rfl, rfl⟩ := ho
    exact h

theorem OutcomeOk.of_nothing {c : Slot} {al : Allow} {k k' : Kernel} (out : Outcome)
    (h : OutcomeOk L c .nothing k k' out) : OutcomeOk L c al k k' out := by
  cases out with
  | ret tf v => exact ⟨h.tp, h.table, h.effect.of_nothing⟩
  | loop act => exact ⟨⟨h.1.tp, h.1.table, h.1.effect.of_nothing⟩, h.2⟩
  | switch prev next => exact ⟨h.1, h.2.switching, h.2.zombie, h.2.effect.of_nothing⟩

theorem sysExit_ok {c : Slot} {k k' : Kernel} {tf : TrapFrame} {status : BitVec 32} {out : Outcome}
    (ht : k.tp = some c) (h : TableInv L k (some c) none)
    (hs : sysExit k tf status = some (k', out)) :
    OutcomeOk L c .nothing k k' out := by
  have h1 : Stays L c .nothing k (k.setExitStatus c status) :=
    .modify ht h (fun _ => rfl) (fun _ => rfl) (fun _ => rfl) fun _ _ => rfl
  obtain ⟨i, hi, ho⟩ := sysExit_outcome hs
  obtain rfl := Option.some.inj (ht.symm.trans hi)
  rcases ho with ⟨-, rfl, rfl⟩ | ⟨h0, k1, flow, he, hf⟩
  · exact ⟨h1, by simp⟩
  · have hne : c ≠ 0 := fun he => h0 (by rw [ht, h.idleTask, he])
    exact ofFlow_ok (h1.ends (threadExit_ends h1.tp h1.table hne he)) hf

/-- **`syscall_handler`**. -/
theorem syscallHandler_ok {c : Slot} {k k' : Kernel} {file : Option (List Byte)} {sstatus : Word}
    {tf : TrapFrame} {out : Outcome} (ht : k.tp = some c) (h : TableInv L k (some c) none)
    (hd : Tidy k) (hs : syscallHandler L file sstatus k tf = some (k', out)) :
    OutcomeOk L c (.sweep k) k k' out := by
  have hret : ∀ v tf', some (k, Outcome.ret tf' v) = some (k', out) →
      OutcomeOk L c (.sweep k) k k' out := by
    intro v tf' he
    rw [Option.some.injEq, Prod.mk.injEq] at he
    obtain ⟨rfl, rfl⟩ := he
    exact Stays.refl ht h
  have hstay : ∀ {k1 : Kernel} {v tf'}, Stays L c .nothing k k1 →
      some (k1, Outcome.ret tf' v) = some (k', out) → OutcomeOk L c (.sweep k) k k' out := by
    intro k1 v tf' h1 he
    rw [Option.some.injEq, Prod.mk.injEq] at he
    obtain ⟨rfl, rfl⟩ := he
    exact OutcomeOk.of_nothing (.ret tf' v) h1
  have hloop : ∀ act, act ≠ .dead → some (k, Outcome.loop act) = some (k', out) →
      OutcomeOk L c (.sweep k) k k' out := by
    intro act ha he
    rw [Option.some.injEq, Prod.mk.injEq] at he
    obtain ⟨rfl, rfl⟩ := he
    exact ⟨.refl ht h, ha⟩
  unfold syscallHandler at hs
  dsimp only at hs
  split at hs
  · exact hret _ _ hs
  · rw [ht] at hs
    exact hret _ _ hs
  · split_ifs at hs
    · exact hret _ _ hs
    · exact hret _ _ hs
    · exact hloop _ (by simp) hs
  · split_ifs at hs
    · exact hret _ _ hs
    · exact hret _ _ hs
  · exact hstay (userExecCurrent_stays ht h) hs
  · obtain ⟨⟨k1, v⟩, h1, h2⟩ := Option.map_eq_some_iff.1 hs
    rw [Prod.mk.injEq] at h2
    obtain ⟨rfl, rfl⟩ := h2
    exact userFork_stays ht h hd h1
  · split at hs
    · exact hret _ _ hs
    · exact hloop _ (by simp) hs
  · exact (sysExit_ok ht h hs).of_nothing _
  · obtain ⟨⟨k1, flow, v⟩, h1, h2⟩ := Option.map_eq_some_iff.1 hs
    exact (ofFlow_ok (taskKill_ends ht h h1) h2).of_nothing _
  · exact hret _ _ hs
  · split_ifs at hs
    · exact hret _ _ hs
    · exact hloop _ (by simp) hs
  · exact hstay (sysSignal_stays ht h) hs
  · exact hstay (sysSigreturn_stays _ ht h) hs
  · obtain ⟨⟨k1, flow, v⟩, h1, h2⟩ := Option.map_eq_some_iff.1 hs
    exact (ofFlow_ok (sysKill_ends ht h h1) h2).of_nothing _

theorem ofFlow_ne_loop {tf : TrapFrame} {r : Kernel × Flow × ℤ} {k : Kernel} {act : Act} :
    Outcome.ofFlow tf r ≠ (k, .loop act) := by
  obtain ⟨k1, _ | _, v⟩ := r <;> simp [Outcome.ofFlow]

theorem syscallHandler_loop {k k' : Kernel} {file : Option (List Byte)} {sstatus : Word}
    {tf : TrapFrame} {act : Act} (hs : syscallHandler L file sstatus k tf = some (k', .loop act)) :
    (∃ pid j, act = .waitpid tf pid j ∧ k' = k ∧ waitpidChild k pid = some j ∧
      Syscall.ofNumber (tf.reg .a7) = some .waitpid ∧ (tf.reg .a0).toInt = pid) ∨
    (act = .read tf 0 ∧ Syscall.ofNumber (tf.reg .a7) = some .uartRead) ∨
    (act = .sleep tf ∧ Syscall.ofNumber (tf.reg .a7) = some .usleep) ∨ act = .exitLoop true := by
  have hret : ∀ {k1 tf' v}, some (k1, Outcome.ret tf' v) ≠ some (k', .loop act) := by simp
  have hloop : ∀ {act'}, some (k, Outcome.loop act') = some (k', .loop act) → act = act' := by
    simp only [Option.some.injEq, Prod.mk.injEq, Outcome.loop.injEq]
    exact fun h => h.2.symm
  unfold syscallHandler at hs
  dsimp only at hs
  split at hs
  · exact absurd hs hret
  · obtain ⟨i, -, h2⟩ := Option.map_eq_some_iff.1 hs
    exact absurd (congrArg some h2) hret
  · rename_i hn
    split_ifs at hs
    · exact absurd hs hret
    · exact absurd hs hret
    · exact .inr (.inl ⟨hloop hs, hn⟩)
  · split_ifs at hs
    · exact absurd hs hret
    · exact absurd hs hret
  · exact absurd hs hret
  · obtain ⟨r, -, h2⟩ := Option.map_eq_some_iff.1 hs
    exact absurd (congrArg some h2) hret
  · rename_i hn
    split at hs
    · exact absurd hs hret
    · rename_i child hw
      simp only [Option.some.injEq, Prod.mk.injEq, Outcome.loop.injEq] at hs
      exact .inl ⟨_, child, hs.2.symm, hs.1.symm, hw, hn, rfl⟩
  · obtain ⟨i, -, ⟨-, -, ho⟩ | ⟨-, k1, flow, -, ho⟩⟩ := sysExit_outcome hs
    · exact .inr (.inr (.inr (Outcome.loop.inj ho)))
    · exact absurd ho ofFlow_ne_loop
  · obtain ⟨r, -, h2⟩ := Option.map_eq_some_iff.1 hs
    exact absurd h2 ofFlow_ne_loop
  · exact absurd hs hret
  · rename_i hn
    split_ifs at hs
    · exact absurd hs hret
    · exact .inr (.inr (.inl ⟨hloop hs, hn⟩))
  · exact absurd hs hret
  · exact absurd hs hret
  · obtain ⟨r, -, h2⟩ := Option.map_eq_some_iff.1 hs
    exact absurd h2 ofFlow_ne_loop

theorem ecall_ok {file : Option (List Byte)} {tf tf0 : TrapFrame} (hi : SysInv L s)
    (hp : s.place = .user tf0) (hs : s.ecall L file tf = some (t, os)) : StepOk L s e t := by
  have hsw : ∀ {k' : Kernel}, Stays L s.me (.sweep s.k) s.k k' → Stays L s.me (allows s e) s.k k' := by
    intro k' h
    rw [allows_of_user hp]
    exact h.mono (fun _ hn => hn) fun _ hn => hn.elim
  obtain ⟨k', tf', v, hc, hs⟩ | ⟨k', act, hc, hs⟩ | ⟨k', prev, next, hc, hs⟩ :=
    Sys.ecall_outcome hs
  · exact afterSyscall_ok hi hs (hsw (syscallHandler_ok hi.tp hi.table hi.tidy hc)) (.inl ⟨_, hp⟩)
  · obtain ⟨h1, h2⟩ : OutcomeOk L s.me (.sweep s.k) s.k k' (.loop act) :=
      syscallHandler_ok hi.tp hi.table hi.tidy hc
    have hent : Enters s k' act := by
      rcases syscallHandler_loop hc with ⟨pid, j, rfl, hk, hw⟩ | ⟨rfl, hn⟩ | ⟨rfl, hn⟩ | rfl
      · exact ⟨⟨_, hp⟩, hk, hw⟩
      · exact .inl ⟨⟨_, hp⟩, hn⟩
      · exact ⟨⟨_, hp⟩, hn⟩
      · exact ⟨_, hp⟩
    exact goto_ok hi hs (hsw h1) (show Place.Alive (.kernel act) from h2) (.inr (.inr hent))
  · obtain ⟨hprev, hl⟩ : OutcomeOk L s.me (.sweep s.k) s.k _ (.switch _ _) :=
      syscallHandler_ok hi.tp hi.table hi.tidy hc
    refine ends_ok hi ⟨hprev, hl.switching, hl.zombie, ?_⟩ hs
    rw [allows_of_user hp]
    exact hl.effect.mono (fun _ hn => hn) fun _ hn => hn.elim

theorem doTrap_ok {file : Option (List Byte)} {tf : TrapFrame} (tf0 : TrapFrame) (hi : SysInv L s)
    (hp : s.place = .user tf0) (hs : s.doTrap L file tf = some (t, os)) : StepOk L s e t := by
  unfold Sys.doTrap at hs
  split_ifs at hs
  · exact goto_ok hi hs (.refl hi.tp hi.table) (by simp [Place.Alive]) (.inr ⟨⟨_, rfl⟩, _, hp⟩)
  · exact leaveTrap_ok hi hs (.refl hi.tp hi.table) (.inl ⟨_, hp⟩)
  · exact ecall_ok hi hp hs

theorem trap_eq {reg : Reg → Word} {sepc scause stval : Word} {file : Option (List Byte)}
    (ht : s.k.tp = some s.me) (hr : reg .tp = L.taskAddr s.me) :
    s.trap L reg sepc scause stval file =
      { s with sstatus := trapStatus s.sstatus .user }.doTrap L file
        (trapFrame s.sstatus reg sepc scause stval) := by
  have hk : s.k.setTp (some s.me) = s.k := by
    rw [← ht]
    rfl
  unfold Sys.trap
  rw [hr, L.taskOf_taskAddr]
  simp only [hk]

theorem trap_ok {reg : Reg → Word} {sepc scause stval : Word} {file : Option (List Byte)}
    {tf0 : TrapFrame} (hi : SysInv L s) (hp : s.place = .user tf0) (hr : reg .tp = L.taskAddr s.me)
    (hs : s.trap L reg sepc scause stval file = some (t, os)) : StepOk L s e t := by
  rw [trap_eq hi.tp hr] at hs
  have h : StepOk L { s with sstatus := trapStatus s.sstatus .user } e t :=
    doTrap_ok tf0 ⟨hi.tp, hi.table, hi.tidy, hi.place⟩ (by exact hp) hs
  refine ⟨h.inv, h.effect, ?_⟩
  rcases h.me with ⟨hm, hps⟩ | hr
  · exact .inl ⟨hm, hps⟩
  · exact .inr ⟨hr.ne, hr.left, hr.place⟩

theorem waitForNew_ok {r : Option (Kernel × Option Slot)} (hi : SysInv L s)
    (hp : s.place = .kernel .code)
    (h : ∀ k r', r = some (k, r') → Stays L s.me (.sweep s.k) s.k k ∧ ∀ i, r' = some i →
      (Created s.k k i ∧ (k.tasks i).isUser = true ∧ (k.tasks i).parent = some s.me))
    (hs : s.waitForNew r = some (t, os)) : StepOk L s e t := by
  have hsw : ∀ {k' : Kernel}, Stays L s.me (.sweep s.k) s.k k' → Stays L s.me (allows s e) s.k k' := by
    intro k' h
    rw [allows_of_code hp]
    exact h.mono (fun _ hn => hn) fun _ hn => hn.elim
  unfold Sys.waitForNew at hs
  split at hs
  · cases hs
  · exact goto_ok hi hs (hsw (h _ _ rfl).1) (by simp [Place.Alive]) (.inr (.inl hp))
  · obtain ⟨h1, h2⟩ := h _ _ rfl
    exact goto_ok hi hs (hsw h1) (by simp [Place.Alive]) (.inr (.inr ⟨hp, h2 _ rfl⟩))

theorem startThread_ok (hi : SysInv L s) (hp : s.place = .kernel .fresh)
    (hs : s.startThread L = some (t, os)) : StepOk L s e t := by
  unfold Sys.startThread at hs
  rw [hi.tp] at hs
  dsimp only at hs
  split_ifs at hs
  · exact returnToUser_ok hi hs (.refl hi.tp hi.table) (.inr (.inl hp))
  · exact exitThread_ok hi hs
  · exact goto_ok hi hs (.refl hi.tp hi.table) (by simp [Place.Alive]) (.inr (.inr (.inr hp)))

/-- The end of a wait reaps the task that was waited for, if it is a zombie. -/
theorem reap_stays {i : Slot} (hi : SysInv L s)
    (hal : allows s e = ⟨fun j => j = i, fun _ => False⟩) :
    Stays L s.me (allows s e) s.k
      (if s.k.state i = .zombie then taskReap s.k (some i) else s.k) := by
  split_ifs with hz
  · have h0 : s.k.idleTask ≠ some i := by
      rw [hi.table.idleTask]
      rintro h
      rw [Option.some.injEq] at h
      rcases hi.table.idle with hr | hr <;> rw [h, hz] at hr <;> cases hr
    rw [hal]
    exact ⟨(taskReap_frame s.k _).1.trans hi.tp, taskReap_inv hi.table _, taskReap_effect h0 hz⟩
  · exact .refl hi.tp hi.table

theorem kernelStep_ok {act : Act} (hi : SysInv L s) (hp : s.place = .kernel act)
    (hs : s.kernelStep L act e = some (t, os)) : StepOk L s e t := by
  have hrefl : Stays L s.me (allows s e) s.k s.k := .refl hi.tp hi.table
  cases Sys.kernelStep_outcome hs with
  | start next => exact startThread_ok hi hp next
  | @create fn k' _ call next =>
    have hst : Stays L s.me (allows s (.threadCreate fn)) s.k k' := by
      rw [allows_of_code hp]
      exact (threadCreate_stays hi.tp hi.table hi.tidy call).mono (fun _ hn => hn)
        fun _ _ => ⟨fn, rfl⟩
    exact goto_ok hi next hst (by simp [Place.Alive]) (.inr (.inl hp))
  | createUser next =>
    exact waitForNew_ok hi hp (fun k i hc => userProcessCreate_stays hi.tp hi.table hi.tidy hc) next
  | runUserFile next =>
    exact waitForNew_ok hi hp
      (fun k i hc => userProcessCreateFromFile_stays hi.tp hi.table hi.tidy hc) next
  | sweep next =>
    have hz : Stays L s.me (allows s .killZombies) s.k (killZombies s.k) := by
      rw [allows_of_code hp]
      exact ⟨(killZombies_frame s.k).1.trans hi.tp, killZombies_inv hi.table,
        killZombies_effect hi.table.idleTask⟩
    exact goto_ok hi next hz (by simp [Place.Alive]) (.inr (.inl hp))
  | exits next => exact exitThread_ok hi next
  | @doneOver task ready _ next =>
    have hal : allows s (.go ready) = ⟨fun j => j = task, fun _ => False⟩ := by
      unfold allows
      rw [hp]
    exact goto_ok hi next (reap_stays hi hal) (by simp [Place.Alive]) (.inr (.inr (.inl ⟨_, hp⟩)))
  | timer next => exact leaveTrap_ok hi next hrefl (.inr (.inr ⟨_, hp, rfl⟩))
  | @waitpidOver tf pid child ready _ next =>
    have hal : allows s (.go ready) = ⟨fun j => j = child, fun _ => False⟩ := by
      unfold allows
      rw [hp]
    exact afterSyscall_ok hi next (reap_stays hi hal) (.inr (.inr ⟨_, hp, rfl⟩))
  | readNext _ next =>
    exact goto_ok hi next (hrefl.setMem _) (by simp [Place.Alive]) (.inr (.inr (.inr ⟨_, rfl, hp⟩)))
  | readOver _ _ next => exact afterSyscall_ok hi next (hrefl.setMem _) (.inr (.inr ⟨_, hp, rfl⟩))
  | sleepOver next => exact afterSyscall_ok hi next hrefl (.inr (.inr ⟨_, hp, rfl⟩))
  | yields next | doneOn next | exitLoop next | waitpidOn next | readOn next | sleepOn next =>
    exact goto_ok hi next hrefl (by simp [Place.Alive]) (.inl ⟨hp, rfl⟩)

/-- **What a step does**, while user code leaves `tp` alone. -/
theorem step_ok (hi : SysInv L s) (hu : TpKept L s e) (hs : s.step L e = some (t, os)) :
    StepOk L s e t := by
  unfold Sys.step at hs
  split at hs
  · rename_i hp
    exact kernelStep_ok hi hp hs
  · rename_i hp
    have ha : Place.Alive s.place := hi.place
    rw [hp] at ha
    exact callSchedule_ok hi ha.1 hp hs
  · rename_i hp
    obtain ⟨-, hs⟩ := Sys.userStore_outcome hs
    refine goto_ok hi hs ((Stays.refl hi.tp hi.table).setMem _) hi.place ?_
    rw [hp]
    exact .inl ⟨_, hp⟩
  · rename_i hp
    exact trap_ok hi hp hu hs
  · cases hs

theorem kept_idle (hi : SysInv L s) (ho : StepOk L s e t) :
    Kept ((0 : Slot) = s.me) (s.k.tasks 0) (t.k.tasks 0) := by
  obtain ⟨h1, h2⟩ := isRunnable_iff.1 hi.table.idle
  exact kept_of_not_clears ho.effect hi.table h1 fun hc => h2 (hc.zombie ho.effect).1

end Step

/-! ### The start -/

/-- A task after `thread_init`, which makes the first slot the idle task. -/
def bootTask (L : Layout) (i : Slot) : TaskStruct :=
  if i = 0 then
    { zeroTask with
      state := .running
      entry := L.idle
      stackBase := L.stackBase 0
      context := .start L.idle (L.stackTop 0) }
  else { zeroTask with pid := -1 }

/-- **The tasks at the start**, apart from the links of the run queue. -/
theorem boot_core (L : Layout) (m : Mem) (i : Slot) :
    ((boot L m).k.tasks i).core = (bootTask L i).core := by
  obtain ⟨k, hk, hp⟩ : ∃ k : Kernel, threadInit L (bootKernel m) = (runqAdd k 0).setTp (some 0) ∧
      ∀ i, k.tasks i = bootTask L i := by
    refine ⟨_, rfl, fun i => ?_⟩
    unfold bootTask
    rcases eq_or_ne i 0 with rfl | hi
    · rw [Kernel.modify_same, if_pos rfl]
      rfl
    · rw [Kernel.modify_of_ne _ _ _ hi, if_neg hi]
      rfl
  change ((threadInit L (bootKernel m)).tasks i).core = _
  rw [hk, Kernel.setTp_tasks, (runqAdd_queueOnly k 0).core, hp]

theorem boot_proj (L : Layout) (m : Mem) (i : Slot) {β : Type*} (p : TaskStruct → β)
    (hp : ∀ t, p t = p t.core) : p ((boot L m).k.tasks i) = p (bootTask L i) := by
  rw [hp, boot_core, ← hp]

/-- At the start there is the idle task, no task has a parent, and no context is saved. -/
theorem boot_task (L : Layout) (m : Mem) (i : Slot) :
    (boot L m).k.state i = (if i = 0 then .running else .unused) ∧
      ((boot L m).k.tasks i).parent = none ∧ ((boot L m).k.tasks i).isUser = false ∧
      ((boot L m).k.tasks i).context = (if i = 0 then .start L.idle (L.stackTop 0) else .clear) := by
  have hs : (boot L m).k.state i = _ := boot_proj L m i TaskStruct.state fun _ => rfl
  rw [hs, boot_proj L m i TaskStruct.parent fun _ => rfl,
    boot_proj L m i TaskStruct.isUser fun _ => rfl, boot_proj L m i TaskStruct.context fun _ => rfl]
  unfold bootTask
  split_ifs <;> exact ⟨rfl, rfl, rfl, rfl⟩

/-- **The start** has the invariant. -/
theorem sysInv_boot (L : Layout) (m : Mem) : SysInv L (boot L m) := by
  obtain ⟨c, ht, h⟩ := threadInit_inv L m
  have h0 : c = 0 := by
    have : (threadInit L (bootKernel m)).tp = some 0 := rfl
    rw [ht, Option.some.injEq] at this
    exact this
  subst h0
  exact ⟨ht, h, fun i _ => ⟨(boot_task L m i).2.1, (boot_task L m i).2.2.1⟩,
    by simp [boot, Place.Alive]⟩

end OscKernel.Proc.Step
