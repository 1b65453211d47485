import OscKernel.Proc.Step

/-! # Where the threads stand

`StandsAt s q act`: the thread of the slot `q` stands at `act`, on the processor or suspended. A step
moves the thread on the processor only: `StandsAt.back` and `StandsAt.forward`. The steps at the places
where a thread waits are inverted one by one. -/

namespace OscKernel.Proc.Stands

open OscKernel.Lib.Memory OscKernel.Lib.Riscv
open OscKernel.Thread.Task OscKernel.Thread.RunQueue OscKernel.Thread.Sched OscKernel.Thread.Inv
open OscKernel.Thread.Effect OscKernel.User.Signal OscKernel.User.Process OscKernel.User.Effect
open OscKernel.Proc.Ops OscKernel.Proc.System OscKernel.Proc.Step

/-- The thread of the slot `q` stands at `act`. -/
def StandsAt (s : Sys) (q : Slot) (act : Act) : Prop :=
  (q = s.me ∧ (s.place = .kernel act ∨ s.place = .calls act)) ∨
    (q ≠ s.me ∧ isRunnable s.k q ∧ (s.k.tasks q).context = .saved q act)

section Stands
variable {L : Layout} {s t : Sys} {e : Event} {os : List Obs} {q : Slot} {act : Act}

theorem StandsAt.live (hi : SysInv L s) (h : StandsAt s q act) : isRunnable s.k q := by
  rcases h with ⟨rfl, -⟩ | ⟨-, hr, -⟩
  · exact hi.table.isRunnable_cur
  · exact hr

theorem suspended_back (ho : StepOk L s e t) (hq : q ≠ s.me) (hr : isRunnable t.k q)
    (hc : (t.k.tasks q).context = .saved q act) :
    isRunnable s.k q ∧ (s.k.tasks q).context = .saved q act := by
  rcases ho.effect.fate q with hk | ⟨-, -, hu, -, -⟩ | ⟨-, -, -, -, -, -, ra, sp, hx⟩
  · obtain ⟨h1, h2⟩ := isRunnable_iff.1 hr
    exact ⟨isRunnable_iff.2 ⟨fun hu => h1 (hk.unused.2 hu), fun hz => h2 (hk.zombie hz)⟩,
      (hk.other hq).2 ▸ hc⟩
  · exact absurd hu (isRunnable_iff.1 hr).1
  · rw [hx] at hc
    cases hc

/-- A thread that is suspended before a step is so after it, if another one has the processor. -/
theorem suspended_forward (ho : StepOk L s e t) (hq : q ≠ s.me) (hr : isRunnable s.k q) :
    (t.k.tasks q).context = (s.k.tasks q).context := by
  obtain ⟨h1, h2⟩ := isRunnable_iff.1 hr
  rcases ho.effect.fate q with hk | ⟨-, hz, -, -, -⟩ | ⟨hf, -⟩
  · exact (hk.other hq).2
  · exact absurd hz h2
  · rcases hf with hu | ⟨hz, -⟩
    · exact absurd hu h1
    · exact absurd hz h2

/-- **Where a thread stands after a step**: it stood there before, or it is given the processor for
the first time, or it was on the processor and came there. -/
theorem StandsAt.back (ho : StepOk L s e t) (h : StandsAt t q act) :
    StandsAt s q act ∨
    (act = .fresh ∧ q = t.me ∧ t.me ≠ s.me ∧ ∃ ra sp, (t.k.tasks q).context = .start ra sp) ∨
    (q = s.me ∧ t.me = s.me ∧ Enters s t.k act) := by
  rcases h with ⟨rfl, hp⟩ | ⟨hq, hr, hc⟩
  · rcases ho.me with ⟨hme, hps⟩ | ⟨hne, -, a, hp', ha⟩
    · rcases hp with hp | hp <;> rw [hp] at hps
      · rcases hps with h1 | h1 | h1
        · exact .inl (.inl ⟨hme, .inr h1⟩)
        · exact .inl (.inl ⟨hme, .inl h1⟩)
        · exact .inr (.inr ⟨hme, hme, h1⟩)
      · rcases hps with ⟨h1, -⟩ | ⟨-, h1⟩
        · exact .inl (.inl ⟨hme, .inl h1⟩)
        · exact .inr (.inr ⟨hme, hme, h1⟩)
    · have hact : a = act := by
        rw [hp'] at hp
        rcases hp with hp | hp <;> cases hp
        rfl
      subst hact
      rcases ha with ⟨rfl, hs⟩ | ⟨hr, hc⟩
      · exact .inr (.inl ⟨rfl, rfl, hne, hs⟩)
      · exact .inl (.inr ⟨hne, hr, hc⟩)
  · rcases ho.me with ⟨hme, -⟩ | ⟨hne, hleft, -⟩
    · have hq' : q ≠ s.me := hme ▸ hq
      exact .inl (.inr ⟨hq', suspended_back ho hq' hr hc⟩)
    · rcases eq_or_ne q s.me with rfl | hq'
      · rcases hleft with ⟨act', hp, hc'⟩ | hz
        · rw [hc', CpuContext.saved.injEq] at hc
          exact .inl (.inl ⟨rfl, .inr (hc.2 ▸ hp)⟩)
        · exact absurd hz (isRunnable_iff.1 hr).2
      · exact .inl (.inr ⟨hq', suspended_back ho hq' hr hc⟩)

/-- **A thread stays where it stands**, unless it is on the processor and goes on. -/
theorem StandsAt.forward (ho : StepOk L s e t)
    (hcalls : ∀ act, s.place = .calls act → t.me = s.me → t.place = .kernel act)
    (h : StandsAt s q act) (hr : isRunnable t.k q) :
    StandsAt t q act ∨ (q = s.me ∧ s.place = .kernel act) := by
  rcases h with ⟨rfl, hp | hp⟩ | ⟨hq, hrs, hc⟩
  · exact .inr ⟨rfl, hp⟩
  · left
    rcases ho.me with ⟨hme, -⟩ | ⟨hne, hleft, -⟩
    · exact .inl ⟨hme.symm, .inl (hcalls act hp hme)⟩
    · refine .inr ⟨hne.symm, hr, ?_⟩
      rcases hleft with ⟨act', hp', hc⟩ | hz
      · rw [hp, Place.calls.injEq] at hp'
        exact hp' ▸ hc
      · exact absurd hz (isRunnable_iff.1 hr).2
  · left
    have hct := suspended_forward ho hq hrs
    rw [hc] at hct
    rcases eq_or_ne q t.me with rfl | hqt
    · rcases ho.me with ⟨hme, -⟩ | ⟨-, -, a, hp, ⟨-, ra, sp, hs⟩ | ⟨-, hs⟩⟩
      · exact absurd hme hq
      · rw [hct] at hs
        cases hs
      · rw [hc, CpuContext.saved.injEq] at hs
        exact .inl ⟨rfl, .inl (hs.2 ▸ hp)⟩
    · exact .inr ⟨hqt, hr, hct⟩

end Stands

/-! ### The steps at the places where a thread waits -/

section Wait
variable {L : Layout} {s t : Sys} {e : Event} {os : List Obs} {k : Kernel}

theorem switch_me {next me : Slot} {act : Act} (hsw : Switching L k me next) (hme : s.me = me)
    (ha : act ≠ .dead ∨ k.state me ≠ .runnable) (hs : s.switch L k me next act = some (t, os)) :
    t.me = next ∧ (∃ a, t.place = .kernel a) ∧ os = [.switched me next] := by
  subst hme
  obtain ⟨k', a, hk', -⟩ := switchTo_inv _ hsw ha
  rw [Sys.switch, hk'] at hs
  simp only [Option.map_some, Option.some.injEq, Prod.mk.injEq] at hs
  obtain ⟨rfl, rfl⟩ := hs
  exact ⟨rfl, ⟨a, rfl⟩, rfl⟩

/-- After a call of `schedule` another thread has the processor, or nothing else has changed. -/
theorem calls_step (hi : SysInv L s) {act : Act} (hp : s.place = .calls act)
    (hs : s.step L e = some (t, os)) : t.me ≠ s.me ∨ t = { s with place := .kernel act } := by
  unfold Sys.step at hs
  rw [hp] at hs
  cases e with
  | go ready =>
    unfold Sys.callSchedule at hs
    rcases schedule_inv hi.tp hi.table with h | ⟨k', n, h, hsw, -, -⟩
    · simp only [h, Sys.goto, Option.some.injEq, Prod.mk.injEq] at hs
      exact .inr hs.1.symm
    · simp only [h] at hs
      have ha : Place.Alive s.place := hi.place
      rw [hp] at ha
      have hm := (switch_me hsw rfl (.inl ha.1) hs).1
      exact .inl (hm ▸ hsw.ne)
  | _ => cases hs

/-- A step that neither returns from a system call nor starts a handler. -/
def Plain (os : List Obs) : Prop := ∀ o ∈ os, ∃ prev next, o = .switched prev next

theorem Plain.noRet (h : Plain os) (call : TrapFrame) (v : Word) : .sysRet call v ∉ os := by
  intro hm
  obtain ⟨prev, next, ho⟩ := h _ hm
  cases ho

theorem Plain.noHandler (h : Plain os) (i : Slot) (tf : TrapFrame) : .handler i tf ∉ os := by
  intro hm
  obtain ⟨prev, next, ho⟩ := h _ hm
  cases ho

theorem goto_plain {place : Place} (hs : s.goto k place = some (t, os)) : Plain os := by
  rw [Sys.goto, Option.some.injEq, Prod.mk.injEq] at hs
  rw [← hs.2]
  exact fun o ho => by cases ho

theorem switch_plain {prev next : Slot} {act : Act}
    (hs : s.switch L k prev next act = some (t, os)) : Plain os := by
  obtain ⟨r, -, h2⟩ := Option.map_eq_some_iff.1 hs
  rw [Prod.mk.injEq] at h2
  rw [← h2.2]
  exact fun o ho => ⟨prev, next, List.mem_singleton.1 ho⟩

theorem returnToUser_plain {tf : TrapFrame} (hs : s.returnToUser k tf = some (t, os)) :
    Plain os := by
  unfold Sys.returnToUser at hs
  split_ifs at hs
  rw [Option.some.injEq, Prod.mk.injEq] at hs
  rw [← hs.2]
  exact fun o ho => by cases ho

theorem exitThread_plain (hs : s.exitThread L = some (t, os)) : Plain os := by
  obtain ⟨-, hs⟩ | ⟨-, k', prev, next, -, hs⟩ := Sys.exitThread_outcome hs
  · exact goto_plain hs
  · exact switch_plain hs

theorem waitForNew_plain {r : Option (Kernel × Option Slot)} (hs : s.waitForNew r = some (t, os)) :
    Plain os := by
  unfold Sys.waitForNew at hs
  split at hs
  · cases hs
  · exact goto_plain hs
  · exact goto_plain hs

theorem startThread_plain (hs : s.startThread L = some (t, os)) : Plain os := by
  unfold Sys.startThread at hs
  split at hs
  · cases hs
  · split_ifs at hs
    · exact returnToUser_plain hs
    · exact exitThread_plain hs
    · exact goto_plain hs

theorem callSchedule_plain {act : Act} (hs : s.callSchedule L act = some (t, os)) : Plain os := by
  obtain ⟨k', -, hs⟩ | ⟨k', prev, next, -, hs⟩ := Sys.callSchedule_outcome hs
  · exact goto_plain hs
  · exact switch_plain hs

theorem not_mem_handlerStarts {k k' : Kernel} {tf call : TrapFrame} {v : Word}
    (h : .sysRet call v ∉ os) : .sysRet call v ∉ handlerStarts k k' tf ++ os := by
  intro hm
  rcases List.mem_append.1 hm with hm | hm
  · obtain ⟨i, -, hi⟩ := List.mem_map.1 hm
    cases hi
  · exact h hm

/-- The end of a trap: user code goes on, or another thread has the processor. -/
theorem leaveTrap_place {tf : TrapFrame} {al : Allow} (h : Stays L s.me al s.k k)
    (hs : s.leaveTrap L k tf = some (t, os)) :
    ((t.me = s.me ∧ ∃ tf', t.place = .user tf') ∨ t.me ≠ s.me) ∧
      ∀ call v, .sysRet call v ∉ os := by
  obtain ⟨k', tf', os1, hd, h1, rfl⟩ | ⟨k', prev, next, tf', hd, hs⟩ := Sys.leaveTrap_outcome hs
  · have hn := (returnToUser_plain h1).noRet
    unfold Sys.returnToUser at h1
    split_ifs at h1
    simp only [Option.some.injEq, Prod.mk.injEq] at h1
    obtain ⟨rfl, rfl⟩ := h1
    exact ⟨.inl ⟨rfl, _, rfl⟩, fun call v => not_mem_handlerStarts (hn call v)⟩
  · obtain ⟨rfl, hl⟩ := signalTryDeliver_ends h.tp h.table hd
    have hz : k'.state s.me ≠ .runnable := by
      rw [hl.zombie]
      decide
    obtain ⟨hm, -, -⟩ := switch_me hl.switching rfl (.inr hz) hs
    exact ⟨.inr (hm ▸ hl.switching.ne), (switch_plain hs).noRet⟩

theorem afterSyscall_place {call tf : TrapFrame} {v : Word} {al : Allow}
    (h : Stays L s.me al s.k k) (hs : s.afterSyscall L k call tf v = some (t, os)) :
    ((t.me = s.me ∧ ∃ tf', t.place = .user tf') ∨ t.me ≠ s.me) ∧
      ∀ call' v', .sysRet call' v' ∈ os ↔ call' = call ∧ v' = v := by
  obtain ⟨⟨t1, os1⟩, h1, h2⟩ := Option.map_eq_some_iff.1 hs
  rw [Prod.mk.injEq] at h2
  obtain ⟨rfl, rfl⟩ := h2
  obtain ⟨hp, hn⟩ := leaveTrap_place h h1
  refine ⟨hp, fun call' v' => ?_⟩
  rw [List.mem_cons, or_iff_left (hn call' v'), Obs.sysRet.injEq]

theorem waitDone_step {i : Slot} (hp : s.place = .kernel (.waitDone i))
    (hs : s.step L e = some (t, os)) :
    (¬ hasEnded s.k i ∧ t = { s with place := .calls (.waitDone i) } ∧ os = []) ∨
      (hasEnded s.k i ∧ t.me = s.me ∧ t.place = .kernel .code ∧ os = []) := by
  unfold Sys.step at hs
  rw [hp] at hs
  cases e with
  | go ready =>
    simp only [Sys.kernelStep, Sys.waitUserTaskDone, Sys.goto] at hs
    split_ifs at hs with he hz <;>
      simp only [Option.some.injEq, Prod.mk.injEq] at hs <;>
      obtain ⟨rfl, rfl⟩ := hs
    · exact .inr ⟨he, rfl, rfl, rfl⟩
    · exact .inr ⟨he, rfl, rfl, rfl⟩
    · exact .inl ⟨he, rfl, rfl⟩
  | _ => cases hs

theorem waitpid_step (hi : SysInv L s) {tf : TrapFrame} {pid : ℤ} {j : Slot}
    (hp : s.place = .kernel (.waitpid tf pid j)) (hs : s.step L e = some (t, os)) :
    (¬ hasEnded s.k j ∧ t = { s with place := .calls (.waitpid tf pid j) } ∧ os = []) ∨
      (hasEnded s.k j ∧ ((t.me = s.me ∧ ∃ tf', t.place = .user tf') ∨ t.me ≠ s.me) ∧
        ∀ call v, .sysRet call v ∈ os ↔ call = tf ∧ v = BitVec.ofInt 64 pid) := by
  unfold Sys.step at hs
  rw [hp] at hs
  cases e with
  | go ready =>
    simp only [Sys.kernelStep, Sys.sysWaitpid] at hs
    by_cases he : hasEnded s.k j
    · rw [if_pos he] at hs
      have hal : allows s (.go ready) = ⟨fun i => i = j, fun _ => False⟩ := by
        unfold allows
        rw [hp]
      exact .inr ⟨he, afterSyscall_place (reap_stays hi hal) hs⟩
    · rw [if_neg he] at hs
      simp only [Sys.goto, Option.some.injEq, Prod.mk.injEq] at hs
      exact .inl ⟨he, hs.1.symm, hs.2.symm⟩
  | _ => cases hs

/-! ### Which steps return from a system call -/

theorem leaveTrap_noRet {tf call : TrapFrame} {v : Word} (hs : s.leaveTrap L k tf = some (t, os)) :
    .sysRet call v ∉ os := by
  obtain ⟨k', tf', os1, hd, h1, rfl⟩ | ⟨k', prev, next, tf', hd, hs⟩ := Sys.leaveTrap_outcome hs
  · exact not_mem_handlerStarts ((returnToUser_plain h1).noRet _ _)
  · exact (switch_plain hs).noRet _ _

theorem afterSyscall_ret {tf call call' : TrapFrame} {v v' : Word}
    (hs : s.afterSyscall L k call' tf v' = some (t, os)) (hm : .sysRet call v ∈ os) :
    call = call' ∧ v = v' := by
  obtain ⟨⟨t1, os1⟩, h1, h2⟩ := Option.map_eq_some_iff.1 hs
  rw [Prod.mk.injEq] at h2
  rw [← h2.2, List.mem_cons] at hm
  rcases hm with hm | hm
  · rw [Obs.sysRet.injEq] at hm
    exact hm
  · exact absurd hm (leaveTrap_noRet h1)

/-- **The returns of system calls**: from a trap, or from the loop in which the call has waited. -/
theorem sysRet_cases (hi : SysInv L s) (hu : TpKept L s e) {call : TrapFrame} {v : Word}
    (hs : s.step L e = some (t, os)) (hm : .sysRet call v ∈ os) :
    (∃ pid j, s.place = .kernel (.waitpid call pid j) ∧ hasEnded s.k j ∧ v = BitVec.ofInt 64 pid) ∨
    s.place = .kernel (.sleep call) ∨ (∃ i, s.place = .kernel (.read call i)) ∨
    ∃ tf0 k' tf file sstatus, s.place = .user tf0 ∧
      syscallHandler L file sstatus s.k call = some (k', .ret tf v) := by
  unfold Sys.step at hs
  split at hs
  · rename_i hp
    cases Sys.kernelStep_outcome hs with
    | start next => exact absurd hm ((startThread_plain next).noRet _ _)
    | createUser next | runUserFile next => exact absurd hm ((waitForNew_plain next).noRet _ _)
    | exits next => exact absurd hm ((exitThread_plain next).noRet _ _)
    | timer next => exact absurd hm (leaveTrap_noRet next)
    | @waitpidOver _ pid j _ ended next =>
      obtain ⟨rfl, hv⟩ := afterSyscall_ret next hm
      exact .inl ⟨pid, j, hp, ended, hv⟩
    | readOver _ _ next =>
      obtain ⟨rfl, -⟩ := afterSyscall_ret next hm
      exact .inr (.inr (.inl ⟨_, hp⟩))
    | sleepOver next =>
      obtain ⟨rfl, -⟩ := afterSyscall_ret next hm
      exact .inr (.inl hp)
    | create _ next | sweep next | yields next | doneOver _ next | doneOn next | exitLoop next
    | waitpidOn next | readOn next | readNext _ next | sleepOn next =>
      exact absurd hm ((goto_plain next).noRet _ _)
  · exact absurd hm ((callSchedule_plain hs).noRet _ _)
  · exact absurd hm ((goto_plain (Sys.userStore_outcome hs).2).noRet _ _)
  · rename_i hp
    rw [trap_eq hi.tp hu] at hs
    unfold Sys.doTrap at hs
    split_ifs at hs
    · exact absurd hm ((goto_plain hs).noRet _ _)
    · exact absurd hm (leaveTrap_noRet hs)
    · obtain ⟨k', tf', v, hc, hs⟩ | ⟨k', act, hc, hs⟩ | ⟨k', prev, next, hc, hs⟩ :=
        Sys.ecall_outcome hs
      · obtain ⟨rfl, rfl⟩ := afterSyscall_ret hs hm
        exact .inr (.inr (.inr ⟨_, _, _, _, _, hp, hc⟩))
      · exact absurd hm ((goto_plain hs).noRet _ _)
      · exact absurd hm ((switch_plain hs).noRet _ _)
  · cases hs

/-- `sys_waitpid` returns from its trap if there is nothing to wait for. -/
theorem syscallHandler_waitpid {k' : Kernel} {file : Option (List Byte)} {sstatus v : Word}
    {call tf : TrapFrame} (hn : Syscall.ofNumber (call.reg .a7) = some .waitpid)
    (hs : syscallHandler L file sstatus k call = some (k', .ret tf v)) :
    waitpidChild k (call.reg .a0).toInt = none := by
  unfold syscallHandler at hs
  rw [hn] at hs
  dsimp only at hs
  split at hs
  · assumption
  · simp at hs

end Wait

end OscKernel.Proc.Stands
