import OscKernel.Proc.Stands

/-! # Signal handlers

While a task is in a signal handler, the frame at which the handler was started is kept in the task:
only its own `exec` and `sigreturn` change it, and no second handler is started.

* `step_handles`: what one step does to the handler of the task on the processor.
* `handler_start`, `InHandler.step`: how a handler starts, and what the other steps keep of it. -/

namespace OscKernel.Proc.Handlers

open OscKernel.Lib.Memory OscKernel.Lib.Riscv OscKernel.Lib.Transition
open OscKernel.Thread.Task OscKernel.Thread.RunQueue OscKernel.Thread.Sched OscKernel.Thread.Inv
open OscKernel.Thread.Effect OscKernel.User.Signal OscKernel.User.Process OscKernel.User.Effect
open OscKernel.Proc.Ops OscKernel.Proc.System OscKernel.Proc.Step OscKernel.Proc.Stands

/-- The handler of a task: whether it runs, and the frame at which it was started. -/
def handled (t : TaskStruct) : Bool × TrapFrame := (t.handlingSignal, t.signalSavedTf)

/-! ### What the functions of the kernel do to the handler of the current task -/

section Held
variable {L : Layout} {c : Slot} {k k' : Kernel} {r : Option Slot} {flow : Flow}

theorem killZombies_cur (h : TableInv L k (some c) none) : (killZombies k).tasks c = k.tasks c := by
  rw [killZombies_tasks h.idleTask, if_neg]
  exact fun hn => (isRunnable_iff.1 h.isRunnable_cur).2 hn.2.1

theorem threadCreate_held {fn : Word} (h : TableInv L k (some c) none)
    (hk : threadCreate L fn k = some (k', r)) :
    handled (k'.tasks c) = handled (k.tasks c) ∧ r ≠ some c := by
  have hz := killZombies_cur h
  rcases threadCreate_cases hk with ⟨rfl, rfl, -⟩ | ⟨i, rfl, hi, -, rfl⟩
  · rw [hz]
    exact ⟨rfl, by simp⟩
  · have hic : c ≠ i := by
      rintro rfl
      rw [Kernel.state, hz] at hi
      exact (isRunnable_iff.1 h.isRunnable_cur).1 hi
    refine ⟨?_, fun he => hic (Option.some.inj he).symm⟩
    rw [(runqAdd_queueOnly _ i).proj handled fun _ => rfl]
    change handled (((killZombies k).modify i _).tasks c) = _
    rw [Kernel.modify_of_ne _ i _ hic, hz]

theorem userProcessCreate_held {entry sstatus : Word} (h : TableInv L k (some c) none)
    (hk : userProcessCreate L entry sstatus k = some (k', r)) :
    handled (k'.tasks c) = handled (k.tasks c) := by
  rcases userProcessCreate_cases hk with ⟨-, hc⟩ | ⟨i, k1, -, hc, rfl⟩
  · exact (threadCreate_held h hc).1
  · obtain ⟨h1, h2⟩ := threadCreate_held h hc
    rw [← h1]
    exact congrArg handled (k1.modify_of_ne i _ fun he => h2 (congrArg some he.symm))

theorem userProcessCreateFromFile_held {file : Option (List Byte)} {sstatus : Word}
    (h : TableInv L k (some c) none)
    (hk : userProcessCreateFromFile L file sstatus k = some (k', r)) :
    handled (k'.tasks c) = handled (k.tasks c) := by
  rcases userProcessCreateFromFile_cases hk with ⟨-, m, -, rfl⟩ | ⟨m, entry, -, hk⟩
  · rfl
  · have h1 : TableInv L { k with mem := m } (some c) none := h.congr (fun _ => rfl) rfl rfl rfl
    have h2 := userProcessCreate_held h1 hk
    exact h2

theorem userFork_held {tf : TrapFrame} {v : ℤ} (h : TableInv L k (some c) none)
    (hk : userFork L tf k = some (k', v)) : handled (k'.tasks c) = handled (k.tasks c) := by
  rcases userFork_cases hk with ⟨rfl, -⟩ | ⟨p, -, -, ⟨-, hc⟩ | ⟨i, k1, hc, -, rfl⟩⟩
  · rfl
  · exact (threadCreate_held h hc).1
  · obtain ⟨h1, h2⟩ := threadCreate_held h hc
    rw [← h1]
    exact congrArg handled (k1.modify_of_ne i _ fun he => h2 (congrArg some he.symm))

theorem schedule_held (h : schedule k = some (k', flow)) (i : Slot) :
    handled (k'.tasks i) = handled (k.tasks i) := by
  rcases schedule_cases h with ⟨rfl, -⟩ | ⟨c, n, -, -, rfl | rfl⟩
  · rfl
  · rw [Kernel.setState_proj _ _ handled _ fun _ => rfl]
  · rw [Kernel.setState_proj _ _ handled _ fun _ => rfl,
      Kernel.setState_proj _ _ handled _ fun _ => rfl]

theorem threadExit_held (h : threadExit k = some (k', flow)) (i : Slot) :
    handled (k'.tasks i) = handled (k.tasks i) := by
  obtain ⟨c, n, k1, -, hq, -, rfl⟩ := threadExit_cases h
  rw [Kernel.setState_proj _ _ handled _ fun _ => rfl,
    Kernel.setState_proj _ _ handled _ fun _ => rfl, hq.proj handled fun _ => rfl]

theorem setExitStatus_held (k : Kernel) (j i : Slot) (status : BitVec 32) :
    handled ((k.setExitStatus j status).tasks i) = handled (k.tasks i) :=
  k.modify_proj j _ handled rfl i

theorem taskKill_held {pid v : ℤ} {status : BitVec 32}
    (h : taskKill k pid status = some (k', flow, v)) (i : Slot) :
    handled (k'.tasks i) = handled (k.tasks i) := by
  rcases taskKill_cases h with ⟨rfl, -⟩ | ⟨c, -, -, he⟩ | ⟨j, k1, -, hq, -, -, -, rfl⟩
  · rfl
  · rw [threadExit_held he, setExitStatus_held]
  · rw [Kernel.setState_proj _ _ handled _ fun _ => rfl, setExitStatus_held,
      hq.proj handled fun _ => rfl]

theorem sysKill_held {pid signum v : ℤ} (h : sysKill k pid signum = some (k', flow, v)) (i : Slot) :
    handled (k'.tasks i) = handled (k.tasks i) := by
  rcases sysKill_outcome h with ⟨rfl, -⟩ | ⟨j, -, -, -, -, ⟨-, hk⟩ | ⟨-, -, -, rfl⟩⟩
  · rfl
  · exact taskKill_held hk i
  · exact k.modify_proj j _ handled rfl i

theorem sysSignal_held (signum : ℤ) (handler : Word) (i : Slot) :
    handled ((sysSignal k signum handler).1.tasks i) = handled (k.tasks i) := by
  unfold sysSignal
  split
  · rfl
  · rename_i j _
    split_ifs
    · rfl
    · dsimp only
      exact k.modify_proj j _ handled rfl i
    · rfl

theorem ofFlow_held {tf : TrapFrame} {x : Kernel × Flow × ℤ} {out : Outcome} {i : Slot}
    (hx : handled (x.1.tasks i) = handled (k.tasks i)) (h : Outcome.ofFlow tf x = (k', out)) :
    handled (k'.tasks i) = handled (k.tasks i) := by
  obtain ⟨k1, _ | _, v⟩ := x <;>
    · rw [Outcome.ofFlow, Prod.mk.injEq] at h
      exact h.1 ▸ hx

/-- **System calls** other than `exec` and `sigreturn` keep the handler of their caller. -/
theorem syscallHandler_held {file : Option (List Byte)} {sstatus : Word} {tf : TrapFrame}
    {out : Outcome} (h : TableInv L k (some c) none)
    (he : Syscall.ofNumber (tf.reg .a7) ≠ some .exec)
    (hr : Syscall.ofNumber (tf.reg .a7) ≠ some .sigreturn)
    (hs : syscallHandler L file sstatus k tf = some (k', out)) :
    handled (k'.tasks c) = handled (k.tasks c) := by
  have hstay : ∀ {k1 : Kernel} {o}, handled (k1.tasks c) = handled (k.tasks c) →
      some (k1, o) = some (k', out) → handled (k'.tasks c) = handled (k.tasks c) := by
    intro k1 o h1 hx
    rw [Option.some.injEq, Prod.mk.injEq] at hx
    exact hx.1 ▸ h1
  unfold syscallHandler at hs
  dsimp only at hs
  split at hs
  · exact hstay rfl hs
  · obtain ⟨i, -, h2⟩ := Option.map_eq_some_iff.1 hs
    exact hstay rfl (congrArg some h2)
  · split_ifs at hs <;> exact hstay rfl hs
  · split_ifs at hs <;> exact hstay rfl hs
  · rename_i hn
    exact absurd hn he
  · obtain ⟨⟨k1, v⟩, h1, h2⟩ := Option.map_eq_some_iff.1 hs
    exact hstay (userFork_held h h1) (congrArg some h2)
  · split at hs <;> exact hstay rfl hs
  · obtain ⟨i, -, ho⟩ := sysExit_outcome hs
    have h1 := setExitStatus_held k i c ((tf.reg .a0).setWidth 32)
    rcases ho with ⟨-, rfl, -⟩ | ⟨-, k1, flow, h2, h3⟩
    · exact h1
    · exact ofFlow_held ((threadExit_held h2 c).trans h1) h3
  · obtain ⟨x, h1, h2⟩ := Option.map_eq_some_iff.1 hs
    exact ofFlow_held (taskKill_held h1 c) h2
  · exact hstay rfl hs
  · split_ifs at hs <;> exact hstay rfl hs
  · exact hstay (sysSignal_held _ _ c) hs
  · rename_i hn
    exact absurd hn hr
  · obtain ⟨x, h1, h2⟩ := Option.map_eq_some_iff.1 hs
    exact ofFlow_held (sysKill_held h1 c) h2

end Held

/-! ### What a step does to the handler of the task on the processor -/

/-- The system call that the task in the slot `i` makes. -/
def callBy (s : Sys) (e : Event) (i : Slot) : Option Syscall :=
  match s.place, e with
  | .user _, .trap reg _ scause _ _ =>
    if s.me = i ∧ scause = causeEcall then Syscall.ofNumber (reg .a7) else none
  | _, _ => none

/-- From `b` on, the step starts no handler and keeps that of the task on the processor, or that task
dies; or the task was in no handler, and one is started for it. -/
def Handles (s : Sys) (b : Bool × TrapFrame) (t : Sys) (os : List Obs) : Prop :=
  ((∀ i F, .handler i F ∉ os) ∧ (handled (t.k.tasks s.me) = b ∨ t.k.state s.me = .zombie)) ∨
    (b.1 = false ∧ t.me = s.me ∧ ∃ F : TrapFrame, handled (t.k.tasks s.me) = (true, F) ∧
      (t.k.tasks s.me).isUser = true ∧ F.sstatus.getLsbD sppBit = false ∧
      ∀ i G, .handler i G ∈ os ↔ i = s.me ∧ G = F)

section Step
variable {L : Layout} {s t : Sys} {e : Event} {os : List Obs} {k : Kernel}

theorem mem_handlerStarts {k k' : Kernel} {i : Slot} {tf F : TrapFrame} :
    .handler i F ∈ handlerStarts k k' tf ↔ (k.tasks i).handlingSignal = false ∧
      (k'.tasks i).handlingSignal = true ∧ F = tf := by
  unfold handlerStarts
  constructor
  · intro hm
    obtain ⟨j, hj, he⟩ := List.mem_map.1 hm
    rw [List.mem_filter, decide_eq_true_eq] at hj
    rw [Obs.handler.injEq] at he
    obtain ⟨rfl, rfl⟩ := he
    exact ⟨hj.2.1, hj.2.2, rfl⟩
  · rintro ⟨h1, h2, rfl⟩
    exact List.mem_map.2 ⟨i, List.mem_filter.2 ⟨List.mem_finRange i, by simp [h1, h2]⟩, rfl⟩

/-- How `signal_try_deliver` returns: nothing has changed, or a handler is started. -/
theorem signalTryDeliver_ret {c : Slot} {k k' : Kernel} {tf tf' : TrapFrame} (ht : k.tp = some c)
    (hs : signalTryDeliver L k tf = some (k', .ret, tf')) :
    (∀ i, handled (k'.tasks i) = handled (k.tasks i)) ∨
      ((k.tasks c).isUser = true ∧ (k.tasks c).handlingSignal = false ∧ ∃ signum,
        k' = k.modify c (startHandler signum tf) ∧ tf'.sstatus = tf.sstatus) := by
  rcases signalTryDeliver_outcome hs with
    ⟨rfl, -⟩ | ⟨i, signum, hi, hu, hh, -, ⟨-, -, v, hk⟩ | ⟨-, -, rfl, rfl⟩⟩
  · exact .inl fun _ => rfl
  · exact .inl (taskKill_held hk)
  · obtain rfl := Option.some.inj (ht.symm.trans hi)
    exact .inr ⟨by simpa using hu, by simpa using hh, signum, rfl, rfl⟩

theorem goto_handles {place : Place} (hs : s.goto k place = some (t, os)) :
    Handles s (handled (k.tasks s.me)) t os := by
  have hp := goto_plain hs
  rw [Sys.goto, Option.some.injEq, Prod.mk.injEq] at hs
  rw [← hs.1]
  exact .inl ⟨hp.noHandler, .inl rfl⟩

theorem returnToUser_handles {tf : TrapFrame} (hs : s.returnToUser k tf = some (t, os)) :
    Handles s (handled (k.tasks s.me)) t os ∧ t.me = s.me ∧ t.k = k ∧ t.place = .user tf ∧
      tf.sstatus.getLsbD sppBit = false := by
  have hp := returnToUser_plain hs
  unfold Sys.returnToUser at hs
  split_ifs at hs with hspp
  rw [Option.some.injEq, Prod.mk.injEq] at hs
  rw [← hs.1]
  exact ⟨.inl ⟨hp.noHandler, .inl rfl⟩, rfl, rfl, rfl, by simpa using hspp⟩

/-- A task that has died and switches away. -/
theorem ends_handles {al : Allow} {prev next : Slot} {b : Bool × TrapFrame}
    (h : Ends L s.me al s.k k (.switch prev next))
    (hs : s.switch L k prev next .dead = some (t, os)) :
    Handles s b t os := by
  refine .inl ⟨(switch_plain hs).noHandler, .inr ?_⟩
  obtain ⟨rfl, hl⟩ := h
  obtain ⟨⟨k', me, a⟩, h1, h2⟩ := Option.map_eq_some_iff.1 hs
  rw [Prod.mk.injEq] at h2
  obtain ⟨rfl, -⟩ := h2
  change k'.state s.me = _
  rw [(switchTo_cases h1).1, Kernel.setTp_state, Kernel.state,
    k.setContext_proj _ TaskStruct.state _ fun _ => rfl]
  exact hl.zombie

theorem callSchedule_handles {act : Act} (hs : s.callSchedule L act = some (t, os)) :
    Handles s (handled (s.k.tasks s.me)) t os := by
  have hp := callSchedule_plain hs
  refine .inl ⟨hp.noHandler, .inl ?_⟩
  obtain ⟨k', hc, hs⟩ | ⟨k', prev, next, hc, hs⟩ := Sys.callSchedule_outcome hs
  · rw [Sys.goto, Option.some.injEq, Prod.mk.injEq] at hs
    rw [← hs.1]
    exact schedule_held hc _
  · obtain ⟨⟨k1, me, a⟩, h1, h2⟩ := Option.map_eq_some_iff.1 hs
    rw [Prod.mk.injEq] at h2
    rw [← h2.1]
    change handled (k1.tasks s.me) = _
    rw [(switchTo_cases h1).1, Kernel.setTp_tasks,
      k'.setContext_proj _ handled _ fun _ => rfl]
    exact schedule_held hc _

theorem exitThread_handles (hi : SysInv L s) (hs : s.exitThread L = some (t, os)) :
    Handles s (handled (s.k.tasks s.me)) t os := by
  obtain ⟨-, hs⟩ | ⟨h0, k', prev, next, hx, hs⟩ := Sys.exitThread_outcome hs
  · exact goto_handles hs
  · have hne : s.me ≠ 0 := fun he => h0 (by rw [hi.tp, hi.table.idleTask, he])
    exact ends_handles (threadExit_ends hi.tp hi.table hne hx) hs

/-- **The end of a trap**: `signal_try_deliver`. -/
theorem leaveTrap_handles {tf : TrapFrame} {al : Allow} (h : Stays L s.me al s.k k)
    (hs : s.leaveTrap L k tf = some (t, os)) : Handles s (handled (k.tasks s.me)) t os := by
  obtain ⟨k', tf', os1, hd, h1, rfl⟩ | ⟨k', prev, next, tf', hd, hs⟩ := Sys.leaveTrap_outcome hs
  · have hn := (returnToUser_plain h1).noHandler
    obtain ⟨-, hme, hk, -, hspp⟩ := returnToUser_handles h1
    rw [Handles, hk]
    rcases signalTryDeliver_ret h.tp hd with hsame | ⟨hu, hh, signum, rfl, hst⟩
    · refine .inl ⟨fun i F hm => ?_, .inl (hsame _)⟩
      rcases List.mem_append.1 hm with hm | hm
      · obtain ⟨ha, hb, -⟩ := mem_handlerStarts.1 hm
        have := congrArg Prod.fst (hsame i)
        dsimp only [handled] at this
        rw [ha, hb] at this
        cases this
      · exact hn i F hm
    · right
      refine ⟨hh, hme, tf, ?_, ?_, hst ▸ hspp, fun i G => ?_⟩
      · rw [k.modify_same]
        rfl
      · rw [k.modify_same]
        exact hu
      · rw [List.mem_append, or_iff_left (hn i G), mem_handlerStarts]
        rcases eq_or_ne i s.me with rfl | hi
        · rw [k.modify_same]
          simp [startHandler, hh]
        · rw [k.modify_of_ne _ _ hi]
          refine iff_of_false (fun hx => ?_) fun hx => hi hx.1
          rw [hx.1] at hx
          cases hx.2.1
  · rename_i hd
    have he := h.ends (signalTryDeliver_ends h.tp h.table hd)
    exact ends_handles he hs

theorem afterSyscall_handles {call tf : TrapFrame} {v : Word} {al : Allow}
    (h : Stays L s.me al s.k k) (hs : s.afterSyscall L k call tf v = some (t, os)) :
    Handles s (handled (k.tasks s.me)) t os := by
  obtain ⟨⟨t1, os1⟩, h1, h2⟩ := Option.map_eq_some_iff.1 hs
  rw [Prod.mk.injEq] at h2
  obtain ⟨rfl, rfl⟩ := h2
  have hm : ∀ i F, .handler i F ∈ .sysRet call v :: os1 ↔ .handler i F ∈ os1 := by simp
  rcases leaveTrap_handles h h1 with ⟨hn, hx⟩ | ⟨hb, hme, F, h3, h4, h5, h6⟩
  · exact .inl ⟨fun i F hi => hn i F ((hm i F).1 hi), hx⟩
  · exact .inr ⟨hb, hme, F, h3, h4, h5, fun i G => (hm i G).trans (h6 i G)⟩

/-- The task on the processor makes neither of the system calls that change its handler. -/
def Keeps (s : Sys) (e : Event) : Prop :=
  callBy s e s.me ≠ some .exec ∧ callBy s e s.me ≠ some .sigreturn

/-- What one step does to the handler. -/
def StepHandles (s : Sys) (e : Event) (t : Sys) (os : List Obs) : Prop :=
  ∃ b, Handles s b t os ∧ (Keeps s e → b = handled (s.k.tasks s.me))

theorem StepHandles.of_held (h : Handles s (handled (k.tasks s.me)) t os)
    (hk : handled (k.tasks s.me) = handled (s.k.tasks s.me)) : StepHandles s e t os :=
  ⟨_, h, fun _ => hk⟩

theorem doTrap_handles {file : Option (List Byte)} {tf : TrapFrame} (hi : SysInv L s)
    (hs : s.doTrap L file tf = some (t, os)) :
    ∃ b, Handles s b t os ∧ ((tf.scause = causeEcall →
      Syscall.ofNumber (tf.reg .a7) ≠ some .exec ∧ Syscall.ofNumber (tf.reg .a7) ≠ some .sigreturn) →
        b = handled (s.k.tasks s.me)) := by
  have hrefl : Stays L s.me .nothing s.k s.k := .refl hi.tp hi.table
  unfold Sys.doTrap at hs
  split_ifs at hs with h1 h2 h3
  · exact ⟨_, goto_handles hs, fun _ => rfl⟩
  · exact ⟨_, leaveTrap_handles hrefl hs, fun _ => rfl⟩
  · have hheld : ∀ {k' out}, (tf.scause = causeEcall →
        Syscall.ofNumber (tf.reg .a7) ≠ some .exec ∧
          Syscall.ofNumber (tf.reg .a7) ≠ some .sigreturn) →
        syscallHandler L file s.sstatus s.k { tf with sepc := tf.sepc + 4 } = some (k', out) →
        handled (k'.tasks s.me) = handled (s.k.tasks s.me) := fun hk hc =>
      syscallHandler_held hi.table (by exact (hk h3).1) (by exact (hk h3).2) hc
    obtain ⟨k', tf', v, hc, hs⟩ | ⟨k', act, hc, hs⟩ | ⟨k', prev, next, hc, hs⟩ :=
      Sys.ecall_outcome hs
    · have hst : Stays L s.me (.sweep s.k) s.k _ := syscallHandler_ok hi.tp hi.table hi.tidy hc
      exact ⟨_, afterSyscall_handles hst hs, fun hk => hheld hk hc⟩
    · exact ⟨_, goto_handles hs, fun hk => hheld hk hc⟩
    · have hst : Ends L s.me (.sweep s.k) s.k _ (.switch _ _) :=
        syscallHandler_ok hi.tp hi.table hi.tidy hc
      exact ⟨_, ends_handles hst hs, fun _ => rfl⟩

theorem trap_handles {reg : Reg → Word} {sepc scause stval : Word} {file : Option (List Byte)}
    {tf0 : TrapFrame} (hi : SysInv L s) (hp : s.place = .user tf0) (hr : reg .tp = L.taskAddr s.me)
    (hs : s.trap L reg sepc scause stval file = some (t, os)) :
    StepHandles s (.trap reg sepc scause stval file) t os := by
  rw [trap_eq hi.tp hr] at hs
  have hi' : SysInv L { s with sstatus := trapStatus s.sstatus .user } :=
    ⟨hi.tp, hi.table, hi.tidy, hi.place⟩
  obtain ⟨b, hb, hk⟩ := doTrap_handles hi' hs
  refine ⟨b, hb, fun hkeep => hk fun hsc => ?_⟩
  have hcall : callBy s (.trap reg sepc scause stval file) s.me = Syscall.ofNumber (reg .a7) := by
    unfold callBy
    rw [hp]
    exact if_pos ⟨rfl, hsc⟩
  rw [Keeps, hcall] at hkeep
  exact hkeep

theorem waitForNew_handles {r : Option (Kernel × Option Slot)}
    (h : ∀ k r', r = some (k, r') → handled (k.tasks s.me) = handled (s.k.tasks s.me))
    (hs : s.waitForNew r = some (t, os)) : StepHandles s e t os := by
  unfold Sys.waitForNew at hs
  split at hs
  · cases hs
  · exact .of_held (goto_handles hs) (h _ _ rfl)
  · exact .of_held (goto_handles hs) (h _ _ rfl)

theorem startThread_handles (hi : SysInv L s) (hs : s.startThread L = some (t, os)) :
    StepHandles s e t os := by
  unfold Sys.startThread at hs
  rw [hi.tp] at hs
  dsimp only at hs
  split_ifs at hs
  · exact .of_held (returnToUser_handles hs).1 rfl
  · exact .of_held (exitThread_handles hi hs) rfl
  · exact .of_held (goto_handles hs) rfl

/-- The end of a wait does not clear the one that waits. -/
theorem reap_held (hi : SysInv L s) (i : Slot) :
    handled ((if s.k.state i = .zombie then taskReap s.k (some i) else s.k).tasks s.me) =
      handled (s.k.tasks s.me) := by
  split_ifs with hz
  · have hne : s.me ≠ i := by
      rintro rfl
      exact (isRunnable_iff.1 hi.table.isRunnable_cur).2 hz
    unfold taskReap
    dsimp only
    split_ifs
    · rfl
    · rfl
    · rw [s.k.modify_of_ne i _ hne]
  · rfl

theorem kernelStep_handles {act : Act} (hi : SysInv L s) (hp : s.place = .kernel act)
    (hs : s.kernelStep L act e = some (t, os)) : StepHandles s e t os := by
  have hrefl : Stays L s.me .nothing s.k s.k := .refl hi.tp hi.table
  cases Sys.kernelStep_outcome hs with
  | start next => exact startThread_handles hi next
  | create call next => exact .of_held (goto_handles next) (threadCreate_held hi.table call).1
  | createUser next =>
    exact waitForNew_handles (fun k r hc => userProcessCreate_held hi.table hc) next
  | runUserFile next =>
    exact waitForNew_handles (fun k r hc => userProcessCreateFromFile_held hi.table hc) next
  | sweep next => exact .of_held (goto_handles next) (congrArg handled (killZombies_cur hi.table))
  | exits next => exact .of_held (exitThread_handles hi next) rfl
  | doneOver _ next => exact .of_held (goto_handles next) (reap_held hi _)
  | timer next => exact .of_held (leaveTrap_handles hrefl next) rfl
  | @waitpidOver tf pid child ready _ next =>
    have hal : allows s (.go ready) = ⟨fun j => j = child, fun _ => False⟩ := by
      unfold allows
      rw [hp]
    exact .of_held (afterSyscall_handles (reap_stays hi hal) next) (reap_held hi child)
  | readOver _ _ next => exact .of_held (afterSyscall_handles (hrefl.setMem _) next) rfl
  | sleepOver next => exact .of_held (afterSyscall_handles hrefl next) rfl
  | yields next | doneOn next | exitLoop next | waitpidOn next | readOn next | readNext _ next
  | sleepOn next =>
    exact .of_held (goto_handles next) rfl

/-- **What a step does to the handler** of the task on the processor. -/
theorem step_handles (hi : SysInv L s) (hu : TpKept L s e) (hs : s.step L e = some (t, os)) :
    StepHandles s e t os := by
  unfold Sys.step at hs
  split at hs
  · rename_i hp
    exact kernelStep_handles hi hp hs
  · exact .of_held (callSchedule_handles hs) rfl
  · exact .of_held (goto_handles (Sys.userStore_outcome hs).2) rfl
  · rename_i hp
    exact trap_handles hi hp hu hs
  · cases hs

/-! ### A task in a handler -/

/-- The task in the slot `i` lives and has the pid `p`. -/
def Lives (k : Kernel) (i : Slot) (p : ℤ) : Prop := isRunnable k i ∧ (k.tasks i).pid = p

/-- The task is in a handler that was started at the frame `F`. -/
structure InHandler (k : Kernel) (i : Slot) (p : ℤ) (F : TrapFrame) : Prop where
  lives : Lives k i p
  isUser : (k.tasks i).isUser = true
  saved : handled (k.tasks i) = (true, F)
  spp : F.sstatus.getLsbD sppBit = false

/-- **A handler starts** for the task on the processor, which then is in it. -/
theorem handler_start (hi : SysInv L s) (hu : TpKept L s e) (hst : s.step L e = some (t, os))
    {i : Slot} {F : TrapFrame} (hm : .handler i F ∈ os) :
    i = s.me ∧ InHandler t.k i (s.k.tasks i).pid F := by
  obtain ⟨b, hb, -⟩ := step_handles hi hu hst
  have ho := step_ok hi hu hst
  rcases hb with ⟨hn, -⟩ | ⟨-, hme, G, hh, hus, hspp, hiff⟩
  · exact absurd hm (hn i F)
  · obtain ⟨rfl, rfl⟩ := (hiff i F).1 hm
    have hr : isRunnable t.k s.me := hme ▸ ho.inv.table.isRunnable_cur
    refine ⟨rfl, ⟨hr, ?_⟩, hus, hh, hspp⟩
    have hu0 := (isRunnable_iff.1 hi.table.isRunnable_cur).1
    exact (kept_of_not_clears ho.effect hi.table hu0 (not_clears_cur ho.effect hi.table)).pid

/-- **The handler is kept** by every step in which the task lives on and calls neither `exec` nor
`sigreturn`, and no second handler is started. -/
theorem InHandler.step {i : Slot} {p : ℤ} {F : TrapFrame} (h : InHandler s.k i p F)
    (hi : SysInv L s) (hu : TpKept L s e) (hst : s.step L e = some (t, os))
    (hx : callBy s e i ≠ some .exec) (hr : callBy s e i ≠ some .sigreturn) (hl : Lives t.k i p) :
    InHandler t.k i p F ∧ ∀ G, .handler i G ∉ os := by
  have ho := step_ok hi hu hst
  obtain ⟨b, hb, hk⟩ := step_handles hi hu hst
  obtain ⟨hus, hzs⟩ := isRunnable_iff.1 h.lives.1
  have hkept : Kept (i = s.me) (s.k.tasks i) (t.k.tasks i) :=
    kept_of_not_clears ho.effect hi.table hus fun hc => hzs (hc.zombie ho.effect).1
  have huser : (t.k.tasks i).isUser = true := hkept.isUser.trans h.isUser
  rcases eq_or_ne i s.me with rfl | hne
  · obtain rfl := hk ⟨hx, hr⟩
    rw [h.saved] at hb
    rcases hb with ⟨hn, hh | hz⟩ | ⟨hf, -⟩
    · exact ⟨⟨hl, huser, hh, h.spp⟩, hn s.me⟩
    · exact absurd hz (isRunnable_iff.1 hl.1).2
    · cases hf
  · have hsig := (hkept.other hne).1
    have hh : handled (t.k.tasks i) = handled (s.k.tasks i) := by
      unfold signals at hsig
      simp only [Prod.mk.injEq] at hsig
      rw [handled, hsig.2.1, hsig.2.2.2]
      rfl
    refine ⟨⟨hl, huser, hh.trans h.saved, h.spp⟩, fun G hm => ?_⟩
    rcases hb with ⟨hn, -⟩ | ⟨-, -, _, -, -, -, hiff⟩
    · exact hn i G hm
    · exact hne ((hiff i G).1 hm).1

end Step

end OscKernel.Proc.Handlers
