import OscKernel.Proc.Delivery

/-! # Pending signals

What the functions of the kernel do to the pending signals of all tasks: a slot that keeps its task
keeps them, and a slot with another task has none. `sys_kill` adds one, `exec` drops those of its
caller, and the start of a handler takes one away.

* `syscallHandler_pending`: what a system call does.
* `leaveTrap_settles`: what the end of a trap does. -/

namespace OscKernel.Proc.Signals

open OscKernel.Lib.Memory OscKernel.Lib.Riscv OscKernel.Lib.Transition
open OscKernel.Thread.Task OscKernel.Thread.RunQueue OscKernel.Thread.Sched OscKernel.Thread.Inv
open OscKernel.Thread.Effect OscKernel.User.Signal OscKernel.User.Process OscKernel.User.Effect
open OscKernel.Proc.Ops OscKernel.Proc.System OscKernel.Proc.Step OscKernel.Proc.Stands
open OscKernel.Proc.Handlers OscKernel.Proc.Delivery

/-! ### The mask -/

/-- The mask has the bit of the signal. -/
def HasSignal (mask : Word) (sig : Fin maxSignals) : Prop := mask &&& signalBit sig ≠ 0

instance (mask : Word) (sig : Fin maxSignals) : Decidable (HasSignal mask sig) := by
  unfold HasSignal; infer_instance

theorem getLsbD_signalBit (sig : Fin maxSignals) (j : ℕ) :
    (signalBit sig).getLsbD j = decide (sig.val = j) := by
  have hs : sig.val < 32 := sig.isLt
  rw [signalBit, BitVec.getLsbD_twoPow]
  rcases eq_or_ne sig.val j with rfl | hj
  · simp only [decide_true, Bool.and_true, decide_eq_true_eq]
    omega
  · simp [hj]

theorem hasSignal_iff {mask : Word} {sig : Fin maxSignals} :
    HasSignal mask sig ↔ mask.getLsbD sig.val = true := by
  have hs : sig.val < 32 := sig.isLt
  have hbit : ∀ j, (mask &&& signalBit sig).getLsbD j =
      (mask.getLsbD j && decide (sig.val = j)) := by
    intro j
    rw [BitVec.getLsbD_and, getLsbD_signalBit]
  constructor
  · intro h
    by_contra hn
    refine h (BitVec.eq_of_getLsbD_eq fun j _ => ?_)
    rw [hbit]
    rcases eq_or_ne sig.val j with rfl | hj
    · simpa using hn
    · simp [hj]
  · intro h h0
    have h1 := hbit sig.val
    rw [h0, h] at h1
    simp at h1

theorem not_hasSignal_zero {sig : Fin maxSignals} : ¬ HasSignal 0 sig := by
  simp [HasSignal]

theorem hasSignal_or {mask : Word} {sig new : Fin maxSignals} :
    HasSignal (mask ||| signalBit new) sig ↔ HasSignal mask sig ∨ sig = new := by
  rw [hasSignal_iff, hasSignal_iff, BitVec.getLsbD_or, getLsbD_signalBit, Bool.or_eq_true,
    decide_eq_true_eq, Fin.ext_iff, @eq_comm _ new.val]

theorem hasSignal_clear {mask : Word} {sig old : Fin maxSignals} :
    HasSignal (mask &&& ~~~ signalBit old) sig ↔ HasSignal mask sig ∧ sig ≠ old := by
  have hs : sig.val < 64 := sig.isLt.trans (by decide)
  rw [hasSignal_iff, hasSignal_iff, BitVec.getLsbD_and, BitVec.getLsbD_not, getLsbD_signalBit,
    ne_eq, Fin.ext_iff]
  simp only [hs, decide_true, Bool.true_and, Bool.and_eq_true, Bool.not_eq_true',
    decide_eq_false_iff_not, @eq_comm _ old.val]

/-- In an ascending list, the first element with a property is the lowest. -/
theorem find?_eq_some_iff_lowest {α : Type*} [LinearOrder α] {p : α → Bool} {b : α} :
    ∀ {l : List α}, l.Pairwise (· < ·) →
      (l.find? p = some b ↔ b ∈ l ∧ p b = true ∧ ∀ a ∈ l, a < b → p a = false)
  | [], _ => by simp
  | a :: l, h => by
    obtain ⟨ha, hl⟩ := List.pairwise_cons.1 h
    rw [List.find?_cons]
    by_cases hp : p a = true
    · rw [hp]
      constructor
      · intro he
        rw [Option.some.injEq] at he
        subst he
        refine ⟨by simp, hp, fun d hd hlt => ?_⟩
        rcases List.mem_cons.1 hd with rfl | hd
        · exact absurd hlt (lt_irrefl d)
        · exact absurd hlt (ha d hd).not_gt
      · rintro ⟨hb, -, hlow⟩
        rcases List.mem_cons.1 hb with rfl | hb
        · rfl
        · rw [hlow a (by simp) (ha b hb)] at hp
          cases hp
    · rw [Bool.not_eq_true] at hp
      rw [hp, find?_eq_some_iff_lowest hl]
      constructor
      · rintro ⟨hb, hpb, hlow⟩
        refine ⟨by simp [hb], hpb, fun d hd hlt => ?_⟩
        rcases List.mem_cons.1 hd with rfl | hd
        · exact hp
        · exact hlow d hd hlt
      · rintro ⟨hb, hpb, hlow⟩
        rcases List.mem_cons.1 hb with rfl | hb
        · rw [hp] at hpb
          cases hpb
        · exact ⟨hb, hpb, fun d hd => hlow d (by simp [hd])⟩

/-- **`find_pending_signal`** finds the lowest signal, if there is one. -/
theorem findPendingSignal_eq_some {t : TaskStruct} {sig : Fin maxSignals} :
    findPendingSignal t = some sig ↔ sig ≠ 0 ∧ HasSignal t.pendingSignals sig ∧
      ∀ low, low ≠ 0 → low < sig → ¬ HasSignal t.pendingSignals low := by
  have hasc : ((List.finRange maxSignals).drop 1).Pairwise (· < ·) :=
    (List.pairwise_lt_finRange maxSignals).sublist (List.drop_sublist ..)
  have hmem : ∀ i : Fin maxSignals, i ∈ (List.finRange maxSignals).drop 1 ↔ i ≠ 0 := by decide
  unfold findPendingSignal
  rw [find?_eq_some_iff_lowest hasc, hmem]
  simp only [hmem, decide_eq_true_eq, decide_eq_false_iff_not]
  rfl

/-! ### Tasks that stay -/

/-- The slot keeps its task. -/
def SameTask (k k' : Kernel) (i : Slot) : Prop :=
  k.state i ≠ .unused ∧ k'.state i ≠ .unused ∧ (k'.tasks i).pid = (k.tasks i).pid

instance (k k' : Kernel) (i : Slot) : Decidable (SameTask k k' i) := by
  unfold SameTask; infer_instance

/-- The signal is pending for the task in the slot. -/
def Pending (k : Kernel) (i : Slot) (sig : Fin maxSignals) : Prop :=
  HasSignal (k.tasks i).pendingSignals sig

instance (k : Kernel) (i : Slot) (sig : Fin maxSignals) : Decidable (Pending k i sig) := by
  unfold Pending; infer_instance

/-- Nothing is pending in a free slot. -/
def Clean (k : Kernel) : Prop := ∀ i, k.state i = .unused → ∀ sig, ¬ Pending k i sig

/-- Tasks that stay keep their pending signals, and new tasks have none. -/
def Carries (k k' : Kernel) : Prop :=
  ∀ i sig, Pending k' i sig ↔ SameTask k k' i ∧ Pending k i sig

/-- The tasks are the same, and so are their pending signals. -/
structure Steady (k k' : Kernel) : Prop where
  unused : ∀ i, k'.state i = .unused ↔ k.state i = .unused
  pid : ∀ i, (k'.tasks i).pid = (k.tasks i).pid
  pending : ∀ i, (k'.tasks i).pendingSignals = (k.tasks i).pendingSignals

section Steady
variable {L : Layout} {c i : Slot} {al : Allow} {k k1 k' : Kernel} {flow : Flow}

theorem Steady.refl (k : Kernel) : Steady k k := ⟨fun _ => Iff.rfl, fun _ => rfl, fun _ => rfl⟩

theorem Steady.store (k : Kernel) (a : Word) (v : Byte) : Steady k (k.store a v) :=
  ⟨fun _ => Iff.rfl, fun _ => rfl, fun _ => rfl⟩

theorem Steady.trans (h : Steady k k1) (h' : Steady k1 k') : Steady k k' :=
  ⟨fun i => (h'.unused i).trans (h.unused i), fun i => (h'.pid i).trans (h.pid i),
    fun i => (h'.pending i).trans (h.pending i)⟩

theorem Steady.pending_iff (h : Steady k k') (i : Slot) (sig : Fin maxSignals) :
    Pending k' i sig ↔ Pending k i sig := by
  rw [Pending, Pending, h.pending]

theorem Steady.sameTask (h : Steady k k') : SameTask k k' i ↔ k.state i ≠ .unused := by
  unfold SameTask
  rw [ne_eq, ne_eq, h.unused]
  exact ⟨fun hs => hs.1, fun hs => ⟨hs, hs, h.pid i⟩⟩

theorem Steady.carries (h : Steady k k') (hz : Clean k) : Carries k k' := by
  intro i sig
  rw [h.sameTask, h.pending_iff]
  exact ⟨fun hp => ⟨fun hu => hz i hu sig hp, hp⟩, fun hp => hp.2⟩

/-- Nobody is cleared or born, and no mask changes. -/
theorem Steady.of_effect (h : Affects c .nothing k k') (hn : k'.nextPid = k.nextPid)
    (hp : ∀ i, (k'.tasks i).pendingSignals = (k.tasks i).pendingSignals) : Steady k k' := by
  have hk : ∀ i, Kept (i = c) (k.tasks i) (k'.tasks i) := by
    intro i
    rcases h.fate i with hk | hc | ⟨-, -, -, hlo, hhi, -⟩
    · exact hk
    · exact hc.elim
    · omega
  exact ⟨fun i => (hk i).unused, fun i => (hk i).pid, hp⟩

/-- A change of fields other than these. -/
theorem Steady.modify {f : TaskStruct → TaskStruct} (hs : ∀ t, (f t).state = t.state)
    (hp : ∀ t, (f t).pid = t.pid) (hm : ∀ t, (f t).pendingSignals = t.pendingSignals) :
    Steady k (k.modify i f) := by
  refine ⟨fun j => ?_, k.modify_proj i f TaskStruct.pid (hp _),
    k.modify_proj i f TaskStruct.pendingSignals (hm _)⟩
  have := k.modify_proj i f TaskStruct.state (hs _) j
  rw [Kernel.state, this, Kernel.state]

theorem schedule_pending (h : schedule k = some (k', flow)) (i : Slot) :
    (k'.tasks i).pendingSignals = (k.tasks i).pendingSignals := by
  rcases schedule_cases h with ⟨rfl, -⟩ | ⟨c, n, -, -, rfl | rfl⟩
  · rfl
  · rw [Kernel.setState_proj _ _ TaskStruct.pendingSignals _ fun _ => rfl]
  · rw [Kernel.setState_proj _ _ TaskStruct.pendingSignals _ fun _ => rfl,
      Kernel.setState_proj _ _ TaskStruct.pendingSignals _ fun _ => rfl]

theorem schedule_nextPid (h : schedule k = some (k', flow)) : k'.nextPid = k.nextPid := by
  rcases schedule_cases h with ⟨rfl, -⟩ | ⟨c, n, -, -, rfl | rfl⟩ <;> rfl

theorem threadExit_pending (h : threadExit k = some (k', flow)) (i : Slot) :
    (k'.tasks i).pendingSignals = (k.tasks i).pendingSignals := by
  obtain ⟨c, n, k1, -, hq, -, rfl⟩ := threadExit_cases h
  rw [Kernel.setState_proj _ _ TaskStruct.pendingSignals _ fun _ => rfl,
    Kernel.setState_proj _ _ TaskStruct.pendingSignals _ fun _ => rfl,
    hq.proj TaskStruct.pendingSignals fun _ => rfl]

theorem threadExit_nextPid (h : threadExit k = some (k', flow)) : k'.nextPid = k.nextPid := by
  obtain ⟨c, n, k1, -, hq, -, rfl⟩ := threadExit_cases h
  exact hq.nextPid

theorem setExitStatus_pending (k : Kernel) (j i : Slot) (status : BitVec 32) :
    ((k.setExitStatus j status).tasks i).pendingSignals = (k.tasks i).pendingSignals :=
  k.modify_proj j _ TaskStruct.pendingSignals rfl i

/-- **`task_kill`** drops no signal. -/
theorem taskKill_steady {pid v : ℤ} {status : BitVec 32} (ht : k.tp = some c)
    (h : TableInv L k (some c) none) (hs : taskKill k pid status = some (k', flow, v)) :
    Steady k k' := by
  refine .of_effect (taskKill_effect ht h hs) ?_ fun i => ?_
  · rcases taskKill_cases hs with ⟨rfl, -⟩ | ⟨d, -, -, he⟩ | ⟨j, k1, -, hq, -, -, -, rfl⟩
    · rfl
    · exact (threadExit_nextPid he).trans rfl
    · exact hq.nextPid
  · rcases taskKill_cases hs with ⟨rfl, -⟩ | ⟨d, -, -, he⟩ | ⟨j, k1, -, hq, -, -, -, rfl⟩
    · rfl
    · rw [threadExit_pending he, setExitStatus_pending]
    · rw [Kernel.setState_proj _ _ TaskStruct.pendingSignals _ fun _ => rfl, setExitStatus_pending,
        hq.proj TaskStruct.pendingSignals fun _ => rfl]

theorem threadExit_steady (ht : k.tp = some c) (h : TableInv L k (some c) none) (h0 : c ≠ 0)
    (hs : threadExit k = some (k', flow)) : Steady k k' :=
  .of_effect (threadExit_effect ht h h0 hs) (threadExit_nextPid hs) (threadExit_pending hs)

theorem schedule_steady (ht : k.tp = some c) (h : TableInv L k (some c) none)
    (hs : schedule k = some (k', flow)) : Steady k k' :=
  .of_effect (schedule_effect ht h hs) (schedule_nextPid hs) (schedule_pending hs)

theorem switchTo_steady {prev next me : Slot} {act : Act} {r : Slot × Act}
    (h : switchTo L k prev next me act = some (k', r)) : Steady k k' := by
  rw [(switchTo_cases h).1]
  have hc : Steady k (k.setContext prev (.saved me act)) :=
    .modify (fun _ => rfl) (fun _ => rfl) fun _ => rfl
  exact ⟨hc.unused, hc.pid, hc.pending⟩

end Steady

/-! ### Creation and reaping -/

section Create
variable {L : Layout} {c i : Slot} {al : Allow} {k k1 k' : Kernel} {r : Option Slot}
  {cur out : Option Slot}

theorem Carries.clean (h : Carries k k') : Clean k' :=
  fun i hu sig hp => ((h i sig).1 hp).1.2.1 hu

theorem carries_of_reaped (hz : Clean k)
    (h : ∀ i, k'.tasks i = k.tasks i ∨ k'.tasks i = reaped (k.tasks i)) :
    Carries k k' := by
  intro i sig
  unfold SameTask Pending Kernel.state
  rcases h i with he | he
  · rw [he]
    exact ⟨fun hp => ⟨⟨fun hu => hz i hu sig hp, fun hu => hz i hu sig hp, rfl⟩, hp⟩, fun hp => hp.2⟩
  · rw [he]
    exact iff_of_false not_hasSignal_zero fun hs => hs.1.2.1 rfl

theorem killZombies_carries (h : TableInv L k cur out) (hz : Clean k) :
    Carries k (killZombies k) := by
  refine carries_of_reaped hz fun i => ?_
  rw [killZombies_tasks h.idleTask]
  split_ifs
  · exact .inr rfl
  · exact .inl rfl

theorem taskReap_carries (hz : Clean k) (task : Option Slot) : Carries k (taskReap k task) := by
  refine carries_of_reaped hz fun i => ?_
  unfold taskReap
  split
  · exact .inl rfl
  · rename_i j
    split_ifs
    · exact .inl rfl
    · exact .inl rfl
    · rcases eq_or_ne i j with rfl | hi
      · exact .inr (k.modify_same i _)
      · exact .inl (k.modify_of_ne j _ hi)

/-- **`thread_create`**: the new thread is another task, and nothing is pending for it. -/
theorem threadCreate_carries {fn : Word} (h : TableInv L k cur out) (hz : Clean k)
    (hk : threadCreate L fn k = some (k', r)) :
    Carries k k' ∧ ∀ i, r = some i → ¬ SameTask k k' i := by
  have hc := killZombies_carries h hz
  have hnp := (killZombies_frame k).2.1
  rcases threadCreate_cases hk with ⟨rfl, rfl, -⟩ | ⟨i, rfl, hi, -, rfl⟩
  · exact ⟨hc, fun i hi => by cases hi⟩
  · set k1 : Kernel := { (killZombies k).modify i (newThread L fn (killZombies k).nextPid i) with
      nextPid := (killZombies k).nextPid + 1 } with hk1
    have hq := runqAdd_queueOnly k1 i
    have hother : ∀ j, j ≠ i → k1.tasks j = (killZombies k).tasks j := fun j hj =>
      (killZombies k).modify_of_ne i _ hj
    have hself : k1.tasks i = newThread L fn (killZombies k).nextPid i ((killZombies k).tasks i) :=
      (killZombies k).modify_same i _
    have hnew : ¬ SameTask k (runqAdd k1 i) i := by
      rintro ⟨hu, -, hp⟩
      rw [hq.proj TaskStruct.pid fun _ => rfl, hself, newThread_pid, hnp] at hp
      have := h.pid_lt i hu
      omega
    refine ⟨fun j sig => ?_, fun j hj => Option.some.inj hj ▸ hnew⟩
    rw [Pending, hq.proj TaskStruct.pendingSignals fun _ => rfl]
    rcases eq_or_ne j i with rfl | hj
    · refine iff_of_false ?_ fun hs => hnew hs.1
      rw [hself]
      exact hc.clean j hi sig
    · have hst : SameTask k (runqAdd k1 i) j ↔ SameTask k (killZombies k) j := by
        have hstate : k1.state j = (killZombies k).state j :=
          congrArg TaskStruct.state (hother j hj)
        unfold SameTask
        rw [hq.state, hq.proj TaskStruct.pid fun _ => rfl, hstate, hother j hj]
      rw [hother j hj, hst]
      exact hc j sig

theorem Carries.adopt (h : Carries k k1) (hi : ¬ SameTask k k1 i) {f : TaskStruct → TaskStruct}
    (hs : ∀ t, (f t).state = t.state) (hp : ∀ t, (f t).pid = t.pid)
    (h0 : ∀ t, (f t).pendingSignals = 0) : Carries k (k1.modify i f) := by
  have hst : ∀ j, SameTask k (k1.modify i f) j ↔ SameTask k k1 j := by
    intro j
    unfold SameTask Kernel.state
    rw [k1.modify_proj i f TaskStruct.state (hs _), k1.modify_proj i f TaskStruct.pid (hp _)]
  intro j sig
  rw [hst]
  rcases eq_or_ne j i with rfl | hj
  · refine iff_of_false ?_ fun hn => hi hn.1
    rw [Pending, k1.modify_same, h0]
    exact not_hasSignal_zero
  · rw [Pending, k1.modify_of_ne i f hj]
    exact h j sig

theorem userProcessCreate_carries {entry sstatus : Word} (h : TableInv L k cur out) (hz : Clean k)
    (hk : userProcessCreate L entry sstatus k = some (k', r)) : Carries k k' := by
  rcases userProcessCreate_cases hk with ⟨-, hc⟩ | ⟨i, k1, -, hc, rfl⟩
  · exact (threadCreate_carries h hz hc).1
  · obtain ⟨h1, h2⟩ := threadCreate_carries h hz hc
    exact h1.adopt (f := newProcess L i k1.tp entry sstatus) (h2 i rfl) (fun _ => rfl) (fun _ => rfl)
      fun _ => rfl

theorem userProcessCreateFromFile_carries {file : Option (List Byte)} {sstatus : Word}
    (h : TableInv L k cur out) (hz : Clean k)
    (hk : userProcessCreateFromFile L file sstatus k = some (k', r)) : Carries k k' := by
  rcases userProcessCreateFromFile_cases hk with ⟨-, m, -, rfl⟩ | ⟨m, entry, -, hk⟩
  · exact (Steady.refl k).carries hz
  · have h1 : TableInv L { k with mem := m } cur out := h.congr (fun _ => rfl) rfl rfl rfl
    exact userProcessCreate_carries (k := { k with mem := m }) h1 hz hk

theorem userFork_carries {tf : TrapFrame} {v : ℤ} (h : TableInv L k cur out) (hz : Clean k)
    (hk : userFork L tf k = some (k', v)) : Carries k k' := by
  rcases userFork_cases hk with ⟨rfl, -⟩ | ⟨p, -, -, ⟨-, hc⟩ | ⟨i, k1, hc, -, rfl⟩⟩
  · exact (Steady.refl k').carries hz
  · exact (threadCreate_carries h hz hc).1
  · obtain ⟨h1, h2⟩ := threadCreate_carries h hz hc
    exact h1.adopt (f := forkChild L i p (k1.tasks p) tf) (h2 i rfl) (fun _ => rfl)
      (fun _ => rfl) fun _ => rfl

end Create

/-! ### System calls -/

/-- What a system call returns, if it returns. -/
def returned : Outcome → Option Word
  | .ret _ v => some v
  | _ => none

/-- The call `kill` for the signal of the task in the slot, which lives and has a handler for it. -/
structure KillsWithHandler (k : Kernel) (call : TrapFrame) (i : Slot)
    (sig : Fin maxSignals) : Prop where
  number : Syscall.ofNumber (call.reg .a7) = some .kill
  live : isRunnable k i
  pid : (k.tasks i).pid = (call.reg .a0).toInt
  signum : ((call.reg .a1).setWidth 32).toInt = sig.val
  handler : (k.tasks i).signalHandlers sig ≠ 0

section Syscall
variable {L : Layout} {c : Slot} {k k' : Kernel} {flow : Flow}

/-- **`user_exec_current`** fails, or drops the pending signals of its caller. -/
theorem userExecCurrent_cases {file : Option (List Byte)} {sstatus : Word} {tf tf' : TrapFrame}
    {v : ℤ}
    (ht : k.tp = some c) (hs : userExecCurrent L file sstatus k tf = (k', tf', v)) :
    (v = -1 ∧ Steady k k') ∨ (v = 0 ∧ (∀ i, i ≠ c → k'.tasks i = k.tasks i) ∧
      k'.state c = k.state c ∧ (k'.tasks c).pid = (k.tasks c).pid ∧
        (k'.tasks c).pendingSignals = 0) := by
  unfold userExecCurrent at hs
  rw [ht] at hs
  dsimp only at hs
  split_ifs at hs
  · rw [Prod.mk.injEq, Prod.mk.injEq] at hs
    exact .inl ⟨hs.2.2.symm, hs.1 ▸ .refl k⟩
  · split at hs
    · rw [Prod.mk.injEq, Prod.mk.injEq] at hs
      exact .inl ⟨hs.2.2.symm, hs.1 ▸ ⟨fun _ => Iff.rfl, fun _ => rfl, fun _ => rfl⟩⟩
    · rw [Prod.mk.injEq, Prod.mk.injEq] at hs
      obtain ⟨rfl, -, rfl⟩ := hs
      refine .inr ⟨rfl, fun i hi => ?_, ?_, ?_, ?_⟩
      · rw [Kernel.modify_of_ne _ c _ hi]
      · rw [Kernel.state_modify, Function.update_self]
        rfl
      · rw [Kernel.modify_same]
        rfl
      · rw [Kernel.modify_same]
        rfl

theorem sysSignal_steady {signum : ℤ} {handler : Word} :
    Steady k (sysSignal k signum handler).1 := by
  unfold sysSignal
  split
  · exact .refl k
  · split_ifs
    · exact .refl k
    · dsimp only
      exact .modify (fun _ => rfl) (fun _ => rfl) fun _ => rfl
    · exact .refl k

theorem sysSigreturn_steady {tf : TrapFrame} : Steady k (sysSigreturn k tf).1 := by
  unfold sysSigreturn
  split
  · exact .refl k
  · split_ifs
    · exact .refl k
    · exact .refl k
    · dsimp only
      exact .modify (fun _ => rfl) (fun _ => rfl) fun _ => rfl

theorem signalIndex_val (sig : Fin maxSignals) : signalIndex sig.val = sig := by
  rw [signalIndex, Int.toNat_natCast]
  exact Fin.ofNat_val_eq_self sig

theorem signalIndex_of_valid {signum : ℤ} (h : validSignal signum) :
    signum = (signalIndex signum).val ∧ signalIndex signum ≠ 0 := by
  obtain ⟨h0, h1⟩ := h
  obtain ⟨n, rfl⟩ := Int.eq_ofNat_of_zero_le h0.le
  have hn : n < maxSignals := by exact_mod_cast h1
  have hv : (signalIndex (n : ℤ)).val = n := by
    rw [signalIndex, Int.toNat_natCast]
    exact Nat.mod_eq_of_lt hn
  refine ⟨by rw [hv], fun he => ?_⟩
  rw [he] at hv
  change 0 = n at hv
  omega

theorem taskFindByPid_some {pid : ℤ} {i : Slot} (h : taskFindByPid k pid = some i) :
    k.state i ≠ .unused ∧ (k.tasks i).pid = pid := by
  simpa using List.find?_some h

theorem taskKill_result {pid v : ℤ} {status : BitVec 32}
    (h : taskKill k pid status = some (k', flow, v)) : v = 0 ∨ v = -1 := by
  have hfail : some (k, Flow.ret, -1) = some (k', flow, v) → v = 0 ∨ v = -1 := by
    intro he
    rw [Option.some.injEq, Prod.mk.injEq, Prod.mk.injEq] at he
    exact .inr he.2.2.symm
  unfold taskKill at h
  split at h
  · exact hfail h
  · split_ifs at h
    · exact hfail h
    · exact hfail h
    · obtain ⟨r, -, h⟩ := Option.bind_eq_some_iff.1 h
      rw [Option.some.injEq, Prod.mk.injEq, Prod.mk.injEq] at h
      exact .inl h.2.2.symm
    · obtain ⟨r, -, h⟩ := Option.bind_eq_some_iff.1 h
      rw [Option.some.injEq, Prod.mk.injEq, Prod.mk.injEq] at h
      exact .inl h.2.2.symm

/-- **`sys_kill`**: a signal becomes pending, or the call fails or ends a task without a handler. -/
theorem sysKill_cases {pid signum v : ℤ} (ht : k.tp = some c) (h : TableInv L k (some c) none)
    (hs : sysKill k pid signum = some (k', flow, v)) :
    (Steady k k' ∧ (v = 0 ∨ v = -1) ∧ (v = 0 → ∀ i, ∀ sig : Fin maxSignals, k.state i ≠ .unused →
      (k.tasks i).pid = pid → signum = sig.val → (k.tasks i).signalHandlers sig = 0)) ∨
    ∃ i, ∃ sig : Fin maxSignals, isRunnable k i ∧ (k.tasks i).pid = pid ∧ signum = sig.val ∧
      sig ≠ 0 ∧ (k.tasks i).signalHandlers sig ≠ 0 ∧ flow = .ret ∧ v = 0 ∧
        k' = k.modify i fun t => { t with pendingSignals := t.pendingSignals ||| signalBit sig } := by
  rcases sysKill_outcome hs with ⟨rfl, -, rfl⟩ | ⟨i, hv, hi, -, hl, ho⟩
  · exact .inl ⟨.refl k', .inr rfl, fun h0 => by omega⟩
  · obtain ⟨hu, hp⟩ := taskFindByPid_some hi
    obtain ⟨hval, hne⟩ := signalIndex_of_valid hv
    rcases ho with ⟨h0, hk⟩ | ⟨h0, hf, h0', hk⟩
    · refine .inl ⟨taskKill_steady ht h hk, taskKill_result hk, fun _ j sig hj hpj hsig => ?_⟩
      obtain rfl := h.pid_inj i j hu hj (hp.trans hpj.symm)
      rwa [hsig, signalIndex_val] at h0
    · exact .inr ⟨i, _, isRunnable_iff.2 (not_or.1 hl), hp, hval, hne, h0, hf, h0', hk⟩

/-- What a system call does to the pending signals: `kill` adds one, `exec` drops those of the
caller. -/
def CallPends (c : Slot) (k : Kernel) (call : TrapFrame) (k' : Kernel) (out : Outcome) : Prop :=
  ∀ i sig, Pending k' i sig ↔ (KillsWithHandler k call i sig ∧ returned out = some 0) ∨
    (¬ (i = c ∧ Syscall.ofNumber (call.reg .a7) = some .exec ∧ returned out = some 0) ∧
      SameTask k k' i ∧ Pending k i sig)

theorem Carries.callPends {call : TrapFrame} {out : Outcome} (h : Carries k k')
    (hk : Syscall.ofNumber (call.reg .a7) ≠ some .kill)
    (he : Syscall.ofNumber (call.reg .a7) ≠ some .exec) : CallPends c k call k' out := by
  intro i sig
  rw [h i sig, or_iff_right fun hn => hk hn.1.number, and_iff_right fun hn => he hn.2.1]

theorem ofFlow_returned {tf : TrapFrame} {v : ℤ} {out : Outcome} {k1 : Kernel}
    (h : Outcome.ofFlow tf (k1, flow, v) = (k', out)) :
    k' = k1 ∧ (returned out = some 0 → BitVec.ofInt 64 v = 0) ∧
      (flow = .ret → returned out = some (BitVec.ofInt 64 v)) := by
  cases flow <;> rw [Outcome.ofFlow, Prod.mk.injEq] at h <;> obtain ⟨rfl, rfl⟩ := h
  · exact ⟨rfl, fun hr => Option.some.inj hr, fun _ => rfl⟩
  · refine ⟨rfl, ?_, ?_⟩ <;> rintro ⟨⟩

/-- **`kill`**. -/
theorem sysKill_pends {call : TrapFrame} {r : Kernel × Flow × ℤ} {out : Outcome}
    (ht : k.tp = some c) (h : TableInv L k (some c) none) (hz : Clean k)
    (hn : Syscall.ofNumber (call.reg .a7) = some .kill)
    (hs : sysKill k (call.reg .a0).toInt ((call.reg .a1).setWidth 32).toInt = some r)
    (ho : Outcome.ofFlow call r = (k', out)) : CallPends c k call k' out := by
  obtain ⟨k1, flow, v⟩ := r
  obtain ⟨rfl, hout, hret⟩ := ofFlow_returned ho
  have hexec : ∀ i, ¬ (i = c ∧ Syscall.ofNumber (call.reg .a7) = some .exec ∧
      returned out = some 0) := by
    rintro i ⟨-, he, -⟩
    rw [hn] at he
    cases he
  intro i sig
  rw [and_iff_right (hexec i)]
  rcases sysKill_cases ht h hs with ⟨hst, hv, hno⟩ | ⟨j, new, hlive, hp, hsig, -, hh, rfl, rfl, rfl⟩
  · rw [hst.carries hz i sig, or_iff_right]
    rintro ⟨hk, hr⟩
    have h0 : v = 0 := by
      rcases hv with rfl | rfl
      · rfl
      · exact absurd (hout hr) (by decide)
    exact hk.handler (hno h0 i sig (isRunnable_iff.1 hk.live).1 hk.pid hk.signum)
  · have hu := (isRunnable_iff.1 hlive).1
    have hsame : SameTask k (k.modify j fun t =>
        { t with pendingSignals := t.pendingSignals ||| signalBit new }) i ↔ k.state i ≠ .unused := by
      unfold SameTask
      rw [ne_eq, ne_eq, Kernel.state, Kernel.state, k.modify_proj j _ TaskStruct.state rfl,
        k.modify_proj j _ TaskStruct.pid rfl]
      exact ⟨fun hs => hs.1, fun hs => ⟨hs, hs, rfl⟩⟩
    have hkill : KillsWithHandler k call i sig ∧ returned out = some 0 ↔ i = j ∧ sig = new := by
      constructor
      · rintro ⟨hk, -⟩
        refine ⟨h.pid_inj i j (isRunnable_iff.1 hk.live).1 hu (hk.pid.trans hp.symm), Fin.ext ?_⟩
        have := hk.signum.symm.trans hsig
        omega
      · rintro ⟨rfl, rfl⟩
        exact ⟨⟨hn, hlive, hp, hsig, hh⟩, hret rfl⟩
    rw [hkill, hsame, Pending, Pending]
    rcases eq_or_ne i j with rfl | hij
    · rw [k.modify_same, hasSignal_or, and_iff_right hu, and_iff_right rfl, or_comm]
    · rw [k.modify_of_ne j _ hij, or_iff_right fun hn => hij hn.1]
      exact ⟨fun hpend => ⟨fun hu => hz i hu sig hpend, hpend⟩, fun hpend => hpend.2⟩

/-- **`exec`**. -/
theorem userExecCurrent_pends {file : Option (List Byte)} {sstatus : Word} {call tf' : TrapFrame}
    {v : ℤ} (ht : k.tp = some c) (hz : Clean k)
    (hn : Syscall.ofNumber (call.reg .a7) = some .exec)
    (hs : userExecCurrent L file sstatus k call = (k', tf', v)) :
    CallPends c k call k' (.ret tf' (BitVec.ofInt 64 v)) := by
  intro i sig
  rw [or_iff_right fun hk => by rw [hk.1.number] at hn; cases hn]
  rcases userExecCurrent_cases ht hs with ⟨rfl, hst⟩ | ⟨rfl, hother, hstate, hpid, h0⟩
  · rw [and_iff_right fun hx => absurd (Option.some.inj hx.2.2) (by decide)]
    exact hst.carries hz i sig
  · rcases eq_or_ne i c with rfl | hi
    · rw [Pending, h0]
      exact iff_of_false not_hasSignal_zero fun hx => hx.1 ⟨rfl, hn, rfl⟩
    · rw [and_iff_right fun hx => hi hx.1]
      unfold SameTask Pending Kernel.state
      rw [hother i hi]
      exact ⟨fun hpend => ⟨⟨fun hu => hz i hu sig hpend, fun hu => hz i hu sig hpend, rfl⟩, hpend⟩,
        fun hpend => hpend.2⟩

/-- **`exit`**. -/
theorem sysExit_steady {tf : TrapFrame} {status : BitVec 32} {out : Outcome} (ht : k.tp = some c)
    (h : TableInv L k (some c) none) (hs : sysExit k tf status = some (k', out)) : Steady k k' := by
  have h1 : Steady k (k.setExitStatus c status) :=
    .modify (fun _ => rfl) (fun _ => rfl) fun _ => rfl
  have hst : Stays L c .nothing k (k.setExitStatus c status) :=
    .modify ht h (fun _ => rfl) (fun _ => rfl) (fun _ => rfl) fun _ _ => rfl
  obtain ⟨i, hi, ho⟩ := sysExit_outcome hs
  obtain rfl := Option.some.inj (ht.symm.trans hi)
  rcases ho with ⟨-, rfl, -⟩ | ⟨h0, k1, flow, h2, h3⟩
  · exact h1
  · have hne : c ≠ 0 := fun he => h0 (by rw [ht, h.idleTask, he])
    obtain ⟨rfl, -⟩ := ofFlow_returned h3
    exact h1.trans (threadExit_steady hst.tp hst.table hne h2)

/-- **`syscall_handler`**. -/
theorem syscallHandler_pends {file : Option (List Byte)} {sstatus : Word} {call : TrapFrame}
    {out : Outcome} (ht : k.tp = some c) (h : TableInv L k (some c) none) (hz : Clean k)
    (hs : syscallHandler L file sstatus k call = some (k', out)) : CallPends c k call k' out := by
  have hstay : ∀ {k1 : Kernel} {o : Outcome} {n : Option Syscall}, Carries k k1 →
      Syscall.ofNumber (call.reg .a7) = n → n ≠ some .kill → n ≠ some .exec →
      some (k1, o) = some (k', out) → CallPends c k call k' out := by
    intro k1 o n hc hn hk he hx
    rw [Option.some.injEq, Prod.mk.injEq] at hx
    exact hx.1 ▸ hc.callPends (hn ▸ hk) (hn ▸ he)
  have hrefl := (Steady.refl k).carries hz
  unfold syscallHandler at hs
  dsimp only at hs
  split at hs <;> rename_i hn
  · exact hstay hrefl hn (by decide) (by decide) hs
  · obtain ⟨i, -, h2⟩ := Option.map_eq_some_iff.1 hs
    exact hstay hrefl hn (by decide) (by decide) (congrArg some h2)
  · split_ifs at hs <;> exact hstay hrefl hn (by decide) (by decide) hs
  · split_ifs at hs <;> exact hstay hrefl hn (by decide) (by decide) hs
  · rw [Option.some.injEq, Prod.mk.injEq] at hs
    obtain ⟨rfl, rfl⟩ := hs
    exact userExecCurrent_pends ht hz hn rfl
  · obtain ⟨⟨k1, v⟩, h1, h2⟩ := Option.map_eq_some_iff.1 hs
    exact hstay (userFork_carries h hz h1) hn (by decide) (by decide) (congrArg some h2)
  · split at hs <;> exact hstay hrefl hn (by decide) (by decide) hs
  · exact hstay ((sysExit_steady ht h hs).carries hz) hn (by decide) (by decide) rfl
  · obtain ⟨⟨k1, flow, v⟩, h1, h2⟩ := Option.map_eq_some_iff.1 hs
    obtain ⟨rfl, -⟩ := ofFlow_returned h2
    exact hstay ((taskKill_steady ht h h1).carries hz) hn (by decide) (by decide) rfl
  · exact hstay hrefl hn (by decide) (by decide) hs
  · split_ifs at hs <;> exact hstay hrefl hn (by decide) (by decide) hs
  · exact hstay (sysSignal_steady.carries hz) hn (by decide) (by decide) hs
  · exact hstay (sysSigreturn_steady.carries hz) hn (by decide) (by decide) hs
  · obtain ⟨r, h1, h2⟩ := Option.map_eq_some_iff.1 hs
    exact sysKill_pends ht h hz hn h1 h2

end Syscall

/-! ### The end of a trap -/

/-- The observations show the start of the handler for the signal in the task of the slot. -/
def Starts (os : List Obs) (t : Sys) (i : Slot) (sig : Fin maxSignals) : Prop :=
  (∃ F, .handler i F ∈ os) ∧ (t.k.tasks i).currentSignal = sig.val

/-- From `k` on, the tasks are the same, and a signal goes if its handler starts. -/
structure Settles (k : Kernel) (t : Sys) (os : List Obs) : Prop where
  unused : ∀ i, t.k.state i = .unused ↔ k.state i = .unused
  pid : ∀ i, (t.k.tasks i).pid = (k.tasks i).pid
  pending : ∀ i sig, Pending t.k i sig ↔ ¬ Starts os t i sig ∧ Pending k i sig

section Settle
variable {L : Layout} {s t : Sys} {os : List Obs} {k : Kernel}

theorem Settles.sameTask (h : Settles k t os) (k0 : Kernel) (i : Slot) :
    SameTask k0 t.k i ↔ SameTask k0 k i := by
  unfold SameTask
  rw [ne_eq, ne_eq, ne_eq, h.unused, h.pid]

theorem Settles.of_steady (h : Steady k t.k) (hp : Plain os) : Settles k t os := by
  refine ⟨h.unused, h.pid, fun i sig => ?_⟩
  rw [h.pending_iff, and_iff_right]
  rintro ⟨⟨F, hm⟩, -⟩
  exact hp.noHandler i F hm

theorem goto_settles {place : Place} (hs : s.goto k place = some (t, os)) : Settles k t os := by
  have hp := goto_plain hs
  rw [Sys.goto, Option.some.injEq, Prod.mk.injEq] at hs
  obtain ⟨rfl, -⟩ := hs
  exact .of_steady (.refl k) hp

theorem switch_settles {prev next : Slot} {act : Act}
    (hs : s.switch L k prev next act = some (t, os)) : Settles k t os := by
  have hp := switch_plain hs
  obtain ⟨⟨k', me, a⟩, h1, h2⟩ := Option.map_eq_some_iff.1 hs
  rw [Prod.mk.injEq] at h2
  obtain ⟨rfl, -⟩ := h2
  exact .of_steady (switchTo_steady h1) hp

theorem returnToUser_settles {tf : TrapFrame} (hs : s.returnToUser k tf = some (t, os)) :
    Settles k t os := by
  have hp := returnToUser_plain hs
  obtain ⟨-, -, rfl, -⟩ := returnToUser_handles hs
  exact .of_steady (.refl _) hp

theorem callSchedule_settles {act : Act} (hi : SysInv L s)
    (hs : s.callSchedule L act = some (t, os)) : Settles s.k t os := by
  have hp := callSchedule_plain hs
  refine .of_steady ?_ hp
  obtain ⟨k', hc, hs⟩ | ⟨k', prev, next, hc, hs⟩ := Sys.callSchedule_outcome hs
  · rw [Sys.goto, Option.some.injEq, Prod.mk.injEq] at hs
    rw [← hs.1]
    exact schedule_steady hi.tp hi.table hc
  · obtain ⟨⟨k1, me, a⟩, h1, h2⟩ := Option.map_eq_some_iff.1 hs
    rw [Prod.mk.injEq] at h2
    obtain ⟨rfl, -⟩ := h2
    exact (schedule_steady hi.tp hi.table hc).trans (switchTo_steady h1)

theorem exitThread_settles (hi : SysInv L s) (hs : s.exitThread L = some (t, os)) :
    Settles s.k t os := by
  have hp := exitThread_plain hs
  obtain ⟨-, hs⟩ | ⟨h0, k', prev, next, hx, hs⟩ := Sys.exitThread_outcome hs
  · exact goto_settles hs
  · have hne : s.me ≠ 0 := fun he => h0 (by rw [hi.tp, hi.table.idleTask, he])
    obtain ⟨⟨k1, me, a⟩, h1, h2⟩ := Option.map_eq_some_iff.1 hs
    rw [Prod.mk.injEq] at h2
    obtain ⟨rfl, -⟩ := h2
    exact .of_steady ((threadExit_steady hi.tp hi.table hne hx).trans (switchTo_steady h1)) hp

/-- How `signal_try_deliver` ends: no signal goes, or the handler of the lowest one starts. -/
theorem signalTryDeliver_cases {c : Slot} {k' : Kernel} {flow : Flow} {tf tf' : TrapFrame}
    (ht : k.tp = some c) (h : TableInv L k (some c) none)
    (hs : signalTryDeliver L k tf = some (k', flow, tf')) :
    (Steady k k' ∧ ∀ i, handled (k'.tasks i) = handled (k.tasks i)) ∨
      ((k.tasks c).handlingSignal = false ∧ flow = .ret ∧
        ∃ sig, k' = k.modify c (startHandler sig tf)) := by
  rcases signalTryDeliver_outcome hs with
    ⟨rfl, -⟩ | ⟨i, sig, hi, -, hh, -, ⟨-, -, v, hk⟩ | ⟨-, hf, hk, -⟩⟩
  · exact .inl ⟨.refl k', fun _ => rfl⟩
  · exact .inl ⟨taskKill_steady ht h hk, taskKill_held hk⟩
  · obtain rfl := Option.some.inj (ht.symm.trans hi)
    exact .inr ⟨by simpa using hh, hf, sig, hk⟩

theorem startHandler_settles {c : Slot} {sig : Fin maxSignals} {tf : TrapFrame}
    (hh : (k.tasks c).handlingSignal = false) (hk : t.k = k.modify c (startHandler sig tf))
    (hm : ∀ i F, .handler i F ∈ os ↔ .handler i F ∈ handlerStarts k t.k tf) : Settles k t os := by
  have hself : t.k.tasks c = startHandler sig tf (k.tasks c) := by
    rw [hk, k.modify_same]
  have hother : ∀ i, i ≠ c → t.k.tasks i = k.tasks i := by
    intro i hi
    rw [hk, k.modify_of_ne c _ hi]
  have hpid : ∀ i, (t.k.tasks i).pid = (k.tasks i).pid := by
    intro i
    rw [hk, k.modify_proj c _ TaskStruct.pid rfl]
  have hstate : ∀ i, t.k.state i = k.state i := by
    intro i
    rw [hk, Kernel.state, k.modify_proj c _ TaskStruct.state rfl, Kernel.state]
  refine ⟨fun i => by rw [hstate], hpid, fun i new => ?_⟩
  rcases eq_or_ne i c with rfl | hi
  · have hst : Starts os t i new ↔ new = sig := by
      unfold Starts
      rw [hself, and_iff_right, Fin.ext_iff, eq_comm]
      · rfl
      · refine ⟨tf, (hm i tf).2 (mem_handlerStarts.2 ⟨hh, ?_, rfl⟩)⟩
        rw [hself]
        rfl
    rw [hst, Pending, hself, and_comm]
    exact hasSignal_clear
  · rw [Pending, hother i hi, and_iff_right]
    · rfl
    · rintro ⟨⟨F, hF⟩, -⟩
      obtain ⟨h1, h2, -⟩ := mem_handlerStarts.1 ((hm i F).1 hF)
      rw [hother i hi, h1] at h2
      cases h2

/-- **The end of a trap**. -/
theorem leaveTrap_settles {tf : TrapFrame} {al : Allow} (h : Stays L s.me al s.k k)
    (hs : s.leaveTrap L k tf = some (t, os)) : Settles k t os := by
  obtain ⟨k', tf', os1, hd, h1, rfl⟩ | ⟨k', prev, next, tf', hd, hs⟩ := Sys.leaveTrap_outcome hs
  · have hn := (returnToUser_plain h1).noHandler
    obtain ⟨-, -, rfl, -⟩ := returnToUser_handles h1
    have hm : ∀ i F, .handler i F ∈ handlerStarts k t.k tf ++ os1 ↔
        .handler i F ∈ handlerStarts k t.k tf := by
      intro i F
      rw [List.mem_append, or_iff_left (hn i F)]
    rcases signalTryDeliver_cases h.tp h.table hd with ⟨hst, hsame⟩ | ⟨hh, -, sig, hk⟩
    · refine ⟨hst.unused, hst.pid, fun i sig => ?_⟩
      rw [hst.pending_iff, and_iff_right]
      rintro ⟨⟨F, hF⟩, -⟩
      obtain ⟨ha, hb, -⟩ := mem_handlerStarts.1 ((hm i F).1 hF)
      have hf : (t.k.tasks i).handlingSignal = (k.tasks i).handlingSignal :=
        congrArg Prod.fst (hsame i)
      rw [ha, hb] at hf
      cases hf
    · exact startHandler_settles hh hk hm
  · rcases signalTryDeliver_cases h.tp h.table hd with ⟨hst, -⟩ | ⟨-, hf, -⟩
    · have hp := switch_plain hs
      obtain ⟨⟨k1, me, a⟩, h1, h2⟩ := Option.map_eq_some_iff.1 hs
      rw [Prod.mk.injEq] at h2
      obtain ⟨rfl, -⟩ := h2
      exact .of_steady (hst.trans (switchTo_steady h1)) hp
    · cases hf

/-- The return of a system call adds an observation. -/
theorem afterSyscall_settles {call tf : TrapFrame} {v : Word} {al : Allow} (h : Stays L s.me al s.k k)
    (hs : s.afterSyscall L k call tf v = some (t, os)) : Settles k t os := by
  obtain ⟨⟨t1, os1⟩, h1, h2⟩ := Option.map_eq_some_iff.1 hs
  rw [Prod.mk.injEq] at h2
  obtain ⟨rfl, rfl⟩ := h2
  have hset := leaveTrap_settles h h1
  have hst : ∀ i sig, Starts (.sysRet call v :: os1) t1 i sig ↔ Starts os1 t1 i sig := by
    intro i sig
    simp [Starts]
  refine ⟨hset.unused, hset.pid, fun i sig => ?_⟩
  rw [hst]
  exact hset.pending i sig

end Settle

end OscKernel.Proc.Signals
