import OscKernel.Proc.Ops
import OscKernel.Thread.Effect

/-! # What the functions for user processes do to each task

`Stays` and `Leaves` put the invariant of the scheduler and the effect together: control stays with
the task `c`, or the task `c` has died and `switch_to` is called. -/

namespace OscKernel.User.Effect

open OscKernel.Lib.Memory
open OscKernel.Thread.Task OscKernel.Thread.RunQueue OscKernel.Thread.Sched OscKernel.Thread.Inv
open OscKernel.Thread.Effect OscKernel.User.Signal OscKernel.User.Process OscKernel.Proc.Ops

/-- Control stays with the task `c`. -/
structure Stays (L : Layout) (c : Slot) (al : Allow) (k k' : Kernel) : Prop where
  tp : k'.tp = some c
  table : TableInv L k' (some c) none
  effect : Affects c al k k'

/-- The task `c` has died and switches to `n`. -/
structure Leaves (L : Layout) (c n : Slot) (al : Allow) (k k' : Kernel) : Prop where
  switching : Switching L k' c n
  zombie : k'.state c = .zombie
  effect : Affects c al k k'

/-- How a function called by the task `c` ends. -/
def Ends (L : Layout) (c : Slot) (al : Allow) (k k' : Kernel) : Flow → Prop
  | .ret => Stays L c al k k'
  | .switch prev next => prev = c ∧ Leaves L c next al k k'

section Ends
variable {L : Layout} {c : Slot} {al : Allow} {k k1 k' : Kernel} {flow : Flow}

theorem Stays.refl (ht : k.tp = some c) (h : TableInv L k (some c) none) : Stays L c al k k :=
  ⟨ht, h, .refl _ _ _⟩

theorem Stays.mono {b : Allow} (h : Stays L c al k k') (hc : ∀ i, al.clear i → b.clear i)
    (ht : ∀ i, al.thread i → b.thread i) : Stays L c b k k' :=
  ⟨h.tp, h.table, h.effect.mono hc ht⟩

theorem Stays.trans (h : Stays L c al k k1) (h' : Stays L c .nothing k1 k') : Stays L c al k k' :=
  ⟨h'.tp, h'.table, h.effect.trans h'.effect⟩

theorem Stays.ends (h : Stays L c al k k1) (h' : Ends L c .nothing k1 k' flow) :
    Ends L c al k k' flow := by
  rcases flow with _ | ⟨prev, next⟩
  · exact h.trans h'
  · exact ⟨h'.1, h'.2.switching, h'.2.zombie, h.effect.trans h'.2.effect⟩

theorem Stays.modify (ht : k.tp = some c) (h : TableInv L k (some c) none) {i : Slot}
    {f : TaskStruct → TaskStruct} (hv : ∀ t, view (f t) = view t)
    (hpar : ∀ t, (f t).parent = t.parent)
    (hu : ∀ t, (f t).isUser = t.isUser) (ho : i ≠ c → ∀ t, signals (f t) = signals t) :
    Stays L c al k (k.modify i f) := by
  refine ⟨ht, h.modify hv, .modify (.of_eq ?_ (hpar _) (hu _) ?_ fun hic => ⟨ho hic _, ?_⟩)⟩
  · exact congrArg (·.2.2.1) (hv (k.tasks i))
  · exact congrArg (·.2.1) (hv (k.tasks i))
  · exact congrArg (·.2.2.2) (hv (k.tasks i))

theorem Stays.setMem (h : Stays L c al k k') (m : Mem) : Stays L c al k { k' with mem := m } :=
  ⟨h.tp, h.table.congr (fun _ => rfl) rfl rfl rfl, h.effect.congr rfl rfl⟩

theorem taskKill_ends {pid r : ℤ} {status : BitVec 32} (ht : k.tp = some c)
    (h : TableInv L k (some c) none) (hs : taskKill k pid status = some (k', flow, r)) :
    Ends L c .nothing k k' flow := by
  have he := taskKill_effect ht h hs
  rcases taskKill_inv ht h pid status with ⟨k1, r1, h1, ht1, hc1⟩ | ⟨k1, n, h1, hsw, hz⟩
  · rw [h1, Option.some.injEq, Prod.mk.injEq, Prod.mk.injEq] at hs
    obtain ⟨rfl, rfl, -⟩ := hs
    exact ⟨ht1, hc1, he⟩
  · rw [h1, Option.some.injEq, Prod.mk.injEq, Prod.mk.injEq] at hs
    obtain ⟨rfl, rfl, -⟩ := hs
    exact ⟨rfl, hsw, hz, he⟩

theorem threadExit_ends (ht : k.tp = some c) (h : TableInv L k (some c) none) (h0 : c ≠ 0)
    (hs : threadExit k = some (k', flow)) : Ends L c .nothing k k' flow := by
  have he := threadExit_effect ht h h0 hs
  obtain ⟨k1, n, h1, hsw, -, hz⟩ := threadExit_inv ht h h0
  rw [h1, Option.some.injEq, Prod.mk.injEq] at hs
  obtain ⟨rfl, rfl⟩ := hs
  exact ⟨rfl, hsw, hz, he⟩

end Ends

/-! ### Creation -/

section Create
variable {L : Layout} {c : Slot} {k k' : Kernel} {r : Option Slot}

theorem threadCreate_stays {fn : Word} (ht : k.tp = some c) (h : TableInv L k (some c) none)
    (hd : Tidy k) (hk : threadCreate L fn k = some (k', r)) :
    Stays L c ⟨unclaimed k, fun j => r = some j⟩ k k' :=
  ⟨(threadCreate_tp hk).trans ht, threadCreate_inv h hk,
    (threadCreate_effect h.idleTask hd h.isRunnable_cur hk).1⟩

theorem Stays.none (h : Stays L c ⟨unclaimed k, fun j => (none : Option Slot) = some j⟩ k k') :
    Stays L c (.sweep k) k k' :=
  ⟨h.tp, h.table, h.effect.mono (fun _ hn => hn) fun _ hn => by cases hn⟩

theorem Stays.adopt {i : Slot} (h : Stays L c ⟨unclaimed k, fun j => some i = some j⟩ k k')
    (hr : isRunnable k c) (hi : Created k k' i) {f : TaskStruct → TaskStruct}
    (hv : ∀ t, view (f t) = view t) (hus : ∀ t, (f t).isUser = true)
    (hpar : ∀ t, (f t).parent = some c) : Stays L c (.sweep k) k (k'.modify i f) := by
  have he := h.effect.mono (b := ⟨unclaimed k, fun j => j = i⟩) (fun _ hn => hn)
    fun _ hn => (Option.some.inj hn).symm
  refine ⟨h.tp, h.table.modify hv, he.adopt hi.free ?_ ?_ hi.context ?_ ?_ hv hus hpar⟩
  · rintro rfl
    rcases hi.free with he | ⟨he, -⟩ <;> rcases hr with hr | hr <;> rw [he] at hr <;> cases hr
  · rw [hi.state]
    decide
  · exact hi.pid.ge
  · rw [hi.pid, hi.nextPid]
    omega

/-- **`user_process_create`**. -/
theorem userProcessCreate_stays {entry sstatus : Word} (ht : k.tp = some c)
    (h : TableInv L k (some c) none) (hd : Tidy k)
    (hk : userProcessCreate L entry sstatus k = some (k', r)) :
    Stays L c (.sweep k) k k' ∧ ∀ i, r = some i → (Created k k' i ∧
      (k'.tasks i).isUser = true ∧ (k'.tasks i).parent = some c) := by
  rcases userProcessCreate_cases hk with ⟨rfl, hc⟩ | ⟨i, k1, rfl, hc, rfl⟩
  · exact ⟨(threadCreate_stays ht h hd hc).none, fun i hi => by cases hi⟩
  · have hs := threadCreate_stays ht h hd hc
    have hi := (threadCreate_effect h.idleTask hd h.isRunnable_cur hc).2 i rfl
    have ht1 : k1.tp = some c := (threadCreate_tp hc).trans ht
    have ha := hs.adopt h.isRunnable_cur hi (f := newProcess L i k1.tp entry sstatus)
      (fun _ => rfl) (fun _ => rfl)
      fun _ => ht1
    refine ⟨ha.setMem _, fun j hj => ?_⟩
    rw [Option.some.injEq] at hj
    subst hj
    refine ⟨⟨hi.free, ?_, ?_, ?_, hi.nextPid⟩, ?_, ?_⟩
    · change ∃ ra sp, ((k1.modify i _).tasks i).context = _
      rw [k1.modify_same]
      exact hi.context
    · change (k1.modify i _).state i = _
      rw [k1.state_modify, Function.update_self]
      exact hi.state
    · change ((k1.modify i _).tasks i).pid = _
      rw [k1.modify_same]
      exact hi.pid
    · change ((k1.modify i _).tasks i).isUser = _
      rw [k1.modify_same]
      rfl
    · change ((k1.modify i _).tasks i).parent = _
      rw [k1.modify_same]
      exact ht1

/-- **`user_process_create_from_file`**. -/
theorem userProcessCreateFromFile_stays {file : Option (List Byte)} {sstatus : Word}
    (ht : k.tp = some c) (h : TableInv L k (some c) none) (hd : Tidy k)
    (hk : userProcessCreateFromFile L file sstatus k = some (k', r)) :
    Stays L c (.sweep k) k k' ∧ ∀ i, r = some i → (Created k k' i ∧
      (k'.tasks i).isUser = true ∧ (k'.tasks i).parent = some c) := by
  rcases userProcessCreateFromFile_cases hk with ⟨rfl, m, -, rfl⟩ | ⟨m, entry, -, hk⟩
  · exact ⟨(Stays.refl ht h).setMem _, fun i hi => by cases hi⟩
  · have h1 : TableInv L { k with mem := m } (some c) none := h.congr (fun _ => rfl) rfl rfl rfl
    obtain ⟨hs, hr⟩ := userProcessCreate_stays (k := { k with mem := m }) (by exact ht) h1 hd hk
    exact ⟨⟨hs.tp, hs.table, hs.effect.fate, hs.effect.nextPid⟩, fun i hi =>
      ⟨⟨(hr i hi).1.free, (hr i hi).1.context, (hr i hi).1.state, (hr i hi).1.pid,
        (hr i hi).1.nextPid⟩, (hr i hi).2⟩⟩

theorem userFork_stays {tf : TrapFrame} {v : ℤ} (ht : k.tp = some c)
    (h : TableInv L k (some c) none) (hd : Tidy k) (hk : userFork L tf k = some (k', v)) :
    Stays L c (.sweep k) k k' := by
  rcases userFork_cases hk with ⟨rfl, -⟩ | ⟨p, hp, -, ⟨-, hc⟩ | ⟨i, k1, hc, -, rfl⟩⟩
  · exact .refl ht h
  · exact (threadCreate_stays ht h hd hc).none
  · obtain rfl := Option.some.inj (ht.symm.trans hp)
    have hs := threadCreate_stays ht h hd hc
    have hi := (threadCreate_effect h.idleTask hd h.isRunnable_cur hc).2 i rfl
    exact (hs.adopt h.isRunnable_cur hi (f := forkChild L i c (k1.tasks c) tf) (fun _ => rfl)
      (fun _ => rfl) fun _ => rfl).setMem _

end Create

/-! ### `exec` and signals -/

section Signal
variable {L : Layout} {c : Slot} {k k' : Kernel} {flow : Flow}

/-- **`user_exec_current`**. -/
theorem userExecCurrent_stays {file : Option (List Byte)} {sstatus : Word} {tf : TrapFrame}
    (ht : k.tp = some c) (h : TableInv L k (some c) none) :
    Stays L c .nothing k (userExecCurrent L file sstatus k tf).1 := by
  unfold userExecCurrent
  split
  · exact .refl ht h
  · rename_i i hi
    rw [ht, Option.some.injEq] at hi
    subst hi
    split_ifs
    · exact .refl ht h
    · split
      · exact (Stays.refl ht h).setMem _
      · rename_i m _ _
        have h1 : Stays L c .nothing k _ :=
          (Stays.refl ht h).setMem (memZero m (L.userStackBase c) stackSize)
        refine h1.trans ?_
        dsimp only
        exact .modify h1.tp h1.table (fun _ => rfl) (fun _ => rfl) (fun _ => rfl)
          fun hn => absurd rfl hn

theorem sysSignal_stays {signum : ℤ} {handler : Word} (ht : k.tp = some c)
    (h : TableInv L k (some c) none) : Stays L c .nothing k (sysSignal k signum handler).1 := by
  unfold sysSignal
  rw [ht]
  dsimp only
  split_ifs
  · exact .refl ht h
  · dsimp only
    exact .modify ht h (fun _ => rfl) (fun _ => rfl) (fun _ => rfl) fun hn => absurd rfl hn
  · exact .refl ht h

theorem sysKill_ends {pid signum r : ℤ} (ht : k.tp = some c) (h : TableInv L k (some c) none)
    (hs : sysKill k pid signum = some (k', flow, r)) : Ends L c .nothing k k' flow := by
  rcases sysKill_outcome hs with
    ⟨rfl, rfl, -⟩ | ⟨i, -, -, -, -, ⟨-, hk⟩ | ⟨-, rfl, -, rfl⟩⟩
  · exact Stays.refl ht h
  · exact taskKill_ends ht h hk
  · exact Stays.modify ht h (fun _ => rfl) (fun _ => rfl) (fun _ => rfl) fun _ _ => rfl

/-- **`sys_sigreturn`**. -/
theorem sysSigreturn_stays (tf : TrapFrame) (ht : k.tp = some c) (h : TableInv L k (some c) none) :
    Stays L c .nothing k (sysSigreturn k tf).1 := by
  unfold sysSigreturn
  rw [ht]
  dsimp only
  split_ifs
  · exact .refl ht h
  · exact .refl ht h
  · dsimp only
    exact .modify ht h (fun _ => rfl) (fun _ => rfl) (fun _ => rfl) fun hn => absurd rfl hn

/-- **`signal_try_deliver`**. -/
theorem signalTryDeliver_ends {tf tf' : TrapFrame} (ht : k.tp = some c)
    (h : TableInv L k (some c) none)
    (hs : signalTryDeliver L k tf = some (k', flow, tf')) : Ends L c .nothing k k' flow := by
  rcases signalTryDeliver_outcome hs with
    ⟨rfl, rfl, -⟩ | ⟨i, signum, hi, -, -, -, ⟨-, -, v, hk⟩ | ⟨-, rfl, rfl, -⟩⟩
  · exact Stays.refl ht h
  · exact taskKill_ends ht h hk
  · obtain rfl := Option.some.inj (ht.symm.trans hi)
    exact Stays.modify ht h (fun _ => rfl) (fun _ => rfl) (fun _ => rfl) fun hn => absurd rfl hn

end Signal

end OscKernel.User.Effect
