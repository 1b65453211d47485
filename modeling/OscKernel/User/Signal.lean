import OscKernel.Thread.Sched

/-! # Signals of lab5

The functions of `signal.c`. A signal with a handler is pending until its task is about to go back to
user mode; the frame of the interrupted user code is kept in `signal_saved_tf` while the handler runs.
A signal number is an `int`. -/

namespace OscKernel.User.Signal

open OscKernel.Lib.Memory OscKernel.Lib.Riscv OscKernel.Thread.Task OscKernel.Thread.Sched

/-- `USER_SIGTRAMP_BASE`. -/
def userSigtrampBase : Word := 0x033FF000

/-- `valid_signal`. -/
def validSignal (signum : ℤ) : Prop := 0 < signum ∧ signum < maxSignals

instance (signum : ℤ) : Decidable (validSignal signum) := by unfold validSignal; infer_instance

/-- `signal_bit`. -/
def signalBit (signum : Fin maxSignals) : Word := BitVec.twoPow 64 signum.val

/-- The index of a signal in `signal_handlers`. -/
def signalIndex (signum : ℤ) : Fin maxSignals := Fin.ofNat maxSignals signum.toNat

/-- What `signal_fork` writes to the child. -/
def signalFork (parent child : TaskStruct) : TaskStruct :=
  { child with
    signalHandlers := parent.signalHandlers
    pendingSignals := 0
    handlingSignal := false
    currentSignal := 0
    signalSavedTf := .zero }

/-- `sys_signal`: the result is the old handler. -/
def sysSignal (k : Kernel) (signum : ℤ) (handler : Word) : Kernel × Word :=
  match k.tp with
  | none => (k, -1)
  | some i =>
    if (k.tasks i).isUser = false then (k, -1)
    else if ¬ validSignal signum then (k, -1)
    else
      (k.modify i fun t => { t with
        signalHandlers := Function.update t.signalHandlers (signalIndex signum) handler },
        (k.tasks i).signalHandlers (signalIndex signum))

/-- `sys_kill`. -/
def sysKill (k : Kernel) (pid signum : ℤ) : Option (Kernel × Flow × ℤ) :=
  if ¬ validSignal signum then some (k, .ret, -1)
  else
    match taskFindByPid k pid with
    | none => some (k, .ret, -1)
    | some i =>
      if (k.tasks i).isUser = false then some (k, .ret, -1)
      else if k.state i = .unused ∨ k.state i = .zombie then some (k, .ret, -1)
      else if (k.tasks i).signalHandlers (signalIndex signum) = 0 then
        taskKill k pid (BitVec.ofInt 32 (-signum))
      else
        some (k.modify i fun t => { t with
          pendingSignals := t.pendingSignals ||| signalBit (signalIndex signum) }, .ret, 0)

/-- `find_pending_signal`: the lowest pending signal from `1` on. -/
def findPendingSignal (t : TaskStruct) : Option (Fin maxSignals) :=
  ((List.finRange maxSignals).drop 1).find? fun s => t.pendingSignals &&& signalBit s ≠ 0

/-- What `signal_try_deliver` writes to the task that starts a handler. -/
def startHandler (signum : Fin maxSignals) (tf : TrapFrame) (t : TaskStruct) : TaskStruct :=
  { t with
    pendingSignals := t.pendingSignals &&& ~~~ signalBit signum
    signalSavedTf := tf
    handlingSignal := true
    currentSignal := signum.val }

/-- The frame in which the handler starts. -/
def handlerFrame (L : Layout) (i : Slot) (signum : Fin maxSignals) (handler : Word)
    (tf : TrapFrame) : TrapFrame :=
  (((({ tf with sepc := handler }).setReg .ra userSigtrampBase).setReg .sp
    (L.signalStackTop i)).setReg .a0 (BitVec.ofNat 64 signum.val))

/-- `signal_try_deliver`. -/
def signalTryDeliver (L : Layout) (k : Kernel) (tf : TrapFrame) :
    Option (Kernel × Flow × TrapFrame) :=
  match k.tp with
  | none => some (k, .ret, tf)
  | some i =>
    if (k.tasks i).isUser = false then some (k, .ret, tf)
    else if (k.tasks i).handlingSignal = true then some (k, .ret, tf)
    else
      match findPendingSignal (k.tasks i) with
      | none => some (k, .ret, tf)
      | some signum =>
        if (k.tasks i).signalHandlers signum = 0 then
          (taskKill k (k.tasks i).pid (BitVec.ofInt 32 (-signum.val))).map
            fun (k, flow, _) => (k, flow, tf)
        else
          some (k.modify i (startHandler signum tf), .ret,
            handlerFrame L i signum ((k.tasks i).signalHandlers signum) tf)

/-- What `sys_sigreturn` writes to the task. -/
def endHandler (t : TaskStruct) : TaskStruct :=
  { t with
    handlingSignal := false
    currentSignal := 0
    signalSavedTf := .zero }

/-- `sys_sigreturn`, with the frame it leaves. -/
def sysSigreturn (k : Kernel) (tf : TrapFrame) : Kernel × TrapFrame × ℤ :=
  match k.tp with
  | none => (k, tf, -1)
  | some i =>
    if (k.tasks i).isUser = false then (k, tf, -1)
    else if (k.tasks i).handlingSignal = false then (k, tf, -1)
    else (k.modify i endHandler, (k.tasks i).signalSavedTf, 0)

section Outcome
variable {L : Layout} {k k' : Kernel} {flow : Flow}

/-- **`sys_kill`** fails, or kills a live user process, or a signal becomes pending for it. -/
theorem sysKill_outcome {pid signum v : ℤ} (h : sysKill k pid signum = some (k', flow, v)) :
    (k' = k ∧ flow = .ret ∧ v = -1) ∨
      ∃ i, validSignal signum ∧ taskFindByPid k pid = some i ∧ (k.tasks i).isUser ≠ false ∧
        ¬ (k.state i = .unused ∨ k.state i = .zombie) ∧
        (((k.tasks i).signalHandlers (signalIndex signum) = 0 ∧
            taskKill k pid (BitVec.ofInt 32 (-signum)) = some (k', flow, v)) ∨
          ((k.tasks i).signalHandlers (signalIndex signum) ≠ 0 ∧ flow = .ret ∧ v = 0 ∧
            k' = k.modify i fun t => { t with
              pendingSignals := t.pendingSignals ||| signalBit (signalIndex signum) })) := by
  have hret : some (k, Flow.ret, -1) = some (k', flow, v) → k' = k ∧ flow = .ret ∧ v = -1 := by
    intro he
    rw [Option.some.injEq, Prod.mk.injEq, Prod.mk.injEq] at he
    exact ⟨he.1.symm, he.2.1.symm, he.2.2.symm⟩
  unfold sysKill at h
  split_ifs at h with hv
  · split at h
    · exact .inl (hret h)
    · rename_i i hi
      split_ifs at h with hu hl hh
      · exact .inl (hret h)
      · exact .inl (hret h)
      · exact .inr ⟨i, hv, hi, hu, hl, .inl ⟨hh, h⟩⟩
      · rw [Option.some.injEq, Prod.mk.injEq, Prod.mk.injEq] at h
        exact .inr ⟨i, hv, hi, hu, hl, .inr ⟨hh, h.2.1.symm, h.2.2.symm, h.1.symm⟩⟩
  · exact .inl (hret h)

/-- **`signal_try_deliver`** delivers nothing, or kills the task for the lowest signal, or starts its
handler. -/
theorem signalTryDeliver_outcome {tf tf' : TrapFrame}
    (h : signalTryDeliver L k tf = some (k', flow, tf')) :
    (k' = k ∧ flow = .ret ∧ tf' = tf) ∨
      ∃ i signum, k.tp = some i ∧ (k.tasks i).isUser ≠ false ∧ (k.tasks i).handlingSignal ≠ true ∧
        findPendingSignal (k.tasks i) = some signum ∧
        (((k.tasks i).signalHandlers signum = 0 ∧ tf' = tf ∧ ∃ v,
            taskKill k (k.tasks i).pid (BitVec.ofInt 32 (-signum.val)) = some (k', flow, v)) ∨
          ((k.tasks i).signalHandlers signum ≠ 0 ∧ flow = .ret ∧
            k' = k.modify i (startHandler signum tf) ∧
            tf' = handlerFrame L i signum ((k.tasks i).signalHandlers signum) tf)) := by
  have hret : some (k, Flow.ret, tf) = some (k', flow, tf') → k' = k ∧ flow = .ret ∧ tf' = tf := by
    intro he
    rw [Option.some.injEq, Prod.mk.injEq, Prod.mk.injEq] at he
    exact ⟨he.1.symm, he.2.1.symm, he.2.2.symm⟩
  unfold signalTryDeliver at h
  split at h
  · exact .inl (hret h)
  · rename_i i ht
    split_ifs at h with hu hh
    · exact .inl (hret h)
    · exact .inl (hret h)
    · split at h
      · exact .inl (hret h)
      · rename_i signum hs
        refine .inr ⟨i, signum, ht, hu, hh, hs, ?_⟩
        split_ifs at h with h0
        · obtain ⟨⟨k1, f1, v⟩, hk, he⟩ := Option.map_eq_some_iff.1 h
          rw [Prod.mk.injEq, Prod.mk.injEq] at he
          obtain ⟨rfl, rfl, rfl⟩ := he
          exact .inl ⟨h0, rfl, v, hk⟩
        · rw [Option.some.injEq, Prod.mk.injEq, Prod.mk.injEq] at h
          exact .inr ⟨h0, h.2.1.symm, h.1.symm, h.2.2.symm⟩

end Outcome

end OscKernel.User.Signal
