import OscKernel.Proc.Buffer
import OscKernel.Proc.Handlers

/-! # Signal delivery and `sigreturn`

From the start of a handler on, through any number of handlers that follow, the frame at which the
first one was started is kept, and `sigreturn` puts it back.

* `sigreturn_step`: `sigreturn` puts the frame back.
* `delivery_of_run`: a whole run from the start of a handler on. -/

namespace OscKernel.Proc.Delivery

open OscKernel.Lib.Memory OscKernel.Lib.Riscv OscKernel.Lib.Transition
open OscKernel.Thread.Task OscKernel.Thread.RunQueue OscKernel.Thread.Sched OscKernel.Thread.Inv
open OscKernel.Thread.Effect OscKernel.User.Signal OscKernel.User.Effect
open OscKernel.Proc.Ops OscKernel.Proc.System OscKernel.Proc.Step OscKernel.Proc.Handlers
open OscKernel.Proc.Buffer

section Step
variable {L : Layout} {s t : Sys} {e : Event} {os : List Obs} {k : Kernel}

/-! ### `sigreturn` -/

theorem signalTryDeliver_eq {c : Slot} {tf : TrapFrame} (ht : k.tp = some c)
    (hu : (k.tasks c).isUser = true) (hh : (k.tasks c).handlingSignal = false) :
    signalTryDeliver L k tf =
      match findPendingSignal (k.tasks c) with
      | none => some (k, .ret, tf)
      | some signum =>
        if (k.tasks c).signalHandlers signum = 0 then
          (taskKill k (k.tasks c).pid (BitVec.ofInt 32 (-signum.val))).map
            fun (k, flow, _) => (k, flow, tf)
        else
          some (k.modify c (startHandler signum tf), .ret,
            handlerFrame L c signum ((k.tasks c).signalHandlers signum) tf) := by
  unfold signalTryDeliver
  rw [ht]
  exact (if_neg (by simp [hu])).trans (if_neg (by simp [hh]))

/-- **The frame is put back** by a `sigreturn` of the task in the slot `i`: it is resumed with the
frame; or the next handler is started at the frame; or the task dies of a signal without a handler. -/
def PutsBack (L : Layout) (s : Sys) (i : Slot) (p : ℤ) (F : TrapFrame) (t : Sys) (os : List Obs) :
    Prop :=
  match findPendingSignal (s.k.tasks i) with
  | none => t.me = i ∧ t.place = .user F ∧ ∀ j G, .handler j G ∉ os
  | some signum =>
    if (s.k.tasks i).signalHandlers signum = 0 then t.k.state i = .zombie
    else
      t.me = i ∧ InHandler t.k i p F ∧
        t.place = .user (handlerFrame L i signum ((s.k.tasks i).signalHandlers signum) F) ∧
        ∀ j G, .handler j G ∈ os ↔ j = i ∧ G = F

theorem returnToUser_eq {tf : TrapFrame} (h : tf.sstatus.getLsbD sppBit = false) :
    s.returnToUser k tf =
      some ({ s with k, place := .user tf, sstatus := sretStatus tf.sstatus }, []) := by
  rw [Sys.returnToUser, if_neg (by simp [h])]

/-- The end of the trap of a `sigreturn`: the task `i` is in no handler any more. -/
theorem leaveTrap_putsBack {i : Slot} {p : ℤ} {F : TrapFrame} (h : InHandler s.k i p F) (h0 : i ≠ 0)
    (hme : s.me = i) (hst : Stays L i .nothing s.k k) (hk : k = s.k.modify i endHandler) :
    ∃ t os, s.leaveTrap L k F = some (t, os) ∧ PutsBack L s i p F t os := by
  have hpend : findPendingSignal (k.tasks i) = findPendingSignal (s.k.tasks i) := by
    rw [hk, Kernel.modify_same]
    rfl
  have hhand : (k.tasks i).signalHandlers = (s.k.tasks i).signalHandlers := by
    rw [hk, Kernel.modify_same]
    rfl
  have hh : (k.tasks i).handlingSignal = false := by
    rw [hk, Kernel.modify_same]
    rfl
  have hu : (k.tasks i).isUser = true := by
    rw [hk, Kernel.modify_same]
    exact h.isUser
  unfold PutsBack
  rw [← hpend, ← hhand]
  unfold Sys.leaveTrap
  rw [signalTryDeliver_eq hst.tp hu hh]
  rcases findPendingSignal (k.tasks i) with _ | signum <;> dsimp only
  · rw [returnToUser_eq h.spp, Option.map_some]
    refine ⟨_, _, rfl, hme, rfl, fun j G hm => ?_⟩
    rw [List.append_nil, mem_handlerStarts] at hm
    rw [hm.1] at hm
    cases hm.2.1
  · by_cases hz : (k.tasks i).signalHandlers signum = 0
    · -- no handler: the task dies
      obtain ⟨k', n, hkill, hsw, hzombie⟩ :=
        taskKill_self hst.tp hst.table h0 (BitVec.ofInt 32 (-signum.val))
      obtain ⟨k'', a, hs, -⟩ := switchTo_inv .dead hsw (.inr (by rw [hzombie]; decide))
      rw [if_pos hz, hkill]
      simp only [Option.map_some, Sys.switch, hme, hs, hz, if_pos]
      refine ⟨_, _, rfl, ?_⟩
      change k''.state i = .zombie
      rw [(switchTo_cases hs).1, Kernel.setTp_state, Kernel.state,
        k'.setContext_proj _ TaskStruct.state _ fun _ => rfl]
      exact hzombie
    · have hframe : (handlerFrame L i signum ((k.tasks i).signalHandlers signum) F).sstatus.getLsbD
          sppBit = false := h.spp
      rw [if_neg hz]
      dsimp only
      rw [returnToUser_eq hframe, Option.map_some]
      refine ⟨_, _, rfl, ?_⟩
      rw [if_neg hz]
      have hview : ∀ {β : Type} (f : TaskStruct → β), (∀ t, f (startHandler signum F t) = f t) →
          f ((k.modify i (startHandler signum F)).tasks i) = f (k.tasks i) := by
        intro β f hf
        rw [Kernel.modify_same, hf]
      refine ⟨hme, ⟨⟨?_, ?_⟩, ?_, ?_, h.spp⟩, rfl, fun j G => ?_⟩
      · change isRunnable (k.modify i (startHandler signum F)) i
        rw [isRunnable, Kernel.state, hview TaskStruct.state fun _ => rfl]
        exact hst.table.isRunnable_cur
      · change ((k.modify i (startHandler signum F)).tasks i).pid = p
        rw [hview TaskStruct.pid fun _ => rfl, hk, Kernel.modify_same]
        exact h.lives.2
      · change ((k.modify i (startHandler signum F)).tasks i).isUser = true
        rw [hview TaskStruct.isUser fun _ => rfl, hu]
      · change handled ((k.modify i (startHandler signum F)).tasks i) = _
        rw [Kernel.modify_same]
        rfl
      · rw [List.append_nil, mem_handlerStarts]
        rcases eq_or_ne j i with rfl | hj
        · rw [Kernel.modify_same]
          simp [startHandler, hh]
        · rw [k.modify_of_ne i _ hj]
          refine iff_of_false (fun hx => ?_) fun hx => hj hx.1
          rw [hx.1] at hx
          cases hx.2.1

theorem sysSigreturn_eq {i : Slot} {p : ℤ} {F tf : TrapFrame} (ht : k.tp = some i)
    (h : InHandler k i p F) : sysSigreturn k tf = (k.modify i endHandler, F, 0) := by
  have hs := h.saved
  rw [handled, Prod.mk.injEq] at hs
  unfold sysSigreturn
  rw [ht]
  dsimp only
  rw [if_neg (by simp [h.isUser]), if_neg (by simp [hs.1]), hs.2]

theorem PutsBack.sysRet {i : Slot} {p : ℤ} {F call : TrapFrame} {v : Word}
    (h : PutsBack L s i p F t os) : PutsBack L s i p F t (.sysRet call v :: os) := by
  have hm : ∀ j G, .handler j G ∈ .sysRet call v :: os ↔ .handler j G ∈ os := by simp
  unfold PutsBack at h ⊢
  simpa only [hm] using h

theorem ecall_putsBack {i : Slot} {p : ℤ} {F tf : TrapFrame} {file : Option (List Byte)}
    (h : InHandler s.k i p F) (h0 : i ≠ 0) (hme : s.me = i) (htp : s.k.tp = some i)
    (ht : TableInv L s.k (some i) none) (hn : Syscall.ofNumber (tf.reg .a7) = some .sigreturn) :
    ∃ t os, s.ecall L file tf = some (t, os) ∧ PutsBack L s i p F t os := by
  have hst := sysSigreturn_stays tf htp ht
  rw [sysSigreturn_eq htp h] at hst
  obtain ⟨t, os, hs, hb⟩ := leaveTrap_putsBack h h0 hme hst rfl
  have hsys : syscallHandler L file s.sstatus s.k { tf with sepc := tf.sepc + 4 } =
      some (s.k.modify i endHandler, .ret F (BitVec.ofInt 64 0)) := by
    unfold syscallHandler
    dsimp only
    rw [hn]
    dsimp only
    rw [sysSigreturn_eq htp h]
  refine ⟨t, .sysRet { tf with sepc := tf.sepc + 4 } (BitVec.ofInt 64 0) :: os, ?_, hb.sysRet⟩
  unfold Sys.ecall
  dsimp only
  rw [hsys]
  dsimp only
  rw [Sys.afterSyscall, if_pos (by exact hn), hs]
  rfl

/-- **`sigreturn`** puts the frame back. -/
theorem sigreturn_step {i : Slot} {p : ℤ} {F : TrapFrame} (h : InHandler s.k i p F) (h0 : i ≠ 0)
    (hi : SysInv L s) (hu : TpKept L s e) (hc : callBy s e i = some .sigreturn) :
    ∃ t os, s.step L e = some (t, os) ∧ PutsBack L s i p F t os := by
  unfold callBy at hc
  split at hc
  · rename_i tf0 reg sepc scause stval file hp
    split_ifs at hc with hcall
    obtain ⟨hme, rfl⟩ := hcall
    have htp : s.k.tp = some i := hme ▸ hi.tp
    unfold Sys.step
    rw [hp]
    dsimp only
    rw [trap_eq hi.tp hu, Sys.doTrap, if_neg (by exact (by decide : causeEcall ≠ causeTimer)),
      if_neg (by exact (by decide : causeEcall ≠ causeExternal)), if_pos (by rfl)]
    exact ecall_putsBack (s := { s with sstatus := trapStatus s.sstatus .user }) h h0 hme htp
      (hme ▸ hi.table) hc
  · cases hc

end Step

/-! ### All runs -/

/-- The system, without what its steps let be seen. -/
def step (L : Layout) (s : Sys) (e : Event) : Option Sys := (s.step L e).map Prod.fst

theorem step_eq_some {L : Layout} {s t : Sys} {e : Event} (h : step L s e = some t) :
    ∃ os, s.step L e = some (t, os) := by
  obtain ⟨⟨t', os⟩, hs, rfl⟩ := Option.map_eq_some_iff.1 h
  exact ⟨os, hs⟩

/-- The invariant: the idle task is no user process. -/
def DeliveryInv (L : Layout) (s : Sys) : Prop := SysInv L s ∧ (s.k.tasks 0).isUser = false

theorem deliveryInv_step {L : Layout} {s t : Sys} {e : Event} {os : List Obs}
    (hi : DeliveryInv L s) (hu : TpKept L s e) (hst : s.step L e = some (t, os)) :
    DeliveryInv L t := by
  have ho := step_ok hi.1 hu hst
  exact ⟨ho.inv, (kept_idle hi.1 ho).isUser.trans hi.2⟩

theorem deliveryInv_of_run {L : Layout} {m : Mem} {es : List Event} {s : Sys}
    (h : Run (step L) (TpKept L) (boot L m) es s) : DeliveryInv L s := by
  refine h.invariant (I := DeliveryInv L) ?_ ⟨sysInv_boot L m, (boot_task L m 0).2.2.1⟩
  intro s e t hi hu hs
  obtain ⟨os, hst⟩ := step_eq_some hs
  exact deliveryInv_step hi hu hst

/-- The condition on a step from the start of a handler on: user code leaves `tp` alone, the task
lives on and does not call `exec`, and it calls `sigreturn` only while another signal is pending. -/
def Handling (L : Layout) (i : Slot) (p : ℤ) (s : Sys) (e : Event) : Prop :=
  TpKept L s e ∧ callBy s e i ≠ some .exec ∧
    (callBy s e i = some .sigreturn → findPendingSignal (s.k.tasks i) ≠ none) ∧
    ∀ t os, s.step L e = some (t, os) → Lives t.k i p

/-- **What the next step does to a task in a handler**: no second handler is started, unless the task
calls `sigreturn`, which is carried out and puts the frame back. -/
structure NextOk (L : Layout) (u : Sys) (i : Slot) (p : ℤ) (F : TrapFrame) (e : Event) : Prop where
  quiet : callBy u e i ≠ some .sigreturn → ∀ v os, u.step L e = some (v, os) → Lives v.k i p →
    InHandler v.k i p F ∧ ∀ G, .handler i G ∉ os
  sigreturn : callBy u e i = some .sigreturn →
    ∃ v os, u.step L e = some (v, os) ∧ PutsBack L u i p F v os

/-- A task in a handler, in a state of a run. -/
structure HandlerInv (L : Layout) (i : Slot) (p : ℤ) (F : TrapFrame) (s : Sys) : Prop where
  inv : DeliveryInv L s
  handler : InHandler s.k i p F

section Run
variable {L : Layout} {i : Slot} {p : ℤ} {F : TrapFrame} {s t : Sys} {e : Event} {os : List Obs}

theorem HandlerInv.ne_zero (h : HandlerInv L i p F s) : i ≠ 0 := by
  rintro rfl
  have hu := h.handler.isUser
  rw [h.inv.2] at hu
  cases hu

theorem HandlerInv.next (h : HandlerInv L i p F s) (hu : TpKept L s e)
    (hx : callBy s e i ≠ some .exec) : NextOk L s i p F e :=
  ⟨fun hr _ _ hst hl => h.handler.step h.inv.1 hu hst hx hr hl,
    fun hr => sigreturn_step h.handler h.ne_zero h.inv.1 hu hr⟩

theorem HandlerInv.step (h : HandlerInv L i p F s) (hc : Handling L i p s e)
    (hst : s.step L e = some (t, os)) : HandlerInv L i p F t := by
  obtain ⟨hu, hx, hpend, hl⟩ := hc
  have hl := hl t os hst
  refine ⟨deliveryInv_step h.inv hu hst, ?_⟩
  by_cases hr : callBy s e i = some .sigreturn
  · obtain ⟨v, os', hst', hb⟩ := (h.next hu hx).sigreturn hr
    rw [hst, Option.some.injEq, Prod.mk.injEq] at hst'
    obtain ⟨rfl, rfl⟩ := hst'
    unfold PutsBack at hb
    split at hb
    · rename_i hn
      exact absurd hn (hpend hr)
    · split_ifs at hb
      · exact absurd hb (isRunnable_iff.1 hl.1).2
      · exact hb.2.1
  · exact ((h.next hu hx).quiet hr t os hst hl).1

end Run

/-- **Delivery and `sigreturn` are transparent**, if user code leaves `tp` alone: from the start of a
handler at the frame `F` on, through any number of handlers that follow, the frame is kept, and the
next `sigreturn` puts it back. -/
theorem delivery_of_run {L : Layout} {m : Mem} {es fs : List Event} {s t u : Sys} {e e' : Event}
    {os : List Obs} {i : Slot} {F : TrapFrame} (h : Run (step L) (TpKept L) (boot L m) es s)
    (hu : TpKept L s e) (hst : s.step L e = some (t, os)) (hm : .handler i F ∈ os)
    (hr : Run (step L) (Handling L i (s.k.tasks i).pid) t fs u) (hu' : TpKept L u e')
    (hx : callBy u e' i ≠ some .exec) :
    InHandler u.k i (s.k.tasks i).pid F ∧ NextOk L u i (s.k.tasks i).pid F e' := by
  have hi := deliveryInv_of_run h
  have h0 : HandlerInv L i (s.k.tasks i).pid F t :=
    ⟨deliveryInv_step hi hu hst, (handler_start hi.1 hu hst hm).2⟩
  have hend : HandlerInv L i (s.k.tasks i).pid F u := by
    refine hr.invariant (I := HandlerInv L i (s.k.tasks i).pid F) ?_ h0
    intro a e b ha hc hs
    obtain ⟨os, hst⟩ := step_eq_some hs
    exact ha.step hc hst
  exact ⟨hend.handler, hend.next hu' hx⟩

/-! ### Three runs -/

/-- The frame is put back without a word about signals that have no handler. -/
def Transparent (i : Slot) (F : TrapFrame) (t : Sys) (os : List Obs) : Prop :=
  (t.me = i ∧ t.place = .user F) ∨ .handler i F ∈ os

instance (k : Kernel) (i : Slot) (p : ℤ) : Decidable (Lives k i p) := by
  unfold Lives isRunnable; infer_instance

/-- `Handling`, as a check. -/
def checkHandling (L : Layout) (i : Slot) (p : ℤ) (s : Sys) (e : Event) : Bool :=
  decide (TpKept L s e) && decide (callBy s e i ≠ some .exec) &&
    decide (callBy s e i = some .sigreturn → findPendingSignal (s.k.tasks i) ≠ none) &&
    match s.step L e with
    | none => true
    | some (t, _) => decide (Lives t.k i p)

theorem handling_of_check {L : Layout} {i : Slot} {p : ℤ} {s : Sys} {e : Event}
    (h : checkHandling L i p s e = true) : Handling L i p s e := by
  unfold checkHandling at h
  simp only [Bool.and_eq_true, decide_eq_true_eq] at h
  obtain ⟨⟨⟨hu, hx⟩, hp⟩, hl⟩ := h
  refine ⟨hu, hx, hp, fun t os ht => ?_⟩
  rw [ht] at hl
  exact of_decide_eq_true hl

/-- The process sets handlers for the signals `1` and `2`. -/
def signalRun : List Event :=
  [.createUser 0x201000, .go true, .go true, .go true, callOf sampleLayout 1 10 1 0x300,
    callOf sampleLayout 1 10 2 0x300]

/-- The process sends itself the signal `1`, whose handler starts at the frame `F`; the events `fs` go
by, as `mid` says; then its `sigreturn`, the event `e`, leads from `u` to `v`. -/
def Scenario (mid : Sys → Event → Option Sys) (C : Sys → Event → Prop) (fs : List Event) (e : Event)
    (F : TrapFrame) (u v : Sys) (os' : List Obs) : Prop :=
  ∃ s t os, Run (step sampleLayout) (TpKept sampleLayout) (boot sampleLayout fun _ => 0) signalRun s ∧
    TpKept sampleLayout s (callOf sampleLayout 1 12 1 1) ∧
    s.step sampleLayout (callOf sampleLayout 1 12 1 1) = some (t, os) ∧ .handler 1 F ∈ os ∧
    (s.k.tasks 1).pid = 1 ∧ Run mid C t fs u ∧
    callBy u e 1 = some .sigreturn ∧ u.step sampleLayout e = some (v, os')

/-- The handler that is started for the slot `1`. -/
def startFrame (os : List Obs) : Option TrapFrame :=
  os.findSome? fun
    | .handler i F => if i = 1 then some F else none
    | _ => none

theorem mem_of_startFrame {os : List Obs} {F : TrapFrame} (h : startFrame os = some F) :
    .handler 1 F ∈ os := by
  obtain ⟨o, ho, hF⟩ := List.exists_of_findSome?_eq_some h
  split at hF
  · split_ifs at hF with hi
    rw [Option.some.injEq] at hF
    exact hi ▸ hF ▸ ho
  · cases hF

/-- A scenario, computed. -/
def scenario (mid : Sys → Event → Option Sys) (ok : Sys → Event → Bool) (fs : List Event) (e : Event) :
    Option (TrapFrame × Sys × Sys × List Obs) := do
  let s ← exec (step sampleLayout) (fun s e => decide (TpKept sampleLayout s e))
    (boot sampleLayout fun _ => 0) signalRun
  let (t, os) ← s.step sampleLayout (callOf sampleLayout 1 12 1 1)
  let F ← startFrame os
  let u ← exec mid ok t fs
  let (v, os') ← u.step sampleLayout e
  if TpKept sampleLayout s (callOf sampleLayout 1 12 1 1) ∧ (s.k.tasks 1).pid = 1 ∧
    callBy u e 1 = some .sigreturn then some (F, u, v, os') else none

theorem scenario_spec {mid : Sys → Event → Option Sys} {C : Sys → Event → Prop}
    {ok : Sys → Event → Bool} (hC : ∀ s e, ok s e = true → C s e) {fs : List Event} {e : Event}
    {F : TrapFrame} {u v : Sys} {os' : List Obs} (h : scenario mid ok fs e = some (F, u, v, os')) :
    Scenario mid C fs e F u v os' := by
  obtain ⟨s, hs, h⟩ := Option.bind_eq_some_iff.1 h
  obtain ⟨⟨t, os⟩, ht, h⟩ := Option.bind_eq_some_iff.1 h
  obtain ⟨G, hF, h⟩ := Option.bind_eq_some_iff.1 h
  obtain ⟨w, hw, h⟩ := Option.bind_eq_some_iff.1 h
  obtain ⟨⟨x, os''⟩, hx, h⟩ := Option.bind_eq_some_iff.1 h
  dsimp only at h hF hw
  split_ifs at h with hc
  rw [Option.some.injEq, Prod.mk.injEq, Prod.mk.injEq, Prod.mk.injEq] at h
  obtain ⟨rfl, rfl, rfl, rfl⟩ := h
  exact ⟨s, t, os, Run.of_exec (fun _ _ => of_decide_eq_true) hs, hc.1, ht, mem_of_startFrame hF,
    hc.2.1, Run.of_exec hC hw, hc.2.2, hx⟩

/-- In its handler the process sends itself the signal `2`, whose handler starts at the same frame
when the first one returns; when it returns itself, nothing is pending. -/
theorem delivery_twice : ∃ F u v os',
    Scenario (step sampleLayout) (Handling sampleLayout 1 1)
      [callOf sampleLayout 1 12 1 2, callOf sampleLayout 1 11 0] (callOf sampleLayout 1 11 0) F u v os' ∧
    findPendingSignal (u.k.tasks 1) = none ∧ InHandler u.k 1 1 F ∧
    NextOk sampleLayout u 1 1 F (callOf sampleLayout 1 11 0) := by
  have hex : ((scenario (step sampleLayout) (checkHandling sampleLayout 1 1)
      [callOf sampleLayout 1 12 1 2, callOf sampleLayout 1 11 0] (callOf sampleLayout 1 11 0)).map fun r =>
        (decide (TpKept sampleLayout r.2.1 (callOf sampleLayout 1 11 0)),
          findPendingSignal (r.2.1.k.tasks 1))) = some (true, none) := by decide +kernel
  obtain ⟨⟨F, u, v, os'⟩, hs, hv⟩ := Option.map_eq_some_iff.1 hex
  simp only [Prod.mk.injEq, decide_eq_true_eq] at hv
  have hsc := scenario_spec (C := Handling sampleLayout 1 1) (fun _ _ => handling_of_check) hs
  refine ⟨F, u, v, os', hsc, hv.2, ?_⟩
  obtain ⟨s, t, os, hrun, hu, hst, hm, hpid, hrest, hc, -⟩ := hsc
  rw [← hpid] at hrest ⊢
  exact delivery_of_run hrun hu hst hm hrest hv.1 (by rw [hc]; decide)

/-- A register of user code. -/
def userReg (r : Reg) : Place → Word
  | .user tf => tf.reg r
  | _ => 0

/-- The task in the slot `1` does not go on with the frame, and no handler is started for it. -/
theorem not_transparent_of {F : TrapFrame} {t : Sys} {os : List Obs} {r : Reg}
    (h : t.me ≠ 1 ∨ userReg r t.place ≠ F.reg r) (hos : startFrame os = none) :
    ¬ Transparent 1 F t os := by
  rintro (⟨hme, hp⟩ | hm)
  · rcases h with h | h
    · exact h hme
    · rw [hp] at h
      exact h rfl
  · have := List.findSome?_eq_none_iff.1 hos _ hm
    cases this

/-- **The frame is not put back** if the handler has changed `tp` before `sigreturn`, or has read a
character into the saved frame; and the task dies if the next pending signal has lost its handler. -/
theorem not_transparent_sigreturn :
    (∃ F u v os', Scenario (step sampleLayout) (Handling sampleLayout 1 1) []
        (.trap (callRegs 0 11 0 0) 0x1000 causeEcall 0 none) F u v os' ∧ ¬ Transparent 1 F v os') ∧
    (∃ F u v os', Scenario (bufferSys sampleLayout) (TpKept sampleLayout)
        (readInto sampleLayout 1 1 savedOffset [0x41]) (callOf sampleLayout 1 11 0) F u v os' ∧
      TpKept sampleLayout u (callOf sampleLayout 1 11 0) ∧ ¬ Transparent 1 F v os') ∧
    ∃ F u v os', Scenario (step sampleLayout) (Handling sampleLayout 1 1)
        [callOf sampleLayout 1 12 1 2, callOf sampleLayout 1 10 2 0]
        (callOf sampleLayout 1 11 0) F u v os' ∧
      TpKept sampleLayout u (callOf sampleLayout 1 11 0) ∧ v.k.state 1 = .zombie ∧
      ¬ Transparent 1 F v os' := by
  refine ⟨?_, ?_, ?_⟩
  · have hex : ((scenario (step sampleLayout) (checkHandling sampleLayout 1 1) []
        (.trap (callRegs 0 11 0 0) 0x1000 causeEcall 0 none)).map fun r =>
          (decide (userReg .a7 r.2.2.1.place ≠ r.1.reg .a7), (startFrame r.2.2.2).isNone)) =
        some (true, true) := by decide +kernel
    obtain ⟨⟨F, u, v, os'⟩, hs, hv⟩ := Option.map_eq_some_iff.1 hex
    simp only [Prod.mk.injEq, decide_eq_true_eq, Option.isNone_iff_eq_none] at hv
    exact ⟨F, u, v, os', scenario_spec (fun _ _ => handling_of_check) hs,
      not_transparent_of (.inr hv.1) hv.2⟩
  · have hex : ((scenario (bufferSys sampleLayout) (fun s e => decide (TpKept sampleLayout s e))
        (readInto sampleLayout 1 1 savedOffset [0x41]) (callOf sampleLayout 1 11 0)).map fun r =>
          (decide (TpKept sampleLayout r.2.1 (callOf sampleLayout 1 11 0)),
            decide (userReg .ra r.2.2.1.place ≠ r.1.reg .ra), (startFrame r.2.2.2).isNone)) =
        some (true, true, true) := by decide +kernel
    obtain ⟨⟨F, u, v, os'⟩, hs, hv⟩ := Option.map_eq_some_iff.1 hex
    simp only [Prod.mk.injEq, decide_eq_true_eq, Option.isNone_iff_eq_none] at hv
    obtain ⟨hu, hne, hos⟩ := hv
    exact ⟨F, u, v, os', scenario_spec (fun _ _ => of_decide_eq_true) hs, hu,
      not_transparent_of (.inr hne) hos⟩
  · have hex : ((scenario (step sampleLayout) (checkHandling sampleLayout 1 1)
        [callOf sampleLayout 1 12 1 2, callOf sampleLayout 1 10 2 0] (callOf sampleLayout 1 11 0)).map
          fun r => (decide (TpKept sampleLayout r.2.1 (callOf sampleLayout 1 11 0)),
            r.2.2.1.k.state 1, r.2.2.1.me, (startFrame r.2.2.2).isNone)) =
        some (true, .zombie, 0, true) := by decide +kernel
    obtain ⟨⟨F, u, v, os'⟩, hs, hv⟩ := Option.map_eq_some_iff.1 hex
    simp only [Prod.mk.injEq, decide_eq_true_eq, Option.isNone_iff_eq_none] at hv
    obtain ⟨hu, hz, hme, hos⟩ := hv
    refine ⟨F, u, v, os', scenario_spec (fun _ _ => handling_of_check) hs, hu, hz,
      not_transparent_of (r := .a7) (.inl ?_) hos⟩
    rw [hme]
    decide

end OscKernel.Proc.Delivery
