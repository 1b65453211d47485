import OscKernel.Trap.Return
import OscKernel.Proc.Returns

/-! # Returning to user mode among interrupts

The system of lab5 with the two returns to user mode instruction by instruction. An interrupt in
S-mode may come between any two instructions of the kernel at which `SIE` is set; it leaves its marks
in `sepc`, `sscratch` and `t0`.

* `lands_of_run`: as long as no interrupt comes inside a return to user mode, every `sret` goes to the
  code of the trap frame in user mode, with the kernel stack of the process in `sscratch`.
* `not_lands_interrupt`: an interrupt inside a return derails it. -/

namespace OscKernel.Proc.Landing

open OscKernel.Lib.Memory OscKernel.Lib.Riscv OscKernel.Lib.Transition
open OscKernel.Thread.Task OscKernel.Thread.Sched OscKernel.Thread.Effect
open OscKernel.Trap.Exception (tfSize tfSepc tfSstatus)
open OscKernel.Trap.Return
open OscKernel.Proc.Ops OscKernel.Proc.System OscKernel.Proc.Step OscKernel.Proc.Contexts
open OscKernel.Proc.PerTask OscKernel.Proc.Returns

/-! ### The machine -/

/-- A return to user mode that is going on: the way, the trap frame, the instructions that are left,
and the hart. -/
structure Return where
  path : Path
  frame : TrapFrame
  left : List Instr
  cpu : Cpu

/-- The state: the system, which is already in user mode while a return is going on; the CSRs; and for
every kernel stack on which a trap from user mode is handled what was in `sscratch` when it came. -/
structure Hart where
  s : Sys
  sepc : Word
  sscratch : Word
  top : Slot → Option Word
  ret : Option Return

/-- What happens next: the system takes a step, and the registers at the start of the return that it
leads to, if any, are `reg`; the return executes an instruction; or there is an interrupt, in code at
`pc` with the stack pointer `sp`. -/
inductive Tick
  | sys (e : Event) (reg : Reg → Word)
  | instr
  | interrupt (pc sp : Word)

/-- Only `user.c` creates threads at `user_process_entry`. -/
def allowed (L : Layout) : Event → Bool
  | .threadCreate fn => fn ≠ L.userProcessEntry
  | _ => true

/-- A trap from user mode finds `sscratch`. -/
def Hart.entered (x : Hart) : Slot → Option Word :=
  match x.s.place with
  | .user _ => Function.update x.top x.s.me (some x.sscratch)
  | _ => x.top

/-- `sstatus` of the kernel: a trap from user mode changes it. -/
def kernelStatus (s : Sys) : Word :=
  match s.place with
  | .user _ => trapStatus s.sstatus .user
  | _ => s.sstatus

/-- The CSRs after the entry of a trap, which leaves the stack pointer of user code in `sscratch`. -/
def Hart.csrs (x : Hart) : Event → Word × Word
  | .trap reg sepc _ _ _ => (sepc, reg .sp)
  | _ => (x.sepc, x.sscratch)

/-- `current->kernel_sp`. -/
def currentSp (k : Kernel) : Word := k.tp.elim 0 fun c => (k.tasks c).kernelSp

/-- The way to user mode from a place of the system. -/
def pathFrom (s : Sys) : Path := if s.place matches .kernel .fresh then .enter else .leave

/-- The start of a return from the state `s` of the system to `t`. -/
def startReturn (B : Path → Word) (s t : Sys) (csrs : Word × Word) (top : Slot → Option Word)
    (reg : Reg → Word) (frame : TrapFrame) : Return where
  path := pathFrom s
  frame := frame
  left := (pathFrom s).code
  cpu :=
    { reg := match pathFrom s with
        | .enter => Function.update reg .a5 (currentSp t.k)
        | .leave => Function.update reg .sp ((top t.me).getD 0 - tfSize)
      csr := fun
        | .sstatus => kernelStatus s
        | .sepc => csrs.1
        | .sscratch => csrs.2
        | _ => 0
      mode := .supervisor
      pc := B (pathFrom s)
      mem := fun _ => 0 }

/-- A step of the system. A store of user code is no trap. -/
def Hart.sysStep (L : Layout) (B : Path → Word) (x : Hart) (e : Event) (reg : Reg → Word) :
    Option Hart :=
  if allowed L e then
    (x.s.step L e).map fun r =>
      match e with
      | .store _ _ => { x with s := r.1 }
      | _ =>
        { s := r.1
          sepc := (x.csrs e).1
          sscratch := (x.csrs e).2
          top := x.entered
          ret := match r.1.place with
            | .user frame => some (startReturn B x.s r.1 (x.csrs e) x.entered reg frame)
            | _ => none }
  else none

/-- An instruction of a return. A hart that `sret` brings elsewhere is not followed. -/
def Hart.instr (x : Hart) (r : Return) : Option Hart :=
  match r.left with
  | [] => none
  | .sret :: _ =>
    let c := exec .sret r.cpu
    if c.mode = .user ∧ c.pc = r.frame.sepc then
      some { x with sepc := c.csr .sepc, sscratch := c.csr .sscratch, ret := none }
    else none
  | i :: left =>
    some { x with ret := some { r with left, cpu := execFrame (frameSlot r.frame) i r.cpu } }

/-- One step. -/
def step (L : Layout) (B : Path → Word) (x : Hart) (e : Tick) : Option Hart :=
  match x.ret, e with
  | none, .sys e reg => x.sysStep L B e reg
  | none, .interrupt pc sp =>
    match x.s.place with
    | .user _ => none
    | _ => if x.s.sie then some { x with sepc := pc, sscratch := sp } else none
  | some r, .instr => x.instr r
  | some r, .interrupt _ _ =>
    if r.cpu.sie then some { x with ret := some { r with cpu := interrupted r.cpu } } else none
  | _, _ => none

/-- The start: the shell. -/
def start (L : Layout) (m : Mem) : Hart := ⟨boot L m, 0, 0, fun _ => none, none⟩

/-- No interrupt comes inside a return to user mode. -/
def Outside (x : Hart) : Tick → Prop
  | .interrupt _ _ => ∀ r ∈ x.ret, r.left = r.path.code
  | _ => True

instance (x : Hart) : (e : Tick) → Decidable (Outside x e)
  | .interrupt _ _ => inferInstanceAs (Decidable (∀ r ∈ x.ret, r.left = r.path.code))
  | .sys _ _ => .isTrue trivial
  | .instr => .isTrue trivial

/-- **Every `sret` that comes next** goes to the code of the trap frame in user mode, and leaves the
kernel stack of the process in `sscratch`. -/
def SretLands (x : Hart) : Prop :=
  ∀ r, x.ret = some r → r.left = [.sret] →
    (exec .sret r.cpu).mode = .user ∧ (exec .sret r.cpu).pc = r.frame.sepc ∧
      ((x.s.k.tasks x.s.me).isUser = true →
        (exec .sret r.cpu).csr .sscratch = (x.s.k.tasks x.s.me).kernelSp)

/-! ### The invariant -/

/-- The return was started for the thread on the kernel stack of `me`, and no interrupt has come since
its first instruction. -/
structure Going (L : Layout) (me : Slot) (r : Return) : Prop where
  spp : r.frame.sstatus.getLsbD sppBit = false
  run : ∃ before c, r.path.code = before ++ r.left ∧ r.cpu = execFrames (frameSlot r.frame) before c ∧
    match r.path with
    | .enter => c.reg .a5 = L.stackTop me
    | .leave => c.reg .sp = L.stackTop me - tfSize

/-- The invariant. -/
structure Inv (L : Layout) (x : Hart) : Prop where
  homes : AllTasks (OnStack L) x.s.k
  top : ∀ o v, x.top o = some v → v = L.stackTop o
  fresh : x.s.place = .kernel .fresh → x.s.k.tp = some x.s.me
  calls : ∀ a, x.s.place = .calls a → a ≠ .fresh
  saved : ∀ i o a, (x.s.k.tasks i).context = .saved o a →
    a ≠ .fresh ∧ (a.inTrap = true → (x.top o).isSome)
  trapped : ∀ a, x.s.place = .kernel a ∨ x.s.place = .calls a → a.inTrap = true →
    (x.top x.s.me).isSome
  user : ∀ tf, x.s.place = .user tf → x.ret = none → x.sscratch = L.stackTop x.s.me
  ret : ∀ r, x.ret = some r → (∃ tf, x.s.place = .user tf) ∧ Going L x.s.me r

section Lands
variable {L : Layout} {me : Slot} {r : Return}

theorem eq_nil_of_code {p : Path} {before left : List Instr} (h : p.code = before ++ .sret :: left) :
    left = [] := by
  have hp : ∀ p : Path, Instr.sret ∉ p.code.dropLast := by
    intro p
    cases p <;> decide
  by_contra hl
  refine hp p ?_
  rw [h, List.dropLast_append_of_ne_nil (List.cons_ne_nil _ _), List.dropLast_cons_of_ne_nil hl]
  simp

/-- **A return without interrupts** lands. -/
theorem Going.lands {left : List Instr} (h : Going L me r) (hl : r.left = .sret :: left) :
    Lands (frameSlot r.frame) (L.stackTop me) (exec .sret r.cpu) := by
  obtain ⟨before, c, hcode, hcpu, hstart⟩ := h.run
  have hspp : (frameSlot r.frame tfSstatus).getLsbD sppBit = false := h.spp
  rw [hl] at hcode
  obtain rfl := eq_nil_of_code hcode
  have hrun : exec .sret r.cpu = execFrames (frameSlot r.frame) r.path.code c := by
    rw [hcode, execFrames_append, ← hcpu]
    rfl
  rw [hrun]
  cases hp : r.path with
  | enter =>
    rw [hp] at hstart
    exact hstart ▸ enter_lands hspp
  | leave =>
    rw [hp] at hstart
    have htop : L.stackTop me = c.reg .sp + tfSize := by
      rw [hstart, BitVec.sub_add_cancel]
    exact htop ▸ leave_lands hspp

end Lands

section Step
variable {L : Layout} {B : Path → Word} {x y : Hart} {e : Event} {t : Sys} {os : List Obs}

theorem Inv.entered_isSome (h : Inv L x) (hp : Place.trapped x.s.place = true) :
    (x.entered x.s.me).isSome := by
  unfold Hart.entered
  cases hx : x.s.place with
  | user tf => simp
  | kernel a =>
    rw [hx] at hp
    exact h.trapped a (.inl hx) hp
  | calls a =>
    rw [hx] at hp
    exact h.trapped a (.inr hx) hp

theorem entered_mono {o : Slot} (h : (x.top o).isSome) : (x.entered o).isSome := by
  unfold Hart.entered
  cases x.s.place with
  | user tf =>
    rcases eq_or_ne o x.s.me with rfl | ho
    · simp
    · simpa only [Function.update_of_ne ho] using h
  | _ => exact h

theorem Inv.entered_top (h : Inv L x) (hr : x.ret = none) (o : Slot) (v : Word)
    (hv : x.entered o = some v) : v = L.stackTop o := by
  unfold Hart.entered at hv
  cases hp : x.s.place with
  | user tf =>
    simp only [hp] at hv
    rcases eq_or_ne o x.s.me with rfl | ho
    · rw [Function.update_self, Option.some.injEq] at hv
      exact hv ▸ h.user tf hp hr
    · rw [Function.update_of_ne ho] at hv
      exact h.top o v hv
  | _ =>
    simp only [hp] at hv
    exact h.top o v hv

theorem Inv.saved_step (h : Inv L x) (hs : x.s.step L e = some (t, os)) (i o : Slot) (a : Act)
    (hc : (t.k.tasks i).context = .saved o a) :
    a ≠ .fresh ∧ (a.inTrap = true → (x.entered o).isSome) := by
  have hold : (x.s.k.tasks i).context = .saved o a →
      a ≠ .fresh ∧ (a.inTrap = true → (x.entered o).isSome) := fun hc =>
    ⟨(h.saved i o a hc).1, fun ha => entered_mono ((h.saved i o a hc).2 ha)⟩
  rcases step_turn hs with ⟨hk, -, -, -⟩ | ⟨k, prev, next, act, b, hk, hsw, -, -, -, ha⟩
  · exact hold (hk.saved hc)
  · rw [(switchTo_cases hsw).1, Kernel.setTp_tasks] at hc
    rcases eq_or_ne i prev with rfl | hip
    · rw [k.setContext_same, CpuContext.saved.injEq] at hc
      obtain ⟨rfl, rfl⟩ := hc
      rcases ha with rfl | hp
      · exact ⟨by simp, fun hd => by cases hd⟩
      · exact ⟨h.calls _ hp, fun ht => entered_mono (h.trapped _ (.inr hp) ht)⟩
    · rw [k.setContext_of_ne prev _ hip] at hc
      exact hold (hk.saved hc)

theorem Inv.trapped_step (h : Inv L x) (hs : x.s.step L e = some (t, os)) (a : Act)
    (hp : t.place = .kernel a ∨ t.place = .calls a) (ha : a.inTrap = true) :
    (x.entered t.me).isSome := by
  have htr : Place.trapped t.place = true := by
    rcases hp with hp | hp <;> rw [hp] <;> exact ha
  rcases step_turn hs with ⟨-, hme, -, hplace⟩ | ⟨k, prev, next, act, b, hk, hsw, -, hb, -, -⟩
  · rcases hplace with ⟨tf, hu⟩ | ⟨hst, -⟩
    · rw [hu] at hp
      rcases hp with hp | hp <;> cases hp
    · rw [hme]
      exact h.entered_isSome (hst ▸ htr)
  · rw [hb] at htr
    rcases (switchTo_cases hsw).2 with ⟨hr, -⟩ | hc
    · rw [(Prod.mk.inj hr).2] at htr
      cases htr
    · exact (h.saved_step hs next t.me b hc).2 htr

theorem Inv.going_start (h : Inv L x) (hr : x.ret = none) (hne : ∀ a v, e ≠ .store a v)
    (hs : x.s.step L e = some (t, os))
    {frame : TrapFrame} (ht : t.place = .user frame) (csrs : Word × Word) (reg : Reg → Word) :
    Going L t.me (startReturn B x.s t csrs x.entered reg frame) := by
  have hl := step_leads hne hs
  have hme : t.me = x.s.me := by
    rcases step_turn hs with ⟨-, hme, -, -⟩ | ⟨k, prev, next, act, b, -, -, -, hb, -, -⟩
    · exact hme
    · rw [ht] at hb
      cases hb
  rw [ht] at hl
  obtain ⟨hspp, hfrom⟩ := hl
  refine ⟨hspp, [], _, rfl, rfl, ?_⟩
  rcases hfrom with htr | ⟨hp, hk, c, htp, hentry⟩
  · have hpath : pathFrom x.s = .leave := by
      unfold pathFrom
      split
      · rename_i hp
        rw [hp] at htr
        cases htr
      · rfl
    obtain ⟨v, hv⟩ := Option.isSome_iff_exists.1 (h.entered_isSome htr)
    obtain rfl := h.entered_top hr _ v hv
    simp only [startReturn, hpath, hme, hv, Option.getD_some, Function.update_self]
  · have hpath : pathFrom x.s = .enter := by
      unfold pathFrom
      rw [hp]
      rfl
    obtain rfl := Option.some.inj (htp.symm.trans (h.fresh hp))
    simp only [startReturn, hpath, Function.update_self, currentSp, hk, htp, Option.elim_some, hme]
    exact (h.homes _).entry hentry

theorem Inv.fresh_step (h : Inv L x) (hne : ∀ a v, e ≠ .store a v) (hs : x.s.step L e = some (t, os))
    (hp : t.place = .kernel .fresh) : t.k.tp = some t.me := by
  have hl := step_leads hne hs
  rw [hp] at hl
  rcases hl rfl with hc | htp | ⟨i, hc⟩
  · exact absurd rfl (h.calls _ hc)
  · exact htp
  · exact absurd rfl (h.saved_step hs i t.me _ hc).1

/-- **A step of the system** keeps the invariant. -/
theorem Inv.sysStep (h0 : L.userProcessEntry ≠ 0) (h : Inv L x) (hr : x.ret = none)
    {reg : Reg → Word} (hy : x.sysStep L B e reg = some y) : Inv L y := by
  unfold Hart.sysStep at hy
  split_ifs at hy with hallow
  obtain ⟨⟨t, os⟩, hs, rfl⟩ := Option.map_eq_some_iff.1 hy
  by_cases hst : ∃ a v, e = .store a v
  · obtain ⟨a, v, rfl⟩ := hst
    obtain ⟨-, -, rfl⟩ := Sys.step_store hs
    exact ⟨h.homes, h.top, h.fresh, h.calls, h.saved, h.trapped, h.user, h.ret⟩
  have hne : ∀ a v, e ≠ .store a v := fun a v he => hst ⟨a, v, he⟩
  have hlift : ∀ y, (match e with
      | .store _ _ => { x with s := t }
      | _ => y) = y := by
    intro y
    cases e with
    | store a v => exact absurd rfl (hne a v)
    | _ => rfl
  rw [hlift]
  constructor
  · refine step_allTasks (onStack_inv h0) h.homes ?_ hs fun _ _ hf => hf.elim
    rintro fn rfl
    exact of_decide_eq_true hallow
  · exact h.entered_top hr
  · exact h.fresh_step hne hs
  · intro a (ha : t.place = .calls a)
    have hl := step_leads hne hs
    rw [ha] at hl
    exact hl
  · exact h.saved_step hs
  · exact h.trapped_step hs
  · intro tf (htf : t.place = .user tf) hret
    simp only [htf] at hret
    cases hret
  · intro r hret
    cases htp : t.place with
    | user tf =>
      simp only [htp] at hret
      obtain rfl := Option.some.inj hret
      exact ⟨⟨tf, rfl⟩, h.going_start hr hne hs htp _ _⟩
    | _ =>
      simp only [htp] at hret
      cases hret

/-- **An instruction of a return** keeps the invariant. -/
theorem Inv.instr (h : Inv L x) {r : Return} (hr : x.ret = some r) (hy : x.instr r = some y) :
    Inv L y := by
  obtain ⟨hplace, hgoing⟩ := h.ret r hr
  unfold Hart.instr at hy
  split at hy
  · cases hy
  · rename_i left hl
    dsimp only at hy
    split_ifs at hy
    obtain rfl := Option.some.inj hy
    exact { h with
      user := fun _ _ _ => (hgoing.lands hl).sscratch
      ret := fun _ hret => by cases hret }
  · rename_i i left hsret hl
    obtain rfl := Option.some.inj hy
    refine { h with
      user := fun _ _ hret => by cases hret
      ret := fun r' hret => ?_ }
    obtain rfl := Option.some.inj hret
    obtain ⟨before, c, hcode, hcpu, hstart⟩ := hgoing.run
    refine ⟨hplace, hgoing.spp, before ++ [i], c, ?_, ?_, hstart⟩
    · rw [hcode, hl, List.append_assoc]
      rfl
    · rw [execFrames_append, ← hcpu]
      rfl

/-- **An interrupt before the first instruction of a return** keeps the invariant. -/
theorem Going.interrupted {me : Slot} {r : Return} (h : Going L me r) (hl : r.left = r.path.code) :
    Going L me { r with cpu := Trap.Return.interrupted r.cpu } := by
  obtain ⟨before, c, hcode, hcpu, hstart⟩ := h.run
  obtain rfl : before = [] := by
    rw [hl] at hcode
    exact List.self_eq_append_left.1 hcode
  obtain rfl : r.cpu = c := hcpu
  refine ⟨h.spp, [], _, hl.symm, rfl, ?_⟩
  cases hp : r.path with
  | enter =>
    rw [hp] at hstart
    exact (interrupted_reg (by decide)).trans hstart
  | leave =>
    rw [hp] at hstart
    exact (interrupted_reg (by decide)).trans hstart

/-- **One step** keeps the invariant, unless it is an interrupt inside a return. -/
theorem Inv.step (h0 : L.userProcessEntry ≠ 0) (h : Inv L x) {e : Tick} (ho : Outside x e)
    (hy : step L B x e = some y) : Inv L y := by
  unfold Landing.step at hy
  split at hy
  · rename_i hr
    exact h.sysStep h0 hr hy
  · rename_i hr
    split at hy
    · cases hy
    · rename_i hu
      split_ifs at hy
      obtain rfl := Option.some.inj hy
      exact { h with user := fun tf htf _ => absurd htf (hu tf) }
  · rename_i r hr
    exact h.instr hr hy
  · rename_i r _ _ hr
    split_ifs at hy
    obtain rfl := Option.some.inj hy
    obtain ⟨hplace, hgoing⟩ := h.ret r hr
    refine { h with
      user := fun _ _ hret => by cases hret
      ret := fun r' hret => ?_ }
    obtain rfl := Option.some.inj hret
    exact ⟨hplace, hgoing.interrupted (ho r hr)⟩
  · cases hy

theorem inv_start (h0 : L.userProcessEntry ≠ 0) (hidle : L.idle ≠ L.userProcessEntry) (m : Mem) :
    Inv L (start L m) where
  homes := onStack_boot h0 hidle m
  top _ _ hv := by cases hv
  fresh hp := by cases hp
  calls _ hp := by cases hp
  saved i o a hc := by
    change ((boot L m).k.tasks i).context = _ at hc
    rw [(boot_task L m i).2.2.2] at hc
    split_ifs at hc
  trapped _ hp ha := by
    rcases hp with hp | hp
    · obtain rfl := Place.kernel.inj hp
      cases ha
    · cases hp
  user _ hp _ := by cases hp
  ret _ hr := by cases hr

theorem Inv.sretLands (h : Inv L x) : SretLands x := by
  intro r hr hl
  obtain ⟨hmode, hpc, hscratch⟩ := (h.ret r hr).2.lands hl
  exact ⟨hmode, hpc, fun hu => hscratch.trans ((h.homes _).user hu).symm⟩

end Step

section Run
variable {L : Layout} {B : Path → Word} {m : Mem} {x : Hart} {es : List Tick}

/-- **Runs without interrupts inside a return** land every `sret`. -/
theorem lands_of_run (h0 : L.userProcessEntry ≠ 0) (hidle : L.idle ≠ L.userProcessEntry)
    (h : Run (step L B) Outside (start L m) es x) : SretLands x :=
  Inv.sretLands (h.invariant (fun _ _ _ hi ho hs => hi.step h0 ho hs) (inv_start h0 hidle m))

/-- The shell starts a user process; an interrupt comes before the first instruction of its return. -/
def startTicks : List Tick :=
  .sys (.createUser 0x1000) (fun _ => 0) :: .interrupt 0x200404 0x221000 ::
    List.replicate 3 (.sys (.go true) fun _ => 0) ++ [.interrupt 0x200300 0x221000]

/-- What the next instruction is, where an `sret` would go, and where the process is to go. -/
def Hart.view (x : Hart) : Option (List Instr × Mode × Word × Word) :=
  x.ret.map fun r => (r.left, (exec .sret r.cpu).mode, (exec .sret r.cpu).pc, r.frame.sepc)

theorem lands_of_run_sample : ∃ x, Run (step sampleLayout fun _ => 0x200300) Outside
    (start sampleLayout fun _ => 0) (startTicks ++ List.replicate 38 .instr) x ∧
      (∃ r, x.ret = some r ∧ r.left = [.sret]) ∧ SretLands x := by
  have hex : ((Lib.Transition.exec (step sampleLayout fun _ => 0x200300)
      (fun x e => decide (Outside x e)) (start sampleLayout fun _ => 0)
      (startTicks ++ List.replicate 38 .instr)).map Hart.view) =
      some (some ([.sret], .user, 0x1000, 0x1000)) := by decide +kernel
  obtain ⟨x, hr, hv⟩ := Run.exists_of_exec (C := Outside) (fun _ _ ho => of_decide_eq_true ho) hex
  obtain ⟨r, hret, hv⟩ := Option.map_eq_some_iff.1 hv
  exact ⟨x, hr, ⟨r, hret, (Prod.mk.inj hv).1⟩, lands_of_run (by decide) (by decide) hr⟩

/-- The same process; an interrupt comes after `return_to_user` has written `sepc`. -/
def derailedTicks : List Tick :=
  startTicks ++ List.replicate 7 .instr ++ .interrupt 0 0 :: List.replicate 31 .instr

/-- **A return that an interrupt derails**: `sret` goes back into `return_to_user`, in user mode. -/
theorem not_lands_interrupt : ∃ x, Run (step sampleLayout fun _ => 0x200300) (fun _ _ => True)
    (start sampleLayout fun _ => 0) derailedTicks x ∧ ¬ SretLands x := by
  have hex : ((Lib.Transition.exec (step sampleLayout fun _ => 0x200300) (fun _ _ => true)
      (start sampleLayout fun _ => 0) derailedTicks).map Hart.view) =
      some (some ([.sret], .user, 0x20031C, 0x1000)) := by decide +kernel
  obtain ⟨x, hr, hv⟩ := Run.exists_of_exec (C := fun _ _ => True) (fun _ _ _ => trivial) hex
  obtain ⟨r, hret, hv⟩ := Option.map_eq_some_iff.1 hv
  simp only [Prod.mk.injEq] at hv
  obtain ⟨hl, -, hpc, hframe⟩ := hv
  refine ⟨x, hr, fun h => ?_⟩
  have hgo := (h r hret hl).2.1
  rw [hpc, hframe] at hgo
  exact absurd hgo (by decide)

end Run

end OscKernel.Proc.Landing
