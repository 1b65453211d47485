import OscKernel.Proc.PerTask

/-! # Where user processes stand in memory

`Housed L Q i t`: if the task `t` of the slot `i` is a user process, its user stack is that of the
slot; and if `Q i`, it is in no signal handler.

* `housed_of_run`: the user stacks in every run.
* `housed_since`: from any state on, a task stays out of handlers as long as none is started for it.
  -/

namespace OscKernel.Proc.Homes

open OscKernel.Lib.Memory OscKernel.Lib.Transition
open OscKernel.Thread.Task OscKernel.Thread.Sched OscKernel.User.Signal OscKernel.User.Process
open OscKernel.Proc.System OscKernel.Proc.Step OscKernel.Proc.PerTask
open OscKernel.Proc.Delivery (step)

/-- The task of the slot `i`: a user process has the user stack of its slot, and in a slot of `Q` it
is in no handler. -/
structure Housed (L : Layout) (Q : Slot → Prop) (i : Slot) (t : TaskStruct) : Prop where
  stack : t.isUser = true → t.userStackBase = L.userStackBase i ∧ t.userStackTop = L.userStackTop i
  quiet : Q i → t.handlingSignal = false

section Housed
variable {L : Layout} {Q : Slot → Prop} {C : Sys → Event → Prop} {m : Mem} {es : List Event}
  {s t : Sys}
  {e : Event} {os : List Obs}

theorem housed_inv : TaskInv L (fun _ => True) Q (Housed L Q) where
  same i t t' he h := by
    have hu := proj_of_frozen TaskStruct.isUser (fun _ => rfl) he
    have hb := proj_of_frozen TaskStruct.userStackBase (fun _ => rfl) he
    have ht := proj_of_frozen TaskStruct.userStackTop (fun _ => rfl) he
    have hh := proj_of_frozen TaskStruct.handlingSignal (fun _ => rfl) he
    constructor
    · rw [hu, hb, ht]
      exact h.stack
    · rw [hh]
      exact h.quiet
  reaped _ _ _ := ⟨fun hu => absurd hu Bool.false_ne_true, fun _ => rfl⟩
  thread _ _ _ _ _ h := ⟨h.stack, h.quiet⟩
  process _ _ _ _ _ _ _ _ _ := ⟨fun _ => ⟨rfl, rfl⟩, fun _ => rfl⟩
  child _ _ _ _ _ _ _ _ _ := ⟨fun _ => ⟨rfl, rfl⟩, fun _ => rfl⟩
  exec _ _ _ := ⟨fun _ => ⟨rfl, rfl⟩, fun _ => rfl⟩
  startHandler _ _ _ _ hq h := ⟨h.stack, fun hi => absurd hi hq⟩
  endHandler _ _ h := ⟨h.stack, fun _ => rfl⟩

/-- **User stacks in every run**: those of the slots. -/
theorem housed_of_run (h : Run (step L) C (boot L m) es s) :
    AllTasks (Housed L fun _ => False) s.k := by
  refine run_allTasks housed_inv (fun i => ⟨fun hu => ?_, False.elim⟩) (h.mono fun s e _ => ?_)
  · rw [(boot_task L m i).2.2.1] at hu
    cases hu
  · exact ⟨fun _ _ => trivial, fun _ _ _ _ _ hf => hf.elim⟩

theorem housed_step (h : AllTasks (Housed L Q) s.k) (hs : s.step L e = some (t, os))
    (hq : Quiet Q os) : AllTasks (Housed L Q) t.k :=
  step_allTasks housed_inv h (fun _ _ => trivial) hs hq

/-- **Out of handlers**: as long as no handler is started for them, the tasks in `Q` stay in none. -/
theorem housed_since (h : AllTasks (Housed L Q) s.k)
    (hr : Run (step L) (fun s e => ∀ t os, s.step L e = some (t, os) → Quiet Q os) s es t) :
    AllTasks (Housed L Q) t.k :=
  run_allTasks housed_inv h (hr.mono fun _ _ hq => ⟨fun _ _ => trivial, hq⟩)

end Housed

end OscKernel.Proc.Homes
