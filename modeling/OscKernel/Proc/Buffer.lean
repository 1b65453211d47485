import OscKernel.Proc.Step

/-! # A buffer in the task table

`sys_uart_read` does not ask where its buffer lies: it may lie in a task.

* `storeTask`: a byte of a task is written.
* `bufferStep`: the steps of the system where the buffer of `uart_read` may lie in a task;
  `bufferStep_of_userMem`: a buffer in the memory of user code gives the steps of the system. -/

namespace OscKernel.Proc.Buffer

open OscKernel.Lib.Memory OscKernel.Lib.Riscv
open OscKernel.Thread.Task OscKernel.Thread.Sched OscKernel.User.Signal OscKernel.User.Process
open OscKernel.Proc.Ops OscKernel.Proc.System

/-- `offsetof(struct task_struct, signal_handlers)`. -/
def handlersOffset : ℕ := 464

/-- `offsetof(struct task_struct, pending_signals)`. -/
def pendingOffset : ℕ := 720

/-- `offsetof(struct task_struct, signal_saved_tf)`, where `ra` stands. -/
def savedOffset : ℕ := 736

/-- The byte `i` of a word is written. -/
def setByte (w : Word) (i : ℕ) (v : Byte) : Word :=
  (w &&& ~~~ ((0xFF : Word) <<< (8 * i))) ||| (v.setWidth 64 <<< (8 * i))

/-- The byte at an offset of a task is written, in the handlers, in the pending signals or in the saved
`ra`. -/
def storeTask (off : ℕ) (v : Byte) (t : TaskStruct) : Option TaskStruct :=
  if handlersOffset ≤ off ∧ off < pendingOffset then
    some { t with signalHandlers := fun sig =>
      if sig.val = (off - handlersOffset) / 8 then setByte (t.signalHandlers sig) (off % 8) v
      else t.signalHandlers sig }
  else if pendingOffset ≤ off ∧ off < pendingOffset + 8 then
    some { t with pendingSignals := setByte t.pendingSignals (off % 8) v }
  else if savedOffset ≤ off ∧ off < savedOffset + 8 then
    let ra := setByte (t.signalSavedTf.reg .ra) (off % 8) v
    some { t with signalSavedTf := t.signalSavedTf.setReg .ra ra }
  else none

/-- A byte of `tasks` is written. -/
def storeTable (L : Layout) (k : Kernel) (a : Word) (v : Byte) : Option Kernel :=
  let off := (a - L.tasks).toNat
  if h : off / taskSize < 16 then
    (storeTask (off % taskSize) v (k.tasks ⟨off / taskSize, h⟩)).map fun t =>
      k.modify ⟨off / taskSize, h⟩ fun _ => t
  else none

/-- One step. The buffer of `uart_read` may lie in a task. -/
def bufferStep (L : Layout) (s : Sys) (e : Event) : Option (Sys × List Obs) :=
  match s.place, e with
  | .kernel (.read tf i), .getc c =>
    let a := tf.reg .a0 + BitVec.ofNat 64 i
    if UserMem L a then s.step L e
    else
      match storeTable L s.k a c with
      | none => none
      | some k =>
        if i + 1 = (tf.reg .a1).toNat then s.afterSyscall L k tf tf (tf.reg .a1)
        else s.goto k (.kernel (.read tf (i + 1)))
  | _, _ => s.step L e

/-- **The steps of the system** are those where the buffer is memory of user code. -/
theorem bufferStep_of_userMem {L : Layout} {s : Sys} {e : Event}
    (h : ∀ tf i, s.place = .kernel (.read tf i) → UserMem L (tf.reg .a0 + BitVec.ofNat 64 i)) :
    bufferStep L s e = s.step L e := by
  unfold bufferStep
  split
  · rename_i tf i c hp
    exact if_pos (h tf i hp)
  · rfl

/-- The steps, without what they let be seen. -/
def bufferSys (L : Layout) (s : Sys) (e : Event) : Option Sys := (bufferStep L s e).map Prod.fst

/-- A process reads characters into the task of the slot `i`. -/
def readInto (L : Layout) (p i : Slot) (off : ℕ) (cs : List Byte) : List Event :=
  callOf L p 1 (L.taskAddr i + BitVec.ofNat 64 off) (BitVec.ofNat 64 cs.length) :: cs.map .getc

end OscKernel.Proc.Buffer
