import OscKernel.Deferred.Machine
import OscKernel.Initrd.KString

/-! # `setTimeout` of the shell of lab5

The command fills one of sixteen message slots and registers a timer whose argument is a pointer to
the slot; the callback prints the slot and releases it. Between any two steps of the shell or of a
callback interrupts come in, timers expire and tasks run.

* `setTimeoutArgs`: what the shell reads from the line.
* `step`: the machine of the deferred work together with the shell, the slots and the callbacks.
* `Command`, `Print`: what is remembered, to compare what is printed with what was entered. -/

namespace OscKernel.Shell.SetTimeout

open OscKernel.Lib.Memory OscKernel.Lib.NodePool OscKernel.Initrd.KString
open OscKernel.Deferred.Task OscKernel.Deferred.Timer OscKernel.Deferred.Machine

/-! ### The line -/

/-- `is_digit`. -/
def isDigit (c : Byte) : Bool := decide (48 ≤ c ∧ c ≤ 57)

/-- `skip_spaces`. -/
def skipSpaces (s : List Byte) : List Byte := s.dropWhile (· == 32)

/-- `parse_uint`: the number, in an `int` that wraps, and what follows it. -/
def parseUint (s : List Byte) : Option (ℤ × List Byte) :=
  if s.head?.any isDigit then
    some (((s.takeWhile isDigit).foldl (fun value c => value * 10 + (c - 48).setWidth 32)
      (0 : BitVec 32)).toInt, s.dropWhile isDigit)
  else none

/-- The seconds and the message of a line `setTimeout <sec> <msg>`. -/
def setTimeoutArgs (buf : List Byte) : Option (ℤ × List Byte) :=
  if ascii "setTimeout" <+: buf ∧ (∀ c ∈ buf[10]?, c = 32 ∨ c = 9) then
    match parseUint (skipSpaces (buf.drop 10)) with
    | none => none
    | some (sec, p) => if skipSpaces p = [] then none else some (sec, skipSpaces p)
  else none

example : setTimeoutArgs (ascii "setTimeout 5 hi") = some (5, ascii "hi") := by decide

/-! ### The slots -/

/-- `TIMEOUT_MSG_LEN`. -/
def timeoutMsgLen : ℕ := 128

/-- `struct timeout_msg`. -/
structure Slot where
  used : Bool
  createdAt : ℕ
  msg : ℕ → Byte

/-- `timeout_msgs`. -/
abbrev Slots : Type := Fin 16 → Slot

/-- `timeout_msg_alloc`. -/
def timeoutMsgAlloc (m : Slots) : Option (Fin 16 × Slots) :=
  ((List.finRange 16).find? fun i => !(m i).used).map fun i =>
    (i, Function.update m i { m i with used := true })

/-- `timeout_msg_free`. -/
def timeoutMsgFree (m : Slots) (i : Fin 16) : Slots :=
  Function.update m i { m i with used := false }

/-- A round of the loop of `copy_str_limit` at the position `k`: the loop goes on, or the null is
written. -/
def copyStrLimit (dst : ℕ → Byte) (src : List Byte) (maxLen k : ℕ) : (ℕ → Byte) × Bool :=
  match src[k]? with
  | some c =>
    if k < maxLen - 1 then (Function.update dst k c, true) else (Function.update dst k 0, false)
  | none => (Function.update dst k 0, false)

/-- `timer_get_boot_time`. -/
def timerGetBootTime (bootTimeBase now : ℕ) : ℕ :=
  (now % 2 ^ 64 + (2 ^ 64 - bootTimeBase % 2 ^ 64)) % 2 ^ 64 / timerFreq

/-! ### The machine -/

/-- Where the linker has put `set_timeout_callback` and `timeout_msgs`. -/
structure Symbols where
  setTimeoutCallback : ℕ
  timeoutMsgs : ℕ
  nonnull : setTimeoutCallback ≠ 0

/-- The address of a slot. -/
def Symbols.slotAddr (y : Symbols) (i : Fin 16) : ℕ := y.timeoutMsgs + 144 * i

/-- The slot at an address. -/
def Symbols.slotAt (y : Symbols) (arg : ℕ) : Option (Fin 16) :=
  (List.finRange 16).find? fun i => y.slotAddr i == arg

/-- The creation time that a command has stored, and its message. -/
structure Command where
  createdAt : ℕ
  text : List Byte
  deriving DecidableEq

/-- Where the shell stands in a `setTimeout` command. -/
inductive ShellState
  | idle
  /-- the slot is taken -/
  | created (i : Fin 16) (text : List Byte) (sec : ℤ)
  /-- in `copy_str_limit` -/
  | copying (i : Fin 16) (k : ℕ) (c : Command) (sec : ℤ)
  /-- before `add_timer` -/
  | adding (i : Fin 16) (c : Command) (sec : ℤ)
  /-- after `add_timer` has returned -1 -/
  | failed (i : Fin 16)

/-- Where an activation of `set_timeout_callback` stands, with what it has printed of the message. -/
inductive Phase
  | start
  | message (createdAt : ℕ) (text : List Byte)
  | release
  | returned
  deriving DecidableEq

/-- An activation of `set_timeout_callback`, and the command that registered it. -/
structure Call where
  arg : ℕ
  phase : Phase
  cmd : Command

/-- What a callback has printed, and the command that registered it. -/
structure Print where
  cmd : Command
  createdAt : ℕ
  text : List Byte
  deriving DecidableEq

/-- The deferred work, `boot_time_base`, `timeout_msgs`, the shell, and the activations of
`set_timeout_callback`, the innermost first. The command of an event goes with the node that holds it,
from the timers to the tasks and from there to the activation. -/
structure System where
  kernel : State
  bootTimeBase : ℕ
  slots : Slots
  shell : ShellState
  calls : List Call
  timerCmd : Fin 32 → Command
  taskCmd : Fin 64 → Command
  printed : List Print

inductive Turn
  /-- a line is entered -/
  | command (buf : List Byte)
  /-- the shell takes its next step in a `setTimeout` command -/
  | shell
  /-- the innermost callback, which is `set_timeout_callback`, takes its next step -/
  | callback
  /-- an event of the rest of the kernel -/
  | kernel (e : Event)

/-- The callback that an event registers. -/
def registers : Event → Option ℕ
  | .addTask callback _ _ => some callback
  | .addTimer callback _ _ => some callback
  | _ => none

variable (y : Symbols)

/-- A line is entered: the shell has read at most 127 characters and put a null behind them. -/
def commandStep (s : System) (buf : List Byte) : Option System :=
  match s.shell with
  | .idle =>
    if buf.length < 128 ∧ (0 : Byte) ∉ buf then
      match setTimeoutArgs buf with
      | none => some s
      | some (sec, text) =>
        match timeoutMsgAlloc s.slots with
        | none => some s
        | some (i, m) => some { s with slots := m, shell := .created i text sec }
    else none
  | _ => none

def shellStep (s : System) : Option System :=
  match s.shell with
  | .idle => none
  | .created i text sec =>
    let now := timerGetBootTime s.bootTimeBase s.kernel.clock
    some { s with
      slots := Function.update s.slots i { s.slots i with createdAt := now }
      shell := .copying i 0 ⟨now, text⟩ sec }
  | .copying i k c sec =>
    let r := copyStrLimit (s.slots i).msg c.text timeoutMsgLen k
    some { s with
      slots := Function.update s.slots i { s.slots i with msg := r.1 }
      shell := if r.2 then .copying i (k + 1) c sec else .adding i c sec }
  | .adding i c sec =>
    (Deferred.Machine.step s.kernel (.addTimer y.setTimeoutCallback (y.slotAddr i) sec)).map fun
      | (t, .timerAdded n _ _ _) =>
        { s with kernel := t, shell := .idle, timerCmd := Function.update s.timerCmd n c }
      | (t, _) => { s with kernel := t, shell := .failed i }
  | .failed i => some { s with slots := timeoutMsgFree s.slots i, shell := .idle }

/-- The next step of an activation of `set_timeout_callback`; the others are `cs`. -/
def Call.next (s : System) (c : Call) (cs : List Call) : Option System :=
  match c.phase with
  | .start => (y.slotAt c.arg).map fun i =>
    { s with calls := { c with phase := .message (s.slots i).createdAt [] } :: cs }
  | .message t text => (y.slotAt c.arg).map fun i =>
    if (s.slots i).msg text.length = 0 then
      { s with
        calls := { c with phase := .release } :: cs
        printed := s.printed ++ [⟨c.cmd, t, text⟩] }
    else
      { s with calls := { c with phase := .message t (text ++ [(s.slots i).msg text.length]) } :: cs }
  | .release => (y.slotAt c.arg).map fun i =>
    { s with calls := { c with phase := .returned } :: cs, slots := timeoutMsgFree s.slots i }
  | .returned => none

/-- The callback of the innermost frame is `set_timeout_callback`. -/
def innermost (s : System) : Prop :=
  (s.kernel.frames.head?.bind Frame.call).map Prod.fst = some y.setTimeoutCallback

instance (s : System) : Decidable (innermost y s) := by unfold innermost; infer_instance

def callbackStep (s : System) : Option System :=
  match s.calls with
  | [] => none
  | c :: cs => if innermost y s then c.next y s cs else none

/-- A callback is called. -/
def enter (callback arg : ℕ) (c : Command) (calls : List Call) : List Call :=
  if callback = y.setTimeoutCallback then ⟨arg, .start, c⟩ :: calls else calls

/-- What is handed over in a step of the kernel. -/
def handOver (s : System) (t : State) : Output → System
  | .dispatched n callback arg none =>
    { s with kernel := t, calls := enter y callback arg (s.timerCmd n) s.calls }
  | .dispatched n _ _ (some m) =>
    { s with kernel := t, taskCmd := Function.update s.taskCmd m (s.timerCmd n) }
  | .started n e => { s with kernel := t, calls := enter y e.callback e.arg (s.taskCmd n) s.calls }
  | _ => { s with kernel := t }

/-- A callback returns; `set_timeout_callback` does so at its end. -/
def returnStep (s : System) : Option System :=
  if innermost y s then
    match s.calls with
    | ⟨_, .returned, _⟩ :: cs =>
      (Deferred.Machine.step s.kernel .done).map fun (t, _) => { s with kernel := t, calls := cs }
    | _ => none
  else (Deferred.Machine.step s.kernel .done).map fun (t, _) => { s with kernel := t }

/-- A step of the rest of the kernel, which never registers `set_timeout_callback`, a static function
of the shell. -/
def kernelStep (s : System) (e : Event) : Option System :=
  if registers e = some y.setTimeoutCallback then none
  else if e = .done then returnStep y s
  else (Deferred.Machine.step s.kernel e).map fun (t, o) => handOver y s t o

def step (s : System) : Turn → Option System
  | .command buf => commandStep s buf
  | .shell => shellStep y s
  | .callback => callbackStep y s
  | .kernel e => kernelStep y s e

/-- After `task_init` and `timer_init`, at the time `now`. -/
def boot (t : State) (now : ℕ) : System where
  kernel := Deferred.Machine.init t now
  bootTimeBase := now
  slots _ := ⟨false, 0, fun _ => 0⟩
  shell := .idle
  calls := []
  timerCmd _ := ⟨0, []⟩
  taskCmd _ := ⟨0, []⟩
  printed := []

end OscKernel.Shell.SetTimeout
