import OscKernel.Proc.Loading
import OscKernel.Proc.Waits

/-! # Starts of programs that fail

`user_exec_current` looks at everything that can fail before it changes anything.
`user_process_create_from_file` loads the program before it looks for a slot.

* `userLoadImage_idle_iff`: when a load leaves the memory as it is.
* `threadCreate_full_iff`: when there is no slot.
* `userExecCurrent_fails`, `fromFile_fails_iff`: what is left after a failure.
* `failed_start_iff`: the failures in every run. -/

namespace OscKernel.Proc.FailedStart

open OscKernel.Lib.Memory OscKernel.Lib.Riscv OscKernel.Lib.Transition
open OscKernel.Thread.Task OscKernel.Thread.RunQueue OscKernel.Thread.Sched OscKernel.Thread.Effect
open OscKernel.User.Signal OscKernel.User.Process
open OscKernel.Proc.Ops OscKernel.Proc.System OscKernel.Proc.Step
open OscKernel.Proc.Homes OscKernel.Proc.Images OscKernel.Proc.Sound OscKernel.Proc.Copy
open OscKernel.Proc.Loading
open OscKernel.Proc.Delivery (step)
open OscKernel.Proc.Waits (atCode eq_of_atCode)

/-! ### Loads that change nothing -/

/-- The load region holds the file as the loader leaves it there. -/
structure HoldsImage (m : Mem) (data : List Byte) : Prop where
  trampoline : Placed m userSigtrampBase trampolineCode
  file : ∀ o (ho : o < data.length), ¬ Within userSigtrampBase trampolineCode.length
    (userProgBase + BitVec.ofNat 64 o) → m (userProgBase + BitVec.ofNat 64 o) = data[o]
  rest : ∀ b, InLoadRegion b → ¬ Within userProgBase data.length b →
    ¬ Within userSigtrampBase trampolineCode.length b → m b = 0

section Load
variable {m : Mem} {data : List Byte} {a b : Word} {n : ℕ}

theorem exists_offset (h : Within a n b) : ∃ i < n, b = a + BitVec.ofNat 64 i :=
  ⟨_, h, by bv_omega⟩

theorem userLoadImage_holds (h0 : data ≠ []) (hl : data.length ≤ userProgMaxSize) :
    HoldsImage (userLoadImage m (some data)).1 data :=
  ⟨userLoadImage_trampoline h0 hl, fun _ ho ht => userLoadImage_file h0 hl ho ht,
    fun _ hb hd ht => userLoadImage_rest h0 hl hb hd ht⟩

theorem HoldsImage.unique {m' : Mem} (h : HoldsImage m data) (h' : HoldsImage m' data)
    (hb : InLoadRegion b) : m b = m' b := by
  by_cases ht : Within userSigtrampBase trampolineCode.length b
  · obtain ⟨i, hi, rfl⟩ := exists_offset ht
    exact (h.trampoline i hi).trans (h'.trampoline i hi).symm
  by_cases hd : Within userProgBase data.length b
  · obtain ⟨o, ho, rfl⟩ := exists_offset hd
    rw [h.file o ho ht, h'.file o ho ht]
  · rw [h.rest b hb hd ht, h'.rest b hb hd ht]

/-- **A load changes nothing** exactly if the region holds the file already. -/
theorem userLoadImage_idle_iff (h0 : data ≠ []) (hl : data.length ≤ userProgMaxSize) :
    (userLoadImage m (some data)).1 = m ↔ HoldsImage m data := by
  have hload := userLoadImage_holds (m := m) h0 hl
  constructor
  · intro he
    rwa [he] at hload
  · intro h
    funext b
    by_cases hb : InLoadRegion b
    · exact hload.unique h hb
    · rcases userLoadImage_cases m (some data) with ⟨-, he⟩ | ⟨-, m', he, hout⟩
      · rw [he]
      · rw [he]
        exact hout b hb

end Load

/-! ### No free slot -/

/-- Every slot has a task that `kill_zombies` does not clear. -/
def Full (k : Kernel) : Prop := ∀ i, k.state i ≠ .unused ∧ ¬ unclaimed k i

section Kernel
variable {L : Layout} {k k' : Kernel} {file : Option (List Byte)} {sstatus fn entry : Word}
  {tf tf' : TrapFrame} {r : Option Slot}

theorem killZombies_unused_iff (h : SoundTable k) (i : Slot) :
    (killZombies k).state i = .unused ↔ k.state i = .unused ∨ unclaimed k i := by
  have h0 : unclaimed k i → i ≠ 0 := by
    rintro ⟨hz, -⟩ rfl
    exact (isRunnable_iff.1 h.idle).2 hz
  rw [Kernel.state, killZombies_tasks h.idleTask]
  split_ifs with hz
  · exact iff_of_true rfl (.inr hz.2)
  · refine ⟨.inl, ?_⟩
    rintro (hu | hu)
    · exact hu
    · exact absurd ⟨h0 hu, hu⟩ hz

/-- **`thread_create` fails** exactly if there is no slot. -/
theorem threadCreate_full_iff (h : SoundTable k) :
    threadCreate L fn k = some (k', none) ↔ Full k ∧ k' = killZombies k := by
  have hfull : (List.finRange 16).find? (fun i => (killZombies k).state i = .unused) = none ↔
      Full k := by
    rw [List.find?_eq_none]
    refine forall_congr' fun i => ?_
    rw [decide_eq_true_eq, killZombies_unused_iff h, not_or]
    exact ⟨fun hi => hi (List.mem_finRange i), fun hi _ => hi⟩
  constructor
  · intro hk
    refine ⟨?_, threadCreate_full hk⟩
    rcases threadCreate_cases hk with ⟨-, -, hu⟩ | ⟨i, hi, -⟩
    · exact hfull.1 (List.find?_eq_none.2 fun i _ => by simpa using hu i)
    · cases hi
  · rintro ⟨hf, rfl⟩
    unfold threadCreate allocTask
    rw [hfull.2 hf]

theorem userProcessCreate_full_iff (h : SoundTable k) :
    userProcessCreate L entry sstatus k = some (k', none) ↔ Full k ∧ k' = killZombies k := by
  have ht : threadCreate L L.userProcessEntry k = some (k', none) ↔ Full k ∧ k' = killZombies k :=
    threadCreate_full_iff h
  rw [← ht]
  unfold userProcessCreate
  rcases threadCreate L L.userProcessEntry k with _ | ⟨k1, _ | j⟩
  · simp
  · simp
  · simp

/-- **`user_exec_current`** fails before it has changed anything. -/
theorem userExecCurrent_fails (hk : userExecCurrent L file sstatus k tf = (k', tf', -1)) :
    k' = k ∧ tf' = tf := by
  unfold userExecCurrent at hk
  split at hk
  · simp only [Prod.mk.injEq] at hk
    exact ⟨hk.1.symm, hk.2.1.symm⟩
  · split_ifs at hk
    · simp only [Prod.mk.injEq] at hk
      exact ⟨hk.1.symm, hk.2.1.symm⟩
    · rcases userLoadImage_cases k.mem file with ⟨-, he⟩ | ⟨-, m', he, -⟩
      · rw [he] at hk
        simp only [Prod.mk.injEq] at hk
        exact ⟨hk.1.symm, hk.2.1.symm⟩
      · rw [he] at hk
        simp at hk

/-- **`user_process_create_from_file`** fails on a file that cannot be loaded, or for want of a slot,
and then the program has been loaded. -/
theorem fromFile_fails_iff (h : SoundTable k) :
    userProcessCreateFromFile L file sstatus k = some (k', none) ↔
      ¬ Loadable file ∧ k' = k ∨
        Loadable file ∧ Full k ∧ k' = killZombies { k with mem := (userLoadImage k.mem file).1 } := by
  unfold userProcessCreateFromFile
  rcases userLoadImage_cases k.mem file with ⟨hl, he⟩ | ⟨hl, m', he, -⟩
  · rw [he]
    simp only [hl, not_false_eq_true, true_and, false_and, or_false, Option.some.injEq, Prod.mk.injEq,
      and_true]
    exact eq_comm
  · rw [he]
    simp only [hl, not_true, false_and, false_or, true_and]
    exact userProcessCreate_full_iff (h.setMem m')

/-! ### What a failure leaves -/

/-- A start of the program that fails changes nothing, but that dead zombies are reaped. -/
structure FailsCleanly (L : Layout) (file : Option (List Byte)) (sstatus : Word) (k : Kernel) :
    Prop where
  exec : ∀ tf k' tf', userExecCurrent L file sstatus k tf = (k', tf', -1) → k' = k ∧ tf' = tf
  create : ∀ k', userProcessCreateFromFile L file sstatus k = some (k', none) → OnlyReaped k k'

theorem failsCleanly_iff (h : SoundTable k) : FailsCleanly L file sstatus k ↔
    ∀ data, file = some data → data ≠ [] → data.length ≤ userProgMaxSize → Full k →
      HoldsImage k.mem data := by
  constructor
  · rintro hc data rfl h0 hl hf
    have hload : Loadable (some data) :=
      ⟨data, rfl, fun hn => h0 (List.eq_nil_of_length_eq_zero hn), hl⟩
    have hr := hc.create _ ((fromFile_fails_iff h).2 (.inr ⟨hload, hf, rfl⟩))
    have hm := hr.memory
    rw [killZombies_mem] at hm
    exact (userLoadImage_idle_iff h0 hl).1 hm
  · intro hh
    refine ⟨fun _ _ _ => userExecCurrent_fails, fun k' hk => ?_⟩
    rcases (fromFile_fails_iff h).1 hk with ⟨-, rfl⟩ | ⟨⟨data, rfl, hn, hl⟩, hf, rfl⟩
    · exact .refl _
    · have h0 : data ≠ [] := fun he => hn (by rw [he]; rfl)
      rw [(userLoadImage_idle_iff h0 hl).2 (hh data rfl h0 hl hf)]
      exact onlyReaped_killZombies h

end Kernel

/-! ### Every run -/

section Run
variable {L : Layout} {m : Mem} {es : List Event} {s : Sys}

/-- **Failed starts**, in every state of every run and whatever is in memory: a start that fails
leaves everything as it is, unless the file could be loaded and no slot was free; then the load region
holds the program. -/
theorem failed_start_iff (h : Run (step L) (fun _ _ => True) (boot L m) es s) (mem : Mem)
    (file : Option (List Byte)) (sstatus : Word) (tp : Option Slot) :
    FailsCleanly L file sstatus { s.k.setTp tp with mem := mem } ↔
      ∀ data, file = some data → data ≠ [] → data.length ≤ userProgMaxSize → Full s.k →
        HoldsImage mem data :=
  failsCleanly_iff (((sound_inv L).setTp _ _ (sound_of_run h)).setMem mem)

/-- A program is running, and there are free slots. -/
theorem failed_start_startRun : ∃ s, Run (step sampleLayout) (fun _ _ => True)
    (boot sampleLayout fun _ => 0) startRun s ∧ s.k.state 1 = .running ∧
      FailsCleanly sampleLayout (some [0x14]) 0
        { s.k.setTp (some 1) with mem := fun b => b.setWidth 8 } := by
  have hex : ((exec (step sampleLayout) (fun _ _ => true) (boot sampleLayout fun _ => 0)
      startRun).map fun s => (s.k.state 1, s.k.state 2)) = some (.running, .unused) := by
    decide +kernel
  obtain ⟨s, hr, hv⟩ := Run.exists_of_exec (C := fun _ _ => True) (fun _ _ _ => trivial) hex
  obtain ⟨h1, h2⟩ := Prod.mk.inj hv
  exact ⟨s, hr, h1, (failed_start_iff hr _ _ _ _).2 fun _ _ _ _ hf => absurd h2 (hf 2).1⟩

/-! ### All slots are taken -/

/-- A program forks fourteen times and exits, one of its children forks once more, and then every
process gets the processor until it is the turn of the shell. -/
def fullRun : List Event :=
  startRun ++ List.replicate 14 (callOf sampleLayout 1 4 0) ++
    [callOf sampleLayout 1 6 0, .go true, .schedule, .go true, .go true, callOf sampleLayout 2 4 0,
      timerOf sampleLayout 2, .go true] ++
    [3, 4, 5, 6, 7, 8, 9, 10, 11, 12, 13, 14, 15, 1].flatMap fun i =>
      [.go true, timerOf sampleLayout i, .go true]

theorem fullRun_ends : ∃ s, Run (step sampleLayout) (fun _ _ => True)
    (boot sampleLayout fun _ => 0) fullRun s ∧ s.place = .kernel .code ∧ Full s.k := by
  have hex : ((exec (step sampleLayout) (fun _ _ => true) (boot sampleLayout fun _ => 0)
      fullRun).map fun s => (atCode s.place,
        decide (∀ i, isRunnable s.k i))) = some (true, true) := by decide +kernel
  obtain ⟨s, hr, hv⟩ := Run.exists_of_exec (C := fun _ _ => True) (fun _ _ _ => trivial) hex
  obtain ⟨hp, hall⟩ := Prod.mk.inj hv
  refine ⟨s, hr, eq_of_atCode hp, fun i => ?_⟩
  obtain ⟨hu, hz⟩ := isRunnable_iff.1 (of_decide_eq_true hall i)
  exact ⟨hu, fun h => hz h.1⟩

/-- **The shell starts a program while all slots are taken**: the start fails, and the first byte of
the program that all the processes run is another one. -/
theorem not_clean_full : ∃ s x k', Run (step sampleLayout) (fun _ _ => True)
    (boot sampleLayout fun _ => 0) fullRun s ∧ s.place = .kernel .code ∧
      userProcessCreateFromFile sampleLayout (some [x]) 0 s.k = some (k', none) ∧
      ¬ OnlyReaped s.k k' := by
  obtain ⟨s, hr, hp, hf⟩ := fullRun_ends
  set x : Byte := s.k.mem userProgBase + 1 with hx
  have hl : Loadable (some [x]) := ⟨[x], rfl, by simp, by simp [userProgMaxSize]⟩
  refine ⟨s, x, _, hr, hp, (fromFile_fails_iff (sound_of_run hr)).2 (.inr ⟨hl, hf, rfl⟩), fun h => ?_⟩
  have hm := congrFun h.memory userProgBase
  rw [killZombies_mem] at hm
  dsimp only at hm
  rw [userLoadImage_first] at hm
  have hne : ∀ y : Byte, y + 1 ≠ y := by decide
  exact hne _ hm

end Run

end OscKernel.Proc.FailedStart
