import OscKernel.Proc.Contexts
import OscKernel.Lib.Transition

/-! # `sstatus.SIE` across `schedule`

`switch_to` does not save `sstatus`: a thread gets back from `schedule` with the `SIE` of the thread
that has given the processor to it. The kernel runs with interrupts masked in a trap from user mode,
and in a thread that was started with interrupts masked.

* `returnsOk_iff`: in one step `schedule` returns with the `SIE` of its call exactly if the processor
  stays among threads that are masked alike.
* `returnsOk_of_run`: the returns of a whole run. -/

namespace OscKernel.Proc.Interrupts

open OscKernel.Lib.Memory OscKernel.Lib.Riscv OscKernel.Lib.Transition
open OscKernel.Thread.Task OscKernel.Thread.Sched OscKernel.Thread.Effect
open OscKernel.Proc.Ops OscKernel.Proc.System OscKernel.Proc.Step OscKernel.Proc.Contexts

/-- What has happened: `SIE` when the thread on the processor was started; for every saved context
`SIE` at the call of `schedule`, and when its thread was started; and for every return of `schedule`
the `SIE` of the call and of the return. -/
structure SieHist where
  own : Bool
  saved : Slot → Bool × Bool
  returns : List (Bool × Bool)

/-- A thread comes back from `schedule` at this place after a `switch_to`. -/
def Place.returns : Place → Bool
  | .kernel .fresh | .kernel .dead => false
  | _ => true

/-- The history after a step. -/
def SieHist.update (h : SieHist) (s : Sys) (os : List Obs) (t : Sys) : SieHist :=
  match switchOf os with
  | some (prev, next) =>
    let saved := Function.update h.saved prev (s.sie, h.own)
    { own := match t.place with
        | .kernel .fresh => t.sie
        | _ => (saved next).2
      saved
      returns := if Place.returns t.place then h.returns ++ [((saved next).1, t.sie)] else h.returns }
  | none =>
    match s.place with
    | .calls _ => { h with returns := h.returns ++ [(s.sie, t.sie)] }
    | _ => h

/-- The system with the history of `SIE`. -/
def step (L : Layout) : Sys × SieHist → Event → Option (Sys × SieHist) :=
  withHistory (Sys.step L) SieHist.update

/-- The start: the shell runs with interrupts enabled. -/
def start (L : Layout) (m : Mem) : Sys × SieHist := (boot L m, ⟨true, fun _ => (true, true), []⟩)

/-- **Every call of `schedule` has returned with the `SIE` it was called with.** -/
def ReturnsOk (h : SieHist) : Prop := ∀ p ∈ h.returns, p.1 = p.2

/-- Interrupts are masked in a trap from user mode, and in a thread that was started so. -/
def masked (trapped own : Bool) : Bool := trapped || !own

/-- If the step gives the processor back to another thread, then that thread is masked like the one
that gives it away. -/
def KeepsKind (s : Sys) (h : SieHist) (os : List Obs) (t : Sys) : Prop :=
  ∀ prev next, switchOf os = some (prev, next) → next ≠ prev → Place.returns t.place = true →
    masked (Place.trapped t.place) (h.saved next).2 = masked (Place.trapped s.place) h.own

/-- The condition on a step. -/
def Condition (L : Layout) (s : Sys × SieHist) (e : Event) : Prop :=
  ∀ t os, s.1.step L e = some (t, os) → KeepsKind s.1 s.2 os t

/-- The invariant. -/
structure SieInv (s : Sys) (h : SieHist) : Prop where
  kernel : ∀ a, s.place = .kernel a → a ≠ .dead → s.sie = !masked a.inTrap h.own
  calls : ∀ a, s.place = .calls a → s.sie = !masked a.inTrap h.own
  saved : ∀ i o a, (s.k.tasks i).context = .saved o a → a ≠ .dead →
    (h.saved i).1 = !masked a.inTrap (h.saved i).2
  returns : ReturnsOk h

section Step
variable {L : Layout} {s t : Sys} {h : SieHist} {e : Event} {os : List Obs}

theorem ne_dead (hs : s.step L e = some (t, os)) : s.place ≠ .kernel .dead := by
  intro hp
  unfold Sys.step at hs
  rw [hp] at hs
  cases e <;> cases hs

theorem calls_kernel {b : Act} (hp : s.place = .calls b) (hs : s.step L e = some (t, os)) :
    ∃ a, t.place = .kernel a := by
  unfold Sys.step at hs
  rw [hp] at hs
  cases e with
  | go ready =>
    dsimp only at hs
    unfold Sys.callSchedule Sys.goto Sys.switch at hs
    split at hs
    · cases hs
    · rw [Option.some.injEq, Prod.mk.injEq] at hs
      exact ⟨b, hs.1 ▸ rfl⟩
    · obtain ⟨⟨k, me, a⟩, -, h2⟩ := Option.map_eq_some_iff.1 hs
      rw [Prod.mk.injEq] at h2
      exact ⟨a, h2.1 ▸ rfl⟩
  | _ => cases hs

theorem SieInv.kernelSie (hi : SieInv s h) (hd : s.place ≠ .kernel .dead) :
    kernelSie s = !masked (Place.trapped s.place) h.own := by
  unfold Contexts.kernelSie
  split
  · rename_i hp
    rw [hp]
    rfl
  · rcases hp : s.place with a | a | tf
    · exact hi.kernel a hp fun ha => hd (ha ▸ hp)
    · exact hi.calls a hp
    · rename_i hu
      exact absurd hp (hu tf)

theorem ReturnsOk.append {p : Bool × Bool} {r : List (Bool × Bool)} (hr : ∀ q ∈ r, q.1 = q.2) :
    (∀ q ∈ r ++ [p], q.1 = q.2) ↔ p.1 = p.2 := by
  constructor
  · exact fun h => h p (by simp)
  · intro hp q hq
    rcases List.mem_append.1 hq with hq | hq
    · exact hr q hq
    · rw [List.mem_singleton.1 hq]
      exact hp

theorem returns_kernel {a : Act} : Place.returns (.kernel a) = true ↔ a ≠ .fresh ∧ a ≠ .dead := by
  cases a <;> simp [Place.returns]

/-! ### A `switch_to` -/

section Switch
variable {k : Kernel} {prev next : Slot} {act a : Act}
  (hk : ContextFates (entries L e) s.k k) (hsw : switchTo L k prev next s.me act = some (t.k, t.me, a))
  (ha : act = .dead ∨ s.place = .calls act)
include hk hsw ha

theorem saved_switch (hi : SieInv s h) (i o : Slot) (b : Act)
    (hc : (t.k.tasks i).context = .saved o b) (hb : b ≠ .dead) :
    (Function.update h.saved prev (s.sie, h.own) i).1 =
      !masked b.inTrap (Function.update h.saved prev (s.sie, h.own) i).2 := by
  rw [(switchTo_cases hsw).1, Kernel.setTp_tasks] at hc
  rcases eq_or_ne i prev with rfl | hip
  · rw [k.setContext_same, CpuContext.saved.injEq] at hc
    rw [Function.update_self]
    exact hi.calls b (hc.2 ▸ ha.resolve_left fun hd => hb (hc.2.symm.trans hd))
  · rw [k.setContext_of_ne prev _ hip] at hc
    rw [Function.update_of_ne hip]
    exact hi.saved i o b (hk.saved hc) hb

omit hk ha in
theorem resumed_context (hf : a ≠ .fresh) : (t.k.tasks next).context = .saved t.me a := by
  rcases (switchTo_cases hsw).2 with ⟨hr, -⟩ | hc
  · exact absurd (Prod.mk.inj hr).2 hf
  · exact hc

omit hk in
theorem keepsKind_iff (ho : switchOf os = some (prev, next)) (hp : t.place = .kernel a)
    (hf : a ≠ .fresh) (hd : a ≠ .dead) :
    KeepsKind s h os t ↔
      masked a.inTrap (Function.update h.saved prev (s.sie, h.own) next).2 =
        masked (Place.trapped s.place) h.own := by
  unfold KeepsKind
  simp only [ho, Option.some.injEq, Prod.mk.injEq, hp, returns_kernel, Place.trapped]
  constructor
  · intro hkk
    rcases eq_or_ne next prev with rfl | hne
    · -- the thread has switched to its own context
      have hc := resumed_context hsw hf
      rw [(switchTo_cases hsw).1, Kernel.setTp_tasks, k.setContext_same, CpuContext.saved.injEq] at hc
      obtain ⟨-, rfl⟩ := hc
      rw [Function.update_self, ha.resolve_left hd]
    · rw [Function.update_of_ne hne]
      exact hkk prev next ⟨rfl, rfl⟩ hne ⟨hf, hd⟩
  · rintro hm p n ⟨rfl, rfl⟩ hne -
    rwa [Function.update_of_ne hne] at hm

end Switch

/-- **In one step** `schedule` returns with the `SIE` of its call if and only if the processor stays
among threads that are masked alike. -/
theorem returnsOk_iff (hi : SieInv s h) (hst : s.step L e = some (t, os)) :
    ReturnsOk (h.update s os t) ↔ KeepsKind s h os t := by
  have hsie := hi.kernelSie (ne_dead hst)
  rcases step_turn hst with ⟨-, -, ho, hp⟩ | ⟨k, prev, next, act, a, hk, hsw, ho, hp, ht, ha⟩
  · refine iff_of_true ?_ fun p n hs => by rw [ho] at hs; cases hs
    unfold SieHist.update
    rw [ho]
    dsimp only
    split
    · rename_i b hb
      refine (ReturnsOk.append hi.returns).2 ?_
      rcases hp with ⟨tf, hu⟩ | ⟨-, ht⟩
      · obtain ⟨a, ha⟩ := calls_kernel hb hst
        rw [hu] at ha
        cases ha
      · rw [ht, Contexts.kernelSie, hb]
    · exact hi.returns
  · unfold SieHist.update ReturnsOk
    rw [ho]
    dsimp only
    rw [hp]
    by_cases hr : a ≠ .fresh ∧ a ≠ .dead
    · rw [if_pos (returns_kernel.2 hr), ReturnsOk.append hi.returns,
        keepsKind_iff hsw ha ho hp hr.1 hr.2, ht, hsie,
        saved_switch hk hsw ha hi next t.me a (resumed_context hsw hr.1) hr.2,
        Bool.not_inj_iff]
    · rw [if_neg (mt returns_kernel.1 hr)]
      refine iff_of_true hi.returns fun p n hs hne hrt => ?_
      rw [hp] at hrt
      exact absurd (returns_kernel.1 hrt) hr

/-- **One step** that meets the condition keeps the invariant. -/
theorem sieInv_step (hi : SieInv s h) (hst : s.step L e = some (t, os))
    (hkk : KeepsKind s h os t) : SieInv t (h.update s os t) := by
  have hsie := hi.kernelSie (ne_dead hst)
  have hret := (returnsOk_iff hi hst).2 hkk
  rcases step_turn hst with ⟨hk, -, ho, hp⟩ | ⟨k, prev, next, act, a, hk, hsw, ho, hp, ht, ha⟩
  · have hown : (h.update s os t).own = h.own ∧ (h.update s os t).saved = h.saved := by
      unfold SieHist.update
      rw [ho]
      dsimp only
      split <;> exact ⟨rfl, rfl⟩
    have hplace : ∀ b, (t.place = .kernel b ∨ t.place = .calls b) → t.sie = !masked b.inTrap h.own := by
      intro b hb
      rcases hp with ⟨tf, hu⟩ | ⟨htr, ht⟩
      · rw [hu] at hb
        rcases hb with hb | hb <;> cases hb
      · rw [ht, hsie, ← htr]
        rcases hb with hb | hb <;> rw [hb, Place.trapped]
    refine ⟨fun b hb _ => ?_, fun b hb => ?_, fun i o b hc hb => ?_, hret⟩
    · rw [hown.1]
      exact hplace b (.inl hb)
    · rw [hown.1]
      exact hplace b (.inr hb)
    · rw [hown.2]
      exact hi.saved i o b (hk.saved hc) hb
  · have hsaved : (h.update s os t).saved = Function.update h.saved prev (s.sie, h.own) := by
      unfold SieHist.update
      rw [ho]
    refine ⟨fun b hb hd => ?_, fun b hb => ?_, fun i o b hc hb => ?_, hret⟩
    · obtain rfl : a = b := Place.kernel.inj (hp.symm.trans hb)
      by_cases hf : a = .fresh
      · have hown : (h.update s os t).own = t.sie := by
          unfold SieHist.update
          rw [ho, hp, hf]
        rw [hown, hf]
        simp [masked, Act.inTrap]
      · have hown : (h.update s os t).own = (Function.update h.saved prev (s.sie, h.own) next).2 := by
          unfold SieHist.update
          rw [ho, hp]
          dsimp only
          split
          · rename_i hx
            exact absurd (Place.kernel.inj hx) hf
          · rfl
        rw [hown, (keepsKind_iff hsw ha ho hp hf hd).1 hkk, ht, hsie]
    · rw [hp] at hb
      cases hb
    · rw [hsaved]
      exact saved_switch hk hsw ha hi i o b hc hb

end Step

/-! ### All runs -/

theorem sieInv_start (L : Layout) (m : Mem) : SieInv (boot L m) (start L m).2 := by
  refine ⟨fun a hp _ => ?_, fun a hp => ?_, fun i o a hc => ?_, fun p hp => ?_⟩
  · rw [← Place.kernel.inj hp]
    change (BitVec.twoPow 64 sieBit).getLsbD sieBit = true
    decide
  · cases hp
  · rw [(boot_task L m i).2.2.2] at hc
    split_ifs at hc
  · cases hp

theorem sieInv_of_run {L : Layout} {m : Mem} {es : List Event} {s : Sys × SieHist}
    (h : Run (step L) (Condition L) (start L m) es s) : SieInv s.1 s.2 := by
  refine h.invariant (I := fun s => SieInv s.1 s.2) ?_ (sieInv_start L m)
  rintro s e t hi hc hs
  obtain ⟨os, hst, hh⟩ := withHistory_eq_some hs
  rw [hh]
  exact sieInv_step hi hst (hc t.1 os hst)

/-- **`schedule` preserves `SIE`** in every run in which the processor is only given back among
threads that are masked alike. -/
theorem returnsOk_of_run {L : Layout} {m : Mem} {es : List Event} {s : Sys × SieHist}
    (h : Run (step L) (Condition L) (start L m) es s) : ReturnsOk s.2 :=
  (sieInv_of_run h).returns

/-! ### Two runs -/

instance (s : Sys) (h : SieHist) (os : List Obs) (t : Sys) : Decidable (KeepsKind s h os t) :=
  match ho : switchOf os with
  | none => isTrue fun prev next hs => by rw [ho] at hs; cases hs
  | some (prev, next) =>
    decidable_of_iff (next ≠ prev → Place.returns t.place = true →
      masked (Place.trapped t.place) (h.saved next).2 = masked (Place.trapped s.place) h.own) <| by
      simp [KeepsKind, ho]

/-- The condition, as a check. -/
def check (L : Layout) (s : Sys × SieHist) (e : Event) : Bool :=
  match s.1.step L e with
  | none => true
  | some (t, os) => decide (KeepsKind s.1 s.2 os t)

theorem condition_of_check {L : Layout} {s : Sys × SieHist} {e : Event} (h : check L s e = true) :
    Condition L s e := by
  intro t os ht
  unfold check at h
  rw [ht] at h
  exact of_decide_eq_true h

/-- The shell starts a process that forks and waits; the child exits. -/
def childRun : List Event :=
  [.createUser 0x201000, .go true, .go true, .go true, callOf sampleLayout 1 4 0,
    callOf sampleLayout 1 5 2, .go true, .go true, .go true, callOf sampleLayout 2 6 0]

/-- The parent has come back from `schedule` with interrupts masked, as in its trap before. -/
theorem returnsOk_childRun : ∃ s, Run (step sampleLayout) (Condition sampleLayout)
    (start sampleLayout fun _ => 0) childRun s ∧ s.2.returns = [(false, false)] ∧ ReturnsOk s.2 := by
  have hex : ((exec (step sampleLayout) (check sampleLayout) (start sampleLayout fun _ => 0)
      childRun).map fun s => s.2.returns) = some [(false, false)] := by decide +kernel
  obtain ⟨s, hs, hv⟩ := Option.map_eq_some_iff.1 hex
  have hrun := Run.of_exec (fun _ _ => condition_of_check) hs
  exact ⟨s, hrun, hv, returnsOk_of_run hrun⟩

/-- The shell starts a process that exits. -/
def exitRun : List Event :=
  [.createUser 0x201000, .go true, .go true, .go true, callOf sampleLayout 1 6 0]

/-- **The shell comes back with interrupts masked**: it has called `schedule` with interrupts enabled,
and the process has exited in a trap. -/
theorem not_returnsOk_exitRun : ∃ s, Run (step sampleLayout) (fun s e => TpKept sampleLayout s.1 e)
    (start sampleLayout fun _ => 0) exitRun s ∧ s.2.returns = [(true, false)] ∧ s.1.me = 0 ∧
    s.1.sie = false ∧ ¬ ReturnsOk s.2 := by
  have hex : ((exec (step sampleLayout) (fun s e => decide (TpKept sampleLayout s.1 e))
      (start sampleLayout fun _ => 0) exitRun).map fun s => (s.2.returns, s.1.me, s.1.sie)) =
      some ([(true, false)], 0, false) := by decide +kernel
  obtain ⟨s, hs, hv⟩ := Option.map_eq_some_iff.1 hex
  simp only [Prod.mk.injEq] at hv
  obtain ⟨hr, hme, hsie⟩ := hv
  refine ⟨s, Run.of_exec (fun _ _ => of_decide_eq_true) hs, hr, hme, hsie, fun hok => ?_⟩
  have := hok (true, false) (by rw [hr]; simp)
  cases this

end OscKernel.Proc.Interrupts
