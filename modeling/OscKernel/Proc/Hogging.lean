import OscKernel.Proc.Turns

/-! # A process that keeps the processor

A user process at the end of the run queue that forks, waits for the child, and does so again, keeps the
processor from all other tasks: the child comes right behind it in the queue and, when it ends, hands
the processor back to it. The slot of the child is free again after the round. In these runs no timer
interrupt takes the processor away.

`hogging`: such a process can go on as long as there are pids, and every task that waits goes on
waiting. -/

namespace OscKernel.Proc.Hogging

open OscKernel.Lib.Memory OscKernel.Lib.Cyclic OscKernel.Lib.Transition
open OscKernel.Thread.Task OscKernel.Thread.RunQueue OscKernel.Thread.Sched OscKernel.Thread.Inv
open OscKernel.Thread.Effect OscKernel.User.Signal OscKernel.User.Process OscKernel.Proc.Ops
open OscKernel.Proc.Turns

/-- The user process `p` runs and is the last task of the queue, and there is a slot for a child. -/
structure Hogs (s : OpState) (p : Slot) : Prop where
  act : s.act = .code
  tp : s.k.tp = some p
  user : (s.k.tasks p).isUser = true
  tail : s.k.runQueueTail = some p
  free : ∃ i, s.k.state i = .unused

/-- The user process `p` has the child `i`, which is the last task of the queue, right behind `p`. -/
structure Child (k : Kernel) (p i : Slot) : Prop where
  ne : i ≠ p
  idle : i ≠ 0
  user : (k.tasks p).isUser = true
  parent : (k.tasks i).parent = some p
  tail : k.runQueueTail = some i
  ring : ∃ xs, RingList k.next i (xs ++ [i]) ∧ xs.getLast? = some p

/-- The operations of one round: the child gets the pid `pid` and ends at once. -/
def round (tf : TrapFrame) (pid : ℤ) : List Op :=
  [.userFork tf, .sysWaitpid pid, .resume, .threadExit, .resume]

/-- `n` rounds. -/
def rounds (tf : TrapFrame) : ℕ → ℤ → List Op
  | 0, _ => []
  | n + 1, pid => round tf pid ++ rounds tf n (pid + 1)

section Round
variable {L : Layout} {k k' : Kernel} {p i t : Slot} {s : OpState} {tf : TrapFrame}

theorem killZombies_tail (k : Kernel) : (killZombies k).runQueueTail = k.runQueueTail := by
  unfold killZombies
  generalize (List.finRange 16).drop 1 = l
  induction l generalizing k with
  | nil => rfl
  | cons i l ih =>
    have hi : (killZombie k i).runQueueTail = k.runQueueTail := by
      unfold killZombie taskReap
      dsimp only
      split_ifs <;> rfl
    exact (ih _).trans hi

/-- **`fork`** of the last task of the queue. -/
theorem fork_hogs (tf : TrapFrame) (h : TableInv L k (some p) none) (ht : k.tp = some p)
    (hu : (k.tasks p).isUser = true) (htail : k.runQueueTail = some p)
    (hfree : ∃ i, k.state i = .unused) (hp : k.nextPid < intMax) :
    ∃ k' v i, userFork L tf k = some (k', v) ∧ Child k' p i ∧ k'.tp = some p ∧
      k'.nextPid = k.nextPid + 1 ∧ k'.state i = .runnable ∧ (k'.tasks i).pid = k.nextPid ∧
      (∃ sp, (k'.tasks i).context = .start L.threadTrampoline sp) ∧
      ∀ t, k.state t = .runnable → k'.state t = .runnable ∧ t ≠ i := by
  have hz := killZombies_inv h
  have hsame := killZombies_sameQueue k
  obtain ⟨htp, hnp, -⟩ := killZombies_frame k
  have hpr : k.state p = .running := (h.running p).2 rfl
  -- The slots that are not zombies are as before.
  have hkeep : ∀ j, k.state j ≠ .zombie → (killZombies k).tasks j = k.tasks j := by
    intro j hj
    rw [killZombies_tasks h.idleTask, if_neg fun hn => hj hn.2.1]
  obtain ⟨k1, r, hc⟩ := threadCreate_defined L L.userProcessEntry hp
  obtain ⟨k', v, hf⟩ := userFork_defined L tf hp
  rcases threadCreate_cases hc with ⟨-, -, hnone⟩ | ⟨i, rfl, hi, -, hk1⟩
  · obtain ⟨j, hj⟩ := hfree
    have hju : (killZombies k).state j = .unused := by
      rw [Kernel.state, hkeep j (by rw [hj]; decide)]
      exact hj
    exact absurd hju (hnone j)
  obtain ⟨-, hk'⟩ := userFork_of_created ht hu hc hf
  obtain ⟨tail, xs, hxt, hring, hxm⟩ := hz.queue
  obtain rfl : tail = p := by
    rw [killZombies_tail, htail, Option.some.injEq] at hxt
    exact hxt.symm
  have hin : ¬ isRunnable (killZombies k) i := by
    rw [isRunnable, hi]
    decide
  have hpz : isRunnable (killZombies k) tail := (hsame.mem tail).2 h.isRunnable_cur
  have hip : i ≠ tail := fun he => hin (he ▸ hpz)
  set k0 : Kernel := { (killZombies k).modify i (newThread L L.userProcessEntry
    (killZombies k).nextPid i) with nextPid := (killZombies k).nextPid + 1 } with hk0
  have hring0 : RingList k0.next tail xs := hring.congr fun z hz => by
    have hzi : z ≠ i := fun he => hin ((hxm i).1 (he ▸ hz))
    change ((killZombies k).modify i _).next z = _
    rw [Kernel.next_modify, Function.update_of_ne hzi]
  obtain ⟨htail1, hring1⟩ := runqAdd_spec (k := k0) hxt hring0 fun hx => hin ((hxm i).1 hx)
  have hq := runqAdd_queueOnly k0 i
  rw [← hk1] at htail1 hring1 hq
  have htask0 : k0.tasks i = newThread L L.userProcessEntry (killZombies k).nextPid i
      ((killZombies k).tasks i) := (killZombies k).modify_same i _
  have hother : ∀ j, j ≠ i → k0.tasks j = (killZombies k).tasks j := fun j hj =>
    (killZombies k).modify_of_ne i _ hj
  have hstate : ∀ j, k'.state j = k0.state j := by
    intro j
    rw [hk', ← hq.state]
    exact k1.modify_proj i _ TaskStruct.state rfl j
  have hnext : ∀ j, k'.next j = k1.next j := by
    intro j
    rw [hk']
    exact k1.modify_proj i _ TaskStruct.next rfl j
  have hnew : k'.tasks i = forkChild L i tail (k1.tasks tail) tf (k1.tasks i) := by
    rw [hk']
    exact k1.modify_same i _
  have huser : (k'.tasks tail).isUser = true := by
    have h1 : k'.tasks tail = k1.tasks tail := by
      rw [hk']
      exact k1.modify_of_ne i _ hip.symm
    rw [h1, hq.proj TaskStruct.isUser fun _ => rfl, hother tail hip.symm,
      hkeep tail (by rw [hpr]; decide), hu]
  refine ⟨k', v, i, hf, ⟨hip, fun h0 => hin (h0 ▸ hz.idle), huser, by rw [hnew]; rfl, ?_, xs, ?_,
    hring.ends⟩, ?_, ?_, ?_, ?_, ?_, fun t htr => ?_⟩
  · rw [hk']
    exact htail1
  · exact hring1.congr fun z _ => hnext z
  · rw [hk']
    exact hq.tp.trans (htp.trans ht)
  · rw [hk', ← hnp]
    exact hq.nextPid
  · rw [hstate, Kernel.state, htask0, newThread_state]
  · have h1 : (k'.tasks i).pid = (k1.tasks i).pid := by
      rw [hnew]
      rfl
    rw [h1, hq.proj TaskStruct.pid fun _ => rfl, htask0, newThread_pid, hnp]
  · have h1 : (k'.tasks i).context = (k1.tasks i).context := by
      rw [hnew]
      rfl
    rw [h1, hq.proj TaskStruct.context fun _ => rfl, htask0]
    exact ⟨_, rfl⟩
  · have hti : t ≠ i := by
      rintro rfl
      exact hin ((hsame.mem t).2 (.inl htr))
    refine ⟨?_, hti⟩
    rw [hstate, Kernel.state, hother t hti, hkeep t (by rw [htr]; decide)]
    exact htr

theorem Child.next (h : Child k p i) : k.next p = some i := by
  obtain ⟨xs, hring, hlast⟩ := h.ring
  obtain ⟨zs, rfl⟩ := List.getLast?_eq_some_iff.1 hlast
  have hp := (path_append.1 hring.path).2.1
  rwa [lastOf_append_singleton] at hp

theorem Child.congr (h : Child k p i) (hn : ∀ j, k'.next j = k.next j)
    (hp : ∀ j, (k'.tasks j).parent = (k.tasks j).parent)
    (hu : ∀ j, (k'.tasks j).isUser = (k.tasks j).isUser) (ht : k'.runQueueTail = k.runQueueTail) :
    Child k' p i where
  ne := h.ne
  idle := h.idle
  user := (hu p).trans h.user
  parent := (hp i).trans h.parent
  tail := ht.trans h.tail
  ring := by
    obtain ⟨xs, hring, hlast⟩ := h.ring
    exact ⟨xs, hring.congr fun z _ => hn z, hlast⟩

/-- **The parent waits**, and the child gets the processor. -/
theorem wait_child (tf : TrapFrame) (pid : ℤ) (h : TableInv L k (some p) none) (ht : k.tp = some p)
    (hc : Child k p i) (hi : k.state i = .runnable)
    (hx : ∃ sp, (k.tasks i).context = .start L.threadTrampoline sp) :
    ∃ k', opStep L ⟨k, .waitpid tf pid i⟩ .resume = some ⟨k', .fresh⟩ ∧ Child k' p i ∧
      k'.tp = some i ∧ k'.nextPid = k.nextPid ∧ k'.state p = .runnable ∧
      (k'.tasks p).context = .saved p (.waitpid tf pid i) ∧
      ∀ t, k.state t = .runnable → t ≠ i → k'.state t = .runnable := by
  have hpick : pickNext k p = some i := by
    obtain ⟨ys, hys⟩ := exists_reads h h.isRunnable_cur
    exact hys.pickNext_eq.trans hc.next
  have hsched := schedule_next ht h hpick hc.ne
  set k1 := (k.setState p .runnable).setState i .running with hk1
  have hproj : ∀ {β : Type} (f : TaskStruct → β), (∀ t v, f { t with state := v } = f t) →
      ∀ j, f (k1.tasks j) = f (k.tasks j) := by
    intro β f hf j
    rw [hk1, Kernel.setState_proj _ i f _ fun t => hf t _, Kernel.setState_proj _ p f _ fun t => hf t _]
  have hstate : ∀ j, k1.state j = if j = i then .running else if j = p then .runnable else k.state j := by
    intro j
    rw [hk1, Kernel.state_setState, Kernel.state_setState]
  have hend : ¬ hasEnded k i := by
    rw [hasEnded, hi]
    decide
  set k2 := (k1.setContext p (.saved p (.waitpid tf pid i))).setTp (some i) with hk2
  have hctx : ∀ {β : Type} (f : TaskStruct → β), (∀ t v, f { t with context := v } = f t) →
      ∀ j, f (k2.tasks j) = f (k1.tasks j) := by
    intro β f hf j
    exact Kernel.setContext_proj _ p f _ (fun t => hf t _) j
  have hctxi : (k2.tasks i).context = (k.tasks i).context := by
    rw [hk2, Kernel.setTp_tasks, Kernel.setContext_of_ne _ p _ hc.ne]
    exact hproj TaskStruct.context (fun _ _ => rfl) i
  refine ⟨k2, ?_, ?_, rfl, rfl, ?_, ?_, fun t htr hti => ?_⟩
  · obtain ⟨sp, hsp⟩ := hx
    simp only [opStep, if_neg hend]
    unfold scheduleAt
    rw [hsched]
    simp only [Option.bind_eq_bind, Option.bind_some, finish, switchTo]
    rw [← hk2, hctxi, hsp]
    simp only [if_true, Option.map_some]
  · refine hc.congr (fun j => ?_) (fun j => ?_) (fun j => ?_) rfl
    · exact (hctx TaskStruct.next (fun _ _ => rfl) j).trans (hproj TaskStruct.next (fun _ _ => rfl) j)
    · rw [hctx TaskStruct.parent fun _ _ => rfl, hproj TaskStruct.parent fun _ _ => rfl]
    · rw [hctx TaskStruct.isUser fun _ _ => rfl, hproj TaskStruct.isUser fun _ _ => rfl]
  · rw [Kernel.state, hctx TaskStruct.state fun _ _ => rfl]
    change k1.state p = _
    rw [hstate, if_neg hc.ne.symm, if_pos rfl]
  · exact k1.setContext_same p _
  · rw [Kernel.state, hctx TaskStruct.state fun _ _ => rfl]
    change k1.state t = _
    rw [hstate, if_neg hti]
    split_ifs
    · rfl
    · exact htr

/-- **The child ends**, and the processor goes back to the parent, which is the last task of the queue
again. -/
theorem exit_child {pid : ℤ} (h : TableInv L k (some i) none) (ht : k.tp = some i) (hc : Child k p i)
    (hp : k.state p = .runnable) (hx : (k.tasks p).context = .saved p (.waitpid tf pid i)) :
    ∃ k', call L k .threadExit = some ⟨k', .waitpid tf pid i⟩ ∧ k'.tp = some p ∧
      k'.nextPid = k.nextPid ∧ k'.runQueueTail = some p ∧ (k'.tasks p).isUser = true ∧
      k'.state i = .zombie ∧
      ∀ t, k.state t = .runnable → t ≠ p → k'.state t = .runnable := by
  obtain ⟨xs, hring, hlast⟩ := hc.ring
  obtain ⟨zs, rfl⟩ := List.getLast?_eq_some_iff.1 hlast
  have hix : i ∉ zs ++ [p] := fun hx => (List.nodup_append.1 hring.nodup).2.2 i hx i (by simp) rfl
  have hself : k.next i ≠ some i := by
    intro he
    have := congrArg List.length (hring.eq_singleton (by simp) he)
    simp at this
  have hlen : (zs ++ [p]).length < 17 := by
    have := hring.nodup.length_le_card
    simp at this
    simpa using by omega
  have hfind := findPrev_path hring.path hix hix hlen
  rw [lastOf_append_singleton] at hfind
  set k1 := ((k.setNext p (k.next i)).setNext i none).setTail (some p) with hk1
  have hremove : runqRemove k i = some k1 := by
    unfold runqRemove
    rw [hc.tail]
    simp only [if_neg hself, hfind, if_true, hk1]
  have hq := runqRemove_queueOnly hremove
  have htarget : exitTarget k i = some p := by
    unfold exitTarget
    rw [hc.parent]
    dsimp only
    rw [hp, if_pos ⟨by decide, by decide⟩]
  set k2 := (k1.setState i .zombie).setState p .running with hk2
  have hexit : threadExit k = some (k2, .switch i p) := by
    unfold threadExit
    rw [ht]
    simp only [Option.bind_eq_bind, Option.bind_some, htarget, hremove, if_neg hc.ne.symm, hk2]
  have hproj : ∀ {β : Type} (f : TaskStruct → β), (∀ t, f t = f t.core) →
      (∀ t v, f { t with state := v } = f t) → ∀ j, f (k2.tasks j) = f (k.tasks j) := by
    intro β f hf hs j
    rw [hk2, Kernel.setState_proj _ p f _ fun t => hs t _, Kernel.setState_proj _ i f _ fun t => hs t _,
      hq.proj f hf]
  have hstate : ∀ j, k2.state j = if j = p then .running else if j = i then .zombie else k.state j := by
    intro j
    rw [hk2, Kernel.state_setState, Kernel.state_setState, hq.state]
  set k3 := (k2.setContext i (.saved i .dead)).setTp (some p) with hk3
  have hctx : ∀ {β : Type} (f : TaskStruct → β), (∀ t v, f { t with context := v } = f t) →
      ∀ j, f (k3.tasks j) = f (k2.tasks j) := by
    intro β f hf j
    exact Kernel.setContext_proj _ i f _ (fun t => hf t _) j
  have hctxp : (k3.tasks p).context = .saved p (.waitpid tf pid i) := by
    rw [hk3, Kernel.setTp_tasks, Kernel.setContext_of_ne _ i _ hc.ne.symm,
      hproj TaskStruct.context (fun _ => rfl) fun _ _ => rfl, hx]
  have hid : ¬ k.tp = k.idleTask := by
    rw [ht, h.idleTask, Option.some.injEq]
    exact hc.idle
  refine ⟨k3, ?_, rfl, hq.nextPid, rfl, ?_, ?_, fun t htr htp => ?_⟩
  · rw [call, if_neg hid, hexit]
    simp only [Option.bind_eq_bind, Option.bind_some, finishExit, finish, reduceCtorEq, if_false,
      switchTo]
    rw [← hk3, hctxp]
    rfl
  · rw [hctx TaskStruct.isUser fun _ _ => rfl, hproj TaskStruct.isUser (fun _ => rfl) fun _ _ => rfl]
    exact hc.user
  · rw [Kernel.state, hctx TaskStruct.state fun _ _ => rfl]
    change k2.state i = _
    rw [hstate, if_neg hc.ne, if_pos rfl]
  · have hti : t ≠ i := by
      rintro rfl
      have := (h.running t).2 rfl
      rw [htr] at this
      cases this
    rw [Kernel.state, hctx TaskStruct.state fun _ _ => rfl]
    change k2.state t = _
    rw [hstate, if_neg htp, if_neg hti]
    exact htr

theorem Hogs.waiting_ne (h : OpInv L s) (hp : Hogs s p) (htr : s.k.state t = .runnable) : t ≠ p := by
  rintro rfl
  obtain ⟨c, ht, hc⟩ := h.sched
  obtain rfl := Option.some.inj (hp.tp.symm.trans ht)
  have := (hc.running t).2 rfl
  rw [htr] at this
  cases this

/-- **One round** of the process, seen from a task that waits. -/
theorem hogs_round (h : OpInv L s) (hp : Hogs s p) (tf : TrapFrame) (hn : s.k.nextPid < intMax) :
    ∃ s', Hogs s' p ∧ s'.k.nextPid = s.k.nextPid + 1 ∧
      total (opStep L) switched s (round tf s.k.nextPid) = 2 ∧
      (∀ t, s.k.state t = .runnable → s'.k.state t = .runnable) ∧
      Run (opStep L) (fun r _ => ∀ t, s.k.state t = .runnable → r.k.state t = .runnable) s
        (round tf s.k.nextPid) s' := by
  obtain ⟨k, act⟩ := s
  obtain ⟨c, ht, hc⟩ := h.sched
  obtain rfl : c = p := Option.some.inj (ht.symm.trans hp.tp)
  have hact : act = .code := hp.act
  subst hact
  obtain ⟨k1, v, i, h1, hchild1, ht1, hn1, hs1, hpid1, hx1, hw1⟩ :=
    fork_hogs tf hc hp.tp hp.user hp.tail hp.free hn
  have e1 : opStep L ⟨k, .code⟩ (.userFork tf) = some ⟨k1, .code⟩ := by
    change (userFork L tf k).map _ = _
    rw [h1]
    rfl
  obtain ⟨⟨c1, hc1, htab1⟩, -⟩ := h.step e1
  obtain rfl : c1 = c := Option.some.inj (hc1.symm.trans ht1)
  have e2 : opStep L ⟨k1, .code⟩ (.sysWaitpid k.nextPid) = some ⟨k1, .waitpid .zero k.nextPid i⟩ := by
    have hfind := taskFindByPid_eq htab1 (i := i) (by rw [hs1]; decide) hpid1
    change call L k1 (.sysWaitpid k.nextPid) = _
    have hw : waitpidChild k1 k.nextPid = some i := by
      rw [waitpidChild, hfind, ht1]
      simp [hchild1.parent]
    rw [call, hw]
  obtain ⟨k2, e3, hchild2, ht2, hn2, hs2, hx2, hw2⟩ :=
    wait_child .zero k.nextPid htab1 ht1 hchild1 hs1 hx1
  obtain ⟨⟨c2, hc2, htab2⟩, -⟩ := ((h.step e1).step e2).step e3
  obtain rfl : c2 = i := Option.some.inj (hc2.symm.trans ht2)
  obtain ⟨k3, e4, ht3, hn3, htail3, hu3, hs3, hw3⟩ := exit_child htab2 ht2 hchild2 hs2 hx2
  replace e4 : opStep L ⟨k2, .fresh⟩ .threadExit = some ⟨k3, .waitpid .zero k.nextPid c2⟩ := e4
  obtain ⟨⟨c3, hc3, htab3⟩, -⟩ := (((h.step e1).step e2).step e3).step e4
  obtain rfl : c3 = c1 := Option.some.inj (hc3.symm.trans ht3)
  have hend : hasEnded k3 c2 := .inl hs3
  have hreap : taskReap k3 (some c2) = k3.modify c2 reaped := by
    rw [taskReap, htab3.idleTask, if_neg fun he => hchild2.idle (Option.some.inj he).symm,
      if_neg (not_not.2 hs3)]
  have e5 : opStep L ⟨k3, .waitpid .zero k.nextPid c2⟩ .resume = some ⟨k3.modify c2 reaped, .code⟩ := by
    simp only [opStep, if_pos hend, if_pos hs3, hreap]
  have hwait2 : ∀ t, k.state t = .runnable → k2.state t = .runnable := fun t ht =>
    hw2 t (hw1 t ht).1 (hw1 t ht).2
  have hwait3 : ∀ t, k.state t = .runnable → k3.state t = .runnable := fun t ht =>
    hw3 t (hwait2 t ht) (hp.waiting_ne h ht)
  refine ⟨⟨k3.modify c2 reaped, .code⟩, ⟨rfl, ht3, ?_, htail3, c2, ?_⟩, ?_, ?_, ?_, ?_⟩
  · change ((k3.modify c2 reaped).tasks c3).isUser = true
    rw [k3.modify_of_ne c2 _ hchild2.ne.symm, hu3]
  · change (k3.modify c2 reaped).state c2 = _
    rw [k3.state_modify, Function.update_self]
    rfl
  · exact hn3.trans (hn2.trans hn1)
  · have s1 : switched ⟨k, .code⟩ (.userFork tf) ⟨k1, .code⟩ = 0 := if_pos (ht1.trans ht.symm)
    have s2 : switched ⟨k1, .code⟩ (.sysWaitpid k.nextPid) ⟨k1, .waitpid .zero k.nextPid c2⟩ = 0 :=
      if_pos rfl
    have s3 : switched ⟨k1, .waitpid .zero k.nextPid c2⟩ .resume ⟨k2, .fresh⟩ = 1 := by
      refine if_neg fun he => hchild2.ne ?_
      exact Option.some.inj (ht2.symm.trans (he.trans ht1))
    have s4 : switched ⟨k2, .fresh⟩ .threadExit ⟨k3, .waitpid .zero k.nextPid c2⟩ = 1 := by
      refine if_neg fun he => hchild2.ne ?_
      exact (Option.some.inj (ht3.symm.trans (he.trans ht2))).symm
    have s5 : switched ⟨k3, .waitpid .zero k.nextPid c2⟩ .resume ⟨k3.modify c2 reaped, .code⟩ = 0 :=
      if_pos rfl
    rw [round, total_cons e1, total_cons e2, total_cons e3, total_cons e4, total_cons e5, s1, s2, s3,
      s4, s5, total]
  · intro t htr
    change (k3.modify c2 reaped).state t = _
    rw [k3.state_modify, Function.update_of_ne (hw1 t htr).2]
    exact hwait3 t htr
  · exact .cons (fun _ => id) e1 (.cons (fun t ht => (hw1 t ht).1) e2 (.cons (fun t ht => (hw1 t ht).1)
      e3 (.cons hwait2 e4 (.single hwait3 e5))))

end Round

/-- **A process can keep the processor for as long as there are pids**: from every state that is reached
in which a user process runs at the end of the run queue and a slot is free, it can go on for any
number of rounds, two switches each, during which no task that waits gets the processor. -/
theorem hogging {L : Layout} {m : Mem} {ops : List Op} {s : OpState} {p : Slot}
    (h : Run (opStep L) (fun _ _ => True) (start L m) ops s) (hp : Hogs s p) (tf : TrapFrame) (n : ℕ)
    (hn : s.k.nextPid + n ≤ intMax) :
    ∃ s', Hogs s' p ∧ total (opStep L) switched s (rounds tf n s.k.nextPid) = 2 * n ∧
      (∀ t, s.k.state t = .runnable → s'.k.state t = .runnable) ∧
      Run (opStep L) (fun r _ => ∀ t, s.k.state t = .runnable → r.k.state t = .runnable) s
        (rounds tf n s.k.nextPid) s' := by
  have hi := opInv_of_run h
  clear h
  induction n generalizing s with
  | zero => exact ⟨s, hp, rfl, fun _ => id, .nil s⟩
  | succ n ih =>
    obtain ⟨s1, hp1, hn1, htot1, hw1, hr1⟩ := hogs_round hi hp tf (by push_cast at hn; omega)
    have hi1 : OpInv L s1 := hr1.invariant (fun _ _ _ hi _ hs => hi.step hs) hi
    obtain ⟨s', hp', htot, hw, hr⟩ := ih hp1 (by rw [hn1]; push_cast at hn; omega) hi1
    rw [hn1] at htot hr
    refine ⟨s', hp', ?_, fun t ht => hw t (hw1 t ht), hr1.append (hr.mono ?_)⟩
    · rw [rounds, hr1.total_append, htot1, htot]
      omega
    · exact fun _ _ hc t ht => hc t (hw1 t ht)

/-- The task stands in its own code. -/
def atCode : Act → Bool
  | .code => true
  | _ => false

theorem eq_code {act : Act} (h : atCode act = true) : act = .code := by
  cases act <;> first | rfl | cases h

/-- A user process that is alone with the idle task keeps it from running. -/
theorem hogging_alone : ∃ s s', Run (opStep sampleLayout) (fun _ _ => True)
      (start sampleLayout fun _ => 0) [.userProcessCreate userProgBase 0, .schedule, .sysWaitpid 7] s ∧
    s.k.state 0 = .runnable ∧
    Run (opStep sampleLayout) (fun r _ => ∀ t, s.k.state t = .runnable → r.k.state t = .runnable) s
      (rounds .zero 1000000 2) s' ∧
    total (opStep sampleLayout) switched s (rounds .zero 1000000 2) = 2000000 := by
  have hex : (exec (opStep sampleLayout) (fun _ _ => true) (start sampleLayout fun _ => 0)
      [.userProcessCreate userProgBase 0, .schedule, .sysWaitpid 7]).map (fun s =>
        ((atCode s.act, s.k.tp, (s.k.tasks 1).isUser, s.k.runQueueTail), s.k.state 0, s.k.state 2,
          s.k.nextPid)) =
      some ((true, some 1, true, some 1), .runnable, .unused, 2) := by decide +kernel
  obtain ⟨s, hr, hv⟩ := Run.exists_of_exec (C := fun _ _ => True) (fun _ _ _ => trivial) hex
  simp only [Prod.mk.injEq] at hv
  obtain ⟨⟨hact, htp, hu, htail⟩, hidle, hfree, hpid⟩ := hv
  obtain ⟨s', -, htot, -, hrun⟩ := hogging hr ⟨eq_code hact, htp, hu, htail, 2, hfree⟩ .zero 1000000
    (by rw [hpid]; decide)
  rw [hpid] at htot hrun
  exact ⟨s, s', hr, hidle, hrun, htot⟩

end OscKernel.Proc.Hogging
