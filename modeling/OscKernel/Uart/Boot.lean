import OscKernel.Lib.Transition
import OscKernel.Uart.Loader

/-! # Booting over the line

The loader, the receiver and the line as one machine: bytes arrive at the hardware, the receive
interrupt is taken, the loader takes the next step of its `uart_getc`, in any order.

`BootInv` is the invariant of its runs: what has arrived is what the loader has read, followed by
what the ring and the hardware hold, as long as no byte was dropped. `loadsImage_iff` says for which
images the transfer works. -/

namespace OscKernel.Uart.Boot

open OscKernel.Lib.Memory OscKernel.Lib.RingBuffer OscKernel.Lib.Transition
open OscKernel.Uart.Rx OscKernel.Uart.Loader

/-- The receiver, the place in `uart_getc` and the loader. Three fields are history: the bytes that
arrived, the bytes that `uart_getc` returned, and the number of bytes dropped at the ring. -/
structure BootState where
  uart : UartState
  pc : GetcPc
  prog : Reader Loaded
  arrived : List Byte
  received : List Byte
  lost : ℕ

/-- What can happen next. -/
inductive Event
  | arrive (b : Byte)
  | irq
  | cpu
  deriving DecidableEq, Repr

/-- One step. The receive interrupt is enabled in interrupt mode only. -/
def step (s : BootState) : Event → Option BootState
  | .arrive b => some { s with
      uart := { s.uart with hw := s.uart.hw ++ [b] }
      arrived := s.arrived ++ [b] }
  | .irq =>
    if s.uart.asyncEnabled then
      some { s with uart := uartHandleIrq s.uart, lost := s.lost + irqDropped s.uart }
    else none
  | .cpu =>
    match s.prog with
    | .done _ => none
    | .getc k =>
      let lost := s.lost + if s.pc = .drain then irqDropped s.uart else 0
      match uartGetc s.uart s.pc with
      | (u, .inl pc) => some { s with uart := u, pc := pc, lost := lost }
      | (u, .inr c) => some { s with
          uart := u, pc := .start, prog := k c, received := s.received ++ [c], lost := lost }

/-- The receiver when the loader starts to wait: nothing has come yet. -/
structure Idle (u : UartState) : Prop where
  wf : u.WF
  hw : u.hw = []
  contents : u.contents = []

/-- The machine when `load_image_and_boot` is called. -/
def boot (u : UartState) (fdtAddr : Word) (m : Mem) : BootState where
  uart := u
  pc := .start
  prog := loadImageAndBoot fdtAddr m
  arrived := []
  received := []
  lost := 0

/-- All runs. -/
abbrev BootRun := Run step fun _ _ => True

/-- The loader has returned, or there is no byte for it to read. -/
def Finished (s : BootState) : Prop :=
  (∃ o, s.prog = .done o) ∨ (s.uart.hw = [] ∧ s.uart.contents = [])

/-! ### The invariant -/

/-- The invariant of the runs of the program `p`. -/
structure BootInv (p : Reader Loaded) (s : BootState) : Prop where
  wf : s.uart.WF
  poll : s.uart.asyncEnabled = false → s.uart.contents = []
  mode : s.pc ≠ .start → (s.uart.asyncEnabled = false ↔ s.pc = .poll ∨ s.pc = .rbr)
  rbr : s.pc = .rbr → s.uart.hw ≠ []
  prog : p.consume s.received = some s.prog
  bytes : s.lost = 0 →
    s.arrived.map crToLf = s.received ++ (s.uart.contents ++ s.uart.hw).map crToLf

theorem bootInv_boot {u : UartState} (h : Idle u) (fdtAddr : Word) (m : Mem) :
    BootInv (loadImageAndBoot fdtAddr m) (boot u fdtAddr m) where
  wf := h.wf
  poll := fun _ => h.contents
  mode := fun hne => absurd rfl hne
  rbr := fun hpc => by cases hpc
  prog := Reader.consume_nil _
  bytes := fun _ => by simp [boot, h.contents, h.hw]

section Step
variable {p : Reader Loaded} {s s' : BootState}

theorem BootInv.arrive (h : BootInv p s) (b : Byte) :
    BootInv p { s with
      uart := { s.uart with hw := s.uart.hw ++ [b] }
      arrived := s.arrived ++ [b] } where
  wf := h.wf
  poll := h.poll
  mode := h.mode
  rbr := fun _ => by simp
  prog := h.prog
  bytes := fun hl => by
    have hb := h.bytes hl
    have hc : UartState.contents { s.uart with hw := s.uart.hw ++ [b] } = s.uart.contents := rfl
    simp only [List.map_append, hb, hc, List.append_assoc]

theorem BootInv.drain (h : BootInv p s) (hasync : s.uart.asyncEnabled = true) {pc : GetcPc}
    (hpc : pc = s.pc ∨ pc = .pop) :
    BootInv p { s with
      uart := uartHandleIrq s.uart, pc := pc, lost := s.lost + irqDropped s.uart } where
  wf := uartHandleIrq_wf h.wf
  poll := fun hf => by simp [hasync] at hf
  mode := fun hne => by
    rcases hpc with rfl | rfl
    · simpa using h.mode hne
    · simp [hasync]
  rbr := fun hr => by
    rcases hpc with rfl | rfl
    · have hm := (h.mode (by rw [hr]; decide)).2 (.inr hr)
      rw [hasync] at hm
      cases hm
    · cases hr
  prog := h.prog
  bytes := fun hl => by
    obtain ⟨h0, hd⟩ := Nat.add_eq_zero_iff.1 hl
    simp only [contents_uartHandleIrq_of_irqDropped h.wf hd, uartHandleIrq_hw, List.append_nil]
    exact h.bytes h0

theorem BootInv.move (h : BootInv p s) {pc : GetcPc}
    (hmode : pc ≠ .start → (s.uart.asyncEnabled = false ↔ pc = .poll ∨ pc = .rbr))
    (hrbr : pc = .rbr → s.uart.hw ≠ []) : BootInv p { s with pc := pc } where
  wf := h.wf
  poll := h.poll
  mode := hmode
  rbr := hrbr
  prog := h.prog
  bytes := h.bytes

theorem BootInv.read (h : BootInv p s) {k : Byte → Reader Loaded} (hk : s.prog = .getc k)
    {u : UartState} {b : Byte} (hwf : u.WF) (ha : u.asyncEnabled = s.uart.asyncEnabled)
    (hnil : s.uart.contents = [] → u.contents = [])
    (hb : s.uart.contents ++ s.uart.hw = b :: (u.contents ++ u.hw)) :
    BootInv p { s with
      uart := u, pc := .start, prog := k (crToLf b), received := s.received ++ [crToLf b] } where
  wf := hwf
  poll := fun hf => hnil (h.poll (ha ▸ hf))
  mode := fun hne => absurd rfl hne
  rbr := fun hr => by cases hr
  prog := by
    rw [Reader.consume_append, h.prog, Option.bind_some, hk, Reader.consume_getc_cons,
      Reader.consume_nil]
  bytes := fun hl => by
    simp only [h.bytes hl, hb, List.map_cons, List.append_assoc, List.singleton_append]

theorem BootInv.step (h : BootInv p s) {e : Event} (hs : step s e = some s') : BootInv p s' := by
  cases e with
  | arrive b =>
    simp only [Boot.step, Option.some.injEq] at hs
    exact hs ▸ h.arrive b
  | irq =>
    simp only [Boot.step, Option.ite_none_right_eq_some, Option.some.injEq] at hs
    obtain ⟨ha, rfl⟩ := hs
    exact h.drain ha (.inl rfl)
  | cpu =>
    simp only [Boot.step] at hs
    split at hs
    · cases hs
    · rename_i k hk
      cases hpc : s.pc with
      | start =>
        simp only [hpc, uartGetc, uartGetcRaw, Sum.map_inl, Option.some.injEq, reduceCtorEq,
          if_false, Nat.add_zero] at hs
        subst hs
        refine h.move (fun _ => ?_) fun hr => ?_
        · cases s.uart.asyncEnabled <;> simp
        · split at hr <;> cases hr
      | poll =>
        have ha := (h.mode (by rw [hpc]; decide)).2 (.inl hpc)
        simp only [hpc, uartGetc, uartGetcRaw, Sum.map_inl, Option.some.injEq, reduceCtorEq,
          if_false, Nat.add_zero] at hs
        subst hs
        refine h.move (fun _ => ?_) fun hr hw => ?_
        · simp only [ha, id]
          split <;> simp
        · simp [hw] at hr
      | rbr =>
        obtain ⟨c, t, hw⟩ := List.exists_cons_of_ne_nil (h.rbr hpc)
        have ha := (h.mode (by rw [hpc]; decide)).2 (.inr hpc)
        have hc := h.poll ha
        simp only [hpc, uartGetc, uartGetcRaw, Sum.map_inr, Option.some.injEq, reduceCtorEq,
          if_false, Nat.add_zero] at hs
        subst hs
        rw [hw]
        refine h.read hk h.wf rfl (fun _ => hc) ?_
        have hc' : UartState.contents { s.uart with hw := (c :: t).tail } = [] := hc
        rw [hc', hc, hw]
        rfl
      | pop =>
        have ha : s.uart.asyncEnabled = true := by
          have := h.mode (by rw [hpc]; decide)
          simpa [hpc] using this
        by_cases hrw : s.uart.rx.r = s.uart.rx.w
        · simp only [hpc, uartGetc, uartGetcRaw_pop_empty hrw, Sum.map_inl, Option.some.injEq,
            reduceCtorEq, if_false, Nat.add_zero] at hs
          subst hs
          exact h.move (fun _ => by simp [ha]) fun hr => by cases hr
        · simp only [hpc, uartGetc, uartGetcRaw_pop hrw, Sum.map_inr, Option.some.injEq,
            reduceCtorEq, if_false, Nat.add_zero] at hs
          subst hs
          have hcp : s.uart.contents = s.uart.rx.head ::
              UartState.contents { s.uart with rx := s.uart.rx.pop uartBufSize } :=
            RingBuf.contents_pop h.wf hrw
          refine h.read hk (RingBuf.WF.pop h.wf) rfl (fun hn => ?_) ?_
          · rw [hcp] at hn
            cases hn
          · rw [hcp]
            rfl
      | lsr =>
        have ha : s.uart.asyncEnabled = true := by
          have := h.mode (by rw [hpc]; decide)
          simpa [hpc] using this
        simp only [hpc, uartGetc, uartGetcRaw, Sum.map_inl, Option.some.injEq, reduceCtorEq,
          if_false, Nat.add_zero] at hs
        subst hs
        refine h.move (fun _ => ?_) fun hr => ?_
        · simp only [ha, id]
          split <;> simp
        · simp only [id] at hr
          split at hr <;> cases hr
      | drain =>
        have ha : s.uart.asyncEnabled = true := by
          have := h.mode (by rw [hpc]; decide)
          simpa [hpc] using this
        simp only [hpc, uartGetc, uartGetcRaw, Sum.map_inl, Option.some.injEq, if_true] at hs
        subst hs
        exact h.drain ha (.inr rfl)

end Step

/-! ### Progress -/

/-- How far the loader is from its next byte. -/
def rank (s : BootState) : ℕ :=
  match s.pc with
  | .start => 4
  | .pop => if s.uart.contents = [] then 3 else 0
  | .lsr => 2
  | .drain | .poll => 1
  | .rbr => 0

/-- The measure that every step of the loader decreases while there are bytes to read. -/
def work (s : BootState) : ℕ := 5 * (s.uart.contents ++ s.uart.hw).length + rank s

/-- **The loader makes progress** while there is a byte to read. -/
theorem exists_cpu_step {p : Reader Loaded} {s : BootState} (h : BootInv p s)
    (hf : ¬ Finished s) : ∃ s', step s .cpu = some s' ∧ work s' < work s := by
  cases hk : s.prog with
  | done o => exact absurd (.inl ⟨o, hk⟩) hf
  | getc k =>
    have hne : s.uart.hw = [] → s.uart.contents ≠ [] := fun hw hc => hf (.inr ⟨hw, hc⟩)
    simp only [step, hk]
    cases hpc : s.pc with
    | start =>
      refine ⟨_, rfl, ?_⟩
      simp only [uartGetcRaw, work, rank, hpc, id]
      cases s.uart.asyncEnabled
      · simp
      · by_cases hc : s.uart.contents = [] <;> simp [hc]
    | poll =>
      have ha := (h.mode (by rw [hpc]; decide)).2 (.inl hpc)
      have hw : s.uart.hw ≠ [] := fun hw => hne hw (h.poll ha)
      refine ⟨_, rfl, ?_⟩
      simp [uartGetcRaw, work, rank, hpc, hw]
    | rbr =>
      obtain ⟨c, t, hw⟩ := List.exists_cons_of_ne_nil (h.rbr hpc)
      refine ⟨_, rfl, ?_⟩
      simp only [uartGetcRaw, work, rank, hpc, hw, UartState.contents, List.tail_cons,
        List.length_append, List.length_cons]
      omega
    | pop =>
      by_cases hrw : s.uart.rx.r = s.uart.rx.w
      · have hc : s.uart.contents = [] := (RingBuf.contents_eq_nil_iff h.wf).2 hrw
        refine ⟨_, by rw [uartGetc, uartGetcRaw_pop_empty hrw]; rfl, ?_⟩
        simp [work, rank, hpc, hc]
      · have hcp : s.uart.contents = s.uart.rx.head ::
            UartState.contents { s.uart with rx := s.uart.rx.pop uartBufSize } :=
          RingBuf.contents_pop h.wf hrw
        refine ⟨_, by rw [uartGetc, uartGetcRaw_pop hrw]; rfl, ?_⟩
        simp only [work, rank, hpc, hcp, List.length_append, List.length_cons]
        simp
        omega
    | lsr =>
      refine ⟨_, rfl, ?_⟩
      simp only [uartGetcRaw, work, rank, hpc, id]
      by_cases hw : s.uart.hw = []
      · simp [hw, hne hw]
      · simp [hw]
    | drain =>
      refine ⟨_, rfl, ?_⟩
      have hcne : s.uart.contents ++ s.uart.hw ≠ [] := by
        intro he
        obtain ⟨h1, h2⟩ := List.append_eq_nil_iff.1 he
        exact hne h2 h1
      have hlen := length_uartHandleIrq_le h.wf
      have hnil := contents_uartHandleIrq_ne_nil h.wf hcne
      simp only [uartGetcRaw, work, rank, hpc, id, uartHandleIrq_hw, List.append_nil, hnil,
        if_false, List.length_append]
      omega

theorem exists_finished {p : Reader Loaded} : ∀ (k : ℕ) {s : BootState}, work s ≤ k → BootInv p s →
    ∃ n s', Run step (fun _ e => e = .cpu) s (List.replicate n .cpu) s' ∧ Finished s'
  | k, s, hk, h => by
    by_cases hf : Finished s
    · exact ⟨0, s, .nil s, hf⟩
    · obtain ⟨s', hs, hlt⟩ := exists_cpu_step h hf
      obtain ⟨k', rfl⟩ : ∃ k', k = k' + 1 := ⟨k - 1, by omega⟩
      obtain ⟨n, t, hr, ht⟩ := exists_finished k' (by omega) (h.step hs)
      exact ⟨n + 1, t, .cons rfl hs hr, ht⟩

/-! ### The transfer -/

/-- The transfer of the image works: in every run from a waiting loader in which the bytes of the
sender have arrived and none was dropped, the loader finishes when it is left to run, and whenever
it has finished, it has accepted the header, read as many bytes as the image has behind it, and
jumps to the image in memory. -/
def LoadsImage (image : List Byte) : Prop :=
  ∀ (u : UartState) (fdtAddr : Word) (m : Mem), Idle u →
    ∀ es s, BootRun (boot u fdtAddr m) es s → s.lost = 0 → s.arrived = sendKernel image →
      (∃ n s', BootRun s (List.replicate n .cpu) s' ∧ Finished s') ∧
      (Finished s → s.received.length = 8 + image.length ∧
        ∃ mem, s.prog = .done (.jump loadAddr fdtAddr mem) ∧
          ∀ (i : ℕ) (hi : i < image.length), mem (loadAddr + BitVec.ofNat 64 i) = image[i])

section Transfer
variable {u : UartState} {fdtAddr : Word} {m : Mem} {es : List Event} {s : BootState}
variable {image : List Byte}

theorem BootRun.inv (h : BootRun (boot u fdtAddr m) es s) (hu : Idle u) :
    BootInv (loadImageAndBoot fdtAddr m) s :=
  h.invariant (fun _ _ _ hi _ hs => hi.step hs) (bootInv_boot hu fdtAddr m)

theorem length_sendKernel (image : List Byte) : (sendKernel image).length = 8 + image.length := by
  rw [sendKernel, List.length_append]
  rfl

/-- **What the loader has done** when it has finished: it has read the number of bytes that the
header says, with each `'\r'` replaced, and jumps to them. -/
theorem finished_received (hlen : image.length < 2 ^ 32) (hu : Idle u)
    (h : BootRun (boot u fdtAddr m) es s) (hl : s.lost = 0) (ha : s.arrived = sendKernel image)
    (hf : Finished s) :
    s.received = ((sendKernel image).map crToLf).take (8 + readSize image.length) ∧
      s.prog = .done (.jump loadAddr fdtAddr (writeImage 0 m (s.received.drop 8))) := by
  have hinv := h.inv hu
  have hb := hinv.bytes hl
  rw [ha] at hb
  have hpre : s.received <+: (sendKernel image).map crToLf := ⟨_, hb.symm⟩
  obtain ⟨hle, hdone, hjump⟩ := consume_loadImageAndBoot hpre hinv.prog
  have hr : s.received.length = 8 + readSize image.length := by
    rcases hf with hf | ⟨hw, hc⟩
    · exact hdone.1 hf
    · have hall := congrArg List.length hb
      rw [hw, hc, List.length_map, length_sendKernel] at hall
      have hs := readSize_le hlen
      simp at hall
      omega
  refine ⟨?_, hjump hr⟩
  rw [← hr]
  exact List.prefix_iff_eq_take.1 hpre

theorem loadsImage_of_no_cr (hlen : image.length < 2 ^ 32)
    (hcr : ∀ b ∈ packLe image.length ++ image, b ≠ 0x0D) : LoadsImage image := by
  intro u fdtAddr m hu es s h hl ha
  obtain ⟨n, s', hrun, hfin⟩ := exists_finished _ (Nat.le_refl _) (h.inv hu)
  refine ⟨⟨n, s', hrun.mono fun _ _ _ => trivial, hfin⟩, fun hf => ?_⟩
  obtain ⟨hr, hp⟩ := finished_received hlen hu h hl ha hf
  have hsize : readSize image.length = image.length :=
    (readSize_eq_iff hlen).2 fun b hb => hcr b (List.mem_append_left _ hb)
  have hmap : image.map crToLf = image :=
    (List.map_congr_left fun b hb => (crToLf_eq_self_iff b).2
      (hcr b (List.mem_append_right _ hb))).trans (List.map_id _)
  have hdrop : s.received.drop 8 = image := by
    rw [hr, hsize, map_sendKernel, hmap, List.take_of_length_le (by simp [length_headerRead]),
      ← length_headerRead image.length, List.drop_left]
  refine ⟨?_, _, hp, fun i hi => ?_⟩
  · rw [hr, hsize, List.length_take, List.length_map, length_sendKernel, Nat.min_self]
  · have := writeImage_apply image (i := 0) m hi (by omega)
    rw [hdrop, ← this, Nat.zero_add]

theorem run_arrive : ∀ (l : List Byte) (s : BootState), BootRun s (l.map .arrive)
    { s with uart := { s.uart with hw := s.uart.hw ++ l }, arrived := s.arrived ++ l }
  | [], s => by
    have h : BootRun s [] s := .nil s
    simpa using h
  | b :: l, s => by
    refine .cons trivial rfl ?_
    have := run_arrive l { s with
      uart := { s.uart with hw := s.uart.hw ++ [b] }, arrived := s.arrived ++ [b] }
    simpa using this

/-- A receiver in polling mode. -/
def pollingUart : UartState where
  hw := []
  rx := ⟨fun _ => 0, 0, 0⟩
  asyncEnabled := false
  rxOverflow := 0

theorem idle_pollingUart : Idle pollingUart := ⟨⟨by decide, by decide⟩, rfl, rfl⟩

theorem step_lost_polling {p : Reader Loaded} {s s' : BootState} {e : Event} (h : BootInv p s)
    (ha : s.uart.asyncEnabled = false) (hs : step s e = some s') :
    s'.uart.asyncEnabled = false ∧ s'.lost = s.lost := by
  cases e with
  | arrive b =>
    simp only [step, Option.some.injEq] at hs
    subst hs
    exact ⟨ha, rfl⟩
  | irq => simp [step, ha] at hs
  | cpu =>
    have hd : s.pc ≠ .drain := fun hd => by
      have := h.mode (by rw [hd]; decide)
      simp [hd, ha] at this
    have hu := uartGetcRaw_asyncEnabled s.uart s.pc
    rw [ha] at hu
    simp only [step, if_neg hd, uartGetc, Nat.add_zero] at hs
    split at hs
    · cases hs
    · split at hs
      all_goals
        rename_i heq
        obtain ⟨rfl, -⟩ := Prod.mk.inj heq
        rw [Option.some.injEq] at hs
        subst hs
        exact ⟨hu, rfl⟩

theorem lost_polling (hu : Idle u) (ha : u.asyncEnabled = false)
    (h : BootRun (boot u fdtAddr m) es s) : s.lost = 0 := by
  have hinv := h.invariant (I := fun s => BootInv (loadImageAndBoot fdtAddr m) s ∧
    s.uart.asyncEnabled = false ∧ s.lost = 0) ?_ ⟨bootInv_boot hu fdtAddr m, ha, rfl⟩
  · exact hinv.2.2
  · rintro s e s' ⟨hi, ha, hl⟩ - hs
    obtain ⟨ha', hl'⟩ := step_lost_polling hi ha hs
    exact ⟨hi.step hs, ha', hl'.trans hl⟩

theorem step_cpu_arrived {s s' : BootState} (hs : step s .cpu = some s') :
    s'.arrived = s.arrived := by
  simp only [step] at hs
  split at hs
  · cases hs
  · split at hs
    all_goals
      rw [Option.some.injEq] at hs
      subst hs
      rfl

/-- There is a run in which everything arrives, nothing is dropped and the loader finishes. -/
theorem exists_transfer (image : List Byte) (fdtAddr : Word) (m : Mem) :
    ∃ es s, BootRun (boot pollingUart fdtAddr m) es s ∧ s.lost = 0 ∧
      s.arrived = sendKernel image ∧ Finished s := by
  have harr := run_arrive (sendKernel image) (boot pollingUart fdtAddr m)
  obtain ⟨n, s, hrun, hf⟩ := exists_finished _ (Nat.le_refl _) (harr.inv idle_pollingUart)
  have hall := harr.append (hrun.mono fun _ _ _ => trivial)
  refine ⟨_, s, hall, lost_polling idle_pollingUart rfl hall, ?_, hf⟩
  refine hrun.invariant (I := fun s => s.arrived = sendKernel image) ?_ (List.nil_append _)
  rintro s e s' ha rfl hs
  exact (step_cpu_arrived hs).trans ha

theorem no_cr_of_loadsImage (hlen : image.length < 2 ^ 32) (h : LoadsImage image) :
    ∀ b ∈ packLe image.length ++ image, b ≠ 0x0D := by
  obtain ⟨es, s, hrun, hl, ha, hf⟩ := exists_transfer image 0 fun _ => 0
  obtain ⟨hr, mem, hp, hmem⟩ := (h _ _ _ idle_pollingUart es s hrun hl ha).2 hf
  obtain ⟨hr', hp'⟩ := finished_received hlen idle_pollingUart hrun hl ha hf
  have hsize : readSize image.length = image.length := by
    have := readSize_le hlen
    have hr'' := congrArg List.length hr'
    rw [hr, List.length_take, List.length_map, length_sendKernel] at hr''
    omega
  have hdrop : s.received.drop 8 = image.map crToLf := by
    rw [hr', hsize, map_sendKernel, List.take_of_length_le (by simp),
      ← length_headerRead image.length, List.drop_left]
  rw [hp, hdrop] at hp'
  have hmem' : mem = writeImage 0 (fun _ => 0) (image.map crToLf) := by
    simpa using hp'
  intro b hb
  rcases List.mem_append.1 hb with hb | hb
  · exact (readSize_eq_iff hlen).1 hsize b hb
  · obtain ⟨i, hi, rfl⟩ := List.getElem_of_mem hb
    have hi' : i < (image.map crToLf).length := by simpa using hi
    have := writeImage_apply (image.map crToLf) (i := 0) (fun _ => 0) hi' (by simp; omega)
    rw [← hmem', Nat.zero_add, hmem i hi, List.getElem_map] at this
    exact (crToLf_eq_self_iff _).1 this.symm

end Transfer

/-- **The transfer works exactly for the images without a `'\r'`**, in the bytes of the image and in
the four bytes of its length. -/
theorem loadsImage_iff {image : List Byte} (hlen : image.length < 2 ^ 32) :
    LoadsImage image ↔ ∀ b ∈ packLe image.length ++ image, b ≠ 0x0D :=
  ⟨no_cr_of_loadsImage hlen, loadsImage_of_no_cr hlen⟩

/-- A four-byte image is transferred. -/
theorem loadsImage_nops : LoadsImage [0x13, 0x00, 0x00, 0x00] :=
  (loadsImage_iff (by decide)).2 (by decide)

/-- An image of one `'\r'` is not transferred. -/
theorem not_loadsImage_cr : ¬ ∀ image : List Byte, image.length < 2 ^ 32 → LoadsImage image :=
  fun h => no_cr_of_loadsImage (by decide) (h [0x0D] (by decide)) 0x0D (by decide) rfl

end OscKernel.Uart.Boot
