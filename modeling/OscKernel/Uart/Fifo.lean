import OscKernel.Uart.Rx
import OscKernel.Lib.Transition
import Mathlib.Data.List.Forall2

/-! # The receive path as a queue

The readers of lab5 take their turns in any order, and between two of their steps the interrupt of the
UART may come in. `uart_handle_irq` runs with interrupts off, so nothing but the hardware goes on
while it moves the bytes round by round.

* `step`: the machine, with what a step shows to the outside.
* `FifoInv`: what holds of the history.
* `fifo_of_run`: it holds along every run, and every step moves the bytes as a queue does. -/

namespace OscKernel.Uart.Fifo

open OscKernel.Lib.Memory OscKernel.Lib.RingBuffer OscKernel.Lib.Transition OscKernel.Uart.Rx

/-! ### The machine -/

/-- `uart_enable_interrupt`, as far as the receiver goes. -/
def uartEnableInterrupt (u : UartState) : UartState :=
  { u with rx := { u.rx with r := 0, w := 0 }, rxOverflow := 0, asyncEnabled := true }

/-- Where a call of `uart_try_getc` stands: as for `uart_getc`, and before the second look at the
ring. -/
inductive TryPc
  | start | poll | rbr | pop | lsr | drain | again
  deriving DecidableEq, Repr

/-- A look at the ring and the removal of its oldest byte, with interrupts off. -/
def tryPop (u : UartState) (empty : TryPc ⊕ Option Byte) : UartState × (TryPc ⊕ Option Byte) :=
  if u.rx.r ≠ u.rx.w then
    ({ u with rx := u.rx.pop uartBufSize }, .inr (some (crToLf u.rx.head)))
  else (u, empty)

/-- One step of `uart_try_getc`, but for the drain: a new place, or the result, with the byte written
to `*out` if it is 1. `out` says that the pointer is not null. -/
def uartTryGetc (out : Bool) (u : UartState) : TryPc → UartState × (TryPc ⊕ Option Byte)
  | .start => (u, if out then .inl (if u.asyncEnabled then .pop else .poll) else .inr none)
  | .poll => (u, if u.hw = [] then .inr none else .inl .rbr)
  | .rbr => ({ u with hw := u.hw.tail }, .inr (some (crToLf (u.hw.headD 0))))
  | .pop => tryPop u (.inl .lsr)
  | .lsr => (u, if u.hw = [] then .inr none else .inl .drain)
  | .drain => (u, .inl .again)
  | .again => tryPop u (.inr none)

/-- The three readers. -/
inductive Reader
  | getc | getcRaw | tryGetc (out : Bool)
  deriving DecidableEq, Repr

/-- What a reader makes of the byte it takes. -/
def Reader.result : Reader → Byte → Byte
  | .getcRaw => id
  | _ => crToLf

/-- A call of a reader, and where it stands. -/
inductive Call
  | getc (pc : GetcPc)
  | getcRaw (pc : GetcPc)
  | tryGetc (out : Bool) (pc : TryPc)
  deriving DecidableEq, Repr

/-- The call at its start. -/
def Reader.call : Reader → Call
  | .getc => .getc .start
  | .getcRaw => .getcRaw .start
  | .tryGetc out => .tryGetc out .start

/-- What a step of a call comes to: it goes on, it enters `uart_handle_irq`, or it returns, with a
byte or, `uart_try_getc` only, without. -/
inductive Outcome
  | goes (c : Call)
  | enters (c : Call)
  | returns (k : Reader) (c : Option Byte)

/-- One step of a call. -/
def callStep (u : UartState) : Call → UartState × Outcome
  | .getc .drain => (u, .enters (.getc .pop))
  | .getc pc =>
    match uartGetc u pc with
    | (u, .inl pc) => (u, .goes (.getc pc))
    | (u, .inr c) => (u, .returns .getc (some c))
  | .getcRaw .drain => (u, .enters (.getcRaw .pop))
  | .getcRaw pc =>
    match uartGetcRaw u pc with
    | (u, .inl pc) => (u, .goes (.getcRaw pc))
    | (u, .inr c) => (u, .returns .getcRaw (some c))
  | .tryGetc out .drain => (u, .enters (.tryGetc out .again))
  | .tryGetc out pc =>
    match uartTryGetc out u pc with
    | (u, .inl pc) => (u, .goes (.tryGetc out pc))
    | (u, .inr c) => (u, .returns (.tryGetc out) c)

/-- The receiver, whether `uart_handle_irq` is running, and the calls of the readers. -/
structure State where
  u : UartState
  handling : Bool
  calls : List Call

inductive Event
  /-- a byte comes in at the hardware -/
  | arrive (c : Byte)
  /-- `uart_handle_irq` is entered by an interrupt -/
  | irq
  /-- the loop of `uart_handle_irq` goes round -/
  | round
  /-- a reader is called -/
  | call (k : Reader)
  /-- the next step of a call -/
  | turn (i : ℕ)
  deriving DecidableEq

/-- What an event shows to the outside. -/
inductive Output
  | quiet
  | arrived (c : Byte)
  /-- `uart_handle_irq` read a byte from `RBR` -/
  | took (c : Byte)
  /-- a reader returned a byte -/
  | read (k : Reader) (c : Byte)
  deriving DecidableEq

def step (s : State) : Event → Option (State × Output)
  | .arrive c => some ({ s with u := { s.u with hw := s.u.hw ++ [c] } }, .arrived c)
  | .irq => if s.handling then none else some ({ s with handling := true }, .quiet)
  | .round =>
    if s.handling then
      match s.u.hw with
      | [] => some ({ s with handling := false }, .quiet)
      | c :: l => some ({ s with u := rxStore { s.u with hw := l } c }, .took c)
    else none
  | .call k => if s.handling then none else some ({ s with calls := s.calls ++ [k.call] }, .quiet)
  | .turn i =>
    if s.handling then none
    else
      s.calls[i]?.map fun c =>
        match callStep s.u c with
        | (u, .goes c) => (⟨u, false, s.calls.set i c⟩, .quiet)
        | (u, .enters c) => (⟨u, true, s.calls.set i c⟩, .quiet)
        | (u, .returns k (some b)) => (⟨u, false, s.calls.eraseIdx i⟩, .read k b)
        | (u, .returns _ none) => (⟨u, false, s.calls.eraseIdx i⟩, .quiet)

/-- The history: the bytes that came in, those read from `RBR`, each with whether the ring held 511
bytes then, and the bytes that the readers returned. -/
structure Log where
  arrived : List Byte
  taken : List (Byte × Bool)
  reads : List (Reader × Byte)

/-- The history after a step. -/
def Log.update (h : Log) (s : State) (o : Output) (_ : State) : Log :=
  match o with
  | .quiet => h
  | .arrived c => { h with arrived := h.arrived ++ [c] }
  | .took c => { h with taken := h.taken ++ [(c, decide (s.u.contents.length = uartBufSize - 1))] }
  | .read k c => { h with reads := h.reads ++ [(k, c)] }

/-- The bytes taken from the hardware, without those taken while the ring was full. -/
def Log.kept (h : Log) : List Byte := (h.taken.filter fun t => !t.2).map Prod.fst

/-- The number of bytes taken while the ring was full. -/
def Log.dropped (h : Log) : ℕ := h.taken.countP Prod.snd

/-- The state after `uart_enable_interrupt`, with no call of a reader in progress. -/
def start (u : UartState) : State × Log := (⟨uartEnableInterrupt u, false, []⟩, ⟨u.hw, [], []⟩)

/-- A run after `uart_enable_interrupt`. -/
abbrev RunFrom (u : UartState) (es : List Event) (p : State × Log) : Prop :=
  Run (withHistory step Log.update) (fun _ _ => True) (start u) es p

/-! ### What a step does -/

/-- The call stands in the polling loop. -/
def Call.Polls : Call → Prop
  | .getc pc | .getcRaw pc => pc = .poll ∨ pc = .rbr
  | .tryGetc _ pc => pc = .poll ∨ pc = .rbr

section Steps
variable {u : UartState} {c : Call} {s s' : State} {e : Event} {o : Output}

/-- What one step of a call comes to in interrupt mode. -/
inductive CallMoves (u : UartState) : UartState × Outcome → Prop
  | goes {c : Call} (h : ¬ c.Polls) : CallMoves u (u, .goes c)
  | enters {c : Call} (h : ¬ c.Polls) : CallMoves u (u, .enters c)
  | empty (k : Reader) : CallMoves u (u, .returns k none)
  | pops (k : Reader) (h : u.rx.r ≠ u.rx.w) :
    CallMoves u ({ u with rx := u.rx.pop uartBufSize }, .returns k (some (k.result u.rx.head)))

theorem callMoves_tryPop {out : Bool} {x : TryPc ⊕ Option Byte} (hx : x = .inl .lsr ∨ x = .inr none) :
    CallMoves u (match tryPop u x with
      | (u, .inl pc) => (u, .goes (.tryGetc out pc))
      | (u, .inr c) => (u, .returns (.tryGetc out) c)) := by
  unfold tryPop
  split_ifs with h
  · exact .pops (.tryGetc out) h
  · rcases hx with rfl | rfl
    · exact .goes (by simp [Call.Polls])
    · exact .empty _

/-- The steps that `uart_getc` and `uart_getc_raw` share. -/
theorem uartGetcRaw_moves {pc : GetcPc} (ha : u.asyncEnabled = true) (hp : pc ≠ .poll)
    (hr : pc ≠ .rbr)
    (hd : pc ≠ .drain) :
    (∃ pc', uartGetcRaw u pc = (u, .inl pc') ∧ ¬ (Call.getc pc').Polls) ∨
      u.rx.r ≠ u.rx.w ∧
        uartGetcRaw u pc = ({ u with rx := u.rx.pop uartBufSize }, .inr u.rx.head) := by
  cases pc with
  | start => exact .inl ⟨.pop, by rw [uartGetcRaw, ha]; rfl, by simp [Call.Polls]⟩
  | poll => exact absurd rfl hp
  | rbr => exact absurd rfl hr
  | pop =>
    by_cases h : u.rx.r = u.rx.w
    · exact .inl ⟨.lsr, uartGetcRaw_pop_empty h, by simp [Call.Polls]⟩
    · exact .inr ⟨h, uartGetcRaw_pop h⟩
  | lsr =>
    refine .inl ⟨_, rfl, ?_⟩
    split_ifs <;> simp [Call.Polls]
  | drain => exact absurd rfl hd

theorem callStep_moves (ha : u.asyncEnabled = true) (hc : ¬ c.Polls) :
    CallMoves u (callStep u c) := by
  cases c with
  | getc pc =>
    have hp := not_or.1 hc
    by_cases hd : pc = .drain
    · subst hd
      exact .enters (by simp [Call.Polls])
    rw [callStep.eq_2 _ _ hd, uartGetc]
    rcases uartGetcRaw_moves ha hp.1 hp.2 hd with ⟨pc', h, hpc⟩ | ⟨hne, h⟩
    · rw [h]
      exact .goes hpc
    · rw [h]
      exact .pops .getc hne
  | getcRaw pc =>
    have hp := not_or.1 hc
    by_cases hd : pc = .drain
    · subst hd
      exact .enters (by simp [Call.Polls])
    rw [callStep.eq_4 _ _ hd]
    rcases uartGetcRaw_moves ha hp.1 hp.2 hd with ⟨pc', h, hpc⟩ | ⟨hne, h⟩
    · rw [h]
      exact .goes hpc
    · rw [h]
      exact .pops .getcRaw hne
  | tryGetc out pc =>
    cases pc with
    | start =>
      simp only [callStep, uartTryGetc, ha, if_true]
      cases out with
      | true => exact .goes (by simp [Call.Polls])
      | false => exact .empty _
    | poll => exact absurd (.inl rfl) hc
    | rbr => exact absurd (.inr rfl) hc
    | pop => exact callMoves_tryPop (.inl rfl)
    | lsr =>
      simp only [callStep, uartTryGetc]
      split_ifs
      · exact .empty _
      · exact .goes (by simp [Call.Polls])
    | drain => exact .enters (by simp [Call.Polls])
    | again => exact callMoves_tryPop (.inr rfl)

/-- What a step does to the receiver in interrupt mode. -/
inductive Moves (u : UartState) : Output → UartState → Prop
  | quiet : Moves u .quiet u
  | arrived (c : Byte) : Moves u (.arrived c) { u with hw := u.hw ++ [c] }
  | took {c : Byte} {l : List Byte} (h : u.hw = c :: l) :
    Moves u (.took c) (rxStore { u with hw := l } c)
  | read (k : Reader) (h : u.rx.r ≠ u.rx.w) :
    Moves u (.read k (k.result u.rx.head)) { u with rx := u.rx.pop uartBufSize }

/-- Interrupt mode is on, the indices are in range, and no call polls. -/
structure Ready (s : State) : Prop where
  async : s.u.asyncEnabled = true
  wf : s.u.WF
  calls : ∀ c ∈ s.calls, ¬ c.Polls

theorem not_polls_call (k : Reader) : ¬ k.call.Polls := by
  cases k <;> simp [Reader.call, Call.Polls]

theorem step_moves (hr : Ready s) (h : step s e = some (s', o)) :
    Moves s.u o s'.u ∧ ∀ c ∈ s'.calls, ¬ c.Polls := by
  cases e with
  | arrive c =>
    cases h
    exact ⟨.arrived c, hr.calls⟩
  | irq =>
    rw [step] at h
    split_ifs at h
    cases h
    exact ⟨.quiet, hr.calls⟩
  | round =>
    rw [step] at h
    split_ifs at h
    cases hhw : s.u.hw with
    | nil =>
      rw [hhw] at h
      cases h
      exact ⟨.quiet, hr.calls⟩
    | cons c l =>
      rw [hhw] at h
      cases h
      exact ⟨.took hhw, hr.calls⟩
  | call k =>
    rw [step] at h
    split_ifs at h
    cases h
    refine ⟨.quiet, fun c hc => ?_⟩
    rcases List.mem_append.1 hc with hc | hc
    · exact hr.calls c hc
    · exact List.mem_singleton.1 hc ▸ not_polls_call k
  | turn i =>
    rw [step] at h
    split_ifs at h
    obtain ⟨c, hc, heq⟩ := Option.map_eq_some_iff.1 h
    have hmem := List.mem_of_getElem? hc
    have hmoves := callStep_moves hr.async (hr.calls c hmem)
    have hset : ∀ d, ¬ d.Polls → ∀ x ∈ s.calls.set i d, ¬ x.Polls := fun d hd x hx =>
      (List.mem_or_eq_of_mem_set hx).elim (hr.calls x) fun he => he ▸ hd
    have herase : ∀ x ∈ s.calls.eraseIdx i, ¬ x.Polls := fun x hx =>
      hr.calls x (List.mem_of_mem_eraseIdx hx)
    generalize callStep s.u c = r at hmoves heq
    cases hmoves with
    | goes hd =>
      cases heq
      exact ⟨.quiet, hset _ hd⟩
    | enters hd =>
      cases heq
      exact ⟨.quiet, hset _ hd⟩
    | empty k =>
      cases heq
      exact ⟨.quiet, herase⟩
    | pops k hne =>
      cases heq
      exact ⟨.read k hne, herase⟩

theorem Moves.ready {u' : UartState} (h : Moves u o u') (ha : u.asyncEnabled = true) (hw : u.WF) :
    u'.asyncEnabled = true ∧ u'.WF := by
  cases h with
  | quiet => exact ⟨ha, hw⟩
  | arrived c => exact ⟨ha, hw⟩
  | @took c l hhw =>
    exact ⟨(rxStore_asyncEnabled _ _).trans ha, rxStore_wf (u := { u with hw := l }) hw c⟩
  | read k hne => exact ⟨ha, RingBuf.WF.pop hw⟩

end Steps

/-! ### The queue -/

section Queue
variable {u u' : UartState} {h : Log} {o : Output}

/-- What holds of the receiver and the history: the indices are in range; the bytes came from the
hardware in order; the readers returned what they consumed, and that with the contents of the ring is
what was kept; the overflows are counted. -/
structure FifoInv (u : UartState) (h : Log) : Prop where
  indices : u.rx.r < uartBufSize ∧ u.rx.w < uartBufSize
  arrived : h.taken.map Prod.fst ++ u.hw = h.arrived
  order : ∃ consumed, List.Forall₂ (fun t c => t.2 = t.1.result c) h.reads consumed ∧
    consumed ++ u.contents = h.kept
  overflow : u.rxOverflow = BitVec.ofNat 32 h.dropped

/-- What a step does to the contents of the ring, seen as a queue. -/
def Queues (u : UartState) (o : Output) (u' : UartState) : Prop :=
  match o with
  | .read k b => ∃ c, u.contents = c :: u'.contents ∧ b = k.result c
  | .took c =>
    u'.contents = if u.contents.length = uartBufSize - 1 then u.contents else u.contents ++ [c]
  | _ => u'.contents = u.contents

theorem contents_rxStore_if (hw : u.WF) (c : Byte) : (rxStore u c).contents =
    if u.contents.length = uartBufSize - 1 then u.contents else u.contents ++ [c] := by
  have hlen := length_contents_lt hw
  rw [contents_rxStore hw]
  split_ifs with hfull
  · rw [← hfull, List.take_left]
  · rw [List.take_of_length_le]
    rw [List.length_append, List.length_singleton]
    omega

theorem rxOverflow_rxStore (hw : u.WF) (c : Byte) : (rxStore u c).rxOverflow =
    if u.contents.length = uartBufSize - 1 then u.rxOverflow + 1 else u.rxOverflow := by
  rw [rxStore]
  by_cases hfull : nextIdx uartBufSize u.rx.w = u.rx.r
  · rw [if_neg (not_not.2 hfull), if_pos ((full_iff_length hw).1 hfull)]
  · rw [if_pos hfull, if_neg (mt (full_iff_length hw).2 hfull)]

theorem Moves.queues (hm : Moves u o u') (hw : u.WF) : Queues u o u' := by
  cases hm with
  | quiet => rfl
  | arrived c => rfl
  | @took c l hhw => exact contents_rxStore_if (u := { u with hw := l }) hw c
  | read k hne => exact ⟨u.rx.head, RingBuf.contents_pop hw hne, rfl⟩

/-- **One step keeps the history and the ring together.** -/
theorem Moves.fifo (hm : Moves u o u') (hw : u.WF) (hf : FifoInv u h) {s s' : State} (hs : s.u = u) :
    FifoInv u' (h.update s o s') := by
  have hw' := hm.queues hw
  obtain ⟨consumed, hreads, horder⟩ := hf.order
  subst hs
  cases hm with
  | quiet => exact hf
  | arrived c =>
    refine ⟨hf.indices, ?_, ⟨consumed, hreads, horder⟩, hf.overflow⟩
    simp only [Log.update, ← hf.arrived, List.append_assoc]
  | @took c l hhw =>
    have hwf := rxStore_wf (u := { s.u with hw := l }) hw c
    have hover := rxOverflow_rxStore (u := { s.u with hw := l }) hw c
    have harr := hf.arrived
    rw [hhw] at harr
    refine ⟨⟨hwf.r_lt, hwf.w_lt⟩, ?_, ⟨consumed, hreads, ?_⟩, ?_⟩
    · rw [rxStore_hw]
      simp only [Log.update, ← harr, List.map_append, List.append_assoc]
      rfl
    · rw [show (rxStore { s.u with hw := l } c).contents = _ from hw', Log.kept, Log.update,
        List.filter_append, List.map_append]
      by_cases hfull : s.u.contents.length = uartBufSize - 1
      · rw [if_pos hfull, horder]
        simp [hfull, Log.kept]
      · rw [if_neg hfull, ← List.append_assoc, horder]
        simp [hfull, Log.kept]
    · rw [hover, Log.dropped, Log.update, List.countP_append]
      have hcontents : UartState.contents { s.u with hw := l } = s.u.contents := rfl
      rw [hcontents]
      by_cases hfull : s.u.contents.length = uartBufSize - 1
      · have hold : s.u.rxOverflow = BitVec.ofNat 32 (h.taken.countP Prod.snd) := hf.overflow
        rw [if_pos hfull]
        simp only [hold, hfull, decide_true, List.countP_singleton, if_true, BitVec.ofNat_add]
        rfl
      · rw [if_neg hfull]
        simpa [hfull, Log.dropped] using hf.overflow
  | read k hne =>
    have hwf := RingBuf.WF.pop hw
    have hpop := RingBuf.contents_pop hw hne
    refine ⟨⟨hwf.r_lt, hwf.w_lt⟩, hf.arrived, ⟨consumed ++ [s.u.rx.head], ?_, ?_⟩, hf.overflow⟩
    · exact List.rel_append hreads (.cons rfl .nil)
    · rw [List.append_assoc, List.singleton_append]
      exact (congrArg (consumed ++ ·) hpop.symm).trans horder

end Queue

/-! ### Runs -/

section Runs
variable {u : UartState} {es : List Event} {s : State} {h : Log}

theorem ready_start (u : UartState) : Ready (start u).1 :=
  have h0 : 0 < uartBufSize := by decide
  ⟨rfl, ⟨h0, h0⟩, fun c hc => by cases hc⟩

theorem fifo_start (u : UartState) : FifoInv (start u).1.u (start u).2 := by
  have hw := (ready_start u).wf
  have hnil : (start u).1.u.contents = [] := (RingBuf.contents_eq_nil_iff hw).2 rfl
  refine ⟨⟨hw.r_lt, hw.w_lt⟩, List.nil_append _, ⟨[], .nil, ?_⟩, ?_⟩
  · rw [hnil]
    rfl
  · have h0 : (start u).2.dropped = 0 := rfl
    rw [h0]
    rfl

/-- **The receive path is a queue**: along every run after `uart_enable_interrupt`, and whatever the
next step is. -/
theorem fifo_of_run (hr : RunFrom u es (s, h)) :
    FifoInv s.u h ∧ ∀ e s' o, step s e = some (s', o) → Queues s.u o s'.u := by
  have hinv : Ready s ∧ FifoInv s.u h := by
    refine hr.invariant (I := fun p => Ready p.1 ∧ FifoInv p.1.u p.2) (fun p e q hp _ hq => ?_)
      ⟨ready_start u, fifo_start u⟩
    obtain ⟨o, ho, hlog⟩ := withHistory_eq_some hq
    obtain ⟨hm, hcalls⟩ := step_moves hp.1 ho
    obtain ⟨ha, hw⟩ := hm.ready hp.1.async hp.1.wf
    exact ⟨⟨ha, hw, hcalls⟩, hlog ▸ hm.fifo hp.1.wf hp.2 rfl⟩
  exact ⟨hinv.2, fun e s' o ho => (step_moves hinv.1 ho).1.queues hinv.1.wf⟩

/-- A receiver before `uart_enable_interrupt`. -/
def sampleUart : UartState := ⟨[13], ⟨fun _ => 0, 5, 7⟩, false, 3⟩

/-- The interrupt moves two bytes to the ring, and two readers take them. -/
def sampleEvents : List Event :=
  [.arrive 98, .irq, .round, .round, .round, .call .getc, .call (.tryGetc true), .turn 0, .turn 1,
    .turn 0, .turn 0]

theorem fifo_of_run_sample : ∃ s h, RunFrom sampleUart sampleEvents (s, h) ∧ FifoInv s.u h ∧
    h.reads = [(.getc, 10), (.tryGetc true, 98)] := by
  have hexec : (exec (withHistory step Log.update) (fun _ _ => true) (start sampleUart)
      sampleEvents).map (fun p => p.2.reads) = some [(.getc, 10), (.tryGetc true, 98)] := by
    decide +kernel
  obtain ⟨⟨s, h⟩, hrun, hreads⟩ :=
    Run.exists_of_exec (C := fun _ _ => True) (fun _ _ _ => trivial) hexec
  exact ⟨s, h, hrun, (fifo_of_run hrun).1, hreads⟩

end Runs

end OscKernel.Uart.Fifo
