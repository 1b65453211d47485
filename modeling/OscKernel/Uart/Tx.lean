import OscKernel.Lib.Amortized
import OscKernel.Lib.RingBuffer
import OscKernel.Lib.Screen

/-! # The transmit path of the UART driver of lab4

In interrupt mode `uart_putc` puts the byte into a ring of `512` cells, and `uart_tx_kick_locked` moves
bytes from there to the transmitter, with interrupts off: called by `uart_putc`, or by `uart_handle_irq`
when the UART interrupts. `LSR_TDRQ` says that the transmitter takes a byte; a byte written to `THR`
without it is lost. A call puts out a text: one byte for `uart_putc`, a string for `uart_puts`. Calls
take their turns in any order, and each of them stands where it was when it goes on.

The receiver half of `uart_handle_irq` does not touch the transmitter, so it is left out.

* `sends_of_run`: what is on the line and in the ring is what the calls have put out, byte for byte and
  in order; no byte is lost, and while bytes wait the transmit interrupt is on.
* `kicks_of_run`: interrupts are off for a bounded number of rounds.
* `flushed`: one interrupt puts out the whole ring while the transmitter keeps up. -/

namespace OscKernel.Uart.Tx

open OscKernel.Lib.Memory OscKernel.Lib.RingBuffer OscKernel.Lib.Transition
open OscKernel.Lib.Screen (lf cr)

/-- `UART_BUF_SIZE`. -/
def uartBufSize : ℕ := 512

/-- The transmitter: `LSR_TDRQ`, `tx_buf` with `tx_r` and `tx_w`, and `IER_TX_ENABLE`. -/
structure UartState where
  tdrq : Bool
  tx : RingBuf Byte
  ierTx : Bool

/-- The bytes in the ring, the oldest first. -/
def UartState.contents (u : UartState) : List Byte := u.tx.contents uartBufSize

/-- `uart_enable_tx_interrupt`. -/
def uartEnableTxInterrupt (u : UartState) : UartState := { u with ierTx := true }

/-- `uart_disable_tx_interrupt`. -/
def uartDisableTxInterrupt (u : UartState) : UartState := { u with ierTx := false }

/-- Where `uart_tx_kick_locked` stands: before the test of the loop, or before the write to `THR`. -/
inductive KickPc
  | test | write
  deriving DecidableEq, Repr

/-- A call: the rest of the text, and whether the `'\r'` before the `'\n'` at its head is done. -/
structure Call where
  crDone : Bool
  rest : List Byte
  deriving DecidableEq, Repr

/-- The byte that the call puts next. -/
def Call.next (c : Call) : Option Byte :=
  c.rest.head?.map fun b => if b = lf ∧ c.crDone = false then cr else b

/-- The call after that byte. -/
def Call.advance (c : Call) : Call :=
  if c.rest.head? = some lf ∧ c.crDone = false then { c with crDone := true }
  else ⟨false, c.rest.tail⟩

/-- The transmitter, where `uart_tx_kick_locked` stands if it runs, and the calls in progress by their
numbers. -/
structure State where
  u : UartState
  kick : Option KickPc
  calls : ℕ → Option Call
  count : ℕ

inductive Event
  /-- the transmitter takes bytes again -/
  | tdrq
  /-- `uart_handle_irq` is entered -/
  | irq
  /-- `uart_tx_kick_locked` goes on; after a write the transmitter takes another byte if `more` -/
  | kick (more : Bool)
  /-- a text is to be put out -/
  | call (text : List Byte)
  /-- the next round of a call -/
  | turn (i : ℕ)
  deriving DecidableEq

/-- What an event shows to the outside. -/
inductive Output
  | quiet
  | called (text : List Byte)
  /-- a call put a byte into the ring -/
  | queued (i : ℕ) (b : Byte)
  /-- a byte was written to `THR` -/
  | sent (b : Byte)
  /-- a byte was written to `THR` while `LSR_TDRQ` was clear -/
  | lost (b : Byte)
  deriving DecidableEq

/-- One round of `uart_tx_kick_locked`. -/
def uartTxKickLocked (s : State) (more : Bool) : KickPc → State × Output
  | .test =>
    if s.u.tx.r ≠ s.u.tx.w ∧ s.u.tdrq = true then ({ s with kick := some .write }, .quiet)
    else
      ({ s with
        u := if s.u.tx.r = s.u.tx.w then uartDisableTxInterrupt s.u else uartEnableTxInterrupt s.u
        kick := none }, .quiet)
  | .write =>
    ({ s with
      u := { s.u with tdrq := s.u.tdrq && more, tx := s.u.tx.pop uartBufSize }
      kick := some .test }, if s.u.tdrq then .sent s.u.tx.head else .lost s.u.tx.head)

/-- One round of the loop of `uart_putc`, up to the call of `uart_tx_kick_locked`. -/
def uartPutc (s : State) (i : ℕ) (c : Call) (b : Byte) : State × Output :=
  if nextIdx uartBufSize s.u.tx.w ≠ s.u.tx.r then
    ({ s with
      u := uartEnableTxInterrupt { s.u with tx := s.u.tx.push uartBufSize b }
      kick := some .test
      calls := Function.update s.calls i (some c.advance) }, .queued i b)
  else ({ s with kick := some .test }, .quiet)

def step (s : State) : Event → Option (State × Output)
  | .tdrq => some ({ s with u := { s.u with tdrq := true } }, .quiet)
  | .irq => if s.kick = none then some ({ s with kick := some .test }, .quiet) else none
  | .kick more => s.kick.map (uartTxKickLocked s more)
  | .call text =>
    if s.kick = none then
      some ({ s with
        calls := Function.update s.calls s.count (some ⟨false, text⟩), count := s.count + 1 },
        .called text)
    else none
  | .turn i =>
    if s.kick = none then
      (s.calls i).map fun c =>
        match c.next with
        | none => ({ s with calls := Function.update s.calls i none }, .quiet)
        | some b => uartPutc s i c b
    else none

/-- The history: the texts of the calls, the bytes put into the ring, each with the call that put it,
and those written to `THR` with and without `LSR_TDRQ`. -/
structure Log where
  texts : List (List Byte)
  queued : List (ℕ × Byte)
  wire : List Byte
  lost : List Byte

/-- The history after a step. -/
def Log.update (h : Log) (_ : State) (o : Output) (_ : State) : Log :=
  match o with
  | .quiet => h
  | .called text => { h with texts := h.texts ++ [text] }
  | .queued i b => { h with queued := h.queued ++ [(i, b)] }
  | .sent b => { h with wire := h.wire ++ [b] }
  | .lost b => { h with lost := h.lost ++ [b] }

/-- The bytes that the call `i` has put into the ring. -/
def Log.queuedBy (h : Log) (i : ℕ) : List Byte := (h.queued.filter fun q => q.1 = i).map Prod.snd

/-- `uart_enable_interrupt`, as far as the transmitter goes. -/
def uartEnableInterrupt (u : UartState) : UartState :=
  uartDisableTxInterrupt { u with tx := { u.tx with r := 0, w := 0 } }

/-- The state after `uart_enable_interrupt`, with no call in progress. -/
def start (u : UartState) : State × Log :=
  (⟨uartEnableInterrupt u, none, fun _ => none, 0⟩, ⟨[], [], [], []⟩)

/-- A run after `uart_enable_interrupt`. -/
abbrev RunFrom (u : UartState) (es : List Event) (p : State × Log) : Prop :=
  Run (withHistory step Log.update) (fun _ _ => True) (start u) es p

/-! ### Texts -/

/-- What comes out for a text: a `'\r'` before every `'\n'`. -/
def crlf (text : List Byte) : List Byte := text.flatMap fun b => if b = lf then [cr, b] else [b]

/-- What a call has still to put. -/
def Call.left (c : Call) : List Byte :=
  if c.crDone then c.rest.take 1 ++ crlf c.rest.tail else crlf c.rest

theorem Call.left_of_next {c : Call} (h : c.next = none) : c.left = [] := by
  have hr : c.rest = [] := by
    simpa [Call.next] using h
  unfold Call.left
  rw [hr]
  split_ifs <;> rfl

theorem Call.left_advance {c : Call} {b : Byte} (h : c.next = some b) :
    c.left = b :: c.advance.left := by
  obtain ⟨done, _ | ⟨a, l⟩⟩ := c
  · cases h
  · simp only [Call.next, List.head?_cons, Option.map_some, Option.some.injEq] at h
    subst h
    by_cases ha : a = lf
    · subst ha
      cases done with
      | false => simp [Call.left, Call.advance, crlf]
      | true => simp [Call.left, Call.advance, crlf]
    · cases done with
      | false => simp [Call.left, Call.advance, crlf, ha]
      | true => simp [Call.left, Call.advance, crlf, ha]

/-! ### What holds of the history -/

/-- What holds of the history: nothing is lost or comes out of order, and while bytes wait the transmit
interrupt is on. -/
structure Sends (s : State) (h : Log) : Prop where
  index : s.u.tx.r < uartBufSize ∧ s.u.tx.w < uartBufSize
  order : h.wire ++ s.u.contents = h.queued.map Prod.snd
  lost : h.lost = []
  texts : ∀ i text, h.texts[i]? = some text →
    h.queuedBy i ++ ((s.calls i).elim [] Call.left) = crlf text
  wakes : s.kick = none → (s.u.ierTx = true ↔ s.u.contents ≠ [])

/-- The invariant. -/
structure Inv (s : State) (h : Log) : Prop where
  sends : Sends s h
  count : h.texts.length = s.count
  fresh : ∀ i, s.count ≤ i → s.calls i = none ∧ h.queuedBy i = []
  write : s.kick = some .write → s.u.tx.r ≠ s.u.tx.w ∧ s.u.tdrq = true

section Steps
variable {s s' : State} {h : Log} {e : Event} {o : Output} {u : UartState} {es : List Event}

theorem Sends.wf (hs : Sends s h) : s.u.tx.WF uartBufSize := ⟨hs.index.1, hs.index.2⟩

theorem contents_ne_nil (hs : Sends s h) : s.u.contents ≠ [] ↔ s.u.tx.r ≠ s.u.tx.w :=
  not_congr (RingBuf.contents_eq_nil_iff hs.wf)

theorem inv_start (u : UartState) : Inv (start u).1 (start u).2 := by
  have hpos : 0 < uartBufSize := by decide
  have h0 : (start u).1.u.tx.WF uartBufSize := ⟨hpos, hpos⟩
  have hnil : (start u).1.u.contents = [] := (RingBuf.contents_eq_nil_iff h0).2 rfl
  refine ⟨⟨⟨h0.r_lt, h0.w_lt⟩, ?_, rfl, ?_, fun _ => ?_⟩, rfl, fun _ _ => ⟨rfl, rfl⟩, ?_⟩
  · rw [hnil]
    rfl
  · intro i text hi
    simp [start] at hi
  · rw [hnil]
    simp [start, uartEnableInterrupt, uartDisableTxInterrupt]
  · intro hk
    cases hk

theorem Inv.kick {more : Bool} {pc : KickPc} (hi : Inv s h) (hk : s.kick = some pc)
    (hs : uartTxKickLocked s more pc = (s', o)) : Inv s' (h.update s o s') := by
  obtain ⟨hsends, hcount, hfresh, hwrite⟩ := hi
  have hwf := hsends.wf
  have hne := contents_ne_nil hsends
  obtain ⟨hidx, horder, hlost, htexts, -⟩ := hsends
  cases pc with
  | test =>
    rw [uartTxKickLocked] at hs
    split_ifs at hs with hgo hempty
    · obtain ⟨rfl, rfl⟩ := Prod.mk.inj hs
      exact ⟨⟨hidx, horder, hlost, htexts, fun hn => by cases hn⟩, hcount, hfresh, fun _ => hgo⟩
    · obtain ⟨rfl, rfl⟩ := Prod.mk.inj hs
      refine ⟨⟨hidx, horder, hlost, htexts, fun _ => ?_⟩, hcount, hfresh, fun hn => by cases hn⟩
      refine iff_of_false (by simp [uartDisableTxInterrupt]) fun hc => ?_
      exact hne.1 hc hempty
    · obtain ⟨rfl, rfl⟩ := Prod.mk.inj hs
      refine ⟨⟨hidx, horder, hlost, htexts, fun _ => ?_⟩, hcount, hfresh, fun hn => by cases hn⟩
      exact iff_of_true rfl (hne.2 hempty)
  | write =>
    obtain ⟨hrw, htdrq⟩ := hwrite hk
    rw [uartTxKickLocked, htdrq, if_pos rfl] at hs
    obtain ⟨rfl, rfl⟩ := Prod.mk.inj hs
    have hpop := RingBuf.contents_pop hwf hrw
    refine ⟨⟨⟨hwf.pop.r_lt, hwf.pop.w_lt⟩, ?_, hlost, htexts, fun hn => by cases hn⟩, hcount, hfresh,
      fun hn => by cases hn⟩
    change h.wire ++ [s.u.tx.head] ++ (s.u.tx.pop uartBufSize).contents uartBufSize = _
    rw [List.append_assoc, List.singleton_append, ← hpop]
    exact horder

theorem queuedBy_update {i j : ℕ} {b : Byte} :
    (h.update s (.queued i b) s').queuedBy j = h.queuedBy j ++ if i = j then [b] else [] := by
  unfold Log.update Log.queuedBy
  rw [List.filter_append, List.map_append]
  congr 1
  split_ifs with hij
  · simp [hij]
  · simp [hij]

theorem Inv.putc {i : ℕ} {c : Call} {b : Byte} (hi : Inv s h) (hc : s.calls i = some c)
    (hb : c.next = some b) (hs : uartPutc s i c b = (s', o)) : Inv s' (h.update s o s') := by
  obtain ⟨hsends, hcount, hfresh, -⟩ := hi
  have hwf := hsends.wf
  obtain ⟨hidx, horder, hlost, htexts, -⟩ := hsends
  unfold uartPutc at hs
  split_ifs at hs with hfull
  · obtain ⟨rfl, rfl⟩ := Prod.mk.inj hs
    have hic : i < s.count := by
      by_contra hn
      rw [(hfresh i (not_lt.1 hn)).1] at hc
      cases hc
    have hpush := hwf.push b
    refine ⟨⟨⟨hpush.r_lt, hpush.w_lt⟩, ?_, hlost, fun j text hj => ?_, fun hn => by cases hn⟩, hcount,
      fun j hj => ?_, fun hn => by cases hn⟩
    · change h.wire ++ (s.u.tx.push uartBufSize b).contents uartBufSize = _
      rw [RingBuf.contents_push hwf hfull, ← List.append_assoc]
      simp only [Log.update, List.map_append, List.map_cons, List.map_nil, ← horder]
      rfl
    · have hold := htexts j text hj
      rw [queuedBy_update]
      dsimp only
      rcases eq_or_ne i j with rfl | hij
      · rw [hc] at hold
        rw [if_pos rfl, Function.update_self, ← hold]
        simp [Call.left_advance hb]
      · rw [if_neg hij, Function.update_of_ne hij.symm, List.append_nil]
        exact hold
    · have hij : i ≠ j := by
        dsimp only at hj
        omega
      rw [queuedBy_update, if_neg hij, List.append_nil]
      dsimp only
      rw [Function.update_of_ne hij.symm]
      exact hfresh j hj
  · obtain ⟨rfl, rfl⟩ := Prod.mk.inj hs
    exact ⟨⟨hidx, horder, hlost, htexts, fun hn => by cases hn⟩, hcount, hfresh, fun hn => by cases hn⟩

theorem Inv.step (hi : Inv s h) (hs : step s e = some (s', o)) : Inv s' (h.update s o s') := by
  obtain ⟨hsends, hcount, hfresh, hwrite⟩ := hi
  obtain ⟨hidx, horder, hlost, htexts, hwakes⟩ := id hsends
  cases e with
  | tdrq =>
    obtain ⟨rfl, rfl⟩ := Prod.mk.inj (Option.some.inj hs)
    exact ⟨⟨hidx, horder, hlost, htexts, hwakes⟩, hcount, hfresh, fun hk => ⟨(hwrite hk).1, rfl⟩⟩
  | irq =>
    simp only [Tx.step] at hs
    split_ifs at hs with hk
    obtain ⟨rfl, rfl⟩ := Prod.mk.inj (Option.some.inj hs)
    exact ⟨⟨hidx, horder, hlost, htexts, fun hn => by cases hn⟩, hcount, hfresh, fun hn => by cases hn⟩
  | kick more =>
    obtain ⟨pc, hk, hk'⟩ := Option.map_eq_some_iff.1 hs
    exact Inv.kick ⟨hsends, hcount, hfresh, hwrite⟩ hk hk'
  | call text =>
    simp only [Tx.step] at hs
    split_ifs at hs with hk
    obtain ⟨rfl, rfl⟩ := Prod.mk.inj (Option.some.inj hs)
    have hlen : (h.texts ++ [text]).length = s.count + 1 := by
      rw [List.length_append, hcount, List.length_singleton]
    refine ⟨⟨hidx, horder, hlost, fun i t hi => ?_, hwakes⟩, hlen, fun i hi => ?_, hwrite⟩
    · change h.queuedBy i ++ (Function.update s.calls s.count _ i).elim [] Call.left = _
      change (h.texts ++ [text])[i]? = some t at hi
      rcases eq_or_ne i s.count with rfl | hne
      · rw [← hcount, List.getElem?_concat_length, Option.some.injEq] at hi
        rw [Function.update_self, (hfresh _ le_rfl).2, ← hi]
        rfl
      · rw [Function.update_of_ne hne]
        refine htexts i t ?_
        have hlt := (List.getElem?_eq_some_iff.1 hi).1
        rwa [List.getElem?_append_left (by omega)] at hi
    · dsimp only at hi ⊢
      rw [Function.update_of_ne (by omega)]
      exact hfresh i (by omega)
  | turn i =>
    simp only [Tx.step] at hs
    split_ifs at hs with hk
    obtain ⟨c, hc, hc'⟩ := Option.map_eq_some_iff.1 hs
    split at hc'
    · rename_i hn
      obtain ⟨rfl, rfl⟩ := Prod.mk.inj hc'
      refine ⟨⟨hidx, horder, hlost, fun j t hj => ?_, hwakes⟩, hcount, fun j hj => ?_, hwrite⟩
      · have hold := htexts j t hj
        change h.queuedBy j ++ (Function.update s.calls i none j).elim [] Call.left = _
        rcases eq_or_ne j i with rfl | hne
        · rw [hc] at hold
          rw [Function.update_self, ← hold]
          simp [Call.left_of_next hn]
        · rwa [Function.update_of_ne hne]
      · have hold := hfresh j hj
        change Function.update s.calls i none j = none ∧ h.queuedBy j = []
        refine ⟨?_, hold.2⟩
        rcases eq_or_ne j i with rfl | hne
        · rw [Function.update_self]
        · rw [Function.update_of_ne hne, hold.1]
    · rename_i b hb
      exact Inv.putc ⟨hsends, hcount, hfresh, hwrite⟩ hc hb hc'

end Steps

/-! ### Runs -/

section Runs
variable {u : UartState} {es es' : List Event} {s s' : State} {h h' : Log} {p q : State × Log}
  {e : Event}

theorem inv_of_run (hr : RunFrom u es p) : Inv p.1 p.2 := by
  refine hr.invariant (I := fun p => Inv p.1 p.2) (fun p e q hi _ hq => ?_) (inv_start u)
  obtain ⟨o, ho, hlog⟩ := withHistory_eq_some hq
  rw [hlog]
  exact hi.step ho

/-- **The transmit path is a queue**: along every run after `uart_enable_interrupt`, whatever calls are
made and however they and the transmitter take their turns, the bytes on the line and in the ring are
those that the calls have put, in order; each call has put its text up to where it stands; no byte is
lost; and whenever interrupts are on, the transmit interrupt is on exactly while bytes wait. -/
theorem sends_of_run (hr : RunFrom u es (s, h)) : Sends s h := (inv_of_run hr).sends

/-- A transmitter before `uart_enable_interrupt`. -/
def sampleUart : UartState := ⟨true, ⟨fun _ => 0, 5, 7⟩, true⟩

/-- A line is put while the transmitter takes one byte. -/
def sampleEvents : List Event :=
  [.call [0x68, lf], .turn 0, .kick true, .kick false, .kick true, .turn 0, .kick true, .turn 0,
    .kick true, .tdrq]

theorem sends_of_run_sample : ∃ s h, RunFrom sampleUart sampleEvents (s, h) ∧ Sends s h ∧
    h.wire = [0x68] ∧ h.queuedBy 0 = [0x68, cr, lf] := by
  have hexec : (exec (withHistory step Log.update) (fun _ _ => true) (start sampleUart)
      sampleEvents).map (fun p => (p.2.wire, p.2.queuedBy 0)) = some ([0x68], [0x68, cr, lf]) := by
    decide +kernel
  obtain ⟨⟨s, h⟩, hrun, hv⟩ := Run.exists_of_exec (C := fun _ _ => True) (fun _ _ _ => trivial) hexec
  rw [Prod.mk.injEq] at hv
  exact ⟨s, h, hrun, sends_of_run hrun, hv⟩

/-- The step was a round of `uart_tx_kick_locked`. -/
def kicked (_ : State × Log) (e : Event) (_ : State × Log) : ℕ :=
  match e with
  | .kick _ => 1
  | _ => 0

/-- The rounds that `uart_tx_kick_locked` has left at most. -/
def roundsLeft (s : State) : ℕ :=
  match s.kick with
  | none => 0
  | some .test => 2 * s.u.contents.length + 1
  | some .write => 2 * s.u.contents.length

theorem roundsLeft_kick {pc : KickPc} {more : Bool} {o : Output} (hi : Inv s h)
    (hk : s.kick = some pc) (hs : uartTxKickLocked s more pc = (s', o)) :
    1 + roundsLeft s' ≤ roundsLeft s ∧
      (s'.kick = none → s'.u.contents = [] ∨ s'.u.tdrq = false) := by
  have hwf := hi.sends.wf
  cases pc with
  | test =>
    rw [uartTxKickLocked] at hs
    split_ifs at hs with hgo hempty
    · obtain ⟨rfl, -⟩ := Prod.mk.inj hs
      refine ⟨?_, fun hn => by cases hn⟩
      simp only [roundsLeft, hk]
      omega
    · obtain ⟨rfl, -⟩ := Prod.mk.inj hs
      refine ⟨?_, fun _ => .inl ((RingBuf.contents_eq_nil_iff hwf).2 hempty)⟩
      simp only [roundsLeft, hk]
      omega
    · obtain ⟨rfl, -⟩ := Prod.mk.inj hs
      refine ⟨?_, fun _ => .inr ?_⟩
      · simp only [roundsLeft, hk]
        omega
      · exact Bool.eq_false_iff.2 fun ht => hgo ⟨hempty, ht⟩
  | write =>
    obtain ⟨hrw, -⟩ := hi.write hk
    rw [uartTxKickLocked] at hs
    obtain ⟨rfl, -⟩ := Prod.mk.inj hs
    refine ⟨?_, fun hn => by cases hn⟩
    have hpop := congrArg List.length (RingBuf.contents_pop hwf hrw)
    rw [List.length_cons] at hpop
    simp only [roundsLeft, hk]
    change 1 + (2 * ((s.u.tx.pop uartBufSize).contents uartBufSize).length + 1) ≤
      2 * (s.u.tx.contents uartBufSize).length
    omega

theorem step_locked {o : Output} (h' : Log) (hi : Inv s h) (hk : s.kick ≠ none)
    (hs : step s e = some (s', o)) :
    kicked (s, h) e (s', h') + roundsLeft s' ≤ roundsLeft s ∧
      (s'.kick = none → s'.u.contents = [] ∨ s'.u.tdrq = false) ∧
      (h.update s o s').queued = h.queued := by
  cases e with
  | tdrq =>
    obtain ⟨rfl, rfl⟩ := Prod.mk.inj (Option.some.inj hs)
    refine ⟨?_, fun hn => absurd hn hk, rfl⟩
    simp only [kicked, roundsLeft, Nat.zero_add]
    exact le_rfl
  | kick more =>
    obtain ⟨pc, hpc, hk'⟩ := Option.map_eq_some_iff.1 hs
    obtain ⟨hle, hend⟩ := roundsLeft_kick hi hpc hk'
    refine ⟨hle, hend, ?_⟩
    cases pc with
    | test =>
      rw [uartTxKickLocked] at hk'
      split_ifs at hk' <;> obtain ⟨-, rfl⟩ := Prod.mk.inj hk' <;> rfl
    | write =>
      rw [uartTxKickLocked] at hk'
      obtain ⟨-, rfl⟩ := Prod.mk.inj hk'
      split_ifs <;> rfl
  | _ =>
    simp only [step, if_neg hk] at hs
    cases hs

/-- **Interrupts are off for a bounded number of rounds**: at most twice the bytes in the ring and one.
Meanwhile no call puts a byte, and when they are on again, the ring is empty or the transmitter takes
no more. -/
theorem kicks_of_run (hr : RunFrom u es p) (hk : p.1.kick ≠ none)
    (ho : Run (withHistory step Log.update) (fun p _ => p.1.kick ≠ none) p es' q) :
    total (withHistory step Log.update) kicked p es' ≤ 2 * p.1.u.contents.length + 1 ∧
      p.1.u.contents.length ≤ 511 ∧ q.2.queued = p.2.queued ∧
      (q.1.kick = none → q.1.u.contents = [] ∨ q.1.u.tdrq = false) := by
  have hi := inv_of_run hr
  have hstep : ∀ a e b, Inv a.1 a.2 → a.1.kick ≠ none → withHistory step Log.update a e = some b →
      Inv b.1 b.2 ∧ kicked a e b + roundsLeft b.1 ≤ roundsLeft a.1 + 0 ∧
      (b.1.kick = none → b.1.u.contents = [] ∨ b.1.u.tdrq = false) ∧ b.2.queued = a.2.queued := by
    intro a e b ha hk hs
    obtain ⟨o, hs', hlog⟩ := withHistory_eq_some hs
    obtain ⟨h1, h2, h3⟩ := step_locked b.2 ha hk hs'
    refine ⟨hlog ▸ ha.step hs', h1, h2, hlog ▸ h3⟩
  have htot : total (withHistory step Log.update) kicked p es' + roundsLeft q.1 ≤
      roundsLeft p.1 + total (withHistory step Log.update) (fun _ _ _ => 0) p es' :=
    ho.amortized (p := fun a => roundsLeft a.1) (I := fun a => Inv a.1 a.2)
      (fun a e b ha hc hs => ⟨(hstep a e b ha hc hs).1, (hstep a e b ha hc hs).2.1⟩) hi
  have hleft : roundsLeft p.1 ≤ 2 * p.1.u.contents.length + 1 := by
    unfold roundsLeft
    split <;> omega
  have hlen : p.1.u.contents.length < uartBufSize := by
    rw [UartState.contents, RingBuf.length_contents]
    exact RingBuf.size_lt hi.sends.wf
  obtain ⟨-, hq, hend⟩ := ho.invariant
    (I := fun a => Inv a.1 a.2 ∧ a.2.queued = p.2.queued ∧
      (a.1.kick = none → a.1.u.contents = [] ∨ a.1.u.tdrq = false))
    (fun a e b ha hc hs => by
      obtain ⟨h1, -, h2, h3⟩ := hstep a e b ha.1 hc hs
      exact ⟨h1, h3.trans ha.2.1, h2⟩)
    ⟨hi, rfl, fun hn => absurd hn hk⟩
  rw [total_zero] at htot
  refine ⟨by omega, ?_, hq, hend⟩
  unfold uartBufSize at hlen
  omega

/-- The rounds after the first byte of a line. -/
theorem kicks_of_run_sample : ∃ p q, RunFrom sampleUart [.call [0x68, lf], .turn 0] p ∧
    Run (withHistory step Log.update) (fun p _ => p.1.kick ≠ none) p
      [.kick true, .kick false, .tdrq, .kick true] q ∧
    total (withHistory step Log.update) kicked p [.kick true, .kick false, .tdrq, .kick true] ≤
      2 * p.1.u.contents.length + 1 ∧ (q.1.kick = none → q.1.u.contents = [] ∨ q.1.u.tdrq = false) := by
  have hexec : (exec (withHistory step Log.update) (fun _ _ => true) (start sampleUart)
      [.call [0x68, lf], .turn 0]).map (fun p => (p.1.kick,
        (exec (withHistory step Log.update) (fun p _ => p.1.kick.isSome) p
          [.kick true, .kick false, .tdrq, .kick true]).isSome)) = some (some .test, true) := by
    decide +kernel
  obtain ⟨p, hrun, hv⟩ := Run.exists_of_exec (C := fun _ _ => True) (fun _ _ _ => trivial) hexec
  rw [Prod.mk.injEq] at hv
  obtain ⟨q, hq⟩ := Option.isSome_iff_exists.1 hv.2
  have ho : Run (withHistory step Log.update) (fun p _ => p.1.kick ≠ none) p _ q :=
    .of_exec (fun _ _ hk => Option.isSome_iff_ne_none.1 hk) hq
  obtain ⟨h1, -, -, h2⟩ := kicks_of_run hrun (by rw [hv.1]; simp) ho
  exact ⟨p, q, hrun, ho, h1, h2⟩

theorem exists_flush : ∀ (n : ℕ) {p : State × Log}, Inv p.1 p.2 → p.1.kick = some .test →
    p.1.u.tdrq = true → p.1.u.contents.length = n →
    ∃ q, Run (withHistory step Log.update) (fun _ _ => True) p
        (List.replicate (2 * n + 1) (.kick true)) q ∧ q.1.kick = none ∧ q.1.u.contents = [] ∧
      q.1.u.ierTx = false ∧ q.1.calls = p.1.calls ∧ q.2.wire = p.2.wire ++ p.1.u.contents
  | 0, (s, h), hi, hk, ht, hn => by
    have hnil : s.u.contents = [] := List.length_eq_zero_iff.1 hn
    have he : s.u.tx.r = s.u.tx.w := (RingBuf.contents_eq_nil_iff hi.sends.wf).1 hnil
    have hs : step s (.kick true) =
        some ({ s with u := uartDisableTxInterrupt s.u, kick := none }, .quiet) := by
      simp only [step, show s.kick = some .test from hk, Option.map_some, uartTxKickLocked, he, ne_eq,
        not_true_eq_false, false_and, if_false, if_true]
    refine ⟨({ s with u := uartDisableTxInterrupt s.u, kick := none }, h),
      .single trivial (by simp only [withHistory, hs]; rfl), rfl, hnil, rfl, rfl, ?_⟩
    change h.wire = h.wire ++ s.u.contents
    rw [hnil, List.append_nil]
  | n + 1, (s, h), hi, hk, ht, hn => by
    have hi : Inv s h := hi
    have hwf := hi.sends.wf
    have hne : s.u.tx.r ≠ s.u.tx.w := by
      rw [← contents_ne_nil hi.sends, ← List.length_pos_iff]
      exact hn ▸ Nat.succ_pos n
    have hs1 : step s (.kick true) = some ({ s with kick := some .write }, .quiet) := by
      simp only [step, show s.kick = some .test from hk, Option.map_some, uartTxKickLocked,
        show s.u.tdrq = true from ht, hne, ne_eq, not_false_eq_true, and_self, if_true]
    have hi1 := hi.step hs1
    have hs2 : step { s with kick := some .write } (.kick true) =
        some ({ s with u := { s.u with tx := s.u.tx.pop uartBufSize }, kick := some .test },
          .sent s.u.tx.head) := by
      simp only [step, Option.map_some, uartTxKickLocked, show s.u.tdrq = true from ht, Bool.and_self,
        if_true]
    have hi2 := hi1.step hs2
    have hpop := RingBuf.contents_pop hwf hne
    have hlen : ((s.u.tx.pop uartBufSize).contents uartBufSize).length = n := by
      have := congrArg List.length hpop
      rw [List.length_cons] at this
      have hn' : (s.u.tx.contents uartBufSize).length = n + 1 := hn
      omega
    obtain ⟨q, hq, h1, h2, h3, h4, h5⟩ := exists_flush n (p := (_, _)) hi2 rfl ht hlen
    refine ⟨q, .cons trivial (by simp only [withHistory, hs1]; rfl)
      (.cons trivial (by simp only [withHistory, hs2]; rfl) hq), h1, h2, h3, h4, ?_⟩
    rw [h5]
    change h.wire ++ [s.u.tx.head] ++ (s.u.tx.pop uartBufSize).contents uartBufSize =
      h.wire ++ s.u.tx.contents uartBufSize
    rw [hpop, List.append_assoc, List.singleton_append]

/-- **One interrupt puts out the whole ring** while the transmitter keeps up: from every state of every
run in which interrupts are on, `uart_handle_irq` ends with the ring empty, its bytes on the line in
order, and the transmit interrupt off. -/
theorem flushed (hr : RunFrom u es p) (hk : p.1.kick = none) (ht : p.1.u.tdrq = true) :
    ∃ q, Run (withHistory step Log.update) (fun _ _ => True) p
        (.irq :: List.replicate (2 * p.1.u.contents.length + 1) (.kick true)) q ∧
      q.1.kick = none ∧ q.1.u.contents = [] ∧ q.1.u.ierTx = false ∧ q.1.calls = p.1.calls ∧
      q.2.wire = p.2.wire ++ p.1.u.contents := by
  have hirq : step p.1 .irq = some ({ p.1 with kick := some .test }, .quiet) := by
    simp only [step, hk, if_true]
  have hi := (inv_of_run hr).step hirq
  obtain ⟨q, hq, hrest⟩ := exists_flush _ (p := ({ p.1 with kick := some .test }, p.2)) hi rfl ht rfl
  exact ⟨q, .cons trivial (by simp only [withHistory, hirq]; rfl) hq, hrest⟩

/-- The rest of the line goes out at the next interrupt. -/
theorem flushed_sample : ∃ p q : State × Log, RunFrom sampleUart sampleEvents p ∧
    p.1.u.contents = [cr, lf] ∧ q.1.u.contents = [] ∧ q.2.wire = [0x68, cr, lf] := by
  have hexec : (exec (withHistory step Log.update) (fun _ _ => true) (start sampleUart)
      sampleEvents).map (fun p => (p.1.kick, p.1.u.tdrq, p.1.u.contents, p.2.wire)) =
      some (none, true, [cr, lf], [0x68]) := by
    decide +kernel
  obtain ⟨p, hrun, hv⟩ := Run.exists_of_exec (C := fun _ _ => True) (fun _ _ _ => trivial) hexec
  simp only [Prod.mk.injEq] at hv
  obtain ⟨hk, ht, hc, hw⟩ := hv
  obtain ⟨q, -, -, hnil, -, -, hwire⟩ := flushed hrun hk ht
  exact ⟨p, q, hrun, hc, hnil, by rw [hwire, hw, hc]; rfl⟩

end Runs

end OscKernel.Uart.Tx
