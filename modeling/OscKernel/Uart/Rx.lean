import OscKernel.Lib.Memory
import OscKernel.Lib.RingBuffer

/-! # The receive path of the UART driver of lab5

The hardware side of the receiver is a queue of bytes: `LSR_DR` says that it is not empty and reading
`RBR` takes its first byte. In interrupt mode `uart_handle_irq` moves the bytes to a ring of `512`
cells and the readers take them from there; in polling mode the readers take them from the hardware.
Transmission polls and never touches the receiver, so it is left out.

`contents_uartHandleIrq`: the interrupt handler appends what fits into the ring. -/

namespace OscKernel.Uart.Rx

open OscKernel.Lib.Memory OscKernel.Lib.RingBuffer

/-- `UART_BUF_SIZE`. -/
def uartBufSize : ℕ := 512

/-- The receiver: the bytes waiting in the hardware, and the driver's variables `rx_buf`, `rx_r`,
`rx_w`, `uart_async_enabled` and `rx_overflow`. -/
structure UartState where
  hw : List Byte
  rx : RingBuf Byte
  asyncEnabled : Bool
  rxOverflow : BitVec 32

namespace UartState

/-- The bytes in the ring, the oldest first. -/
def contents (u : UartState) : List Byte := u.rx.contents uartBufSize

/-- The ring indices are in range. -/
def WF (u : UartState) : Prop := u.rx.WF uartBufSize

end UartState

/-- One round of the loop of `uart_handle_irq`: the byte `c` read from `RBR` is stored, or counted as
an overflow. -/
def rxStore (u : UartState) (c : Byte) : UartState :=
  if nextIdx uartBufSize u.rx.w ≠ u.rx.r then { u with rx := u.rx.push uartBufSize c }
  else { u with rxOverflow := u.rxOverflow + 1 }

/-- `uart_handle_irq`: the loop runs until the hardware is empty. -/
def uartHandleIrq (u : UartState) : UartState := u.hw.foldl rxStore { u with hw := [] }

/-- A `'\r'` reads as `'\n'`. -/
def crToLf (c : Byte) : Byte := if c = 0x0D then 0x0A else c

/-- Where a call of `uart_getc` or `uart_getc_raw` stands: at its start, in the polling loop, before
the read of `RBR`, before the look at the ring, before the look at `LSR`, before the drain by hand. -/
inductive GetcPc
  | start | poll | rbr | pop | lsr | drain
  deriving DecidableEq, Repr

/-- One step of `uart_getc_raw`: a new place, or the byte it returns. The look at the ring and the
removal run with interrupts off. -/
def uartGetcRaw (u : UartState) : GetcPc → UartState × (GetcPc ⊕ Byte)
  | .start => (u, .inl (if u.asyncEnabled then .pop else .poll))
  | .poll => (u, .inl (if u.hw = [] then .poll else .rbr))
  | .rbr => ({ u with hw := u.hw.tail }, .inr (u.hw.headD 0))
  | .pop =>
    if u.rx.r ≠ u.rx.w then ({ u with rx := u.rx.pop uartBufSize }, .inr u.rx.head)
    else (u, .inl .lsr)
  | .lsr => (u, .inl (if u.hw = [] then .pop else .drain))
  | .drain => (uartHandleIrq u, .inl .pop)

/-- One step of `uart_getc`. -/
def uartGetc (u : UartState) (pc : GetcPc) : UartState × (GetcPc ⊕ Byte) :=
  ((uartGetcRaw u pc).1, (uartGetcRaw u pc).2.map id crToLf)

theorem uartGetcRaw_pop {u : UartState} (h : u.rx.r ≠ u.rx.w) :
    uartGetcRaw u .pop = ({ u with rx := u.rx.pop uartBufSize }, .inr u.rx.head) := if_pos h

theorem uartGetcRaw_pop_empty {u : UartState} (h : u.rx.r = u.rx.w) :
    uartGetcRaw u .pop = (u, .inl .lsr) := if_neg (not_not.2 h)

/-- The number of bytes of `l` that `rxStore` drops, one after the other. -/
def dropped : List Byte → UartState → ℕ
  | [], _ => 0
  | c :: l, u => (if nextIdx uartBufSize u.rx.w ≠ u.rx.r then 0 else 1) + dropped l (rxStore u c)

/-- The number of bytes that `uart_handle_irq` drops for lack of space in the ring. -/
def irqDropped (u : UartState) : ℕ := dropped u.hw { u with hw := [] }

/-! ### The interrupt handler as a queue operation -/

section Drain
variable {u : UartState}

@[simp] theorem rxStore_hw (u : UartState) (c : Byte) : (rxStore u c).hw = u.hw := by
  unfold rxStore; split_ifs <;> rfl

@[simp] theorem rxStore_asyncEnabled (u : UartState) (c : Byte) :
    (rxStore u c).asyncEnabled = u.asyncEnabled := by
  unfold rxStore; split_ifs <;> rfl

theorem rxStore_wf (h : u.WF) (c : Byte) : (rxStore u c).WF := by
  unfold rxStore
  split_ifs
  · exact h.push c
  · exact h

theorem length_contents_lt (h : u.WF) : u.contents.length < uartBufSize := by
  rw [UartState.contents, RingBuf.length_contents]
  exact RingBuf.size_lt h

theorem full_iff_length (h : u.WF) :
    nextIdx uartBufSize u.rx.w = u.rx.r ↔ u.contents.length = uartBufSize - 1 := by
  rw [UartState.contents, RingBuf.length_contents]
  exact RingBuf.full_iff h

theorem contents_rxStore (h : u.WF) (c : Byte) :
    (rxStore u c).contents = (u.contents ++ [c]).take (uartBufSize - 1) := by
  have hlen := length_contents_lt h
  unfold rxStore
  split_ifs with hf
  · have hlt : u.contents.length ≠ uartBufSize - 1 := fun he => hf ((full_iff_length h).2 he)
    rw [List.take_of_length_le (by simp; omega)]
    exact RingBuf.contents_push h hf c
  · have he : u.contents.length = uartBufSize - 1 := (full_iff_length h).1 (not_not.1 hf)
    rw [← he, List.take_left]
    rfl

theorem foldl_rxStore_hw : ∀ (l : List Byte) (u : UartState), (l.foldl rxStore u).hw = u.hw
  | [], _ => rfl
  | c :: l, u => by rw [List.foldl_cons, foldl_rxStore_hw l, rxStore_hw]

theorem foldl_rxStore_asyncEnabled :
    ∀ (l : List Byte) (u : UartState), (l.foldl rxStore u).asyncEnabled = u.asyncEnabled
  | [], _ => rfl
  | c :: l, u => by rw [List.foldl_cons, foldl_rxStore_asyncEnabled l, rxStore_asyncEnabled]

theorem foldl_rxStore_wf : ∀ (l : List Byte) {u : UartState}, u.WF → (l.foldl rxStore u).WF
  | [], _, h => h
  | c :: l, _, h => foldl_rxStore_wf l (rxStore_wf h c)

theorem take_take_append (k : ℕ) (a l : List Byte) :
    (a.take k ++ l).take k = (a ++ l).take k := by
  rw [List.take_append, List.take_append, List.take_take, Nat.min_self, List.length_take]
  congr 2
  omega

theorem contents_foldl_rxStore : ∀ (l : List Byte) {u : UartState}, u.WF →
    (l.foldl rxStore u).contents = (u.contents ++ l).take (uartBufSize - 1)
  | [], u, h => by
    have := length_contents_lt h
    rw [List.append_nil, List.take_of_length_le (by omega)]
    rfl
  | c :: l, u, h => by
    rw [List.foldl_cons, contents_foldl_rxStore l (rxStore_wf h c), contents_rxStore h,
      take_take_append, List.append_assoc, List.singleton_append]

@[simp] theorem uartHandleIrq_hw (u : UartState) : (uartHandleIrq u).hw = [] :=
  foldl_rxStore_hw u.hw _

@[simp] theorem uartHandleIrq_asyncEnabled (u : UartState) :
    (uartHandleIrq u).asyncEnabled = u.asyncEnabled :=
  foldl_rxStore_asyncEnabled u.hw _

@[simp] theorem uartGetcRaw_asyncEnabled (u : UartState) (pc : GetcPc) :
    (uartGetcRaw u pc).1.asyncEnabled = u.asyncEnabled := by
  cases pc <;> simp only [uartGetcRaw, uartHandleIrq_asyncEnabled]
  split_ifs <;> rfl

theorem uartHandleIrq_wf (h : u.WF) : (uartHandleIrq u).WF :=
  foldl_rxStore_wf u.hw (u := { u with hw := [] }) h

/-- **The interrupt handler** appends the bytes of the hardware to the ring, as far as they fit. -/
theorem contents_uartHandleIrq (h : u.WF) :
    (uartHandleIrq u).contents = (u.contents ++ u.hw).take (uartBufSize - 1) :=
  contents_foldl_rxStore u.hw (u := { u with hw := [] }) h

theorem dropped_eq : ∀ (l : List Byte) {u : UartState}, u.WF →
    dropped l u = u.contents.length + l.length - (uartBufSize - 1)
  | [], u, h => by
    have := length_contents_lt h
    simp only [dropped, List.length_nil]
    omega
  | c :: l, u, h => by
    have hlen := length_contents_lt h
    rw [dropped, dropped_eq l (rxStore_wf h c), contents_rxStore h]
    simp only [List.length_take, List.length_append, List.length_cons, List.length_nil, ne_eq,
      full_iff_length h]
    split_ifs <;> omega

/-- Without a drop, everything the hardware holds moves to the ring. -/
theorem contents_uartHandleIrq_of_irqDropped (h : u.WF) (hd : irqDropped u = 0) :
    (uartHandleIrq u).contents = u.contents ++ u.hw := by
  have hd' : u.contents.length + u.hw.length - (uartBufSize - 1) = 0 := by
    rw [← hd]
    exact (dropped_eq u.hw (u := { u with hw := [] }) h).symm
  rw [contents_uartHandleIrq h, List.take_of_length_le (by simp; omega)]

/-- A drain by hand leaves a byte to read, if there was one. -/
theorem contents_uartHandleIrq_ne_nil (h : u.WF) (hne : u.contents ++ u.hw ≠ []) :
    (uartHandleIrq u).contents ≠ [] := by
  rw [contents_uartHandleIrq h]
  intro he
  rcases List.take_eq_nil_iff.1 he with h0 | h0
  · exact absurd h0 (by decide)
  · exact hne h0

theorem length_uartHandleIrq_le (h : u.WF) :
    (uartHandleIrq u).contents.length ≤ u.contents.length + u.hw.length := by
  rw [contents_uartHandleIrq h, List.length_take, List.length_append]
  exact Nat.min_le_right _ _

end Drain

end OscKernel.Uart.Rx
