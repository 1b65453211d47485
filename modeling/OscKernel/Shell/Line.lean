import Mathlib.Data.List.Forall2
import OscKernel.Initrd.KString
import OscKernel.Uart.Tx

/-! # The line editor of the shell

`shell_run` of lab5 reads a line key by key into a buffer of `128` bytes and echoes the keys; when the
line is entered it runs the command, whatever that puts out, and prompts again. The keys are the bytes
that `uart_getc` returns.

* `edit`: what a sequence of keys makes of the line.
* `shown_of_run`: in every run, what is executed is what stands on the screen behind the prompt, and
  that is what the keys make of the line. -/

namespace OscKernel.Shell.Line

open OscKernel.Lib.Memory OscKernel.Lib.Screen OscKernel.Lib.Transition OscKernel.Initrd.KString
open OscKernel.Uart.Tx (crlf)

/-- `sizeof(buf)`. -/
def bufSize : ℕ := 128

/-- `buf` and `idx`. -/
structure LineBuf where
  buf : ℕ → Byte
  idx : ℕ

/-- The key takes back the last one. -/
def erases (c : Byte) : Prop := c = bs ∨ c = 127

instance (c : Byte) : Decidable (erases c) := by unfold erases; infer_instance

/-- One round of the loop over the keys: the buffer, what is put out, and whether the line is entered.
It fails where the source would write behind the buffer. -/
def readKey (l : LineBuf) (c : Byte) : Option (LineBuf × List Byte × Bool) :=
  if c = lf then
    if l.idx < bufSize then some ({ l with buf := Function.update l.buf l.idx 0 }, [lf], true) else none
  else if erases c then
    if 0 < l.idx then some ({ l with idx := l.idx - 1 }, [bs, space, bs], false)
    else some (l, [], false)
  else if l.idx < bufSize - 1 then
    some (⟨Function.update l.buf l.idx c, l.idx + 1⟩, [c], false)
  else some (l, [], false)

/-- The string in the buffer. -/
def LineBuf.text (l : LineBuf) : List Byte := ((List.range bufSize).map l.buf).takeWhile (· ≠ 0)

/-- The prompt. -/
def prompt : List Byte := ascii "OrangePi RV2> "

/-- The line buffer, the screen, and whether a command runs. -/
structure Session where
  line : LineBuf
  screen : TextScreen
  running : Bool

inductive Event
  /-- `uart_getc` returns a key -/
  | key (c : Byte)
  /-- the command ends, and has put out a text -/
  | done (out : List Byte)

/-- What an event shows to the outside: a key, or the line that is executed. -/
inductive Output
  | typed (c : Byte)
  | entered (text : List Byte)
  | prompted

def step (s : Session) : Event → Option (Session × Output)
  | .key c =>
    if s.running then none
    else
      (readKey s.line c).map fun
        | (l, out, false) => (⟨l, s.screen.print (crlf out), false⟩, .typed c)
        | (l, out, true) => (⟨l, s.screen.print (crlf out), true⟩, .entered l.text)
  | .done out =>
    if s.running then
      some (⟨{ s.line with idx := 0 }, s.screen.print (crlf (out ++ prompt)), false⟩, .prompted)
    else none

/-- A line that was executed, and the keys that were pressed for it. -/
structure Entry where
  keys : List Byte
  text : List Byte

/-- The history: the keys since the last prompt, and the lines that were executed. -/
structure Log where
  keys : List Byte
  entries : List Entry

/-- The history after a step. -/
def Log.update (h : Log) (_ : Session) (o : Output) (_ : Session) : Log :=
  match o with
  | .typed c => { h with keys := h.keys ++ [c] }
  | .entered text => ⟨[], h.entries ++ [⟨h.keys, text⟩]⟩
  | .prompted => { h with keys := [] }

/-- The keys are those of text, `'\b'`, DEL and `'\n'`, and commands put out text and `'\n'`. -/
def Plain (_ : Session × Log) : Event → Prop
  | .key c => c = lf ∨ erases c ∨ Printable c
  | .done out => ∀ c ∈ out, c = lf ∨ Printable c

instance (p : Session × Log) : ∀ e, Decidable (Plain p e)
  | .key c => inferInstanceAs (Decidable (c = lf ∨ erases c ∨ Printable c))
  | .done out => inferInstanceAs (Decidable (∀ c ∈ out, c = lf ∨ Printable c))

/-- The shell at its start: the screen is empty, and the kernel has still to put out its messages. -/
def start (buf : ℕ → Byte) : Session × Log := (⟨⟨buf, 0⟩, .blank, true⟩, ⟨[], []⟩)

/-- A run of the shell. -/
abbrev RunFrom (buf : ℕ → Byte) (es : List Event) (p : Session × Log) : Prop :=
  Run (withHistory step Log.update) Plain (start buf) es p

/-! ### Editing -/

/-- What a key makes of a line. -/
def editKey (text : List Byte) (c : Byte) : List Byte :=
  if erases c then text.dropLast else if text.length < bufSize - 1 then text ++ [c] else text

/-- **What the keys make of the line.** -/
def edit (keys : List Byte) : List Byte := keys.foldl editKey []

theorem edit_snoc (keys : List Byte) (c : Byte) : edit (keys ++ [c]) = editKey (edit keys) c := by
  rw [edit, List.foldl_append]
  rfl

/-- The buffer holds the line. -/
structure Holds (l : LineBuf) (text : List Byte) : Prop where
  chars : (List.range l.idx).map l.buf = text
  idx : l.idx < bufSize
  printable : ∀ c ∈ text, Printable c

section Keys
variable {l : LineBuf} {c : Byte} {text : List Byte} {s : TextScreen} {base : List Byte}

theorem Holds.length (h : Holds l text) : text.length = l.idx := by
  rw [← h.chars, List.length_map, List.length_range]

/-- **A key** does to the buffer and to the screen what it does to the line. -/
theorem Holds.key (h : Holds l text) (hs : Shows s (base ++ text)) (hc : erases c ∨ Printable c) :
    ∃ l' out, readKey l c = some (l', out, false) ∧ Holds l' (editKey text c) ∧
      Shows (s.print (crlf out)) (base ++ editKey text c) ∧ (s.print (crlf out)).above = s.above := by
  have hlen := h.length
  have hlf : c ≠ lf := by
    rintro rfl
    rcases hc with hc | hc
    · exact absurd hc (by decide)
    · exact hc.ne.1 rfl
  unfold readKey editKey
  rw [if_neg hlf]
  by_cases he : erases c
  · rw [if_pos he, if_pos he]
    rcases List.eq_nil_or_concat text with rfl | ⟨init, b, rfl⟩
    · have h0 : l.idx = 0 := hlen.symm
      rw [if_neg (by omega)]
      exact ⟨l, [], rfl, h, hs, rfl⟩
    · rw [List.concat_eq_append] at h hs hlen ⊢
      have hidx : l.idx = init.length + 1 := by
        rw [← hlen, List.length_append, List.length_singleton]
      have hcrlf : crlf [bs, space, bs] = [bs, space, bs] := by decide
      rw [← List.append_assoc] at hs
      rw [if_pos (by omega), List.dropLast_concat]
      refine ⟨_, _, rfl, ⟨?_, ?_, fun d hd => h.printable d (by simp [hd])⟩, ?_, ?_⟩
      · have htext := h.chars
        rw [hidx, List.range_succ, List.map_append] at htext
        rw [hidx, Nat.add_sub_cancel]
        exact (List.append_inj' htext rfl).1
      · exact (Nat.sub_le _ _).trans_lt h.idx
      · rw [hcrlf]
        exact hs.erase.1
      · rw [hcrlf]
        exact hs.erase.2
  · rw [if_neg he, if_neg he, hlen]
    split_ifs with hfull
    · have hp := hc.resolve_left he
      have hcrlf : crlf [c] = [c] := by simp [crlf, hlf]
      refine ⟨_, _, rfl, ⟨?_, ?_, fun d hd => ?_⟩, ?_, ?_⟩
      · rw [List.range_succ, List.map_append, ← h.chars]
        congr 1
        · refine List.map_congr_left fun i hi => ?_
          exact Function.update_of_ne (List.mem_range.1 hi).ne _ _
        · simp
      · dsimp only
        omega
      · rcases List.mem_append.1 hd with hd | hd
        · exact h.printable d hd
        · exact List.mem_singleton.1 hd ▸ hp
      · rw [hcrlf, ← List.append_assoc]
        exact (hs.put hp).1
      · rw [hcrlf]
        exact (hs.put hp).2
    · exact ⟨l, [], rfl, h, hs, rfl⟩

/-- **Entering** the line: the buffer reads as the line. -/
theorem Holds.enter (h : Holds l text) :
    ∃ l', readKey l lf = some (l', [lf], true) ∧ l'.text = text := by
  have hlen := h.length
  have h0 : ∀ c ∈ text, c ≠ 0 := by
    rintro c hc rfl
    exact absurd (h.printable 0 hc).1 (by decide)
  have hsame : (List.range l.idx).map (Function.update l.buf l.idx 0) = text := by
    rw [← h.chars]
    exact List.map_congr_left fun i hi => Function.update_of_ne (List.mem_range.1 hi).ne _ _
  refine ⟨{ l with buf := Function.update l.buf l.idx 0 }, ?_, ?_⟩
  · rw [readKey, if_pos rfl, if_pos h.idx]
  · have hsplit : bufSize = l.idx + (bufSize - 1 - l.idx + 1) := by
      have := h.idx
      omega
    rw [LineBuf.text, hsplit, List.range_add, List.map_append, hsame,
      List.takeWhile_append_of_pos fun c hc => by simpa using h0 c hc, List.range_succ_eq_map]
    simp
end Keys

/-! ### Runs -/

/-- The row in which a line was entered reads as the line, behind the prompt, and the line is what the
keys make of it. -/
def Stands (row : ℕ → Byte) (e : Entry) : Prop :=
  e.text = edit e.keys ∧ ∃ base, row = rowOf (base ++ prompt ++ e.text)

/-- What is executed is what is shown. -/
structure Shown (s : Session) (h : Log) : Prop where
  reading : s.running = false → ∃ base, Shows s.screen (base ++ prompt ++ edit h.keys)
  entries : ∃ rows, rows.Sublist s.screen.above ∧ List.Forall₂ Stands rows h.entries

/-- The invariant. -/
structure Inv (s : Session) (h : Log) : Prop where
  shown : Shown s h
  screen : ∃ text, Shows s.screen text
  line : s.running = false → Holds s.line (edit h.keys)

section Runs
variable {buf : ℕ → Byte} {es : List Event} {s s' : Session} {h : Log} {e : Event} {o : Output}

theorem printable_prompt : ∀ c ∈ prompt, Printable c := by decide

theorem shows_output : ∀ {out : List Byte} {s : TextScreen} {text : List Byte}, Shows s text →
    (∀ c ∈ out, c = lf ∨ Printable c) →
    ∃ text', Shows (s.print (crlf out)) text' ∧ s.above <+: (s.print (crlf out)).above
  | [], s, text, h, _ => ⟨text, h, List.prefix_rfl⟩
  | c :: out, s, text, h, hout => by
    have hrest : ∀ d ∈ out, d = lf ∨ Printable d := fun d hd => hout d (List.mem_cons_of_mem _ hd)
    have hcons : ∀ l, crlf (c :: out) = l ++ crlf out → s.print (crlf (c :: out)) =
        (s.print l).print (crlf out) := fun l hl => by rw [hl, print_append]
    by_cases hc : c = lf
    · obtain ⟨h1, h2⟩ := h.newline
      obtain ⟨t, ht, hp⟩ := shows_output h1 hrest
      rw [hcons [cr, lf] (by simp [crlf, hc])]
      exact ⟨t, ht, (h2 ▸ List.prefix_append _ _).trans hp⟩
    · have hpr := (hout c (by simp)).resolve_left hc
      obtain ⟨h1, h2⟩ := h.put hpr
      obtain ⟨t, ht, hp⟩ := shows_output h1 hrest
      rw [hcons [c] (by simp [crlf, hc])]
      exact ⟨t, ht, h2 ▸ hp⟩

theorem inv_start (buf : ℕ → Byte) : Inv (start buf).1 (start buf).2 :=
  ⟨⟨fun hn => (by cases hn), [], List.nil_sublist _, .nil⟩, ⟨[], shows_blank⟩,
    fun hn => (by cases hn)⟩

theorem Inv.step (hi : Inv s h) (hp : Plain (s, h) e) (hs : step s e = some (s', o)) :
    Inv s' (h.update s o s') := by
  obtain ⟨⟨hread, rows, hrows, hent⟩, ⟨text, htext⟩, hline⟩ := hi
  cases e with
  | key c =>
    simp only [Line.step] at hs
    split_ifs at hs with hrun
    have hrun' : s.running = false := by simpa using hrun
    obtain ⟨base, hshow⟩ := hread hrun'
    have hl := hline hrun'
    rcases hp with rfl | hc
    · obtain ⟨l', hk, ht⟩ := hl.enter
      rw [hk] at hs
      obtain ⟨rfl, rfl⟩ := Prod.mk.inj (Option.some.inj hs)
      have hcrlf : crlf [lf] = [cr, lf] := by decide
      obtain ⟨h1, h2⟩ := hshow.newline
      refine ⟨⟨fun hn => (by cases hn), rows ++ [rowOf (base ++ prompt ++ edit h.keys)], ?_, ?_⟩,
        ⟨[], by rw [hcrlf]; exact h1⟩, fun hn => (by cases hn)⟩
      · rw [hcrlf, h2]
        exact hrows.append (List.Sublist.refl _)
      · refine List.rel_append hent (.cons ⟨ht, base, ?_⟩ .nil)
        rw [ht]
    · obtain ⟨l', out, hk, hl', hsh, hab⟩ := hl.key hshow hc
      rw [hk] at hs
      obtain ⟨rfl, rfl⟩ := Prod.mk.inj (Option.some.inj hs)
      have hedit : edit (h.keys ++ [c]) = editKey (edit h.keys) c := edit_snoc h.keys c
      refine ⟨⟨fun _ => ⟨base, ?_⟩, rows, by rw [hab]; exact hrows, hent⟩, ⟨_, hsh⟩, fun _ => ?_⟩
      · exact hedit ▸ hsh
      · exact hedit ▸ hl'
  | done out =>
    simp only [Line.step] at hs
    split_ifs at hs with hrun
    obtain ⟨rfl, rfl⟩ := Prod.mk.inj (Option.some.inj hs)
    have hcrlf : crlf (out ++ prompt) = crlf out ++ prompt := by
      have : crlf prompt = prompt := by decide
      rw [crlf, List.flatMap_append]
      exact congrArg _ this
    obtain ⟨t, ht, hab⟩ := shows_output htext hp
    obtain ⟨h1, h2⟩ := ht.print printable_prompt
    have hscreen : s.screen.print (crlf (out ++ prompt)) = (s.screen.print (crlf out)).print prompt := by
      rw [hcrlf, print_append]
    refine ⟨⟨fun _ => ⟨t, ?_⟩, rows, ?_, hent⟩, ⟨t ++ prompt, hscreen ▸ h1⟩, fun _ => ?_⟩
    · rw [hscreen]
      exact (List.append_nil (t ++ prompt)).symm ▸ h1
    · rw [hscreen, h2]
      exact hrows.trans hab.sublist
    · have hpos : 0 < bufSize := by decide
      exact ⟨rfl, hpos, fun c hc => by cases hc⟩

theorem exists_readKey {l : LineBuf} (h : l.idx < bufSize) (c : Byte) : ∃ r, readKey l c = some r := by
  unfold readKey
  split_ifs <;> exact ⟨_, rfl⟩

/-- **What is executed is what is shown**: in every run of the shell, while it reads a line, the row of
the cursor ends with the prompt and what the keys make of the line, and no key is written behind the
buffer; and the lines that were executed stand on the screen, in order, each behind a prompt, and each
is what its keys make of it. -/
theorem shown_of_run (hr : RunFrom buf es (s, h)) :
    Shown s h ∧ (s.running = false → ∀ c, ∃ r, step s (.key c) = some r) := by
  have hi : Inv s h := by
    refine hr.invariant (I := fun p => Inv p.1 p.2) (fun p e q hi hp hq => ?_) (inv_start buf)
    obtain ⟨o, ho, hlog⟩ := withHistory_eq_some hq
    rw [hlog]
    exact hi.step hp ho
  refine ⟨hi.shown, fun hrun c => ?_⟩
  obtain ⟨r, hk⟩ := exists_readKey (hi.line hrun).idx c
  simp [step, hrun, hk]

/-- The keys `"hx"`, `'\b'`, `"i"` and Enter after the messages of the kernel. -/
def sampleEvents : List Event :=
  [.done (ascii "boot" ++ [lf]), .key 0x68, .key 0x78, .key bs, .key 0x69, .key lf]

theorem shown_of_run_sample : ∃ s h, RunFrom (fun _ => 0) sampleEvents (s, h) ∧ Shown s h ∧
    h.entries.map Entry.text = [ascii "hi"] := by
  have hexec : (exec (withHistory step Log.update) (fun p e => decide (Plain p e)) (start fun _ => 0)
      sampleEvents).map (fun p => p.2.entries.map Entry.text) = some [ascii "hi"] := by
    decide +kernel
  obtain ⟨⟨s, h⟩, hrun, hv⟩ := Run.exists_of_exec (C := Plain) (fun _ _ hp => of_decide_eq_true hp) hexec
  exact ⟨s, h, hrun, (shown_of_run hrun).1, hv⟩

end Runs

end OscKernel.Shell.Line
