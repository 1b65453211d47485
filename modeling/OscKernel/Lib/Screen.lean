import Mathlib.Data.List.GetD
import Mathlib.Logic.Function.Basic
import OscKernel.Lib.Memory

/-! # The screen of a terminal

A terminal shows the bytes that come over the line: a printable byte overwrites the cell under the
cursor and moves it on, `'\b'` and `'\r'` only move it, and `'\n'` starts a new row. Rows have no end.

`Shows s text`: the row of the cursor reads `text`, and the cursor stands behind it. Printing extends
the text, `"\b \b"` takes its last byte off, and `"\r\n"` leaves it behind. -/

namespace OscKernel.Lib.Screen

open OscKernel.Lib.Memory

/-- `'\b'`. -/
def bs : Byte := 0x08

/-- `'\n'`. -/
def lf : Byte := 0x0A

/-- `'\r'`. -/
def cr : Byte := 0x0D

/-- `' '`. -/
def space : Byte := 0x20

/-- A byte that fills a cell. -/
def Printable (c : Byte) : Prop := space ≤ c ∧ c ≤ 0x7E

instance (c : Byte) : Decidable (Printable c) := by unfold Printable; infer_instance

/-- The rows above the cursor, the row of the cursor, and its column. -/
structure TextScreen where
  above : List (ℕ → Byte)
  row : ℕ → Byte
  col : ℕ

/-- A row that reads `text`. -/
def rowOf (text : List Byte) (i : ℕ) : Byte := text.getD i space

/-- An empty screen. -/
def TextScreen.blank : TextScreen := ⟨[], rowOf [], 0⟩

/-- One byte. -/
def TextScreen.put (s : TextScreen) (c : Byte) : TextScreen :=
  if c = lf then { s with above := s.above ++ [s.row], row := rowOf [] }
  else if c = cr then { s with col := 0 }
  else if c = bs then { s with col := s.col - 1 }
  else { s with row := Function.update s.row s.col c, col := s.col + 1 }

/-- The bytes of a text, one after the other. -/
def TextScreen.print (s : TextScreen) (text : List Byte) : TextScreen := text.foldl TextScreen.put s

/-- The row of the cursor reads `text`, and the cursor stands behind it. -/
structure Shows (s : TextScreen) (text : List Byte) : Prop where
  row : s.row = rowOf text
  col : s.col = text.length

section
variable {s : TextScreen} {c : Byte} {text l l' : List Byte}

theorem Printable.ne (h : Printable c) : c ≠ lf ∧ c ≠ cr ∧ c ≠ bs := by
  refine ⟨?_, ?_, ?_⟩ <;> rintro rfl <;> exact absurd h.1 (by decide)

theorem print_append (s : TextScreen) (l l' : List Byte) : s.print (l ++ l') = (s.print l).print l' :=
  List.foldl_append

theorem shows_blank : Shows TextScreen.blank [] := ⟨rfl, rfl⟩

theorem rowOf_append (text : List Byte) (c : Byte) :
    Function.update (rowOf text) text.length c = rowOf (text ++ [c]) := by
  funext i
  rcases lt_trichotomy i text.length with h | rfl | h
  · rw [Function.update_of_ne h.ne, rowOf, rowOf, List.getD_append _ _ _ _ h]
  · rw [Function.update_self, rowOf, List.getD_append_right _ _ _ _ le_rfl]
    simp
  · rw [Function.update_of_ne h.ne', rowOf, rowOf, List.getD_eq_default _ _ h.le,
      List.getD_eq_default _ _ (by simp; omega)]

theorem Shows.put (h : Shows s text) (hc : Printable c) :
    Shows (s.put c) (text ++ [c]) ∧ (s.put c).above = s.above := by
  obtain ⟨h1, h2, h3⟩ := hc.ne
  rw [TextScreen.put, if_neg h1, if_neg h2, if_neg h3]
  refine ⟨⟨?_, ?_⟩, rfl⟩
  · dsimp only
    rw [h.row, h.col, rowOf_append]
  · dsimp only
    rw [h.col, List.length_append, List.length_singleton]

/-- **Printing** a text. -/
theorem Shows.print : ∀ {l : List Byte} {s : TextScreen} {text : List Byte}, Shows s text →
    (∀ c ∈ l, Printable c) → Shows (s.print l) (text ++ l) ∧ (s.print l).above = s.above
  | [], s, text, h, _ => by
    rw [List.append_nil]
    exact ⟨h, rfl⟩
  | c :: l, s, text, h, hl => by
    obtain ⟨h1, h2⟩ := h.put (hl c (by simp))
    obtain ⟨h3, h4⟩ := h1.print fun d hd => hl d (List.mem_cons_of_mem _ hd)
    rw [List.append_assoc, List.singleton_append] at h3
    exact ⟨h3, h4.trans h2⟩

/-- **Erasing** the last byte. -/
theorem Shows.erase (h : Shows s (text ++ [c])) :
    Shows (s.print [bs, space, bs]) text ∧ (s.print [bs, space, bs]).above = s.above := by
  have hprint : s.print [bs, space, bs] =
      { s with row := Function.update s.row (s.col - 1) space, col := s.col - 1 } := by
    simp only [TextScreen.print, List.foldl_cons, List.foldl_nil, TextScreen.put, bs, lf, cr, space]
    simp
  rw [hprint]
  have hcol : s.col - 1 = text.length := by
    rw [h.col, List.length_append, List.length_singleton, Nat.add_sub_cancel]
  refine ⟨⟨?_, hcol⟩, rfl⟩
  dsimp only
  rw [hcol, h.row, ← rowOf_append, Function.update_idem]
  funext i
  rcases eq_or_ne i text.length with rfl | hi
  · rw [Function.update_self, rowOf, List.getD_eq_default _ _ le_rfl]
  · rw [Function.update_of_ne hi]

theorem Shows.newline (h : Shows s text) :
    Shows (s.print [cr, lf]) [] ∧ (s.print [cr, lf]).above = s.above ++ [rowOf text] := by
  have hprint : s.print [cr, lf] = { above := s.above ++ [s.row], row := rowOf [], col := 0 } := by
    simp [TextScreen.print, TextScreen.put, lf, cr]
  rw [hprint, h.row]
  exact ⟨⟨rfl, rfl⟩, rfl⟩

end

end OscKernel.Lib.Screen
