import OscKernel.Lib.Cyclic

/-! # Turns in a circular list

A circular list can be read from each of its nodes. `turns nxt t n a` counts the links from `a` to `t`:
how many nodes get their turn, `t` included, when the turn goes from node to node along the links.

* `RingList.rotate`: the list as it is read from another node.
* `RingList.turns_eq`: the number of turns is the position in the list that is read from `a`.
* `RingList.insert_turns`, `RingList.erase_turns`, `RingList.pass_turns`: what linking in a node, linking
  out a node, and passing the turn on do to the position of the others. -/

namespace OscKernel.Lib.Cyclic

variable {α : Type*} {nxt nxt' : α → Option α} {a b i t tail tail' : α} {l r xs ys : List α}

theorem RingList.rotate (h : RingList nxt tail (l ++ a :: r)) : RingList nxt a (r ++ l ++ [a]) := by
  have hp := path_append.1 h.path
  have hnd : (r ++ l ++ [a]).Nodup := by
    have hperm : (l ++ a :: r).Perm (r ++ l ++ [a]) := by
      refine List.perm_append_comm.trans ?_
      rw [List.append_assoc, List.cons_append]
      exact (List.perm_append_singleton a (r ++ l)).symm.trans (by rw [List.append_assoc])
    exact hperm.nodup h.nodup
  refine ⟨?_, by simp, hnd⟩
  rw [List.append_assoc, path_append]
  refine ⟨hp.2.2, ?_⟩
  have htail : lastOf a r = tail := by
    have := h.ends
    rw [List.getLast?_append_of_ne_nil _ (by simp), List.getLast?_eq_some_getLast (by simp),
      Option.some.injEq] at this
    exact this
  rw [htail, path_append]
  exact ⟨hp.1, hp.2.1, trivial⟩

theorem RingList.exists_rotate (h : RingList nxt tail xs) (ha : a ∈ xs) :
    ∃ ys, RingList nxt a ys ∧ ∀ i, i ∈ ys ↔ i ∈ xs := by
  obtain ⟨l, r, rfl⟩ := List.append_of_mem ha
  refine ⟨_, h.rotate, fun i => ?_⟩
  simp only [List.mem_append, List.mem_cons, List.not_mem_nil, or_false]
  tauto

variable [DecidableEq α]

/-- The links from `a` to `t`. -/
def turns (nxt : α → Option α) (t : α) : ℕ → α → ℕ
  | 0, _ => 0
  | n + 1, a =>
    if a = t then 0
    else
      match nxt a with
      | none => 0
      | some b => turns nxt t n b + 1

theorem turns_self (nxt : α → Option α) (t : α) (n : ℕ) : turns nxt t n t = 0 := by
  cases n with
  | zero => rfl
  | succ n => rw [turns, if_pos rfl]

theorem turns_path : ∀ {xs : List α} {n : ℕ} {a : α}, Path nxt a (xs ++ [t]) → t ∉ a :: xs →
    xs.length < n → turns nxt t n a = xs.length + 1
  | [], n + 1, a, hp, ht, _ => by
    rw [turns, if_neg fun he => ht (by simp [he]), hp.1]
    dsimp only
    rw [turns_self]
    rfl
  | x :: xs, n + 1, a, hp, ht, hn => by
    rw [turns, if_neg fun he => ht (by simp [he]), hp.1]
    dsimp only
    rw [turns_path hp.2 (fun hx => ht (List.mem_cons_of_mem _ hx)) (by simpa using hn),
      List.length_cons]

namespace RingList

/-- **The number of turns** is the position in the list that is read from `a`. -/
theorem turns_eq (h : RingList nxt a xs) (ht : t ∈ xs) (hne : t ≠ a) {n : ℕ} (hn : xs.length ≤ n) :
    turns nxt t n a = xs.idxOf t + 1 := by
  obtain ⟨l, r, rfl, hp, -, hl, -, -⟩ := h.split ht
  have hidx : (l ++ t :: r).idxOf t = l.length := by
    rw [List.idxOf_append, if_neg hl, List.idxOf_cons_self, Nat.zero_add]
  rw [hidx]
  refine turns_path hp ?_ ?_
  · simpa using ⟨hne, hl⟩
  · simp only [List.length_append, List.length_cons] at hn
    omega

theorem idxOf_lt (h : RingList nxt a xs) (ht : t ∈ xs) (hne : t ≠ a) :
    xs.idxOf t + 1 < xs.length := by
  obtain ⟨ys, rfl⟩ := h.exists_eq
  have hy : t ∈ ys := by simpa [hne] using ht
  rw [List.idxOf_append, if_pos hy, List.length_append, List.length_singleton]
  have := List.idxOf_lt_length_of_mem hy
  omega

/-- **Linking in** a node delays the others by one turn at most. -/
theorem insert_turns (h : RingList nxt tail xs) (h' : RingList nxt' i (xs ++ [i])) (ha : a ∈ xs) :
    ∃ ys ys', RingList nxt a ys ∧ RingList nxt' a ys' ∧ (∀ j, j ∈ ys ↔ j ∈ xs) ∧
      (∀ j, j ∈ ys' ↔ j ∈ xs ∨ j = i) ∧ ∀ t, t ≠ i → ys'.idxOf t ≤ ys.idxOf t + 1 := by
  obtain ⟨l, r, rfl⟩ := List.append_of_mem ha
  have h1 : RingList nxt' i (l ++ a :: (r ++ [i])) := by simpa using h'
  refine ⟨_, _, h.rotate, h1.rotate, fun j => ?_, fun j => ?_, fun t ht => ?_⟩
  · simp only [List.mem_append, List.mem_cons, List.not_mem_nil, or_false]
    tauto
  · simp only [List.mem_append, List.mem_cons, List.not_mem_nil, or_false]
    tauto
  · have hi : t ∉ [i] := by simpa using ht
    by_cases hr : t ∈ r
    · simp only [List.append_assoc, List.idxOf_append, if_pos hr]
      omega
    · simp only [List.append_assoc, List.idxOf_append, if_neg hr, if_neg hi, List.length_singleton]
      omega

theorem idxOf_filter_le (p : α → Bool) (ht : p t = true) : ∀ xs : List α,
    (xs.filter p).idxOf t ≤ xs.idxOf t
  | [] => Nat.le_refl _
  | x :: xs => by
    have ih := idxOf_filter_le p ht xs
    rcases eq_or_ne x t with rfl | hx
    · rw [List.filter_cons_of_pos ht, List.idxOf_cons_self]
      exact Nat.zero_le _
    · rw [List.idxOf_cons_ne _ hx]
      by_cases hp : p x = true
      · rw [List.filter_cons_of_pos hp, List.idxOf_cons_ne _ hx]
        omega
      · rw [List.filter_cons_of_neg hp]
        omega

/-- **Linking out** a node delays nobody. -/
theorem erase_turns (h : RingList nxt tail xs) (h' : RingList nxt' tail' (xs.erase i)) (ha : a ∈ xs)
    (hi : i ≠ a) :
    ∃ ys ys', RingList nxt a ys ∧ RingList nxt' a ys' ∧ (∀ j, j ∈ ys ↔ j ∈ xs) ∧
      (∀ j, j ∈ ys' ↔ j ∈ xs ∧ j ≠ i) ∧ ∀ t, t ≠ i → ys'.idxOf t ≤ ys.idxOf t := by
  obtain ⟨l, r, rfl⟩ := List.append_of_mem ha
  have hmem : ∀ j, j ∈ r ++ l ++ [a] ↔ j ∈ l ++ a :: r := by
    intro j
    simp only [List.mem_append, List.mem_cons, List.not_mem_nil, or_false]
    tauto
  have hcons : ∀ zs, (a :: zs).filter (· != i) = a :: zs.filter (· != i) := by
    intro zs
    simp [hi.symm]
  rw [h.nodup.erase_eq_filter, List.filter_append, hcons] at h'
  have h1 := h'.rotate
  have heq : r.filter (· != i) ++ l.filter (· != i) ++ [a] = (r ++ l ++ [a]).filter (· != i) := by
    rw [List.filter_append, List.filter_append, hcons, List.filter_nil]
  rw [heq] at h1
  refine ⟨_, _, h.rotate, h1, hmem, fun j => ?_, fun t ht => ?_⟩
  · rw [List.mem_filter, hmem]
    simp
  · exact idxOf_filter_le _ (by simpa using ht) _

/-- **Passing the turn on** while the node that had it is linked out. -/
theorem pass_turns (h : RingList nxt tail xs) (h' : RingList nxt' tail' (xs.erase a)) (ha : a ∈ xs)
    (hab : nxt a = some b) (hne : b ≠ a) :
    ∃ ys ys', RingList nxt a ys ∧ RingList nxt' b ys' ∧ (∀ j, j ∈ ys ↔ j ∈ xs) ∧
      (∀ j, j ∈ ys' ↔ j ∈ xs ∧ j ≠ a) ∧
      ∀ t, t ∈ xs → t ≠ a → t ≠ b → ys'.idxOf t + 1 = ys.idxOf t := by
  obtain ⟨l, r, rfl⟩ := List.append_of_mem ha
  have hnd := h.nodup
  have hal : a ∉ l := fun hl => (List.nodup_append.1 hnd).2.2 a hl a (by simp) rfl
  rw [List.erase_append_right _ hal, List.erase_cons_head] at h'
  have h1 := h.rotate
  have hmem : ∀ j, j ∈ r ++ l ++ [a] ↔ j ∈ l ++ a :: r := by
    intro j
    simp only [List.mem_append, List.mem_cons, List.not_mem_nil, or_false]
    tauto
  -- The list that is read from `a` begins with `b`, and is read from `b` without `a`.
  obtain ⟨zs, hzs, h2⟩ : ∃ zs, r ++ l = b :: zs ∧ RingList nxt' b (zs ++ [b]) := by
    cases r with
    | nil =>
      cases l with
      | nil =>
        have hp : nxt a = some a := h1.path.1
        rw [hab, Option.some.injEq] at hp
        exact absurd hp hne
      | cons z l =>
        have hp : nxt a = some z := h1.path.1
        rw [hab, Option.some.injEq] at hp
        subst hp
        refine ⟨l, by simp, ?_⟩
        have h3 : RingList nxt' tail' ([] ++ b :: l) := by simpa using h'
        simpa using h3.rotate
    | cons z r =>
      have hp : nxt a = some z := h1.path.1
      rw [hab, Option.some.injEq] at hp
      subst hp
      exact ⟨r ++ l, by simp, h'.rotate⟩
  have hin : ∀ j, j ∈ b :: zs ↔ j ∈ l ++ a :: r ∧ j ≠ a := by
    intro j
    have hn : a ∉ b :: zs := by
      rw [← hzs]
      exact fun hm => (List.nodup_append.1 h1.nodup).2.2 a hm a (by simp) rfl
    rw [← hmem, hzs, List.mem_append, List.mem_singleton]
    constructor
    · exact fun hj => ⟨.inl hj, fun he => hn (he ▸ hj)⟩
    · exact fun hj => hj.1.resolve_right hj.2
  refine ⟨_, _, h1, h2, hmem, fun j => ?_, fun t ht hta htb => ?_⟩
  · rw [← hin, List.mem_append, List.mem_singleton, List.mem_cons, or_comm]
  · have hz : t ∈ zs := (List.mem_cons.1 ((hin t).2 ⟨ht, hta⟩)).resolve_left htb
    rw [hzs, List.cons_append, List.idxOf_cons_ne _ htb.symm, List.idxOf_append, if_pos hz,
      List.idxOf_append, if_pos hz]

end RingList

end OscKernel.Lib.Cyclic
