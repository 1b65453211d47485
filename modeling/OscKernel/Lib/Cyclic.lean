import Mathlib.Data.List.Nodup
import Mathlib.Logic.Function.Basic
import Mathlib.Tactic.SplitIfs

/-! # Circular singly linked lists

A queue of nodes that carry their own link `nxt` and is known by its last node: the link of the last
node leads back to the first. `RingList nxt tail xs` says that following `nxt` from `tail` visits the
nodes `xs` one after the other and ends in `tail` again.

* `RingList.insert`: a node is linked in behind the last one.
* `findPrev_eq`: the search for the node before a given one ends, and finds it.
* `RingList.remove`: a node is unlinked. -/

namespace OscKernel.Lib.Cyclic

variable {α : Type*} {nxt nxt' : α → Option α} {a b t tail : α} {xs ys : List α}

/-- Following `nxt` from `a` visits the nodes of the list. -/
def Path (nxt : α → Option α) : α → List α → Prop
  | _, [] => True
  | a, x :: xs => nxt a = some x ∧ Path nxt x xs

/-- The last node of a path. -/
def lastOf (a : α) (xs : List α) : α := (a :: xs).getLast (by simp)

theorem lastOf_nil (a : α) : lastOf a [] = a := rfl

theorem lastOf_cons (a x : α) (xs : List α) : lastOf a (x :: xs) = lastOf x xs := by
  simp [lastOf]

theorem lastOf_append_singleton (a b : α) (xs : List α) : lastOf a (xs ++ [b]) = b := by
  simp [lastOf]

theorem lastOf_mem (a : α) (xs : List α) : lastOf a xs ∈ a :: xs := List.getLast_mem _

theorem lastOf_notMem_dropLast (h : (a :: xs).Nodup) : lastOf a xs ∉ (a :: xs).dropLast := by
  intro hm
  rw [← List.dropLast_append_getLast (l := a :: xs) (by simp)] at h
  exact (List.nodup_append.1 h).2.2 _ hm (lastOf a xs) (by simp [lastOf]) rfl

theorem path_append : ∀ {a : α} {xs ys : List α},
    Path nxt a (xs ++ ys) ↔ Path nxt a xs ∧ Path nxt (lastOf a xs) ys
  | a, [], ys => by simp [Path, lastOf_nil]
  | a, x :: xs, ys => by
    rw [List.cons_append, Path, Path, path_append, lastOf_cons, and_assoc]

/-- A path depends on the links of all its nodes but the last. -/
theorem Path.congr : ∀ {a : α} {xs : List α}, Path nxt a xs →
    (∀ z ∈ (a :: xs).dropLast, nxt' z = nxt z) → Path nxt' a xs
  | a, [], _, _ => trivial
  | a, x :: xs, ⟨h1, h2⟩, h =>
    ⟨(h a (by simp)).trans h1, h2.congr fun z hz => h z (by simp [hz])⟩

/-- The circular list with the last node `tail` and the nodes `xs`, the first one first. -/
structure RingList (nxt : α → Option α) (tail : α) (xs : List α) : Prop where
  path : Path nxt tail xs
  ends : xs.getLast? = some tail
  nodup : xs.Nodup

namespace RingList

theorem exists_eq (h : RingList nxt tail xs) : ∃ ys, xs = ys ++ [tail] :=
  List.getLast?_eq_some_iff.1 h.ends

theorem tail_mem (h : RingList nxt tail xs) : tail ∈ xs := List.mem_of_getLast? h.ends

theorem congr (h : RingList nxt tail xs) (hn : ∀ z ∈ xs, nxt' z = nxt z) :
    RingList nxt' tail xs := by
  refine ⟨h.path.congr fun z hz => ?_, h.ends, h.nodup⟩
  rcases List.mem_cons.1 ((List.dropLast_sublist _).subset hz) with rfl | hz
  · exact hn _ h.tail_mem
  · exact hn z hz

theorem single (h : nxt a = some a) : RingList nxt a [a] :=
  ⟨⟨h, trivial⟩, rfl, List.nodup_singleton a⟩

/-- The link of a node of the list leads to a node of the list. -/
theorem next_mem (h : RingList nxt tail xs) (ha : a ∈ xs) : ∃ b ∈ xs, nxt a = some b := by
  obtain ⟨l, r, rfl⟩ := List.append_of_mem ha
  cases r with
  | cons b r =>
    have hp := (path_append.1 h.path).2.2
    exact ⟨b, by simp, hp.1⟩
  | nil =>
    obtain rfl : a = tail := by simpa using h.ends
    cases l with
    | nil => exact ⟨a, by simp, h.path.1⟩
    | cons b l => exact ⟨b, by simp, h.path.1⟩

theorem eq_singleton (h : RingList nxt tail xs) (ha : a ∈ xs) (hn : nxt a = some a) :
    xs = [a] := by
  obtain ⟨l, r, rfl⟩ := List.append_of_mem ha
  cases r with
  | cons b r =>
    have hab : nxt a = some b := (path_append.1 h.path).2.2.1
    rw [hn, Option.some.injEq] at hab
    subst hab
    have := (List.nodup_append.1 h.nodup).2.1
    simp at this
  | nil =>
    obtain rfl : a = tail := by simpa using h.ends
    cases l with
    | nil => rfl
    | cons b l =>
      have hab : nxt a = some b := h.path.1
      rw [hn, Option.some.injEq] at hab
      subst hab
      have := h.nodup
      simp at this

section
variable [DecidableEq α]

/-- **Linking in** a node behind the last one. -/
theorem insert (h : RingList nxt tail xs) (ht : t ∉ xs) :
    RingList (Function.update (Function.update nxt t (nxt tail)) tail (some t)) t (xs ++ [t]) := by
  have htail : t ≠ tail := fun he => ht (he ▸ h.tail_mem)
  obtain ⟨ys, rfl⟩ := h.exists_eq
  have hnd := List.nodup_append.1 h.nodup
  refine ⟨?_, by simp, h.nodup.append (by simp) (by simpa using ht)⟩
  have hys : ∀ z ∈ ys, Function.update (Function.update nxt t (nxt tail)) tail (some t) z =
      nxt z := by
    intro z hz
    rw [Function.update_of_ne (hnd.2.2 z hz tail (by simp)),
      Function.update_of_ne (fun he => ht (by simp [← he, hz]))]
  have hp := h.path
  rw [path_append, lastOf_append_singleton]
  refine ⟨?_, by simp, trivial⟩
  cases ys with
  | nil => exact ⟨by rw [Function.update_of_ne htail]; simp [hp.1], trivial⟩
  | cons y ys =>
    refine ⟨by rw [Function.update_of_ne htail]; simp [hp.1], hp.2.congr fun z hz => hys z ?_⟩
    have hcons : y :: (ys ++ [tail]) = (y :: ys) ++ [tail] := rfl
    change z ∈ (y :: (ys ++ [tail])).dropLast at hz
    rwa [hcons, List.dropLast_concat] at hz

end

end RingList

variable [DecidableEq α]

/-- The search for the node before `t`, from the node `prev` on: the node, or `none` if the search
comes back to `tail`. It fails on a missing link or without fuel. -/
def findPrev (nxt : α → Option α) (tail t : α) : ℕ → α → Option (Option α)
  | 0, _ => none
  | n + 1, prev =>
    if nxt prev = some t then some (some prev)
    else
      match nxt prev with
      | none => none
      | some q => if q = tail then some none else findPrev nxt tail t n q

/-- **The search** follows a path to the node before `t`. -/
theorem findPrev_path : ∀ {xs : List α} {n : ℕ} {a : α}, Path nxt a (xs ++ [t]) → t ∉ xs →
    tail ∉ xs → xs.length < n → findPrev nxt tail t n a = some (some (lastOf a xs))
  | [], n + 1, a, hp, _, _, _ => by rw [findPrev, if_pos hp.1, lastOf_nil]
  | x :: xs, n + 1, a, hp, ht, htail, hn => by
    simp only [List.mem_cons, not_or, List.length_cons] at ht htail hn
    have hne : nxt a ≠ some t := by
      rw [hp.1]
      simpa using Ne.symm ht.1
    rw [findPrev, if_neg hne, hp.1]
    simp only
    rw [if_neg (Ne.symm htail.1), findPrev_path hp.2 ht.2 htail.2 (by omega), lastOf_cons]

theorem findPrev_link {p : α} : ∀ {n : ℕ} {a : α}, findPrev nxt tail t n a = some (some p) →
    nxt p = some t
  | n + 1, a, h => by
    unfold findPrev at h
    split_ifs at h with ha
    · simp only [Option.some.injEq] at h
      exact h ▸ ha
    · split at h
      · cases h
      · split_ifs at h
        · simp at h
        · exact findPrev_link h

theorem findPrev_mem {p : α} (hr : RingList nxt tail xs) : ∀ {n : ℕ} {a : α}, a ∈ xs →
    findPrev nxt tail t n a = some (some p) → p ∈ xs
  | n + 1, a, ha, h => by
    unfold findPrev at h
    split_ifs at h
    · simp only [Option.some.injEq] at h
      exact h ▸ ha
    · obtain ⟨b, hb, hab⟩ := hr.next_mem ha
      rw [hab] at h
      dsimp only at h
      split_ifs at h
      · simp at h
      · exact findPrev_mem hr hb h

namespace RingList

omit [DecidableEq α] in
theorem split (h : RingList nxt tail xs) (ht : t ∈ xs) :
    ∃ l r, xs = l ++ t :: r ∧ Path nxt tail (l ++ [t]) ∧ Path nxt t r ∧ t ∉ l ∧ t ∉ r ∧
      tail ∉ l := by
  obtain ⟨l, r, rfl⟩ := List.append_of_mem ht
  have hnd := List.nodup_append.1 h.nodup
  have hp := path_append.1 h.path
  have htr : t ∉ r := (List.nodup_cons.1 hnd.2.1).1
  refine ⟨l, r, rfl, path_append.2 ⟨hp.1, hp.2.1, trivial⟩, hp.2.2, fun hl => ?_, htr, fun hl => ?_⟩
  · exact hnd.2.2 t hl t (by simp) rfl
  · have hlast : tail ∈ t :: r := by
      have := h.ends
      rw [List.getLast?_append_of_ne_nil _ (by simp)] at this
      exact List.mem_of_getLast? this
    exact hnd.2.2 tail hl tail hlast rfl

/-- **Unlinking** a node of a list of several: the search finds the node before it, and linking that
one to the node behind leaves the list without it. -/
theorem exists_findPrev (h : RingList nxt tail xs) (ht : t ∈ xs) (hne : nxt t ≠ some t) {n : ℕ}
    (hn : xs.length ≤ n) :
    ∃ p ∈ xs, p ≠ t ∧ findPrev nxt tail t n tail = some (some p) ∧
      RingList (Function.update (Function.update nxt p (nxt t)) t none)
        (if tail = t then p else tail) (xs.erase t) := by
  obtain ⟨l, r, rfl, hp, hpr, hl, hr, htail⟩ := h.split ht
  have hlen : l.length < n := by
    simp only [List.length_append, List.length_cons] at hn
    omega
  have hfind := findPrev_path hp hl htail hlen
  have hnd := List.nodup_append.1 h.nodup
  have hnd1 : (tail :: l).Nodup := List.nodup_cons.2 ⟨htail, hnd.1⟩
  have hmem := lastOf_mem tail l
  have hout := lastOf_notMem_dropLast hnd1
  have hout' : ∀ y l', l = y :: l' → lastOf tail l ∉ (y :: l').dropLast := by
    rintro y l' rfl
    rw [lastOf_cons]
    exact lastOf_notMem_dropLast hnd.1
  have hends : l ≠ [] → l.getLast? = some (lastOf tail l) := by
    intro hl'
    obtain ⟨y, l', rfl⟩ := List.exists_cons_of_ne_nil hl'
    rw [lastOf_cons]
    exact List.getLast?_eq_some_getLast _
  obtain ⟨hpl, hpt, -⟩ := path_append.1 hp
  generalize hlast : lastOf tail l = p at *
  have hne' : p ≠ t := fun he => hne (he ▸ hpt)
  have hupd : ∀ z, z ≠ p → z ≠ t →
      Function.update (Function.update nxt p (nxt t)) t none z = nxt z :=
    fun z h1 h2 => by rw [Function.update_of_ne h2, Function.update_of_ne h1]
  have hupdp : Function.update (Function.update nxt p (nxt t)) t none p = nxt t := by
    rw [Function.update_of_ne hne', Function.update_self]
  have herase : (l ++ t :: r).erase t = l ++ r := by
    rw [List.erase_append_right _ hl, List.erase_cons_head]
  have hnd' : (l ++ r).Nodup := herase ▸ h.nodup.erase t
  have hpmem : p = tail ∨ p ∈ l := List.mem_cons.1 hmem
  refine ⟨p, ?_, hne', hfind, ?_⟩
  · rcases hpmem with rfl | hm
    · exact h.tail_mem
    · simp [hm]
  rw [herase]
  cases r with
  | nil =>
    obtain rfl : t = tail := by simpa using h.ends
    have hpl' : p ∈ l := hpmem.resolve_left hne'
    obtain ⟨y, l', rfl⟩ := List.exists_cons_of_ne_nil (List.ne_nil_of_mem hpl')
    rw [if_pos rfl, List.append_nil]
    refine ⟨⟨hupdp.trans hpl.1, hpl.2.congr fun z hz => hupd z ?_ ?_⟩, hends (by simp), hnd.1⟩
    · exact fun he => hout' y l' rfl (he ▸ hz)
    · exact fun he => hl (he ▸ (List.dropLast_sublist _).subset hz)
  | cons b r =>
    have hbr : (b :: r).getLast? = some tail := by
      have := h.ends
      rwa [List.getLast?_append_of_ne_nil _ (by simp), List.getLast?_cons_cons] at this
    have htt : tail ≠ t := fun he => hr (he ▸ List.mem_of_getLast? hbr)
    rw [if_neg htt]
    refine ⟨path_append.2 ⟨hpl.congr fun z hz => hupd z ?_ ?_, ?_⟩, ?_, hnd'⟩
    · exact fun he => hout (he ▸ hz)
    · rintro rfl
      rcases List.mem_cons.1 ((List.dropLast_sublist _).subset hz) with he | he
      · exact htt he.symm
      · exact hl he
    · rw [hlast]
      refine ⟨hupdp.trans hpr.1, hpr.2.congr fun z hz => hupd z ?_ ?_⟩
      · rintro rfl
        have hzr := (List.dropLast_sublist _).subset hz
        rcases hpmem with rfl | hm
        · have hlr : lastOf b r = z := by
            have hsome := List.getLast?_eq_some_getLast (l := b :: r) (by simp)
            rw [hbr, Option.some.injEq] at hsome
            exact hsome.symm
          exact lastOf_notMem_dropLast (List.nodup_cons.1 hnd.2.1).2 (hlr ▸ hz)
        · exact hnd.2.2 z hm z (List.mem_cons_of_mem _ hzr) rfl
      · exact fun he => hr (he ▸ (List.dropLast_sublist _).subset hz)
    · rw [List.getLast?_append_of_ne_nil _ (by simp), hbr]

end RingList

end OscKernel.Lib.Cyclic
