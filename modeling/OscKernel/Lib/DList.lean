import OscKernel.Lib.Cyclic

/-! # Circular doubly linked lists

Nodes carry a link to the next and to the previous node. A list is known by its head, a node of its
own that holds no data: from the head, the next links visit the nodes of the list and come back to the
head, and so do the previous links, the other way round. Several lists can live in one set of links.

* `Ring.init`, `Ring.add`, `Ring.del`: what the operations do to the list of a head.
* `Ring.congr`: a list depends on the links of its own nodes; with the last clauses of the
  specifications, the operations leave the other lists alone. -/

namespace OscKernel.Lib.DList

open OscKernel.Lib.Cyclic

variable {α : Type*}

/-- The links of all nodes. -/
structure Links (α : Type*) where
  next : α → Option α
  prev : α → Option α

/-- The list of the head `h` is `xs`. -/
structure Ring (l : Links α) (h : α) (xs : List α) : Prop where
  nodup : (h :: xs).Nodup
  next : Path l.next h (xs ++ [h])
  prev : Path l.prev h (xs.reverse ++ [h])

section Path
variable {nxt : α → Option α} {a b t : α} {xs l r : List α}

theorem path_congr {nxt' : α → Option α} (h : Path nxt a (xs ++ [b]))
    (hn : ∀ z ∈ a :: xs, nxt' z = nxt z) : Path nxt' a (xs ++ [b]) := by
  refine h.congr fun z hz => hn z ?_
  rwa [← List.cons_append, List.dropLast_concat] at hz

variable [DecidableEq α]

theorem path_link (h : Path nxt a (xs ++ [b])) (ha : a ∉ xs) (ht : t ∉ a :: xs) :
    Path (Function.update (Function.update nxt t (nxt a)) a (some t)) a (t :: (xs ++ [b])) := by
  have hta : t ≠ a := fun he => ht (by simp [he])
  refine ⟨Function.update_self .., ?_⟩
  cases xs with
  | nil => exact ⟨by rw [Function.update_of_ne hta, Function.update_self]; exact h.1, trivial⟩
  | cons x xs =>
    refine ⟨by rw [Function.update_of_ne hta, Function.update_self]; exact h.1, ?_⟩
    refine path_congr h.2 fun z hz => ?_
    have hza : z ≠ a := by
      rintro rfl
      exact ha hz
    have hzt : z ≠ t := by
      rintro rfl
      exact ht (List.mem_cons_of_mem _ hz)
    rw [Function.update_of_ne hza, Function.update_of_ne hzt]

theorem path_link_last (h : Path nxt a (xs ++ [b])) (hnd : (a :: xs).Nodup) (ht : t ∉ a :: xs) :
    Path (Function.update (Function.update nxt t (some b)) (lastOf a xs) (some t)) a
      (xs ++ [t] ++ [b]) := by
  have hlast := lastOf_mem a xs
  have htl : t ≠ lastOf a xs := fun he => ht (he ▸ hlast)
  rw [path_append, lastOf_append_singleton, path_append]
  refine ⟨⟨(path_append.1 h).1.congr fun z hz => ?_, ?_, trivial⟩, ?_, trivial⟩
  · have hzl : z ≠ lastOf a xs := by
      rintro rfl
      exact lastOf_notMem_dropLast hnd hz
    have hzt : z ≠ t := by
      rintro rfl
      exact ht ((List.dropLast_sublist _).subset hz)
    rw [Function.update_of_ne hzl, Function.update_of_ne hzt]
  · rw [Function.update_self]
  · rw [Function.update_of_ne htl, Function.update_self]

theorem path_unlink (h : Path nxt a (l ++ t :: (r ++ [b]))) (hnd : (a :: (l ++ t :: r)).Nodup) :
    Path (Function.update nxt (lastOf a l) (nxt t)) a (l ++ (r ++ [b])) := by
  have hlast := lastOf_mem a l
  have hnd' : ((a :: l) ++ t :: r).Nodup := hnd
  obtain ⟨h1, h2, h3⟩ := List.nodup_append.1 hnd'
  obtain ⟨hl, ht, hr⟩ := path_append.1 h
  rw [path_append]
  refine ⟨hl.congr fun z hz => ?_, ?_⟩
  · have hzl : z ≠ lastOf a l := by
      rintro rfl
      exact lastOf_notMem_dropLast h1 hz
    rw [Function.update_of_ne hzl]
  · have hne : ∀ z ∈ r, z ≠ lastOf a l := fun z hz he =>
      h3 _ hlast z (List.mem_cons_of_mem _ hz) he.symm
    cases r with
    | nil => exact ⟨by rw [Function.update_self]; exact hr.1, trivial⟩
    | cons x r =>
      refine ⟨by rw [Function.update_self]; exact hr.1, ?_⟩
      refine path_congr hr.2 fun z hz => ?_
      rw [Function.update_of_ne (hne z hz)]

end Path

section Ring
variable {l l' : Links α} {h n : α} {xs : List α}

theorem Ring.congr (hr : Ring l h xs)
    (hn : ∀ z ∈ h :: xs, l'.next z = l.next z ∧ l'.prev z = l.prev z) :
    Ring l' h xs := by
  refine ⟨hr.nodup, path_congr hr.next fun z hz => (hn z hz).1, path_congr hr.prev fun z hz => ?_⟩
  rw [List.mem_cons, List.mem_reverse, ← List.mem_cons] at hz
  exact (hn z hz).2

theorem Ring.next_head (hr : Ring l h xs) : l.next h = some (xs.headD h) := by
  have hp := hr.next
  cases xs with
  | nil => exact hp.1
  | cons x xs => exact hp.1

theorem Ring.next_of_append {as bs : List α} (hr : Ring l h (as ++ n :: bs)) :
    l.next n = some (bs.headD h) := by
  have hp := hr.next
  rw [List.append_assoc, List.cons_append, path_append] at hp
  obtain ⟨-, -, hp⟩ := hp
  cases bs with
  | nil => exact hp.1
  | cons b bs => exact hp.1

variable [DecidableEq α]

namespace Links

/-- `list_init`: both links of the head lead to itself. -/
def init (l : Links α) (h : α) : Links α :=
  ⟨Function.update l.next h (some h), Function.update l.prev h (some h)⟩

/-- A node is linked in behind the head. It fails on a missing link. -/
def add (l : Links α) (h n : α) : Option (Links α) :=
  let l : Links α := ⟨Function.update l.next n (l.next h), Function.update l.prev n (some h)⟩
  match l.next h with
  | none => none
  | some q => some ⟨Function.update l.next h (some n), Function.update l.prev q (some n)⟩

/-- A node is unlinked, and its links are cleared. It fails on a missing link. -/
def del (l : Links α) (n : α) : Option (Links α) :=
  match l.prev n with
  | none => none
  | some p =>
    let next := Function.update l.next p (l.next n)
    match next n with
    | none => none
    | some q =>
      let prev := Function.update l.prev q (l.prev n)
      some ⟨Function.update next n none, Function.update prev n none⟩

end Links

/-- **Initialising** a head gives the empty list. -/
theorem Ring.init (l : Links α) (h : α) : Ring (l.init h) h [] := by
  refine ⟨List.nodup_singleton h, ⟨?_, trivial⟩, ?_, trivial⟩ <;>
  · simp [Links.init]

theorem Ring.init_of_ne {h' : α} (hr : Ring l h xs) (hh : h' ∉ h :: xs) :
    Ring (l.init h') h xs := by
  refine hr.congr fun z hz => ?_
  have hne : z ≠ h' := fun he => hh (he ▸ hz)
  exact ⟨Function.update_of_ne hne .., Function.update_of_ne hne ..⟩

/-- **Linking in** a new node. -/
theorem Ring.add (hr : Ring l h xs) (hn : n ∉ h :: xs) :
    ∃ l', l.add h n = some l' ∧ Ring l' h (n :: xs) ∧
      ∀ z, z ∉ n :: h :: xs → l'.next z = l.next z ∧ l'.prev z = l.prev z := by
  obtain ⟨hnh, hnx⟩ := not_or.1 (List.mem_cons.not.1 hn)
  have hhx : h ∉ xs := (List.nodup_cons.1 hr.nodup).1
  have hq : Function.update l.next n (l.next h) h = some (xs.headD h) := by
    rw [Function.update_of_ne (Ne.symm hnh), hr.next_head]
  have hlast : lastOf h xs.reverse = xs.headD h := by
    cases xs with
    | nil => rfl
    | cons x xs => rw [List.reverse_cons, lastOf_append_singleton]; rfl
  refine ⟨⟨Function.update (Function.update l.next n (l.next h)) h (some n),
    Function.update (Function.update l.prev n (some h)) (xs.headD h) (some n)⟩, ?_, ?_, fun z hz => ?_⟩
  · unfold Links.add
    dsimp only
    rw [hq]
  · refine ⟨?_, path_link hr.next hhx hn, ?_⟩
    · rw [List.nodup_cons, List.mem_cons, not_or, List.nodup_cons]
      exact ⟨⟨Ne.symm hnh, hhx⟩, hnx, (List.nodup_cons.1 hr.nodup).2⟩
    · rw [← hlast, List.reverse_cons]
      refine path_link_last hr.prev ?_ ?_
      · rw [List.nodup_cons, List.mem_reverse, List.nodup_reverse]
        exact List.nodup_cons.1 hr.nodup
      · rw [List.mem_cons, List.mem_reverse, ← List.mem_cons]
        exact hn
  · obtain ⟨hzn, hz⟩ := not_or.1 (List.mem_cons.not.1 hz)
    obtain ⟨hzh, hzx⟩ := not_or.1 (List.mem_cons.not.1 hz)
    have hzq : z ≠ xs.headD h := by
      cases xs with
      | nil => exact hzh
      | cons x xs => exact fun he => hzx (by rw [he]; simp)
    exact ⟨(Function.update_of_ne hzh ..).trans (Function.update_of_ne hzn ..),
      (Function.update_of_ne hzq ..).trans (Function.update_of_ne hzn ..)⟩

/-- **Unlinking** a node of the list. -/
theorem Ring.del (hr : Ring l h xs) (hn : n ∈ xs) :
    ∃ l', l.del n = some l' ∧ Ring l' h (xs.erase n) ∧
      ∀ z, z ∉ h :: xs → l'.next z = l.next z ∧ l'.prev z = l.prev z := by
  obtain ⟨as, bs, rfl⟩ := List.append_of_mem hn
  have hnd : ((h :: as) ++ n :: bs).Nodup := hr.nodup
  obtain ⟨ha, hb, hab⟩ := List.nodup_append.1 hnd
  have hna : n ∉ h :: as := fun hm => hab n hm n (by simp) rfl
  have hnb : n ∉ bs := (List.nodup_cons.1 hb).1
  -- the same path, backwards
  have hprev : Path l.prev h (bs.reverse ++ n :: (as.reverse ++ [h])) := by
    have hp := hr.prev
    rwa [List.reverse_append, List.reverse_cons, List.append_assoc, List.append_assoc,
      List.singleton_append] at hp
  have hlast : ∀ ys : List α, lastOf h ys.reverse = ys.headD h := by
    intro ys
    cases ys with
    | nil => rfl
    | cons y ys => rw [List.reverse_cons, lastOf_append_singleton]; rfl
  have hpn : l.prev n = some (lastOf h as) := by
    have hp := (path_append.1 hprev).2.2
    have hl := hlast as.reverse
    rw [List.reverse_reverse] at hl
    rw [hl]
    cases has : as.reverse with
    | nil => rw [has] at hp; exact hp.1
    | cons b cs => rw [has] at hp; exact hp.1
  have hp_ne : lastOf h as ≠ n := fun he => hna (he ▸ lastOf_mem h as)
  have hq_ne : bs.headD h ≠ n := by
    cases bs with
    | nil => exact fun he => hna (by simp [show h = n from he])
    | cons b bs => exact fun he => hnb (by simp [show b = n from he])
  have hnd' : (h :: (as ++ bs)).Nodup := by
    have := hr.nodup.erase n
    rwa [List.erase_cons_tail (by simpa using fun he : h = n => hna (by simp [he])),
      List.erase_append_right _ fun hm => hna (by simp [hm]), List.erase_cons_head] at this
  have hnab : n ∉ h :: (as ++ bs) := by
    rw [List.mem_cons, List.mem_append]
    rintro (rfl | hm | hm)
    · exact hna (by simp)
    · exact hna (by simp [hm])
    · exact hnb hm
  have hqn : Function.update l.next (lastOf h as) (l.next n) n = some (bs.headD h) := by
    rw [Function.update_of_ne (Ne.symm hp_ne), hr.next_of_append]
  refine ⟨⟨Function.update (Function.update l.next (lastOf h as) (l.next n)) n none,
    Function.update (Function.update l.prev (bs.headD h) (l.prev n)) n none⟩, ?_, ?_, fun z hz => ?_⟩
  · unfold Links.del
    rw [hpn]
    dsimp only
    rw [hqn]
  · rw [List.erase_append_right _ fun hm => hna (by simp [hm]), List.erase_cons_head]
    refine ⟨hnd', ?_, ?_⟩
    · have hp := hr.next
      rw [List.append_assoc, List.cons_append] at hp
      have hu := path_unlink hp hr.nodup
      rw [← List.append_assoc] at hu
      refine path_congr hu fun z hz => Function.update_of_ne ?_ ..
      rintro rfl
      exact hnab hz
    · have hrev : (h :: (bs.reverse ++ n :: as.reverse)).Nodup := by
        have heq : bs.reverse ++ n :: as.reverse = (as ++ n :: bs).reverse := by simp
        rw [heq, List.nodup_cons, List.mem_reverse, List.nodup_reverse]
        exact List.nodup_cons.1 hr.nodup
      have hu := path_unlink hprev hrev
      rw [hlast, ← List.append_assoc, ← List.reverse_append] at hu
      refine path_congr hu fun z hz => Function.update_of_ne ?_ ..
      rintro rfl
      rw [List.mem_cons, List.mem_reverse, ← List.mem_cons] at hz
      exact hnab hz
  · have hzn : z ≠ n := fun he => hz (by simp [he])
    have hzp : z ≠ lastOf h as := by
      rintro rfl
      have := lastOf_mem h as
      rw [List.mem_cons] at this
      rcases this with he | hm
      · exact hz (by rw [he]; simp)
      · exact hz (by simp [hm])
    have hzq : z ≠ bs.headD h := by
      cases bs with
      | nil => exact fun he => hz (by simp [show z = h from he])
      | cons b bs => exact fun he => hz (by simp [show z = b from he])
    exact ⟨(Function.update_of_ne hzn ..).trans (Function.update_of_ne hzp ..),
      (Function.update_of_ne hzn ..).trans (Function.update_of_ne hzq ..)⟩

end Ring

end OscKernel.Lib.DList
