import Mathlib.Algebra.GroupWithZero.Nat
import Mathlib.Data.List.FinRange
import Mathlib.Data.List.Sort
import Mathlib.Logic.Function.Basic
import Mathlib.Tactic.SplitIfs

/-! # A pool of linked nodes with a sorted queue

A fixed pool of nodes, each with one link. The links thread two lists through the pool: the free list
and a queue, both ending in the null link. A node goes from the front of the free list into the queue
and from the front of the queue back to the front of the free list.

* `Holds p out fl ql`: the lists are `fl` and `ql`, and with the nodes `out` they share out the pool.
* `init_holds`, `alloc_spec`, `popHead_spec`, `enqueue_spec`: what the operations do to the lists.
* `Ledger`: what has been put into the queue and taken out of it over time; `Ledger.Ok` says that
  every entry is waiting or has been taken, exactly once. -/

namespace OscKernel.Lib.NodePool

/-! ### Linked lists -/

section Chain
variable {ι : Type*} {next next' : ι → Option ι} {a : Option ι} {i : ι} {l : List ι}

/-- From `a`, the links visit the nodes of the list and end in the null link. -/
def Chain (next : ι → Option ι) : Option ι → List ι → Prop
  | a, [] => a = none
  | a, x :: xs => a = some x ∧ Chain next (next x) xs

theorem Chain.congr : ∀ {a : Option ι} {l : List ι}, Chain next a l →
    (∀ x ∈ l, next' x = next x) → Chain next' a l
  | _, [], h, _ => h
  | _, x :: l, ⟨h1, h2⟩, h => by
    refine ⟨h1, ?_⟩
    rw [h x (by simp)]
    exact h2.congr fun y hy => h y (by simp [hy])

theorem Chain.update [DecidableEq ι] (h : Chain next a l) (hi : i ∉ l) (b : Option ι) :
    Chain (Function.update next i b) a l :=
  h.congr fun _ hx => Function.update_of_ne (ne_of_mem_of_not_mem hx hi) ..

theorem Chain.cons [DecidableEq ι] (h : Chain next a l) (hi : i ∉ l) :
    Chain (Function.update next i a) (some i) (i :: l) :=
  ⟨rfl, by rw [Function.update_self]; exact h.update hi a⟩

theorem Chain.head (h : Chain next a l) : a = l.head? := by
  cases l with
  | nil => exact h
  | cons x xs => exact h.1

theorem Chain.unique : ∀ {a : Option ι} {l l' : List ι}, Chain next a l → Chain next a l' → l = l'
  | _, [], [], _, _ => rfl
  | _, [], _ :: _, h, h' => by cases h.symm.trans h'.1
  | _, _ :: _, [], h, h' => by cases h.1.symm.trans h'
  | _, x :: l, y :: l', ⟨h1, h2⟩, ⟨h1', h2'⟩ => by
    obtain rfl : x = y := Option.some.inj (h1.symm.trans h1')
    rw [h2.unique h2']

end Chain

variable {n : ℕ} {α : Type*}

/-- The pool: contents and links of the nodes, the front of the free list and that of the queue. -/
structure Pool (n : ℕ) (α : Type*) where
  node : Fin n → α
  next : Fin n → Option (Fin n)
  free : Option (Fin n)
  head : Option (Fin n)

namespace Pool

/-- All nodes are in the free list, in their order. -/
def init [NeZero n] (p : Pool n α) : Pool n α :=
  { p with
    next := fun i => if h : i.1 + 1 < n then some ⟨i.1 + 1, h⟩ else none
    free := some 0
    head := none }

/-- The node at the front of the free list is taken out. -/
def alloc (p : Pool n α) : Option (Fin n × Pool n α) :=
  p.free.map fun i => (i, { p with free := p.next i, next := Function.update p.next i none })

/-- A node is put at the front of the free list. -/
def release (p : Pool n α) (i : Fin n) : Pool n α :=
  { p with next := Function.update p.next i p.free, free := some i }

/-- The contents of a node are written. -/
def write (p : Pool n α) (i : Fin n) (a : α) : Pool n α :=
  { p with node := Function.update p.node i a, next := Function.update p.next i none }

/-- The first node of the queue goes back to the free list. -/
def popHead (p : Pool n α) : Option (Fin n × Pool n α) :=
  p.head.map fun i => (i, { p with head := p.next i }.release i)

variable (ahead : α → α → Prop) [DecidableRel ahead]

/-- The node goes in front of the queue: it is empty, or its first node comes later. -/
def First (p : Pool n α) (i : Fin n) : Prop := ∀ h ∈ p.head, ahead (p.node i) (p.node h)

instance (p : Pool n α) (i : Fin n) : Decidable (p.First ahead i) := by
  unfold First; infer_instance

def pushFront (p : Pool n α) (i : Fin n) : Pool n α :=
  { p with next := Function.update p.next i p.head, head := some i }

/-- The walk from the node `cur` to the one that `a` is to follow. -/
def walk (p : Pool n α) (a : α) : ℕ → Fin n → Option (Fin n)
  | 0, _ => none
  | k + 1, cur =>
    match p.next cur with
    | none => some cur
    | some j => if ahead a (p.node j) then some cur else walk p a k j

/-- The node goes behind the last one that it is not ahead of. -/
def pushBehind (p : Pool n α) (i : Fin n) : Option (Pool n α) :=
  match p.head with
  | none => none
  | some h => (p.walk ahead (p.node i) n h).map fun cur =>
    { p with next := Function.update (Function.update p.next i (p.next cur)) cur (some i) }

/-- The node is put into the queue. -/
def enqueue (p : Pool n α) (i : Fin n) : Option (Pool n α) :=
  if p.First ahead i then some (p.pushFront i) else p.pushBehind ahead i

end Pool

/-! ### What the operations do to the two lists -/

/-- The links of the pool thread the free list `fl` and the queue `ql`; the nodes `out` are in
neither, and every node of the pool is in exactly one of the three. -/
structure Holds (p : Pool n α) (out fl ql : List (Fin n)) : Prop where
  free : Chain p.next p.free fl
  queue : Chain p.next p.head ql
  parts : (out ++ fl ++ ql).Perm (List.finRange n)

variable {p p' : Pool n α} {out fl ql : List (Fin n)} {i h : Fin n} {a : α}

namespace Holds

theorem nodup (hp : Holds p out fl ql) : (out ++ fl ++ ql).Nodup :=
  hp.parts.nodup_iff.2 (List.nodup_finRange n)

theorem length_le (hp : Holds p out fl ql) : ql.length ≤ n := by
  have h := hp.parts.length_eq
  simp only [List.length_append, List.length_finRange] at h
  omega

theorem out_notMem (hp : Holds p out fl ql) (hi : i ∈ out) : i ∉ fl ∧ i ∉ ql := by
  have hd := hp.nodup
  rw [List.append_assoc, List.nodup_append] at hd
  refine ⟨fun h => hd.2.2 i hi i ?_ rfl, fun h => hd.2.2 i hi i ?_ rfl⟩ <;> simp [h]

theorem queue_unique {out' fl' ql' : List (Fin n)} (hp : Holds p out fl ql)
    (hp' : Holds p out' fl' ql') : ql = ql' :=
  hp.queue.unique hp'.queue

theorem of_eq (hp : Holds p out fl ql) (hn : p'.next = p.next) (hf : p'.free = p.free)
    (hh : p'.head = p.head) : Holds p' out fl ql := by
  refine ⟨?_, ?_, hp.parts⟩
  · rw [hn, hf]; exact hp.free
  · rw [hn, hh]; exact hp.queue

end Holds

theorem chain_init (p : Pool n α) [NeZero n] : ∀ k, k ≤ n →
    Chain p.init.next (if hk : n - k < n then some ⟨n - k, hk⟩ else none)
      ((List.finRange n).drop (n - k)) := by
  intro k
  induction k with
  | zero =>
    intro _
    rw [Nat.sub_zero, dif_neg (Nat.lt_irrefl n), List.drop_eq_nil_of_le (by simp)]
    rfl
  | succ k ih =>
    intro hk
    have hlt : n - (k + 1) < n := by omega
    rw [dif_pos hlt, List.drop_eq_getElem_cons (by simpa using hlt)]
    refine ⟨by simp, ?_⟩
    have hsucc : n - (k + 1) + 1 = n - k := by omega
    rw [hsucc]
    refine Eq.mp ?_ (ih (by omega))
    congr 1
    simp only [Pool.init, List.getElem_finRange, Fin.cast_mk, hsucc]

theorem init_holds [NeZero n] (p : Pool n α) : Holds p.init [] (List.finRange n) [] := by
  refine ⟨?_, rfl, by simp⟩
  have h := chain_init p n le_rfl
  rw [Nat.sub_self, dif_pos (Nat.pos_of_ne_zero (NeZero.ne n))] at h
  exact h

theorem alloc_spec (hp : Holds p out fl ql) : (p.alloc = none ∧ fl = []) ∨
    ∃ i fl' p', fl = i :: fl' ∧ p.alloc = some (i, p') ∧ Holds p' (i :: out) fl' ql ∧
      p'.node = p.node := by
  cases fl with
  | nil =>
    left
    have hf : p.free = none := hp.free
    simp [Pool.alloc, hf]
  | cons i fl' =>
    right
    obtain ⟨hf, hc⟩ := hp.free
    have hd := hp.nodup
    have hperm : (i :: out ++ fl' ++ ql).Perm (out ++ i :: fl' ++ ql) := by
      have hp : (out ++ i :: (fl' ++ ql)).Perm (i :: (out ++ (fl' ++ ql))) := List.perm_middle
      simpa using hp.symm
    have hnot : i ∉ out ++ fl' ++ ql := (List.nodup_cons.1 (hperm.nodup_iff.2 hd)).1
    simp only [List.mem_append, not_or] at hnot
    refine ⟨i, fl', { p with free := p.next i, next := Function.update p.next i none }, rfl, ?_, ?_,
      rfl⟩
    · rw [Pool.alloc, hf]; rfl
    · exact ⟨hc.update hnot.1.2 _, hp.queue.update hnot.2 _, hperm.trans hp.parts⟩

theorem write_holds (hp : Holds p out fl ql) (hi : i ∈ out) : Holds (p.write i a) out fl ql :=
  ⟨hp.free.update (hp.out_notMem hi).1 _, hp.queue.update (hp.out_notMem hi).2 _, hp.parts⟩

/-- The first node of the queue becomes the first one of the free list. -/
theorem popHead_spec (hp : Holds p [] fl ql) : (p.popHead = none ∧ ql = []) ∨
    ∃ i ql' p', ql = i :: ql' ∧ p.popHead = some (i, p') ∧ Holds p' [] (i :: fl) ql' ∧
      p'.node = p.node := by
  cases ql with
  | nil =>
    left
    have hh : p.head = none := hp.queue
    simp [Pool.popHead, hh]
  | cons i ql' =>
    right
    obtain ⟨hh, hc⟩ := hp.queue
    have hperm : ([] ++ (i :: fl) ++ ql').Perm ([] ++ fl ++ i :: ql') := by
      simpa using (show (fl ++ i :: ql').Perm (i :: (fl ++ ql')) from List.perm_middle).symm
    have hnot : i ∉ fl ++ ql' := (List.nodup_cons.1 (hperm.nodup_iff.2 hp.nodup)).1
    simp only [List.mem_append, not_or] at hnot
    refine ⟨i, ql', { p with head := p.next i }.release i, rfl, ?_, ?_, rfl⟩
    · rw [Pool.popHead, hh]; rfl
    · exact ⟨hp.free.cons hnot.1, hc.update hnot.2 _, hperm.trans hp.parts⟩

/-! ### Putting a node into the queue -/

variable (ahead : α → α → Prop) [DecidableRel ahead]

/-- The walk ends, and what it finds is where the node goes in the list. -/
theorem walk_spec : ∀ {k : ℕ} {h : Fin n} {ql : List (Fin n)}, Chain p.next (some h) (h :: ql) →
    (h :: ql).Nodup → i ∉ h :: ql → ¬ahead (p.node i) (p.node h) → ql.length < k →
    ∃ cur ∈ h :: ql, p.walk ahead (p.node i) k h = some cur ∧
      Chain (Function.update (Function.update p.next i (p.next cur)) cur (some i)) (some h)
        ((h :: ql).orderedInsert (fun x y => ahead (p.node x) (p.node y)) i)
  | 0, _, _, _, _, _, _, hk => by simp at hk
  | k + 1, h, [], hc, _, hi, hnot, _ => by
    have hn : p.next h = none := hc.2
    have hih : i ≠ h := by simpa using hi
    refine ⟨h, by simp, by rw [Pool.walk, hn], ?_⟩
    rw [List.orderedInsert_cons, if_neg hnot, List.orderedInsert_nil, hn]
    exact ⟨rfl, Function.update_self .., by rw [Function.update_of_ne hih, Function.update_self]; rfl⟩
  | k + 1, h, j :: ql, hc, hd, hi, hnot, hk => by
    obtain ⟨-, hn, hc'⟩ := hc
    obtain ⟨hh, hd'⟩ := List.nodup_cons.1 hd
    have hih : i ≠ h := fun e => hi (by simp [e])
    have hi' : i ∉ j :: ql := fun hm => hi (List.mem_cons_of_mem _ hm)
    rw [List.orderedInsert_cons, if_neg hnot]
    by_cases hj : ahead (p.node i) (p.node j)
    · refine ⟨h, by simp, by simp only [Pool.walk, hn, if_pos hj], rfl, ?_⟩
      rw [Function.update_self, List.orderedInsert_cons, if_pos hj]
      refine ⟨rfl, ?_⟩
      rw [Function.update_of_ne hih, Function.update_self, hn]
      have hj' : Chain p.next (some j) (j :: ql) := ⟨rfl, hc'⟩
      exact (hj'.update hi' _).update hh _
    · obtain ⟨cur, hcur, hw, hchain⟩ :=
        walk_spec (k := k) (show Chain p.next (some _) (_ :: ql) from ⟨rfl, hc'⟩) hd' hi' hj
          (by simpa using hk)
      have hhc : h ≠ cur := fun e => hh (e ▸ hcur)
      refine ⟨cur, List.mem_cons_of_mem _ hcur, by simp only [Pool.walk, hn, if_neg hj, hw], rfl, ?_⟩
      rw [Function.update_of_ne hhc, Function.update_of_ne (Ne.symm hih), hn]
      exact hchain

/-- A node put into the queue stands behind all those it is not ahead of. -/
theorem enqueue_spec (hp : Holds p (i :: out) fl ql) : ∃ p', p.enqueue ahead i = some p' ∧
    Holds p' out fl (ql.orderedInsert (fun x y => ahead (p.node x) (p.node y)) i) ∧
    p'.node = p.node := by
  obtain ⟨hif, hiq⟩ := hp.out_notMem (i := i) (by simp)
  have hperm : (out ++ fl ++ ql.orderedInsert (fun x y => ahead (p.node x) (p.node y)) i).Perm
      (List.finRange n) := by
    refine .trans ?_ hp.parts
    refine ((List.perm_orderedInsert _ i ql).append_left (out ++ fl)).trans ?_
    exact List.perm_middle
  unfold Pool.enqueue
  by_cases hfirst : p.First ahead i
  · refine ⟨_, if_pos hfirst, ⟨hp.free.update hif _, ?_, hperm⟩, rfl⟩
    cases ql with
    | nil =>
      exact hp.queue.cons hiq
    | cons h ql =>
      rw [List.orderedInsert_cons, if_pos (hfirst h hp.queue.1)]
      exact hp.queue.cons hiq
  · rw [if_neg hfirst]
    cases ql with
    | nil =>
      have hh : p.head = none := hp.queue
      exact absurd (fun h (hm : h ∈ p.head) => by simp [hh] at hm) hfirst
    | cons h ql =>
      have hh : p.head = some h := hp.queue.1
      have hnot : ¬ahead (p.node i) (p.node h) := fun ha => hfirst fun x hx => by
        rw [hh, Option.mem_some_iff] at hx
        exact hx ▸ ha
      have hd : (h :: ql).Nodup := (List.nodup_append.1 hp.nodup).2.1
      have hlen : ql.length < n := hp.length_le
      obtain ⟨cur, hcur, hw, hchain⟩ :=
        walk_spec ahead (hh ▸ hp.queue) hd hiq hnot hlen
      refine ⟨{ p with
        next := Function.update (Function.update p.next i (p.next cur)) cur (some i) }, ?_,
        ⟨?_, ?_, hperm⟩, rfl⟩
      · simp only [Pool.pushBehind, hh, hw, Option.map_some]
      · have hcf : cur ∉ fl := fun hm =>
          (List.nodup_append.1 hp.nodup).2.2 cur (by simp [hm]) cur hcur rfl
        exact (hp.free.update hif _).update hcf _
      · rw [show ({ p with next := _ } : Pool n α).head = some h from hh]; exact hchain

/-- A new entry: it is refused when no node is free, and otherwise it gets the first free node. -/
theorem insert_spec (hp : Holds p [] fl ql) (a : α) : (p.alloc = none ∧ fl = []) ∨
    ∃ i fl' p' p'', fl = i :: fl' ∧ i ∉ ql ∧ p.alloc = some (i, p') ∧
      ((p'.write i a).First ahead i ↔ ∀ j ∈ ql.head?, ahead a (p.node j)) ∧
      (p'.write i a).enqueue ahead i = some p'' ∧ p''.node = Function.update p.node i a ∧
      Holds p'' [] fl' (ql.orderedInsert (fun x y => ahead (p''.node x) (p''.node y)) i) := by
  rcases alloc_spec hp with h | ⟨i, fl', p', hfl, ha, hp', hn⟩
  · exact .inl h
  · obtain ⟨p'', he, hp'', hn'⟩ := enqueue_spec ahead (write_holds (i := i) (a := a) hp' (by simp))
    have hnode : p''.node = Function.update p.node i a := by rw [hn', Pool.write, hn]
    have hiq : i ∉ ql := (hp'.out_notMem (i := i) (by simp)).2
    refine .inr ⟨i, fl', p', p'', hfl, hiq, ha, ?_, he, hnode, ?_⟩
    · have hh : (p'.write i a).head = ql.head? := hp'.queue.head
      unfold Pool.First
      rw [hh]
      refine forall₂_congr fun j hj => ?_
      have hji : j ≠ i := ne_of_mem_of_not_mem (List.mem_of_mem_head? hj) hiq
      rw [Pool.write, hn]
      show ahead (Function.update p.node i a i) (Function.update p.node i a j) ↔ _
      rw [Function.update_self, Function.update_of_ne hji]
    rw [hnode]
    rw [Pool.write, hn] at hp''
    exact hp''

/-! ### The ledger -/

/-- The entries accepted, in order; the number of the entry that each node holds; the entries taken
out of the queue, with their numbers, in order. -/
structure Ledger (n : ℕ) (α : Type*) where
  accepted : List α
  owner : Fin n → ℕ
  taken : List (α × ℕ)

/-- The first entry comes earlier: its key is smaller, or it has the same key and was accepted
before. -/
def Before {κ : Type*} [LinearOrder κ] (key : α → κ) (x y : α × ℕ) : Prop :=
  key x.1 < key y.1 ∨ key x.1 = key y.1 ∧ x.2 < y.2

theorem Before.asymm {κ : Type*} [LinearOrder κ] {key : α → κ} {x y : α × ℕ}
    (h : Before key x y) : ¬Before key y x := by
  rintro (h' | ⟨he, h'⟩)
  · rcases h with h | ⟨h, -⟩
    · exact lt_asymm h h'
    · exact h'.ne' h
  · rcases h with h | ⟨-, h⟩
    · exact h.ne' he
    · exact lt_asymm h h'

namespace Ledger

def empty : Ledger n α := ⟨[], fun _ => 0, []⟩

def accept (g : Ledger n α) (i : Fin n) (a : α) : Ledger n α :=
  { g with
    accepted := g.accepted ++ [a]
    owner := Function.update g.owner i g.accepted.length }

def take (g : Ledger n α) (i : Fin n) (a : α) : Ledger n α :=
  { g with taken := g.taken ++ [(a, g.owner i)] }

/-- The entries waiting in the queue `ql`. -/
def waiting (g : Ledger n α) (node : Fin n → α) (ql : List (Fin n)) : List (α × ℕ) :=
  ql.map fun i => (node i, g.owner i)

variable {κ : Type*} [LinearOrder κ] {key : α → κ} {R : α × ℕ → α × ℕ → Prop} {g : Ledger n α}
  {node node' : Fin n → α}

/-- Every entry accepted is waiting or has been taken, exactly once; the queue is sorted; and those
taken, followed by those waiting, stand in the relation `R` to one another. -/
structure Ok (key : α → κ) (R : α × ℕ → α × ℕ → Prop) (g : Ledger n α) (node : Fin n → α)
    (ql : List (Fin n)) : Prop where
  once : (g.taken ++ g.waiting node ql).Perm g.accepted.zipIdx
  sorted : (g.waiting node ql).Pairwise (Before key)
  order : (g.taken ++ g.waiting node ql).Pairwise R

theorem empty_ok : (empty : Ledger n α).Ok key R node [] :=
  ⟨.refl _, .nil, .nil⟩

theorem Ok.number_lt (h : g.Ok key R node ql) {x : α × ℕ} (hx : x ∈ g.taken ++ g.waiting node ql) :
    x.2 < g.accepted.length := by
  have := List.mem_zipIdx_iff_getElem?.1 (h.once.mem_iff.1 hx)
  exact (List.getElem?_eq_some_iff.1 this).1

theorem Ok.nodup (h : g.Ok key R node ql) : (g.taken ++ g.waiting node ql).Nodup := by
  refine h.once.nodup_iff.2 (List.Nodup.of_map Prod.snd ?_)
  rw [List.zipIdx_map_snd]
  exact List.nodup_range' ..

/-- A new entry is in front of those with a larger key and behind all others. -/
theorem sorted_insert {l : List (α × ℕ)} {x : α × ℕ} (hl : l.Pairwise (Before key))
    (hx : ∀ y ∈ l, y.2 < x.2) :
    (l.orderedInsert (fun x y => key x.1 < key y.1) x).Pairwise (Before key) := by
  induction l with
  | nil => simp
  | cons y l ih =>
    obtain ⟨hy, hl'⟩ := List.pairwise_cons.1 hl
    rw [List.orderedInsert_cons]
    split_ifs with hlt
    · refine List.pairwise_cons.2 ⟨fun z hz => .inl ?_, hl⟩
      rcases List.mem_cons.1 hz with rfl | hz
      · exact hlt
      · rcases hy z hz with h | ⟨h, -⟩
        · exact hlt.trans h
        · exact h ▸ hlt
    · refine List.pairwise_cons.2 ⟨fun z hz => ?_, ih hl' fun z hz => hx z (by simp [hz])⟩
      rcases (List.mem_orderedInsert _).1 hz with rfl | hz
      · rcases (not_lt.1 hlt).lt_or_eq with h | h
        · exact .inl h
        · exact .inr ⟨h, hx y (by simp)⟩
      · exact hy z hz

/-- The queue around a new entry: all entries behind it have a larger key. -/
theorem sorted_insert_split {l : List (α × ℕ)} (x : α × ℕ) (hl : l.Pairwise (Before key)) :
    ∃ l₁ l₂, l = l₁ ++ l₂ ∧ l.orderedInsert (fun x y => key x.1 < key y.1) x = l₁ ++ x :: l₂ ∧
      ∀ y ∈ l₂, key x.1 < key y.1 := by
  induction l with
  | nil => exact ⟨[], [], rfl, rfl, by simp⟩
  | cons y l ih =>
    obtain ⟨hy, hl'⟩ := List.pairwise_cons.1 hl
    rw [List.orderedInsert_cons]
    split_ifs with hlt
    · refine ⟨[], y :: l, rfl, rfl, fun z hz => ?_⟩
      rcases List.mem_cons.1 hz with rfl | hz
      · exact hlt
      · rcases hy z hz with h | ⟨h, -⟩
        · exact hlt.trans h
        · exact h ▸ hlt
    · obtain ⟨l₁, l₂, h1, h2, h3⟩ := ih hl'
      exact ⟨y :: l₁, l₂, by rw [h1, List.cons_append], by rw [h2, List.cons_append], h3⟩

/-- The entries waiting once a new one has its place in the queue. -/
theorem waiting_accept (hi : i ∉ ql) (hn : ∀ j ∈ ql, node' j = node j) (ha : node' i = a)
    (hahead : ∀ x y, ahead x y ↔ key x < key y) :
    (g.accept i a).waiting node' (ql.orderedInsert (fun x y => ahead (node' x) (node' y)) i) =
      (g.waiting node ql).orderedInsert (fun x y => key x.1 < key y.1) (a, g.accepted.length) := by
  have howner : ∀ j ∈ ql, (g.accept i a).owner j = g.owner j := fun j hj =>
    Function.update_of_ne (ne_of_mem_of_not_mem hj hi) ..
  have hself : (g.accept i a).owner i = g.accepted.length := Function.update_self ..
  have hmap : g.waiting node ql = (g.accept i a).waiting node' ql :=
    List.map_congr_left fun j hj => by rw [hn j hj, howner j hj]
  rw [hmap, waiting, List.map_orderedInsert _ (fun x y => key x.1 < key y.1), ha, hself]
  · rfl
  · exact fun j _ => hahead _ _
  · exact fun j _ => hahead _ _

/-- An accepted entry is written to a free node, which is put into the queue. -/
theorem Ok.accept (h : g.Ok key R node ql) (hi : i ∉ ql)
    (hn : ∀ j ∈ ql, node' j = node j) (ha : node' i = a)
    (hahead : ∀ x y, ahead x y ↔ key x < key y) (hR : ∀ x y, Before key x y → R x y)
    (hnew : ∀ x ∈ g.taken, R x (a, g.accepted.length)) :
    (g.accept i a).Ok key R node'
      (ql.orderedInsert (fun x y => ahead (node' x) (node' y)) i) := by
  have hw := waiting_accept (g := g) ahead hi hn ha hahead
  have hperm := List.perm_orderedInsert (fun x y : α × ℕ => key x.1 < key y.1)
    (a, g.accepted.length) (g.waiting node ql)
  have hsorted := sorted_insert (x := (a, g.accepted.length)) h.sorted
    fun y hy => h.number_lt (List.mem_append_right _ hy)
  refine ⟨?_, by rw [hw]; exact hsorted, ?_⟩
  · rw [hw, show (g.accept i a).accepted = g.accepted ++ [a] from rfl, List.zipIdx_append,
      Nat.zero_add]
    refine ((hperm.append_left g.taken).trans List.perm_middle).trans ?_
    exact (h.once.cons _).trans (List.perm_append_singleton _ _).symm
  · rw [hw]
    obtain ⟨ht, -, hc⟩ := List.pairwise_append.1 h.order
    refine List.pairwise_append.2 ⟨ht, hsorted.imp (hR _ _), fun x hx y hy => ?_⟩
    rcases (List.mem_orderedInsert _).1 hy with rfl | hy
    · exact hnew x hx
    · exact hc x hx y hy

theorem Ok.take (h : g.Ok key R node (i :: ql)) :
    (g.take i (node i)).Ok key R node ql := by
  have hline : (g.take i (node i)).taken ++ (g.take i (node i)).waiting node ql =
      g.taken ++ g.waiting node (i :: ql) := by
    simp [Ledger.take, waiting]
  exact ⟨hline ▸ h.once, (List.pairwise_cons.1 h.sorted).2, hline ▸ h.order⟩

end Ledger

end OscKernel.Lib.NodePool
