import OscKernel.Initrd.Bounds

/-! # `initrd_cat` and `initrd_find_file`

The two walks look at the same records, but `initrd_cat` checks only where a record starts, and
`initrd_find_file` that its header, its name and its data end in the archive.

* `walkTo`: the records up to the one with the name, wherever the archive ends.
* `catLoop_file`, `findLoop_file`: each walk finds that record exactly if the records pass its checks.
* `agree_iff`: the two agree unless a record is cut off, or a sum wraps around (`agree_placed`: only the
  record with the name can be cut off). -/

namespace OscKernel.Initrd.Cat

open OscKernel.Lib.Memory OscKernel.Initrd.KString OscKernel.Initrd.Cpio OscKernel.Initrd.Lookup
open OscKernel.Initrd.Bounds

/-! ### The function -/

/-- What `initrd_cat` sends: a message, or the characters of a file and a newline. -/
inductive Shown
  | message (l : List Printed)
  | file (data : List Byte)
deriving DecidableEq

/-- The bytes that the loop over a file sends. -/
def fileBytes (m : Mem) (data size : Word) : List Byte :=
  (List.range size.toNat).map (bytesAt m data)

/-- The end of `initrd_cat`. -/
def fileNotFound (m : Mem) (filename : Word) : Option Shown :=
  (charsFrom (bytesAt m filename) (2 ^ 64) 0).map fun name =>
    .message [.text (ascii "File not found: "), .text name, .text (ascii "\n")]

/-- The loop of `initrd_cat`, from the record at `p` on. -/
def catLoop (m : Mem) (filename initrdEnd : Word) : ℕ → Word → Option Shown
  | 0, _ => none
  | n + 1, p =>
    if !goodMagic m p then some (.message [.text (ascii "Bad cpio magic\n")])
    else
      match strEq (bytesAt m (p + 110)) (literal "TRAILER!!!") with
      | none => none
      | some true => fileNotFound m filename
      | some false =>
        let dataOff := alignUpVal (110 + namesizeAt m p) 4
        match filenameMatch m (p + 110) filename with
        | none => none
        | some true => some (.file (fileBytes m (p + dataOff) (filesizeAt m p)))
        | some false =>
          let off := alignUpVal (dataOff + filesizeAt m p) 4
          if p + off ≥ initrdEnd then fileNotFound m filename
          else catLoop m filename initrdEnd n (p + off)

/-- `initrd_cat`. -/
def initrdCat (m : Mem) (initrdStart initrdEnd filename : Word) : Option Shown :=
  if initrdAvailable initrdStart initrdEnd then catLoop m filename initrdEnd (2 ^ 64) initrdStart
  else some (.message [.text (ascii "No initrd loaded\n")])

/-! ### The walk -/

/-- The record behind the one at `p`. -/
def nextRecord (m : Mem) (p : Word) : Word := p + alignUpVal (dataOffAt m p + filesizeAt m p) 4

/-- The records from `p` on, up to the one with the name, wherever the archive ends. -/
def walkTo (m : Mem) (path : Word) : ℕ → Word → Option (List Word × Word)
  | 0, _ => none
  | n + 1, p =>
    if goodMagic m p then
      match strEq (bytesAt m (p + 110)) (literal "TRAILER!!!") with
      | some false =>
        match filenameMatch m (p + 110) path with
        | none => none
        | some true => some ([], p)
        | some false => (walkTo m path n (nextRecord m p)).map fun w => (p :: w.1, w.2)
      | _ => none
    else none

/-- The record at `p` ends in the archive. -/
def Fit (m : Mem) (initrdEnd p : Word) : Prop := Whole m initrdEnd p ∧ DataFits m initrdEnd p

section Walk
variable {m : Mem} {initrdStart initrdEnd path p q d size : Word} {n : ℕ} {ps : List Word}
  {data : List Byte}

theorem walkTo_magic (hm : goodMagic m p = false) : walkTo m path (n + 1) p = none := by
  rw [walkTo, hm, if_neg (by simp)]

theorem walkTo_name (ht : strEq (bytesAt m (p + 110)) (literal "TRAILER!!!") ≠ some false) :
    walkTo m path (n + 1) p = none := by
  rw [walkTo]
  split_ifs
  · split
    · rename_i heq
      exact absurd heq ht
    · rfl
  · rfl

theorem walkTo_stuck (hn : filenameMatch m (p + 110) path = none) :
    walkTo m path (n + 1) p = none := by
  rw [walkTo, hn]
  split_ifs
  · split <;> rfl
  · rfl

theorem walkTo_found (hm : goodMagic m p = true)
    (ht : strEq (bytesAt m (p + 110)) (literal "TRAILER!!!") = some false)
    (hn : filenameMatch m (p + 110) path = some true) :
    walkTo m path (n + 1) p = some ([], p) := by
  rw [walkTo, if_pos hm, ht, hn]

theorem walkTo_cons (hm : goodMagic m p = true)
    (ht : strEq (bytesAt m (p + 110)) (literal "TRAILER!!!") = some false)
    (hn : filenameMatch m (p + 110) path = some false) :
    walkTo m path (n + 1) p = some (ps, q) ↔
      ∃ qs, ps = p :: qs ∧ walkTo m path n (nextRecord m p) = some (qs, q) := by
  rw [walkTo, if_pos hm, ht, hn, Option.map_eq_some_iff]
  constructor
  · rintro ⟨⟨qs, r⟩, hw, he⟩
    rw [Prod.mk.injEq] at he
    exact ⟨qs, he.1.symm, he.2 ▸ hw⟩
  · rintro ⟨qs, rfl, hw⟩
    exact ⟨(qs, q), hw, rfl⟩

theorem not_exists_walk {P : List Word → Word → Prop} (h : walkTo m path n p = none) :
    ¬ ∃ ps q, walkTo m path n p = some (ps, q) ∧ P ps q := by
  rintro ⟨ps, q, hw, -⟩
  rw [h] at hw
  cases hw

theorem exists_walk {P : List Word → Word → Prop} (h : walkTo m path n p = some (ps, q)) :
    (∃ ps q, walkTo m path n p = some (ps, q) ∧ P ps q) ↔ P ps q := by
  refine ⟨?_, fun hp => ⟨ps, q, h, hp⟩⟩
  rintro ⟨ps', q', hw, hp⟩
  rw [h, Option.some.injEq, Prod.mk.injEq] at hw
  obtain ⟨rfl, rfl⟩ := hw
  exact hp

theorem walkTo_head (h : walkTo m path n p = some (ps, q)) : ∃ l, ps ++ [q] = p :: l := by
  cases n with
  | zero => cases h
  | succ n =>
    unfold walkTo at h
    split_ifs at h
    split at h
    · split at h
      · cases h
      · rw [Option.some.injEq, Prod.mk.injEq] at h
        obtain ⟨rfl, rfl⟩ := h
        exact ⟨[], rfl⟩
      · obtain ⟨w, -, hw⟩ := Option.map_eq_some_iff.1 h
        rw [Prod.mk.injEq] at hw
        rw [← hw.1]
        exact ⟨w.1 ++ [q], rfl⟩
    · cases h

/-- **`initrd_find_file`** finds the record exactly if all records up to it end in the archive. -/
theorem findLoop_file : ∀ {n : ℕ} {p : Word},
    findLoop m path initrdEnd n p = some (.ok (d, size)) ↔
      ∃ ps q, walkTo m path n p = some (ps, q) ∧ (∀ r ∈ ps ++ [q], Fit m initrdEnd r) ∧
        d = q + dataOffAt m q ∧ size = filesizeAt m q
  | 0, p => by simp [findLoop, walkTo]
  | n + 1, p => by
    by_cases hw : Whole m initrdEnd p
    swap
    · obtain ⟨f, hf⟩ := findLoop_not_whole path n hw
      rw [hf]
      refine iff_of_false (by simp) ?_
      rintro ⟨ps, q, hwalk, hfit, -⟩
      obtain ⟨l, hl⟩ := walkTo_head hwalk
      exact hw (hfit p (hl ▸ List.mem_cons_self ..)).1
    rw [findLoop_whole hw]
    have hm := hw.magic
    rcases ht : strEq (bytesAt m (p + 110)) (literal "TRAILER!!!") with _ | _ | _
    · exact iff_of_false (by simp) (not_exists_walk (walkTo_name (by rw [ht]; simp)))
    · dsimp only
      by_cases hd : DataFits m initrdEnd p
      swap
      · rw [if_pos (BitVec.not_le.1 hd)]
        refine iff_of_false (by simp) ?_
        rintro ⟨ps, q, hwalk, hfit, -⟩
        obtain ⟨l, hl⟩ := walkTo_head hwalk
        exact hd (hfit p (hl ▸ List.mem_cons_self ..)).2
      rw [if_neg (BitVec.not_lt.2 hd)]
      rcases hn : filenameMatch m (p + 110) path with _ | _ | _
      · exact iff_of_false (by simp) (not_exists_walk (walkTo_stuck hn))
      · -- the walk goes on behind the record
        refine (findLoop_file (n := n) (p := nextRecord m p)).trans ?_
        constructor
        · rintro ⟨ps, q, hwalk, hfit, hr⟩
          refine ⟨p :: ps, q, (walkTo_cons hm ht hn).2 ⟨ps, rfl, hwalk⟩, ?_, hr⟩
          exact List.forall_mem_cons.2 ⟨⟨hw, hd⟩, hfit⟩
        · rintro ⟨ps, q, hwalk, hfit, hr⟩
          obtain ⟨qs, rfl, hwalk'⟩ := (walkTo_cons hm ht hn).1 hwalk
          exact ⟨qs, q, hwalk', (List.forall_mem_cons.1 hfit).2, hr⟩
      · rw [exists_walk (walkTo_found hm ht hn), List.nil_append, List.forall_mem_singleton]
        simp only [Option.some.injEq, Except.ok.injEq, Prod.mk.injEq]
        exact ⟨fun h => ⟨⟨hw, hd⟩, h.1.symm, h.2.symm⟩, fun h => ⟨h.2.1.symm, h.2.2.symm⟩⟩
    · exact iff_of_false (by simp) (not_exists_walk (walkTo_name (by rw [ht]; simp)))

/-- **`initrd_cat`** finds the record exactly if all records behind the first one start in the
archive. -/
theorem catLoop_file : ∀ {n : ℕ} {p : Word},
    catLoop m path initrdEnd n p = some (.file data) ↔
      ∃ ps q, walkTo m path n p = some (ps, q) ∧ (∀ r ∈ (ps ++ [q]).tail, r < initrdEnd) ∧
        data = fileBytes m (q + dataOffAt m q) (filesizeAt m q)
  | 0, p => by simp [catLoop, walkTo]
  | n + 1, p => by
    have hnone : fileNotFound m path ≠ some (.file data) := by
      intro h
      obtain ⟨_, _, h⟩ := Option.map_eq_some_iff.1 h
      cases h
    rw [catLoop]
    rcases hm : goodMagic m p with _ | _
    · exact iff_of_false (by simp) (not_exists_walk (walkTo_magic hm))
    rw [if_neg (by simp)]
    rcases ht : strEq (bytesAt m (p + 110)) (literal "TRAILER!!!") with _ | _ | _
    · exact iff_of_false (by simp) (not_exists_walk (walkTo_name (by rw [ht]; simp)))
    · rcases hn : filenameMatch m (p + 110) path with _ | _ | _
      · exact iff_of_false (by simp) (not_exists_walk (walkTo_stuck hn))
      · dsimp only
        have hnext : p + alignUpVal (alignUpVal (110 + namesizeAt m p) 4 + filesizeAt m p) 4 =
            nextRecord m p := rfl
        rw [hnext]
        by_cases he : nextRecord m p < initrdEnd
        · rw [if_neg (BitVec.not_le.2 he), catLoop_file]
          constructor
          · rintro ⟨ps, q, hwalk, hstart, hr⟩
            obtain ⟨l, hl⟩ := walkTo_head hwalk
            refine ⟨p :: ps, q, (walkTo_cons hm ht hn).2 ⟨ps, rfl, hwalk⟩, ?_, hr⟩
            rw [hl] at hstart
            rw [List.cons_append, List.tail_cons, hl]
            exact List.forall_mem_cons.2 ⟨he, hstart⟩
          · rintro ⟨ps, q, hwalk, hstart, hr⟩
            obtain ⟨qs, rfl, hwalk'⟩ := (walkTo_cons hm ht hn).1 hwalk
            exact ⟨qs, q, hwalk', fun r hr => hstart r (List.mem_of_mem_tail hr), hr⟩
        · rw [if_pos (BitVec.not_lt.1 he)]
          refine iff_of_false hnone ?_
          rintro ⟨ps, q, hwalk, hstart, -⟩
          obtain ⟨qs, rfl, hwalk'⟩ := (walkTo_cons hm ht hn).1 hwalk
          obtain ⟨l, hl⟩ := walkTo_head hwalk'
          rw [List.cons_append, List.tail_cons, hl] at hstart
          exact he (hstart _ (List.mem_cons_self ..))
      · rw [exists_walk (walkTo_found hm ht hn), List.nil_append, List.tail_cons]
        simp only [Option.some.injEq, Shown.file.injEq]
        exact ⟨fun h => ⟨fun _ hr => absurd hr List.not_mem_nil, h.symm⟩, fun h => h.2.symm⟩
    · exact iff_of_false hnone (not_exists_walk (walkTo_name (by rw [ht]; simp)))

end Walk

/-! ### Where the two agree -/

/-- `initrd_cat` sends the bytes of the range that `initrd_find_file` reports, and no others. -/
structure LookupsAgree (m : Mem) (initrdStart initrdEnd path : Word) : Prop where
  shown : ∀ data, initrdCat m initrdStart initrdEnd path = some (.file data) →
    ∃ d size, initrdFindFile m initrdStart initrdEnd path = some (.ok (d, size)) ∧
      data = fileBytes m d size
  found : ∀ d size, initrdFindFile m initrdStart initrdEnd path = some (.ok (d, size)) →
    initrdCat m initrdStart initrdEnd path = some (.file (fileBytes m d size))

/-- On the walk to the name all records start in the archive, and one does not end there. -/
def Cut (m : Mem) (initrdStart initrdEnd path : Word) : Prop :=
  ∃ ps q, walkTo m path (2 ^ 64) initrdStart = some (ps, q) ∧
    (∀ r ∈ (ps ++ [q]).tail, r < initrdEnd) ∧ ∃ r ∈ ps ++ [q], ¬ Fit m initrdEnd r

/-- On the walk to the name all records end in the archive, and one does not start there: the sum of
its address and its size wraps around. -/
def Wraps (m : Mem) (initrdStart initrdEnd path : Word) : Prop :=
  ∃ ps q, walkTo m path (2 ^ 64) initrdStart = some (ps, q) ∧
    (∀ r ∈ ps ++ [q], Fit m initrdEnd r) ∧ ∃ r ∈ (ps ++ [q]).tail, ¬ r < initrdEnd

section Agree
variable {m : Mem} {initrdStart initrdEnd path p q : Word} {n : ℕ} {ps : List Word}

/-- **The two lookups agree** exactly if no record on the walk to the name is cut off, and none wraps
around. -/
theorem agree_iff : LookupsAgree m initrdStart initrdEnd path ↔
    (initrdAvailable initrdStart initrdEnd = true →
      ¬ Cut m initrdStart initrdEnd path ∧ ¬ Wraps m initrdStart initrdEnd path) := by
  by_cases hav : initrdAvailable initrdStart initrdEnd = true
  swap
  · refine iff_of_true ⟨fun data h => ?_, fun d size h => ?_⟩ fun h => absurd h hav
    · rw [initrdCat, if_neg hav] at h
      cases h
    · rw [initrdFindFile, if_neg hav] at h
      cases h
  rw [forall_prop_of_true hav]
  have hcat : initrdCat m initrdStart initrdEnd path =
      catLoop m path initrdEnd (2 ^ 64) initrdStart := if_pos hav
  have hfind : initrdFindFile m initrdStart initrdEnd path =
      findLoop m path initrdEnd (2 ^ 64) initrdStart := if_pos hav
  constructor
  · intro h
    constructor
    · rintro ⟨ps, q, hw, hstart, r, hr, hn⟩
      obtain ⟨d, size, hf, -⟩ := h.shown _ (hcat.trans (catLoop_file.2 ⟨ps, q, hw, hstart, rfl⟩))
      obtain ⟨ps', q', hw', hfit, -⟩ := findLoop_file.1 (hfind.symm.trans hf)
      rw [hw, Option.some.injEq, Prod.mk.injEq] at hw'
      obtain ⟨rfl, rfl⟩ := hw'
      exact hn (hfit r hr)
    · rintro ⟨ps, q, hw, hfit, r, hr, hn⟩
      have hc := h.found _ _ (hfind.trans (findLoop_file.2 ⟨ps, q, hw, hfit, rfl, rfl⟩))
      obtain ⟨ps', q', hw', hstart, -⟩ := catLoop_file.1 (hcat.symm.trans hc)
      rw [hw, Option.some.injEq, Prod.mk.injEq] at hw'
      obtain ⟨rfl, rfl⟩ := hw'
      exact hn (hstart r hr)
  · rintro ⟨hcut, hwrap⟩
    constructor
    · intro data hc
      obtain ⟨ps, q, hw, hstart, rfl⟩ := catLoop_file.1 (hcat.symm.trans hc)
      refine ⟨_, _, hfind.trans (findLoop_file.2 ⟨ps, q, hw, fun r hr => ?_, rfl, rfl⟩), rfl⟩
      by_contra hn
      exact hcut ⟨ps, q, hw, hstart, r, hr, hn⟩
    · intro d size hf
      obtain ⟨ps, q, hw, hfit, rfl, rfl⟩ := findLoop_file.1 (hfind.symm.trans hf)
      refine hcat.trans (catLoop_file.2 ⟨ps, q, hw, fun r hr => ?_, rfl⟩)
      by_contra hn
      exact hwrap ⟨ps, q, hw, hfit, r, hr, hn⟩

/-- **An archive cut off in the data of its only file**: `initrd_cat` shows the file, and
`initrd_find_file` returns -1. -/
theorem not_agree_cut :
    initrdCat sampleMem 4096 4210 4206 = some (.file [1, 2, 3]) ∧
      ¬ LookupsAgree sampleMem 4096 4210 4206 := by
  have hcat : initrdCat sampleMem 4096 4210 4206 = some (.file [1, 2, 3]) := by decide +kernel
  have hnone : ((initrdFindFile sampleMem 4096 4210 4206).bind Except.toOption).isNone = true := by
    decide +kernel
  refine ⟨hcat, fun h => ?_⟩
  obtain ⟨d, size, hf, -⟩ := h.shown _ hcat
  rw [hf] at hnone
  cases hnone

/-! ### Below the top of the address space -/

theorem walkTo_next (h : walkTo m path (n + 1) p = some (ps, q)) :
    goodMagic m p = true ∧
      (ps = [] ∧ p = q ∨ ∃ qs, ps = p :: qs ∧ walkTo m path n (nextRecord m p) = some (qs, q)) := by
  unfold walkTo at h
  split_ifs at h with hm
  refine ⟨hm, ?_⟩
  split at h
  · split at h
    · cases h
    · rw [Option.some.injEq, Prod.mk.injEq] at h
      exact .inl ⟨h.1.symm, h.2⟩
    · obtain ⟨w, hw, he⟩ := Option.map_eq_some_iff.1 h
      rw [Prod.mk.injEq] at he
      obtain ⟨rfl, rfl⟩ := he
      exact .inr ⟨w.1, rfl, hw⟩
  · cases h

theorem fit_of_next (hfit : Placeable initrdEnd) (hm : goodMagic m p = true) (hp : p < initrdEnd)
    (hn : nextRecord m p < initrdEnd) : Fit m initrdEnd p := by
  obtain ⟨hd, hlt⟩ := dataOffAt_toNat (m := m) (p := p)
  have hf : (filesizeAt m p).toNat < 2 ^ 32 := hextoi_lt _
  have hsum : (dataOffAt m p + filesizeAt m p).toNat =
      (dataOffAt m p).toNat + (filesizeAt m p).toNat := by bv_omega
  have hround := le_roundUp (dataOffAt m p + filesizeAt m p).toNat
  have hround' := roundUp_le (dataOffAt m p + filesizeAt m p).toNat
  have hname := le_roundUp (110 + (namesizeAt m p).toNat)
  have hal := alignUpVal_toNat (x := dataOffAt m p + filesizeAt m p) (by omega)
  unfold nextRecord at hn
  generalize alignUpVal (dataOffAt m p + filesizeAt m p) 4 = o at hal hn
  rw [BitVec.lt_def] at hp hn
  have hroom := hfit
  unfold Placeable at hroom
  rw [BitVec.toNat_add, Nat.mod_eq_of_lt (by omega)] at hn
  refine ⟨⟨?_, hm, ?_⟩, (dataFits_toNat hfit (by omega)).2 (by omega)⟩
  · exact (header_toNat hfit (by omega)).2 (by omega)
  · bv_omega

theorem walkTo_starts (hfit : Placeable initrdEnd) : ∀ {n : ℕ} {p : Word} {ps : List Word},
    p.toNat ≤ initrdEnd.toNat + 3 → walkTo m path n p = some (ps, q) →
    (∀ r ∈ ps ++ [q], Fit m initrdEnd r) → ∀ r ∈ ps ++ [q], r < initrdEnd
  | 0, _, _, _, hw, _ => by cases hw
  | n + 1, p, ps, hp, hw, hall => by
    obtain ⟨-, hnext⟩ := walkTo_next hw
    obtain ⟨l, hl⟩ := walkTo_head hw
    have hpf : Fit m initrdEnd p := hall p (hl ▸ List.mem_cons_self ..)
    have hlt : p < initrdEnd := by
      have := (header_toNat hfit hp).1 hpf.1.header
      bv_omega
    rcases hnext with ⟨rfl, rfl⟩ | ⟨qs, rfl, hw'⟩
    · simpa using hlt
    · rw [List.cons_append, List.forall_mem_cons] at hall ⊢
      exact ⟨hlt, walkTo_starts hfit (next_toNat hfit hp hpf.2).2 hw' hall.2⟩

theorem walkTo_fit (hfit : Placeable initrdEnd) : ∀ {n : ℕ} {p : Word} {ps : List Word},
    p < initrdEnd → walkTo m path n p = some (ps, q) →
    (∀ r ∈ (ps ++ [q]).tail, r < initrdEnd) → ∀ r ∈ ps, Fit m initrdEnd r
  | 0, _, _, _, hw, _ => by cases hw
  | n + 1, p, ps, hp, hw, hall => by
    obtain ⟨hm, ⟨rfl, -⟩ | ⟨qs, rfl, hw'⟩⟩ := walkTo_next hw
    · simp
    · obtain ⟨l, hl⟩ := walkTo_head hw'
      rw [List.cons_append, List.tail_cons, hl] at hall
      have hlt : nextRecord m p < initrdEnd := hall _ (List.mem_cons_self ..)
      refine List.forall_mem_cons.2 ⟨fit_of_next hfit hm hp hlt, walkTo_fit hfit hlt hw' ?_⟩
      rw [hl]
      exact fun r hr => hall r (List.mem_of_mem_tail hr)

/-- **Where no sum wraps around**, only the record with the name can be cut off. -/
theorem agree_placed (hfit : Placeable initrdEnd) : LookupsAgree m initrdStart initrdEnd path ↔
    (initrdAvailable initrdStart initrdEnd = true →
      ∀ ps q, walkTo m path (2 ^ 64) initrdStart = some (ps, q) →
        (∀ r ∈ (ps ++ [q]).tail, r < initrdEnd) → Fit m initrdEnd q) := by
  rw [agree_iff]
  refine forall_congr' fun hav => ?_
  have hlt : initrdStart < initrdEnd := by
    simp only [initrdAvailable, Bool.and_eq_true, decide_eq_true_eq] at hav
    exact hav.2
  have hle : initrdStart.toNat ≤ initrdEnd.toNat + 3 := by bv_omega
  constructor
  · rintro ⟨hcut, -⟩ ps q hw hstart
    by_contra hn
    exact hcut ⟨ps, q, hw, hstart, q, by simp, hn⟩
  · intro h
    constructor
    · rintro ⟨ps, q, hw, hstart, r, hr, hn⟩
      rcases List.mem_append.1 hr with hr | hr
      · exact hn (walkTo_fit hfit hlt hw hstart r hr)
      · rw [List.mem_singleton.1 hr] at hn
        exact hn (h ps q hw hstart)
    · rintro ⟨ps, q, hw, hall, r, hr, hn⟩
      exact hn (walkTo_starts hfit hle hw hall r (List.mem_of_mem_tail hr))

end Agree

end OscKernel.Initrd.Cat
