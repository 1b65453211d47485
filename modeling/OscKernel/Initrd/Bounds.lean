import OscKernel.Initrd.Lookup

/-! # What `initrd_find_file` reads of the archive

The walk checks that a header, a name of the length the header gives and the data lie in the archive.
The names are compared up to their null, though, and nothing checks that it lies in the archive too.

* `findFileReads`: the addresses read through the pointer into the archive.
* `CutOff`: the archive ends within a name that agrees with the one compared so far.
* `staysInside_iff`: nothing else leads out of the archive. -/

namespace OscKernel.Initrd.Bounds

open OscKernel.Lib.Memory OscKernel.Initrd.KString OscKernel.Initrd.Cpio OscKernel.Initrd.Lookup

/-! ### The reads -/

/-- The offsets at which the loop of `kstrcmp` reads its first string. -/
def kstrcmpReads (a b : ℕ → Byte) : ℕ → ℕ → List ℕ
  | 0, _ => []
  | n + 1, i =>
    if a i ≠ 0 ∧ b i ≠ 0 then
      if a i ≠ b i then [i] else i :: kstrcmpReads a b n (i + 1)
    else [i]

/-- The offsets at which the loop of `kstrncmp` reads its first string, with `n` characters to go. -/
def kstrncmpReads (a b : ℕ → Byte) : ℕ → ℕ → List ℕ
  | 0, _ => []
  | n + 1, i =>
    if a i ≠ 0 ∧ b i ≠ 0 then
      if a i ≠ b i then [i] else i :: kstrncmpReads a b n (i + 1)
    else [i]

/-- The offsets at which `hextoi` reads. -/
def hextoiReads (n : ℕ) : List ℕ := List.range n

/-- The offsets at which `str_eq` reads its first string. -/
def strEqReads (a b : ℕ → Byte) : List ℕ := kstrcmpReads a b (2 ^ 64) 0

/-- The offsets at which the second test of `filename_match` reads the name in the archive. -/
def dotSlashReads (m : Mem) (archiveName want : Word) : List ℕ :=
  if m archiveName = 46 then
    if m (archiveName + 1) = 47 then
      0 :: 1 :: (strEqReads (bytesAt m (archiveName + 2)) (bytesAt m want)).map (2 + ·)
    else [0, 1]
  else [0]

/-- The offsets at which `filename_match` reads the name in the archive. -/
def filenameMatchReads (m : Mem) (archiveName want : Word) : List ℕ :=
  strEqReads (bytesAt m archiveName) (bytesAt m want) ++
    match strEq (bytesAt m archiveName) (bytesAt m want) with
    | some false => dotSlashReads m archiveName want
    | _ => []

/-- The addresses at the offsets from a pointer. -/
def fromPtr (p : Word) (l : List ℕ) : List Word := l.map fun i => p + BitVec.ofNat 64 i

/-- The addresses that the loop of `initrd_find_file` reads in the archive, from the record at `p`
on. -/
def findLoopReads (m : Mem) (path initrdEnd : Word) : ℕ → Word → List Word
  | 0, _ => []
  | n + 1, p =>
    if p + 110 ≤ initrdEnd then
      fromPtr p (kstrncmpReads (bytesAt m p) (literal "070701") 6 0) ++
      if !goodMagic m p then []
      else
        fromPtr (p + 94) (hextoiReads 8) ++ fromPtr (p + 54) (hextoiReads 8) ++
        if p + 110 + namesizeAt m p > initrdEnd then []
        else
          fromPtr (p + 110) (strEqReads (bytesAt m (p + 110)) (literal "TRAILER!!!")) ++
          match strEq (bytesAt m (p + 110)) (literal "TRAILER!!!") with
          | some false =>
            let dataOff := alignUpVal (110 + namesizeAt m p) 4
            if p + dataOff + filesizeAt m p > initrdEnd then []
            else
              fromPtr (p + 110) (filenameMatchReads m (p + 110) path) ++
              match filenameMatch m (p + 110) path with
              | some false =>
                findLoopReads m path initrdEnd n (p + alignUpVal (dataOff + filesizeAt m p) 4)
              | _ => []
          | _ => []
    else []

/-- The addresses that `initrd_find_file` reads in the archive. -/
def findFileReads (m : Mem) (initrdStart initrdEnd path : Word) : List Word :=
  if initrdAvailable initrdStart initrdEnd then findLoopReads m path initrdEnd (2 ^ 64) initrdStart
  else []

/-! ### Comparing with what the archive holds -/

/-- The pointer reads the bytes `L` before anything else. -/
def Starts (s : ℕ → Byte) (L : List Byte) : Prop := ∀ i (h : i < L.length), s i = L[i]

section Compare
variable {a b : ℕ → Byte} {L l : List Byte} {n : ℕ}

theorem Starts.nil (s : ℕ → Byte) : Starts s [] := fun _ h => by simp at h

theorem Starts.head {c : Byte} (h : Starts a (c :: L)) : a 0 = c := h 0 (by simp)

theorem Starts.tail (h : Starts a L) : Starts (fun j => a (j + 1)) L.tail := fun i hi => by
  rw [List.length_tail] at hi
  rw [List.getElem_tail]
  exact h (i + 1) (by omega)

theorem kstrcmpReads_shift (a b : ℕ → Byte) : ∀ n i, kstrcmpReads a b n (i + 1) =
    (kstrcmpReads (fun j => a (j + 1)) (fun j => b (j + 1)) n i).map (· + 1)
  | 0, _ => rfl
  | n + 1, i => by
    rw [kstrcmpReads, kstrcmpReads, kstrcmpReads_shift a b n (i + 1)]
    split_ifs <;> rfl

/-- What a comparison with the string `l` does whose first string is known to start with `L`. -/
structure Compared (L l : List Byte) (reads : List ℕ) (equal : Prop) : Prop where
  beyond : L <+: l → L.length ∈ reads
  within : ¬ L <+: l → ∀ i ∈ reads, i < L.length
  result : ¬ L <+: l → (equal ↔ l ++ [0] <+: L)

/-- A comparison runs out of the bytes exactly if the other string goes on as they do. -/
theorem kstrcmpFrom_starts : ∀ {n : ℕ} {a b : ℕ → Byte} {L l : List Byte}, Starts a L → Reads b l →
    l.length < n → ∃ r, kstrcmpFrom a b n 0 = some r ∧ Compared L l (kstrcmpReads a b n 0) (r = 0)
  | 0, _, _, _, _, _, _, hn => by omega
  | n + 1, a, b, L, [], ha, hb, _ => by
    have h0 : b 0 = 0 := hb.null
    have hr : kstrcmpReads a b (n + 1) 0 = [0] := if_neg fun h => h.2 h0
    refine ⟨_, if_neg fun h => h.2 h0, ?_⟩
    rw [hr]
    cases L with
    | nil => exact ⟨by simp, by simp, by simp⟩
    | cons c L =>
      refine ⟨by simp, by simp, fun _ => ?_⟩
      have hz : c = 0 ↔ c.toNat = 0 := BitVec.toNat_eq
      have h0' : ((0 : Byte).toNat : ℤ) = 0 := rfl
      rw [h0, ha.head, h0', sub_zero, Nat.cast_eq_zero, ← hz, List.nil_append, List.cons_prefix_cons]
      exact ⟨fun h => ⟨h.symm, List.nil_prefix⟩, fun h => h.1.symm⟩
  | n + 1, a, b, L, d :: l, ha, hb, hn => by
    obtain ⟨hd, hd0⟩ := hb.head
    by_cases had : a 0 = d
    · -- the first characters agree, and the comparison goes on
      obtain ⟨r, hr, hc⟩ := kstrcmpFrom_starts ha.tail hb.tail (n := n) (by simpa using hn)
      have hreads : kstrcmpReads a b (n + 1) 0 =
          0 :: (kstrcmpReads (fun j => a (j + 1)) (fun j => b (j + 1)) n 0).map (· + 1) := by
        rw [kstrcmpReads, had, hd, if_pos ⟨hd0, hd0⟩, if_neg (not_not.2 rfl), kstrcmpReads_shift]
      refine ⟨r, ?_, ?_⟩
      · rw [kstrcmpFrom, had, hd, if_pos ⟨hd0, hd0⟩, if_neg (not_not.2 rfl), kstrcmpFrom_shift, hr]
      · rw [hreads]
        cases L with
        | nil => exact ⟨by simp, by simp, by simp⟩
        | cons c L =>
          obtain rfl : c = d := ha.head.symm.trans had
          have hiff : ∀ k : List Byte, c :: L <+: c :: k ↔ L <+: k := by simp
          refine ⟨fun h => ?_, fun h i hi => ?_, fun h => ?_⟩
          · simpa using hc.beyond ((hiff l).1 h)
          · rcases List.mem_cons.1 hi with rfl | hi
            · simp
            · obtain ⟨j, hj, rfl⟩ := List.mem_map.1 hi
              have := hc.within (fun h' => h ((hiff l).2 h')) j hj
              simpa using this
          · rw [hc.result fun h' => h ((hiff l).2 h')]
            simp
    · -- they differ
      have hne : (a 0).toNat ≠ d.toNat := fun h => had (BitVec.eq_of_toNat_eq h)
      have hr : kstrcmpFrom a b (n + 1) 0 = some (((a 0).toNat : ℤ) - d.toNat) := by
        rw [kstrcmpFrom, hd, if_pos had, ite_self]
      have hreads : kstrcmpReads a b (n + 1) 0 = [0] := by
        rw [kstrcmpReads, hd, if_pos had, ite_self]
      refine ⟨_, hr, ?_⟩
      rw [hreads]
      cases L with
      | nil => exact ⟨by simp, by simp, by simp⟩
      | cons c L =>
        obtain rfl := ha.head
        refine ⟨fun h => absurd (List.cons_prefix_cons.1 h).1 had, by simp, fun _ => ?_⟩
        constructor
        · intro h
          omega
        · intro h
          exact absurd (List.cons_prefix_cons.1 h).1.symm had

theorem strEq_starts (ha : Starts a L) (hb : Reads b l) (hl : l.length < 2 ^ 64) :
    ∃ v, strEq a b = some v ∧ Compared L l (strEqReads a b) (v = true) := by
  obtain ⟨r, hr, hc⟩ := kstrcmpFrom_starts ha hb hl
  refine ⟨r == 0, by rw [strEq, kstrcmp, hr, Option.map_some], hc.beyond, hc.within, fun h => ?_⟩
  rw [beq_iff_eq, hc.result h]

theorem Compared.differ {reads : List ℕ} (h : ¬ L <+: l) (h' : ¬ l ++ [0] <+: L)
    (hr : ∀ i ∈ reads, i < L.length) : Compared L l reads (false = true) :=
  ⟨fun hp => absurd hp h, fun _ => hr, fun _ => iff_of_false (by decide) h'⟩

theorem starts_add_two {m : Mem} {p : Word} {c d : Byte} (h : Starts (bytesAt m p) (c :: d :: L)) :
    Starts (bytesAt m (p + 2)) L := fun i hi => by
  rw [show (2 : Word) = BitVec.ofNat 64 2 from rfl, bytesAt_add, Nat.add_comm]
  exact h (i + 2) (by simpa using hi)

/-- The second test of `filename_match`, which looks for a leading `./`. -/
theorem dotSlash_starts {m : Mem} {p want : Word} (ha : Starts (bytesAt m p) L)
    (hb : Reads (bytesAt m want) l) (hl : l.length < 2 ^ 64) :
    ∃ v, (if m p = 46 ∧ m (p + 1) = 47 then strEq (bytesAt m (p + 2)) (bytesAt m want)
      else some false) = some v ∧
      Compared L (ascii "./" ++ l) (dotSlashReads m p want) (v = true) := by
  have hdot : ascii "./" ++ l = 46 :: 47 :: l := rfl
  have h0 : bytesAt m p 0 = m p := by simp [bytesAt]
  have h1 : bytesAt m p 1 = m (p + 1) := rfl
  obtain ⟨w, hw, -⟩ := strEq_starts (Starts.nil (bytesAt m (p + 2))) hb hl
  rw [hdot, dotSlashReads]
  by_cases hp : m p = 46
  · rw [if_pos hp]
    by_cases hq : m (p + 1) = 47
    · rw [if_pos ⟨hp, hq⟩, if_pos hq]
      rcases L with - | ⟨c, - | ⟨d, L⟩⟩
      · exact ⟨w, hw, by simp, by simp, by simp⟩
      · obtain rfl : c = 46 := ha.head.symm.trans (h0.trans hp)
        exact ⟨w, hw, by simp, by simp, by simp⟩
      · obtain rfl : c = 46 := ha.head.symm.trans (h0.trans hp)
        obtain rfl : d = 47 := ha.tail.head.symm.trans (h1.trans hq)
        obtain ⟨v, hv, hc⟩ := strEq_starts (starts_add_two ha) hb hl
        have hiff : ∀ k : List Byte, 46 :: 47 :: L <+: 46 :: 47 :: k ↔ L <+: k := by simp
        refine ⟨v, hv, fun h => ?_, fun h i hi => ?_, fun h => ?_⟩
        · have := hc.beyond ((hiff l).1 h)
          simpa [Nat.add_comm 2] using this
        · rcases List.mem_cons.1 hi with rfl | hi
          · simp
          rcases List.mem_cons.1 hi with rfl | hi
          · simp
          obtain ⟨j, hj, rfl⟩ := List.mem_map.1 hi
          have := hc.within (fun h' => h ((hiff l).2 h')) j hj
          simp only [List.length_cons]
          omega
        · rw [hc.result fun h' => h ((hiff l).2 h')]
          simp
    · rw [if_neg fun h => hq h.2, if_neg hq]
      rcases L with - | ⟨c, - | ⟨d, L⟩⟩
      · exact ⟨false, rfl, by simp, by simp, by simp⟩
      · obtain rfl : c = 46 := ha.head.symm.trans (h0.trans hp)
        exact ⟨false, rfl, by simp, by simp, by simp⟩
      · have hd : d ≠ 47 := fun h => hq (h1.symm.trans (ha.tail.head.trans h))
        refine ⟨false, rfl, .differ (fun h => ?_) (fun h => ?_) (by simp)⟩
        · exact hd (List.cons_prefix_cons.1 (List.cons_prefix_cons.1 h).2).1
        · exact hd (List.cons_prefix_cons.1 (List.cons_prefix_cons.1 h).2).1.symm
  · rw [if_neg fun h => hp h.1, if_neg hp]
    cases L with
    | nil => exact ⟨false, rfl, by simp, by simp, by simp⟩
    | cons c L =>
      have hc : c ≠ 46 := fun h => hp (h0.symm.trans (ha.head.trans h))
      exact ⟨false, rfl, .differ (fun h => hc (List.cons_prefix_cons.1 h).1)
        (fun h => hc (List.cons_prefix_cons.1 h).1.symm) (by simp)⟩

/-- `filename_match` runs out of the bytes exactly if the path goes on as they do, with or without a
leading `./`. -/
theorem filenameMatch_starts {m : Mem} {p want : Word} (ha : Starts (bytesAt m p) L)
    (hb : Reads (bytesAt m want) l) (hl : l.length < 2 ^ 64) :
    ∃ v, filenameMatch m p want = some v ∧
      (L <+: l ∨ L <+: ascii "./" ++ l → L.length ∈ filenameMatchReads m p want) ∧
      (¬ (L <+: l ∨ L <+: ascii "./" ++ l) →
        (∀ i ∈ filenameMatchReads m p want, i < L.length) ∧
        (v = true ↔ l ++ [0] <+: L ∨ ascii "./" ++ l ++ [0] <+: L)) := by
  obtain ⟨v, hv, hc⟩ := strEq_starts ha hb hl
  obtain ⟨w, hw, hc'⟩ := dotSlash_starts ha hb hl
  rw [filenameMatch, hv, filenameMatchReads, hv]
  cases v with
  | true =>
    refine ⟨true, rfl, fun h => ?_, fun h => ?_⟩
    · rw [List.append_nil]
      by_cases hp : L <+: l
      · exact hc.beyond hp
      · -- the name is the path, which has no null
        have h0 : (0 : Byte) ∈ ascii "./" ++ l :=
          (((hc.result hp).1 rfl).trans (h.resolve_left hp)).subset (by simp)
        rcases List.mem_append.1 h0 with h0 | h0
        · exact absurd h0 (by decide)
        · exact absurd h0 hb.nonzero
    · rw [not_or] at h
      rw [List.append_nil]
      exact ⟨hc.within h.1, fun _ => .inl ((hc.result h.1).1 rfl), fun _ => rfl⟩
  | false =>
    refine ⟨w, hw, fun h => ?_, fun h => ?_⟩
    · rw [List.mem_append]
      exact h.imp hc.beyond hc'.beyond
    · rw [not_or] at h
      refine ⟨fun i hi => ?_, ?_⟩
      · rcases List.mem_append.1 hi with hi | hi
        · exact hc.within h.1 i hi
        · exact hc'.within h.2 i hi
      · have hne : ¬ l ++ [0] <+: L := fun hp => by cases (hc.result h.1).2 hp
        rw [hc'.result h.2, or_iff_right hne]

end Compare

/-! ### One record -/

section Record
variable {m : Mem} {initrdStart initrdEnd path p q a : Word} {l : List Byte}

/-- The bytes of the archive from `a` on. -/
def restFrom (m : Mem) (initrdEnd a : Word) : List Byte :=
  (List.range (initrdEnd - a).toNat).map (bytesAt m a)

/-- The header at `p` is one, and with the name it announces it lies in the archive. -/
structure Whole (m : Mem) (initrdEnd p : Word) : Prop where
  header : p + 110 ≤ initrdEnd
  magic : goodMagic m p = true
  name : p + 110 + namesizeAt m p ≤ initrdEnd

/-- Where the header at `p` puts the data. -/
def dataOffAt (m : Mem) (p : Word) : Word := alignUpVal (110 + namesizeAt m p) 4

/-- The data announced at `p` lie in the archive. -/
def DataFits (m : Mem) (initrdEnd p : Word) : Prop :=
  p + dataOffAt m p + filesizeAt m p ≤ initrdEnd

/-- The archive holds the string `l` at `a`, with its null. -/
def Holds (m : Mem) (initrdEnd a : Word) (l : List Byte) : Prop := l ++ [0] <+: restFrom m initrdEnd a

/-- The archive ends at `a`, or within bytes on which it agrees with the string `l`. -/
def EndsWithin (m : Mem) (initrdEnd a : Word) (l : List Byte) : Prop := restFrom m initrdEnd a <+: l

/-- The walk for `l` goes on from the record at `p` to the one at `q`. -/
structure Next (m : Mem) (initrdEnd : Word) (l : List Byte) (p q : Word) : Prop where
  whole : Whole m initrdEnd p
  notTrailer : ¬ Holds m initrdEnd (p + 110) (ascii "TRAILER!!!")
  data : DataFits m initrdEnd p
  notNamed : ¬ (Holds m initrdEnd (p + 110) l ∨ Holds m initrdEnd (p + 110) (ascii "./" ++ l))
  next : q = p + alignUpVal (dataOffAt m p + filesizeAt m p) 4

/-- The archive ends within the name of the record at `p`, and what there is of it agrees with the
name that the code compares it with. -/
structure CutOff (m : Mem) (initrdEnd : Word) (l : List Byte) (p : Word) : Prop where
  whole : Whole m initrdEnd p
  ends : EndsWithin m initrdEnd (p + 110) (ascii "TRAILER!!!") ∨
    ¬ Holds m initrdEnd (p + 110) (ascii "TRAILER!!!") ∧ DataFits m initrdEnd p ∧
      (EndsWithin m initrdEnd (p + 110) l ∨ EndsWithin m initrdEnd (p + 110) (ascii "./" ++ l))

@[simp] theorem length_restFrom : (restFrom m initrdEnd a).length = (initrdEnd - a).toNat := by
  simp [restFrom]

theorem starts_restFrom (m : Mem) (initrdEnd a : Word) :
    Starts (bytesAt m a) (restFrom m initrdEnd a) := fun i hi => by
  simp [restFrom]

/-- An address in the archive. -/
def Inside (initrdStart initrdEnd a : Word) : Prop := initrdStart ≤ a ∧ a < initrdEnd

theorem inside_fromPtr {r : List ℕ} (hs : initrdStart ≤ p) (he : p ≤ initrdEnd)
    (hr : ∀ i ∈ r, i < (initrdEnd - p).toNat) :
    ∀ a ∈ fromPtr p r, Inside initrdStart initrdEnd a := by
  intro a ha
  obtain ⟨i, hi, rfl⟩ := List.mem_map.1 ha
  have := hr i hi
  unfold Inside
  constructor <;> bv_omega

theorem not_inside_fromPtr {r : List ℕ} (hr : (initrdEnd - p).toNat ∈ r) :
    ¬ ∀ a ∈ fromPtr p r, Inside initrdStart initrdEnd a := by
  intro h
  have := (h _ (List.mem_map.2 ⟨_, hr, rfl⟩)).2
  rw [BitVec.ofNat_toNat, BitVec.setWidth_eq] at this
  bv_omega

/-! ### Sizes -/

theorem digitOf_lt (c : Byte) : (digitOf c).toNat < 16 := by
  revert c
  decide

theorem hextoiFrom_lt (s : ℕ → Byte) : ∀ {n i : ℕ} {r : Word}, (r.toNat + 1) * 16 ^ n ≤ 2 ^ 64 →
    (hextoiFrom s n i r).toNat < (r.toNat + 1) * 16 ^ n
  | 0, _, r, _ => by simp [hextoiFrom]
  | n + 1, i, r, h => by
    have hd := digitOf_lt (s i)
    have hpow : (r.toNat + 1) * 16 ^ (n + 1) = (r.toNat + 1) * 16 * 16 ^ n := by ring
    have h16 : (r.toNat + 1) * 16 ≤ 2 ^ 64 :=
      (Nat.le_mul_of_pos_right _ (Nat.pow_pos (by omega))).trans (hpow ▸ h)
    have hr : ((r <<< 4) + digitOf (s i)).toNat = r.toNat * 16 + (digitOf (s i)).toNat := by
      rw [BitVec.toNat_add, BitVec.toNat_shiftLeft, Nat.shiftLeft_eq]
      omega
    have hle : (((r <<< 4) + digitOf (s i)).toNat + 1) * 16 ^ n ≤ (r.toNat + 1) * 16 ^ (n + 1) := by
      rw [hpow]
      exact Nat.mul_le_mul_right _ (by omega)
    exact (hextoiFrom_lt s (hle.trans h)).trans_le hle

theorem hextoi_lt (s : ℕ → Byte) : (hextoi s 8).toNat < 2 ^ 32 := by
  have := hextoiFrom_lt s (n := 8) (i := 0) (r := 0) (by decide)
  exact this.trans_eq (by decide)

theorem alignUpVal_toNat {x : Word} (h : x.toNat + 3 < 2 ^ 64) :
    (alignUpVal x 4).toNat = roundUp x.toNat := by
  have hx := alignUpVal_ofNat h
  rw [BitVec.ofNat_toNat, BitVec.setWidth_eq] at hx
  have := roundUp_le x.toNat
  rw [hx, BitVec.toNat_ofNat, Nat.mod_eq_of_lt (by omega)]

theorem dataOffAt_toNat : (dataOffAt m p).toNat = roundUp (110 + (namesizeAt m p).toNat) ∧
    (dataOffAt m p).toNat < 2 ^ 33 := by
  have hn : (namesizeAt m p).toNat < 2 ^ 32 := hextoi_lt _
  have h110 : (110 + namesizeAt m p).toNat = 110 + (namesizeAt m p).toNat := by bv_omega
  have hr := roundUp_le (110 + (namesizeAt m p).toNat)
  have h : (dataOffAt m p).toNat = roundUp (110 + (namesizeAt m p).toNat) := by
    rw [dataOffAt, alignUpVal_toNat (by omega), h110]
  exact ⟨h, by omega⟩

/-- The archive and the sizes of a record fit into the address space. -/
def Placeable (initrdEnd : Word) : Prop := initrdEnd.toNat + 2 ^ 34 ≤ 2 ^ 64

theorem header_toNat (hfit : Placeable initrdEnd) (hp : p.toNat ≤ initrdEnd.toNat + 3) :
    p + 110 ≤ initrdEnd ↔ p.toNat + 110 ≤ initrdEnd.toNat := by
  unfold Placeable at hfit
  bv_omega

theorem dataFits_toNat (hfit : Placeable initrdEnd) (hp : p.toNat ≤ initrdEnd.toNat + 3) :
    DataFits m initrdEnd p ↔
      p.toNat + (dataOffAt m p).toNat + (filesizeAt m p).toNat ≤ initrdEnd.toNat := by
  have hd := (dataOffAt_toNat (m := m) (p := p)).2
  have hf : (filesizeAt m p).toNat < 2 ^ 32 := hextoi_lt _
  unfold Placeable at hfit
  unfold DataFits
  bv_omega

/-- The next record starts behind this one, and at most three bytes behind the archive. -/
theorem next_toNat (hfit : Placeable initrdEnd) (hp : p.toNat ≤ initrdEnd.toNat + 3)
    (h : DataFits m initrdEnd p) :
    p.toNat + 110 ≤ (p + alignUpVal (dataOffAt m p + filesizeAt m p) 4).toNat ∧
      (p + alignUpVal (dataOffAt m p + filesizeAt m p) 4).toNat ≤ initrdEnd.toNat + 3 := by
  obtain ⟨hd, hlt⟩ := dataOffAt_toNat (m := m) (p := p)
  have hf : (filesizeAt m p).toNat < 2 ^ 32 := hextoi_lt _
  have hsum : (dataOffAt m p + filesizeAt m p).toNat =
      (dataOffAt m p).toNat + (filesizeAt m p).toNat := by bv_omega
  have hr := roundUp_le (dataOffAt m p + filesizeAt m p).toNat
  have hr' := le_roundUp (dataOffAt m p + filesizeAt m p).toNat
  have hal := alignUpVal_toNat (x := dataOffAt m p + filesizeAt m p) (by omega)
  have hname := le_roundUp (110 + (namesizeAt m p).toNat)
  rw [dataFits_toNat hfit hp] at h
  unfold Placeable at hfit
  generalize alignUpVal (dataOffAt m p + filesizeAt m p) 4 = o at hal ⊢
  rw [BitVec.toNat_add, Nat.mod_eq_of_lt (by omega)]
  omega

theorem kstrncmpReads_lt (a b : ℕ → Byte) : ∀ {n i : ℕ}, ∀ j ∈ kstrncmpReads a b n i, j < i + n
  | 0, _, _, h => by simp [kstrncmpReads] at h
  | n + 1, i, j, h => by
    rw [kstrncmpReads] at h
    split_ifs at h with h1 h2
    · rw [List.mem_singleton.1 h]
      omega
    · rcases List.mem_cons.1 h with rfl | h
      · omega
      · have := kstrncmpReads_lt a b j h
        omega
    · rw [List.mem_singleton.1 h]
      omega

/-- The reads of a header that lies in the archive. -/
theorem header_inside (b : ℕ → Byte) (hs : initrdStart.toNat ≤ p.toNat)
    (h : p.toNat + 110 ≤ initrdEnd.toNat) :
    (∀ a ∈ fromPtr p (kstrncmpReads (bytesAt m p) b 6 0), Inside initrdStart initrdEnd a) ∧
    ∀ a ∈ fromPtr (p + 94) (hextoiReads 8) ++ fromPtr (p + 54) (hextoiReads 8),
      Inside initrdStart initrdEnd a := by
  refine ⟨inside_fromPtr hs (by bv_omega) fun i hi => ?_, fun a ha => ?_⟩
  · have := kstrncmpReads_lt _ _ i hi
    bv_omega
  · rcases List.mem_append.1 ha with ha | ha
    · refine inside_fromPtr (by bv_omega) (by bv_omega) (fun i hi => ?_) a ha
      have := List.mem_range.1 hi
      bv_omega
    · refine inside_fromPtr (by bv_omega) (by bv_omega) (fun i hi => ?_) a ha
      have := List.mem_range.1 hi
      bv_omega

end Record

/-! ### The walk -/

section Walk
variable {m : Mem} {initrdStart initrdEnd path p q : Word} {l : List Byte} {n : ℕ}

theorem findLoop_whole (hw : Whole m initrdEnd p) :
    findLoop m path initrdEnd (n + 1) p =
      match strEq (bytesAt m (p + 110)) (literal "TRAILER!!!") with
      | none => none
      | some true => some (.error .notFound)
      | some false =>
        if p + dataOffAt m p + filesizeAt m p > initrdEnd then some (.error .badDataRange)
        else
          match filenameMatch m (p + 110) path with
          | none => none
          | some true => some (.ok (p + dataOffAt m p, filesizeAt m p))
          | some false =>
            findLoop m path initrdEnd n (p + alignUpVal (dataOffAt m p + filesizeAt m p) 4) := by
  rw [findLoop, if_pos hw.header, hw.magic, if_neg (by simp), if_neg (BitVec.not_lt.2 hw.name)]
  rfl

theorem findLoop_not_whole (path : Word) (n : ℕ) (hw : ¬ Whole m initrdEnd p) :
    ∃ f, findLoop m path initrdEnd (n + 1) p = some (.error f) := by
  rw [findLoop]
  split_ifs with h1 h2 h3
  · exact ⟨_, rfl⟩
  · exact ⟨_, rfl⟩
  · rw [Bool.not_eq_true'] at h2
    exact absurd ⟨h1, by simpa using h2, BitVec.not_lt.1 h3⟩ hw
  · exact ⟨_, rfl⟩

/-- **The walk ends**, and the range that it reports lies in the archive. -/
theorem findLoop_ends (hfit : Placeable initrdEnd) (hl : Reads (bytesAt m path) l)
    (hlen : l.length < 2 ^ 64) : ∀ {n : ℕ} {p : Word}, initrdStart.toNat ≤ p.toNat →
    p.toNat ≤ initrdEnd.toNat + 3 → initrdEnd.toNat + 4 ≤ p.toNat + n →
    ∃ r, findLoop m path initrdEnd n p = some r ∧ ∀ d size, r = .ok (d, size) →
      initrdStart.toNat ≤ d.toNat ∧ d.toNat + size.toNat ≤ initrdEnd.toNat
  | 0, _, _, _, _ => by omega
  | n + 1, p, hs, he, hn => by
    by_cases hw : Whole m initrdEnd p
    · obtain ⟨v, hv, -⟩ := strEq_starts (Starts.nil (bytesAt m (p + 110)))
        (reads_literal (s := "TRAILER!!!") (by decide)) (by decide)
      obtain ⟨w, hw', -⟩ := filenameMatch_starts (Starts.nil (bytesAt m (p + 110))) hl hlen
      rw [findLoop_whole hw, hv, hw']
      cases v with
      | true => exact ⟨_, rfl, fun d size h => by cases h⟩
      | false =>
        dsimp only
        split_ifs with hd
        · exact ⟨_, rfl, fun d size h => by cases h⟩
        · rw [BitVec.not_lt] at hd
          cases w with
          | true =>
            refine ⟨_, rfl, fun d size h => ?_⟩
            cases h
            have hd' := (dataFits_toNat hfit he).1 hd
            have hoff := (dataOffAt_toNat (m := m) (p := p)).2
            unfold Placeable at hfit
            rw [BitVec.toNat_add, Nat.mod_eq_of_lt (by omega)]
            omega
          | false =>
            obtain ⟨h1, h2⟩ := next_toNat hfit he hd
            exact findLoop_ends hfit hl hlen (by omega) h2 (by omega)
    · obtain ⟨f, hf⟩ := findLoop_not_whole path n hw
      exact ⟨_, hf, fun d size h => by cases h⟩

/-- The walk meets no record at which the archive is cut off. -/
def Clean (m : Mem) (initrdEnd : Word) (l : List Byte) (p : Word) : Prop :=
  ∀ q, Relation.ReflTransGen (Next m initrdEnd l) p q → ¬ CutOff m initrdEnd l q

theorem clean_iff : Clean m initrdEnd l p ↔
    ¬ CutOff m initrdEnd l p ∧ ∀ q, Next m initrdEnd l p q → Clean m initrdEnd l q := by
  constructor
  · exact fun h => ⟨h p .refl, fun q hq r hr => h r (.head hq hr)⟩
  · rintro ⟨h, h'⟩ q hq
    rcases hq.cases_head with rfl | ⟨r, hr, hrq⟩
    · exact h
    · exact h' r hr q hrq

theorem clean_of_not_whole (h : ¬ Whole m initrdEnd p) : Clean m initrdEnd l p :=
  clean_iff.2 ⟨fun hc => h hc.whole, fun _ hq => absurd hq.whole h⟩

theorem findLoopReads_whole (hw : Whole m initrdEnd p) :
    findLoopReads m path initrdEnd (n + 1) p =
      fromPtr p (kstrncmpReads (bytesAt m p) (literal "070701") 6 0) ++
      (fromPtr (p + 94) (hextoiReads 8) ++ fromPtr (p + 54) (hextoiReads 8) ++
      (fromPtr (p + 110) (strEqReads (bytesAt m (p + 110)) (literal "TRAILER!!!")) ++
      match strEq (bytesAt m (p + 110)) (literal "TRAILER!!!") with
      | some false =>
        if p + dataOffAt m p + filesizeAt m p > initrdEnd then []
        else
          fromPtr (p + 110) (filenameMatchReads m (p + 110) path) ++
          match filenameMatch m (p + 110) path with
          | some false =>
            findLoopReads m path initrdEnd n (p + alignUpVal (dataOffAt m p + filesizeAt m p) 4)
          | _ => []
      | _ => [])) := by
  rw [findLoopReads, if_pos hw.header, hw.magic, if_neg (by simp), if_neg (BitVec.not_lt.2 hw.name)]
  rfl

theorem findLoopReads_not_whole (hfit : Placeable initrdEnd) (hs : initrdStart.toNat ≤ p.toNat)
    (he : p.toNat ≤ initrdEnd.toNat + 3) (hw : ¬ Whole m initrdEnd p) :
    ∀ a ∈ findLoopReads m path initrdEnd (n + 1) p, Inside initrdStart initrdEnd a := by
  rw [findLoopReads]
  split_ifs with h1 h2 h3
  · rw [List.append_nil]
    exact (header_inside _ hs ((header_toNat hfit he).1 h1)).1
  · obtain ⟨hm, hn⟩ := header_inside (literal "070701") hs ((header_toNat hfit he).1 h1)
    rw [List.append_nil]
    exact List.forall_mem_append.2 ⟨hm, hn⟩
  · rw [Bool.not_eq_true'] at h2
    exact absurd ⟨h1, by simpa using h2, BitVec.not_lt.1 h3⟩ hw
  · simp

/-- **The walk reads inside the archive exactly if it meets no record at which that is cut off.** -/
theorem findLoopReads_inside (hfit : Placeable initrdEnd) (hl : Reads (bytesAt m path) l)
    (hlen : l.length < 2 ^ 64) : ∀ {n : ℕ} {p : Word}, initrdStart.toNat ≤ p.toNat →
    p.toNat ≤ initrdEnd.toNat + 3 → initrdEnd.toNat + 4 ≤ p.toNat + n →
    ((∀ a ∈ findLoopReads m path initrdEnd n p, Inside initrdStart initrdEnd a) ↔
      Clean m initrdEnd l p)
  | 0, _, _, _, _ => by omega
  | n + 1, p, hs, he, hn => by
    by_cases hw : Whole m initrdEnd p
    swap
    · exact iff_of_true (findLoopReads_not_whole hfit hs he hw) (clean_of_not_whole hw)
    have hhead := (header_toNat hfit he).1 hw.header
    obtain ⟨hm, hnum⟩ := header_inside (literal "070701") hs hhead
    have hs' : initrdStart ≤ p + 110 := by bv_omega
    have he' : p + 110 ≤ initrdEnd := hw.header
    obtain ⟨v, hv, hc⟩ := strEq_starts (starts_restFrom m initrdEnd (p + 110))
      (reads_literal (s := "TRAILER!!!") (by decide)) (by decide)
    obtain ⟨w, hw', hover, hwithin⟩ :=
      filenameMatch_starts (starts_restFrom m initrdEnd (p + 110)) hl hlen
    rw [length_restFrom] at hover hwithin
    rw [findLoopReads_whole hw, hv, hw', List.forall_mem_append, and_iff_right hm,
      List.forall_mem_append, and_iff_right hnum, List.forall_mem_append]
    by_cases hcut : EndsWithin m initrdEnd (p + 110) (ascii "TRAILER!!!")
    · -- the name may be the last one as far as the archive goes
      refine iff_of_false (fun h => ?_) fun h => (clean_iff.1 h).1 ⟨hw, .inl hcut⟩
      exact not_inside_fromPtr (length_restFrom ▸ hc.beyond hcut) h.1
    have hin := inside_fromPtr hs' he' fun i hi => (hc.within hcut i hi).trans_eq length_restFrom
    rw [and_iff_right hin]
    cases v with
    | true =>
      have hholds := (hc.result hcut).1 rfl
      refine iff_of_true (by simp) (clean_iff.2 ⟨fun h => ?_, fun q hq => ?_⟩)
      · exact h.ends.elim hcut fun h => h.1 hholds
      · exact absurd hholds hq.notTrailer
    | false =>
      have hnot : ¬ Holds m initrdEnd (p + 110) (ascii "TRAILER!!!") := fun h => by
        cases (hc.result hcut).2 h
      dsimp only
      split_ifs with hd
      · rw [gt_iff_lt, ← BitVec.not_le] at hd
        refine iff_of_true (by simp) (clean_iff.2 ⟨fun h => ?_, fun q hq => ?_⟩)
        · exact h.ends.elim hcut fun h => hd h.2.1
        · exact absurd hq.data hd
      rw [BitVec.not_lt] at hd
      rw [List.forall_mem_append]
      by_cases hcut' : EndsWithin m initrdEnd (p + 110) l ∨
          EndsWithin m initrdEnd (p + 110) (ascii "./" ++ l)
      · -- the name may be the path as far as the archive goes
        refine iff_of_false (fun h => not_inside_fromPtr (hover hcut') h.1) fun h => ?_
        exact (clean_iff.1 h).1 ⟨hw, .inr ⟨hnot, hd, hcut'⟩⟩
      obtain ⟨hlt, hres⟩ := hwithin hcut'
      have hclean : ¬ CutOff m initrdEnd l p := fun h =>
        h.ends.elim hcut fun h => hcut' h.2.2
      rw [and_iff_right (inside_fromPtr hs' he' hlt), clean_iff, and_iff_right hclean]
      cases w with
      | true =>
        exact iff_of_true (by simp) fun q hq => absurd (hres.1 rfl) hq.notNamed
      | false =>
        obtain ⟨h1, h2⟩ := next_toNat hfit he hd
        rw [findLoopReads_inside hfit hl hlen (by omega) h2 (by omega)]
        refine ⟨fun h q hq => hq.next ▸ h, fun h => h _ ⟨hw, hnot, hd, fun h => ?_, rfl⟩⟩
        cases hres.2 h

/-- `initrd_find_file` ends, reads inside the archive only, and reports a range inside it only. -/
structure StaysInside (m : Mem) (initrdStart initrdEnd path : Word) : Prop where
  ends : ∃ r, initrdFindFile m initrdStart initrdEnd path = some r
  reads : ∀ a ∈ findFileReads m initrdStart initrdEnd path, Inside initrdStart initrdEnd a
  range : ∀ d size, initrdFindFile m initrdStart initrdEnd path = some (.ok (d, size)) →
    initrdStart.toNat ≤ d.toNat ∧ d.toNat + size.toNat ≤ initrdEnd.toNat

/-- **Where the search stays inside the archive**: whatever its bytes are, unless the archive is cut
off within a name that agrees with the one looked for as far as it goes. -/
theorem staysInside_iff (hfit : Placeable initrdEnd) (hl : Reads (bytesAt m path) l) :
    StaysInside m initrdStart initrdEnd path ↔
      (initrdAvailable initrdStart initrdEnd = true → Clean m initrdEnd l initrdStart) := by
  have hlen := hl.length_lt
  by_cases hav : initrdAvailable initrdStart initrdEnd = true
  · have hlt : initrdStart.toNat < initrdEnd.toNat := by
      simp only [initrdAvailable, Bool.and_eq_true, decide_eq_true_eq] at hav
      exact hav.2
    have hn : initrdEnd.toNat + 4 ≤ initrdStart.toNat + 2 ^ 64 := by
      unfold Placeable at hfit
      omega
    obtain ⟨r, hr, hrange⟩ := findLoop_ends hfit hl hlen le_rfl (by omega) hn
    have hreads := findLoopReads_inside hfit hl hlen le_rfl (by omega) hn
    rw [forall_prop_of_true hav, ← hreads]
    refine ⟨fun h => ?_, fun h => ⟨⟨r, ?_⟩, ?_, fun d size heq => ?_⟩⟩
    · simpa only [findFileReads, if_pos hav] using h.reads
    · rw [initrdFindFile, if_pos hav, hr]
    · simpa only [findFileReads, if_pos hav] using h
    · rw [initrdFindFile, if_pos hav, hr, Option.some.injEq] at heq
      exact hrange d size heq
  · refine iff_of_true ⟨⟨_, if_neg hav⟩, ?_, fun d size heq => ?_⟩ fun h => absurd h hav
    · rw [findFileReads, if_neg hav]
      simp
    · rw [initrdFindFile, if_neg hav] at heq
      cases heq

/-- The header of an empty file at the address 4096, whose name has no bytes, and the name `b` at the
address 8192. -/
def headerMem : Mem := fun a =>
  if a = 8192 then 98
  else (ascii "070701" ++ List.replicate 104 48).getD (a.toNat - 4096) 0

theorem staysInside_iff_header :
    StaysInside headerMem 4096 4208 8192 ∧ Clean headerMem 4208 (ascii "b") 4096 := by
  have hfit : Placeable 4208 := by unfold Placeable; decide
  have hl : Reads (bytesAt headerMem 8192) (ascii "b") :=
    ⟨by decide +kernel, by decide +kernel, by decide⟩
  have hnone : ((initrdFindFile headerMem 4096 4208 8192).bind Except.toOption).isNone = true := by
    decide +kernel
  have hstays : StaysInside headerMem 4096 4208 8192 := by
    refine ⟨Option.isSome_iff_exists.1 (by decide +kernel), ?_, fun d size h => ?_⟩
    · have hall : (findFileReads headerMem 4096 4208 8192).all
          (fun a => decide (4096 ≤ a ∧ a < 4208)) = true := by decide +kernel
      intro a ha
      simpa only [Inside, decide_eq_true_eq] using List.all_eq_true.1 hall a ha
    · rw [h] at hnone
      cases hnone
  exact ⟨hstays, (staysInside_iff hfit hl).1 hstays (by decide)⟩

/-- **An archive that ends with the header**: the byte behind it is read. -/
theorem not_staysInside_header :
    Reads (bytesAt headerMem 8192) (ascii "b") ∧ ¬ StaysInside headerMem 4096 4206 8192 := by
  refine ⟨⟨by decide +kernel, by decide +kernel, by decide⟩, fun h => ?_⟩
  have hmem : (4206 : Word) ∈ findFileReads headerMem 4096 4206 8192 := by decide +kernel
  exact absurd (h.reads _ hmem).2 (by decide)

end Walk

end OscKernel.Initrd.Bounds
