import OscKernel.Initrd.Cpio
import OscKernel.Lib.Align

/-! # The walks of the initrd undo the packing

At the start of a record the code reads the entry that was packed (`Shows`), and its arithmetic leads
to the start of the next record (`next_record`). Both walks go through the archive by induction on
the entries. -/

namespace OscKernel.Initrd.Lookup

open OscKernel.Lib.Memory OscKernel.Lib.Align OscKernel.Initrd.KString OscKernel.Initrd.Cpio

variable {m : Mem} {p : Word} {u : Bool}

/-! ### Reading a header -/

@[simp] theorem length_hex8 (u : Bool) (v : ℕ) : (hex8 u v).length = 8 := by simp [hex8]

theorem hextoi_hex8 {v : ℕ} (hv : v < 2 ^ 32) (h : Placed m p (hex8 u v)) :
    hextoi (bytesAt m p) 8 = BitVec.ofNat 64 v := by
  refine hextoi_spec (u := u) (by omega) (by omega) fun j hj => ?_
  rw [h j (by simpa using hj)]
  simp [hex8]

theorem placed_number : ∀ {l : List ℕ} {p : Word}, Placed m p (l.flatMap (hex8 u)) →
    ∀ k (h : k < l.length), Placed m (p + BitVec.ofNat 64 (8 * k)) (hex8 u l[k])
  | [], _, _, k, hk => by simp at hk
  | v :: l, p, h, k, hk => by
    rw [List.flatMap_cons, placed_append, length_hex8] at h
    cases k with
    | zero => simpa using h.1
    | succ k =>
      have := placed_number h.2 k (by simpa using hk)
      rwa [BitVec.add_assoc, ← BitVec.ofNat_add, show 8 + 8 * k = 8 * (k + 1) by ring] at this

theorem length_flatMap_hex8 (l : List ℕ) : (l.flatMap (hex8 u)).length = 8 * l.length := by
  induction l with
  | nil => rfl
  | cons v l ih => rw [List.flatMap_cons, List.length_append, ih, length_hex8, List.length_cons]; ring

@[simp] theorem length_header (e : Entry) : e.header.length = 110 := by
  rw [Entry.header, List.length_append, length_flatMap_hex8]
  rfl

theorem le_roundUp (n : ℕ) : n ≤ roundUp n := by unfold roundUp; omega

theorem roundUp_le (n : ℕ) : roundUp n ≤ n + 3 := by unfold roundUp; omega

@[simp] theorem length_padding (n : ℕ) : (padding n).length = roundUp n - n := by simp [padding]

theorem length_record (e : Entry) : e.record.length = e.size := by
  have h1 := le_roundUp (110 + (e.name.length + 1))
  have h2 := le_roundUp (e.dataOff + e.data.length)
  simp only [Entry.record, List.length_append, length_header, length_padding, List.length_singleton]
  unfold Entry.size Entry.dataOff at *
  omega

/-- What the code reads of the entry `e` in the record at `p`. -/
structure Shows (m : Mem) (p : Word) (e : Entry) : Prop where
  magic : goodMagic m p = true
  namesize : namesizeAt m p = BitVec.ofNat 64 (e.name.length + 1)
  filesize : filesizeAt m p = BitVec.ofNat 64 e.data.length
  name : Reads (bytesAt m (p + 110)) e.name
  data : Placed m (p + BitVec.ofNat 64 e.dataOff) e.data

theorem reads_of_placed {l : List Byte} (h : Placed m p (l ++ [0])) (hl : (0 : Byte) ∉ l) :
    Reads (bytesAt m p) l := by
  obtain ⟨hc, h0⟩ := placed_append.1 h
  have h0' := h0 0 (by simp)
  rw [bytesAt_add] at h0'
  exact ⟨hc, by simpa using h0', hl⟩

theorem shows_of_placed {e : Entry} (h : Placed m p e.record) (hn : e.name.length + 1 < 2 ^ 32)
    (hd : e.data.length < 2 ^ 32) (h0 : (0 : Byte) ∉ e.name) : Shows m p e := by
  obtain ⟨h, -⟩ := placed_append.1 h
  obtain ⟨h, hdata⟩ := placed_append.1 h
  obtain ⟨h, -⟩ := placed_append.1 h
  obtain ⟨hh, hname⟩ := placed_append.1 h
  obtain ⟨hm, hnum⟩ := placed_append.1 hh
  have hlen : (ascii "070701").length = 6 := rfl
  have hat : ∀ k (hk : k < e.numbers.length), Placed m (p + BitVec.ofNat 64 (6 + 8 * k))
      (hex8 e.fields.upper e.numbers[k]) := fun k hk => by
    have := placed_number hnum k hk
    rwa [hlen, BitVec.add_assoc, ← BitVec.ofNat_add] at this
  refine ⟨?_, hextoi_hex8 hn (hat 11 (by simp [Entry.numbers])),
    hextoi_hex8 hd (hat 6 (by simp [Entry.numbers])), ?_, ?_⟩
  · rw [goodMagic, beq_iff_eq]
    refine kstrncmpFrom_eq fun j hj => ?_
    rw [Nat.zero_add, hm j (by rwa [hlen])]
    simp [literal, hlen, hj]
  · rw [length_header] at hname
    exact reads_of_placed hname h0
  · have hoff : (e.header ++ (e.name ++ [0]) ++ padding (110 + (e.name.length + 1))).length =
        e.dataOff := by
      have := le_roundUp (110 + (e.name.length + 1))
      simp only [List.length_append, length_header, length_padding, List.length_singleton]
      unfold Entry.dataOff
      omega
    rwa [hoff] at hdata

/-! ### From record to record -/

theorem and_not_three (x : Word) : (x &&& ~~~(4 - 1 : Word)).toNat = x.toNat / 4 * 4 :=
  and_not_toNat (show (4 : Word).toNat = 2 ^ 2 from rfl)

theorem alignUpVal_ofNat {n : ℕ} (hn : n + 3 < 2 ^ 64) :
    alignUpVal (BitVec.ofNat 64 n) 4 = BitVec.ofNat 64 (roundUp n) := by
  have h1 : (BitVec.ofNat 64 n + 4 - 1 : Word).toNat = n + 3 := by bv_omega
  apply BitVec.eq_of_toNat_eq
  rw [alignUpVal, and_not_three, h1, BitVec.toNat_ofNat, roundUp]
  omega

/-- The name and the data of an entry that can be packed. -/
structure Fits (e : Entry) : Prop where
  name : e.name.length + 1 < 2 ^ 32
  data : e.data.length < 2 ^ 32

theorem fits_trailer (f : Fields) : Fits (trailer f) :=
  ⟨show (ascii "TRAILER!!!").length + 1 < 2 ^ 32 by decide, show 0 < 2 ^ 32 by decide⟩

section Record
variable {e : Entry} {initrdEnd path : Word} {l : List Byte}

theorem dataOff_lt (he : Fits e) : e.dataOff < 2 ^ 33 := by
  have := he.name
  have := roundUp_le (110 + (e.name.length + 1))
  unfold Entry.dataOff
  omega

theorem size_lt (he : Fits e) : e.size < 2 ^ 34 := by
  have := he.data
  have := dataOff_lt he
  have := roundUp_le (e.dataOff + e.data.length)
  unfold Entry.size
  omega

/-- The sums of the code: the offset of the data, and that of the next record. -/
theorem Shows.offsets (h : Shows m p e) (he : Fits e) :
    alignUpVal (110 + namesizeAt m p) 4 = BitVec.ofNat 64 e.dataOff ∧
      alignUpVal (BitVec.ofNat 64 e.dataOff + filesizeAt m p) 4 = BitVec.ofNat 64 e.size := by
  have hn := he.name
  have hd := he.data
  have := dataOff_lt he
  constructor
  · rw [h.namesize, show (110 : Word) = BitVec.ofNat 64 110 from rfl, ← BitVec.ofNat_add,
      alignUpVal_ofNat (by omega)]
    rfl
  · rw [h.filesize, ← BitVec.ofNat_add, alignUpVal_ofNat (by omega)]
    rfl

/-- A record that ends before the end of the archive passes the checks of the ranges. -/
theorem Shows.ranges (h : Shows m p e) (he : Fits e) (hfit : p.toNat + e.size ≤ initrdEnd.toNat) :
    p + 110 ≤ initrdEnd ∧ ¬p + 110 + namesizeAt m p > initrdEnd ∧
      ¬p + BitVec.ofNat 64 e.dataOff + filesizeAt m p > initrdEnd := by
  have hn := he.name
  have hd := he.data
  have hoff := dataOff_lt he
  have h1 := le_roundUp (110 + (e.name.length + 1))
  have h2 := le_roundUp (e.dataOff + e.data.length)
  have hsize : e.size = roundUp (e.dataOff + e.data.length) := rfl
  have hdata : e.dataOff = roundUp (110 + (e.name.length + 1)) := rfl
  rw [h.namesize, h.filesize]
  refine ⟨?_, ?_, ?_⟩ <;> bv_omega

theorem toNat_add_size (he : Fits e) (hfit : p.toNat + e.size ≤ initrdEnd.toNat) :
    (p + BitVec.ofNat 64 e.size).toNat = p.toNat + e.size := by
  have := size_lt he
  bv_omega

theorem Shows.strEq_trailer (h : Shows m p e) (he : Fits e) :
    strEq (bytesAt m (p + 110)) (literal "TRAILER!!!") =
      some (decide (e.name = ascii "TRAILER!!!")) :=
  strEq_spec h.name (reads_literal (by decide)) (by have := he.name; omega)

/-- A name of which `filename_match` skips the first two characters. -/
theorem reads_dotSlash {a : Word} {name : List Byte} (h : Reads (bytesAt m a) name)
    (h0 : m a = 46) (h1 : m (a + 1) = 47) :
    ∃ rest, name = ascii "./" ++ rest ∧ Reads (bytesAt m (a + 2)) rest := by
  have h0' : bytesAt m a 0 = 46 := by simpa [bytesAt] using h0
  have h1' : bytesAt m a 1 = 47 := by simpa [bytesAt] using h1
  cases name with
  | nil =>
    have hnull : bytesAt m a 0 = 0 := h.null
    rw [h0'] at hnull
    cases hnull
  | cons c name =>
    cases name with
    | nil =>
      have hnull : bytesAt m a 1 = 0 := h.null
      rw [h1'] at hnull
      cases hnull
    | cons d rest =>
      have hc : c = 46 := h.head.1.symm.trans h0'
      have hd : d = 47 := h.tail.head.1.symm.trans h1'
      have hshift : bytesAt m (a + 2) = fun i => bytesAt m a (i + 1 + 1) := by
        funext i
        rw [show (2 : Word) = BitVec.ofNat 64 2 from rfl, bytesAt_add]
        congr 1
        omega
      exact ⟨rest, by rw [hc, hd]; rfl, hshift ▸ h.tail.tail⟩

/-- `filename_match` accepts the name itself, and with a leading `./`. -/
theorem Shows.filenameMatch (h : Shows m p e) (he : Fits e) (hl : Reads (bytesAt m path) l) :
    filenameMatch m (p + 110) path = some (decide (e.Named l)) := by
  have hn := he.name
  rw [Cpio.filenameMatch, strEq_spec h.name hl (by omega)]
  by_cases heq : e.name = l
  · have hnamed : e.Named l := .inl heq
    simp only [heq, decide_true, hnamed]
  simp only [heq, decide_false]
  split_ifs with hdot
  · obtain ⟨rest, hname, hrest⟩ := reads_dotSlash h.name hdot.1 hdot.2
    rw [strEq_spec hrest hl (by rw [hname, List.length_append] at hn; omega), Option.some.injEq]
    refine decide_eq_decide.2 ⟨fun hr => .inr (hr ▸ hname), fun hr => ?_⟩
    rcases hr with hr | hr
    · exact absurd hr heq
    · exact List.append_cancel_left (hname.symm.trans hr)
  · rw [Option.some.injEq, eq_comm, decide_eq_false_iff_not]
    rintro (hr | hr)
    · exact heq hr
    · have hr' := h.name
      rw [hr] at hr'
      have h0 : bytesAt m (p + 110) 0 = 46 := hr'.head.1
      have h1 : bytesAt m (p + 110) 1 = 47 := hr'.tail.head.1
      exact hdot ⟨by simpa [bytesAt] using h0, by simpa [bytesAt] using h1⟩

/-! ### The walks -/

/-- A round of `initrd_find_file` at a record that is not the last one. -/
theorem findLoop_step (h : Shows m p e) (he : Fits e) (hne : e.name ≠ ascii "TRAILER!!!")
    (hfit : p.toNat + e.size ≤ initrdEnd.toNat) (hl : Reads (bytesAt m path) l) (n : ℕ) :
    findLoop m path initrdEnd (n + 1) p =
      if e.Named l then some (.ok (p + BitVec.ofNat 64 e.dataOff, BitVec.ofNat 64 e.data.length))
      else findLoop m path initrdEnd n (p + BitVec.ofNat 64 e.size) := by
  obtain ⟨h1, h2, h3⟩ := h.ranges he hfit
  obtain ⟨hoff, hsize⟩ := h.offsets he
  rw [findLoop, if_pos h1, h.magic, if_neg (by simp), if_neg h2, h.strEq_trailer he,
    decide_eq_false hne]
  simp only [hoff, if_neg h3, h.filenameMatch he hl, hsize]
  by_cases hnamed : e.Named l
  · simp only [hnamed, decide_true, if_true, h.filesize]
  · simp only [hnamed, decide_false, if_false]

theorem findLoop_trailer {f : Fields} (h : Shows m p (trailer f))
    (hfit : p.toNat + (trailer f).size ≤ initrdEnd.toNat) (n : ℕ) :
    findLoop m path initrdEnd (n + 1) p = some (.error .notFound) := by
  have he := fits_trailer f
  obtain ⟨h1, h2, -⟩ := h.ranges he hfit
  rw [findLoop, if_pos h1, h.magic, if_neg (by simp), if_neg h2, h.strEq_trailer he,
    decide_eq_true (show (trailer f).name = ascii "TRAILER!!!" from rfl)]

theorem charsFrom_spec : ∀ {n : ℕ} {s : ℕ → Byte} {l : List Byte}, Reads s l → l.length < n →
    charsFrom s n 0 = some l
  | 0, _, _, _, hn => by omega
  | n + 1, s, [], h, _ => if_pos h.null
  | n + 1, s, c :: l, h, hn => by
    obtain ⟨hc, h0⟩ := h.head
    have hshift : ∀ n i, charsFrom s n (i + 1) = charsFrom (fun j => s (j + 1)) n i := by
      intro n
      induction n with
      | zero => intro i; rfl
      | succ n ih => intro i; rw [charsFrom, charsFrom, ih]
    rw [charsFrom, hc, if_neg h0, hshift, charsFrom_spec h.tail (by simpa using hn)]
    rfl

/-- A round of `initrd_list` at a record that is not the last one. -/
theorem listLoop_step (h : Shows m p e) (he : Fits e) (hne : e.name ≠ ascii "TRAILER!!!")
    (hfit : p.toNat + e.size < initrdEnd.toNat) (n : ℕ) :
    listLoop m initrdEnd (n + 1) p =
      (listLoop m initrdEnd n (p + BitVec.ofNat 64 e.size)).map (e.listing ++ ·) := by
  obtain ⟨hoff, hsize⟩ := h.offsets he
  have hn := he.name
  have hadd := toNat_add_size he hfit.le
  have hlt : ¬p + BitVec.ofNat 64 e.size ≥ initrdEnd := by bv_omega
  rw [listLoop, h.magic, if_neg (by simp), h.strEq_trailer he, decide_eq_false hne]
  simp only [charsFrom_spec h.name (show e.name.length < 2 ^ 64 by omega), hoff, hsize, if_neg hlt]
  rw [h.filesize]
  rfl

theorem listLoop_trailer {f : Fields} (h : Shows m p (trailer f)) (n : ℕ) :
    listLoop m initrdEnd (n + 1) p = some [] := by
  have he := fits_trailer f
  rw [listLoop, h.magic, if_neg (by simp), h.strEq_trailer he,
    decide_eq_true (show (trailer f).name = ascii "TRAILER!!!" from rfl)]

end Record

/-! ### The archive -/

section Archive
variable {es pre post : List Entry} {e : Entry} {f : Fields} {initrdStart initrdEnd path : Word}
  {l : List Byte} {n : ℕ}

theorem archive_cons (e : Entry) (es : List Entry) (f : Fields) :
    archive (e :: es) f = e.record ++ archive es f := by
  rw [archive, archive, List.flatMap_cons, List.append_assoc]

/-- An archive placed before the end of the initrd. -/
structure Within (m : Mem) (initrdEnd p : Word) (es : List Entry) (f : Fields) : Prop where
  placed : Placed m p (archive es f)
  ok : ∀ e ∈ es, e.Ok
  fit : p.toNat + (archive es f).length ≤ initrdEnd.toNat

theorem Entry.Ok.fits (h : e.Ok) : Fits e := ⟨h.name, h.data⟩

theorem Within.shows (h : Within m initrdEnd p (e :: es) f) :
    Shows m p e ∧ e.Ok ∧ p.toNat + e.size < initrdEnd.toNat := by
  have hok := h.ok e (by simp)
  have hp := h.placed
  have hfit := h.fit
  rw [archive_cons] at hp hfit
  refine ⟨shows_of_placed (placed_append.1 hp).1 hok.name hok.data hok.nonzero, hok, ?_⟩
  have hpos : 0 < (archive es f).length := by
    rw [archive, List.length_append, length_record, Entry.size]
    have := le_roundUp ((trailer f).dataOff + (trailer f).data.length)
    have : 110 ≤ (trailer f).dataOff := (Nat.le_add_right _ _).trans (le_roundUp _)
    omega
  rw [List.length_append, length_record] at hfit
  omega

theorem Within.next (h : Within m initrdEnd p (e :: es) f) :
    Within m initrdEnd (p + BitVec.ofNat 64 e.size) es f := by
  obtain ⟨-, hok, hlt⟩ := h.shows
  have hp := h.placed
  have hfit := h.fit
  rw [archive_cons] at hp hfit
  rw [List.length_append, length_record] at hfit
  refine ⟨length_record e ▸ (placed_append.1 hp).2, fun x hx => h.ok x (by simp [hx]), ?_⟩
  rw [toNat_add_size (Entry.Ok.fits hok) hlt.le]
  omega

theorem Within.trailer (h : Within m initrdEnd p [] f) :
    Shows m p (trailer f) ∧ p.toNat + (Cpio.trailer f).size ≤ initrdEnd.toNat := by
  have hfit := h.fit
  have hf := fits_trailer f
  have h0 : (0 : Byte) ∉ ascii "TRAILER!!!" := by decide
  refine ⟨shows_of_placed h.placed hf.name hf.data h0, ?_⟩
  rwa [show archive [] f = (Cpio.trailer f).record from rfl, length_record] at hfit

/-- **The first entry that has the name is found.** -/
theorem findLoop_first (hl : Reads (bytesAt m path) l) (he : e.Named l) : ∀ {pre : List Entry}
    {p : Word} {n : ℕ}, Within m initrdEnd p (pre ++ e :: post) f → pre.length < n →
    (∀ x ∈ pre, ¬x.Named l) → ∃ q, findLoop m path initrdEnd n p =
      some (.ok (q, BitVec.ofNat 64 e.data.length)) ∧
      q = p + BitVec.ofNat 64 ((pre.map Entry.size).sum + e.dataOff) ∧ Placed m q e.data
  | _, _, 0, _, hn, _ => by omega
  | [], p, n + 1, h, _, _ => by
    obtain ⟨hs, hok, hlt⟩ := h.shows
    refine ⟨_, ?_, by simp, hs.data⟩
    rw [findLoop_step hs (Entry.Ok.fits hok) hok.notTrailer hlt.le hl, if_pos he]
  | x :: pre, p, n + 1, h, hn, hx => by
    obtain ⟨hs, hok, hlt⟩ := h.shows
    obtain ⟨q, hq, hqp, hd⟩ := findLoop_first hl he (n := n) h.next (by simpa using hn)
      fun y hy => hx y (by simp [hy])
    refine ⟨q, ?_, ?_, hd⟩
    · rw [findLoop_step hs (Entry.Ok.fits hok) hok.notTrailer hlt.le hl, if_neg (hx x (by simp)), hq]
    · rw [hqp, BitVec.add_assoc, ← BitVec.ofNat_add, List.map_cons, List.sum_cons, Nat.add_assoc]

/-- **No entry has the name.** -/
theorem findLoop_none (hl : Reads (bytesAt m path) l) : ∀ {es : List Entry} {p : Word} {n : ℕ},
    Within m initrdEnd p es f → es.length < n → (∀ x ∈ es, ¬x.Named l) →
    findLoop m path initrdEnd n p = some (.error .notFound)
  | _, _, 0, _, hn, _ => by omega
  | [], p, n + 1, h, _, _ => findLoop_trailer h.trailer.1 h.trailer.2 n
  | x :: es, p, n + 1, h, hn, hx => by
    obtain ⟨hs, hok, hlt⟩ := h.shows
    rw [findLoop_step hs (Entry.Ok.fits hok) hok.notTrailer hlt.le hl, if_neg (hx x (by simp))]
    exact findLoop_none hl h.next (by simpa using hn) fun y hy => hx y (by simp [hy])

/-- **Every entry is listed, in order.** -/
theorem listLoop_all : ∀ {es : List Entry} {p : Word} {n : ℕ}, Within m initrdEnd p es f →
    es.length < n → listLoop m initrdEnd n p = some (es.flatMap Entry.listing)
  | _, _, 0, _, hn => by omega
  | [], p, n + 1, h, _ => listLoop_trailer h.trailer.1 n
  | x :: es, p, n + 1, h, hn => by
    obtain ⟨hs, hok, hlt⟩ := h.shows
    rw [listLoop_step hs (Entry.Ok.fits hok) hok.notTrailer hlt,
      listLoop_all h.next (by simpa using hn)]
    rfl

theorem length_le_archive (es : List Entry) (f : Fields) : es.length < (archive es f).length := by
  induction es with
  | nil =>
    rw [show archive [] f = (trailer f).record from rfl, length_record]
    have : 110 ≤ (trailer f).dataOff := (Nat.le_add_right _ _).trans (le_roundUp _)
    have := le_roundUp ((trailer f).dataOff + (trailer f).data.length)
    simp only [List.length_nil]
    unfold Entry.size
    omega
  | cons e es ih =>
    rw [archive_cons, List.length_append, length_record, List.length_cons]
    have : 110 ≤ e.dataOff := (Nat.le_add_right _ _).trans (le_roundUp _)
    have := le_roundUp (e.dataOff + e.data.length)
    unfold Entry.size
    omega

/-- **The walks undo the packing**: an archive that fills the initrd is found entry by entry, under
the first name that matches, and listed once in order. -/
theorem walks_undo_packing (hok : ∀ e ∈ es, e.Ok) (hstart : initrdStart ≠ 0)
    (hp : Placed m initrdStart (archive es f))
    (hend : initrdEnd.toNat = initrdStart.toNat + (archive es f).length) :
    (∀ path l, Reads (bytesAt m path) l →
      (∀ pre e post, es = pre ++ e :: post → e.Named l → (∀ x ∈ pre, ¬x.Named l) →
        ∃ q, initrdFindFile m initrdStart initrdEnd path =
          some (.ok (q, BitVec.ofNat 64 e.data.length)) ∧
          q = initrdStart + BitVec.ofNat 64 ((pre.map Entry.size).sum + e.dataOff) ∧
          Placed m q e.data) ∧
      ((∀ e ∈ es, ¬e.Named l) →
        initrdFindFile m initrdStart initrdEnd path = some (.error .notFound))) ∧
    initrdList m initrdStart initrdEnd = some (es.flatMap Entry.listing) := by
  have hlen := length_le_archive es f
  have hav : initrdAvailable initrdStart initrdEnd = true := by
    simp only [initrdAvailable, Bool.and_eq_true, decide_eq_true_eq]
    refine ⟨⟨hstart, fun h => ?_⟩, ?_⟩
    · simp [h] at hend
      omega
    · bv_omega
  have hw : Within m initrdEnd initrdStart es f := ⟨hp, hok, hend.ge⟩
  have hn : es.length < 2 ^ 64 := by
    have := initrdEnd.isLt
    omega
  refine ⟨fun path l hl => ⟨fun pre e post hes he hpre => ?_, fun hnone => ?_⟩, ?_⟩
  · rw [initrdFindFile, hav, if_pos rfl]
    subst hes
    exact findLoop_first hl he hw (by simp at hn; omega) hpre
  · rw [initrdFindFile, hav, if_pos rfl]
    exact findLoop_none hl hw hn hnone
  · rw [initrdList, hav, if_pos rfl]
    exact listLoop_all hw hn

end Archive

/-- Header fields of a regular file. -/
def sampleFields : Fields := ⟨true, 1, 33188, 0, 0, 1, 0, 8, 1, 0, 0, 0⟩

/-- A file with three bytes. -/
def sampleEntry : Entry := ⟨sampleFields, ascii "a", [1, 2, 3]⟩

/-- A memory with an archive of one file at the address 4096. -/
def sampleMem : Mem := fun a => (archive [sampleEntry] sampleFields).getD (a.toNat - 4096) 0

/-- Three files, of which the last two have one name. -/
def threeEntries : List Entry :=
  [sampleEntry, ⟨sampleFields, ascii "bc", [4, 5]⟩, ⟨sampleFields, ascii "bc", [6]⟩]

/-- A memory with the archive of the three files at the address 4096. -/
def threeMem : Mem := fun a => (archive threeEntries sampleFields).getD (a.toNat - 4096) 0

/-- The name in the second record finds the second file. -/
theorem walks_undo_packing_sample :
    (∃ q, initrdFindFile threeMem 4096 4576 4322 = some (.ok (q, 2)) ∧
      Placed threeMem q [4, 5]) ∧
    initrdList threeMem 4096 4576 = some (threeEntries.flatMap Entry.listing) := by
  have hlen : (archive threeEntries sampleFields).length = 480 := by decide +kernel
  have hp : Placed threeMem 4096 (archive threeEntries sampleFields) := fun i hi => by
    have haddr : (4096 + BitVec.ofNat 64 i : Word).toNat - 4096 = i := by bv_omega
    rw [bytesAt, threeMem, haddr]
    simp [hi]
  have hok : ∀ e ∈ threeEntries, e.Ok := by
    intro e he
    simp only [threeEntries, List.mem_cons, List.not_mem_nil, or_false] at he
    rcases he with rfl | rfl | rfl <;> exact ⟨by decide, by decide, by decide, by decide⟩
  have hstart : (4096 : Word) ≠ 0 := by decide
  have hend : (4576 : Word).toNat =
      (4096 : Word).toNat + (archive threeEntries sampleFields).length := by rw [hlen]; rfl
  obtain ⟨hfind, hlist⟩ := walks_undo_packing hok hstart hp hend
  have hname : Reads (bytesAt threeMem 4322) (ascii "bc") :=
    ⟨by decide +kernel, by decide +kernel, by decide⟩
  have hfirst : ∀ x ∈ [sampleEntry], ¬ x.Named (ascii "bc") := by decide
  obtain ⟨q, hq, -, hd⟩ :=
    (hfind 4322 (ascii "bc") hname).1 [sampleEntry] _ _ rfl (.inl rfl) hfirst
  exact ⟨⟨q, hq, hd⟩, hlist⟩

end OscKernel.Initrd.Lookup
