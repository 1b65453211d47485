import OscKernel.Lib.Memory

/-! # Strings of the kernel

The functions of `kstring.c` that the initrd code uses. A `char *` is what it reads, a function from
offsets to bytes. A loop that does not end gives `none`.

* `strEq_spec`: `str_eq` decides the equality of two strings.
* `hextoi_spec`: `hextoi` reads back a number from its hexadecimal digits. -/

namespace OscKernel.Initrd.KString

open OscKernel.Lib.Memory

/-- The bytes of a text. -/
def ascii (s : String) : List Byte := s.toList.map fun c => BitVec.ofNat 8 c.toNat

/-- A string literal: its bytes and a null. -/
def literal (s : String) (i : ℕ) : Byte := (ascii s).getD i 0

/-- The loop of `kstrcmp`, from the position `i` on; a `char` is unsigned. -/
def kstrcmpFrom (a b : ℕ → Byte) : ℕ → ℕ → Option ℤ
  | 0, _ => none
  | n + 1, i =>
    if a i ≠ 0 ∧ b i ≠ 0 then
      if a i ≠ b i then some ((a i).toNat - (b i).toNat) else kstrcmpFrom a b n (i + 1)
    else some ((a i).toNat - (b i).toNat)

/-- `kstrcmp`. -/
def kstrcmp (a b : ℕ → Byte) : Option ℤ := kstrcmpFrom a b (2 ^ 64) 0

/-- `str_eq`. -/
def strEq (a b : ℕ → Byte) : Option Bool := (kstrcmp a b).map fun r => r == 0

/-- The loop of `kstrncmp`, with `n` characters to go. -/
def kstrncmpFrom (a b : ℕ → Byte) : ℕ → ℕ → ℤ
  | 0, _ => 0
  | n + 1, i =>
    if a i ≠ 0 ∧ b i ≠ 0 then
      if a i ≠ b i then (a i).toNat - (b i).toNat else kstrncmpFrom a b n (i + 1)
    else (a i).toNat - (b i).toNat

/-- `kstrncmp`. -/
def kstrncmp (a b : ℕ → Byte) (n : ℕ) : ℤ := kstrncmpFrom a b n 0

/-- What `hextoi` adds for a character. -/
def digitOf (c : Byte) : Word :=
  if 48 ≤ c ∧ c ≤ 57 then c.setWidth 64 - 48
  else if 97 ≤ c ∧ c ≤ 102 then c.setWidth 64 - 97 + 10
  else if 65 ≤ c ∧ c ≤ 70 then c.setWidth 64 - 65 + 10
  else 0

/-- The loop of `hextoi`, with `n` characters to go. -/
def hextoiFrom (s : ℕ → Byte) : ℕ → ℕ → Word → Word
  | 0, _, r => r
  | n + 1, i, r => hextoiFrom s n (i + 1) ((r <<< 4) + digitOf (s i))

/-- `hextoi`. -/
def hextoi (s : ℕ → Byte) (n : ℕ) : Word := hextoiFrom s n 0 0

/-! ### Comparing strings -/

/-- The pointer reads the string and its null. -/
structure Reads (s : ℕ → Byte) (l : List Byte) : Prop where
  chars : ∀ i (h : i < l.length), s i = l[i]
  null : s l.length = 0
  nonzero : (0 : Byte) ∉ l

theorem reads_literal {s : String} (h : (0 : Byte) ∉ ascii s) : Reads (literal s) (ascii s) :=
  ⟨fun i hi => by simp [literal, hi], by simp [literal], h⟩

theorem Reads.tail {s : ℕ → Byte} {c : Byte} {l : List Byte} (h : Reads s (c :: l)) :
    Reads (fun i => s (i + 1)) l :=
  ⟨fun i hi => h.chars (i + 1) (by simpa using hi), h.null,
    fun hm => h.nonzero (List.mem_cons_of_mem _ hm)⟩

theorem Reads.head {s : ℕ → Byte} {c : Byte} {l : List Byte} (h : Reads s (c :: l)) :
    s 0 = c ∧ c ≠ 0 :=
  ⟨h.chars 0 (by simp), fun he => h.nonzero (by simp [he])⟩

theorem kstrcmpFrom_shift (a b : ℕ → Byte) : ∀ n i,
    kstrcmpFrom a b n (i + 1) = kstrcmpFrom (fun j => a (j + 1)) (fun j => b (j + 1)) n i
  | 0, _ => rfl
  | n + 1, i => by rw [kstrcmpFrom, kstrcmpFrom, kstrcmpFrom_shift a b n (i + 1)]

/-- The difference is zero for equal strings only. -/
theorem kstrcmpFrom_spec : ∀ {n : ℕ} {a b : ℕ → Byte} {l l' : List Byte}, Reads a l → Reads b l' →
    l.length < n → ∃ r, kstrcmpFrom a b n 0 = some r ∧ (r = 0 ↔ l = l')
  | 0, _, _, _, _, _, _, hn => by omega
  | n + 1, a, b, [], l', ha, hb, _ => by
    have h0 : a 0 = 0 := ha.null
    refine ⟨_, if_neg fun h => h.1 h0, ?_⟩
    cases l' with
    | nil =>
      have h0' : b 0 = 0 := hb.null
      simp [h0, h0']
    | cons c l' =>
      obtain ⟨hc, hne⟩ := hb.head
      have : c.toNat ≠ 0 := fun h => hne (BitVec.eq_of_toNat_eq (by simpa using h))
      simp [h0, hc, this]
  | n + 1, a, b, c :: l, [], ha, hb, _ => by
    obtain ⟨hc, hne⟩ := ha.head
    have h0 : b 0 = 0 := hb.null
    have : c.toNat ≠ 0 := fun h => hne (BitVec.eq_of_toNat_eq (by simpa using h))
    refine ⟨_, if_neg fun h => h.2 h0, ?_⟩
    simp [h0, hc, this]
  | n + 1, a, b, c :: l, d :: l', ha, hb, hn => by
    obtain ⟨hc, hc0⟩ := ha.head
    obtain ⟨hd, hd0⟩ := hb.head
    rw [kstrcmpFrom, hc, hd, if_pos ⟨hc0, hd0⟩]
    by_cases hcd : c = d
    · rw [if_neg (by simpa using hcd), kstrcmpFrom_shift]
      obtain ⟨r, hr, hz⟩ := kstrcmpFrom_spec ha.tail hb.tail (by simpa using hn)
      exact ⟨r, hr, by simp [hz, hcd]⟩
    · refine ⟨_, if_pos hcd, ?_⟩
      have : c.toNat ≠ d.toNat := fun h => hcd (BitVec.eq_of_toNat_eq h)
      simp only [List.cons.injEq, hcd, false_and, iff_false]
      omega

theorem strEq_spec {a b : ℕ → Byte} {l l' : List Byte} (ha : Reads a l) (hb : Reads b l')
    (hn : l.length < 2 ^ 64) : strEq a b = some (decide (l = l')) := by
  obtain ⟨r, hr, hz⟩ := kstrcmpFrom_spec ha hb hn
  rw [strEq, kstrcmp, hr, Option.map_some, Option.some.injEq]
  by_cases h : l = l'
  · simp [h, hz.2 h]
  · simp [h, hz]

theorem kstrncmpFrom_eq {a b : ℕ → Byte} : ∀ {n i : ℕ}, (∀ j < n, a (i + j) = b (i + j)) →
    kstrncmpFrom a b n i = 0
  | 0, _, _ => rfl
  | n + 1, i, h => by
    have h0 : a i = b i := h 0 (by omega)
    rw [kstrncmpFrom, h0, if_neg (not_not.2 rfl), sub_self, kstrncmpFrom_eq fun j hj => ?_, ite_self]
    have := h (j + 1) (by omega)
    rwa [← Nat.add_assoc, Nat.add_right_comm] at this

/-- A string in memory is shorter than the address space. -/
theorem Reads.length_lt {m : Mem} {a : Word} {l : List Byte}
    (h : Reads (bytesAt m a) l) : l.length < 2 ^ 64 := by
  by_contra hge
  have hlt : l.length - 2 ^ 64 < l.length := by omega
  have hof : BitVec.ofNat 64 (l.length - 2 ^ 64) = BitVec.ofNat 64 l.length := by
    apply BitVec.eq_of_toNat_eq
    rw [BitVec.toNat_ofNat, BitVec.toNat_ofNat]
    omega
  have hwrap : bytesAt m a (l.length - 2 ^ 64) = bytesAt m a l.length := by
    rw [bytesAt, bytesAt, hof]
  have hz : l[l.length - 2 ^ 64] = 0 := by rw [← h.chars _ hlt, hwrap, h.null]
  exact h.nonzero (hz ▸ List.getElem_mem hlt)

/-! ### Hexadecimal digits -/

/-- The hexadecimal digit `d`, in upper or lower case. -/
def hexDigit (u : Bool) (d : ℕ) : Byte :=
  BitVec.ofNat 8 (if d < 10 then 48 + d else if u then 55 + d else 87 + d)

theorem digitOf_hexDigit (u : Bool) : ∀ {d : ℕ}, d < 16 →
    digitOf (hexDigit u d) = BitVec.ofNat 64 d := by
  revert u
  decide

/-- The digits of a number read back as the number. -/
theorem hextoiFrom_spec {s : ℕ → Byte} {u : Bool} {v : ℕ} (hv : v < 2 ^ 64) :
    ∀ {n i : ℕ} {r : Word}, r.toNat = v / 16 ^ n →
      (∀ j < n, s (i + j) = hexDigit u (v / 16 ^ (n - 1 - j) % 16)) →
      (hextoiFrom s n i r).toNat = v
  | 0, _, r, hr, _ => by simpa [hextoiFrom] using hr
  | n + 1, i, r, hr, hs => by
    have h0 : s i = hexDigit u (v / 16 ^ n % 16) := by simpa using hs 0 (by omega)
    rw [hextoiFrom]
    refine hextoiFrom_spec (u := u) hv ?_ fun j hj => ?_
    · have hle : v / 16 ^ n ≤ v := Nat.div_le_self ..
      rw [h0, digitOf_hexDigit _ (Nat.mod_lt _ (by omega)), BitVec.toNat_add, BitVec.toNat_shiftLeft,
        hr, pow_succ, ← Nat.div_div_eq_div_mul, Nat.shiftLeft_eq, BitVec.toNat_ofNat]
      omega
    · have := hs (j + 1) (by omega)
      rw [show i + 1 + j = i + (j + 1) by omega, this]
      congr 4
      omega

theorem hextoi_spec {s : ℕ → Byte} {u : Bool} {v n : ℕ} (hv : v < 2 ^ 64) (hn : v < 16 ^ n)
    (hs : ∀ j < n, s j = hexDigit u (v / 16 ^ (n - 1 - j) % 16)) :
    hextoi s n = BitVec.ofNat 64 v := by
  apply BitVec.eq_of_toNat_eq
  rw [hextoi, hextoiFrom_spec hv (by rw [Nat.div_eq_of_lt hn]; rfl) (by simpa using hs),
    BitVec.toNat_ofNat, Nat.mod_eq_of_lt hv]

end OscKernel.Initrd.KString
