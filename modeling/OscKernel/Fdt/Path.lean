import OscKernel.Fdt.Format
import Mathlib.Data.List.GetD
import Mathlib.Data.List.TakeWhile

/-! # `fdt_path_offset`

One counter stands for the search: how many components of the path agree with the names of the open
nodes, from the root down. The counters of the source are `int`s, and so is the offset that it
returns.

* `fdtPathOffset`: the source.
* `agree`: the value of the counter.
* `path_offset`: the first node whose names match the path is found.
* `pathOffset_first`: its offset is returned if it fits an `int`. -/

namespace OscKernel.Fdt.Path

open OscKernel.Lib.Memory OscKernel.Initrd.KString OscKernel.Initrd.Cpio OscKernel.Fdt.Format

/-! ### The source -/

/-- What a pointer to the string `l` reads. -/
def cstr (l : List Byte) (i : ℕ) : Byte := l.getD i 0

/-- `'/'`. -/
def slash : Byte := 47

/-- `'@'`. -/
def atSign : Byte := 64

/-- Moves a pointer into the path behind a component and the slash after it. -/
def skipComponent (seg : List Byte) : List Byte :=
  let seg := seg.dropWhile (· ≠ slash)
  if seg.head? = some slash then seg.tail else seg

/-- What an `int` holds of a number. -/
def cInt (x : ℤ) : ℤ := (BitVec.ofInt 32 x).toInt

/-- The loop that counts the components, with at most `n` rounds. -/
def countFrom : ℕ → List Byte → ℤ
  | 0, _ => 0
  | n + 1, rest => if rest ≠ [] then cInt (countFrom n (skipComponent rest) + 1) else 0

/-- `count`. -/
def countComponents (rest : List Byte) : ℤ := countFrom rest.length rest

/-- `node_name_match`. -/
def nodeNameMatch (m : Mem) (nodeName : Word) (pathSeg : List Byte) (segLen : ℤ) : Bool :=
  if kstrncmp (bytesAt m nodeName) (cstr pathSeg) (BitVec.ofInt 64 segLen).toNat ≠ 0 then false
  else if m (nodeName + BitVec.ofInt 64 segLen) = 0 then true
  else if m (nodeName + BitVec.ofInt 64 segLen) = atSign then true
  else false

/-- `matched_depth` after `FDT_BEGIN_NODE` and the comparison of the name. -/
def enterNode (m : Mem) (name : Word) (path : List Byte) (depth matched : ℤ) : ℤ :=
  if depth = 0 then 0
  else if path.head? = some slash then
    let curDepth := cInt (depth - 1)
    let seg := skipComponent^[curDepth.toNat] path.tail
    if seg ≠ [] then
      let segLen := cInt (seg.takeWhile (· ≠ slash)).length
      if curDepth = matched ∧ nodeNameMatch m name seg segLen then cInt (matched + 1) else matched
    else matched
  else matched

/-- `matched_depth` after `FDT_END_NODE`, where `depth` is the new depth. -/
def leaveNode (depth matched : ℤ) : ℤ :=
  let matched := if matched > cInt (depth - 1) then cInt (depth - 1) else matched
  if matched < 0 then 0 else matched

/-- The loop of `fdt_path_offset`. -/
def pathLoop (m : Mem) (path : List Byte) (structBlk : Word) : ℕ → Word → ℤ → ℤ → Option ℤ
  | 0, _, _, _ => none
  | n + 1, p, depth, matched =>
    if fdt32 m p = beginNode then
      let name := p + 4
      let matched := enterNode m name path depth matched
      match kstrlen (bytesAt m name) with
      | none => none
      | some len =>
        if path.head? = some slash ∧ matched = countComponents path.tail then
          some ((p - structBlk).setWidth 32).toInt
        else
          pathLoop m path structBlk n (alignUpVal (name + BitVec.ofNat 64 len + 1) 4)
            (cInt (depth + 1)) matched
    else if fdt32 m p = endNode then
      pathLoop m path structBlk n (p + 4) (cInt (depth - 1)) (leaveNode (cInt (depth - 1)) matched)
    else if fdt32 m p = propToken then
      let len := fdt32 m (p + 4)
      pathLoop m path structBlk n (alignUpVal (p + 4 + 4 + 4 + len.setWidth 64) 4) depth matched
    else if fdt32 m p = nopToken then pathLoop m path structBlk n (p + 4) depth matched
    else if fdt32 m p = endToken then some (-1)
    else some (-1)

/-- `fdt_path_offset`. -/
def fdtPathOffset (m : Mem) (fdt : Word) (path : List Byte) : Option ℤ :=
  if fdt32 m fdt ≠ 0xd00dfeed then some (-1)
  else pathLoop m path (structBlk m fdt) (2 ^ 64) (structBlk m fdt) 0 0

theorem cInt_eq {x : ℤ} (h1 : -2 ^ 31 ≤ x) (h2 : x < 2 ^ 31) : cInt x = x := by
  rw [cInt, BitVec.toInt_ofInt]
  exact Int.bmod_eq_of_le (by omega) (by omega)

/-! ### Paths -/

/-- A component names a node: in full, or up to the unit address. -/
def Matches (c name : List Byte) : Prop := name = c ∨ ∃ u, name = c ++ atSign :: u

/-- The names on the way to a node match the components one by one. -/
def Resolves (cs chain : List (List Byte)) : Prop := List.Forall₂ Matches cs chain

instance (c name : List Byte) : Decidable (Matches c name) :=
  decidable_of_iff (name = c ∨ (c <+: name ∧ name[c.length]? = some atSign)) (by
    unfold Matches
    refine or_congr_right ⟨?_, ?_⟩
    · rintro ⟨⟨u, rfl⟩, h⟩
      rw [List.getElem?_append_right le_rfl, Nat.sub_self] at h
      cases u with
      | nil => cases h
      | cons x u =>
        obtain rfl : x = atSign := by simpa using h
        exact ⟨u, rfl⟩
    · rintro ⟨u, rfl⟩
      exact ⟨List.prefix_append .., by simp⟩)

instance (cs chain : List (List Byte)) : Decidable (Resolves cs chain) :=
  inferInstanceAs (Decidable (List.Forall₂ ..))

/-- The path with the components `cs`. -/
def pathOf (cs : List (List Byte)) : List Byte := slash :: List.intercalate [slash] cs

/-- A component of a path. -/
structure Component (c : List Byte) : Prop where
  nonempty : c ≠ []
  noSlash : slash ∉ c
  noNull : (0 : Byte) ∉ c

section Components
variable {c d : List Byte} {cs : List (List Byte)}

theorem Component.all (h : Component c) : ∀ b ∈ c, (b ≠ slash : Bool) = true := fun b hb => by
  simpa using fun he : b = slash => h.noSlash (he ▸ hb)

theorem skipComponent_intercalate (h : Component c) :
    skipComponent (List.intercalate [slash] (c :: cs)) = List.intercalate [slash] cs := by
  rw [skipComponent]
  cases cs with
  | nil =>
    rw [List.intercalate_singleton, List.dropWhile_eq_nil_iff.2 h.all]
    rfl
  | cons d cs =>
    rw [List.intercalate_cons_cons, List.append_assoc, List.dropWhile_append_of_pos h.all]
    simp

theorem takeWhile_intercalate (h : Component c) :
    (List.intercalate [slash] (c :: cs)).takeWhile (· ≠ slash) = c := by
  cases cs with
  | nil => rw [List.intercalate_singleton, List.takeWhile_eq_self_iff.2 h.all]
  | cons d cs =>
    rw [List.intercalate_cons_cons, List.append_assoc, List.takeWhile_append_of_pos h.all]
    simp

theorem intercalate_ne_nil (h : Component c) : List.intercalate [slash] (c :: cs) ≠ [] := by
  cases cs with
  | nil => simpa using h.nonempty
  | cons d cs => simp [List.intercalate_cons_cons]

theorem prefix_intercalate : c <+: List.intercalate [slash] (c :: cs) := by
  cases cs with
  | nil => simp
  | cons d cs =>
    rw [List.intercalate_cons_cons, List.append_assoc]
    exact List.prefix_append ..

theorem length_intercalate (h : ∀ c ∈ cs, Component c) :
    cs.length ≤ (List.intercalate [slash] cs).length := by
  induction cs with
  | nil => exact le_rfl
  | cons c cs ih =>
    have hpos := List.length_pos_iff.2 (h c (by simp)).nonempty
    have ih := ih fun d hd => h d (by simp [hd])
    cases cs with
    | nil =>
      rw [List.intercalate_singleton]
      exact hpos
    | cons d cs =>
      rw [List.intercalate_cons_cons, List.length_append, List.length_append]
      simp only [List.length_cons] at ih ⊢
      omega

theorem length_component_le (hc : c ∈ cs) : c.length ≤ (List.intercalate [slash] cs).length := by
  induction cs with
  | nil => cases hc
  | cons d cs ih =>
    have hd : d.length ≤ (List.intercalate [slash] (d :: cs)).length :=
      prefix_intercalate.length_le
    rcases List.mem_cons.1 hc with rfl | hc
    · exact hd
    · have ih := ih hc
      cases cs with
      | nil => cases hc
      | cons e cs =>
        rw [List.intercalate_cons_cons, List.length_append]
        omega

theorem countFrom_intercalate : ∀ {n : ℕ} {cs : List (List Byte)}, (∀ c ∈ cs, Component c) →
    cs.length ≤ n → cs.length < 2 ^ 31 → countFrom n (List.intercalate [slash] cs) = cs.length
  | 0, [], _, _, _ => rfl
  | 0, c :: cs, _, hn, _ => by simp at hn
  | n + 1, [], _, _, _ => rfl
  | n + 1, c :: cs, h, hn, hlt => by
    have hc := h c (by simp)
    rw [List.length_cons] at hlt
    rw [countFrom, if_pos (intercalate_ne_nil hc), skipComponent_intercalate hc,
      countFrom_intercalate (fun d hd => h d (by simp [hd])) (by simpa using hn) (by omega),
      cInt_eq (by omega) (by omega), List.length_cons]
    rfl

theorem components_lt (h : ∀ c ∈ cs, Component c) (hlen : (pathOf cs).length < 2 ^ 31) :
    cs.length < 2 ^ 31 ∧ ∀ c ∈ cs, c.length < 2 ^ 31 := by
  rw [pathOf, List.length_cons] at hlen
  have hcount := length_intercalate h
  refine ⟨by omega, fun c hc => ?_⟩
  have hle := length_component_le hc
  omega

theorem countComponents_spec (h : ∀ c ∈ cs, Component c) (hlt : cs.length < 2 ^ 31) :
    countComponents (List.intercalate [slash] cs) = cs.length :=
  countFrom_intercalate h (length_intercalate h) hlt

/-- The loop of `fdt_path_offset` over the components above a node. -/
theorem skipComponent_iterate (h : ∀ c ∈ cs, Component c) (k : ℕ) :
    skipComponent^[k] (List.intercalate [slash] cs) = List.intercalate [slash] (cs.drop k) := by
  induction k generalizing cs with
  | zero => rfl
  | succ k ih =>
    rw [Function.iterate_succ_apply]
    cases cs with
    | nil =>
      have hnil : skipComponent (List.intercalate [slash] []) = List.intercalate [slash] [] := rfl
      rw [hnil, ih h, List.drop_nil, List.drop_nil]
    | cons c cs =>
      rw [skipComponent_intercalate (h c (by simp)), ih fun d hd => h d (by simp [hd])]
      rfl

end Components

/-! ### Names -/

section Names
variable {s : ℕ → Byte} {w l seg : List Byte}

/-- `kstrncmp` finds equal characters only if there are no others before the end. -/
theorem kstrncmpFrom_zero {a b : ℕ → Byte} : ∀ {n i : ℕ}, (∀ j < n, b (i + j) ≠ 0) →
    kstrncmpFrom a b n i = 0 → ∀ j < n, a (i + j) = b (i + j)
  | 0, _, _, _ => fun j hj => by omega
  | n + 1, i, hb, h => by
    have hb0 : b i ≠ 0 := hb 0 (by omega)
    have hne : a i = b i := by
      by_contra hne
      have hsub : (((a i).toNat : ℤ) - (b i).toNat) = 0 := by
        rw [kstrncmpFrom] at h
        split_ifs at h with h1
        · exact h
        · exact h
      exact hne (BitVec.eq_of_toNat_eq (by omega))
    rw [kstrncmpFrom, if_pos ⟨hne ▸ hb0, hb0⟩, if_neg (not_not.2 hne)] at h
    have ih := kstrncmpFrom_zero (fun j hj => by
      have := hb (j + 1) (by omega)
      rwa [show i + 1 + j = i + (j + 1) by omega]) h
    intro j hj
    cases j with
    | zero => exact hne
    | succ j =>
      have := ih j (by omega)
      rwa [show i + 1 + j = i + (j + 1) by omega] at this

theorem prefix_of_chars (hs : Reads s l) (h0 : (0 : Byte) ∉ w)
    (h : ∀ j (hj : j < w.length), s j = w[j]) :
    w <+: l := by
  have hlen : w.length ≤ l.length := by
    by_contra hlt
    have hc := h l.length (by omega)
    rw [hs.null] at hc
    exact h0 (hc ▸ List.getElem_mem _)
  rw [List.prefix_iff_eq_take]
  refine List.ext_getElem (by simp [hlen]) fun j h1 h2 => ?_
  rw [List.getElem_take, ← h j h1, hs.chars j (by omega)]

/-- `node_name_match` accepts the component itself, and with a unit address. -/
theorem nodeNameMatch_spec {m : Mem} {p : Word} (hs : Reads (bytesAt m p) l) (h0 : (0 : Byte) ∉ w)
    (hc : w <+: seg) (hw : w.length < 2 ^ 31) :
    nodeNameMatch m p seg w.length = decide (Matches w l) := by
  obtain ⟨t, rfl⟩ := hc
  have hn : (BitVec.ofNat 64 w.length).toNat = w.length := by
    rw [BitVec.toNat_ofNat, Nat.mod_eq_of_lt (by omega)]
  have hat : m (p + BitVec.ofNat 64 w.length) = bytesAt m p w.length := rfl
  have hseg : ∀ j (hj : j < w.length), cstr (w ++ t) j = w[j] := fun j hj => by
    rw [cstr, List.getD_eq_getElem _ _ (by simp; omega), List.getElem_append_left hj]
  have hne : ∀ j < w.length, cstr (w ++ t) (0 + j) ≠ 0 := fun j hj he => by
    rw [Nat.zero_add, hseg j hj] at he
    exact h0 (he ▸ List.getElem_mem _)
  rw [nodeNameMatch, kstrncmp, BitVec.ofInt_natCast, hn, hat]
  by_cases hp : w <+: l
  · obtain ⟨u, rfl⟩ := hp
    have hz : kstrncmpFrom (bytesAt m p) (cstr (w ++ t)) w.length 0 = 0 := kstrncmpFrom_eq fun j hj => by
      rw [Nat.zero_add, hseg j hj, hs.chars j (by simp; omega), List.getElem_append_left hj]
    rw [hz, if_neg (not_not.2 rfl)]
    cases u with
    | nil =>
      have hnull := hs.null
      rw [List.append_nil] at hnull
      have hm : Matches w (w ++ []) := .inl (List.append_nil w)
      rw [if_pos hnull, decide_eq_true hm]
    | cons x u =>
      have hx : bytesAt m p w.length = x := by
        rw [hs.chars w.length (by simp)]
        simp
      have hx0 : x ≠ 0 := fun h => hs.nonzero (by simp [h])
      have hm : Matches w (w ++ x :: u) ↔ x = atSign := by simp [Matches]
      rw [hx, if_neg hx0]
      by_cases hat : x = atSign
      · rw [if_pos hat, decide_eq_true (hm.2 hat)]
      · rw [if_neg hat, decide_eq_false (mt hm.1 hat)]
  · have hz : kstrncmpFrom (bytesAt m p) (cstr (w ++ t)) w.length 0 ≠ 0 := fun hz => by
      have := kstrncmpFrom_zero hne hz
      refine hp (prefix_of_chars hs h0 fun j hj => ?_)
      rw [← hseg j hj]
      simpa using this j hj
    have hm : ¬ Matches w l := by
      rintro (rfl | ⟨u, rfl⟩)
      · exact hp List.prefix_rfl
      · exact hp (List.prefix_append ..)
    rw [if_pos hz, decide_eq_false hm]

end Names

/-! ### The counter -/

/-- How many components agree with the names on the way to a node, from the root down. -/
def agree : List (List Byte) → List (List Byte) → ℕ
  | c :: cs, name :: chain => if Matches c name then agree cs chain + 1 else 0
  | _, _ => 0

section Counter
variable {cs chain : List (List Byte)} {name : List Byte}

theorem agree_le_length : ∀ (cs chain : List (List Byte)), agree cs chain ≤ chain.length
  | [], _ => by simp [agree]
  | _ :: _, [] => le_rfl
  | c :: cs, name :: chain => by
    have := agree_le_length cs chain
    rw [agree, List.length_cons]
    split_ifs <;> omega

@[simp] theorem agree_nil (cs : List (List Byte)) : agree cs [] = 0 := by cases cs <;> rfl

/-- The counter at a node below: one more if the name matches the next component. -/
theorem agree_concat : ∀ (cs chain : List (List Byte)) (name : List Byte),
    agree cs (chain ++ [name]) =
      if chain.length = agree cs chain ∧ ∃ c ∈ cs[chain.length]?, Matches c name then
        agree cs chain + 1
      else agree cs chain
  | [], chain, name => by simp [agree]
  | c :: cs, [], name => by simp [agree]
  | c :: cs, n :: chain, name => by
    rw [List.cons_append, agree, agree, agree_concat cs chain name]
    by_cases hm : Matches c n
    · simp only [if_pos hm, List.length_cons, List.getElem?_cons_succ, Nat.add_right_cancel_iff]
      split_ifs <;> rfl
    · simp [hm]

/-- Back at the node above, the counter forgets what was below. -/
theorem min_agree_concat : min (agree cs (chain ++ [name])) chain.length = agree cs chain := by
  have := agree_le_length cs chain
  rw [agree_concat]
  split_ifs with h <;> omega

theorem resolves_iff : ∀ {cs chain : List (List Byte)},
    Resolves cs chain ↔ agree cs chain = cs.length ∧ chain.length = cs.length
  | [], [] => by simp [Resolves, agree]
  | [], _ :: _ => iff_of_false (by rintro ⟨⟩) (by simp)
  | _ :: _, [] => iff_of_false (by rintro ⟨⟩) (by simp)
  | c :: cs, name :: chain => by
    have ih : Resolves cs chain ↔ agree cs chain = cs.length ∧ chain.length = cs.length := resolves_iff
    unfold Resolves at ih ⊢
    rw [List.forall₂_cons, ih, agree]
    by_cases hm : Matches c name
    · simp [hm]
    · simp [hm]

/-- The counter reaches the number of components at the node that the path leads to. -/
theorem resolves_concat (h : agree cs chain < cs.length) :
    Resolves cs (chain ++ [name]) ↔ agree cs (chain ++ [name]) = cs.length := by
  rw [resolves_iff]
  refine and_iff_left_of_imp fun heq => ?_
  rw [agree_concat] at heq
  split_ifs at heq with hn
  · rw [List.length_append, List.length_singleton, hn.1, heq]
  · omega

theorem leaveNode_agree (hd : chain.length < 2 ^ 31) :
    leaveNode ((chain.length : ℤ) + 1) (agree cs (chain ++ [name])) = agree cs chain := by
  have hmin : min (agree cs (chain ++ [name])) chain.length = agree cs chain := min_agree_concat
  have hdepth : cInt ((chain.length : ℤ) + 1 - 1) = chain.length := by
    rw [cInt_eq (by omega) (by omega)]
    omega
  rw [leaveNode, hdepth]
  split_ifs <;> omega

theorem enterNode_agree {m : Mem} {p : Word} (hs : Reads (bytesAt m p) name)
    (hcs : ∀ c ∈ cs, Component c) (hlen : (pathOf cs).length < 2 ^ 31)
    (hd : chain.length < 2 ^ 31) :
    enterNode m p (pathOf cs) ((chain.length : ℤ) + 1) (agree cs chain) =
      agree cs (chain ++ [name]) := by
  have hdepth : cInt ((chain.length : ℤ) + 1 - 1) = chain.length := by
    rw [cInt_eq (by omega) (by omega)]
    omega
  obtain ⟨hcount, hfits⟩ := components_lt hcs hlen
  rw [enterNode, if_neg (by omega), pathOf, List.head?_cons, if_pos rfl, List.tail_cons,
    agree_concat]
  dsimp only
  rw [hdepth, Int.toNat_natCast, skipComponent_iterate hcs]
  simp only [Nat.cast_inj]
  by_cases hlt : chain.length < cs.length
  · have hc := hcs _ (List.getElem_mem hlt)
    have hfit := hfits _ (List.getElem_mem hlt)
    have hagree := agree_le_length cs chain
    rw [List.drop_eq_getElem_cons hlt, if_pos (intercalate_ne_nil hc), takeWhile_intercalate hc,
      cInt_eq (by omega) (by omega), nodeNameMatch_spec hs hc.noNull prefix_intercalate (by omega),
      List.getElem?_eq_getElem hlt]
    simp only [decide_eq_true_eq, Option.mem_def, Option.some.injEq, exists_eq_left']
    split_ifs
    · rw [cInt_eq (by omega) (by omega), Nat.cast_add_one]
    · rfl
  · rw [List.drop_eq_nil_of_le (by omega), if_neg (by simp), List.getElem?_eq_none (by omega)]
    simp

end Counter

/-! ### The walk -/

section Walk
variable {m : Mem} {path : List Byte} {blk strings p : Word} {n nameoff : ℕ} {depth matched : ℤ}
  {name value : List Byte} {body rest : Items} {cs chain : List (List Byte)}

theorem pathLoop_nop (h : AtNop m p rest) :
    pathLoop m path blk (n + 1) p depth matched = pathLoop m path blk n (p + 4) depth matched := by
  rw [pathLoop, h.token, if_neg (by decide), if_neg (by decide), if_neg (by decide), if_pos rfl]

theorem pathLoop_prop (h : AtProp m p nameoff value rest) :
    pathLoop m path blk (n + 1) p depth matched =
      pathLoop m path blk n (p + BitVec.ofNat 64 (Items.propSize value)) depth matched := by
  rw [pathLoop, h.token, if_neg (by decide), if_neg (by decide), if_pos rfl]
  dsimp only
  rw [h.len, h.next]

theorem pathLoop_endNode (h : fdt32 m p = endNode) :
    pathLoop m path blk (n + 1) p depth matched =
      pathLoop m path blk n (p + 4) (cInt (depth - 1)) (leaveNode (cInt (depth - 1)) matched) := by
  rw [pathLoop, h, if_neg (by decide), if_pos rfl]

theorem pathLoop_end (h : fdt32 m p = endToken) :
    pathLoop m path blk (n + 1) p depth matched = some (-1) := by
  rw [pathLoop, h, if_neg (by decide), if_neg (by decide), if_neg (by decide), if_neg (by decide),
    if_pos rfl]

theorem pathLoop_node (h : AtNode m p name body rest) (hcs : ∀ c ∈ cs, Component c)
    (hlen : (pathOf cs).length < 2 ^ 31) :
    pathLoop m (pathOf cs) blk (n + 1) p depth matched =
      if enterNode m (p + 4) (pathOf cs) depth matched = cs.length then
        some ((p - blk).setWidth 32).toInt
      else
        pathLoop m (pathOf cs) blk n (p + BitVec.ofNat 64 (Items.headSize name)) (cInt (depth + 1))
          (enterNode m (p + 4) (pathOf cs) depth matched) := by
  have hhead : (pathOf cs).head? = some slash := rfl
  have htail : (pathOf cs).tail = List.intercalate [slash] cs := rfl
  rw [pathLoop, h.token, if_pos rfl]
  dsimp only
  rw [h.len]
  dsimp only
  rw [h.next, htail, countComponents_spec hcs (components_lt hcs hlen).1]
  simp only [hhead, true_and]

/-- What `fdt_path_offset` returns for a node at the offset `off`. -/
def asInt (off : ℕ) : ℤ := (BitVec.ofNat 32 off).toInt

theorem asInt_eq {o : ℕ} (hp : p = blk + BitVec.ofNat 64 o) :
    ((p - blk).setWidth 32).toInt = asInt o := by
  rw [asInt, hp]
  congr 1
  apply BitVec.eq_of_toNat_eq
  bv_omega

/-- **The walk through a list of items** finds the first node that the path leads to, or goes on
behind them as it came. -/
theorem pathLoop_items (hcs : ∀ c ∈ cs, Component c) (hlen : (pathOf cs).length < 2 ^ 31) :
    ∀ (t : Items) {chain : List (List Byte)} {p : Word} {o n : ℕ}, p.toNat % 4 = 0 →
    t.Ok m strings → 8 * (chain.length + 1) ≤ o ∧ o + t.size < 2 ^ 32 →
    Placed m p t.bytes → p = blk + BitVec.ofNat 64 o → agree cs chain < cs.length →
    pathLoop m (pathOf cs) blk (n + t.count) p (chain.length + 1) (agree cs chain) =
      match (t.nodes o chain).find? fun x => Resolves cs x.chain with
      | some x => some (asInt x.off)
      | none =>
        pathLoop m (pathOf cs) blk n (p + BitVec.ofNat 64 t.size) (chain.length + 1) (agree cs chain)
  | .nil, chain, p, o, n, _, _, _, _, _, _ => by
    simp [Items.nodes, Items.count, Items.size]
  | .nop rest, chain, p, o, n, hp, hok, hsize, h, hoff, hlt => by
    have hat := atNop h
    have hp' : (p + 4).toNat % 4 = 0 := aligned_add hp (k := 4) rfl
    rw [Items.count, ← Nat.add_assoc, pathLoop_nop hat,
      pathLoop_items hcs hlen rest hp' hok (by rw [Items.size] at hsize; omega) hat.rest
        (offset_add hoff 4) hlt, end_nop]
    rfl
  | .prop name nameoff value rest, chain, p, o, n, hp, hok, hsize, h, hoff, hlt => by
    have hat := atProp hp hok.1.1 hok.1.2.1 h
    have hp' := aligned_add hp (Items.propSize_mod value)
    rw [Items.count, ← Nat.add_assoc, pathLoop_prop hat,
      pathLoop_items hcs hlen rest hp' hok.2 (by rw [Items.size] at hsize; omega) hat.rest
        (offset_add hoff _) hlt, end_prop p name nameoff]
    rfl
  | .node name body rest, chain, p, o, n, hp, hok, hsize, h, hoff, hlt => by
    have hhead := Items.headSize_ge name
    rw [Items.size] at hsize
    have hat := atNode hp hok.1 (Items.length_name_lt (by omega)) h
    obtain ⟨hp1, hp3⟩ := aligned_node hp name body
    have hround : n + (Items.node name body rest).count = n + rest.count + 1 + body.count + 1 := by
      rw [Items.count]
      omega
    have hchain : (chain ++ [name]).length = chain.length + 1 := by simp
    have hdown : cInt ((chain.length : ℤ) + 1 + 1) = ((chain ++ [name]).length : ℤ) + 1 := by
      rw [cInt_eq (by omega) (by omega), hchain, Nat.cast_add_one]
    rw [hround, pathLoop_node hat hcs hlen, enterNode_agree hat.reads hcs hlen (by omega),
      Items.nodes, List.find?_cons, asInt_eq hoff]
    simp only [Nat.cast_inj]
    by_cases hres : Resolves cs (chain ++ [name])
    · rw [if_pos ((resolves_concat hlt).1 hres), decide_eq_true hres]
    · have hne := mt (resolves_concat hlt).2 hres
      have hlt' : agree cs (chain ++ [name]) < cs.length := by
        refine lt_of_le_of_ne ?_ hne
        rw [agree_concat]
        split_ifs <;> omega
      rw [if_neg hne, decide_eq_false hres, hdown,
        pathLoop_items hcs hlen body hp1 hok.2.1 (by omega) hat.inner
          (offset_add hoff _) hlt', List.find?_append]
      cases hfind : (body.nodes (o + Items.headSize name) (chain ++ [name])).find?
          fun x => Resolves cs x.chain with
      | some x => rfl
      | none =>
        have hup : cInt (((chain ++ [name]).length : ℤ) + 1 - 1) = (chain.length : ℤ) + 1 := by
          rw [cInt_eq (by omega) (by omega), hchain]
          omega
        dsimp only
        rw [pathLoop_endNode hat.ends, hup, leaveNode_agree (by omega),
          pathLoop_items hcs hlen rest hp3 hok.2.2 (by omega) hat.rest (offset_node hoff _ _) hlt,
          end_node]
        rfl

theorem pathLoop_nops {t : Items} : ∀ {k : ℕ} {p : Word} {n : ℕ}, Placed m p (Items.nops k t).bytes →
    pathLoop m path blk (n + k) p depth matched =
      pathLoop m path blk n (p + BitVec.ofNat 64 (4 * k)) depth matched
  | 0, p, n, _ => by simp
  | k + 1, p, n, h => by
    have hat := atNop h
    have hsum : p + 4 + BitVec.ofNat 64 (4 * k) = p + BitVec.ofNat 64 (4 * (k + 1)) := by
      rw [Nat.mul_succ, Nat.add_comm, BitVec.ofNat_add, ← BitVec.add_assoc]
      rfl
    rw [← Nat.add_assoc, pathLoop_nop hat, pathLoop_nops hat.rest, hsum]

/-- The walk through a tree finds the first node that the path leads to. -/
theorem pathLoop_tree {d : DeviceTree} (ht : AtTree m blk strings d) (hcs : ∀ c ∈ cs, Component c)
    (hlen : (pathOf cs).length < 2 ^ 31) :
    pathLoop m (pathOf cs) blk (2 ^ 64) blk 0 0 =
      some (match d.nodes.find? fun x => Resolves cs x.chain with
        | some x => asInt x.off
        | none => -1) := by
  have hsize := ht.size
  have hcount := d.body.count_le_size
  obtain ⟨n, hn⟩ : ∃ n, 2 ^ 64 = n + 1 + d.after + 1 + d.body.count + 1 + d.before :=
    ⟨2 ^ 64 - (d.before + d.body.count + d.after + 3), by omega⟩
  have hroot : enterNode m (blk + BitVec.ofNat 64 (4 * d.before) + 4) (pathOf cs) 0 0 =
      (0 : ℕ) := rfl
  have hbefore : Placed m blk
      (Items.nops d.before (.node d.name d.body (.nops d.after .nil))).bytes := ht.before
  rw [hn, pathLoop_nops hbefore, pathLoop_node ht.root hcs hlen, hroot, DeviceTree.nodes, List.find?_cons]
  simp only [Nat.cast_inj]
  by_cases hz : 0 = cs.length
  · have hres : Resolves cs d.root.chain := by
      rw [List.eq_nil_of_length_eq_zero hz.symm]
      exact .nil
    rw [if_pos hz, decide_eq_true hres, asInt_eq rfl]
    rfl
  · have hres : ¬ Resolves cs d.root.chain := fun hr => hz ((resolves_iff.1 hr).2.symm ▸ rfl)
    have hhead := Items.headSize_ge d.name
    have hagree : agree cs [] < cs.length := by
      rw [agree_nil]
      omega
    have hwalk := pathLoop_items hcs hlen d.body (n := n + 1 + d.after + 1) ht.aligned ht.ok
      (by rw [List.length_nil]; omega) ht.root.inner (o := 4 * d.before + Items.headSize d.name)
      (by rw [BitVec.ofNat_add, BitVec.add_assoc]) hagree
    have hone : cInt (0 + 1) = 1 := rfl
    rw [if_neg hz, decide_eq_false hres, hone]
    rw [agree_nil, List.length_nil, Nat.cast_zero, zero_add] at hwalk
    rw [Nat.cast_zero]
    dsimp only
    rw [hwalk]
    cases hfind : (d.body.nodes (4 * d.before + Items.headSize d.name) []).find?
        fun x => Resolves cs x.chain with
    | some x => rfl
    | none =>
      -- the end of the root and what stands behind it
      dsimp only
      rw [pathLoop_endNode ht.root.ends, pathLoop_nops ht.root.rest, pathLoop_end ht.ends]

/-- **A path leads to the first node that it names**, in document order, and to none if there is
none. -/
theorem path_offset {fdt : Word} {d : DeviceTree} (h : Encodes m fdt d) (hcs : ∀ c ∈ cs, Component c)
    (hlen : (pathOf cs).length < 2 ^ 31) :
    fdtPathOffset m fdt (pathOf cs) =
      some (match d.nodes.find? fun x => Resolves cs x.chain with
        | some x => asInt x.off
        | none => -1) := by
  rw [fdtPathOffset, if_neg (not_not.2 h.magic), pathLoop_tree h.atTree hcs hlen]

theorem asInt_iff {o : ℕ} (ho : o < 2 ^ 32) : asInt o = o ↔ o < 2 ^ 31 := by
  rw [asInt, BitVec.toInt_eq_toNat_cond, BitVec.toNat_ofNat, Nat.mod_eq_of_lt ho]
  split_ifs <;> omega

/-- **`fdt_path_offset` returns the offset of the first node that the path names**, in document
order, if an `int` holds it, and -1 if the path names none. -/
theorem pathOffset_first {fdt : Word} {d : DeviceTree} (h : Encodes m fdt d) (hcs : ∀ c ∈ cs, Component c)
    (hlen : (pathOf cs).length < 2 ^ 31) :
    (∀ x, (d.nodes.find? fun x => Resolves cs x.chain) = some x →
      (fdtPathOffset m fdt (pathOf cs) = some (x.off : ℤ) ↔ x.off < 2 ^ 31)) ∧
    ((d.nodes.find? fun x => Resolves cs x.chain) = none →
      fdtPathOffset m fdt (pathOf cs) = some (-1)) := by
  rw [path_offset h hcs hlen]
  refine ⟨fun x hx => ?_, fun hx => by rw [hx]⟩
  have hsize := (h.nodeAt (List.mem_of_find?_eq_some hx)).2
  rw [hx, Option.some.injEq]
  exact asInt_iff (by omega)

theorem component_soc : ∀ c ∈ [ascii "soc"], Component c := fun c hc => by
  rw [List.mem_singleton.1 hc]
  exact ⟨by decide, by decide, by decide⟩

theorem pathOffset_first_sample : fdtPathOffset treeMem 4096 (pathOf [ascii "soc"]) = some 12 := by
  have hfind : (sampleTree.nodes.find? fun x => Resolves [ascii "soc"] x.chain) =
      some ⟨12, [ascii "soc@0"], ascii "soc@0",
        .nop (.prop (ascii "reg") 0 [1, 2, 3, 4, 5, 6, 7, 8] .nil)⟩ := rfl
  exact ((pathOffset_first encodes_sampleTree component_soc (by decide)).1 _ hfind).2 (by decide)

/-! ### A large tree -/

/-- A tree with a property of `k` bytes in front of a node. -/
def largeTree (k : ℕ) : DeviceTree :=
  ⟨0, [], .prop (ascii "reg") 0 (List.replicate k 0) (.node (ascii "soc") .nil .nil), 0⟩

/-- The node behind the property. -/
def largeNode (k : ℕ) : Node := ⟨20 + roundUp k, [ascii "soc"], ascii "soc", .nil⟩

theorem size_largeTree (k : ℕ) : (largeTree k).structBlock.length = 40 + roundUp k := by
  rw [DeviceTree.structBlock, List.length_append, Items.length_bytes, length_token, DeviceTree.items, Items.size_nops,
    Items.size, Items.size_nops]
  simp only [largeTree, Items.size, Items.propSize, List.length_replicate]
  have h0 : Items.headSize [] = 8 := rfl
  have hsoc : Items.headSize (ascii "soc") = 8 := rfl
  omega

theorem encodes_largeTree {k : ℕ} (hk : k < 2 ^ 32 - 2 ^ 10) :
    Encodes ((largeTree k).mem (ascii "reg" ++ [0])) 4096 (largeTree k) := by
  have hround : roundUp k < k + 4 := by
    unfold roundUp
    omega
  have hsize : 40 + (largeTree k).structBlock.length + (ascii "reg" ++ [0]).length < 2 ^ 32 := by
    have hname : (ascii "reg" ++ [0]).length = 4 := rfl
    rw [size_largeTree]
    omega
  have hreads := DeviceTree.reads_mem [] (ascii "reg") [] hsize (by simp) (by decide)
  have hlen : (List.replicate k (0 : Byte)).length < 2 ^ 32 := by
    rw [List.length_replicate]
    omega
  exact DeviceTree.encodes_mem hsize ⟨List.not_mem_nil, ⟨⟨by decide, hlen, hreads⟩, by decide, trivial,
    trivial⟩, trivial⟩

theorem find_largeNode (k : ℕ) :
    ((largeTree k).nodes.find? fun x => Resolves [ascii "soc"] x.chain) = some (largeNode k) := by
  have hoff : 4 * 0 + Items.headSize [] + Items.propSize (List.replicate k 0) = 20 + roundUp k := by
    have h0 : Items.headSize [] = 8 := rfl
    rw [h0, Items.propSize, List.length_replicate]
    omega
  have hnodes : (largeTree k).nodes = [(largeTree k).root, largeNode k] := by
    simp only [DeviceTree.nodes, largeTree, largeNode, Items.nodes, hoff, List.nil_append]
  have hroot : ¬ Resolves [ascii "soc"] (largeTree k).root.chain := by
    rintro ⟨⟩
  have hnode : Resolves [ascii "soc"] (largeNode k).chain := by
    show Resolves [ascii "soc"] [ascii "soc"]
    decide
  rw [hnodes, List.find?_cons_of_neg (by simpa using hroot),
    List.find?_cons_of_pos (by simpa using hnode)]

/-- **A node behind two gigabytes of properties**: its offset is not what is returned. -/
theorem not_first_large :
    Encodes ((largeTree (2 ^ 31)).mem (ascii "reg" ++ [0])) 4096 (largeTree (2 ^ 31)) ∧
    (∀ c ∈ [ascii "soc"], Component c) ∧
    ((largeTree (2 ^ 31)).nodes.find? fun x => Resolves [ascii "soc"] x.chain) =
      some (largeNode (2 ^ 31)) ∧
    fdtPathOffset ((largeTree (2 ^ 31)).mem (ascii "reg" ++ [0])) 4096 (pathOf [ascii "soc"]) ≠
      some ((largeNode (2 ^ 31)).off : ℤ) := by
  have h := encodes_largeTree (k := 2 ^ 31) (by decide)
  have hfind := find_largeNode (2 ^ 31)
  refine ⟨h, component_soc, hfind, ?_⟩
  have hoff : ¬ (largeNode (2 ^ 31)).off < 2 ^ 31 := by decide
  rw [path_offset h component_soc (by decide), hfind]
  exact fun he => hoff ((asInt_iff (by decide)).1 (Option.some.inj he))

end Walk

end OscKernel.Fdt.Path
