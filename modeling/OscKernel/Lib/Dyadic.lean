import Mathlib.Algebra.Order.Group.Nat
import Mathlib.Data.Nat.Bitwise
import Mathlib.Data.Set.Insert
import Mathlib.Tactic.Ring

/-! # Dyadic blocks

A block of order `k` is the run of `2 ^ k` frames from its index on; it is aligned if `2 ^ k` divides
the index. Two aligned blocks are nested or disjoint. The buddy of a block is the other half of the
block of the next order that it lies in, its parent.

* `Tiling max B`: the blocks of `B` are aligned, of order at most `max`, and disjoint.
* `Tiling.insert`, `Tiling.erase`: a block is put in or taken out.
* `mem_iff_maximal`: a tiling without buddies consists of the maximal blocks of its region, so the
  region determines it. -/

namespace OscKernel.Lib.Dyadic

/-- The run of `2 ^ order` frames from `index` on. -/
@[ext]
structure Block where
  index : ℕ
  order : ℕ
  deriving DecidableEq, Repr

namespace Block

/-- The block has the frame. -/
def Covers (b : Block) (f : ℕ) : Prop := b.index ≤ f ∧ f < b.index + 2 ^ b.order

instance (b : Block) (f : ℕ) : Decidable (b.Covers f) := by unfold Covers; infer_instance

/-- The index is a multiple of the size. -/
def Aligned (b : Block) : Prop := 2 ^ b.order ∣ b.index

instance (b : Block) : Decidable b.Aligned := by unfold Aligned; infer_instance

/-- The other half of the parent. -/
def buddy (b : Block) : Block := ⟨b.index ^^^ 2 ^ b.order, b.order⟩

/-- The block of the next order from the lower of the two halves on. -/
def parent (b : Block) : Block := ⟨min b.index b.buddy.index, b.order + 1⟩

theorem covers_index (b : Block) : b.Covers b.index :=
  ⟨le_rfl, Nat.lt_add_of_pos_right (Nat.two_pow_pos _)⟩

theorem covers_zero {i f : ℕ} : (⟨i, 0⟩ : Block).Covers f ↔ f = i := by
  simp only [Covers, pow_zero]
  omega

theorem order_le_of_subset {a b : Block} (h : ∀ f, a.Covers f → b.Covers f) : a.order ≤ b.order := by
  by_contra hlt
  have hpos := Nat.two_pow_pos a.order
  have h1 := h (a.index + 2 ^ a.order - 1) ⟨by omega, by omega⟩
  have h2 := Nat.pow_lt_pow_right (show 1 < 2 by decide) (not_le.1 hlt)
  have h3 := (h a.index a.covers_index).1
  have h4 := h1.2
  omega

section Nested
variable {a b c : Block} {f g : ℕ}

/-- The frames of an aligned block are those with the same quotient. -/
theorem Aligned.covers_iff (h : b.Aligned) :
    b.Covers f ↔ f / 2 ^ b.order = b.index / 2 ^ b.order := by
  obtain ⟨q, hq⟩ := h
  have hpos := Nat.two_pow_pos b.order
  rw [Covers, hq, Nat.mul_div_cancel_left _ hpos, Nat.div_eq_iff hpos]
  generalize 2 ^ b.order = n at *
  constructor
  · rintro ⟨h1, h2⟩
    refine ⟨?_, ?_⟩
    · rwa [Nat.mul_comm]
    · rw [Nat.mul_comm]
      omega
  · rintro ⟨h1, h2⟩
    rw [Nat.mul_comm] at h1 h2
    omega

/-- **Two aligned blocks with a common frame are nested.** -/
theorem Aligned.nested (ha : a.Aligned) (hb : b.Aligned) (hle : a.order ≤ b.order)
    (hfa : a.Covers f) (hfb : b.Covers f) (hg : a.Covers g) : b.Covers g := by
  obtain ⟨d, hd⟩ := Nat.exists_eq_add_of_le hle
  rw [ha.covers_iff] at hfa hg
  rw [hb.covers_iff] at hfb ⊢
  rw [← hfb, hd, Nat.pow_add, ← Nat.div_div_eq_div_mul, ← Nat.div_div_eq_div_mul, hfa, hg]

theorem Aligned.eq (ha : a.Aligned) (hb : b.Aligned) (ho : a.order = b.order) (hfa : a.Covers f)
    (hfb : b.Covers f) : a = b := by
  have h1 := ha.nested hb ho.le hfa hfb a.covers_index
  have h2 := hb.nested ha ho.ge hfb hfa b.covers_index
  exact Block.ext (le_antisymm h2.1 h1.1) ho

theorem Aligned.buddy_cases (h : b.Aligned) :
    (2 ^ (b.order + 1) ∣ b.index ∧ b.buddy = ⟨b.index + 2 ^ b.order, b.order⟩) ∨
      ∃ j, 2 ^ (b.order + 1) ∣ j ∧ b.index = j + 2 ^ b.order ∧ b.buddy = ⟨j, b.order⟩ := by
  obtain ⟨q, hq⟩ := h
  have hx : b.index ^^^ 2 ^ b.order = 2 ^ b.order * (q ^^^ 1) := by
    have h1 : b.index = q <<< b.order := by rw [hq, Nat.shiftLeft_eq, Nat.mul_comm]
    have h2 : 2 ^ b.order = 1 <<< b.order := by rw [Nat.shiftLeft_eq, Nat.one_mul]
    rw [h1, h2, ← Nat.shiftLeft_xor_distrib, Nat.shiftLeft_eq, Nat.mul_comm, ← h2]
  rcases Nat.even_or_odd q with he | ho
  · refine .inl ⟨?_, ?_⟩
    · obtain ⟨r, hr⟩ := he
      exact ⟨r, by rw [hq, hr, Nat.pow_succ]; ring⟩
    · rw [buddy, hx, Nat.xor_one_of_even he, Nat.mul_add, Nat.mul_one, ← hq]
  · obtain ⟨r, hr⟩ := ho
    refine .inr ⟨2 ^ b.order * (2 * r), ⟨r, by rw [Nat.pow_succ]; ring⟩, ?_, ?_⟩
    · rw [hq, hr]
      ring
    · rw [buddy, hx, Nat.xor_one_of_odd ⟨r, hr⟩, hr, Nat.add_sub_cancel]

theorem Aligned.buddy (h : b.Aligned) : b.buddy.Aligned := by
  have hd : ∀ {j}, 2 ^ (b.order + 1) ∣ j → 2 ^ b.order ∣ j := fun hj =>
    (Nat.pow_dvd_pow 2 (Nat.le_succ _)).trans hj
  rcases h.buddy_cases with ⟨h1, h2⟩ | ⟨j, h1, -, h2⟩ <;> rw [h2]
  · exact (Nat.dvd_add_right (hd h1)).2 dvd_rfl
  · exact hd h1

@[simp] theorem buddy_buddy (b : Block) : b.buddy.buddy = b := by
  rw [Block.buddy, Block.buddy, Nat.xor_assoc, Nat.xor_self, Nat.xor_zero]

theorem Aligned.parent (h : b.Aligned) : b.parent.Aligned := by
  rcases h.buddy_cases with ⟨h1, h2⟩ | ⟨j, h1, h3, h2⟩ <;> rw [Aligned, Block.parent, h2]
  · rw [min_eq_left (by dsimp only; omega)]
    exact h1
  · rw [min_eq_right (by dsimp only; omega)]
    exact h1

/-- **The parent is the block and its buddy.** -/
theorem Aligned.parent_covers (h : b.Aligned) :
    b.parent.Covers f ↔ b.Covers f ∨ b.buddy.Covers f := by
  have hp : 2 ^ (b.order + 1) = 2 ^ b.order + 2 ^ b.order := by rw [Nat.pow_succ]; omega
  rcases h.buddy_cases with ⟨-, h2⟩ | ⟨j, -, h3, h2⟩ <;>
    simp only [Covers, Block.parent, h2, hp] <;> generalize 2 ^ b.order = n at *
  · rw [min_eq_left (by omega)]
    omega
  · rw [min_eq_right (by omega)]
    omega

theorem Aligned.not_covers_buddy (h : b.Aligned) (hf : b.Covers f) : ¬ b.buddy.Covers f := by
  have hpos := Nat.two_pow_pos b.order
  rcases h.buddy_cases with ⟨-, h2⟩ | ⟨j, -, h3, h2⟩ <;> rw [h2] <;>
    simp only [Covers] at hf ⊢ <;> omega

theorem Aligned.halves {i k : ℕ} (h : (⟨i, k + 1⟩ : Block).Aligned) :
    (⟨i, k⟩ : Block).Aligned ∧ (⟨i, k⟩ : Block).buddy = ⟨i + 2 ^ k, k⟩ ∧
      (⟨i, k⟩ : Block).parent = ⟨i, k + 1⟩ := by
  have hal : (⟨i, k⟩ : Block).Aligned := (Nat.pow_dvd_pow 2 (Nat.le_succ k)).trans h
  have hpos := Nat.two_pow_pos k
  rcases hal.buddy_cases with ⟨-, h2⟩ | ⟨j, h1, h3, -⟩
  · refine ⟨hal, h2, ?_⟩
    rw [Block.parent, h2, min_eq_left (by dsimp only; omega)]
  · -- the index would be an odd multiple of the size
    dsimp only at h1 h3
    have h4 : 2 ^ (k + 1) ∣ 2 ^ k := (Nat.dvd_add_right h1).1 (h3 ▸ h)
    have h5 := Nat.le_of_dvd hpos h4
    rw [Nat.pow_succ] at h5
    omega

end Nested

end Block

/-! ### Tilings -/

/-- The frames of the blocks. -/
def region (B : Set Block) : Set ℕ := {f | ∃ b ∈ B, b.Covers f}

/-- Disjoint aligned blocks of order at most `max`. -/
structure Tiling (max : ℕ) (B : Set Block) : Prop where
  aligned : ∀ b ∈ B, b.Aligned
  order_le : ∀ b ∈ B, b.order ≤ max
  disjoint : ∀ a ∈ B, ∀ b ∈ B, ∀ f, a.Covers f → b.Covers f → a = b

/-- No block below the greatest order is there together with its buddy. -/
def NoBuddies (max : ℕ) (B : Set Block) : Prop := ∀ b ∈ B, b.order < max → b.buddy ∉ B

/-- An aligned block of order at most `max` within the frames that no other such block includes. -/
def Maximal (max : ℕ) (F : Set ℕ) (b : Block) : Prop :=
  b.Aligned ∧ b.order ≤ max ∧ (∀ f, b.Covers f → f ∈ F) ∧
    ∀ c : Block, c.Aligned → c.order ≤ max → (∀ f, c.Covers f → f ∈ F) →
      (∀ f, b.Covers f → c.Covers f) → c = b

section Tiling
variable {max : ℕ} {B : Set Block} {b c : Block} {f : ℕ}

theorem mem_region_insert : f ∈ region (insert b B) ↔ b.Covers f ∨ f ∈ region B := by
  simp [region]

theorem Tiling.mem_region_erase (h : Tiling max B) (hb : b ∈ B) :
    f ∈ region (B \ {b}) ↔ f ∈ region B ∧ ¬ b.Covers f := by
  constructor
  · rintro ⟨a, ⟨ha, hne⟩, hf⟩
    exact ⟨⟨a, ha, hf⟩, fun hbf => hne (h.disjoint a ha b hb f hf hbf)⟩
  · rintro ⟨⟨a, ha, hf⟩, hn⟩
    refine ⟨a, ⟨ha, fun he => hn ?_⟩, hf⟩
    rw [Set.mem_singleton_iff] at he
    exact he ▸ hf

theorem Tiling.erase (h : Tiling max B) (b : Block) : Tiling max (B \ {b}) :=
  ⟨fun a ha => h.aligned a ha.1, fun a ha => h.order_le a ha.1,
    fun a ha c hc => h.disjoint a ha.1 c hc.1⟩

theorem Tiling.insert (h : Tiling max B) (ha : b.Aligned) (ho : b.order ≤ max)
    (hd : ∀ f, b.Covers f → f ∉ region B) : Tiling max (insert b B) := by
  refine ⟨?_, ?_, ?_⟩
  · rintro a (rfl | hm)
    · exact ha
    · exact h.aligned a hm
  · rintro a (rfl | hm)
    · exact ho
    · exact h.order_le a hm
  · rintro a (rfl | hm) c (rfl | hm') f hf hf'
    · rfl
    · exact absurd ⟨c, hm', hf'⟩ (hd f hf)
    · exact absurd ⟨a, hm, hf⟩ (hd f hf')
    · exact h.disjoint a hm c hm' f hf hf'

theorem tiling_empty : Tiling max ∅ :=
  ⟨fun _ h => h.elim, fun _ h => h.elim, fun _ h => h.elim⟩

theorem NoBuddies.mono {B' : Set Block} (h : NoBuddies max B) (hs : B' ⊆ B) : NoBuddies max B' :=
  fun b hb hlt hm => h b (hs hb) hlt (hs hm)

theorem NoBuddies.insert (h : NoBuddies max B) (ha : b.Aligned) (hb : b.order < max → b.buddy ∉ B) :
    NoBuddies max (insert b B) := by
  rintro c (rfl | hc) hlt (hm | hm)
  · refine ha.not_covers_buddy c.covers_index ?_
    rw [hm]
    exact c.covers_index
  · exact hb hlt hm
  · refine hb ?_ ?_
    · rw [← hm]
      exact hlt
    · rw [← hm, Block.buddy_buddy]
      exact hc
  · exact h c hc hlt hm

/-- **Every aligned block of free frames lies in one block** of a tiling without buddies. -/
theorem Tiling.exists_of_subset (h : Tiling max B) (hn : NoBuddies max B) :
    ∀ {c : Block}, c.Aligned → c.order ≤ max → (∀ f, c.Covers f → f ∈ region B) →
      ∃ b ∈ B, ∀ f, c.Covers f → b.Covers f := by
  rintro ⟨i, k⟩ ha ho hs
  induction k generalizing i with
  | zero =>
    obtain ⟨b, hb, hf⟩ := hs i (Block.covers_index ⟨i, 0⟩)
    refine ⟨b, hb, fun f hfc => ?_⟩
    obtain rfl := Block.covers_zero.1 hfc
    exact hf
  | succ k ih =>
    obtain ⟨hl, hbud, hpar⟩ := ha.halves
    have hcov : ∀ f, (⟨i, k + 1⟩ : Block).Covers f ↔
        (⟨i, k⟩ : Block).Covers f ∨ (⟨i + 2 ^ k, k⟩ : Block).Covers f := by
      intro f
      rw [← hpar, hl.parent_covers, hbud]
    have hr : (⟨i + 2 ^ k, k⟩ : Block).Aligned := hbud ▸ hl.buddy
    have hk : k + 1 ≤ max := ho
    obtain ⟨b1, hb1, hs1⟩ := ih i hl (by dsimp only; omega) fun f hf => hs f ((hcov f).2 (.inl hf))
    obtain ⟨b2, hb2, hs2⟩ := ih (i + 2 ^ k) hr (by dsimp only; omega) fun f hf =>
      hs f ((hcov f).2 (.inr hf))
    -- a block that includes one half either includes the whole, or is that half
    have hbig : ∀ {a b : Block}, b ∈ B → a.Aligned → a.order = k →
        (⟨i, k + 1⟩ : Block).Covers a.index → (∀ f, a.Covers f → b.Covers f) →
        (∀ f, (⟨i, k + 1⟩ : Block).Covers f → b.Covers f) ∨ a = b := by
      intro a b hb haa hao hac hab
      have hcb := hab a.index a.covers_index
      rcases Nat.lt_or_ge k b.order with hlt | hge
      · exact .inl fun f hf => ha.nested (h.aligned b hb) hlt hac hcb hf
      · have hle := Block.order_le_of_subset hab
        exact .inr (haa.eq (h.aligned b hb) (by omega) a.covers_index hcb)
    have hpos := Nat.two_pow_pos k
    rcases hbig hb1 hl rfl ((hcov _).2 (.inl (Block.covers_index _))) hs1 with hw | rfl
    · exact ⟨b1, hb1, hw⟩
    · rcases hbig hb2 hr rfl ((hcov _).2 (.inr (Block.covers_index _))) hs2 with hw | rfl
      · exact ⟨b2, hb2, hw⟩
      · -- both halves are there
        rw [← hbud] at hb2
        exact absurd hb2 (hn _ hb1 (by dsimp only; omega))

/-- **The blocks of a tiling without buddies are the maximal blocks** of its region. -/
theorem Tiling.mem_iff_maximal (h : Tiling max B) (hn : NoBuddies max B) :
    b ∈ B ↔ Maximal max (region B) b := by
  constructor
  · intro hb
    refine ⟨h.aligned b hb, h.order_le b hb, fun f hf => ⟨b, hb, hf⟩, fun c hca hco hcs hbc => ?_⟩
    obtain ⟨a, ha, hs⟩ := h.exists_of_subset hn hca hco hcs
    have hf := b.covers_index
    obtain rfl := h.disjoint a ha b hb _ (hs _ (hbc _ hf)) hf
    have hle := Block.order_le_of_subset hbc
    have hge := Block.order_le_of_subset hs
    exact hca.eq (h.aligned a ha) (le_antisymm hge hle) (hbc _ hf) hf
  · rintro ⟨hba, hbo, hbs, hmax⟩
    obtain ⟨a, ha, hs⟩ := h.exists_of_subset hn hba hbo hbs
    exact hmax a (h.aligned a ha) (h.order_le a ha) (fun f hf => ⟨a, ha, hf⟩) hs ▸ ha

/-- A maximal block stays maximal when other frames are taken away. -/
theorem Maximal.of_subset {F F' : Set ℕ} (h : Maximal max F b) (hs : ∀ f ∈ F', f ∈ F)
    (hb : ∀ f, b.Covers f → f ∈ F') : Maximal max F' b := by
  obtain ⟨ha, ho, -, hmax⟩ := h
  exact ⟨ha, ho, hb, fun c hca hco hcs => hmax c hca hco fun f hf => hs f (hcs f hf)⟩

/-- A block all of whose frames stay is a block of the tiling of what stays. -/
theorem Tiling.mem_of_subset {B' : Set Block} (h : Tiling max B) (hn : NoBuddies max B)
    (h' : Tiling max B') (hn' : NoBuddies max B') (hs : ∀ f ∈ region B', f ∈ region B)
    (hb : b ∈ B) (hc : ∀ f, b.Covers f → f ∈ region B') : b ∈ B' :=
  (h'.mem_iff_maximal hn').2 (((h.mem_iff_maximal hn).1 hb).of_subset hs hc)

theorem Tiling.eq_of_region {B' : Set Block} (h : Tiling max B) (hn : NoBuddies max B)
    (h' : Tiling max B') (hn' : NoBuddies max B') (hr : region B = region B') : B = B' := by
  ext b
  rw [h.mem_iff_maximal hn, h'.mem_iff_maximal hn', hr]

end Tiling

end OscKernel.Lib.Dyadic
