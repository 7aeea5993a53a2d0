/- Socrocket/MmuCache/SnoopRange
   digest: A snoop invalidates exactly the written range when its steps of four meet every line or
   word of the range and no other. -/

import Socrocket.MmuCache.PartialFetch

set_option autoImplicit false
set_option relaxedAutoImplicit false

namespace Socrocket.MmuCache

open Socrocket.Base.BitField
open Socrocket.Base.ByteMemory

namespace VectorCache

section Walk

variable {m p n last : ℕ}

/-- A word that is the last of its line of `m` words. -/
def LastInLine (m w : ℕ) : Prop := w % m + 1 = m

instance (m w : ℕ) : Decidable (LastInLine m w) := inferInstanceAs (Decidable (_ = _))

/-- The words of its line in the mask of an address in word `w`: that word, and the next one too when
the address is not the first of its word; none when the next one lies behind the line. -/
def Masked (m : ℕ) (aligned : Prop) (w k : ℕ) : Prop :=
  k = w % m ∧ (aligned ∨ ¬ LastInLine m w) ∨ k = w % m + 1 ∧ ¬ aligned ∧ ¬ LastInLine m w

theorem lines_visited_iff (some_word : 1 ≤ n) (near : p + n - 1 ≤ last ∧ last ≤ p + n) :
    (∀ y, p ≤ y → y ≤ last → ∃ j < n, (p + j) / m = y / m) ↔ last / m = (p + n - 1) / m := by
  constructor
  · intro visited
    obtain ⟨j, below, line⟩ := visited last (by omega) le_rfl
    have up : (p + j) / m ≤ (p + n - 1) / m := Nat.div_le_div_right (by omega)
    have down : (p + n - 1) / m ≤ last / m := Nat.div_le_div_right near.1
    omega
  · intro same y from_first to_last
    by_cases visited : y - p < n
    · exact ⟨y - p, visited, by rw [Nat.add_sub_cancel' from_first]⟩
    · refine ⟨n - 1, by omega, ?_⟩
      rw [show y = last by omega, same, show p + (n - 1) = p + n - 1 by omega]

/-- What the masks of `n` words from `p` on have, against the words up to `last`. -/
def MasksMatch (m : ℕ) (aligned : Prop) (p n last : ℕ) : Prop :=
  (∀ y, p ≤ y → y ≤ last → ∃ j < n, (p + j) / m = y / m ∧ Masked m aligned (p + j) (y % m)) ∧
    ∀ j < n, ∀ k, Masked m aligned (p + j) k → ∃ y, p ≤ y ∧ y ≤ last ∧ y / m = (p + j) / m ∧ y % m = k

theorem masksMatch_aligned {aligned : Prop} (whole : aligned) (near : last + 1 = p + n) :
    MasksMatch m aligned p n last := by
  constructor
  · intro y from_first to_last
    have here : p + (y - p) = y := Nat.add_sub_cancel' from_first
    exact ⟨y - p, by omega, by rw [here], .inl ⟨by rw [here], .inl whole⟩⟩
  · intro j below k mask
    rcases mask with ⟨rfl, -⟩ | ⟨-, odd, -⟩
    · exact ⟨p + j, by omega, by omega, rfl, rfl⟩
    · exact absurd whole odd

/-- From a byte inside a word on, the walk must not start in the last word of a line, and must end
in the word before `last`, or in `last` if that is the last word of its line. -/
theorem masksMatch_iff {aligned : Prop} (size : m = 4 ∨ m = 8) (odd : ¬ aligned) (some_word : 1 ≤ n)
    (near : p + n - 1 ≤ last ∧ last ≤ p + n) :
    MasksMatch m aligned p n last ↔
      ¬ LastInLine m p ∧ (last = p + n ↔ ¬ LastInLine m (p + n - 1)) := by
  simp only [MasksMatch, Masked, LastInLine, odd, not_false_eq_true, false_or, true_and]
  constructor
  · rintro ⟨visited, masked⟩
    refine ⟨?_, ?_, ?_⟩
    · obtain ⟨j, below, line, mask⟩ := visited p le_rfl (by omega)
      rcases size with rfl | rfl <;> omega
    · intro behind final
      obtain ⟨j, below, line, -⟩ := visited last (by omega) le_rfl
      rcases size with rfl | rfl <;> omega
    · intro inner
      obtain ⟨y, from_first, to_last, line, word⟩ := masked (n - 1) (by omega) _
        (.inr ⟨rfl, by rwa [show p + (n - 1) = p + n - 1 by omega]⟩)
      rcases size with rfl | rfl <;> omega
  · rintro ⟨start, stop⟩
    constructor
    · intro y from_first to_last
      by_cases final : y % m + 1 = m
      · -- the mask of the word before reaches this one
        have later : p < y := lt_of_le_of_ne from_first fun same => start (same ▸ final)
        refine ⟨y - p - 1, by omega, ?_⟩
        rw [show p + (y - p - 1) = y - 1 by omega]
        rcases size with rfl | rfl <;> omega
      · by_cases visited : y - p < n
        · refine ⟨y - p, visited, ?_⟩
          rw [Nat.add_sub_cancel' from_first]
          exact ⟨rfl, .inl ⟨rfl, final⟩⟩
        · have behind : y = p + n := by omega
          have inner : ¬(p + n - 1) % m + 1 = m := stop.mp (by omega)
          refine ⟨n - 1, by omega, ?_⟩
          rw [behind, show p + (n - 1) = p + n - 1 by omega]
          clear stop
          rcases size with rfl | rfl <;> omega
    · intro j below k mask
      rcases mask with ⟨rfl, -⟩ | ⟨rfl, inner⟩
      · exact ⟨p + j, by omega, by omega, rfl, rfl⟩
      · refine ⟨p + j + 1, by omega, ?_, ?_⟩ <;> rcases size with rfl | rfl <;> omega

end Walk

variable (cfg : Config)

/-- Bit `k` of the valid field of a line with index `i` and tag `tag` stands for bytes of the range
`[a, a + len)`. With line fetches the field stands for the whole line. -/
def Overlaps (a : BitVec 32) (len : ℕ) (i tag : BitVec 32) (k : ℕ) : Prop :=
  ∃ b, InRange a len b ∧ cfg.getIdx b = i ∧ cfg.getTag b = tag ∧
    (cfg.newLinefetchEn = false → (cfg.getOffset b).toNat / 4 = k)

/-- One of `n` steps of four from `a` on clears bit `k` of a line. -/
def Stepped (a : BitVec 32) (n : ℕ) (i tag : BitVec 32) (k : ℕ) : Prop :=
  ∃ j < n, cfg.getIdx (a + BitVec.ofNat 32 (4 * j)) = i ∧
    cfg.getTag (a + BitVec.ofNat 32 (4 * j)) = tag ∧
    (cfg.newLinefetchEn = false →
      (offset2valid cfg (cfg.getOffset (a + BitVec.ofNat 32 (4 * j))) 4).getLsbD k = true)

/-- The valid bits of the range are clear, every other valid bit is as before, and nothing else of
any line has changed. -/
structure SnoopExact (a : BitVec 32) (len : ℕ) (c c' : VectorCache) : Prop where
  cleared : ∀ i w k, w ≤ cfg.mSets → Overlaps cfg a len i (lookupLine cfg c i w).atag k →
    (lookupLine cfg c' i w).valid.getLsbD k = false
  kept : ∀ i w k, w ≤ cfg.mSets → ¬ Overlaps cfg a len i (lookupLine cfg c i w).atag k →
    (lookupLine cfg c' i w).valid.getLsbD k = (lookupLine cfg c i w).valid.getLsbD k
  rest : ∀ pos, ∃ valid, c'.cacheMem pos = { c.cacheMem pos with valid := valid }

/-- When a snoop invalidates exactly its range: the cache is not disabled, the loop ends, the last
line is visited, and a range that starts inside a word starts and ends at the right words. -/
structure SnoopFits (ccr : BitVec 32) (a len : ℕ) : Prop where
  enabled : checkMode cfg ccr &&& 0x3 ≠ 0
  ends : a + 4 * ((len + 3) / 4) < 2 ^ 32
  lines : cfg.newLinefetchEn = true →
    (a + len - 1) / cfg.mBytesperline = (a + 4 * ((len + 3) / 4 - 1)) / cfg.mBytesperline
  words : cfg.newLinefetchEn = false → a % 4 = 0 ∨
    ¬ LastInLine cfg.mWordsperline (a / 4) ∧
      ((a + len - 1) / 4 = a / 4 + (len + 3) / 4 ↔
        ¬ LastInLine cfg.mWordsperline (a / 4 + (len + 3) / 4 - 1))

variable {cfg} {c c' : VectorCache} {address a i : BitVec 32} {w k n len : ℕ}

theorem stepped_zero (tag : BitVec 32) : ¬ Stepped cfg a 0 i tag k := by
  rintro ⟨j, below, -⟩
  exact absurd below (Nat.not_lt_zero j)

theorem stepped_succ (tag : BitVec 32) :
    Stepped cfg a (n + 1) i tag k ↔ Stepped cfg a 1 i tag k ∨ Stepped cfg (a + 4) n i tag k := by
  unfold Stepped
  rw [Nat.exists_lt_succ_left]
  simp only [shift_step, Nat.lt_one_iff, exists_eq_left]

theorem stepped_one (tag : BitVec 32) :
    Stepped cfg a 1 i tag k ↔ i = cfg.getIdx a ∧ tag = cfg.getTag a ∧
      (cfg.newLinefetchEn = false →
        (offset2valid cfg (cfg.getOffset a) 4).getLsbD k = true) := by
  simp only [Stepped, Nat.lt_one_iff, exists_eq_left, first_step, eq_comm]

theorem atag_snoopWords (w : ℕ) :
    (lookupLine cfg (snoopWords cfg n c address) i w).atag = (lookupLine cfg c i w).atag := by
  induction n generalizing c address with
  | zero => rfl
  | succ n ih => rw [snoopWords, ih, atag_snoopWord]

theorem bit_snoopWords (hw : w ≤ cfg.mSets) :
    (lookupLine cfg (snoopWords cfg n c address) i w).valid.getLsbD k = true ↔
      (lookupLine cfg c i w).valid.getLsbD k = true ∧
        ¬ Stepped cfg address n i (lookupLine cfg c i w).atag k := by
  induction n generalizing c address with
  | zero => simp [snoopWords, stepped_zero]
  | succ n ih =>
    rw [snoopWords, ih, bit_snoopWord _ _ _ hw, atag_snoopWord, stepped_succ, stepped_one, not_or,
      and_assoc]

theorem masked_iff (v : BitVec 32) (k : ℕ) :
    (offset2valid cfg (cfg.getOffset v) 4).getLsbD k = true ↔
      Masked cfg.mWordsperline (v.toNat % 4 = 0) (v.toNat / 4) k := by
  have offset := cfg.getOffset_toNat v
  have four : (4 : BitVec 32).toNat = 4 := rfl
  have line : cfg.mBytesperline = cfg.mWordsperline * 4 := rfl
  have size := cfg.linesize_range
  change cfg.mWordsperline = 4 ∨ cfg.mWordsperline = 8 at size
  by_cases inside : (cfg.getOffset v).toNat + 4 ≤ cfg.mBytesperline
  · rw [getLsbD_offset2valid (by decide) (by rw [four]; exact inside), decide_eq_true_eq, offset, four]
    rw [offset] at inside
    unfold Masked LastInLine maskWords
    rcases size with h | h <;> rw [line, h] at inside ⊢ <;> split_ifs <;> omega
  · have sum : (cfg.getOffset v + 4).toNat = (cfg.getOffset v).toNat + 4 := by
      have := cfg.getOffset_lt v
      have := cfg.mBytesperline_le
      rw [BitVec.toNat_add, four, Nat.mod_eq_of_lt (by omega)]
    have behind : (4 : BitVec 32) = 0 ∨ cfg.getOffset v + 4 > BitVec.ofNat 32 cfg.mBytesperline := by
      right
      rw [gt_iff_lt, BitVec.lt_def, cfg.toNat_mBytesperline, sum]
      omega
    have clear : (0 : BitVec 32).getLsbD k = false := BitVec.getLsbD_zero
    rw [offset2valid, if_pos behind, clear]
    rw [offset] at inside
    unfold Masked LastInLine
    rcases size with h | h <;> rw [line, h] at inside <;> rw [h] <;>
      simp only [Bool.false_eq_true, false_iff] <;> omega

section Match

variable (some_byte : 1 ≤ len) (room : a.toNat + 4 * ((len + 3) / 4) < 2 ^ 32)

include room in
theorem step_toNat {j : ℕ} (below : j < (len + 3) / 4) :
    (a + BitVec.ofNat 32 (4 * j)).toNat = a.toNat + 4 * j := by
  rw [BitVec.toNat_add, BitVec.toNat_ofNat, Nat.mod_eq_of_lt (by omega), Nat.mod_eq_of_lt (by omega)]

include room in
theorem step_inRange {j : ℕ} (below : j < (len + 3) / 4) :
    InRange a len (a + BitVec.ofNat 32 (4 * j)) := by
  rw [InRange, distance_add _ (by omega)]
  omega

include room in
theorem inRange_words {b : BitVec 32} (range : InRange a len b) :
    a.toNat / 4 ≤ b.toNat / 4 ∧ b.toNat / 4 ≤ (a.toNat + len - 1) / 4 := by
  rw [inRange_iff_of_no_wrap (by omega)] at range
  omega

include some_byte room in
theorem byte_of_word {y : ℕ} (from_first : a.toNat / 4 ≤ y) (to_last : y ≤ (a.toNat + len - 1) / 4) :
    ∃ b, InRange a len b ∧ b.toNat / 4 = y := by
  have number : (BitVec.ofNat 32 (max a.toNat (4 * y))).toNat = max a.toNat (4 * y) := by
    rw [BitVec.toNat_ofNat, Nat.mod_eq_of_lt (by omega)]
  refine ⟨BitVec.ofNat 32 (max a.toNat (4 * y)), ?_, by omega⟩
  rw [inRange_iff_of_no_wrap (by omega), number]
  omega

theorem sameLine_iff_words {x y : BitVec 32} :
    cfg.getIdx x = cfg.getIdx y ∧ cfg.getTag x = cfg.getTag y ↔
      x.toNat / 4 / cfg.mWordsperline = y.toNat / 4 / cfg.mWordsperline := by
  have line : cfg.mBytesperline = 4 * cfg.mWordsperline := Nat.mul_comm ..
  rw [Nat.div_div_eq_div_mul, Nat.div_div_eq_div_mul, ← line, ← cfg.sameLine_iff, and_comm]
  rfl

theorem word_of_offset (x : BitVec 32) :
    (cfg.getOffset x).toNat / 4 = x.toNat / 4 % cfg.mWordsperline := by
  have line : cfg.mBytesperline = 4 * cfg.mWordsperline := Nat.mul_comm ..
  rw [cfg.getOffset_toNat, line, Nat.mod_mul_right_div_self]

include some_byte room

theorem stepped_lines_iff (linefetch : cfg.newLinefetchEn = true) :
    (∀ i tag k, k < 32 → (Overlaps cfg a len i tag k ↔ Stepped cfg a ((len + 3) / 4) i tag k)) ↔
      (a.toNat + len - 1) / cfg.mBytesperline =
        (a.toNat + 4 * ((len + 3) / 4 - 1)) / cfg.mBytesperline := by
  have line : cfg.mBytesperline = 4 * cfg.mWordsperline := Nat.mul_comm ..
  have finish : (a.toNat + 4 * ((len + 3) / 4 - 1)) / 4 = a.toNat / 4 + (len + 3) / 4 - 1 := by omega
  rw [line, ← Nat.div_div_eq_div_mul, ← Nat.div_div_eq_div_mul, finish,
    ← lines_visited_iff (by omega) (by omega)]
  simp only [Overlaps, Stepped, linefetch, Bool.true_eq_false, false_implies, and_true]
  constructor
  · intro same y from_first to_last
    obtain ⟨b, range, rfl⟩ := byte_of_word some_byte room from_first to_last
    obtain ⟨j, below, fields⟩ := (same (cfg.getIdx b) (cfg.getTag b) 0 (by omega)).mp
      ⟨b, range, rfl, rfl⟩
    have visited := sameLine_iff_words.mp fields
    rw [step_toNat room below, Nat.add_mul_div_left _ _ (by omega)] at visited
    exact ⟨j, below, visited⟩
  · intro visited i tag k _
    constructor
    · rintro ⟨b, range, rfl, rfl⟩
      have words := inRange_words room range
      obtain ⟨j, below, same⟩ := visited _ words.1 words.2
      refine ⟨j, below, sameLine_iff_words.mpr ?_⟩
      rw [step_toNat room below, Nat.add_mul_div_left _ _ (by omega)]
      exact same
    · rintro ⟨j, below, fields⟩
      exact ⟨_, step_inRange room below, fields⟩

theorem stepped_words_iff (partialLines : cfg.newLinefetchEn = false) :
    (∀ i tag k, k < 32 → (Overlaps cfg a len i tag k ↔ Stepped cfg a ((len + 3) / 4) i tag k)) ↔
      MasksMatch cfg.mWordsperline (a.toNat % 4 = 0) (a.toNat / 4) ((len + 3) / 4)
        ((a.toNat + len - 1) / 4) := by
  have size := cfg.linesize_range
  change cfg.mWordsperline = 4 ∨ cfg.mWordsperline = 8 at size
  have step_word {j : ℕ} (below : j < (len + 3) / 4) :
      (a + BitVec.ofNat 32 (4 * j)).toNat / 4 = a.toNat / 4 + j := by
    rw [step_toNat room below, Nat.add_mul_div_left _ _ (by omega)]
  have step_mask {j k : ℕ} (below : j < (len + 3) / 4) :
      (offset2valid cfg (cfg.getOffset (a + BitVec.ofNat 32 (4 * j))) 4).getLsbD k = true ↔
        Masked cfg.mWordsperline (a.toNat % 4 = 0) (a.toNat / 4 + j) k := by
    rw [masked_iff, step_word below, step_toNat room below, Nat.add_mul_mod_self_left]
  simp only [Overlaps, Stepped, partialLines, forall_const]
  constructor
  · intro same
    constructor
    · intro y from_first to_last
      obtain ⟨b, range, rfl⟩ := byte_of_word some_byte room from_first to_last
      obtain ⟨j, below, idx, tag, mask⟩ := (same (cfg.getIdx b) (cfg.getTag b)
        (b.toNat / 4 % cfg.mWordsperline) (by rcases size with h | h <;> rw [h] <;> omega)).mp
        ⟨b, range, rfl, rfl, word_of_offset b⟩
      have line := sameLine_iff_words.mp ⟨idx, tag⟩
      rw [step_word below] at line
      exact ⟨j, below, line, (step_mask below).mp mask⟩
    · intro j below k mask
      have small : k < 32 := by
        have bit := (step_mask below).mpr mask
        exact BitVec.lt_of_getLsbD bit
      obtain ⟨b, range, idx, tag, word⟩ := (same _ _ k small).mpr
        ⟨j, below, rfl, rfl, (step_mask below).mpr mask⟩
      have words := inRange_words room range
      have line := sameLine_iff_words.mp ⟨idx, tag⟩
      rw [step_word below] at line
      exact ⟨b.toNat / 4, words.1, words.2, line, (word_of_offset b).symm.trans word⟩
  · rintro ⟨visited, masked⟩ i tag k -
    constructor
    · rintro ⟨b, range, rfl, rfl, rfl⟩
      have words := inRange_words room range
      obtain ⟨j, below, line, mask⟩ := visited _ words.1 words.2
      rw [← step_word below] at line
      obtain ⟨idx, tag⟩ := sameLine_iff_words.mpr line
      rw [word_of_offset]
      exact ⟨j, below, idx, tag, (step_mask below).mpr mask⟩
    · rintro ⟨j, below, rfl, rfl, mask⟩
      obtain ⟨y, from_first, to_last, line, word⟩ := masked j below k ((step_mask below).mp mask)
      obtain ⟨b, range, rfl⟩ := byte_of_word some_byte room from_first to_last
      rw [← step_word below] at line
      obtain ⟨idx, tag⟩ := sameLine_iff_words.mpr line
      exact ⟨b, range, idx, tag, (word_of_offset b).trans word⟩

end Match

section Exact

variable (cfg) {ccr : BitVec 32}

/-- A cache all of whose lines carry one tag, with all valid bits set. -/
def filled (tag : BitVec 32) : VectorCache where
  cacheMem := fun _ => ⟨BitVec.allOnes 32, tag, 0, 0, 0, fun _ => 0⟩
  mPseudoRand := 0
  rhits := fun _ => 0
  rmisses := 0
  whits := fun _ => 0
  wmisses := 0
  bypassops := 0

theorem filled_bit (tag : BitVec 32) (small : k < 32) :
    (lookupLine cfg (filled tag) i w).valid.getLsbD k = true := by
  change (BitVec.allOnes 32).getLsbD k = true
  rw [BitVec.getLsbD_allOnes, decide_eq_true_eq]
  exact small

variable {cfg}

theorem not_exact_of_unchanged (some_byte : 1 ≤ len) :
    ¬ SnoopExact cfg a len (filled (cfg.getTag a)) (filled (cfg.getTag a)) := by
  intro exact
  have here : InRange a len a := by
    rw [InRange, distance_self]
    omega
  have small : (cfg.getOffset a).toNat / 4 < 32 := by
    have := cfg.getOffset_lt a
    have := cfg.mBytesperline_le
    omega
  have cleared := exact.cleared (cfg.getIdx a) 0 _ (Nat.zero_le _) ⟨a, here, rfl, rfl, fun _ => rfl⟩
  rw [filled_bit cfg _ small] at cleared
  cases cleared

theorem snoopLoop_endless (below : ∀ j, a + BitVec.ofNat 32 (4 * j) < i) (fuel : ℕ) :
    snoopLoop cfg fuel c a i = none := by
  induction fuel generalizing c a with
  | zero => rfl
  | succ fuel ih =>
    have first := below 0
    rw [first_step] at first
    rw [snoopLoop, if_pos first]
    refine ih fun j => ?_
    have next := below (j + 1)
    rwa [Nat.mul_add, BitVec.ofNat_add, BitVec.add_comm (BitVec.ofNat 32 (4 * j)),
      ← BitVec.add_assoc] at next

/-- A walk that reaches the end of the address space does nothing, or never ends. -/
theorem snoopInvalidate_wrap {len : BitVec 32} (room : a.toNat + len.toNat ≤ 2 ^ 32)
    (wraps : 2 ^ 32 ≤ a.toNat + 4 * ((len.toNat + 3) / 4)) :
    snoopInvalidate cfg ccr c ⟨a, len⟩ = some c ∨ snoopInvalidate cfg ccr c ⟨a, len⟩ = none := by
  unfold snoopInvalidate
  by_cases enabled : checkMode cfg ccr &&& 0x3 ≠ 0
  · rw [if_pos enabled]
    dsimp only
    have bound : (a + len).toNat = (a.toNat + len.toNat) % 2 ^ 32 := BitVec.toNat_add a len
    by_cases full : a.toNat + len.toNat = 2 ^ 32
    · left
      have stop : ¬ a < a + len := by
        rw [BitVec.lt_def, bound, full]
        omega
      rw [snoopLoop, if_neg stop]
    · right
      refine snoopLoop_endless (fun j => ?_) _
      rw [BitVec.lt_def, bound, BitVec.toNat_add, BitVec.toNat_ofNat]
      omega
  · rw [if_neg enabled]
    exact .inl rfl

theorem exact_snoopWords {n : ℕ} (same : ∀ i tag k, k < 32 →
      (Overlaps cfg a len i tag k ↔ Stepped cfg a n i tag k)) (c : VectorCache) :
    SnoopExact cfg a len c (snoopWords cfg n c a) where
  cleared i w k hw overlaps := by
    by_contra bit
    rw [Bool.not_eq_false, bit_snoopWords hw] at bit
    exact bit.2 ((same _ _ k (BitVec.lt_of_getLsbD bit.1)).mp overlaps)
  kept i w k hw apart := by
    rw [Bool.eq_iff_iff, bit_snoopWords hw]
    constructor
    · rintro ⟨bit, -⟩
      exact bit
    · intro bit
      exact ⟨bit, fun stepped => apart ((same _ _ k (BitVec.lt_of_getLsbD bit)).mpr stepped)⟩
  rest := rest_snoopWords c a n

/-- A snoop that is exact on every cache steps on the bits of its range only. -/
theorem stepped_of_exact {n : ℕ} (exact : ∀ c, SnoopExact cfg a len c (snoopWords cfg n c a))
    (i tag : BitVec 32) {k : ℕ} (small : k < 32) :
    Overlaps cfg a len i tag k ↔ Stepped cfg a n i tag k := by
  have set : (lookupLine cfg (filled tag) i 0).valid.getLsbD k = true := filled_bit cfg tag small
  have after : (lookupLine cfg (snoopWords cfg n (filled tag) a) i 0).valid.getLsbD k = true ↔ _ :=
    bit_snoopWords (Nat.zero_le cfg.mSets)
  constructor
  · intro overlaps
    by_contra missed
    have cleared := (exact (filled tag)).cleared i 0 k (Nat.zero_le _) overlaps
    rw [after.mpr ⟨set, missed⟩] at cleared
    cases cleared
  · intro stepped
    by_contra apart
    have kept := (exact (filled tag)).kept i 0 k (Nat.zero_le _) apart
    rw [set, after] at kept
    exact kept.2 stepped

/-- A snoop invalidates exactly its range, in every cache, when the range fits the steps of its
loop. -/
theorem snoop_exact_iff (cfg : Config) (ccr a len : BitVec 32) (some_byte : 1 ≤ len.toNat)
    (room : a.toNat + len.toNat ≤ 2 ^ 32) :
    (∀ c, ∃ c', snoopInvalidate cfg ccr c ⟨a, len⟩ = some c' ∧ SnoopExact cfg a len.toNat c c') ↔
      SnoopFits cfg ccr a.toNat len.toNat := by
  have number : BitVec.ofNat 32 len.toNat = len := by
    rw [BitVec.ofNat_toNat, BitVec.setWidth_eq]
  have words : a.toNat / 4 + (len.toNat + 3) / 4 - 1 ≤ (a.toNat + len.toNat - 1) / 4 ∧
      (a.toNat + len.toNat - 1) / 4 ≤ a.toNat / 4 + (len.toNat + 3) / 4 := by omega
  have size := cfg.linesize_range
  change cfg.mWordsperline = 4 ∨ cfg.mWordsperline = 8 at size
  constructor
  · intro exact
    obtain ⟨c', done, first⟩ := exact (filled (cfg.getTag a))
    have enabled : checkMode cfg ccr &&& 0x3 ≠ 0 := by
      intro off
      rw [snoopInvalidate, if_neg (not_not.mpr off), Option.some.injEq] at done
      subst done
      exact not_exact_of_unchanged some_byte first
    have ends : a.toNat + 4 * ((len.toNat + 3) / 4) < 2 ^ 32 := by
      by_contra wraps
      have late : snoopInvalidate cfg ccr (filled (cfg.getTag a)) ⟨a, len⟩ = some _ ∨ _ :=
        snoopInvalidate_wrap room (by omega)
      rcases late with same | never
      · rw [same, Option.some.injEq] at done
        subst done
        exact not_exact_of_unchanged some_byte first
      · rw [never] at done
        cases done
    have stepped : ∀ i tag k, k < 32 → (Overlaps cfg a len.toNat i tag k ↔
        Stepped cfg a ((len.toNat + 3) / 4) i tag k) := by
      intro i tag k small
      refine stepped_of_exact (fun c => ?_) i tag small
      obtain ⟨c'', ended, all⟩ := exact c
      have loop := snoopInvalidate_eq (c := c) enabled ends
      rw [number, ended, Option.some.injEq] at loop
      exact loop ▸ all
    refine ⟨enabled, ends, fun linefetch => ?_, fun partialLines => ?_⟩
    · exact (stepped_lines_iff some_byte ends linefetch).mp stepped
    · have masks := (stepped_words_iff some_byte ends partialLines).mp stepped
      by_cases aligned : a.toNat % 4 = 0
      · exact .inl aligned
      · exact .inr ((masksMatch_iff size aligned (by omega) words).mp masks)
  · intro fits c
    have loop := snoopInvalidate_eq (c := c) fits.enabled fits.ends
    rw [number] at loop
    refine ⟨_, loop, exact_snoopWords ?_ c⟩
    cases mode : cfg.newLinefetchEn with
    | true => exact (stepped_lines_iff some_byte fits.ends mode).mpr (fits.lines mode)
    | false =>
      refine (stepped_words_iff some_byte fits.ends mode).mpr ?_
      by_cases aligned : a.toNat % 4 = 0
      · exact masksMatch_aligned aligned (by omega)
      · refine (masksMatch_iff size aligned (by omega) words).mpr ?_
        exact (fits.words mode).resolve_left aligned

/-- A double word written at `0x40000018` leaves exactly the first two words of its line valid. -/
theorem snoop_exact_double_word :
    (1 ≤ (8 : BitVec 32).toNat ∧ (0x40000018 : BitVec 32).toNat + (8 : BitVec 32).toNat ≤ 2 ^ 32) ∧
      ((∀ c, ∃ c', snoopInvalidate smallPartialCache 0xc c ⟨0x40000018, 8⟩ = some c' ∧
          SnoopExact smallPartialCache 0x40000018 (8 : BitVec 32).toNat c c') ↔
        SnoopFits smallPartialCache 0xc (0x40000018 : BitVec 32).toNat (8 : BitVec 32).toNat) :=
  ⟨⟨by decide, by decide⟩,
    snoop_exact_iff smallPartialCache 0xc 0x40000018 8 (by decide) (by decide)⟩

/-- The last byte of a line is written by another master, and its word stays valid. -/
theorem last_byte_stays_valid :
    (1 ≤ (1 : BitVec 32).toNat ∧ (0x4000001f : BitVec 32).toNat + (1 : BitVec 32).toNat ≤ 2 ^ 32) ∧
      ¬ ∃ c', snoopInvalidate smallPartialCache 0xc (filled 0x100000) ⟨0x4000001f, 1⟩ = some c' ∧
        SnoopExact smallPartialCache 0x4000001f (1 : BitVec 32).toNat (filled 0x100000) c' := by
  refine ⟨⟨by decide, by decide⟩, ?_⟩
  rintro ⟨c', done, exact⟩
  have loop : snoopInvalidate smallPartialCache 0xc (filled 0x100000)
      ⟨0x4000001f, BitVec.ofNat 32 1⟩ =
        some (snoopWords smallPartialCache ((1 + 3) / 4) (filled 0x100000) 0x4000001f) :=
    snoopInvalidate_eq _ (by decide) (by decide)
  obtain rfl : snoopWords smallPartialCache 1 (filled 0x100000) 0x4000001f = c' :=
    Option.some.inj (loop.symm.trans done)
  have bit : (lookupLine smallPartialCache
      (snoopWords smallPartialCache 1 (filled 0x100000) 0x4000001f) 1 0).valid.getLsbD 3 = true := by
    decide +kernel
  have cleared := exact.cleared 1 0 3 (Nat.zero_le _)
    ⟨0x4000001f, by decide, by decide, by decide, fun _ => by decide⟩
  rw [bit] at cleared
  cases cleared

end Exact

end VectorCache

end Socrocket.MmuCache
