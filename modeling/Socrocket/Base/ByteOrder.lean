/- Socrocket/Base/ByteOrder
   digest: Numbers and the buffers that hold them, in both byte orders, with the swap between the two. -/

import Socrocket.Base.ByteMemory

set_option autoImplicit false
set_option relaxedAutoImplicit false

namespace Socrocket.Base.ByteOrder

open ByteMemory

variable {n : ℕ}

/-- The bytes of a number, the lowest first. -/
def bytes {w : ℕ} (x : BitVec w) : Buffer := fun i => x.extractLsb' (8 * i) 8

/-- The number that a buffer holds, the lowest byte first. -/
def little : (n : ℕ) → Buffer → BitVec (8 * n)
  | 0, _ => 0
  | n + 1, b => little n (skip b 1) ++ b 0

/-- The first `n` bytes the other way round. -/
def reversed (n : ℕ) (b : Buffer) : Buffer := fun i => if i < n then b (n - 1 - i) else b i

/-- The number that a buffer holds, the highest byte first. -/
def big (n : ℕ) (b : Buffer) : BitVec (8 * n) := little n (reversed n b)

theorem getLsbD_little (b : Buffer) {i : ℕ} (inside : i < 8 * n) :
    (little n b).getLsbD i = (b (i / 8)).getLsbD (i % 8) := by
  induction n generalizing b i with
  | zero => omega
  | succ n ih =>
    rw [little, BitVec.getLsbD_append]
    by_cases first : i < 8
    · rw [if_pos first, Nat.div_eq_of_lt first, Nat.mod_eq_of_lt first]
    · have behind : 1 + (i - 8) / 8 = i / 8 ∧ (i - 8) % 8 = i % 8 := by omega
      rw [if_neg first, ih _ (by omega), skip, behind.1, behind.2]

theorem little_congr {b b' : Buffer} (same : ∀ i < n, b i = b' i) : little n b = little n b' := by
  apply BitVec.eq_of_getLsbD_eq
  intro i inside
  rw [getLsbD_little _ inside, getLsbD_little _ inside, same _ (by omega)]

theorem big_congr {b b' : Buffer} (same : ∀ i < n, b i = b' i) : big n b = big n b' := by
  apply little_congr
  intro i inside
  simp only [reversed, if_pos inside]
  exact same _ (by omega)

theorem bytes_little (b : Buffer) {i : ℕ} (inside : i < n) : bytes (little n b) i = b i := by
  apply BitVec.eq_of_getLsbD_eq
  intro k bit
  have place : (8 * i + k) / 8 = i ∧ (8 * i + k) % 8 = k := by omega
  rw [bytes, BitVec.getLsbD_extractLsb', getLsbD_little _ (by omega), place.1, place.2]
  simp [bit]

theorem little_bytes (x : BitVec (8 * n)) : little n (bytes x) = x := by
  apply BitVec.eq_of_getLsbD_eq
  intro i inside
  have place : 8 * (i / 8) + i % 8 = i := by omega
  have bit : i % 8 < 8 := by omega
  rw [getLsbD_little _ inside, bytes, BitVec.getLsbD_extractLsb', place]
  simp [bit]

theorem setWidth_little (m : ℕ) (b : Buffer) : (little (m + n) b).setWidth (8 * m) = little m b := by
  apply BitVec.eq_of_getLsbD_eq
  intro i inside
  rw [BitVec.getLsbD_setWidth, getLsbD_little _ inside, getLsbD_little _ (by omega)]
  simp [inside]

theorem setWidth_shift_little (m : ℕ) (b : Buffer) :
    (little (m + n) b >>> (8 * m)).setWidth (8 * n) = little n (skip b m) := by
  apply BitVec.eq_of_getLsbD_eq
  intro i inside
  have place : (8 * m + i) / 8 = m + i / 8 ∧ (8 * m + i) % 8 = i % 8 := by omega
  rw [BitVec.getLsbD_setWidth, BitVec.getLsbD_ushiftRight, getLsbD_little _ inside,
    getLsbD_little _ (by omega), place.1, place.2, skip]
  simp [inside]

theorem bytes_append {m : ℕ} (x : BitVec (8 * n)) (y : BitVec (8 * m)) (i : ℕ) :
    bytes (x ++ y) i = if i < m then bytes y i else bytes x (i - m) := by
  apply BitVec.eq_of_getLsbD_eq
  intro k bit
  simp only [bytes, BitVec.getLsbD_extractLsb', BitVec.getLsbD_append, bit, decide_true, Bool.true_and]
  by_cases lower : i < m
  · rw [if_pos lower, if_pos (by omega), BitVec.getLsbD_extractLsb']
    simp [bit]
  · have place : 8 * i + k - 8 * m = 8 * (i - m) + k := by omega
    rw [if_neg lower, if_neg (by omega), BitVec.getLsbD_extractLsb', place]
    simp [bit]

/-! ## The swap -/

/-- Exchange two bytes. -/
def exchange (b : Buffer) (i j : ℕ) : Buffer :=
  fun k => if k = i then b j else if k = j then b i else b k

/-- Exchanging the bytes at the two ends, and then further and further inside, turns a buffer round. -/
theorem foldl_exchange (b : Buffer) {m : ℕ} (half : 2 * m ≤ n) :
    (List.range m).foldl (fun b i => exchange b i (n - 1 - i)) b =
      fun k => if k < m ∨ n ≤ k + m ∧ k < n then b (n - 1 - k) else b k := by
  induction m with
  | zero =>
    funext k
    exact (if_neg (by omega)).symm
  | succ m ih =>
    rw [List.range_succ, List.foldl_append, ih (by omega)]
    funext k
    simp only [List.foldl_cons, List.foldl_nil, exchange]
    by_cases first : k = m
    · subst first
      rw [if_pos rfl, if_neg (by omega), if_pos (by omega)]
    · by_cases last : k = n - 1 - m
      · subst last
        have back : n - 1 - (n - 1 - m) = m := by omega
        rw [if_neg first, if_pos rfl, if_neg (by omega), if_pos (by omega), back]
      · rw [if_neg first, if_neg last]
        exact if_congr (by omega) rfl rfl

theorem foldl_exchange_half (b : Buffer) :
    (List.range (n / 2)).foldl (fun b i => exchange b i (n - 1 - i)) b = reversed n b := by
  rw [foldl_exchange b (by omega)]
  funext k
  unfold reversed
  by_cases inside : k < n
  · rw [if_pos inside]
    by_cases middle : k < n / 2 ∨ n ≤ k + n / 2 ∧ k < n
    · exact if_pos middle
    · have same : n - 1 - k = k := by omega
      rw [if_neg middle, same]
  · rw [if_neg inside, if_neg (by omega)]

theorem reversed_reversed (b : Buffer) : reversed n (reversed n b) = b := by
  funext i
  unfold reversed
  by_cases inside : i < n
  · have back : n - 1 - (n - 1 - i) = i := by omega
    rw [if_pos inside, if_pos (by omega), back]
  · rw [if_neg inside, if_neg inside]

theorem big_reversed_bytes (x : BitVec (8 * n)) : big n (reversed n (bytes x)) = x := by
  rw [big, reversed_reversed, little_bytes]

theorem writeBytes_data {w : ℕ} (mem : Memory w) (base : BitVec w) {data data' : Buffer} {len : ℕ}
    (same : ∀ i < len, data i = data' i) :
    writeBytes mem base data len = writeBytes mem base data' len := by
  funext a
  unfold writeBytes
  split_ifs with inside
  · exact same _ inside
  · rfl

end Socrocket.Base.ByteOrder
