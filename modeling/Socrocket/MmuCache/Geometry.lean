/- Socrocket/MmuCache/Geometry
   digest: Cache geometry, the split of an address into tag, index and offset, and line ranges. -/

import Socrocket.Base.BitField
import Socrocket.Base.ByteMemory

set_option autoImplicit false
set_option relaxedAutoImplicit false

namespace Socrocket.MmuCache

open Socrocket.Base.BitField
open Socrocket.Base.ByteMemory

/-- The two caches built on `vectorcache`. -/
inductive CacheType where
  | icache
  | dcache
deriving DecidableEq, Repr

/-- Constructor arguments of a cache together with the assertions of its constructor. -/
structure Config where
  cacheType : CacheType
  burstEn : BitVec 32
  newLinefetchEn : Bool
  sets : ℕ
  setsize : ℕ
  linesize : ℕ
  repl : ℕ
  sets_range : 1 ≤ sets ∧ sets ≤ 4
  linesize_range : linesize = 4 ∨ linesize = 8
  setsize_range : 1 ≤ setsize ∧ setsize ≤ 256
  lrr_two_way : repl = 2 → sets = 2
  direct_one_way : 1 < sets → repl ≠ 0
  repl_range : 1 < sets → repl ≤ 3

namespace Config

variable (cfg : Config)

def mSets : ℕ := cfg.sets - 1

def mSetsize : ℕ := Nat.log2 cfg.setsize

def mLinesize : ℕ := Nat.log2 cfg.linesize

def mWordsperline : ℕ := cfg.linesize

def mBytesperline : ℕ := cfg.mWordsperline * 4

def mOffsetBits : ℕ := Nat.log2 cfg.mBytesperline

def mNumberOfVectors : ℕ := cfg.setsize * 256 / cfg.linesize

def mIdxBits : ℕ := cfg.mSetsize + 8 - cfg.mLinesize

def mTagBits : ℕ := 32 - cfg.mIdxBits - cfg.mOffsetBits

/-- A direct mapped cache forces the replacement strategy to zero. -/
def mRepl : ℕ := if cfg.mSets = 0 then 0 else cfg.repl

def mMaxLru : ℕ := 2 ^ cfg.mSets - 1

def getTag (address : BitVec 32) : BitVec 32 := address >>> (cfg.mIdxBits + cfg.mOffsetBits)

def getIdx (address : BitVec 32) : BitVec 32 :=
  (address <<< cfg.mTagBits) >>> (cfg.mTagBits + cfg.mOffsetBits)

def getOffset (address : BitVec 32) : BitVec 32 :=
  (address <<< (cfg.mTagBits + cfg.mIdxBits)) >>> (cfg.mTagBits + cfg.mIdxBits)

def getAddress (tag idx offset : BitVec 32) : BitVec 32 :=
  tag <<< (cfg.mIdxBits + cfg.mOffsetBits) ||| idx <<< cfg.mOffsetBits ||| offset

/-- The address a line fetch starts at. -/
def lineAddress (address : BitVec 32) : BitVec 32 :=
  (address >>> (cfg.mLinesize + 2)) <<< (cfg.mLinesize + 2)

/-- Two addresses of one cache line. -/
def SameLine (a b : BitVec 32) : Prop := cfg.getTag a = cfg.getTag b ∧ cfg.getIdx a = cfg.getIdx b

instance (a b : BitVec 32) : Decidable (cfg.SameLine a b) := inferInstanceAs (Decidable (_ ∧ _))

/-- The access `[address, address + len)` stays inside one cache line. -/
def InsideLine (address : BitVec 32) (len : ℕ) : Prop :=
  (cfg.getOffset address).toNat + len ≤ cfg.mBytesperline

instance (address : BitVec 32) (len : ℕ) : Decidable (cfg.InsideLine address len) :=
  inferInstanceAs (Decidable (_ ≤ _))

theorem linesize_cases :
    (cfg.mLinesize = 2 ∧ cfg.mOffsetBits = 4 ∧ cfg.mBytesperline = 16) ∨
      (cfg.mLinesize = 3 ∧ cfg.mOffsetBits = 5 ∧ cfg.mBytesperline = 32) := by
  rcases cfg.linesize_range with h | h
  · left
    simp only [mLinesize, mOffsetBits, mBytesperline, mWordsperline, h]
    decide
  · right
    simp only [mLinesize, mOffsetBits, mBytesperline, mWordsperline, h]
    decide

theorem mLinesize_add_two : cfg.mLinesize + 2 = cfg.mOffsetBits := by
  rcases cfg.linesize_cases with ⟨h, h', -⟩ | ⟨h, h', -⟩ <;> omega

theorem two_pow_mOffsetBits : 2 ^ cfg.mOffsetBits = cfg.mBytesperline := by
  rcases cfg.linesize_cases with ⟨-, h, h'⟩ | ⟨-, h, h'⟩ <;> rw [h, h'] <;> decide

theorem mBytesperline_pos : 0 < cfg.mBytesperline := by
  rcases cfg.linesize_cases with ⟨-, -, h⟩ | ⟨-, -, h⟩ <;> omega

theorem mBytesperline_le : cfg.mBytesperline ≤ 32 := by
  rcases cfg.linesize_cases with ⟨-, -, h⟩ | ⟨-, -, h⟩ <;> omega

theorem toNat_mBytesperline : (BitVec.ofNat 32 cfg.mBytesperline).toNat = cfg.mBytesperline := by
  have := cfg.mBytesperline_le
  rw [BitVec.toNat_ofNat, Nat.mod_eq_of_lt (by omega)]

theorem mBytesperline_mod_four : cfg.mBytesperline % 4 = 0 := by
  rcases cfg.linesize_cases with ⟨-, -, h⟩ | ⟨-, -, h⟩ <;> omega

theorem mSetsize_le : cfg.mSetsize ≤ 8 := by
  have pos : cfg.setsize ≠ 0 := by
    have := cfg.setsize_range
    omega
  have lt : Nat.log2 cfg.setsize < 9 := (Nat.log2_lt pos).mpr (by
    have := cfg.setsize_range
    omega)
  simp only [mSetsize]
  omega

theorem bits_sum : cfg.mTagBits + (cfg.mIdxBits + cfg.mOffsetBits) = 32 := by
  have := cfg.mSetsize_le
  have width : cfg.mIdxBits + cfg.mOffsetBits ≤ 18 := by
    rcases cfg.linesize_cases with ⟨h, h', -⟩ | ⟨h, h', -⟩ <;> simp only [mIdxBits, h, h'] <;> omega
  simp only [mTagBits]
  omega

theorem mSets_succ : cfg.mSets + 1 = cfg.sets := by
  have := cfg.sets_range
  simp only [mSets]
  omega

theorem mRepl_two (h : cfg.mRepl = 2) : cfg.mSets = 1 := by
  unfold mRepl at h
  split at h
  · omega
  · have := cfg.lrr_two_way h
    simp only [mSets]
    omega

theorem mRepl_le : cfg.mRepl ≤ 3 := by
  unfold mRepl
  by_cases direct : cfg.mSets = 0
  · rw [if_pos direct]
    exact Nat.zero_le _
  · rw [if_neg direct]
    unfold mSets at direct
    exact cfg.repl_range (by omega)

theorem two_pow_mIdxBits_le : 2 ^ cfg.mIdxBits ≤ cfg.mNumberOfVectors := by
  have pos : cfg.setsize ≠ 0 := by
    have := cfg.setsize_range
    omega
  have log : 2 ^ cfg.mSetsize ≤ cfg.setsize := Nat.log2_self_le pos
  rcases cfg.linesize_range with hl | hl
  · have line : cfg.mLinesize = 2 := by simp only [mLinesize, hl]; decide
    rw [mIdxBits, mNumberOfVectors, hl, line, show cfg.mSetsize + 8 - 2 = cfg.mSetsize + 6 by omega,
      Nat.pow_add]
    omega
  · have line : cfg.mLinesize = 3 := by simp only [mLinesize, hl]; decide
    rw [mIdxBits, mNumberOfVectors, hl, line, show cfg.mSetsize + 8 - 3 = cfg.mSetsize + 5 by omega,
      Nat.pow_add]
    omega

theorem getTag_toNat (a : BitVec 32) :
    (cfg.getTag a).toNat = a.toNat / 2 ^ (cfg.mIdxBits + cfg.mOffsetBits) :=
  toNat_shiftRight a _

theorem getIdx_toNat (a : BitVec 32) :
    (cfg.getIdx a).toNat = a.toNat % 2 ^ (cfg.mIdxBits + cfg.mOffsetBits) / 2 ^ cfg.mOffsetBits :=
  toNat_shiftLeft_shiftRight a cfg.bits_sum _

theorem getOffset_toNat (a : BitVec 32) : (cfg.getOffset a).toNat = a.toNat % cfg.mBytesperline := by
  have sum : cfg.mTagBits + cfg.mIdxBits + cfg.mOffsetBits = 32 := by
    have := cfg.bits_sum
    omega
  have := toNat_shiftLeft_shiftRight a sum 0
  rw [Nat.pow_zero, Nat.div_one, Nat.add_zero, two_pow_mOffsetBits] at this
  exact this

theorem getTag_lt (a : BitVec 32) : (cfg.getTag a).toNat < 2 ^ cfg.mTagBits := by
  rw [getTag_toNat]
  apply Nat.div_lt_of_lt_mul
  rw [← Nat.pow_add, Nat.add_comm, cfg.bits_sum]
  exact a.isLt

theorem getIdx_lt (a : BitVec 32) : (cfg.getIdx a).toNat < 2 ^ cfg.mIdxBits := by
  rw [getIdx_toNat]
  apply Nat.div_lt_of_lt_mul
  rw [← Nat.pow_add, Nat.add_comm cfg.mOffsetBits]
  exact Nat.mod_lt _ (by positivity)

theorem getOffset_lt (a : BitVec 32) : (cfg.getOffset a).toNat < cfg.mBytesperline := by
  rw [getOffset_toNat]
  exact Nat.mod_lt _ cfg.mBytesperline_pos

theorem toNat_eq_fields (a : BitVec 32) :
    a.toNat = (cfg.getTag a).toNat * 2 ^ (cfg.mIdxBits + cfg.mOffsetBits) +
      (cfg.getIdx a).toNat * 2 ^ cfg.mOffsetBits + (cfg.getOffset a).toNat := by
  rw [getTag_toNat, getIdx_toNat, getOffset_toNat, ← two_pow_mOffsetBits, split_recompose]

section GetAddress

variable {tag idx offset : BitVec 32} (htag : tag.toNat < 2 ^ cfg.mTagBits)
  (hidx : idx.toNat < 2 ^ cfg.mIdxBits) (hoffset : offset.toNat < cfg.mBytesperline)

include htag hidx hoffset

theorem getAddress_toNat :
    (cfg.getAddress tag idx offset).toNat =
      tag.toNat * 2 ^ (cfg.mIdxBits + cfg.mOffsetBits) + idx.toNat * 2 ^ cfg.mOffsetBits +
        offset.toNat :=
  toNat_join cfg.bits_sum htag hidx (by rwa [two_pow_mOffsetBits])

theorem getTag_getAddress : cfg.getTag (cfg.getAddress tag idx offset) = tag := by
  apply BitVec.eq_of_toNat_eq
  rw [getTag_toNat, cfg.getAddress_toNat htag hidx hoffset,
    join_div hidx (by rwa [two_pow_mOffsetBits])]

theorem getIdx_getAddress : cfg.getIdx (cfg.getAddress tag idx offset) = idx := by
  apply BitVec.eq_of_toNat_eq
  rw [getIdx_toNat, cfg.getAddress_toNat htag hidx hoffset,
    join_mod_div hidx (by rwa [two_pow_mOffsetBits])]

theorem getOffset_getAddress : cfg.getOffset (cfg.getAddress tag idx offset) = offset := by
  apply BitVec.eq_of_toNat_eq
  rw [getOffset_toNat, cfg.getAddress_toNat htag hidx hoffset, ← two_pow_mOffsetBits,
    join_mod (by rwa [two_pow_mOffsetBits])]

end GetAddress

theorem lineAddress_toNat (a : BitVec 32) :
    (cfg.lineAddress a).toNat = a.toNat - (cfg.getOffset a).toNat := by
  have sum := cfg.bits_sum
  have quotient : (a >>> cfg.mOffsetBits).toNat < 2 ^ (32 - cfg.mOffsetBits) := by
    rw [toNat_shiftRight]
    apply Nat.div_lt_of_lt_mul
    rw [← Nat.pow_add, show cfg.mOffsetBits + (32 - cfg.mOffsetBits) = 32 by omega]
    exact a.isLt
  rw [lineAddress, mLinesize_add_two, toNat_shiftLeft_of_lt (by omega) quotient, toNat_shiftRight,
    getOffset_toNat, two_pow_mOffsetBits]
  have := Nat.div_add_mod a.toNat cfg.mBytesperline
  rw [Nat.mul_comm] at this
  omega

theorem add_getOffset (a : BitVec 32) :
    (cfg.lineAddress a).toNat + (cfg.getOffset a).toNat = a.toNat := by
  rw [lineAddress_toNat]
  have : (cfg.getOffset a).toNat ≤ a.toNat := by
    rw [getOffset_toNat]
    exact Nat.mod_le _ _
  omega

theorem lineAddress_eq_fields (a : BitVec 32) :
    (cfg.lineAddress a).toNat =
      (cfg.getTag a).toNat * 2 ^ (cfg.mIdxBits + cfg.mOffsetBits) +
        (cfg.getIdx a).toNat * 2 ^ cfg.mOffsetBits := by
  have := cfg.add_getOffset a
  have := cfg.toNat_eq_fields a
  omega

theorem lineAddress_congr {a b : BitVec 32} (line : cfg.SameLine a b) :
    cfg.lineAddress a = cfg.lineAddress b := by
  apply BitVec.eq_of_toNat_eq
  rw [lineAddress_eq_fields, lineAddress_eq_fields, line.1, line.2]

theorem lineAddress_eq (a : BitVec 32) :
    cfg.lineAddress a = cfg.getAddress (cfg.getTag a) (cfg.getIdx a) 0 := by
  apply BitVec.eq_of_toNat_eq
  rw [lineAddress_eq_fields, cfg.getAddress_toNat (cfg.getTag_lt a) (cfg.getIdx_lt a)]
  · rfl
  · exact cfg.mBytesperline_pos

@[simp] theorem getTag_lineAddress (a : BitVec 32) :
    cfg.getTag (cfg.lineAddress a) = cfg.getTag a := by
  rw [lineAddress_eq]
  exact cfg.getTag_getAddress (cfg.getTag_lt a) (cfg.getIdx_lt a) cfg.mBytesperline_pos

@[simp] theorem getIdx_lineAddress (a : BitVec 32) :
    cfg.getIdx (cfg.lineAddress a) = cfg.getIdx a := by
  rw [lineAddress_eq]
  exact cfg.getIdx_getAddress (cfg.getTag_lt a) (cfg.getIdx_lt a) cfg.mBytesperline_pos

@[simp] theorem getOffset_lineAddress (a : BitVec 32) :
    cfg.getOffset (cfg.lineAddress a) = 0 := by
  rw [lineAddress_eq]
  exact cfg.getOffset_getAddress (cfg.getTag_lt a) (cfg.getIdx_lt a) cfg.mBytesperline_pos

/-- The addresses of one line are exactly the bytes fetched from its line address. -/
theorem distance_lineAddress {a b : BitVec 32} (line : cfg.SameLine a b) :
    distance (cfg.lineAddress a) b = (cfg.getOffset b).toNat := by
  have base := cfg.add_getOffset b
  rw [cfg.lineAddress_congr line, distance_of_le (by omega)]
  omega

theorem offset_add_sub {a b : BitVec 32} (line : cfg.SameLine a b) :
    b.toNat + (cfg.getOffset a).toNat = a.toNat + (cfg.getOffset b).toNat := by
  have ha := cfg.add_getOffset a
  have hb := cfg.add_getOffset b
  rw [cfg.lineAddress_congr line] at ha
  omega

theorem sameLine_iff {a b : BitVec 32} :
    cfg.SameLine a b ↔ a.toNat / cfg.mBytesperline = b.toNat / cfg.mBytesperline := by
  have tag (x : BitVec 32) : (cfg.getTag x).toNat = x.toNat / cfg.mBytesperline / 2 ^ cfg.mIdxBits := by
    rw [getTag_toNat, Nat.add_comm, Nat.pow_add, ← Nat.div_div_eq_div_mul, two_pow_mOffsetBits]
  have idx (x : BitVec 32) : (cfg.getIdx x).toNat = x.toNat / cfg.mBytesperline % 2 ^ cfg.mIdxBits := by
    rw [getIdx_toNat, Nat.add_comm, Nat.pow_add, Nat.mod_mul_right_div_self, two_pow_mOffsetBits]
  constructor
  · rintro ⟨htag, hidx⟩
    have high := congrArg BitVec.toNat htag
    have low := congrArg BitVec.toNat hidx
    rw [tag, tag] at high
    rw [idx, idx] at low
    rw [← Nat.div_add_mod (a.toNat / _) (2 ^ cfg.mIdxBits), high, low, Nat.div_add_mod]
  · intro h
    exact ⟨BitVec.eq_of_toNat_eq (by rw [tag, tag, h]), BitVec.eq_of_toNat_eq (by rw [idx, idx, h])⟩

theorem lineAddress_eq_mul (a : BitVec 32) :
    (cfg.lineAddress a).toNat = cfg.mBytesperline * (a.toNat / cfg.mBytesperline) := by
  have := Nat.div_add_mod a.toNat cfg.mBytesperline
  rw [lineAddress_toNat, getOffset_toNat]
  omega

theorem lineAddress_room (a : BitVec 32) :
    (cfg.lineAddress a).toNat + cfg.mBytesperline ≤ 2 ^ 32 := by
  have low := cfg.lineAddress_eq_mul a
  have lt := a.isLt
  rcases cfg.linesize_cases with ⟨-, -, h⟩ | ⟨-, -, h⟩ <;> rw [h] at low ⊢ <;> omega

theorem InsideLine.room {a : BitVec 32} {len : ℕ} (inside : cfg.InsideLine a len) :
    a.toNat + len ≤ 2 ^ 32 := by
  have room := cfg.lineAddress_room a
  have base := cfg.add_getOffset a
  unfold InsideLine at inside
  omega

theorem inRange_iff_offset {a b : BitVec 32} {len : ℕ} (inside : cfg.InsideLine a len)
    (line : cfg.SameLine a b) :
    InRange a len b ↔ (cfg.getOffset a).toNat ≤ (cfg.getOffset b).toNat ∧
      (cfg.getOffset b).toNat < (cfg.getOffset a).toNat + len := by
  have shift := cfg.offset_add_sub line
  rw [inRange_iff_of_no_wrap (inside.room cfg)]
  omega

theorem sameLine_of_inRange {a b : BitVec 32} {len : ℕ} (inside : cfg.InsideLine a len)
    (range : InRange a len b) : cfg.SameLine a b := by
  rw [inRange_iff_of_no_wrap (inside.room cfg)] at range
  have low := cfg.lineAddress_eq_mul a
  have base := cfg.add_getOffset a
  unfold InsideLine at inside
  rw [sameLine_iff]
  rcases cfg.linesize_cases with ⟨-, -, h⟩ | ⟨-, -, h⟩ <;> rw [h] at low inside ⊢ <;> omega

theorem distance_inside {a b : BitVec 32} {len : ℕ} (inside : cfg.InsideLine a len)
    (range : InRange a len b) :
    distance a b = (cfg.getOffset b).toNat - (cfg.getOffset a).toNat := by
  have shift := cfg.offset_add_sub (cfg.sameLine_of_inRange inside range)
  rw [inRange_iff_of_no_wrap (inside.room cfg)] at range
  rw [distance_of_le range.1]
  omega

end Config

end Socrocket.MmuCache
