/- Socrocket/MmuCache/AddressSplit
   digest: Addresses and their parts correspond one to one, and every index with a way is a place in
   the cache memory. -/

import Mathlib.Logic.Equiv.Defs
import Socrocket.MmuCache.CacheLines

set_option autoImplicit false
set_option relaxedAutoImplicit false

namespace Socrocket.MmuCache

open VectorCache

variable {cfg : Config}

/-- A tag, an index and an offset, each within its width. -/
@[ext] structure Parts (cfg : Config) where
  tag : BitVec 32
  idx : BitVec 32
  offset : BitVec 32
  tag_lt : tag.toNat < 2 ^ cfg.mTagBits
  idx_lt : idx.toNat < 2 ^ cfg.mIdxBits
  offset_lt : offset.toNat < 2 ^ cfg.mOffsetBits

namespace Parts

def address (p : Parts cfg) : BitVec 32 := cfg.getAddress p.tag p.idx p.offset

/-- The parts the cache takes from an address. -/
def ofAddress (cfg : Config) (address : BitVec 32) : Parts cfg where
  tag := cfg.getTag address
  idx := cfg.getIdx address
  offset := cfg.getOffset address
  tag_lt := cfg.getTag_lt address
  idx_lt := cfg.getIdx_lt address
  offset_lt := cfg.two_pow_mOffsetBits ▸ cfg.getOffset_lt address

theorem offset_lt_line (p : Parts cfg) : p.offset.toNat < cfg.mBytesperline :=
  cfg.two_pow_mOffsetBits ▸ p.offset_lt

theorem address_ofAddress (a : BitVec 32) : (ofAddress cfg a).address = a := by
  apply BitVec.eq_of_toNat_eq
  rw [address, cfg.getAddress_toNat (ofAddress cfg a).tag_lt (ofAddress cfg a).idx_lt
    (ofAddress cfg a).offset_lt_line]
  exact (cfg.toNat_eq_fields a).symm

theorem ofAddress_address (p : Parts cfg) : ofAddress cfg p.address = p := by
  ext1
  · exact cfg.getTag_getAddress p.tag_lt p.idx_lt p.offset_lt_line
  · exact cfg.getIdx_getAddress p.tag_lt p.idx_lt p.offset_lt_line
  · exact cfg.getOffset_getAddress p.tag_lt p.idx_lt p.offset_lt_line

/-- Addresses and their parts. -/
def addressEquiv (cfg : Config) : Parts cfg ≃ BitVec 32 where
  toFun := address
  invFun := ofAddress cfg
  left_inv := ofAddress_address
  right_inv := address_ofAddress

theorem idx_lt_mNumberOfVectors (p : Parts cfg) : p.idx.toNat < cfg.mNumberOfVectors :=
  p.idx_lt.trans_le cfg.two_pow_mIdxBits_le

theorem toNat_position (p : Parts cfg) {way : ℕ} (hway : way ≤ cfg.mSets) :
    (p.idx * BitVec.ofNat 32 (cfg.mSets + 1) + BitVec.ofNat 32 way).toNat =
      position cfg p.idx way := by
  have few := cfg.sets_range
  have ways := cfg.mSets_succ
  have inside := position_lt_size cfg p.idx_lt_mNumberOfVectors hway
  have small := size_le cfg
  unfold position at inside ⊢
  have product : p.idx.toNat * (cfg.mSets + 1) < 2 ^ 32 := by omega
  rw [BitVec.toNat_add, BitVec.toNat_mul, BitVec.toNat_ofNat, BitVec.toNat_ofNat,
    Nat.mod_eq_of_lt (show cfg.mSets + 1 < 2 ^ 32 by omega),
    Nat.mod_eq_of_lt (show way < 2 ^ 32 by omega), Nat.mod_eq_of_lt product,
    Nat.mod_eq_of_lt (by omega)]

end Parts

/-- A cache can have any number of ways, way size and line size in range. -/
theorem exists_geometry {sets setsize linesize : ℕ} (ways : 1 ≤ sets ∧ sets ≤ 4)
    (waySize : 1 ≤ setsize ∧ setsize ≤ 256) (lineSize : linesize = 4 ∨ linesize = 8) :
    ∃ cfg : Config, cfg.sets = sets ∧ cfg.setsize = setsize ∧ cfg.linesize = linesize :=
  ⟨{ cacheType := .dcache, burstEn := 0, newLinefetchEn := false, sets := sets, setsize := setsize,
     linesize := linesize, repl := 1, sets_range := ways, linesize_range := lineSize,
     setsize_range := waySize, lrr_two_way := by simp, direct_one_way := by simp,
     repl_range := by simp }, rfl, rfl, rfl⟩

/-- An address is recomposed from its parts, which are within their widths, different parts within
the widths have different addresses, and every index with a way is a place in the cache memory. -/
theorem address_split (cfg : Config) :
    (∀ a : BitVec 32,
      cfg.getAddress (cfg.getTag a) (cfg.getIdx a) (cfg.getOffset a) = a ∧
        (cfg.getTag a).toNat < 2 ^ cfg.mTagBits ∧ (cfg.getIdx a).toNat < 2 ^ cfg.mIdxBits ∧
        (cfg.getOffset a).toNat < 2 ^ cfg.mOffsetBits) ∧
    (∀ p q : Parts cfg, p ≠ q → p.address ≠ q.address) ∧
    (∀ (p : Parts cfg) (way : ℕ), way ≤ cfg.mSets →
      (p.idx * BitVec.ofNat 32 (cfg.mSets + 1) + BitVec.ofNat 32 way).toNat =
          position cfg p.idx way ∧
        position cfg p.idx way < size cfg) := by
  refine ⟨?_, ?_, ?_⟩
  · intro a
    exact ⟨Parts.address_ofAddress a, (Parts.ofAddress cfg a).tag_lt, (Parts.ofAddress cfg a).idx_lt,
      (Parts.ofAddress cfg a).offset_lt⟩
  · intro p q differ same
    exact differ ((Parts.addressEquiv cfg).injective same)
  · intro p way hway
    exact ⟨p.toNat_position hway, position_lt_size cfg p.idx_lt_mNumberOfVectors hway⟩

end Socrocket.MmuCache
