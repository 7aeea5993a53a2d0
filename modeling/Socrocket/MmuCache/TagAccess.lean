/- Socrocket/MmuCache/TagAccess
   digest: The diagnostic accesses to the tags: what a read returns of the word that was written. -/

import Mathlib.Tactic.IntervalCases
import Socrocket.Base.BitField
import Socrocket.Bus.Blocking
import Socrocket.MmuCache.CacheRuns
import Socrocket.MmuCache.WriteThrough

set_option autoImplicit false
set_option relaxedAutoImplicit false

namespace Socrocket.MmuCache

open Socrocket.Base.BitField Socrocket.Bus.AHBCtrl

/-- A word in memory order, on a host of the other byte order if `LITTLE_ENDIAN_BO` is set. -/
def hostOrder (littleEndianBo : Bool) (word : BitVec 32) : BitVec 32 :=
  if littleEndianBo then swapEndianess word else word

theorem swapEndianess_swapEndianess (x : BitVec 32) : swapEndianess (swapEndianess x) = x := by
  refine BitVec.eq_of_getLsbD_eq fun i hi => ?_
  unfold swapEndianess
  interval_cases i <;> simp

@[simp] theorem hostOrder_hostOrder (littleEndianBo : Bool) (word : BitVec 32) :
    hostOrder littleEndianBo (hostOrder littleEndianBo word) = word := by
  cases littleEndianBo with
  | true => exact swapEndianess_swapEndianess word
  | false => rfl

namespace VectorCache

variable (cfg : Config)

/-- The way that a diagnostic address names. It need not exist. -/
def namedWay (address : BitVec 32) : ℕ := (cfg.getTag address &&& 0x3).toNat

/-- The fields of a tag in one word. -/
def CacheLine.tagWord (line : CacheLine) : BitVec 32 :=
  line.atag <<< 10 ||| line.lrr <<< 9 ||| line.lock <<< 8 ||| line.valid

/-- Read a tag at its diagnostic address. `none` is a line outside the cache memory. -/
def readCacheTag (littleEndianBo : Bool) (c : VectorCache) (address : BitVec 32) :
    Option (BitVec 32) :=
  let idx := cfg.getIdx address
  let way := namedWay cfg address
  if size cfg ≤ position cfg idx way then none
  else some (hostOrder littleEndianBo (CacheLine.tagWord (lookupLine cfg c idx way)))

/-- Write the tag that the data pointer leads to. -/
def writeTagAt (littleEndianBo setlock : Bool) (c : VectorCache) (address data : BitVec 32) :
    Option VectorCache :=
  writeCacheTag cfg setlock c address (hostOrder littleEndianBo data)

/-- The word that a tag is to read as after a word was written: the lock bit is written where a way may
be locked, all other fields always. -/
structure ReadsBack (setlock : Bool) (way : ℕ) (data word : BitVec 32) : Prop where
  atag : ∀ i, 10 ≤ i → word.getLsbD i = data.getLsbD i
  lrr : word.getLsbD 9 = data.getLsbD 9
  lock : word.getLsbD 8 = if setlock = true ∧ way ≠ cfg.mSets then data.getLsbD 8 else false
  valid : ∀ i < 8, word.getLsbD i = data.getLsbD i

/-- A tag reads back as it was written, whatever the cache holds, and no other tag and no data change.
An access to a way that does not exist stays inside the cache memory and changes no other set. -/
structure TagRoundTrip (littleEndianBo setlock : Bool) (address data : BitVec 32) : Prop where
  inSet : namedWay cfg address ≤ cfg.mSets → ∀ c, ∃ c' word,
    writeTagAt cfg littleEndianBo setlock c address (hostOrder littleEndianBo data) = some c' ∧
      readCacheTag cfg littleEndianBo c' address = some (hostOrder littleEndianBo word) ∧
      ReadsBack cfg setlock (namedWay cfg address) data word ∧
      (∀ pos, (c'.cacheMem pos).entry = (c.cacheMem pos).entry) ∧
      ∀ pos, pos ≠ position cfg (cfg.getIdx address) (namedWay cfg address) →
        c'.cacheMem pos = c.cacheMem pos
  behind : cfg.mSets < namedWay cfg address → ∀ c, ∃ c' word,
    writeTagAt cfg littleEndianBo setlock c address (hostOrder littleEndianBo data) = some c' ∧
      readCacheTag cfg littleEndianBo c' address = some word ∧
      ∀ i w, i ≠ cfg.getIdx address → w ≤ cfg.mSets → lookupLine cfg c' i w = lookupLine cfg c i w

variable {cfg} {setlock littleEndianBo : Bool} {c c' : VectorCache} {address data : BitVec 32}

/-- The line that a tag write leaves. -/
def taggedLine (cfg : Config) (setlock : Bool) (way : ℕ) (data : BitVec 32) (line : CacheLine) :
    CacheLine :=
  { line with
    atag := data >>> 10
    lrr := (data &&& 0x100) >>> 9
    lock := if setlock ∧ way ≠ cfg.mSets then (data &&& 0x100) >>> 8 else 0
    valid := data &&& 0xff }

theorem writeCacheTag_eq
    (inside : position cfg (cfg.getIdx address) (namedWay cfg address) < size cfg) :
    writeCacheTag cfg setlock c address data =
      some (modifyLine cfg c (cfg.getIdx address) (namedWay cfg address)
        (taggedLine cfg setlock (namedWay cfg address) data)) :=
  if_neg (Nat.not_le.mpr inside)

theorem getLsbD_and_bitEight (j : ℕ) :
    (data &&& 0x100).getLsbD j = (decide (j = 8) && data.getLsbD 8) := by
  rw [BitVec.getLsbD_and, show (0x100 : BitVec 32) = BitVec.twoPow 32 8 from rfl, BitVec.getLsbD_twoPow]
  by_cases eighth : j = 8
  · simp [eighth]
  · simp [eighth, Ne.symm eighth]

theorem getLsbD_tagWord_taggedLine (way : ℕ) (line : CacheLine) {i : ℕ} (hi : i < 32) :
    (CacheLine.tagWord (taggedLine cfg setlock way data line)).getLsbD i =
      if i = 9 then false
      else if i = 8 then (if setlock = true ∧ way ≠ cfg.mSets then data.getLsbD 8 else false)
      else data.getLsbD i := by
  have atag : ((data >>> 10) <<< 10).getLsbD i = (decide (10 ≤ i) && data.getLsbD i) := by
    rw [BitVec.getLsbD_shiftLeft, BitVec.getLsbD_ushiftRight]
    by_cases above : 10 ≤ i
    · simp [above, hi]
    · simp [above, Nat.lt_of_not_le above]
  have lrr : (((data &&& 0x100) >>> 9) <<< 9).getLsbD i = false := by
    rw [BitVec.getLsbD_shiftLeft, BitVec.getLsbD_ushiftRight, getLsbD_and_bitEight,
      decide_eq_false (show ¬9 + (i - 9) = 8 by omega), Bool.false_and, Bool.and_false]
  have lock :
      ((if setlock = true ∧ way ≠ cfg.mSets then (data &&& 0x100) >>> 8 else 0) <<< 8).getLsbD i =
        (decide (i = 8) && if setlock = true ∧ way ≠ cfg.mSets then data.getLsbD 8 else false) := by
    rw [BitVec.getLsbD_shiftLeft]
    by_cases locks : setlock = true ∧ way ≠ cfg.mSets
    · rw [if_pos locks, if_pos locks, BitVec.getLsbD_ushiftRight, getLsbD_and_bitEight]
      by_cases eighth : i = 8
      · simp [eighth]
      · by_cases low : i < 8
        · simp [low, eighth]
        · rw [decide_eq_false (show ¬8 + (i - 8) = 8 by omega), decide_eq_false eighth, Bool.false_and,
            Bool.and_false]
    · rw [if_neg locks, if_neg locks, Bool.and_false]
      simp
  have valid : (data &&& 0xff).getLsbD i = (decide (i < 8) && data.getLsbD i) := by
    rw [BitVec.getLsbD_and, show (0xff : BitVec 32) = BitVec.ofNat 32 (2 ^ 8 - 1) from rfl,
      getLsbD_lowMask, decide_eq_true hi, Bool.true_and, Bool.and_comm]
  unfold CacheLine.tagWord taggedLine
  simp only [BitVec.getLsbD_or, atag, lrr, lock, valid, Bool.or_false]
  by_cases ninth : i = 9
  · simp [ninth]
  · by_cases eighth : i = 8
    · simp [eighth]
    · by_cases low : i < 8
      · simp [low, ninth, eighth, Nat.not_le.mpr (show i < 10 by omega)]
      · simp [low, ninth, eighth, show 10 ≤ i by omega]

/-- Behind the ways of a set lie lines of a later set. -/
theorem position_behind {idx : BitVec 32} {way : ℕ} (behind : cfg.mSets < way)
    (inside : position cfg idx way < size cfg) :
    ∃ i w, i ≠ idx ∧ w ≤ cfg.mSets ∧ position cfg i w = position cfg idx way := by
  have few := size_le cfg
  have split := Nat.div_add_mod way (cfg.mSets + 1)
  have later : 1 ≤ way / (cfg.mSets + 1) := (Nat.one_le_div_iff (by omega)).mpr (by omega)
  have same : (idx.toNat + way / (cfg.mSets + 1)) * (cfg.mSets + 1) + way % (cfg.mSets + 1) =
      idx.toNat * (cfg.mSets + 1) + way := by
    rw [Nat.add_mul, Nat.mul_comm (way / _)]
    omega
  have bound : idx.toNat + way / (cfg.mSets + 1) < 2 ^ 32 := by
    unfold position at inside
    have enough : idx.toNat + way / (cfg.mSets + 1) ≤
        (idx.toNat + way / (cfg.mSets + 1)) * (cfg.mSets + 1) :=
      Nat.le_mul_of_pos_right _ (Nat.succ_pos _)
    omega
  have value : (BitVec.ofNat 32 (idx.toNat + way / (cfg.mSets + 1))).toNat =
      idx.toNat + way / (cfg.mSets + 1) := by
    rw [BitVec.toNat_ofNat, Nat.mod_eq_of_lt bound]
  refine ⟨BitVec.ofNat 32 (idx.toNat + way / (cfg.mSets + 1)), way % (cfg.mSets + 1), ?_,
    Nat.le_of_lt_succ (Nat.mod_lt _ (by omega)), ?_⟩
  · intro eq
    have := congrArg BitVec.toNat eq
    omega
  · rw [position, value, same, position]

/-- A way that exists reads back, but for the LRR bit. -/
theorem readsBack_iff (way : ℕ) (line : CacheLine) :
    ReadsBack cfg setlock way data (CacheLine.tagWord (taggedLine cfg setlock way data line)) ↔
      data.getLsbD 9 = false := by
  have bit (i : ℕ) (hi : i < 32) :
      (CacheLine.tagWord (taggedLine cfg setlock way data line)).getLsbD i =
        if i = 9 then false
        else if i = 8 then (if setlock = true ∧ way ≠ cfg.mSets then data.getLsbD 8 else false)
        else data.getLsbD i := getLsbD_tagWord_taggedLine way line hi
  constructor
  · intro back
    rw [← back.lrr, bit 9 (by omega), if_pos rfl]
  · intro clear
    refine ⟨fun i hi => ?_, ?_, ?_, fun i hi => ?_⟩
    · by_cases inside : i < 32
      · rw [bit i inside, if_neg (by omega), if_neg (by omega)]
      · rw [BitVec.getLsbD_of_ge _ i (by omega), BitVec.getLsbD_of_ge data i (by omega)]
    · rw [bit 9 (by omega), if_pos rfl, clear]
    · rw [bit 8 (by omega), if_neg (by omega), if_pos rfl]
    · rw [bit i (by omega), if_neg (by omega), if_neg (by omega)]

theorem not_behind (above : cfg.mSets < namedWay cfg address) :
    ¬TagRoundTrip cfg littleEndianBo setlock address data := by
  intro trip
  -- A valid word of `0x100` is none that a tag write leaves.
  let marked : CacheLine := ⟨0x100, 0, 0, 0, 0, fun _ => 0⟩
  let c : VectorCache := ⟨fun _ => marked, 0, fun _ => 0, 0, fun _ => 0, 0, 0⟩
  obtain ⟨c', word, written, -, others⟩ := trip.behind above c
  have inside : position cfg (cfg.getIdx address) (namedWay cfg address) < size cfg := by
    by_contra outside
    have nothing : writeCacheTag cfg setlock c address data = none := if_pos (Nat.not_lt.mp outside)
    rw [writeTagAt, hostOrder_hostOrder, nothing] at written
    cases written
  rw [writeTagAt, hostOrder_hostOrder, writeCacheTag_eq inside] at written
  obtain ⟨i, w, other, exists_way, same⟩ := position_behind above inside
  have kept := others i w other exists_way
  rw [← Option.some.inj written] at kept
  have changed : (data &&& 0xff) = (0x100 : BitVec 32) := by
    have := congrArg CacheLine.valid kept
    simpa [lookupLine, modifyLine, same, taggedLine, c, marked] using this
  have bit := congrArg (fun x : BitVec 32 => x.getLsbD 8) changed
  simp at bit

theorem readCacheTag_modifyLine
    (inside : position cfg (cfg.getIdx address) (namedWay cfg address) < size cfg)
    (f : CacheLine → CacheLine) :
    readCacheTag cfg littleEndianBo
        (modifyLine cfg c (cfg.getIdx address) (namedWay cfg address) f) address =
      some (hostOrder littleEndianBo
        (CacheLine.tagWord (f (lookupLine cfg c (cfg.getIdx address) (namedWay cfg address))))) := by
  simp only [readCacheTag, if_neg (Nat.not_le.mpr inside), lookupLine, modifyLine,
    Function.update_self]

theorem position_getIdx_lt (inSet : namedWay cfg address ≤ cfg.mSets) :
    position cfg (cfg.getIdx address) (namedWay cfg address) < size cfg :=
  position_lt_size cfg (lt_of_lt_of_le (cfg.getIdx_lt address) cfg.two_pow_mIdxBits_le) inSet

theorem tagRoundTrip_of_clear (inSet : namedWay cfg address ≤ cfg.mSets)
    (clear : data.getLsbD 9 = false) : TagRoundTrip cfg littleEndianBo setlock address data := by
  have inside := position_getIdx_lt inSet
  refine ⟨fun _ c => ?_, fun above => absurd above (Nat.not_lt.mpr inSet)⟩
  refine ⟨modifyLine cfg c (cfg.getIdx address) (namedWay cfg address)
      (taggedLine cfg setlock (namedWay cfg address) data), _, ?_, readCacheTag_modifyLine inside _,
    (readsBack_iff _ _).mpr clear, fun pos => ?_, fun pos other => ?_⟩
  · rw [writeTagAt, hostOrder_hostOrder]
    exact writeCacheTag_eq inside
  · unfold modifyLine
    dsimp only
    by_cases here : pos = position cfg (cfg.getIdx address) (namedWay cfg address)
    · rw [here, Function.update_self]
      rfl
    · rw [Function.update_of_ne here]
  · exact Function.update_of_ne other ..

theorem clear_of_tagRoundTrip (inSet : namedWay cfg address ≤ cfg.mSets)
    (trip : TagRoundTrip cfg littleEndianBo setlock address data) : data.getLsbD 9 = false := by
  have inside := position_getIdx_lt inSet
  let line : CacheLine := ⟨0, 0, 0, 0, 0, fun _ => 0⟩
  obtain ⟨c', word, written, read, back, -⟩ :=
    trip.inSet inSet ⟨fun _ => line, 0, fun _ => 0, 0, fun _ => 0, 0, 0⟩
  rw [writeTagAt, hostOrder_hostOrder, writeCacheTag_eq inside] at written
  rw [← Option.some.inj written, readCacheTag_modifyLine inside] at read
  have same := congrArg (hostOrder littleEndianBo) (Option.some.inj read)
  rw [hostOrder_hostOrder, hostOrder_hostOrder] at same
  rw [← same] at back
  exact (readsBack_iff _ _).mp back

/-- A tag access is a round trip if and only if its way exists and its word leaves the LRR bit clear:
the LRR bit is taken from bit 8 of the word and then shifted out, and a way above the last one is a
line of a later set, or none. -/
theorem tag_round_trip_iff (cfg : Config) (littleEndianBo setlock : Bool) (address data : BitVec 32) :
    TagRoundTrip cfg littleEndianBo setlock address data ↔
      namedWay cfg address ≤ cfg.mSets ∧ data.getLsbD 9 = false := by
  constructor
  · intro trip
    have inSet : namedWay cfg address ≤ cfg.mSets :=
      Nat.not_lt.mp fun above => not_behind above trip
    exact ⟨inSet, clear_of_tagRoundTrip inSet trip⟩
  · rintro ⟨inSet, clear⟩
    exact tagRoundTrip_of_clear inSet clear

/-- A set bit 9 does not come back. -/
theorem lrr_bit_lost : ¬∀ (cfg : Config) (littleEndianBo setlock : Bool) (address data : BitVec 32),
    TagRoundTrip cfg littleEndianBo setlock address data := by
  intro all
  have clear := clear_of_tagRoundTrip (by decide) (all smallDataCache false false 0 0x200)
  exact absurd clear (by decide)

end VectorCache

end Socrocket.MmuCache
