/- Socrocket/MmuCache/PartialFetch
   digest: A cache that fetches words or bursts stays coherent while its masks name the words that
   every access touches. -/

import Socrocket.MmuCache.PartialLines
import Socrocket.MmuCache.WriteThrough

set_option autoImplicit false
set_option relaxedAutoImplicit false

namespace Socrocket.MmuCache

open Socrocket.Base.BitField
open Socrocket.Base.ByteMemory
open Socrocket.Base.Run

namespace VectorCache

variable {cfg : Config} {c : VectorCache} {view : Memory 32}

/-- A missed access fetches up to the end of the line. -/
def BurstFetch (cfg : Config) (ccr : BitVec 32) : Prop := cfg.burstEn ≠ 0 ∧ ccr &&& 0x10000 ≠ 0

instance (ccr : BitVec 32) : Decidable (BurstFetch cfg ccr) := inferInstanceAs (Decidable (_ ∧ _))

/-- A word fetch brings one word, or two for a double word. -/
def wordFetch (len : BitVec 32) : ℕ := if len = 8 then 8 else 4

theorem refillTransfer_spec (partialLines : cfg.newLinefetchEn = false)
    (ccr address len : BitVec 32) :
    (refillTransfer cfg ccr address len).1.toNat = address.toNat / 4 * 4 ∧
      (refillTransfer cfg ccr address len).2.toNat =
        if BurstFetch cfg ccr then cfg.mBytesperline - (cfg.getOffset address).toNat / 4 * 4
        else wordFetch len := by
  have words (x : BitVec 32) : ((x >>> 2) <<< 2).toNat = x.toNat / 4 * 4 := by
    have fits : (x >>> 2).toNat < 2 ^ 30 := by
      rw [toNat_shiftRight]
      omega
    rw [toNat_shiftLeft_of_lt (by omega) fits, toNat_shiftRight]
    rfl
  have size := cfg.mBytesperline_le
  have below := cfg.getOffset_lt address
  unfold refillTransfer
  rw [if_neg (by rw [partialLines]; exact Bool.false_ne_true)]
  by_cases burst : BurstFetch cfg ccr
  · have fetch : cfg.burstEn ≠ 0 ∧ ccr &&& 0x10000 ≠ 0 := burst
    rw [if_pos fetch, if_pos burst]
    refine ⟨words address, ?_⟩
    dsimp only
    rw [BitVec.toNat_sub, words, cfg.toNat_mBytesperline]
    omega
  · have fetch : ¬ (cfg.burstEn ≠ 0 ∧ ccr &&& 0x10000 ≠ 0) := burst
    rw [if_neg fetch, if_neg burst]
    refine ⟨words address, ?_⟩
    unfold wordFetch
    split_ifs <;> rfl

theorem refillTransfer_inside (partialLines : cfg.newLinefetchEn = false) (ccr : BitVec 32)
    {address len : BitVec 32} (inside : cfg.InsideLine address len.toNat) :
    cfg.InsideLine (refillTransfer cfg ccr address len).1
        (refillTransfer cfg ccr address len).2.toNat ∧
      (refillTransfer cfg ccr address len).2.toNat % 4 = 0 ∧
      0 < (refillTransfer cfg ccr address len).2.toNat := by
  obtain ⟨start, size⟩ := refillTransfer_spec partialLines ccr address len
  have below := cfg.getOffset_lt address
  have multiple := cfg.mBytesperline_mod_four
  have offset : (cfg.getOffset (refillTransfer cfg ccr address len).1).toNat =
      (cfg.getOffset address).toNat / 4 * 4 := by
    rw [cfg.getOffset_toNat, start, cfg.getOffset_toNat]
    rcases cfg.linesize_cases with ⟨-, -, h⟩ | ⟨-, -, h⟩ <;> rw [h] <;> omega
  unfold Config.InsideLine at inside ⊢
  rw [offset, size]
  split_ifs with burst
  · omega
  · by_cases double : len = 8
    · rw [double] at inside ⊢
      change (cfg.getOffset address).toNat + 8 ≤ cfg.mBytesperline at inside
      change _ + 8 ≤ _ ∧ 8 % 4 = 0 ∧ 0 < 8
      omega
    · rw [wordFetch, if_neg double]
      omega

theorem WordsShow.read_refill (partialLines : cfg.newLinefetchEn = false)
    (inv : WordsShow cfg c view) {r : Request} (inside : cfg.InsideLine r.address r.len.toNat)
    {cacheHit : Option ℕ} (ways : ∀ way ∈ cacheHit, way ≤ cfg.mSets) {ahbAddress ahbLen : BitVec 32}
    (start : ahbAddress.toNat = r.address.toNat / 4 * 4) (words : ahbLen.toNat % 4 = 0)
    (some_byte : 0 < ahbLen.toNat) (line : cfg.InsideLine ahbAddress ahbLen.toNat) {ahbData : Buffer}
    (fetched : ∀ b, InRange ahbAddress ahbLen.toNat b → ahbData (distance ahbAddress b) = view b)
    (covers : r.address.toNat % 4 + r.len.toNat ≤ ahbLen.toNat) (ccr : BitVec 32) (data : Buffer)
    (reply : Reply) (cacheableLocal : Bool) :
    ∃ c' reply', memReadRefill cfg ccr c r cacheHit ahbAddress ahbLen data ahbData reply
        cacheableLocal = some (c', memcpy data (bytesAt view r.address) r.len.toNat, reply') ∧
      WordsShow cfg c' view := by
  have low : (r.address &&& 0x3).toNat = r.address.toNat % 4 := by
    rw [BitVec.toNat_and]
    exact Nat.and_two_pow_sub_one_eq_mod r.address.toNat 2
  have copied : memcpy data (skip ahbData (r.address &&& 0x3).toNat) r.len.toNat =
      memcpy data (bytesAt view r.address) r.len.toNat := by
    funext i
    unfold memcpy
    split_ifs with hi
    · have room := inside.room cfg
      have place : (r.address + BitVec.ofNat 32 i).toNat = r.address.toNat + i := by
        rw [BitVec.toNat_add, BitVec.toNat_ofNat, Nat.mod_eq_of_lt (by omega : i < 2 ^ 32),
          Nat.mod_eq_of_lt (by omega)]
      have gap : distance ahbAddress (r.address + BitVec.ofNat 32 i) = r.address.toNat % 4 + i := by
        rw [distance_of_le (by omega), place, start]
        omega
      have byte := fetched (r.address + BitVec.ofNat 32 i) (by rw [InRange, gap]; omega)
      rw [gap] at byte
      rw [skip, low, byte]
      rfl
    · rfl
  have whole : ahbAddress.toNat % 4 = 0 ∧ ahbLen.toNat % 4 = 0 := ⟨by omega, words⟩
  simp only [memReadRefill, partialLines, Bool.false_eq_true, if_false, copied]
  cases cacheHit with
  | some way =>
    have updated := inv.fetch_words partialLines some_byte whole line fetched (ways way rfl)
    exact ⟨_, _, rfl, updated.of_cacheMem rfl⟩
  | none =>
    dsimp only
    split_ifs with allocate frozen
    · obtain ⟨way, c₁, allocated, shown⟩ :=
        inv.allocate_words partialLines some_byte whole line fetched
      rw [allocated]
      exact ⟨_, _, rfl, shown.of_cacheMem rfl⟩
    · exact ⟨_, _, rfl, inv.of_cacheMem rfl⟩
    · exact ⟨_, _, rfl, inv.of_cacheMem rfl⟩

/-- A read gets all its bytes: from a burst, from a word fetch, or from a line that holds them. -/
def ReadCovered (cfg : Config) (ccr : BitVec 32) (c : VectorCache) (r : Request) : Prop :=
  BurstFetch cfg ccr ∨ r.address.toNat % 4 + r.len.toNat ≤ wordFetch r.len ∨
    (r.asi > 3 ∧ ∃ way ≤ cfg.mSets, (lookupLine cfg c (cfg.getIdx r.address) way).atag =
      cfg.getTag r.address ∧
      lineHits cfg (lookupLine cfg c (cfg.getIdx r.address) way) (cfg.getOffset r.address) r.len = true)

/-- The mask of an access has no bit behind the words of the line. -/
def MaskInLine (cfg : Config) (r : Request) : Prop :=
  r.len.toNat % 4 = 0 ∨ (cfg.getOffset r.address).toNat / 4 + 1 < cfg.mWordsperline

/-- The masks of a snooped write name every word it touched: it starts at a word, or it starts
before the last word of a line and does not end in the first bytes of another. -/
def SnoopReaches (cfg : Config) (w : BlockWrite 32) : Prop :=
  w.base.toNat % 4 = 0 ∨ (cfg.getOffset w.base).toNat + 4 ≤ cfg.mBytesperline ∧
    w.base.toNat % 4 ≤ (w.base.toNat + w.len - 1) % cfg.mBytesperline

private theorem snoop_names {cfg : Config} {w : BlockWrite 32} (reaches : SnoopReaches cfg w)
    {b : ℕ} (from_first : w.base.toNat ≤ b) (to_last : b < w.base.toNat + w.len) :
    ∃ j < (w.len + 3) / 4,
      (w.base.toNat + 4 * j) / cfg.mBytesperline = b / cfg.mBytesperline ∧
      (w.base.toNat + 4 * j) % cfg.mBytesperline + 4 ≤ cfg.mBytesperline ∧
      (w.base.toNat + 4 * j) % cfg.mBytesperline / 4 ≤ b % cfg.mBytesperline / 4 ∧
      b % cfg.mBytesperline / 4 < (w.base.toNat + 4 * j) % cfg.mBytesperline / 4 +
        maskWords ((w.base.toNat + 4 * j) % cfg.mBytesperline) 4 := by
  rw [SnoopReaches, cfg.getOffset_toNat] at reaches
  generalize w.base.toNat = a at *
  generalize w.len = len at *
  -- the mask that starts in the byte's own word, else the one that starts a word before
  by_cases own : b / 4 - a / 4 < (len + 3) / 4 ∧
      (a % 4 = 0 ∨ b / 4 % cfg.mWordsperline + 1 < cfg.mWordsperline)
  · refine ⟨b / 4 - a / 4, own.1, ?_⟩
    unfold maskWords
    rcases cfg.linesize_range with h | h
    · simp only [Config.mBytesperline, Config.mWordsperline, h] at *
      refine ⟨by omega, by omega, by omega, ?_⟩
      split_ifs <;> omega
    · simp only [Config.mBytesperline, Config.mWordsperline, h] at *
      refine ⟨by omega, by omega, by omega, ?_⟩
      split_ifs <;> omega
  · refine ⟨b / 4 - a / 4 - 1, by omega, ?_⟩
    unfold maskWords
    rcases cfg.linesize_range with h | h
    · simp only [Config.mBytesperline, Config.mWordsperline, h] at *
      refine ⟨by omega, by omega, by omega, ?_⟩
      split_ifs <;> omega
    · simp only [Config.mBytesperline, Config.mWordsperline, h] at *
      refine ⟨by omega, by omega, by omega, ?_⟩
      split_ifs <;> omega

theorem not_inRange_of_snooped {cfg : Config} {c : VectorCache} {w : BlockWrite 32}
    (reaches : SnoopReaches cfg w)
    (room : w.base.toNat + 4 * ((w.len + 3) / 4) < 2 ^ 32) {b : BitVec 32} {way : ℕ}
    (held : HoldsWord cfg (snoopWords cfg ((w.len + 3) / 4) c w.base) b way) :
    ¬ InRange w.base w.len b := by
  intro range
  rw [inRange_iff_of_no_wrap (by omega)] at range
  obtain ⟨j, hj, line, inside, first, last⟩ := snoop_names reaches range.1 range.2
  have place : (w.base + BitVec.ofNat 32 (4 * j)).toNat = w.base.toNat + 4 * j := by
    rw [BitVec.toNat_add, BitVec.toNat_ofNat, Nat.mod_eq_of_lt (by omega : 4 * j < 2 ^ 32),
      Nat.mod_eq_of_lt (by omega)]
  have offset : (cfg.getOffset (w.base + BitVec.ofNat 32 (4 * j))).toNat =
      (w.base.toNat + 4 * j) % cfg.mBytesperline := by
    rw [cfg.getOffset_toNat, place]
  refine (holdsWord_snoopWords held).2 j hj ⟨?_, ?_⟩
  · rw [cfg.sameLine_iff, place]
    exact line
  · rw [getLsbD_offset2valid (by decide) (by rw [offset]; exact inside), decide_eq_true_eq, offset,
      cfg.getOffset_toNat]
    exact ⟨first, last⟩

end VectorCache

open VectorCache

section System

variable {σ : Type} {cfg : Config} {m : MemIf σ} {mem : MemoryBacked m} {s : CacheSystem σ}

/-- The accesses of a processor that do not bypass the MMU. -/
def Accesses (cfg : Config) : CacheEvent → Prop
  | .memRead r _ _ _ => PlainAccess cfg r
  | .memWrite r _ _ => PlainAccess cfg r
  | .flush _ => True
  | .writeCcr _ => True
  | .busWrite _ => True

/-- The masks of the cache name the words that an event touches. -/
def MasksFit (cfg : Config) (s : CacheSystem σ) : CacheEvent → Prop
  | .memRead r _ _ _ => r.isDbg = false → Searched cfg s.ccr r →
      MaskInLine cfg r ∧ ReadCovered cfg s.ccr s.cache r
  | .memWrite r _ _ =>
      if Searched cfg s.ccr r then MaskInLine cfg r ∧ StoreFinds cfg s.cache r
      else ∀ way ≤ cfg.mSets, ¬ HoldsBytes cfg s.cache r.address r.len.toNat way
  | .flush _ => True
  | .writeCcr _ => True
  | .busWrite w =>
      if checkMode cfg s.ccr &&& 0x3 ≠ 0 then
        w.base.toNat + 4 * ((w.len + 3) / 4) < 2 ^ 32 ∧
          ((∃ way ≤ cfg.mSets, HoldsBytes cfg s.cache w.base w.len way) → SnoopReaches cfg w)
      else ∀ way ≤ cfg.mSets, ¬ HoldsBytes cfg s.cache w.base w.len way

theorem wordsShow_of_coldStart {c : VectorCache} (cold : ColdStart c) (view : Memory 32) :
    WordsShow cfg c view := by
  have clear (i : BitVec 32) (w k : ℕ) : (lookupLine cfg c i w).valid.getLsbD k = false := by
    rw [show (lookupLine cfg c i w).valid = 0 from (cold _).1]
    exact BitVec.getLsbD_zero
  exact
    { unlocked := fun i w _ => (cold _).2.1
      replaceable := fun _ i => .inl (cold _).2.2
      placed := fun i w k _ bit => by
        rw [clear] at bit
        cases bit
      shows := fun a w held => by
        have bit := held.2.2
        rw [clear] at bit
        cases bit }

theorem PlainAccess.len_cases {r : Request} (plain : PlainAccess cfg r) :
    r.len.toNat = 1 ∨ r.len.toNat = 2 ∨ r.len.toNat = 4 ∨ r.len.toNat = 8 := by
  rcases plain.2.1 with h | h | h | h <;> simp [h]

theorem memRead_words (partialLines : cfg.newLinefetchEn = false) {c : VectorCache} {t : σ}
    (inv : WordsShow cfg c (mem.bytes t)) {r : Request} (plain : PlainAccess cfg r) {ccr : BitVec 32}
    (covered : r.isDbg = false → Searched cfg ccr r → ReadCovered cfg ccr c r) (data : Buffer)
    (reply : Reply) (ahbData : Buffer) :
    ∃ c' t' reply', VectorCache.memRead cfg m ccr c t r data reply ahbData =
        some (c', t', memcpy data (bytesAt (mem.bytes t) r.address) r.len.toNat, reply') ∧
      mem.bytes t' = mem.bytes t ∧ WordsShow cfg c' (mem.bytes t) := by
  have lens := plain.len_cases
  have inside := plain.2.2
  unfold VectorCache.memRead
  rcases memReadLookup_cases cfg ccr c r with bypass | ⟨searched, ⟨way, found, hit⟩ | ⟨missed, refill⟩⟩
  · rw [bypass]
    exact ⟨{ c with bypassops := c.bypassops + 1 }, _, _, by dsimp only; rw [mem.memRead_data],
      mem.memRead_bytes t r data reply, inv.of_cacheMem rfl⟩
  · rw [hit]
    have held {b : BitVec 32} (range : InRange r.address r.len.toNat b) :=
      holdsWord_of_locateLine partialLines lens inside found range
    have answer := inv.read_hit inside (fun b range => held range) data reply
    exact ⟨_, t, _, by dsimp only; rw [answer], rfl, inv.after_read_hit r way data reply⟩
  · rw [refill]
    obtain ⟨start, size⟩ := refillTransfer_spec partialLines ccr r.address r.len
    dsimp only
    obtain ⟨line, words, some_byte⟩ := refillTransfer_inside partialLines ccr inside
    have covers : r.address.toNat % 4 + r.len.toNat ≤
        (refillTransfer cfg ccr r.address r.len).2.toNat := by
      rw [size]
      have offset := cfg.getOffset_toNat r.address
      unfold Config.InsideLine at inside
      rcases covered searched.1 searched.2 with burst | fits | ⟨cached, way, hway, htag, hit⟩
      · rw [if_pos burst]
        rcases cfg.linesize_cases with ⟨-, -, h⟩ | ⟨-, -, h⟩ <;> rw [h] at offset inside ⊢ <;> omega
      · split_ifs
        · rcases cfg.linesize_cases with ⟨-, -, h⟩ | ⟨-, -, h⟩ <;> rw [h] at offset inside ⊢ <;> omega
        · exact fits
      · rcases missed with missed | forced
        · rw [locateLine_none missed hway htag] at hit
          cases hit
        · exact absurd cached forced
    generalize (refillTransfer cfg ccr r.address r.len).1 = ahbAddress at *
    generalize (refillTransfer cfg ccr r.address r.len).2 = ahbLen at *
    generalize request : ({ r with address := ahbAddress, len := ahbLen } : Request) = q
    have fetched : ∀ b, InRange ahbAddress ahbLen.toNat b →
        (m.memRead t q ahbData reply).data (distance ahbAddress b) = mem.bytes t b := by
      intro b range
      rw [mem.memRead_data, ← request]
      dsimp only
      rw [memcpy_of_lt range, bytesAt_distance]
    obtain ⟨c', reply', refilled, shown⟩ := inv.read_refill partialLines inside
      (fun way found => (locateLine_some found).1) start words some_byte line fetched covers ccr data
      (m.memRead t q ahbData reply).reply (m.memRead t q ahbData reply).isCacheable
    exact ⟨c', _, reply', by rw [refilled]; rfl, mem.memRead_bytes .., shown⟩

theorem memWrite_words (partialLines : cfg.newLinefetchEn = false)
    (inv : WordsShow cfg s.cache (mem.bytes s.memory)) {r : Request} (plain : PlainAccess cfg r)
    {data : Buffer} {reply : Reply} (fits : MasksFit cfg s (.memWrite r data reply)) :
    WordsShow cfg (VectorCache.memWrite cfg m s.ccr s.cache s.memory r data reply).1
      (mem.bytes (VectorCache.memWrite cfg m s.ccr s.cache s.memory r data reply).2.1) := by
  unfold VectorCache.memWrite
  rw [MasksFit] at fits
  by_cases searched : Searched cfg s.ccr r
  · rw [if_pos searched] at fits
    have search : r.asi ≠ 0x1c ∧ checkMode cfg s.ccr &&& 0x1 ≠ 0 := searched
    rw [if_pos search]
    dsimp only
    rw [mem.memWrite_bytes]
    exact inv.write_update partialLines plain.len_cases plain.2.2 fits.2 data reply
  · rw [if_neg searched] at fits
    have search : ¬ (r.asi ≠ 0x1c ∧ checkMode cfg s.ccr &&& 0x1 ≠ 0) := searched
    rw [if_neg search]
    dsimp only
    rw [mem.memWrite_bytes]
    refine WordsShow.of_cacheMem (c := s.cache) (inv.change_view fun a w held => ?_) rfl
    exact writeBytes_of_not_inRange fun range => fits w held.1 (holdsBytes_of_inRange range held)

theorem busWrite_words (inv : WordsShow cfg s.cache (mem.bytes s.memory)) {w : BlockWrite 32}
    (fits : MasksFit cfg s (.busWrite w)) :
    ∃ c, VectorCache.snoopInvalidate cfg s.ccr s.cache ⟨w.base, BitVec.ofNat 32 w.len⟩ = some c ∧
      WordsShow cfg c (w.apply (mem.bytes s.memory)) := by
  rw [MasksFit] at fits
  by_cases on : checkMode cfg s.ccr &&& 0x3 ≠ 0
  · rw [if_pos on] at fits
    obtain ⟨room, reaches⟩ := fits
    refine ⟨_, snoopInvalidate_eq s.cache on room, ?_⟩
    refine (inv.snoop _).change_view fun a way held => ?_
    refine writeBytes_of_not_inRange fun range => ?_
    have before := (holdsWord_snoopWords held).1
    have named := reaches ⟨way, before.1, holdsBytes_of_inRange range before⟩
    exact not_inRange_of_snooped named room held range
  · rw [if_neg on] at fits
    refine ⟨s.cache, if_neg on, inv.change_view fun a way held => ?_⟩
    exact writeBytes_of_not_inRange fun range =>
      fits way held.1 (holdsBytes_of_inRange range held)

/-- Every event whose words the masks name is performed and keeps the words equal to memory. -/
theorem wordsShow_step (partialLines : cfg.newLinefetchEn = false) (event : CacheEvent)
    (inv : WordsShow cfg s.cache (mem.bytes s.memory)) (access : Accesses cfg event)
    (fits : MasksFit cfg s event) :
    ∃ t, cacheStep cfg mem s event = some t ∧ WordsShow cfg t.cache (mem.bytes t.memory) := by
  cases event with
  | memRead r data reply ahbData =>
    obtain ⟨c, t, reply', answer, same, shown⟩ := memRead_words partialLines inv access
      (fun bus searched => (fits bus searched).2) data reply ahbData
    exact ⟨{ s with cache := c, memory := t }, by rw [cacheStep, answer]; rfl,
      by rw [same]; exact shown⟩
  | memWrite r data reply =>
    exact ⟨_, rfl, memWrite_words partialLines inv access fits⟩
  | flush reply => exact ⟨_, rfl, inv.flush_all reply _⟩
  | writeCcr ccr => exact ⟨_, rfl, inv⟩
  | busWrite w =>
    obtain ⟨c, snooped, shown⟩ := busWrite_words inv fits
    exact ⟨{ s with cache := c, memory := mem.busWrite s.memory w },
      by rw [cacheStep, snooped]; rfl, by rw [mem.busWrite_bytes]; exact shown⟩

/-- Every word whose valid bit is set holds the memory word at its address. -/
def WordsShowMemory (cfg : Config) {m : MemIf σ} (mem : MemoryBacked m) (s : CacheSystem σ) : Prop :=
  ∀ (idx offset : BitVec 32) (way : ℕ), idx.toNat < cfg.mNumberOfVectors → way ≤ cfg.mSets →
    offset.toNat < cfg.mBytesperline →
    (lookupLine cfg s.cache idx way).valid.getLsbD (offset.toNat / 4) = true →
    (lookupLine cfg s.cache idx way).entry offset.toNat = mem.bytes s.memory
      (cfg.getAddress (lookupLine cfg s.cache idx way).atag idx offset)

/-- No valid bit behind the words of a line is set. -/
def OnlyWordsValid (cfg : Config) (s : CacheSystem σ) : Prop :=
  ∀ (idx : BitVec 32) (way k : ℕ), idx.toNat < cfg.mNumberOfVectors → way ≤ cfg.mSets →
    (lookupLine cfg s.cache idx way).valid.getLsbD k = true → k < cfg.mWordsperline

/-- The mask of an access asks for words of the line only. -/
def NeedsOnlyWords (cfg : Config) (r : Request) : Prop :=
  ∀ k, (offset2valid cfg (cfg.getOffset r.address) r.len).getLsbD k = true → k < cfg.mWordsperline

/-- A read ends and returns memory, and an access that searches the cache needs words only. -/
def Served (cfg : Config) {m : MemIf σ} (mem : MemoryBacked m) (s : CacheSystem σ) :
    CacheEvent → Prop
  | .memRead r buffer reply ahbData =>
      (∃ c t buffer' reply', VectorCache.memRead cfg m s.ccr s.cache s.memory r buffer reply ahbData =
          some (c, t, buffer', reply') ∧
        ∀ i < r.len.toNat, buffer' i = mem.bytes s.memory (r.address + BitVec.ofNat 32 i)) ∧
      (r.isDbg = false → Searched cfg s.ccr r → NeedsOnlyWords cfg r)
  | .memWrite r _ _ => Searched cfg s.ccr r → NeedsOnlyWords cfg r
  | .flush _ => True
  | .writeCcr _ => True
  | .busWrite _ => True

/-- The mask of an access stays inside the line exactly when no byte or half word of its last word
is accessed. -/
theorem needsOnlyWords_iff {r : Request} (plain : PlainAccess cfg r) :
    NeedsOnlyWords cfg r ↔ MaskInLine cfg r := by
  have lens := plain.len_cases
  have inside : (cfg.getOffset r.address).toNat + r.len.toNat ≤ cfg.mWordsperline * 4 := plain.2.2
  have bits (k : ℕ) := getLsbD_offset2valid (by omega : 0 < r.len.toNat) inside k
  rw [MaskInLine, ← mask_within lens inside]
  constructor
  · intro needs
    have last := needs ((cfg.getOffset r.address).toNat / 4 +
      maskWords (cfg.getOffset r.address).toNat r.len.toNat - 1)
    have some_word : 0 < maskWords (cfg.getOffset r.address).toNat r.len.toNat := by
      unfold maskWords
      omega
    rw [bits, decide_eq_true_eq] at last
    omega
  · intro within k bit
    rw [bits, decide_eq_true_eq] at bit
    omega

/-- Coherence of the partial line fetch modes: every run whose masks name the words that its events
touch exists, every word it leaves valid holds memory, and every further such access is served from
memory and needs no valid bit behind the line. -/
theorem partial_line_coherence (partialLines : cfg.newLinefetchEn = false) (mem : MemoryBacked m)
    (start : CacheSystem σ) (cold : ColdStart start.cache) (events : List CacheEvent)
    (accesses : ∀ e ∈ events, Accesses cfg e)
    (fits : Along (cacheStep cfg mem) (MasksFit cfg) start events) :
    ∃ s, run (cacheStep cfg mem) start events = some s ∧ WordsShowMemory cfg mem s ∧
      OnlyWordsValid cfg s ∧ ∀ e, Accesses cfg e → MasksFit cfg s e → Served cfg mem s e := by
  have init : WordsShow cfg start.cache (mem.bytes start.memory) := wordsShow_of_coldStart cold _
  obtain ⟨s, reached, inv⟩ := run_completes
    (fun s e inv good => wordsShow_step partialLines e inv good.1 good.2) init
    ((along_of_forall start accesses).and fits)
  refine ⟨s, reached, ?_, ?_, ?_⟩
  · intro idx offset way _ hway hoffset valid
    obtain ⟨-, hidx, htag⟩ := inv.placed idx way _ hway valid
    have tag := cfg.getTag_getAddress htag hidx hoffset
    have index := cfg.getIdx_getAddress htag hidx hoffset
    have position := cfg.getOffset_getAddress htag hidx hoffset
    have shown := inv.shows (cfg.getAddress (lookupLine cfg s.cache idx way).atag idx offset) way
      ⟨hway, by rw [index, tag], by rw [index, position]; exact valid⟩
    rwa [byteAt, index, position] at shown
  · intro idx way k _ hway valid
    exact (inv.placed idx way k hway valid).1
  · intro e access fit
    cases e with
    | memRead r buffer reply ahbData =>
      refine ⟨?_, fun bus searched => (needsOnlyWords_iff access).mpr (fit bus searched).1⟩
      obtain ⟨c, t, reply', answer, -, -⟩ := memRead_words partialLines inv access
        (fun bus searched => (fit bus searched).2) buffer reply ahbData
      exact ⟨c, t, _, reply', answer, fun i hi => memcpy_of_lt hi⟩
    | memWrite r data reply =>
      intro searched
      rw [MasksFit, if_pos searched] at fit
      exact (needsOnlyWords_iff access).mpr fit.1
    | flush reply => trivial
    | writeCcr ccr => trivial
    | busWrite w => trivial

end System

section Checked

variable {σ : Type} {cfg : Config}

instance (c : VectorCache) (a : BitVec 32) (way : ℕ) : Decidable (HoldsWord cfg c a way) :=
  inferInstanceAs (Decidable (_ ∧ _ ∧ _))

instance (c : VectorCache) (a : BitVec 32) (len way : ℕ) : Decidable (HoldsBytes cfg c a len way) :=
  inferInstanceAs (Decidable (∃ i < len, HoldsWord cfg c (a + BitVec.ofNat 32 i) way))

instance decidableEveryWay {p : ℕ → Prop} [DecidablePred p] (n : ℕ) : Decidable (∀ way ≤ n, p way) :=
  decidable_of_iff (∀ way < n + 1, p way) (by simp only [Nat.lt_succ_iff])

instance decidableSomeWay {p : ℕ → Prop} [DecidablePred p] (n : ℕ) : Decidable (∃ way ≤ n, p way) :=
  decidable_of_iff (∃ way < n + 1, p way) (by simp only [Nat.lt_succ_iff])

instance (c : VectorCache) (r : Request) : Decidable (StoreFinds cfg c r) := by
  unfold StoreFinds
  infer_instance

instance (ccr : BitVec 32) (c : VectorCache) (r : Request) : Decidable (ReadCovered cfg ccr c r) := by
  unfold ReadCovered
  infer_instance

instance (r : Request) : Decidable (MaskInLine cfg r) := inferInstanceAs (Decidable (_ ∨ _))

instance (w : BlockWrite 32) : Decidable (SnoopReaches cfg w) := inferInstanceAs (Decidable (_ ∨ _))

instance (s : CacheSystem σ) (e : CacheEvent) : Decidable (MasksFit cfg s e) := by
  cases e <;> unfold MasksFit <;> infer_instance

end Checked

/-- A two way data cache of 1 kB a way with lines of four words that fetches words or bursts. -/
def smallPartialCache : Config :=
  { smallDataCache with newLinefetchEn := false, burstEn := 1 }

/-- A load of a double word, a store of a half word in it, a burst, a byte another master writes,
and a flush. -/
def partialEvents : List CacheEvent :=
  [.memRead ⟨0x40000010, 0xa, 8, false, false⟩ (fun _ => 0) ⟨0, false⟩ fun _ => 0,
    .memWrite ⟨0x40000012, 0xa, 2, false, false⟩ (fun i => BitVec.ofNat 8 i) ⟨0, false⟩,
    .writeCcr 0x1000c,
    .memRead ⟨0x40000025, 0xa, 1, false, false⟩ (fun _ => 0) ⟨0, false⟩ fun _ => 0,
    .busWrite ⟨0x40000011, fun _ => 0xff, 1⟩, .flush ⟨0, false⟩]

theorem partial_line_coherence_small :
    ∃ s, run (cacheStep smallPartialCache (plainMemory_backed fun _ => true)) smallSystem
        partialEvents = some s ∧
      WordsShowMemory smallPartialCache (plainMemory_backed fun _ => true) s ∧
      OnlyWordsValid smallPartialCache s ∧
      ∀ e, Accesses smallPartialCache e → MasksFit smallPartialCache s e →
        Served smallPartialCache (plainMemory_backed fun _ => true) s e :=
  partial_line_coherence rfl (plainMemory_backed fun _ => true) smallSystem resetCache_cold
    partialEvents (by
      intro e member
      simp only [partialEvents, List.mem_cons, List.not_mem_nil, or_false] at member
      rcases member with rfl | rfl | rfl | rfl | rfl | rfl
      · exact ⟨by decide, by decide, by decide⟩
      · exact ⟨by decide, by decide, by decide⟩
      · trivial
      · exact ⟨by decide, by decide, by decide⟩
      · trivial
      · trivial) (by decide +kernel)

/-- The word at `0x40000010`. -/
def wordLoad : Request := ⟨0x40000010, 0xa, 4, false, false⟩

/-- A load of a word and a store of its first byte. -/
def staleEvents : List CacheEvent :=
  [.memRead wordLoad (fun _ => 0) ⟨0, false⟩ fun _ => 0,
    .memWrite { wordLoad with len := 1 } (fun _ => 0x5a) ⟨0, false⟩]

/-- The store misses the word that the load has cached, and the next load returns the old byte. -/
theorem byte_store_leaves_word_stale :
    (∀ e ∈ staleEvents, Accesses smallPartialCache e) ∧
      ∃ s, run (cacheStep smallPartialCache (plainMemory_backed fun _ => true)) smallSystem
          staleEvents = some s ∧
        ¬ WordsShowMemory smallPartialCache (plainMemory_backed fun _ => true) s ∧
        ¬ Served smallPartialCache (plainMemory_backed fun _ => true) s
          (.memRead wordLoad (fun _ => 0) ⟨0, false⟩ fun _ => 0) := by
  refine ⟨?_, ?_⟩
  · intro e member
    simp only [staleEvents, List.mem_cons, List.not_mem_nil, or_false] at member
    rcases member with rfl | rfl
    · exact ⟨by decide, by decide, by decide⟩
    · exact ⟨by decide, by decide, by decide⟩
  have evaluated : (run (cacheStep smallPartialCache (plainMemory_backed fun _ => true)) smallSystem
      staleEvents).map (fun s =>
        ((lookupLine smallPartialCache s.cache 1 0).valid.getLsbD 0,
          (lookupLine smallPartialCache s.cache 1 0).entry 0,
          s.memory (smallPartialCache.getAddress (lookupLine smallPartialCache s.cache 1 0).atag 1 0),
          s.memory 0x40000010,
          (VectorCache.memRead smallPartialCache (plainMemory fun _ => true) s.ccr s.cache s.memory
            wordLoad (fun _ => 0) ⟨0, false⟩ fun _ => 0).map fun t => t.2.2.1 0)) =
      some (true, 0, 0x5a, 0x5a, some 0) := by
    decide +kernel
  obtain ⟨s, reached, facts⟩ := Option.map_eq_some_iff.mp evaluated
  simp only [Prod.mk.injEq] at facts
  obtain ⟨valid, entry, behind, byte, answer⟩ := facts
  refine ⟨s, reached, fun shows => ?_, fun served => ?_⟩
  · have shown := shows 1 0 0 (by decide) (by decide) (by decide) valid
    change (lookupLine smallPartialCache s.cache 1 0).entry 0 = s.memory _ at shown
    rw [entry, behind] at shown
    exact absurd shown (by decide)
  · obtain ⟨⟨c, t, buffer, reply, read, bytes⟩, -⟩ := served
    have first := bytes 0 (by decide)
    rw [read] at answer
    have old : buffer 0 = 0 := Option.some.inj answer
    change buffer 0 = s.memory 0x40000010 at first
    rw [old, byte] at first
    exact absurd first (by decide)

end Socrocket.MmuCache
