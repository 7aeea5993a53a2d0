/- Socrocket/MmuCache/PartialLines
   digest: Lines with a valid bit for each word: the mask of an access, the words a line holds, and
   what keeps them equal to memory. -/

import Socrocket.MmuCache.CacheAccess

set_option autoImplicit false
set_option relaxedAutoImplicit false

namespace Socrocket.MmuCache

open Socrocket.Base.BitField
open Socrocket.Base.ByteMemory

namespace VectorCache

/-- The number of valid bits the mask of an access has. -/
def maskWords (offset len : ℕ) : ℕ :=
  max 1 (len / 4) + if offset % 4 = 0 ∧ len % 4 = 0 then 0 else 1

theorem mask_touched {offset len k : ℕ} (plain : len = 1 ∨ len = 2 ∨ len = 4 ∨ len = 8)
    (from_first : offset ≤ k) (to_last : k < offset + len) :
    offset / 4 ≤ k / 4 ∧ k / 4 < offset / 4 + maskWords offset len := by
  unfold maskWords
  split_ifs <;> omega

theorem mask_whole {offset len k : ℕ} (some_byte : 0 < len) (whole : offset % 4 = 0 ∧ len % 4 = 0) :
    offset / 4 ≤ k / 4 ∧ k / 4 < offset / 4 + maskWords offset len ↔ offset ≤ k ∧ k < offset + len := by
  rw [maskWords, if_pos whole]
  omega

theorem mask_within {offset len words : ℕ} (plain : len = 1 ∨ len = 2 ∨ len = 4 ∨ len = 8)
    (inside : offset + len ≤ words * 4) :
    offset / 4 + maskWords offset len ≤ words ↔ len % 4 = 0 ∨ offset / 4 + 1 < words := by
  unfold maskWords
  split_ifs <;> omega

section Mask

variable {cfg : Config} {offset len : BitVec 32}

private theorem low_bits_ne_zero (x : BitVec 32) : x &&& 3 ≠ 0 ↔ x.toNat % 4 ≠ 0 := by
  have low : (x &&& 3).toNat = x.toNat % 4 := by
    rw [BitVec.toNat_and]
    exact Nat.and_two_pow_sub_one_eq_mod x.toNat 2
  rw [ne_eq, ← BitVec.toNat_inj, low]
  rfl

/-- The mask of an access inside the line is a run of bits from its first word on. -/
theorem getLsbD_offset2valid (some_byte : 0 < len.toNat)
    (inside : offset.toNat + len.toNat ≤ cfg.mBytesperline) (i : ℕ) :
    (offset2valid cfg offset len).getLsbD i =
      decide (offset.toNat / 4 ≤ i ∧ i < offset.toNat / 4 + maskWords offset.toNat len.toNat) := by
  have size := cfg.mBytesperline_le
  have sum : (offset + len).toNat = offset.toNat + len.toNat := by
    rw [BitVec.toNat_add, Nat.mod_eq_of_lt (by omega)]
  have fits : ¬ (len = 0 ∨ offset + len > BitVec.ofNat 32 cfg.mBytesperline) := by
    rintro (empty | behind)
    · rw [empty] at some_byte
      exact absurd some_byte (Nat.lt_irrefl 0)
    · rw [gt_iff_lt, BitVec.lt_def, sum, cfg.toNat_mBytesperline] at behind
      omega
  have first : (offset >>> 2).toNat = offset.toNat / 4 := toNat_shiftRight offset 2
  have words : (len >>> 2).toNat = len.toNat / 4 := toNat_shiftRight len 2
  have aligned : IsRun ((fun r : BitVec 32 => r ||| r <<< (1 : ℕ))^[(len >>> 2).toNat - 1]
      ((1 : BitVec 32) <<< (offset >>> 2).toNat)) (offset.toNat / 4) (max 1 (len.toNat / 4)) := by
    have run := (isRun_one_shiftLeft (w := 32) (offset.toNat / 4)).iterate_widen Nat.one_pos
      (len.toNat / 4 - 1)
    rw [first, words]
    rwa [show 1 + (len.toNat / 4 - 1) = max 1 (len.toNat / 4) by omega] at run
  have run : IsRun (offset2valid cfg offset len) (offset.toNat / 4)
      (maskWords offset.toNat len.toNat) := by
    have broken := or_congr (low_bits_ne_zero offset) (low_bits_ne_zero len)
    rw [offset2valid, if_neg fits, maskWords]
    dsimp only
    by_cases whole : offset.toNat % 4 = 0 ∧ len.toNat % 4 = 0
    · rw [if_pos whole, if_neg (fun bits => by have := broken.mp bits; omega)]
      exact aligned
    · rw [if_neg whole, if_pos (broken.mpr (by omega))]
      exact aligned.widen (by omega)
  by_cases inWord : i < 32
  · exact run i inWord
  · have few : maskWords offset.toNat len.toNat ≤ 9 := by
      unfold maskWords
      split_ifs <;> omega
    rw [BitVec.getLsbD_of_ge _ _ (by omega), eq_comm, decide_eq_false_iff_not]
    omega

end Mask

variable (cfg : Config)

/-- A way of the set of an address holds its word, with a valid bit for each word. -/
def HoldsWord (c : VectorCache) (a : BitVec 32) (way : ℕ) : Prop :=
  way ≤ cfg.mSets ∧ (lookupLine cfg c (cfg.getIdx a) way).atag = cfg.getTag a ∧
    (lookupLine cfg c (cfg.getIdx a) way).valid.getLsbD ((cfg.getOffset a).toNat / 4) = true

/-- Only words of a line are valid, and every word a line holds shows a view of memory. -/
structure WordsShow (c : VectorCache) (view : Memory 32) : Prop where
  unlocked : ∀ i w, w ≤ cfg.mSets → (lookupLine cfg c i w).lock = 0
  replaceable : cfg.mRepl = 2 → ∀ i : BitVec 32,
    (lookupLine cfg c i 0).lrr = 0 ∨ (lookupLine cfg c i 1).lrr = 0
  placed : ∀ i w k, w ≤ cfg.mSets → (lookupLine cfg c i w).valid.getLsbD k = true →
    k < cfg.mWordsperline ∧ i.toNat < 2 ^ cfg.mIdxBits ∧
      (lookupLine cfg c i w).atag.toNat < 2 ^ cfg.mTagBits
  shows : ∀ a way, HoldsWord cfg c a way → byteAt cfg c a way = view a

variable {cfg} {c c' : VectorCache} {view view' : Memory 32}

theorem WordsShow.of_sameLines (same : SameLines cfg c c') (inv : WordsShow cfg c view) :
    WordsShow cfg c' view where
  unlocked i w hw := (congrArg LineCore.lock (same.1 i w hw)).trans (inv.unlocked i w hw)
  replaceable repl i := by
    have two := cfg.mRepl_two repl
    rw [same.2 i 0 (by omega), same.2 i 1 (by omega)]
    exact inv.replaceable repl i
  placed i w k hw bit := by
    have atag := congrArg LineCore.atag (same.1 i w hw)
    have valid := congrArg LineCore.valid (same.1 i w hw)
    simp only [CacheLine.core] at atag valid
    rw [valid] at bit
    rw [atag]
    exact inv.placed i w k hw bit
  shows a way held := by
    have core := same.1 (cfg.getIdx a) way held.1
    have atag := congrArg LineCore.atag core
    have valid := congrArg LineCore.valid core
    have entry := congrArg LineCore.entry core
    simp only [CacheLine.core] at atag valid entry
    have old : HoldsWord cfg c a way := ⟨held.1, atag ▸ held.2.1, valid ▸ held.2.2⟩
    rw [byteAt, entry]
    exact inv.shows a way old

theorem WordsShow.of_cacheMem (inv : WordsShow cfg c view) (same : c'.cacheMem = c.cacheMem) :
    WordsShow cfg c' view := by
  refine inv.of_sameLines ⟨fun i w _ => ?_, fun i w _ => ?_⟩ <;> simp only [lookupLine, same]

section UpdateLine

variable {a offset len : BitVec 32} {way : ℕ} {data : Buffer}
  (partialLines : cfg.newLinefetchEn = false) (hway : way ≤ cfg.mSets)

include partialLines

theorem refilled_bit {line : LineCore} {tag : BitVec 32} {k : ℕ} :
    (refilled cfg line tag offset len data).valid.getLsbD k = true ↔
      line.atag = tag ∧ line.valid.getLsbD k = true ∨
        (offset2valid cfg offset len).getLsbD k = true := by
  simp only [refilled, partialLines, Bool.false_eq_true, if_false]
  rw [BitVec.getLsbD_or, Bool.or_eq_true]
  by_cases same : line.atag = tag
  · rw [if_pos same, and_iff_right same]
  · have clear : (0 : BitVec 32).getLsbD k = false := BitVec.getLsbD_zero
    simp only [same, if_false, false_and, clear, Bool.false_eq_true]

include hway

theorem holdsWord_updateLine {b : BitVec 32} {w : ℕ}
    (held : HoldsWord cfg (updateLine cfg c (cfg.getTag a) (cfg.getIdx a) offset way len data) b w) :
    (cfg.SameLine a b ∧ w = way ∧
        ((offset2valid cfg offset len).getLsbD ((cfg.getOffset b).toNat / 4) = true ∨
          HoldsWord cfg c b way)) ∨
      (¬ (cfg.getIdx b = cfg.getIdx a ∧ w = way) ∧ HoldsWord cfg c b w) := by
  obtain ⟨hw, htag, bit⟩ := held
  have core := core_updateLine c (cfg.getIdx a) (cfg.getIdx b) (cfg.getTag a) offset len data hway hw
  by_cases here : cfg.getIdx b = cfg.getIdx a ∧ w = way
  · rw [if_pos here] at core
    have line : cfg.SameLine a b := ⟨(congrArg LineCore.atag core).symm.trans htag, here.1.symm⟩
    have bits := congrArg LineCore.valid core
    change _ = (refilled ..).valid at bits
    change (CacheLine.core _).valid.getLsbD _ = true at bit
    rw [bits, refilled_bit partialLines] at bit
    refine .inl ⟨line, here.2, bit.symm.imp_right fun old => ?_⟩
    exact ⟨hway, by rw [here.1, ← line.1]; exact old.1, by rw [here.1]; exact old.2⟩
  · rw [if_neg here] at core
    have atag := congrArg LineCore.atag core
    have valid := congrArg LineCore.valid core
    simp only [CacheLine.core] at atag valid
    exact .inr ⟨here, hw, atag ▸ htag, valid ▸ bit⟩

/-- The update rule: the updated line shows the new view, the other words showed it before. -/
theorem WordsShow.update_line (inv : WordsShow cfg c view)
    (within : ∀ k, (offset2valid cfg offset len).getLsbD k = true → k < cfg.mWordsperline)
    (line_shows : ∀ b, cfg.SameLine a b →
      (offset2valid cfg offset len).getLsbD ((cfg.getOffset b).toNat / 4) = true ∨
        HoldsWord cfg c b way →
      copyTo (lookupLine cfg c (cfg.getIdx a) way).entry offset.toNat data len.toNat
        (cfg.getOffset b).toNat = view' b)
    (frame : ∀ b w, HoldsWord cfg c b w → ¬ (cfg.getIdx b = cfg.getIdx a ∧ w = way) →
      view' b = view b) :
    WordsShow cfg (updateLine cfg c (cfg.getTag a) (cfg.getIdx a) offset way len data) view' where
  unlocked i w hw := by
    have core := core_updateLine c (cfg.getIdx a) i (cfg.getTag a) offset len data hway hw
    have lock := congrArg LineCore.lock core
    rw [apply_ite LineCore.lock] at lock
    simp only [CacheLine.core, refilled] at lock
    rw [lock]
    split_ifs with here
    · exact inv.unlocked _ way hway
    · exact inv.unlocked i w hw
  replaceable repl i := by
    have two := cfg.mRepl_two repl
    rw [lrr_updateLine _ _ _ _ _ _ _ (by omega), lrr_updateLine _ _ _ _ _ _ _ (by omega)]
    split_ifs with hit first second second
    · omega
    · exact .inr rfl
    · exact .inl rfl
    · exact .inl rfl
    · exact inv.replaceable repl i
  placed i w k hw bit := by
    have core := core_updateLine c (cfg.getIdx a) i (cfg.getTag a) offset len data hway hw
    by_cases here : i = cfg.getIdx a ∧ w = way
    · rw [if_pos here] at core
      have atag := congrArg LineCore.atag core
      have bits := congrArg LineCore.valid core
      change (lookupLine ..).atag = cfg.getTag a at atag
      change (CacheLine.core _).valid.getLsbD _ = true at bit
      rw [bits, refilled_bit partialLines] at bit
      rw [atag, here.1]
      refine ⟨?_, cfg.getIdx_lt a, cfg.getTag_lt a⟩
      rcases bit with old | new
      · exact (inv.placed _ way k hway old.2).1
      · exact within k new
    · rw [if_neg here] at core
      have atag := congrArg LineCore.atag core
      have valid := congrArg LineCore.valid core
      simp only [CacheLine.core] at atag valid
      rw [valid] at bit
      rw [atag]
      exact inv.placed i w k hw bit
  shows b w held := by
    rcases holdsWord_updateLine partialLines hway held with ⟨line, rfl, word⟩ | ⟨here, old⟩
    · rw [byteAt_updateLine_same hway line]
      exact line_shows b line word
    · rw [byteAt_updateLine_other hway old.1 here, inv.shows b w old, frame b w old here]

end UpdateLine

section Fetch

variable {a len : BitVec 32} {ahbData : Buffer} (partialLines : cfg.newLinefetchEn = false)
  (some_byte : 0 < len.toNat) (whole : a.toNat % 4 = 0 ∧ len.toNat % 4 = 0)
  (inside : cfg.InsideLine a len.toNat)
  (fetched : ∀ b, InRange a len.toNat b → ahbData (distance a b) = view b)

include partialLines some_byte whole inside fetched

theorem WordsShow.fetch_words (inv : WordsShow cfg c view) {way : ℕ} (hway : way ≤ cfg.mSets) :
    WordsShow cfg (updateLine cfg c (cfg.getTag a) (cfg.getIdx a) (cfg.getOffset a) way len ahbData)
      view := by
  have aligned : (cfg.getOffset a).toNat % 4 = 0 ∧ len.toNat % 4 = 0 := by
    have offset := cfg.getOffset_toNat a
    rcases cfg.linesize_cases with ⟨-, -, h⟩ | ⟨-, -, h⟩ <;> rw [h] at offset <;> omega
  have mask := getLsbD_offset2valid some_byte inside
  apply inv.update_line partialLines hway
  · intro k bit
    rw [mask, decide_eq_true_eq, maskWords, if_pos aligned] at bit
    have lines : cfg.mBytesperline = cfg.mWordsperline * 4 := rfl
    unfold Config.InsideLine at inside
    omega
  · intro b line word
    by_cases range : InRange a len.toNat b
    · rw [copyTo, if_pos ((cfg.inRange_iff_offset inside line).mp range),
        ← cfg.distance_inside inside range, fetched b range]
    · have offsets := (not_congr (cfg.inRange_iff_offset inside line)).mp range
      rw [copyTo, if_neg offsets]
      rcases word with bit | held
      · rw [mask, decide_eq_true_eq, mask_whole some_byte aligned] at bit
        exact absurd bit offsets
      · have shown := inv.shows b way held
        rwa [byteAt, ← line.2] at shown
  · intro b w _ _
    rfl

theorem WordsShow.allocate_words (inv : WordsShow cfg c view) :
    ∃ way c', allocateLine cfg c (cfg.getTag a) (cfg.getIdx a) (cfg.getOffset a) len ahbData =
      some (way, c') ∧ WordsShow cfg c' view := by
  unfold allocateLine
  cases free : (List.range (cfg.mSets + 1)).find? fun way =>
      lineFree cfg (lookupLine cfg c (cfg.getIdx a) way) (cfg.getOffset a) len with
  | some way =>
    have hway := List.mem_range.mp (List.mem_of_find?_eq_some free)
    exact ⟨way, _, rfl, inv.fetch_words partialLines some_byte whole inside fetched (by omega)⟩
  | none =>
    obtain ⟨way, c', selected, hway, same⟩ := replacementSelector_eq
      (lt_of_lt_of_le (cfg.getIdx_lt a) cfg.two_pow_mIdxBits_le) (fun w => inv.unlocked _ w)
      fun repl => inv.replaceable repl _
    have inv' : WordsShow cfg c' view := inv.of_cacheMem same
    dsimp only
    rw [selected]
    exact ⟨way, _, rfl, inv'.fetch_words partialLines some_byte whole inside fetched hway⟩

end Fetch

section Access

variable {r : Request} (partialLines : cfg.newLinefetchEn = false)
  (plain : r.len.toNat = 1 ∨ r.len.toNat = 2 ∨ r.len.toNat = 4 ∨ r.len.toNat = 8)
  (inside : cfg.InsideLine r.address r.len.toNat)

theorem lineHits_words {line : CacheLine} {offset len : BitVec 32}
    (partialLines : cfg.newLinefetchEn = false)
    (hit : lineHits cfg line offset len = true) {k : ℕ}
    (bit : (offset2valid cfg offset len).getLsbD k = true) : line.valid.getLsbD k = true := by
  simp only [lineHits, partialLines, Bool.false_eq_true, if_false, beq_iff_eq] at hit
  rw [← hit, BitVec.getLsbD_and, Bool.and_eq_true] at bit
  exact bit.1

include partialLines plain inside

theorem holdsWord_of_locateLine {way : ℕ} (found : locateLine cfg c (cfg.getTag r.address)
      (cfg.getIdx r.address) (cfg.getOffset r.address) r.len = some way) {b : BitVec 32}
    (range : InRange r.address r.len.toNat b) : HoldsWord cfg c b way := by
  obtain ⟨hway, htag, hit⟩ := locateLine_some found
  have line := cfg.sameLine_of_inRange inside range
  have offsets := (cfg.inRange_iff_offset inside line).mp range
  refine ⟨hway, by rw [← line.2, htag, line.1], ?_⟩
  rw [← line.2]
  apply lineHits_words partialLines hit
  rw [getLsbD_offset2valid (by omega) inside, decide_eq_true_eq]
  exact mask_touched plain offsets.1 offsets.2

omit partialLines plain in
theorem WordsShow.read_hit (inv : WordsShow cfg c view) {way : ℕ}
    (held : ∀ b, InRange r.address r.len.toNat b → HoldsWord cfg c b way) (data : Buffer)
    (reply : Reply) :
    (memReadHit cfg c r data reply way).2.1 = memcpy data (bytesAt view r.address) r.len.toNat := by
  simp only [memReadHit, read_position]
  refine memcpy_line fun i hi => ?_
  obtain ⟨line, offset⟩ := byte_of_access inside hi
  have range : InRange r.address r.len.toNat (r.address + BitVec.ofNat 32 i) := by
    rw [InRange, distance_add _ (by have := inside.room cfg; omega)]
    exact hi
  have shown := inv.shows _ way (held _ range)
  rw [byteAt, offset, ← line.2] at shown
  exact shown

omit partialLines plain inside in
theorem WordsShow.after_read_hit (inv : WordsShow cfg c view) (r : Request) (way : ℕ)
    (data : Buffer) (reply : Reply) : WordsShow cfg (memReadHit cfg c r data reply way).1 view := by
  have aged : WordsShow cfg (if cfg.mRepl = 1 then lruUpdate cfg c (cfg.getIdx r.address) way else c)
      view := by
    split_ifs
    · exact inv.of_sameLines ⟨fun i w _ => core_lruUpdate .., fun i w _ => lrr_lruUpdate ..⟩
    · exact inv
  exact aged.of_cacheMem rfl

/-- A way holds a word that `len` bytes from an address on touch. -/
def HoldsBytes (cfg : Config) (c : VectorCache) (a : BitVec 32) (len way : ℕ) : Prop :=
  ∃ i < len, HoldsWord cfg c (a + BitVec.ofNat 32 i) way

omit partialLines plain inside in
theorem holdsBytes_of_inRange {a b : BitVec 32} {len way : ℕ} (range : InRange a len b)
    (held : HoldsWord cfg c b way) : HoldsBytes cfg c a len way :=
  ⟨distance a b, range, by rwa [add_distance]⟩

/-- At most one way holds words that a store touches, and that way has every bit of its mask. -/
def StoreFinds (cfg : Config) (c : VectorCache) (r : Request) : Prop :=
  ∀ way ≤ cfg.mSets, HoldsBytes cfg c r.address r.len.toNat way →
    lineHits cfg (lookupLine cfg c (cfg.getIdx r.address) way) (cfg.getOffset r.address) r.len = true ∧
      ∀ v ≤ cfg.mSets, HoldsBytes cfg c r.address r.len.toNat v → v = way

theorem WordsShow.write_update (inv : WordsShow cfg c view) (finds : StoreFinds cfg c r)
    (data : Buffer) (reply : Reply) :
    WordsShow cfg (memWriteUpdate cfg c r data reply).1
      (writeBytes view r.address data r.len.toNat) := by
  unfold memWriteUpdate
  dsimp only
  cases found : locateLine cfg c (cfg.getTag r.address) (cfg.getIdx r.address)
      (cfg.getOffset r.address) r.len with
  | some way =>
    obtain ⟨hway, htag, hit⟩ := locateLine_some found
    have touched {b : BitVec 32} (range : InRange r.address r.len.toNat b) :=
      holdsWord_of_locateLine partialLines plain inside found range
    have first : InRange r.address r.len.toNat r.address := by
      rw [InRange, distance_self]
      omega
    have mine := holdsBytes_of_inRange first (touched first)
    refine WordsShow.of_cacheMem (c := updateLine cfg c (cfg.getTag r.address)
      (cfg.getIdx r.address) (cfg.getOffset r.address) way r.len data) ?_ rfl
    apply inv.update_line partialLines hway
    · intro k bit
      exact (inv.placed _ way k hway (lineHits_words partialLines hit bit)).1
    · intro b line word
      by_cases range : InRange r.address r.len.toNat b
      · rw [copyTo, if_pos ((cfg.inRange_iff_offset inside line).mp range),
          writeBytes_of_inRange range, cfg.distance_inside inside range]
      · have held : HoldsWord cfg c b way := by
          rcases word with bit | held
          · exact ⟨hway, by rw [← line.2, htag, line.1],
              by rw [← line.2]; exact lineHits_words partialLines hit bit⟩
          · exact held
        have shown := inv.shows b way held
        rw [byteAt, ← line.2] at shown
        rw [copyTo, if_neg ((not_congr (cfg.inRange_iff_offset inside line)).mp range),
          writeBytes_of_not_inRange range, shown]
    · intro b w held other
      refine writeBytes_of_not_inRange fun range => other ?_
      have line := cfg.sameLine_of_inRange inside range
      exact ⟨line.2.symm, (finds way hway mine).2 w held.1 (holdsBytes_of_inRange range held)⟩
  | none =>
    refine WordsShow.of_cacheMem (c := c) ?_ rfl
    refine { inv with shows := fun b w held => ?_ }
    rw [inv.shows b w held, writeBytes_of_not_inRange]
    intro range
    have line := cfg.sameLine_of_inRange inside range
    have miss := locateLine_none found held.1 (by rw [line.2, held.2.1, line.1])
    rw [(finds w held.1 (holdsBytes_of_inRange range held)).1] at miss
    cases miss

end Access

theorem WordsShow.flush_all (inv : WordsShow cfg c view) (reply : Reply) (view' : Memory 32) :
    WordsShow cfg (flush cfg c reply).1 view' := by
  have empty (i : BitVec 32) (w k : ℕ) (hw : w ≤ cfg.mSets) :
      (lookupLine cfg (flush cfg c reply).1 i w).valid.getLsbD k = false := by
    simp only [flush, lookupLine]
    split_ifs with inside
    · exact BitVec.getLsbD_zero
    · by_contra bit
      rw [Bool.not_eq_false] at bit
      have placed := (inv.placed i w k hw bit).2.1
      exact inside (position_lt_size cfg (lt_of_lt_of_le placed cfg.two_pow_mIdxBits_le) hw)
  exact
    { unlocked := fun i w hw => by
        rw [← inv.unlocked i w hw]
        simp only [flush, lookupLine]
        split_ifs <;> rfl
      replaceable := fun repl i => by
        rw [lrr_flush, lrr_flush]
        exact inv.replaceable repl i
      placed := fun i w k hw bit => by
        rw [empty i w k hw] at bit
        cases bit
      shows := fun a w held => by
        have bit := held.2.2
        rw [empty _ w _ held.1] at bit
        cases bit }

theorem WordsShow.change_view (inv : WordsShow cfg c view)
    (agree : ∀ a w, HoldsWord cfg c a w → view' a = view a) : WordsShow cfg c view' :=
  { inv with shows := fun a w held => (inv.shows a w held).trans (agree a w held).symm }

section Snoop

variable {address : BitVec 32}

private theorem holdsWord_snoopWord {a : BitVec 32} {w : ℕ}
    (held : HoldsWord cfg (snoopWord cfg c address) a w) :
    HoldsWord cfg c a w ∧ ¬ (cfg.SameLine address a ∧
      (offset2valid cfg (cfg.getOffset address) 4).getLsbD ((cfg.getOffset a).toNat / 4) = true) := by
  obtain ⟨hw, htag, bit⟩ := held
  rw [atag_snoopWord] at htag
  obtain ⟨old, kept⟩ := (bit_snoopWord _ _ _ hw).mp bit
  exact ⟨⟨hw, htag, old⟩, fun cleared =>
    kept ⟨cleared.1.2.symm, htag.trans cleared.1.1.symm, fun _ => cleared.2⟩⟩

private theorem WordsShow.snoopWord (inv : WordsShow cfg c view) :
    WordsShow cfg (snoopWord cfg c address) view where
  unlocked i w hw :=
    (view_snoopWord CacheLine.lock (fun _ _ => rfl) _).trans (inv.unlocked i w hw)
  replaceable repl i := by
    rw [lrr_snoopWord, lrr_snoopWord]
    exact inv.replaceable repl i
  placed i w k hw bit := by
    rw [atag_snoopWord]
    exact inv.placed i w k hw ((bit_snoopWord _ _ _ hw).mp bit).1
  shows a w held := by
    have old := (holdsWord_snoopWord held).1
    have entry : (lookupLine cfg (VectorCache.snoopWord cfg c address) (cfg.getIdx a) w).entry =
        (lookupLine cfg c (cfg.getIdx a) w).entry :=
      view_snoopWord CacheLine.entry (fun _ _ => rfl) _
    rw [byteAt, entry]
    exact inv.shows a w old

theorem WordsShow.snoop (inv : WordsShow cfg c view) (n : ℕ) :
    WordsShow cfg (snoopWords cfg n c address) view := by
  induction n generalizing c address with
  | zero => exact inv
  | succ n ih => exact ih inv.snoopWord

theorem holdsWord_snoopWords {a : BitVec 32} {n w : ℕ}
    (held : HoldsWord cfg (snoopWords cfg n c address) a w) :
    HoldsWord cfg c a w ∧ ∀ j < n, ¬ (cfg.SameLine (address + BitVec.ofNat 32 (4 * j)) a ∧
      (offset2valid cfg (cfg.getOffset (address + BitVec.ofNat 32 (4 * j))) 4).getLsbD
        ((cfg.getOffset a).toNat / 4) = true) := by
  induction n generalizing c address with
  | zero => exact ⟨held, fun j hj => absurd hj (Nat.not_lt_zero j)⟩
  | succ n ih =>
    obtain ⟨before, later⟩ := ih held
    obtain ⟨first, here⟩ := holdsWord_snoopWord before
    refine ⟨first, fun j hj => ?_⟩
    cases j with
    | zero =>
      rw [first_step]
      exact here
    | succ j =>
      have rest := later j (by omega)
      rwa [shift_step] at rest

end Snoop

end VectorCache

end Socrocket.MmuCache
