/- Socrocket/MmuCache/CacheAccess
   digest: Reads answer from the view of memory; reads, writes, flushes and snoops keep it. -/

import Socrocket.MmuCache.CacheInvariant

set_option autoImplicit false
set_option relaxedAutoImplicit false

namespace Socrocket.MmuCache

open Socrocket.Base.BitField
open Socrocket.Base.ByteMemory

namespace VectorCache

variable {cfg : Config} {c c' : VectorCache} {view : Memory 32} {stale : BitVec 32 → Prop}
  (linefetch : cfg.newLinefetchEn = true)

theorem byte_of_access {address : BitVec 32} {len i : ℕ}
    (inside : cfg.InsideLine address len) (hi : i < len) :
    cfg.SameLine address (address + BitVec.ofNat 32 i) ∧
      (cfg.getOffset (address + BitVec.ofNat 32 i)).toNat = (cfg.getOffset address).toNat + i := by
  have small : i < 2 ^ 32 := by
    have := inside.room cfg
    omega
  have dist := distance_add address small
  have range : InRange address len (address + BitVec.ofNat 32 i) := by rwa [InRange, dist]
  have line := cfg.sameLine_of_inRange inside range
  have offsets := (cfg.inRange_iff_offset inside line).mp range
  have gap := cfg.distance_inside inside range
  exact ⟨line, by omega⟩

theorem memcpy_line {address : BitVec 32} {len : ℕ} {line data : Buffer}
    (bytes : ∀ i < len, line ((cfg.getOffset address).toNat + i) = view (address + BitVec.ofNat 32 i)) :
    memcpy data (skip line (cfg.getOffset address).toNat) len =
      memcpy data (bytesAt view address) len := by
  funext i
  unfold memcpy
  split_ifs with hi
  · exact bytes i hi
  · rfl

theorem read_position (cfg : Config) (address : BitVec 32) :
    (cfg.getOffset address >>> 2).toNat * 4 + (address &&& 0x3).toNat =
      (cfg.getOffset address).toNat := by
  have word := words_add_bytes (cfg.getOffset address)
  have low (x : BitVec 32) : (x &&& 0x3).toNat = x.toNat % 4 := by
    rw [BitVec.toNat_and]
    exact Nat.and_two_pow_sub_one_eq_mod x.toNat 2
  rw [low] at word ⊢
  have offset := cfg.getOffset_toNat address
  rcases cfg.linesize_cases with ⟨-, -, h⟩ | ⟨-, -, h⟩ <;> rw [h] at offset <;> omega

theorem Shows.read_hit (inv : Shows cfg c view stale) {r : Request} {way : ℕ}
    (held : Holds cfg c r.address way) (inside : cfg.InsideLine r.address r.len.toNat)
    (fresh : ∀ b, InRange r.address r.len.toNat b → ¬ stale b) (data : Buffer) (reply : Reply) :
    (memReadHit cfg c r data reply way).2.1 = memcpy data (bytesAt view r.address) r.len.toNat := by
  simp only [memReadHit, read_position]
  refine memcpy_line fun i hi => ?_
  obtain ⟨line, offset⟩ := byte_of_access inside hi
  have range : InRange r.address r.len.toNat (r.address + BitVec.ofNat 32 i) := by
    rw [InRange, distance_add _ (by have := inside.room cfg; omega)]
    exact hi
  have shown := inv.shows _ way (held.congr line) (fresh _ range)
  rw [byteAt, offset, ← line.2] at shown
  exact shown

theorem Shows.after_read_hit (inv : Shows cfg c view stale) (r : Request) (way : ℕ) (data : Buffer)
    (reply : Reply) : Shows cfg (memReadHit cfg c r data reply way).1 view stale := by
  have aged : Shows cfg (if cfg.mRepl = 1 then lruUpdate cfg c (cfg.getIdx r.address) way else c)
      view stale := by
    split_ifs
    · exact inv.of_sameLines ⟨fun i w _ => core_lruUpdate .., fun i w _ => lrr_lruUpdate ..⟩
    · exact inv
  exact aged.of_cacheMem rfl

theorem Shows.line_bytes (inv : Shows cfg c view fun _ => False) {idx offset : BitVec 32} {way : ℕ}
    (inside : idx.toNat < cfg.mNumberOfVectors) (hway : way ≤ cfg.mSets)
    (hoffset : offset.toNat < cfg.mBytesperline)
    (valid : (lookupLine cfg c idx way).valid &&& 0x1 ≠ 0) :
    (lookupLine cfg c idx way).entry offset.toNat =
      view (cfg.getAddress (lookupLine cfg c idx way).atag idx offset) := by
  have hidx : idx.toNat < 2 ^ cfg.mIdxBits := by
    by_contra behind
    exact valid (inv.unused idx way (Nat.not_lt.mp behind) inside hway)
  have htag := inv.atag_lt idx way hidx hway valid
  have tag := cfg.getTag_getAddress htag hidx hoffset
  have index := cfg.getIdx_getAddress htag hidx hoffset
  have held : Holds cfg c (cfg.getAddress (lookupLine cfg c idx way).atag idx offset) way :=
    ⟨hway, by rw [index, tag], by rwa [index]⟩
  have shown := inv.shows _ way held not_false
  rwa [byteAt, index, cfg.getOffset_getAddress htag hidx hoffset] at shown

include linefetch

theorem memReadLookup_hit {ccr : BitVec 32} {r : Request} {way : ℕ}
    (path : memReadLookup cfg ccr c r = .hit way) : Holds cfg c r.address way := by
  unfold memReadLookup at path
  by_cases searched : r.isDbg = false ∧ r.asi ≠ 0x1c ∧ checkMode cfg ccr &&& 0x1 ≠ 0
  · rw [if_pos searched] at path
    cases found : locateLine cfg c (cfg.getTag r.address) (cfg.getIdx r.address)
        (cfg.getOffset r.address) r.len with
    | none => simp [found] at path
    | some v =>
      by_cases plain : r.asi > 3
      · simp only [found, plain, if_true, ReadPath.hit.injEq] at path
        subst v
        exact locateLine_holds linefetch found
      · simp only [found, plain, if_false, reduceCtorEq] at path
  · simp only [if_neg searched, reduceCtorEq] at path

theorem memReadLookup_refill (inv : WellTagged cfg c) {ccr : BitVec 32} {r : Request}
    {cacheHit : Option ℕ} {ahbAddress ahbLen : BitVec 32}
    (path : memReadLookup cfg ccr c r = .refill cacheHit ahbAddress ahbLen) :
    ahbAddress = cfg.lineAddress r.address ∧ ahbLen = BitVec.ofNat 32 cfg.mBytesperline ∧
      RefillReady cfg c r.address cacheHit := by
  unfold memReadLookup at path
  by_cases searched : r.isDbg = false ∧ r.asi ≠ 0x1c ∧ checkMode cfg ccr &&& 0x1 ≠ 0
  · rw [if_pos searched] at path
    cases found : locateLine cfg c (cfg.getTag r.address) (cfg.getIdx r.address)
        (cfg.getOffset r.address) r.len with
    | none =>
      simp only [found, refillTransfer, linefetch, if_true, ReadPath.refill.injEq] at path
      obtain ⟨rfl, rfl, rfl⟩ := path
      exact ⟨rfl, rfl, not_holds_of_locateLine linefetch found⟩
    | some way =>
      by_cases plain : r.asi > 3
      · simp only [found, plain, if_true, reduceCtorEq] at path
      · simp only [found, plain, refillTransfer, linefetch, if_true, if_false,
          ReadPath.refill.injEq] at path
        obtain ⟨rfl, rfl, rfl⟩ := path
        have held := locateLine_holds linefetch found
        exact ⟨rfl, rfl, held.1, fun v other => inv.single _ v way other held⟩
  · simp only [if_neg searched, reduceCtorEq] at path

/-- The second half of a missed read answers with the view and installs the line. -/
theorem Shows.read_refill (inv : Shows cfg c view stale) {r : Request} {cacheHit : Option ℕ}
    (ready : RefillReady cfg c r.address cacheHit) (inside : cfg.InsideLine r.address r.len.toNat)
    {ahbData : Buffer}
    (fetched : ∀ b, cfg.SameLine r.address b → ahbData (cfg.getOffset b).toNat = view b)
    (ccr : BitVec 32) (data : Buffer) (reply : Reply) (cacheableLocal : Bool) :
    ∃ c' reply', memReadRefill cfg ccr c r cacheHit (cfg.lineAddress r.address)
        (BitVec.ofNat 32 cfg.mBytesperline) data ahbData reply cacheableLocal =
          some (c', memcpy data (bytesAt view r.address) r.len.toNat, reply') ∧
      Shows cfg c' view stale := by
  have copied : memcpy data (skip ahbData (cfg.getOffset r.address).toNat) r.len.toNat =
      memcpy data (bytesAt view r.address) r.len.toNat := by
    refine memcpy_line fun i hi => ?_
    obtain ⟨line, offset⟩ := byte_of_access inside hi
    rw [← offset]
    exact fetched _ line
  simp only [memReadRefill, linefetch, if_true, copied, Config.getTag_lineAddress,
    Config.getIdx_lineAddress, Config.getOffset_lineAddress]
  cases cacheHit with
  | some way =>
    have updated := inv.refill_line linefetch ready.1 ready.2 fetched
    exact ⟨_, _, rfl, updated.of_cacheMem rfl⟩
  | none =>
    dsimp only
    split_ifs with allocate frozen
    · obtain ⟨way, c₁, allocated, shown⟩ := inv.allocate_line linefetch ready fetched
      rw [allocated]
      exact ⟨_, _, rfl, shown.of_cacheMem rfl⟩
    · exact ⟨_, _, rfl, inv.of_cacheMem rfl⟩
    · exact ⟨_, _, rfl, inv.of_cacheMem rfl⟩

/-- A write updates the line on a hit and touches no line on a miss: the view moves along. -/
theorem Shows.write_update (inv : Shows cfg c view stale) {r : Request}
    (inside : cfg.InsideLine r.address r.len.toNat) (data : Buffer) (reply : Reply) :
    Shows cfg (memWriteUpdate cfg c r data reply).1
      (writeBytes view r.address data r.len.toNat) stale := by
  unfold memWriteUpdate
  dsimp only
  cases found : locateLine cfg c (cfg.getTag r.address) (cfg.getIdx r.address)
      (cfg.getOffset r.address) r.len with
  | some way =>
    have held := locateLine_holds linefetch found
    have only : OnlyHolds cfg c r.address way := fun v other => inv.single _ v way other held
    refine Shows.of_cacheMem (c := updateLine cfg c (cfg.getTag r.address) (cfg.getIdx r.address)
      (cfg.getOffset r.address) way r.len data) ?_ rfl
    refine inv.update_line linefetch held.1 only (fun b line fresh => ?_) (fun b line fresh => ?_)
    · by_cases range : InRange r.address r.len.toNat b
      · have offsets := (cfg.inRange_iff_offset inside line).mp range
        rw [copyTo, if_pos offsets, writeBytes_of_inRange range, cfg.distance_inside inside range]
      · have offsets := (not_congr (cfg.inRange_iff_offset inside line)).mp range
        have shown := inv.shows b way (held.congr line) fresh
        rw [byteAt, ← line.2] at shown
        rw [copyTo, if_neg offsets, writeBytes_of_not_inRange range, shown]
    · refine ⟨fresh, writeBytes_of_not_inRange fun range => ?_⟩
      exact line (cfg.sameLine_of_inRange inside range)
  | none =>
    have missed := not_holds_of_locateLine linefetch found
    refine Shows.of_cacheMem (c := c) ⟨inv.toWellTagged, fun b way held fresh => ?_⟩ rfl
    rw [writeBytes_of_not_inRange, inv.shows b way held fresh]
    intro range
    have line := cfg.sameLine_of_inRange inside range
    exact missed way (held.congr ⟨line.1.symm, line.2.symm⟩)

omit linefetch

theorem Shows.flush_all (inv : WellTagged cfg c) (reply : Reply) (view : Memory 32)
    (stale : BitVec 32 → Prop) : Shows cfg (flush cfg c reply).1 view stale := by
  have inside {i : BitVec 32} (hi : i.toNat < 2 ^ cfg.mIdxBits) : i.toNat < cfg.mNumberOfVectors :=
    lt_of_lt_of_le hi cfg.two_pow_mIdxBits_le
  have empty (a : BitVec 32) (way : ℕ) : ¬ Holds cfg (flush cfg c reply).1 a way := by
    rintro ⟨hway, -, hvalid⟩
    have core := core_flush (c := c) reply (inside (cfg.getIdx_lt a)) hway
    exact hvalid (by rw [show (lookupLine cfg (flush cfg c reply).1 (cfg.getIdx a) way).valid = 0 from
      congrArg LineCore.valid core]; rfl)
  exact
    { single := fun a v w held => absurd held (empty a v)
      atag_lt := fun i w hi hw hvalid => by
        have core := core_flush (c := c) reply (inside hi) hw
        rw [show (lookupLine cfg (flush cfg c reply).1 i w).valid = 0 from
          congrArg LineCore.valid core] at hvalid
        exact absurd rfl hvalid
      unused := fun i w _ within hw => by
        have core := core_flush (c := c) reply within hw
        rw [show (lookupLine cfg (flush cfg c reply).1 i w).valid = 0 from congrArg LineCore.valid core]
        rfl
      unlocked := fun i w hi hw =>
        (congrArg LineCore.lock (core_flush reply (inside hi) hw)).trans (inv.unlocked i w hi hw)
      replaceable := fun repl i hi => by
        rw [lrr_flush, lrr_flush]
        exact inv.replaceable repl i hi
      shows := fun a way held => absurd held (empty a way) }

include linefetch

theorem holds_snoopWords {address : BitVec 32} {n : ℕ} {a : BitVec 32} {way : ℕ}
    (held : Holds cfg (snoopWords cfg n c address) a way) :
    Holds cfg c a way ∧ (∀ j < n, ¬ cfg.SameLine (address + BitVec.ofNat 32 (4 * j)) a) ∧
      byteAt cfg (snoopWords cfg n c address) a way = byteAt cfg c a way := by
  obtain ⟨hway, htag, hvalid⟩ := held
  have core := core_snoopWords c (cfg.getIdx a) address linefetch n hway
  have atag := congrArg LineCore.atag core
  rw [apply_ite LineCore.atag] at atag
  simp only [CacheLine.core, ite_self] at atag
  have tag_eq : (lookupLine cfg c (cfg.getIdx a) way).atag = cfg.getTag a := atag.symm.trans htag
  split_ifs at core with snooped_word
  · have valid := congrArg LineCore.valid core
    simp only [CacheLine.core] at valid
    exact absurd (by rw [valid]; rfl) hvalid
  · have valid := congrArg LineCore.valid core
    simp only [CacheLine.core] at valid
    refine ⟨⟨hway, tag_eq, by rwa [← valid]⟩, fun j hj line => ?_, ?_⟩
    · exact snooped_word ⟨j, hj, line.2.symm, tag_eq.trans line.1.symm⟩
    · exact congrFun (congrArg LineCore.entry core) _

theorem Shows.snoop (inv : Shows cfg c view stale) {address : BitVec 32} {n : ℕ}
    (covered : ∀ a, stale a → ∃ j < n, cfg.SameLine (address + BitVec.ofNat 32 (4 * j)) a) :
    Shows cfg (snoopWords cfg n c address) view fun _ => False where
  single a v w hv hw :=
    inv.single a v w (holds_snoopWords linefetch hv).1 (holds_snoopWords linefetch hw).1
  atag_lt i w hi hw hvalid := by
    have core := core_snoopWords c i address linefetch n hw
    split_ifs at core
    · have valid := congrArg LineCore.valid core
      simp only [CacheLine.core] at valid
      exact absurd (by rw [valid]; rfl) hvalid
    · have atag := congrArg LineCore.atag core
      have valid := congrArg LineCore.valid core
      simp only [CacheLine.core] at atag valid
      rw [atag]
      exact inv.atag_lt i w hi hw (by rwa [← valid])
  unused i w behind inside hw := by
    have core := core_snoopWords c i address linefetch n hw
    have valid := congrArg LineCore.valid core
    rw [apply_ite LineCore.valid] at valid
    simp only [CacheLine.core] at valid
    rw [valid]
    split_ifs
    · rfl
    · exact inv.unused i w behind inside hw
  unlocked i w hi hw := by
    have lock := congrArg LineCore.lock
      (core_snoopWords c i address linefetch n hw)
    rw [apply_ite LineCore.lock] at lock
    simp only [CacheLine.core, ite_self] at lock
    rw [lock]
    exact inv.unlocked i w hi hw
  replaceable repl i hi := by
    rw [lrr_snoopWords, lrr_snoopWords]
    exact inv.replaceable repl i hi
  shows a way held _ := by
    obtain ⟨old, apart, same⟩ := holds_snoopWords linefetch held
    rw [same]
    refine inv.shows a way old fun hstale => ?_
    obtain ⟨j, hj, line⟩ := covered a hstale
    exact apart j hj line

/-- The snoop of a range that starts at a word, or stays inside one line, reaches every line of it. -/
theorem Shows.snoop_range (inv : Shows cfg c view stale) {base : BitVec 32} {len : ℕ}
    (room : base.toNat + 4 * ((len + 3) / 4) < 2 ^ 32)
    (reaches : base.toNat % 4 = 0 ∨ cfg.InsideLine base len)
    (covered : ∀ a, stale a → InRange base len a) :
    Shows cfg (snoopWords cfg ((len + 3) / 4) c base) view fun _ => False := by
  apply inv.snoop linefetch
  intro a old
  have range := covered a old
  rcases reaches with aligned | inside
  · rw [inRange_iff_of_no_wrap (by omega)] at range
    refine ⟨(a.toNat - base.toNat) / 4, by omega, ?_⟩
    have word : (base + BitVec.ofNat 32 (4 * ((a.toNat - base.toNat) / 4))).toNat =
        base.toNat + 4 * ((a.toNat - base.toNat) / 4) := by
      rw [BitVec.toNat_add, BitVec.toNat_ofNat, Nat.mod_eq_of_lt (by omega),
        Nat.mod_eq_of_lt (by omega)]
    rw [cfg.sameLine_iff, word]
    rcases cfg.linesize_cases with ⟨-, -, h⟩ | ⟨-, -, h⟩ <;> rw [h] <;> omega
  · refine ⟨0, ?_, ?_⟩
    · rw [InRange] at range
      omega
    · rw [first_step]
      exact cfg.sameLine_of_inRange inside range

end VectorCache

end Socrocket.MmuCache
