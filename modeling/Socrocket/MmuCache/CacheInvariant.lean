/- Socrocket/MmuCache/CacheInvariant
   digest: Valid lines show a byte view of memory, and every cache operation keeps it so. -/

import Socrocket.MmuCache.CacheLines

set_option autoImplicit false
set_option relaxedAutoImplicit false

namespace Socrocket.MmuCache

open Socrocket.Base.BitField
open Socrocket.Base.ByteMemory

namespace VectorCache

variable (cfg : Config)

/-- A way of the set of an address holds its line, in line fetch mode. -/
def Holds (c : VectorCache) (a : BitVec 32) (way : ℕ) : Prop :=
  way ≤ cfg.mSets ∧ (lookupLine cfg c (cfg.getIdx a) way).atag = cfg.getTag a ∧
    (lookupLine cfg c (cfg.getIdx a) way).valid &&& 0x1 ≠ 0

/-- The byte of an address in a way of its set. -/
def byteAt (c : VectorCache) (a : BitVec 32) (way : ℕ) : BitVec 8 :=
  (lookupLine cfg c (cfg.getIdx a) way).entry (cfg.getOffset a).toNat

/-- Every way of the set that holds the address is the given way. -/
def OnlyHolds (c : VectorCache) (a : BitVec 32) (way : ℕ) : Prop := ∀ v, Holds cfg c a v → v = way

/-- What a cache with line fetches keeps about its tags. -/
structure WellTagged (c : VectorCache) : Prop where
  single : ∀ a v w, Holds cfg c a v → Holds cfg c a w → v = w
  atag_lt : ∀ i w, i.toNat < 2 ^ cfg.mIdxBits → w ≤ cfg.mSets →
    (lookupLine cfg c i w).valid &&& 0x1 ≠ 0 → (lookupLine cfg c i w).atag.toNat < 2 ^ cfg.mTagBits
  /-- No address has an index behind the last power of two, so nothing is stored there. -/
  unused : ∀ i w, 2 ^ cfg.mIdxBits ≤ i.toNat → i.toNat < cfg.mNumberOfVectors → w ≤ cfg.mSets →
    (lookupLine cfg c i w).valid &&& 0x1 = 0
  unlocked : ∀ i w, i.toNat < 2 ^ cfg.mIdxBits → w ≤ cfg.mSets → (lookupLine cfg c i w).lock = 0
  replaceable : cfg.mRepl = 2 → ∀ i : BitVec 32, i.toNat < 2 ^ cfg.mIdxBits →
    (lookupLine cfg c i 0).lrr = 0 ∨ (lookupLine cfg c i 1).lrr = 0

/-- A well tagged cache whose lines show a view of memory, except at stale addresses. -/
structure Shows (c : VectorCache) (view : Memory 32) (stale : BitVec 32 → Prop) : Prop extends
    WellTagged cfg c where
  shows : ∀ a way, Holds cfg c a way → ¬ stale a → byteAt cfg c a way = view a

variable {cfg} {c c' : VectorCache} {view view' : Memory 32} {stale stale' : BitVec 32 → Prop}

theorem Holds.congr {a b : BitVec 32} {way : ℕ} (line : cfg.SameLine a b) (h : Holds cfg c a way) :
    Holds cfg c b way := by
  unfold Holds at h ⊢
  rwa [← line.1, ← line.2]

/-- Caches with the same tags, valid bits, locks and data, and the same replacement marks. -/
def SameLines (cfg : Config) (c c' : VectorCache) : Prop :=
  (∀ i w, w ≤ cfg.mSets → (lookupLine cfg c' i w).core = (lookupLine cfg c i w).core) ∧
    ∀ i w, w ≤ cfg.mSets → (lookupLine cfg c' i w).lrr = (lookupLine cfg c i w).lrr

theorem SameLines.holds_iff (same : SameLines cfg c c') (a : BitVec 32) (way : ℕ) :
    Holds cfg c' a way ↔ Holds cfg c a way := by
  unfold Holds
  constructor
  · rintro ⟨hway, htag, hvalid⟩
    have core := same.1 (cfg.getIdx a) way hway
    have atag := congrArg LineCore.atag core
    have valid := congrArg LineCore.valid core
    simp only [CacheLine.core] at atag valid
    exact ⟨hway, atag ▸ htag, valid ▸ hvalid⟩
  · rintro ⟨hway, htag, hvalid⟩
    have core := same.1 (cfg.getIdx a) way hway
    have atag := congrArg LineCore.atag core
    have valid := congrArg LineCore.valid core
    simp only [CacheLine.core] at atag valid
    exact ⟨hway, by rw [atag]; exact htag, by rw [valid]; exact hvalid⟩

theorem Shows.of_sameLines (same : SameLines cfg c c') (inv : Shows cfg c view stale) :
    Shows cfg c' view stale where
  single a v w hv hw := inv.single a v w ((same.holds_iff a v).mp hv) ((same.holds_iff a w).mp hw)
  atag_lt i w hi hw hvalid := by
    have core := same.1 i w hw
    have atag := congrArg LineCore.atag core
    have valid := congrArg LineCore.valid core
    simp only [CacheLine.core] at atag valid
    rw [atag]
    exact inv.atag_lt i w hi hw (by rwa [← valid])
  unused i w behind inside hw := by
    have valid := congrArg LineCore.valid (same.1 i w hw)
    simp only [CacheLine.core] at valid
    rw [valid]
    exact inv.unused i w behind inside hw
  unlocked i w hi hw := (congrArg LineCore.lock (same.1 i w hw)).trans (inv.unlocked i w hi hw)
  replaceable repl i hi := by
    have two := cfg.mRepl_two repl
    rw [same.2 i 0 (by omega), same.2 i 1 (by omega)]
    exact inv.replaceable repl i hi
  shows a way held fresh := by
    have old := (same.holds_iff a way).mp held
    have entry := congrArg LineCore.entry (same.1 (cfg.getIdx a) way old.1)
    simp only [CacheLine.core] at entry
    rw [byteAt, entry]
    exact inv.shows a way old fresh

theorem Shows.weaken (inv : Shows cfg c view stale) (more : ∀ a, stale a → stale' a)
    (agree : ∀ a, ¬ stale' a → view' a = view a) : Shows cfg c view' stale' where
  toWellTagged := inv.toWellTagged
  shows a way held fresh := by
    rw [agree a fresh]
    exact inv.shows a way held fun old => fresh (more a old)

section UpdateLine

variable {a offset len : BitVec 32} {way : ℕ} {data : Buffer} (linefetch : cfg.newLinefetchEn = true)

theorem byteAt_updateLine_same (hway : way ≤ cfg.mSets) {b : BitVec 32} (line : cfg.SameLine a b) :
    byteAt cfg (updateLine cfg c (cfg.getTag a) (cfg.getIdx a) offset way len data) b way =
      copyTo (lookupLine cfg c (cfg.getIdx a) way).entry offset.toNat data len.toNat
        (cfg.getOffset b).toNat := by
  have core := core_updateLine c (cfg.getIdx a) (cfg.getIdx b) (cfg.getTag a) offset len data hway hway
  rw [if_pos ⟨line.2.symm, rfl⟩] at core
  exact congrFun (congrArg LineCore.entry core) _

theorem byteAt_updateLine_other (hway : way ≤ cfg.mSets) {b : BitVec 32} {w : ℕ}
    (hw : w ≤ cfg.mSets) (here : ¬ (cfg.getIdx b = cfg.getIdx a ∧ w = way)) :
    byteAt cfg (updateLine cfg c (cfg.getTag a) (cfg.getIdx a) offset way len data) b w =
      byteAt cfg c b w := by
  have core := core_updateLine c (cfg.getIdx a) (cfg.getIdx b) (cfg.getTag a) offset len data hway hw
  rw [if_neg here] at core
  exact congrFun (congrArg LineCore.entry core) _

include linefetch

theorem holds_updateLine (hway : way ≤ cfg.mSets) (only : OnlyHolds cfg c a way) (b : BitVec 32)
    (w : ℕ) :
    Holds cfg (updateLine cfg c (cfg.getTag a) (cfg.getIdx a) offset way len data) b w ↔
      (cfg.SameLine a b ∧ w = way) ∨
        (¬ cfg.SameLine a b ∧ ¬ (cfg.getIdx b = cfg.getIdx a ∧ w = way) ∧ Holds cfg c b w) := by
  constructor
  · rintro ⟨hw, htag, hvalid⟩
    have core := core_updateLine c (cfg.getIdx a) (cfg.getIdx b) (cfg.getTag a) offset len data hway hw
    by_cases here : cfg.getIdx b = cfg.getIdx a ∧ w = way
    · rw [if_pos here] at core
      have atag := congrArg LineCore.atag core
      simp only [CacheLine.core, refilled] at atag
      exact .inl ⟨⟨atag ▸ htag, here.1.symm⟩, here.2⟩
    · rw [if_neg here] at core
      have atag := congrArg LineCore.atag core
      have valid := congrArg LineCore.valid core
      simp only [CacheLine.core] at atag valid
      have held : Holds cfg c b w := ⟨hw, atag ▸ htag, valid ▸ hvalid⟩
      refine .inr ⟨fun line => ?_, here, held⟩
      exact here ⟨line.2.symm, only w (held.congr ⟨line.1.symm, line.2.symm⟩)⟩
  · rintro (⟨line, rfl⟩ | ⟨-, here, hw, htag, hvalid⟩)
    · have core := core_updateLine c (cfg.getIdx a) (cfg.getIdx b)
        (cfg.getTag a) offset len data hway hway
      rw [if_pos ⟨line.2.symm, rfl⟩] at core
      have atag := congrArg LineCore.atag core
      have valid := congrArg LineCore.valid core
      simp only [CacheLine.core, refilled, linefetch, if_true] at atag valid
      refine ⟨hway, atag.trans line.1, ?_⟩
      rw [valid]
      decide
    · have core := core_updateLine c (cfg.getIdx a) (cfg.getIdx b)
        (cfg.getTag a) offset len data hway hw
      rw [if_neg here] at core
      have atag := congrArg LineCore.atag core
      have valid := congrArg LineCore.valid core
      simp only [CacheLine.core] at atag valid
      exact ⟨hw, atag.trans htag, by rwa [valid]⟩

theorem WellTagged.update_line (inv : WellTagged cfg c) (hway : way ≤ cfg.mSets)
    (only : OnlyHolds cfg c a way) :
    WellTagged cfg (updateLine cfg c (cfg.getTag a) (cfg.getIdx a) offset way len data) where
  single b v w hv hw := by
    rw [holds_updateLine linefetch hway only] at hv hw
    rcases hv with ⟨line, rfl⟩ | ⟨line, -, held⟩ <;> rcases hw with ⟨line', rfl⟩ | ⟨line', -, held'⟩
    · rfl
    · exact absurd line line'
    · exact absurd line' line
    · exact inv.single b v w held held'
  atag_lt i w hi hw hvalid := by
    have core := core_updateLine c (cfg.getIdx a) i (cfg.getTag a) offset len data hway hw
    have atag := congrArg LineCore.atag core
    have valid := congrArg LineCore.valid core
    rw [apply_ite LineCore.atag] at atag
    rw [apply_ite LineCore.valid] at valid
    simp only [CacheLine.core, refilled] at atag valid
    rw [atag]
    split_ifs with here
    · exact cfg.getTag_lt a
    · rw [if_neg here] at valid
      exact inv.atag_lt i w hi hw (by rwa [← valid])
  unused i w behind inside hw := by
    have core := core_updateLine c (cfg.getIdx a) i (cfg.getTag a) offset len data hway hw
    have apart : ¬(i = cfg.getIdx a ∧ w = way) := by
      rintro ⟨rfl, -⟩
      exact absurd (cfg.getIdx_lt a) (Nat.not_lt.mpr behind)
    rw [if_neg apart] at core
    have valid := congrArg LineCore.valid core
    simp only [CacheLine.core] at valid
    rw [valid]
    exact inv.unused i w behind inside hw
  unlocked i w hi hw := by
    have core := core_updateLine c (cfg.getIdx a) i (cfg.getTag a) offset len data hway hw
    have lock := congrArg LineCore.lock core
    rw [apply_ite LineCore.lock] at lock
    simp only [CacheLine.core, refilled] at lock
    rw [lock]
    split_ifs with here
    · exact inv.unlocked _ way (cfg.getIdx_lt a) hway
    · exact inv.unlocked i w hi hw
  replaceable repl i hi := by
    have two := cfg.mRepl_two repl
    rw [lrr_updateLine _ _ _ _ _ _ _ (by omega), lrr_updateLine _ _ _ _ _ _ _ (by omega)]
    split_ifs with hit first second second
    · omega
    · exact .inr rfl
    · exact .inl rfl
    · exact .inl rfl
    · exact inv.replaceable repl i hi

/-- The update rule: the updated line shows the new view, the other lines showed it before. -/
theorem Shows.update_line (inv : Shows cfg c view stale) (hway : way ≤ cfg.mSets)
    (only : OnlyHolds cfg c a way)
    (line_shows : ∀ b, cfg.SameLine a b → ¬ stale' b →
      copyTo (lookupLine cfg c (cfg.getIdx a) way).entry offset.toNat data len.toNat
        (cfg.getOffset b).toNat = view' b)
    (frame : ∀ b, ¬ cfg.SameLine a b → ¬ stale' b → ¬ stale b ∧ view' b = view b) :
    Shows cfg (updateLine cfg c (cfg.getTag a) (cfg.getIdx a) offset way len data) view' stale' where
  toWellTagged := inv.toWellTagged.update_line linefetch hway only
  shows b w held fresh := by
    rcases (holds_updateLine linefetch hway only b w).mp held with ⟨line, rfl⟩ | ⟨line, here, old⟩
    · rw [byteAt_updateLine_same hway line]
      exact line_shows b line fresh
    · obtain ⟨fresh', same⟩ := frame b line fresh
      rw [byteAt_updateLine_other hway old.1 here, same]
      exact inv.shows b w old fresh'

end UpdateLine

section Replacement

private theorem lruStep_fold_le {idx : BitVec 32} (ways : List ℕ) (inSet : ∀ v ∈ ways, v ≤ cfg.mSets)
    (best : BitVec 32 × ℕ) (hbest : best.2 ≤ cfg.mSets) :
    (ways.foldl (lruStep cfg c idx) best).2 ≤ cfg.mSets := by
  induction ways generalizing best with
  | nil => exact hbest
  | cons v ways ih =>
    rw [List.foldl_cons]
    apply ih (fun u hu => inSet u (List.mem_cons_of_mem _ hu))
    simp only [lruStep]
    split_ifs
    · exact inSet v (List.mem_cons_self ..)
    · exact hbest

variable {idx : BitVec 32} (hidx : idx.toNat < cfg.mNumberOfVectors)
  (unlocked : ∀ w, w ≤ cfg.mSets → (lookupLine cfg c idx w).lock = 0)
  (replaceable : cfg.mRepl = 2 →
    (lookupLine cfg c idx 0).lrr = 0 ∨ (lookupLine cfg c idx 1).lrr = 0)

include hidx unlocked replaceable

private theorem lrrSearch_eq (repl : cfg.mRepl = 2) :
    ∃ way ≤ cfg.mSets, lrrSearch cfg c idx [0, 1, 2] = some way := by
  have two := cfg.mRepl_two repl
  have first := position_lt_size cfg hidx (Nat.zero_le cfg.mSets)
  have second := position_lt_size cfg hidx (by omega : 1 ≤ cfg.mSets)
  have lock_zero := unlocked 0 (Nat.zero_le _)
  have lock_one := unlocked 1 (by omega)
  by_cases free : (lookupLine cfg c idx 0).lrr = 0
  · exact ⟨0, Nat.zero_le _, by simp [lrrSearch, not_le.mpr first, free, lock_zero]⟩
  · have other : (lookupLine cfg c idx 1).lrr = 0 :=
      (replaceable repl).resolve_left free
    exact ⟨1, by omega, by
      simp only [lrrSearch, not_le.mpr first, not_le.mpr second, free, other, lock_one, false_and,
        and_self, if_true, if_false]⟩

/-- With no locked line every replacement strategy selects a way of the set. -/
theorem replacementSelector_eq :
    ∃ way c', replacementSelector cfg c idx cfg.mRepl = some (way, c') ∧ way ≤ cfg.mSets ∧
      c'.cacheMem = c.cacheMem := by
  match repl : cfg.mRepl with
  | 0 => exact ⟨0, c, rfl, Nat.zero_le _, rfl⟩
  | 1 =>
    refine ⟨_, c, rfl, lruStep_fold_le _ (fun v hv => ?_) _ (Nat.zero_le _), rfl⟩
    have := List.mem_range.mp hv
    omega
  | 2 =>
    obtain ⟨way, hway, found⟩ := lrrSearch_eq hidx unlocked replaceable repl
    exact ⟨way, c, by simp [replacementSelector, found], hway, rfl⟩
  | n + 3 =>
    have way_le : c.mPseudoRand.toNat % (cfg.mSets + 1) ≤ cfg.mSets := by
      have := Nat.mod_lt c.mPseudoRand.toNat (by omega : 0 < cfg.mSets + 1)
      omega
    have lock := unlocked _ way_le
    refine ⟨_, { c with mPseudoRand := c.mPseudoRand + 1 }, ?_, way_le, rfl⟩
    have fuel : 2 * (cfg.mSets + 1) = 2 * cfg.mSets + 1 + 1 := by ring
    simp only [replacementSelector, fuel, randomSearch, lock, ne_eq, not_true_eq_false, if_false,
      Option.map_some]

omit hidx unlocked replaceable

theorem Shows.of_cacheMem (inv : Shows cfg c view stale) (same : c'.cacheMem = c.cacheMem) :
    Shows cfg c' view stale := by
  refine inv.of_sameLines ⟨fun i w _ => ?_, fun i w _ => ?_⟩ <;> simp only [lookupLine, same]

end Replacement

section Refill

variable {a : BitVec 32} (linefetch : cfg.newLinefetchEn = true)

/-- What the cache remembers of a missed read while its transfer is under way. -/
def RefillReady (cfg : Config) (c : VectorCache) (a : BitVec 32) : Option ℕ → Prop
  | some way => way ≤ cfg.mSets ∧ OnlyHolds cfg c a way
  | none => ∀ w, ¬ Holds cfg c a w

include linefetch

theorem lineHits_iff (line : CacheLine) (offset len : BitVec 32) :
    lineHits cfg line offset len = true ↔ line.valid &&& 0x1 ≠ 0 := by
  simp [lineHits, linefetch]

theorem locateLine_holds {offset len : BitVec 32} {way : ℕ}
    (found : locateLine cfg c (cfg.getTag a) (cfg.getIdx a) offset len = some way) :
    Holds cfg c a way := by
  obtain ⟨hway, htag, hit⟩ := locateLine_some found
  exact ⟨hway, htag, (lineHits_iff linefetch _ _ _).mp hit⟩

theorem not_holds_of_locateLine {offset len : BitVec 32}
    (missed : locateLine cfg c (cfg.getTag a) (cfg.getIdx a) offset len = none) (w : ℕ) :
    ¬ Holds cfg c a w := by
  rintro ⟨hw, htag, hvalid⟩
  have miss := locateLine_none missed hw htag
  rw [(lineHits_iff linefetch _ _ _).mpr hvalid] at miss
  exact absurd miss (by decide)

theorem Shows.refill_line (inv : Shows cfg c view stale) {way : ℕ} (hway : way ≤ cfg.mSets)
    (only : OnlyHolds cfg c a way) {ahbData : Buffer}
    (fetched : ∀ b, cfg.SameLine a b → ahbData (cfg.getOffset b).toNat = view b) :
    Shows cfg (updateLine cfg c (cfg.getTag a) (cfg.getIdx a) 0 way
      (BitVec.ofNat 32 cfg.mBytesperline) ahbData) view stale := by
  refine inv.update_line linefetch hway only (fun b line _ => ?_) (fun b _ fresh => ⟨fresh, rfl⟩)
  have lt := cfg.getOffset_lt b
  rw [copyTo, if_pos (by rw [cfg.toNat_mBytesperline]; simp; omega), ← fetched b line]
  rfl

theorem Shows.allocate_line (inv : Shows cfg c view stale) (missed : ∀ w, ¬ Holds cfg c a w)
    {ahbData : Buffer}
    (fetched : ∀ b, cfg.SameLine a b → ahbData (cfg.getOffset b).toNat = view b) :
    ∃ way c', allocateLine cfg c (cfg.getTag a) (cfg.getIdx a) 0
      (BitVec.ofNat 32 cfg.mBytesperline) ahbData = some (way, c') ∧ Shows cfg c' view stale := by
  have only (c : VectorCache) (none_holds : ∀ w, ¬ Holds cfg c a w) (way : ℕ) :
      OnlyHolds cfg c a way := fun v held => absurd held (none_holds v)
  unfold allocateLine
  split
  · next way free =>
    have hway := List.mem_range.mp (List.mem_of_find?_eq_some free)
    exact ⟨way, _, rfl, inv.refill_line linefetch (by omega) (only c missed way) fetched⟩
  · obtain ⟨way, c', selected, hway, same⟩ :=
      replacementSelector_eq (lt_of_lt_of_le (cfg.getIdx_lt a) cfg.two_pow_mIdxBits_le)
        (fun w => inv.unlocked _ w (cfg.getIdx_lt a))
        fun repl => inv.replaceable repl _ (cfg.getIdx_lt a)
    have inv' : Shows cfg c' view stale := inv.of_cacheMem same
    have missed' (w : ℕ) : ¬ Holds cfg c' a w := by
      simpa only [Holds, lookupLine, same] using missed w
    rw [selected]
    exact ⟨way, _, rfl, inv'.refill_line linefetch hway (only c' missed' way) fetched⟩

end Refill

end VectorCache

end Socrocket.MmuCache
