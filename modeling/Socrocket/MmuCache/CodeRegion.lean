/- Socrocket/MmuCache/CodeRegion
   digest: An instruction cache that fetches from a region holds words of the region and shows memory while the
   region is not written. -/

import Socrocket.MmuCache.PartialFetch

set_option autoImplicit false
set_option relaxedAutoImplicit false

namespace Socrocket.MmuCache

open Socrocket.Base.ByteMemory
open VectorCache

/-- The cache shows memory, and it holds words of the region only. -/
structure ShowsRegion (cfg : Config) (c : VectorCache) (view : Memory 32)
    (region : BitVec 32 → Prop) : Prop where
  words : WordsShow cfg c view
  inside : ∀ a way, HoldsWord cfg c a way → region a

section Region

variable {cfg : Config} {c c' : VectorCache} {view view' : Memory 32} {region : BitVec 32 → Prop}

theorem ShowsRegion.of_view (inv : ShowsRegion cfg c view region)
    (same : ∀ a, region a → view' a = view a) :
    ShowsRegion cfg c view' region :=
  ⟨inv.words.change_view fun a way held => same a (inv.inside a way held), inv.inside⟩

theorem not_holdsWord_flush (reply : Reply) (a : BitVec 32) (way : ℕ) :
    ¬ HoldsWord cfg (flush cfg c reply).1 a way := by
  rintro ⟨within, -, bit⟩
  have core := core_flush (c := c) reply
    (lt_of_lt_of_le (cfg.getIdx_lt a) cfg.two_pow_mIdxBits_le) within
  have cleared : (lookupLine cfg (flush cfg c reply).1 (cfg.getIdx a) way).valid = 0 :=
    congrArg LineCore.valid core
  rw [cleared] at bit
  simp at bit

theorem ShowsRegion.flushed (inv : ShowsRegion cfg c view region) (reply : Reply) :
    ShowsRegion cfg (flush cfg c reply).1 view region :=
  ⟨inv.words.flush_all reply view, fun a way held => absurd held (not_holdsWord_flush reply a way)⟩

theorem showsRegion_of_coldStart (cold : ColdStart c) : ShowsRegion cfg c view region := by
  refine ⟨wordsShow_of_coldStart cold view, fun a way held => ?_⟩
  have bit := held.2.2
  rw [show (lookupLine cfg c (cfg.getIdx a) way).valid = 0 from (cold _).1] at bit
  simp at bit

theorem holdsWord_of_core {a : BitVec 32} {way : ℕ} (held : HoldsWord cfg c' a way)
    (same : (lookupLine cfg c' (cfg.getIdx a) way).core = (lookupLine cfg c (cfg.getIdx a) way).core) :
    HoldsWord cfg c a way := by
  have atag := congrArg LineCore.atag same
  have valid := congrArg LineCore.valid same
  simp only [CacheLine.core] at atag valid
  exact ⟨held.1, atag ▸ held.2.1, valid ▸ held.2.2⟩

theorem holdsWord_of_cacheMem {a : BitVec 32} {way : ℕ} (held : HoldsWord cfg c' a way)
    (same : c'.cacheMem = c.cacheMem) : HoldsWord cfg c a way :=
  holdsWord_of_core held (by simp only [lookupLine, same])

variable (partialLines : cfg.newLinefetchEn = false)
include partialLines

theorem holdsWord_of_updateLine {a offset len b : BitVec 32} {way w : ℕ} {data : Buffer}
    (within : way ≤ cfg.mSets)
    (held : HoldsWord cfg (updateLine cfg c (cfg.getTag a) (cfg.getIdx a) offset way len data) b w) :
    HoldsWord cfg c b w ∨ cfg.SameLine a b := by
  rcases holdsWord_updateLine partialLines within held with ⟨line, -, -⟩ | ⟨-, old⟩
  · exact .inr line
  · exact .inl old

theorem holdsWord_of_refill (inv : WordsShow cfg c view) {ccr : BitVec 32} {r : Request}
    {cacheHit : Option ℕ}
    (ways : ∀ way ∈ cacheHit, way ≤ cfg.mSets) {ahbAddress ahbLen : BitVec 32}
    {data ahbData : Buffer} {reply : Reply}
    {cacheable : Bool} {result : VectorCache × Buffer × Reply}
    (refilled : memReadRefill cfg ccr c r cacheHit ahbAddress ahbLen data ahbData reply cacheable =
      some result)
    {b : BitVec 32} {w : ℕ} (held : HoldsWord cfg result.1 b w) :
    HoldsWord cfg c b w ∨ cfg.SameLine ahbAddress b := by
  unfold memReadRefill at refilled
  cases cacheHit with
  | some way =>
    simp only [Option.bind_eq_bind, Option.bind_some, Option.some.injEq] at refilled
    subst refilled
    exact holdsWord_of_updateLine partialLines (ways way rfl) (holdsWord_of_cacheMem held rfl)
  | none =>
    by_cases allocate : checkMode cfg ccr &&& 0x2 ≠ 0 ∧ cacheable = true
    · obtain ⟨way', c₁, selected, within, same⟩ := replacementSelector_eq
        (lt_of_lt_of_le (cfg.getIdx_lt ahbAddress) cfg.two_pow_mIdxBits_le) (fun w => inv.unlocked _ w)
        fun repl => inv.replaceable repl _
      simp only [if_pos allocate, allocateLine] at refilled
      cases free : (List.range (cfg.mSets + 1)).find? fun way =>
          lineFree cfg (lookupLine cfg c (cfg.getIdx ahbAddress) way)
            (cfg.getOffset ahbAddress) ahbLen with
      | some way =>
        have member := List.mem_range.mp (List.mem_of_find?_eq_some free)
        simp only [free, Option.map_some, Option.bind_eq_bind, Option.bind_some, Option.some.injEq]
          at refilled
        subst refilled
        exact holdsWord_of_updateLine partialLines (by omega) (holdsWord_of_cacheMem held rfl)
      | none =>
        simp only [free, selected, Option.map_some, Option.bind_eq_bind, Option.bind_some,
          Option.some.injEq] at refilled
        subst refilled
        rcases holdsWord_of_updateLine partialLines within
          (holdsWord_of_cacheMem held rfl) with old | line
        · exact .inl (holdsWord_of_cacheMem old same)
        · exact .inr line
    · simp only [if_neg allocate] at refilled
      split at refilled <;>
        · simp only [Option.bind_eq_bind, Option.bind_some, Option.some.injEq] at refilled
          subst refilled
          exact .inl (holdsWord_of_cacheMem held rfl)

variable {σ : Type} {m : MemIf σ} {mem : MemoryBacked m} {t : σ}

/-- The fetch of an aligned word from a line of the region answers with memory. -/
theorem fetch_spec (inv : ShowsRegion cfg c (mem.bytes t) region) {r : Request} (word : r.len = 4)
    (aligned : r.address.toNat % 4 = 0) (space : r.asi ≠ 0x1c)
    (line : ∀ b, cfg.SameLine r.address b → region b)
    (ccr : BitVec 32) (data : Buffer) (reply : Reply) (ahbData : Buffer) :
    ∃ c' t' reply', VectorCache.memRead cfg m ccr c t r data reply ahbData =
        some (c', t', memcpy data (bytesAt (mem.bytes t) r.address) r.len.toNat, reply') ∧
      mem.bytes t' = mem.bytes t ∧ ShowsRegion cfg c' (mem.bytes t) region := by
  have offset := cfg.getOffset_toNat r.address
  have length : r.len.toNat = 4 := by rw [word]; rfl
  have inside : cfg.InsideLine r.address r.len.toNat := by
    unfold Config.InsideLine
    rw [length, offset]
    rcases cfg.linesize_cases with ⟨-, -, h⟩ | ⟨-, -, h⟩ <;> rw [h] <;> omega
  have fits : r.address.toNat % 4 + r.len.toNat ≤ wordFetch r.len := by
    have size : wordFetch r.len = 4 := by rw [word]; rfl
    omega
  obtain ⟨c', t', reply', answer, same, shown⟩ := memRead_words partialLines inv.words
    ⟨space, .inr (.inr (.inl word)), inside⟩ (fun _ _ => .inr (.inl fits)) data reply ahbData
  refine ⟨c', t', reply', answer, same, shown, fun b w held => ?_⟩
  have origin : HoldsWord cfg c b w ∨ cfg.SameLine r.address b := by
    unfold VectorCache.memRead at answer
    rcases memReadLookup_cases cfg ccr c r with bypass | ⟨-, ⟨way, found, hit⟩ | ⟨-, refill⟩⟩
    · simp only [bypass, Option.some.injEq, Prod.mk.injEq] at answer
      exact .inl (holdsWord_of_cacheMem held (by rw [← answer.1]))
    · simp only [hit, Option.some.injEq, Prod.mk.injEq] at answer
      refine .inl (holdsWord_of_core held ?_)
      rw [← answer.1]
      simp only [memReadHit]
      split_ifs
      · exact core_lruUpdate ..
      · rfl
    · simp only [refill] at answer
      obtain ⟨result, refilled, last⟩ := Option.map_eq_some_iff.mp answer
      simp only [Prod.mk.injEq] at last
      rw [← last.1] at held
      have start := (refillTransfer_spec partialLines ccr r.address r.len).1
      refine (holdsWord_of_refill partialLines inv.words
        (fun way found => (locateLine_some found).1) refilled held).imp_right
        fun near => ?_
      rw [cfg.sameLine_iff] at near ⊢
      rw [← near, start]
      rcases cfg.linesize_cases with ⟨-, -, h⟩ | ⟨-, -, h⟩ <;> rw [h] <;> omega
  exact origin.elim (inv.inside b w) (line b)

end Region

end Socrocket.MmuCache
