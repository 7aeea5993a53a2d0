/- Socrocket/MmuCache/TagUnique
   digest: When no two ways of a set hold the same word under the same tag, throughout a run. -/

import Socrocket.MmuCache.SnoopRange
import Socrocket.MmuCache.WaySelection

set_option autoImplicit false
set_option relaxedAutoImplicit false

namespace Socrocket.MmuCache

open Socrocket.Base.BitField
open Socrocket.Base.ByteMemory
open Socrocket.Base.Run
open VectorCache

variable (cfg : Config)

/-- Bit `k` of the valid field is set. With line fetches only bit 0 means something. -/
def Carries (line : CacheLine) (k : ℕ) : Prop :=
  line.valid.getLsbD k = true ∧ (cfg.newLinefetchEn = true → k = 0)

/-- An access looks at bit `k` of the valid field. -/
def Covers (offset len : BitVec 32) (k : ℕ) : Prop :=
  if cfg.newLinefetchEn then k = 0 else (offset2valid cfg offset len).getLsbD k = true

/-- No two ways of a set have the same tag and a common valid bit. -/
def TagUnique (c : VectorCache) : Prop :=
  ∀ i v w k, v ≤ cfg.mSets → w ≤ cfg.mSets → (lookupLine cfg c i v).atag = (lookupLine cfg c i w).atag →
    Carries cfg (lookupLine cfg c i v) k → Carries cfg (lookupLine cfg c i w) k → v = w

/-- Perform one step of the memory interface: no diagnostic tag write. -/
def accessStep (s : CacheRun) : CacheOp → Option CacheRun
  | .writeCacheTag _ _ => none
  | op => opStep cfg false s op

/-- With valid bits for single words, a refill that writes a line finds no other way of the set with
its tag and with a valid bit of the words it transferred. -/
def RefillFits (s : CacheRun) : CacheOp → Prop
  | .endRead data ahbData reply cacheableLocal =>
    cfg.newLinefetchEn = false → ∀ r hit address len, s.waiting = some (r, .refill hit address len) →
      ∀ p ∈ touched cfg s (.endRead data ahbData reply cacheableLocal), ∀ v ≤ cfg.mSets,
        (lookupLine cfg s.cache (cfg.getIdx address) v).atag = cfg.getTag address → ∀ k,
          Covers cfg (cfg.getOffset address) len k →
            Carries cfg (lookupLine cfg s.cache (cfg.getIdx address) v) k → v = p.2
  | _ => True

/-- No line gains a valid bit or another tag. -/
def Shrinks (c c' : VectorCache) : Prop :=
  ∀ i w, w ≤ cfg.mSets → (lookupLine cfg c' i w).atag = (lookupLine cfg c i w).atag ∧
    ∀ k, Carries cfg (lookupLine cfg c' i w) k → Carries cfg (lookupLine cfg c i w) k

/-- What a waiting refill remembers of its search: the way that hit, and with line fetches the only
way that may hold its line. -/
structure RefillWaits (s : CacheRun) : Prop where
  inSet : ∀ r way address len, s.waiting = some (r, .refill (some way) address len) → way ≤ cfg.mSets
  only : cfg.newLinefetchEn = true → ∀ r hit address len,
    s.waiting = some (r, .refill hit address len) → ∀ v ≤ cfg.mSets,
      (lookupLine cfg s.cache (cfg.getIdx address) v).atag = cfg.getTag address → ∀ k,
        Carries cfg (lookupLine cfg s.cache (cfg.getIdx address) v) k → hit = some v

variable {cfg} {c c' : VectorCache} {idx tag offset len : BitVec 32} {way k : ℕ}

theorem lineHits_iff_carries (line : CacheLine) :
    lineHits cfg line offset len = true ↔ ∀ k, Covers cfg offset len k → Carries cfg line k := by
  cases mode : cfg.newLinefetchEn with
  | true =>
    rw [lineHits_iff mode, and_one_ne_zero_iff]
    simp [Covers, Carries, mode]
  | false =>
    constructor
    · intro hit k looks
      rw [Covers, mode] at looks
      refine ⟨lineHits_words mode hit looks, fun linefetch => ?_⟩
      rw [mode] at linefetch
      cases linefetch
    · intro all
      rw [lineHits, mode, if_neg Bool.false_ne_true, beq_iff_eq]
      refine BitVec.eq_of_getLsbD_eq fun k _ => ?_
      rw [BitVec.getLsbD_and, Bool.and_eq_right_iff_imp]
      intro looks
      refine (all k ?_).1
      rw [Covers, mode]
      exact looks

/-- In a cache without double tags at most one way answers an access that looks at some word. -/
theorem TagUnique.locate_one (unique : TagUnique cfg c) (some_word : Covers cfg offset len k) {v w : ℕ}
    (hv : v ≤ cfg.mSets) (hw : w ≤ cfg.mSets)
    (same : (lookupLine cfg c idx v).atag = (lookupLine cfg c idx w).atag)
    (hits_v : lineHits cfg (lookupLine cfg c idx v) offset len = true)
    (hits_w : lineHits cfg (lookupLine cfg c idx w) offset len = true) : v = w :=
  unique idx v w k hv hw same ((lineHits_iff_carries _).mp hits_v k some_word)
    ((lineHits_iff_carries _).mp hits_w k some_word)

section Update

variable {data : Buffer}

theorem atag_updateLine (hway : way ≤ cfg.mSets) {i : BitVec 32} {w : ℕ} (hw : w ≤ cfg.mSets) :
    (lookupLine cfg (updateLine cfg c tag idx offset way len data) i w).atag =
      if i = idx ∧ w = way then tag else (lookupLine cfg c i w).atag := by
  have atag := congrArg LineCore.atag
    (core_updateLine c idx i tag offset len data hway hw)
  rw [apply_ite LineCore.atag] at atag
  exact atag

theorem carries_updateLine (hway : way ≤ cfg.mSets) {i : BitVec 32} {w : ℕ} (hw : w ≤ cfg.mSets) :
    Carries cfg (lookupLine cfg (updateLine cfg c tag idx offset way len data) i w) k ↔
      if i = idx ∧ w = way then
        (lookupLine cfg c idx way).atag = tag ∧ Carries cfg (lookupLine cfg c idx way) k ∨
          Covers cfg offset len k
      else Carries cfg (lookupLine cfg c i w) k := by
  have valid := congrArg LineCore.valid
    (core_updateLine c idx i tag offset len data hway hw)
  rw [apply_ite LineCore.valid] at valid
  change (lookupLine ..).valid = _ at valid
  rw [Carries, valid]
  by_cases here : i = idx ∧ w = way
  · rw [if_pos here, if_pos here]
    cases mode : cfg.newLinefetchEn with
    | true =>
      have lowest : (0x1 : BitVec 32).getLsbD k = true ↔ k = 0 := by
        change (1#32).getLsbD k = true ↔ k = 0
        rw [BitVec.getLsbD_one]
        simp
      simp only [refilled, mode, if_true, lowest, Carries, Covers, forall_const, and_self]
      constructor
      · exact .inr
      · rintro (⟨-, -, zero⟩ | zero) <;> exact zero
    | false =>
      simp only [refilled_bit mode, Carries, Covers, mode, Bool.false_eq_true, if_false, false_implies,
        and_true]
      rfl
  · rw [if_neg here, if_neg here]
    rfl

theorem tagUnique_updateLine (hway : way ≤ cfg.mSets) (unique : TagUnique cfg c) :
    TagUnique cfg (updateLine cfg c tag idx offset way len data) ↔
      ∀ v ≤ cfg.mSets, (lookupLine cfg c idx v).atag = tag → ∀ k, Covers cfg offset len k →
        Carries cfg (lookupLine cfg c idx v) k → v = way := by
  constructor
  · intro after v hv same k looks carries
    by_contra other
    have apart : ¬ (idx = idx ∧ v = way) := fun both => other both.2
    refine other (after idx v way k hv hway ?_ ?_ ?_)
    · rw [atag_updateLine hway hv, if_neg apart, atag_updateLine hway hway, if_pos ⟨rfl, rfl⟩, same]
    · rw [carries_updateLine hway hv, if_neg apart]
      exact carries
    · rw [carries_updateLine hway hway, if_pos ⟨rfl, rfl⟩]
      exact .inr looks
  · intro fits
    -- the updated line against another way of its set
    have against (v k : ℕ) (hv : v ≤ cfg.mSets) (other : v ≠ way)
        (same : (lookupLine cfg c idx v).atag = tag) (carries : Carries cfg (lookupLine cfg c idx v) k)
        (updated : (lookupLine cfg c idx way).atag = tag ∧ Carries cfg (lookupLine cfg c idx way) k ∨
          Covers cfg offset len k) : False := by
      rcases updated with ⟨kept, old⟩ | looks
      · exact other (unique idx v way k hv hway (same.trans kept.symm) carries old)
      · exact other (fits v hv same k looks carries)
    intro i v w k hv hw same carries_v carries_w
    rw [atag_updateLine hway hv, atag_updateLine hway hw] at same
    rw [carries_updateLine hway hv] at carries_v
    rw [carries_updateLine hway hw] at carries_w
    by_cases first : i = idx ∧ v = way
    · obtain ⟨rfl, rfl⟩ := first
      by_cases second : w = v
      · exact second.symm
      · have apart : ¬ (i = i ∧ w = v) := fun both => second both.2
        rw [if_pos ⟨rfl, rfl⟩, if_neg apart] at same
        rw [if_pos ⟨rfl, rfl⟩] at carries_v
        rw [if_neg apart] at carries_w
        exact (against w k hw second same.symm carries_w carries_v).elim
    · rw [if_neg first] at same carries_v
      by_cases second : i = idx ∧ w = way
      · obtain ⟨rfl, rfl⟩ := second
        rw [if_pos ⟨rfl, rfl⟩] at same carries_w
        have apart : v ≠ w := fun eq => first ⟨rfl, eq⟩
        exact (against v k hv apart same carries_v carries_w).elim
      · rw [if_neg second] at same carries_w
        exact unique i v w k hv hw same carries_v carries_w

end Update

section Shrink

theorem Shrinks.of_same (same : ∀ i w, w ≤ cfg.mSets → (lookupLine cfg c' i w).atag =
      (lookupLine cfg c i w).atag ∧ (lookupLine cfg c' i w).valid = (lookupLine cfg c i w).valid) :
    Shrinks cfg c c' := by
  intro i w hw
  obtain ⟨atag, valid⟩ := same i w hw
  refine ⟨atag, fun k carries => ?_⟩
  rw [Carries, valid] at carries
  exact carries

theorem Shrinks.congr {d d' : VectorCache} (shrinks : Shrinks cfg c c') (same : c.cacheMem = d.cacheMem)
    (same' : c'.cacheMem = d'.cacheMem) : Shrinks cfg d d' := by
  intro i w hw
  have shrunk := shrinks i w hw
  rw [lookupLine, lookupLine, same, same'] at shrunk
  exact shrunk

theorem TagUnique.of_shrinks (unique : TagUnique cfg c) (shrinks : Shrinks cfg c c') :
    TagUnique cfg c' := by
  intro i v w k hv hw same carries_v carries_w
  rw [(shrinks i v hv).1, (shrinks i w hw).1] at same
  exact unique i v w k hv hw same ((shrinks i v hv).2 k carries_v) ((shrinks i w hw).2 k carries_w)

theorem shrinks_writeHit {data : Buffer}
    (found : locateLine cfg c tag idx offset len = some way) :
    Shrinks cfg c (updateLine cfg c tag idx offset way len data) := by
  obtain ⟨hway, same, hit⟩ := locateLine_some found
  intro i w hw
  rw [atag_updateLine hway hw]
  by_cases here : i = idx ∧ w = way
  · obtain ⟨rfl, rfl⟩ := here
    rw [if_pos ⟨rfl, rfl⟩]
    refine ⟨same.symm, fun k carries => ?_⟩
    rw [carries_updateLine hway hw, if_pos ⟨rfl, rfl⟩] at carries
    rcases carries with ⟨-, old⟩ | looks
    · exact old
    · exact (lineHits_iff_carries _).mp hit k looks
  · rw [if_neg here]
    refine ⟨rfl, fun k carries => ?_⟩
    rw [carries_updateLine hway hw, if_neg here] at carries
    exact carries

theorem shrinks_flush (reply : Reply) : Shrinks cfg c (VectorCache.flush cfg c reply).1 := by
  intro i w _
  simp only [VectorCache.flush, lookupLine]
  by_cases inside : position cfg i w < size cfg
  · rw [if_pos inside]
    refine ⟨rfl, fun k carries => ?_⟩
    have clear : (0 : BitVec 32).getLsbD k = false := BitVec.getLsbD_zero
    exact absurd (clear.symm.trans carries.1) Bool.false_ne_true
  · rw [if_neg inside]
    exact ⟨rfl, fun k carries => carries⟩

theorem shrinks_snoop {ccr : BitVec 32} {snoop : Snoop}
    (ended : snoopInvalidate cfg ccr c snoop = some c') : Shrinks cfg c c' := by
  obtain ⟨n, rfl⟩ := snoopInvalidate_some _ ended
  intro i w hw
  exact ⟨atag_snoopWords w, fun k carries => ⟨((bit_snoopWords hw).mp carries.1).1, carries.2⟩⟩

end Shrink

section Steps

variable {s s' : CacheRun} {op : CacheOp}

theorem locateLine_congr (same : c.cacheMem = c'.cacheMem) :
    locateLine cfg c tag idx offset len = locateLine cfg c' tag idx offset len := by
  simp only [locateLine, lookupLine, same]

theorem opStep_of_accessStep (next : accessStep cfg s op = some s') :
    opStep cfg false s op = some s' ∧ ∀ address data, op ≠ .writeCacheTag address data := by
  cases op with
  | writeCacheTag address data => cases next
  | _ => exact ⟨next, by intro address data same; cases same⟩

/-- Only the second half of a read adds valid bits. -/
theorem shrinks_step (next : accessStep cfg s op = some s')
    (other : ∀ data ahbData reply cacheable, op ≠ .endRead data ahbData reply cacheable) :
    Shrinks cfg s.cache s'.cache := by
  obtain ⟨stepped, no_tag⟩ := opStep_of_accessStep next
  cases effect_of_step stepped with
  | none idle same =>
    refine Shrinks.of_same fun i w _ => ?_
    rw [lookupLine, lookupLine, same]
    exact ⟨rfl, rfl⟩
  | hit free found touch aged =>
    refine Shrinks.of_same fun i w _ => ?_
    have core : (lookupLine cfg s'.cache i w).core = (lookupLine cfg s.cache i w).core := by
      rw [lookupLine, aged]
      by_cases lru : cfg.mRepl = 1
      · rw [if_pos lru]
        exact core_lruUpdate _ _ _ _ _
      · rw [if_neg lru]
        rfl
    exact ⟨congrArg LineCore.atag core, congrArg LineCore.valid core⟩
  | line writes touch written =>
    obtain ⟨c, same, written⟩ := written
    cases writes with
    | write searched found =>
      rw [← locateLine_congr same] at found
      exact (shrinks_writeHit found).congr same written.symm
    | refill waits => exact absurd rfl (other _ _ _ _)
    | allocate waits unfrozen allocates => exact absurd rfl (other _ _ _ _)
  | flush flushed =>
    rw [flushed]
    exact shrinks_flush _
  | snoop snooped => exact shrinks_snoop snooped
  | tag written => exact absurd rfl (no_tag _ _)

theorem refillWaits_step (unique : TagUnique cfg s.cache) (waits : RefillWaits cfg s)
    (next : accessStep cfg s op = some s') : RefillWaits cfg s' := by
  obtain ⟨stepped, -⟩ := opStep_of_accessStep next
  have idle (ended : s'.waiting = none) : RefillWaits cfg s' := by
    constructor
    · intro r way address len there
      rw [ended] at there
      cases there
    · intro _ r hit address len there
      rw [ended] at there
      cases there
  rcases waiting_of_step stepped with (same | ended) | ⟨r, data, reply, rfl, there, same⟩
  · by_cases free : s'.waiting = none
    · exact idle free
    · -- a read keeps waiting, so the step was not its end
      have shrinks : Shrinks cfg s.cache s'.cache := by
        refine shrinks_step next ?_
        rintro data ahbData reply cacheable rfl
        exact free (waiting_of_endRead stepped)
      constructor
      · intro r way address len there
        exact waits.inSet r way address len (same ▸ there)
      · intro linefetch r hit address len there v hv tag k carries
        obtain ⟨atag, gains⟩ := shrinks (cfg.getIdx address) v hv
        exact waits.only linefetch r hit address len (same ▸ there) v hv (atag ▸ tag) k
          (gains k carries)
  · exact idle ended
  · constructor
    · intro r' way address len there'
      rw [there, Option.some.injEq, Prod.mk.injEq] at there'
      exact (locateLine_some (locateLine_of_refill there'.2).symm).1
    · intro linefetch r' hit address len there' v hv tag k carries
      rw [there, Option.some.injEq, Prod.mk.injEq] at there'
      obtain ⟨-, path⟩ := there'
      have found := locateLine_of_refill path
      have line := lineAddress_of_refill linefetch path
      rw [same, line, Config.getIdx_lineAddress] at tag carries
      rw [Config.getTag_lineAddress] at tag
      have zero : k = 0 := carries.2 linefetch
      subst zero
      have hits : lineHits cfg (lookupLine cfg s.cache (cfg.getIdx r.address) v)
          (cfg.getOffset r.address) r.len = true := by
        refine (lineHits_iff_carries _).mpr fun k looks => ?_
        rw [Covers, if_pos linefetch] at looks
        exact looks ▸ carries
      cases hit with
      | none =>
        have missed := locateLine_none found.symm hv tag
        rw [hits] at missed
        cases missed
      | some way =>
        obtain ⟨hway, tag', hit'⟩ := locateLine_some found.symm
        have looks : Covers cfg (cfg.getOffset r.address) r.len 0 := by
          rw [Covers, if_pos linefetch]
        exact congrArg some
          (unique.locate_one looks hway hv (tag'.trans tag.symm) hit' hits)

theorem tagUnique_congr (same : c.cacheMem = c'.cacheMem) : TagUnique cfg c ↔ TagUnique cfg c' := by
  simp only [TagUnique, lookupLine, same]

theorem tagUnique_refill (unique : TagUnique cfg s.cache) (waits : RefillWaits cfg s) {r : Request}
    {hit : Option ℕ} {address len : BitVec 32} (there : s.waiting = some (r, .refill hit address len))
    (hway : way ≤ cfg.mSets) (known : ∀ v, hit = some v → v = way) {data ahbData : Buffer}
    {reply : Reply} {cacheable : Bool}
    (touch : touched cfg s (.endRead data ahbData reply cacheable) = [(cfg.getIdx address, way)])
    (same : c.cacheMem = s.cache.cacheMem)
    (written : s'.cache.cacheMem = (updateLine cfg c (cfg.getTag address) (cfg.getIdx address)
      (cfg.getOffset address) way len ahbData).cacheMem) :
    TagUnique cfg s'.cache ↔ RefillFits cfg s (.endRead data ahbData reply cacheable) := by
  have lines (i : BitVec 32) (w : ℕ) : lookupLine cfg c i w = lookupLine cfg s.cache i w := by
    rw [lookupLine, lookupLine, same]
  rw [tagUnique_congr written, tagUnique_updateLine hway ((tagUnique_congr same).mpr unique)]
  simp only [lines]
  cases mode : cfg.newLinefetchEn with
  | true =>
    constructor
    · intro _ off
      rw [mode] at off
      cases off
    · intro _ v hv tag k _ carries
      exact known v (waits.only mode r hit address len there v hv tag k carries)
  | false =>
    constructor
    · intro fits _ r' hit' address' len' there' p member
      rw [there, Option.some.injEq, Prod.mk.injEq] at there'
      obtain ⟨-, path⟩ := there'
      injection path with _ addresses lens
      rw [touch, List.mem_singleton] at member
      rw [← addresses, ← lens, member]
      exact fits
    · intro fits
      refine fits mode r hit address len there (cfg.getIdx address, way) ?_
      rw [touch]
      exact List.mem_singleton_self _

theorem tagUnique_endRead (unique : TagUnique cfg s.cache) (locks : LocksSafe cfg s.cache)
    (waits : RefillWaits cfg s) {data ahbData : Buffer} {reply : Reply} {cacheable : Bool}
    (next : opStep cfg false s (.endRead data ahbData reply cacheable) = some s') :
    TagUnique cfg s'.cache ↔ RefillFits cfg s (.endRead data ahbData reply cacheable) := by
  cases effect_of_step next with
  | none idle same =>
    constructor
    · intro _ _ r hit address len _ p member
      rw [idle] at member
      cases member
    · intro _
      exact (tagUnique_congr same).mpr unique
  | line writes touch written =>
    obtain ⟨c, same, written⟩ := written
    cases writes with
    | @refill r way address len _ _ _ _ there =>
      refine tagUnique_refill unique waits there (waits.inSet r way address len there) ?_ touch same
        written
      intro v found
      exact (Option.some.inj found).symm
    | @allocate r way address len _ _ _ there unfrozen allocates =>
      have hway : way ≤ cfg.mSets := by
        cases allocates with
        | free inSet unused first => exact inSet
        | replaced full selected =>
          obtain ⟨c', selected⟩ := selected
          have inside := lt_of_lt_of_le (cfg.getIdx_lt address) cfg.two_pow_mIdxBits_le
          obtain ⟨v, d, selected', inSet, -⟩ := (locks.selectsSafely inside).ends
          rw [selected', Option.some.injEq, Prod.mk.injEq] at selected
          exact selected.1 ▸ inSet
      refine tagUnique_refill unique waits there hway ?_ touch same written
      intro v found
      cases found

/-- One step keeps the tags unique exactly when it fits. -/
theorem tagUnique_step (unique : TagUnique cfg s.cache) (locks : LocksSafe cfg s.cache)
    (waits : RefillWaits cfg s) (next : accessStep cfg s op = some s') :
    TagUnique cfg s'.cache ↔ RefillFits cfg s op := by
  cases op with
  | endRead data ahbData reply cacheable => exact tagUnique_endRead unique locks waits next
  | writeCacheTag address data => cases next
  | _ =>
    have shrinks := shrinks_step next (by
      intro data ahbData reply cacheable same
      cases same)
    exact iff_of_true (unique.of_shrinks shrinks) trivial

end Steps

theorem tagUnique_poweredOn {s : CacheRun} (on : PoweredOn s) : TagUnique cfg s.cache := by
  intro i v w k _ _ _ carries _
  obtain ⟨entry, zero⟩ := on.1 (position cfg i v)
  have clear : (0 : BitVec 32).getLsbD k = false := BitVec.getLsbD_zero
  rw [Carries, lookupLine, zero] at carries
  exact absurd (clear.symm.trans carries.1) Bool.false_ne_true

/-- Tag uniqueness: the tags are unique throughout a run of reads, writes, flushes and snoops exactly
when every refill of the run fits. -/
theorem tags_unique_iff (cfg : Config) {start s : CacheRun} (on : PoweredOn start) {ops : List CacheOp}
    (reached : run (accessStep cfg) start ops = some s) :
    (∀ before after u, ops = before ++ after → run (accessStep cfg) start before = some u →
        TagUnique cfg u.cache) ↔
      Along (accessStep cfg) (RefillFits cfg) start ops := by
  refine throughout_iff_of (P := fun u => TagUnique cfg u.cache)
    (Q := fun u => LocksSafe cfg u.cache ∧ RefillWaits cfg u)
    (fun s op s' unique helps next => tagUnique_step unique helps.1 helps.2 next) ?_
    (tagUnique_poweredOn on) ⟨locksSafe_poweredOn on, ?_⟩ reached
  · intro s op s' unique helps next
    obtain ⟨stepped, -⟩ := opStep_of_accessStep next
    refine ⟨locksSafe_step helps.1 ?_ stepped, refillWaits_step unique helps.2 next⟩
    cases op with
    | writeCacheTag address data => cases next
    | _ => trivial
  · constructor
    · intro r way address len there
      rw [on.2] at there
      cases there
    · intro _ r hit address len there
      rw [on.2] at there
      cases there

/-- A load of a word that misses, and its refill. -/
def wordMiss : List CacheOp :=
  [.startRead ⟨0x40000010, 0xa, 4, false, false⟩ (fun _ => 0) ⟨0, false⟩,
    .endRead (fun _ => 0) (fun _ => 0) ⟨0, true⟩ true]

/-- A load of the first byte of the same word, and its refill. -/
def byteMiss : List CacheOp :=
  [.startRead ⟨0x40000010, 0xa, 1, false, false⟩ (fun _ => 0) ⟨0, false⟩,
    .endRead (fun _ => 0) (fun _ => 0) ⟨0, true⟩ true]

theorem tags_unique_word :
    ∃ s, run (accessStep smallPartialCache) ⟨resetCache, 0xc, none⟩ wordMiss = some s ∧
      ((∀ before after u, wordMiss = before ++ after →
          run (accessStep smallPartialCache) ⟨resetCache, 0xc, none⟩ before = some u →
            TagUnique smallPartialCache u.cache) ↔
        Along (accessStep smallPartialCache) (RefillFits smallPartialCache) ⟨resetCache, 0xc, none⟩
          wordMiss) := by
  have completes : (run (accessStep smallPartialCache) ⟨resetCache, 0xc, none⟩ wordMiss).isSome := by
    decide +kernel
  obtain ⟨s, reached⟩ := Option.isSome_iff_exists.mp completes
  exact ⟨s, reached, tags_unique_iff smallPartialCache ⟨fun _ => ⟨_, rfl⟩, rfl⟩ reached⟩

/-- The mask of the byte covers two words, so the byte misses, and its word is fetched into a second
way. -/
theorem byte_load_doubles_tag :
    ∃ s, run (accessStep smallPartialCache) ⟨resetCache, 0xc, none⟩ (wordMiss ++ byteMiss) = some s ∧
      ¬ TagUnique smallPartialCache s.cache := by
  have lines : (run (accessStep smallPartialCache) ⟨resetCache, 0xc, none⟩ (wordMiss ++ byteMiss)).map
      (fun s => ([0, 1].map fun way => (lookupLine smallPartialCache s.cache 1 way).atag,
        [0, 1].map fun way => (lookupLine smallPartialCache s.cache 1 way).valid)) =
      some ([0x100000, 0x100000], [1, 1]) := by decide +kernel
  obtain ⟨s, reached, values⟩ := Option.map_eq_some_iff.mp lines
  simp only [List.map_cons, List.map_nil, Prod.mk.injEq, List.cons.injEq, and_true] at values
  obtain ⟨⟨tag_zero, tag_one⟩, valid_zero, valid_one⟩ := values
  refine ⟨s, reached, fun unique => ?_⟩
  have same := unique 1 0 1 0 (by decide) (by decide) (tag_zero.trans tag_one.symm)
    ⟨by rw [valid_zero]; decide, fun _ => rfl⟩ ⟨by rw [valid_one]; decide, fun _ => rfl⟩
  exact Nat.zero_ne_one same

end Socrocket.MmuCache
