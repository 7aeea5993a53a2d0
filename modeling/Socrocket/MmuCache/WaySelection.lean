/- Socrocket/MmuCache/WaySelection
   digest: When the replacement strategies end with an unlocked way of their set, and depend on no
   line of another set. -/

import Socrocket.MmuCache.CacheInvariant
import Socrocket.MmuCache.CacheRuns
import Socrocket.MmuCache.WriteThrough

set_option autoImplicit false
set_option relaxedAutoImplicit false

namespace Socrocket.MmuCache

open Socrocket.Base.ByteMemory
open Socrocket.Base.Run
open VectorCache

/-- The selection in a set ends with an unlocked way of the set and depends on the lines of the set
only. The last way of the set is not locked. -/
structure SelectsSafely (cfg : Config) (c : VectorCache) (idx : BitVec 32) : Prop where
  ends : ∃ way c', replacementSelector cfg c idx cfg.mRepl = some (way, c') ∧ way ≤ cfg.mSets ∧
    (lookupLine cfg c idx way).lock = 0
  own : ∀ d, d.mPseudoRand = c.mPseudoRand →
    (∀ w ≤ cfg.mSets, lookupLine cfg d idx w = lookupLine cfg c idx w) →
      (replacementSelector cfg d idx cfg.mRepl).map Prod.fst =
        (replacementSelector cfg c idx cfg.mRepl).map Prod.fst
  last : (lookupLine cfg c idx cfg.mSets).lock = 0

/-- A diagnostic tag write that sets a lock does so under the random strategy, in a line that is not
in the last way of its set. The way in the address is a number below four, and may lie in a set
behind the one of the index. -/
def LockFits (cfg : Config) (setlock : Bool) : CacheOp → Prop
  | .writeCacheTag address data =>
    let way := (cfg.getTag address &&& 0x3).toNat
    setlock ∧ way ≠ cfg.mSets ∧ data &&& 0x100 ≠ 0 →
      cfg.mRepl = 3 ∧ position cfg (cfg.getIdx address) way % (cfg.mSets + 1) ≠ cfg.mSets
  | _ => True

instance (cfg : Config) (setlock : Bool) (op : CacheOp) : Decidable (LockFits cfg setlock op) := by
  cases op <;> unfold LockFits <;> infer_instance

/-- Locks are set in the random strategy only and never in a last way, and of two ways at most one is
marked as the one replaced last. -/
structure LocksSafe (cfg : Config) (c : VectorCache) : Prop where
  locks : ∀ pos, (c.cacheMem pos).lock ≠ 0 → cfg.mRepl = 3 ∧ pos % (cfg.mSets + 1) ≠ cfg.mSets
  marks : cfg.mRepl = 2 → ∀ i, (lookupLine cfg c i 0).lrr = 0 ∨ (lookupLine cfg c i 1).lrr = 0

section Selection

variable {cfg : Config} {c d : VectorCache} {idx : BitVec 32}

theorem randomSearch_some {k fuel : ℕ} (enough : k < fuel) (rand : BitVec 32)
    (unlocked : (lookupLine cfg c idx ((rand + BitVec.ofNat 32 k).toNat % (cfg.mSets + 1))).lock = 0) :
    ∃ way rand', randomSearch cfg c idx fuel rand = some (way, rand') ∧ way ≤ cfg.mSets ∧
      (lookupLine cfg c idx way).lock = 0 := by
  induction fuel generalizing k rand with
  | zero => exact absurd enough (Nat.not_lt_zero k)
  | succ fuel ih =>
    have inSet : rand.toNat % (cfg.mSets + 1) ≤ cfg.mSets :=
      Nat.le_of_lt_succ (Nat.mod_lt _ (Nat.succ_pos _))
    rw [randomSearch]
    by_cases locked : (lookupLine cfg c idx (rand.toNat % (cfg.mSets + 1))).lock ≠ 0
    · rw [if_pos locked]
      cases k with
      | zero =>
        rw [BitVec.ofNat_eq_ofNat, BitVec.add_zero] at unlocked
        exact absurd unlocked locked
      | succ k =>
        refine ih (Nat.lt_of_succ_lt_succ enough) (rand + 1) ?_
        have next : rand + 1 + BitVec.ofNat 32 k = rand + BitVec.ofNat 32 (k + 1) := by
          rw [BitVec.add_assoc, BitVec.add_comm 1, BitVec.ofNat_add]
          rfl
        rw [next]
        exact unlocked
    · rw [if_neg locked]
      exact ⟨_, _, rfl, inSet, not_not.mp locked⟩

theorem exists_draw {n : ℕ} (some_way : 0 < n) (small : n ≤ 4) (rand : BitVec 32) :
    ∃ k < 2 * n, (rand + BitVec.ofNat 32 k).toNat % n = n - 1 := by
  have bound := rand.isLt
  have value (k : ℕ) : (rand + BitVec.ofNat 32 k).toNat = (rand.toNat + k) % 2 ^ 32 := by
    rw [BitVec.toNat_add, BitVec.toNat_ofNat, Nat.add_mod_mod]
  by_cases wraps : rand.toNat + n ≤ 2 ^ 32
  · have residue := Nat.mod_lt rand.toNat some_way
    have division := Nat.div_add_mod rand.toNat n
    refine ⟨n - 1 - rand.toNat % n, by omega, ?_⟩
    have sum : rand.toNat + (n - 1 - rand.toNat % n) = n * (rand.toNat / n) + (n - 1) := by omega
    have inside : rand.toNat + (n - 1 - rand.toNat % n) < 2 ^ 32 := by omega
    rw [value, Nat.mod_eq_of_lt inside, sum, Nat.mul_add_mod, Nat.mod_eq_of_lt (by omega)]
  · refine ⟨2 ^ 32 - rand.toNat + (n - 1), by omega, ?_⟩
    have sum : rand.toNat + (2 ^ 32 - rand.toNat + (n - 1)) = 2 ^ 32 + (n - 1) := by omega
    rw [value, sum, Nat.add_mod_left, Nat.mod_eq_of_lt (by omega), Nat.mod_eq_of_lt (by omega)]

variable (same : ∀ w ≤ cfg.mSets, lookupLine cfg d idx w = lookupLine cfg c idx w)

include same

theorem lruSearch_congr (best : BitVec 32 × ℕ) :
    (List.range (cfg.mSets + 1)).foldl (lruStep cfg d idx) best =
      (List.range (cfg.mSets + 1)).foldl (lruStep cfg c idx) best := by
  have inSet : ∀ v ∈ List.range (cfg.mSets + 1), v ≤ cfg.mSets := by
    intro v member
    exact Nat.le_of_lt_succ (List.mem_range.mp member)
  generalize List.range (cfg.mSets + 1) = ways at inSet
  induction ways generalizing best with
  | nil => rfl
  | cons v ways ih =>
    have step : lruStep cfg d idx best v = lruStep cfg c idx best v := by
      rw [lruStep, lruStep, same v (inSet v (List.mem_cons_self ..))]
    rw [List.foldl_cons, List.foldl_cons, step]
    exact ih _ fun u member => inSet u (List.mem_cons_of_mem _ member)

theorem randomSearch_congr (fuel : ℕ) (rand : BitVec 32) :
    randomSearch cfg d idx fuel rand = randomSearch cfg c idx fuel rand := by
  induction fuel generalizing rand with
  | zero => rfl
  | succ fuel ih =>
    have inSet : rand.toNat % (cfg.mSets + 1) ≤ cfg.mSets :=
      Nat.le_of_lt_succ (Nat.mod_lt _ (Nat.succ_pos _))
    rw [randomSearch, randomSearch, ih, same _ inSet]

omit same

/-- With no locked line and one mark at most, the LRR search ends before it leaves its set. -/
theorem lrrSearch_own (repl : cfg.mRepl = 2) (hidx : idx.toNat < cfg.mNumberOfVectors)
    (unlocked : ∀ w ≤ cfg.mSets, (lookupLine cfg c idx w).lock = 0)
    (marks : (lookupLine cfg c idx 0).lrr = 0 ∨ (lookupLine cfg c idx 1).lrr = 0) :
    lrrSearch cfg c idx [0, 1, 2] = some (if (lookupLine cfg c idx 0).lrr = 0 then 0 else 1) := by
  have two := cfg.mRepl_two repl
  have first := position_lt_size cfg hidx (Nat.zero_le cfg.mSets)
  have second := position_lt_size cfg hidx (by omega : 1 ≤ cfg.mSets)
  have lock_zero := unlocked 0 (Nat.zero_le _)
  have lock_one := unlocked 1 (by omega)
  rw [lrrSearch, if_neg (not_le.mpr first)]
  by_cases free : (lookupLine cfg c idx 0).lrr = 0
  · rw [if_pos ⟨free, lock_zero⟩, if_pos free]
  · have other := marks.resolve_left free
    rw [if_neg fun both => free both.1, if_neg free, lrrSearch, if_neg (not_le.mpr second),
      if_pos ⟨other, lock_one⟩]

theorem LocksSafe.selectsSafely (safe : LocksSafe cfg c) (hidx : idx.toNat < cfg.mNumberOfVectors) :
    SelectsSafely cfg c idx := by
  have last : (lookupLine cfg c idx cfg.mSets).lock = 0 := by
    by_contra locked
    refine (safe.locks _ locked).2 ?_
    rw [position, Nat.mul_comm, Nat.mul_add_mod, Nat.mod_eq_of_lt (Nat.lt_succ_self _)]
  by_cases random : cfg.mRepl = 3
  · -- the random strategy draws the last way at the latest
    obtain ⟨k, enough, draw⟩ := exists_draw (Nat.succ_pos cfg.mSets) (by
      have := cfg.sets_range
      rw [Nat.succ_eq_add_one, cfg.mSets_succ]
      exact this.2) c.mPseudoRand
    obtain ⟨way, rand, found, inSet, unlocked⟩ := randomSearch_some enough c.mPseudoRand (by
      rw [Nat.succ_eq_add_one] at draw
      rw [draw]
      exact last)
    refine ⟨⟨way, { c with mPseudoRand := rand }, ?_, inSet, unlocked⟩, ?_, last⟩
    · rw [random]
      exact congrArg (Option.map _) found
    · intro d pointer same
      rw [random]
      change ((randomSearch cfg d idx _ d.mPseudoRand).map _).map _ =
        ((randomSearch cfg c idx _ c.mPseudoRand).map _).map _
      rw [Option.map_map, Option.map_map, pointer, randomSearch_congr same]
      rfl
  · -- no way is locked under the other strategies
    have unlocked (w : ℕ) : (lookupLine cfg c idx w).lock = 0 := by
      by_contra locked
      exact random (safe.locks _ locked).1
    obtain ⟨way, c', selected, inSet, -⟩ := replacementSelector_eq hidx (fun w _ => unlocked w)
      fun repl => safe.marks repl idx
    refine ⟨⟨way, c', selected, inSet, unlocked way⟩, ?_, last⟩
    intro d pointer same
    have strategies : cfg.mRepl = 0 ∨ cfg.mRepl = 1 ∨ cfg.mRepl = 2 := by
      have := cfg.mRepl_le
      omega
    rcases strategies with repl | repl | repl
    · rw [repl]
      rfl
    · rw [repl]
      change some ((List.range (cfg.mSets + 1)).foldl (lruStep cfg d idx) _).2 =
        some ((List.range (cfg.mSets + 1)).foldl (lruStep cfg c idx) _).2
      rw [lruSearch_congr same]
    · have two := cfg.mRepl_two repl
      have marks := safe.marks repl idx
      have zero := same 0 (Nat.zero_le _)
      have one := same 1 (by omega)
      rw [repl]
      change ((lrrSearch cfg d idx [0, 1, 2]).map _).map _ =
        ((lrrSearch cfg c idx [0, 1, 2]).map _).map _
      rw [lrrSearch_own repl hidx (fun w _ => unlocked w) marks,
        lrrSearch_own repl hidx (fun w hw => by rw [same w hw, unlocked w])
          (by rw [zero, one]; exact marks),
        zero]
      rfl

end Selection

section Locks

variable {cfg : Config} {c c' : VectorCache} {idx : BitVec 32} {way : ℕ}

theorem lock_lruUpdate (pos : ℕ) :
    ((lruUpdate cfg c idx way).cacheMem pos).lock = (c.cacheMem pos).lock := by
  refine view_foldl_modifyLine CacheLine.lock _ (fun v line => ?_) _ _
  split_ifs <;> rfl

theorem lock_updateLine {tag offset len : BitVec 32} {data : Buffer} (pos : ℕ) :
    ((updateLine cfg c tag idx offset way len data).cacheMem pos).lock = (c.cacheMem pos).lock := by
  refine (view_updateLine c idx tag offset len data CacheLine.lock ?_ pos).trans ?_
  · intro line valid atag lrr lru
    rfl
  · simp only [fillEntry]
    exact view_modifyLine CacheLine.lock (by intro line; rfl) pos

theorem marks_updateLine {tag offset len : BitVec 32} {data : Buffer} (repl : cfg.mRepl = 2)
    (marks : ∀ i, (lookupLine cfg c i 0).lrr = 0 ∨ (lookupLine cfg c i 1).lrr = 0) (i : BitVec 32) :
    (lookupLine cfg (updateLine cfg c tag idx offset way len data) i 0).lrr = 0 ∨
      (lookupLine cfg (updateLine cfg c tag idx offset way len data) i 1).lrr = 0 := by
  have two := cfg.mRepl_two repl
  rw [lrr_updateLine _ _ _ _ _ _ _ (Nat.zero_le _), lrr_updateLine _ _ _ _ _ _ _ (by omega)]
  by_cases replaced : cfg.mRepl = 2 ∧ i = idx ∧ (lookupLine cfg c idx way).atag ≠ tag
  · rw [if_pos replaced, if_pos replaced]
    by_cases first : 0 = way
    · right
      rw [if_neg (by omega)]
    · left
      rw [if_neg first]
  · rw [if_neg replaced, if_neg replaced]
    exact marks i

theorem lrr_of_tag (data : BitVec 32) : (data &&& 0x100) >>> 9 = 0 := by
  have small : (data &&& 0x100).toNat ≤ 0x100 := by
    rw [BitVec.toNat_and]
    exact Nat.and_le_right
  apply BitVec.eq_of_toNat_eq
  rw [BitVec.toNat_ushiftRight, Nat.shiftRight_eq_div_pow, Nat.div_eq_of_lt (by omega)]
  rfl

variable {setlock : Bool} {s s' : CacheRun} {op : CacheOp}

theorem LocksSafe.of_same (safe : LocksSafe cfg c) (lock : ∀ pos, (c'.cacheMem pos).lock =
      (c.cacheMem pos).lock) (lrr : ∀ pos, (c'.cacheMem pos).lrr = (c.cacheMem pos).lrr) :
    LocksSafe cfg c' where
  locks pos locked := safe.locks pos (lock pos ▸ locked)
  marks repl i := by
    rw [lookupLine, lookupLine, lrr, lrr]
    exact safe.marks repl i

theorem LocksSafe.writeCacheTag {address data : BitVec 32} (safe : LocksSafe cfg c)
    (fits : LockFits cfg setlock (.writeCacheTag address data))
    (written : VectorCache.writeCacheTag cfg setlock c address data = some c') : LocksSafe cfg c' := by
  unfold VectorCache.writeCacheTag at written
  simp only [Option.ite_none_left_eq_some, Option.some.injEq] at written
  obtain ⟨-, rfl⟩ := written
  constructor
  · intro pos locked
    by_cases here : pos = position cfg (cfg.getIdx address) (cfg.getTag address &&& 0x3).toNat
    · subst pos
      simp only [modifyLine, Function.update_self] at locked
      by_cases enabled : setlock = true ∧ (cfg.getTag address &&& 0x3).toNat ≠ cfg.mSets
      · rw [if_pos enabled] at locked
        refine fits ⟨enabled.1, enabled.2, fun zero => locked ?_⟩
        rw [zero]
        rfl
      · rw [if_neg enabled] at locked
        exact absurd rfl locked
    · simp only [modifyLine, Function.update_of_ne here] at locked
      exact safe.locks pos locked
  · intro repl i
    have cleared (w : ℕ) (zero : (lookupLine cfg c i w).lrr = 0) :
        (lookupLine cfg (modifyLine cfg c (cfg.getIdx address) (cfg.getTag address &&& 0x3).toNat
          fun line => { line with
            atag := data >>> 10
            lrr := (data &&& 0x100) >>> 9
            lock := if setlock = true ∧ (cfg.getTag address &&& 0x3).toNat ≠ cfg.mSets then
              (data &&& 0x100) >>> 8 else 0
            valid := data &&& 0xff }) i w).lrr = 0 := by
      by_cases here : position cfg i w =
          position cfg (cfg.getIdx address) (cfg.getTag address &&& 0x3).toNat
      · simp only [lookupLine, modifyLine, here, Function.update_self]
        exact lrr_of_tag data
      · simp only [lookupLine, modifyLine, Function.update_of_ne here]
        exact zero
    rcases safe.marks repl i with first | second
    · exact .inl (cleared 0 first)
    · exact .inr (cleared 1 second)

/-- Every step whose tag write fits keeps the locks safe. -/
theorem locksSafe_step (safe : LocksSafe cfg s.cache) (fits : LockFits cfg setlock op)
    (next : opStep cfg setlock s op = some s') : LocksSafe cfg s'.cache := by
  cases effect_of_step next with
  | none idle same => exact safe.of_same (fun pos => by rw [same]) fun pos => by rw [same]
  | hit free found touch aged =>
    by_cases lru : cfg.mRepl = 1
    · rw [if_pos lru] at aged
      refine safe.of_same (fun pos => by rw [aged, lock_lruUpdate]) fun pos => ?_
      rw [aged]
      refine view_foldl_modifyLine CacheLine.lrr _ (fun v line => ?_) _ _
      split_ifs <;> rfl
    · rw [if_neg lru] at aged
      exact safe.of_same (fun pos => by rw [aged]) fun pos => by rw [aged]
  | line writes touch written =>
    obtain ⟨c, same, written⟩ := written
    constructor
    · intro pos locked
      rw [written, LineWrite.apply, lock_updateLine, same] at locked
      exact safe.locks pos locked
    · intro repl i
      have before : ∀ j, (lookupLine cfg c j 0).lrr = 0 ∨ (lookupLine cfg c j 1).lrr = 0 := by
        intro j
        rw [lookupLine, lookupLine, same]
        exact safe.marks repl j
      rw [lookupLine, lookupLine, written]
      exact marks_updateLine repl before i
  | flush flushed =>
    rw [flushed]
    refine safe.of_same (fun pos => ?_) fun pos => ?_ <;>
    · simp only [VectorCache.flush]
      split_ifs <;> rfl
  | snoop snooped =>
    obtain ⟨n, eq⟩ := snoopInvalidate_some _ snooped
    rw [eq]
    refine safe.of_same (fun pos => ?_) fun pos => ?_ <;>
    · obtain ⟨valid, rest⟩ := rest_snoopWords s.cache _ n pos
      rw [rest]
  | tag written => exact safe.writeCacheTag fits written

theorem locksSafe_poweredOn (on : PoweredOn s) : LocksSafe cfg s.cache where
  locks pos locked := by
    obtain ⟨entry, zero⟩ := on.1 pos
    rw [zero] at locked
    exact absurd rfl locked
  marks _ i := by
    obtain ⟨entry, zero⟩ := on.1 (position cfg i 0)
    rw [lookupLine, zero]
    exact .inl rfl

end Locks

/-- Replacement selection is safe in every state of a run whose tag writes lock lines of the random
strategy only, and never the last way of a set. -/
theorem selects_safely_throughout (cfg : Config) (setlock : Bool) {start s : CacheRun}
    (on : PoweredOn start) {ops : List CacheOp}
    (fits : Along (opStep cfg setlock) (fun _ op => LockFits cfg setlock op) start ops)
    (reached : run (opStep cfg setlock) start ops = some s) {idx : BitVec 32}
    (hidx : idx.toNat < cfg.mNumberOfVectors) : SelectsSafely cfg s.cache idx := by
  have safe : LocksSafe cfg s.cache :=
    run_preserves (fun _ _ _ safe fits next => locksSafe_step safe fits next)
      (locksSafe_poweredOn on) fits reached
  exact safe.selectsSafely hidx

/-- A data cache with two ways and the random strategy. -/
def randomCache : Config :=
  { smallDataCache with
    repl := 3
    lrr_two_way := by decide
    direct_one_way := by decide
    repl_range := by decide }

theorem selects_safely_one_lock :
    ∃ s, run (opStep randomCache true) ⟨resetCache, 0xc, none⟩ [.writeCacheTag 0x10 0x100] = some s ∧
      (lookupLine randomCache s.cache 1 0).lock = 1 ∧ SelectsSafely randomCache s.cache 1 := by
  have locked : (run (opStep randomCache true) ⟨resetCache, 0xc, none⟩ [.writeCacheTag 0x10 0x100]).map
      (fun s => (lookupLine randomCache s.cache 1 0).lock) = some 1 := by decide +kernel
  obtain ⟨s, reached, lock⟩ := Option.map_eq_some_iff.mp locked
  refine ⟨s, reached, lock, ?_⟩
  refine selects_safely_throughout randomCache true ⟨fun _ => ⟨_, rfl⟩, rfl⟩ ?_ reached (by decide)
  refine along_of_forall _ fun op member => ?_
  rw [List.mem_singleton.mp member]
  decide

/-- Way 0 of set 1 is locked, and way 3 of set 0, which is way 1 of set 1: the random search in set 1
never ends. -/
theorem random_search_never_ends :
    ∃ s, run (opStep randomCache true) ⟨resetCache, 0xc, none⟩
        [.writeCacheTag 0x10 0x100, .writeCacheTag 0xc00 0x100] = some s ∧
      (1 : BitVec 32).toNat < randomCache.mNumberOfVectors ∧
      replacementSelector randomCache s.cache 1 randomCache.mRepl = none ∧
        ¬ SelectsSafely randomCache s.cache 1 := by
  have endless : (run (opStep randomCache true) ⟨resetCache, 0xc, none⟩
      [.writeCacheTag 0x10 0x100, .writeCacheTag 0xc00 0x100]).map (fun s =>
        (replacementSelector randomCache s.cache 1 randomCache.mRepl).isNone) = some true := by
    decide +kernel
  obtain ⟨s, reached, never⟩ := Option.map_eq_some_iff.mp endless
  have none_selected := Option.isNone_iff_eq_none.mp never
  refine ⟨s, reached, by decide, none_selected, fun safe => ?_⟩
  obtain ⟨way, c', selected, -⟩ := safe.ends
  rw [none_selected] at selected
  cases selected

end Socrocket.MmuCache
