/- Socrocket/MmuCache/LruOrder
   digest: The LRU counters keep the order of the last touches, and when the way selected by them is
   the least recently touched one among the unlocked ways. -/

import Socrocket.Base.Recency
import Socrocket.MmuCache.CacheRuns
import Socrocket.MmuCache.WriteThrough

set_option autoImplicit false
set_option relaxedAutoImplicit false

namespace Socrocket.MmuCache

open Socrocket.Base.ByteMemory
open Socrocket.Base.Recency
open Socrocket.Base.Run
open VectorCache

section Counters

variable {cfg : Config} {c : VectorCache} {idx i : BitVec 32} {way w : ℕ}

theorem lru_lruUpdate (hw : w ≤ cfg.mSets) :
    (lookupLine cfg (lruUpdate cfg c idx way) i w).lru =
      if i = idx then
        if w = way then BitVec.ofNat 32 cfg.mMaxLru
        else if (lookupLine cfg c i w).lru > (lookupLine cfg c idx way).lru then
          (lookupLine cfg c i w).lru - 1
        else (lookupLine cfg c i w).lru
      else (lookupLine cfg c i w).lru := by
  have inSet : ∀ v ∈ List.range (cfg.mSets + 1), v ≤ cfg.mSets := by
    intro v hv
    have := List.mem_range.mp hv
    omega
  have member : w ∈ List.range (cfg.mSets + 1) := List.mem_range.mpr (by omega)
  have aged : lookupLine cfg (lruUpdate cfg c idx way) i w = _ :=
    lookupLine_foldl_modifyLine (fun v line =>
      if v = way then { line with lru := BitVec.ofNat 32 cfg.mMaxLru }
      else if line.lru > (lookupLine cfg c idx way).lru then { line with lru := line.lru - 1 }
      else line) (List.range (cfg.mSets + 1)) inSet List.nodup_range hw
  rw [aged]
  simp only [member, and_true]
  split_ifs <;> rfl

theorem lru_updateLine (repl : cfg.mRepl = 1) {tag offset len : BitVec 32} {data : Buffer}
    (hw : w ≤ cfg.mSets) :
    (lookupLine cfg (updateLine cfg c tag idx offset way len data) i w).lru =
      (lookupLine cfg (lruUpdate cfg c idx way) i w).lru := by
  have before (j : BitVec 32) (v : ℕ) : (lookupLine cfg (markValid cfg
      (takeOver cfg (fillEntry cfg c idx offset way len data) tag idx way) idx offset way len) j
        v).lru =
        (lookupLine cfg c j v).lru := by
    refine (view_marked c idx tag offset len data CacheLine.lru ?_ (position cfg j v)).trans ?_
    · intro line valid atag lrr
      rfl
    · simp only [fillEntry]
      exact view_modifyLine CacheLine.lru (by intro line; rfl) _
  simp only [updateLine, if_pos repl]
  rw [lru_lruUpdate hw, lru_lruUpdate hw]
  simp only [before]

theorem lru_flush (reply : Reply) (i : BitVec 32) (w : ℕ) :
    (lookupLine cfg (VectorCache.flush cfg c reply).1 i w).lru = (lookupLine cfg c i w).lru := by
  simp only [VectorCache.flush, lookupLine]
  split_ifs <;> rfl

theorem lru_snoopWords (n : ℕ) (address i : BitVec 32) (w : ℕ) :
    (lookupLine cfg (snoopWords cfg n c address) i w).lru = (lookupLine cfg c i w).lru := by
  obtain ⟨valid, same⟩ := rest_snoopWords c address n (position cfg i w)
  rw [lookupLine, same]
  rfl

theorem lru_writeCacheTag {setlock : Bool} {address data : BitVec 32} {c' : VectorCache}
    (written : VectorCache.writeCacheTag cfg setlock c address data = some c') (i : BitVec 32) (w : ℕ) :
    (lookupLine cfg c' i w).lru = (lookupLine cfg c i w).lru := by
  unfold VectorCache.writeCacheTag at written
  simp only [Option.ite_none_left_eq_some, Option.some.injEq] at written
  rw [← written.2]
  exact view_modifyLine CacheLine.lru (by intro line; rfl) _

/-- The LRU search finds the last way with an exhausted counter, and way 0 when there is none: the
lock is read from the counter. -/
theorem lruSearch_eq (cfg : Config) (c : VectorCache) (idx : BitVec 32) (best : BitVec 32 × ℕ) (n : ℕ) :
    (((List.range n).foldl (lruStep cfg c idx) best).2 < n ∧
        (lookupLine cfg c idx ((List.range n).foldl (lruStep cfg c idx) best).2).lru = 0 ∧
        ∀ w < n, (lookupLine cfg c idx w).lru = 0 →
          w ≤ ((List.range n).foldl (lruStep cfg c idx) best).2) ∨
      (∀ w < n, (lookupLine cfg c idx w).lru ≠ 0) ∧
        ((List.range n).foldl (lruStep cfg c idx) best).2 = best.2 := by
  induction n with
  | zero => exact .inr ⟨fun w hw => absurd hw (Nat.not_lt_zero w), rfl⟩
  | succ n ih =>
    rw [List.range_succ, List.foldl_append]
    generalize (List.range n).foldl (lruStep cfg c idx) best = found at ih ⊢
    change ((lruStep cfg c idx found n).2 < n + 1 ∧ _) ∨ _ ∧ (lruStep cfg c idx found n).2 = _
    by_cases exhausted : (lookupLine cfg c idx n).lru = 0
    · left
      have least : (lookupLine cfg c idx n).lru ≤ found.1 := by
        rw [exhausted, BitVec.le_def]
        exact Nat.zero_le _
      have chosen : lruStep cfg c idx found n = ((lookupLine cfg c idx n).lru, n) :=
        if_pos ⟨least, exhausted⟩
      rw [List.foldl_cons, List.foldl_nil, chosen]
      exact ⟨Nat.lt_succ_self n, exhausted, fun w hw _ => Nat.le_of_lt_succ hw⟩
    · have kept : lruStep cfg c idx found n = found := if_neg fun both => exhausted both.2
      rw [List.foldl_cons, List.foldl_nil, kept]
      rcases ih with ⟨below, zero, last⟩ | ⟨none_zero, same⟩
      · refine .inl ⟨Nat.lt_succ_of_lt below, zero, fun w hw old => ?_⟩
        rcases Nat.lt_succ_iff_lt_or_eq.mp hw with earlier | rfl
        · exact last w earlier old
        · exact absurd old exhausted
      · refine .inr ⟨fun w hw => ?_, same⟩
        rcases Nat.lt_succ_iff_lt_or_eq.mp hw with earlier | rfl
        · exact none_zero w earlier
        · exact exhausted

theorem lruSelector_eq {c' : VectorCache}
    (selected : replacementSelector cfg c idx 1 = some (way, c')) :
    (way ≤ cfg.mSets ∧ (lookupLine cfg c idx way).lru = 0 ∧
        ∀ w ≤ cfg.mSets, (lookupLine cfg c idx w).lru = 0 → w ≤ way) ∨
      (∀ w ≤ cfg.mSets, (lookupLine cfg c idx w).lru ≠ 0) ∧ way = 0 := by
  have result : ((List.range (cfg.mSets + 1)).foldl (lruStep cfg c idx)
      (BitVec.ofNat 32 cfg.mMaxLru, 0)).2 = way := congrArg Prod.fst (Option.some.inj selected)
  have search := lruSearch_eq cfg c idx (BitVec.ofNat 32 cfg.mMaxLru, 0) (cfg.mSets + 1)
  rw [result] at search
  rcases search with ⟨below, zero, last⟩ | ⟨none_zero, first⟩
  · exact .inl ⟨Nat.le_of_lt_succ below, zero, fun w hw => last w (Nat.lt_succ_of_le hw)⟩
  · exact .inr ⟨fun w hw => none_zero w (Nat.lt_succ_of_le hw), first⟩

end Counters

/-- The touches of one set, in order. -/
def setHistory (history : List (BitVec 32 × ℕ)) (i : BitVec 32) : List ℕ :=
  (history.filter (·.1 = i)).map Prod.snd

/-- The counter of a way: the maximum less the number of ways touched after it. -/
def counter (max : ℕ) (stack : List ℕ) (w : ℕ) : ℕ := if w ∈ stack then max - stack.idxOf w else 0

/-- Every counter of the cache tells the place of its way in the order of the touches. -/
structure LruOrder (cfg : Config) (s : CacheRun) (history : List (BitVec 32 × ℕ)) : Prop where
  inSet : ∀ p ∈ history, p.2 ≤ cfg.mSets
  waiting : ∀ r way address len, s.waiting = some (r, .refill (some way) address len) → way ≤ cfg.mSets
  lru : ∀ i w, w ≤ cfg.mSets → (lookupLine cfg s.cache i w).lru.toNat =
    counter cfg.mMaxLru (recent (setHistory history i)) w

/-- Of the ways up to `n` that are not locked, the one touched least recently. -/
structure LeastRecent (n : ℕ) (history : List ℕ) (locked : ℕ → Prop) (way : ℕ) : Prop where
  inSet : way ≤ n
  unlocked : ¬ locked way
  oldest : ∀ w ≤ n, ¬ locked w → lastTouch history way ≤ lastTouch history w

/-- The last of the ways touched least recently, locked or not. -/
structure OldestWay (n : ℕ) (history : List ℕ) (way : ℕ) : Prop where
  inSet : way ≤ n
  oldest : ∀ w ≤ n, lastTouch history way ≤ lastTouch history w
  last : ∀ w ≤ n, way < w → lastTouch history way < lastTouch history w

/-- A way of a set is locked. -/
def Locked (cfg : Config) (s : CacheRun) (i : BitVec 32) (w : ℕ) : Prop :=
  (lookupLine cfg s.cache i w).lock ≠ 0

/-- The LRU strategy selects the least recently touched way of the unlocked ones. -/
def SelectsLeastRecent (cfg : Config) (s : CacheRun) (i : BitVec 32) (history : List ℕ) : Prop :=
  ∃ way c', replacementSelector cfg s.cache i cfg.mRepl = some (way, c') ∧
    LeastRecent cfg.mSets history (Locked cfg s i) way

/-- The locks fit the counters: with two ways, or when some way was never touched, the oldest way is
not locked; else way 0 is the oldest of the unlocked ways. -/
structure LocksFit (cfg : Config) (s : CacheRun) (i : BitVec 32) (history : List ℕ) : Prop where
  fresh : (cfg.mSets = 1 ∨ ∃ w ≤ cfg.mSets, w ∉ history) →
    ∀ way, OldestWay cfg.mSets history way → ¬ Locked cfg s i way
  full : (cfg.mSets ≠ 1 ∧ ∀ w ≤ cfg.mSets, w ∈ history) →
    LeastRecent cfg.mSets history (Locked cfg s i) 0

section Order

variable {cfg : Config} {s s' : CacheRun} {history : List (BitVec 32 × ℕ)} {i : BitVec 32} {w : ℕ}

theorem setHistory_append (history : List (BitVec 32 × ℕ)) (i j : BitVec 32) (way : ℕ) :
    setHistory (history ++ [(j, way)]) i =
      if i = j then setHistory history i ++ [way] else setHistory history i := by
  unfold setHistory
  rw [List.filter_append, List.map_append]
  by_cases same : i = j
  · simp [same]
  · simp [same, Ne.symm same]

theorem mem_setHistory (inSet : ∀ p ∈ history, p.2 ≤ cfg.mSets) (member : w ∈ setHistory history i) :
    w ≤ cfg.mSets := by
  obtain ⟨p, found, rfl⟩ := List.mem_map.mp member
  exact inSet p (List.mem_of_mem_filter found)

theorem length_le_of_nodup {stack : List ℕ} {n : ℕ} (nodup : stack.Nodup) (inSet : ∀ v ∈ stack, v ≤ n) :
    stack.length ≤ n + 1 := by
  have range : stack ⊆ List.range (n + 1) := by
    intro v member
    exact List.mem_range.mpr (Nat.lt_succ_of_le (inSet v member))
  have short := (nodup.subperm range).length_le
  rwa [List.length_range] at short

theorem idxOf_recent_le {touches : List ℕ} {n : ℕ} (inSet : ∀ v ∈ touches, v ≤ n) (hw : w ≤ n) :
    (recent touches).idxOf w ≤ n := by
  have ways : ∀ v ∈ recent touches, v ≤ n := fun v known => inSet v (mem_recent.mp known)
  by_cases known : w ∈ recent touches
  · have room := length_le_of_nodup (nodup_recent _) ways
    have place := List.idxOf_lt_length_of_mem known
    omega
  · have room := length_le_of_nodup (List.nodup_cons.mpr ⟨known, nodup_recent _⟩) (n := n) (by
      intro v member
      rcases List.mem_cons.mp member with rfl | old
      · exact hw
      · exact ways v old)
    rw [List.length_cons] at room
    rw [List.idxOf_of_notMem known]
    omega

theorem mSets_le (cfg : Config) : cfg.mSets ≤ 3 := by
  have := cfg.sets_range
  simp only [Config.mSets]
  omega

theorem mSets_le_mMaxLru (cfg : Config) : cfg.mSets ≤ cfg.mMaxLru ∧ cfg.mMaxLru ≤ 7 := by
  have small := mSets_le cfg
  unfold Config.mMaxLru
  generalize cfg.mSets = n at *
  have cases_n : n = 0 ∨ n = 1 ∨ n = 2 ∨ n = 3 := by omega
  rcases cases_n with rfl | rfl | rfl | rfl <;> decide

theorem counter_touch {max n way : ℕ} {stack : List ℕ} (nodup : stack.Nodup)
    (inSet : ∀ v ∈ stack, v ≤ n) (hway : way ≤ n) (enough : n ≤ max) (w : ℕ) :
    counter max (touch stack way) w =
      if w = way then max
      else if counter max stack w > counter max stack way then counter max stack w - 1
      else counter max stack w := by
  have member : w ∈ touch stack way ↔ w = way ∨ w ∈ stack := mem_touch nodup
  unfold counter
  by_cases touched : w = way
  · rw [if_pos touched, if_pos (member.mpr (.inl touched)), touched, idxOf_touch_self, Nat.sub_zero]
  · rw [if_neg touched]
    by_cases known : w ∈ stack
    · have place := List.idxOf_lt_length_of_mem known
      rw [if_pos (member.mpr (.inr known)), if_pos known, idxOf_touch nodup touched known]
      by_cases before : way ∈ stack
      · have room := length_le_of_nodup nodup inSet
        have place' := List.idxOf_lt_length_of_mem before
        rw [if_pos before]
        split_ifs <;> omega
      · -- a way touched for the first time leaves room for one more
        have room := length_le_of_nodup (List.nodup_cons.mpr ⟨before, nodup⟩) (n := n) (by
          intro v member
          rcases List.mem_cons.mp member with rfl | old
          · exact hway
          · exact inSet v old)
        rw [List.length_cons] at room
        rw [if_neg before, List.idxOf_of_notMem before, if_pos place]
        split_ifs <;> omega
    · have outside : w ∉ touch stack way := fun new => not_or.mpr ⟨touched, known⟩ (member.mp new)
      rw [if_neg outside, if_neg known]
      split_ifs <;> omega

theorem counter_lruUpdate {c : VectorCache} {touches : List ℕ} {way : ℕ}
    (inSet : ∀ v ∈ touches, v ≤ cfg.mSets)
    (order : ∀ v ≤ cfg.mSets,
      (lookupLine cfg c i v).lru.toNat = counter cfg.mMaxLru (recent touches) v)
    (hway : way ≤ cfg.mSets) (hw : w ≤ cfg.mSets) :
    (lookupLine cfg (lruUpdate cfg c i way) i w).lru.toNat =
      counter cfg.mMaxLru (recent (touches ++ [way])) w := by
  have bound := mSets_le_mMaxLru cfg
  have mine := order w hw
  have pivot := order way hway
  have maximum : (BitVec.ofNat 32 cfg.mMaxLru).toNat = cfg.mMaxLru := by
    rw [BitVec.toNat_ofNat, Nat.mod_eq_of_lt (by omega)]
  rw [lru_lruUpdate hw, if_pos rfl, recent_append, counter_touch (nodup_recent _)
    (fun v known => inSet v (mem_recent.mp known)) hway bound.1, ← mine, ← pivot]
  have above : (lookupLine cfg c i w).lru > (lookupLine cfg c i way).lru ↔
      (lookupLine cfg c i w).lru.toNat > (lookupLine cfg c i way).lru.toNat := by
    rw [gt_iff_lt, BitVec.lt_def]
  split_ifs with newest larger larger' larger'
  · exact maximum
  · rw [BitVec.toNat_sub_of_le]
    · rfl
    · rw [BitVec.le_def]
      have := above.mp larger
      change 1 ≤ _
      omega
  · exact absurd (above.mp larger) larger'
  · exact absurd (above.mpr larger') larger
  · rfl

theorem LruOrder.touch_lru (order : LruOrder cfg s history) {idx : BitVec 32}
    {way : ℕ} (hway : way ≤ cfg.mSets)
    (aged : ∀ i w, w ≤ cfg.mSets → (lookupLine cfg s'.cache i w).lru =
      (lookupLine cfg (lruUpdate cfg s.cache idx way) i w).lru) (i : BitVec 32) {w : ℕ}
    (hw : w ≤ cfg.mSets) :
    (lookupLine cfg s'.cache i w).lru.toNat =
      counter cfg.mMaxLru (recent (setHistory (history ++ [(idx, way)]) i)) w := by
  rw [aged i w hw, setHistory_append]
  by_cases set : i = idx
  · subst idx
    rw [if_pos rfl]
    exact counter_lruUpdate (fun v known => mem_setHistory order.inSet known) (order.lru i) hway hw
  · rw [lru_lruUpdate hw, if_neg set, if_neg set]
    exact order.lru i w hw

theorem LruOrder.way_le (repl : cfg.mRepl = 1) (order : LruOrder cfg s history) {op : CacheOp}
    {u : LineWrite} (writes : WritesLine cfg s op u) : u.way ≤ cfg.mSets := by
  cases writes with
  | write searched found => exact (locateLine_some found).1
  | refill waits => exact order.waiting _ _ _ _ waits
  | allocate waits unfrozen allocates =>
    cases allocates with
    | free inSet unused first => exact inSet
    | replaced full selected =>
      obtain ⟨c', selected⟩ := selected
      rw [repl] at selected
      rcases lruSelector_eq selected with ⟨inSet, -, -⟩ | ⟨-, first⟩
      · exact inSet
      · rw [first]
        exact Nat.zero_le _

/-- Every step keeps the order, with the touch of the step behind the ones before. -/
theorem lruOrder_step {setlock : Bool} (repl : cfg.mRepl = 1) {op : CacheOp}
    (order : LruOrder cfg s history) (next : opStep cfg setlock s op = some s') :
    LruOrder cfg s' (history ++ touched cfg s op) := by
  have waiting : ∀ r way address len, s'.waiting = some (r, .refill (some way) address len) →
      way ≤ cfg.mSets := by
    intro r way address len waits
    rcases waiting_of_step next with (same | ended) | ⟨q, data, reply, -, found, -⟩
    · exact order.waiting r way address len (same ▸ waits)
    · rw [ended] at waits
      cases waits
    · rw [found, Option.some.injEq, Prod.mk.injEq] at waits
      exact (locateLine_some (locateLine_of_refill waits.2).symm).1
  have idle (nothing : touched cfg s op = []) (same : ∀ i w, w ≤ cfg.mSets →
      (lookupLine cfg s'.cache i w).lru = (lookupLine cfg s.cache i w).lru) :
      LruOrder cfg s' (history ++ touched cfg s op) := by
    rw [nothing, List.append_nil]
    exact ⟨order.inSet, waiting, fun i w hw => by rw [same i w hw, order.lru i w hw]⟩
  have touch {idx : BitVec 32} {way : ℕ} (one : touched cfg s op = [(idx, way)])
      (hway : way ≤ cfg.mSets) (aged : ∀ i w, w ≤ cfg.mSets → (lookupLine cfg s'.cache i w).lru =
        (lookupLine cfg (lruUpdate cfg s.cache idx way) i w).lru) :
      LruOrder cfg s' (history ++ touched cfg s op) := by
    rw [one]
    refine ⟨fun p member => ?_, waiting, fun i w hw => order.touch_lru hway aged i hw⟩
    rcases List.mem_append.mp member with old | new
    · exact order.inSet p old
    · rw [List.mem_singleton.mp new]
      exact hway
  cases effect_of_step next with
  | none nothing same => exact idle nothing fun i w _ => by rw [lookupLine, lookupLine, same]
  | hit free found one aged =>
    refine touch one (locateLine_some (locateLine_of_hit found)).1 fun i w hw => ?_
    rw [if_pos repl] at aged
    rw [lookupLine, lookupLine, aged]
  | line writes one written =>
    obtain ⟨c, same, written⟩ := written
    refine touch one (order.way_le repl writes) fun i w hw => ?_
    have lines (j : BitVec 32) (v : ℕ) : lookupLine cfg c j v = lookupLine cfg s.cache j v := by
      rw [lookupLine, lookupLine, same]
    rw [lookupLine, written]
    refine (lru_updateLine repl hw).trans ?_
    rw [lru_lruUpdate hw, lru_lruUpdate hw]
    simp only [lines]
  | flush flushed => exact idle rfl fun i w _ => by rw [flushed, lru_flush]
  | snoop snooped =>
    obtain ⟨n, eq⟩ := snoopInvalidate_some _ snooped
    exact idle rfl fun i w _ => by rw [eq, lru_snoopWords]
  | tag written => exact idle rfl fun i w _ => lru_writeCacheTag written i w

theorem OldestWay.unique {n v w : ℕ} {history : List ℕ} (hv : OldestWay n history v)
    (hw : OldestWay n history w) : v = w := by
  rcases lt_trichotomy v w with before | same | after
  · have := hv.last w hw.inSet before
    have := hw.oldest v hv.inSet
    omega
  · exact same
  · have := hw.last v hv.inSet after
    have := hv.oldest w hw.inSet
    omega

section Selected

variable (order : LruOrder cfg s history)

include order

/-- A counter is exhausted when its way was never touched, or all others were touched after it. -/
theorem LruOrder.exhausted_iff (hw : w ≤ cfg.mSets) :
    (lookupLine cfg s.cache i w).lru = 0 ↔
      w ∉ setHistory history i ∨ cfg.mMaxLru ≤ (recent (setHistory history i)).idxOf w := by
  have value := order.lru i w hw
  rw [← BitVec.toNat_inj, value, counter]
  change _ = 0 ↔ _
  by_cases known : w ∈ setHistory history i
  · rw [if_pos (mem_recent.mpr known)]
    constructor
    · intro zero
      exact .inr (by omega)
    · rintro (never | behind)
      · exact absurd known never
      · omega
  · rw [if_neg fun old => known (mem_recent.mp old)]
    exact ⟨fun _ => .inl known, fun _ => rfl⟩

theorem LruOrder.place_le (hw : w ≤ cfg.mSets) :
    (recent (setHistory history i)).idxOf w ≤ cfg.mSets :=
  idxOf_recent_le (fun _ known => mem_setHistory order.inSet known) hw

theorem LruOrder.oldest (hw : w ≤ cfg.mSets) (exhausted : (lookupLine cfg s.cache i w).lru = 0) {v : ℕ}
    (hv : v ≤ cfg.mSets) :
    lastTouch (setHistory history i) w ≤ lastTouch (setHistory history i) v := by
  by_contra newer
  rw [not_le] at newer
  have touched : w ∈ setHistory history i := lastTouch_pos.mp (by omega)
  have front := (lastTouch_lt_iff touched).mp newer
  have place := order.place_le (i := i) hv
  have enough := (mSets_le_mMaxLru cfg).1
  rcases (order.exhausted_iff hw).mp exhausted with never | behind
  · exact never touched
  · omega

theorem LruOrder.oldestWay (hw : w ≤ cfg.mSets) (exhausted : (lookupLine cfg s.cache i w).lru = 0)
    (last : ∀ v ≤ cfg.mSets, (lookupLine cfg s.cache i v).lru = 0 → v ≤ w) :
    OldestWay cfg.mSets (setHistory history i) w := by
  refine ⟨hw, fun v hv => order.oldest hw exhausted hv, fun v hv behind => ?_⟩
  have touched : v ∈ setHistory history i := by
    by_contra never
    have := last v hv ((order.exhausted_iff hv).mpr (.inl never))
    omega
  have apart := lastTouch_ne (Nat.ne_of_lt behind) touched
  have := order.oldest hw exhausted hv
  omega

theorem LruOrder.never_touched (hw : w ≤ cfg.mSets) (many : cfg.mSets ≠ 1) (some_way : 1 ≤ cfg.mSets)
    (exhausted : (lookupLine cfg s.cache i w).lru = 0) : w ∉ setHistory history i := by
  rcases (order.exhausted_iff hw).mp exhausted with never | behind
  · exact never
  · have place := order.place_le (i := i) hw
    have small := mSets_le cfg
    have enough : cfg.mSets < cfg.mMaxLru := by
      unfold Config.mMaxLru
      generalize cfg.mSets = n at *
      have cases_n : n = 2 ∨ n = 3 := by omega
      rcases cases_n with rfl | rfl <;> decide
    omega

theorem LruOrder.two_ways (two : cfg.mSets = 1) :
    ∃ w ≤ cfg.mSets, (lookupLine cfg s.cache i w).lru = 0 := by
  by_contra none_zero
  push Not at none_zero
  have front {w : ℕ} (hw : w ≤ cfg.mSets) : w ∈ setHistory history i ∧
      (recent (setHistory history i)).idxOf w = 0 := by
    have live := none_zero w hw
    rw [ne_eq, order.exhausted_iff hw, not_or, not_not, Config.mMaxLru, two] at live
    exact ⟨live.1, by omega⟩
  have zero := front (Nat.zero_le _)
  have one := front (w := 1) (by omega)
  exact Nat.zero_ne_one ((List.idxOf_inj (mem_recent.mpr zero.1)).mp (zero.2.trans one.2.symm))

end Selected

theorem LruOrder.selects_iff (order : LruOrder cfg s history) (repl : cfg.mRepl = 1)
    (i : BitVec 32) :
    SelectsLeastRecent cfg s i (setHistory history i) ↔
      LocksFit cfg s i (setHistory history i) := by
  have some_way : 1 ≤ cfg.mSets := by
    by_contra one
    rw [Config.mRepl, if_pos (by omega)] at repl
    cases repl
  have total : ∃ way c', replacementSelector cfg s.cache i 1 = some (way, c') := ⟨_, _, rfl⟩
  obtain ⟨way, c', selected⟩ := total
  have this_way : SelectsLeastRecent cfg s i (setHistory history i) ↔
      LeastRecent cfg.mSets (setHistory history i) (Locked cfg s i) way := by
    unfold SelectsLeastRecent
    rw [repl, selected]
    constructor
    · rintro ⟨v, d, same, least⟩
      rw [Option.some.injEq, Prod.mk.injEq] at same
      exact same.1 ▸ least
    · intro least
      exact ⟨way, c', rfl, least⟩
  rw [this_way]
  rcases lruSelector_eq selected with ⟨inSet, exhausted, last⟩ | ⟨live, rfl⟩
  · have oldest := order.oldestWay inSet exhausted last
    constructor
    · intro least
      refine ⟨fun _ v hv => hv.unique oldest ▸ least.unlocked, fun full => ?_⟩
      exact absurd (full.2 way inSet) (order.never_touched inSet full.1 some_way exhausted)
    · intro fits
      refine ⟨inSet, fits.fresh ?_ way oldest, fun w hw _ => oldest.oldest w hw⟩
      by_cases two : cfg.mSets = 1
      · exact .inl two
      · exact .inr ⟨way, inSet, order.never_touched inSet two some_way exhausted⟩
  · have full : cfg.mSets ≠ 1 ∧ ∀ w ≤ cfg.mSets, w ∈ setHistory history i := by
      refine ⟨fun two => ?_, fun w hw => ?_⟩
      · obtain ⟨w, hw, exhausted⟩ := order.two_ways (i := i) two
        exact live w hw exhausted
      · by_contra never
        exact live w hw ((order.exhausted_iff hw).mpr (.inl never))
    constructor
    · intro least
      refine ⟨fun fresh => ?_, fun _ => least⟩
      rcases fresh with two | ⟨w, hw, never⟩
      · exact absurd two full.1
      · exact absurd (full.2 w hw) never
    · intro fits
      exact fits.full full

theorem lruOrder_poweredOn (start : PoweredOn s) : LruOrder cfg s [] where
  inSet p member := by cases member
  waiting r way address len waits := by
    rw [start.2] at waits
    cases waits
  lru i w _ := by
    obtain ⟨entry, zero⟩ := start.1 (position cfg i w)
    rw [lookupLine, zero]
    rfl

end Order

/-- LRU replacement: after any sequence of accesses, the way selected in a set is the least recently
touched one of the unlocked ways exactly when the locks fit the counters. -/
theorem lru_least_recent_iff (cfg : Config) (setlock : Bool) (repl : cfg.mRepl = 1) {start s : CacheRun}
    (on : PoweredOn start) {ops : List CacheOp}
    (reached : run (opStep cfg setlock) start ops = some s) (i : BitVec 32) :
    SelectsLeastRecent cfg s i
        (setHistory (outputs (opStep cfg setlock) (touched cfg) start ops) i) ↔
      LocksFit cfg s i (setHistory (outputs (opStep cfg setlock) (touched cfg) start ops) i) := by
  have order : LruOrder cfg s ([] ++ outputs (opStep cfg setlock) (touched cfg) start ops) :=
    outputs_always (fun _ _ _ _ order next => lruOrder_step repl order next)
      (lruOrder_poweredOn on) reached
  rw [List.nil_append] at order
  exact order.selects_iff repl i

/-- A data cache with four ways and the LRU strategy. -/
def fourWayCache : Config :=
  { smallDataCache with
    sets := 4
    sets_range := by decide
    lrr_two_way := by decide
    direct_one_way := by decide
    repl_range := by decide }

/-- A load that misses, and its refill. -/
def missedLoad (address : BitVec 32) : List CacheOp :=
  [.startRead ⟨address, 0xa, 4, false, false⟩ (fun _ => 0) ⟨0, false⟩,
    .endRead (fun _ => 0) (fun _ => 0) ⟨0, true⟩ true]

/-- Loads of four lines of one set, and another load of the first one. -/
def fourLoadsAndAHit : List CacheOp :=
  missedLoad 0x40000000 ++ missedLoad 0x40000400 ++ missedLoad 0x40000800 ++ missedLoad 0x40000c00 ++
    [.startRead ⟨0x40000000, 0xa, 4, false, false⟩ (fun _ => 0) ⟨0, false⟩]

/-- The state after power on, with the cache enabled. -/
def poweredOn : CacheRun := ⟨resetCache, 0xc, none⟩

theorem poweredOn_poweredOn : PoweredOn poweredOn := ⟨fun _ => ⟨_, rfl⟩, rfl⟩

theorem lru_least_recent_four_loads :
    ∃ s, run (opStep fourWayCache false) poweredOn (missedLoad 0x40000000) = some s ∧
      (SelectsLeastRecent fourWayCache s 0 (setHistory
          (outputs (opStep fourWayCache false) (touched fourWayCache) poweredOn
            (missedLoad 0x40000000)) 0) ↔
        LocksFit fourWayCache s 0 (setHistory
          (outputs (opStep fourWayCache false) (touched fourWayCache) poweredOn
            (missedLoad 0x40000000)) 0)) :=
  ⟨_, rfl, lru_least_recent_iff fourWayCache false rfl poweredOn_poweredOn rfl 0⟩

/-- The way of the last load is selected, although three others were touched before it. -/
theorem hit_way_is_replaced :
    ∃ s, run (opStep fourWayCache false) poweredOn fourLoadsAndAHit = some s ∧
      (∀ w ≤ 3, (lookupLine fourWayCache s.cache 0 w).valid = 1) ∧
      (∀ w ≤ 3, ¬ Locked fourWayCache s 0 w) ∧
      ¬ SelectsLeastRecent fourWayCache s 0 (setHistory
        (outputs (opStep fourWayCache false) (touched fourWayCache) poweredOn fourLoadsAndAHit) 0) := by
  have touches : setHistory (outputs (opStep fourWayCache false) (touched fourWayCache) poweredOn
      fourLoadsAndAHit) 0 = [0, 1, 2, 3, 0] := by decide +kernel
  rw [touches]
  refine ⟨_, rfl, by decide +kernel, by unfold Locked; decide +kernel, ?_⟩
  rintro ⟨way, c', selected, least⟩
  rcases lruSelector_eq selected with ⟨inSet, zero, -⟩ | ⟨-, rfl⟩
  · -- no counter is exhausted
    clear selected least
    revert way
    decide +kernel
  · have newer := least.oldest 1 (by decide) (by unfold Locked; decide +kernel)
    revert newer
    decide

end Socrocket.MmuCache
