/- Socrocket/MmuCache/LruCounters
   digest: The counters of a set under any sequence of LRU updates. -/

import Socrocket.MmuCache.LruOrder

set_option autoImplicit false
set_option relaxedAutoImplicit false

namespace Socrocket.MmuCache

open Socrocket.Base.Recency
open VectorCache

variable {cfg : Config} {c : VectorCache} {i : BitVec 32} {w : ℕ}

/-- Calls of `lru_update`, each with a set and a way of it. -/
def lruUpdates (cfg : Config) (c : VectorCache) (calls : List (BitVec 32 × ℕ)) : VectorCache :=
  calls.foldl (fun c call => lruUpdate cfg c call.1 call.2) c

/-- The counters of a set after its ways were touched in this order. -/
structure LruCounters (cfg : Config) (c : VectorCache) (i : BitVec 32) (touches : List ℕ) :
    Prop where
  distinct : ∀ v ∈ touches, ∀ w ∈ touches, v ≠ w →
    (lookupLine cfg c i v).lru ≠ (lookupLine cfg c i w).lru
  recency : ∀ v ∈ touches, ∀ w ∈ touches,
    (lookupLine cfg c i v).lru < (lookupLine cfg c i w).lru ↔
      lastTouch touches v < lastTouch touches w
  latest : ∀ w, touches.getLast? = some w →
    (lookupLine cfg c i w).lru = BitVec.ofNat 32 cfg.mMaxLru
  untouched : ∀ w ≤ cfg.mSets, w ∉ touches → (lookupLine cfg c i w).lru = 0
  bounded : ∀ w ≤ cfg.mSets, (lookupLine cfg c i w).lru.toNat ≤ cfg.mMaxLru

theorem lruUpdates_append (cfg : Config) (c : VectorCache) (calls : List (BitVec 32 × ℕ))
    (call : BitVec 32 × ℕ) :
    lruUpdates cfg c (calls ++ [call]) = lruUpdate cfg (lruUpdates cfg c calls) call.1 call.2 := by
  rw [lruUpdates, List.foldl_append]
  rfl

private theorem lru_lruUpdates {calls : List (BitVec 32 × ℕ)} (ways : ∀ p ∈ calls, p.2 ≤ cfg.mSets)
    (zero : ∀ w ≤ cfg.mSets, (lookupLine cfg c i w).lru = 0) (hw : w ≤ cfg.mSets) :
    (lookupLine cfg (lruUpdates cfg c calls) i w).lru.toNat =
      counter cfg.mMaxLru (recent (setHistory calls i)) w := by
  induction calls using List.reverseRecOn generalizing w with
  | nil =>
    change (lookupLine cfg c i w).lru.toNat = _
    rw [zero w hw]
    rfl
  | append_singleton calls call ih =>
    have before : ∀ p ∈ calls, p.2 ≤ cfg.mSets := by
      intro p member
      exact ways p (List.mem_append_left _ member)
    have inSet : call.2 ≤ cfg.mSets := ways call (List.mem_append_right _ (List.mem_singleton.mpr rfl))
    rw [lruUpdates_append]
    obtain ⟨idx, way⟩ := call
    rw [setHistory_append]
    by_cases here : i = idx
    · subst idx
      rw [if_pos rfl]
      exact counter_lruUpdate (fun v known => mem_setHistory before known)
        (fun v hv => ih before hv) inSet hw
    · rw [if_neg here, lru_lruUpdate hw, if_neg here]
      exact ih before hw

private theorem lru_lruUpdates_of_ne {calls : List (BitVec 32 × ℕ)} (apart : ∀ p ∈ calls, p.1 ≠ i)
    (hw : w ≤ cfg.mSets) :
    (lookupLine cfg (lruUpdates cfg c calls) i w).lru = (lookupLine cfg c i w).lru := by
  induction calls using List.reverseRecOn with
  | nil => rfl
  | append_singleton calls call ih =>
    have other : i ≠ call.1 :=
      (apart call (List.mem_append_right _ (List.mem_singleton.mpr rfl))).symm
    rw [lruUpdates_append, lru_lruUpdate hw, if_neg other]
    exact ih fun p member => apart p (List.mem_append_left _ member)

private theorem counter_of_mem {touches : List ℕ} {n max : ℕ} (inSet : ∀ v ∈ touches, v ≤ n)
    (enough : n ≤ max) (known : w ∈ touches) :
    counter max (recent touches) w + (recent touches).idxOf w = max := by
  have place := idxOf_recent_le inSet (inSet w known)
  rw [counter, if_pos (mem_recent.mpr known)]
  omega

theorem lruCounters_of_counter {touches : List ℕ} (inSet : ∀ v ∈ touches, v ≤ cfg.mSets)
    (order : ∀ w ≤ cfg.mSets,
      (lookupLine cfg c i w).lru.toNat = counter cfg.mMaxLru (recent touches) w) :
    LruCounters cfg c i touches := by
  have bound := mSets_le_mMaxLru cfg
  have placed : ∀ w ∈ touches,
      (lookupLine cfg c i w).lru.toNat + (recent touches).idxOf w = cfg.mMaxLru := by
    intro w known
    rw [order w (inSet w known)]
    exact counter_of_mem inSet bound.1 known
  constructor
  case distinct =>
    intro v hv w hw differ same
    have here := placed v hv
    have there := placed w hw
    rw [same] at here
    have place : (recent touches).idxOf v = (recent touches).idxOf w := by omega
    exact differ ((List.idxOf_inj (mem_recent.mpr hv)).mp place)
  case recency =>
    intro v hv w hw
    have here := placed v hv
    have there := placed w hw
    rw [BitVec.lt_def, lastTouch_lt_iff hw]
    omega
  case latest =>
    intro w last
    obtain ⟨before, rfl⟩ := List.getLast?_eq_some_iff.mp last
    have there := placed w (List.mem_append_right _ (List.mem_singleton.mpr rfl))
    rw [recent_append, idxOf_touch_self, Nat.add_zero] at there
    rw [← there, BitVec.ofNat_toNat, BitVec.setWidth_eq]
  case untouched =>
    intro w hw never
    have value := order w hw
    rw [counter, if_neg fun old => never (mem_recent.mp old)] at value
    exact BitVec.eq_of_toNat_eq value
  case bounded =>
    intro w hw
    rw [order w hw, counter]
    split_ifs <;> omega

/-- The counters of every set that starts with zeros are in the order of the touches, the touched
ways at the top and the others at zero, and a set without calls keeps its counters. -/
theorem lru_counters (cfg : Config) (c : VectorCache) (calls : List (BitVec 32 × ℕ))
    (ways : ∀ p ∈ calls, p.2 ≤ cfg.mSets) (i : BitVec 32) :
    ((∀ w ≤ cfg.mSets, (lookupLine cfg c i w).lru = 0) →
      LruCounters cfg (lruUpdates cfg c calls) i (setHistory calls i)) ∧
    ((∀ p ∈ calls, p.1 ≠ i) → ∀ w ≤ cfg.mSets,
      (lookupLine cfg (lruUpdates cfg c calls) i w).lru = (lookupLine cfg c i w).lru) := by
  constructor
  · intro zero
    exact lruCounters_of_counter (fun v known => mem_setHistory ways known)
      fun w hw => lru_lruUpdates ways zero hw
  · intro apart w hw
    exact lru_lruUpdates_of_ne apart hw

theorem lru_counters_four_ways :
    LruCounters fourWayCache (lruUpdates fourWayCache resetCache [(0, 2), (5, 1), (0, 0), (0, 2)]) 0
      (setHistory [(0, 2), (5, 1), (0, 0), (0, 2)] 0) :=
  (lru_counters fourWayCache resetCache _ (by decide) 0).1 (by decide)

end Socrocket.MmuCache
