/- Socrocket/Quadcopter/Voter
   digest: The vote over the commits of three systems, and when it compares what they committed. -/

import Socrocket.Base.OrderedMap

set_option autoImplicit false
set_option relaxedAutoImplicit false

namespace Socrocket.Quadcopter

open Socrocket.Base

/-- The values a system committed, by key. -/
abbrev Values := OrderedMap (BitVec 32) (BitVec 32) (Compare.word 32)

/-- The interrupt line of the voter and the values of all systems. -/
structure Voter where
  gIrq : BitVec 32
  mValues : OrderedMap (BitVec 32) Values (Compare.word 32)

/-- A write to one of the two outgoing signals. -/
inductive Output where
  | reset (mask : BitVec 32) (value : Bool)
  | irq (line : BitVec 32) (value : Bool)
deriving DecidableEq

namespace Voter

/-- Forget all values. -/
def dorst (v : Voter) : Voter := { v with mValues := OrderedMap.empty }

/-- The values of a system. Asking for them creates an empty map. -/
def valuesOf (v : Voter) (system : BitVec 32) : Values :=
  (v.mValues.find? system).getD OrderedMap.empty

/-- A system commits a value under a key. -/
def incommingCommit (v : Voter) (value : BitVec 32 × BitVec 32) (system : BitVec 32) : Voter :=
  { v with mValues := v.mValues.set system ((v.valuesOf system).set value.1 value.2) }

/-- The mask of the systems to reset. -/
def compareValues {α : Type} [DecidableEq α] (first second third : α) : BitVec 32 :=
  let fes := first = second
  let fet := first = third
  let set := second = third
  if fes ∧ fet ∧ set then 0x0
  else if ¬ fes ∧ ¬ fet ∧ ¬ set then 0x7
  else if fes then 1#32 <<< 2
  else if fet then 1#32 <<< 1
  else if set then 1#32 <<< 0
  else 0

/-- Print the value of key zero of a system. A missing key is created with the value zero. -/
def printZero (v : Voter) (system : BitVec 32) : Voter :=
  { v with mValues := v.mValues.set system ((v.valuesOf system).insert 0 0) }

/-- One turn of the watchdog: the mask of the vote, the signals it writes and the voter it leaves.
The reset is written with `0xF` for every mask but zero. -/
def watchdog (v : Voter) : BitVec 32 × List Output × Voter :=
  let mask := compareValues (v.valuesOf 0) (v.valuesOf 1) (v.valuesOf 2)
  let failed := if mask ≠ 0 then [Output.reset 0xF false, Output.reset 0xF true] else []
  let irq := if v.gIrq ≠ 0 then [Output.irq v.gIrq true, Output.irq v.gIrq false] else []
  (mask, failed ++ irq, ((v.printZero 0).printZero 1).printZero 2)

end Voter

section Verdict

variable {α β : Type} {value : Fin 3 → α} {other : Fin 3 → β} {mask mask' : BitVec 32}

/-- The mask of three values: zero when all agree, the bit of the odd one out, or seven. -/
structure IsResetMask (value : Fin 3 → α) (mask : BitVec 32) : Prop where
  agree : mask = 0 ↔ ∀ i j, value i = value j
  odd : ∀ i : Fin 3, mask = 1#32 <<< i.val ↔
    (∀ j k, j ≠ i → k ≠ i → value j = value k) ∧ ∀ j, j ≠ i → value j ≠ value i
  apart : mask = 7 ↔ ∀ i j, i ≠ j → value i ≠ value j

private theorem forall_three {P : Fin 3 → Prop} : (∀ i, P i) ↔ P 0 ∧ P 1 ∧ P 2 := by
  simp [Fin.forall_fin_succ]

theorem isResetMask_of_pairs
    (agree : mask = 0 ↔ value 0 = value 1 ∧ value 1 = value 2)
    (first : mask = 1 ↔ value 1 = value 2 ∧ value 0 ≠ value 1)
    (second : mask = 2 ↔ value 0 = value 2 ∧ value 0 ≠ value 1)
    (third : mask = 4 ↔ value 0 = value 1 ∧ value 1 ≠ value 2)
    (apart : mask = 7 ↔ value 0 ≠ value 1 ∧ value 0 ≠ value 2 ∧ value 1 ≠ value 2) :
    IsResetMask value mask where
  agree := by
    rw [agree]
    simp only [forall_three]
    grind
  odd i := by
    simp only [forall_three]
    match i with
    | 0 =>
      show mask = 1 ↔ _
      grind
    | 1 =>
      show mask = 2 ↔ _
      grind
    | 2 =>
      show mask = 4 ↔ _
      grind
  apart := by
    rw [apart]
    simp only [forall_three]
    grind

theorem compareValues_isResetMask [DecidableEq α] (value : Fin 3 → α) :
    IsResetMask value (Voter.compareValues (value 0) (value 1) (value 2)) := by
  unfold Voter.compareValues
  by_cases fes : value 0 = value 1
  · by_cases set : value 1 = value 2
    · apply isResetMask_of_pairs <;> simp [fes, set]
    · apply isResetMask_of_pairs <;> simp [fes, set]
  · by_cases fet : value 0 = value 2
    · have flipped : value 2 ≠ value 1 := fun eq => fes (fet.trans eq)
      apply isResetMask_of_pairs <;> simp [fet, flipped, flipped.symm]
    · by_cases set : value 1 = value 2
      · apply isResetMask_of_pairs <;> simp [set, fet]
      · apply isResetMask_of_pairs <;> simp [fes, set, fet]

theorem IsResetMask.eq_iff (verdict : IsResetMask value mask) {i j k : Fin 3} (hij : i ≠ j)
    (hki : k ≠ i) (hkj : k ≠ j) : value i = value j ↔ mask = 0 ∨ mask = 1#32 <<< k.val := by
  rw [verdict.agree, verdict.odd]
  have others : ∀ l : Fin 3, l ≠ k → l = i ∨ l = j := by
    intro l ne
    omega
  constructor
  · intro same
    by_cases third : value k = value i
    · left
      have all : ∀ l : Fin 3, value l = value i := by
        intro l
        by_cases own : l = k
        · rw [own, third]
        · rcases others l own with rfl | rfl
          · rfl
          · exact same.symm
      intro l m
      rw [all l, all m]
    · right
      have pair : ∀ l : Fin 3, l ≠ k → value l = value i := by
        intro l ne
        rcases others l ne with rfl | rfl
        · rfl
        · exact same.symm
      refine ⟨fun l m hl hm => by rw [pair l hl, pair m hm], fun l hl eq => third ?_⟩
      rw [← eq, pair l hl]
  · rintro (all | ⟨pair, -⟩)
    · exact all i j
    · exact pair i j hki.symm hkj.symm

theorem IsResetMask.congr (same : ∀ i j, value i = value j ↔ other i = other j)
    (verdict : IsResetMask value mask) : IsResetMask other mask where
  agree := by
    rw [verdict.agree]
    simp only [same]
  odd i := by
    rw [verdict.odd]
    simp only [same, ne_eq]
  apart := by
    rw [verdict.apart]
    simp only [same, ne_eq]

private theorem third (i j : Fin 3) : ∃ k, k ≠ i ∧ k ≠ j := by
  revert i j
  decide

theorem IsResetMask.same_pattern (verdict : IsResetMask value mask)
    (verdict' : IsResetMask other mask) (i j : Fin 3) : value i = value j ↔ other i = other j := by
  by_cases same : i = j
  · rw [same]
    exact ⟨fun _ => rfl, fun _ => rfl⟩
  · obtain ⟨k, hki, hkj⟩ := third i j
    rw [verdict.eq_iff same hki hkj, verdict'.eq_iff same hki hkj]

theorem IsResetMask.unique (verdict : IsResetMask value mask) (verdict' : IsResetMask value mask') :
    mask = mask' := by
  by_cases all : ∀ i j, value i = value j
  · rw [verdict.agree.mpr all, verdict'.agree.mpr all]
  · by_cases apart : ∀ i j, i ≠ j → value i ≠ value j
    · rw [verdict.apart.mpr apart, verdict'.apart.mpr apart]
    · push Not at apart
      obtain ⟨i, j, hij, same⟩ := apart
      obtain ⟨k, hki, hkj⟩ := third i j
      have odd := ((verdict.eq_iff hij hki hkj).mp same).resolve_left fun zero =>
        all (verdict.agree.mp zero)
      have odd' := ((verdict'.eq_iff hij hki hkj).mp same).resolve_left fun zero =>
        all (verdict'.agree.mp zero)
      rw [odd, odd']

end Verdict

section History

/-- What happens to a voter. -/
inductive VoterEvent where
  | commit (value : BitVec 32 × BitVec 32) (system : BitVec 32)
  | vote
  | dorst
deriving DecidableEq

def Voter.step (v : Voter) : VoterEvent → Voter
  | .commit value system => v.incommingCommit value system
  | .vote => v.watchdog.2.2
  | .dorst => v.dorst

/-- The voter after a history. -/
def Voter.after (gIrq : BitVec 32) (events : List VoterEvent) : Voter :=
  events.foldl Voter.step ⟨gIrq, OrderedMap.empty⟩

/-- The mask of a vote after a history. -/
def voteMask (gIrq : BitVec 32) (events : List VoterEvent) : BitVec 32 :=
  (Voter.after gIrq events).watchdog.1

/-- The commits of a system since the last reset, oldest first. -/
def commits (system : BitVec 32) (events : List VoterEvent) : List (BitVec 32 × BitVec 32) :=
  events.foldl (fun made event =>
    match event with
    | .commit value sender => if sender = system then made ++ [value] else made
    | .vote => made
    | .dorst => []) []

/-- The value of the latest commit under a key. -/
def latest (made : List (BitVec 32 × BitVec 32)) (key : BitVec 32) : Option (BitVec 32) :=
  (made.reverse.find? fun value => value.1 = key).map Prod.snd

/-- A vote took place since the last reset. -/
def voted (events : List VoterEvent) : Bool :=
  events.foldl (fun past event =>
    match event with
    | .commit _ _ => past
    | .vote => true
    | .dorst => false) false

/-- What a vote makes of the values of a system: key zero has one. -/
def zeroed (value : BitVec 32 → Option (BitVec 32)) : BitVec 32 → Option (BitVec 32) :=
  Function.update value 0 (some ((value 0).getD 0))

/-- Two systems that agree but for a zero that only the second committed under key zero. -/
def OnlyZeroApart (value other : BitVec 32 → Option (BitVec 32)) : Prop :=
  value 0 = none ∧ other 0 = some 0 ∧ ∀ k ≠ 0, value k = other k

/-- The number of a system. -/
def systemNo (i : Fin 3) : BitVec 32 := BitVec.ofNat 32 i.val

variable {gIrq : BitVec 32} {events : List VoterEvent}

@[simp] theorem latest_append (made : List (BitVec 32 × BitVec 32)) (value : BitVec 32 × BitVec 32)
    (key : BitVec 32) :
    latest (made ++ [value]) key = if key = value.1 then some value.2 else latest made key := by
  rw [latest, List.reverse_append, List.reverse_singleton, List.singleton_append, List.find?_cons]
  by_cases same : value.1 = key
  · simp [same]
  · rw [if_neg (Ne.symm same)]
    simp [same, latest]

theorem Voter.valuesOf_printZero (v : Voter) (s t : BitVec 32) :
    (v.printZero t).valuesOf s = if s = t then (v.valuesOf t).insert 0 0 else v.valuesOf s := by
  rw [valuesOf, printZero, OrderedMap.find?_set]
  by_cases same : s = t
  · rw [if_pos same, if_pos same]
    rfl
  · rw [if_neg same, if_neg same]
    rfl

theorem Voter.valuesOf_incommingCommit (v : Voter) (value : BitVec 32 × BitVec 32)
    (s t : BitVec 32) : (v.incommingCommit value t).valuesOf s =
      if s = t then (v.valuesOf t).set value.1 value.2 else v.valuesOf s := by
  rw [valuesOf, incommingCommit, OrderedMap.find?_set]
  by_cases same : s = t
  · rw [if_pos same, if_pos same]
    rfl
  · rw [if_neg same, if_neg same]
    rfl

theorem Voter.valuesOf_watchdog (v : Voter) (i : Fin 3) :
    v.watchdog.2.2.valuesOf (systemNo i) = (v.valuesOf (systemNo i)).insert 0 0 := by
  change ((((v.printZero 0).printZero 1).printZero 2).valuesOf (systemNo i)) = _
  have three : i = 0 ∨ i = 1 ∨ i = 2 := by omega
  rcases three with rfl | rfl | rfl
  · simp [valuesOf_printZero, systemNo]
  · simp [valuesOf_printZero, systemNo]
  · simp [valuesOf_printZero, systemNo]

theorem zeroed_apply (value : BitVec 32 → Option (BitVec 32)) (k : BitVec 32) :
    zeroed value k = if k = 0 then some ((value 0).getD 0) else value k := by
  rw [zeroed, Function.update_apply]

theorem zeroed_latest_append (made : List (BitVec 32 × BitVec 32)) (value : BitVec 32 × BitVec 32)
    (k : BitVec 32) : zeroed (latest (made ++ [value])) k =
      if k = value.1 then some value.2 else zeroed (latest made) k := by
  rw [zeroed_apply, zeroed_apply, latest_append, latest_append]
  by_cases zero : k = 0
  · rw [if_pos zero, if_pos zero, zero]
    split_ifs <;> rfl
  · rw [if_neg zero, if_neg zero]

theorem commits_commit (value : BitVec 32 × BitVec 32) (sender system : BitVec 32) :
    commits system (events ++ [.commit value sender]) =
      if sender = system then commits system events ++ [value] else commits system events := by
  rw [commits, List.foldl_append]
  rfl

/-- The values of a system are its latest commits, and a zero under key zero once a vote saw none. -/
theorem find?_after (gIrq : BitVec 32) (events : List VoterEvent) (i : Fin 3) (k : BitVec 32) :
    ((Voter.after gIrq events).valuesOf (systemNo i)).find? k =
      if voted events then zeroed (latest (commits (systemNo i) events)) k
      else latest (commits (systemNo i) events) k := by
  induction events using List.reverseRecOn generalizing k with
  | nil => rfl
  | append_singleton events event ih =>
    have after : Voter.after gIrq (events ++ [event]) = (Voter.after gIrq events).step event := by
      rw [Voter.after, List.foldl_append]
      rfl
    rw [after]
    cases event with
    | commit value sender =>
      have past : voted (events ++ [.commit value sender]) = voted events := by
        rw [voted, List.foldl_append]
        rfl
      rw [past, commits_commit]
      change (((Voter.after gIrq events).incommingCommit value sender).valuesOf _).find? k = _
      rw [Voter.valuesOf_incommingCommit]
      by_cases own : sender = systemNo i
      · rw [if_pos own.symm, if_pos own, own, OrderedMap.find?_set, ih]
        rw [latest_append, zeroed_latest_append]
        split_ifs <;> rfl
      · rw [if_neg (Ne.symm own), if_neg own, ih]
    | vote =>
      have past : voted (events ++ [.vote]) = true := by
        rw [voted, List.foldl_append]
        rfl
      have same : commits (systemNo i) (events ++ [.vote]) = commits (systemNo i) events := by
        rw [commits, List.foldl_append]
        rfl
      rw [past, same, if_pos rfl]
      change ((Voter.after gIrq events).watchdog.2.2.valuesOf (systemNo i)).find? k = _
      rw [Voter.valuesOf_watchdog, OrderedMap.find?_insert, ih, ih, zeroed_apply, zeroed_apply]
      split_ifs <;> rfl
    | dorst =>
      have past : voted (events ++ [.dorst]) = false := by
        rw [voted, List.foldl_append]
        rfl
      have same : commits (systemNo i) (events ++ [.dorst]) = [] := by
        rw [commits, List.foldl_append]
        rfl
      rw [past, same]
      rfl

/-- The latest commits of the three systems. -/
def committed (events : List VoterEvent) (i : Fin 3) : BitVec 32 → Option (BitVec 32) :=
  latest (commits (systemNo i) events)

/-- The mask compares the latest commits, completed by a zero when a vote came before. -/
theorem voteMask_isResetMask (gIrq : BitVec 32) (events : List VoterEvent) :
    IsResetMask (fun i => if voted events then zeroed (committed events i) else committed events i)
      (voteMask gIrq events) := by
  have compared : IsResetMask (fun i => (Voter.after gIrq events).valuesOf (systemNo i))
      (voteMask gIrq events) := compareValues_isResetMask _
  refine compared.congr ?_
  intro i j
  constructor
  · intro same
    funext k
    have value := congrArg (OrderedMap.find? · k) same
    rw [find?_after, find?_after] at value
    by_cases past : voted events
    · rwa [if_pos past, if_pos past] at value ⊢
    · rwa [if_neg past, if_neg past] at value ⊢
  · intro same
    refine OrderedMap.ext_find? fun k => ?_
    have value := congrFun same k
    rw [find?_after, find?_after]
    by_cases past : voted events
    · rwa [if_pos past, if_pos past] at value ⊢
    · rwa [if_neg past, if_neg past] at value ⊢

theorem zeroed_eq_iff {value other : BitVec 32 → Option (BitVec 32)} :
    zeroed value = zeroed other ↔
      value = other ∨ OnlyZeroApart value other ∨ OnlyZeroApart other value := by
  constructor
  · intro same
    have beyond : ∀ k ≠ 0, value k = other k := by
      intro k nonzero
      have at_k := congrFun same k
      rwa [zeroed_apply, zeroed_apply, if_neg nonzero, if_neg nonzero] at at_k
    have at_zero := congrFun same 0
    rw [zeroed_apply, zeroed_apply, if_pos rfl, if_pos rfl, Option.some.injEq] at at_zero
    by_cases equal : value 0 = other 0
    · left
      funext k
      by_cases zero : k = 0
      · rw [zero, equal]
      · exact beyond k zero
    · right
      cases first : value 0 with
      | none =>
        cases second : other 0 with
        | none => exact absurd (first.trans second.symm) equal
        | some v =>
          rw [first, second] at at_zero
          exact .inl ⟨first, second.trans (congrArg some at_zero.symm), beyond⟩
      | some u =>
        cases second : other 0 with
        | none =>
          rw [first, second] at at_zero
          exact .inr ⟨second, first.trans (congrArg some at_zero),
            fun k nonzero => (beyond k nonzero).symm⟩
        | some v =>
          rw [first, second] at at_zero
          exact absurd (by rw [first, second]; exact congrArg some at_zero) equal
  · rintro (rfl | ⟨missing, zero, beyond⟩ | ⟨missing, zero, beyond⟩)
    · rfl
    · funext k
      rw [zeroed_apply, zeroed_apply, missing, zero]
      split_ifs with nonzero
      · rfl
      · exact beyond k nonzero
    · funext k
      rw [zeroed_apply, zeroed_apply, missing, zero]
      split_ifs with nonzero
      · rfl
      · exact (beyond k nonzero).symm

theorem voteMask_of_apart (gIrq : BitVec 32)
    (apart : ∀ i j, ¬ OnlyZeroApart (committed events i) (committed events j)) :
    IsResetMask (committed events) (voteMask gIrq events) := by
  refine (voteMask_isResetMask gIrq events).congr fun i j => ?_
  by_cases past : voted events
  · rw [if_pos past, if_pos past, zeroed_eq_iff]
    exact or_iff_left fun gap => gap.elim (apart i j) (apart j i)
  · rw [if_neg past, if_neg past]

/-- The triple redundancy vote: the mask tells which systems agree, and no other history with the
same commits of each system gives another one, exactly when no two systems are only a zero apart. -/
theorem reset_mask_iff (gIrq : BitVec 32) (events : List VoterEvent) :
    (IsResetMask (committed events) (voteMask gIrq events) ∧
        ∀ other, (∀ i : Fin 3, commits (systemNo i) other = commits (systemNo i) events) →
          voteMask gIrq other = voteMask gIrq events) ↔
      ∀ i j, ¬ OnlyZeroApart (committed events i) (committed events j) := by
  constructor
  · rintro ⟨verdict, alone⟩ i j gap
    have kept (i : Fin 3) : commits (systemNo i) (events ++ [.vote]) =
        commits (systemNo i) events := by
      rw [commits, List.foldl_append]
      rfl
    have past : voted (events ++ [.vote]) = true := by
      rw [voted, List.foldl_append]
      rfl
    have again := voteMask_isResetMask gIrq (events ++ [.vote])
    simp only [past, if_true] at again
    rw [alone _ kept] at again
    have equal := (again.same_pattern verdict i j).mp (by
      rw [committed, committed, kept, kept]
      exact zeroed_eq_iff.mpr (.inr (.inl gap)))
    obtain ⟨missing, zero, -⟩ := gap
    rw [equal, zero] at missing
    cases missing
  · intro apart
    refine ⟨voteMask_of_apart gIrq apart, fun other same => ?_⟩
    have equal : committed other = committed events := by
      funext i
      rw [committed, committed, same]
    have verdict : IsResetMask (committed other) (voteMask gIrq other) := by
      apply voteMask_of_apart
      rw [equal]
      exact apart
    rw [equal] at verdict
    exact verdict.unique (voteMask_of_apart gIrq apart)

/-- After system 0 committed a zero under key zero, the first of two votes finds it the odd one out,
and the second finds all systems equal. -/
theorem second_vote_differs :
    (∀ i : Fin 3, commits (systemNo i) [.commit (0, 0) 0, .vote] =
        commits (systemNo i) [.commit (0, 0) 0]) ∧
      voteMask 1 [.commit (0, 0) 0] = 1#32 <<< 0 ∧ voteMask 1 [.commit (0, 0) 0, .vote] = 0 := by
  decide +kernel

end History

end Socrocket.Quadcopter
