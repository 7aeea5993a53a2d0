/- Socrocket/Base/UnorderedMap
   digest: Maps that keep their entries in an iteration order of their own. -/

import Mathlib.Data.List.Basic
import Mathlib.Data.List.Nodup
import Mathlib.Data.List.Perm.Basic

set_option autoImplicit false
set_option relaxedAutoImplicit false

namespace Socrocket.Base.UnorderedMap

variable {κ α : Type}

/-- The entries of a map in iteration order. -/
abbrev Entries (κ α : Type) := List (κ × α)

/-- Where an implementation puts a new entry. It may reorder the others. -/
structure Arrangement (κ α : Type) where
  place : Entries κ α → κ × α → Entries κ α
  perm : ∀ l e, (place l e).Perm (e :: l)

def keys (l : Entries κ α) : List κ := l.map Prod.fst

variable [DecidableEq κ]

/-- The value of a key. -/
def find (l : Entries κ α) (k : κ) : Option α := (l.find? (·.1 = k)).map Prod.snd

variable (o : Arrangement κ α)

/-- Insert an entry unless its key has one. -/
def insert (l : Entries κ α) (k : κ) (a : α) : Entries κ α :=
  if k ∈ keys l then l else o.place l (k, a)

/-- Give a key a value, where its entry stands or in a new one. -/
def assign (l : Entries κ α) (k : κ) (a : α) : Entries κ α :=
  if k ∈ keys l then l.map fun e => if e.1 = k then (k, a) else e else o.place l (k, a)

/-- The entries from one key up to another, in iteration order. -/
def spanned (l : Entries κ α) (first last : κ) : Entries κ α :=
  (l.dropWhile (·.1 ≠ first)).takeWhile (·.1 ≠ last)

/-- Erase the entries from one iterator up to another. `none` is a range that does not end. -/
def eraseRange (l : Entries κ α) (first last : κ) : Option (Entries κ α) :=
  let rest := (l.dropWhile (·.1 ≠ first)).dropWhile (·.1 ≠ last)
  if rest.isEmpty then none else some (l.takeWhile (·.1 ≠ first) ++ rest)

/-- No key has two entries. -/
def UniqueKeys (l : Entries κ α) : Prop := (keys l).Nodup

variable {o} {l : Entries κ α} {k first last : κ} {a : α} {e : κ × α}

omit [DecidableEq κ] in
theorem mem_keys : k ∈ keys l ↔ ∃ a, (k, a) ∈ l := by
  rw [keys, List.mem_map]
  constructor
  · rintro ⟨⟨k', a⟩, member, rfl⟩
    exact ⟨a, member⟩
  · rintro ⟨a, member⟩
    exact ⟨_, member, rfl⟩

omit [DecidableEq κ] in
theorem UniqueKeys.single (unique : UniqueKeys l) {b : α} (one : (k, a) ∈ l) (other : (k, b) ∈ l) :
    a = b := by
  have same := List.inj_on_of_nodup_map unique one other rfl
  exact (Prod.mk.inj same).2

theorem find_eq_some (unique : UniqueKeys l) : find l k = some a ↔ (k, a) ∈ l := by
  rw [find, Option.map_eq_some_iff]
  constructor
  · rintro ⟨⟨k', b⟩, found, rfl⟩
    have own : k' = k := by simpa using List.find?_some found
    exact own ▸ List.mem_of_find?_eq_some found
  · intro member
    cases found : l.find? (·.1 = k) with
    | none => exact absurd (decide_eq_true rfl) (List.find?_eq_none.mp found _ member)
    | some e =>
      obtain ⟨k', b⟩ := e
      have own : k' = k := by simpa using List.find?_some found
      subst own
      exact ⟨_, rfl, unique.single (List.mem_of_find?_eq_some found) member⟩

theorem find_eq_none : find l k = none ↔ k ∉ keys l := by
  rw [find, Option.map_eq_none_iff, List.find?_eq_none, mem_keys]
  constructor
  · rintro absent ⟨a, member⟩
    exact absent _ member (decide_eq_true rfl)
  · intro absent e member same
    have own : e.1 = k := of_decide_eq_true same
    exact absent ⟨e.2, own ▸ member⟩

omit [DecidableEq κ] in
private theorem unique_place (unique : UniqueKeys l) (fresh : k ∉ keys l) :
    UniqueKeys (o.place l (k, a)) := by
  have perm := (o.perm l (k, a)).map Prod.fst
  exact perm.nodup_iff.mpr (List.nodup_cons.mpr ⟨fresh, unique⟩)

theorem unique_insert (unique : UniqueKeys l) : UniqueKeys (insert o l k a) := by
  rw [insert]
  split
  · exact unique
  · rename_i fresh
    exact unique_place unique fresh

theorem unique_assign (unique : UniqueKeys l) : UniqueKeys (assign o l k a) := by
  rw [assign]
  split
  · have same : keys (l.map fun e => if e.1 = k then (k, a) else e) = keys l := by
      rw [keys, List.map_map, keys]
      refine List.map_congr_left fun e _ => ?_
      dsimp only [Function.comp]
      split
      · rename_i own
        exact own.symm
      · rfl
    rw [UniqueKeys, same]
    exact unique
  · rename_i fresh
    exact unique_place unique fresh

theorem mem_insert : e ∈ insert o l k a ↔ e ∈ l ∨ k ∉ keys l ∧ e = (k, a) := by
  rw [insert]
  split
  · rename_i known
    exact ⟨.inl, fun either => either.elim id fun new => absurd known new.1⟩
  · rename_i fresh
    rw [(o.perm l (k, a)).mem_iff, List.mem_cons]
    exact ⟨fun either => either.elim (fun new => .inr ⟨fresh, new⟩) .inl,
      fun either => either.elim .inr fun new => .inl new.2⟩

theorem mem_assign : e ∈ assign o l k a ↔ e = (k, a) ∨ e ∈ l ∧ e.1 ≠ k := by
  rw [assign]
  split
  · rename_i known
    rw [List.mem_map]
    constructor
    · rintro ⟨e', member, rfl⟩
      split
      · exact .inl rfl
      · rename_i other
        exact .inr ⟨member, other⟩
    · rintro (rfl | ⟨member, other⟩)
      · obtain ⟨b, old⟩ := mem_keys.mp known
        exact ⟨_, old, if_pos rfl⟩
      · exact ⟨e, member, if_neg other⟩
  · rename_i fresh
    rw [(o.perm l (k, a)).mem_iff, List.mem_cons]
    constructor
    · rintro (new | member)
      · exact .inl new
      · exact .inr ⟨member, fun own => fresh (mem_keys.mpr ⟨e.2, own ▸ member⟩)⟩
    · exact fun either => either.imp id And.left

/-- Erasing a range keeps exactly the entries outside it. -/
theorem eraseRange_spec {l' : Entries κ α} (unique : UniqueKeys l)
    (erased : eraseRange l first last = some l') :
    UniqueKeys l' ∧ ∀ e, e ∈ l' ↔ e ∈ l ∧ e ∉ spanned l first last := by
  have split : l = l.takeWhile (·.1 ≠ first) ++ (spanned l first last ++
      (l.dropWhile (·.1 ≠ first)).dropWhile (·.1 ≠ last)) := by
    rw [spanned, List.takeWhile_append_dropWhile, List.takeWhile_append_dropWhile]
  rw [eraseRange, Option.ite_none_left_eq_some] at erased
  obtain rfl := Option.some.inj erased.2
  have nodup : l.Nodup := List.Nodup.of_map _ unique
  generalize l.takeWhile (·.1 ≠ first) = before at split ⊢
  generalize (l.dropWhile (·.1 ≠ first)).dropWhile (·.1 ≠ last) = after at split ⊢
  generalize spanned l first last = middle at split ⊢
  subst split
  constructor
  · have kept : (before ++ after).Sublist (before ++ (middle ++ after)) :=
      List.Sublist.append_left (List.sublist_append_right ..) _
    exact List.Nodup.sublist (kept.map Prod.fst) unique
  · intro e
    rw [List.nodup_append, List.nodup_append] at nodup
    obtain ⟨-, ⟨-, -, apart⟩, outside⟩ := nodup
    rw [List.mem_append, List.mem_append, List.mem_append]
    constructor
    · rintro (here | here)
      · exact ⟨.inl here, fun both => outside e here e (List.mem_append_left _ both) rfl⟩
      · exact ⟨.inr (.inr here), fun both => apart e both e here rfl⟩
    · rintro ⟨here | here | here, absent⟩
      · exact .inl here
      · exact absurd here absent
      · exact .inr here

end Socrocket.Base.UnorderedMap
