/- Socrocket/Base/OrderedMap
   digest: Ordered maps with insertion that keeps old keys and the search for the nearest lower key. -/

import Mathlib.Data.List.Pairwise
import Mathlib.Data.BitVec

set_option autoImplicit false
set_option relaxedAutoImplicit false

namespace Socrocket.Base

/-- The comparison of a map: a decidable strict total order of its keys. -/
structure Compare (κ : Type) where
  lt : κ → κ → Prop
  decidable : DecidableRel lt
  irrefl : ∀ a, ¬ lt a a
  trans : ∀ {a b c}, lt a b → lt b c → lt a c
  total : ∀ {a b}, ¬ lt a b → ¬ lt b a → a = b

namespace Compare

variable {κ : Type} (c : Compare κ)

instance : DecidableRel c.lt := c.decidable

theorem asymm {a b : κ} (h : c.lt a b) : ¬ c.lt b a := fun h' => c.irrefl a (c.trans h h')

/-- Machine words by their unsigned value. -/
def word (w : ℕ) : Compare (BitVec w) where
  lt a b := a < b
  decidable a b := inferInstanceAs (Decidable (a < b))
  irrefl a := BitVec.lt_irrefl a
  trans := BitVec.lt_trans
  total below above := BitVec.le_antisymm (BitVec.not_lt.mp above) (BitVec.not_lt.mp below)

end Compare

/-- Entries in the order of their keys, one for each key. -/
structure OrderedMap (κ α : Type) (c : Compare κ) where
  entries : List (κ × α)
  sorted : entries.Pairwise fun a b => c.lt a.1 b.1

namespace OrderedMap

variable {κ α : Type} {c : Compare κ}

instance [DecidableEq κ] [DecidableEq α] : DecidableEq (OrderedMap κ α c) := fun m n =>
  decidable_of_iff (m.entries = n.entries)
    ⟨fun same => by cases m; cases n; cases same; rfl, fun same => by rw [same]⟩

/-- The map without entries. -/
def empty : OrderedMap κ α c := ⟨[], List.Pairwise.nil⟩

/-- Put an entry in its place, unless its key is there already. -/
def insertEntry (c : Compare κ) (k : κ) (v : α) : List (κ × α) → List (κ × α)
  | [] => [(k, v)]
  | e :: es =>
    if c.lt k e.1 then (k, v) :: e :: es
    else if c.lt e.1 k then e :: insertEntry c k v es
    else e :: es

theorem mem_of_mem_insertEntry {k : κ} {v : α} {x : κ × α} {es : List (κ × α)}
    (member : x ∈ insertEntry c k v es) : x = (k, v) ∨ x ∈ es := by
  induction es with
  | nil => exact .inl (List.mem_singleton.mp member)
  | cons e es ih =>
    rw [insertEntry] at member
    split_ifs at member
    · exact List.mem_cons.mp member
    · rcases List.mem_cons.mp member with rfl | tail
      · exact .inr (List.mem_cons_self ..)
      · exact (ih tail).imp_right (List.mem_cons_of_mem _)
    · exact .inr member

theorem sorted_insertEntry (k : κ) (v : α) {es : List (κ × α)}
    (sorted : es.Pairwise fun a b => c.lt a.1 b.1) :
    (insertEntry c k v es).Pairwise fun a b => c.lt a.1 b.1 := by
  induction es with
  | nil => exact List.pairwise_singleton _ _
  | cons e es ih =>
    obtain ⟨first, rest⟩ := List.pairwise_cons.mp sorted
    rw [insertEntry]
    split_ifs with below above
    · refine List.pairwise_cons.mpr ⟨fun x member => ?_, sorted⟩
      rcases List.mem_cons.mp member with rfl | tail
      · exact below
      · exact c.trans below (first x tail)
    · refine List.pairwise_cons.mpr ⟨fun x member => ?_, ih rest⟩
      rcases mem_of_mem_insertEntry member with rfl | tail
      · exact above
      · exact first x tail
    · exact sorted

/-- Insert an entry. A key that is there keeps its entry. -/
def insert (m : OrderedMap κ α c) (k : κ) (v : α) : OrderedMap κ α c :=
  ⟨insertEntry c k v m.entries, sorted_insertEntry k v m.sorted⟩

/-- Remove the entry of a key, if there is one. -/
def erase [DecidableEq κ] (m : OrderedMap κ α c) (k : κ) : OrderedMap κ α c :=
  ⟨m.entries.filter fun e => e.1 ≠ k, m.sorted.filter _⟩

/-- Set the entry of a key. -/
def set [DecidableEq κ] (m : OrderedMap κ α c) (k : κ) (v : α) : OrderedMap κ α c :=
  insert (erase m k) k v

/-- Change the values, each with its key at hand. -/
def mapValues (m : OrderedMap κ α c) (f : κ → α → α) : OrderedMap κ α c :=
  ⟨m.entries.map fun e => (e.1, f e.1 e.2), List.pairwise_map.mpr m.sorted⟩

/-- The entry before the first key above `a`, if there is one. -/
def floor (m : OrderedMap κ α c) (a : κ) : Option (κ × α) :=
  (m.entries.takeWhile fun e => ¬ c.lt a e.1).getLast?

theorem mem_insert {m : OrderedMap κ α c} {k : κ} {v : α} (fresh : ∀ e ∈ m.entries, e.1 ≠ k)
    (x : κ × α) : x ∈ (insert m k v).entries ↔ x = (k, v) ∨ x ∈ m.entries := by
  change x ∈ insertEntry c k v m.entries ↔ _
  generalize m.entries = entries at fresh
  induction entries with
  | nil => simp [insertEntry]
  | cons e es ih =>
    obtain ⟨ne, rest⟩ := List.forall_mem_cons.mp fresh
    rw [insertEntry]
    split_ifs with below above
    · exact List.mem_cons
    · rw [List.mem_cons, ih rest, List.mem_cons]
      tauto
    · exact absurd (c.total above below) ne

private theorem takeWhile_sorted {es : List (κ × α)} {a : κ}
    (sorted : es.Pairwise fun a b => c.lt a.1 b.1) (x : κ × α) :
    x ∈ es.takeWhile (fun e => ¬ c.lt a e.1) ↔ x ∈ es ∧ ¬ c.lt a x.1 := by
  induction es with
  | nil => simp
  | cons e es ih =>
    obtain ⟨first, rest⟩ := List.pairwise_cons.mp sorted
    by_cases above : c.lt a e.1
    · rw [List.takeWhile_cons_of_neg (by simpa using above)]
      constructor
      · intro member
        exact absurd member List.not_mem_nil
      · rintro ⟨member, le⟩
        rcases List.mem_cons.mp member with rfl | tail
        · exact absurd above le
        · exact absurd (c.trans above (first x tail)) le
    · rw [List.takeWhile_cons_of_pos (by simpa using above), List.mem_cons, ih rest, List.mem_cons]
      constructor
      · rintro (rfl | ⟨tail, le⟩)
        · exact ⟨.inl rfl, above⟩
        · exact ⟨.inr tail, le⟩
      · rintro ⟨rfl | tail, le⟩
        · exact .inl rfl
        · exact .inr ⟨tail, le⟩

theorem floor_eq_none {m : OrderedMap κ α c} {a : κ} :
    floor m a = none ↔ ∀ e ∈ m.entries, c.lt a e.1 := by
  rw [floor, List.getLast?_eq_none_iff, List.eq_nil_iff_forall_not_mem]
  constructor
  · intro none e member
    by_contra le
    exact none e ((takeWhile_sorted m.sorted e).mpr ⟨member, le⟩)
  · intro above e member
    obtain ⟨mem, le⟩ := (takeWhile_sorted m.sorted e).mp member
    exact le (above e mem)

/-- The nearest lower key is an entry not above `a`, and no other such entry is above it. -/
theorem floor_eq_some {m : OrderedMap κ α c} {a : κ} {e : κ × α} (found : floor m a = some e) :
    e ∈ m.entries ∧ ¬ c.lt a e.1 ∧ ∀ x ∈ m.entries, ¬ c.lt a x.1 → ¬ c.lt e.1 x.1 := by
  rw [floor, List.getLast?_eq_some_iff] at found
  obtain ⟨init, split⟩ := found
  have member : e ∈ m.entries.takeWhile fun e => ¬ c.lt a e.1 := by
    rw [split]
    exact List.mem_append_right _ (List.mem_singleton_self e)
  obtain ⟨mem, le⟩ := (takeWhile_sorted m.sorted e).mp member
  refine ⟨mem, le, fun x hx below => ?_⟩
  have early := (takeWhile_sorted m.sorted x).mpr ⟨hx, below⟩
  have ordered := List.Pairwise.sublist (List.takeWhile_sublist fun e => ¬ c.lt a e.1) m.sorted
  rw [split] at early ordered
  rcases List.mem_append.mp early with before | last
  · have precedes := (List.pairwise_append.mp ordered).2.2 x before e (List.mem_singleton_self e)
    exact c.asymm precedes
  · rw [List.mem_singleton.mp last]
    exact c.irrefl e.1

theorem value_unique {m : OrderedMap κ α c} {a b : κ × α} (first : a ∈ m.entries)
    (second : b ∈ m.entries)
    (same : a.1 = b.1) : a = b := by
  have symm : Std.Symm fun x y : κ × α => x.1 = y.1 → x = y := ⟨fun x y h eq => (h eq.symm).symm⟩
  have apart : m.entries.Pairwise fun x y => x.1 = y.1 → x = y := by
    refine m.sorted.imp ?_
    intro x y below eq
    rw [eq] at below
    exact absurd below (c.irrefl _)
  have unique := apart.forall_of_forall fun x _ _ => rfl
  exact unique first second same

theorem nodup_entries (m : OrderedMap κ α c) : m.entries.Nodup := by
  refine m.sorted.imp fun below same => ?_
  rw [same] at below
  exact c.irrefl _ below

private theorem insertEntry_of_mem {es : List (κ × α)} {k : κ} {u v : α}
    (sorted : es.Pairwise fun a b => c.lt a.1 b.1) (member : (k, u) ∈ es) :
    insertEntry c k v es = es := by
  induction es with
  | nil => cases member
  | cons e es ih =>
    obtain ⟨first, rest⟩ := List.pairwise_cons.mp sorted
    rw [insertEntry]
    rcases List.mem_cons.mp member with rfl | tail
    · rw [if_neg (c.irrefl k), if_neg (c.irrefl k)]
    · have below : c.lt e.1 k := first _ tail
      rw [if_neg (c.asymm below), if_pos below, ih rest tail]

theorem perm_insert {m : OrderedMap κ α c} {k : κ} {v : α} (fresh : ∀ e ∈ m.entries, e.1 ≠ k) :
    (m.insert k v).entries.Perm ((k, v) :: m.entries) := by
  have new : (k, v) ∉ m.entries := fun member => fresh _ member rfl
  refine (List.perm_ext_iff_of_nodup (nodup_entries _)
    (List.nodup_cons.mpr ⟨new, m.nodup_entries⟩)).mpr fun x => ?_
  rw [mem_insert fresh, List.mem_cons]

/-- The map of a list of entries, each put in unless its key is there already. -/
def ofList (c : Compare κ) (l : List (κ × α)) : OrderedMap κ α c :=
  l.foldl (fun m e => m.insert e.1 e.2) empty

theorem mem_of_mem_ofList {l : List (κ × α)} {e : κ × α} (member : e ∈ (ofList c l).entries) :
    e ∈ l := by
  have fold (l : List (κ × α)) (m : OrderedMap κ α c)
      (member : e ∈ (l.foldl (fun m e => m.insert e.1 e.2) m).entries) : e ∈ m.entries ∨ e ∈ l := by
    induction l generalizing m with
    | nil => exact .inl member
    | cons x l ih =>
      rcases ih (m.insert x.1 x.2) member with old | tail
      · rcases mem_of_mem_insertEntry old with rfl | held
        · exact .inr (List.mem_cons_self ..)
        · exact .inl held
      · exact .inr (List.mem_cons_of_mem _ tail)
  exact (fold l empty member).resolve_left List.not_mem_nil

theorem nodup_keys (m : OrderedMap κ α c) : (m.entries.map Prod.fst).Nodup := by
  refine List.pairwise_map.mpr (m.sorted.imp fun below same => ?_)
  rw [same] at below
  exact c.irrefl _ below

/-- No entry of a list is dropped exactly when no key repeats. -/
theorem perm_ofList_iff (l : List (κ × α)) :
    (ofList c l).entries.Perm l ↔ (l.map Prod.fst).Nodup := by
  have fold (m : OrderedMap κ α c) (fresh : ((m.entries ++ l).map Prod.fst).Nodup) :
      (l.foldl (fun m e => m.insert e.1 e.2) m).entries.Perm (m.entries ++ l) := by
    induction l generalizing m with
    | nil => rw [List.append_nil]; exact List.Perm.refl _
    | cons e l ih =>
      have middle : (m.entries ++ e :: l).Perm (e :: m.entries ++ l) := List.perm_middle
      have new : ∀ x ∈ m.entries, x.1 ≠ e.1 := by
        intro x member same
        rw [List.map_append, List.nodup_append] at fresh
        exact fresh.2.2 x.1 (List.mem_map_of_mem member) e.1
          (List.mem_map_of_mem (List.mem_cons_self ..)) same
      have grown : (m.insert e.1 e.2).entries.Perm (e :: m.entries) := perm_insert new
      have distinct : (((m.insert e.1 e.2).entries ++ l).map Prod.fst).Nodup :=
        (((grown.append_right l).trans middle.symm).map Prod.fst).nodup_iff.mpr fresh
      exact (ih _ distinct).trans ((grown.append_right l).trans middle.symm)
  constructor
  · exact fun perm => (perm.map Prod.fst).nodup_iff.mp (nodup_keys _)
  · exact fun distinct => fold empty distinct

section Lookup

variable [DecidableEq κ] {m : OrderedMap κ α c} {k j : κ} {v : α}

/-- The value of a key, if it has one. -/
def find? (m : OrderedMap κ α c) (k : κ) : Option α :=
  (m.entries.find? fun e => e.1 = k).map Prod.snd

theorem find?_eq_some : m.find? k = some v ↔ (k, v) ∈ m.entries := by
  rw [find?, Option.map_eq_some_iff]
  constructor
  · rintro ⟨e, found, rfl⟩
    have key : e.1 = k := by simpa using List.find?_some found
    rw [← key]
    exact List.mem_of_find?_eq_some found
  · intro member
    cases found : m.entries.find? fun e => e.1 = k with
    | none => simpa using List.find?_eq_none.mp found _ member
    | some e =>
      have key : e.1 = k := by simpa using List.find?_some found
      have same := value_unique (List.mem_of_find?_eq_some found) member key
      exact ⟨e, rfl, by rw [same]⟩

theorem mem_erase (x : κ × α) : x ∈ (m.erase k).entries ↔ x ∈ m.entries ∧ x.1 ≠ k := by
  rw [erase, List.mem_filter, decide_eq_true_iff]

theorem mem_set (x : κ × α) :
    x ∈ (m.set k v).entries ↔ x = (k, v) ∨ (x ∈ m.entries ∧ x.1 ≠ k) := by
  rw [set, mem_insert fun e member => ((mem_erase e).mp member).2, mem_erase]

theorem perm_erase (member : (k, v) ∈ m.entries) :
    m.entries.Perm ((k, v) :: (m.erase k).entries) := by
  have gone : (k, v) ∉ (m.erase k).entries := fun held => ((mem_erase _).mp held).2 rfl
  refine (List.perm_ext_iff_of_nodup m.nodup_entries
    (List.nodup_cons.mpr ⟨gone, (m.erase k).nodup_entries⟩)).mpr fun x => ?_
  rw [List.mem_cons, mem_erase]
  constructor
  · intro held
    by_cases key : x.1 = k
    · exact .inl (value_unique held member key)
    · exact .inr ⟨held, key⟩
  · rintro (rfl | ⟨held, -⟩)
    · exact member
    · exact held

theorem perm_set : (m.set k v).entries.Perm ((k, v) :: (m.erase k).entries) := by
  have member : (k, v) ∈ (m.set k v).entries := (mem_set _).mpr (.inl rfl)
  have rest : ((m.set k v).erase k).entries.Perm (m.erase k).entries := by
    refine (List.perm_ext_iff_of_nodup (nodup_entries _) (nodup_entries _)).mpr fun x => ?_
    rw [mem_erase, mem_erase, mem_set]
    constructor
    · rintro ⟨rfl | held, key⟩
      · exact absurd rfl key
      · exact held
    · rintro ⟨held, key⟩
      exact ⟨.inr ⟨held, key⟩, key⟩
  exact (perm_erase member).trans (rest.cons _)

theorem find?_set : (m.set k v).find? j = if j = k then some v else m.find? j := by
  ext u
  rw [find?_eq_some, mem_set]
  by_cases same : j = k
  · rw [if_pos same, same]
    simp [eq_comm]
  · rw [if_neg same, find?_eq_some]
    simp [same]

theorem find?_insert : (m.insert k v).find? j =
    if j = k then some ((m.find? k).getD v) else m.find? j := by
  cases held : m.find? k with
  | none =>
    have fresh : ∀ e ∈ m.entries, e.1 ≠ k := by
      intro e member key
      have found : m.find? k = some e.2 := find?_eq_some.mpr (key ▸ member)
      rw [held] at found
      cases found
    ext u
    rw [find?_eq_some, mem_insert fresh]
    by_cases same : j = k
    · rw [if_pos same, same, Option.getD_none, ← find?_eq_some, held]
      simp [eq_comm]
    · rw [if_neg same, find?_eq_some]
      simp [same]
  | some u =>
    have kept : m.insert k v = m := by
      have entries := insertEntry_of_mem (v := v) m.sorted (find?_eq_some.mp held)
      cases m
      simp only [insert, entries]
    rw [kept, Option.getD_some]
    by_cases same : j = k
    · rw [if_pos same, same, held]
    · rw [if_neg same]

theorem find?_mapValues (f : κ → α → α) : (m.mapValues f).find? k = (m.find? k).map (f k) := by
  ext v
  rw [find?_eq_some, Option.map_eq_some_iff]
  change (k, v) ∈ m.entries.map _ ↔ _
  rw [List.mem_map]
  constructor
  · rintro ⟨e, member, same⟩
    cases same
    exact ⟨e.2, find?_eq_some.mpr member, rfl⟩
  · rintro ⟨u, held, rfl⟩
    exact ⟨(k, u), find?_eq_some.mp held, rfl⟩

theorem ext_find? {m n : OrderedMap κ α c} (same : ∀ k, m.find? k = n.find? k) : m = n := by
  have members : ∀ x, x ∈ m.entries ↔ x ∈ n.entries := by
    intro x
    change (x.1, x.2) ∈ _ ↔ (x.1, x.2) ∈ _
    rw [← find?_eq_some, ← find?_eq_some, same]
  have entries : m.entries = n.entries :=
    ((List.perm_ext_iff_of_nodup m.nodup_entries n.nodup_entries).mpr members).eq_of_pairwise
      (fun a b _ _ below above => absurd above (c.asymm below)) m.sorted n.sorted
  cases m
  cases n
  cases entries
  rfl

end Lookup

end OrderedMap

end Socrocket.Base
