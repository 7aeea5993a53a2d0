/- Socrocket/Base/TableWalk
   digest: Walks through nested tables, one index for each level, and what they depend on. -/

import Mathlib.Data.List.Basic

set_option autoImplicit false
set_option relaxedAutoImplicit false

namespace Socrocket.Base.TableWalk

/-- What an entry means at its level: a fault, the end of the walk, or a table below. -/
inductive Kind (φ : Type) where
  | fault (f : φ)
  | leaf
  | table

/-- A table format: the kind of an entry at each level, the place of an entry of the table below,
and the fault of a table below the last level. -/
structure Format (α ε ι φ : Type) where
  kind : ℕ → ε → Kind φ
  child : ε → ι → α
  tooDeep : φ

/-- A finished walk: the places read, the level and the entry it ended at, and the fault if any. -/
structure Walk (α ε φ : Type) where
  trace : List α
  level : ℕ
  entry : ε
  fault : Option φ

variable {α ε ι φ : Type} (F : Format α ε ι φ)

/-- Walk from an entry on, with one index for each level below. -/
def walk (read : α → ε) : ℕ → List ι → α → Walk α ε φ
  | level, [], place =>
    match F.kind level (read place) with
    | .fault f => ⟨[place], level, read place, some f⟩
    | .leaf => ⟨[place], level, read place, none⟩
    | .table => ⟨[place], level, read place, some F.tooDeep⟩
  | level, i :: is, place =>
    match F.kind level (read place) with
    | .fault f => ⟨[place], level, read place, some f⟩
    | .leaf => ⟨[place], level, read place, none⟩
    | .table =>
      let below := walk read (level + 1) is (F.child (read place) i)
      { below with trace := place :: below.trace }

variable {F} {read read' : α → ε} {level : ℕ} {is : List ι} {i : ι} {place : α}

theorem walk_fault {f : φ} (kind : F.kind level (read place) = .fault f) :
    walk F read level is place = ⟨[place], level, read place, some f⟩ := by
  cases is with
  | nil => simp only [walk, kind]
  | cons i is => simp only [walk, kind]

theorem walk_leaf (kind : F.kind level (read place) = .leaf) :
    walk F read level is place = ⟨[place], level, read place, none⟩ := by
  cases is with
  | nil => simp only [walk, kind]
  | cons i is => simp only [walk, kind]

theorem walk_tooDeep (kind : F.kind level (read place) = .table) :
    walk F read level [] place = ⟨[place], level, read place, some F.tooDeep⟩ := by
  simp only [walk, kind]

theorem walk_table (kind : F.kind level (read place) = .table) :
    walk F read level (i :: is) place =
      { walk F read (level + 1) is (F.child (read place) i) with
        trace := place :: (walk F read (level + 1) is (F.child (read place) i)).trace } := by
  simp only [walk, kind]

/-- What a walk can be: it stops at its first entry, or goes on in the table below. -/
theorem walk_cases (F : Format α ε ι φ) (read : α → ε) (level : ℕ) (is : List ι) (place : α) :
    (∃ f, walk F read level is place = ⟨[place], level, read place, some f⟩) ∨
    (F.kind level (read place) = .leaf ∧
      walk F read level is place = ⟨[place], level, read place, none⟩) ∨
    ∃ i rest, is = i :: rest ∧ F.kind level (read place) = .table ∧
      walk F read level is place =
        { walk F read (level + 1) rest (F.child (read place) i) with
          trace := place :: (walk F read (level + 1) rest (F.child (read place) i)).trace } := by
  cases kind : F.kind level (read place) with
  | fault f => exact .inl ⟨f, walk_fault kind⟩
  | leaf => exact .inr (.inl ⟨rfl, walk_leaf kind⟩)
  | table =>
    cases is with
    | nil => exact .inl ⟨F.tooDeep, walk_tooDeep kind⟩
    | cons i rest => exact .inr (.inr ⟨i, rest, rfl, rfl, walk_table kind⟩)

theorem trace_eq (F : Format α ε ι φ) (read : α → ε) (level : ℕ) (is : List ι) (place : α) :
    ∃ rest, (walk F read level is place).trace = place :: rest := by
  rcases walk_cases F read level is place with ⟨f, eq⟩ | ⟨-, eq⟩ | ⟨i, rest, -, -, eq⟩
  · exact ⟨[], congrArg Walk.trace eq⟩
  · exact ⟨[], congrArg Walk.trace eq⟩
  · exact ⟨_, congrArg Walk.trace eq⟩

theorem mem_trace_self : place ∈ (walk F read level is place).trace := by
  obtain ⟨rest, eq⟩ := trace_eq F read level is place
  rw [eq]
  exact List.mem_cons_self ..

theorem walk_entry (F : Format α ε ι φ) (read : α → ε) (level : ℕ) (is : List ι) (place : α) :
    (walk F read level is place).entry = read ((walk F read level is place).trace.getLastD place) := by
  induction is generalizing level place with
  | nil =>
    rcases walk_cases F read level [] place with ⟨f, eq⟩ | ⟨-, eq⟩ | ⟨i, rest, split, -, -⟩
    · rw [eq]
      rfl
    · rw [eq]
      rfl
    · exact absurd split (by simp)
  | cons j js ih =>
    rcases walk_cases F read level (j :: js) place with ⟨f, eq⟩ | ⟨-, eq⟩ | ⟨i, rest, split, -, eq⟩
    · rw [eq]
      rfl
    · rw [eq]
      rfl
    · obtain ⟨rfl, rfl⟩ := List.cons.inj split
      obtain ⟨trace, below⟩ := trace_eq F read (level + 1) js (F.child (read place) j)
      rw [eq]
      dsimp only
      rw [ih, below]
      rfl

theorem walk_level_le (F : Format α ε ι φ) (read : α → ε) (level : ℕ) (is : List ι) (place : α) :
    (walk F read level is place).level ≤ level + is.length := by
  induction is generalizing level place with
  | nil =>
    rcases walk_cases F read level [] place with ⟨f, eq⟩ | ⟨-, eq⟩ | ⟨i, rest, split, -, -⟩
    · rw [eq]
      exact Nat.le_add_right ..
    · rw [eq]
      exact Nat.le_add_right ..
    · exact absurd split (by simp)
  | cons j js ih =>
    rcases walk_cases F read level (j :: js) place with ⟨f, eq⟩ | ⟨-, eq⟩ | ⟨i, rest, split, -, eq⟩
    · rw [eq]
      exact Nat.le_add_right ..
    · rw [eq]
      exact Nat.le_add_right ..
    · obtain ⟨rfl, rfl⟩ := List.cons.inj split
      have below := ih (level + 1) (F.child (read place) j)
      rw [eq, List.length_cons]
      exact Nat.le_trans below (by omega)

theorem walk_fault_rec {Q : φ → Prop} (kinds : ∀ l e f, F.kind l e = .fault f → Q f)
    (deep : Q F.tooDeep) {f : φ} (found : (walk F read level is place).fault = some f) : Q f := by
  induction is generalizing level place with
  | nil =>
    cases kind : F.kind level (read place) with
    | fault f' =>
      rw [walk_fault kind, Option.some.injEq] at found
      exact found ▸ kinds _ _ _ kind
    | leaf =>
      rw [walk_leaf kind] at found
      cases found
    | table =>
      rw [walk_tooDeep kind, Option.some.injEq] at found
      exact found ▸ deep
  | cons i is ih =>
    cases kind : F.kind level (read place) with
    | fault f' =>
      rw [walk_fault kind, Option.some.injEq] at found
      exact found ▸ kinds _ _ _ kind
    | leaf =>
      rw [walk_leaf kind] at found
      cases found
    | table =>
      rw [walk_table kind] at found
      exact ih found

/-- A walk depends only on the entries it reads. -/
theorem walk_congr (same : ∀ p ∈ (walk F read level is place).trace, read' p = read p) :
    walk F read' level is place = walk F read level is place := by
  have here : read' place = read place := same place mem_trace_self
  induction is generalizing level place with
  | nil => simp only [walk, here]
  | cons i is ih =>
    cases kind : F.kind level (read place) with
    | fault f => rw [walk_fault kind, walk_fault (here ▸ kind), here]
    | leaf => rw [walk_leaf kind, walk_leaf (here ▸ kind), here]
    | table =>
      rw [walk_table kind] at same ⊢
      have below : ∀ p ∈ (walk F read (level + 1) is (F.child (read place) i)).trace,
          read' p = read p := fun p member => same p (List.mem_cons_of_mem _ member)
      rw [walk_table (here ▸ kind), here, ih below (below _ mem_trace_self)]

end Socrocket.Base.TableWalk
