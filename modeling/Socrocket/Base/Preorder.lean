/- Socrocket/Base/Preorder
   digest: Trees numbered in preorder by parent links: the nodes below a node are an interval. -/

import Mathlib.Logic.Relation
import Mathlib.Order.Basic
import Mathlib.Order.Nat

set_option autoImplicit false
set_option relaxedAutoImplicit false

namespace Socrocket.Base.Preorder

open Relation (ReflTransGen)

variable {parent : ℕ → Option ℕ} {count : ℕ}

/-- A node is another one or one of its ancestors. -/
def Above (parent : ℕ → Option ℕ) (a c : ℕ) : Prop := ReflTransGen (fun x y => parent x = some y) c a

/-- Every node but the first was hung below the node before it or below one of its ancestors. -/
structure Numbered (parent : ℕ → Option ℕ) (count : ℕ) : Prop where
  root : parent 0 = none
  less : ∀ c < count, ∀ q, parent c = some q → q < c
  next : ∀ c, c + 1 < count → ∃ q, parent (c + 1) = some q ∧ Above parent q c

/-- The nodes below `v` are those from `v` on and before `e`. -/
structure Spans (parent : ℕ → Option ℕ) (count v e : ℕ) : Prop where
  begun : v < e
  within : e ≤ count
  below : ∀ c < count, Above parent v c ↔ v ≤ c ∧ c < e

variable {a b c d e q v x : ℕ}

theorem Above.refl (parent : ℕ → Option ℕ) (c : ℕ) : Above parent c c := ReflTransGen.refl

theorem Above.trans (h : Above parent a b) (h' : Above parent b c) : Above parent a c :=
  ReflTransGen.trans h' h

theorem Above.child (h : Above parent a q) (link : parent c = some q) : Above parent a c :=
  ReflTransGen.head link h

theorem Above.cases (h : Above parent a c) :
    a = c ∨ ∃ q, parent c = some q ∧ Above parent a q := by
  rcases ReflTransGen.cases_head h with same | ⟨q, link, rest⟩
  · exact .inl same.symm
  · exact .inr ⟨q, link, rest⟩

theorem Above.through (h : Above parent a c) (apart : a ≠ c) (link : parent c = some q) :
    Above parent a q := by
  rcases h.cases with same | ⟨r, link', rest⟩
  · exact absurd same apart
  · rw [link, Option.some.injEq] at link'
    exact link' ▸ rest

theorem Above.total (h : Above parent a c) (h' : Above parent b c) :
    Above parent a b ∨ Above parent b a := by
  have unique : Relator.RightUnique fun x y => parent x = some y := by
    intro x y z first second
    rw [first, Option.some.injEq] at second
    exact second
  exact (ReflTransGen.total_of_right_unique unique h h').symm

namespace Numbered

variable (numbered : Numbered parent count)

include numbered

theorem le_of_above (inside : c < count) (h : Above parent a c) : a ≤ c := by
  induction c using Nat.strongRecOn with
  | ind c ih =>
    rcases h.cases with rfl | ⟨q, link, rest⟩
    · exact le_rfl
    · have less := numbered.less c inside q link
      exact (ih q less (less.trans inside) rest).trans less.le

theorem root_above (inside : c < count) : Above parent 0 c := by
  induction c with
  | zero => exact Above.refl parent 0
  | succ c ih =>
    obtain ⟨q, link, above⟩ := numbered.next c inside
    have top := ih (Nat.lt_of_succ_lt inside)
    rcases top.total above with h | h
    · exact h.child link
    · have zero : q ≤ 0 := numbered.le_of_above (Nat.zero_lt_of_lt inside) h
      rw [Nat.le_zero.mp zero] at link
      exact (Above.refl parent 0).child link

/-- What lies below a node and is not the node itself hangs next to what lies before. -/
theorem above_pred (inside : c + 1 < count) (h : Above parent a (c + 1)) (apart : a ≠ c + 1) :
    Above parent a c := by
  obtain ⟨q, link, above⟩ := numbered.next c inside
  exact (h.through apart link).trans above

theorem above_between (inside : c < count) (h : Above parent a c) (low : a ≤ x) (high : x ≤ c) :
    Above parent a x := by
  induction c with
  | zero =>
    rw [Nat.le_zero.mp high]
    exact h
  | succ c ih =>
    rcases Nat.lt_or_eq_of_le high with before | rfl
    · exact ih (Nat.lt_of_succ_lt inside)
        (numbered.above_pred inside h (by omega)) (Nat.le_of_lt_succ before)
    · exact h

theorem spans_root (some : 0 < count) : Spans parent count 0 count :=
  ⟨some, le_rfl, fun c inside => iff_of_true (numbered.root_above inside) ⟨Nat.zero_le c, inside⟩⟩

theorem first_child (spans : Spans parent count v e) (further : v + 1 < e) :
    parent (v + 1) = some v := by
  have inside : v + 1 < count := further.trans_le spans.within
  have below := (spans.below (v + 1) inside).mpr ⟨Nat.le_succ v, further⟩
  obtain ⟨q, link, above⟩ := numbered.next v inside
  have low : v ≤ q := numbered.le_of_above ((numbered.less _ inside q link).trans inside)
    (below.through (Nat.ne_of_lt (Nat.lt_succ_self v)) link)
  have high : q ≤ v := numbered.le_of_above (Nat.lt_of_succ_lt inside) above
  rw [link, low.antisymm high]

theorem child_inside (spans : Spans parent count q e) (inside : c < count)
    (link : parent c = some q) : q < c ∧ c < e :=
  ⟨numbered.less c inside q link,
    ((spans.below c inside).mp ((Above.refl parent q).child link)).2⟩

theorem spans_child (spans : Spans parent count q e) (inside : c < count)
    (link : parent c = some q) (further : c < d) (most : d ≤ e)
    (between : ∀ x, c < x → x < d → parent x ≠ some q) (ends : d = e ∨ parent d = some q) :
    Spans parent count c d := by
  have above : q < c := numbered.less c inside q link
  refine ⟨further, most.trans spans.within, fun x here => ⟨fun h => ?_, ?_⟩⟩
  · have low : c ≤ x := numbered.le_of_above here h
    refine ⟨low, ?_⟩
    rcases ends with rfl | next
    · exact ((spans.below x here).mp (((Above.refl parent q).child link).trans h)).2
    · by_contra past
      have through := numbered.above_between here h further.le (not_lt.mp past)
      have least : c ≤ q := numbered.le_of_above (above.trans inside)
        (through.through further.ne next)
      omega
  · rintro ⟨low, high⟩
    induction x with
    | zero => omega
    | succ x ih =>
      rcases Nat.lt_or_eq_of_le low with before | same
      · have behind : Above parent c x :=
          ih (Nat.lt_of_succ_lt here) (Nat.le_of_lt_succ before) (Nat.lt_of_succ_lt high)
        obtain ⟨r, hung, above_r⟩ := numbered.next x here
        rcases behind.total above_r with h | h
        · exact h.child hung
        · -- The parent of the next node is neither above `q` nor `q` itself.
          by_cases same : r = c
          · rw [same] at hung
            exact (Above.refl parent c).child hung
          · have upper : Above parent r q := h.through same link
            have lower : Above parent q r :=
              ((spans.below (x + 1) here).mpr ⟨by omega, by omega⟩).through (by omega) hung
            have r_inside := (numbered.less _ here r hung).trans here
            have equal : r = q := (numbered.le_of_above (above.trans inside) upper).antisymm
              (numbered.le_of_above r_inside lower)
            exact absurd (equal ▸ hung) (between (x + 1) (by omega) high)
      · rw [← same]
        exact Above.refl parent c

end Numbered

/-- Hanging a new node below the last one or one of its ancestors keeps the numbering. -/
theorem Numbered.append {parent' : ℕ → Option ℕ} (numbered : Numbered parent count) {t : ℕ}
    (old : ∀ c < count, parent' c = parent c) (new : parent' count = some t) (inside : t < count)
    (last : ∀ c, c + 1 = count → Above parent t c) : Numbered parent' (count + 1) := by
  have kept {a c : ℕ} (below : c < count) (h : Above parent a c) : Above parent' a c := by
    induction c using Nat.strongRecOn with
    | ind c ih =>
      rcases h.cases with rfl | ⟨q, link, rest⟩
      · exact Above.refl parent' a
      · have less := numbered.less c below q link
        exact (ih q less (less.trans below) rest).child ((old c below).trans link)
  constructor
  · rw [old 0 (Nat.zero_lt_of_lt inside)]
    exact numbered.root
  · intro c below q link
    rcases Nat.lt_succ_iff_lt_or_eq.mp below with before | rfl
    · exact numbered.less c before q (old c before ▸ link)
    · rw [new, Option.some.injEq] at link
      exact link ▸ inside
  · intro c below
    rcases Nat.lt_succ_iff_lt_or_eq.mp below with before | same
    · obtain ⟨q, link, above⟩ := numbered.next c before
      exact ⟨q, (old _ before).trans link, kept (Nat.lt_of_succ_lt before) above⟩
    · subst same
      exact ⟨t, new, kept (Nat.lt_succ_self c) (last c rfl)⟩

end Socrocket.Base.Preorder
