/- Socrocket/Base/Recency
   digest: Histories of touches: when an element was touched last, and the stack that keeps the
   elements in the order of their last touches. -/

import Mathlib.Data.List.Basic
import Mathlib.Data.List.Induction

set_option autoImplicit false
set_option relaxedAutoImplicit false

namespace Socrocket.Base.Recency

variable {α : Type} [DecidableEq α]

/-- The number of touches up to and including the last one of `a`, and 0 when there is none. -/
def lastTouch (history : List α) (a : α) : ℕ := history.length - history.reverse.idxOf a

/-- A touched element moves to the front. -/
def touch (stack : List α) (a : α) : List α := a :: stack.erase a

/-- The touched elements, the last one first. -/
def recent (history : List α) : List α := history.foldl touch []

variable {stack history : List α} {a b : α}

theorem lastTouch_append (history : List α) (x a : α) :
    lastTouch (history ++ [x]) a = if a = x then history.length + 1 else lastTouch history a := by
  unfold lastTouch
  rw [List.length_append, List.reverse_append]
  change history.length + 1 - (x :: history.reverse).idxOf a = _
  by_cases same : a = x
  · rw [if_pos same, List.idxOf_cons_eq _ same.symm, Nat.sub_zero]
  · rw [if_neg same, List.idxOf_cons_ne _ (Ne.symm same)]
    omega

theorem lastTouch_le (history : List α) (a : α) : lastTouch history a ≤ history.length :=
  Nat.sub_le ..

theorem lastTouch_pos : 0 < lastTouch history a ↔ a ∈ history := by
  rw [lastTouch, Nat.sub_pos_iff_lt, ← List.length_reverse, List.idxOf_lt_length_iff,
    List.mem_reverse]

theorem recent_append (history : List α) (x : α) :
    recent (history ++ [x]) = touch (recent history) x := by
  unfold recent
  rw [List.foldl_append]
  rfl

theorem nodup_touch (nodup : stack.Nodup) (a : α) : (touch stack a).Nodup :=
  List.nodup_cons.mpr ⟨nodup.not_mem_erase, nodup.erase a⟩

theorem mem_touch (nodup : stack.Nodup) : b ∈ touch stack a ↔ b = a ∨ b ∈ stack := by
  rw [touch, List.mem_cons, nodup.mem_erase_iff]
  tauto

theorem nodup_recent (history : List α) : (recent history).Nodup := by
  induction history using List.reverseRecOn with
  | nil => exact List.nodup_nil
  | append_singleton history x ih =>
    rw [recent_append]
    exact nodup_touch ih x

theorem mem_recent : a ∈ recent history ↔ a ∈ history := by
  induction history using List.reverseRecOn with
  | nil => exact Iff.rfl
  | append_singleton history x ih =>
    rw [recent_append, mem_touch (nodup_recent history), ih, List.mem_append, List.mem_singleton,
      or_comm]

theorem idxOf_touch_self (stack : List α) (a : α) : (touch stack a).idxOf a = 0 :=
  List.idxOf_cons_self

private theorem idxOf_erase (nodup : stack.Nodup) (ne : b ≠ a) (member : b ∈ stack) :
    (stack.erase a).idxOf b =
      if stack.idxOf b < stack.idxOf a then stack.idxOf b else stack.idxOf b - 1 := by
  induction stack with
  | nil => cases member
  | cons c stack ih =>
    obtain ⟨fresh, rest⟩ := List.nodup_cons.mp nodup
    by_cases front : c = a
    · subst c
      rw [List.erase_cons_head, List.idxOf_cons_self, if_neg (Nat.not_lt_zero _),
        List.idxOf_cons_ne _ ne.symm]
      rfl
    · rw [List.erase_cons_tail (by simpa using front), List.idxOf_cons_ne stack front]
      by_cases here : c = b
      · rw [List.idxOf_cons_eq _ here, List.idxOf_cons_eq _ here, if_pos (Nat.succ_pos _)]
      · have tail : b ∈ stack := (List.mem_cons.mp member).resolve_left (Ne.symm here)
        rw [List.idxOf_cons_ne _ here, List.idxOf_cons_ne _ here, ih rest tail]
        have apart : stack.idxOf b ≠ stack.idxOf a := by
          intro same
          exact ne ((List.idxOf_inj tail).mp same)
        split_ifs <;> omega

theorem idxOf_touch (nodup : stack.Nodup) (ne : b ≠ a) (member : b ∈ stack) :
    (touch stack a).idxOf b =
      if stack.idxOf b < stack.idxOf a then stack.idxOf b + 1 else stack.idxOf b := by
  have apart : stack.idxOf b ≠ stack.idxOf a := fun same => ne ((List.idxOf_inj member).mp same)
  rw [touch, List.idxOf_cons_ne _ ne.symm, idxOf_erase nodup ne member]
  split_ifs <;> omega

/-- The stack is ordered by the last touches. -/
theorem lastTouch_lt_iff (touched : b ∈ history) :
    lastTouch history a < lastTouch history b ↔
      (recent history).idxOf b < (recent history).idxOf a := by
  induction history using List.reverseRecOn with
  | nil => cases touched
  | append_singleton history x ih =>
    have nodup := nodup_recent history
    have below (c : α) := lastTouch_le history c
    rw [lastTouch_append, lastTouch_append, recent_append]
    by_cases newest : b = x
    · subst b
      rw [if_pos rfl, idxOf_touch_self]
      by_cases same : a = x
      · rw [if_pos same, same, idxOf_touch_self]
        omega
      · have := below a
        rw [if_neg same, touch, List.idxOf_cons_ne _ (Ne.symm same)]
        omega
    · have old : b ∈ history := by
        rcases List.mem_append.mp touched with old | new
        · exact old
        · exact absurd (List.mem_singleton.mp new) newest
      have known := mem_recent.mpr old
      rw [if_neg newest, idxOf_touch nodup newest known]
      by_cases same : a = x
      · have := below b
        rw [if_pos same, same, idxOf_touch_self]
        omega
      · rw [if_neg same, ih old]
        by_cases touched_a : a ∈ recent history
        · have apart : (recent history).idxOf a ≠ (recent history).idxOf x :=
            fun eq => same ((List.idxOf_inj touched_a).mp eq)
          rw [idxOf_touch nodup same touched_a]
          split_ifs <;> omega
        · -- an element that was never touched is behind the whole stack
          have behind : (recent history).idxOf a = (recent history).length :=
            List.idxOf_of_notMem touched_a
          have inside := List.idxOf_lt_length_of_mem known
          have outside : a ∉ touch (recent history) x := by
            rw [mem_touch nodup, not_or]
            exact ⟨same, touched_a⟩
          have room : (recent history).length ≤ (touch (recent history) x).length := by
            rw [touch, List.length_cons, List.length_erase]
            split_ifs <;> omega
          have moved := List.idxOf_lt_length_of_mem ((mem_touch nodup (a := x)).mpr (.inr known))
          rw [idxOf_touch nodup newest known] at moved
          rw [behind, List.idxOf_of_notMem outside]
          omega

theorem lastTouch_ne (ne : a ≠ b) (touched : b ∈ history) :
    lastTouch history a ≠ lastTouch history b := by
  have known := mem_recent.mpr touched
  rcases Nat.lt_trichotomy ((recent history).idxOf a) ((recent history).idxOf b) with
    front | same | behind
  · have inside := List.idxOf_lt_length_of_mem known
    have touched_a : a ∈ history := by
      rw [← mem_recent, ← List.idxOf_lt_length_iff]
      omega
    exact Nat.ne_of_gt ((lastTouch_lt_iff touched_a).mpr front)
  · exact absurd ((List.idxOf_inj known).mp same.symm).symm ne
  · exact Nat.ne_of_lt ((lastTouch_lt_iff touched).mpr behind)

end Socrocket.Base.Recency
