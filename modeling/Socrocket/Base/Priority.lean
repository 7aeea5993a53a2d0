/- Socrocket/Base/Priority
   digest: Two class priority selection: the greatest urgent element, else the greatest element. -/

import Mathlib.Order.Bounds.Basic

set_option autoImplicit false
set_option relaxedAutoImplicit false

namespace Socrocket.Base.Priority

variable {α : Type} [LinearOrder α] (urgent : α → Prop)

/-- Urgent elements outrank the others; inside a class the greater element outranks. -/
def Outranks (a b : α) : Prop := (urgent a ∧ ¬ urgent b) ∨ ((urgent a ↔ urgent b) ∧ b < a)

/-- The greatest urgent element of a set, or its greatest element when none is urgent. -/
def IsSelected (s : Set α) (a : α) : Prop :=
  IsGreatest {x | x ∈ s ∧ urgent x} a ∨ ((∀ x ∈ s, ¬ urgent x) ∧ IsGreatest s a)

variable {urgent} {s t : Set α} {a b c e : α}

theorem Outranks.trans (hab : Outranks urgent a b) (hbc : Outranks urgent b c) :
    Outranks urgent a c := by
  rcases hab with ⟨ha, hb⟩ | ⟨hab, lt⟩ <;> rcases hbc with ⟨hb', hc⟩ | ⟨hbc, lt'⟩
  · exact absurd hb' hb
  · exact .inl ⟨ha, fun hc => hb (hbc.mpr hc)⟩
  · exact .inl ⟨hab.mpr hb', hc⟩
  · exact .inr ⟨hab.trans hbc, lt'.trans lt⟩

theorem Outranks.irrefl (h : Outranks urgent a a) : False := by
  rcases h with ⟨ha, hna⟩ | ⟨-, lt⟩
  · exact hna ha
  · exact lt_irrefl a lt

theorem outranks_total (ne : a ≠ b) : Outranks urgent a b ∨ Outranks urgent b a := by
  by_cases ha : urgent a <;> by_cases hb : urgent b
  · rcases lt_or_gt_of_ne ne with lt | gt
    · exact .inr (.inr ⟨by simp [ha, hb], lt⟩)
    · exact .inl (.inr ⟨by simp [ha, hb], gt⟩)
  · exact .inl (.inl ⟨ha, hb⟩)
  · exact .inr (.inl ⟨hb, ha⟩)
  · rcases lt_or_gt_of_ne ne with lt | gt
    · exact .inr (.inr ⟨by simp [ha, hb], lt⟩)
    · exact .inl (.inr ⟨by simp [ha, hb], gt⟩)

theorem isSelected_iff : IsSelected urgent s a ↔ a ∈ s ∧ ∀ x ∈ s, x ≠ a → Outranks urgent a x := by
  constructor
  · rintro (⟨⟨mem, ha⟩, upper⟩ | ⟨calm, mem, upper⟩)
    · refine ⟨mem, fun x hx ne => ?_⟩
      by_cases hux : urgent x
      · exact .inr ⟨by simp [ha, hux], lt_of_le_of_ne (upper ⟨hx, hux⟩) ne⟩
      · exact .inl ⟨ha, hux⟩
    · refine ⟨mem, fun x hx ne => .inr ⟨?_, lt_of_le_of_ne (upper hx) ne⟩⟩
      simp [calm a mem, calm x hx]
  · rintro ⟨mem, above⟩
    by_cases ha : urgent a
    · refine .inl ⟨⟨mem, ha⟩, ?_⟩
      rintro x ⟨hx, hux⟩
      by_cases eq : x = a
      · exact le_of_eq eq
      · rcases above x hx eq with ⟨-, hnux⟩ | ⟨-, lt⟩
        · exact absurd hux hnux
        · exact le_of_lt lt
    · have calm : ∀ x ∈ s, ¬ urgent x := by
        intro x hx hux
        have ne : x ≠ a := fun eq => ha (eq ▸ hux)
        rcases above x hx ne with ⟨hua, -⟩ | ⟨same, -⟩
        · exact ha hua
        · exact ha (same.mpr hux)
      refine .inr ⟨calm, mem, ?_⟩
      intro x hx
      by_cases eq : x = a
      · exact le_of_eq eq
      · rcases above x hx eq with ⟨hua, -⟩ | ⟨-, lt⟩
        · exact absurd hua ha
        · exact le_of_lt lt

theorem IsSelected.mem (h : IsSelected urgent s a) : a ∈ s := (isSelected_iff.mp h).1

theorem IsSelected.unique (ha : IsSelected urgent s a) (hb : IsSelected urgent s b) : a = b := by
  by_contra ne
  rw [isSelected_iff] at ha hb
  exact ((ha.2 b hb.1 (Ne.symm ne)).trans (hb.2 a ha.1 ne)).irrefl

private theorem selected_of_outranked (agree : ∀ x, x ≠ e → (x ∈ s ↔ x ∈ t)) (hc : c ∈ s)
    (above : Outranks urgent c e) (ha : IsSelected urgent s a) :
    IsSelected urgent t a := by
  rw [isSelected_iff] at ha ⊢
  have top : Outranks urgent a e := by
    by_cases eq : c = a
    · exact eq ▸ above
    · exact (ha.2 c hc eq).trans above
  have apart : a ≠ e := fun eq => (eq ▸ top).irrefl
  refine ⟨(agree a apart).mp ha.1, fun x hx ne => ?_⟩
  by_cases eq : x = e
  · exact eq ▸ top
  · exact ha.2 x ((agree x eq).mpr hx) ne

/-- Sets that differ in one element at most select alike exactly when they agree on that element
too, or when another member outranks it. -/
theorem selected_iff_of_agree (agree : ∀ x, x ≠ e → (x ∈ s ↔ x ∈ t)) :
    (∀ a, IsSelected urgent s a ↔ IsSelected urgent t a) ↔
      ((e ∈ s ↔ e ∈ t) ∨ ∃ c ∈ s, c ≠ e ∧ Outranks urgent c e) := by
  constructor
  · intro same
    by_cases outranked : ∃ c ∈ s, c ≠ e ∧ Outranks urgent c e
    · exact .inr outranked
    · have top {u : Set α} (others : ∀ x, x ≠ e → x ∈ u → x ∈ s) (mem : e ∈ u) :
          IsSelected urgent u e := by
        refine isSelected_iff.mpr ⟨mem, fun x hx ne => ?_⟩
        rcases outranks_total ne with above | below
        · exact absurd ⟨x, others x ne hx, ne, above⟩ outranked
        · exact below
      refine .inl ⟨fun mem => ?_, fun mem => ?_⟩
      · exact ((same e).mp (top (fun _ _ hx => hx) mem)).mem
      · exact ((same e).mpr (top (fun x ne hx => (agree x ne).mpr hx) mem)).mem
  · rintro (both | ⟨c, hc, ne, above⟩) a
    · have equal : s = t := by
        ext x
        by_cases eq : x = e
        · rw [eq]
          exact both
        · exact agree x eq
      rw [equal]
    · constructor
      · exact selected_of_outranked agree hc above
      · exact selected_of_outranked (fun x hx => (agree x hx).symm) ((agree c ne).mp hc) above

end Socrocket.Base.Priority
