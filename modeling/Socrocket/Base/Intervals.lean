/- Socrocket/Base/Intervals
   digest: Closed intervals in the order of their starts are apart when each ends before the next. -/

import Mathlib.Data.List.Chain
import Mathlib.Order.Lattice

set_option autoImplicit false
set_option relaxedAutoImplicit false

namespace Socrocket.Base.Intervals

variable {ι α : Type} [LinearOrder α]

/-- The intervals of two things have a point in common. -/
def Meet (low high : ι → α) (a b : ι) : Prop :=
  ∃ x, (low a ≤ x ∧ x ≤ high a) ∧ low b ≤ x ∧ x ≤ high b

variable {low high : ι → α} {a b : ι}

theorem meet_comm : Meet low high a b ↔ Meet low high b a :=
  exists_congr fun _ => And.comm

theorem meet_iff (order : low a ≤ low b) (holds : low b ≤ high b) :
    Meet low high a b ↔ low b ≤ high a := by
  constructor
  · rintro ⟨x, ⟨-, inside⟩, above, -⟩
    exact le_trans above inside
  · exact fun reaches => ⟨low b, ⟨order, reaches⟩, le_rfl, holds⟩

/-- When each interval ends before the next one starts, it ends before all later ones. -/
theorem chain_iff_pairwise {l : List ι} (sorted : l.Pairwise fun a b => low a ≤ low b)
    (holds : ∀ a ∈ l, low a ≤ high a) :
    l.IsChain (fun a b => high a < low b) ↔ l.Pairwise fun a b => ¬ Meet low high a b := by
  induction l with
  | nil => exact iff_of_true .nil .nil
  | cons a l ih =>
    obtain ⟨first, rest⟩ := List.pairwise_cons.mp sorted
    obtain ⟨-, inner⟩ := List.forall_mem_cons.mp holds
    rw [List.pairwise_cons, ← ih rest inner]
    cases l with
    | nil => exact iff_of_true (.singleton a) ⟨nofun, .nil⟩
    | cons b l =>
      rw [List.isChain_cons_cons]
      refine and_congr_left fun _ => ⟨fun ends c member meet => ?_, fun apart => ?_⟩
      · have later : low b ≤ low c := by
          rcases List.mem_cons.mp member with rfl | tail
          · exact le_rfl
          · exact (List.pairwise_cons.mp rest).1 c tail
        have reaches := (meet_iff (first c member) (inner c member)).mp meet
        exact absurd (lt_of_lt_of_le ends later) (not_lt_of_ge reaches)
      · have member := List.mem_cons_self (a := b) (l := l)
        exact lt_of_not_ge fun reaches =>
          apart b member ((meet_iff (first b member) (inner b member)).mpr reaches)

end Socrocket.Base.Intervals
