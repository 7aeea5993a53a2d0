/- Socrocket/Base/Slots
   digest: Bounded maps whose entries hold slot numbers, each number at most once. -/

import Socrocket.Base.OrderedMap

set_option autoImplicit false
set_option relaxedAutoImplicit false

namespace Socrocket.Base

variable {κ α : Type} {c : Compare κ}

/-- The entries of a map hold different slots of a given number of slots. -/
structure SlotsSound (slot : α → ℕ) (size : ℕ) (m : OrderedMap κ α c) : Prop where
  count : m.entries.length ≤ size
  distinct : (m.entries.map fun e => slot e.2).Nodup
  below : ∀ e ∈ m.entries, slot e.2 < size

namespace SlotsSound

variable {slot : α → ℕ} {size : ℕ} {m : OrderedMap κ α c}

theorem empty : SlotsSound slot size (OrderedMap.empty : OrderedMap κ α c) :=
  ⟨Nat.zero_le _, List.nodup_nil, fun _ member => absurd member List.not_mem_nil⟩

variable [DecidableEq κ] {k : κ} {v u : α}

theorem erase (sound : SlotsSound slot size m) (k : κ) : SlotsSound slot size (m.erase k) :=
  ⟨(List.length_filter_le ..).trans sound.count, sound.distinct.sublist (List.filter_sublist.map _),
    fun e member => sound.below e ((OrderedMap.mem_erase e).mp member).1⟩

/-- Where there is room, a key gets a slot if and only if no other key has it. -/
theorem set_iff (sound : SlotsSound slot size m) (room : m.entries.length < size)
    (inside : slot v < size) :
    SlotsSound slot size (m.set k v) ↔ ∀ e ∈ m.entries, e.1 ≠ k → slot e.2 ≠ slot v := by
  have perm := OrderedMap.perm_set (m := m) (k := k) (v := v)
  constructor
  · intro set e member other same
    have distinct := (perm.map fun e => slot e.2).nodup_iff.mp set.distinct
    exact (List.nodup_cons.mp distinct).1
      (List.mem_map.mpr ⟨e, (OrderedMap.mem_erase e).mpr ⟨member, other⟩, same⟩)
  · intro free
    have rest := sound.erase k
    refine ⟨?_, ?_, fun e member => ?_⟩
    · rw [perm.length_eq, List.length_cons]
      exact Nat.lt_of_le_of_lt (List.length_filter_le ..) room
    · refine (perm.map fun e => slot e.2).nodup_iff.mpr
        (List.nodup_cons.mpr ⟨fun held => ?_, rest.distinct⟩)
      obtain ⟨e, member, same⟩ := List.mem_map.mp held
      obtain ⟨kept, other⟩ := (OrderedMap.mem_erase e).mp member
      exact free e kept other same
    · rcases (OrderedMap.mem_set e).mp member with rfl | ⟨kept, -⟩
      · exact inside
      · exact sound.below e kept

theorem exchange (sound : SlotsSound slot size m) {e : κ × α} (member : e ∈ m.entries)
    (same : slot v = slot e.2) : SlotsSound slot size ((m.erase e.1).set k v) := by
  have perm := OrderedMap.perm_erase member
  have fewer : (m.erase e.1).entries.length < size := by
    have := perm.length_eq
    rw [List.length_cons] at this
    have := sound.count
    omega
  refine ((sound.erase e.1).set_iff fewer (same ▸ sound.below e member)).mpr fun x held _ equal => ?_
  have distinct := (perm.map fun e => slot e.2).nodup_iff.mp sound.distinct
  exact (List.nodup_cons.mp distinct).1 (List.mem_map.mpr ⟨x, held, equal.trans same⟩)

end SlotsSound

end Socrocket.Base
