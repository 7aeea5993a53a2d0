/- Socrocket/Base/Exclusive
   digest: Grants of a shared resource, some of them with a lock, and what a lock excludes. -/

import Mathlib.Data.List.Chain

set_option autoImplicit false
set_option relaxedAutoImplicit false

namespace Socrocket.Base.Exclusive

variable {α : Type}

/-- A grant: who got the resource, and whether locked. -/
abbrev Grant (α : Type) := α × Bool

/-- After a locked grant the same agent is granted next. -/
def Follows (a b : Grant α) : Prop := a.2 = true → b.1 = a.1

/-- Between a locked grant of an agent and its next grant without lock nobody else is granted. -/
def LockExclusive (grants : List (Grant α)) : Prop :=
  ∀ before between after m k lock,
    grants = before ++ (m, true) :: between ++ (k, lock) :: after → k ≠ m → (m, false) ∈ between

private theorem released_of_chain {m k : α} {lock : Bool} {between after : List (Grant α)}
    (chain : ((m, true) :: between ++ (k, lock) :: after).IsChain Follows) (other : k ≠ m) :
    (m, false) ∈ between := by
  induction between with
  | nil =>
    have next : Follows (m, true) (k, lock) := (List.isChain_cons_cons.mp chain).1
    exact absurd (next rfl) other
  | cons b between ih =>
    obtain ⟨next, rest⟩ := List.isChain_cons_cons.mp chain
    obtain ⟨n, held⟩ := b
    obtain rfl : n = m := next rfl
    cases held with
    | false => exact List.mem_cons_self ..
    | true => exact List.mem_cons_of_mem _ (ih rest)

theorem lockExclusive_of_chain {grants : List (Grant α)} (chain : grants.IsChain Follows) :
    LockExclusive grants := by
  intro before between after m k lock split other
  rw [split, List.append_assoc] at chain
  exact released_of_chain chain.right_of_append other

/-- A grant may be appended when the last one was without lock or to the same agent. -/
theorem chain_append {grants : List (Grant α)} {grant : Grant α} (chain : grants.IsChain Follows)
    (last : ∀ a ∈ grants.getLast?, Follows a grant) : (grants ++ [grant]).IsChain Follows :=
  List.isChain_append.mpr ⟨chain, List.isChain_singleton _, fun a member b first => by
    obtain rfl : grant = b := by simpa using first
    exact last a member⟩

end Socrocket.Base.Exclusive
