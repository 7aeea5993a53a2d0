/- Socrocket/Base/StoreBuffer
   digest: Byte memory behind one buffer of block writes for each agent, and what each agent sees. -/

import Socrocket.Base.ByteMemory

set_option autoImplicit false
set_option relaxedAutoImplicit false

namespace Socrocket.Base.StoreBuffer

open Socrocket.Base.ByteMemory

variable {ι : Type} [DecidableEq ι] {w : ℕ}

/-- A memory, the writes each agent still has under way, and the history: what each agent pushed
and what reached memory. -/
structure Buffers (ι : Type) (w : ℕ) where
  memory : Memory w
  pending : ι → List (BlockWrite w)
  pushed : ι → List (BlockWrite w)
  committed : List (ι × BlockWrite w)

/-- Memory as one agent sees it: with its own writes performed. -/
def view (b : Buffers ι w) (i : ι) : Memory w := applyWrites b.memory (b.pending i)

/-- An agent issues a write. -/
def push (b : Buffers ι w) (i : ι) (write : BlockWrite w) : Buffers ι w :=
  { b with
    pending := Function.update b.pending i (b.pending i ++ [write])
    pushed := Function.update b.pushed i (b.pushed i ++ [write]) }

/-- The oldest write of an agent reaches memory. -/
def commit (b : Buffers ι w) (i : ι) (write : BlockWrite w) (rest : List (BlockWrite w)) :
    Buffers ι w :=
  { b with
    memory := write.apply b.memory
    pending := Function.update b.pending i rest
    committed := b.committed ++ [(i, write)] }

/-- The writes of one agent that reached memory. -/
def committedBy (b : Buffers ι w) (i : ι) : List (BlockWrite w) :=
  (b.committed.filter (·.1 = i)).map Prod.snd

/-- Nothing is lost, doubled or reordered between the agents and memory. -/
structure InOrder (start : Memory w) (b : Buffers ι w) : Prop where
  memory : b.memory = applyWrites start (b.committed.map Prod.snd)
  pushed : ∀ i, b.pushed i = committedBy b i ++ b.pending i

variable {b : Buffers ι w} {i j : ι} {write : BlockWrite w} {rest : List (BlockWrite w)}
  {start : Memory w}

theorem view_push_self : view (push b i write) i = write.apply (view b i) := by
  change applyWrites b.memory (Function.update b.pending i (b.pending i ++ [write]) i) = _
  rw [Function.update_self, applyWrites_append]
  rfl

theorem view_push_other (other : j ≠ i) : view (push b i write) j = view b j := by
  change applyWrites b.memory (Function.update b.pending i (b.pending i ++ [write]) j) = _
  rw [Function.update_of_ne other]
  rfl

/-- The agent that issued a write sees no change when it is performed. -/
theorem view_commit_self (oldest : b.pending i = write :: rest) :
    view (commit b i write rest) i = view b i := by
  change applyWrites (write.apply b.memory) (Function.update b.pending i rest i) = _
  rw [Function.update_self, view, oldest, applyWrites_cons]

/-- Other agents see a change in the range of the write only. -/
theorem view_commit_other (other : j ≠ i) {a : BitVec w} (outside : ¬ InRange write.base write.len a) :
    view (commit b i write rest) j a = view b j a := by
  change applyWrites (write.apply b.memory) (Function.update b.pending i rest j) a = _
  rw [Function.update_of_ne other]
  exact applyWrites_congr _ (writeBytes_of_not_inRange outside)

theorem inOrder_push (order : InOrder start b) : InOrder start (push b i write) where
  memory := order.memory
  pushed k := by
    have before : b.pushed k = committedBy b k ++ b.pending k := order.pushed k
    change Function.update b.pushed i _ k = committedBy b k ++ Function.update b.pending i _ k
    by_cases same : k = i
    · subst same
      rw [Function.update_self, Function.update_self, before, List.append_assoc]
    · rw [Function.update_of_ne same, Function.update_of_ne same, before]

theorem inOrder_commit (order : InOrder start b) (oldest : b.pending i = write :: rest) :
    InOrder start (commit b i write rest) where
  memory := by
    change write.apply b.memory = applyWrites start ((b.committed ++ [(i, write)]).map Prod.snd)
    rw [List.map_append, applyWrites_append, ← order.memory]
    rfl
  pushed k := by
    have before := order.pushed k
    change b.pushed k = ((b.committed ++ [(i, write)]).filter (·.1 = k)).map Prod.snd ++
      Function.update b.pending i rest k
    rw [before, List.filter_append, List.map_append]
    by_cases same : k = i
    · subst same
      rw [Function.update_self, oldest, List.append_assoc]
      simp [committedBy]
    · rw [Function.update_of_ne same]
      simp [committedBy, Ne.symm same]

theorem InOrder.drained (order : InOrder start b) (empty : b.pending i = []) :
    b.pushed i = committedBy b i := by
  rw [order.pushed i, empty, List.append_nil]

omit [DecidableEq ι] in
/-- An agent with nothing under way sees memory. -/
theorem view_drained (empty : b.pending i = []) : view b i = b.memory := by
  rw [view, empty, applyWrites_nil]

end Socrocket.Base.StoreBuffer
