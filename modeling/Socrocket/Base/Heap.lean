/- Socrocket/Base/Heap
   digest: Allocation of objects at locations that are never given out again. -/

import Mathlib.Data.List.Basic

set_option autoImplicit false
set_option relaxedAutoImplicit false

namespace Socrocket.Base

/-- The allocated objects, in the order of their allocation. -/
structure Heap (α : Type) where
  objects : List α

namespace Heap

variable {α : Type} {h : Heap α} {l : ℕ} {a b : α}

def empty : Heap α := ⟨[]⟩

/-- A new object and its location. -/
def alloc (h : Heap α) (a : α) : Heap α × ℕ := (⟨h.objects ++ [a]⟩, h.objects.length)

/-- The object at a location. -/
def get? (h : Heap α) (l : ℕ) : Option α := h.objects[l]?

theorem get?_alloc_self (h : Heap α) (a : α) : (h.alloc a).1.get? (h.alloc a).2 = some a :=
  List.getElem?_concat_length

theorem get?_alloc (held : h.get? l = some b) (a : α) : (h.alloc a).1.get? l = some b := by
  have inside : l < h.objects.length := (List.getElem?_eq_some_iff.mp held).1
  exact (List.getElem?_append_left inside).trans held

end Heap

end Socrocket.Base
