/- Socrocket/Common/JsonTree
   digest: The links of the nodes make a tree, kept by every appended node. -/

import Mathlib.Data.List.Basic
import Mathlib.Data.List.Range
import Socrocket.Common.JsonParser

set_option autoImplicit false
set_option relaxedAutoImplicit false

namespace Socrocket.Common.JsonParser

variable {nodes : ℕ → JsonValue} {count : ℕ}

/-- The nodes that name a node as their parent, in the order of their allocation. -/
def children (nodes : ℕ → JsonValue) (count id : ℕ) : List ℕ :=
  (List.range count).filter fun c => (nodes c).parent = some id

def JsonType.IsContainer (type : JsonType) : Prop := type = .object ∨ type = .array

/-- The first node is the root, every other one is a child of an earlier container, and the links
between the children of a node list them in order. -/
structure Tree (nodes : ℕ → JsonValue) (count : ℕ) : Prop where
  root : ∀ c < count, ((nodes c).parent = none ↔ c = 0)
  above : ∀ c < count, ∀ q, (nodes c).parent = some q → q < c
  container : ∀ c < count, ∀ q, (nodes c).parent = some q → (nodes q).type.IsContainer
  firstChild : ∀ id < count, (nodes id).firstChild = (children nodes count id).head?
  lastChild : ∀ id < count, (nodes id).lastChild = (children nodes count id).getLast?
  nextSibling : ∀ c < count, (nodes c).nextSibling =
    (nodes c).parent.bind fun q => (children nodes count q).find? fun d => c < d

/-! ## What appending a node changes -/

section

variable (nodes : ℕ → JsonValue) (lhs rhs c : ℕ)

private theorem lastChild_beside :
    (Function.update nodes rhs { nodes rhs with parent := some lhs } lhs).lastChild =
      (nodes lhs).lastChild := by
  by_cases same : lhs = rhs
  · rw [same, Function.update_self]
  · rw [Function.update_of_ne same]

theorem jsonAppend_parent :
    (jsonAppend nodes lhs rhs c).parent = if c = rhs then some lhs else (nodes c).parent := by
  unfold jsonAppend
  simp only [lastChild_beside]
  cases (nodes lhs).lastChild <;> simp only [Function.update_apply] <;> grind

theorem jsonAppend_firstChild : (jsonAppend nodes lhs rhs c).firstChild =
    if c = lhs ∧ (nodes lhs).lastChild = none then some rhs else (nodes c).firstChild := by
  unfold jsonAppend
  simp only [lastChild_beside]
  cases (nodes lhs).lastChild <;> simp only [Function.update_apply] <;> grind

theorem jsonAppend_lastChild : (jsonAppend nodes lhs rhs c).lastChild =
    if c = lhs then some rhs else (nodes c).lastChild := by
  unfold jsonAppend
  simp only [lastChild_beside]
  cases (nodes lhs).lastChild <;> simp only [Function.update_apply] <;> grind

theorem jsonAppend_nextSibling : (jsonAppend nodes lhs rhs c).nextSibling =
    if (nodes lhs).lastChild = some c then some rhs else (nodes c).nextSibling := by
  unfold jsonAppend
  simp only [lastChild_beside]
  cases (nodes lhs).lastChild <;> simp only [Function.update_apply] <;> grind

theorem jsonAppend_name : (jsonAppend nodes lhs rhs c).name = (nodes c).name := by
  unfold jsonAppend
  cases (Function.update nodes rhs { nodes rhs with parent := some lhs } lhs).lastChild <;>
    simp only [Function.update_apply] <;> grind

theorem jsonAppend_payload : (jsonAppend nodes lhs rhs c).payload = (nodes c).payload := by
  unfold jsonAppend
  cases (Function.update nodes rhs { nodes rhs with parent := some lhs } lhs).lastChild <;>
    simp only [Function.update_apply] <;> grind

theorem jsonAppend_type : (jsonAppend nodes lhs rhs c).type = (nodes c).type := by
  unfold jsonAppend
  cases (Function.update nodes rhs { nodes rhs with parent := some lhs } lhs).lastChild <;>
    simp only [Function.update_apply] <;> grind

end

/-! ## The children of a node -/

theorem mem_children {c id : ℕ} :
    c ∈ children nodes count id ↔ c < count ∧ (nodes c).parent = some id := by
  simp [children]

theorem children_congr {other : ℕ → JsonValue} (same : ∀ c < count, (other c).parent =
    (nodes c).parent) (id : ℕ) : children other count id = children nodes count id := by
  apply List.filter_congr
  intro c inside
  rw [same c (List.mem_range.1 inside)]

theorem children_succ (id : ℕ) : children nodes (count + 1) id =
    children nodes count id ++ if (nodes count).parent = some id then [count] else [] := by
  rw [children, List.range_succ, List.filter_append, ← children]
  by_cases here : (nodes count).parent = some id <;> simp [here]

theorem children_sorted (id : ℕ) : (children nodes count id).Pairwise (· < ·) :=
  List.pairwise_lt_range.filter _

private theorem find_after_eq_none {l : List ℕ} {c : ℕ} (sorted : l.Pairwise (· < ·))
    (inside : c ∈ l) : l.find? (fun d => c < d) = none ↔ l.getLast? = some c := by
  obtain ⟨before, after, rfl⟩ := List.append_of_mem inside
  rw [List.pairwise_append] at sorted
  have front : before.find? (fun d => decide (c < d)) = none := by
    rw [List.find?_eq_none]
    intro d member
    have := sorted.2.2 d member c (List.mem_cons_self ..)
    simp only [decide_eq_true_eq]
    omega
  rw [List.find?_append, front, Option.none_or, List.find?_cons_of_neg (by simp)]
  cases after with
  | nil => simp
  | cons d rest =>
    have later : ∀ e ∈ d :: rest, c < e := (List.pairwise_cons.1 sorted.2.1).1
    rw [List.find?_cons_of_pos (by simpa using later d (List.mem_cons_self ..))]
    simp only [reduceCtorEq, false_iff, List.getLast?_append, List.getLast?_cons_cons]
    intro last
    rw [List.getLast?_eq_some_getLast (List.cons_ne_nil d rest), Option.some_or,
      Option.some.injEq] at last
    exact absurd (later _ (List.getLast_mem (List.cons_ne_nil d rest))) (by omega)

/-- A node behind all others comes after the last of them, and changes nothing for those before. -/
private theorem find_after_concat {l : List ℕ} {c d : ℕ} (sorted : l.Pairwise (· < ·))
    (inside : c ∈ l) (behind : c < d) :
    (l ++ [d]).find? (fun e => c < e) =
      if l.getLast? = some c then some d else l.find? fun e => c < e := by
  rw [List.find?_append, List.find?_cons_of_pos (by simpa using behind)]
  by_cases last : l.getLast? = some c
  · rw [if_pos last, (find_after_eq_none sorted inside).2 last, Option.none_or]
  · rw [if_neg last]
    obtain ⟨e, found⟩ := Option.ne_none_iff_exists'.1 fun missing =>
      last ((find_after_eq_none sorted inside).1 missing)
    rw [found, Option.some_or]

private theorem last_child {c id : ℕ} (last : (children nodes count id).getLast? = some c) :
    c < count ∧ (nodes c).parent = some id :=
  mem_children.1 (List.mem_of_getLast? last)

/-! ## Building the tree -/

private theorem children_fresh (tree : Tree nodes count) : children nodes count count = [] := by
  rw [List.eq_nil_iff_forall_not_mem]
  intro c member
  obtain ⟨inside, below⟩ := mem_children.1 member
  have := tree.above c inside count below
  omega

theorem Tree.first (name : Option ℕ) (payload : Payload) (type : JsonType) :
    Tree (Function.update nodes 0 ⟨none, none, none, none, name, payload, type⟩) 1 := by
  have only : ∀ c < 1, c = 0 := fun c below => by omega
  have none_below (id : ℕ) :
      children (Function.update nodes 0 ⟨none, none, none, none, name, payload, type⟩) 1 id = [] := by
    rw [children_succ, Function.update_self, if_neg (by simp)]
    rfl
  constructor
  case root =>
    intro c below
    cases only c below
    simp
  case above =>
    intro c below q
    cases only c below
    simp
  case container =>
    intro c below q
    cases only c below
    simp
  case firstChild =>
    intro c below
    cases only c below
    simp [none_below]
  case lastChild =>
    intro c below
    cases only c below
    simp [none_below]
  case nextSibling =>
    intro c below
    cases only c below
    simp

/-- A node that is appended to a container keeps the tree. -/
theorem Tree.append (tree : Tree nodes count) {top : ℕ} (inside : top < count)
    (container : (nodes top).type.IsContainer) (name : Option ℕ) (payload : Payload)
    (type : JsonType) :
    Tree (jsonAppend (Function.update nodes count ⟨none, none, none, none, name, payload, type⟩)
      top count) (count + 1) := by
  set fresh : JsonValue := ⟨none, none, none, none, name, payload, type⟩ with hfresh
  have old {c : ℕ} (below : c < count) : Function.update nodes count fresh c = nodes c :=
    Function.update_of_ne (by omega) ..
  have parent_old {c : ℕ} (below : c < count) :
      (jsonAppend (Function.update nodes count fresh) top count c).parent = (nodes c).parent := by
    rw [jsonAppend_parent, if_neg (by omega), old below]
  have parent_new :
      (jsonAppend (Function.update nodes count fresh) top count count).parent = some top := by
    rw [jsonAppend_parent, if_pos rfl]
  have below_of (id : ℕ) :
      children (jsonAppend (Function.update nodes count fresh) top count) (count + 1) id =
        children nodes count id ++ if top = id then [count] else [] := by
    rw [children_succ, parent_new, children_congr fun c below => parent_old below]
    simp only [Option.some.injEq]
  have last_old : (Function.update nodes count fresh top).lastChild =
      (children nodes count top).getLast? := by rw [old inside, tree.lastChild top inside]
  have type_old {c : ℕ} (below : c < count) :
      (jsonAppend (Function.update nodes count fresh) top count c).type = (nodes c).type := by
    rw [jsonAppend_type, old below]
  constructor
  case root =>
    intro c below
    rcases Nat.lt_succ_iff_lt_or_eq.1 below with old | rfl
    · rw [parent_old old, tree.root c old]
    · rw [parent_new]
      simp only [reduceCtorEq, false_iff]
      omega
  case above =>
    intro c below q link
    rcases Nat.lt_succ_iff_lt_or_eq.1 below with old | rfl
    · exact tree.above c old q (parent_old old ▸ link)
    · rw [parent_new, Option.some.injEq] at link
      omega
  case container =>
    intro c below q link
    rcases Nat.lt_succ_iff_lt_or_eq.1 below with old | rfl
    · rw [parent_old old] at link
      have := tree.above c old q link
      rw [type_old (by omega)]
      exact tree.container c old q link
    · rw [parent_new, Option.some.injEq] at link
      rw [← link, type_old inside]
      exact container
  case firstChild =>
    intro id below
    rw [jsonAppend_firstChild, below_of, last_old]
    rcases Nat.lt_succ_iff_lt_or_eq.1 below with earlier | rfl
    · rw [old earlier, tree.firstChild id earlier]
      by_cases here : id = top
      · cases here
        cases children nodes count top <;> simp
      · rw [if_neg (fun h => here h.1), if_neg (Ne.symm here), List.append_nil]
    · rw [if_neg (fun h => by omega), if_neg (by omega), Function.update_self,
        children_fresh tree]
      rfl
  case lastChild =>
    intro id below
    rw [jsonAppend_lastChild, below_of]
    rcases Nat.lt_succ_iff_lt_or_eq.1 below with earlier | rfl
    · rw [old earlier, tree.lastChild id earlier]
      by_cases here : id = top
      · rw [if_pos here, if_pos here.symm, List.getLast?_concat]
      · rw [if_neg here, if_neg (Ne.symm here), List.append_nil]
    · rw [if_neg (by omega), if_neg (by omega), Function.update_self, children_fresh tree]
      rfl
  case nextSibling =>
    intro c below
    rw [jsonAppend_nextSibling, last_old]
    rcases Nat.lt_succ_iff_lt_or_eq.1 below with earlier | rfl
    · rw [old earlier, tree.nextSibling c earlier, parent_old earlier]
      cases link : (nodes c).parent with
      | none =>
        rw [if_neg]
        · rfl
        · intro last
          simpa [link] using (last_child last).2
      | some q =>
        simp only [Option.bind_some, below_of]
        have member : c ∈ children nodes count q := mem_children.2 ⟨earlier, link⟩
        by_cases here : top = q
        · cases here
          rw [if_pos rfl, find_after_concat (children_sorted top) member earlier]
        · rw [if_neg, if_neg here, List.append_nil]
          intro last
          have parent := (last_child last).2
          rw [link, Option.some.injEq] at parent
          exact here parent.symm
    · have behind : ¬ (children nodes c top).getLast? = some c := fun last =>
        Nat.lt_irrefl c (last_child last).1
      rw [if_neg behind, Function.update_self, parent_new, Option.bind_some, below_of, if_pos rfl]
      symm
      rw [hfresh, List.find?_eq_none]
      intro d member
      rw [List.mem_append, List.mem_singleton] at member
      rcases member with member | rfl
      · have := (mem_children.1 member).1
        simp only [decide_eq_true_eq]
        omega
      · simp

end Socrocket.Common.JsonParser
