/- Socrocket/Common/JsonOrder
   digest: The nodes are numbered in preorder, and names lie in the part of the source that was read. -/

import Socrocket.Base.Preorder
import Socrocket.Common.JsonSafety

set_option autoImplicit false
set_option relaxedAutoImplicit false

namespace Socrocket.Common.JsonParser

open Relation (ReflTransGen)
open Socrocket.Base.Preorder

variable {source : List UInt8} {p q : Parser}

/-! ## What a token does to the tree -/

theorem bind_eq_ok {α β : Type} {m : Except Stop α} {f : α → Except Stop β} {b : β}
    (h : m >>= f = .ok b) : ∃ a, m = .ok a ∧ f a = .ok b := by
  cases m with
  | ok a => exact ⟨a, rfl, h⟩
  | error stop => cases h

theorem fail_ne_ok {pos : ℕ} {desc : String} : p.fail pos desc ≠ .ok q := by
  intro failed
  rw [Parser.fail, fail] at failed
  split at failed
  · cases failed
  · cases failed

/-- What a token leaves of the nodes, the open container and the pending name. -/
inductive TokenEffect (p q : Parser) : Prop where
  | skip (nodes : q.nodes = p.nodes) (count : q.count = p.count) (top : q.top = p.top)
    (name : q.name = p.name) : TokenEffect p q
  | named (nodes : q.nodes = p.nodes) (count : q.count = p.count) (top : q.top = p.top)
    (name : q.name = some (p.it + 1)) : TokenEffect p q
  | first (type : JsonType) (container : type.IsContainer) (rootless : p.root = none)
    (nodes : q.nodes =
      Function.update p.nodes p.count ⟨none, none, none, none, p.name, .zero, type⟩)
    (count : q.count = p.count + 1) (top : q.top = some p.count) (name : q.name = none) :
    TokenEffect p q
  | appends (t : ℕ) (type : JsonType) (payload : Payload) (opened : p.top = some t)
    (nodes : q.nodes = (p.append t type payload).nodes) (count : q.count = p.count + 1)
    (top : q.top = some t ∨ q.top = some p.count) (name : q.name = none) : TokenEffect p q
  | closes (t : ℕ) (opened : p.top = some t) (nodes : q.nodes = p.nodes)
    (count : q.count = p.count) (top : q.top = (p.nodes t).parent) (name : q.name = p.name) :
    TokenEffect p q

private theorem checkTop_ok {t : ℕ} (h : p.checkTop = .ok t) : p.top = some t := by
  rw [Parser.checkTop] at h
  cases opened : p.top with
  | none =>
    rw [opened, Parser.fail, fail] at h
    dsimp only at h
    split at h <;> cases h
  | some top =>
    rw [opened] at h
    cases h
    rfl

private theorem openToken_effect {c : UInt8} (h : openToken p c = .ok q) : TokenEffect p q := by
  rw [openToken] at h
  cases opened : p.top with
  | some top =>
    rw [opened] at h
    cases h
    exact .appends top _ _ opened rfl rfl (.inr rfl) rfl
  | none =>
    cases rooted : p.root with
    | some r =>
      rw [opened, rooted] at h
      exact absurd h fail_ne_ok
    | none =>
      rw [opened, rooted] at h
      cases h
      exact .first _ (containerType_isContainer c) rooted rfl rfl rfl rfl

private theorem closeToken_effect {c : UInt8} (h : closeToken p c = .ok q) : TokenEffect p q := by
  rw [closeToken] at h
  cases opened : p.top with
  | none =>
    rw [opened] at h
    exact absurd h fail_ne_ok
  | some top =>
    rw [opened] at h
    dsimp only at h
    split at h
    · exact absurd h fail_ne_ok
    · cases h
      exact .closes top opened rfl rfl rfl rfl

private theorem colonToken_effect (h : colonToken p = .ok q) : TokenEffect p q := by
  rw [colonToken] at h
  split at h
  · exact absurd h fail_ne_ok
  · split at h
    · exact absurd h fail_ne_ok
    · cases h
      exact .skip rfl rfl rfl rfl

private theorem commaToken_effect (h : commaToken p = .ok q) : TokenEffect p q := by
  obtain ⟨top, -, h⟩ := bind_eq_ok h
  cases h
  exact .skip rfl rfl rfl rfl

private theorem stringToken_effect (h : stringToken p = .ok q) : TokenEffect p q := by
  obtain ⟨top, opened, h⟩ := bind_eq_ok h
  obtain ⟨s, -, h⟩ := bind_eq_ok h
  have there := checkTop_ok opened
  dsimp only at h
  split at h
  · cases h
    exact .named rfl rfl rfl rfl
  · cases h
    exact .appends top _ _ there rfl rfl (.inl there) rfl

private theorem keywordToken_effect (h : keywordToken p = .ok q) : TokenEffect p q := by
  obtain ⟨top, opened, h⟩ := bind_eq_ok h
  obtain ⟨isNull, -, h⟩ := bind_eq_ok h
  have there := checkTop_ok opened
  split at h
  · cases h
    exact .appends top _ _ there rfl rfl (.inl there) rfl
  obtain ⟨isTrue, -, h⟩ := bind_eq_ok h
  split at h
  · cases h
    exact .appends top _ _ there rfl rfl (.inl there) rfl
  obtain ⟨isFalse, -, h⟩ := bind_eq_ok h
  split at h
  · cases h
    exact .appends top _ _ there rfl rfl (.inl there) rfl
  · exact absurd h fail_ne_ok

private theorem numberToken_effect (h : numberToken p = .ok q) : TokenEffect p q := by
  obtain ⟨top, opened, h⟩ := bind_eq_ok h
  obtain ⟨⟨it, isFloat⟩, -, h⟩ := bind_eq_ok h
  have there := checkTop_ok opened
  dsimp only at h
  split_ifs at h
  · exact absurd h fail_ne_ok
  · cases h
    exact .appends top _ _ there rfl rfl (.inl there) rfl
  · exact absurd h fail_ne_ok
  · cases h
    exact .appends top _ _ there rfl rfl (.inl there) rfl

theorem token_effect {c : UInt8} (h : token p c = .ok q) : TokenEffect p q := by
  rw [token] at h
  split_ifs at h
  · exact openToken_effect h
  · exact closeToken_effect h
  · exact colonToken_effect h
  · exact commaToken_effect h
  · exact stringToken_effect h
  · exact keywordToken_effect h
  · exact numberToken_effect h
  · exact absurd h fail_ne_ok

theorem iteration_effect (next : Iteration p q) : TokenEffect p q := by
  obtain ⟨r, read, h⟩ := bind_eq_ok next.2
  obtain ⟨it, -, h⟩ := bind_eq_ok h
  cases h
  cases token_effect read with
  | skip nodes count top name => exact .skip nodes count top name
  | named nodes count top name => exact .named nodes count top name
  | first type container rootless nodes count top name =>
    exact .first type container rootless nodes count top name
  | appends t type payload opened nodes count top name =>
    exact .appends t type payload opened nodes count top name
  | closes t opened nodes count top name => exact .closes t opened nodes count top name

/-! ## The order of the nodes -/

/-- The parent links of the nodes. -/
def parentOf (p : Parser) (c : ℕ) : Option ℕ := (p.nodes c).parent

/-- Nodes are numbered in preorder, the open container is the last node or above it, and names start
in the part of the source that was read. -/
structure Parser.Ordered (p : Parser) : Prop where
  numbered : Numbered (parentOf p) p.count
  last : ∀ t, p.top = some t → ∀ c, c + 1 = p.count → Above (parentOf p) t c
  root : 0 < p.count → (p.nodes 0).type.IsContainer
  names : ∀ c < p.count, ∀ first, (p.nodes c).name = some first → first ≤ p.it
  pending : ∀ first, p.name = some first → first ≤ p.it

theorem init_ordered (source : List UInt8) : (Parser.init source).Ordered where
  numbered := ⟨rfl, fun c below => absurd below (Nat.not_lt_zero c),
    fun _ below => absurd below (Nat.not_lt_zero _)⟩
  last := nofun
  root some := absurd some (Nat.lt_irrefl 0)
  names c below := absurd below (Nat.not_lt_zero c)
  pending := nofun

theorem Parser.Ordered.keep (ordered : p.Ordered) (nodes : q.nodes = p.nodes)
    (count : q.count = p.count) (moved : p.it ≤ q.it)
    (top : ∀ t, q.top = some t → ∀ c, c + 1 = p.count → Above (parentOf p) t c)
    (name : ∀ first, q.name = some first → first ≤ q.it) : q.Ordered := by
  have links : parentOf q = parentOf p := by
    funext c
    rw [parentOf, nodes, parentOf]
  constructor
  · rw [links, count]
    exact ordered.numbered
  · rw [links, count]
    exact top
  · rw [nodes, count]
    exact ordered.root
  · intro c below first given
    rw [count] at below
    rw [nodes] at given
    exact (ordered.names c below first given).trans moved
  · exact name

/-- A node that is appended to the open container is the next one. -/
theorem Parser.Ordered.appends (ordered : p.Ordered) (sound : p.Sound source) {t : ℕ}
    {type : JsonType} {payload : Payload} (opened : p.top = some t)
    (nodes : q.nodes = (p.append t type payload).nodes) (count : q.count = p.count + 1)
    (moved : p.it ≤ q.it) (top : q.top = some t ∨ q.top = some p.count) (name : q.name = none) :
    q.Ordered := by
  have inside := (sound.top t opened).1
  have new : parentOf q p.count = some t := by
    rw [parentOf, nodes, Parser.append_nodes, jsonAppend_parent, if_pos rfl]
  have old : ∀ c < p.count, parentOf q c = parentOf p c := by
    intro c below
    rw [parentOf, nodes, Parser.append_nodes, jsonAppend_parent, if_neg below.ne,
      Function.update_of_ne below.ne, parentOf]
  constructor
  · rw [count]
    exact ordered.numbered.append old new inside (ordered.last t opened)
  · intro u there c last
    have here : c = p.count := by omega
    rw [here]
    rcases top with stays | enters
    · rw [stays, Option.some.injEq] at there
      exact there ▸ (Above.refl _ t).child new
    · rw [enters, Option.some.injEq] at there
      exact there ▸ Above.refl _ p.count
  · intro _
    have some : 0 < p.count := Nat.zero_lt_of_lt inside
    rw [nodes, Parser.append_nodes, jsonAppend_type, Function.update_of_ne some.ne]
    exact ordered.root some
  · intro c below first given
    rw [nodes, Parser.append_nodes, jsonAppend_name] at given
    rcases Nat.lt_succ_iff_lt_or_eq.mp (below.trans_eq count) with before | rfl
    · rw [Function.update_of_ne before.ne] at given
      exact (ordered.names c before first given).trans moved
    · rw [Function.update_self] at given
      exact (ordered.pending first given).trans moved
  · intro first given
    rw [name] at given
    cases given

theorem iteration_ordered (ordered : p.Ordered) (sound : p.Sound source) (next : Iteration p q) :
    q.Ordered := by
  have moved := (iteration_advances sound next).moved
  cases iteration_effect next with
  | skip nodes count top name =>
    apply ordered.keep nodes count moved.le
    · rw [top]
      exact ordered.last
    · intro first given
      rw [name] at given
      exact (ordered.pending first given).trans moved.le
  | named nodes count top name =>
    apply ordered.keep nodes count moved.le
    · rw [top]
      exact ordered.last
    · intro first given
      rw [name, Option.some.injEq] at given
      omega
  | first type container rootless nodes count top name =>
    have empty : p.count = 0 := by
      by_contra filled
      have root := sound.root
      rw [if_neg filled, rootless] at root
      cases root
    have only : ∀ c < q.count, c = p.count := by
      intro c below
      omega
    have fresh : parentOf q p.count = none := by rw [parentOf, nodes, Function.update_self]
    constructor
    · refine ⟨empty ▸ fresh, fun c below r link => ?_, fun c below => ?_⟩
      · rw [only c below, fresh] at link
        cases link
      · omega
    · intro t there c last
      rw [top, Option.some.injEq] at there
      have same : t = c := by omega
      exact same ▸ Above.refl _ t
    · intro _
      rw [nodes, empty, Function.update_self]
      exact container
    · intro c below first given
      rw [nodes, only c below, Function.update_self] at given
      exact (ordered.pending first given).trans moved.le
    · intro first given
      rw [name] at given
      cases given
  | appends t type payload opened nodes count top name =>
    exact ordered.appends sound opened nodes count moved.le top name
  | closes t opened nodes count top name =>
    apply ordered.keep nodes count moved.le
    · intro u up c last
      rw [top] at up
      exact ((Above.refl _ u).child up).trans (ordered.last t opened c last)
    · intro first given
      rw [name] at given
      exact (ordered.pending first given).trans moved.le

theorem reached_ordered (reached : Reached source p) : p.Ordered := by
  induction reached with
  | refl => exact init_ordered source
  | tail before next ih => exact iteration_ordered ih (reached_sound before) next

end Socrocket.Common.JsonParser
