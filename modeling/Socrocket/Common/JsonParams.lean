/- Socrocket/Common/JsonParams
   digest: The list of configuration parameters with their paths, for every tree that is parsed. -/

import Socrocket.Common.JsonOrder
import Socrocket.Common.JsonText

set_option autoImplicit false
set_option relaxedAutoImplicit false

namespace Socrocket.Common.JsonParser

open Relation (ReflTransGen)
open Socrocket.Base.Preorder

/-! ## The functions -/

/-- How the list is not built. -/
inductive Fault where
  /-- A string is made of the name of a node that has none. -/
  | missingName (id : ℕ)
  /-- The parent of a node that has none is looked at. -/
  | missingParent (id : ℕ)
  | outside (pos : ℕ)
  /-- A call that was given too few steps. -/
  | unfinished
  deriving DecidableEq

/-- The bytes up to the terminating one. -/
def cString (cell : ℕ → UInt8) (size : ℕ) : ℕ → ℕ → Except Fault (List UInt8)
  | 0, _ => .error .unfinished
  | fuel + 1, pos =>
    if pos ≤ size then
      if cell pos = 0 then .ok [] else return cell pos :: (← cString cell size fuel (pos + 1))
    else .error (.outside pos)

def nameOf (p : Parser) (id : ℕ) : Except Fault (List UInt8) :=
  match (p.nodes id).name with
  | none => .error (.missingName id)
  | some first => cString p.cell p.size (p.size + 1) first

/-- From the node upwards, with the path so far behind. -/
def getValuePath (p : Parser) : ℕ → ℕ → List UInt8 → Except Fault (List UInt8)
  | 0, _, _ => .error .unfinished
  | fuel + 1, temp, path =>
    match (p.nodes temp).parent with
    | none => .ok path
    | some parent => do getValuePath p fuel parent ((← nameOf p temp) ++ 0x2E :: path)

/-- The key of a leaf: the path of its parent and its own name. -/
def valueKey (p : Parser) (value : ℕ) : Except Fault (List UInt8) :=
  match (p.nodes value).parent with
  | none => .error (.missingParent value)
  | some parent => return (← getValuePath p p.count parent []) ++ (← nameOf p value)

/-- An element of `m_jsonValues`: a key and a node. -/
abbrev Param := List UInt8 × ℕ

mutual

def createParamsList (p : Parser) : ℕ → ℕ → List Param → Except Fault (List Param)
  | 0, _, _ => .error .unfinished
  | fuel + 1, value, list =>
    match (p.nodes value).type with
    | .null => .ok list
    | .object | .array => createParamsLoop p fuel (p.nodes value).firstChild list
    | .string | .int | .float | .bool => return list ++ [(← valueKey p value, value)]

/-- The loop over the children, from one sibling to the next. -/
def createParamsLoop (p : Parser) : ℕ → Option ℕ → List Param → Except Fault (List Param)
  | _, none, list => .ok list
  | 0, some _, _ => .error .unfinished
  | fuel + 1, some it, list => do
    createParamsLoop p fuel (p.nodes it).nextSibling (← createParamsList p fuel it list)

end

/-- The call for the root, with as many steps as nested calls there may be. -/
def createParams (p : Parser) (root : ℕ) : Except Fault (List Param) :=
  createParamsList p (2 * p.count) root []

/-! ## What the list is to be -/

def JsonType.IsLeaf : JsonType → Bool
  | .string | .int | .float | .bool => true
  | .null | .object | .array => false

/-- The leaves in the order of the document. -/
def leaves (p : Parser) : List ℕ := (List.range p.count).filter fun id => (p.nodes id).type.IsLeaf

/-- The nodes on the way from the child of the root down to a node. -/
inductive Path (p : Parser) : ℕ → List ℕ → Prop where
  | root {id : ℕ} (top : (p.nodes id).parent = none) : Path p id []
  | child {id parent : ℕ} {path : List ℕ} (link : (p.nodes id).parent = some parent)
    (above : Path p parent path) : Path p id (path ++ [id])

/-- A node has a name. -/
def Spelled (p : Parser) (id : ℕ) (name : List UInt8) : Prop :=
  ∃ first, (p.nodes id).name = some first ∧ CString p.cell first name

/-- Nodes have these names. -/
def Spells (p : Parser) : List ℕ → List (List UInt8) → Prop := List.Forall₂ (Spelled p)

def dotJoined (names : List (List UInt8)) : List UInt8 := [0x2E].intercalate names

/-- One entry for each leaf in the order of the document, with the joined names on the way to it as
its key, and different names without dots give different keys. -/
structure ListsLeaves (p : Parser) (list : List Param) : Prop where
  nodes : list.map Prod.snd = leaves p
  keys : ∀ e ∈ list, ∃ path names, Path p e.2 path ∧ Spells p path names ∧ e.1 = dotJoined names
  distinct : ∀ e ∈ list, ∀ f ∈ list, ∀ path path' names names',
    Path p e.2 path → Path p f.2 path' → Spells p path names → Spells p path' names' →
      (∀ name ∈ names, 0x2E ∉ name) → (∀ name ∈ names', 0x2E ∉ name) → names ≠ names' → e.1 ≠ f.1

/-- Every node on the way to a leaf has a name. -/
def LeavesNamed (p : Parser) : Prop :=
  ∀ id ∈ leaves p, ∀ path, Path p id path → ∀ c ∈ path, (p.nodes c).name ≠ none

/-! ## The links as intervals -/

variable {source : List UInt8} {p : Parser} {c e q v : ℕ}

theorem firstChild_spans (ordered : p.Ordered) (tree : Tree p.nodes p.count)
    (spans : Spans (parentOf p) p.count v e) :
    (p.nodes v).firstChild = if v + 1 < e then some (v + 1) else none := by
  have inside : v < p.count := spans.begun.trans_le spans.within
  rw [tree.firstChild v inside]
  have low : ∀ d ∈ children p.nodes p.count v, v + 1 ≤ d ∧ d < e := by
    intro d member
    obtain ⟨below, link⟩ := mem_children.mp member
    exact ordered.numbered.child_inside spans below link
  split
  · rename_i further
    have first : v + 1 ∈ children p.nodes p.count v :=
      mem_children.mpr ⟨further.trans_le spans.within, ordered.numbered.first_child spans further⟩
    have sorted : (children p.nodes p.count v).Pairwise (· < ·) := children_sorted v
    cases split : children p.nodes p.count v with
    | nil =>
      rw [split] at first
      cases first
    | cons d rest =>
      rw [split, List.pairwise_cons] at sorted
      have least := (low d (split ▸ List.mem_cons_self ..)).1
      rw [split, List.mem_cons] at first
      rcases first with same | later
      · rw [same, List.head?_cons]
      · have := sorted.1 _ later
        omega
  · rename_i leaf
    rw [List.head?_eq_none_iff, List.eq_nil_iff_forall_not_mem]
    intro d member
    have := low d member
    omega

theorem nextSibling_spans (ordered : p.Ordered) (tree : Tree p.nodes p.count)
    (spans : Spans (parentOf p) p.count q e) (inside : c < p.count)
    (link : (p.nodes c).parent = some q) :
    ∃ d, Spans (parentOf p) p.count c d ∧ d ≤ e ∧
      ((p.nodes c).nextSibling = none ∧ d = e ∨
        (p.nodes c).nextSibling = some d ∧ (p.nodes d).parent = some q ∧ d < e) := by
  have numbered := ordered.numbered
  have sorted : (children p.nodes p.count q).Pairwise (· < ·) := children_sorted q
  have below := (numbered.child_inside spans inside link).2
  have next := tree.nextSibling c inside
  rw [link, Option.bind_some] at next
  cases found : (children p.nodes p.count q).find? (fun d => c < d) with
  | none =>
    rw [List.find?_eq_none] at found
    refine ⟨e, numbered.spans_child spans inside link below le_rfl ?_ (.inl rfl), le_rfl, ?_⟩
    · intro x after before there
      have member := mem_children.mpr ⟨before.trans_le spans.within, there⟩
      exact found x member (decide_eq_true after)
    · exact .inl ⟨next.trans (List.find?_eq_none.mpr found), rfl⟩
  | some d =>
    obtain ⟨later, front, back, split, none_before⟩ := List.find?_eq_some_iff_append.mp found
    have member : d ∈ children p.nodes p.count q := List.mem_of_find?_eq_some found
    obtain ⟨inside_d, link_d⟩ := mem_children.mp member
    have below_d := (numbered.child_inside spans inside_d link_d).2
    refine ⟨d, numbered.spans_child spans inside link (of_decide_eq_true later) below_d.le ?_
      (.inr link_d), below_d.le, .inr ⟨next.trans found, link_d, below_d⟩⟩
    intro x after before there
    have among := mem_children.mpr ⟨before.trans inside_d, there⟩
    rw [split, List.mem_append, List.mem_cons] at among
    rcases among with early | same | late
    · have := none_before x early
      simp [after] at this
    · omega
    · rw [split, List.pairwise_append, List.pairwise_cons] at sorted
      have := sorted.2.1.1 x late
      omega

/-! ## The order of the calls -/

/-- What the call for a node itself does. -/
def addParam (p : Parser) (list : List Param) (id : ℕ) : Except Fault (List Param) :=
  if (p.nodes id).type.IsLeaf then return list ++ [(← valueKey p id, id)] else return list

theorem spans_childless (ordered : p.Ordered) (tree : Tree p.nodes p.count)
    (spans : Spans (parentOf p) p.count v e) (plain : ¬ (p.nodes v).type.IsContainer) :
    e = v + 1 := by
  by_contra more
  have further : v + 1 < e := by
    have := spans.begun
    omega
  have link := ordered.numbered.first_child spans further
  exact plain (tree.container (v + 1) (further.trans_le spans.within) v link)

theorem createParamsLoop_none (p : Parser) (fuel : ℕ) (list : List Param) :
    createParamsLoop p fuel none list = .ok list := by
  cases fuel <;> rw [createParamsLoop]

theorem createParamsList_succ (ordered : p.Ordered) (tree : Tree p.nodes p.count)
    (spans : Spans (parentOf p) p.count v e) (fuel : ℕ) (list : List Param) :
    createParamsList p (fuel + 1) v list =
      addParam p list v >>= createParamsLoop p fuel (if v + 1 < e then some (v + 1) else none) := by
  have childless (plain : ¬ (p.nodes v).type.IsContainer) :
      (if v + 1 < e then some (v + 1) else none) = none :=
    if_neg (by rw [spans_childless ordered tree spans plain]; exact Nat.lt_irrefl _)
  have first := firstChild_spans ordered tree spans
  rw [createParamsList, addParam]
  cases type : (p.nodes v).type with
  | null =>
    rw [childless (by rw [type]; rintro (same | same) <;> cases same)]
    exact (createParamsLoop_none p fuel list).symm
  | object | array =>
    dsimp only
    rw [first]
    rfl
  | string | int | float | bool =>
    rw [childless (by rw [type]; rintro (same | same) <;> cases same)]
    cases valueKey p v with
    | error fault => rfl
    | ok key => exact (createParamsLoop_none p fuel _).symm

/-- The calls follow the numbers of the nodes. -/
theorem createParams_order (ordered : p.Ordered) (tree : Tree p.nodes p.count) (n : ℕ) :
    (∀ v e fuel list, Spans (parentOf p) p.count v e → e - v ≤ n → 2 * (e - v) ≤ fuel →
      createParamsList p fuel v list = (List.range' v (e - v)).foldlM (addParam p) list) ∧
    (∀ c q e fuel list, Spans (parentOf p) p.count q e → c < p.count →
      (p.nodes c).parent = some q → e - c ≤ n → 2 * (e - c) + 1 ≤ fuel →
      createParamsLoop p fuel (some c) list = (List.range' c (e - c)).foldlM (addParam p) list) := by
  induction n with
  | zero =>
    constructor
    · intro v e fuel list spans short
      have := spans.begun
      omega
    · intro c q e fuel list spans inside link short
      have := (ordered.numbered.child_inside spans inside link).2
      omega
  | succ n ih =>
    have lists : ∀ v e fuel list, Spans (parentOf p) p.count v e → e - v ≤ n + 1 →
        2 * (e - v) ≤ fuel →
        createParamsList p fuel v list = (List.range' v (e - v)).foldlM (addParam p) list := by
      intro v e fuel list spans short enough
      have begun := spans.begun
      obtain ⟨fuel, rfl⟩ := Nat.exists_eq_succ_of_ne_zero (by omega : fuel ≠ 0)
      have size : e - v = (e - (v + 1)) + 1 := by omega
      rw [createParamsList_succ ordered tree spans, size, List.range'_succ, List.foldlM_cons]
      congr 1
      funext list'
      split
      · rename_i further
        have inside : v + 1 < p.count := further.trans_le spans.within
        exact ih.2 (v + 1) v e fuel list' spans inside (ordered.numbered.first_child spans further)
          (by omega) (by omega)
      · have none_left : e - (v + 1) = 0 := by omega
        rw [none_left, createParamsLoop_none]
        rfl
    refine ⟨lists, ?_⟩
    intro c q e fuel list spans inside link short enough
    obtain ⟨fuel, rfl⟩ := Nat.exists_eq_succ_of_ne_zero (by omega : fuel ≠ 0)
    obtain ⟨d, spans_c, most, next⟩ := nextSibling_spans ordered tree spans inside link
    have begun := spans_c.begun
    have split : List.range' c (e - c) = List.range' c (d - c) ++ List.range' d (e - d) := by
      have reach : d = c + (d - c) := by omega
      have total : e - c = (d - c) + (e - d) := by omega
      rw [total, ← List.range'_append_1, ← reach]
    rw [createParamsLoop, lists c d fuel list spans_c (by omega) (by omega), split,
      List.foldlM_append]
    congr 1
    funext list'
    rcases next with ⟨last, same⟩ | ⟨sibling, link_d, before⟩
    · rw [last, same, Nat.sub_self, createParamsLoop_none]
      rfl
    · rw [sibling]
      exact ih.2 d q e fuel list' spans (before.trans_le spans.within) link_d (by omega) (by omega)

/-! ## Names -/

theorem CString.unique {cell : ℕ → UInt8} {pos : ℕ} {a b : List UInt8} (first : CString cell pos a)
    (second : CString cell pos b) : a = b := by
  induction a generalizing pos b with
  | nil =>
    cases b with
    | nil => rfl
    | cons c b => exact absurd (second.1.symm.trans first) second.2.1
  | cons c a ih =>
    cases b with
    | nil => exact absurd (first.1.symm.trans second) first.2.1
    | cons d b => rw [← first.1, ← second.1, ih first.2.2 second.2.2]

theorem cString_ok {cell : ℕ → UInt8} {size pos fuel : ℕ} (ended : cell size = 0)
    (inside : pos ≤ size) (enough : size < pos + fuel) :
    ∃ bytes, cString cell size fuel pos = .ok bytes ∧ CString cell pos bytes := by
  induction fuel generalizing pos with
  | zero => omega
  | succ fuel ih =>
    rw [cString, if_pos inside]
    split
    · rename_i zero
      exact ⟨[], rfl, zero⟩
    · rename_i nonzero
      have before : pos < size := by
        rcases Nat.lt_or_eq_of_le inside with before | rfl
        · exact before
        · exact absurd ended nonzero
      obtain ⟨bytes, read, string⟩ := ih before (by omega)
      exact ⟨cell pos :: bytes, by rw [read]; rfl, rfl, nonzero, string⟩

theorem nameOf_ok (sound : p.Sound source) (ordered : p.Ordered) (inside : c < p.count)
    (named : (p.nodes c).name ≠ none) : ∃ name, nameOf p c = .ok name ∧ Spelled p c name := by
  obtain ⟨first, given⟩ := Option.ne_none_iff_exists'.mp named
  have ended : p.cell p.size = 0 := by
    rw [sound.text _ (sound.size ▸ sound.within), sound.size, List.getD_eq_default _ _ le_rfl]
  have early : first ≤ p.size :=
    (ordered.names c inside first given).trans (sound.size ▸ sound.within)
  have found : ∃ name, cString p.cell p.size (p.size + 1) first = .ok name ∧
      CString p.cell first name := cString_ok ended early (by omega)
  obtain ⟨name, read, string⟩ := found
  refine ⟨name, ?_, first, given, string⟩
  rw [nameOf, given]
  exact read

theorem nameOf_missing (unnamed : (p.nodes c).name = none) :
    nameOf p c = .error (.missingName c) := by
  rw [nameOf, unnamed]

theorem Spelled.unique {name name' : List UInt8} (first : Spelled p c name)
    (second : Spelled p c name') : name = name' := by
  obtain ⟨pos, given, string⟩ := first
  obtain ⟨pos', given', string'⟩ := second
  rw [given, Option.some.injEq] at given'
  subst given'
  exact string.unique string'

theorem Spells.unique {path : List ℕ} {names names' : List (List UInt8)}
    (first : Spells p path names) (second : Spells p path names') : names = names' := by
  induction first generalizing names' with
  | nil =>
    cases second
    rfl
  | cons spelled rest ih =>
    cases second with
    | cons spelled' rest' => rw [spelled.unique spelled', ih rest']

/-! ## Paths -/

theorem Path.unique {path path' : List ℕ} (first : Path p c path) (second : Path p c path') :
    path = path' := by
  induction first generalizing path' with
  | root top =>
    cases second with
    | root => rfl
    | child link above =>
      rw [top] at link
      cases link
  | child link above ih =>
    cases second with
    | root top =>
      rw [top] at link
      cases link
    | child link' above' =>
      rw [link, Option.some.injEq] at link'
      subst link'
      rw [ih above']

theorem exists_path (tree : Tree p.nodes p.count) (inside : c < p.count) :
    ∃ path, Path p c path ∧ path.length ≤ c ∧ ∀ x ∈ path, x < p.count := by
  induction c using Nat.strongRecOn with
  | ind c ih =>
    cases link : (p.nodes c).parent with
    | none => exact ⟨[], .root link, Nat.zero_le c, by simp⟩
    | some q =>
      have less := tree.above c inside q link
      obtain ⟨path, above, short, within⟩ := ih q less (less.trans inside)
      refine ⟨path ++ [c], .child link above, ?_, ?_⟩
      · rw [List.length_append, List.length_singleton]
        omega
      · rw [List.forall_mem_append, List.forall_mem_singleton]
        exact ⟨within, inside⟩

theorem dotJoined_append (names : List (List UInt8)) (name : List UInt8) :
    dotJoined (names ++ [name]) = names.flatMap (· ++ [0x2E]) ++ name := by
  induction names with
  | nil => rw [List.nil_append, dotJoined, List.intercalate_singleton, List.flatMap_nil,
      List.nil_append]
  | cons head names ih =>
    rw [List.cons_append, dotJoined, List.intercalate_cons_of_ne_nil (by simp), ← dotJoined, ih,
      List.flatMap_cons, List.append_assoc, List.append_assoc, List.append_assoc]

/-- Joined names without dots can be told apart. -/
theorem dotJoined_injective {names names' : List (List UInt8)} (some : names ≠ [])
    (some' : names' ≠ []) (dotless : ∀ name ∈ names, 0x2E ∉ name)
    (dotless' : ∀ name ∈ names', 0x2E ∉ name) (same : dotJoined names = dotJoined names') :
    names = names' := by
  rw [← List.splitOn_intercalate 0x2E dotless some, ← List.splitOn_intercalate 0x2E dotless' some']
  exact congrArg _ same

theorem getValuePath_cases (sound : p.Sound source) (ordered : p.Ordered) {temp : ℕ} {path : List ℕ}
    (way : Path p temp path) (within : ∀ x ∈ path, x < p.count) (fuel : ℕ) (short : path.length < fuel)
    (behind : List UInt8) :
    (∃ names, Spells p path names ∧
      getValuePath p fuel temp behind = .ok (names.flatMap (· ++ [0x2E]) ++ behind)) ∨
    (∃ x ∈ path, (p.nodes x).name = none ∧
      getValuePath p fuel temp behind = .error (.missingName x)) := by
  induction way generalizing fuel behind with
  | root top =>
    obtain ⟨fuel, rfl⟩ := Nat.exists_eq_succ_of_ne_zero (by omega : fuel ≠ 0)
    refine .inl ⟨[], .nil, ?_⟩
    rw [getValuePath, top]
    rfl
  | @child id parent path link above ih =>
    obtain ⟨fuel, rfl⟩ := Nat.exists_eq_succ_of_ne_zero (by omega : fuel ≠ 0)
    rw [List.length_append, List.length_singleton] at short
    rw [List.forall_mem_append, List.forall_mem_singleton] at within
    rw [getValuePath, link]
    dsimp only
    by_cases named : (p.nodes id).name = none
    · refine .inr ⟨id, List.mem_append_right _ (List.mem_singleton_self id), named, ?_⟩
      rw [nameOf_missing named]
      rfl
    · obtain ⟨name, read, spelled⟩ := nameOf_ok sound ordered within.2 named
      rw [read]
      change (∃ names, Spells p (path ++ [id]) names ∧
        getValuePath p fuel parent (name ++ 0x2E :: behind) = _) ∨
          ∃ x ∈ path ++ [id], _ ∧ getValuePath p fuel parent (name ++ 0x2E :: behind) = _
      rcases ih within.1 fuel (by omega) (name ++ 0x2E :: behind) with
        ⟨names, spells, found⟩ | ⟨x, member, unnamed, fails⟩
      · refine .inl ⟨names ++ [name], ?_, ?_⟩
        · exact List.rel_append spells (.cons spelled .nil)
        · rw [found, List.flatMap_append]
          simp
      · exact .inr ⟨x, List.mem_append_left _ member, unnamed, fails⟩

theorem valueKey_cases (sound : p.Sound source) (ordered : p.Ordered) {id : ℕ}
    (leaf : id ∈ leaves p) {path : List ℕ} (way : Path p id path) :
    path ≠ [] ∧ ((∃ names, Spells p path names ∧ valueKey p id = .ok (dotJoined names)) ∨
      (∃ x ∈ path, (p.nodes x).name = none ∧ valueKey p id = .error (.missingName x))) := by
  rw [leaves, List.mem_filter, List.mem_range] at leaf
  obtain ⟨inside, kind⟩ := leaf
  cases way with
  | root top =>
    rw [(sound.tree.root id inside).mp top] at kind inside
    rcases ordered.root inside with same | same
    · rw [same] at kind
      cases kind
    · rw [same] at kind
      cases kind
  | @child _ parent path link above =>
    refine ⟨by simp, ?_⟩
    have less := sound.tree.above id inside parent link
    have there := exists_path sound.tree (less.trans inside)
    obtain ⟨path', above', short, within⟩ := there
    rw [← above.unique above'] at short within
    rw [valueKey, link]
    dsimp only
    rcases getValuePath_cases sound ordered above within p.count (by omega) [] with
      ⟨names, spells, found⟩ | ⟨x, member, unnamed, fails⟩
    · rw [found, List.append_nil]
      by_cases named : (p.nodes id).name = none
      · refine .inr ⟨id, List.mem_append_right _ (List.mem_singleton_self id), named, ?_⟩
        rw [nameOf_missing named]
        rfl
      · obtain ⟨name, read, spelled⟩ := nameOf_ok sound ordered inside named
        refine .inl ⟨names ++ [name], List.rel_append spells (.cons spelled .nil), ?_⟩
        rw [read, dotJoined_append]
        rfl
    · refine .inr ⟨x, List.mem_append_left _ member, unnamed, ?_⟩
      rw [fails]
      rfl

/-! ## The list -/

theorem foldlM_addParam_ok (ids : List ℕ) (list : List Param)
    (keys : ∀ id ∈ ids, (p.nodes id).type.IsLeaf → ∃ key, valueKey p id = .ok key) :
    ∃ params, ids.foldlM (addParam p) list = .ok (list ++ params) ∧
      List.Forall₂ (fun id e => e.2 = id ∧ valueKey p id = .ok e.1)
        (ids.filter fun id => (p.nodes id).type.IsLeaf) params := by
  induction ids generalizing list with
  | nil => exact ⟨[], by rw [List.append_nil]; rfl, .nil⟩
  | cons id ids ih =>
    have rest := fun id member => keys id (List.mem_cons_of_mem _ member)
    rw [List.foldlM_cons, addParam]
    by_cases leaf : (p.nodes id).type.IsLeaf = true
    · obtain ⟨key, found⟩ := keys id (List.mem_cons_self ..) leaf
      obtain ⟨params, added, matched⟩ := ih (list ++ [(key, id)]) rest
      refine ⟨(key, id) :: params, ?_, ?_⟩
      · rw [if_pos leaf, found]
        change ids.foldlM (addParam p) (list ++ [(key, id)]) = _
        rw [added, List.append_assoc]
        rfl
      · rw [List.filter_cons, if_pos leaf]
        exact .cons ⟨rfl, found⟩ matched
    · obtain ⟨params, added, matched⟩ := ih list rest
      refine ⟨params, ?_, ?_⟩
      · rw [if_neg leaf]
        exact added
      · rw [List.filter_cons, if_neg leaf]
        exact matched

theorem foldlM_addParam_error (ids : List ℕ) (list : List Param)
    (keys : ∀ id ∈ ids, (p.nodes id).type.IsLeaf →
      (∃ key, valueKey p id = .ok key) ∨ ∃ x, valueKey p id = .error (.missingName x))
    (missing : ∃ id ∈ ids, (p.nodes id).type.IsLeaf = true ∧
      ∃ x, valueKey p id = .error (.missingName x)) :
    ∃ x, ids.foldlM (addParam p) list = .error (.missingName x) := by
  induction ids generalizing list with
  | nil =>
    obtain ⟨id, member, -⟩ := missing
    cases member
  | cons id ids ih =>
    have rest := fun id member => keys id (List.mem_cons_of_mem _ member)
    obtain ⟨bad, member, leaf, x, fails⟩ := missing
    rw [List.foldlM_cons, addParam]
    by_cases kind : (p.nodes id).type.IsLeaf = true
    · rw [if_pos kind]
      rcases keys id (List.mem_cons_self ..) kind with ⟨key, found⟩ | ⟨y, wrong⟩
      · have later : bad ∈ ids := by
          rcases List.mem_cons.mp member with rfl | later
          · rw [found] at fails
            cases fails
          · exact later
        rw [found]
        exact ih (list ++ [(key, id)]) rest ⟨bad, later, leaf, x, fails⟩
      · rw [wrong]
        exact ⟨y, rfl⟩
    · rw [if_neg kind]
      have later : bad ∈ ids := by
        rcases List.mem_cons.mp member with rfl | later
        · exact absurd leaf kind
        · exact later
      exact ih list rest ⟨bad, later, leaf, x, fails⟩

theorem reached_of_parseLoop {r : Parser} (fuel : ℕ) (before : Reached source r)
    (parsed : parseLoop fuel r = .ok p) : Reached source p := by
  induction fuel generalizing r with
  | zero => cases parsed
  | succ fuel ih =>
    have sound := reached_sound before
    have within : r.it ≤ r.size := sound.size ▸ sound.within
    by_cases ended : r.cell r.it = 0
    · rw [parseLoop_end fuel within ended] at parsed
      cases parsed
      exact before
    · rw [parseLoop_step fuel within ended] at parsed
      obtain ⟨t, next, rest⟩ := bind_eq_ok parsed
      exact ih (before.tail ⟨ended, next⟩) rest

theorem reached_of_jsonParse (parsed : jsonParse source = .ok p) : Reached source p := by
  obtain ⟨q, looped, h⟩ := bind_eq_ok parsed
  have reached := reached_of_parseLoop _ .refl looped
  split at h
  · exact absurd h fail_ne_ok
  · cases h
    exact reached

theorem createParams_eq {root : ℕ} (sound : p.Sound source) (ordered : p.Ordered)
    (rooted : p.root = some root) :
    createParams p root = (List.range p.count).foldlM (addParam p) [] := by
  have filled : 0 < p.count ∧ root = 0 := by
    have same := sound.root
    rw [rooted] at same
    split at same
    · cases same
    · exact ⟨by omega, Option.some.inj same⟩
  obtain ⟨filled, rfl⟩ := filled
  have spans := ordered.numbered.spans_root filled
  have order := (createParams_order ordered sound.tree p.count).1 0 p.count (2 * p.count) [] spans
    (by omega) (by omega)
  rw [createParams, order, Nat.sub_zero, List.range_eq_range']

theorem entries_of_forall₂ {ids : List ℕ} {params : List Param}
    (matched : List.Forall₂ (fun id e => e.2 = id ∧ valueKey p id = .ok e.1) ids params) :
    params.map Prod.snd = ids ∧ ∀ e ∈ params, valueKey p e.2 = .ok e.1 := by
  induction matched with
  | nil => exact ⟨rfl, by simp⟩
  | cons here _ ih =>
    rw [List.map_cons, here.1, ih.1, List.forall_mem_cons, here.1]
    exact ⟨rfl, here.2, ih.2⟩

theorem listsLeaves_of_forall₂ (sound : p.Sound source) (ordered : p.Ordered) {params : List Param}
    (matched : List.Forall₂ (fun id e => e.2 = id ∧ valueKey p id = .ok e.1) (leaves p) params) :
    ListsLeaves p params := by
  obtain ⟨nodes, keys⟩ := entries_of_forall₂ matched
  -- Whatever way and names an entry has, its key is made of them.
  have spelled : ∀ e ∈ params, ∀ path, Path p e.2 path → path ≠ [] ∧
      ∃ names, Spells p path names ∧ e.1 = dotJoined names := by
    intro e member path way
    have leaf : e.2 ∈ leaves p := nodes ▸ List.mem_map_of_mem member
    have key := keys e member
    obtain ⟨some, ⟨names, spells, found⟩ | ⟨x, -, -, fails⟩⟩ := valueKey_cases sound ordered leaf way
    · rw [key, Except.ok.injEq] at found
      exact ⟨some, names, spells, found⟩
    · rw [key] at fails
      cases fails
  refine ⟨nodes, fun e member => ?_, ?_⟩
  · have inside : e.2 ∈ leaves p := nodes ▸ List.mem_map_of_mem member
    rw [leaves, List.mem_filter, List.mem_range] at inside
    obtain ⟨path, way, -⟩ := exists_path sound.tree inside.1
    obtain ⟨-, names, spells, key⟩ := spelled e member path way
    exact ⟨path, names, way, spells, key⟩
  · intro e first f second path path' names names' way way' spells spells' dotless dotless' apart same
    obtain ⟨some, n, spells_e, key⟩ := spelled e first path way
    obtain ⟨some', n', spells_f, key'⟩ := spelled f second path' way'
    rw [spells_e.unique spells] at key
    rw [spells_f.unique spells'] at key'
    have filled {way : List ℕ} {names : List (List UInt8)} (some : way ≠ [])
        (spells : Spells p way names) : names ≠ [] := by
      rintro rfl
      cases spells
      exact some rfl
    exact apart (dotJoined_injective (filled some spells) (filled some' spells') dotless dotless'
      (key.symm.trans (same.trans key')))

/-- For every tree that is parsed the calls end, and the list has one entry for each leaf in the order
of the document with its path as the key exactly when every node on the way to a leaf has a name. -/
theorem create_params_list_iff {root : ℕ} (parsed : jsonParse source = .ok p)
    (rooted : p.root = some root) :
    createParams p root ≠ .error .unfinished ∧
      ((∃ list, createParams p root = .ok list ∧ ListsLeaves p list) ↔ LeavesNamed p) := by
  have reached := reached_of_jsonParse parsed
  have sound := reached_sound reached
  have ordered := reached_ordered reached
  rw [createParams_eq sound ordered rooted]
  have mem_leaves {id : ℕ} : id ∈ leaves p ↔ id ∈ List.range p.count ∧ (p.nodes id).type.IsLeaf := by
    rw [leaves, List.mem_filter]
  have way {id : ℕ} (leaf : id ∈ leaves p) : ∃ path, Path p id path := by
    obtain ⟨path, way, -⟩ := exists_path sound.tree (List.mem_range.mp (mem_leaves.mp leaf).1)
    exact ⟨path, way⟩
  by_cases named : LeavesNamed p
  · have keys : ∀ id ∈ List.range p.count, (p.nodes id).type.IsLeaf →
        ∃ key, valueKey p id = .ok key := by
      intro id inside kind
      have leaf := mem_leaves.mpr ⟨inside, kind⟩
      obtain ⟨path, way⟩ := way leaf
      obtain ⟨-, ⟨names, -, found⟩ | ⟨x, member, unnamed, -⟩⟩ :=
        valueKey_cases sound ordered leaf way
      · exact ⟨_, found⟩
      · exact absurd unnamed (named id leaf path way x member)
    obtain ⟨params, added, matched⟩ := foldlM_addParam_ok _ [] keys
    rw [added, List.nil_append]
    exact ⟨nofun, iff_of_true ⟨params, rfl, listsLeaves_of_forall₂ sound ordered matched⟩ named⟩
  · have keys : ∀ id ∈ List.range p.count, (p.nodes id).type.IsLeaf →
        (∃ key, valueKey p id = .ok key) ∨ ∃ x, valueKey p id = .error (.missingName x) := by
      intro id inside kind
      have leaf := mem_leaves.mpr ⟨inside, kind⟩
      obtain ⟨path, way⟩ := way leaf
      obtain ⟨-, ⟨names, -, found⟩ | ⟨x, -, -, fails⟩⟩ := valueKey_cases sound ordered leaf way
      · exact .inl ⟨_, found⟩
      · exact .inr ⟨x, fails⟩
    have missing : ∃ id ∈ List.range p.count, (p.nodes id).type.IsLeaf = true ∧
        ∃ x, valueKey p id = .error (.missingName x) := by
      rw [LeavesNamed] at named
      push Not at named
      obtain ⟨id, leaf, path, way, c, member, unnamed⟩ := named
      refine ⟨id, (mem_leaves.mp leaf).1, (mem_leaves.mp leaf).2, ?_⟩
      obtain ⟨-, ⟨names, spells, -⟩ | ⟨x, -, -, fails⟩⟩ := valueKey_cases sound ordered leaf way
      · have all : ∀ x ∈ path, (p.nodes x).name ≠ none := by
          clear member way leaf
          induction spells with
          | nil => simp
          | cons spelled _ ih =>
            obtain ⟨first, given, -⟩ := spelled
            rw [List.forall_mem_cons]
            exact ⟨by rw [given]; exact Option.some_ne_none first, ih⟩
        exact absurd unnamed (all c member)
      · exact ⟨x, fails⟩
    obtain ⟨x, fails⟩ := foldlM_addParam_error _ [] keys missing
    rw [fails]
    refine ⟨nofun, iff_of_false ?_ named⟩
    rintro ⟨list, same, -⟩
    cases same

theorem exists_parsed {P : Parser → Prop} [DecidablePred P]
    (found : (jsonParse source).toOption.map (fun p => decide (P p)) = some true) :
    ∃ p, jsonParse source = .ok p ∧ P p := by
  cases result : jsonParse source with
  | error stop =>
    rw [result] at found
    cases found
  | ok p =>
    rw [result] at found
    exact ⟨p, rfl, of_decide_eq_true (Option.some.inj found)⟩

/-- The source `{"a":{"b":7}}`. -/
def nestedMember : List UInt8 :=
  [0x7B, 0x22, 0x61, 0x22, 0x3A, 0x7B, 0x22, 0x62, 0x22, 0x3A, 0x37, 0x7D, 0x7D]

theorem create_params_list_member :
    ∃ p, jsonParse nestedMember = .ok p ∧
      ∃ list, createParams p 0 = .ok list ∧ ListsLeaves p list := by
  have found : ∃ p, jsonParse nestedMember = .ok p ∧ p.root = some 0 ∧ leaves p = [2] ∧
      ((p.nodes 2).parent = some 1 ∧ (p.nodes 1).parent = some 0 ∧ (p.nodes 0).parent = none) ∧
        (p.nodes 1).name = some 2 ∧ (p.nodes 2).name = some 7 := exists_parsed (by decide +kernel)
  obtain ⟨p, parsed, rooted, only, ⟨link, link', top⟩, outer, inner⟩ := found
  have named : LeavesNamed p := by
    intro id leaf path way c member
    rw [only, List.mem_singleton] at leaf
    subst leaf
    rw [way.unique (.child link (.child link' (.root top)))] at member
    obtain rfl | rfl : c = 1 ∨ c = 2 := by simpa using member
    · rw [outer]
      exact Option.some_ne_none 2
    · rw [inner]
      exact Option.some_ne_none 7
  exact ⟨p, parsed, (create_params_list_iff parsed rooted).2.mpr named⟩

/-- Its leaf has the joined key `a.b`. -/
example : ((jsonParse nestedMember).toOption.bind fun p => (createParams p 0).toOption).map
    (List.map Prod.fst) = some [[0x61, 0x2E, 0x62]] := by decide +kernel

/-- The source `[7]`: the element has no name to make a string of. -/
theorem create_params_list_element :
    ∃ p, jsonParse [0x5B, 0x37, 0x5D] = .ok p ∧ p.root = some 0 ∧
      createParams p 0 = .error (.missingName 1) ∧
        ¬ ∃ list, createParams p 0 = .ok list ∧ ListsLeaves p list := by
  have found : ∃ p, jsonParse [0x5B, 0x37, 0x5D] = .ok p ∧ p.root = some 0 ∧
      (match createParams p 0 with
        | .ok _ => none
        | .error fault => some fault) = some (.missingName 1) := exists_parsed (by decide +kernel)
  obtain ⟨p, parsed, rooted, fault⟩ := found
  cases result : createParams p 0 with
  | ok list =>
    rw [result] at fault
    cases fault
  | error stop =>
    rw [result] at fault
    cases fault
    refine ⟨p, parsed, rooted, result, ?_⟩
    rintro ⟨list, same, -⟩
    cases result.symm.trans same

end Socrocket.Common.JsonParser
