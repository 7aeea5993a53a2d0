/- Socrocket/Common/JsonDocument
   digest: The parser builds the tree of every document. -/

import Mathlib.Data.List.Sort
import Socrocket.Common.JsonText

set_option autoImplicit false
set_option relaxedAutoImplicit false

namespace Socrocket.Common.JsonParser

open Relation (ReflTransGen)

/-! ## Documents -/

/-- A value without children. Leading zeros are allowed. -/
inductive Scalar where
  | null
  | bool (b : Bool)
  | int (negative : Bool) (ds : List Digit) (begun : ds ≠ []) (small : numeralValue 0 ds < 2 ^ 31)
  | float (f : FloatLiteral)
  | string (pieces : List Piece)

def Scalar.text : Scalar → List UInt8
  | .null => [0x6E, 0x75, 0x6C, 0x6C]
  | .bool true => [0x74, 0x72, 0x75, 0x65]
  | .bool false => [0x66, 0x61, 0x6C, 0x73, 0x65]
  | .int negative ds .. => minus negative ++ numeral ds
  | .float f => f.text
  | .string pieces => quoted pieces

inductive Kind where
  | object
  | array

def Kind.opening : Kind → UInt8
  | .object => 0x7B
  | .array => 0x5B

def Kind.closing : Kind → UInt8
  | .object => 0x7D
  | .array => 0x5D

def Kind.type : Kind → JsonType
  | .object => .object
  | .array => .array

/-- What stands in front of a value: a name and a colon in an object. -/
inductive Label : Kind → Type where
  | name (pieces : List Piece) (named colon : List Blank) : Label .object
  | index : Label .array

def Label.text {kind : Kind} : Label kind → List UInt8
  | .name pieces named colon => quoted pieces ++ (blanks named ++ 0x3A :: blanks colon)
  | .index => []

mutual

/-- A value and the white space behind it. -/
inductive Value : Type where
  | scalar (s : Scalar) (after : List Blank)
  | container (kind : Kind) (opened : List Blank) (items : Items kind) (closed : List Blank)

/-- The members of an object or the elements of an array. The white space of the comma counts only
in front of another item. -/
inductive Items : Kind → Type where
  | nil {kind : Kind} : Items kind
  | cons {kind : Kind} (label : Label kind) (value : Value) (comma : List Blank)
      (rest : Items kind) : Items kind

end

/-- A comma stands in front of another item only. -/
def separator {kind : Kind} (comma : List Blank) : Items kind → List UInt8
  | .nil => []
  | .cons .. => 0x2C :: blanks comma

mutual

def Value.text : Value → List UInt8
  | .scalar s after => s.text ++ blanks after
  | .container kind opened items closed =>
    kind.opening :: (blanks opened ++ (items.text ++ kind.closing :: blanks closed))

def Items.text {kind : Kind} : Items kind → List UInt8
  | .nil => []
  | .cons label value comma rest =>
    label.text ++ (value.text ++ (separator comma rest ++ rest.text))

end

mutual

/-- The number of nodes of a value. -/
def Value.size : Value → ℕ
  | .scalar .. => 1
  | .container _ _ items _ => items.size + 1

def Items.size {kind : Kind} : Items kind → ℕ
  | .nil => 0
  | .cons _ value _ rest => value.size + rest.size

end

/-! ## Trees that show a document -/

/-- A string that lies in the part of the source that was read. -/
def HoldsString (p : Parser) (first : ℕ) (bytes : List UInt8) : Prop :=
  first + bytes.length < p.it ∧ CString p.cell first bytes

def Scalar.Denoted (p : Parser) (node : JsonValue) : Scalar → Prop
  | .null => node.type = .null
  | .bool b => node.type = .bool ∧ node.payload = .intValue (if b then 1 else 0)
  | .int negative ds .. => node.type = .int ∧ ∃ i, node.payload = .intValue i ∧
      i.toInt = if negative then -(numeralValue 0 ds : ℤ) else numeralValue 0 ds
  | .float _ => node.type = .float ∧ node.payload = .floatValue
  | .string pieces => node.type = .string ∧
      ∃ first, node.payload = .stringValue first ∧ HoldsString p first (unquoted pieces)

def Label.Denoted (p : Parser) (name : Option ℕ) {kind : Kind} : Label kind → Prop
  | .name pieces _ _ => ∃ first, name = some first ∧ HoldsString p first (unquoted pieces)
  | .index => name = none

/-- A list of nodes linked from one sibling to the next. -/
def Siblings (p : Parser) : Option ℕ → List ℕ → Prop
  | first, [] => first = none
  | first, id :: ids => first = some id ∧ Siblings p (p.nodes id).nextSibling ids

mutual

/-- The node and everything below it show a value. -/
def Value.Denoted (p : Parser) : Value → ℕ → Prop
  | .scalar s _, id => (p.nodes id).firstChild = none ∧ s.Denoted p (p.nodes id)
  | .container kind _ items _, id => (p.nodes id).type = kind.type ∧
      ∃ ids, Siblings p (p.nodes id).firstChild ids ∧ items.Denoted p id ids

/-- The nodes show the items one after the other and point to the enclosing node. -/
def Items.Denoted (p : Parser) {kind : Kind} : Items kind → ℕ → List ℕ → Prop
  | .nil, _, ids => ids = []
  | .cons label value _ rest, parent, ids => ∃ id others, ids = id :: others ∧
      (p.nodes id).parent = some parent ∧ label.Denoted p (p.nodes id).name ∧
      value.Denoted p id ∧ rest.Denoted p parent others

end

/-! ## What tokens leave as it is -/

variable {source : List UInt8} {p q r : Parser}

/-- Nodes keep what they hold and who they belong to, and bytes that were read stay. -/
structure Extends (p q : Parser) : Prop where
  on : p.it ≤ q.it
  cells : ∀ i < p.it, q.cell i = p.cell i
  grown : p.count ≤ q.count
  parent : ∀ c < p.count, (q.nodes c).parent = (p.nodes c).parent
  name : ∀ c < p.count, (q.nodes c).name = (p.nodes c).name
  payload : ∀ c < p.count, (q.nodes c).payload = (p.nodes c).payload
  type : ∀ c < p.count, (q.nodes c).type = (p.nodes c).type

theorem Extends.trans (first : Extends p q) (second : Extends q r) : Extends p r where
  on := first.on.trans second.on
  cells i before := (second.cells i (before.trans_le first.on)).trans (first.cells i before)
  grown := first.grown.trans second.grown
  parent c old := (second.parent c (old.trans_le first.grown)).trans (first.parent c old)
  name c old := (second.name c (old.trans_le first.grown)).trans (first.name c old)
  payload c old := (second.payload c (old.trans_le first.grown)).trans (first.payload c old)
  type c old := (second.type c (old.trans_le first.grown)).trans (first.type c old)

theorem HoldsString.mono {first : ℕ} {bytes : List UInt8} (holds : HoldsString p first bytes)
    (later : Extends p q) : HoldsString q first bytes :=
  ⟨holds.1.trans_le later.on, holds.2.congr fun i below => later.cells i (below.trans_lt holds.1)⟩

theorem Scalar.Denoted.mono {s : Scalar} {id : ℕ} (denoted : s.Denoted p (p.nodes id))
    (later : Extends p q) (old : id < p.count) : s.Denoted q (q.nodes id) := by
  have payload := later.payload id old
  have type := later.type id old
  cases s with
  | null => exact type.trans denoted
  | bool b => exact ⟨type.trans denoted.1, payload.trans denoted.2⟩
  | int negative ds begun small =>
    obtain ⟨kind, i, value, same⟩ := denoted
    exact ⟨type.trans kind, i, payload.trans value, same⟩
  | float f => exact ⟨type.trans denoted.1, payload.trans denoted.2⟩
  | string pieces =>
    obtain ⟨kind, first, value, holds⟩ := denoted
    exact ⟨type.trans kind, first, payload.trans value, holds.mono later⟩

theorem Label.Denoted.mono {kind : Kind} {label : Label kind} {name : Option ℕ}
    (denoted : label.Denoted p name) (later : Extends p q) : label.Denoted q name := by
  cases label with
  | name pieces named colon =>
    obtain ⟨first, given, holds⟩ := denoted
    exact ⟨first, given, holds.mono later⟩
  | index => exact denoted

/-- Some nodes were appended to a container, the first of them with the pending name. -/
structure Appended (p q : Parser) (t count : ℕ) : Prop extends Extends p q where
  top : q.top = some t
  pending : q.name = none
  counted : q.count = p.count + count
  below : (q.nodes p.count).parent = some t
  labelled : (q.nodes p.count).name = p.name

private theorem appended_append {t it : ℕ} {cell : ℕ → UInt8} (escapedNewlines : ℕ)
    (opened : p.top = some t) (type : JsonType) (payload : Payload)
    (on : p.it ≤ it) (same : ∀ i < p.it, cell i = p.cell i) :
    Appended p { p.append t type payload with
      cell := cell, it := it, escapedNewlines := escapedNewlines } t 1 := by
  have old {c : ℕ} (below : c < p.count) (fresh : JsonValue) :
      Function.update p.nodes p.count fresh c = p.nodes c := Function.update_of_ne below.ne ..
  refine ⟨⟨on, same, Nat.le_succ _, ?_, ?_, ?_, ?_⟩, opened, rfl, rfl, ?_, ?_⟩
  all_goals dsimp only [Parser.append_nodes]
  · intro c below
    rw [jsonAppend_parent, if_neg below.ne, old below]
  · intro c below
    rw [jsonAppend_name, old below]
  · intro c below
    rw [jsonAppend_payload, old below]
  · intro c below
    rw [jsonAppend_type, old below]
  · rw [jsonAppend_parent, if_pos rfl]
  · rw [jsonAppend_name, Function.update_self]

theorem append_payload_self (top : ℕ) (type : JsonType) (payload : Payload) :
    ((p.append top type payload).nodes p.count).payload = payload := by
  rw [Parser.append_nodes, jsonAppend_payload, Function.update_self]

/-! ## The tokens of a document -/

/-- The parser is between two tokens and this is the rest of the source. -/
structure Ready (source : List UInt8) (p : Parser) (rest : List UInt8) : Prop where
  sound : p.Sound source
  rest : source.drop p.it = rest

variable {l : List UInt8}

theorem Parser.Sound.within_size (sound : p.Sound source) : p.it ≤ p.size :=
  sound.size ▸ sound.within

theorem Ready.ahead (ready : Ready source p l) : Ahead p.cell p.it l :=
  ahead_of_getD ready.sound.text ready.rest

theorem Ready.length (ready : Ready source p l) : p.it + l.length = p.size := by
  have within := ready.sound.within
  rw [ready.sound.size, ← ready.rest, List.length_drop]
  omega

theorem Ready.step (text : List UInt8) {ws : List Blank}
    (ready : Ready source p (text ++ (blanks ws ++ l))) (going : p.cell p.it ≠ 0)
    (next : token p (p.cell p.it) = .ok q) (moved : q.it = p.it + text.length)
    (stops : Stops isBlank l) :
    Iteration p { q with it := q.it + ws.length } ∧
      Ready source { q with it := q.it + ws.length } l := by
  have kept := (token_advances ready.sound going next).sound
  have behind : source.drop q.it = blanks ws ++ l := by
    rw [moved, ← List.drop_drop, ready.rest, List.drop_left]
  have here : Ready source q (blanks ws ++ l) := ⟨kept, behind⟩
  have room := here.length
  rw [List.length_append, blanks, List.length_map] at room
  have skipped : skipBlanks q.cell q.size (q.size + 2) q.it = .ok (q.it + ws.length) :=
    skipBlanks_blanks ws stops here.ahead (by omega) (by omega)
  have iteration : Iteration p { q with it := q.it + ws.length } := by
    refine ⟨going, ?_⟩
    rw [iterate, next]
    change (skipBlanks q.cell q.size (q.size + 2) q.it >>= _) = _
    rw [skipped]
    rfl
  refine ⟨iteration, (iteration_advances ready.sound iteration).sound, ?_⟩
  have length_blanks : (blanks ws).length = ws.length := List.length_map ..
  dsimp only
  rw [← List.drop_drop, behind, ← length_blanks, List.drop_left]

theorem Ready.nonzero {b : UInt8} (ready : Ready source p (b :: l)) (nonzero : b ≠ 0) :
    p.cell p.it ≠ 0 := by
  rw [ready.ahead.here]
  exact nonzero

private theorem pieces_length_le (pieces : List Piece) :
    pieces.length ≤ (pieces.flatMap Piece.text).length := by
  induction pieces with
  | nil => exact le_rfl
  | cons piece pieces ih =>
    have filled : 1 ≤ piece.text.length := by cases piece <;> exact Nat.succ_le_succ (Nat.zero_le _)
    rw [List.flatMap_cons, List.length_append, List.length_cons]
    omega

private theorem unquoted_length_le (pieces : List Piece) :
    (unquoted pieces).length ≤ (pieces.flatMap Piece.text).length := by
  induction pieces with
  | nil => exact le_rfl
  | cons piece pieces ih =>
    have shorter := piece.value_length_le
    rw [unquoted, List.flatMap_cons, List.flatMap_cons, List.length_append, List.length_append,
      ← unquoted]
    omega

private theorem scanned_string {pieces : List Piece} (ready : Ready source p (quoted pieces ++ l)) :
    ∃ s, scanString p.size (p.it + 1) (p.size + 2)
        ⟨p.cell, p.it + 1, p.it + 1, p.escapedNewlines⟩ = .ok s ∧
      s.it = p.it + (quoted pieces).length ∧ (∀ i < p.it, s.cell i = p.cell i) ∧
      p.it + 1 + (unquoted pieces).length < s.it ∧
      CString s.cell (p.it + 1) (unquoted pieces) := by
  have counted := pieces_length_le pieces
  have shorter := unquoted_length_le pieces
  have length := ready.length
  have ahead := ready.ahead
  change Ahead p.cell p.it (0x22 :: ((pieces.flatMap Piece.text ++ [0x22]) ++ l)) at ahead
  rw [List.append_assoc] at ahead
  have quoted_length : (quoted pieces).length = (pieces.flatMap Piece.text).length + 2 := by
    rw [quoted, List.length_cons, List.length_append]
    rfl
  rw [List.length_append, quoted_length] at length
  obtain ⟨s, scanned, cells, stopped⟩ := scanString_pieces (p.size + 2) p.size (p.it + 1) pieces
    ⟨p.cell, p.it + 1, p.it + 1, p.escapedNewlines⟩ le_rfl ahead.2 (by dsimp only; omega)
    (by omega)
  dsimp only at cells stopped
  refine ⟨s, scanned, by omega, ?_, by omega, ?_⟩
  · intro i before
    rw [cells, put_before (by omega)]
  · rw [cells]
    exact put_cstring _ _ (unquoted_ne_zero pieces)

private theorem checkTop_eq {t : ℕ} (opened : p.top = some t) : p.checkTop = .ok t := by
  rw [Parser.checkTop, opened]

private theorem stringToken_value {t : ℕ} {pieces : List Piece} (opened : p.top = some t)
    (ready : Ready source p (quoted pieces ++ l))
    (value : ¬ (p.name = none ∧ (p.nodes t).type = .object)) :
    ∃ q, stringToken p = .ok q ∧ q.it = p.it + (quoted pieces).length ∧ Appended p q t 1 ∧
      Scalar.Denoted q (q.nodes p.count) (.string pieces) := by
  obtain ⟨s, scanned, stopped, kept, room, string⟩ := scanned_string ready
  refine ⟨{ p.append t .string (.stringValue (p.it + 1)) with
    cell := s.cell, it := s.it, escapedNewlines := s.escapedNewlines }, ?_, stopped, ?_, ?_⟩
  · rw [stringToken, checkTop_eq opened]
    change (scanString p.size (p.it + 1) (p.size + 2)
      ⟨p.cell, p.it + 1, p.it + 1, p.escapedNewlines⟩ >>= _) = _
    rw [scanned]
    change (if p.name = none ∧ (p.nodes t).type = .object then _ else _) = _
    rw [if_neg value]
    rfl
  · exact appended_append _ opened _ _ (by omega) kept
  · exact ⟨append_type_self .., p.it + 1, append_payload_self .., room, string⟩

private theorem stringToken_name {t : ℕ} {pieces : List Piece} (opened : p.top = some t)
    (ready : Ready source p (quoted pieces ++ l)) (unnamed : p.name = none)
    (object : (p.nodes t).type = .object) :
    ∃ q, stringToken p = .ok q ∧ q.it = p.it + (quoted pieces).length ∧ Extends p q ∧
      q.top = some t ∧ q.count = p.count ∧
      ∃ first, q.name = some first ∧ HoldsString q first (unquoted pieces) := by
  obtain ⟨s, scanned, stopped, kept, room, string⟩ := scanned_string ready
  refine ⟨{ p with
    cell := s.cell, it := s.it, escapedNewlines := s.escapedNewlines, name := some (p.it + 1) },
    ?_, stopped, ?_, opened, rfl, p.it + 1, rfl, room, string⟩
  · rw [stringToken, checkTop_eq opened]
    change (scanString p.size (p.it + 1) (p.size + 2)
      ⟨p.cell, p.it + 1, p.it + 1, p.escapedNewlines⟩ >>= _) = _
    rw [scanned]
    change (if p.name = none ∧ (p.nodes t).type = .object then _ else _) = _
    rw [if_pos ⟨unnamed, object⟩]
    rfl
  · exact ⟨by dsimp only; omega, kept, le_rfl, fun _ _ => rfl, fun _ _ => rfl, fun _ _ => rfl,
      fun _ _ => rfl⟩

private theorem keywordToken_null {t : ℕ} (opened : p.top = some t)
    (ready : Ready source p (Scalar.null.text ++ l)) :
    keywordToken p = .ok { p.append t .null .zero with it := p.it + 4 } := by
  have length := ready.length
  rw [List.length_append] at length
  rw [keywordToken, checkTop_eq opened]
  change (matchWord p.cell p.size p.it Scalar.null.text >>= _) = _
  rw [matchWord_self Scalar.null.text ready.ahead (by omega)]
  rfl

private theorem keywordToken_bool {t : ℕ} (b : Bool) (opened : p.top = some t)
    (ready : Ready source p ((Scalar.bool b).text ++ l)) :
    keywordToken p = .ok { p.append t .bool (.intValue (if b then 1 else 0)) with
      it := p.it + (Scalar.bool b).text.length } := by
  have length := ready.length
  rw [List.length_append] at length
  have ahead := ready.ahead
  rw [keywordToken, checkTop_eq opened]
  cases b with
  | true =>
    have here : p.cell p.it = 0x74 := ahead.here
    change (matchWord p.cell p.size p.it [0x6E, 0x75, 0x6C, 0x6C] >>= _) = _
    rw [matchWord_other _ (by rw [here]; decide) ready.sound.within_size]
    change (matchWord p.cell p.size p.it (Scalar.bool true).text >>= _) = _
    rw [matchWord_self _ ahead (by omega)]
    rfl
  | false =>
    have here : p.cell p.it = 0x66 := ahead.here
    change (matchWord p.cell p.size p.it [0x6E, 0x75, 0x6C, 0x6C] >>= _) = _
    rw [matchWord_other _ (by rw [here]; decide) ready.sound.within_size]
    change (matchWord p.cell p.size p.it [0x74, 0x72, 0x75, 0x65] >>= _) = _
    rw [matchWord_other _ (by rw [here]; decide) ready.sound.within_size]
    change (matchWord p.cell p.size p.it (Scalar.bool false).text >>= _) = _
    rw [matchWord_self _ ahead (by omega)]
    rfl

private theorem scanNumber_ready {text : List UInt8} (ready : Ready source p (text ++ l))
    (inner : ∀ b ∈ text, isDelimiter b = false) (delimited : Stops (fun c => !isDelimiter c) l) :
    scanNumber p.cell p.size (p.size + 2) p.it false =
      .ok (p.it + text.length, text.any isMark) := by
  have length := ready.length
  rw [List.length_append] at length
  have stop := delimited.here ready.ahead.drop
  rw [Bool.not_eq_false'] at stop
  rw [scanNumber_literal (p.size + 2) p.it text false ready.ahead inner stop (by omega) (by omega),
    Bool.false_or]

private theorem numberToken_int {t : ℕ} {negative : Bool} {ds : List Digit} (begun : ds ≠ [])
    (opened : p.top = some t) (ready : Ready source p (minus negative ++ numeral ds ++ l))
    (delimited : Stops (fun c => !isDelimiter c) l) :
    numberToken p = .ok { p.append t .int (.intValue (if negative
      then -BitVec.ofNat 32 (numeralValue 0 ds) else BitVec.ofNat 32 (numeralValue 0 ds))) with
      it := p.it + (minus negative ++ numeral ds).length } := by
  have inner : ∀ b ∈ minus negative ++ numeral ds, isDelimiter b = false := by
    intro b member
    rcases List.mem_append.1 member with sign | digit
    · exact minus_delimiter negative b sign
    · exact numeral_delimiter ds b digit
  have plain : (minus negative ++ numeral ds).any isMark = false := by
    rw [List.any_append, numeral_mark, Bool.or_false]
    cases negative <;> rfl
  have scanned := scanNumber_ready ready inner delimited
  rw [plain] at scanned
  have ahead := ready.ahead
  rw [List.append_assoc] at ahead
  have value := atoi_literal negative ds begun ahead rfl
  rw [numberToken, checkTop_eq opened]
  simp only [bind, Except.bind, scanned, value, Bool.false_eq_true, if_false, ne_eq,
    not_true_eq_false]
  rfl

private theorem numberToken_float {t : ℕ} {f : FloatLiteral} (opened : p.top = some t)
    (ready : Ready source p (f.text ++ l)) (delimited : Stops (fun c => !isDelimiter c) l) :
    numberToken p = .ok { p.append t .float .floatValue with it := p.it + f.text.length } := by
  have scanned := scanNumber_ready ready f.text_delimiter delimited
  rw [f.text_mark] at scanned
  rw [numberToken, checkTop_eq opened]
  change (scanNumber p.cell p.size (p.size + 2) p.it false >>= _) = _
  rw [scanned]
  change (if atof p.cell p.it (p.it + f.text.length) ≠ p.it + f.text.length then _ else _) = _
  rw [atof_literal f ready.ahead delimited rfl, if_neg (by simp)]
  rfl

private theorem token_keyword {c : UInt8} (word : c = 0x6E ∨ c = 0x74 ∨ c = 0x66) :
    token p c = keywordToken p := by
  rcases word with rfl | rfl | rfl <;> rfl

private theorem startsNumber_minus (negative : Bool) (ds : List Digit) (begun : ds ≠ [])
    {text : List UInt8} (ahead : Ahead p.cell p.it (minus negative ++ (numeral ds ++ text))) :
    startsNumber (p.cell p.it) = true := by
  cases negative with
  | true =>
    rw [show p.cell p.it = 0x2D from ahead.here]
    rfl
  | false =>
    cases ds with
    | nil => exact absurd rfl begun
    | cons d ds =>
      have here : p.cell p.it = d.byte := ahead.here
      rw [here, startsNumber, d.isDigit_byte, Bool.or_true]

private theorem scalar_token {t : ℕ} (s : Scalar) (opened : p.top = some t)
    (ready : Ready source p (s.text ++ l)) (value : ¬ (p.name = none ∧ (p.nodes t).type = .object))
    (delimited : Stops (fun c => !isDelimiter c) l) :
    p.cell p.it ≠ 0 ∧ ∃ q, token p (p.cell p.it) = .ok q ∧ q.it = p.it + s.text.length ∧
      Appended p q t 1 ∧ s.Denoted q (q.nodes p.count) := by
  cases s with
  | null =>
    have here : p.cell p.it = 0x6E := ready.ahead.here
    rw [token_keyword (Or.inl here), keywordToken_null opened ready]
    exact ⟨by rw [here]; decide, _, rfl, rfl,
      appended_append p.escapedNewlines opened _ _ (Nat.le_add_right _ _) fun _ _ => rfl,
      append_type_self ..⟩
  | bool b =>
    have here : p.cell p.it = 0x74 ∨ p.cell p.it = 0x66 := by
      cases b with
      | true => exact Or.inl ready.ahead.here
      | false => exact Or.inr ready.ahead.here
    rw [token_keyword (Or.inr here), keywordToken_bool b opened ready]
    refine ⟨?_, _, rfl, rfl,
      appended_append p.escapedNewlines opened _ _ (Nat.le_add_right _ _) fun _ _ => rfl,
      append_type_self .., append_payload_self ..⟩
    rcases here with here | here <;> rw [here] <;> decide
  | int negative ds begun small =>
    have ahead := ready.ahead
    change Ahead p.cell p.it (minus negative ++ numeral ds ++ l) at ahead
    rw [List.append_assoc] at ahead
    have number := startsNumber_minus negative ds begun ahead
    rw [token_number p number, numberToken_int begun opened ready delimited]
    exact ⟨ne_zero_of_startsNumber number, _, rfl, rfl,
      appended_append p.escapedNewlines opened _ _ (Nat.le_add_right _ _) fun _ _ => rfl,
      append_type_self .., _, append_payload_self .., toInt_literal negative small⟩
  | float f =>
    have ahead := ready.ahead
    simp only [Scalar.text, FloatLiteral.text, List.append_assoc] at ahead
    have number := startsNumber_minus f.negative f.integer f.begun ahead
    rw [token_number p number, numberToken_float opened ready delimited]
    exact ⟨ne_zero_of_startsNumber number, _, rfl, rfl,
      appended_append p.escapedNewlines opened _ _ (Nat.le_add_right _ _) fun _ _ => rfl,
      append_type_self .., append_payload_self ..⟩
  | string pieces =>
    have here : p.cell p.it = 0x22 := ready.ahead.here
    obtain ⟨q, scanned, moved, appended, denoted⟩ := stringToken_value opened ready value
    rw [here]
    exact ⟨by decide, q, scanned, moved, appended, denoted⟩

/-! ## What stands where -/

private theorem delimited_blanks (ws : List Blank) (delimited : Stops (fun c => !isDelimiter c) l) :
    Stops (fun c => !isDelimiter c) (blanks ws ++ l) := by
  cases ws with
  | nil => exact delimited
  | cons w ws => cases w <;> rfl

private theorem stops_of_digit (ds : List Digit) (begun : ds ≠ []) :
    Stops isBlank (numeral ds ++ l) := by
  cases ds with
  | nil => exact absurd rfl begun
  | cons d ds =>
    have digit := d.isDigit_byte
    change isBlank d.byte = false
    simp only [isBlank, Bool.or_eq_false_iff, decide_eq_false_iff_not]
    exact ⟨⟨⟨ne_of_isDigit digit rfl, ne_of_isDigit digit rfl⟩, ne_of_isDigit digit rfl⟩,
      ne_of_isDigit digit rfl⟩

private theorem stops_minus (negative : Bool) (ds : List Digit) (begun : ds ≠ []) :
    Stops isBlank (minus negative ++ (numeral ds ++ l)) := by
  cases negative with
  | true => rfl
  | false => exact stops_of_digit ds begun

private theorem Value.stops (v : Value) (l : List UInt8) : Stops isBlank (v.text ++ l) := by
  cases v with
  | container kind opened items closed => cases kind <;> rfl
  | scalar s after =>
    cases s with
    | null => rfl
    | bool b => cases b <;> rfl
    | int negative ds begun small =>
      simp only [Value.text, Scalar.text, List.append_assoc]
      exact stops_minus negative ds begun
    | float f =>
      simp only [Value.text, Scalar.text, FloatLiteral.text, List.append_assoc]
      exact stops_minus f.negative f.integer f.begun
    | string pieces => rfl

private theorem Items.stops {kind : Kind} (items : Items kind) (l : List UInt8) :
    Stops isBlank (items.text ++ kind.closing :: l) := by
  cases items with
  | nil => cases kind <;> rfl
  | cons label value comma rest =>
    cases label with
    | name pieces named colon => rfl
    | index =>
      rw [Items.text, List.append_assoc, List.append_assoc]
      exact value.stops _

private theorem separator_stops {kind : Kind} (comma : List Blank) (rest : Items kind)
    (l : List UInt8) : Stops (fun c => !isDelimiter c || isBlank c)
      (separator comma rest ++ (rest.text ++ kind.closing :: l)) := by
  cases rest with
  | nil => cases kind <;> rfl
  | cons label value comma rest => rfl

private theorem Stops.left {test other : UInt8 → Bool}
    (stops : Stops (fun c => test c || other c) l) : Stops test l := by
  cases l with
  | nil => exact (Bool.or_eq_false_iff.1 stops).1
  | cons b l => exact (Bool.or_eq_false_iff.1 stops).1

private theorem Stops.right {test other : UInt8 → Bool}
    (stops : Stops (fun c => test c || other c) l) : Stops other l := by
  cases l with
  | nil => exact (Bool.or_eq_false_iff.1 stops).2
  | cons b l => exact (Bool.or_eq_false_iff.1 stops).2

/-! ## Trees by the order of allocation -/

mutual

/-- A value whose nodes were allocated from `id` on, the enclosing one first. -/
def Value.Built (p : Parser) : Value → ℕ → Prop
  | .scalar s _, id => s.Denoted p (p.nodes id)
  | .container kind _ items _, id => (p.nodes id).type = kind.type ∧ items.Built p id (id + 1)

def Items.Built (p : Parser) {kind : Kind} : Items kind → ℕ → ℕ → Prop
  | .nil, _, _ => True
  | .cons label value _ rest, parent, id => (p.nodes id).parent = some parent ∧
      label.Denoted p (p.nodes id).name ∧ value.Built p id ∧ rest.Built p parent (id + value.size)

end

theorem Value.size_pos (v : Value) : 0 < v.size := by
  cases v with
  | scalar s after => exact Nat.one_pos
  | container kind opened items closed => exact Nat.succ_pos _

mutual

theorem Value.Built.mono (later : Extends p q) : ∀ (v : Value) (id : ℕ), v.Built p id →
    id + v.size ≤ p.count → v.Built q id
  | .scalar _ _, id, built, old => Scalar.Denoted.mono built later old
  | .container _ _ items _, id, ⟨type, built⟩, old =>
    have old' : id + (items.size + 1) ≤ p.count := old
    ⟨(later.type id (by omega)).trans type, Items.Built.mono later items id (id + 1) built (by omega)⟩

theorem Items.Built.mono (later : Extends p q) {kind : Kind} : ∀ (items : Items kind)
    (parent id : ℕ), items.Built p parent id → id + items.size ≤ p.count → items.Built q parent id
  | .nil, _, _, _, _ => trivial
  | .cons label value comma rest, parent, id, built, old => by
    rw [Items.size] at old
    rw [Items.Built] at built ⊢
    obtain ⟨below, labelled, first, others⟩ := built
    have filled := value.size_pos
    have inside : id < p.count := by omega
    rw [later.parent id inside, later.name id inside]
    exact ⟨below, labelled.mono later, Value.Built.mono later value id first (by omega),
      Items.Built.mono later rest parent (id + value.size) others (by omega)⟩

end

/-! ## Runs over a document -/

/-- The parser went on to the rest of the source, and the open container is the same. -/
structure Passed (source : List UInt8) (p q : Parser) (rest : List UInt8) : Prop
    extends Extends p q where
  run : ReflTransGen Iteration p q
  ready : Ready source q rest
  top : q.top = p.top
  counted : q.count = p.count

private theorem Extends.skip (extended : Extends p q) (k : ℕ) :
    Extends p { q with it := q.it + k } :=
  ⟨Nat.le_add_right_of_le extended.on, extended.cells, extended.grown, extended.parent,
    extended.name, extended.payload, extended.type⟩

private theorem Extends.refl (p : Parser) : Extends p p :=
  ⟨le_rfl, fun _ _ => rfl, le_rfl, fun _ _ => rfl, fun _ _ => rfl, fun _ _ => rfl, fun _ _ => rfl⟩

private theorem passed_mark {mark : UInt8} {ws : List Blank}
    (ready : Ready source p (mark :: (blanks ws ++ l)))
    (nonzero : mark ≠ 0) (next : token p mark = .ok { p with it := p.it + 1 })
    (stops : Stops isBlank l) :
    ∃ q, Passed source p q l ∧ q.name = p.name := by
  have here := ready.ahead.here
  rw [← here] at next
  have stepped := Ready.step [mark] ready (ready.nonzero nonzero) next rfl stops
  refine ⟨{ p with it := p.it + 1 + ws.length },
    ⟨Extends.skip (Extends.skip (Extends.refl p) 1) ws.length, .single stepped.1, stepped.2, rfl,
      rfl⟩, rfl⟩

private theorem colonToken_eq {t : ℕ} (opened : p.top = some t)
    (object : (p.nodes t).type = .object) : colonToken p = .ok { p with it := p.it + 1 } := by
  rw [colonToken]
  simp only [opened, object, ne_eq, not_true_eq_false, if_false]

private theorem label_passed {kind : Kind} (label : Label kind) {t : ℕ} (opened : p.top = some t)
    (type : (p.nodes t).type = kind.type) (unnamed : p.name = none)
    (ready : Ready source p (label.text ++ l)) (stops : Stops isBlank l) :
    ∃ q, Passed source p q l ∧ label.Denoted q q.name ∧
      ¬ (q.name = none ∧ (q.nodes t).type = .object) := by
  have inside := (ready.sound.top t opened).1
  cases label with
  | index =>
    refine ⟨p, ⟨Extends.refl p, .refl, ready, rfl, rfl⟩, unnamed, ?_⟩
    rw [type]
    exact fun both => JsonType.noConfusion both.2
  | name pieces named colon =>
    simp only [Label.text, List.append_assoc, List.cons_append] at ready
    obtain ⟨q, scanned, moved, extended, top, count, first, name, holds⟩ :=
      stringToken_name opened ready unnamed type
    have here : p.cell p.it = 0x22 := ready.ahead.here
    have next : token p (p.cell p.it) = .ok q := by
      rw [here]
      exact scanned
    obtain ⟨step, behind⟩ := ready.step (quoted pieces) (by rw [here]; decide) next moved
      (l := 0x3A :: (blanks colon ++ l)) rfl
    have object : (q.nodes t).type = .object := (extended.type t inside).trans type
    have colon_token : token { q with it := q.it + named.length } 0x3A =
        .ok { q with it := q.it + named.length + 1 } := colonToken_eq top object
    obtain ⟨r, passed, same⟩ := passed_mark behind (by decide) colon_token stops
    refine ⟨r, ⟨(extended.skip named.length).trans passed.toExtends, .head step passed.run,
      passed.ready, ?_, passed.counted.trans count⟩, ⟨first, same.trans name, ?_⟩, ?_⟩
    · exact passed.top.trans (top.trans opened.symm)
    · exact HoldsString.mono (holds.mono ((Extends.refl q).skip named.length)) passed.toExtends
    · rw [same, name]
      exact fun both => nomatch both.1

private theorem separator_passed {kind : Kind} (comma : List Blank) (rest : Items kind) {t : ℕ}
    (opened : p.top = some t)
    (ready : Ready source p (separator comma rest ++ (rest.text ++ kind.closing :: l))) :
    ∃ q, Passed source p q (rest.text ++ kind.closing :: l) ∧ q.name = p.name := by
  cases rest with
  | nil => exact ⟨p, ⟨Extends.refl p, .refl, ready, rfl, rfl⟩, rfl⟩
  | cons label value comma' rest' =>
    refine passed_mark ready (by decide) ?_ (Items.stops _ l)
    change commaToken p = _
    rw [commaToken, checkTop_eq opened]
    rfl

/-- The items of a container were read and their nodes built. -/
structure Filled (source : List UInt8) (p q : Parser) (t : ℕ) {kind : Kind} (items : Items kind)
    (rest : List UInt8) : Prop extends Extends p q where
  run : ReflTransGen Iteration p q
  ready : Ready source q rest
  top : q.top = some t
  pending : q.name = none
  counted : q.count = p.count + items.size
  built : items.Built q t p.count

private theorem closed_run {kind : Kind} {items : Items kind} {closed : List Blank} {id : ℕ}
    (inside : id < p.count) (type : (p.nodes id).type = kind.type)
    (filled : Filled source p q id items (kind.closing :: (blanks closed ++ l)))
    (stops : Stops isBlank l) :
    ∃ r, Extends p r ∧ ReflTransGen Iteration p r ∧ Ready source r l ∧
      r.top = (p.nodes id).parent ∧ r.name = none ∧ r.count = p.count + items.size ∧
      items.Built r id p.count := by
  have closing : closeToken q kind.closing =
      .ok { q with it := q.it + 1, top := (q.nodes id).parent } := by
    have kept : (q.nodes id).type = containerType kind.closing := by
      rw [filled.type id inside, type]
      cases kind <;> rfl
    rw [closeToken]
    simp only [filled.top, kept, ne_eq, not_true_eq_false, if_false]
  have next : token q kind.closing = .ok { q with it := q.it + 1, top := (q.nodes id).parent } := by
    rw [← closing]
    cases kind <;> rfl
  have here := filled.ready.ahead.here
  rw [← here] at next
  have going : q.cell q.it ≠ 0 := by
    rw [here]
    cases kind <;> decide
  obtain ⟨step, ready⟩ := Ready.step [kind.closing] filled.ready going next rfl stops
  have moved : Extends q { q with it := q.it + 1 + closed.length, top := (q.nodes id).parent } :=
    ⟨by dsimp only; omega, fun _ _ => rfl, le_rfl, fun _ _ => rfl, fun _ _ => rfl, fun _ _ => rfl,
      fun _ _ => rfl⟩
  refine ⟨_, filled.toExtends.trans moved, filled.run.tail step, ready, ?_, filled.pending,
    filled.counted, ?_⟩
  · exact filled.parent id inside
  · exact Items.Built.mono moved items id p.count filled.built filled.counted.ge

private theorem opened_step {kind : Kind} {ws : List Blank}
    (ready : Ready source p (kind.opening :: (blanks ws ++ l)))
    (next : openToken p kind.opening = .ok q) (moved : q.it = p.it + 1) (stops : Stops isBlank l) :
    Iteration p { q with it := q.it + ws.length } ∧
      Ready source { q with it := q.it + ws.length } l := by
  have here := ready.ahead.here
  apply Ready.step [kind.opening] ready _ _ moved stops
  · rw [here]
    cases kind <;> decide
  · rw [here, ← next]
    cases kind <;> rfl

mutual

/-- A value is read to its end and appended to the open container. -/
theorem Value.runs : ∀ (v : Value) {p : Parser} {t : ℕ} {l : List UInt8}, p.top = some t →
    Ready source p (v.text ++ l) → ¬ (p.name = none ∧ (p.nodes t).type = .object) →
    Stops (fun c => !isDelimiter c || isBlank c) l →
    ∃ q, Appended p q t v.size ∧ ReflTransGen Iteration p q ∧ Ready source q l ∧
      v.Built q p.count
  | .scalar s after, p, t, l, opened, ready, value, stops => by
    rw [Value.text, List.append_assoc] at ready
    obtain ⟨going, q, next, moved, appended, denoted⟩ :=
      scalar_token s opened ready value (delimited_blanks after stops.left)
    obtain ⟨step, behind⟩ := ready.step s.text going next moved stops.right
    refine ⟨{ q with it := q.it + after.length }, ⟨appended.toExtends.skip _, appended.top,
      appended.pending, appended.counted, appended.below, appended.labelled⟩, .single step, behind,
      ?_⟩
    exact denoted.mono ((Extends.refl q).skip _) (by rw [appended.counted]; omega)
  | .container kind before items after, p, t, l, opened, ready, value, stops => by
    rw [Value.text, List.cons_append, List.append_assoc, List.append_assoc, List.cons_append] at ready
    set q : Parser := { p.append t kind.type .zero with it := p.it + 1, top := some p.count } with hq
    have next : openToken p kind.opening = .ok q := by
      have same : containerType kind.opening = kind.type := by cases kind <;> rfl
      rw [openToken, opened]
      dsimp only
      rw [same]
    obtain ⟨step, behind⟩ := opened_step ready next rfl (Items.stops items _)
    set r : Parser := { q with it := q.it + before.length } with hr
    have base := appended_append p.escapedNewlines opened kind.type .zero
      (show p.it ≤ p.it + 1 + before.length by omega) fun _ _ => rfl
    have extended : Extends p r := ⟨base.on, base.cells, base.grown, base.parent, base.name,
      base.payload, base.type⟩
    have type : (r.nodes p.count).type = kind.type := append_type_self ..
    obtain ⟨s, filled⟩ := Items.runs items rfl type rfl behind
    obtain ⟨e, later, run, ready_end, top, pending, counted, built⟩ :=
      closed_run (Nat.lt_succ_self p.count) type filled stops.right
    refine ⟨e, ⟨extended.trans later, top.trans base.below, pending, ?_, ?_, ?_⟩, .head step run,
      ready_end, ?_, built⟩
    · rw [counted, Value.size]
      change p.count + 1 + items.size = _
      omega
    · exact (later.parent p.count (Nat.lt_succ_self _)).trans base.below
    · exact (later.name p.count (Nat.lt_succ_self _)).trans base.labelled
    · exact (later.type p.count (Nat.lt_succ_self _)).trans type

theorem Items.runs {kind : Kind} : ∀ (items : Items kind) {p : Parser} {t : ℕ} {l : List UInt8},
    p.top = some t → (p.nodes t).type = kind.type → p.name = none →
    Ready source p (items.text ++ kind.closing :: l) →
    ∃ q, Filled source p q t items (kind.closing :: l)
  | .nil, p, t, l, opened, type, unnamed, ready =>
    ⟨p, Extends.refl p, .refl, ready, opened, unnamed, rfl, trivial⟩
  | .cons label value comma rest, p, t, l, opened, type, unnamed, ready => by
    rw [Items.text, List.append_assoc, List.append_assoc, List.append_assoc] at ready
    obtain ⟨a, labelled, denoted, ready_value⟩ :=
      label_passed label opened type unnamed ready (Value.stops value _)
    obtain ⟨b, appended, run_value, behind_value, built⟩ := Value.runs value
      (labelled.top.trans opened) labelled.ready ready_value (separator_stops comma rest l)
    obtain ⟨c, separated, same⟩ := separator_passed comma rest appended.top behind_value
    have filled_value := value.size_pos
    have inside := (ready.sound.top t opened).1
    have old : a.count < b.count := by rw [appended.counted]; omega
    have type_c : (c.nodes t).type = kind.type := by
      have in_a : t < a.count := by rw [labelled.counted]; exact inside
      rw [separated.type t (in_a.trans old), appended.type t in_a, labelled.type t inside, type]
    obtain ⟨d, filled⟩ := Items.runs rest (separated.top.trans appended.top) type_c
      (same.trans appended.pending) separated.ready
    have later : Extends b d := separated.toExtends.trans filled.toExtends
    refine ⟨d, (labelled.toExtends.trans appended.toExtends).trans later,
      ((labelled.run.trans run_value).trans separated.run).trans filled.run, filled.ready,
      filled.top, filled.pending, ?_, ?_⟩
    · rw [filled.counted, separated.counted, appended.counted, labelled.counted, Items.size,
        Nat.add_assoc]
    · rw [Items.Built, ← labelled.counted, later.parent _ old, later.name _ old, appended.labelled,
        ← appended.counted, ← separated.counted]
      refine ⟨appended.below, ?_, ?_, filled.built⟩
      · exact denoted.mono (appended.toExtends.trans later)
      · exact Value.Built.mono later value a.count built appended.counted.ge

end

/-! ## The links of the built tree -/

/-- The nodes of items that were allocated from `id` on. -/
def Items.ids {kind : Kind} : Items kind → ℕ → List ℕ
  | .nil, _ => []
  | .cons _ value _ rest, id => id :: rest.ids (id + value.size)

private theorem Items.ids_range {kind : Kind} : ∀ (items : Items kind) (id c : ℕ),
    c ∈ items.ids id → id ≤ c ∧ c < id + items.size
  | .nil, id, c, member => absurd member List.not_mem_nil
  | .cons label value comma rest, id, c, member => by
    have filled := value.size_pos
    rw [Items.size]
    rw [Items.ids, List.mem_cons] at member
    rcases member with rfl | later
    · omega
    · have := Items.ids_range rest (id + value.size) c later
      omega

private theorem Items.ids_sorted {kind : Kind} : ∀ (items : Items kind) (id : ℕ),
    (items.ids id).Pairwise (· < ·)
  | .nil, id => List.Pairwise.nil
  | .cons label value comma rest, id => by
    have filled := value.size_pos
    refine List.pairwise_cons.2 ⟨?_, Items.ids_sorted rest (id + value.size)⟩
    intro c later
    have := Items.ids_range rest (id + value.size) c later
    omega

private theorem siblings_children {id : ℕ} (tree : Tree p.nodes p.count) (inside : id < p.count) :
    Siblings p (p.nodes id).firstChild (children p.nodes p.count id) := by
  have suffix (before after : List ℕ) (split : children p.nodes p.count id = before ++ after) :
      Siblings p after.head? after := by
    induction after generalizing before with
    | nil => rfl
    | cons c after ih =>
      refine ⟨rfl, ?_⟩
      have member : c ∈ children p.nodes p.count id := by
        rw [split]
        exact List.mem_append_right _ (List.mem_cons_self ..)
      obtain ⟨below, parent⟩ := mem_children.1 member
      have sorted : (children p.nodes p.count id).Pairwise (· < ·) := children_sorted id
      rw [split, List.pairwise_append, List.pairwise_cons] at sorted
      have front : before.find? (fun d => decide (c < d)) = none := by
        rw [List.find?_eq_none]
        intro d early
        have := sorted.2.2 d early c (List.mem_cons_self ..)
        simp only [decide_eq_true_eq]
        omega
      have next : (p.nodes c).nextSibling = after.head? := by
        rw [tree.nextSibling c below, parent, Option.bind_some, split, List.find?_append, front,
          Option.none_or, List.find?_cons_of_neg (by simp)]
        cases after with
        | nil => rfl
        | cons d after =>
          rw [List.find?_cons_of_pos (by simpa using sorted.2.1.1 d (List.mem_cons_self ..))]
          rfl
      rw [next]
      exact ih (before ++ [c]) (by rw [split, List.append_assoc]; rfl)
  rw [tree.firstChild id inside]
  exact suffix [] _ rfl

mutual

private theorem Value.parent_inside : ∀ (v : Value) (id c : ℕ), v.Built p id → id < c →
    c < id + v.size → ∃ q, (p.nodes c).parent = some q ∧ id ≤ q ∧ q < id + v.size
  | .scalar s after, id, c, _, above, below => by
    rw [Value.size] at below
    omega
  | .container kind opened items closed, id, c, built, above, below => by
    rw [Value.size] at below ⊢
    rcases Items.parent_inside items id (id + 1) c built.2 above (by omega) with here | further
    · exact ⟨id, here.1, le_rfl, by omega⟩
    · obtain ⟨q, parent, low, high, -⟩ := further
      exact ⟨q, parent, by omega, by omega⟩

private theorem Items.parent_inside {kind : Kind} : ∀ (items : Items kind) (parent id c : ℕ),
    items.Built p parent id → id ≤ c → c < id + items.size →
    ((p.nodes c).parent = some parent ∧ c ∈ items.ids id) ∨
      ∃ q, (p.nodes c).parent = some q ∧ id ≤ q ∧ q < id + items.size ∧ c ∉ items.ids id
  | .nil, parent, id, c, _, above, below => by
    rw [Items.size] at below
    omega
  | .cons label value comma rest, parent, id, c, built, above, below => by
    rw [Items.size] at below ⊢
    rw [Items.Built] at built
    rw [Items.ids, List.mem_cons]
    obtain ⟨link, -, first, others⟩ := built
    have filled := value.size_pos
    rcases Nat.lt_trichotomy c id with before | rfl | behind
    · omega
    · exact Or.inl ⟨link, Or.inl rfl⟩
    rcases Nat.lt_or_ge c (id + value.size) with inner | outer
    · obtain ⟨q, parent, low, high⟩ := Value.parent_inside value id c first behind inner
      refine Or.inr ⟨q, parent, low, by omega, ?_⟩
      rintro (same | later)
      · omega
      · have := Items.ids_range rest (id + value.size) c later
        omega
    · rcases Items.parent_inside rest parent (id + value.size) c others outer (by omega) with
        ⟨here, member⟩ | ⟨q, parent, low, high, absent⟩
      · exact Or.inl ⟨here, Or.inr member⟩
      · refine Or.inr ⟨q, parent, by omega, by omega, ?_⟩
        rintro (same | later)
        · omega
        · exact absent later

end

/-- No node from `last` on belongs to a node between `first` and `last`. -/
def Closed (p : Parser) (first last : ℕ) : Prop :=
  ∀ c q, last ≤ c → c < p.count → (p.nodes c).parent = some q → q < first ∨ last ≤ q

private theorem children_built {kind : Kind} (items : Items kind) {id : ℕ}
    (tree : Tree p.nodes p.count) (built : items.Built p id (id + 1))
    (inside : id + 1 + items.size ≤ p.count) (closed : Closed p id (id + 1 + items.size)) :
    children p.nodes p.count id = items.ids (id + 1) := by
  apply List.Pairwise.eq_of_mem_iff (children_sorted id) (items.ids_sorted (id + 1))
  intro c
  rw [mem_children]
  constructor
  · rintro ⟨below, parent⟩
    have above := tree.above c below id parent
    rcases Nat.lt_or_ge c (id + 1 + items.size) with inner | outer
    · rcases items.parent_inside id (id + 1) c built above inner with here | further
      · exact here.2
      · obtain ⟨q, link, low, -⟩ := further
        rw [parent, Option.some.injEq] at link
        omega
    · rcases closed c id outer below parent with less | more <;> omega
  · intro member
    obtain ⟨low, high⟩ := items.ids_range (id + 1) c member
    rcases items.parent_inside id (id + 1) c built low high with here | further
    · exact ⟨by omega, here.1⟩
    · obtain ⟨-, -, -, -, absent⟩ := further
      exact absurd member absent

mutual

/-- A value that was built shows in the links of the tree. -/
theorem Value.denoted_of_built (tree : Tree p.nodes p.count) : ∀ (v : Value) (id : ℕ),
    v.Built p id → id + v.size ≤ p.count → Closed p id (id + v.size) → v.Denoted p id
  | .scalar s after, id, built, inside, closed => by
    rw [Value.size] at inside closed
    refine ⟨?_, built⟩
    have childless := children_built (.nil : Items .array) tree trivial inside closed
    rw [tree.firstChild id inside, childless]
    rfl
  | .container kind opened items after, id, built, inside, closed => by
    rw [Value.size, Nat.add_comm items.size, ← Nat.add_assoc] at inside closed
    refine ⟨built.1, items.ids (id + 1), ?_, ?_⟩
    · rw [← children_built items tree built.2 inside closed]
      exact siblings_children tree (by omega)
    · apply Items.denoted_of_built tree items id (id + 1) (Nat.lt_succ_self id) built.2 inside
      intro c q outer below parent
      rcases closed c q outer below parent with less | more
      · exact Or.inl (by omega)
      · exact Or.inr more

theorem Items.denoted_of_built (tree : Tree p.nodes p.count) {kind : Kind} : ∀ (items : Items kind)
    (parent id : ℕ), parent < id → items.Built p parent id → id + items.size ≤ p.count →
    Closed p id (id + items.size) → items.Denoted p parent (items.ids id)
  | .nil, parent, id, _, _, _, _ => rfl
  | .cons label value comma rest, parent, id, enclosing, built, inside, closed => by
    rw [Items.size, ← Nat.add_assoc] at inside closed
    rw [Items.Built] at built
    obtain ⟨link, labelled, first, others⟩ := built
    rw [Items.Denoted]
    refine ⟨id, rest.ids (id + value.size), rfl, link, labelled, ?_, ?_⟩
    · apply Value.denoted_of_built tree value id first (by omega)
      intro c q outer below parent_c
      rcases Nat.lt_or_ge c (id + value.size + rest.size) with inner | beyond
      · rcases rest.parent_inside parent (id + value.size) c others outer inner with
          ⟨here, -⟩ | ⟨r, here, low, -⟩
        · rw [parent_c, Option.some.injEq] at here
          exact Or.inl (by omega)
        · rw [parent_c, Option.some.injEq] at here
          exact Or.inr (by omega)
      · rcases closed c q beyond below parent_c with less | more
        · exact Or.inl less
        · exact Or.inr (by omega)
    · apply Items.denoted_of_built tree rest parent (id + value.size) (by omega) others inside
      intro c q outer below parent_c
      rcases closed c q outer below parent_c with less | more
      · exact Or.inl (by omega)
      · exact Or.inr more

end

/-! ## The tree of a document -/

/-- A document starts with its outermost bracket. -/
structure Document where
  kind : Kind
  opened : List Blank
  items : Items kind
  closed : List Blank

def Document.value (d : Document) : Value := .container d.kind d.opened d.items d.closed

def Document.text (d : Document) : List UInt8 := d.value.text

private theorem document_runs (d : Document) : ∃ p, Reached d.text p ∧ Ready d.text p [] ∧
    p.top = none ∧ p.count = d.value.size ∧ d.value.Built p 0 ∧ (p.nodes 0).name = none := by
  obtain ⟨kind, opened, items, closed⟩ := d
  set source := Document.text ⟨kind, opened, items, closed⟩ with hsource
  set start := Parser.init source with hstart
  have ready : Ready source start (kind.opening :: (blanks opened ++
      (items.text ++ kind.closing :: (blanks closed ++ [])))) := by
    refine ⟨init_sound source, ?_⟩
    rw [List.append_nil]
    rfl
  set q : Parser := { start.alloc kind.type .zero with it := 1, root := some 0, top := some 0 } with hq
  have next : openToken start kind.opening = .ok q := by
    have same : containerType kind.opening = kind.type := by cases kind <;> rfl
    rw [hq, ← same]
    rfl
  obtain ⟨step, behind⟩ := opened_step ready next rfl (Items.stops items _)
  set r : Parser := { q with it := q.it + opened.length } with hr
  have fresh : r.nodes 0 = ⟨none, none, none, none, none, .zero, kind.type⟩ := rfl
  have type : (r.nodes 0).type = kind.type := by rw [fresh]
  obtain ⟨s, filled⟩ := Items.runs items rfl type rfl behind
  obtain ⟨e, later, run, ready_end, top, -, counted, built⟩ :=
    closed_run Nat.one_pos type filled rfl
  refine ⟨e, .head step run, ready_end, ?_, ?_, ⟨?_, built⟩, ?_⟩
  · rw [top, fresh]
  · rw [counted, Document.value, Value.size, Nat.add_comm items.size]
    rfl
  · exact (later.type 0 Nat.one_pos).trans type
  · rw [later.name 0 Nat.one_pos, fresh]

/-- The parser returns the tree of every document. -/
theorem json_parse_document (d : Document) : ∃ p, jsonParse d.text = .ok p ∧
    ∃ root, p.root = some root ∧ (p.nodes root).parent = none ∧ (p.nodes root).name = none ∧
      d.value.Denoted p root := by
  obtain ⟨p, reached, ready, top, counted, built, unnamed⟩ := document_runs d
  have sound := ready.sound
  have filled : 0 < p.count := by
    rw [counted]
    exact d.value.size_pos
  refine ⟨p, ?_, 0, ?_, (sound.tree.root 0 filled).2 rfl, unnamed, ?_⟩
  · rw [jsonParse, parseLoop_reached _ (init_sound d.text) (by simp [Parser.init]) reached
      ready.ahead]
    change (if p.top ≠ none then _ else _) = _
    rw [if_neg (not_not.2 top)]
    rfl
  · rw [sound.root, if_neg (by omega)]
  · apply Value.denoted_of_built sound.tree d.value 0 built (by omega)
    intro c q outer below
    omega

end Socrocket.Common.JsonParser
