/- Socrocket/Common/JsonParser
   digest: The in place parser of configuration documents, its tree and its errors. -/

import Mathlib.Data.BitVec
import Mathlib.Logic.Function.Basic

set_option autoImplicit false
set_option relaxedAutoImplicit false

namespace Socrocket.Common.JsonParser

/-! ## Memory -/

inductive JsonType where
  | null
  | object
  | array
  | string
  | int
  | float
  | bool
  deriving DecidableEq

/-- What the union of a node holds. The value of a float is left out. -/
inductive Payload where
  | zero
  | stringValue (first : ℕ)
  | intValue (i : BitVec 32)
  | floatValue
  deriving DecidableEq

/-- A node of the tree. Nodes are known by the order of their allocation, strings by where they
start in the source. -/
structure JsonValue where
  parent : Option ℕ
  nextSibling : Option ℕ
  firstChild : Option ℕ
  lastChild : Option ℕ
  name : Option ℕ
  payload : Payload
  type : JsonType
  deriving DecidableEq

/-- How a call ends early. -/
inductive Stop where
  | error (pos : ℕ) (desc : String) (line : ℤ)
  /-- A read or a write of a byte behind the terminating one. -/
  | outside (pos : ℕ)
  /-- A loop that was given too few iterations. -/
  | unfinished
  deriving DecidableEq

/-- The source with its terminating byte at `size`, the cursor and the tree so far. -/
structure Parser where
  cell : ℕ → UInt8
  size : ℕ
  it : ℕ
  nodes : ℕ → JsonValue
  count : ℕ
  root : Option ℕ
  top : Option ℕ
  name : Option ℕ
  escapedNewlines : ℕ

def read (cell : ℕ → UInt8) (size pos : ℕ) : Except Stop UInt8 :=
  if pos ≤ size then .ok (cell pos) else .error (.outside pos)

/-- Write bytes one after the other. -/
def put (cell : ℕ → UInt8) (pos : ℕ) : List UInt8 → ℕ → UInt8
  | [] => cell
  | b :: bs => put (Function.update cell pos b) (pos + 1) bs

/-- Newlines from `pos` down to the start of the source, which itself is not looked at. -/
def newlines (cell : ℕ → UInt8) : ℕ → ℤ
  | 0 => 0
  | pos + 1 => newlines cell pos + if cell (pos + 1) = 0x0A then 1 else 0

/-- The macro `ERROR`. -/
def fail {α : Type} (cell : ℕ → UInt8) (size escapedNewlines pos : ℕ) (desc : String) :
    Except Stop α :=
  if pos ≤ size then .error (.error pos desc (1 - escapedNewlines + newlines cell pos))
  else .error (.outside pos)

def Parser.fail {α : Type} (p : Parser) (pos : ℕ) (desc : String) : Except Stop α :=
  JsonParser.fail p.cell p.size p.escapedNewlines pos desc

/-! ## Numbers -/

def isDigit (c : UInt8) : Bool := 0x30 ≤ c && c ≤ 0x39

/-- The digits from `first` on and before `last`: where they end and the value with them. -/
def digits (cell : ℕ → UInt8) : ℕ → ℕ → BitVec 32 → ℕ × BitVec 32
  | 0, first, result => (first, result)
  | n + 1, first, result =>
    if isDigit (cell first) then
      digits cell n (first + 1) (10 * result + BitVec.ofNat 32 ((cell first).toNat - 0x30))
    else (first, result)

/-- Convert string to integer. Every byte looked at is one the caller has scanned. -/
def atoi (cell : ℕ → UInt8) (first last : ℕ) : ℕ × BitVec 32 :=
  if first ≠ last ∧ cell first = 0x2D then
    let r := digits cell (last - (first + 1)) (first + 1) 0
    (r.1, -r.2)
  else if first ≠ last ∧ cell first = 0x2B then digits cell (last - (first + 1)) (first + 1) 0
  else digits cell (last - first) first 0

/-- Skip a sign at `first`. -/
def skipSign (cell : ℕ → UInt8) (first : ℕ) : ℕ :=
  if cell first = 0x2D ∨ cell first = 0x2B then first + 1 else first

/-- Where the conversion of a string to floating point stops. -/
def atof (cell : ℕ → UInt8) (first last : ℕ) : ℕ :=
  let integer := (digits cell (last - (if first ≠ last then skipSign cell first else first))
    (if first ≠ last then skipSign cell first else first) 0).1
  let fraction := if integer ≠ last ∧ cell integer = 0x2E then
    (digits cell (last - (integer + 1)) (integer + 1) 0).1 else integer
  if fraction ≠ last ∧ (cell fraction = 0x65 ∨ cell fraction = 0x45) then
    (digits cell (last - skipSign cell (fraction + 1)) (skipSign cell (fraction + 1)) 0).1
  else fraction

def hexDigit (c : UInt8) : Option ℕ :=
  if isDigit c then some (c.toNat - 0x30)
  else if 0x61 ≤ c ∧ c ≤ 0x66 then some (c.toNat - 0x61 + 10)
  else if 0x41 ≤ c ∧ c ≤ 0x46 then some (c.toNat - 0x41 + 10)
  else none

/-- Convert hexadecimal string to unsigned integer: at most `n` digits from `first` on. -/
def hatoui (cell : ℕ → UInt8) (size : ℕ) : ℕ → ℕ → ℕ → Except Stop (ℕ × ℕ)
  | 0, first, result => .ok (first, result)
  | n + 1, first, result => do
    let c ← read cell size first
    match hexDigit c with
    | some digit => hatoui cell size n (first + 1) (16 * result + digit)
    | none => .ok (first, result)

/-! ## Strings -/

/-- What an escape of one character stands for. -/
def unescape (c : UInt8) : Option UInt8 :=
  if c = 0x22 then some 0x22
  else if c = 0x5C then some 0x5C
  else if c = 0x2F then some 0x2F
  else if c = 0x62 then some 0x08
  else if c = 0x66 then some 0x0C
  else if c = 0x6E then some 0x0A
  else if c = 0x72 then some 0x0D
  else if c = 0x74 then some 0x09
  else none

/-- The bytes of a code point, which four digits keep below 0x10000. -/
def encode (codepoint : ℕ) : List UInt8 :=
  if codepoint ≤ 0x7F then [.ofNat codepoint]
  else if codepoint ≤ 0x7FF then
    [.ofNat (0xC0 ||| codepoint >>> 6), .ofNat (0x80 ||| (codepoint &&& 0x3F))]
  else
    [.ofNat (0xE0 ||| codepoint >>> 12), .ofNat (0x80 ||| ((codepoint >>> 6) &&& 0x3F)),
      .ofNat (0x80 ||| (codepoint &&& 0x3F))]

/-- The loop over a string: the reader `it` and behind it the writer `last`. -/
structure Scan where
  cell : ℕ → UInt8
  it : ℕ
  last : ℕ
  escapedNewlines : ℕ

/-- Write decoded bytes and go on with the reader. -/
def Scan.emit (s : Scan) (size : ℕ) (bytes : List UInt8) (consumed : ℕ) : Except Stop Scan :=
  if s.last + bytes.length ≤ size + 1 then
    .ok { s with
      cell := put s.cell s.last bytes, last := s.last + bytes.length, it := s.it + consumed }
  else .error (.outside (size + 1))

/-- The escape at the reader. -/
def scanEscape (size first : ℕ) (s : Scan) : Except Stop Scan := do
  let c ← read s.cell size (s.it + 1)
  match unescape c with
  | some b =>
    let s' ← s.emit size [b] 2
    return { s' with escapedNewlines := s.escapedNewlines + if c = 0x6E then 1 else 0 }
  | none =>
    if c = 0x75 then
      let (stop, codepoint) ← hatoui s.cell size 4 (s.it + 2) 0
      if stop ≠ s.it + 6 then fail s.cell size s.escapedNewlines s.it "Bad unicode codepoint"
      else s.emit size (encode codepoint) 6
    else fail s.cell size s.escapedNewlines first "Unrecognized escape sequence"

/-- One iteration of the loop over a string, and whether it was the last one. -/
def scanStep (size first : ℕ) (s : Scan) : Except Stop (Bool × Scan) := do
  let c ← read s.cell size s.it
  if c = 0 then return (true, s)
  else if c < 0x20 then
    fail s.cell size s.escapedNewlines first "Control characters not allowed in strings"
  else if c = 0x5C then return (false, ← scanEscape size first s)
  else if c = 0x22 then
    let s' ← s.emit size [0] 1
    return (true, { s' with last := s.last })
  else return (false, ← s.emit size [c] 1)

def scanString (size first : ℕ) : ℕ → Scan → Except Stop Scan
  | 0, _ => .error .unfinished
  | fuel + 1, s => do
    let (finished, s') ← scanStep size first s
    if finished then return s' else scanString size first fuel s'

/-! ## Tokens -/

/-- Append a node to the children of another. -/
def jsonAppend (nodes : ℕ → JsonValue) (lhs rhs : ℕ) : ℕ → JsonValue :=
  let nodes := Function.update nodes rhs { nodes rhs with parent := some lhs }
  match (nodes lhs).lastChild with
  | some last =>
    let nodes := Function.update nodes last { nodes last with nextSibling := some rhs }
    Function.update nodes lhs { nodes lhs with lastChild := some rhs }
  | none =>
    Function.update nodes lhs { nodes lhs with firstChild := some rhs, lastChild := some rhs }

/-- A new node takes the pending name. -/
def Parser.alloc (p : Parser) (type : JsonType) (payload : Payload) : Parser :=
  { p with
    nodes := Function.update p.nodes p.count ⟨none, none, none, none, p.name, payload, type⟩
    count := p.count + 1
    name := none }

/-- A new node under `top`. -/
def Parser.append (p : Parser) (top : ℕ) (type : JsonType) (payload : Payload) : Parser :=
  let q := p.alloc type payload
  { q with nodes := jsonAppend q.nodes top p.count }

def containerType (c : UInt8) : JsonType := if c = 0x7B ∨ c = 0x7D then .object else .array

/-- An opening brace or bracket. -/
def openToken (p : Parser) (c : UInt8) : Except Stop Parser :=
  match p.top, p.root with
  | some top, _ =>
    .ok { p.append top (containerType c) .zero with it := p.it + 1, top := some p.count }
  | none, none =>
    .ok { p.alloc (containerType c) .zero with
      it := p.it + 1, root := some p.count, top := some p.count }
  | none, some _ => p.fail (p.it + 1) "Second root. Only one root allowed"

/-- A closing brace or bracket. -/
def closeToken (p : Parser) (c : UInt8) : Except Stop Parser :=
  match p.top with
  | none => p.fail p.it "Mismatch closing brace/bracket"
  | some top =>
    if (p.nodes top).type ≠ containerType c then p.fail p.it "Mismatch closing brace/bracket"
    else .ok { p with it := p.it + 1, top := (p.nodes top).parent }

def colonToken (p : Parser) : Except Stop Parser :=
  match p.top with
  | none => p.fail p.it "Unexpected character"
  | some top =>
    if (p.nodes top).type ≠ .object then p.fail p.it "Unexpected character"
    else .ok { p with it := p.it + 1 }

/-- The macro `CHECK_TOP`. -/
def Parser.checkTop (p : Parser) : Except Stop ℕ :=
  match p.top with
  | none => p.fail p.it "Unexpected character"
  | some top => .ok top

def commaToken (p : Parser) : Except Stop Parser := do
  let _ ← p.checkTop
  return { p with it := p.it + 1 }

/-- A string is the name of the next member or a value. -/
def stringToken (p : Parser) : Except Stop Parser := do
  let top ← p.checkTop
  let first := p.it + 1
  let s ← scanString p.size first (p.size + 2) ⟨p.cell, first, first, p.escapedNewlines⟩
  let q := { p with cell := s.cell, it := s.it, escapedNewlines := s.escapedNewlines }
  if p.name = none ∧ (p.nodes top).type = .object then return { q with name := some first }
  else return q.append top .string (.stringValue first)

/-- The bytes of a word one after the other, up to the first that differs. -/
def matchWord (cell : ℕ → UInt8) (size : ℕ) : ℕ → List UInt8 → Except Stop Bool
  | _, [] => .ok true
  | pos, b :: bs => do
    let c ← read cell size pos
    if c = b then matchWord cell size (pos + 1) bs else return false

def keywordToken (p : Parser) : Except Stop Parser := do
  let top ← p.checkTop
  if ← matchWord p.cell p.size p.it [0x6E, 0x75, 0x6C, 0x6C] then
    return { p.append top .null .zero with it := p.it + 4 }
  else if ← matchWord p.cell p.size p.it [0x74, 0x72, 0x75, 0x65] then
    return { p.append top .bool (.intValue 1) with it := p.it + 4 }
  else if ← matchWord p.cell p.size p.it [0x66, 0x61, 0x6C, 0x73, 0x65] then
    return { p.append top .bool (.intValue 0) with it := p.it + 5 }
  else p.fail p.it "Unknown identifier"

def isBlank (c : UInt8) : Bool := c = 0x20 || c = 0x09 || c = 0x0D || c = 0x0A

/-- Where a number ends. The terminating byte of the source is not among these. -/
def isDelimiter (c : UInt8) : Bool := isBlank c || c = 0x2C || c = 0x5D || c = 0x7D

/-- The end of a number and whether it is a float. -/
def scanNumber (cell : ℕ → UInt8) (size : ℕ) : ℕ → ℕ → Bool → Except Stop (ℕ × Bool)
  | 0, _, _ => .error .unfinished
  | fuel + 1, it, isFloat => do
    let c ← read cell size it
    if isDelimiter c then return (it, isFloat)
    else scanNumber cell size fuel (it + 1) (isFloat || c = 0x2E || c = 0x65 || c = 0x45)

def numberToken (p : Parser) : Except Stop Parser := do
  let top ← p.checkTop
  let (it, isFloat) ← scanNumber p.cell p.size (p.size + 2) p.it false
  if isFloat then
    if atof p.cell p.it it ≠ it then p.fail p.it "Bad float number"
    else return { p.append top .float .floatValue with it := it }
  else
    let (stop, i) := atoi p.cell p.it it
    if stop ≠ it then p.fail p.it "Bad integer number"
    else return { p.append top .int (.intValue i) with it := it }

/-- The token that starts with `c`. -/
def token (p : Parser) (c : UInt8) : Except Stop Parser :=
  if c = 0x7B ∨ c = 0x5B then openToken p c
  else if c = 0x7D ∨ c = 0x5D then closeToken p c
  else if c = 0x3A then colonToken p
  else if c = 0x2C then commaToken p
  else if c = 0x22 then stringToken p
  else if c = 0x6E ∨ c = 0x74 ∨ c = 0x66 then keywordToken p
  else if c = 0x2D ∨ isDigit c then numberToken p
  else p.fail p.it "Unexpected character"

/-! ## The document -/

/-- Skip white space. -/
def skipBlanks (cell : ℕ → UInt8) (size : ℕ) : ℕ → ℕ → Except Stop ℕ
  | 0, _ => .error .unfinished
  | fuel + 1, it => do
    let c ← read cell size it
    if isBlank c then skipBlanks cell size fuel (it + 1) else return it

/-- One iteration of the main loop at a byte that does not end the source. -/
def iterate (p : Parser) (c : UInt8) : Except Stop Parser := do
  let q ← token p c
  let it ← skipBlanks q.cell q.size (q.size + 2) q.it
  return { q with it := it }

/-- The main loop. -/
def parseLoop : ℕ → Parser → Except Stop Parser
  | 0, _ => .error .unfinished
  | fuel + 1, p => do
    let c ← read p.cell p.size p.it
    if c = 0 then return p else parseLoop fuel (← iterate p c)

/-- A source of bytes, ended by a zero byte. -/
def Parser.init (source : List UInt8) : Parser where
  cell i := source.getD i 0
  size := source.length
  it := 0
  nodes _ := ⟨none, none, none, none, none, .zero, .null⟩
  count := 0
  root := none
  top := none
  name := none
  escapedNewlines := 0

def jsonParse (source : List UInt8) : Except Stop Parser := do
  let p ← parseLoop (source.length + 1) (Parser.init source)
  if p.top ≠ none then p.fail p.it "Not all objects/arrays have been properly closed"
  else return p

end Socrocket.Common.JsonParser
