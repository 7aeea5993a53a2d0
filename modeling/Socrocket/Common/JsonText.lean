/- Socrocket/Common/JsonText
   digest: Strings and numbers as they are written, and what the scanners make of them. -/

import Mathlib.Data.BitVec
import Mathlib.Data.List.GetD
import Mathlib.Tactic.IntervalCases
import Socrocket.Common.JsonSafety

set_option autoImplicit false
set_option relaxedAutoImplicit false

namespace Socrocket.Common.JsonParser

/-! ## How documents are written -/

/-- White space. -/
inductive Blank where
  | space | tab | carriageReturn | newline

def Blank.byte : Blank → UInt8
  | .space => 0x20
  | .tab => 0x09
  | .carriageReturn => 0x0D
  | .newline => 0x0A

def blanks (ws : List Blank) : List UInt8 := ws.map Blank.byte

/-- A hexadecimal digit with its case. -/
structure HexDigit where
  value : ℕ
  upper : Bool
  small : value < 16

def HexDigit.byte (d : HexDigit) : UInt8 :=
  .ofNat (if d.value < 10 then 0x30 + d.value
    else if d.upper then 0x41 + (d.value - 10) else 0x61 + (d.value - 10))

/-- The escapes of one character. -/
inductive Escape where
  | quote | backslash | slash | backspace | formFeed | newline | carriageReturn | tab

def Escape.letter : Escape → UInt8
  | .quote => 0x22
  | .backslash => 0x5C
  | .slash => 0x2F
  | .backspace => 0x62
  | .formFeed => 0x66
  | .newline => 0x6E
  | .carriageReturn => 0x72
  | .tab => 0x74

def Escape.byte : Escape → UInt8
  | .quote => 0x22
  | .backslash => 0x5C
  | .slash => 0x2F
  | .backspace => 0x08
  | .formFeed => 0x0C
  | .newline => 0x0A
  | .carriageReturn => 0x0D
  | .tab => 0x09

def codepoint (a b c d : HexDigit) : ℕ :=
  16 * (16 * (16 * a.value + b.value) + c.value) + d.value

/-- Part of a string: a printable or non-ASCII byte, an escape or four hexadecimal digits that are
neither zero nor a surrogate. -/
inductive Piece where
  | plain (b : UInt8) (printable : 0x20 ≤ b) (noQuote : b ≠ 0x22) (noBackslash : b ≠ 0x5C)
  | escape (e : Escape)
  | unicode (a b c d : HexDigit) (nonzero : codepoint a b c d ≠ 0)
      (scalar : codepoint a b c d < 0xD800 ∨ 0xDFFF < codepoint a b c d)

def Piece.text : Piece → List UInt8
  | .plain b .. => [b]
  | .escape e => [0x5C, e.letter]
  | .unicode a b c d .. => [0x5C, 0x75, a.byte, b.byte, c.byte, d.byte]

/-- The bytes a part of a string stands for, in UTF-8. -/
def Piece.value : Piece → List UInt8
  | .plain b .. => [b]
  | .escape e => [e.byte]
  | .unicode a b c d .. => String.utf8EncodeChar (Char.ofNat (codepoint a b c d))

def quoted (s : List Piece) : List UInt8 := 0x22 :: (s.flatMap Piece.text ++ [0x22])

def unquoted (s : List Piece) : List UInt8 := s.flatMap Piece.value

/-- A decimal digit. -/
structure Digit where
  value : ℕ
  small : value < 10

def Digit.byte (d : Digit) : UInt8 := .ofNat (0x30 + d.value)

def numeral (ds : List Digit) : List UInt8 := ds.map Digit.byte

/-- The number that digits stand for, continuing one already read. -/
def numeralValue (start : ℕ) (ds : List Digit) : ℕ := ds.foldl (fun n d => 10 * n + d.value) start

def minus (negative : Bool) : List UInt8 := if negative then [0x2D] else []

/-- A number with a fraction or an exponent. -/
structure FloatLiteral where
  negative : Bool
  integer : List Digit
  fraction : Option (List Digit)
  exponent : Option (Bool × Option Bool × List Digit)
  begun : integer ≠ []
  isFloat : fraction.isSome ∨ exponent.isSome

def fractionText : Option (List Digit) → List UInt8
  | none => []
  | some ds => 0x2E :: numeral ds

/-- A sign that may be missing, in front of an exponent. -/
def signText : Option Bool → List UInt8
  | none => []
  | some negative => [if negative then 0x2D else 0x2B]

def exponentText : Option (Bool × Option Bool × List Digit) → List UInt8
  | none => []
  | some (upper, sign, ds) => (if upper then 0x45 else 0x65) :: (signText sign ++ numeral ds)

def FloatLiteral.text (f : FloatLiteral) : List UInt8 :=
  minus f.negative ++ numeral f.integer ++ fractionText f.fraction ++ exponentText f.exponent

/-! ## The bytes ahead -/

/-- The bytes from a position on, up to the end of the source. -/
def Ahead (cell : ℕ → UInt8) : ℕ → List UInt8 → Prop
  | it, [] => cell it = 0
  | it, b :: l => cell it = b ∧ Ahead cell (it + 1) l

variable {cell : ℕ → UInt8} {size it fuel : ℕ} {l : List UInt8}

theorem Ahead.drop {text : List UInt8} (ahead : Ahead cell it (text ++ l)) :
    Ahead cell (it + text.length) l := by
  induction text generalizing it with
  | nil => exact ahead
  | cons b text ih =>
    have rest := ih ahead.2
    rwa [List.length_cons, Nat.add_comm text.length 1, ← Nat.add_assoc]

theorem Ahead.congr {other : ℕ → UInt8} (ahead : Ahead cell it l)
    (same : ∀ i, it ≤ i → other i = cell i) : Ahead other it l := by
  induction l generalizing it with
  | nil => exact (same it le_rfl).trans ahead
  | cons b l ih =>
    exact ⟨(same it le_rfl).trans ahead.1, ih ahead.2 fun i later => same i (by omega)⟩

theorem ahead_of_getD {source : List UInt8} (text : ∀ i, it ≤ i → cell i = source.getD i 0)
    (rest : source.drop it = l) : Ahead cell it l := by
  induction l generalizing it with
  | nil =>
    have past := List.drop_eq_nil_iff.1 rest
    exact (text it le_rfl).trans (List.getD_eq_default _ _ past)
  | cons b l ih =>
    have before : it < source.length := by
      by_contra past
      rw [List.drop_eq_nil_iff.2 (by omega)] at rest
      cases rest
    rw [List.drop_eq_getElem_cons before, List.cons.injEq] at rest
    refine ⟨?_, ih (fun i later => text i (by omega)) rest.2⟩
    rw [text it le_rfl, List.getD_eq_getElem _ _ before, rest.1]

/-- The first byte does not satisfy a test. The byte after the source is zero. -/
def Stops (test : UInt8 → Bool) : List UInt8 → Prop
  | [] => test 0 = false
  | b :: _ => test b = false

theorem Stops.here {test : UInt8 → Bool} (stops : Stops test l) (ahead : Ahead cell it l) :
    test (cell it) = false := by
  cases l with
  | nil => exact (congrArg test ahead).trans stops
  | cons b l => exact (congrArg test ahead.1).trans stops

theorem read_bind {α : Type} (inside : it ≤ size) (f : UInt8 → Except Stop α) :
    (read cell size it >>= f) = f (cell it) := by
  rw [read, if_pos inside]
  rfl

theorem isBlank_byte (w : Blank) : isBlank w.byte = true := by
  cases w <;> rfl

theorem skipBlanks_blanks (ws : List Blank) (stops : Stops isBlank l)
    (ahead : Ahead cell it (blanks ws ++ l)) (inside : it + ws.length ≤ size)
    (enough : ws.length < fuel) : skipBlanks cell size fuel it = .ok (it + ws.length) := by
  induction ws generalizing it fuel with
  | nil =>
    obtain ⟨fuel, rfl⟩ := Nat.exists_eq_succ_of_ne_zero (by omega : fuel ≠ 0)
    rw [skipBlanks, read_bind (by simpa using inside), if_neg (by simp [stops.here ahead])]
    rfl
  | cons w ws ih =>
    obtain ⟨fuel, rfl⟩ := Nat.exists_eq_succ_of_ne_zero (by omega : fuel ≠ 0)
    rw [List.length_cons] at inside enough
    have blank : isBlank (cell it) = true := (congrArg isBlank ahead.1).trans (isBlank_byte w)
    rw [skipBlanks, read_bind (by omega), if_pos blank, ih ahead.2 (by omega) (by omega),
      List.length_cons]
    congr 1
    omega

theorem matchWord_self (word : List UInt8) (ahead : Ahead cell it (word ++ l))
    (inside : it + word.length ≤ size) : matchWord cell size it word = .ok true := by
  induction word generalizing it with
  | nil => rfl
  | cons b word ih =>
    rw [List.length_cons] at inside
    rw [matchWord, read_bind (by omega), if_pos ahead.1]
    exact ih ahead.2 (by omega)

theorem matchWord_other {b : UInt8} (word : List UInt8) (different : cell it ≠ b)
    (inside : it ≤ size) : matchWord cell size it (b :: word) = .ok false := by
  rw [matchWord, read_bind inside, if_neg different]
  rfl

/-! ## Strings -/

theorem hexDigit_byte (d : HexDigit) : hexDigit d.byte = some d.value := by
  obtain ⟨value, upper, small⟩ := d
  unfold HexDigit.byte
  dsimp only
  interval_cases value <;> cases upper <;> rfl

theorem hatoui_codepoint {a b c d : HexDigit}
    (ahead : Ahead cell it ([a.byte, b.byte, c.byte, d.byte] ++ l)) (inside : it + 4 ≤ size) :
    hatoui cell size 4 it 0 = .ok (it + 4, codepoint a b c d) := by
  obtain ⟨first, second, third, fourth, -⟩ := ahead
  rw [hatoui, read_bind (by omega), first, hexDigit_byte]
  dsimp only
  rw [hatoui, read_bind (by omega), second, hexDigit_byte]
  dsimp only
  rw [hatoui, read_bind (by omega), third, hexDigit_byte]
  dsimp only
  rw [hatoui, read_bind (by omega), fourth, hexDigit_byte]
  dsimp only
  rw [hatoui, codepoint, Nat.mul_zero, Nat.zero_add]

theorem codepoint_lt (a b c d : HexDigit) : codepoint a b c d < 0x10000 := by
  have := a.small
  have := b.small
  have := c.small
  have := d.small
  unfold codepoint
  omega

private theorem mark_or (k mark : ℕ) {low : ℕ} (fits : low < 2 ^ k) :
    2 ^ k * mark ||| low = low + 2 ^ k * mark := by
  rw [← Nat.two_pow_add_eq_or_of_lt fits, Nat.add_comm]

private theorem continuation (m : ℕ) : 0x80 ||| (m &&& 0x3F) = m % 0x40 + 0x80 := by
  rw [Nat.and_two_pow_sub_one_eq_mod m 6]
  exact mark_or 6 2 (Nat.mod_lt m (by omega))

private theorem lead_of_two {n : ℕ} (small : n ≤ 0x7FF) : 0xC0 ||| n >>> 6 = n / 64 + 0xC0 := by
  rw [Nat.shiftRight_eq_div_pow]
  exact mark_or 6 3 (by omega)

private theorem lead_of_three {n : ℕ} (small : n < 0x10000) :
    0xE0 ||| n >>> 12 = n / 4096 + 0xE0 := by
  rw [Nat.shiftRight_eq_div_pow]
  exact mark_or 5 7 (by omega)

theorem encode_eq_utf8 {n : ℕ} (scalar : n < 0xD800 ∨ 0xDFFF < n) (small : n < 0x10000) :
    encode n = String.utf8EncodeChar (Char.ofNat n) := by
  have valid : n.isValidChar := by
    rcases scalar with low | high
    · exact Or.inl low
    · exact Or.inr ⟨high, by omega⟩
  have value : (Char.ofNat n).val.toNat = n := by
    rw [Char.ofNat, dif_pos valid]
    rfl
  unfold encode String.utf8EncodeChar
  rw [value, continuation, continuation]
  dsimp only
  split_ifs with one two
  · rfl
  · rw [lead_of_two two, Nat.mod_eq_of_lt (by omega : n / 64 < 0x20)]
  · rw [lead_of_three small, Nat.mod_eq_of_lt (by omega : n / 4096 < 0x10),
      Nat.shiftRight_eq_div_pow]
  · omega

theorem Piece.value_eq {a b c d : HexDigit} (nonzero : codepoint a b c d ≠ 0)
    (scalar : codepoint a b c d < 0xD800 ∨ 0xDFFF < codepoint a b c d) :
    (Piece.unicode a b c d nonzero scalar).value = encode (codepoint a b c d) :=
  (encode_eq_utf8 scalar (codepoint_lt a b c d)).symm

theorem Piece.value_length_le (piece : Piece) : piece.value.length ≤ piece.text.length := by
  cases piece with
  | plain b => exact le_rfl
  | escape e => exact Nat.le_succ 1
  | unicode a b c d nonzero scalar =>
    rw [Piece.value_eq nonzero scalar]
    exact (encode_length _).trans (Nat.le_add_right 3 3)

theorem unescape_letter (e : Escape) : unescape e.letter = some e.byte := by
  cases e <;> rfl

/-- Decoded bytes take no more room than the text they stand for, so there is always room. -/
theorem emit_eq (s : Scan) (bytes : List UInt8) {consumed : ℕ} (behind : s.last ≤ s.it)
    (shorter : bytes.length ≤ consumed) (inside : s.it + consumed ≤ size) :
    s.emit size bytes consumed = .ok { s with
      cell := put s.cell s.last bytes, last := s.last + bytes.length, it := s.it + consumed } :=
  if_pos (by omega)

theorem scanStep_piece (size first : ℕ) (s : Scan) (piece : Piece) (behind : s.last ≤ s.it)
    (ahead : Ahead s.cell s.it (piece.text ++ l)) (inside : s.it + piece.text.length ≤ size) :
    ∃ newlines, scanStep size first s = .ok (false,
      ⟨put s.cell s.last piece.value, s.it + piece.text.length, s.last + piece.value.length,
        newlines⟩) := by
  cases piece with
  | plain b printable noQuote noBackslash =>
    obtain ⟨here, -⟩ := ahead
    have nonzero : b ≠ 0 := by
      rintro rfl
      exact absurd printable (by decide)
    refine ⟨s.escapedNewlines, ?_⟩
    rw [scanStep, read_bind (by change s.it + 1 ≤ size at inside; omega), here, if_neg nonzero,
      if_neg (UInt8.not_lt.2 printable), if_neg noBackslash, if_neg noQuote,
      emit_eq s [b] behind (le_refl 1) inside]
    rfl
  | escape e =>
    obtain ⟨here, letter, -⟩ := ahead
    change s.it + 2 ≤ size at inside
    refine ⟨s.escapedNewlines + if e.letter = 0x6E then 1 else 0, ?_⟩
    rw [scanStep, read_bind (by omega), here, if_neg (by decide), if_neg (by decide), if_pos rfl,
      scanEscape, read_bind (by omega), letter, unescape_letter]
    dsimp only
    rw [emit_eq s [e.byte] behind (Nat.le_succ 1) inside]
    rfl
  | unicode a b c d nonzero scalar =>
    obtain ⟨here, letter, digits⟩ := ahead
    change s.it + 6 ≤ size at inside
    refine ⟨s.escapedNewlines, ?_⟩
    rw [scanStep, read_bind (by omega), here, if_neg (by decide), if_neg (by decide), if_pos rfl,
      scanEscape, read_bind (by omega), letter]
    change ((hatoui s.cell size 4 (s.it + 2) 0 >>= _) >>= _) = _
    rw [hatoui_codepoint digits (by omega), Piece.value_eq nonzero scalar]
    change ((if s.it + 2 + 4 ≠ s.it + 6 then _ else _) >>= _) = _
    rw [if_neg (by omega), emit_eq s (encode (codepoint a b c d)) behind
      ((encode_length _).trans (by decide)) inside]
    rfl

theorem put_append (cell : ℕ → UInt8) (pos : ℕ) (a b : List UInt8) :
    put cell pos (a ++ b) = put (put cell pos a) (pos + a.length) b := by
  induction a generalizing cell pos with
  | nil => rfl
  | cons c a ih =>
    rw [List.cons_append, put, put, ih, List.length_cons, Nat.add_right_comm, ← Nat.add_assoc]

/-- The loop over a string ends behind the closing quote and has put the decoded bytes and a zero
where the writer started. -/
theorem scanString_pieces (fuel size first : ℕ) (pieces : List Piece) (s : Scan)
    (behind : s.last ≤ s.it)
    (ahead : Ahead s.cell s.it (pieces.flatMap Piece.text ++ 0x22 :: l))
    (inside : s.it + (pieces.flatMap Piece.text).length < size) (enough : pieces.length < fuel) :
    ∃ t, scanString size first fuel s = .ok t ∧
      t.cell = put s.cell s.last (unquoted pieces ++ [0]) ∧
      t.it = s.it + (pieces.flatMap Piece.text).length + 1 := by
  induction pieces generalizing fuel s with
  | nil =>
    obtain ⟨fuel, rfl⟩ := Nat.exists_eq_succ_of_ne_zero (by omega : fuel ≠ 0)
    refine ⟨⟨put s.cell s.last [0], s.it + 1, s.last, s.escapedNewlines⟩, ?_, rfl, rfl⟩
    change s.it + 0 < size at inside
    rw [scanString, scanStep, read_bind (by omega), ahead.1, if_neg (by decide),
      if_neg (by decide), if_neg (by decide), if_pos rfl,
      emit_eq s [0] behind (le_refl 1) (by omega)]
    rfl
  | cons piece pieces ih =>
    obtain ⟨fuel, rfl⟩ := Nat.exists_eq_succ_of_ne_zero (by omega : fuel ≠ 0)
    rw [List.flatMap_cons, List.length_append] at inside
    rw [List.flatMap_cons, List.append_assoc] at ahead
    have shorter := piece.value_length_le
    obtain ⟨newlines, step⟩ := scanStep_piece size first s piece behind ahead (by omega)
    have ahead' : Ahead (put s.cell s.last piece.value) (s.it + piece.text.length)
        (pieces.flatMap Piece.text ++ 0x22 :: l) :=
      ahead.drop.congr fun i later => put_behind (by omega)
    have inside' : s.it + piece.text.length + (pieces.flatMap Piece.text).length < size := by omega
    obtain ⟨t, scanned, cells, stopped⟩ := ih fuel
      ⟨put s.cell s.last piece.value, s.it + piece.text.length, s.last + piece.value.length,
        newlines⟩ (Nat.add_le_add behind shorter) ahead' inside' (Nat.lt_of_succ_lt_succ enough)
    have joined : unquoted (piece :: pieces) ++ [0] = piece.value ++ (unquoted pieces ++ [0]) := by
      rw [unquoted, List.flatMap_cons, List.append_assoc, ← unquoted]
    refine ⟨t, ?_, ?_, ?_⟩
    · rw [scanString, step]
      exact scanned
    · rw [joined, put_append _ _ piece.value]
      exact cells
    · rw [stopped, List.flatMap_cons, List.length_append, Nat.add_assoc s.it]

/-- A zero-terminated string in memory. -/
def CString (cell : ℕ → UInt8) : ℕ → List UInt8 → Prop
  | pos, [] => cell pos = 0
  | pos, b :: bytes => cell pos = b ∧ b ≠ 0 ∧ CString cell (pos + 1) bytes

theorem CString.congr {other : ℕ → UInt8} {pos : ℕ} {bytes : List UInt8}
    (string : CString cell pos bytes) (same : ∀ i, i ≤ pos + bytes.length → other i = cell i) :
    CString other pos bytes := by
  induction bytes generalizing pos with
  | nil => exact (same pos le_rfl).trans string
  | cons b bytes ih =>
    obtain ⟨here, nonzero, rest⟩ := string
    rw [List.length_cons] at same
    exact ⟨(same pos (by omega)).trans here, nonzero, ih rest fun i below => same i (by omega)⟩

theorem put_cstring (pos : ℕ) (bytes : List UInt8) (nonzero : ∀ b ∈ bytes, b ≠ 0) :
    CString (put cell pos (bytes ++ [0])) pos bytes := by
  induction bytes generalizing cell pos with
  | nil =>
    change Function.update cell pos 0 pos = 0
    rw [Function.update_self]
  | cons b bytes ih =>
    refine ⟨?_, nonzero b (List.mem_cons_self ..), ?_⟩
    · rw [List.cons_append, put, put_before (Nat.lt_add_one pos), Function.update_self]
    · exact ih (pos + 1) fun c member => nonzero c (List.mem_cons_of_mem _ member)

private theorem ofNat_ne_zero {n : ℕ} (low : 0 < n) (high : n < 256) : UInt8.ofNat n ≠ 0 := by
  intro zero
  have value := congrArg UInt8.toNat zero
  rw [UInt8.toNat_ofNat', Nat.mod_eq_of_lt high] at value
  exact absurd value low.ne'

theorem unquoted_ne_zero (pieces : List Piece) : ∀ b ∈ unquoted pieces, b ≠ 0 := by
  intro b member
  obtain ⟨piece, -, inside⟩ := List.mem_flatMap.1 member
  cases piece with
  | plain c printable =>
    cases List.mem_singleton.1 inside
    rintro rfl
    exact absurd printable (by decide)
  | escape e =>
    cases List.mem_singleton.1 inside
    cases e <;> decide
  | unicode c d e f nonzero scalar =>
    rw [Piece.value_eq nonzero scalar] at inside
    have small := codepoint_lt c d e f
    revert inside
    generalize codepoint c d e f = n at nonzero small
    unfold encode
    rw [continuation, continuation]
    split_ifs with one two
    · intro inside
      cases List.mem_singleton.1 inside
      exact ofNat_ne_zero (by omega) (by omega)
    · simp only [List.mem_cons, List.not_mem_nil, or_false]
      rw [lead_of_two two]
      rintro (rfl | rfl)
      · exact ofNat_ne_zero (by omega) (by omega)
      · exact ofNat_ne_zero (by omega) (by omega)
    · simp only [List.mem_cons, List.not_mem_nil, or_false]
      rw [lead_of_three small]
      rintro (rfl | rfl | rfl)
      · exact ofNat_ne_zero (by omega) (by omega)
      · exact ofNat_ne_zero (by omega) (by omega)
      · exact ofNat_ne_zero (by omega) (by omega)

/-! ## Numbers -/

theorem Digit.isDigit_byte (d : Digit) : isDigit d.byte = true := by
  obtain ⟨value, small⟩ := d
  unfold Digit.byte
  dsimp only
  interval_cases value <;> rfl

theorem Digit.toNat_byte (d : Digit) : d.byte.toNat - 0x30 = d.value := by
  obtain ⟨value, small⟩ := d
  unfold Digit.byte
  dsimp only
  interval_cases value <;> rfl

theorem ne_of_isDigit {c d : UInt8} (digit : isDigit c = true) (other : isDigit d = false) :
    c ≠ d := by
  rintro rfl
  exact Bool.noConfusion (other.symm.trans digit)

theorem digits_numeral (n first start : ℕ) (ds : List Digit)
    (ahead : Ahead cell first (numeral ds ++ l)) (enough : ds.length ≤ n)
    (ends : ds.length = n ∨ Stops isDigit l) :
    digits cell n first (BitVec.ofNat 32 start) =
      (first + ds.length, BitVec.ofNat 32 (numeralValue start ds)) := by
  induction ds generalizing n first start with
  | nil =>
    cases n with
    | zero => rfl
    | succ n =>
      rcases ends with none_left | stops
      · cases none_left
      · rw [digits, if_neg (by simp [stops.here ahead])]
        rfl
  | cons d ds ih =>
    rw [List.length_cons] at enough ends
    obtain ⟨n, rfl⟩ := Nat.exists_eq_succ_of_ne_zero (by omega : n ≠ 0)
    obtain ⟨here, rest⟩ := ahead
    have next : 10 * BitVec.ofNat 32 start + BitVec.ofNat 32 d.value =
        BitVec.ofNat 32 (10 * start + d.value) := by
      rw [BitVec.ofNat_add, BitVec.ofNat_mul]
      rfl
    rw [digits, here, if_pos d.isDigit_byte, d.toNat_byte, next,
      ih n (first + 1) (10 * start + d.value) rest (by omega)
        (ends.imp_left Nat.succ.inj), List.length_cons,
      Nat.add_right_comm, Nat.add_assoc]
    rfl

theorem atoi_literal {first last : ℕ} (negative : Bool) (ds : List Digit) (begun : ds ≠ [])
    (ahead : Ahead cell first (minus negative ++ (numeral ds ++ l)))
    (ends : last = first + (minus negative ++ numeral ds).length) :
    atoi cell first last = (last, if negative then -BitVec.ofNat 32 (numeralValue 0 ds)
      else BitVec.ofNat 32 (numeralValue 0 ds)) := by
  cases negative with
  | true =>
    obtain ⟨here, rest⟩ := ahead
    change last = first + (numeral ds).length + 1 at ends
    rw [numeral, List.length_map] at ends
    have value : digits cell (last - (first + 1)) (first + 1) 0 = _ :=
      digits_numeral (last - (first + 1)) (first + 1) 0 ds rest (by omega) (Or.inl (by omega))
    rw [atoi, if_pos ⟨by omega, here⟩, value]
    refine Prod.ext ?_ rfl
    dsimp only
    omega
  | false =>
    change last = first + (numeral ds).length at ends
    rw [numeral, List.length_map] at ends
    have value : digits cell (last - first) first 0 = _ :=
      digits_numeral (last - first) first 0 ds ahead (by omega) (Or.inl (by omega))
    have digit : isDigit (cell first) = true := by
      cases ds with
      | nil => exact absurd rfl begun
      | cons d ds => exact (congrArg isDigit ahead.1).trans d.isDigit_byte
    rw [atoi, if_neg fun sign => ne_of_isDigit digit rfl sign.2,
      if_neg fun sign => ne_of_isDigit digit rfl sign.2, value]
    refine Prod.ext ?_ rfl
    dsimp only
    omega

theorem toInt_literal (negative : Bool) {n : ℕ} (small : n < 2 ^ 31) :
    (if negative then -BitVec.ofNat 32 n else BitVec.ofNat 32 n).toInt =
      if negative then -(n : ℤ) else n := by
  cases negative with
  | true =>
    rw [if_pos rfl, if_pos rfl, BitVec.toInt_neg, BitVec.toInt_eq_toNat_bmod,
      BitVec.toNat_ofNat]
    simp only [Int.bmod_def]
    omega
  | false =>
    rw [if_neg Bool.false_ne_true, if_neg Bool.false_ne_true, BitVec.toInt_eq_toNat_bmod,
      BitVec.toNat_ofNat]
    simp only [Int.bmod_def]
    omega

/-- The bytes that make a number a float. -/
def isMark (c : UInt8) : Bool := c = 0x2E || c = 0x65 || c = 0x45

theorem scanNumber_literal (fuel it : ℕ) (text : List UInt8) (isFloat : Bool)
    (ahead : Ahead cell it (text ++ l)) (inner : ∀ b ∈ text, isDelimiter b = false)
    (ends : isDelimiter (cell (it + text.length)) = true) (inside : it + text.length ≤ size)
    (enough : text.length < fuel) :
    scanNumber cell size fuel it isFloat = .ok (it + text.length, isFloat || text.any isMark) := by
  induction text generalizing fuel it isFloat with
  | nil =>
    obtain ⟨fuel, rfl⟩ := Nat.exists_eq_succ_of_ne_zero (by omega : fuel ≠ 0)
    have here : isDelimiter (cell it) = true := ends
    rw [scanNumber, read_bind (Nat.le_of_add_right_le inside), if_pos here, List.any_nil,
      Bool.or_false]
    rfl
  | cons b text ih =>
    obtain ⟨fuel, rfl⟩ := Nat.exists_eq_succ_of_ne_zero (by omega : fuel ≠ 0)
    rw [List.length_cons] at inside enough ends
    obtain ⟨here, rest⟩ := ahead
    rw [scanNumber, read_bind (by omega), here, if_neg (by simp [inner b (List.mem_cons_self ..)]),
      ih fuel (it + 1) _ rest (fun c member => inner c (List.mem_cons_of_mem _ member))
        (by rwa [Nat.add_right_comm, Nat.add_assoc]) (by omega) (by omega), List.length_cons,
      List.any_cons, Nat.add_right_comm, Nat.add_assoc, isMark]
    simp only [Bool.or_assoc]

theorem numeral_delimiter (ds : List Digit) : ∀ b ∈ numeral ds, isDelimiter b = false := by
  intro b member
  obtain ⟨d, -, rfl⟩ := List.mem_map.1 member
  exact not_delimiter_of_startsNumber (by rw [startsNumber, d.isDigit_byte, Bool.or_true])

theorem minus_delimiter (negative : Bool) : ∀ b ∈ minus negative, isDelimiter b = false := by
  cases negative <;> simp [minus, isDelimiter, isBlank]

theorem numeral_mark (ds : List Digit) : (numeral ds).any isMark = false := by
  rw [List.any_eq_false]
  intro b member
  obtain ⟨d, -, rfl⟩ := List.mem_map.1 member
  have digit := d.isDigit_byte
  simp only [isMark, Bool.or_eq_true, decide_eq_true_eq, not_or]
  exact ⟨⟨ne_of_isDigit digit rfl, ne_of_isDigit digit rfl⟩, ne_of_isDigit digit rfl⟩

theorem FloatLiteral.text_delimiter (f : FloatLiteral) : ∀ b ∈ f.text, isDelimiter b = false := by
  intro b member
  rw [FloatLiteral.text] at member
  simp only [List.mem_append] at member
  rcases member with ((sign | whole) | fraction) | exponent
  · exact minus_delimiter f.negative b sign
  · exact numeral_delimiter f.integer b whole
  · cases given : f.fraction with
    | none => simp [given, fractionText] at fraction
    | some ds =>
      rw [given, fractionText, List.mem_cons] at fraction
      rcases fraction with rfl | digit
      · rfl
      · exact numeral_delimiter ds b digit
  · cases given : f.exponent with
    | none => simp [given, exponentText] at exponent
    | some e =>
      obtain ⟨upper, sign, ds⟩ := e
      rw [given, exponentText, List.mem_cons, List.mem_append] at exponent
      rcases exponent with rfl | signed | digit
      · cases upper <;> rfl
      · cases sign with
        | none => simp [signText] at signed
        | some negative =>
          rw [signText, List.mem_singleton] at signed
          cases negative <;> rw [signed] <;> rfl
      · exact numeral_delimiter ds b digit

theorem FloatLiteral.text_mark (f : FloatLiteral) : f.text.any isMark = true := by
  rw [FloatLiteral.text, List.any_append, List.any_append]
  rcases f.isFloat with given | given
  · obtain ⟨ds, same⟩ := Option.isSome_iff_exists.1 given
    rw [same]
    change ((_ || (true || _)) || _) = true
    rw [Bool.true_or, Bool.or_true, Bool.true_or]
  · obtain ⟨⟨upper, sign, ds⟩, same⟩ := Option.isSome_iff_exists.1 given
    rw [same, exponentText, List.any_cons]
    cases upper
    · change (_ || (true || _)) = true
      rw [Bool.true_or, Bool.or_true]
    · change (_ || (true || _)) = true
      rw [Bool.true_or, Bool.or_true]

theorem Ahead.here {b : UInt8} (ahead : Ahead cell it (b :: l)) : cell it = b := ahead.1

private theorem digits_float (n first : ℕ) (ds : List Digit)
    (ahead : Ahead cell first (numeral ds ++ l)) (enough : ds.length ≤ n)
    (stops : Stops isDigit l) : (digits cell n first 0).1 = first + ds.length := by
  have read : digits cell n first 0 = _ := digits_numeral n first 0 ds ahead enough (Or.inr stops)
  rw [read]

private theorem stops_exponent (exponent : Option (Bool × Option Bool × List Digit))
    (stops : Stops isDigit l) : Stops isDigit (exponentText exponent ++ l) := by
  cases exponent with
  | none => exact stops
  | some e =>
    obtain ⟨upper, sign, ds⟩ := e
    cases upper <;> rfl

private theorem stops_fraction (fraction : Option (List Digit)) (stops : Stops isDigit l) :
    Stops isDigit (fractionText fraction ++ l) := by
  cases fraction with
  | none => exact stops
  | some ds => rfl

def isSign (c : UInt8) : Bool := c = 0x2D || c = 0x2B

private theorem stops_numeral (ds : List Digit) (stops : Stops isSign l) :
    Stops isSign (numeral ds ++ l) := by
  cases ds with
  | nil => exact stops
  | cons d ds =>
    change isSign d.byte = false
    simp only [isSign, Bool.or_eq_false_iff, decide_eq_false_iff_not]
    exact ⟨ne_of_isDigit d.isDigit_byte rfl, ne_of_isDigit d.isDigit_byte rfl⟩

private theorem skipSign_text (sign : Option Bool) (ahead : Ahead cell it (signText sign ++ l))
    (stops : Stops isSign l) : skipSign cell it = it + (signText sign).length := by
  rw [skipSign]
  cases sign with
  | none =>
    have other := stops.here ahead
    rw [if_neg (by simpa [isSign] using other)]
    rfl
  | some negative =>
    cases negative with
    | false =>
      have here : cell it = 0x2B := ahead.here
      rw [if_pos (Or.inr here)]
      rfl
    | true =>
      have here : cell it = 0x2D := ahead.here
      rw [if_pos (Or.inl here)]
      rfl

private theorem minus_eq_signText (negative : Bool) :
    minus negative = signText (if negative then some true else none) := by
  cases negative <;> rfl

private theorem stops_of_delimited (test : UInt8 → Bool)
    (other : ∀ c, isDelimiter c = true → test c = false)
    (delimited : Stops (fun c => !isDelimiter c) l) : Stops test l := by
  cases l with
  | nil => cases delimited
  | cons b l => exact other b (Bool.not_eq_eq_eq_not.1 delimited)

private theorem delimiter_not_digit (c : UInt8) (delimiter : isDelimiter c = true) :
    isDigit c = false := by
  by_contra digit
  have number : startsNumber c = true := by
    rw [startsNumber, Bool.not_eq_false _ |>.mp digit, Bool.or_true]
  exact Bool.noConfusion (delimiter.symm.trans (not_delimiter_of_startsNumber number))

private theorem delimiter_not_mark (c : UInt8) (delimiter : isDelimiter c = true) :
    (isSign c || isMark c) = false := by
  simp only [isDelimiter, isBlank, Bool.or_eq_true, decide_eq_true_eq] at delimiter
  rcases delimiter with (((((rfl | rfl) | rfl) | rfl) | rfl) | rfl) | rfl <;> rfl

private theorem length_numeral (ds : List Digit) : (numeral ds).length = ds.length :=
  List.length_map ..

private theorem length_fraction (ds : List Digit) :
    (fractionText (some ds)).length = ds.length + 1 := by
  rw [fractionText, List.length_cons, length_numeral]

private theorem length_exponent (upper : Bool) (sign : Option Bool) (ds : List Digit) :
    (exponentText (some (upper, sign, ds))).length = (signText sign).length + ds.length + 1 := by
  rw [exponentText, List.length_cons, List.length_append, length_numeral]

private theorem fraction_read {first last : ℕ} (fraction : Option (List Digit))
    (exponent : Option (Bool × Option Bool × List Digit))
    (ahead : Ahead cell first (fractionText fraction ++ (exponentText exponent ++ l)))
    (delimited : Stops (fun c => !isDelimiter c) l)
    (room : first + (fractionText fraction).length ≤ last) :
    (if first ≠ last ∧ cell first = 0x2E then (digits cell (last - (first + 1)) (first + 1) 0).1
      else first) = first + (fractionText fraction).length := by
  cases fraction with
  | none =>
    have other : cell first ≠ 0x2E := by
      cases exponent with
      | none =>
        have mark := (stops_of_delimited _ delimiter_not_mark delimited).here ahead
        intro point
        rw [point] at mark
        cases mark
      | some e =>
        obtain ⟨upper, sign, ds⟩ := e
        have letter : cell first = if upper then 0x45 else 0x65 := ahead.here
        rw [letter]
        cases upper <;> decide
    rw [if_neg fun point => other point.2]
    rfl
  | some ds =>
    rw [length_fraction] at room ⊢
    obtain ⟨point, rest⟩ := ahead
    rw [if_pos ⟨by omega, point⟩, digits_float (last - (first + 1)) (first + 1) ds rest (by omega)
      (stops_exponent exponent (stops_of_delimited _ delimiter_not_digit delimited))]
    omega

private theorem exponent_read {first last : ℕ}
    (exponent : Option (Bool × Option Bool × List Digit))
    (ahead : Ahead cell first (exponentText exponent ++ l))
    (delimited : Stops (fun c => !isDelimiter c) l)
    (ends : last = first + (exponentText exponent).length) :
    (if first ≠ last ∧ (cell first = 0x65 ∨ cell first = 0x45) then
      (digits cell (last - skipSign cell (first + 1)) (skipSign cell (first + 1)) 0).1
      else first) = last := by
  cases exponent with
  | none =>
    rw [if_neg fun going => going.1 ends.symm]
    exact ends.symm
  | some e =>
    obtain ⟨upper, sign, ds⟩ := e
    rw [length_exponent] at ends
    obtain ⟨letter, rest⟩ := ahead
    change Ahead cell (first + 1) ((signText sign ++ numeral ds) ++ l) at rest
    rw [List.append_assoc] at rest
    have noSign : Stops isSign l := stops_of_delimited isSign
      (fun c delimiter => (Bool.or_eq_false_iff.1 (delimiter_not_mark c delimiter)).1) delimited
    rw [skipSign_text sign rest (stops_numeral ds noSign), if_pos, digits_float _ _ ds rest.drop
      (by omega) (stops_of_delimited _ delimiter_not_digit delimited)]
    · omega
    · refine ⟨by omega, ?_⟩
      rw [letter]
      cases upper
      · exact Or.inl rfl
      · exact Or.inr rfl

theorem atof_literal {first last : ℕ} (f : FloatLiteral) (ahead : Ahead cell first (f.text ++ l))
    (delimited : Stops (fun c => !isDelimiter c) l) (ends : last = first + f.text.length) :
    atof cell first last = last := by
  simp only [FloatLiteral.text, List.append_assoc] at ahead
  simp only [FloatLiteral.text, List.length_append] at ends
  have filled : 0 < f.integer.length := List.length_pos_iff.2 f.begun
  have sign : skipSign cell first = first + (minus f.negative).length := by
    rw [minus_eq_signText] at ahead ⊢
    apply skipSign_text _ ahead
    cases whole : f.integer with
    | nil => exact absurd whole f.begun
    | cons d ds => exact stops_numeral (d :: ds) (l := []) rfl
  have whole := digits_float (last - (first + (minus f.negative).length)) _ f.integer ahead.drop
    (by rw [length_numeral] at ends; omega) (stops_fraction f.fraction
      (stops_exponent f.exponent (stops_of_delimited _ delimiter_not_digit delimited)))
  have behind_whole := ahead.drop.drop
  rw [length_numeral] at ends behind_whole
  have part := fraction_read f.fraction f.exponent behind_whole delimited
    (by omega : _ ≤ last)
  have power := exponent_read f.exponent behind_whole.drop delimited (by omega : last = _)
  have nonempty : first ≠ last := by omega
  rw [atof]
  simp only [if_pos nonempty, sign, whole, part, power]

end Socrocket.Common.JsonParser
