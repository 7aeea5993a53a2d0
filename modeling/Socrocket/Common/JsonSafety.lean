/- Socrocket/Common/JsonSafety
   digest: Which sources are parsed without leaving the buffer, well formed or not. -/

import Mathlib.Data.List.GetD
import Mathlib.Logic.Relation
import Mathlib.Tactic.SplitIfs
import Socrocket.Common.JsonTree

set_option autoImplicit false
set_option relaxedAutoImplicit false

namespace Socrocket.Common.JsonParser

open Relation (ReflTransGen)

/-! ## Ways to end -/

/-- A call ends, and either with a result of some kind or with an error position in the buffer. -/
def Settles {α : Type} (size : ℕ) (Q : α → Prop) : Except Stop α → Prop
  | .ok a => Q a
  | .error (.error pos _ _) => pos ≤ size
  | .error (.outside _) => False
  | .error .unfinished => False

section

variable {α β : Type} {size : ℕ} {Q R : α → Prop} {m : Except Stop α}

theorem Settles.bind {P : β → Prop} {f : α → Except Stop β} (first : Settles size Q m)
    (next : ∀ a, Q a → Settles size P (f a)) : Settles size P (m >>= f) := by
  cases m with
  | ok a => exact next a first
  | error stop => cases stop <;> exact first

theorem Settles.mono (first : Settles size Q m) (weaker : ∀ a, Q a → R a) : Settles size R m := by
  cases m with
  | ok a => exact weaker a first
  | error stop => cases stop <;> exact first

theorem Settles.result {a : α} (first : Settles size Q m) (same : m = .ok a) : Q a := by
  rw [same] at first
  exact first

theorem settles_read {cell : ℕ → UInt8} {pos : ℕ} (inside : pos ≤ size) :
    Settles size (· = cell pos) (read cell size pos) := by
  rw [read, if_pos inside]
  exact rfl

theorem settles_fail {cell : ℕ → UInt8} {escapedNewlines pos : ℕ} (inside : pos ≤ size)
    (desc : String) : Settles size Q (fail cell size escapedNewlines pos desc) := by
  rw [fail, if_pos inside]
  exact inside

end

/-! ## Written bytes -/

section

variable {cell : ℕ → UInt8} {pos i : ℕ} {bs : List UInt8}

theorem put_before (before : i < pos) : put cell pos bs i = cell i := by
  induction bs generalizing cell pos with
  | nil => rfl
  | cons b bs ih =>
    rw [put, ih (by omega), Function.update_of_ne (by omega)]

theorem put_behind (behind : pos + bs.length ≤ i) : put cell pos bs i = cell i := by
  induction bs generalizing cell pos with
  | nil => rfl
  | cons b bs ih =>
    rw [List.length_cons] at behind
    rw [put, ih (by omega), Function.update_of_ne (by omega)]

theorem encode_length (codepoint : ℕ) : (encode codepoint).length ≤ 3 := by
  unfold encode
  split_ifs <;> simp

end

/-! ## The loop over a string -/

variable {source : List UInt8}

/-- The rest of the source is as it was, and the writer is not ahead of the reader. -/
structure Scan.Sound (source : List UInt8) (first : ℕ) (s : Scan) : Prop where
  text : ∀ i, s.it ≤ i → s.cell i = source.getD i 0
  within : s.it ≤ source.length
  begun : first ≤ s.last
  behind : s.last ≤ s.it

private theorem settles_emit {first consumed : ℕ} {s : Scan} {bytes : List UInt8}
    (sound : s.Sound source first) (fits : s.it + consumed ≤ source.length)
    (shorter : bytes.length ≤ consumed) :
    Settles source.length (fun t => t.Sound source first ∧ t.it = s.it + consumed)
      (s.emit source.length bytes consumed) := by
  have behind := sound.behind
  have begun := sound.begun
  rw [Scan.emit, if_pos (by omega)]
  refine ⟨⟨?_, fits, by dsimp only; omega, by dsimp only; omega⟩, rfl⟩
  intro i later
  dsimp only at later ⊢
  rw [put_behind (by omega), sound.text i (by omega)]

private theorem hexDigit_zero : hexDigit 0 = none := by decide

private theorem unescape_zero : unescape 0 = none := by decide

private theorem settles_hatoui {cell : ℕ → UInt8} (n first result : ℕ)
    (text : ∀ i, first ≤ i → cell i = source.getD i 0) (inside : first ≤ source.length) :
    Settles source.length (fun r => r.1 ≤ source.length)
      (hatoui cell source.length n first result) := by
  induction n generalizing first result with
  | zero => exact inside
  | succ n ih =>
    rw [hatoui]
    apply (settles_read inside).bind
    rintro c rfl
    cases digit : hexDigit (cell first) with
    | none => exact inside
    | some d =>
      apply ih
      · intro i later
        exact text i (by omega)
      · rcases Nat.lt_or_eq_of_le inside with before | rfl
        · exact before
        · rw [text _ le_rfl, List.getD_eq_default _ _ le_rfl, hexDigit_zero] at digit
          cases digit

private theorem settles_scanEscape {first : ℕ} {s : Scan} (sound : s.Sound source first)
    (before : s.it < source.length) :
    Settles source.length (fun t => t.Sound source first ∧ s.it < t.it)
      (scanEscape source.length first s) := by
  have begun := sound.begun
  have behind := sound.behind
  rw [scanEscape]
  apply (settles_read (Nat.succ_le_of_lt before)).bind
  rintro c rfl
  have present (h : s.cell (s.it + 1) ≠ 0) : s.it + 2 ≤ source.length := by
    by_contra short
    apply h
    rw [sound.text _ (by omega), List.getD_eq_default _ _ (by omega)]
  cases escape : unescape (s.cell (s.it + 1)) with
  | some b =>
    have room := present fun zero => by simp [zero, unescape_zero] at escape
    apply (settles_emit sound room (by simp)).bind
    rintro t ⟨kept, moved⟩
    exact ⟨⟨kept.text, kept.within, kept.begun, kept.behind⟩, by dsimp only; omega⟩
  | none =>
    dsimp only
    split_ifs with u
    · have room := present fun zero => by simp [zero] at u
      apply (settles_hatoui 4 (s.it + 2) 0 (fun i later => sound.text i (by omega)) room).bind
      rintro ⟨stop, codepoint⟩ inside
      dsimp only at inside ⊢
      split_ifs with short
      · exact settles_fail before.le _
      · have := encode_length codepoint
        apply (settles_emit sound (by omega) (by omega)).mono
        rintro t ⟨kept, moved⟩
        exact ⟨kept, by omega⟩
    · exact settles_fail (by omega) _

/-- A step of the loop over a string keeps the writer behind the reader and moves the reader on
unless it is the last one. -/
private theorem settles_scanStep {first : ℕ} {s : Scan}
    (sound : s.Sound source first) :
    Settles source.length (fun r => r.2.Sound source first ∧ s.it ≤ r.2.it ∧
      (r.1 = false → s.it < r.2.it)) (scanStep source.length first s) := by
  have begun := sound.begun
  have behind := sound.behind
  have within := sound.within
  rw [scanStep]
  apply (settles_read within).bind
  rintro c rfl
  split_ifs with ended control escape quote
  · exact ⟨sound, le_rfl, by simp⟩
  all_goals
    have before : s.it < source.length := by
      by_contra past
      exact ended (by rw [sound.text _ le_rfl, List.getD_eq_default _ _ (by omega)])
  · exact settles_fail (by omega) _
  · apply (settles_scanEscape sound before).bind
    rintro t ⟨kept, moved⟩
    exact ⟨kept, moved.le, fun _ => moved⟩
  · apply (settles_emit sound (by omega) (by simp)).bind
    rintro t ⟨kept, moved⟩
    exact ⟨⟨kept.text, kept.within, begun, by dsimp only; omega⟩, by dsimp only; omega, by simp⟩
  · apply (settles_emit sound (by omega) (by simp)).bind
    rintro t ⟨kept, moved⟩
    exact ⟨kept, by dsimp only; omega, fun _ => by dsimp only; omega⟩

private theorem settles_scanString {first : ℕ} (fuel : ℕ) {s : Scan}
    (sound : s.Sound source first) (enough : source.length < s.it + fuel) :
    Settles source.length (fun t => t.Sound source first ∧ s.it ≤ t.it)
      (scanString source.length first fuel s) := by
  induction fuel generalizing s with
  | zero => exact absurd sound.within (by omega)
  | succ fuel ih =>
    rw [scanString]
    apply (settles_scanStep sound).bind
    rintro ⟨finished, t⟩ ⟨kept, on, moved⟩
    dsimp only at kept on moved ⊢
    cases finished with
    | true => exact ⟨kept, on⟩
    | false =>
      have further := moved rfl
      apply (ih kept (by omega)).mono
      rintro u ⟨kept', on'⟩
      exact ⟨kept', by omega⟩

/-! ## The loops over numbers and blanks -/

/-- A byte that opens a number. -/
def startsNumber (c : UInt8) : Bool := c = 0x2D || isDigit c

private theorem settles_scanNumber {cell : ℕ → UInt8} {j : ℕ} (inside : j < source.length)
    (delimiter : isDelimiter (cell j) = true) (fuel it : ℕ) (isFloat : Bool) (before : it ≤ j)
    (enough : j < it + fuel) :
    Settles source.length (fun r => r.1 ≤ j ∧ it ≤ r.1 ∧ (isDelimiter (cell it) = false → it < r.1))
      (scanNumber cell source.length fuel it isFloat) := by
  induction fuel generalizing it isFloat with
  | zero => omega
  | succ fuel ih =>
    rw [scanNumber]
    apply (settles_read (by omega)).bind
    rintro c rfl
    split_ifs with ended
    · exact ⟨before, le_rfl, fun going => absurd ended (by simp [going])⟩
    · have further : it < j := by
        rcases Nat.lt_or_eq_of_le before with further | rfl
        · exact further
        · exact absurd delimiter ended
      apply (ih (it + 1) _ further (by omega)).mono
      rintro r ⟨low, high, -⟩
      exact ⟨low, by omega, fun _ => by omega⟩

private theorem scanNumber_outside {cell : ℕ → UInt8} (size : ℕ) (fuel it : ℕ) (isFloat : Bool)
    (open_end : ∀ j, it ≤ j → j ≤ size → isDelimiter (cell j) = false) (inside : it ≤ size + 1)
    (enough : size + 1 < it + fuel) :
    scanNumber cell size fuel it isFloat = .error (.outside (size + 1)) := by
  induction fuel generalizing it isFloat with
  | zero => omega
  | succ fuel ih =>
    rw [scanNumber, read]
    rcases Nat.lt_or_eq_of_le inside with before | rfl
    · rw [if_pos (by omega)]
      change (if isDelimiter (cell it) = true then _ else _) = _
      rw [if_neg (by simp [open_end it le_rfl (by omega)])]
      exact ih (it + 1) _ (fun j later => open_end j (by omega)) (by omega) (by omega)
    · rw [if_neg (by omega)]
      rfl

private theorem settles_skipBlanks {cell : ℕ → UInt8} (ended : cell source.length = 0)
    (fuel it : ℕ) (within : it ≤ source.length) (enough : source.length < it + fuel) :
    Settles source.length (fun r => r ≤ source.length ∧ it ≤ r)
      (skipBlanks cell source.length fuel it) := by
  induction fuel generalizing it with
  | zero => omega
  | succ fuel ih =>
    rw [skipBlanks]
    apply (settles_read within).bind
    rintro c rfl
    split_ifs with blank
    · have further : it < source.length := by
        rcases Nat.lt_or_eq_of_le within with further | rfl
        · exact further
        · rw [ended] at blank
          cases blank
      apply (ih (it + 1) further (by omega)).mono
      rintro r ⟨low, high⟩
      exact ⟨low, by omega⟩
    · exact ⟨within, le_rfl⟩

private theorem settles_matchWord {cell : ℕ → UInt8} (ended : cell source.length = 0)
    (word : List UInt8) (nonzero : ∀ b ∈ word, b ≠ 0) (pos : ℕ) (within : pos ≤ source.length) :
    Settles source.length (fun same => same = true → pos + word.length ≤ source.length)
      (matchWord cell source.length pos word) := by
  induction word generalizing pos with
  | nil => exact fun _ => within
  | cons b bs ih =>
    rw [matchWord]
    apply (settles_read within).bind
    rintro c rfl
    split_ifs with same
    · have further : pos < source.length := by
        rcases Nat.lt_or_eq_of_le within with further | rfl
        · exact further
        · exact absurd (same.symm.trans ended) (nonzero b (List.mem_cons_self ..))
      apply (ih (fun d member => nonzero d (List.mem_cons_of_mem _ member)) (pos + 1) further).mono
      intro r fits matched
      have := fits matched
      rw [List.length_cons]
      omega
    · exact fun wrong => absurd wrong (by simp)

/-! ## Tokens -/

/-- The nodes so far are a tree, and an open container is one of them. -/
structure Parser.Rooted (p : Parser) : Prop where
  tree : Tree p.nodes p.count
  root : p.root = if p.count = 0 then none else some 0
  top : ∀ t, p.top = some t → t < p.count ∧ (p.nodes t).type.IsContainer

/-- Between two tokens the nodes are a tree and the rest of the source is as it was. -/
structure Parser.Sound (source : List UInt8) (p : Parser) : Prop extends p.Rooted where
  size : p.size = source.length
  text : ∀ i, p.it ≤ i → p.cell i = source.getD i 0
  within : p.it ≤ source.length

/-- After a token. -/
structure Advanced (source : List UInt8) (p q : Parser) : Prop where
  sound : q.Sound source
  moved : p.it < q.it
  rooted : 0 < q.count

variable {p : Parser}

theorem containerType_isContainer (c : UInt8) : (containerType c).IsContainer := by
  unfold containerType JsonType.IsContainer
  split_ifs <;> simp

theorem Parser.append_nodes (p : Parser) (top : ℕ) (type : JsonType) (payload : Payload) :
    (p.append top type payload).nodes =
      jsonAppend (Function.update p.nodes p.count ⟨none, none, none, none, p.name, payload, type⟩)
        top p.count := rfl

theorem Parser.Rooted.append (rooted : p.Rooted) {top : ℕ} (opened : p.top = some top)
    (type : JsonType) (payload : Payload) : (p.append top type payload).Rooted := by
  obtain ⟨inside, container⟩ := rooted.top top opened
  refine ⟨rooted.tree.append inside container p.name payload type, ?_, ?_⟩
  · have filled : p.count ≠ 0 := by omega
    change p.root = if p.count + 1 = 0 then none else some 0
    rw [rooted.root, if_neg filled, if_neg (Nat.succ_ne_zero _)]
  · intro t same
    obtain ⟨below, kind⟩ := rooted.top t same
    refine ⟨Nat.lt_succ_of_lt below, ?_⟩
    rw [Parser.append_nodes, jsonAppend_type, Function.update_of_ne below.ne]
    exact kind

theorem append_type_self (top : ℕ) (type : JsonType) (payload : Payload) :
    ((p.append top type payload).nodes p.count).type = type := by
  rw [Parser.append_nodes, jsonAppend_type, Function.update_self]

private theorem advanced_append (sound : p.Sound source) {top it : ℕ} (opened : p.top = some top)
    (type : JsonType) (payload : Payload) (moved : p.it < it) (within : it ≤ source.length) :
    Advanced source p { p.append top type payload with it := it } := by
  obtain ⟨tree, root, opens⟩ := sound.toRooted.append opened type payload
  exact ⟨⟨⟨tree, root, opens⟩, sound.size, fun i later => sound.text i (by dsimp only at later; omega),
    within⟩, moved, Nat.succ_pos _⟩

private theorem advanced_skip (sound : p.Sound source) {top : ℕ} (opened : p.top = some top)
    (before : p.it < source.length) : Advanced source p { p with it := p.it + 1 } :=
  ⟨⟨⟨sound.tree, sound.root, sound.top⟩, sound.size,
    fun i later => sound.text i (by dsimp only at later; omega), before⟩, Nat.lt_succ_self _,
    Nat.zero_lt_of_lt (sound.top top opened).1⟩

private theorem Parser.settles_fail {Q : Parser → Prop} {pos : ℕ} (sound : p.Sound source)
    (inside : pos ≤ source.length) (desc : String) : Settles source.length Q (p.fail pos desc) := by
  rw [Parser.fail, sound.size]
  exact JsonParser.settles_fail inside desc

private theorem settles_checkTop (sound : p.Sound source) :
    Settles source.length (fun top => p.top = some top) p.checkTop := by
  rw [Parser.checkTop]
  cases p.top with
  | none =>
    rw [Parser.fail, sound.size]
    exact JsonParser.settles_fail sound.within _
  | some top => exact rfl

private theorem settles_openToken (sound : p.Sound source) (before : p.it < source.length)
    (c : UInt8) : Settles source.length (Advanced source p) (openToken p c) := by
  rw [openToken]
  cases opened : p.top with
  | some top =>
    have appended := advanced_append sound opened (containerType c) .zero (Nat.lt_succ_self p.it)
      before
    obtain ⟨⟨⟨tree, root, tops⟩, size, text, within⟩, moved, rooted⟩ := appended
    refine ⟨⟨⟨tree, root, ?_⟩, size, text, within⟩, moved, rooted⟩
    rintro t ⟨⟩
    refine ⟨Nat.lt_succ_self _, ?_⟩
    change ((p.append top _ _).nodes p.count).type.IsContainer
    rw [append_type_self]
    exact containerType_isContainer c
  | none =>
    cases rooted : p.root with
    | some r => exact Parser.settles_fail sound before _
    | none =>
      have empty : p.count = 0 := by
        by_contra filled
        have root := sound.root
        rw [if_neg filled, rooted] at root
        cases root
      refine ⟨⟨⟨?_, ?_, ?_⟩, sound.size, ?_, before⟩, Nat.lt_succ_self _, Nat.succ_pos _⟩
      · dsimp only [Parser.alloc]
        rw [empty]
        apply Tree.first
      · dsimp only [Parser.alloc]
        change some p.count = some 0
        rw [empty]
      · rintro t ⟨⟩
        dsimp only [Parser.alloc]
        rw [Function.update_self]
        exact ⟨Nat.lt_succ_self _, containerType_isContainer c⟩
      · intro i later
        exact sound.text i (by dsimp only at later; omega)

private theorem settles_closeToken (sound : p.Sound source) (before : p.it < source.length)
    (c : UInt8) : Settles source.length (Advanced source p) (closeToken p c) := by
  rw [closeToken]
  cases opened : p.top with
  | none => exact Parser.settles_fail sound before.le _
  | some top =>
    dsimp only
    split_ifs with wrong
    · exact Parser.settles_fail sound before.le _
    · obtain ⟨⟨⟨tree, root, tops⟩, size, text, within⟩, moved, rooted⟩ :=
        advanced_skip sound opened before
      refine ⟨⟨⟨tree, root, ?_⟩, size, text, within⟩, moved, rooted⟩
      intro t parent
      have inside := (sound.top top opened).1
      have above := tree.above top inside t parent
      exact ⟨above.trans inside, tree.container top inside t parent⟩

private theorem settles_colonToken (sound : p.Sound source) (before : p.it < source.length) :
    Settles source.length (Advanced source p) (colonToken p) := by
  rw [colonToken]
  cases opened : p.top with
  | none => exact Parser.settles_fail sound before.le _
  | some top =>
    dsimp only
    split_ifs with wrong
    · exact Parser.settles_fail sound before.le _
    · have skipped := advanced_skip sound opened before
      rw [opened] at skipped
      exact skipped

private theorem settles_commaToken (sound : p.Sound source) (before : p.it < source.length) :
    Settles source.length (Advanced source p) (commaToken p) := by
  rw [commaToken]
  apply (settles_checkTop sound).bind
  intro top opened
  exact advanced_skip sound opened before

/-- Where the loop over a string starts. -/
def Parser.scan (p : Parser) : Scan := ⟨p.cell, p.it + 1, p.it + 1, p.escapedNewlines⟩

private theorem scan_sound (sound : p.Sound source) (before : p.it < source.length) :
    p.scan.Sound source (p.it + 1) :=
  ⟨fun i later => sound.text i (by change p.it + 1 ≤ i at later; omega), before, le_rfl, le_rfl⟩

private theorem settles_stringToken (sound : p.Sound source) (before : p.it < source.length) :
    Settles source.length (Advanced source p) (stringToken p) := by
  rw [stringToken]
  apply (settles_checkTop sound).bind
  intro top opened
  dsimp only
  rw [sound.size]
  apply (settles_scanString (source.length + 2) (scan_sound sound before) (by omega)).bind
  rintro s ⟨scanned, on⟩
  change p.it + 1 ≤ s.it at on
  have kept : Parser.Sound source
      { p with
        cell := s.cell, size := source.length, it := s.it, escapedNewlines := s.escapedNewlines } :=
    ⟨⟨sound.tree, sound.root, sound.top⟩, rfl, scanned.text, scanned.within⟩
  split_ifs with label
  · exact ⟨⟨⟨kept.tree, kept.root, kept.top⟩, kept.size, kept.text, kept.within⟩, on,
      Nat.zero_lt_of_lt (sound.top top opened).1⟩
  · obtain ⟨tree, root, tops⟩ := kept.toRooted.append opened .string (.stringValue (p.it + 1))
    exact ⟨⟨⟨tree, root, tops⟩, kept.size, kept.text, kept.within⟩, on, Nat.succ_pos _⟩

private theorem settles_keywordToken (sound : p.Sound source) :
    Settles source.length (Advanced source p) (keywordToken p) := by
  have ended : p.cell source.length = 0 := by
    rw [sound.text _ sound.within, List.getD_eq_default _ _ le_rfl]
  rw [keywordToken]
  apply (settles_checkTop sound).bind
  intro top opened
  rw [sound.size]
  apply (settles_matchWord ended _ (by simp) p.it sound.within).bind
  intro isNull fits
  split_ifs with matched
  · exact advanced_append sound opened _ _ (by omega) (fits matched)
  apply (settles_matchWord ended _ (by simp) p.it sound.within).bind
  intro isTrue fits
  split_ifs with matched
  · exact advanced_append sound opened _ _ (by omega) (fits matched)
  apply (settles_matchWord ended _ (by simp) p.it sound.within).bind
  intro isFalse fits
  split_ifs with matched
  · exact advanced_append sound opened _ _ (by omega) (fits matched)
  · exact Parser.settles_fail sound sound.within _

/-- A number that the parser starts is followed by a delimiter. -/
def NumberEnds (source : List UInt8) (p : Parser) : Prop :=
  p.top ≠ none → startsNumber (p.cell p.it) = true →
    ∃ j, p.it ≤ j ∧ j < source.length ∧ isDelimiter (source.getD j 0) = true

theorem ne_zero_of_startsNumber {c : UInt8} (number : startsNumber c = true) : c ≠ 0 := by
  rintro rfl
  cases number

theorem not_delimiter_of_startsNumber {c : UInt8} (number : startsNumber c = true) :
    isDelimiter c = false := by
  rw [Bool.eq_false_iff]
  intro delimiter
  simp only [isDelimiter, isBlank, Bool.or_eq_true, decide_eq_true_eq] at delimiter
  rcases delimiter with (((((rfl | rfl) | rfl) | rfl) | rfl) | rfl) | rfl <;> cases number

private theorem settles_numberToken (sound : p.Sound source)
    (number : startsNumber (p.cell p.it) = true) (ends : NumberEnds source p) :
    Settles source.length (Advanced source p) (numberToken p) := by
  rw [numberToken]
  apply (settles_checkTop sound).bind
  intro top opened
  obtain ⟨j, from_here, inside, delimiter⟩ := ends (by simp [opened]) number
  rw [← sound.text j from_here] at delimiter
  rw [sound.size]
  apply (settles_scanNumber inside delimiter (source.length + 2) p.it false from_here
    (by omega)).bind
  rintro ⟨it, isFloat⟩ ⟨low, high, further⟩
  have moved := further (not_delimiter_of_startsNumber number)
  dsimp only at low high moved ⊢
  split_ifs with float bad bad
  · exact Parser.settles_fail sound sound.within _
  · exact advanced_append sound opened _ _ moved (by omega)
  · exact Parser.settles_fail sound sound.within _
  · exact advanced_append sound opened _ _ moved (by omega)

/-! ## The main loop -/

/-- One iteration of the main loop from state to state. -/
def Iteration (p q : Parser) : Prop := p.cell p.it ≠ 0 ∧ iterate p (p.cell p.it) = .ok q

/-- The states in which the main loop looks at the next byte. -/
def Reached (source : List UInt8) : Parser → Prop := ReflTransGen Iteration (Parser.init source)

theorem init_sound (source : List UInt8) : (Parser.init source).Sound source := by
  refine ⟨⟨⟨?_, ?_, ?_, ?_, ?_, ?_⟩, rfl, nofun⟩, rfl, fun i _ => rfl, Nat.zero_le _⟩
  all_goals
    intro c below
    exact absurd below (Nat.not_lt_zero c)

private theorem before_of_ne_zero (sound : p.Sound source) (going : p.cell p.it ≠ 0) :
    p.it < source.length := by
  by_contra past
  exact going (by rw [sound.text _ le_rfl, List.getD_eq_default _ _ (by omega)])

private theorem settles_token (sound : p.Sound source) (going : p.cell p.it ≠ 0)
    (ends : NumberEnds source p) :
    Settles source.length (Advanced source p) (token p (p.cell p.it)) := by
  have before := before_of_ne_zero sound going
  rw [token]
  split_ifs with opening closing colon comma quote word number
  · exact settles_openToken sound before _
  · exact settles_closeToken sound before _
  · exact settles_colonToken sound before
  · exact settles_commaToken sound before
  · exact settles_stringToken sound before
  · exact settles_keywordToken sound
  · exact settles_numberToken sound (by simpa [startsNumber] using number) ends
  · exact Parser.settles_fail sound sound.within _

private theorem settles_iterate (sound : p.Sound source) (going : p.cell p.it ≠ 0)
    (ends : NumberEnds source p) :
    Settles source.length (Advanced source p) (iterate p (p.cell p.it)) := by
  rw [iterate]
  apply (settles_token sound going ends).bind
  rintro q ⟨kept, moved, rooted⟩
  have ended : q.cell source.length = 0 := by
    rw [kept.text _ kept.within, List.getD_eq_default _ _ le_rfl]
  rw [kept.size]
  apply (settles_skipBlanks ended (source.length + 2) q.it kept.within (by omega)).bind
  rintro it ⟨within, on⟩
  exact ⟨⟨⟨kept.tree, kept.root, kept.top⟩, rfl,
    fun i later => kept.text i (by dsimp only at later; omega), within⟩, by dsimp only; omega,
    rooted⟩

theorem token_number (p : Parser) {c : UInt8} (number : startsNumber c = true) :
    token p c = numberToken p := by
  have other {d : UInt8} (no : startsNumber d = false) : c ≠ d := by
    rintro rfl
    exact Bool.noConfusion (no.symm.trans number)
  rw [token, if_neg, if_neg, if_neg (other rfl), if_neg (other rfl), if_neg (other rfl), if_neg,
    if_pos (by simpa [startsNumber] using number)]
  · exact not_or.2 ⟨other rfl, not_or.2 ⟨other rfl, other rfl⟩⟩
  · exact not_or.2 ⟨other rfl, other rfl⟩
  · exact not_or.2 ⟨other rfl, other rfl⟩

private theorem token_outside (sound : p.Sound source) (runs_on : ¬ NumberEnds source p) :
    p.cell p.it ≠ 0 ∧ token p (p.cell p.it) = .error (.outside (source.length + 1)) := by
  rw [NumberEnds] at runs_on
  push Not at runs_on
  obtain ⟨nested, number, open_end⟩ := runs_on
  obtain ⟨top, opened⟩ := Option.ne_none_iff_exists'.1 nested
  have no_delimiter : ∀ j, p.it ≤ j → j ≤ source.length → isDelimiter (p.cell j) = false := by
    intro j from_here inside
    rw [sound.text j from_here]
    rcases Nat.lt_or_eq_of_le inside with before | rfl
    · simpa using open_end j from_here before
    · rw [List.getD_eq_default _ _ le_rfl]
      rfl
  refine ⟨ne_zero_of_startsNumber number, ?_⟩
  rw [token_number p number, numberToken, Parser.checkTop, opened, sound.size]
  change (scanNumber p.cell source.length (source.length + 2) p.it false >>= _) = _
  rw [scanNumber_outside source.length _ p.it false no_delimiter (Nat.le_succ_of_le sound.within)
    (by omega)]
  rfl

private theorem iterate_outside (sound : p.Sound source) (runs_on : ¬ NumberEnds source p) :
    p.cell p.it ≠ 0 ∧
      iterate p (p.cell p.it) = .error (.outside (source.length + 1)) := by
  obtain ⟨going, stopped⟩ := token_outside sound runs_on
  refine ⟨going, ?_⟩
  rw [iterate, stopped]
  rfl

theorem token_advances {q : Parser} (sound : p.Sound source) (going : p.cell p.it ≠ 0)
    (next : token p (p.cell p.it) = .ok q) : Advanced source p q := by
  have ends : NumberEnds source p := by
    by_contra runs_on
    have stopped := (token_outside sound runs_on).2
    rw [next] at stopped
    cases stopped
  exact (settles_token sound going ends).result next

theorem iteration_advances {q : Parser} (sound : p.Sound source) (next : Iteration p q) :
    Advanced source p q := by
  have ends : NumberEnds source p := by
    by_contra runs_on
    have stopped := (iterate_outside sound runs_on).2
    rw [next.2] at stopped
    cases stopped
  exact (settles_iterate sound next.1 ends).result next.2

theorem reached_sound (reached : Reached source p) : p.Sound source := by
  induction reached with
  | refl => exact init_sound source
  | tail _ next ih => exact (iteration_advances ih next).sound

theorem parseLoop_step (fuel : ℕ) (within : p.it ≤ p.size) (going : p.cell p.it ≠ 0) :
    parseLoop (fuel + 1) p = iterate p (p.cell p.it) >>= parseLoop fuel := by
  rw [parseLoop, read, if_pos within]
  change (if p.cell p.it = 0 then _ else _) = _
  rw [if_neg going]

theorem parseLoop_end (fuel : ℕ) (within : p.it ≤ p.size) (ended : p.cell p.it = 0) :
    parseLoop (fuel + 1) p = .ok p := by
  rw [parseLoop, read, if_pos within]
  change (if p.cell p.it = 0 then _ else _) = _
  rw [if_pos ended]
  rfl

private theorem settles_parseLoop (fuel : ℕ) (sound : p.Sound source)
    (enough : source.length < p.it + fuel)
    (ends : ∀ q, ReflTransGen Iteration p q → NumberEnds source q) :
    Settles source.length (fun q => q.Sound source ∧ q.cell q.it = 0 ∧ (q = p ∨ 0 < q.count))
      (parseLoop fuel p) := by
  induction fuel generalizing p with
  | zero => exact absurd sound.within (by omega)
  | succ fuel ih =>
    have within : p.it ≤ p.size := sound.size ▸ sound.within
    by_cases ended : p.cell p.it = 0
    · rw [parseLoop_end fuel within ended]
      exact ⟨sound, ended, Or.inl rfl⟩
    rw [parseLoop_step fuel within ended]
    cases next : iterate p (p.cell p.it) with
    | error stop =>
      have settled := settles_iterate sound ended (ends p .refl)
      rw [next] at settled
      cases stop <;> exact settled
    | ok q =>
      have advanced := iteration_advances sound ⟨ended, next⟩
      have moved := advanced.moved
      apply (ih advanced.sound (by omega) fun r later => ends r (.head ⟨ended, next⟩ later)).mono
      rintro r ⟨kept, last, same | rooted⟩
      · exact ⟨kept, last, Or.inr (same ▸ advanced.rooted)⟩
      · exact ⟨kept, last, Or.inr rooted⟩

private theorem parseLoop_outside {q : Parser} (fuel : ℕ) (sound : p.Sound source)
    (enough : source.length < p.it + fuel) (later : ReflTransGen Iteration p q)
    (runs_on : ¬ NumberEnds source q) :
    parseLoop fuel p = .error (.outside (source.length + 1)) := by
  induction later using ReflTransGen.head_induction_on generalizing fuel with
  | refl =>
    cases fuel with
    | zero => exact absurd sound.within (by omega)
    | succ fuel =>
      obtain ⟨going, stopped⟩ := iterate_outside sound runs_on
      rw [parseLoop_step fuel (sound.size ▸ sound.within) going, stopped]
      rfl
  | head next _ ih =>
    cases fuel with
    | zero => exact absurd sound.within (by omega)
    | succ fuel =>
      have advanced := iteration_advances sound next
      have moved := advanced.moved
      rw [parseLoop_step fuel (sound.size ▸ sound.within) next.1, next.2]
      exact ih fuel advanced.sound (by omega)

/-- The main loop ends in the state in which it meets the end of the source. -/
theorem parseLoop_reached {q : Parser} (fuel : ℕ) (sound : p.Sound source)
    (enough : source.length < p.it + fuel) (later : ReflTransGen Iteration p q)
    (ended : q.cell q.it = 0) : parseLoop fuel p = .ok q := by
  induction later using ReflTransGen.head_induction_on generalizing fuel with
  | refl =>
    cases fuel with
    | zero => exact absurd sound.within (by omega)
    | succ fuel => exact parseLoop_end fuel (sound.size ▸ sound.within) ended
  | head next _ ih =>
    cases fuel with
    | zero => exact absurd sound.within (by omega)
    | succ fuel =>
      have advanced := iteration_advances sound next
      have moved := advanced.moved
      rw [parseLoop_step fuel (sound.size ▸ sound.within) next.1, next.2]
      exact ih fuel advanced.sound (by omega)

/-! ## Safety -/

/-- The steps of the loop over the string at the cursor. -/
def ScanReached (p : Parser) : Scan → Prop :=
  ReflTransGen (fun s t => scanStep p.size (p.it + 1) s = .ok (false, t)) p.scan

/-- The call ends within the buffer, with the root of a tree or with an error position in the
buffer, and the writer of the strings is never ahead of the reader. -/
structure Safe (source : List UInt8) : Prop where
  ends : Settles source.length (fun p => Tree p.nodes p.count ∧ 0 < p.count ∧ p.root = some 0)
    (jsonParse source)
  behind : ∀ p s, Reached source p → p.top ≠ none → p.cell p.it = 0x22 → ScanReached p s →
    s.last ≤ s.it

private theorem scanReached_behind {s : Scan} (sound : p.Sound source) (quote : p.cell p.it = 0x22)
    (reached : ScanReached p s) : s.Sound source (p.it + 1) := by
  induction reached with
  | refl => exact scan_sound sound (before_of_ne_zero sound (by simp [quote]))
  | tail _ next ih =>
    rw [sound.size] at next
    exact ((settles_scanStep ih).result next).1

/-- The call is safe exactly for the sources that are not empty and in which every number that the
parser starts in a container is followed by a blank, a comma or a closing bracket. -/
theorem json_parse_safe_iff (source : List UInt8) (nonzero : ∀ b ∈ source, b ≠ 0) :
    Safe source ↔ source ≠ [] ∧ ∀ p, Reached source p → NumberEnds source p := by
  constructor
  · intro safe
    constructor
    · rintro rfl
      obtain ⟨-, rooted, -⟩ := safe.ends.result (show jsonParse [] = .ok (Parser.init []) from rfl)
      exact Nat.lt_irrefl 0 rooted
    · intro p reached
      by_contra runs_on
      have ends := safe.ends
      rw [jsonParse, parseLoop_outside _ (init_sound source) (by simp [Parser.init]) reached
        runs_on] at ends
      exact ends
  · rintro ⟨filled, ends⟩
    constructor
    · rw [jsonParse]
      apply (settles_parseLoop _ (init_sound source) (by simp [Parser.init]) ends).bind
      rintro p ⟨sound, ended, grown⟩
      have rooted : 0 < p.count := by
        rcases grown with rfl | rooted
        · cases source with
          | nil => exact absurd rfl filled
          | cons b rest => exact absurd ended (nonzero b (List.mem_cons_self ..))
        · exact rooted
      split_ifs with unclosed
      · exact Parser.settles_fail sound sound.within _
      · refine ⟨sound.tree, rooted, ?_⟩
        rw [sound.root, if_neg (by omega)]
    · intro p s reached _ quote scanned
      exact (scanReached_behind (reached_sound reached) quote scanned).behind

/-- The source `[7]`. -/
theorem json_parse_safe_number : Safe [0x5B, 0x37, 0x5D] := by
  rw [json_parse_safe_iff _ (by simp)]
  refine ⟨by decide, ?_⟩
  intro p reached _ number
  have sound := reached_sound reached
  have before := before_of_ne_zero sound (ne_zero_of_startsNumber number)
  exact ⟨2, Nat.le_of_lt_succ before, by decide, by decide⟩

/-- The source `[1` ends in a number. -/
theorem json_parse_leaves_buffer :
    (∀ b ∈ ([0x5B, 0x31] : List UInt8), b ≠ 0) ∧
      jsonParse [0x5B, 0x31] = .error (.outside 3) ∧ ¬ Safe [0x5B, 0x31] := by
  have left : jsonParse [0x5B, 0x31] = .error (.outside 3) := by rfl
  refine ⟨by simp, left, fun safe => ?_⟩
  have ends := safe.ends
  rw [left] at ends
  exact ends

end Socrocket.Common.JsonParser
