/- Socrocket/Apbuart/Transmit
   digest: Send buffer, overrun and status word against the characters that are on their way. -/

import Socrocket.Apbuart.Receive
import Socrocket.Base.Latch

set_option autoImplicit false
set_option relaxedAutoImplicit false

namespace Socrocket.Apbuart

open Socrocket.Base.Latch
open Socrocket.Core.SrRegister

/-! ## The characters on their way -/

/-- What the unit is for: queues of characters in both directions. -/
structure Line where
  control : BitVec 32
  /-- At the backend, not yet taken. -/
  waiting : List Char8
  /-- Taken and not yet read. -/
  unread : List Char8
  /-- Written with the transmitter enabled and not yet shifted out. -/
  outstanding : List Char8
  sent : List Char8
  /-- A dropped character sets the overrun, a status read clears it. -/
  overruns : List Signal

def Line.init : Line := ⟨0x80000000, [], [], [], [], []⟩

def Line.transmit (l : Line) (c : Char8) : Line :=
  if bitGet l.control transmitterEnable then
    if l.outstanding.length < fifosize then
      { l with outstanding := l.outstanding ++ [c], sent := l.sent ++ [c] }
    else { l with overruns := l.overruns ++ [.set] }
  else { l with sent := l.sent ++ [c] }

def Line.receive (l : Line) : Line :=
  match l.waiting with
  | [] => l
  | c :: waiting =>
    if l.unread.length < fifosize ∧ bitGet l.control receiverInterrupt then
      { l with waiting := waiting, unread := l.unread ++ [c] }
    else l

def Line.step (l : Line) : Event → Line
  | .arrive c => { l with waiting := l.waiting ++ [c] }
  | .dataRead => if bitGet l.control receiverEnable then { l with unread := l.unread.tail } else l
  | .dataWrite v => l.transmit (v.setWidth 8)
  | .statusRead => { l with overruns := l.overruns ++ [.clear] }
  | .controlWrite v => { l with control := busWrite controlMask v }
  | .tick => Line.receive { l with outstanding := l.outstanding.tail }
  | .statusWrite _ | .controlRead | .scalerRead | .scalerWrite _ | .sendIrq => l

variable {u v : APBUART} {l : Line}

/-- The counters and flags of the unit are those of the line. -/
structure Follows (l : Line) (u : APBUART) : Prop where
  control : u.control = l.control
  taken : u.backend.taken ≤ u.backend.arrived.length
  waiting : u.backend.arrived.drop u.backend.taken = l.waiting
  unread : u.recvBufferLevel = l.unread.length
  outstanding : u.sendBuffer = l.outstanding.length
  sent : u.backend.sent = l.sent
  overrun : u.overrun = true ↔ SetSince l.overruns
  unreadFits : l.unread.length ≤ fifosize
  outstandingFits : l.outstanding.length ≤ fifosize

namespace Follows

theorem congr (h : Follows l u) (control : v.control = u.control) (backend : v.backend = u.backend)
    (level : v.recvBufferLevel = u.recvBufferLevel) (send : v.sendBuffer = u.sendBuffer)
    (overrun : v.overrun = u.overrun) : Follows l v where
  control := control.trans h.control
  taken := by
    rw [backend]
    exact h.taken
  waiting := by
    rw [backend]
    exact h.waiting
  unread := level.trans h.unread
  outstanding := send.trans h.outstanding
  sent := (congrArg Backend.sent backend).trans h.sent
  overrun := by
    rw [overrun]
    exact h.overrun
  unreadFits := h.unreadFits
  outstandingFits := h.outstandingFits

theorem updateLevelInt (h : Follows l u) : Follows l (updateLevelInt u) := by
  obtain ⟨level, irq, same⟩ := updateLevelInt_eq u
  rw [same]
  exact h.congr rfl rfl rfl rfl rfl

theorem dataWrite (h : Follows l u) : Follows (l.transmit (u.data.setWidth 8)) (dataWrite u) := by
  have same : bitGet l.control transmitterEnable = bitGet u.control transmitterEnable := by
    rw [h.control]
  rw [Socrocket.Apbuart.dataWrite, Line.transmit, same]
  split
  · by_cases room : l.outstanding.length < fifosize
    · rw [if_pos room, if_neg (by rw [h.outstanding]; exact room.not_ge)]
      apply Follows.updateLevelInt
      constructor
      · exact h.control
      · exact h.taken
      · exact h.waiting
      · exact h.unread
      · rw [List.length_append, ← h.outstanding, List.length_singleton]
      · rw [Backend.sendChar, h.sent]
      · exact h.overrun
      · exact h.unreadFits
      · rw [List.length_append, List.length_singleton]
        exact room
    · rw [if_neg room, if_pos (by rw [h.outstanding]; exact not_lt.mp room)]
      exact { h with overrun := iff_of_true rfl setSince_append_set }
  · refine { h with sent := ?_ }
    rw [Backend.sendChar, h.sent]

theorem dataRead (h : Follows l u) :
    Follows (l.step .dataRead) (Socrocket.Apbuart.dataRead u) := by
  have same : bitGet l.control receiverEnable = bitGet u.control receiverEnable := by
    rw [h.control]
  rw [Socrocket.Apbuart.dataRead, takesChar, Line.step, same]
  by_cases enabled : bitGet u.control receiverEnable = true
  · rw [if_pos enabled, enabled, Bool.and_true]
    by_cases some : 0 < u.recvBufferLevel
    · rw [if_pos (decide_eq_true some)]
      refine { h with unread := ?_, unreadFits := ?_ }
      · rw [List.length_tail, ← h.unread]
      · rw [List.length_tail]
        exact (Nat.sub_le _ _).trans h.unreadFits
    · rw [if_neg (by rw [decide_eq_false some]; exact Bool.false_ne_true)]
      have empty : l.unread = [] := by
        rw [← List.length_eq_zero_iff, ← h.unread]
        omega
      rw [empty, List.tail_nil, ← empty]
      exact h
  · rw [if_neg enabled, Bool.eq_false_iff.mpr enabled, Bool.and_false, if_neg Bool.false_ne_true]
    exact h

theorem tickSend (h : Follows l u) :
    Follows { l with outstanding := l.outstanding.tail } (tickSend u) := by
  obtain ⟨level, irq, same⟩ := tickSend_eq u
  rw [same]
  refine { h with outstanding := ?_, outstandingFits := ?_ }
  · rw [List.length_tail, ← h.outstanding]
  · rw [List.length_tail]
    exact (Nat.sub_le _ _).trans h.outstandingFits

theorem tickReceive (h : Follows l u) : Follows l.receive (tickReceive u) := by
  have both : receives u = true ↔ l.waiting ≠ [] ∧ l.unread.length < fifosize ∧
      bitGet l.control receiverInterrupt = true := by
    rw [receives_iff, ← h.unread, ← h.control, ← h.waiting, ne_eq, List.drop_eq_nil_iff, not_le]
  rw [Socrocket.Apbuart.tickReceive]
  split
  · rename_i takes
    obtain ⟨some, room⟩ := both.mp takes
    obtain ⟨c, waiting, cons⟩ := List.exists_cons_of_ne_nil some
    rw [Line.receive, cons]
    dsimp only
    rw [if_pos room]
    constructor
    · exact h.control
    · exact (receives_iff.mp takes).1
    · rw [← List.tail_drop, h.waiting, cons, List.tail_cons]
    · rw [List.length_append, ← h.unread, List.length_singleton]
    · exact h.outstanding
    · exact h.sent
    · exact h.overrun
    · rw [List.length_append, List.length_singleton]
      exact room.1
    · exact h.outstandingFits
  · rename_i idle
    have same : l.receive = l := by
      rw [Line.receive]
      split
      · rfl
      · rename_i c waiting cons
        rw [if_neg]
        exact fun room => idle (both.mpr ⟨by rw [cons]; exact List.cons_ne_nil _ _, room⟩)
    rw [same]
    exact h

theorem step (h : Follows l u) (e : Event) : Follows (l.step e) (step u e) := by
  cases e with
  | arrive c =>
    have taken : u.backend.taken ≤ (u.backend.arrived ++ [c]).length := by
      rw [List.length_append]
      exact h.taken.trans (Nat.le_add_right _ _)
    have waiting : (u.backend.arrived ++ [c]).drop u.backend.taken = l.waiting ++ [c] := by
      rw [List.drop_append_of_le_length h.taken, h.waiting]
    exact { h with taken := taken, waiting := waiting }
  | dataRead => exact h.dataRead
  | dataWrite value =>
    have low : (busWrite dataMask value).setWidth 8 = value.setWidth 8 := by
      have ones : dataMask.setWidth 8 = BitVec.allOnes 8 := rfl
      rw [busWrite, BitVec.setWidth_and, ones, BitVec.and_allOnes]
    have loaded : Follows l { u with data := busWrite dataMask value } := h.congr rfl rfl rfl rfl rfl
    have written := loaded.dataWrite
    rw [low] at written
    exact written
  | statusRead =>
    exact { h with overrun := iff_of_false Bool.false_ne_true not_setSince_append_clear }
  | controlWrite value => exact { h with control := rfl }
  | tick =>
    have ticked := h.tickSend.tickReceive
    rw [Socrocket.Apbuart.step, uartTicks]
    split
    · exact ticked.congr rfl rfl rfl rfl rfl
    · exact ticked
  | sendIrq =>
    rw [Socrocket.Apbuart.step, sendIrq]
    split_ifs
    all_goals exact h.congr rfl rfl rfl rfl rfl
  | statusWrite _ | controlRead | scalerRead | scalerWrite _ => exact h.congr rfl rfl rfl rfl rfl

end Follows

/-- The unit follows the line over every run. -/
theorem follows_run (pirq : ℕ) (memory : ℕ → Char8) (es : List Event) :
    Follows (es.foldl Line.step .init) (es.foldl step (.init pirq memory)) := by
  apply List.foldl_rel
  · exact ⟨rfl, le_rfl, rfl, rfl, rfl, rfl, iff_of_false Bool.false_ne_true not_setSince_nil,
      Nat.zero_le _, Nat.zero_le _⟩
  · intro e _ l u h
    exact h.step e

/-! ## The status word -/

/-- The fields of a status word and the fill levels they describe. The transmitter has a character in
its shift register and the others in its queue. -/
structure Describes (word : BitVec 32) (received outstanding : ℕ) (dropped : Prop) : Prop where
  receiveLevel : (word.extractLsb' 26 6).toNat = received
  transmitLevel : (word.extractLsb' 20 6).toNat = outstanding
  receiveFull : bitGet word 10 = true ↔ received = fifosize
  transmitFull : bitGet word 9 = true ↔ outstanding = fifosize
  receiveHalfFull : bitGet word 8 = true ↔ fifosize / 2 ≤ received
  transmitHalfEmpty : bitGet word 7 = true ↔ outstanding < fifosize / 2
  overrun : bitGet word 4 = true ↔ dropped
  transmitQueueEmpty : bitGet word 2 = true ↔ outstanding ≤ 1
  transmitShiftEmpty : bitGet word 1 = true ↔ outstanding = 0
  dataReady : bitGet word 0 = true ↔ received ≠ 0

theorem bitGet_flag_shift (b : Bool) (pos i : ℕ) :
    bitGet (flag b <<< pos) i = (decide (i = pos ∧ i < 32) && b) := getLsbD_ofBool_shiftLeft b pos i

theorem bitGet_flag (b : Bool) (i : ℕ) : bitGet (flag b) i = (decide (i = 0) && b) := by
  have unshifted := bitGet_flag_shift b 0 i
  rw [BitVec.shiftLeft_zero] at unshifted
  rw [unshifted]
  congr 1
  rw [decide_eq_decide]
  omega

theorem bitGet_level_shift (n pos i : ℕ) :
    bitGet (BitVec.ofNat 32 n <<< pos) i = (decide (pos ≤ i ∧ i < 32) && n.testBit (i - pos)) := by
  rw [bitGet, BitVec.getLsbD_shiftLeft, BitVec.getLsbD_ofNat]
  by_cases inside : i < 32
  · have small : i - pos < 32 := by omega
    by_cases below : i < pos
    · simp [below, Nat.not_le_of_lt below]
    · simp [below, inside, small, Nat.le_of_not_lt below]
  · simp [inside]

theorem testBit_level {n i : ℕ} (level : n ≤ fifosize) (high : 6 ≤ i) : n.testBit i = false := by
  apply Nat.testBit_lt_two_pow
  calc n < 2 ^ 6 := level.trans_lt (by decide)
    _ ≤ 2 ^ i := Nat.pow_le_pow_right (by decide) high

theorem bitGet_statusWord (u : APBUART) (level : u.recvBufferLevel ≤ fifosize)
    (send : u.sendBuffer ≤ fifosize) (i : ℕ) :
    bitGet (statusWord u) i =
      (decide (i = 0) && decide (u.recvBufferLevel ≠ 0) ||
        decide (26 ≤ i ∧ i < 32) && u.recvBufferLevel.testBit (i - 26) ||
        decide (20 ≤ i ∧ i < 32) && u.sendBuffer.testBit (i - 20) ||
        decide (i = 10 ∧ i < 32) && decide (fifosize ≤ u.recvBufferLevel) ||
        decide (i = 9 ∧ i < 32) && decide (fifosize ≤ u.sendBuffer) ||
        decide (i = 8 ∧ i < 32) && decide (fifosize / 2 ≤ u.recvBufferLevel) ||
        decide (i = 7 ∧ i < 32) && decide (u.sendBuffer < fifosize / 2) ||
        decide (i = 4 ∧ i < 32) && u.overrun ||
        decide (i = 2 ∧ i < 32) && decide (u.sendBuffer ≤ 1) ||
        decide (i = 1 ∧ i < 32) && decide (u.sendBuffer = 0)) := by
  simp only [statusWord, bitGet_or, bitGet_flag_shift, bitGet_flag, bitGet_level_shift,
    min_eq_left level, min_eq_left send]

theorem bitGet_statusWord_level (u : APBUART) (level : u.recvBufferLevel ≤ fifosize)
    (send : u.sendBuffer ≤ fifosize) {i : ℕ} (least : 20 ≤ i) (most : i < 32) :
    bitGet (statusWord u) i =
      (decide (26 ≤ i) && u.recvBufferLevel.testBit (i - 26) || u.sendBuffer.testBit (i - 20)) := by
  have apart : ∀ k < 20, i ≠ k := by omega
  rw [bitGet_statusWord u level send]
  simp [apart, least, most]

theorem toNat_extract_eq {word : BitVec 32} {n pos : ℕ} (level : n ≤ fifosize)
    (bits : ∀ i < 6, bitGet word (pos + i) = n.testBit i) : (word.extractLsb' pos 6).toNat = n := by
  apply Nat.eq_of_testBit_eq
  intro i
  rw [BitVec.testBit_toNat, BitVec.getLsbD_extractLsb']
  by_cases inside : i < 6
  · rw [decide_eq_true inside, Bool.true_and]
    exact bits i inside
  · rw [decide_eq_false inside, Bool.false_and, testBit_level level (not_lt.mp inside)]

theorem describes_statusWord (u : APBUART) (level : u.recvBufferLevel ≤ fifosize)
    (send : u.sendBuffer ≤ fifosize) :
    Describes (statusWord u) u.recvBufferLevel u.sendBuffer (u.overrun = true) := by
  have bits := bitGet_statusWord u level send
  have full {n : ℕ} (fits : n ≤ fifosize) : fifosize ≤ n ↔ n = fifosize :=
    ⟨fun least => fits.antisymm least, fun same => same.ge⟩
  constructor
  · apply toNat_extract_eq level
    intro i inside
    have high : 6 ≤ 26 + i - 20 := by omega
    rw [bitGet_statusWord_level u level send (by omega) (by omega), testBit_level send high,
      decide_eq_true (Nat.le_add_right 26 i), Bool.true_and, Bool.or_false, Nat.add_sub_cancel_left]
  · apply toNat_extract_eq send
    intro i inside
    have below : ¬ 26 ≤ 20 + i := by omega
    rw [bitGet_statusWord_level u level send (by omega) (by omega), decide_eq_false below,
      Bool.false_and, Bool.false_or, Nat.add_sub_cancel_left]
  · simp [bits, full level]
  · simp [bits, full send]
  all_goals simp [bits]

/-! ## Over runs -/

theorem sent_dataWrite (l : Line) (v : BitVec 32)
    (enabled : bitGet l.control transmitterEnable = true) :
    (l.step (.dataWrite v)).sent =
      if l.outstanding.length < fifosize then l.sent ++ [v.setWidth 8] else l.sent := by
  rw [Line.step, Line.transmit, if_pos enabled]
  split <;> rfl

theorem sent_of_ne_dataWrite (l : Line) {e : Event} (other : ∀ v, e ≠ .dataWrite v) :
    (l.step e).sent = l.sent := by
  cases e with
  | dataWrite v => exact absurd rfl (other v)
  | tick =>
    rw [Line.step, Line.receive]
    split
    · rfl
    · split <;> rfl
  | dataRead =>
    rw [Line.step]
    split <;> rfl
  | arrive _ | statusRead | statusWrite _ | controlRead | controlWrite _ | scalerRead
  | scalerWrite _ | sendIrq => rfl

/-- After every sequence of events: the send buffer counts the characters on their way out and never
exceeds `fifosize`. A character written with the transmitter enabled goes to the backend where fewer
were on their way, else it is dropped, and nothing else sends. A status read describes the fill levels
and tells whether a character was dropped since the last one. -/
theorem transmit_accounting (pirq : ℕ) (memory : ℕ → Char8) (es : List Event) :
    let u := es.foldl step (.init pirq memory)
    let l := es.foldl Line.step .init
    u.sendBuffer = l.outstanding.length ∧ u.sendBuffer ≤ fifosize ∧ u.backend.sent = l.sent ∧
      (∀ v, bitGet u.control transmitterEnable = true →
        (step u (.dataWrite v)).backend.sent =
          if l.outstanding.length < fifosize then u.backend.sent ++ [v.setWidth 8]
          else u.backend.sent) ∧
      (∀ e, (∀ v, e ≠ .dataWrite v) → (step u e).backend.sent = u.backend.sent) ∧
      Describes (step u .statusRead).status l.unread.length l.outstanding.length
        (SetSince l.overruns) := by
  intro u l
  have follows : Follows l u := follows_run pirq memory es
  refine ⟨follows.outstanding, ?_, follows.sent, ?_, ?_, ?_⟩
  · rw [follows.outstanding]
    exact follows.outstandingFits
  · intro v enabled
    rw [follows.control] at enabled
    rw [(follows.step _).sent, follows.sent]
    exact sent_dataWrite l v enabled
  · intro e other
    rw [(follows.step e).sent, follows.sent]
    exact sent_of_ne_dataWrite l other
  · have level : u.recvBufferLevel ≤ fifosize := follows.unread.trans_le follows.unreadFits
    have send : u.sendBuffer ≤ fifosize := follows.outstanding.trans_le follows.outstandingFits
    have word := describes_statusWord u level send
    rw [follows.unread, follows.outstanding] at word
    exact { word with overrun := word.overrun.trans follows.overrun }

end Socrocket.Apbuart
