/- Socrocket/Apbuart/Receive
   digest: The receive buffer over every interleaving of arriving characters, ticks and reads. -/

import Socrocket.Apbuart.APBUART

set_option autoImplicit false
set_option relaxedAutoImplicit false

namespace Socrocket.Apbuart

open Socrocket.Base.Run
open Socrocket.Core.SrRegister

variable {u v : APBUART} {e : Event} {memory : ℕ → Char8}

/-! ## Uses of the receive buffer -/

/-- `uart_ticks` puts a character in a cell of `recv_buffer`, a data read gets one from a cell. -/
inductive Use where
  | put (index : ℕ)
  | get (index : ℕ) (c : Char8)

def Use.index : Use → ℕ
  | .put index => index
  | .get index _ => index

/-- The use that a step makes of the buffer, with the character that the bus read returns. -/
def uses (u : APBUART) : Event → List Use
  | .tick => if receives u then [.put u.recvBufferEnd] else []
  | .dataRead =>
    if takesChar u then [.get u.recvBufferEnd ((step u .dataRead).data.setWidth 8)] else []
  | _ => []

/-- The characters that data reads returned. -/
def charsRead (history : List Use) : List Char8 :=
  history.filterMap fun
    | .put _ => none
    | .get _ c => some c

@[simp] theorem charsRead_append_put (history : List Use) (index : ℕ) :
    charsRead (history ++ [.put index]) = charsRead history := by
  simp [charsRead]

@[simp] theorem charsRead_append_get (history : List Use) (index : ℕ) (c : Char8) :
    charsRead (history ++ [.get index c]) = charsRead history ++ [c] := by
  simp [charsRead]

def next (u : APBUART) (e : Event) : Option APBUART := some (step u e)

/-- The characters read are those that arrived, in their order. Then come as many unread ones as the
level says, and those that wait at the backend. No use of the buffer lies outside of it. -/
structure InOrder (u : APBUART) (history : List Use) : Prop where
  order : ∃ unread, u.backend.arrived =
    charsRead history ++ unread ++ u.backend.arrived.drop u.backend.taken ∧
      unread.length = u.recvBufferLevel
  level : u.recvBufferLevel ≤ fifosize
  inside : ∀ use ∈ history, use.index < fifosize

/-- A use is one of the first `fifosize`, and a read finds the next character in the cell with that
number, before anything was written there. -/
def Lucky (memory : ℕ → Char8) (recorded : APBUART × List Use) (e : Event) : Prop :=
  uses recorded.1 e ≠ [] → recorded.2.length < fifosize ∧
    (e = .dataRead →
      recorded.1.backend.arrived[(charsRead recorded.2).length]? = some (memory recorded.2.length))

/-! ## What a step does to the receiving side -/

structure ReceiveSide where
  level : ℕ
  buffer : ℕ → Char8
  bufferEnd : ℕ
  arrived : List Char8
  taken : ℕ

def receiveSide (u : APBUART) : ReceiveSide :=
  ⟨u.recvBufferLevel, u.recvBuffer, u.recvBufferEnd, u.backend.arrived, u.backend.taken⟩

theorem receiveSide_updateLevelInt (u : APBUART) :
    receiveSide (updateLevelInt u) = receiveSide u := by
  rw [updateLevelInt]
  split <;> rfl

theorem updateLevelInt_eq (u : APBUART) :
    ∃ level irq, updateLevelInt u = { u with levelInt := level, irq := irq } := by
  rw [updateLevelInt]
  split
  · exact ⟨_, _, rfl⟩
  · exact ⟨_, _, rfl⟩

theorem tickSend_eq (u : APBUART) :
    ∃ level irq, tickSend u =
      { u with sendBuffer := u.sendBuffer - 1, levelInt := level, irq := irq } := by
  rw [tickSend]
  split
  · obtain ⟨level, irq, same⟩ := updateLevelInt_eq { u with sendBuffer := u.sendBuffer - 1 }
    exact ⟨level, irq, same⟩
  · rename_i empty
    have zero : u.sendBuffer - 1 = u.sendBuffer := by omega
    exact ⟨u.levelInt, u.irq, by rw [zero]⟩

theorem receives_iff : receives u = true ↔ u.backend.taken < u.backend.arrived.length ∧
    u.recvBufferLevel < fifosize ∧ bitGet u.control receiverInterrupt = true := by
  rw [receives, Bool.and_eq_true, Bool.and_eq_true, decide_eq_true_iff, decide_eq_true_iff,
    Backend.receivedChars, and_assoc, Nat.sub_pos_iff_lt]

theorem receiveSide_tickReceive (takes : receives u = true) :
    ∃ c, receiveSide (tickReceive u) =
      ⟨u.recvBufferLevel + 1, Function.update u.recvBuffer u.recvBufferEnd c,
        incFifoLevel u.recvBufferEnd, u.backend.arrived, u.backend.taken + 1⟩ := by
  obtain ⟨waiting, -⟩ := receives_iff.mp takes
  refine ⟨u.backend.arrived[u.backend.taken], ?_⟩
  rw [tickReceive, if_pos takes, List.getElem?_eq_getElem waiting]
  rfl

theorem receiveSide_uartTicks (u : APBUART) :
    receiveSide (uartTicks u) = receiveSide (tickReceive (tickSend u)) := by
  rw [uartTicks]
  split <;> rfl

/-- What a step may do to the receiving side. A put and a get both use the cell at the end. -/
inductive ReceiveStep (u : APBUART) (e : Event) : Prop where
  | quiet (more : List Char8) (unused : uses u e = [])
    (same : receiveSide (step u e) =
      { receiveSide u with arrived := u.backend.arrived ++ more }) : ReceiveStep u e
  | put (c : Char8) (use : uses u e = [.put u.recvBufferEnd]) (tick : e ≠ .dataRead)
    (waiting : u.backend.taken < u.backend.arrived.length) (room : u.recvBufferLevel < fifosize)
    (same : receiveSide (step u e) =
      ⟨u.recvBufferLevel + 1, Function.update u.recvBuffer u.recvBufferEnd c,
        incFifoLevel u.recvBufferEnd, u.backend.arrived, u.backend.taken + 1⟩) : ReceiveStep u e
  | get (use : uses u e = [.get u.recvBufferEnd (u.recvBuffer u.recvBufferEnd)])
    (read : e = .dataRead) (unread : 0 < u.recvBufferLevel)
    (same : receiveSide (step u e) =
      ⟨u.recvBufferLevel - 1, u.recvBuffer, incFifoLevel u.recvBufferEnd, u.backend.arrived,
        u.backend.taken⟩) : ReceiveStep u e

theorem setWidth_signExtend (c : Char8) : (c.signExtend 32).setWidth 8 = c := by
  apply BitVec.eq_of_getLsbD_eq
  intro i inside
  have inside' : i < 32 := by omega
  rw [BitVec.getLsbD_setWidth, BitVec.getLsbD_signExtend]
  simp [inside, inside']

theorem receive_cases (u : APBUART) (e : Event) : ReceiveStep u e := by
  cases e with
  | arrive c => exact .quiet [c] rfl rfl
  | dataRead =>
    by_cases takes : takesChar u = true
    · have after : step u .dataRead = { u with
          recvBufferLevel := u.recvBufferLevel - 1
          recvBufferEnd := incFifoLevel u.recvBufferEnd
          data := (u.recvBuffer u.recvBufferEnd).signExtend 32
          eIrq := u.eIrq ++ if bitGet u.control receiverInterrupt ∧ 0 < u.recvBufferLevel - 1
            then [100] else [] } := if_pos takes
      have use : uses u .dataRead = [.get u.recvBufferEnd (u.recvBuffer u.recvBufferEnd)] := by
        rw [uses, if_pos takes, after, setWidth_signExtend]
      rw [takesChar, Bool.and_eq_true, decide_eq_true_iff] at takes
      exact .get use rfl takes.1 (congrArg receiveSide after)
    · have still : step u .dataRead = u := if_neg takes
      refine .quiet [] (if_neg takes) ?_
      rw [still, List.append_nil]
      rfl
  | tick =>
    obtain ⟨level, irq, same⟩ := tickSend_eq u
    have moved : receiveSide (step u .tick) = receiveSide (tickReceive (tickSend u)) :=
      receiveSide_uartTicks u
    have both : receives (tickSend u) = receives u := by
      rw [same]
      rfl
    by_cases takes : receives u = true
    · obtain ⟨waiting, room, -⟩ := receives_iff.mp takes
      obtain ⟨c, put⟩ := receiveSide_tickReceive (both.trans takes)
      refine .put c (if_pos takes) nofun waiting room ?_
      rw [moved, put, same]
    · refine .quiet [] (if_neg takes) ?_
      rw [moved, tickReceive, both, if_neg takes, same, List.append_nil]
      rfl
  | dataWrite value =>
    have same : receiveSide (step u (.dataWrite value)) = receiveSide u := by
      rw [step, dataWrite]
      split_ifs
      · rfl
      · exact receiveSide_updateLevelInt _
      · rfl
    refine .quiet [] rfl ?_
    rw [same, List.append_nil]
    rfl
  | sendIrq =>
    have same : receiveSide (step u .sendIrq) = receiveSide u := by
      rw [step, sendIrq]
      split_ifs <;> rfl
    refine .quiet [] rfl ?_
    rw [same, List.append_nil]
    rfl
  | statusRead | statusWrite _ | controlRead | controlWrite _ | scalerRead | scalerWrite _ =>
    refine .quiet [] rfl ?_
    rw [List.append_nil]
    rfl

/-! ## What a step keeps -/

theorem order_iff {arrived read : List Char8} {taken level : ℕ} (has : taken ≤ arrived.length) :
    (∃ unread, arrived = read ++ unread ++ arrived.drop taken ∧ unread.length = level) ↔
      arrived.take read.length = read ∧ taken = read.length + level := by
  constructor
  · rintro ⟨unread, split, length⟩
    have total := congrArg List.length split
    rw [List.length_append, List.length_append, List.length_drop] at total
    refine ⟨?_, by omega⟩
    rw [split, List.append_assoc]
    exact List.take_left
  · rintro ⟨front, rfl⟩
    refine ⟨(arrived.drop read.length).take level, ?_, ?_⟩
    · rw [← List.drop_drop, List.append_assoc, List.take_append_drop]
      calc arrived = arrived.take read.length ++ arrived.drop read.length :=
            (List.take_append_drop ..).symm
        _ = read ++ arrived.drop read.length := by rw [front]
    · rw [List.length_take, List.length_drop]
      omega

/-- Until a use lies outside of the buffer, the end counts the uses and the cells from there on are as
they were at first. -/
structure Tracked (memory : ℕ → Char8) (u : APBUART) (history : List Use) : Prop where
  taken : u.backend.taken ≤ u.backend.arrived.length
  level : u.recvBufferLevel ≤ fifosize
  cells : (∃ use ∈ history, fifosize ≤ use.index) ∨ u.recvBufferEnd = history.length ∧
    history.length ≤ fifosize ∧ ∀ k, history.length ≤ k → u.recvBuffer k = memory k

theorem Tracked.use {history : List Use} {use : Use} (tracked : Tracked memory u history)
    (index : use.index = u.recvBufferEnd) (moved : v.recvBufferEnd = incFifoLevel u.recvBufferEnd)
    (cells : ∀ k, k ≠ u.recvBufferEnd → v.recvBuffer k = u.recvBuffer k)
    (taken : v.backend.taken ≤ v.backend.arrived.length) (level : v.recvBufferLevel ≤ fifosize) :
    Tracked memory v (history ++ [use]) := by
  refine ⟨taken, level, ?_⟩
  rcases tracked.cells with ⟨bad, mem, outside⟩ | ⟨counts, few, fresh⟩
  · exact .inl ⟨bad, List.mem_append_left _ mem, outside⟩
  · by_cases last : history.length = fifosize
    · exact .inl ⟨use, List.mem_append_right _ (List.mem_singleton_self use), by omega⟩
    · refine .inr ⟨?_, ?_, fun k beyond => ?_⟩
      · rw [moved, incFifoLevel, if_pos (by omega), counts, List.length_append,
          List.length_singleton]
      · rw [List.length_append, List.length_singleton]
        omega
      · rw [List.length_append, List.length_singleton] at beyond
        rw [cells k (by omega), fresh k (by omega)]

theorem Tracked.step {history : List Use} (tracked : Tracked memory u history) (e : Event) :
    Tracked memory (step u e) (history ++ uses u e) := by
  have before := tracked.level
  have held := tracked.taken
  cases receive_cases u e with
  | quiet more unused same =>
    obtain ⟨level, buffer, bufferEnd, arrived, taken⟩ := ReceiveSide.mk.inj same
    rw [unused, List.append_nil]
    constructor
    · rw [taken, arrived, List.length_append]
      exact held.trans (Nat.le_add_right _ _)
    · rw [level]
      exact before
    · rw [bufferEnd, buffer]
      exact tracked.cells
  | put c use _ waiting room same =>
    obtain ⟨level, buffer, bufferEnd, arrived, taken⟩ := ReceiveSide.mk.inj same
    rw [use]
    apply tracked.use rfl bufferEnd
    · intro k other
      rw [buffer, Function.update_of_ne other]
    · rw [taken, arrived]
      exact waiting
    · rw [level]
      exact room
  | get use _ _ same =>
    obtain ⟨level, buffer, bufferEnd, arrived, taken⟩ := ReceiveSide.mk.inj same
    rw [use]
    apply tracked.use rfl bufferEnd
    · intro k _
      rw [buffer]
    · rw [taken, arrived]
      exact held
    · rw [level]
      exact (Nat.sub_le _ _).trans before

/-- A use keeps the order exactly when it is one of the first `fifosize` and a read finds the next
character where nothing was written yet. -/
theorem inOrder_step_iff {history : List Use} (kept : InOrder u history)
    (tracked : Tracked memory u history) (e : Event) :
    InOrder (step u e) (history ++ uses u e) ↔ Lucky memory (u, history) e := by
  have within (use : Use) : (∀ other ∈ history ++ [use], other.index < fifosize) ↔
      use.index < fifosize := by
    rw [List.forall_mem_append, and_iff_right kept.inside]
    exact List.forall_mem_singleton
  have next := (tracked.step e).taken
  have held := tracked.taken
  have most := kept.level
  obtain ⟨front, count⟩ := (order_iff held).mp kept.order
  rcases tracked.cells with ⟨bad, mem, outside⟩ | ⟨counts, -, fresh⟩
  · exact absurd (kept.inside bad mem) outside.not_gt
  cases receive_cases u e with
  | quiet more unused same =>
    obtain ⟨level, -, -, arrived, taken⟩ := ReceiveSide.mk.inj same
    refine iff_of_true ⟨?_, ?_, ?_⟩ fun used => absurd unused used
    · have short : (charsRead history).length ≤ u.backend.arrived.length := by omega
      rw [order_iff next, unused, List.append_nil, arrived, taken, level,
        List.take_append_of_le_length short]
      exact ⟨front, count⟩
    · rw [level]
      exact most
    · rw [unused, List.append_nil]
      exact kept.inside
  | put c use other waiting room same =>
    obtain ⟨level, -, -, arrived, taken⟩ := ReceiveSide.mk.inj same
    have ordered : ∃ unread, (step u e).backend.arrived = charsRead (history ++ uses u e) ++ unread ++
        (step u e).backend.arrived.drop (step u e).backend.taken ∧
          unread.length = (step u e).recvBufferLevel := by
      rw [order_iff next, use, charsRead_append_put, arrived, taken, level]
      exact ⟨front, by omega⟩
    have used : uses u e ≠ [] := by
      rw [use]
      exact List.cons_ne_nil _ _
    constructor
    · intro after _
      have index := after.inside
      rw [use, within, Use.index, counts] at index
      exact ⟨index, fun read => absurd read other⟩
    · intro lucky
      refine ⟨ordered, ?_, ?_⟩
      · rw [level]
        exact room
      · rw [use, within, Use.index, counts]
        exact (lucky used).1
  | get use read unread same =>
    obtain ⟨level, -, -, arrived, taken⟩ := ReceiveSide.mk.inj same
    -- The next character to read is there, as the level is positive.
    have there : (charsRead history).length < u.backend.arrived.length := by omega
    have ordered : (∃ unread, (step u e).backend.arrived = charsRead (history ++ uses u e) ++ unread ++
        (step u e).backend.arrived.drop (step u e).backend.taken ∧
          unread.length = (step u e).recvBufferLevel) ↔
        u.backend.arrived[(charsRead history).length]? = some (memory history.length) := by
      rw [order_iff next, use, charsRead_append_get, arrived, taken, level, List.length_append,
        List.length_singleton, List.take_add_one, front, counts, fresh _ le_rfl,
        List.getElem?_eq_getElem there, Option.toList_some, List.append_cancel_left_eq,
        List.singleton_inj, Option.some.injEq]
      exact and_iff_left (by omega)
    have used : uses u e ≠ [] := by
      rw [use]
      exact List.cons_ne_nil _ _
    constructor
    · intro after _
      have index := after.inside
      rw [use, within, Use.index, counts] at index
      exact ⟨index, fun _ => ordered.mp after.order⟩
    · intro lucky
      refine ⟨ordered.mpr ((lucky used).2 read), ?_, ?_⟩
      · rw [level]
        omega
      · rw [use, within, Use.index, counts]
        exact (lucky used).1

/-! ## Over runs -/

theorem tracked_init (pirq : ℕ) (memory : ℕ → Char8) : Tracked memory (.init pirq memory) [] where
  taken := le_rfl
  level := Nat.zero_le _
  cells := .inr ⟨rfl, Nat.zero_le _, fun _ _ => rfl⟩

theorem inOrder_init (pirq : ℕ) (memory : ℕ → Char8) : InOrder (.init pirq memory) [] where
  order := ⟨[], rfl, rfl⟩
  level := Nat.zero_le _
  inside := by simp

/-- Whatever the memory held before, the characters are read in order, none lost and none twice,
the level counts the unread ones and no use lies outside of the buffer exactly when there are at most
`fifosize` uses and every read finds the next character where nothing was written. -/
theorem receive_in_order_iff (pirq : ℕ) (memory : ℕ → Char8) (es : List Event) :
    (∀ before after u, es = before ++ after → run next (.init pirq memory) before = some u →
      InOrder u (outputs next uses (.init pirq memory) before)) ↔
      Along (recording next uses) (Lucky memory) (.init pirq memory, []) es := by
  have exact : ∀ u e v history, InOrder u history → Tracked memory u history → next u e = some v →
      (InOrder v (history ++ uses u e) ↔ Lucky memory (u, history) e) := by
    rintro u e v history kept tracked ⟨⟩
    exact inOrder_step_iff kept tracked e
  have keep : ∀ u e v history, Tracked memory u history → next u e = some v →
      Tracked memory v (history ++ uses u e) := by
    rintro u e v history tracked ⟨⟩
    exact tracked.step e
  have throughout := outputs_throughout_iff exact keep (inOrder_init pirq memory)
    (tracked_init pirq memory) (run_total step _ es)
  simpa only [List.nil_append] using throughout

/-- The receiver and its interrupt are enabled, a character arrives, is taken and read. -/
def receiveOne (c : Char8) : List Event := [.controlWrite 5, .arrive c, .tick, .dataRead]

/-- In cleared memory the first read of a character returns zero. -/
theorem first_read_returns_leftover :
    ∃ u, run next (.init 2 fun _ => 0) (receiveOne 0x41) = some u ∧
      charsRead (outputs next uses (.init 2 fun _ => 0) (receiveOne 0x41)) = [0] ∧
      ¬ InOrder u (outputs next uses (.init 2 fun _ => 0) (receiveOne 0x41)) := by
  refine ⟨_, run_total step _ _, by decide +kernel, fun kept => ?_⟩
  obtain ⟨unread, split, -⟩ := kept.order
  have read : charsRead (outputs next uses (.init 2 fun _ => 0) (receiveOne 0x41)) = [0] := by
    decide +kernel
  rw [read] at split
  cases split

end Socrocket.Apbuart
