/- Socrocket/Core/SrSignal
   digest: An output signal with channels, whose writes go to all channels of a mask. -/

import Mathlib.Data.List.Induction
import Socrocket.Base.OrderedMap

set_option autoImplicit false
set_option relaxedAutoImplicit false

namespace Socrocket.Core.SrSignal

open Socrocket.Base

variable {R V T : Type} [DecidableEq R]

/-! ## Output signals -/

/-- An output signal with the receivers bound to it. -/
structure SignalOut (R V : Type) where
  mValue : V
  mReceiver : List R

/-- The call of `update` at a receiver: the value it reads at the sender, and the delay. -/
structure Update (R V T : Type) where
  receiver : R
  value : V
  time : T

namespace SignalOut

/-- A receiver that is bound already is not bound again. -/
def bind (s : SignalOut R V) (receiver : R) : SignalOut R V :=
  if receiver ∈ s.mReceiver then s else { s with mReceiver := s.mReceiver ++ [receiver] }

def read (s : SignalOut R V) : V := s.mValue

/-- Store the value, then update all receivers. -/
def write (s : SignalOut R V) (value : V) (time : T) : SignalOut R V × List (Update R V T) :=
  let s := { s with mValue := value }
  (s, s.mReceiver.map fun receiver => ⟨receiver, s.read, time⟩)

theorem mem_bind (s : SignalOut R V) (receiver r : R) :
    r ∈ (s.bind receiver).mReceiver ↔ r = receiver ∨ r ∈ s.mReceiver := by
  rw [bind]
  split_ifs with bound
  · constructor
    · exact Or.inr
    · rintro (rfl | old)
      · exact bound
      · exact old
  · rw [List.mem_append, List.mem_singleton, or_comm]

theorem nodup_bind {s : SignalOut R V} (nodup : s.mReceiver.Nodup) (receiver : R) :
    (s.bind receiver).mReceiver.Nodup := by
  rw [bind]
  split_ifs with bound
  · exact nodup
  · exact nodup.append (List.nodup_singleton _) (List.disjoint_singleton.mpr bound)

theorem mValue_bind (s : SignalOut R V) (receiver : R) : (s.bind receiver).mValue = s.mValue := by
  rw [bind]
  split_ifs <;> rfl

end SignalOut

/-! ## The selector -/

/-- The output signals by their channel. -/
abbrev SignalSelector (R V : Type) := OrderedMap (BitVec 32) (SignalOut R V) (Compare.word 32)

/-- The channels of a mask, as the loop of `write` tests them. -/
def channelBit (channel : BitVec 32) : BitVec 32 := 1 <<< channel.toNat

/-- The loop over the channels. It stops at the first channel above the mask. Each update is
recorded with the channel that sends it. -/
def writeLoop (mask : BitVec 32) (value : V) (time : T) : List (BitVec 32 × SignalOut R V) →
    List (BitVec 32 × SignalOut R V) × List (BitVec 32 × Update R V T)
  | [] => ([], [])
  | (channel, out) :: outs =>
    if mask ≥ channelBit channel then
      let (out, updates) :=
        if mask &&& channelBit channel ≠ 0 then out.write value time else (out, [])
      let (outs, later) := writeLoop mask value time outs
      ((channel, out) :: outs, updates.map (Prod.mk channel) ++ later)
    else ((channel, out) :: outs, [])

omit [DecidableEq R] in
theorem keys_writeLoop (mask : BitVec 32) (value : V) (time : T)
    (outs : List (BitVec 32 × SignalOut R V)) :
    (writeLoop mask value time outs).1.map Prod.fst = outs.map Prod.fst := by
  induction outs with
  | nil => rfl
  | cons e outs ih =>
    rw [writeLoop]
    split
    · exact congrArg (List.cons e.1) ih
    · rfl

namespace SignalSelector

/-- Bind a receiver to a channel. The memory of a new output signal holds `blank`. -/
def bind (s : SignalSelector R V) (receiver : R) (channel : BitVec 32) (blank : V) :
    SignalSelector R V :=
  match s.find? channel with
  | some item => s.set channel (item.bind receiver)
  | none => s.insert channel ((SignalOut.mk blank []).bind receiver)

/-- Write the value to all channels of the mask. -/
def write (s : SignalSelector R V) (mask : BitVec 32) (value : V) (time : T) :
    SignalSelector R V × List (BitVec 32 × Update R V T) :=
  (⟨(writeLoop mask value time s.entries).1, by
      rw [← List.pairwise_map (f := Prod.fst) (R := (Compare.word 32).lt), keys_writeLoop]
      exact List.pairwise_map.mpr s.sorted⟩,
    (writeLoop mask value time s.entries).2)

/-- The value of a channel, or a value initialized by default when it is not bound. -/
def read [Inhabited V] (s : SignalSelector R V) (channel : BitVec 32) : V :=
  match s.find? channel with
  | some item => item.read
  | none => default

end SignalSelector

/-! ## What a write does -/

theorem toNat_channelBit {channel : BitVec 32} (below : channel.toNat < 32) :
    (channelBit channel).toNat = 2 ^ channel.toNat := by
  have fits : 2 ^ channel.toNat < 2 ^ 32 := Nat.pow_lt_pow_right (by decide) below
  change ((1#32) <<< channel.toNat).toNat = _
  rw [BitVec.toNat_shiftLeft, Nat.shiftLeft_eq]
  change 1 * 2 ^ channel.toNat % 2 ^ 32 = _
  rw [Nat.one_mul, Nat.mod_eq_of_lt fits]

theorem and_channelBit_ne_zero {channel : BitVec 32} (below : channel.toNat < 32) (mask : BitVec 32) :
    mask &&& channelBit channel ≠ 0 ↔ mask.getLsbD channel.toNat = true := by
  have bits (i : ℕ) : (channelBit channel).getLsbD i = decide (channel.toNat = i) := by
    rw [BitVec.getLsbD, toNat_channelBit below, Nat.testBit_two_pow]
  constructor
  · intro set
    by_contra clear
    apply set
    apply BitVec.eq_of_getLsbD_eq
    intro i _
    rw [BitVec.getLsbD_and, bits]
    by_cases here : channel.toNat = i
    · subst i
      simp [Bool.eq_false_iff.mpr clear]
    · simp [here]
  · intro set zero
    have bit := congrArg (fun x => x.getLsbD channel.toNat) zero
    simp [bits, set] at bit

theorem getLsbD_of_stopped {mask channel later : BitVec 32} (below : later.toNat < 32)
    (order : channel.toNat ≤ later.toNat) (stopped : ¬ mask ≥ channelBit channel) :
    mask.getLsbD later.toNat = false := by
  have small : mask.toNat < 2 ^ later.toNat := by
    rw [ge_iff_le, BitVec.not_le, BitVec.lt_def, toNat_channelBit (by omega)] at stopped
    exact stopped.trans_le (Nat.pow_le_pow_right (by decide) order)
  exact Nat.testBit_lt_two_pow small

/-- The output signal of a channel after a write with the mask. -/
def stored (mask : BitVec 32) (value : V) (channel : BitVec 32) (out : SignalOut R V) :
    SignalOut R V :=
  if mask.getLsbD channel.toNat = true then { out with mValue := value } else out

/-- The updates a channel sends. -/
def sent (value : V) (time : T) (e : BitVec 32 × SignalOut R V) : List (BitVec 32 × Update R V T) :=
  e.2.mReceiver.map fun receiver => (e.1, ⟨receiver, value, time⟩)

omit [DecidableEq R] in
/-- For channels in order and below 32, stopping early leaves out nothing. -/
theorem writeLoop_eq (mask : BitVec 32) (value : V) (time : T)
    {outs : List (BitVec 32 × SignalOut R V)}
    (sorted : outs.Pairwise fun a b => (Compare.word 32).lt a.1 b.1)
    (below : ∀ e ∈ outs, e.1.toNat < 32) :
    writeLoop mask value time outs =
      (outs.map fun e => (e.1, stored mask value e.1 e.2),
        (outs.filter fun e => mask.getLsbD e.1.toNat).flatMap (sent value time)) := by
  induction outs with
  | nil => rfl
  | cons e outs ih =>
    obtain ⟨first, rest⟩ := List.pairwise_cons.mp sorted
    obtain ⟨here, later⟩ := List.forall_mem_cons.mp below
    rw [writeLoop]
    by_cases stop : mask ≥ channelBit e.1
    · rw [if_pos stop, ih rest later]
      by_cases bit : mask.getLsbD e.1.toNat = true
      · have set := (and_channelBit_ne_zero here mask).mpr bit
        rw [if_pos set]
        simp [bit, stored, sent, SignalOut.write, SignalOut.read]
      · have clear : ¬ (mask &&& channelBit e.1 ≠ 0) := fun set =>
          bit ((and_channelBit_ne_zero here mask).mp set)
        rw [if_neg clear]
        simp [bit, stored]
    · have unset : ∀ x ∈ e :: outs, mask.getLsbD x.1.toNat = false := by
        intro x member
        refine getLsbD_of_stopped (below x member) ?_ stop
        rcases List.mem_cons.mp member with rfl | tail
        · exact le_rfl
        · exact (BitVec.lt_def.mp (first x tail)).le
      have same : (e :: outs).map (fun x => (x.1, stored mask value x.1 x.2)) = e :: outs := by
        refine (List.map_congr_left fun x member => ?_).trans (List.map_id _)
        rw [stored, unset x member]
        rfl
      have none : (e :: outs).filter (fun x => mask.getLsbD x.1.toNat) = [] := by
        rw [List.filter_eq_nil_iff]
        intro x member
        rw [unset x member]
        exact Bool.false_ne_true
      rw [if_neg stop, same, none]
      rfl

/-! ## Sequences of calls -/

/-- A call of `bind`. What the memory of a new output signal holds is not determined. -/
structure Binding (R V : Type) where
  receiver : R
  channel : BitVec 32
  blank : V

/-- A call of `write`. -/
structure WriteCall (V T : Type) where
  mask : BitVec 32
  value : V
  time : T

inductive Call (R V T : Type) where
  | bind (b : Binding R V)
  | write (w : WriteCall V T)

def SignalSelector.apply (s : SignalSelector R V) : Call R V T → SignalSelector R V
  | .bind b => s.bind b.receiver b.channel b.blank
  | .write w => (s.write w.mask w.value w.time).1

/-- The selector after the calls. -/
def selectorAfter (calls : List (Call R V T)) : SignalSelector R V :=
  calls.foldl SignalSelector.apply OrderedMap.empty

/-- The receiver was bound to the channel. -/
def Bound (calls : List (Call R V T)) (receiver : R) (channel : BitVec 32) : Prop :=
  ∃ blank, .bind ⟨receiver, channel, blank⟩ ∈ calls

/-- Some receiver was bound to the channel. -/
def isBound (channel : BitVec 32) (calls : List (Call R V T)) : Bool :=
  calls.any fun
    | .bind b => b.channel = channel
    | .write _ => false

/-- The value last written to a channel since it was bound. The latest call comes first. -/
def lastWritten (channel : BitVec 32) : List (Call R V T) → Option V
  | [] => none
  | .bind _ :: before => lastWritten channel before
  | .write w :: before =>
    if w.mask.getLsbD channel.toNat && isBound channel before then some w.value
    else lastWritten channel before

omit [DecidableEq R] in
theorem isBound_iff {channel : BitVec 32} {calls : List (Call R V T)} :
    isBound channel calls = true ↔ ∃ receiver, Bound calls receiver channel := by
  rw [isBound, List.any_eq_true]
  constructor
  · rintro ⟨call, member, binds⟩
    cases call with
    | bind b =>
      have same : b.channel = channel := of_decide_eq_true binds
      subst channel
      exact ⟨b.receiver, b.blank, member⟩
    | write w => cases binds
  · rintro ⟨receiver, blank, member⟩
    exact ⟨_, member, decide_eq_true rfl⟩

omit [DecidableEq R] in
theorem bound_append_bind {calls : List (Call R V T)} {b : Binding R V} {receiver : R}
    {channel : BitVec 32} : Bound (calls ++ [.bind b]) receiver channel ↔
      Bound calls receiver channel ∨ (receiver = b.receiver ∧ channel = b.channel) := by
  simp only [Bound, List.mem_append, List.mem_singleton, exists_or, Call.bind.injEq]
  refine or_congr_right ⟨?_, ?_⟩
  · rintro ⟨blank, rfl⟩
    exact ⟨rfl, rfl⟩
  · rintro ⟨rfl, rfl⟩
    exact ⟨b.blank, rfl⟩

omit [DecidableEq R] in
theorem bound_append_write {calls : List (Call R V T)} {w : WriteCall V T} {receiver : R}
    {channel : BitVec 32} :
    Bound (calls ++ [.write w]) receiver channel ↔ Bound calls receiver channel := by
  simp [Bound]

omit [DecidableEq R] in
theorem isBound_of_lastWritten {channel : BitVec 32} {v : V} {calls : List (Call R V T)}
    (written : lastWritten channel calls = some v) : isBound channel calls = true := by
  induction calls with
  | nil => cases written
  | cons call before ih =>
    have earlier : isBound channel before = true → isBound channel (call :: before) = true := by
      intro bound
      rw [isBound, List.any_cons, ← isBound, bound, Bool.or_true]
    apply earlier
    cases call with
    | bind b => exact ih written
    | write w =>
      rw [lastWritten] at written
      split at written
      case isTrue set => exact ((Bool.and_eq_true ..).mp set).2
      case isFalse clear => exact ih written

/-- What the selector keeps of the calls. -/
structure Keeps (calls : List (Call R V T)) (s : SignalSelector R V) : Prop where
  present : ∀ channel, (s.find? channel).isSome = isBound channel calls
  receivers : ∀ channel out, s.find? channel = some out →
    out.mReceiver.Nodup ∧ ∀ r, r ∈ out.mReceiver ↔ Bound calls r channel
  value : ∀ channel out v, s.find? channel = some out →
    lastWritten channel calls.reverse = some v → out.mValue = v

theorem find?_bind (s : SignalSelector R V) (b : Binding R V) (channel : BitVec 32) :
    (s.bind b.receiver b.channel b.blank).find? channel =
      if channel = b.channel then
        some (((s.find? channel).getD ⟨b.blank, []⟩).bind b.receiver)
      else s.find? channel := by
  rw [SignalSelector.bind]
  cases held : s.find? b.channel with
  | some item =>
    rw [OrderedMap.find?_set]
    split_ifs with same
    · rw [same, held, Option.getD_some]
    · rfl
  | none =>
    rw [OrderedMap.find?_insert, held]
    split_ifs with same
    · rw [same, held, Option.getD_none, Option.getD_none]
    · rfl

omit [DecidableEq R] in
theorem find?_write {s : SignalSelector R V} (below : ∀ e ∈ s.entries, e.1.toNat < 32)
    (mask : BitVec 32) (value : V) (time : T) (channel : BitVec 32) :
    (s.write mask value time).1.find? channel =
      (s.find? channel).map (stored mask value channel) := by
  have same : (s.write mask value time).1 = s.mapValues (stored mask value) := by
    have entries := congrArg Prod.fst (writeLoop_eq mask value time s.sorted below)
    simp only [SignalSelector.write, OrderedMap.mapValues, entries]
  rw [same, OrderedMap.find?_mapValues]

theorem keeps_bind {calls : List (Call R V T)} {s : SignalSelector R V} (keeps : Keeps calls s)
    (b : Binding R V) : Keeps (calls ++ [.bind b]) (s.bind b.receiver b.channel b.blank) := by
  have found (channel : BitVec 32) := find?_bind s b channel
  constructor
  case present =>
    intro channel
    rw [found, isBound, List.any_append, ← isBound, ← keeps.present]
    by_cases same : channel = b.channel
    · simp [same]
    · simp [same, Ne.symm same]
  case receivers =>
    intro channel out held
    rw [found] at held
    by_cases same : channel = b.channel
    · rw [if_pos same, Option.some.injEq] at held
      subst out
      have item : ((s.find? channel).getD ⟨b.blank, []⟩).mReceiver.Nodup ∧
          ∀ r, r ∈ ((s.find? channel).getD ⟨b.blank, []⟩).mReceiver ↔ Bound calls r channel := by
        cases known : s.find? channel with
        | some item => exact keeps.receivers channel item known
        | none =>
          refine ⟨List.nodup_nil, fun r => iff_of_false List.not_mem_nil fun bound => ?_⟩
          have present := keeps.present channel
          rw [known, isBound_iff.mpr ⟨r, bound⟩] at present
          cases present
      refine ⟨SignalOut.nodup_bind item.1 _, fun r => ?_⟩
      rw [SignalOut.mem_bind, item.2, bound_append_bind, or_comm]
      simp [same]
    · rw [if_neg same] at held
      refine ⟨(keeps.receivers channel out held).1, fun r => ?_⟩
      rw [(keeps.receivers channel out held).2, bound_append_bind]
      simp [same]
  case value =>
    intro channel out v held last
    rw [List.reverse_append] at last
    change lastWritten channel calls.reverse = some v at last
    rw [found] at held
    by_cases same : channel = b.channel
    · rw [if_pos same, Option.some.injEq] at held
      subst out
      have known := isBound_of_lastWritten last
      rw [isBound, List.any_reverse, ← isBound, ← keeps.present] at known
      obtain ⟨item, known⟩ := Option.isSome_iff_exists.mp known
      rw [SignalOut.mValue_bind, known, Option.getD_some]
      exact keeps.value channel item v known last
    · rw [if_neg same] at held
      exact keeps.value channel out v held last

omit [DecidableEq R] in
theorem keeps_write {calls : List (Call R V T)} {s : SignalSelector R V} (keeps : Keeps calls s)
    (below : ∀ e ∈ s.entries, e.1.toNat < 32) (w : WriteCall V T) :
    Keeps (calls ++ [.write w]) (s.write w.mask w.value w.time).1 := by
  have found (channel : BitVec 32) := find?_write below w.mask w.value w.time channel
  constructor
  case present =>
    intro channel
    rw [found, isBound, List.any_append, ← isBound, ← keeps.present]
    simp
  case receivers =>
    intro channel out held
    rw [found, Option.map_eq_some_iff] at held
    obtain ⟨item, known, rfl⟩ := held
    have same : (stored w.mask w.value channel item).mReceiver = item.mReceiver := by
      rw [stored]
      split_ifs <;> rfl
    rw [same]
    refine ⟨(keeps.receivers channel item known).1, fun r => ?_⟩
    rw [(keeps.receivers channel item known).2, bound_append_write]
  case value =>
    intro channel out v held last
    rw [found, Option.map_eq_some_iff] at held
    obtain ⟨item, known, rfl⟩ := held
    have bound : isBound channel calls.reverse = true := by
      rw [isBound, List.any_reverse, ← isBound, ← keeps.present, known, Option.isSome_some]
    rw [List.reverse_append] at last
    change lastWritten channel (.write w :: calls.reverse) = some v at last
    rw [lastWritten, bound, Bool.and_true] at last
    rw [stored]
    split_ifs at last ⊢ with bit
    · exact Option.some.inj last
    · exact keeps.value channel item v known last

/-- Every sequence of calls that binds channels below 32. -/
theorem keeps_selectorAfter {calls : List (Call R V T)}
    (below : ∀ r channel, Bound calls r channel → channel.toNat < 32) :
    Keeps calls (selectorAfter calls) ∧ ∀ e ∈ (selectorAfter calls).entries, e.1.toNat < 32 := by
  have inRange {calls : List (Call R V T)} {s : SignalSelector R V} (keeps : Keeps calls s)
      (below : ∀ r channel, Bound calls r channel → channel.toNat < 32) :
      ∀ e ∈ s.entries, e.1.toNat < 32 := by
    intro e member
    have present := keeps.present e.1
    rw [OrderedMap.find?_eq_some.mpr member, Option.isSome_some] at present
    obtain ⟨r, bound⟩ := isBound_iff.mp present.symm
    exact below r e.1 bound
  suffices keeps : Keeps calls (selectorAfter calls) from ⟨keeps, inRange keeps below⟩
  induction calls using List.reverseRecOn with
  | nil =>
    constructor
    · intro channel
      rfl
    · rintro channel out ⟨⟩
    · rintro channel out v ⟨⟩
  | append_singleton calls call ih =>
    have before : ∀ r channel, Bound calls r channel → channel.toNat < 32 := by
      rintro r channel ⟨blank, member⟩
      exact below r channel ⟨blank, List.mem_append_left _ member⟩
    have after : selectorAfter (calls ++ [call]) = (selectorAfter calls).apply call := by
      rw [selectorAfter, List.foldl_append]
      rfl
    rw [after]
    cases call with
    | bind b => exact keeps_bind (ih before) b
    | write w => exact keeps_write (ih before) (inRange (ih before) before) w

/-! ## Fan-out -/

/-- What a write after the calls leaves and sends. -/
def writeAfter (calls : List (Call R V T)) (w : WriteCall V T) :
    SignalSelector R V × List (BitVec 32 × Update R V T) :=
  (selectorAfter calls).write w.mask w.value w.time

/-- Bindings, in their order, and then writes. -/
def bindAndWrite (binds : List (Binding R V)) (writes : List (WriteCall V T)) : List (Call R V T) :=
  binds.map .bind ++ writes.map .write

/-- A write after the calls updates each receiver of each channel in the mask once with its value and
delay, and no other. Every channel then reads the value last written to it. Neither depends on the
order in which the channels were bound before the writes. -/
structure FansOut [Inhabited V] (calls : List (Call R V T)) (w : WriteCall V T) : Prop where
  once : (writeAfter calls w).2.Nodup
  delivers : ∀ channel u, (channel, u) ∈ (writeAfter calls w).2 ↔
    Bound calls u.receiver channel ∧ w.mask.getLsbD channel.toNat = true ∧ u.value = w.value ∧
      u.time = w.time
  reads : ∀ channel v, lastWritten channel (.write w :: calls.reverse) = some v →
    (writeAfter calls w).1.read channel = v
  order : ∀ binds binds' writes, calls = bindAndWrite binds writes → binds.Perm binds' →
    (writeAfter (bindAndWrite binds' writes) w).2.Perm (writeAfter calls w).2 ∧
      ∀ channel, (lastWritten channel (.write w :: calls.reverse)).isSome = true →
        (writeAfter (bindAndWrite binds' writes) w).1.read channel =
          (writeAfter calls w).1.read channel

section Updates

variable {calls : List (Call R V T)}
  (below : ∀ r channel, Bound calls r channel → channel.toNat < 32) (w : WriteCall V T)

include below

theorem updates_writeAfter :
    (writeAfter calls w).2 =
      ((selectorAfter calls).entries.filter fun e => w.mask.getLsbD e.1.toNat).flatMap
        (sent w.value w.time) :=
  congrArg Prod.snd (writeLoop_eq w.mask w.value w.time (selectorAfter calls).sorted
    (keeps_selectorAfter below).2)

theorem nodup_writeAfter : (writeAfter calls w).2.Nodup := by
  obtain ⟨keeps, -⟩ := keeps_selectorAfter below
  rw [updates_writeAfter below, List.nodup_flatMap]
  constructor
  · intro e member
    have held := OrderedMap.find?_eq_some.mpr (List.mem_of_mem_filter member)
    refine (keeps.receivers e.1 e.2 held).1.map fun r r' same => ?_
    cases same
    rfl
  · refine ((selectorAfter calls).sorted.sublist List.filter_sublist).imp fun {a b} lt => ?_
    intro x inA inB
    obtain ⟨r, -, rfl⟩ := List.mem_map.mp inA
    obtain ⟨r', -, same⟩ := List.mem_map.mp inB
    have key : b.1 = a.1 := (Prod.mk.inj same).1
    rw [key] at lt
    exact (Compare.word 32).irrefl a.1 lt

theorem mem_writeAfter (channel : BitVec 32) (u : Update R V T) :
    (channel, u) ∈ (writeAfter calls w).2 ↔
      Bound calls u.receiver channel ∧ w.mask.getLsbD channel.toNat = true ∧ u.value = w.value ∧
        u.time = w.time := by
  obtain ⟨keeps, -⟩ := keeps_selectorAfter below
  rw [updates_writeAfter below, List.mem_flatMap]
  constructor
  · rintro ⟨e, member, sends⟩
    obtain ⟨held, bit⟩ := List.mem_filter.mp member
    obtain ⟨r, bound, same⟩ := List.mem_map.mp sends
    cases same
    have known := keeps.receivers e.1 e.2 (OrderedMap.find?_eq_some.mpr held)
    exact ⟨(known.2 r).mp bound, bit, rfl, rfl⟩
  · rintro ⟨bound, bit, value, time⟩
    have present := keeps.present channel
    rw [isBound_iff.mpr ⟨u.receiver, bound⟩] at present
    obtain ⟨out, held⟩ := Option.isSome_iff_exists.mp present
    refine ⟨(channel, out), List.mem_filter.mpr ⟨OrderedMap.find?_eq_some.mp held, bit⟩, ?_⟩
    refine List.mem_map.mpr ⟨u.receiver, ((keeps.receivers channel out held).2 _).mpr bound, ?_⟩
    rw [← value, ← time]

theorem read_writeAfter [Inhabited V] {channel : BitVec 32} {v : V}
    (written : lastWritten channel (.write w :: calls.reverse) = some v) :
    (writeAfter calls w).1.read channel = v := by
  obtain ⟨keeps, inRange⟩ := keeps_selectorAfter below
  have after := keeps_write keeps inRange w
  have last : lastWritten channel (calls ++ [Call.write w]).reverse = some v := by
    rw [List.reverse_append]
    exact written
  have known := isBound_of_lastWritten last
  rw [isBound, List.any_reverse, ← isBound, ← after.present] at known
  obtain ⟨out, held⟩ := Option.isSome_iff_exists.mp known
  rw [writeAfter, SignalSelector.read, held]
  exact after.value channel out v held last

end Updates

omit [DecidableEq R]

theorem lastWritten_binds (channel : BitVec 32) (binds : List (Binding R V)) :
    lastWritten channel (binds.map (Call.bind (T := T))) = none := by
  induction binds with
  | nil => rfl
  | cons b binds ih => exact ih

theorem reverse_bindAndWrite (binds : List (Binding R V)) (writes : List (WriteCall V T))
    (w : WriteCall V T) :
    (bindAndWrite binds (writes ++ [w])).reverse = .write w :: (bindAndWrite binds writes).reverse := by
  simp [bindAndWrite]

section Order

variable {binds binds' : List (Binding R V)} (perm : binds.Perm binds')
  (writes : List (WriteCall V T))

include perm

theorem lastWritten_perm (channel : BitVec 32) :
    lastWritten channel (bindAndWrite binds writes).reverse =
      lastWritten channel (bindAndWrite binds' writes).reverse := by
  induction writes using List.reverseRecOn with
  | nil =>
    rw [bindAndWrite, bindAndWrite, List.map_nil, List.append_nil, List.append_nil,
      ← List.map_reverse, ← List.map_reverse, lastWritten_binds, lastWritten_binds]
  | append_singleton writes w ih =>
    have bound : isBound channel (bindAndWrite binds writes).reverse =
        isBound channel (bindAndWrite binds' writes).reverse := by
      rw [isBound, isBound, List.any_reverse, List.any_reverse, bindAndWrite, bindAndWrite,
        List.any_append, List.any_append, (perm.map Call.bind).any_eq]
    rw [reverse_bindAndWrite, reverse_bindAndWrite, lastWritten, lastWritten, bound, ih]

theorem bound_perm (r : R) (channel : BitVec 32) :
    Bound (bindAndWrite binds writes) r channel ↔ Bound (bindAndWrite binds' writes) r channel := by
  refine exists_congr fun blank => ?_
  rw [bindAndWrite, bindAndWrite, List.mem_append, List.mem_append, (perm.map Call.bind).mem_iff]

end Order

/-- Signal fan-out, after any calls that bind channels below 32. -/
theorem fan_out [DecidableEq R] [Inhabited V] (calls : List (Call R V T))
    (below : ∀ r channel, Bound calls r channel → channel.toNat < 32) (w : WriteCall V T) :
    FansOut calls w := by
  constructor
  case once => exact nodup_writeAfter below w
  case delivers => exact fun channel u => mem_writeAfter below w channel u
  case reads => exact fun channel v written => read_writeAfter below w written
  case order =>
    rintro binds binds' writes rfl perm
    have below' : ∀ r channel, Bound (bindAndWrite binds' writes) r channel → channel.toNat < 32 := by
      intro r channel bound
      exact below r channel ((bound_perm perm writes r channel).mpr bound)
    constructor
    · refine (List.perm_ext_iff_of_nodup (nodup_writeAfter below' w)
        (nodup_writeAfter below w)).mpr ?_
      rintro ⟨channel, u⟩
      rw [mem_writeAfter below', mem_writeAfter below, bound_perm perm]
    · intro channel written
      obtain ⟨v, written⟩ := Option.isSome_iff_exists.mp written
      have same := lastWritten_perm perm (writes ++ [w]) channel
      rw [reverse_bindAndWrite, reverse_bindAndWrite] at same
      rw [read_writeAfter below w written, read_writeAfter below' w (same ▸ written)]

/-- A mask with the highest channel reaches it. -/
example : (writeAfter [Call.bind ⟨1, 31, false⟩, .bind ⟨2, 0, false⟩, .bind ⟨1, 3, true⟩]
    (⟨0x80000001, true, 5⟩ : WriteCall Bool ℕ)).2.map (fun p => (p.1, p.2.receiver)) =
      [(0, 2), (31, 1)] := by
  decide

/-- Three channels of a selector, bound out of order, one receiver at two of them. -/
def threeChannels : List (Call ℕ Bool ℕ) :=
  [.bind ⟨1, 31, false⟩, .bind ⟨2, 0, false⟩, .bind ⟨1, 3, true⟩, .write ⟨0x8, false, 0⟩]

theorem fan_out_threeChannels : FansOut threeChannels ⟨0x80000001, true, 5⟩ := by
  apply fan_out
  rintro r channel ⟨blank, member⟩
  simp only [threeChannels, List.mem_cons, Call.bind.injEq, Binding.mk.injEq, reduceCtorEq,
    List.not_mem_nil, or_false] at member
  rcases member with ⟨-, rfl, -⟩ | ⟨-, rfl, -⟩ | ⟨-, rfl, -⟩
  · decide
  · decide
  · decide

end Socrocket.Core.SrSignal
