/- Socrocket/Bus/ApbSplit
   digest: The APB bridge splits a transaction into beats of four bytes and keeps the last answer. -/

import Socrocket.Base.Tiling
import Socrocket.Bus.Blocking
import Socrocket.Bus.Payload

set_option autoImplicit false
set_option relaxedAutoImplicit false

namespace Socrocket.Bus.APBCtrl

open Socrocket.Base
open Socrocket.Base.ByteMemory
open Socrocket.Base.Run
open Socrocket.Base.Tiling

/-- One APB access: what the bridge puts in the transaction, with the data pointer as an offset from
the one of the AHB transaction, the slave index it found, and the answer. -/
structure Part where
  command : TlmCommand
  address : BitVec 32
  dataLength : BitVec 32
  byteEnable : Option Buffer
  offset : ℕ
  index : ℤ
  response : TlmResponse

def Part.range (p : Part) : Range := ⟨p.offset, p.dataLength.toNat⟩

/-- What a slave does with its access: its answer, the data and the delay it adds. -/
structure Reply where
  response : TlmResponse
  data : Buffer
  delay : ℕ

/-- The base address of the bridge on the AHB, the device information and the clock cycle. -/
structure Setup where
  barAddr : BitVec 32
  mSlaves : ℕ → Option (ℕ → BitVec 32)
  clockCycle : ℕ

/-- The AHB transaction in work, with the accesses issued for it so far. -/
structure Split where
  decoder : Decoder
  trans : GenericPayload
  delay : ℕ
  parts : List Part

/-- The configuration area is always in the upper part. -/
def pnpbase : BitVec 32 := 0xff000

def isPnp (addr : BitVec 32) : Prop := (addr ^^^ pnpbase) &&& pnpbase = 0

instance (addr : BitVec 32) : Decidable (isPnp addr) := inferInstanceAs (Decidable (_ = _))

section ExecFunc

variable (g : Setup) (replies : ℕ → Reply) (debug : Bool)

/-- The record and the word in it of an address of the configuration area, eight bytes a device. -/
def pnpRecord (address : BitVec 32) : Option (BitVec 32) :=
  let addr := address - (g.barAddr + pnpbase)
  let device := ((addr >>> 2) >>> 1).toNat
  let offset := ((addr >>> 2) &&& 0x1).toNat
  if device < 16 then (g.mSlaves device).map fun info => info offset else none

/-- A register of the configuration area. -/
def getPNPReg (address : BitVec 32) : BitVec 32 :=
  match pnpRecord g address with
  | some result => AHBCtrl.swapEndianess result
  | none => 0

/-- Byte `i` of an access to the configuration area. -/
def pnpByte (addr : BitVec 32) (i : ℕ) : BitVec 8 :=
  let byte := ((addr + BitVec.ofNat 32 i) &&& 0x3).toNat
  (getPNPReg g (addr + BitVec.ofNat 32 i) >>> (8 * byte)).setWidth 8

/-- An access to the configuration area, which is read only. -/
def pnpAccess (s : Split) : Split :=
  if s.trans.command = .read then
    let length := s.trans.dataLength.toNat
    let found := (List.range length).countP fun i =>
      (pnpRecord g (s.trans.address + BitVec.ofNat 32 i)).isSome
    { s with
      decoder := { s.decoder with
        rightTransactions := s.decoder.rightTransactions + BitVec.ofNat 64 found }
      trans := { s.trans with
        data := memcpy s.trans.data (pnpByte g s.trans.address) length
        response := .ok }
      delay := s.delay + length * g.clockCycle }
  else { s with trans := { s.trans with response := .commandError } }

/-- The values of the loop variable `i`, which is as wide as the length it is compared with. -/
def offsets (length : BitVec 32) : ℕ → BitVec 32 → Option (List (BitVec 32))
  | 0, _ => none
  | fuel + 1, i => if i < length then (offsets length fuel (i + 4)).map (i :: ·) else some []

/-- One round of the loop. The slave at the `k`-th access answers with the `k`-th reply. -/
def beat (s : Split) (i : BitVec 32) : Option Split :=
  (getIndex s.decoder (s.trans.address + i)).map fun (index, decoder) =>
    let reply := replies s.parts.length
    let part : Part :=
      { command := s.trans.command
        address := (s.trans.address &&& 0xfffff) + i
        dataLength := if s.trans.dataLength ≤ 4 then s.trans.dataLength else 4
        byteEnable := s.trans.byteEnable
        offset := i.toNat
        index := index
        response := if 0 ≤ index then reply.response else .addressError }
    if 0 ≤ index then
      { decoder := decoder
        trans := { s.trans with
          data := copyTo s.trans.data part.offset reply.data part.dataLength.toNat
          response := part.response }
        delay := if debug then s.delay else s.delay + reply.delay + g.clockCycle
        parts := s.parts ++ [part] }
    else
      -- Nothing is mapped there, and no slave is called.
      { s with
        decoder := decoder
        trans := { s.trans with response := part.response }
        parts := s.parts ++ [part] }

/-- The functional part of the bridge. -/
def execFunc (fuel : ℕ) (d : Decoder) (trans : GenericPayload) (delay : ℕ) : Option Split :=
  let s : Split := ⟨{ d with totalTransactions := d.totalTransactions + 1 }, trans, delay, []⟩
  if isPnp trans.address then some (pnpAccess g s)
  else (offsets trans.dataLength fuel 0).bind fun is => run (beat g replies debug) s is

end ExecFunc

/-- Some area of the map holds the address. -/
def Mapped (m : SlaveMap) (address : BitVec 32) : Prop :=
  ∃ e ∈ m.entries, Covers e (segment address)

instance (m : SlaveMap) (address : BitVec 32) : Decidable (Mapped m address) :=
  inferInstanceAs (Decidable (∃ e ∈ m.entries, _))

/-- The device of an area that holds the address, or -1 when there is none. -/
def Decodes (m : SlaveMap) (address : BitVec 32) (index : ℤ) : Prop :=
  (∃ e ∈ m.entries, Covers e (segment address) ∧ index = (device e.2.binding).toInt) ∨
    (¬ Mapped m address ∧ index = -1)

/-- The accesses cover the payload of a transaction once each byte and nothing beyond, each of them goes
to the device at its address with its part of the data, and the answer is OK when all answers are. -/
structure SplitExact (m : SlaveMap) (trans : GenericPayload) (s : Split) : Prop where
  tiles : Tiles trans.dataLength.toNat (s.parts.map Part.range)
  placed : ∀ p ∈ s.parts, p.address = (trans.address &&& 0xfffff) + BitVec.ofNat 32 p.offset
  sent : ∀ p ∈ s.parts, Decodes m (trans.address + BitVec.ofNat 32 p.offset) p.index
  answered : s.trans.response = .ok ↔ ∀ p ∈ s.parts, p.response = .ok

/-- The cached area holds the address; or some base is not above it, and the area of the greatest such
base holds it unless none does. -/
def Searchable (d : Decoder) (address : BitVec 32) : Prop :=
  Covers d.slaveMapCache (segment address) ∨
    ∃ e ∈ d.slaveMap.entries, e.1 ≤ segment address ∧
      (∀ c ∈ d.slaveMap.entries, c.1 ≤ segment address → c.1 ≤ e.1) ∧
      (Covers e (segment address) ∨ ¬ Mapped d.slaveMap address)

instance (d : Decoder) (address : BitVec 32) : Decidable (Searchable d address) :=
  inferInstanceAs (Decidable (_ ∨ _))

/-- How many times the loop runs. -/
def beats (length : BitVec 32) : ℕ := (length.toNat + 3) / 4

/-- The address of the access number `k`. -/
def beatAddress (trans : GenericPayload) (k : ℕ) : BitVec 32 := trans.address + BitVec.ofNat 32 (4 * k)

/-- What the access number `k` is answered when it is decoded right. -/
def answer (m : SlaveMap) (replies : ℕ → Reply) (trans : GenericPayload) (k : ℕ) : TlmResponse :=
  if Mapped m (beatAddress trans k) then (replies k).response else .addressError

/-- The map holds up to 16 slaves, and the cache one of them or nothing yet. -/
structure Known (d : Decoder) : Prop where
  cached : d.slaveMapCache = bogus ∨ d.slaveMapCache ∈ d.slaveMap.entries
  named : ∀ e ∈ d.slaveMap.entries, e.2.binding.toNat < 16

variable {d d' : Decoder} {address : BitVec 32} {index : ℤ}

/-- What a search can do: it stays at the cached area, or takes the nearest lower base, or finds
nothing there. The map is not changed. -/
theorem get_index_cases (known : Known d) (result : getIndex d address = some (index, d')) :
    d'.slaveMap = d.slaveMap ∧ Known d' ∧
      ((∃ e ∈ d.slaveMap.entries, Covers e (segment address) ∧
          index = (device e.2.binding).toInt) ∨ index = -1) := by
  rw [getIndex, Decoder.find, Option.map_eq_some_iff] at result
  obtain ⟨⟨found, cache⟩, search, eq⟩ := result
  unfold lookup at search
  by_cases hit : Covers d.slaveMapCache (segment address)
  · rw [if_pos hit, Option.some.injEq, Prod.mk.injEq] at search
    obtain ⟨rfl, rfl⟩ := search
    obtain ⟨rfl, rfl⟩ := Prod.mk.inj eq
    rcases known.cached with empty | member
    · rw [empty] at hit
      exact absurd hit (not_covers_bogus (apb_segment_small address))
    · exact ⟨rfl, ⟨.inr member, known.named⟩, .inl ⟨_, member, hit, rfl⟩⟩
  · rw [if_neg hit, Option.map_eq_some_iff] at search
    obtain ⟨it, nearest, answer⟩ := search
    have member := (OrderedMap.floor_eq_some nearest).1
    by_cases covers : Covers it (segment address)
    · rw [if_pos covers, Prod.mk.injEq] at answer
      obtain ⟨rfl, rfl⟩ := answer
      obtain ⟨rfl, rfl⟩ := Prod.mk.inj eq
      exact ⟨rfl, ⟨.inr member, known.named⟩, .inl ⟨it, member, covers, rfl⟩⟩
    · rw [if_neg covers, Prod.mk.injEq] at answer
      obtain ⟨rfl, rfl⟩ := answer
      obtain ⟨rfl, rfl⟩ := Prod.mk.inj eq
      exact ⟨rfl, known, .inr rfl⟩

private theorem device_named (known : Known d) {e : Entry} (member : e ∈ d.slaveMap.entries) :
    0 ≤ (device e.2.binding).toInt := by
  have small := known.named e member
  rw [device, BitVec.toInt_eq_toNat_of_lt (by omega)]
  exact Int.natCast_nonneg _

theorem decodes_mapped (known : Known d) (decodes : Decodes d.slaveMap address index) :
    0 ≤ index ↔ Mapped d.slaveMap address := by
  rcases decodes with ⟨e, member, covers, rfl⟩ | ⟨none, rfl⟩
  · exact ⟨fun _ => ⟨e, member, covers⟩, fun _ => device_named known member⟩
  · exact ⟨fun negative => absurd negative (by decide), fun mapped => absurd mapped none⟩

theorem get_index_decodes_iff (known : Known d) :
    (∃ index d', getIndex d address = some (index, d') ∧ Decodes d.slaveMap address index) ↔
      Searchable d address := by
  have small := apb_segment_small address
  unfold getIndex Decoder.find lookup
  by_cases hit : Covers d.slaveMapCache (segment address)
  · rw [if_pos hit]
    rcases known.cached with empty | member
    · rw [empty] at hit
      exact absurd hit (not_covers_bogus small)
    · exact ⟨fun _ => .inl hit, fun _ => ⟨_, _, rfl, .inl ⟨_, member, hit, rfl⟩⟩⟩
  · rw [if_neg hit]
    cases nearest : d.slaveMap.floor (segment address) with
    | none =>
      have above := OrderedMap.floor_eq_none.mp nearest
      constructor
      · rintro ⟨index, d', impossible, -⟩
        exact absurd impossible (by simp)
      · rintro (covered | ⟨e, member, le, -⟩)
        · exact absurd covered hit
        · exact absurd le (BitVec.not_le.mpr (above e member))
    | some it =>
      obtain ⟨member, not_above, greatest⟩ := OrderedMap.floor_eq_some nearest
      have le : it.1 ≤ segment address := BitVec.not_lt.mp not_above
      have last (c : Entry) (hc : c ∈ d.slaveMap.entries) (below : c.1 ≤ segment address) :
          c.1 ≤ it.1 := BitVec.not_lt.mp (greatest c hc (BitVec.not_lt.mpr below))
      rw [Option.map_some, Option.map_some]
      by_cases covers : Covers it (segment address)
      · rw [if_pos covers]
        exact ⟨fun _ => .inr ⟨it, member, le, last, .inl covers⟩, fun _ =>
          ⟨_, _, rfl, .inl ⟨it, member, covers, rfl⟩⟩⟩
      · rw [if_neg covers]
        constructor
        · rintro ⟨index, d', result, decodes⟩
          obtain ⟨rfl, -⟩ := Prod.mk.inj (Option.some.inj result)
          refine .inr ⟨it, member, le, last, .inr fun mapped => ?_⟩
          exact absurd ((decodes_mapped known decodes).mpr mapped) (by decide)
        · rintro (covered | ⟨e, mem, below, top, served⟩)
          · exact absurd covered hit
          · have base : e.1 = it.1 := BitVec.le_antisymm (last e mem below) (top it member le)
            obtain rfl : e = it := OrderedMap.value_unique mem member base
            exact ⟨_, _, rfl, .inr ⟨served.resolve_left covers, rfl⟩⟩

private theorem known_build {bars : List Bar} (named : ∀ b ∈ bars, b.binding.toNat < 16) :
    Known (Decoder.build bars) := by
  refine ⟨.inl (build_registers bars).2, fun e member => ?_⟩
  rw [(build_registers bars).1] at member
  have kept (bars : List Bar) (m : SlaveMap) (old : ∀ e ∈ m.entries, e.2.binding.toNat < 16)
      (named : ∀ b ∈ bars, b.binding.toNat < 16) :
      ∀ e ∈ (bars.foldl (fun m b => m.insert b.base b.info) m).entries, e.2.binding.toNat < 16 := by
    induction bars generalizing m with
    | nil => exact old
    | cons b bars ih =>
      obtain ⟨first, rest⟩ := List.forall_mem_cons.mp named
      refine ih _ (fun e member => ?_) rest
      rcases OrderedMap.mem_of_mem_insertEntry member with rfl | mem
      · exact first
      · exact old e mem
  exact kept bars OrderedMap.empty (fun e none => absurd none List.not_mem_nil) named e member

private theorem known_reached {bars : List Bar} (named : ∀ b ∈ bars, b.binding.toNat < 16)
    {earlier : List (BitVec 32)}
    (reached : run (lookupStep getIndex) (Decoder.build bars) earlier = some d) : Known d := by
  refine run_always (fun d address d' known next => ?_) (known_build named) reached
  obtain ⟨⟨index, d''⟩, result, rfl⟩ := Option.map_eq_some_iff.mp next
  exact (get_index_cases known result).2.1

section Loop

variable {g : Setup} {replies : ℕ → Reply} {debug : Bool} {length : BitVec 32}

private theorem four_mul_succ (k : ℕ) :
    BitVec.ofNat 32 (4 * k) + 4 = BitVec.ofNat 32 (4 * (k + 1)) := by
  rw [Nat.mul_succ, BitVec.ofNat_add]
  rfl

private theorem ofNat_toNat_four {k : ℕ} (small : 4 * k < 2 ^ 32) :
    (BitVec.ofNat 32 (4 * k)).toNat = 4 * k := by
  rw [BitVec.toNat_ofNat, Nat.mod_eq_of_lt small]

theorem offsets_eq (fits : length.toNat ≤ 2 ^ 32 - 4) {m k : ℕ} (rest : k + m = beats length)
    (extra : ℕ) : offsets length (m + 1 + extra) (BitVec.ofNat 32 (4 * k)) =
      some ((List.range' k m).map fun j => BitVec.ofNat 32 (4 * j)) := by
  rw [beats] at rest
  induction m generalizing k with
  | zero =>
    have done : ¬ BitVec.ofNat 32 (4 * k) < length := by
      rw [BitVec.lt_def, ofNat_toNat_four (by omega)]
      omega
    rw [show 0 + 1 + extra = extra + 1 by omega, offsets, if_neg done]
    rfl
  | succ m ih =>
    have more : BitVec.ofNat 32 (4 * k) < length := by
      rw [BitVec.lt_def, ofNat_toNat_four (by omega)]
      omega
    rw [show m + 1 + 1 + extra = m + 1 + extra + 1 by omega, offsets, if_pos more, four_mul_succ,
      ih (by omega)]
    rfl

/-- With one of the last three lengths the variable wraps before it reaches the length. -/
theorem offsets_wrap (long : 2 ^ 32 - 4 < length.toNat) (fuel k : ℕ) :
    offsets length fuel (BitVec.ofNat 32 (4 * k)) = none := by
  induction fuel generalizing k with
  | zero => rfl
  | succ fuel ih =>
    have more : BitVec.ofNat 32 (4 * k) < length := by
      rw [BitVec.lt_def, BitVec.toNat_ofNat]
      omega
    rw [offsets, if_pos more, four_mul_succ, ih]
    rfl

theorem offsets_succ {fuel : ℕ} {i : BitVec 32} {is : List (BitVec 32)}
    (ends : offsets length fuel i = some is) : offsets length (fuel + 1) i = some is := by
  induction fuel generalizing i is with
  | zero => exact absurd ends (by simp [offsets])
  | succ fuel ih =>
    rw [offsets] at ends ⊢
    by_cases more : i < length
    · rw [if_pos more] at ends ⊢
      obtain ⟨rest, later, rfl⟩ := Option.map_eq_some_iff.mp ends
      rw [ih later]
      rfl
    · rw [if_neg more] at ends ⊢
      exact ends

private theorem offsets_add {fuel : ℕ} {i : BitVec 32} {is : List (BitVec 32)}
    (ends : offsets length fuel i = some is) (more : ℕ) :
    offsets length (fuel + more) i = some is := by
  induction more with
  | zero => exact ends
  | succ more ih => exact offsets_succ ih

theorem offsets_iff (is : List (BitVec 32)) : (∃ fuel, offsets length fuel 0 = some is) ↔
    length.toNat ≤ 2 ^ 32 - 4 ∧
      is = (List.range' 0 (beats length)).map fun j => BitVec.ofNat 32 (4 * j) := by
  constructor
  · rintro ⟨fuel, ends⟩
    by_cases fits : length.toNat ≤ 2 ^ 32 - 4
    · have whole := offsets_eq fits (Nat.zero_add (beats length)) fuel
      have same := offsets_add ends (beats length + 1)
      rw [Nat.add_comm] at same
      exact ⟨fits, Option.some.inj (same.symm.trans whole)⟩
    · rw [show (0 : BitVec 32) = BitVec.ofNat 32 (4 * 0) from rfl,
        offsets_wrap (by omega) fuel 0] at ends
      exact absurd ends nofun
  · rintro ⟨fits, rfl⟩
    exact ⟨_, offsets_eq fits (Nat.zero_add (beats length)) 0⟩

/-- The access that a round of the loop records. -/
def issued (replies : ℕ → Reply) (trans : GenericPayload) (k : ℕ) (index : ℤ) : Part :=
  { command := trans.command
    address := (trans.address &&& 0xfffff) + BitVec.ofNat 32 (4 * k)
    dataLength := if trans.dataLength ≤ 4 then trans.dataLength else 4
    byteEnable := trans.byteEnable
    offset := (BitVec.ofNat 32 (4 * k)).toNat
    index := index
    response := if 0 ≤ index then (replies k).response else .addressError }

/-- Everything but the data, the response and the answered accesses stays from round to round. -/
structure SameRequest (t u : GenericPayload) : Prop where
  command : u.command = t.command
  address : u.address = t.address
  dataLength : u.dataLength = t.dataLength
  byteEnable : u.byteEnable = t.byteEnable

theorem beat_cases {s t : Split} {k : ℕ} (count : s.parts.length = k)
    (next : beat g replies debug s (BitVec.ofNat 32 (4 * k)) = some t) :
    ∃ index, getIndex s.decoder (beatAddress s.trans k) = some (index, t.decoder) ∧
      SameRequest s.trans t.trans ∧ t.parts = s.parts ++ [issued replies s.trans k index] ∧
      t.trans.response = (issued replies s.trans k index).response := by
  subst count
  obtain ⟨⟨index, decoder⟩, found, eq⟩ := Option.map_eq_some_iff.mp next
  refine ⟨index, ?_⟩
  by_cases served : 0 ≤ index
  · simp only [if_pos served] at eq
    subst eq
    refine ⟨found, ⟨rfl, rfl, rfl, rfl⟩, ?_, ?_⟩
    · simp only [issued, if_pos served]
    · simp only [issued, if_pos served]
  · simp only [if_neg served] at eq
    subst eq
    refine ⟨found, ⟨rfl, rfl, rfl, rfl⟩, ?_, ?_⟩
    · simp only [issued, if_neg served]
    · simp only [issued, if_neg served]

theorem SameRequest.trans {t u v : GenericPayload} (h : SameRequest t u) (h' : SameRequest u v) :
    SameRequest t v :=
  ⟨h'.command.trans h.command, h'.address.trans h.address, h'.dataLength.trans h.dataLength,
    h'.byteEnable.trans h.byteEnable⟩

theorem SameRequest.issued_eq {t u : GenericPayload} (same : SameRequest t u) (k : ℕ) (index : ℤ) :
    issued replies u k index = issued replies t k index := by
  rw [issued, issued, same.command, same.address, same.dataLength, same.byteEnable]

/-- The accesses are those of the rounds from round `k` on. -/
def Issued (replies : ℕ → Reply) (trans : GenericPayload) : ℕ → List Part → Prop
  | _, [] => True
  | k, p :: ps => p = issued replies trans k p.index ∧ Issued replies trans (k + 1) ps

variable {trans : GenericPayload}

theorem beat_round {s t : Split} {k : ℕ} (count : s.parts.length = k)
    (same : SameRequest trans s.trans)
    (next : beat g replies debug s (BitVec.ofNat 32 (4 * k)) = some t) :
    ∃ index, getIndex s.decoder (beatAddress trans k) = some (index, t.decoder) ∧
      SameRequest trans t.trans ∧ t.parts = s.parts ++ [issued replies trans k index] ∧
      t.parts.length = k + 1 ∧ t.trans.response = (issued replies trans k index).response := by
  obtain ⟨index, found, same', parts, answered⟩ := beat_cases count next
  have place : beatAddress s.trans k = beatAddress trans k := by
    rw [beatAddress, beatAddress, same.address]
  rw [place] at found
  rw [same.issued_eq] at parts answered
  refine ⟨index, found, same.trans same', parts, ?_, answered⟩
  rw [parts, List.length_append, count, List.length_singleton]

/-- A run of the loop issues one access each round, and the last answer stays. -/
theorem run_issued {m k : ℕ} {s f : Split} (count : s.parts.length = k)
    (same : SameRequest trans s.trans)
    (reached : run (beat g replies debug) s
      ((List.range' k m).map fun j => BitVec.ofNat 32 (4 * j)) = some f) :
    ∃ ps, f.parts = s.parts ++ ps ∧ ps.length = m ∧ Issued replies trans k ps ∧
      f.trans.response = (ps.getLast?.map Part.response).getD s.trans.response := by
  induction m generalizing k s with
  | zero =>
    obtain rfl : s = f := Option.some.inj reached
    exact ⟨[], (List.append_nil _).symm, rfl, trivial, rfl⟩
  | succ m ih =>
    rw [List.range'_succ, List.map_cons, run_cons] at reached
    obtain ⟨t, next, rest⟩ := Option.bind_eq_some_iff.mp reached
    obtain ⟨index, -, kept, parts, counted, answered⟩ := beat_round count same next
    obtain ⟨ps, more, long, later, last⟩ := ih counted kept rest
    refine ⟨issued replies trans k index :: ps, ?_, ?_, ⟨rfl, later⟩, ?_⟩
    · rw [more, parts, List.append_assoc, List.singleton_append]
    · rw [List.length_cons, long]
    · rw [last, answered]
      cases ps with
      | nil => rfl
      | cons p ps => rw [List.getLast?_cons_cons, List.getLast?_cons, Option.map_some,
          Option.getD_some, Option.getD_some]

theorem run_decodes_iff {m k : ℕ} {s : Split} (known : Known s.decoder) (count : s.parts.length = k)
    (same : SameRequest trans s.trans) :
    (∃ f ps, run (beat g replies debug) s
        ((List.range' k m).map fun j => BitVec.ofNat 32 (4 * j)) = some f ∧
      f.parts = s.parts ++ ps ∧
      ∀ p ∈ ps, Decodes s.decoder.slaveMap (trans.address + BitVec.ofNat 32 p.offset) p.index) ↔
      Along (lookupStep getIndex) Searchable s.decoder ((List.range' k m).map (beatAddress trans)) := by
  induction m generalizing k s with
  | zero =>
    constructor
    · intro _
      trivial
    · exact fun _ => ⟨s, [], rfl, (List.append_nil _).symm, nofun⟩
  | succ m ih =>
    have place : beatAddress s.trans k = beatAddress trans k := by
      rw [beatAddress, beatAddress, same.address]
    have offset (index : ℤ) : trans.address +
        BitVec.ofNat 32 (issued replies trans k index).offset = beatAddress trans k := by
      rw [issued, BitVec.ofNat_toNat, BitVec.setWidth_eq, beatAddress]
    -- One round, with what it leaves for the rounds after it.
    have round {t : Split} (next : beat g replies debug s (BitVec.ofNat 32 (4 * k)) = some t) :
        ∃ index, getIndex s.decoder (beatAddress trans k) = some (index, t.decoder) ∧
          t.parts = s.parts ++ [issued replies trans k index] ∧ t.parts.length = k + 1 ∧
          SameRequest trans t.trans ∧ ((∃ f ps, run (beat g replies debug) t
              ((List.range' (k + 1) m).map fun j => BitVec.ofNat 32 (4 * j)) = some f ∧
            f.parts = t.parts ++ ps ∧ ∀ p ∈ ps,
              Decodes s.decoder.slaveMap (trans.address + BitVec.ofNat 32 p.offset) p.index) ↔
            Along (lookupStep getIndex) Searchable t.decoder
              ((List.range' (k + 1) m).map (beatAddress trans))) := by
      obtain ⟨index, found, request, parts, counted, -⟩ := beat_round count same next
      obtain ⟨kept, known', -⟩ := get_index_cases known found
      have later := ih known' counted request
      rw [kept] at later
      exact ⟨index, found, parts, counted, request, later⟩
    rw [List.range'_succ, List.map_cons, List.map_cons, run_cons]
    constructor
    · rintro ⟨f, ps, reached, parts, all⟩
      obtain ⟨t, next, rest⟩ := Option.bind_eq_some_iff.mp reached
      obtain ⟨index, found, first, counted, request, later⟩ := round next
      obtain ⟨qs, more, -⟩ := run_issued counted request rest
      rw [more, first, List.append_assoc, List.append_cancel_left_eq] at parts
      subst parts
      have head := all _ (List.mem_append_left _ (List.mem_singleton_self _))
      rw [offset] at head
      refine ⟨(get_index_decodes_iff known).mp ⟨index, _, found, head⟩, fun d' moved => ?_⟩
      obtain rfl : t.decoder = d' := by
        rw [lookupStep, found] at moved
        exact Option.some.inj moved
      exact later.mp ⟨f, qs, rest, more, fun p member => all p (List.mem_append_right _ member)⟩
    · rintro ⟨here, later⟩
      obtain ⟨index, d', found, decodes⟩ := (get_index_decodes_iff known).mpr here
      obtain ⟨t, next⟩ : ∃ t, beat g replies debug s (BitVec.ofNat 32 (4 * k)) = some t := by
        rw [← place] at found
        exact ⟨_, Option.map_eq_some_iff.mpr ⟨_, found, rfl⟩⟩
      obtain ⟨index', found', first, -, -, rounds⟩ := round next
      obtain ⟨rfl, rfl⟩ := Prod.mk.inj (Option.some.inj (found'.symm.trans found))
      have moved : lookupStep getIndex s.decoder (beatAddress trans k) = some t.decoder := by
        rw [lookupStep, found]
        rfl
      obtain ⟨f, ps, rest, more, all⟩ := rounds.mpr (later _ moved)
      refine ⟨f, issued replies trans k index' :: ps, ?_, ?_, ?_⟩
      · rw [next, Option.bind_some, rest]
      · rw [more, first, List.append_assoc, List.singleton_append]
      · refine List.forall_mem_cons.mpr ⟨?_, all⟩
        rw [offset]
        exact decodes

theorem Issued.ranges {k : ℕ} {ps : List Part} (h : Issued replies trans k ps)
    (small : 4 * (k + ps.length) ≤ 2 ^ 32) : ps.map Part.range =
      (List.range' k ps.length).map fun j =>
        ⟨4 * j, if trans.dataLength ≤ 4 then trans.dataLength.toNat else 4⟩ := by
  induction ps generalizing k with
  | nil => rfl
  | cons p ps ih =>
    rw [List.length_cons] at small
    have rest := ih h.2 (by omega)
    have first : p.range = ⟨4 * k, if trans.dataLength ≤ 4 then trans.dataLength.toNat else 4⟩ := by
      rw [h.1, Part.range, issued, ofNat_toNat_four (by omega), apply_ite BitVec.toNat]
      rfl
    rw [List.map_cons, List.length_cons, List.range'_succ, List.map_cons, rest, first]

theorem Issued.placed {k : ℕ} {ps : List Part} (h : Issued replies trans k ps) (p : Part)
    (member : p ∈ ps) : p.address = (trans.address &&& 0xfffff) + BitVec.ofNat 32 p.offset := by
  induction ps generalizing k with
  | nil => exact absurd member List.not_mem_nil
  | cons q ps ih =>
    rcases List.mem_cons.mp member with rfl | tail
    · rw [h.1, issued, BitVec.ofNat_toNat, BitVec.setWidth_eq]
    · exact ih h.2 tail

theorem Issued.answers {k : ℕ} {ps : List Part} (h : Issued replies trans k ps) (known : Known d)
    (all : ∀ p ∈ ps, Decodes d.slaveMap (trans.address + BitVec.ofNat 32 p.offset) p.index) :
    ps.map Part.response = (List.range' k ps.length).map (answer d.slaveMap replies trans) := by
  induction ps generalizing k with
  | nil => rfl
  | cons p ps ih =>
    obtain ⟨here, later⟩ := List.forall_mem_cons.mp all
    have first : p.response = answer d.slaveMap replies trans k := by
      rw [h.1, issued, BitVec.ofNat_toNat, BitVec.setWidth_eq] at here
      rw [h.1, issued, answer, beatAddress]
      exact if_congr (decodes_mapped known here) rfl rfl
    rw [List.map_cons, List.length_cons, List.range'_succ, List.map_cons, ih h.2 later, first]

theorem tiles_iff (length : BitVec 32) :
    Tiles length.toNat ((List.range' 0 (beats length)).map fun j =>
      ⟨4 * j, if length ≤ 4 then length.toNat else 4⟩) ↔ length.toNat ≤ 4 ∨ 4 ∣ length.toNat := by
  have four : (length ≤ 4) ↔ length.toNat ≤ 4 := BitVec.le_def
  rw [← List.range_eq_range']
  by_cases short : length.toNat ≤ 4
  · refine iff_of_true ?_ (.inl short)
    simp only [if_pos (four.mpr short)]
    by_cases none : length.toNat = 0
    · rw [beats, none]
      exact ⟨fun j below => absurd below (Nat.not_lt_zero j), nofun⟩
    · have one : beats length = 1 := by
        rw [beats]
        omega
      rw [one]
      exact tiles_single length.toNat
  · simp only [if_neg (mt four.mp short)]
    have strides : (List.range (beats length)).map (fun j => (⟨4 * j, 4⟩ : Range)) =
        strided 4 (beats length) := rfl
    rw [strides, tiles_strided_iff]
    · exact (or_iff_right short).symm
    · rw [beats]
      omega
    · rw [beats]
      omega

end Loop

theorem along_searchable_congr {e : Decoder} {addrs : List (BitVec 32)}
    (slaveMap : e.slaveMap = d.slaveMap) (cache : e.slaveMapCache = d.slaveMapCache) :
    Along (lookupStep getIndex) Searchable e addrs ↔
      Along (lookupStep getIndex) Searchable d addrs := by
  induction addrs generalizing d e with
  | nil => exact Iff.rfl
  | cons a addrs ih =>
    have here : Searchable e a ↔ Searchable d a := by
      rw [Searchable, Searchable, slaveMap, cache]
    refine and_congr here ?_
    unfold lookupStep getIndex Decoder.find
    rw [slaveMap, cache]
    cases lookup d.slaveMap d.slaveMapCache (segment a) with
    | none => exact ⟨fun _ => nofun, fun _ => nofun⟩
    | some answer =>
      obtain ⟨found, cached⟩ := answer
      have next {f f' : Decoder} (slaveMap : f'.slaveMap = f.slaveMap)
          (cache : f'.slaveMapCache = f.slaveMapCache) :
          (∀ t, some f' = some t → Along (lookupStep getIndex) Searchable t addrs) ↔
            ∀ t, some f = some t → Along (lookupStep getIndex) Searchable t addrs := by
        simp only [Option.some.injEq, forall_eq']
        exact ih slaveMap cache
      cases found with
      | some it => exact next rfl rfl
      | none => exact next rfl rfl

theorem last_answer_iff (answers : ℕ → TlmResponse) (n : ℕ) (before : TlmResponse) :
    ((((List.range n).map answers).getLast?).getD before = .ok ↔
        ∀ r ∈ (List.range n).map answers, r = .ok) ↔
      (n = 0 → before = .ok) ∧ (answers (n - 1) = .ok → ∀ k < n, answers k = .ok) := by
  have each : (∀ r ∈ (List.range n).map answers, r = .ok) ↔ ∀ k < n, answers k = .ok := by
    simp only [List.forall_mem_map, List.mem_range]
  rw [each]
  cases n with
  | zero => simp
  | succ n =>
    rw [List.range_succ, List.map_append, List.map_singleton, List.getLast?_append,
      List.getLast?_singleton, Option.some_or, Option.getD_some, Nat.add_sub_cancel]
    have last : (∀ k < n + 1, answers k = .ok) → answers n = .ok := fun all =>
      all n (Nat.lt_succ_self n)
    constructor
    · exact fun same => ⟨nofun, same.mp⟩
    · exact fun h => ⟨h.2, last⟩

theorem run_exact {g : Setup} {replies : ℕ → Reply} {debug : Bool} {trans : GenericPayload}
    {s f : Split}
    (known : Known d) (fits : trans.dataLength.toNat ≤ 2 ^ 32 - 4) (fresh : s.parts = [])
    (same : s.trans = trans) (looped : run (beat g replies debug) s
      ((List.range' 0 (beats trans.dataLength)).map fun j => BitVec.ofNat 32 (4 * j)) = some f) :
    (Tiles trans.dataLength.toNat (f.parts.map Part.range) ↔
      Tiles trans.dataLength.toNat ((List.range' 0 (beats trans.dataLength)).map fun j =>
        ⟨4 * j, if trans.dataLength ≤ 4 then trans.dataLength.toNat else 4⟩)) ∧
    (∀ p ∈ f.parts, p.address = (trans.address &&& 0xfffff) + BitVec.ofNat 32 p.offset) ∧
    ((∀ p ∈ f.parts, Decodes d.slaveMap (trans.address + BitVec.ofNat 32 p.offset) p.index) →
      ((f.trans.response = .ok ↔ ∀ p ∈ f.parts, p.response = .ok) ↔
        ((((List.range' 0 (beats trans.dataLength)).map
            (answer d.slaveMap replies trans)).getLast?).getD trans.response = .ok ↔
          ∀ r ∈ (List.range' 0 (beats trans.dataLength)).map (answer d.slaveMap replies trans),
            r = .ok))) := by
  obtain ⟨ps, parts, count, issued, last⟩ := run_issued (k := 0) (by rw [fresh]; rfl)
    (same ▸ ⟨rfl, rfl, rfl, rfl⟩ : SameRequest trans s.trans) looped
  rw [fresh, List.nil_append] at parts
  subst parts
  have small : 4 * (0 + f.parts.length) ≤ 2 ^ 32 := by
    rw [count, beats]
    omega
  have ranges := issued.ranges small
  rw [count] at ranges
  refine ⟨by rw [ranges], issued.placed, fun sent => ?_⟩
  have answers := issued.answers known sent
  rw [count] at answers
  rw [← answers, List.getLast?_map, List.forall_mem_map, last, same]

/-- The loop serves a transaction outside the configuration area exactly, whatever it looked up before,
when the payload is within a word or ends at one, every access finds its place in the map, and the last
answer is not better than the others. -/
theorem split_exact_iff (g : Setup) (replies : ℕ → Reply) (debug : Bool) (bars : List Bar)
    (named : ∀ b ∈ bars, b.binding.toNat < 16) (earlier : List (BitVec 32)) (d : Decoder)
    (reached : run (lookupStep getIndex) (Decoder.build bars) earlier = some d) (trans : GenericPayload)
    (outside : ¬ isPnp trans.address) (delay : ℕ) :
    (∃ fuel s, execFunc g replies debug fuel d trans delay = some s ∧
      SplitExact d.slaveMap trans s) ↔
      (trans.dataLength.toNat ≤ 4 ∨ 4 ∣ trans.dataLength.toNat) ∧
      Along (lookupStep getIndex) Searchable d
        ((List.range (beats trans.dataLength)).map (beatAddress trans)) ∧
      (trans.dataLength = 0 → trans.response = .ok) ∧
      (answer d.slaveMap replies trans (beats trans.dataLength - 1) = .ok →
        ∀ k < beats trans.dataLength, answer d.slaveMap replies trans k = .ok) := by
  have known := known_reached named reached
  let s : Split := ⟨{ d with totalTransactions := d.totalTransactions + 1 }, trans, delay, []⟩
  have none : trans.dataLength = 0 ↔ beats trans.dataLength = 0 := by
    rw [beats, ← BitVec.toNat_inj]
    change trans.dataLength.toNat = 0 ↔ _
    omega
  have decoded : (∃ f ps, run (beat g replies debug) s
      ((List.range' 0 (beats trans.dataLength)).map fun j => BitVec.ofNat 32 (4 * j)) = some f ∧
      f.parts = s.parts ++ ps ∧
      ∀ p ∈ ps, Decodes d.slaveMap (trans.address + BitVec.ofNat 32 p.offset) p.index) ↔
      Along (lookupStep getIndex) Searchable d
        ((List.range' 0 (beats trans.dataLength)).map (beatAddress trans)) :=
    (run_decodes_iff (s := s) ⟨known.cached, known.named⟩ rfl ⟨rfl, rfl, rfl, rfl⟩).trans
      (along_searchable_congr rfl rfl)
  rw [none, ← last_answer_iff, ← tiles_iff, List.range_eq_range', ← decoded]
  constructor
  · rintro ⟨fuel, f, result, split⟩
    rw [execFunc, if_neg outside] at result
    obtain ⟨is, ends, looped⟩ := Option.bind_eq_some_iff.mp result
    obtain ⟨fits, rfl⟩ := (offsets_iff is).mp ⟨fuel, ends⟩
    obtain ⟨tiles, -, answered⟩ := run_exact known fits rfl rfl looped
    exact ⟨tiles.mp split.tiles, ⟨f, f.parts, looped, rfl, split.sent⟩,
      (answered split.sent).mp split.answered⟩
  · rintro ⟨tiles, ⟨f, ps, looped, parts, sent⟩, answered⟩
    have fits : trans.dataLength.toNat ≤ 2 ^ 32 - 4 := by
      have word := trans.dataLength.isLt
      have ends := (tiles_iff _).mp tiles
      omega
    obtain ⟨fuel, ends⟩ := (offsets_iff _).mpr ⟨fits, rfl⟩
    obtain rfl : f.parts = ps := parts
    obtain ⟨tiles', placed, answered'⟩ := run_exact known fits rfl rfl looped
    refine ⟨fuel, f, ?_, ⟨tiles'.mpr tiles, placed, sent, (answered' sent).mpr answered⟩⟩
    rw [execFunc, if_neg outside, ends]
    exact looped

/-- Two slaves with an area of 256 bytes each. -/
def twoSlaves : List Bar := [⟨0, 0, 0x000, 0xfff⟩, ⟨1, 1, 0x001, 0xfff⟩]

/-- A write of two words, the second of which is for the second slave. -/
def acrossSlaves : GenericPayload := ⟨.write, 0x800000fc, fun _ => 0, 8, none, .incomplete⟩

/-- The two accesses of a write across both slaves are exact when both slaves take them. -/
theorem split_exact_across :
    ∃ fuel s, execFunc ⟨0x80000000, fun _ => none, 1⟩ (fun _ => ⟨.ok, fun _ => 0, 0⟩) false fuel
      (Decoder.build twoSlaves) acrossSlaves 0 = some s ∧
      SplitExact (Decoder.build twoSlaves).slaveMap acrossSlaves s :=
  (split_exact_iff _ _ false twoSlaves (by decide) [] _ rfl acrossSlaves (by decide) 0).mpr
    (by decide)

/-- When only the first slave answers with an error, the answer of the second one hides it. -/
theorem split_hides_error : ¬ ∀ (g : Setup) (replies : ℕ → Reply) (debug : Bool) (bars : List Bar),
    (∀ b ∈ bars, b.binding.toNat < 16) → ∀ (earlier : List (BitVec 32)) (d : Decoder),
    run (lookupStep getIndex) (Decoder.build bars) earlier = some d → ∀ trans : GenericPayload,
    ¬ isPnp trans.address → ∀ delay : ℕ,
    ∃ fuel s, execFunc g replies debug fuel d trans delay = some s ∧
      SplitExact d.slaveMap trans s := by
  intro claim
  obtain ⟨fuel, f, result, split⟩ := claim ⟨0x80000000, fun _ => none, 1⟩
    (fun k => ⟨if k = 0 then .genericError else .ok, fun _ => 0, 0⟩) false twoSlaves (by decide) []
    _ rfl acrossSlaves (by decide) 0
  obtain ⟨is, ends, looped⟩ := Option.bind_eq_some_iff.mp result
  obtain ⟨-, rfl⟩ := (offsets_iff is).mp ⟨fuel, ends⟩
  obtain rfl := Option.some.inj looped
  exact absurd (split.answered.mp rfl _ (List.mem_cons_self ..)) (by decide)

end Socrocket.Bus.APBCtrl
