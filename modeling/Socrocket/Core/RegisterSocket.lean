/- Socrocket/Core/RegisterSocket
   digest: Bytes that are written to registers through the socket of an APB slave. -/

import Mathlib.Logic.Function.Basic
import Mathlib.Tactic.IntervalCases
import Socrocket.Base.BitField
import Socrocket.Base.ByteLanes
import Socrocket.Bus.Blocking
import Socrocket.Bus.Payload
import Socrocket.Core.SrRegister

set_option autoImplicit false
set_option relaxedAutoImplicit false

namespace Socrocket.Core.RegisterSocket

open Socrocket.Base.BitField
open Socrocket.Base.ByteLanes
open Socrocket.Base.ByteMemory
open Socrocket.Bus
open Socrocket.Bus.AHBCtrl (swapEndianess)

/-- A register without callbacks. -/
structure Register where
  value : BitVec 32
  writeMask : BitVec 32
deriving DecidableEq

/-- The registers of a device by their offsets. -/
abbrev Bank := BitVec 32 → Option Register

/-- Read a register. There is nothing between the registers. -/
def Bank.busRead (m : Bank) (offset : BitVec 32) : BitVec 32 :=
  match m offset with
  | some reg => reg.value
  | none => 0

/-- Write a register, if there is one. -/
def Bank.busWrite (m : Bank) (offset val : BitVec 32) : Bank :=
  match m offset with
  | some reg =>
    Function.update m offset (some { reg with value := SrRegister.busWrite reg.writeMask val })
  | none => m

/-- The first four bytes of a buffer as a word of a little endian host. -/
def load (d : Buffer) : BitVec 32 := assemble 32 d 4

/-- Replace the first four bytes of a buffer. -/
def store (d : Buffer) (word : BitVec 32) : Buffer := fun i => if i < 4 then lane word i else d i

/-- The place of an address in its word. -/
def byteaddr (baseAddr address : BitVec 32) : ℕ := ((address - baseAddr) &&& 0x3).toNat

/-- The offset of the register of an address. -/
def offset (baseAddr address : BitVec 32) : BitVec 32 := (address - baseAddr) &&& ~~~0x3

/-- `b_transport` on a little endian host. Writes of two and three bytes are fatal errors. Accesses to
the data go through a pointer to words. -/
def bTransport (baseAddr : BitVec 32) (m : Bank) (gp : GenericPayload) :
    Option (Bank × GenericPayload) :=
  let place := byteaddr baseAddr gp.address
  let address := offset baseAddr gp.address
  match gp.command with
  | .write =>
    if gp.dataLength = 2 ∨ gp.dataLength = 3 then none
    else
      let data :=
        -- The old content of the register is not read first.
        if gp.dataLength = 1 then load gp.data <<< (place <<< 3)
        else swapEndianess (load gp.data)
      some (m.busWrite address data, { gp with data := store gp.data data, response := .ok })
  | .read =>
    let data := swapEndianess (m.busRead address) >>> (place <<< 3)
    some (m, { gp with data := store gp.data data, response := .ok })
  | .ignore => some (m, { gp with response := .ok })

/-- What an access leaves in the buffer of its caller, if it returns. -/
def bufferAfter (baseAddr : BitVec 32) (m : Bank) (gp : GenericPayload) : Option Buffer :=
  (bTransport baseAddr m gp).map fun result => result.2.data

/-- A read and the write of a byte. -/
def readAccess (address length : BitVec 32) (data : Buffer) : GenericPayload :=
  ⟨.read, address, data, length, none, .incomplete⟩

def writeByte (address : BitVec 32) (data : Buffer) : GenericPayload :=
  ⟨.write, address, data, 1, none, .incomplete⟩

/-- An access sets the first `n` bytes of every buffer, whatever they were, and no byte behind. -/
def WritesExactly (access : Buffer → Option Buffer) (n : ℕ) : Prop :=
  (∀ i < n, ∀ c c' d d', access c = some d → access c' = some d' → d i = d' i) ∧
    ∀ i, n ≤ i → ∀ c d, access c = some d → d i = c i

/-- The first byte of the data is written to its big endian lane and no other, it reads back as a byte
and in its place in the word, and a read of `n` bytes sets these. -/
structure ByteExact (baseAddr address : BitVec 32) (m : Bank) (old : BitVec 32) (data : Buffer)
    (n : BitVec 32) : Prop where
  written : ∃ m' gp new, bTransport baseAddr m (writeByte address data) = some (m', gp) ∧
    m' (offset baseAddr address) = some ⟨new, ~~~0⟩ ∧
    (∀ j < 4, lane new j = if j = 3 - byteaddr baseAddr address then data 0 else lane old j) ∧
    (∀ c, ∃ d, bufferAfter baseAddr m' (readAccess address 1 c) = some d ∧ d 0 = data 0) ∧
    (∀ c, ∃ d, bufferAfter baseAddr m'
        (readAccess (address - BitVec.ofNat 32 (byteaddr baseAddr address)) 4 c) = some d ∧
      d (byteaddr baseAddr address) = data 0)
  bounded : WritesExactly
    (fun c => bufferAfter baseAddr m (readAccess address n c)) n.toNat

/-- What the lanes of the register and the bytes behind the first one have to be: the lane that the byte
belongs to receives it, the lanes below the shift are clear, and the others hold the next bytes. -/
structure LanesAgree (place : ℕ) (old : BitVec 32) (data : Buffer) : Prop where
  own : if place < 2 then data (3 - 2 * place) = data 0 else data 0 = 0
  below : ∀ j < place, j ≠ 3 - place → lane old j = 0
  above : ∀ j < 4, place ≤ j → j ≠ 3 - place → lane old j = data (j - place)

variable {baseAddr address : BitVec 32} {m : Bank} {old : BitVec 32} {data : Buffer}

theorem and_not_add (x mask : BitVec 32) : (x &&& ~~~mask) + (x &&& mask) = x := by
  have apart : (x &&& ~~~mask) &&& (x &&& mask) = 0#32 := by
    ext i inside
    simp
    grind
  rw [BitVec.add_eq_or_of_and_eq_zero _ _ apart]
  ext i inside
  simp
  grind

theorem byteaddr_lt (baseAddr address : BitVec 32) : byteaddr baseAddr address < 4 := by
  rw [byteaddr, BitVec.toNat_and]
  exact Nat.lt_of_le_of_lt Nat.and_le_right (by decide)

theorem lane_load (d : Buffer) {j : ℕ} (inside : j < 4) : lane (load d) j = d j := by
  rw [load, lane_assemble d (by decide) (by omega), if_pos inside]

theorem lane_swapEndianess (x : BitVec 32) {j : ℕ} (inside : j < 4) :
    lane (swapEndianess x) j = lane x (3 - j) := by
  refine BitVec.eq_of_getLsbD_eq fun i low => ?_
  rw [getLsbD_lane, getLsbD_lane]
  unfold swapEndianess
  interval_cases j <;> interval_cases i <;> simp

theorem lane_shifted (data : Buffer) {place j : ℕ} (inside : j < 4) :
    lane (load data <<< (place <<< 3)) j = if j < place then 0 else data (j - place) := by
  rw [Nat.shiftLeft_eq, Nat.mul_comm, lane_shiftLeft _ (by omega)]
  by_cases below : j < place
  · rw [if_pos below, if_pos below]
  · rw [if_neg below, if_neg below, lane_load data (by omega)]

/-- A read puts the big endian lanes from its place on in the buffer, and clears the rest of four
bytes. -/
theorem bufferAfter_read (baseAddr address : BitVec 32) (m : Bank) (length : BitVec 32) (c : Buffer) :
    bufferAfter baseAddr m (readAccess address length c) = some fun i =>
      if i < 4 then
        if byteaddr baseAddr address + i < 4 then
          lane (m.busRead (offset baseAddr address)) (3 - (byteaddr baseAddr address + i))
        else 0
      else c i := by
  refine congrArg some (funext fun i => ?_)
  change (if i < 4 then lane (swapEndianess (m.busRead (offset baseAddr address)) >>>
    (byteaddr baseAddr address <<< 3)) i else c i) = _
  rw [Nat.shiftLeft_eq, Nat.mul_comm, lane_ushiftRight]
  by_cases inside : byteaddr baseAddr address + i < 4
  · rw [if_pos inside, lane_swapEndianess _ inside]
  · rw [if_neg inside, lane_of_le (by omega)]

theorem word_address (baseAddr address : BitVec 32) :
    byteaddr baseAddr (address - BitVec.ofNat 32 (byteaddr baseAddr address)) = 0 ∧
      offset baseAddr (address - BitVec.ofNat 32 (byteaddr baseAddr address)) =
        offset baseAddr address := by
  have aligned : address - BitVec.ofNat 32 (byteaddr baseAddr address) - baseAddr =
      offset baseAddr address := by
    rw [byteaddr, BitVec.ofNat_toNat, BitVec.setWidth_eq, sub_right_comm,
      BitVec.sub_eq_iff_eq_add, offset, and_not_add]
  have low : offset baseAddr address &&& 0x3 = 0 := by
    rw [offset, BitVec.and_assoc]
    exact BitVec.and_zero
  have high : offset baseAddr address &&& ~~~0x3 = offset baseAddr address := by
    rw [offset, BitVec.and_assoc, BitVec.and_self]
  constructor
  · rw [byteaddr, aligned, low]
    rfl
  · rw [offset, aligned, high]

@[simp] theorem busRead_update (m : Bank) (offset : BitVec 32) (reg : Register) :
    Bank.busRead (Function.update m offset (some reg)) offset = reg.value := by
  rw [Bank.busRead, Function.update_self]

theorem bTransport_writeByte (register : m (offset baseAddr address) = some ⟨old, ~~~0⟩)
    (data : Buffer) : bTransport baseAddr m (writeByte address data) = some
      (Function.update m (offset baseAddr address)
          (some ⟨load data <<< (byteaddr baseAddr address <<< 3), ~~~0⟩),
        { writeByte address data with
          data := store data (load data <<< (byteaddr baseAddr address <<< 3))
          response := .ok }) := by
  have whole (word : BitVec 32) : SrRegister.busWrite (~~~0) word = word := BitVec.and_allOnes
  have stored (word : BitVec 32) : m.busWrite (offset baseAddr address) word =
      Function.update m (offset baseAddr address) (some ⟨word, ~~~0⟩) := by
    rw [Bank.busWrite, register]
    simp only [whole]
  rw [bTransport, ← stored]
  rfl

theorem lanes_agree_iff {place : ℕ} (inside : place < 4) (old : BitVec 32) (data : Buffer) :
    (∀ j < 4, lane (load data <<< (place <<< 3)) j =
      if j = 3 - place then data 0 else lane old j) ↔ LanesAgree place old data := by
  constructor
  · intro lanes
    refine ⟨?_, fun j below other => ?_, fun j below above other => ?_⟩
    · have own := lanes (3 - place) (by omega)
      rw [lane_shifted data (by omega), if_pos rfl] at own
      by_cases short : place < 2
      · rw [if_neg (by omega), show 3 - place - place = 3 - 2 * place by omega] at own
        rw [if_pos short]
        exact own
      · rw [if_pos (by omega)] at own
        rw [if_neg short]
        exact own.symm
    · have clear := lanes j (by omega)
      rw [lane_shifted data (by omega), if_pos below, if_neg other] at clear
      exact clear.symm
    · have moved := lanes j below
      rw [lane_shifted data below, if_neg (by omega), if_neg other] at moved
      exact moved.symm
  · intro agree j below
    rw [lane_shifted data below]
    by_cases own : j = 3 - place
    · rw [if_pos own]
      have byte := agree.own
      by_cases short : place < 2
      · rw [if_pos short, show 3 - 2 * place = j - place by omega] at byte
        rw [if_neg (by omega), byte]
      · rw [if_neg short] at byte
        rw [if_pos (by omega), byte]
    · rw [if_neg own]
      by_cases under : j < place
      · rw [if_pos under, agree.below j under own]
      · rw [if_neg under, agree.above j below (by omega) own]

/-- A read sets the first four bytes, whatever length it has. -/
theorem read_writes_iff (baseAddr address : BitVec 32) (m : Bank) (n : BitVec 32) :
    WritesExactly (fun c => bufferAfter baseAddr m (readAccess address n c)) n.toNat ↔ n = 4 := by
  have number : n = 4 ↔ n.toNat = 4 := BitVec.toNat_inj.symm
  have differ : (0 : BitVec 8) ≠ 1 := by decide
  rw [number]
  simp only [bufferAfter_read]
  constructor
  · rintro ⟨set, kept⟩
    rcases Nat.lt_trichotomy n.toNat 4 with short | four | long
    · have zeros := kept n.toNat le_rfl (fun _ => 0) _ rfl
      have ones := kept n.toNat le_rfl (fun _ => 1) _ rfl
      simp only [if_pos short] at zeros ones
      exact absurd (zeros.symm.trans ones) differ
    · exact four
    · have same := set 4 long (fun _ => 0) (fun _ => 1) _ _ rfl rfl
      exact absurd same differ
  · intro four
    rw [four]
    refine ⟨fun i below c c' d d' first second => ?_, fun i above c d result => ?_⟩
    · rw [← Option.some.inj first, ← Option.some.inj second]
      simp only [if_pos below]
    · rw [← Option.some.inj result]
      exact if_neg (Nat.not_lt.mpr above)

/-- The write of a byte to a register without a mask, and the reads after it, are exact exactly when the
register and the buffer hold what the access moves about anyhow, and a read has four bytes. -/
theorem byte_access_iff (register : m (offset baseAddr address) = some ⟨old, ~~~0⟩) (data : Buffer)
    (n : BitVec 32) : ByteExact baseAddr address m old data n ↔
      LanesAgree (byteaddr baseAddr address) old data ∧ n = 4 := by
  have inside := byteaddr_lt baseAddr address
  have access := bTransport_writeByte register data
  rw [← lanes_agree_iff inside, ← read_writes_iff baseAddr address m]
  constructor
  · rintro ⟨⟨m', gp, new, result, holds, lanes, -⟩, bounded⟩
    obtain ⟨rfl, -⟩ := Prod.mk.inj (Option.some.inj (access.symm.trans result))
    rw [Function.update_self, Option.some.injEq, Register.mk.injEq] at holds
    obtain ⟨rfl, -⟩ := holds
    exact ⟨lanes, bounded⟩
  · rintro ⟨lanes, bounded⟩
    have byte := lanes (3 - byteaddr baseAddr address) (by omega)
    rw [if_pos rfl] at byte
    refine ⟨⟨_, _, _, access, Function.update_self .., lanes, fun c => ⟨_, bufferAfter_read .., ?_⟩,
      fun c => ⟨_, bufferAfter_read .., ?_⟩⟩, bounded⟩
    · rw [busRead_update, Nat.add_zero, if_pos (by decide), if_pos inside]
      exact byte
    · obtain ⟨first, same⟩ := word_address baseAddr address
      rw [first, same, busRead_update, Nat.zero_add, if_pos inside, if_pos inside]
      exact byte

/-- A register in which only the lowest lane is used. -/
def lowRegister : Bank := fun offset => if offset = 0 then some ⟨0xab, ~~~0⟩ else none

/-- A zero byte clears the lowest lane when it is written at the last place. -/
theorem byte_access_last : ByteExact 0x80000000 0x80000003 lowRegister 0xab (fun _ => 0) 4 :=
  have register : lowRegister (offset 0x80000000 0x80000003) = some ⟨0xab, ~~~0⟩ := by decide
  (byte_access_iff register _ 4).mpr ⟨⟨by decide, by decide, by decide⟩, rfl⟩

/-- A byte at the first place arrives in the lowest lane, and clears the others. -/
theorem byte_access_first : ¬ ∀ (baseAddr address : BitVec 32) (m : Bank) (old : BitVec 32),
    m (offset baseAddr address) = some ⟨old, ~~~0⟩ → ∀ (data : Buffer) (n : BitVec 32),
    ByteExact baseAddr address m old data n := by
  intro claim
  obtain ⟨m', gp, new, result, holds, lanes, -⟩ := (claim 0x80000000 0x80000000
    (fun _ => some ⟨0x11223344, ~~~0⟩) 0x11223344 rfl (fun i => if i = 0 then 0x55 else 0) 4).written
  have register : (fun _ => some ⟨0x11223344, ~~~0⟩ : Bank) (offset 0x80000000 0x80000000) =
      some ⟨0x11223344, ~~~0⟩ := rfl
  rw [bTransport_writeByte register] at result
  obtain ⟨rfl, -⟩ := Prod.mk.inj (Option.some.inj result)
  rw [Function.update_self, Option.some.injEq, Register.mk.injEq] at holds
  have top := lanes 3 (by decide)
  rw [← holds.1] at top
  exact absurd top (by decide)

end Socrocket.Core.RegisterSocket
