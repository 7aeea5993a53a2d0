/- Socrocket/Memory/WidthFields
   digest: The width fields of the memory controller: reset, the start of the simulation and bus writes. -/

import Socrocket.Base.BitField
import Socrocket.Core.RegisterFields
import Socrocket.Memory.Mctrl

set_option autoImplicit false
set_option relaxedAutoImplicit false

namespace Socrocket.Memory

open Socrocket.Base.BitField
open Socrocket.Core
open Socrocket.Core.RegisterFields (Register)

/-! ## Devices and registers -/

/-- A memory as far as the registers describe it: its data width and the size of its banks. -/
structure MemDevice where
  bits : BitVec 32
  bsize : BitVec 32
  bits_range : bits = 8 ∨ bits = 16 ∨ bits = 32

structure SdramDevice where
  bsize : BitVec 32
  cols : BitVec 32

/-- The memories at the ports of the controller. -/
structure Ports where
  rom : Option MemDevice
  io : Option MemDevice
  sram : Option MemDevice
  sdram : Option SdramDevice

structure MctrlGenerics where
  ram8 : Bool
  ram16 : Bool
  sden : Bool
  sepbus : Bool
  sdbits : BitVec 32
  mobile : BitVec 32

/-- The generics allow a data width for PROM and SRAM. -/
def MctrlGenerics.AllowsBits (g : MctrlGenerics) (bits : BitVec 32) : Prop :=
  (bits = 8 → g.ram8 = true) ∧ (bits = 16 → g.ram16 = true)

/-- A controller with memories that its generics allow. -/
structure WidthBoard where
  generics : MctrlGenerics
  ports : Ports
  rom_allowed : ∀ d, ports.rom = some d → generics.AllowsBits d.bits
  sram_allowed : ∀ d, ports.sram = some d → generics.AllowsBits d.bits

/-- MCFG1 and MCFG2. Of MCFG2 a write keeps the bits that its fields name. -/
structure WidthRegisters where
  mcfg1 : Register 32
  mcfg2 : Register 32

/-- A width field of a register. -/
def widthField (r : BitVec 32) (pos : ℕ) : BitVec 32 := r >>> pos &&& 3

/-- The code that `exec_func` takes for a type of memory. -/
def widthCode (mcfg1 mcfg2 : BitVec 32) : DeviceType → BitVec 32
  | .rom => widthField mcfg1 8
  | .io => widthField mcfg1 27
  | .sram | .sdram => widthField mcfg2 4

def WidthRegisters.code (r : WidthRegisters) : DeviceType → BitVec 32 :=
  widthCode r.mcfg1.curVal r.mcfg2.curVal

/-- The data width that `exec_func` makes of a code. -/
def decodedBits (code : BitVec 32) : BitVec 32 := if code = 0 then 8 else if code = 1 then 16 else 32

/-- `exec_func` takes a memory to be as wide as its code says. -/
theorem memWidth_eq (m : Mctrl) (type : DeviceType) :
    m.memWidth type * 8 = decodedBits (widthCode m.mcfg1 m.mcfg2 type) := by
  have bytes (code : BitVec 32) :
      (if code = 0 then 1 else if code = 1 then 2 else 4) * 8 = decodedBits code := by
    unfold decodedBits
    split_ifs <;> rfl
  cases type <;> exact bytes _

/-! ## The functions of the source -/

/-- The binary logarithm of a number less another, truncated toward zero. -/
def truncLog2 (n k : ℕ) : ℤ :=
  if 2 ^ k ≤ n ∨ 2 ^ Nat.log2 n = n then (Nat.log2 n : ℤ) - k else (Nat.log2 n : ℤ) + 1 - k

def log2Field (n : BitVec 32) (k : ℕ) : BitVec 32 := BitVec.ofInt 32 (truncLog2 n.toNat k)

/-- Add the width of an attached memory to a register. -/
def orWidth (dev : Option MemDevice) (shift pos : ℕ) (r : Register 32) : Register 32 :=
  match dev with
  | none => r
  | some d => r.write (r.curVal ||| (d.bits >>> shift &&& 3) <<< pos)

def setSram (dev : Option MemDevice) (mcfg2 : Register 32) : Register 32 :=
  match dev with
  | none => mcfg2
  | some d => mcfg2.write (mcfg2.curVal &&& ~~~0x00001EC0#32 |||
      (log2Field d.bsize 13 &&& 0xF) <<< 9 ||| (log2Field d.bits 3 &&& 3) <<< 4)

def setSdram (dev : Option SdramDevice) (mcfg2 : Register 32) : Register 32 :=
  match dev with
  | none => mcfg2
  | some d => mcfg2.write (mcfg2.curVal &&& ~~~0x003E0000#32 |||
      (log2Field d.bsize 22 &&& 7) <<< 23 ||| (log2Field d.cols 8 &&& 3) <<< 21)

/-- `MCFG2_MS` is set where the generics ask for a mobile SDRAM. -/
def setMobile (g : MctrlGenerics) (mcfg2 : Register 32) : Register 32 :=
  if g.sden ∧ (g.mobile = 1 ∨ g.mobile = 2) then mcfg2.write (mcfg2.curVal ||| 0x00010000) else mcfg2

/-- `SDRF` and `SE` are stored only together with the width of a separate bus. -/
def setSeparate (g : MctrlGenerics) (mcfg2 : Register 32) : Register 32 :=
  if g.sden ∧ g.sepbus then
    mcfg2.write (mcfg2.curVal ||| 0x80000000 ||| 0x00004000 ||| g.sdbits <<< 18)
  else mcfg2

/-- MCFG2 after reset, before the memories are looked at. -/
def resetMcfg2 (g : MctrlGenerics) (mcfg2 : Register 32) : Register 32 :=
  setSeparate g (setMobile g (mcfg2.write 0x1F100000))

def dorst (g : MctrlGenerics) (ports : Ports) (r : WidthRegisters) : WidthRegisters where
  mcfg1 := orWidth ports.io 3 27 (orWidth ports.rom 3 8 (r.mcfg1.write 0x000000FF))
  mcfg2 := setSdram (if ports.sram.isSome then ports.sdram else none)
    (setSram ports.sram (resetMcfg2 g r.mcfg2))

/-- `start_of_simulation` looks at the memories. -/
def startOfSimulation (ports : Ports) (r : WidthRegisters) : WidthRegisters where
  mcfg1 := orWidth ports.io 4 27 (orWidth ports.rom 4 8 r.mcfg1)
  mcfg2 := setSdram ports.sdram (setSram ports.sram r.mcfg2)

/-- The correction of a width field that both callbacks make. -/
def correctWidth (g : MctrlGenerics) (pos : ℕ) (mask mcfg : BitVec 32) : BitVec 32 :=
  let mcfg := if widthField mcfg pos = 0 ∧ ¬g.ram8 then mcfg &&& ~~~mask ||| 2#32 <<< pos else mcfg
  if widthField mcfg pos = 1 ∧ ¬g.ram16 then mcfg &&& ~~~mask ||| 2#32 <<< pos else mcfg

def mcfg1Write (g : MctrlGenerics) (mcfg1 : Register 32) : Register 32 :=
  mcfg1.write (correctWidth g 8 0x00000300 mcfg1.curVal)

def mcfg2Write (g : MctrlGenerics) (mcfg2 : Register 32) : Register 32 :=
  mcfg2.write (correctWidth g 4 0x00000030
    (if g.sden then mcfg2.curVal else mcfg2.curVal &&& ~~~0x00004000#32))

/-- What `launch_sdram_command` leaves of MCFG2. -/
def launchSdramCommand (g : MctrlGenerics) (mcfg2 : Register 32) : Register 32 :=
  if g.sden then mcfg2.write (mcfg2.curVal &&& ~~~0x00180000#32) else mcfg2

/-- A reset, or a bus write to one of the registers. -/
inductive WidthEvent where
  | reset
  | mcfg1 (value : BitVec 32)
  | mcfg2 (value : BitVec 32)

namespace WidthBoard

variable (b : WidthBoard)

/-- `end_of_elaboration` resets the controller before it knows its memories. -/
def start : WidthRegisters :=
  startOfSimulation b.ports
    (dorst b.generics ⟨none, none, none, none⟩ ⟨RegisterFields.mcfg1, RegisterFields.mcfg2⟩)

def step (r : WidthRegisters) : WidthEvent → WidthRegisters
  | .reset => dorst b.generics b.ports r
  | .mcfg1 value => { r with mcfg1 := mcfg1Write b.generics (r.mcfg1.busWrite value) }
  | .mcfg2 value => { r with
      mcfg2 := launchSdramCommand b.generics (mcfg2Write b.generics (r.mcfg2.busWrite value)) }

/-- The registers after the start of the simulation and some events. -/
def run (events : List WidthEvent) : WidthRegisters := events.foldl b.step b.start

/-! ## What the fields are for -/

/-- The memory of a type whose width has a field. -/
def device : DeviceType → Option MemDevice
  | .rom => b.ports.rom
  | .io => b.ports.io
  | .sram => b.ports.sram
  | .sdram => none

/-- Every field decodes to the width of its memory. -/
def Codes (r : WidthRegisters) : Prop :=
  ∀ type d, b.device type = some d → decodedBits (r.code type) = d.bits

/-- The fields for PROM and RAM select no width that the generics switch off. -/
def Allowed (r : WidthRegisters) : Prop :=
  ∀ type ∈ [DeviceType.rom, DeviceType.sram],
    (r.code type = 0 → b.generics.ram8 = true) ∧ (r.code type = 1 → b.generics.ram16 = true)

/-- The start of the simulation and every reset set the codes of the memories, a reset those of the
start, and no state selects a width that is switched off. -/
structure WidthsRight (events : List WidthEvent) : Prop where
  started : b.Codes b.start
  reset : ∀ before after, events = before ++ .reset :: after →
    b.Codes (b.run (before ++ [.reset])) ∧
      ∀ type, (b.run (before ++ [.reset])).code type = b.start.code type
  allowed : ∀ before after, events = before ++ after → b.Allowed (b.run before)

end WidthBoard

/-! ## Fields -/

section Fields

variable {x y : BitVec 32} {s p : ℕ}

theorem getLsbD_widthField (x : BitVec 32) (p i : ℕ) :
    (widthField x p).getLsbD i = (x.getLsbD (p + i) && decide (i < 2)) := by
  have mask : (3#32).getLsbD i = (decide (i < 32) && decide (i < 2)) := getLsbD_lowMask 2 i
  rw [widthField, BitVec.getLsbD_and, BitVec.getLsbD_ushiftRight]
  change (_ && (3#32).getLsbD i) = _
  rw [mask]
  by_cases low : i < 2
  · simp [low, show i < 32 by omega]
  · simp [low]

@[simp] theorem widthField_or : widthField (x ||| y) p = widthField x p ||| widthField y p := by
  refine BitVec.eq_of_getLsbD_eq fun i hi => ?_
  simp only [getLsbD_widthField, BitVec.getLsbD_or, Bool.and_or_distrib_right]

theorem widthField_and : widthField (x &&& y) p = widthField x p &&& widthField y p := by
  refine BitVec.eq_of_getLsbD_eq fun i hi => ?_
  simp only [getLsbD_widthField, BitVec.getLsbD_and]
  by_cases low : i < 2 <;> simp [low]

theorem widthField_and_not (mask : BitVec 32) (inside : p + 2 ≤ 32) :
    widthField (x &&& ~~~mask) p = widthField x p &&& ~~~widthField mask p := by
  refine BitVec.eq_of_getLsbD_eq fun i hi => ?_
  simp only [getLsbD_widthField, BitVec.getLsbD_and, BitVec.getLsbD_not]
  by_cases low : i < 2
  · simp [low, hi, show p + i < 32 by omega]
  · simp [low]

theorem widthField_shift_above (above : p + 2 ≤ s) : widthField (y <<< s) p = 0 := by
  refine BitVec.eq_of_getLsbD_eq fun i hi => ?_
  rw [getLsbD_widthField, BitVec.getLsbD_shiftLeft]
  by_cases low : i < 2
  · simp [show p + i < s by omega]
  · simp [low]

theorem widthField_shift_below (below : s + 2 ≤ p) : widthField ((y &&& 3) <<< s) p = 0 := by
  refine BitVec.eq_of_getLsbD_eq fun i hi => ?_
  have mask : (3#32).getLsbD (p + i - s) = false := by
    rw [show (3#32) = BitVec.ofNat 32 (2 ^ 2 - 1) from rfl, getLsbD_lowMask]
    simp [show ¬p + i - s < 2 by omega]
  rw [getLsbD_widthField, BitVec.getLsbD_shiftLeft]
  change (_ && (y &&& 3#32).getLsbD _ && _) = _
  rw [BitVec.getLsbD_and, mask]
  simp

theorem widthField_shift (inside : p + 2 ≤ 32) : widthField ((y &&& 3) <<< p) p = y &&& 3 := by
  refine BitVec.eq_of_getLsbD_eq fun i hi => ?_
  have mask : (3#32).getLsbD i = (decide (i < 32) && decide (i < 2)) := getLsbD_lowMask 2 i
  rw [getLsbD_widthField, BitVec.getLsbD_shiftLeft]
  change (_ && (y &&& 3#32).getLsbD _ && _) = (y &&& 3#32).getLsbD _
  rw [BitVec.getLsbD_and, BitVec.getLsbD_and, Nat.add_sub_cancel_left, mask]
  by_cases low : i < 2
  · simp [low, hi, show p + i < 32 by omega]
  · simp [low]

end Fields

/-! ## Codes -/

/-- The code that a memory adds to a register. -/
def portCode (dev : Option MemDevice) (shift : ℕ) : BitVec 32 :=
  match dev with
  | none => 0
  | some d => d.bits >>> shift &&& 3

variable {g : MctrlGenerics} {dev : Option MemDevice} {d : MemDevice} {r : Register 32} {v : BitVec 32}

theorem write_of_full (full : r.mask = BitVec.allOnes 32) (v : BitVec 32) : (r.write v).curVal = v := by
  rw [RegisterFields.Register.write_curVal, full, BitVec.and_allOnes]

theorem orWidth_mask (dev : Option MemDevice) (shift pos : ℕ) :
    (orWidth dev shift pos r).mask = r.mask := by
  cases dev <;> rfl

theorem widthField_orWidth {pos : ℕ} (full : r.mask = BitVec.allOnes 32) (shift : ℕ)
    (inside : pos + 2 ≤ 32) : widthField (orWidth dev shift pos r).curVal pos =
      widthField r.curVal pos ||| portCode dev shift := by
  cases dev with
  | none => exact (BitVec.or_zero ..).symm
  | some d =>
    rw [orWidth, write_of_full full, widthField_or, widthField_shift inside]
    rfl

theorem mcfg1_codes (full : r.mask = BitVec.allOnes 32) (rom io : Option MemDevice) (shift : ℕ) :
    widthField (orWidth io shift 27 (orWidth rom shift 8 (r.write 0x000000FF))).curVal 8 =
        portCode rom shift ∧
      widthField (orWidth io shift 27 (orWidth rom shift 8 (r.write 0x000000FF))).curVal 27 =
        portCode io shift := by
  have reset : widthField 0x000000FF 8 = 0 ∧ widthField 0x000000FF 27 = 0 := by decide
  have fresh : (r.write 0x000000FF).mask = BitVec.allOnes 32 := full
  have full' : (orWidth rom shift 8 (r.write 0x000000FF)).mask = BitVec.allOnes 32 := by
    rw [orWidth_mask, fresh]
  constructor
  · have other : widthField (orWidth io shift 27 (orWidth rom shift 8 (r.write 0x000000FF))).curVal 8 =
        widthField (orWidth rom shift 8 (r.write 0x000000FF)).curVal 8 := by
      cases io with
      | none => rfl
      | some d =>
        rw [orWidth, write_of_full full', widthField_or, widthField_shift_above (by decide)]
        exact BitVec.or_zero
    rw [other, widthField_orWidth fresh shift (by decide), write_of_full full, reset.1]
    exact BitVec.zero_or
  · have other : widthField (orWidth rom shift 8 (r.write 0x000000FF)).curVal 27 = 0 := by
      cases rom with
      | none => rw [orWidth, write_of_full full, reset.2]
      | some d =>
        rw [orWidth, write_of_full fresh, widthField_or, write_of_full full, reset.2,
          widthField_shift_below (by decide)]
        rfl
    rw [widthField_orWidth full' shift (by decide), other]
    exact BitVec.zero_or

/-- The fields of MCFG2 do not name the width of the RAM, and no write has stored one. -/
structure RamUnset (mcfg2 : Register 32) : Prop where
  mask : mcfg2.mask = 0x3F987E00
  width : widthField mcfg2.curVal 4 = 0

namespace RamUnset

theorem write (mask : r.mask = 0x3F987E00) (v : BitVec 32) : RamUnset (r.write v) := by
  have unnamed : widthField 0x3F987E00 4 = 0 := by decide
  refine ⟨mask, ?_⟩
  rw [RegisterFields.Register.write_curVal, mask, widthField_and, unnamed]
  exact BitVec.and_zero

theorem setSram (h : RamUnset r) (dev : Option MemDevice) : RamUnset (setSram dev r) := by
  cases dev with
  | none => exact h
  | some d => exact write h.mask _

theorem setSdram (h : RamUnset r) (dev : Option SdramDevice) : RamUnset (setSdram dev r) := by
  cases dev with
  | none => exact h
  | some d => exact write h.mask _

theorem resetMcfg2 (mask : r.mask = 0x3F987E00) (g : MctrlGenerics) : RamUnset (resetMcfg2 g r) := by
  have mobile : RamUnset (setMobile g (r.write 0x1F100000)) := by
    rw [setMobile]
    split
    · exact write mask _
    · exact write mask _
  rw [Memory.resetMcfg2, setSeparate]
  split
  · exact write mobile.mask _
  · exact mobile

theorem launchSdramCommand (h : RamUnset r) (g : MctrlGenerics) :
    RamUnset (launchSdramCommand g r) := by
  rw [Memory.launchSdramCommand]
  split
  · exact write h.mask _
  · exact h

end RamUnset

/-- The start of the simulation takes the right bits of the width, a reset the next lower ones. -/
theorem decoded_portCode : decodedBits (portCode (some d) 4) = d.bits := by
  obtain bits | bits | bits := d.bits_range <;> rw [portCode, bits] <;> decide

theorem decoded_portCode_reset : decodedBits (portCode (some d) 3) ≠ d.bits := by
  obtain bits | bits | bits := d.bits_range <;> rw [portCode, bits] <;> decide

theorem allowed_of_decoded {code : BitVec 32} (decoded : decodedBits code = d.bits)
    (allows : g.AllowsBits d.bits) : (code = 0 → g.ram8 = true) ∧ (code = 1 → g.ram16 = true) := by
  refine ⟨fun zero => allows.1 ?_, fun one => allows.2 ?_⟩
  · rw [← decoded, zero]
    rfl
  · rw [← decoded, one]
    rfl

private theorem widthField_wide {pos : ℕ} {mask : BitVec 32} (inside : pos + 2 ≤ 32)
    (own : mask = (3#32 &&& 3) <<< pos) : widthField (v &&& ~~~mask ||| 2#32 <<< pos) pos = 2 := by
  have two : widthField (2#32 <<< pos) pos = 2 := widthField_shift (y := 2) inside
  rw [widthField_or, widthField_and_not _ inside, own, widthField_shift inside, two]
  have cleared : widthField v pos &&& ~~~(3 &&& 3#32) = 0 := by
    rw [widthField, BitVec.and_assoc]
    exact BitVec.and_zero
  change widthField v pos &&& ~~~(3 &&& 3#32) ||| 2 = 2
  rw [cleared]
  rfl

/-- After the correction a field selects no width that is switched off. -/
theorem correctWidth_allowed {pos : ℕ} {mask : BitVec 32} (inside : pos + 2 ≤ 32)
    (own : mask = (3#32 &&& 3) <<< pos) :
    (widthField (correctWidth g pos mask v) pos = 0 → g.ram8 = true) ∧
      (widthField (correctWidth g pos mask v) pos = 1 → g.ram16 = true) := by
  have wide {v : BitVec 32} : (widthField (v &&& ~~~mask ||| 2#32 <<< pos) pos = 0 → g.ram8 = true) ∧
      (widthField (v &&& ~~~mask ||| 2#32 <<< pos) pos = 1 → g.ram16 = true) := by
    rw [widthField_wide inside own]
    exact ⟨fun h => absurd h (by decide), fun h => absurd h (by decide)⟩
  unfold correctWidth
  dsimp only
  split_ifs with eight sixteen sixteen
  · exact wide
  · exact wide
  · exact wide
  · exact ⟨fun h => by simpa [h] using eight, fun h => by simpa [h] using sixteen⟩

/-! ## Runs -/

namespace WidthBoard

variable {b : WidthBoard} {events : List WidthEvent} {r : WidthRegisters}

/-- The registers have the masks of their elaboration, and the RAM has no width. -/
structure Elaborated (r : WidthRegisters) : Prop where
  mcfg1 : r.mcfg1.mask = BitVec.allOnes 32
  mcfg2 : RamUnset r.mcfg2

theorem elaborated_dorst (g : MctrlGenerics) (ports : Ports) (mcfg1 : r.mcfg1.mask = BitVec.allOnes 32)
    (mcfg2 : r.mcfg2.mask = 0x3F987E00) : Elaborated (dorst g ports r) := by
  refine ⟨?_, ((RamUnset.resetMcfg2 mcfg2 g).setSram _).setSdram _⟩
  rw [dorst, orWidth_mask, orWidth_mask, RegisterFields.Register.write_mask, mcfg1]

theorem elaborated_start (b : WidthBoard) : Elaborated b.start := by
  have reset : Elaborated (dorst b.generics ⟨none, none, none, none⟩
      ⟨RegisterFields.mcfg1, RegisterFields.mcfg2⟩) :=
    elaborated_dorst _ _ RegisterFields.mcfg1_mask RegisterFields.mcfg2_mask
  refine ⟨?_, (reset.mcfg2.setSram _).setSdram _⟩
  rw [start, startOfSimulation, orWidth_mask, orWidth_mask, reset.mcfg1]

theorem elaborated_step (elaborated : Elaborated r) (event : WidthEvent) :
    Elaborated (b.step r event) := by
  cases event with
  | reset => exact elaborated_dorst b.generics b.ports elaborated.mcfg1 elaborated.mcfg2.mask
  | mcfg1 value => exact ⟨elaborated.mcfg1, elaborated.mcfg2⟩
  | mcfg2 value =>
    have written : RamUnset (mcfg2Write b.generics (r.mcfg2.busWrite value)) :=
      RamUnset.write elaborated.mcfg2.mask _
    exact ⟨elaborated.mcfg1, written.launchSdramCommand b.generics⟩

theorem elaborated_run (b : WidthBoard) (events : List WidthEvent) : Elaborated (b.run events) := by
  induction events using List.reverseRecOn with
  | nil => exact elaborated_start b
  | append_singleton events event ih =>
    rw [run, List.foldl_append]
    exact elaborated_step ih event

/-- The codes of both ways to fill MCFG1, which take the width from different bits. -/
structure Filled (b : WidthBoard) (shift : ℕ) (r : WidthRegisters) : Prop where
  rom : r.code .rom = portCode b.ports.rom shift
  io : r.code .io = portCode b.ports.io shift

theorem filled_start (b : WidthBoard) : Filled b 4 b.start := by
  obtain ⟨rom, io⟩ := mcfg1_codes RegisterFields.mcfg1_mask b.ports.rom b.ports.io 4
  exact ⟨rom, io⟩

theorem filled_reset (b : WidthBoard) (elaborated : Elaborated r) :
    Filled b 3 (dorst b.generics b.ports r) := by
  obtain ⟨rom, io⟩ := mcfg1_codes elaborated.mcfg1 b.ports.rom b.ports.io 3
  exact ⟨rom, io⟩

theorem run_reset (before : List WidthEvent) :
    b.run (before ++ [.reset]) = dorst b.generics b.ports (b.run before) := by
  rw [run, List.foldl_append]
  rfl

theorem decoded_sram (elaborated : Elaborated r) : decodedBits (r.code .sram) = 8 := by
  rw [show r.code .sram = 0 from elaborated.mcfg2.width]
  rfl

theorem codes_start_iff : b.Codes b.start ↔ ∀ d, b.ports.sram = some d → d.bits = 8 := by
  have filled := filled_start b
  have eight := decoded_sram (elaborated_start b)
  constructor
  · intro codes d attached
    rw [← codes .sram d attached, eight]
  · intro narrow type d attached
    cases type with
    | rom =>
      change b.ports.rom = some d at attached
      rw [filled.rom, attached, decoded_portCode]
    | io =>
      change b.ports.io = some d at attached
      rw [filled.io, attached, decoded_portCode]
    | sram => rw [eight, narrow d attached]
    | sdram => cases attached

theorem unattached_of_reset (codes : b.Codes r) (type : DeviceType)
    (filled : r.code type = portCode (b.device type) 3) : b.device type = none := by
  by_contra attached
  obtain ⟨d, attached⟩ := Option.ne_none_iff_exists'.mp attached
  have decoded := codes type d attached
  rw [filled, attached] at decoded
  exact decoded_portCode_reset decoded

/-- A reset sets the codes of the start exactly when neither a PROM nor an IO memory is attached. -/
theorem reset_right_iff (elaborated : Elaborated r) (started : b.Codes b.start) :
    (b.Codes (dorst b.generics b.ports r) ∧
      ∀ type, (dorst b.generics b.ports r).code type = b.start.code type) ↔
    b.ports.rom = none ∧ b.ports.io = none := by
  have filled := filled_start b
  have filled' := filled_reset b elaborated
  constructor
  · rintro ⟨codes, -⟩
    exact ⟨unattached_of_reset codes .rom filled'.rom,
      unattached_of_reset codes .io filled'.io⟩
  · rintro ⟨noRom, noIo⟩
    have ram : (dorst b.generics b.ports r).code .sram = b.start.code .sram :=
      (elaborated_step (b := b) elaborated .reset).mcfg2.width.trans
      (elaborated_start b).mcfg2.width.symm
    have same : ∀ type, (dorst b.generics b.ports r).code type = b.start.code type := by
      intro type
      cases type with
      | rom =>
        rw [filled.rom, filled'.rom, noRom]
        rfl
      | io =>
        rw [filled.io, filled'.io, noIo]
        rfl
      | sram => exact ram
      | sdram => exact ram
    refine ⟨fun type d attached => ?_, same⟩
    rw [same]
    exact started type d attached

theorem allowed_start_iff : b.Allowed b.start ↔ b.generics.ram8 = true := by
  have filled := filled_start b
  unfold Allowed
  rw [List.forall_mem_cons, List.forall_mem_singleton, filled.rom,
    show b.start.code .sram = 0 from (elaborated_start b).mcfg2.width]
  refine ⟨fun allowed => allowed.2.1 rfl, fun eight => ⟨?_, fun _ => eight, fun one => ?_⟩⟩
  · cases attached : b.ports.rom with
    | none => exact ⟨fun _ => eight, fun one => absurd one (by decide)⟩
    | some d => exact allowed_of_decoded decoded_portCode (b.rom_allowed d attached)
  · exact absurd one (by decide)

theorem allowed_write (elaborated : Elaborated r) {event : WidthEvent} (allowed : b.Allowed r)
    (write : event ≠ .reset) : b.Allowed (b.step r event) := by
  have ram (event : WidthEvent) : (b.step r event).code .sram = r.code .sram :=
    (elaborated_step elaborated event).mcfg2.width.trans elaborated.mcfg2.width.symm
  unfold Allowed at allowed ⊢
  rw [List.forall_mem_cons, List.forall_mem_singleton] at allowed ⊢
  rw [ram]
  cases event with
  | reset => exact absurd rfl write
  | mcfg1 value =>
    refine ⟨?_, allowed.2⟩
    have full : (r.mcfg1.busWrite value).mask = BitVec.allOnes 32 := elaborated.mcfg1
    change (widthField ((r.mcfg1.busWrite value).write _).curVal 8 = 0 → _) ∧
      (widthField ((r.mcfg1.busWrite value).write _).curVal 8 = 1 → _)
    rw [write_of_full full]
    exact correctWidth_allowed (by decide) rfl
  | mcfg2 value => exact allowed

/-- The width fields are right in a run if and only if 8 bit is switched on, an SRAM has 8 bit, and no
reset occurs while a PROM or an IO memory is attached. -/
theorem widths_right_iff (b : WidthBoard) (events : List WidthEvent) :
    b.WidthsRight events ↔
      b.generics.ram8 = true ∧ (∀ d, b.ports.sram = some d → d.bits = 8) ∧
      (.reset ∈ events → b.ports.rom = none ∧ b.ports.io = none) := by
  constructor
  · intro right
    refine ⟨allowed_start_iff.mp (right.allowed [] events rfl), codes_start_iff.mp right.started,
      fun member => ?_⟩
    obtain ⟨before, after, split⟩ := List.append_of_mem member
    have reset := right.reset before after split
    rw [run_reset] at reset
    exact (reset_right_iff (elaborated_run b before) right.started).mp reset
  · rintro ⟨eight, narrow, free⟩
    have started := codes_start_iff.mpr narrow
    have start := allowed_start_iff.mpr eight
    refine ⟨started, fun before after split => ?_, fun before after split => ?_⟩
    · rw [run_reset]
      exact (reset_right_iff (elaborated_run b before) started).mpr
        (free (split ▸ List.mem_append_right _ (List.mem_cons_self ..)))
    · -- A reset among the events has the codes of the start, the other events are bus writes.
      have inside : ∀ e ∈ before, e ∈ events := fun e member => split ▸ List.mem_append_left _ member
      clear split
      induction before using List.reverseRecOn with
      | nil => exact start
      | append_singleton before event ih =>
        by_cases reset : event = .reset
        · subst reset
          have same := ((reset_right_iff (elaborated_run b before) started).mpr (free (inside _
            (List.mem_append_right _ (List.mem_singleton_self _))))).2
          rw [run_reset]
          intro type member
          rw [same]
          exact start type member
        · rw [run, List.foldl_append]
          exact allowed_write (elaborated_run b before)
            (ih fun e member => inside e (List.mem_append_left _ member)) reset

/-- A PROM and an SRAM of 32 bit, with 8 and 16 bit switched off. -/
def wideMemories : WidthBoard where
  generics := ⟨false, false, true, false, 32, 0⟩
  ports := ⟨some ⟨32, 0x1000, .inr (.inr rfl)⟩, none, some ⟨32, 0x2000, .inr (.inr rfl)⟩, none⟩
  rom_allowed d attached := by
    obtain rfl := Option.some.inj attached
    exact ⟨fun h => absurd h (by decide), fun h => absurd h (by decide)⟩
  sram_allowed d attached := by
    obtain rfl := Option.some.inj attached
    exact ⟨fun h => absurd h (by decide), fun h => absurd h (by decide)⟩

/-- From the start on the SRAM is taken to have 8 bit, which is switched off, and a bus write does not
correct that; after a reset the PROM is too. -/
theorem widths_wrong : ¬wideMemories.WidthsRight [] ∧
    decodedBits ((wideMemories.run [.mcfg2 0xFFFFFFFF]).code .sram) = 8 ∧
    decodedBits ((wideMemories.run [.reset]).code .rom) = 8 := by
  refine ⟨fun right => ?_, decoded_sram (elaborated_run _ _), ?_⟩
  · exact absurd (allowed_start_iff.mp (right.allowed [] [] rfl)) (by decide)
  · rw [show [WidthEvent.reset] = [] ++ [.reset] from rfl, run_reset,
      (filled_reset wideMemories (elaborated_run _ _)).rom]
    decide

end WidthBoard

end Socrocket.Memory
