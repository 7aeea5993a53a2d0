/- Socrocket/Memory/Mctrl
   digest: The memory controller: address decoding, transfers, debug transfers and direct access. -/

import Socrocket.Base.ByteMemory

set_option autoImplicit false
set_option relaxedAutoImplicit false

namespace Socrocket.Memory

open Socrocket.Base
open Socrocket.Base.ByteMemory

/-! ## Memories -/

inductive DeviceType where
  | rom
  | io
  | sram
  | sdram
  deriving DecidableEq

inductive Command where
  | read
  | write
  | ignore
  deriving DecidableEq

/-- The response of a payload, which starts as incomplete. -/
inductive Status where
  | incomplete
  | ok
  | genericError
  | addressError
  deriving DecidableEq

/-- A memory at the controller. Its bytes are kept in a hash map or in an array. -/
structure Device where
  banks : BitVec 32
  bsize : BitVec 32
  sparse : Bool
  bytes : ByteMemory.Memory 32

namespace Device

variable (d : Device)

/-- `MEMDevice::get_size`. -/
def size : BitVec 32 := d.bsize * if d.banks < 5 then d.banks else 8

/-- An access behind the end of an array is undefined. -/
def Holds (addr : BitVec 32) (len : ℕ) : Prop :=
  d.sparse = true ∨ addr.toNat + len ≤ d.size.toNat

instance (addr : BitVec 32) (len : ℕ) : Decidable (d.Holds addr len) :=
  inferInstanceAs (Decidable (_ ∨ _))

/-- `Memory::b_transport` without the erase extension, which the controller does not pass on. -/
def bTransport (command : Command) (addr len : BitVec 32) (data : Buffer) :
    Option (Device × Buffer × Status) :=
  match command with
  | .read =>
    if d.Holds addr len.toNat then some (d, memcpy data (bytesAt d.bytes addr) len.toNat, .ok)
    else none
  | .write =>
    if d.Holds addr len.toNat then
      some ({ d with bytes := writeBytes d.bytes addr data len.toNat }, data, .ok)
    else none
  | .ignore => some (d, data, .incomplete)

/-- `Memory::transport_dbg`, with the number of bytes it returns. -/
def transportDbg (command : Command) (addr len : BitVec 32) (data : Buffer) :
    Option (Device × Buffer × Status × BitVec 32) :=
  (d.bTransport command addr len data).map fun r =>
    (r.1, r.2.1, r.2.2, if command = .ignore then 0 else len)

end Device

/-! ## The controller -/

/-- Base and mask of a bank address register, in megabytes. -/
structure Bar where
  base : BitVec 12
  mask : BitVec 12

def Bar.addr (b : Bar) : BitVec 32 := (b.base &&& b.mask).setWidth 32 <<< 20

def Bar.size (b : Bar) : BitVec 32 := ((~~~b.mask).setWidth 32 + 1) <<< 20

/-- The configuration of the controller and what is attached to it. -/
structure Mctrl where
  rom : Bar
  io : Bar
  ram : Bar
  device : DeviceType → Option Device
  mcfg1 : BitVec 32
  mcfg2 : BitVec 32
  mobile : Bool
  pmode : ℕ

/-- A device and the position of an address in it. -/
structure Port where
  type : DeviceType
  dev : Device
  addr : BitVec 32
  length : BitVec 32

structure Payload where
  command : Command
  address : BitVec 32
  length : BitVec 32
  data : Buffer

/-- What an access leaves behind, and the number it returns. -/
structure Result where
  mctrl : Mctrl
  data : Buffer
  status : Status
  returned : BitVec 32

/-- The direct access that `get_direct_mem_ptr` describes: byte `a - start` of the device for the
bus address `a`. -/
structure Dmi where
  type : DeviceType
  dev : Device
  startAddress : BitVec 32
  endAddress : BitVec 32
  address : BitVec 32

namespace Mctrl

variable (m : Mctrl)

def Inside (bar : Bar) (addr : BitVec 32) : Prop := bar.addr ≤ addr ∧ addr < bar.addr + bar.size

instance (bar : Bar) (addr : BitVec 32) : Decidable (Inside bar addr) :=
  inferInstanceAs (Decidable (_ ∧ _))

/-- `MCFG2_SE`. -/
def sdramEnabled : Bool := m.mcfg2.getLsbD 14

/-- `MCFG2_SI`. -/
def sramDisabled : Bool := m.mcfg2.getLsbD 13

def atMost (limit n : BitVec 32) : BitVec 32 := if limit < n then limit else n

/-- One kind of memory from the start of the RAM area on. -/
def alonePort (type : DeviceType) (dev : Device) (size addr : BitVec 32) : Option Port :=
  if addr < m.ram.addr + size then some ⟨type, dev, addr - m.ram.addr, size⟩ else none

/-- The part of `get_port` for the RAM area. -/
def ramPort (addr : BitVec 32) : Option Port :=
  if m.sdramEnabled then
    match m.device .sdram, m.device .sram with
    | none, _ => none
    | some sdram, none => m.alonePort .sdram sdram (sdram.banks * sdram.bsize) addr
    | some sdram, some sram =>
      if m.sramDisabled then m.alonePort .sdram sdram (sdram.banks * sdram.bsize) addr
      else
        let ssize := atMost 4 sram.banks * sram.bsize
        let dsize := atMost 2 sdram.banks * sdram.bsize
        if addr < m.ram.addr + ssize then some ⟨.sram, sram, addr - m.ram.addr, ssize⟩
        else if addr < m.ram.addr + ssize + dsize then
          some ⟨.sdram, sdram, addr - m.ram.addr - ssize, dsize⟩
        else none
  else
    match m.device .sram with
    | none => none
    | some sram => m.alonePort .sram sram
        (if sram.banks < 5 then sram.banks * sram.bsize else 8 * sram.bsize) addr

/-- An area that is attached and decoded. -/
def areaPort (type : DeviceType) (bar : Bar) (addr : BitVec 32) : Option Port :=
  (m.device type).bind fun dev =>
    if Inside bar addr then some ⟨type, dev, addr - bar.addr, bar.size⟩ else none

def getPort (addr : BitVec 32) : Option Port :=
  (m.areaPort .rom m.rom addr).or ((m.areaPort .io m.io addr).or
    (if Inside m.ram addr then m.ramPort addr else none))

/-- The address of the area a device lies in. -/
def baseAddr : DeviceType → BitVec 32
  | .rom => m.rom.addr
  | .io => m.io.addr
  | .sram | .sdram => m.ram.addr

/-- The width of a memory in bytes. -/
def memWidth (type : DeviceType) : BitVec 32 :=
  let field := match type with
    | .rom => m.mcfg1 >>> 8 &&& 3
    | .io => m.mcfg1 >>> 27 &&& 3
    | .sram | .sdram => m.mcfg2 >>> 4 &&& 3
  if field = 0 then 1 else if field = 1 then 2 else 4

/-- Writes to the PROM and accesses to IO have to be enabled, and there is no access to a mobile
SDRAM in deep power-down mode. -/
def permits (type : DeviceType) (command : Command) : Bool :=
  match type with
  | .rom => command ≠ .write || m.mcfg1.getLsbD 11
  | .io => m.mcfg1.getLsbD 19
  | .sram => true
  | .sdram => !m.mobile || m.pmode ≠ 5

def rmw (type : DeviceType) : Bool :=
  match type with
  | .rom => false
  | .io | .sram => m.mcfg2.getLsbD 6
  | .sdram => true

def setDevice (type : DeviceType) (dev : Device) : Mctrl :=
  { m with device := Function.update m.device type (some dev) }

/-- A transfer of the bytes as they are. -/
def plainAccess (g : Payload) (port : Port) : Option Result :=
  (port.dev.bTransport g.command port.addr g.length g.data).map fun r =>
    ⟨m.setDevice port.type r.1, r.2.1, r.2.2, g.length⟩

/-- Fetch the memory word, copy the bytes into it and write it back. -/
def wordAccess (g : Payload) (port : Port) : Option Result :=
  let width := m.memWidth port.type
  let length := (g.length &&& ~~~(width - 1)) + width
  let word := port.addr &&& ~~~(width - 1)
  let pos := (port.addr &&& (width - 1)).toNat
  (port.dev.bTransport .read word length fun _ => 0).bind fun fetched =>
    if pos + g.length.toNat ≤ length.toNat then
      (fetched.1.bTransport .write word length
        (copyTo fetched.2.1 pos g.data g.length.toNat)).map fun r =>
          ⟨m.setDevice port.type r.1, g.data, r.2.2, length⟩
    else none

/-- `exec_func` without its delays. No result means that it accesses memory out of bounds. -/
def execFunc (g : Payload) : Option Result :=
  match m.getPort g.address with
  | none => some ⟨m, g.data, .addressError, 0⟩
  | some port =>
    if port.addr + g.length ≤ port.length then
      if m.permits port.type g.command then
        if g.command = .write ∧ g.length < m.memWidth port.type then
          if m.rmw port.type then m.wordAccess g port else some ⟨m, g.data, .genericError, 0⟩
        else m.plainAccess g port
      else some ⟨m, g.data, .genericError, 0⟩
    else some ⟨m, g.data, .incomplete, g.length⟩

def transportDbg (g : Payload) : Option Result :=
  match m.getPort g.address with
  | none => some ⟨m, g.data, .addressError, 0⟩
  | some port =>
    if g.length ≤ port.length then
      (port.dev.transportDbg g.command port.addr g.length g.data).map fun r =>
        ⟨m.setDevice port.type r.1, r.2.1, r.2.2.1, r.2.2.2⟩
    else some ⟨m, g.data, .incomplete, 0⟩

/-- `get_direct_mem_ptr` where it returns true, which the array storage makes it do. -/
def getDirectMemPtr (address length : BitVec 32) : Option Dmi :=
  (m.getPort address).bind fun port =>
    if length ≤ port.length ∧ port.dev.sparse = false then
      some ⟨port.type, port.dev, m.baseAddr port.type + 0#32, m.baseAddr port.type + port.dev.size,
        port.addr⟩
    else none

end Mctrl

end Socrocket.Memory
