/- Socrocket/Bus/Blocking
   digest: The blocking and the debug transport of the AHB controller. -/

import Socrocket.Base.ByteMemory
import Socrocket.Bus.Phases

set_option autoImplicit false
set_option relaxedAutoImplicit false

namespace Socrocket.Bus.AHBCtrl

open Socrocket.Base.ByteMemory

inductive Response where
  | incomplete
  | ok
  | addressError
  | commandError
deriving DecidableEq

/-- A payload with its lock extension. -/
structure Transaction where
  isWrite : Bool
  address : BitVec 32
  data : Buffer
  dataLength : BitVec 32
  lock : Bool
  response : Response

/-- The device information of the plug and play area. -/
structure Pnp where
  numOfSlaveBindings : ℕ
  mSlaves : ℕ → Option (ℕ → BitVec 32)
  mMasters : ℕ → Option (ℕ → BitVec 32)

/-- A call of `b_transport` that waits: the master, its transaction and whether a slave served it. -/
structure Call where
  id : ℕ
  trans : Transaction
  served : Bool

/-- The controller in LT mode, with the calls that wait inside it, those that returned and the
history of grants: who got the bus, and whether locked. -/
structure Blocking where
  decoder : Decoder
  busy : Bool
  isLock : Bool
  lockMaster : ℕ
  inside : List Call
  returned : List Call
  granted : List (ℕ × Bool)

/-- The controller before the first call. -/
def Blocking.init (decoder : Decoder) : Blocking := ⟨decoder, false, false, 0, [], [], []⟩

variable (g : Generics) (pnp : Pnp)

/-- Reverse the bytes of a register, for a host of the other byte order. -/
def swapEndianess (reg : BitVec 32) : BitVec 32 :=
  reg >>> 24 ||| (reg >>> 8 &&& 0xff00) ||| (reg <<< 8 &&& 0xff0000) ||| reg <<< 24

/-- One register of the configuration area. -/
def getPNPReg (address : BitVec 32) : BitVec 32 :=
  if 0xfffffff0 ≤ address ∧ address ≤ 0xfffffff3 then 0x30100000
  else
    let addr := address -
      ((g.ioaddr <<< 20 ||| g.cfgaddr <<< 8) &&& (g.iomask <<< 20 ||| g.cfgmask <<< 8))
    -- The information about slaves starts at 0x800.
    let slaveArea := 0x800 ≤ addr
    let addr := if slaveArea then addr - 0x800 else addr
    let device := ((addr >>> 2) >>> 3).toNat
    let offset := ((addr >>> 2) &&& 0x7).toNat
    let bindings := if slaveArea then pnp.numOfSlaveBindings else g.numOfMasterBindings
    let infos := if slaveArea then pnp.mSlaves else pnp.mMasters
    if bindings ≤ device then 0
    else
      match infos device with
      | some info => swapEndianess (info offset)
      | none => swapEndianess 0

/-- Byte `i` of an access to the configuration area. -/
def pnpByte (address : BitVec 32) (i : ℕ) : BitVec 8 :=
  let byte := ((address + BitVec.ofNat 32 i) &&& 0x3).toNat
  (getPNPReg g pnp (address + BitVec.ofNat 32 i) >>> (8 * byte)).setWidth 8

/-- Copy registers of the configuration area to the data buffer. -/
def pnpRead (t : Transaction) : Transaction :=
  { t with
    data := memcpy t.data (pnpByte g pnp t.address) t.dataLength.toNat
    response := .ok }

section Transport

variable {μ : Type} (slave : ℕ → μ → Transaction → μ × Transaction)

/-- `b_transport` from the end of its loop to its wait. The bus is not free while it is busy or
locked by another master. `none` is a call that has to wait for the bus. -/
def bTransport (s : Blocking) (slaves : μ) (id : ℕ) (t : Transaction) : Option (Blocking × μ) :=
  if s.busy ∨ (s.isLock ∧ id ≠ s.lockMaster) then none
  else
    let s := { s with
      busy := true
      isLock := t.lock
      lockMaster := id
      granted := s.granted ++ [(id, t.lock)] }
    if isPnp g t.address then
      if t.isWrite then
        -- The area is read only, and this exit does not wait.
        some ({ s with
          busy := false
          returned := s.returned ++ [⟨id, { t with response := .commandError }, false⟩] }, slaves)
      else some ({ s with inside := s.inside ++ [⟨id, pnpRead g pnp t, false⟩] }, slaves)
    else
      (getIndex s.decoder t.address).map fun (index, decoder) =>
        let s := { s with decoder := decoder }
        if 0 ≤ index then
          let (slaves, t) := slave index.toNat slaves t
          ({ s with inside := s.inside ++ [⟨id, t, true⟩] }, slaves)
        else
          ({ s with inside := s.inside ++ [⟨id, { t with response := .addressError }, false⟩] },
            slaves)

/-- `b_transport` after its wait. What a slave wrote is broadcast for snooping. -/
def bTransportEnd (s : Blocking) (k : ℕ) : Option (Blocking × Option (ℕ × BitVec 32 × BitVec 32)) :=
  s.inside[k]?.map fun call =>
    ({ s with
        busy := false
        inside := s.inside.eraseIdx k
        returned := s.returned ++ [call] },
      if call.served ∧ call.trans.isWrite then
        some (call.id, call.trans.address, call.trans.dataLength)
      else none)

/-- `transport_dbg`, with the number of bytes it reports. -/
def transportDbg (slaveDbg : ℕ → μ → Transaction → μ × Transaction × ℕ) (d : Decoder) (slaves : μ)
    (t : Transaction) : Option (Decoder × μ × Transaction × ℕ) :=
  if isPnp g t.address then
    if t.isWrite then some (d, slaves, { t with response := .commandError }, 0)
    else some (d, slaves, pnpRead g pnp t, t.dataLength.toNat)
  else
    (getIndex d t.address).map fun (index, decoder) =>
      if 0 ≤ index then (decoder, slaveDbg index.toNat slaves t)
      else (decoder, slaves, { t with response := .addressError }, 0)

end Transport

end Socrocket.Bus.AHBCtrl
