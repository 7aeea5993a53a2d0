/- Socrocket/Bus/Phases
   digest: The four phase protocol of the AHB controller between its masters and its slaves. -/

import Socrocket.Bus.Decode
import Mathlib.Data.List.FinRange

set_option autoImplicit false
set_option relaxedAutoImplicit false

namespace Socrocket.Bus.AHBCtrl

open Socrocket.Base

inductive TransState where
  | init
  | pending
  | scheduled
deriving DecidableEq

inductive DbusState where
  | idle
  | response
  | waitstates
deriving DecidableEq

/-- A record of a connection. Slave 16 is the configuration area. -/
structure Connection where
  masterId : Fin 16
  slaveId : ℕ
  state : TransState
  trans : Option ℕ

/-- A payload on its way, with the extension that names its master. -/
structure Payload where
  masterId : Fin 16
  address : BitVec 32
  dataLength : BitVec 32
  isWrite : Bool
  lock : Bool

/-- What a write tells the data caches. -/
structure Snooped where
  masterId : Fin 16
  address : BitVec 32
  length : BitVec 32

/-- Generics of the controller that decide about routing. -/
structure Generics where
  fpnpen : Bool
  ioaddr : BitVec 32
  iomask : BitVec 32
  cfgaddr : BitVec 32
  cfgmask : BitVec 32
  rrobin : Bool
  numOfMasterBindings : ℕ

/-- The controller with its records and event queues, what its masters and slaves still owe, and the
history of the phases delivered. Transactions are numbered in the order of their requests. -/
structure Phases where
  decoder : Decoder
  requestMap : Fin 16 → Connection
  responseMap : Fin 16 → Connection
  acceptPEQ : List ℕ
  requestPEQ : List ℕ
  responsePEQ : List ℕ
  endResponsePEQ : List ℕ
  addressBusOwner : Option (Fin 16)
  dataBusState : DbusState
  isLock : Bool
  lockMaster : Fin 16
  robin : ℕ
  snoop : List Snooped
  issued : ℕ
  payload : ℕ → Payload
  awaiting : Fin 16 → Option ℕ
  responding : List ℕ
  requested : List ℕ
  served : List ℕ
  slaveOf : ℕ → Option ℕ
  beginReqs : List (ℕ × ℕ)
  endReqs : List (ℕ × Fin 16)
  beginResps : List (ℕ × Fin 16)
  endResps : List (ℕ × ℕ)
  released : List ℕ

/-- A connection record after `memset`. -/
def Connection.zero : Connection := ⟨0, 0, .init, none⟩

/-- The master of a number. -/
def masterOf (k : ℕ) : Fin 16 := Fin.ofNat 16 k

/-- The controller before the first request. -/
def Phases.init (decoder : Decoder) : Phases where
  decoder := decoder
  requestMap _ := Connection.zero
  responseMap _ := Connection.zero
  acceptPEQ := []
  requestPEQ := []
  responsePEQ := []
  endResponsePEQ := []
  addressBusOwner := none
  dataBusState := .idle
  isLock := false
  lockMaster := 0
  robin := 0
  snoop := []
  issued := 0
  payload _ := ⟨0, 0, 0, false, false⟩
  awaiting _ := none
  responding := []
  requested := []
  served := []
  slaveOf _ := none
  beginReqs := []
  endReqs := []
  beginResps := []
  endResps := []
  released := []

variable (g : Generics)

/-- The configuration area is addressed. -/
def isPnp (address : BitVec 32) : Bool :=
  g.fpnpen && (address ^^^ (g.ioaddr <<< 20 ||| g.cfgaddr <<< 8)) &&&
    (g.iomask <<< 20 ||| g.cfgmask <<< 8) == 0

/-- The target of an address: the configuration area, a slave, or -1. -/
def target (d : Decoder) (address : BitVec 32) : Option (ℤ × Decoder) :=
  if isPnp g address then some (16, d) else getIndex d address

/-- A master that does not wait for the end of a request begins the next one. -/
def nbTransportFw (s : Phases) (p : Payload) : Option Phases :=
  if s.awaiting p.masterId = none then
    some { s with
      acceptPEQ := s.acceptPEQ ++ [s.issued]
      payload := Function.update s.payload s.issued p
      issued := s.issued + 1
      awaiting := Function.update s.awaiting p.masterId (some s.issued) }
  else none

/-- Enter a decoded transaction in the request and the response record of its master. -/
def enter (s : Phases) (t slaveId : ℕ) : Phases :=
  let m := (s.payload t).masterId
  let connection : Connection := ⟨m, slaveId, .pending, some t⟩
  { s with
    requestMap := Function.update s.requestMap m connection
    responseMap := Function.update s.responseMap m connection
    slaveOf := Function.update s.slaveOf t (some slaveId) }

/-- Take a queued transaction and decode it. A transaction without a slave is dropped. -/
def acceptThread (s : Phases) (t : ℕ) : Option Phases :=
  if t ∈ s.acceptPEQ then
    (target g s.decoder (s.payload t).address).map fun (slaveId, decoder) =>
      let s := { s with acceptPEQ := s.acceptPEQ.erase t, decoder := decoder }
      if 0 ≤ slaveId then enter s t slaveId.toNat else s
  else none

/-- The master has a request that waits for arbitration. -/
def isPending (s : Phases) (m : Fin 16) : Bool := (s.requestMap m).state = .pending

/-- Round-robin search for a waiting master, and the pointer where it ends. -/
def robinSearch (s : Phases) : ℕ → ℕ → Option (Fin 16) × ℕ
  | 0, robin => (none, robin)
  | n + 1, robin =>
    let robin := (robin + 1) % g.numOfMasterBindings
    if isPending s (Fin.ofNat 16 robin) then (some (Fin.ofNat 16 robin), robin)
    else robinSearch s n robin

/-- The master the arbiter selects, if any, and the round-robin pointer. -/
def select (s : Phases) : Option (Fin 16) × ℕ :=
  if s.isLock then (if isPending s s.lockMaster then some s.lockMaster else none, s.robin)
  else if g.rrobin then robinSearch g s g.numOfMasterBindings s.robin
  else ((List.finRange 16).reverse.find? (isPending s), s.robin)

/-- Give the address bus to a selected master. -/
def schedule (s : Phases) (m : Fin 16) (t : ℕ) : Phases :=
  { s with
    addressBusOwner := some m
    requestMap := Function.update s.requestMap m { s.requestMap m with state := .scheduled }
    isLock := (s.payload t).lock
    lockMaster := m }

/-- Forward the request of a selected master to its slave. A request for the configuration area is
answered at once. -/
def grant (s : Phases) (m : Fin 16) (t : ℕ) : Phases :=
  let slaveId := (s.requestMap m).slaveId
  let s := schedule s m t
  if slaveId = 16 then
    { s with
      requestPEQ := s.requestPEQ ++ [t]
      responsePEQ := s.responsePEQ ++ [t] }
  else
    { s with
      requested := s.requested ++ [t]
      served := s.served ++ [t]
      beginReqs := s.beginReqs ++ [(t, slaveId)] }

/-- One cycle of the arbiter. -/
def arbitrate (s : Phases) : Option Phases :=
  if s.addressBusOwner = none ∧ s.dataBusState ≠ .waitstates then
    let (selected, robin) := select g s
    match selected with
    | some m => (s.requestMap m).trans.map (grant { s with robin := robin } m)
    | none => some { s with robin := robin }
  else some s

/-- The slave ends a request. -/
def slaveEndReq (s : Phases) (t : ℕ) : Option Phases :=
  if t ∈ s.requested then
    some { s with
      requested := s.requested.erase t
      requestPEQ := s.requestPEQ ++ [t] }
  else none

/-- The slave begins a response. -/
def slaveBeginResp (s : Phases) (t : ℕ) : Option Phases :=
  if t ∈ s.served then
    some { s with
      served := s.served.erase t
      responsePEQ := s.responsePEQ ++ [t] }
  else none

/-- Send the end of a request to the master in the request record. -/
def requestThread (s : Phases) (t : ℕ) : Option Phases :=
  if t ∈ s.requestPEQ then
    let p := s.payload t
    let connection := s.requestMap p.masterId
    some { s with
      requestPEQ := s.requestPEQ.erase t
      snoop := if p.isWrite then s.snoop ++ [⟨p.masterId, p.address, p.dataLength⟩] else s.snoop
      addressBusOwner := none
      dataBusState := if s.dataBusState = .response then .response else .waitstates
      endReqs := s.endReqs ++ [(t, connection.masterId)]
      awaiting := Function.update s.awaiting connection.masterId none }
  else none

/-- Send the begin of a response to the master in the response record. -/
def responseThread (s : Phases) (t : ℕ) : Option Phases :=
  if t ∈ s.responsePEQ then
    let connection := s.responseMap (s.payload t).masterId
    some { s with
      responsePEQ := s.responsePEQ.erase t
      dataBusState := .response
      beginResps := s.beginResps ++ [(t, connection.masterId)]
      responding := s.responding ++ [t] }
  else none

/-- The master ends a response. -/
def masterEndResp (s : Phases) (t : ℕ) : Option Phases :=
  if t ∈ s.responding then
    some { s with
      responding := s.responding.erase t
      endResponsePEQ := s.endResponsePEQ ++ [t] }
  else none

/-- Send the end of a response to the slave in the response record and release the transaction. -/
def endResponseThread (s : Phases) (t : ℕ) : Option Phases :=
  if t ∈ s.endResponsePEQ then
    let connection := s.responseMap (s.payload t).masterId
    let s := { s with endResponsePEQ := s.endResponsePEQ.erase t, dataBusState := .idle }
    if connection.slaveId = 16 then some { s with released := s.released ++ [t] }
    else some { s with
      endResps := s.endResps ++ [(t, connection.slaveId)]
      released := s.released ++ [t] }
  else none

/-- The steps of the controller, its masters and its slaves. -/
inductive PhaseStep where
  | beginReq (p : Payload)
  | accept (t : ℕ)
  | arbitrate
  | slaveEndReq (t : ℕ)
  | slaveBeginResp (t : ℕ)
  | endReq (t : ℕ)
  | beginResp (t : ℕ)
  | masterEndResp (t : ℕ)
  | endResp (t : ℕ)

/-- Perform one step. -/
def phaseStep (s : Phases) : PhaseStep → Option Phases
  | .beginReq p => nbTransportFw s p
  | .accept t => acceptThread g s t
  | .arbitrate => arbitrate g s
  | .slaveEndReq t => slaveEndReq s t
  | .slaveBeginResp t => slaveBeginResp s t
  | .endReq t => requestThread s t
  | .beginResp t => responseThread s t
  | .masterEndResp t => masterEndResp s t
  | .endResp t => endResponseThread s t

end Socrocket.Bus.AHBCtrl
