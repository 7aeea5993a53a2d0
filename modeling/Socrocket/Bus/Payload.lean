/- Socrocket/Bus/Payload
   digest: The transactions that targets of the buses serve. -/

import Socrocket.Base.ByteMemory

set_option autoImplicit false
set_option relaxedAutoImplicit false

namespace Socrocket.Bus

open Socrocket.Base.ByteMemory

inductive TlmCommand where
  | read
  | write
  | ignore
deriving DecidableEq

inductive TlmResponse where
  | ok
  | incomplete
  | genericError
  | addressError
  | commandError
  | burstError
  | byteEnableError
deriving DecidableEq

/-- A transaction as a target sees it. -/
structure GenericPayload where
  command : TlmCommand
  address : BitVec 32
  data : Buffer
  dataLength : BitVec 32
  byteEnable : Option Buffer
  response : TlmResponse

end Socrocket.Bus
