import Socrocket.MmuCache.PartialFetch
import Socrocket.MmuCache.MultiMaster
import Socrocket.MmuCache.Protection
import Socrocket.MmuCache.FaultRegisters
import Socrocket.Irqmp.Extended
import Socrocket.Irqmp.ForceShadow
import Socrocket.Bus.Arbitration
import Socrocket.Bus.AccessPaths
import Socrocket.Memory.Storage
import Socrocket.Core.RegisterFields
import Socrocket.Gptimer.Period
import Socrocket.Common.JsonDocument
import Socrocket.Memory.MctrlPaths
import Socrocket.Quadcopter.Voter
import Socrocket.MmuCache.SnoopRange
import Socrocket.MmuCache.SnoopNames
import Socrocket.MmuCache.LruOrder
import Socrocket.MmuCache.WaySelection
import Socrocket.MmuCache.TagUnique
import Socrocket.MmuCache.FailedRefill
import Socrocket.MmuCache.CacheableReads
import Socrocket.MmuCache.TagAccess
import Socrocket.MmuCache.PageMarks
import Socrocket.MmuCache.TlbSlots
import Socrocket.MmuCache.ExecData
import Socrocket.MmuCache.LockFlag
import Socrocket.MmuCache.WriteBuffer
import Socrocket.Memory.MctrlWrites
import Socrocket.Memory.MctrlDecode
import Socrocket.Memory.PowerMode
import Socrocket.Memory.WidthFields
import Socrocket.Bus.ApbSplit
import Socrocket.Core.RegisterSocket
import Socrocket.Bus.MemoryMap
import Socrocket.Bus.PlugAndPlay
import Socrocket.Bus.AddressWindow
import Socrocket.Memory.AhbMem
import Socrocket.Gptimer.CounterValue
import Socrocket.Gptimer.PrescalerValue
import Socrocket.Gptimer.Divisors
import Socrocket.Gptimer.Chaining
import Socrocket.Gptimer.InterruptPending
import Socrocket.Apbuart.Receive
import Socrocket.Apbuart.Transmit
import Socrocket.Common.JsonParams
import Socrocket.Core.FieldIndependence
import Socrocket.MmuCache.LruCounters
import Socrocket.MmuCache.AddressSplit
import Socrocket.Core.RegisterBank
import Socrocket.Core.SrSignal
import Socrocket.Base.ByteOrder
import Socrocket.Base.Limbs
import Socrocket.Base.Program
import Socrocket.Base.ShiftAdd
import Socrocket.Irqmp.RequestLines
import Socrocket.Leon3.CachedRuns
import Socrocket.Leon3.ConditionCodes
import Socrocket.Leon3.Confinement
import Socrocket.Leon3.Divide
import Socrocket.Leon3.Interrupts
import Socrocket.Leon3.InterruptService
import Socrocket.Leon3.Multiprocessor
import Socrocket.Leon3.TimerInterrupts
import Socrocket.Leon3.Multiword
import Socrocket.MmuCache.CodeRegion
