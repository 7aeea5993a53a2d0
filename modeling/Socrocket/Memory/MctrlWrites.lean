/- Socrocket/Memory/MctrlWrites
   digest: Which bytes of the memories a transfer through the memory controller changes. -/

import Socrocket.Memory.MctrlPaths

set_option autoImplicit false
set_option relaxedAutoImplicit false

namespace Socrocket.Memory

open Socrocket.Base.ByteMemory

/-- A byte of an attached memory. -/
def Mctrl.byte (m : Mctrl) (type : DeviceType) (a : BitVec 32) : Option (BitVec 8) :=
  (m.device type).map (·.bytes a)

/-- The addressed bytes hold the data, and every other byte of every memory is as before. -/
structure Written (m : Mctrl) (g : Payload) (port : Port) (after : Mctrl) : Prop where
  addressed : ∀ i < g.length.toNat,
    after.byte port.type (port.addr + BitVec.ofNat 32 i) = some (g.data i)
  others : ∀ type a, ¬(type = port.type ∧ port.addr.toNat ≤ a.toNat ∧
    a.toNat < port.addr.toNat + g.length.toNat) → after.byte type a = m.byte type a

/-- A transfer changes the bytes it should: a write that ends with OK those it addresses, everything
else none. A read returns the bytes of the memory. -/
structure TransferExact (m : Mctrl) (g : Payload) (r : Result) : Prop where
  write : g.command = .write → r.status = .ok →
    ∃ port, m.getPort g.address = some port ∧ Written m g port r.mctrl
  refused : g.command = .write → r.status ≠ .ok → r.mctrl = m
  unchanged : g.command = .read → r.mctrl = m
  read : g.command = .read → r.status = .ok →
    ∃ port, m.getPort g.address = some port ∧ ∀ i < g.length.toNat,
      some (r.data i) = m.byte port.type (port.addr + BitVec.ofNat 32 i)

/-- A write of a byte, a half word, a word or a double word at a multiple of its length, to memories
whose banks have whole words. -/
structure Regular (m : Mctrl) (g : Payload) : Prop where
  length : g.length ∈ [1#32, 2#32, 4#32, 8#32]
  aligned : g.address.toNat % g.length.toNat = 0
  banks : ∀ type dev, m.device type = some dev → dev.bsize.toNat % 4 = 0

/-- The checks of `exec_func` before it accesses the memory. -/
structure Passes (m : Mctrl) (g : Payload) (port : Port) : Prop where
  inside : port.addr + g.length ≤ port.length
  permitted : m.permits port.type g.command = true
  wide : g.command = .write → g.length < m.memWidth port.type → m.rmw port.type = true

variable {m : Mctrl} {g : Payload} {port : Port}

/-! ## Alignment -/

private theorem regular_length (regular : Regular m g) :
    g.length.toNat = 1 ∨ g.length.toNat = 2 ∨ g.length.toNat = 4 ∨ g.length.toNat = 8 := by
  have range := regular.length
  simp only [List.mem_cons, List.not_mem_nil, or_false] at range
  obtain same | same | same | same := range <;> rw [same] <;> decide

private theorem regular_end (regular : Regular m g) (decoded : m.getPort g.address = some port) :
    port.addr.toNat + g.length.toNat ≤ 2 ^ 32 := by
  have position := (Mctrl.getPort_counts decoded).toNat_addr
  have aligned := regular.aligned
  have bound := g.address.isLt
  obtain len | len | len | len := regular_length regular <;> rw [len] at aligned ⊢ <;> omega

private theorem portBase_aligned (regular : Regular m g) (type : DeviceType) :
    (m.portBase type).toNat % 4 = 0 := by
  have bar_aligned (bar : Bar) : bar.addr.toNat % 4 = 0 := by
    rw [Bar.addr, BitVec.toNat_shiftLeft, Nat.shiftLeft_eq]
    omega
  cases type with
  | rom => exact bar_aligned m.rom
  | io => exact bar_aligned m.io
  | sram => exact bar_aligned m.ram
  | sdram =>
    have start := bar_aligned m.ram
    unfold Mctrl.portBase
    cases sram : m.device .sram with
    | none => exact start
    | some dev =>
      have product : (Mctrl.atMost 4 dev.banks * dev.bsize).toNat % 4 = 0 := by
        rw [BitVec.toNat_mul, Nat.mod_mod_of_dvd _ (by decide : (4 : ℕ) ∣ 2 ^ 32), Nat.mul_mod,
          regular.banks .sram dev sram]
        rfl
      dsimp only
      split_ifs
      · exact start
      · rw [BitVec.toNat_add]
        omega

private theorem size_aligned (regular : Regular m g) (decoded : m.getPort g.address = some port) :
    port.dev.size.toNat % 4 = 0 := by
  have banks := regular.banks _ _ (Mctrl.getPort_spec decoded).1
  rw [Device.size, BitVec.toNat_mul, Nat.mod_mod_of_dvd _ (by decide : (4 : ℕ) ∣ 2 ^ 32), Nat.mul_mod,
    banks, Nat.zero_mul]

private theorem word_holds_iff (regular : Regular m g) (decoded : m.getPort g.address = some port)
    (short : g.length < m.memWidth port.type) :
    (port.addr.toNat % (m.memWidth port.type).toNat + g.length.toNat ≤
        (m.memWidth port.type).toNat ∧
      port.dev.Holds (port.addr &&& ~~~(m.memWidth port.type - 1)) (m.memWidth port.type).toNat) ↔
      port.dev.Holds port.addr g.length.toNat := by
  obtain ⟨k, small, power⟩ := memWidth_cases m port.type
  obtain ⟨-, whole⟩ := align_spec small power port.addr
  have counts := Mctrl.getPort_counts decoded
  have position := counts.toNat_addr
  have low : (m.portBase port.type).toNat ≤ g.address.toNat := BitVec.le_def.1 counts.low
  have start := portBase_aligned regular port.type
  have size := size_aligned regular decoded
  have aligned := regular.aligned
  have width : (m.memWidth port.type).toNat = 1 ∨ (m.memWidth port.type).toNat = 2 ∨
      (m.memWidth port.type).toNat = 4 := by
    rw [power]
    interval_cases k <;> decide
  rw [BitVec.lt_def] at short
  have fits : port.addr.toNat % (m.memWidth port.type).toNat + g.length.toNat ≤
      (m.memWidth port.type).toNat := by
    obtain len | len | len | len := regular_length regular <;>
      obtain w | w | w := width <;> rw [len] at aligned short ⊢ <;> rw [w] at short ⊢ <;> omega
  have word : (port.addr &&& ~~~(m.memWidth port.type - 1)).toNat %
      (m.memWidth port.type).toNat = 0 := by
    obtain w | w | w := width <;> rw [w] at whole ⊢ <;> omega
  have positive : 0 < g.length.toNat := by
    obtain len | len | len | len := regular_length regular <;> omega
  rw [and_iff_right fits]
  refine or_congr_right ⟨fun room => by omega, fun room => ?_⟩
  obtain w | w | w := width <;> rw [w] at whole word fits ⊢ <;> omega

/-! ## Transfers that pass the checks -/

private theorem write_passes (regular : Regular m g) (decoded : m.getPort g.address = some port)
    (passes : Passes m g port) (written : g.command = .write) :
    ∃ returned, m.execFunc g = if port.dev.Holds port.addr g.length.toNat then
      some ⟨m.setDevice port.type
        { port.dev with bytes := writeBytes port.dev.bytes port.addr g.data g.length.toNat },
        g.data, .ok, returned⟩
    else none := by
  rw [execFunc_inside decoded passes.inside, if_pos passes.permitted]
  by_cases short : g.length < m.memWidth port.type
  · rw [if_pos ⟨written, short⟩, if_pos (passes.wide written short), wordAccess_eq short]
    simp only [word_holds_iff regular decoded short]
    exact ⟨_, rfl⟩
  · rw [if_neg fun both => short both.2, Mctrl.plainAccess, written, Device.bTransport]
    refine ⟨g.length, ?_⟩
    by_cases held : port.dev.Holds port.addr g.length.toNat
    · rw [if_pos held, if_pos held]
      rfl
    · rw [if_neg held, if_neg held]
      rfl

private theorem read_passes (decoded : m.getPort g.address = some port) (passes : Passes m g port)
    (fetched : g.command = .read) :
    m.execFunc g = if port.dev.Holds port.addr g.length.toNat then
      some ⟨m, memcpy g.data (bytesAt port.dev.bytes port.addr) g.length.toNat, .ok, g.length⟩
    else none := by
  have plain : ¬(g.command = .write ∧ g.length < m.memWidth port.type) := by
    rw [fetched]
    exact fun both => Command.noConfusion both.1
  rw [execFunc_inside decoded passes.inside, if_pos passes.permitted, if_neg plain, Mctrl.plainAccess,
    fetched, Device.bTransport]
  by_cases held : port.dev.Holds port.addr g.length.toNat
  · rw [if_pos held, if_pos held, Option.map_some,
      Mctrl.setDevice_self (Mctrl.getPort_spec decoded).1]
  · rw [if_neg held, if_neg held]
    rfl

private theorem execFunc_refused
    (refused : ∀ port, m.getPort g.address = some port → ¬Passes m g port) :
    ∃ r, m.execFunc g = some r ∧ r.mctrl = m ∧ r.status ≠ .ok := by
  unfold Mctrl.execFunc
  cases decoded : m.getPort g.address with
  | none => exact ⟨_, rfl, rfl, Status.noConfusion⟩
  | some port =>
    dsimp only
    split_ifs with inside permitted narrow fetched
    · exact absurd ⟨inside, permitted, fun _ _ => fetched⟩ (refused port decoded)
    · exact ⟨_, rfl, rfl, Status.noConfusion⟩
    · exact absurd ⟨inside, permitted, fun written short => absurd ⟨written, short⟩ narrow⟩
        (refused port decoded)
    · exact ⟨_, rfl, rfl, Status.noConfusion⟩
    · exact ⟨_, rfl, rfl, Status.noConfusion⟩

/-! ## The bytes of a transfer -/

theorem byte_setDevice (dev : Device) (type : DeviceType) (a : BitVec 32) :
    (m.setDevice port.type dev).byte type a =
      if type = port.type then some (dev.bytes a) else m.byte type a := by
  unfold Mctrl.byte Mctrl.setDevice
  by_cases own : type = port.type
  · rw [if_pos own, own]
    simp
  · rw [if_neg own]
    simp [Function.update_of_ne own]

private theorem written_setDevice (regular : Regular m g)
    (decoded : m.getPort g.address = some port) :
    Written m g port (m.setDevice port.type
      { port.dev with bytes := writeBytes port.dev.bytes port.addr g.data g.length.toNat }) := by
  have room := regular_end regular decoded
  refine ⟨fun i below => ?_, fun type a outside => ?_⟩
  · have dist : distance port.addr (port.addr + BitVec.ofNat 32 i) = i := by
      apply distance_add
      have small : g.length.toNat ≤ 8 := by
        obtain len | len | len | len := regular_length regular <;> omega
      omega
    have range : InRange port.addr g.length.toNat (port.addr + BitVec.ofNat 32 i) := by
      rw [InRange, dist]
      exact below
    rw [byte_setDevice, if_pos rfl]
    dsimp only
    rw [writeBytes_of_inRange range, dist]
  · rw [byte_setDevice]
    by_cases own : type = port.type
    · have apart : ¬InRange port.addr g.length.toNat a := by
        rw [inRange_iff_of_no_wrap room]
        exact fun inside => outside ⟨own, inside⟩
      rw [if_pos own]
      dsimp only
      rw [writeBytes_of_not_inRange apart, own, Mctrl.byte, (Mctrl.getPort_spec decoded).1,
        Option.map_some]
    · rw [if_neg own]

/-- A transfer ends and changes exactly the bytes it should if and only if it fails a check of
`exec_func`, or the memory has the bytes that it addresses. -/
theorem transfer_exact_iff (used : g.command ≠ .ignore)
    (regular : g.command = .write → Regular m g) :
    (∃ r, m.execFunc g = some r ∧ TransferExact m g r) ↔
      ∀ port, m.getPort g.address = some port → Passes m g port →
        port.dev.Holds port.addr g.length.toNat := by
  constructor
  · rintro ⟨r, ends, -⟩ port decoded passes
    by_contra missing
    cases command : g.command with
    | read =>
      rw [read_passes decoded passes command, if_neg missing] at ends
      cases ends
    | write =>
      obtain ⟨returned, same⟩ := write_passes (regular command) decoded passes command
      rw [same, if_neg missing] at ends
      cases ends
    | ignore => exact used command
  · intro holds
    by_cases reaches : ∃ port, m.getPort g.address = some port ∧ Passes m g port
    · obtain ⟨port, decoded, passes⟩ := reaches
      have held := holds port decoded passes
      cases command : g.command with
      | read =>
        have ends := read_passes decoded passes command
        rw [if_pos held] at ends
        refine ⟨_, ends, fun w => ?_, fun w => ?_, fun _ => rfl,
          fun _ _ => ⟨port, decoded, fun i below => ?_⟩⟩
        · exact absurd (command.symm.trans w) Command.noConfusion
        · exact absurd (command.symm.trans w) Command.noConfusion
        · dsimp only
          rw [memcpy_of_lt below, Mctrl.byte, (Mctrl.getPort_spec decoded).1, Option.map_some]
          rfl
      | write =>
        obtain ⟨returned, ends⟩ := write_passes (regular command) decoded passes command
        rw [if_pos held] at ends
        refine ⟨_, ends, fun _ _ => ⟨port, decoded, written_setDevice (regular command) decoded⟩,
          fun _ failed => absurd rfl failed, fun r => ?_, fun r => ?_⟩
        · exact absurd (command.symm.trans r) Command.noConfusion
        · exact absurd (command.symm.trans r) Command.noConfusion
      | ignore => exact absurd command used
    · obtain ⟨r, ends, same, failed⟩ :=
        execFunc_refused fun port decoded passes => reaches ⟨port, decoded, passes⟩
      exact ⟨r, ends, fun _ ok => absurd ok failed, fun _ _ => same, fun _ => same,
        fun _ ok => absurd ok failed⟩

/-- A half word written to the middle of the SRAM. -/
def halfWord : Payload := ⟨.write, 0x40000002, 2, fun _ => 0xAA⟩

theorem transfer_exact_half_word :
    ∃ r, (sramBoard false).execFunc halfWord = some r ∧ TransferExact (sramBoard false) halfWord r := by
  have here : (sramBoard false).getPort halfWord.address =
      some ⟨.sram, ⟨1, 0x2000, false, fun _ => 0⟩, 2, 0x2000⟩ := rfl
  have banks : ∀ type dev, (sramBoard false).device type = some dev → dev.bsize.toNat % 4 = 0 := by
    intro type dev attached
    cases type <;> cases attached
    rfl
  refine (transfer_exact_iff (by decide) fun _ => ⟨by decide, rfl, banks⟩).mpr ?_
  intro port decoded _
  obtain rfl := Option.some.inj (here.symm.trans decoded)
  exact .inr (by decide)

/-- A PROM of one bank of 4 kB, kept in an array, with writes enabled. -/
def promBoard : Mctrl where
  rom := ⟨0x000, 0xE00⟩
  io := ⟨0x200, 0xE00⟩
  ram := ⟨0x400, 0xC00⟩
  device
    | .rom => some ⟨1, 0x1000, false, fun _ => 0⟩
    | _ => none
  mcfg1 := 0x000008FF
  mcfg2 := 0x1F100000
  mobile := false
  pmode := 0

/-- A word written behind the PROM, but inside the area of the bus, lands behind the array. -/
theorem transfer_behind_array :
    ¬∀ (m : Mctrl) (g : Payload), g.command ≠ .ignore → (g.command = .write → Regular m g) →
      ∃ r, m.execFunc g = some r ∧ TransferExact m g r := by
  intro claim
  have banks : ∀ type dev, promBoard.device type = some dev → dev.bsize.toNat % 4 = 0 := by
    intro type dev attached
    cases type <;> cases attached
    rfl
  obtain ⟨r, ends, -⟩ := claim promBoard ⟨.write, 0x1000, 4, fun _ => 0xAA⟩ (by decide)
    fun _ => ⟨by decide, rfl, banks⟩
  have undefined : promBoard.execFunc ⟨.write, 0x1000, 4, fun _ => 0xAA⟩ = none := rfl
  rw [undefined] at ends
  cases ends

end Socrocket.Memory
