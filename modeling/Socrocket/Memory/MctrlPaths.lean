/- Socrocket/Memory/MctrlPaths
   digest: When transfers, debug transfers and direct accesses reach the same bytes. -/

import Mathlib.Data.BitVec
import Mathlib.Tactic.IntervalCases
import Socrocket.Memory.Mctrl

set_option autoImplicit false
set_option relaxedAutoImplicit false

namespace Socrocket.Memory

open Socrocket.Base
open Socrocket.Base.ByteMemory

/-! ## What the access paths have in common -/

/-- The bytes of the devices and of the payload after an access. -/
def reached (r : Option Result) : Option (Mctrl × Buffer) := r.map fun r => (r.mctrl, r.data)

/-- The access is answered OK, or it was not answered with an error before it left a memory. -/
def Accepted (r : Option Result) : Prop := ∀ result, r = some result → result.status = .ok

/-- The access ends without OK and touches no byte. -/
def Rejected (m : Mctrl) (g : Payload) (r : Option Result) : Prop :=
  reached r = some (m, g.data) ∧ ¬ Accepted r

/-- A direct access describes bytes of the device at the addresses at which transfers reach them. -/
structure Dmi.Right (m : Mctrl) (address : BitVec 32) (d : Dmi) : Prop where
  order : d.startAddress ≤ d.endAddress
  bytes : ∀ a, d.startAddress ≤ a → a ≤ d.endAddress →
    d.dev.Holds (a - d.startAddress) 1 ∧ ∃ port, m.getPort a = some port ∧ port.type = d.type ∧
      port.addr = a - d.startAddress
  unchanged : d.address = address

/-- The three access paths agree about a payload. -/
structure PathsAgree (m : Mctrl) (g : Payload) : Prop where
  same : Accepted (m.execFunc g) → reached (m.transportDbg g) = reached (m.execFunc g)
  border : ∀ port, m.getPort g.address = some port →
    port.length.toNat < port.addr.toNat + g.length.toNat →
      Rejected m g (m.execFunc g) ∧ Rejected m g (m.transportDbg g)
  direct : ∀ d, m.getDirectMemPtr g.address g.length = some d → d.Right m g.address

/-- A write that is narrower than the memory and done with read-modify-write. -/
def Narrow (m : Mctrl) (g : Payload) (port : Port) : Prop :=
  g.command = .write ∧ m.permits port.type .write = true ∧ m.rmw port.type = true ∧
    g.length < m.memWidth port.type

/-- The bytes lie in one memory word, and this word lies in the device if they do. -/
def InWord (m : Mctrl) (g : Payload) (port : Port) : Prop :=
  port.dev.Holds port.addr g.length.toNat →
    port.addr.toNat % (m.memWidth port.type).toNat + g.length.toNat ≤
      (m.memWidth port.type).toNat ∧
    port.dev.Holds (port.addr &&& ~~~(m.memWidth port.type - 1)) (m.memWidth port.type).toNat

/-- An access that neither path performs: it is longer than the region, and adding its length to
the offset in 32 bits does not hide that, unless it is not permitted anyway. -/
def Refused (m : Mctrl) (g : Payload) (port : Port) : Prop :=
  g.command = .ignore ∨ port.length < g.length ∧
    (port.length < port.addr + g.length ∨ m.permits port.type g.command = false)

/-- What keeps the paths from differing. -/
structure Unambiguous (m : Mctrl) (g : Payload) (port : Port) : Prop where
  word : port.addr.toNat + g.length.toNat ≤ port.length.toNat → Narrow m g port → InWord m g port
  border : port.length.toNat < port.addr.toNat + g.length.toNat → Refused m g port
  sparse : g.length ≤ port.length → port.dev.sparse = true

/-! ## Ports -/

variable {m : Mctrl} {g : Payload} {port : Port} {a : BitVec 32}

namespace Mctrl

theorem areaPort_spec {type : DeviceType} {bar : Bar}
    (decoded : m.areaPort type bar a = some port) :
    port.type = type ∧ m.device type = some port.dev ∧ Inside bar a ∧ port.addr = a - bar.addr ∧
      port.length = bar.size := by
  rw [areaPort, Option.bind_eq_some_iff] at decoded
  obtain ⟨dev, attached, found⟩ := decoded
  rw [Option.ite_none_right_eq_some, Option.some.injEq] at found
  obtain ⟨inside, rfl⟩ := found
  exact ⟨rfl, attached, inside, rfl, rfl⟩

private theorem sub_lt_of_between {base size : BitVec 32} (low : base ≤ a) (high : a < base + size) :
    a - base < size := by
  rw [BitVec.le_def] at low
  rw [BitVec.lt_def, BitVec.toNat_add] at high
  rw [BitVec.lt_def, BitVec.toNat_sub_of_le (BitVec.le_def.2 low)]
  have := a.isLt
  have := base.isLt
  have := size.isLt
  omega

/-- The first address of a device, from which `get_port` counts. The SDRAM lies behind the SRAM, unless
this is absent or disabled. -/
def portBase (m : Mctrl) : DeviceType → BitVec 32
  | .rom => m.rom.addr
  | .io => m.io.addr
  | .sram => m.ram.addr
  | .sdram =>
    match m.device .sram with
    | some sram =>
      if m.sramDisabled then m.ram.addr else m.ram.addr + atMost 4 sram.banks * sram.bsize
    | none => m.ram.addr

/-- A port is the distance of an address from a base below it. -/
structure CountsFrom (m : Mctrl) (a : BitVec 32) (port : Port) (base : BitVec 32) : Prop where
  attached : m.device port.type = some port.dev
  low : base ≤ a
  high : a < base + port.length
  addr : port.addr = a - base

private theorem alonePort_spec {type : DeviceType} {dev : Device} {size : BitVec 32}
    (attached : m.device type = some dev) (base : m.portBase type = m.ram.addr) (low : m.ram.addr ≤ a)
    (decoded : m.alonePort type dev size a = some port) :
    CountsFrom m a port (m.portBase port.type) := by
  rw [alonePort, Option.ite_none_right_eq_some, Option.some.injEq] at decoded
  obtain ⟨high, rfl⟩ := decoded
  rw [base]
  exact ⟨attached, low, high, rfl⟩

private theorem ramPort_spec (low : m.ram.addr ≤ a) (decoded : m.ramPort a = some port) :
    CountsFrom m a port (m.portBase port.type) := by
  unfold ramPort at decoded
  cases sram : m.device .sram with
  | none =>
    have base : m.portBase .sdram = m.ram.addr := by rw [portBase, sram]
    cases sdram : m.device .sdram with
    | none => simp [sram, sdram] at decoded
    | some dev =>
      simp only [sram, sdram] at decoded
      split_ifs at decoded
      exact alonePort_spec sdram base low decoded
  | some rdev =>
    cases sdram : m.device .sdram with
    | none =>
      simp only [sram, sdram] at decoded
      split_ifs at decoded <;> exact alonePort_spec sram rfl low decoded
    | some dev =>
      simp only [sram, sdram] at decoded
      split_ifs at decoded with enabled disabled first second few
      · have base : m.portBase .sdram = m.ram.addr := by
          rw [portBase, sram]
          exact if_pos disabled
        exact alonePort_spec sdram base low decoded
      · cases decoded
        exact ⟨sram, low, first, rfl⟩
      · cases decoded
        have base : m.portBase .sdram = m.ram.addr + atMost 4 rdev.banks * rdev.bsize := by
          rw [portBase, sram]
          exact if_neg disabled
        dsimp only
        rw [base]
        refine ⟨sdram, BitVec.not_lt.1 first, second, ?_⟩
        change a - m.ram.addr - _ = _
        rw [BitVec.sub_sub]
      · exact alonePort_spec sram rfl low decoded
      · exact alonePort_spec sram rfl low decoded

theorem getPort_counts (decoded : m.getPort a = some port) :
    CountsFrom m a port (m.portBase port.type) := by
  rw [getPort, Option.or_eq_some_iff, Option.or_eq_some_iff] at decoded
  rcases decoded with rom | ⟨-, io | ⟨-, ram⟩⟩
  · obtain ⟨type, attached, inside, addr, length⟩ := areaPort_spec rom
    rw [← type] at attached
    rw [type]
    exact ⟨attached, inside.1, length ▸ inside.2, addr⟩
  · obtain ⟨type, attached, inside, addr, length⟩ := areaPort_spec io
    rw [← type] at attached
    rw [type]
    exact ⟨attached, inside.1, length ▸ inside.2, addr⟩
  · rw [Option.ite_none_right_eq_some] at ram
    exact ramPort_spec ram.1.1 ram.2

/-- A port is an attached device and a position below the length of its region. -/
theorem getPort_spec (decoded : m.getPort a = some port) :
    m.device port.type = some port.dev ∧ port.addr < port.length := by
  have counts := getPort_counts decoded
  exact ⟨counts.attached, counts.addr ▸ sub_lt_of_between counts.low counts.high⟩

theorem CountsFrom.toNat_addr {base : BitVec 32} (counts : CountsFrom m a port base) :
    port.addr.toNat = a.toNat - base.toNat := by
  rw [counts.addr, BitVec.toNat_sub_of_le counts.low]

theorem setDevice_self {type : DeviceType} {dev : Device} (attached : m.device type = some dev) :
    m.setDevice type dev = m := by
  rw [setDevice, ← attached, Function.update_eq_self]

end Mctrl

/-! ## Memory words -/

theorem memWidth_cases (m : Mctrl) (type : DeviceType) :
    ∃ k ≤ 2, m.memWidth type = BitVec.ofNat 32 (2 ^ k) := by
  unfold Mctrl.memWidth
  dsimp only
  split_ifs
  · exact ⟨0, by omega, rfl⟩
  · exact ⟨1, by omega, rfl⟩
  · exact ⟨2, le_rfl, rfl⟩

theorem align_spec {width : BitVec 32} {k : ℕ} (small : k ≤ 2)
    (power : width = BitVec.ofNat 32 (2 ^ k)) (x : BitVec 32) :
    (x &&& (width - 1)).toNat = x.toNat % width.toNat ∧
      (x &&& ~~~(width - 1)).toNat + x.toNat % width.toNat = x.toNat := by
  have low : (x &&& (width - 1)).toNat = x.toNat % width.toNat := by
    have value : width.toNat = 2 ^ k := by
      rw [power, BitVec.toNat_ofNat]
      interval_cases k <;> rfl
    have mask : (width - 1).toNat = 2 ^ k - 1 := by
      rw [power]
      interval_cases k <;> rfl
    rw [BitVec.toNat_and, mask, value, Nat.and_two_pow_sub_one_eq_mod]
  have apart : (x &&& ~~~(width - 1)) &&& (x &&& (width - 1)) = 0 := by
    ext i
    simp only [BitVec.getElem_and, BitVec.getElem_not]
    grind
  have joined : (x &&& ~~~(width - 1)) ||| (x &&& (width - 1)) = x := by
    ext i
    simp only [BitVec.getElem_and, BitVec.getElem_not, BitVec.getElem_or]
    grind
  refine ⟨low, ?_⟩
  rw [← low, ← BitVec.toNat_add_of_and_eq_zero apart, BitVec.add_eq_or_of_and_eq_zero _ _ apart,
    joined]

/-- A write of part of a memory word writes the bytes it was given, if they fit into the word. -/
theorem wordAccess_eq (short : g.length < m.memWidth port.type) :
    m.wordAccess g port =
      if port.addr.toNat % (m.memWidth port.type).toNat + g.length.toNat ≤
          (m.memWidth port.type).toNat ∧
        port.dev.Holds (port.addr &&& ~~~(m.memWidth port.type - 1)) (m.memWidth port.type).toNat
      then some ⟨m.setDevice port.type
        { port.dev with bytes := writeBytes port.dev.bytes port.addr g.data g.length.toNat },
        g.data, .ok, m.memWidth port.type⟩
      else none := by
  obtain ⟨k, small, power⟩ := memWidth_cases m port.type
  unfold Mctrl.wordAccess
  generalize m.memWidth port.type = width at short power ⊢
  dsimp only
  obtain ⟨low, whole⟩ := align_spec small power port.addr
  obtain ⟨-, part⟩ := align_spec small power g.length
  have below : g.length.toNat < width.toNat := BitVec.lt_def.1 short
  have nothing : g.length &&& ~~~(width - 1) = 0#32 := by
    apply BitVec.eq_of_toNat_eq
    rw [Nat.mod_eq_of_lt below] at part
    change _ = 0
    omega
  rw [nothing, BitVec.zero_add, low]
  set word := port.addr &&& ~~~(width - 1) with hword
  by_cases held : port.dev.Holds word width.toNat
  · rw [Device.bTransport, if_pos held, Option.bind_some]
    by_cases fits : port.addr.toNat % width.toNat + g.length.toNat ≤ width.toNat
    · have here : word + BitVec.ofNat 32 (port.addr.toNat % width.toNat) = port.addr := by
        apply BitVec.eq_of_toNat_eq
        have := port.addr.isLt
        rw [BitVec.toNat_add, BitVec.toNat_ofNat, Nat.add_mod_mod, whole, Nat.mod_eq_of_lt this]
      rw [if_pos fits, if_pos ⟨fits, held⟩]
      dsimp only
      rw [Device.bTransport, if_pos held, writeBytes_copyTo _ _ _ _ fits width.isLt, here]
      rfl
    · rw [if_neg fits, if_neg fun both => fits both.1]
  · rw [Device.bTransport, if_neg held, if_neg fun both => held both.2]
    rfl

/-! ## The paths through one port -/

section

variable (decoded : m.getPort g.address = some port)

include decoded

private theorem transportDbg_eq (fits : g.length ≤ port.length) :
    m.transportDbg g = (m.plainAccess g port).map fun r =>
      { r with returned := if g.command = .ignore then 0 else g.length } := by
  rw [Mctrl.transportDbg, decoded]
  dsimp only
  rw [if_pos fits, Device.transportDbg, Mctrl.plainAccess, Option.map_map, Option.map_map]
  rfl

private theorem transportDbg_outside (outside : ¬ g.length ≤ port.length) :
    Rejected m g (m.transportDbg g) := by
  have same : m.transportDbg g = some ⟨m, g.data, .incomplete, 0⟩ := by
    rw [Mctrl.transportDbg, decoded]
    exact if_neg outside
  rw [same]
  exact ⟨rfl, fun accepted => Status.noConfusion (accepted _ rfl)⟩

private theorem execFunc_outside (outside : ¬ port.addr + g.length ≤ port.length) :
    Rejected m g (m.execFunc g) := by
  have same : m.execFunc g = some ⟨m, g.data, .incomplete, g.length⟩ := by
    rw [Mctrl.execFunc, decoded]
    exact if_neg outside
  rw [same]
  exact ⟨rfl, fun accepted => Status.noConfusion (accepted _ rfl)⟩

theorem execFunc_inside (inside : port.addr + g.length ≤ port.length) :
    m.execFunc g = if m.permits port.type g.command then
      if g.command = .write ∧ g.length < m.memWidth port.type then
        if m.rmw port.type then m.wordAccess g port else some ⟨m, g.data, .genericError, 0⟩
      else m.plainAccess g port
    else some ⟨m, g.data, .genericError, 0⟩ := by
  rw [Mctrl.execFunc, decoded]
  exact if_pos inside

private theorem execFunc_forbidden (forbidden : m.permits port.type g.command = false) :
    Rejected m g (m.execFunc g) := by
  by_cases inside : port.addr + g.length ≤ port.length
  · rw [execFunc_inside decoded inside, if_neg (by simp [forbidden])]
    exact ⟨rfl, fun accepted => Status.noConfusion (accepted _ rfl)⟩
  · exact execFunc_outside decoded inside

private theorem plainAccess_ignore (ignored : g.command = .ignore) :
    Rejected m g (m.plainAccess g port) := by
  have same : m.plainAccess g port = some ⟨m, g.data, .incomplete, g.length⟩ := by
    rw [Mctrl.plainAccess, ignored, Device.bTransport, Option.map_some,
      Mctrl.setDevice_self (Mctrl.getPort_spec decoded).1]
  rw [same]
  exact ⟨rfl, fun accepted => Status.noConfusion (accepted _ rfl)⟩

end

private theorem plainAccess_accepted (used : g.command ≠ .ignore) :
    Accepted (m.plainAccess g port) := by
  intro result done
  rw [Mctrl.plainAccess, Option.map_eq_some_iff] at done
  obtain ⟨r, moved, rfl⟩ := done
  unfold Device.bTransport at moved
  cases kind : g.command with
  | read =>
    simp only [kind, Option.ite_none_right_eq_some, Option.some.injEq] at moved
    rw [← moved.2]
  | write =>
    simp only [kind, Option.ite_none_right_eq_some, Option.some.injEq] at moved
    rw [← moved.2]
  | ignore => exact absurd kind used

private theorem reached_returned (r : Option Result) (n : BitVec 32) :
    reached (r.map fun r => { r with returned := n }) = reached r := by
  cases r <;> rfl

private theorem accepted_returned (r : Option Result) (n : BitVec 32) :
    Accepted (r.map fun r => { r with returned := n }) ↔ Accepted r := by
  cases r with
  | none => exact iff_of_true nofun nofun
  | some r =>
    constructor
    · intro accepted result same
      cases same
      exact accepted { r with returned := n } rfl
    · intro accepted result same
      cases same
      exact accepted r rfl

/-! ## Where the paths differ -/

private theorem border_iff (decoded : m.getPort g.address = some port)
    (outside : port.length.toNat < port.addr.toNat + g.length.toNat) :
    Rejected m g (m.execFunc g) ∧ Rejected m g (m.transportDbg g) ↔ Refused m g port := by
  have position := BitVec.lt_def.1 (Mctrl.getPort_spec decoded).2
  constructor
  · rintro ⟨transfer, debug⟩
    by_cases ignored : g.command = .ignore
    · exact Or.inl ignored
    have long : port.length < g.length := by
      by_contra short
      rw [transportDbg_eq decoded (BitVec.not_lt.1 short)] at debug
      exact debug.2 ((accepted_returned _ _).2 (plainAccess_accepted ignored))
    refine Or.inr ⟨long, ?_⟩
    by_contra wrong
    rw [not_or, Bool.not_eq_false] at wrong
    obtain ⟨wrapped, permitted⟩ := wrong
    rw [execFunc_inside decoded (BitVec.not_lt.1 wrapped), if_pos permitted] at transfer
    -- An access whose end wraps around is longer than any memory word.
    have wide : ¬ (g.command = .write ∧ g.length < m.memWidth port.type) := by
      rintro ⟨-, short⟩
      obtain ⟨k, small, power⟩ := memWidth_cases m port.type
      have width : (m.memWidth port.type).toNat ≤ 4 := by
        rw [power]
        interval_cases k <;> decide
      rw [BitVec.lt_def] at short wrapped long
      rw [BitVec.toNat_add] at wrapped
      have := port.length.isLt
      omega
    rw [if_neg wide] at transfer
    exact transfer.2 (plainAccess_accepted ignored)
  · rintro (ignored | ⟨long, refused⟩)
    · constructor
      · by_cases inside : port.addr + g.length ≤ port.length
        · cases permitted : m.permits port.type g.command with
          | false => exact execFunc_forbidden decoded permitted
          | true =>
            rw [execFunc_inside decoded inside, if_pos permitted, if_neg (by simp [ignored])]
            exact plainAccess_ignore decoded ignored
        · exact execFunc_outside decoded inside
      · by_cases fits : g.length ≤ port.length
        · rw [transportDbg_eq decoded fits, Rejected, reached_returned, accepted_returned]
          exact plainAccess_ignore decoded ignored
        · exact transportDbg_outside decoded fits
    · refine ⟨?_, transportDbg_outside decoded (BitVec.not_le.2 long)⟩
      rcases refused with far | forbidden
      · exact execFunc_outside decoded (BitVec.not_le.2 far)
      · exact execFunc_forbidden decoded forbidden

private theorem same_iff (decoded : m.getPort g.address = some port)
    (inside : port.addr.toNat + g.length.toNat ≤ port.length.toNat) :
    (Accepted (m.execFunc g) → reached (m.transportDbg g) = reached (m.execFunc g)) ↔
      (Narrow m g port → InWord m g port) := by
  have bound := port.length.isLt
  have sum : port.addr + g.length ≤ port.length := by
    rw [BitVec.le_def, BitVec.toNat_add, Nat.mod_eq_of_lt (by omega)]
    exact inside
  have fits : g.length ≤ port.length := BitVec.le_def.2 (by omega)
  rw [transportDbg_eq decoded fits, reached_returned, execFunc_inside decoded sum]
  cases permitted : m.permits port.type g.command with
  | false =>
    refine iff_of_true (fun accepted => Status.noConfusion (accepted _ rfl)) ?_
    rintro ⟨written, permits, -⟩
    rw [written, permits] at permitted
    cases permitted
  | true =>
    rw [if_pos rfl]
    by_cases narrow : g.command = .write ∧ g.length < m.memWidth port.type
    · rw [if_pos narrow]
      cases fetched : m.rmw port.type with
      | false =>
        refine iff_of_true (fun accepted => Status.noConfusion (accepted _ rfl)) ?_
        rintro ⟨-, -, rmw, -⟩
        rw [fetched] at rmw
        cases rmw
      | true =>
        have command : Narrow m g port := ⟨narrow.1, narrow.1 ▸ permitted, fetched, narrow.2⟩
        rw [if_pos rfl, wordAccess_eq narrow.2]
        have plain : reached (m.plainAccess g port) =
            if port.dev.Holds port.addr g.length.toNat then
              some (m.setDevice port.type { port.dev with
                bytes := writeBytes port.dev.bytes port.addr g.data g.length.toNat }, g.data)
            else none := by
          rw [Mctrl.plainAccess, narrow.1, Device.bTransport]
          split_ifs <;> rfl
        rw [plain]
        constructor
        · intro same _ held
          rw [if_pos held] at same
          by_contra outside
          rw [if_neg outside] at same
          have broken : some _ = none := same nofun
          cases broken
        · intro words _
          by_cases held : port.dev.Holds port.addr g.length.toNat
          · rw [if_pos held, if_pos (words command held)]
            rfl
          · rw [if_neg held, if_neg]
            · rfl
            rintro ⟨fits, word⟩
            apply held
            obtain ⟨k, small, power⟩ := memWidth_cases m port.type
            have whole := (align_spec small power port.addr).2
            exact word.imp id fun room => by omega
    · rw [if_neg narrow]
      refine iff_of_true (fun _ => rfl) ?_
      rintro ⟨written, -, -, short⟩
      exact absurd ⟨written, short⟩ narrow

private theorem direct_iff (decoded : m.getPort g.address = some port) :
    (∀ d, m.getDirectMemPtr g.address g.length = some d → d.Right m g.address) ↔
      (g.length ≤ port.length → port.dev.sparse = true) := by
  constructor
  · intro right fits
    by_contra flat
    rw [Bool.not_eq_true] at flat
    have granted : m.getDirectMemPtr g.address g.length = some ⟨port.type, port.dev,
        m.baseAddr port.type + 0#32, m.baseAddr port.type + port.dev.size, port.addr⟩ := by
      rw [Mctrl.getDirectMemPtr, decoded]
      exact if_pos ⟨fits, flat⟩
    obtain ⟨held, -⟩ := (right _ granted).bytes _ (right _ granted).order (BitVec.le_refl _)
    dsimp only at held
    rw [BitVec.add_zero, BitVec.add_comm, BitVec.add_sub_cancel] at held
    rcases held with sparse | room
    · rw [flat] at sparse
      cases sparse
    · omega
  · intro sparse d granted
    rw [Mctrl.getDirectMemPtr, decoded, Option.bind_some, Option.ite_none_right_eq_some] at granted
    obtain ⟨⟨fits, flat⟩, -⟩ := granted
    rw [sparse fits] at flat
    cases flat

/-- The three access paths agree about a payload exactly if its address decodes to no device, or
it is unambiguous at the port. -/
theorem access_paths_agree_iff (m : Mctrl) (g : Payload) :
    PathsAgree m g ↔ ∀ port, m.getPort g.address = some port → Unambiguous m g port := by
  constructor
  · rintro ⟨same, border, direct⟩ port decoded
    exact ⟨fun inside => (same_iff decoded inside).1 same,
      fun outside => (border_iff decoded outside).1 (border port decoded outside),
      (direct_iff decoded).1 direct⟩
  · intro unambiguous
    cases decoded : m.getPort g.address with
    | none =>
      refine ⟨?_, fun port found => ?_, fun d granted => ?_⟩
      · rw [Mctrl.execFunc, Mctrl.transportDbg, decoded]
        exact fun _ => rfl
      · cases found.symm.trans decoded
      · rw [Mctrl.getDirectMemPtr, decoded] at granted
        cases granted
    | some port =>
      obtain ⟨word, border, sparse⟩ := unambiguous port decoded
      refine ⟨?_, fun other found outside => ?_, (direct_iff decoded).2 sparse⟩
      · rcases Nat.lt_or_ge port.length.toNat (port.addr.toNat + g.length.toNat) with
          outside | inside
        · intro accepted
          exact absurd accepted ((border_iff decoded outside).2 (border outside)).1.2
        · exact (same_iff decoded inside).2 (word inside)
      · cases found.symm.trans decoded
        exact (border_iff decoded outside).2 (border outside)

/-- One SRAM bank of 8 kB at the default addresses, with the reset value of the registers. -/
def sramBoard (sparse : Bool) : Mctrl where
  rom := ⟨0x000, 0xE00⟩
  io := ⟨0x200, 0xE00⟩
  ram := ⟨0x400, 0xC00⟩
  device
    | .sram => some ⟨1, 0x2000, sparse, fun _ => 0⟩
    | _ => none
  mcfg1 := 0x000000FF
  mcfg2 := 0x1F100000
  mobile := false
  pmode := 0

/-- A read of a word at an address. -/
def readWord (address : BitVec 32) : Payload := ⟨.read, address, 4, fun _ => 0⟩

/-- A debug read over the end of the SRAM is performed, and a direct access is granted with one byte
too many and under a changed address. -/
theorem access_paths_differ :
    ¬ PathsAgree (sramBoard true) (readWord 0x40001FFE) ∧
      ¬ PathsAgree (sramBoard false) (readWord 0x40001000) ∧
      ((sramBoard false).getDirectMemPtr 0x40001000 4).map
        (fun d => (d.startAddress, d.endAddress, d.address)) =
          some (0x40000000, 0x40002000, 0x1000) := by
  refine ⟨fun agree => ?_, fun agree => ?_, rfl⟩
  · have decoded : (sramBoard true).getPort 0x40001FFE =
        some ⟨.sram, ⟨1, 0x2000, true, fun _ => 0⟩, 0x1FFE, 0x2000⟩ := rfl
    obtain ⟨-, -, refused⟩ := agree.border _ decoded (by decide)
    apply refused
    intro result done
    cases done
    rfl
  · obtain ⟨d, granted⟩ : ∃ d, (sramBoard false).getDirectMemPtr 0x40001000 4 = some d := ⟨_, rfl⟩
    have changed := (agree.direct d granted).unchanged
    cases granted
    exact absurd changed (by decide)

end Socrocket.Memory
