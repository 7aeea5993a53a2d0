/- Socrocket/Memory/MctrlDecode
   digest: The areas of the memory controller, and when its decoding reaches the bytes of its memories. -/

import Mathlib.Data.List.Nodup
import Socrocket.Base.AddressMap
import Socrocket.Memory.MctrlPaths

set_option autoImplicit false
set_option relaxedAutoImplicit false

namespace Socrocket.Memory

open Socrocket.Base.AddressMap

/-! ## What is attached -/

/-- The bytes of a memory, which counts eight banks for five or more. -/
def Device.total (d : Device) : ℕ := d.bsize.toNat * if d.banks < 5 then d.banks.toNat else 8

/-- A memory of at most eight banks whose size fits in 32 bits. -/
structure Device.Fits (d : Device) : Prop where
  banks : d.banks.toNat ≤ 8
  total : d.total < 2 ^ 32

/-- The addresses in the area of a bar. -/
def Bar.span (b : Bar) : ℕ := (0x1000 - b.mask.toNat) * 2 ^ 20

/-- The end of the area of a bar. -/
def Bar.stop (b : Bar) : ℕ := b.addr.toNat + b.span

namespace Mctrl

variable (m : Mctrl)

/-- The area of a memory with a bar of its own. -/
def barAreas (type : DeviceType) (bar : Bar) : List (Area DeviceType) :=
  (m.device type).toList.map fun dev => ⟨type, bar.addr.toNat, bar.span, dev.total, bar.stop⟩

/-- The area of a memory behind the RAM bar. -/
def ramArea (type : DeviceType) (base size : ℕ) : Area DeviceType :=
  ⟨type, base, min size (m.ram.stop - base), size, max (base + size) m.ram.stop⟩

/-- The memories behind the RAM bar with their configured sizes: the SDRAM alone, the SRAM alone, or up
to four banks of SRAM and behind them up to two banks of SDRAM. -/
def ramAreas : List (Area DeviceType) :=
  let start := m.ram.addr.toNat
  if m.sdramEnabled then
    match m.device .sdram, m.device .sram with
    | none, _ => []
    | some sdram, none => [m.ramArea .sdram start (sdram.banks.toNat * sdram.bsize.toNat)]
    | some sdram, some sram =>
      if m.sramDisabled then [m.ramArea .sdram start (sdram.banks.toNat * sdram.bsize.toNat)]
      else
        let ssize := min sram.banks.toNat 4 * sram.bsize.toNat
        let dsize := min sdram.banks.toNat 2 * sdram.bsize.toNat
        [m.ramArea .sram start ssize, m.ramArea .sdram (start + ssize) dsize]
  else
    match m.device .sram with
    | none => []
    | some sram => [m.ramArea .sram start sram.total]

/-- All areas in the order in which they are decoded. -/
def areas : List (Area DeviceType) :=
  m.barAreas .rom m.rom ++ (m.barAreas .io m.io ++ m.ramAreas)

end Mctrl

/-- Decoding an address is right: no other address reaches the same byte, the position lies in the
memory, and an address that has a byte behind it reaches this byte. -/
structure DecodesRight (m : Mctrl) (a : BitVec 32) : Prop where
  apart : ∀ b p q, m.getPort a = some p → m.getPort b = some q → p.type = q.type → p.addr = q.addr →
    a = b
  inside : ∀ p, m.getPort a = some p → p.addr.toNat < p.dev.size.toNat
  reached : ∀ x, intended m.areas a.toNat = some x →
    ∃ p, m.getPort a = some p ∧ p.type = x.device ∧ p.addr.toNat = a.toNat - x.base

/-! ## Arithmetic of the bounds -/

theorem Device.size_toNat {d : Device} (fits : d.Fits) : d.size.toNat = d.total := by
  have total := fits.total
  unfold Device.total at total ⊢
  unfold Device.size
  split_ifs at total ⊢ <;> exact BitVec.toNat_mul_of_lt total

theorem Bar.addr_toNat (b : Bar) : b.addr.toNat = (b.base &&& b.mask).toNat * 2 ^ 20 := by
  have small := (b.base &&& b.mask).isLt
  rw [Bar.addr, BitVec.toNat_shiftLeft, BitVec.toNat_setWidth, Nat.shiftLeft_eq]
  omega

theorem Bar.stop_le (b : Bar) : b.stop ≤ 2 ^ 32 := by
  have masked : (b.base &&& b.mask).toNat ≤ b.mask.toNat := by
    rw [BitVec.toNat_and]
    exact Nat.and_le_right
  have small := b.mask.isLt
  rw [Bar.stop, Bar.addr_toNat, Bar.span]
  omega

theorem Bar.size_toNat (b : Bar) : b.size.toNat = b.span % 2 ^ 32 := by
  have small : b.mask.toNat < 4096 := b.mask.isLt
  rw [Bar.size, Bar.span, BitVec.toNat_shiftLeft, BitVec.toNat_add, BitVec.toNat_setWidth,
    BitVec.toNat_not, Nat.shiftLeft_eq]
  change ((4096 - 1 - b.mask.toNat) % 2 ^ 32 + 1) % 2 ^ 32 * 2 ^ 20 % 2 ^ 32 =
    (4096 - b.mask.toNat) * 2 ^ 20 % 2 ^ 32
  have pages : ((4096 - 1 - b.mask.toNat) % 2 ^ 32 + 1) % 2 ^ 32 = 4096 - b.mask.toNat := by omega
  rw [pages]

theorem Mctrl.atMost_toNat (limit n : BitVec 32) :
    (Mctrl.atMost limit n).toNat = min n.toNat limit.toNat := by
  unfold Mctrl.atMost
  split_ifs with below
  · rw [BitVec.lt_def] at below
    omega
  · rw [BitVec.lt_def] at below
    omega

theorem Mctrl.atMost_mul_toNat {d : Device} (fits : d.Fits) {limit : BitVec 32}
    (few : limit.toNat ≤ 4) : (Mctrl.atMost limit d.banks * d.bsize).toNat =
      min d.banks.toNat limit.toNat * d.bsize.toNat ∧
    min d.banks.toNat limit.toNat * d.bsize.toNat ≤ d.total := by
  have least : min d.banks.toNat limit.toNat ≤ if d.banks < 5 then d.banks.toNat else 8 := by
    split_ifs
    · exact min_le_left _ _
    · exact (min_le_right _ _).trans (few.trans (by decide))
  have bytes : min d.banks.toNat limit.toNat * d.bsize.toNat ≤ d.total := by
    rw [Device.total, Nat.mul_comm]
    exact Nat.mul_le_mul_left _ least
  refine ⟨?_, bytes⟩
  rw [BitVec.toNat_mul, atMost_toNat, Nat.mod_eq_of_lt (bytes.trans_lt fits.total)]

/-- A bound that wraps around lies below its start, and nothing is decoded. -/
theorem lt_add_iff {base size a : BitVec 32} (low : base ≤ a) :
    a < base + size ↔ a.toNat < base.toNat + size.toNat ∧ base.toNat + size.toNat < 2 ^ 32 := by
  have := a.isLt
  have := base.isLt
  have := size.isLt
  rw [BitVec.le_def] at low
  rw [BitVec.lt_def, BitVec.toNat_add]
  omega

theorem Mctrl.inside_iff {bar : Bar} {a : BitVec 32} :
    Mctrl.Inside bar a ↔ bar.addr.toNat ≤ a.toNat ∧ a.toNat < bar.stop ∧ bar.stop < 2 ^ 32 := by
  unfold Mctrl.Inside
  rw [← BitVec.le_def]
  refine and_congr_right fun low => ?_
  have ends := bar.stop_le
  rw [lt_add_iff low, bar.size_toNat]
  rw [BitVec.le_def] at low
  unfold Bar.stop at ends ⊢
  have := a.isLt
  omega

private theorem banks_mul_toNat {d : Device} (fits : d.Fits) :
    (d.banks * d.bsize).toNat = d.banks.toNat * d.bsize.toNat ∧
      d.banks.toNat * d.bsize.toNat ≤ d.total := by
  have least : d.banks.toNat ≤ if d.banks < 5 then d.banks.toNat else 8 := by
    split_ifs
    · exact le_rfl
    · exact fits.banks
  have bytes : d.banks.toNat * d.bsize.toNat ≤ d.total := by
    rw [Device.total, Nat.mul_comm]
    exact Nat.mul_le_mul_left _ least
  exact ⟨BitVec.toNat_mul_of_lt (bytes.trans_lt fits.total), bytes⟩

private theorem counted_toNat {d : Device} (fits : d.Fits) :
    (if d.banks < 5 then d.banks * d.bsize else 8 * d.bsize).toNat = d.total := by
  rw [← Device.size_toNat fits, Device.size]
  split_ifs
  · rw [BitVec.mul_comm]
  · rw [BitVec.mul_comm]

/-! ## Ports and areas -/

namespace Mctrl

variable {m : Mctrl} {a : BitVec 32} {port : Port}

/-- The byte that a port stands for. -/
def portByte (p : Port) : DeviceType × ℕ := (p.type, p.addr.toNat)

/-- The byte of an area at an address. -/
def areaByte (a : ℕ) (x : Area DeviceType) : DeviceType × ℕ := (x.device, a - x.base)

theorem areaPort_eq (type : DeviceType) (bar : Bar) :
    (m.areaPort type bar a).map portByte =
      (decode (2 ^ 32) (m.barAreas type bar) a.toNat).map (areaByte a.toNat) := by
  unfold areaPort barAreas
  cases m.device type with
  | none => rfl
  | some dev =>
    rw [Option.bind_some, Option.toList_some, List.map_singleton, decode_cons]
    have same : (Area.Covers ⟨type, bar.addr.toNat, bar.span, dev.total, bar.stop⟩ a.toNat ∧
        Area.Ends (2 ^ 32) ⟨type, bar.addr.toNat, bar.span, dev.total, bar.stop⟩) ↔ Inside bar a := by
      rw [inside_iff, ← and_assoc]
      rfl
    simp only [same]
    split_ifs with inside
    · have low : bar.addr ≤ a := inside.1
      simp [portByte, areaByte, BitVec.toNat_sub_of_le low]
    · rfl

theorem ramArea_taken_iff {type : DeviceType} {base size : ℕ} :
    ((m.ramArea type base size).Covers a.toNat ∧ (m.ramArea type base size).Ends (2 ^ 32)) ↔
      (base ≤ a.toNat ∧ a.toNat < base + size ∧ base + size < 2 ^ 32) ∧
        a.toNat < m.ram.stop ∧ m.ram.stop < 2 ^ 32 := by
  unfold Area.Covers Area.Ends ramArea
  dsimp only
  omega

theorem ramArea_holds_iff {type : DeviceType} {base size : ℕ} :
    (m.ramArea type base size).Holds a.toNat ↔
      base ≤ a.toNat ∧ a.toNat < base + size ∧ a.toNat < m.ram.stop := by
  unfold Area.Holds Area.Covers ramArea
  dsimp only
  omega

/-- A memory behind the RAM bar is attached and has the bytes of its area. -/
structure RamArea (m : Mctrl) (x : Area DeviceType) (type : DeviceType) (base size : ℕ) : Prop where
  area : x = m.ramArea type base size
  start : m.ram.addr.toNat ≤ base
  attached : ∃ dev, m.device type = some dev ∧ size ≤ dev.total

theorem mem_ramAreas (fits : ∀ type dev, m.device type = some dev → dev.Fits) {x : Area DeviceType}
    (member : x ∈ m.ramAreas) : ∃ type base size, RamArea m x type base size := by
  unfold ramAreas at member
  cases enabled : m.sdramEnabled with
  | false =>
    cases sram : m.device .sram with
    | none => simp [enabled, sram] at member
    | some dev =>
      simp only [enabled, sram, Bool.false_eq_true, if_false] at member
      exact ⟨_, _, _, List.mem_singleton.mp member, le_rfl, dev, sram, le_rfl⟩
  | true =>
    cases sdram : m.device .sdram with
    | none => simp [enabled, sdram] at member
    | some dev =>
      have alone := (banks_mul_toNat (fits _ _ sdram)).2
      cases sram : m.device .sram with
      | none =>
        simp only [enabled, sram, sdram, if_true] at member
        exact ⟨_, _, _, List.mem_singleton.mp member, le_rfl, dev, sdram, alone⟩
      | some rdev =>
        by_cases disabled : m.sramDisabled = true
        · simp only [enabled, sram, sdram, disabled, if_true] at member
          exact ⟨_, _, _, List.mem_singleton.mp member, le_rfl, dev, sdram, alone⟩
        · simp only [enabled, sram, sdram, if_true, if_neg disabled] at member
          have few : (4#32).toNat ≤ 4 := by decide
          have two : (2#32).toNat ≤ 4 := by decide
          obtain same | member := List.mem_cons.mp member
          · exact ⟨_, _, _, same, le_rfl, rdev, sram, (atMost_mul_toNat (fits _ _ sram) few).2⟩
          · exact ⟨_, _, _, List.mem_singleton.mp member, Nat.le_add_right _ _, dev, sdram,
              (atMost_mul_toNat (fits _ _ sdram) two).2⟩

private theorem alonePort_eq {type : DeviceType} {dev : Device} {size : BitVec 32} {n : ℕ}
    (inside : Inside m.ram a) (same : size.toNat = n) :
    (m.alonePort type dev size a).map portByte =
      (decode (2 ^ 32) [m.ramArea type m.ram.addr.toNat n] a.toNat).map (areaByte a.toNat) := by
  have low : m.ram.addr ≤ a := inside.1
  have bar := inside_iff.mp inside
  have taken : a < m.ram.addr + size ↔ (m.ramArea type m.ram.addr.toNat n).Covers a.toNat ∧
      (m.ramArea type m.ram.addr.toNat n).Ends (2 ^ 32) := by
    rw [lt_add_iff low, ramArea_taken_iff, same]
    exact ⟨fun below => ⟨⟨bar.1, below⟩, bar.2⟩, fun taken => taken.1.2⟩
  unfold alonePort
  rw [decode_cons]
  simp only [← taken]
  split_ifs
  · simp [portByte, areaByte, ramArea, BitVec.toNat_sub_of_le low]
  · rfl

/-- The SRAM has a byte for the address, but its end wraps around and the SDRAM may answer. -/
structure Misplaced (m : Mctrl) (a : BitVec 32) : Prop where
  passed : decode (2 ^ 32) m.ramAreas a.toNat = none
  held : ∃ x ∈ m.ramAreas, x.Holds a.toNat
  sram : ∀ x ∈ m.ramAreas, x.Holds a.toNat → x.device = .sram
  sdram : ∀ p, m.ramPort a = some p → p.type = .sdram

/-- SRAM and SDRAM share the RAM bar with these sizes. -/
structure BothRams (m : Mctrl) (sram sdram : Device) (ssize dsize : BitVec 32) : Prop where
  areas : m.ramAreas = [m.ramArea .sram m.ram.addr.toNat ssize.toNat,
    m.ramArea .sdram (m.ram.addr.toNat + ssize.toNat) dsize.toNat]
  port : ∀ a, m.ramPort a =
    if a < m.ram.addr + ssize then some ⟨.sram, sram, a - m.ram.addr, ssize⟩
    else if a < m.ram.addr + ssize + dsize then
      some ⟨.sdram, sdram, a - m.ram.addr - ssize, dsize⟩
    else none

private theorem bothRams {sram sdram : Device} (fits : sram.Fits ∧ sdram.Fits)
    (enabled : m.sdramEnabled = true) (kept : ¬m.sramDisabled = true)
    (attached : m.device .sram = some sram ∧ m.device .sdram = some sdram) :
    BothRams m sram sdram (atMost 4 sram.banks * sram.bsize) (atMost 2 sdram.banks * sdram.bsize) where
  areas := by
    have first : (atMost 4 sram.banks * sram.bsize).toNat =
        min sram.banks.toNat 4 * sram.bsize.toNat := (atMost_mul_toNat fits.1 (by decide)).1
    have second : (atMost 2 sdram.banks * sdram.bsize).toNat =
        min sdram.banks.toNat 2 * sdram.bsize.toNat := (atMost_mul_toNat fits.2 (by decide)).1
    rw [first, second]
    simp [ramAreas, enabled, kept, attached.1, attached.2]
  port a := by
    simp [ramPort, enabled, kept, attached.1, attached.2]

section Both

variable {sram sdram : Device} {ssize dsize : BitVec 32} (both : BothRams m sram sdram ssize dsize)
  (inside : Inside m.ram a)
include both inside

private theorem bothPorts_eq (room : m.ram.addr.toNat + ssize.toNat < 2 ^ 32) :
    (m.ramPort a).map portByte =
      (decode (2 ^ 32) m.ramAreas a.toNat).map (areaByte a.toNat) := by
  have low : m.ram.addr ≤ a := inside.1
  have bar := inside_iff.mp inside
  rw [both.port, both.areas, decode_cons, decode_cons]
  simp only [ramArea_taken_iff, lt_add_iff low]
  by_cases inSram : a.toNat < m.ram.addr.toNat + ssize.toNat
  · rw [if_pos ⟨inSram, room⟩, if_pos ⟨⟨bar.1, inSram, room⟩, bar.2⟩]
    simp [portByte, areaByte, ramArea, BitVec.toNat_sub_of_le low]
  · have start : (m.ram.addr + ssize).toNat = m.ram.addr.toNat + ssize.toNat :=
      BitVec.toNat_add_of_lt room
    have low' : m.ram.addr + ssize ≤ a := by
      rw [BitVec.le_def, start]
      omega
    rw [if_neg fun h => inSram h.1]
    simp only [lt_add_iff low', start]
    by_cases inSdram : a.toNat < m.ram.addr.toNat + ssize.toNat + dsize.toNat ∧
        m.ram.addr.toNat + ssize.toNat + dsize.toNat < 2 ^ 32
    · rw [if_pos inSdram, if_neg fun h => inSram h.1.2.1, if_pos ⟨⟨by omega, inSdram⟩, bar.2⟩]
      simp [portByte, areaByte, ramArea, BitVec.sub_sub, BitVec.toNat_sub_of_le low', start]
    · rw [if_neg inSdram, if_neg fun h => inSram h.1.2.1, if_neg fun h => inSdram h.1.2]
      rfl

private theorem misplaced_of_wrap (wraps : ¬m.ram.addr.toNat + ssize.toNat < 2 ^ 32) :
    Misplaced m a := by
  have low : m.ram.addr ≤ a := inside.1
  have bar := inside_iff.mp inside
  have bound := a.isLt
  refine ⟨?_, ?_, ?_, ?_⟩
  · rw [both.areas, decode_cons, decode_cons]
    simp only [ramArea_taken_iff]
    rw [if_neg fun h => wraps h.1.2.2, if_neg fun h => by omega]
    rfl
  · rw [both.areas]
    exact ⟨_, List.mem_cons_self .., ramArea_holds_iff.mpr ⟨bar.1, by omega, bar.2.1⟩⟩
  · rw [both.areas]
    intro x member holds
    obtain rfl | last := List.mem_cons.mp member
    · rfl
    · obtain rfl := List.mem_singleton.mp last
      have behind := (ramArea_holds_iff.mp holds).1
      omega
  · intro p found
    rw [both.port, if_neg fun h => wraps ((lt_add_iff low).mp h).2,
      Option.ite_none_right_eq_some] at found
    rw [← Option.some.inj found.2]

end Both

private theorem ramPort_eq (fits : ∀ type dev, m.device type = some dev → dev.Fits) :
    (if Inside m.ram a then m.ramPort a else none).map portByte =
      (decode (2 ^ 32) m.ramAreas a.toNat).map (areaByte a.toNat) ∨
    (Inside m.ram a ∧ Misplaced m a) := by
  by_cases inside : Inside m.ram a
  · rw [if_pos inside, and_iff_right inside]
    cases enabled : m.sdramEnabled with
    | false =>
      refine .inl ?_
      unfold ramPort ramAreas
      cases sram : m.device .sram with
      | none => simp [enabled, decode]
      | some dev =>
        simp only [enabled, Bool.false_eq_true, if_false]
        exact alonePort_eq inside (counted_toNat (fits _ _ sram))
    | true =>
      cases sdram : m.device .sdram with
      | none => exact .inl (by simp [ramPort, ramAreas, enabled, sdram, decode])
      | some dev =>
        have alone := banks_mul_toNat (fits _ _ sdram)
        cases sram : m.device .sram with
        | none =>
          refine .inl ?_
          unfold ramPort ramAreas
          simp only [enabled, sram, sdram, if_true]
          exact alonePort_eq inside alone.1
        | some rdev =>
          by_cases disabled : m.sramDisabled = true
          · refine .inl ?_
            unfold ramPort ramAreas
            simp only [enabled, sram, sdram, disabled, if_true]
            exact alonePort_eq inside alone.1
          · have both := bothRams ⟨fits _ _ sram, fits _ _ sdram⟩ enabled disabled ⟨sram, sdram⟩
            by_cases room : m.ram.addr.toNat + (atMost 4 rdev.banks * rdev.bsize).toNat < 2 ^ 32
            · exact .inl (bothPorts_eq both inside room)
            · exact .inr (misplaced_of_wrap both inside room)
  · refine .inl ?_
    rw [if_neg inside]
    cases found : decode (2 ^ 32) m.ramAreas a.toNat with
    | none => rfl
    | some x =>
      obtain ⟨member, taken⟩ := decode_spec found
      obtain ⟨type, base, size, rfl, start, -⟩ := mem_ramAreas fits member
      obtain ⟨part, bar⟩ := ramArea_taken_iff.mp taken
      exact absurd (inside_iff.mpr ⟨start.trans part.1, bar⟩) inside

private theorem devices_ramAreas : (m.ramAreas.map Area.device).Sublist [.sram, .sdram] := by
  unfold ramAreas
  cases m.sdramEnabled with
  | false =>
    cases m.device .sram with
    | none => exact List.nil_sublist _
    | some dev => exact (List.nil_sublist _).cons_cons _
  | true =>
    cases m.device .sdram with
    | none => exact List.nil_sublist _
    | some dev =>
      cases m.device .sram with
      | none => exact ((List.Sublist.refl [DeviceType.sdram]).cons _)
      | some rdev =>
        by_cases disabled : m.sramDisabled = true
        · simp only [disabled, if_true]
          exact ((List.Sublist.refl [DeviceType.sdram]).cons _)
        · simp only [disabled, if_true]
          exact List.Sublist.refl _

private theorem devices_barAreas (type : DeviceType) (bar : Bar) :
    ((m.barAreas type bar).map Area.device).Sublist [type] := by
  unfold barAreas
  cases m.device type with
  | none => exact List.nil_sublist _
  | some dev => exact List.Sublist.refl _

theorem devices_nodup (m : Mctrl) : (m.areas.map Area.device).Nodup := by
  have all : (m.areas.map Area.device).Sublist ([.rom] ++ ([.io] ++ [.sram, .sdram])) := by
    rw [areas, List.map_append, List.map_append]
    exact (devices_barAreas _ _).append ((devices_barAreas _ _).append devices_ramAreas)
  exact List.Nodup.sublist all (by decide)

theorem mem_areas (fits : ∀ type dev, m.device type = some dev → dev.Fits) {x : Area DeviceType}
    (member : x ∈ m.areas) : ∃ dev, m.device x.device = some dev ∧ x.size ≤ dev.total ∧
      (x.Covers a.toNat → a.toNat - x.base < dev.total → x.Holds a.toNat) := by
  have barred {type : DeviceType} {bar : Bar} (member : x ∈ m.barAreas type bar) :
      ∃ dev, m.device x.device = some dev ∧ x.size ≤ dev.total ∧
        (x.Covers a.toNat → a.toNat - x.base < dev.total → x.Holds a.toNat) := by
    obtain ⟨dev, attached, rfl⟩ := List.mem_map.mp member
    exact ⟨dev, Option.mem_toList.mp attached, le_rfl, fun covers short => ⟨covers, short⟩⟩
  rw [areas, List.mem_append, List.mem_append] at member
  obtain rom | io | ram := member
  · exact barred rom
  · exact barred io
  · obtain ⟨type, base, size, rfl, -, dev, attached, bytes⟩ := mem_ramAreas fits ram
    refine ⟨dev, attached, bytes, fun covers _ => ⟨covers, ?_⟩⟩
    unfold Area.Covers ramArea at covers
    unfold ramArea
    dsimp only at covers ⊢
    omega

theorem getPort_eq (fits : ∀ type dev, m.device type = some dev → dev.Fits) :
    (m.getPort a).map portByte = (decode (2 ^ 32) m.areas a.toNat).map (areaByte a.toNat) ∨
      decode (2 ^ 32) m.areas a.toNat = none ∧ Misplaced m a ∧
        ∀ p, m.getPort a = some p → p.type = .sdram := by
  unfold getPort areas
  rw [decode_append, decode_append, Option.map_or, Option.map_or, Option.map_or, Option.map_or,
    areaPort_eq, areaPort_eq]
  cases rom : decode (2 ^ 32) (m.barAreas .rom m.rom) a.toNat with
  | some x => exact .inl (by rw [Option.map_some, Option.some_or, Option.some_or])
  | none =>
    cases io : decode (2 ^ 32) (m.barAreas .io m.io) a.toNat with
    | some x => exact .inl (by rw [Option.map_some, Option.some_or, Option.some_or])
    | none =>
      simp only [Option.map_none, Option.none_or]
      have noRom : m.areaPort .rom m.rom a = none := by
        rw [← Option.map_eq_none_iff (f := portByte), areaPort_eq, rom, Option.map_none]
      have noIo : m.areaPort .io m.io a = none := by
        rw [← Option.map_eq_none_iff (f := portByte), areaPort_eq, io, Option.map_none]
      obtain same | ⟨inside, misplaced⟩ := ramPort_eq fits (a := a)
      · exact .inl same
      · refine .inr ⟨misplaced.passed, misplaced, fun p found => misplaced.sdram p ?_⟩
        simpa only [noRom, noIo, Option.none_or, if_pos inside] using found

theorem ramAreas_sub {x : Area DeviceType} (member : x ∈ m.ramAreas) : x ∈ m.areas :=
  List.mem_append_right _ (List.mem_append_right _ member)

theorem mem_ramAreas_of_sdram {x : Area DeviceType} (member : x ∈ m.areas)
    (sdram : x.device = .sdram) : x ∈ m.ramAreas := by
  rw [areas, List.mem_append, List.mem_append] at member
  obtain rom | io | ram := member
  · obtain ⟨dev, -, rfl⟩ := List.mem_map.mp rom
    cases sdram
  · obtain ⟨dev, -, rfl⟩ := List.mem_map.mp io
    cases sdram
  · exact ram

/-- Two addresses never reach the same byte. -/
theorem getPort_injective {b : BitVec 32} {p q : Port} (found : m.getPort a = some p)
    (found' : m.getPort b = some q) (type : p.type = q.type) (addr : p.addr = q.addr) : a = b := by
  have counts := (getPort_counts found).addr
  have counts' := (getPort_counts found').addr
  rw [← type, ← addr, counts] at counts'
  exact sub_left_inj.mp counts'

end Mctrl

open Mctrl

variable {m : Mctrl} {a : BitVec 32}

private theorem intended_of_port (fits : ∀ type dev, m.device type = some dev → dev.Fits) {p : Port}
    {y : Area DeviceType} (found : m.getPort a = some p)
    (decoded : decode (2 ^ 32) m.areas a.toNat = some y) (same : areaByte a.toNat y = portByte p)
    (inside : p.addr.toNat < p.dev.size.toNat) : (intended m.areas a.toNat).isSome := by
  obtain ⟨member, covers, -⟩ := decode_spec decoded
  obtain ⟨type, addr⟩ := Prod.mk.inj same
  obtain ⟨dev, attached, -, holds⟩ := mem_areas fits member (a := a)
  have own : p.dev = dev := by
    have here := (getPort_counts found).attached
    rw [← type, attached] at here
    exact (Option.some.inj here).symm
  rw [own, Device.size_toNat (fits _ _ attached), ← addr] at inside
  exact intended_isSome member (holds covers inside)

/-- Decoding an address is right if and only if its areas are clear: up to the first area with a
byte for the address, which ends below `2 ^ 32`, every area around the address ends at `2 ^ 32` or
later. -/
theorem decodes_right_iff (m : Mctrl) (fits : ∀ type dev, m.device type = some dev → dev.Fits)
    (a : BitVec 32) : DecodesRight m a ↔ Clear (2 ^ 32) a.toNat m.areas := by
  rw [← decode_eq_intended_iff]
  constructor
  · intro right
    obtain same | ⟨-, misplaced, sdram⟩ := getPort_eq fits (a := a)
    · cases wanted : intended m.areas a.toNat with
      | some x =>
        obtain ⟨p, found, type, addr⟩ := right.reached x wanted
        rw [found, Option.map_some] at same
        obtain ⟨y, decoded, byte⟩ := Option.map_eq_some_iff.mp same.symm
        have device : y.device = x.device := (Prod.mk.inj byte).1.trans type
        rw [decoded, List.inj_on_of_nodup_map (devices_nodup m) (decode_spec decoded).1
          (intended_spec wanted).1 device]
      | none =>
        cases found : m.getPort a with
        | none =>
          rw [found, Option.map_none] at same
          exact Option.map_eq_none_iff.mp same.symm
        | some p =>
          rw [found, Option.map_some] at same
          obtain ⟨y, decoded, byte⟩ := Option.map_eq_some_iff.mp same.symm
          have held := intended_of_port fits found decoded byte (right.inside p found)
          rw [wanted] at held
          cases held
    · obtain ⟨x, member, holds⟩ := misplaced.held
      obtain ⟨y, wanted⟩ :=
        Option.isSome_iff_exists.mp (intended_isSome (ramAreas_sub member) holds)
      obtain ⟨p, found, type, -⟩ := right.reached y wanted
      obtain ⟨member', holds'⟩ := intended_spec wanted
      have behind := mem_ramAreas_of_sdram member' (type.symm.trans (sdram p found))
      have sram := misplaced.sram y behind holds'
      rw [← type, sdram p found] at sram
      cases sram
  · intro clear
    obtain same | ⟨none_left, misplaced, -⟩ := getPort_eq fits (a := a)
    · rw [clear] at same
      refine ⟨fun b p q => getPort_injective, fun p found => ?_, fun x wanted => ?_⟩
      · rw [found, Option.map_some] at same
        obtain ⟨x, wanted, byte⟩ := Option.map_eq_some_iff.mp same.symm
        obtain ⟨type, addr⟩ := Prod.mk.inj byte
        obtain ⟨member, holds⟩ := intended_spec wanted
        obtain ⟨dev, attached, bytes, -⟩ := mem_areas fits member (a := a)
        have here := (getPort_counts found).attached
        rw [← type, attached] at here
        rw [← Option.some.inj here, Device.size_toNat (fits _ _ attached), ← addr]
        exact holds.2.trans_le bytes
      · rw [wanted, Option.map_some] at same
        obtain ⟨p, found, byte⟩ := Option.map_eq_some_iff.mp same
        obtain ⟨type, addr⟩ := Prod.mk.inj byte
        exact ⟨p, found, type, addr⟩
    · obtain ⟨x, member, holds⟩ := misplaced.held
      have held := intended_isSome (ramAreas_sub member) holds
      rw [← clear, none_left] at held
      cases held

theorem decodes_right_sram : DecodesRight (sramBoard true) 0x40001FFF := by
  have fits : ∀ type dev, (sramBoard true).device type = some dev → dev.Fits := by
    intro type dev attached
    cases type <;> cases attached
    exact ⟨by decide, by decide⟩
  exact (decodes_right_iff (sramBoard true) fits 0x40001FFF).mpr (by decide +kernel)

/-- The SRAM in an area that ends at the end of the address space. -/
def topBoard : Mctrl := { sramBoard true with ram := ⟨0xC00, 0xC00⟩ }

/-- A PROM of 4 kB in an area of 512 MB. -/
def smallPromBoard : Mctrl :=
  { sramBoard true with device := fun type =>
      if type = .rom then some ⟨1, 0x1000, true, fun _ => 0⟩ else none }

/-- The bytes of the SRAM are not reached, and addresses behind the PROM reach no byte of it. -/
theorem decodes_wrong :
    (¬DecodesRight topBoard 0xC0000000 ∧ ¬DecodesRight smallPromBoard 0x1000) ∧
      ¬∀ m : Mctrl, (∀ type dev, m.device type = some dev → dev.Fits) → ∀ a, DecodesRight m a := by
  have top : ¬DecodesRight topBoard 0xC0000000 := by
    intro right
    obtain ⟨p, found, -⟩ := right.reached _ (by rfl)
    have nothing : topBoard.getPort 0xC0000000 = none := rfl
    rw [nothing] at found
    cases found
  have small : ¬DecodesRight smallPromBoard 0x1000 := by
    intro right
    have inside := right.inside ⟨.rom, ⟨1, 0x1000, true, fun _ => 0⟩, 0x1000, 0x20000000⟩ rfl
    exact absurd inside (by decide)
  refine ⟨⟨top, small⟩, fun claim => top (claim topBoard ?_ _)⟩
  intro type dev attached
  cases type <;> cases attached
  exact ⟨by decide, by decide⟩

end Socrocket.Memory
