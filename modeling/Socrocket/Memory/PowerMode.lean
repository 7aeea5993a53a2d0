/- Socrocket/Memory/PowerMode
   digest: The power modes of the SDRAM: what a write to MCFG4 erases, and the time in each mode. -/

import Mathlib.Logic.Function.Basic
import Socrocket.Core.RegisterFields
import Socrocket.Memory.Storage

set_option autoImplicit false
set_option relaxedAutoImplicit false

namespace Socrocket.Memory

open Socrocket.Base
open Socrocket.Base.Run
open Socrocket.Base.UnorderedMap
open Socrocket.Core

/-! ## The memory -/

/-- The bytes of an SDRAM, in a hash map or in an array. -/
inductive SdramBytes where
  | map (s : MapStorage) (unique : UniqueKeys s.data)
  | array (data : ByteMemory.Memory 32)

/-- An SDRAM whose banks fit in the address space. -/
structure Sdram where
  banks : BitVec 32
  bsize : BitVec 32
  fits : banks.toNat * bsize.toNat < 2 ^ 32
  bytes : SdramBytes

namespace Sdram

variable (o : Arrangement (BitVec 32) (BitVec 8)) (d : Sdram)

/-- `MEMDevice::get_size`, the length of an array. -/
def size : BitVec 32 := d.bsize * if d.banks < 5 then d.banks else 8

/-- The size with which the controller erases. -/
def dsize : BitVec 32 := d.banks * d.bsize

def read (a : BitVec 32) : BitVec 8 :=
  match d.bytes with
  | .map s _ => s.read a
  | .array data => data a

/-- `Memory::b_transport` with the erase extension. No result is an erase that never ends, or one behind
the end of an array. -/
def erase (start stop : BitVec 32) : Option Sdram :=
  if stop < start then some d
  else
    match d.bytes with
    | .map s unique =>
      match erased : s.erase o start stop with
      | some s' => some { d with bytes := .map s' (MapStorage.unique_erase unique erased) }
      | none => none
    | .array data =>
      (ArrayStorage.erase ⟨data, d.size.toNat⟩ start stop).map fun s =>
      { d with bytes := .array s.data }

end Sdram

/-! ## The controller -/

inductive PowerMode where
  | powerDown
  | selfRefresh
  | deepPowerDown
  deriving DecidableEq

/-- The codes of the modes in `PMODE` and `m_pmode`. -/
def powerMode (code : ℕ) : Option PowerMode :=
  if code = 1 then some .powerDown
  else if code = 2 then some .selfRefresh
  else if code = 5 then some .deepPowerDown
  else none

def pmodeCode : Option PowerMode → BitVec 8
  | none => 0
  | some .powerDown => 1
  | some .selfRefresh => 2
  | some .deepPowerDown => 5

/-- The mode that MCFG4 selects. -/
def selected (mcfg4 : BitVec 32) : Option PowerMode := powerMode (mcfg4 >>> 16 &&& 7).toNat

/-- `MCFG4_PASR`. -/
def pasr (mcfg4 : BitVec 32) : BitVec 32 := mcfg4 &&& 7

/-- The first byte that a partial self-refresh erases. -/
def pasrStart (pasr dsize : BitVec 32) : BitVec 32 :=
  if pasr = 1 then dsize / 2
  else if pasr = 2 then dsize / 4
  else if pasr = 5 then dsize / 8
  else if pasr = 6 then dsize / 16
  else 0

/-- The controller as far as power modes go: `m_pmode`, and for each mode the total time and the time of
the last switch to it. The last two fields are the history: whether MCFG4 was written, and the time for
which each mode has been selected. -/
structure PowerControl where
  mcfg4 : BitVec 32
  pmode : BitVec 8
  time : PowerMode → ℕ
  start : PowerMode → ℕ
  sdram : Option Sdram
  now : ℕ
  switched : Bool
  spent : PowerMode → ℕ

/-- A write to MCFG4 after some time, and transfers that leave other bytes in the SDRAM. -/
inductive PowerEvent where
  | write (elapsed : ℕ) (value : BitVec 32)
  | transfer (bytes : SdramBytes)

/-- Time that is added to a mode, if there is one. -/
def addTime (time : PowerMode → ℕ) (mode : Option PowerMode) (elapsed : PowerMode → ℕ) :
    PowerMode → ℕ :=
  match mode with
  | none => time
  | some m => Function.update time m (time m + elapsed m)

namespace PowerControl

/-- After reset. The constructor leaves `m_pmode` as it is. -/
def construct (mobile : Bool) (pmode : BitVec 8) (sdram : Option Sdram) : PowerControl where
  mcfg4 := (RegisterFields.mcfg4.write (if mobile then 0x80F00000 else 0x00F00000)).curVal
  pmode := pmode
  time _ := 0
  start _ := 0
  sdram := sdram
  now := 0
  switched := false
  spent _ := 0

variable (o : Arrangement (BitVec 32) (BitVec 8))

/-- Erase the SDRAM from an address on. Without an SDRAM this uses a null pointer. -/
def eraseSdram (s : PowerControl) (start : BitVec 32 → BitVec 32) : Option PowerControl :=
  s.sdram.bind fun d => (d.erase o (start d.dsize) d.dsize).map fun d => { s with sdram := some d }

/-- The switch over the old mode. -/
def leaveMode (s : PowerControl) : PowerControl :=
  { s with time := addTime s.time (powerMode s.pmode.toNat) fun m => s.now - s.start m }

/-- The switch over the new mode. -/
def enterMode (s : PowerControl) : Option PowerControl :=
  match selected s.mcfg4 with
  | none => some { s with pmode := 0 }
  | some .powerDown => some { s with
      pmode := 1
      start := Function.update s.start .powerDown s.now }
  | some .selfRefresh =>
    let s := { s with start := Function.update s.start .selfRefresh s.now }
    if pasr s.mcfg4 ≠ 0 then s.eraseSdram o (pasrStart (pasr s.mcfg4)) else some s
  | some .deepPowerDown =>
    (eraseSdram o { s with pmode := 5 } fun _ => 0).map fun s =>
      { s with start := Function.update s.start .deepPowerDown s.now }

def switchPowerMode (s : PowerControl) : Option PowerControl := s.leaveMode.enterMode o

/-- What a write to MCFG4 does before its callback, with the time until then. -/
def written (s : PowerControl) (elapsed : ℕ) (value : BitVec 32) : PowerControl :=
  { s with
    mcfg4 := (RegisterFields.mcfg4.busWrite value).curVal
    now := s.now + elapsed
    switched := true
    spent := addTime s.spent (selected s.mcfg4) fun _ => elapsed }

def step (s : PowerControl) : PowerEvent → Option PowerControl
  | .write elapsed value => (s.written elapsed value).switchPowerMode o
  | .transfer bytes => some { s with sdram := s.sdram.map fun d => { d with bytes := bytes } }

/-! ## What power modes are for -/

/-- After each write the mode is the selected one, and the times are those spent in the modes. -/
structure Accounts (s : PowerControl) : Prop where
  mode : s.switched = true → s.pmode = pmodeCode (selected s.mcfg4)
  times : s.time = s.spent

/-- The share of the SDRAM that stays refreshed, for the codes that are not reserved. -/
def pasrShare (pasr : BitVec 32) : Option ℕ :=
  if pasr = 0 then some 1
  else if pasr = 1 then some 2
  else if pasr = 2 then some 4
  else if pasr = 5 then some 8
  else if pasr = 6 then some 16
  else none

/-- A write erases what its mode does not refresh. -/
structure Erases (mcfg4 : BitVec 32) (d d' : Sdram) : Prop where
  deep : selected mcfg4 = some .deepPowerDown → ∀ a < d.dsize, d'.read a = 0
  partly : selected mcfg4 = some .selfRefresh → ∀ share, pasrShare (pasr mcfg4) = some share →
    ∀ a < d.dsize, d'.read a = if a.toNat < d.dsize.toNat / share then d.read a else 0

/-- A write does to the SDRAM, if there is one, what its mode asks for. -/
def ErasesRight (s : PowerControl) : PowerEvent → Prop
  | .write elapsed value => ∀ t d d', s.step o (.write elapsed value) = some t → s.sdram = some d →
      t.sdram = some d' → Erases (s.written elapsed value).mcfg4 d d'
  | .transfer _ => True

/-- No event of a run uses memory that is not there, each write erases what it should, and after each
the mode and the times are right. -/
def PowersRight (s : PowerControl) (events : List PowerEvent) : Prop :=
  ∃ t, run (step o) s events = some t ∧ Along (step o) (ErasesRight o) s events ∧
    ∀ before after u, events = before ++ after → run (step o) s before = some u → Accounts u

end PowerControl

/-- Erasing the whole SDRAM ends and reaches each of its bytes. -/
def Sdram.Erasable (o : Arrangement (BitVec 32) (BitVec 8)) (d : Sdram) : Prop :=
  match d.bytes with
  | .map s _ => (eraseRange (s.bracket o 0 d.dsize) 0 d.dsize).isSome ∧
      ∀ e ∈ s.data, e.2 ≠ 0 → e.1 < d.dsize → e ∈ spanned (s.bracket o 0 d.dsize) 0 d.dsize
  | .array _ => d.dsize ≤ d.size

/-- A write does not select self-refresh, and deep power-down only with an SDRAM that can be erased. -/
def PowerControl.Supported (o : Arrangement (BitVec 32) (BitVec 8)) (s : PowerControl) :
    PowerEvent → Prop
  | .write elapsed value =>
    selected (s.written elapsed value).mcfg4 ≠ some .selfRefresh ∧
      (selected (s.written elapsed value).mcfg4 = some .deepPowerDown →
        ∃ d, s.sdram = some d ∧ d.Erasable o)
  | .transfer _ => True

variable {o : Arrangement (BitVec 32) (BitVec 8)}

/-! ## Erasing -/

namespace Sdram

variable {d : Sdram}

theorem erase_all_iff : (∃ d', d.erase o 0 d.dsize = some d' ∧ ∀ a < d.dsize, d'.read a = 0) ↔
    d.Erasable o := by
  have order : ¬d.dsize < 0 := BitVec.not_lt_zero
  have low (a : BitVec 32) : (0 : BitVec 32) ≤ a := BitVec.le_def.mpr (Nat.zero_le _)
  unfold erase Erasable
  rw [if_neg order]
  cases held : d.bytes with
  | map s unique =>
    have clears : (∃ s', s.erase o 0 d.dsize = some s' ∧
        ∀ a, 0 ≤ a → a < d.dsize → s'.read a = 0) ↔ _ := MapStorage.erase_clears_iff unique
    simp only [low, true_implies] at clears
    dsimp only
    rw [← clears]
    constructor
    · rintro ⟨d', erased, zero⟩
      split at erased
      · rename_i s' removed
        obtain rfl := Option.some.inj erased
        exact ⟨s', removed, zero⟩
      · cases erased
    · rintro ⟨s', removed, zero⟩
      refine ⟨{ d with bytes := .map s' (MapStorage.unique_erase unique removed) }, ?_, zero⟩
      split
      · rename_i s'' removed'
        obtain rfl := Option.some.inj (removed'.symm.trans removed)
        rfl
      · rename_i failed
        rw [failed] at removed
        cases removed
  | array data =>
    have clears : (∃ s', ArrayStorage.erase ⟨data, d.size.toNat⟩ 0 d.dsize = some s' ∧
        ∀ a, 0 ≤ a → a < d.dsize → s'.data a = 0) ↔ _ := ArrayStorage.erase_clears_iff (low _)
    simp only [low, true_implies] at clears
    dsimp only
    rw [BitVec.le_def, ← clears]
    constructor
    · rintro ⟨d', erased, zero⟩
      obtain ⟨s', removed, rfl⟩ := Option.map_eq_some_iff.mp erased
      exact ⟨s', removed, zero⟩
    · rintro ⟨s', removed, zero⟩
      exact ⟨_, Option.map_eq_some_iff.mpr ⟨s', removed, rfl⟩, zero⟩

end Sdram

/-! ## Writes to MCFG4 -/

theorem powerMode_pmodeCode (mode : Option PowerMode) : powerMode (pmodeCode mode).toNat = mode := by
  cases mode with
  | none => rfl
  | some m => cases m <;> rfl

namespace PowerControl

variable {s t : PowerControl} {elapsed : ℕ} {value : BitVec 32} {event : PowerEvent}

/-- What the switch over the new mode leaves and records, whatever the mode is. -/
structure Entered (s t : PowerControl) : Prop where
  mcfg4 : t.mcfg4 = s.mcfg4
  now : t.now = s.now
  switched : t.switched = s.switched
  time : t.time = s.time
  spent : t.spent = s.spent
  pmode : t.pmode = if selected s.mcfg4 = some .selfRefresh then s.pmode
    else pmodeCode (selected s.mcfg4)
  start : ∀ m, selected s.mcfg4 = some m → t.start m = s.now

theorem eraseSdram_spec {start : BitVec 32 → BitVec 32} (done : s.eraseSdram o start = some t) :
    ∃ d d', s.sdram = some d ∧ d.erase o (start d.dsize) d.dsize = some d' ∧
      t = { s with sdram := some d' } := by
  obtain ⟨d, attached, found⟩ := Option.bind_eq_some_iff.mp done
  obtain ⟨d', erased, rfl⟩ := Option.map_eq_some_iff.mp found
  exact ⟨d, d', attached, erased, rfl⟩

theorem entered_of_enterMode (entered : s.enterMode o = some t) : Entered s t := by
  unfold enterMode at entered
  cases mode : selected s.mcfg4 with
  | none =>
    simp only [mode] at entered
    obtain rfl := Option.some.inj entered
    exact ⟨rfl, rfl, rfl, rfl, rfl, by rw [mode]; rfl, fun m same => by rw [mode] at same; cases same⟩
  | some m =>
    have own (start : PowerMode → ℕ) : ∀ m', selected s.mcfg4 = some m' →
        Function.update start m s.now m' = s.now := by
      intro m' same
      obtain rfl := Option.some.inj (mode.symm.trans same)
      exact Function.update_self ..
    cases m with
    | powerDown =>
      simp only [mode] at entered
      obtain rfl := Option.some.inj entered
      exact ⟨rfl, rfl, rfl, rfl, rfl, by rw [mode]; rfl, own _⟩
    | selfRefresh =>
      simp only [mode] at entered
      by_cases partly : pasr s.mcfg4 ≠ 0
      · rw [if_pos partly] at entered
        obtain ⟨d, d', -, -, rfl⟩ := eraseSdram_spec entered
        exact ⟨rfl, rfl, rfl, rfl, rfl, by rw [mode]; rfl, own _⟩
      · rw [if_neg partly] at entered
        obtain rfl := Option.some.inj entered
        exact ⟨rfl, rfl, rfl, rfl, rfl, by rw [mode]; rfl, own _⟩
    | deepPowerDown =>
      simp only [mode] at entered
      obtain ⟨u, erased, rfl⟩ := Option.map_eq_some_iff.mp entered
      obtain ⟨d, d', -, -, rfl⟩ := eraseSdram_spec erased
      exact ⟨rfl, rfl, rfl, rfl, rfl, by rw [mode]; rfl, own _⟩

theorem enterMode_deep (deep : selected s.mcfg4 = some .deepPowerDown) :
    s.enterMode o = some t ↔ ∃ d d', s.sdram = some d ∧ d.erase o 0 d.dsize = some d' ∧
      t = { s with
        pmode := 5
        sdram := some d'
        start := Function.update s.start .deepPowerDown s.now } := by
  constructor
  · intro entered
    unfold enterMode at entered
    simp only [deep] at entered
    obtain ⟨u, erased, rfl⟩ := Option.map_eq_some_iff.mp entered
    obtain ⟨d, d', attached, done, rfl⟩ := eraseSdram_spec erased
    exact ⟨d, d', attached, done, rfl⟩
  · rintro ⟨d, d', attached, done, rfl⟩
    unfold enterMode
    simp only [deep, eraseSdram, attached, Option.bind_some, done, Option.map_some]

theorem enterMode_exists (plain : selected s.mcfg4 = none ∨ selected s.mcfg4 = some .powerDown) :
    ∃ t, s.enterMode o = some t := by
  unfold enterMode
  obtain mode | mode := plain
  · simp only [mode]
    exact ⟨_, rfl⟩
  · simp only [mode]
    exact ⟨_, rfl⟩

/-- What a write leaves, whatever mode it selects. -/
structure Wrote (s : PowerControl) (elapsed : ℕ) (value : BitVec 32) (t : PowerControl) : Prop where
  mcfg4 : t.mcfg4 = (s.written elapsed value).mcfg4
  now : t.now = s.now + elapsed
  switched : t.switched = true
  time : t.time = addTime s.time (powerMode s.pmode.toNat) fun m => s.now + elapsed - s.start m
  spent : t.spent = addTime s.spent (selected s.mcfg4) fun _ => elapsed
  pmode : t.pmode = if selected t.mcfg4 = some .selfRefresh then s.pmode
    else pmodeCode (selected t.mcfg4)
  start : ∀ m, selected t.mcfg4 = some m → t.start m = t.now

theorem wrote_of_step (next : s.step o (.write elapsed value) = some t) :
    Wrote s elapsed value t := by
  have entered := entered_of_enterMode next
  have mcfg4 : t.mcfg4 = (s.written elapsed value).mcfg4 := entered.mcfg4
  refine ⟨mcfg4, entered.now, entered.switched, entered.time, entered.spent, ?_, fun m same => ?_⟩
  · rw [mcfg4]
    exact entered.pmode
  · rw [mcfg4] at same
    rw [entered.start m same, entered.now]

/-- A write that selects deep power-down erases the whole SDRAM. -/
theorem write_deep (deep : selected (s.written elapsed value).mcfg4 = some .deepPowerDown)
    (next : s.step o (.write elapsed value) = some t) :
    ∃ d d', s.sdram = some d ∧ d.erase o 0 d.dsize = some d' ∧ t.sdram = some d' := by
  have deep' : selected (s.written elapsed value).leaveMode.mcfg4 = some .deepPowerDown := deep
  obtain ⟨d, d', attached, erased, rfl⟩ := (enterMode_deep deep').mp next
  exact ⟨d, d', attached, erased, rfl⟩

theorem write_exists (supported : Supported o s (.write elapsed value)) :
    ∃ t, s.step o (.write elapsed value) = some t := by
  cases mode : selected (s.written elapsed value).mcfg4 with
  | none => exact enterMode_exists (.inl mode)
  | some m =>
    cases m with
    | powerDown => exact enterMode_exists (.inr mode)
    | selfRefresh => exact absurd mode supported.1
    | deepPowerDown =>
      obtain ⟨d, attached, erasable⟩ := supported.2 mode
      obtain ⟨d', erased, -⟩ := Sdram.erase_all_iff.mpr erasable
      have deep : selected (s.written elapsed value).leaveMode.mcfg4 = some .deepPowerDown := mode
      exact ⟨_, (enterMode_deep deep).mpr ⟨d, d', attached, erased, rfl⟩⟩

/-! ## Runs -/

/-- Only the uninitialised `m_pmode` could be the code of self-refresh, the reset value of MCFG4
selects no mode, and a mode that is recorded began with the last write. -/
structure Sound (s : PowerControl) : Prop where
  never : s.pmode ≠ pmodeCode (some .selfRefresh)
  fresh : s.switched = false → powerMode s.pmode.toNat = none ∧ selected s.mcfg4 = none
  since : s.pmode = pmodeCode (selected s.mcfg4) → ∀ m, selected s.mcfg4 = some m → s.start m = s.now

theorem pmodeCode_injective : Function.Injective pmodeCode := fun mode mode' same => by
  rw [← powerMode_pmodeCode mode, same, powerMode_pmodeCode]

theorem sound_step (sound : Sound s) (next : s.step o event = some t) : Sound t := by
  cases event with
  | transfer bytes =>
    obtain rfl := Option.some.inj next
    exact ⟨sound.never, sound.fresh, sound.since⟩
  | write elapsed value =>
    have wrote := wrote_of_step next
    refine ⟨?_, fun unswitched => ?_, fun _ => wrote.start⟩
    · rw [wrote.pmode]
      split_ifs with self
      · exact sound.never
      · exact fun same => self (pmodeCode_injective same)
    · rw [wrote.switched] at unswitched
      cases unswitched

theorem times_written (accounts : Accounts s) (sound : Sound s) :
    addTime s.time (powerMode s.pmode.toNat) (fun m => s.now + elapsed - s.start m) =
      addTime s.spent (selected s.mcfg4) fun _ => elapsed := by
  rw [accounts.times]
  cases switched : s.switched with
  | false =>
    rw [(sound.fresh switched).1, (sound.fresh switched).2]
    rfl
  | true =>
    have recorded := accounts.mode switched
    rw [recorded, powerMode_pmodeCode]
    cases old : selected s.mcfg4 with
    | none => rfl
    | some m =>
      have since := sound.since recorded m old
      simp only [addTime, since, Nat.add_sub_cancel_left]

/-- An event exists, erases what it should and keeps the accounts exactly when it is supported. -/
theorem event_iff (accounts : Accounts s) (sound : Sound s) :
    (∃ t, s.step o event = some t ∧ ErasesRight o s event ∧ Accounts t) ↔ Supported o s event := by
  cases event with
  | transfer bytes =>
    exact iff_of_true ⟨_, rfl, trivial, accounts.mode, accounts.times⟩ trivial
  | write elapsed value =>
    constructor
    · rintro ⟨t, next, erases, accounts'⟩
      have wrote := wrote_of_step next
      refine ⟨fun self => ?_, fun deep => ?_⟩
      · rw [← wrote.mcfg4] at self
        have pmode := accounts'.mode wrote.switched
        rw [wrote.pmode, if_pos self, self] at pmode
        exact sound.never pmode
      · obtain ⟨d, d', attached, erased, there⟩ := write_deep deep next
        have zero := (erases t d d' next attached there).deep deep
        exact ⟨d, attached, Sdram.erase_all_iff.mp ⟨d', erased, zero⟩⟩
    · intro supported
      obtain ⟨t, next⟩ := write_exists supported
      have wrote := wrote_of_step next
      refine ⟨t, next, fun u d d' next' here there => ?_, fun _ => ?_, ?_⟩
      · refine ⟨fun deep => ?_, fun self => absurd self supported.1⟩
        obtain ⟨e, e', here', erased, there'⟩ := write_deep deep next'
        obtain rfl := Option.some.inj (here'.symm.trans here)
        obtain rfl := Option.some.inj (there'.symm.trans there)
        obtain ⟨d, here'', erasable⟩ := supported.2 deep
        obtain rfl := Option.some.inj (here''.symm.trans here)
        obtain ⟨e'', erased', zero⟩ := Sdram.erase_all_iff.mpr erasable
        rw [← Option.some.inj (erased'.symm.trans erased)]
        exact zero
      · have plain := supported.1
        rw [← wrote.mcfg4] at plain
        rw [wrote.pmode, if_neg plain]
      · rw [wrote.time, wrote.spent]
        exact times_written accounts sound

/-- When `m_pmode` begins as none of the codes of a mode, a run is right if and only if no write selects
self-refresh, and deep power-down is selected only with an SDRAM that can be erased. -/
theorem powers_right_iff (mobile : Bool) {pmode : BitVec 8} (none_first : powerMode pmode.toNat = none)
    (sdram : Option Sdram) (events : List PowerEvent) :
    PowersRight o (construct mobile pmode sdram) events ↔
      Along (step o) (Supported o) (construct mobile pmode sdram) events := by
  have accounts : Accounts (construct mobile pmode sdram) := ⟨Bool.noConfusion, rfl⟩
  have reset : selected (construct mobile pmode sdram).mcfg4 = none := by
    have codes : ∀ mobile : Bool, selected
        (RegisterFields.mcfg4.write (if mobile then 0x80F00000 else 0x00F00000)).curVal = none := by
      decide +kernel
    exact codes mobile
  have sound : Sound (construct mobile pmode sdram) := by
    refine ⟨fun same => ?_, fun _ => ⟨none_first, reset⟩, fun _ m same => ?_⟩
    · change pmode = _ at same
      rw [same, powerMode_pmodeCode] at none_first
      cases none_first
    · rw [reset] at same
      cases same
  exact exists_throughout_iff (fun s event accounts sound => event_iff accounts sound)
    (fun s event t _ sound next => sound_step sound next) accounts sound

/-- An SDRAM of two banks of four bytes, kept in an array. -/
def smallSdram : Sdram := ⟨2, 4, by decide, .array fun _ => 9⟩

/-- Power-down for five time units, then deep power-down. -/
def downTwice : List PowerEvent := [.write 3 0x00010000, .write 5 0x00050000]

theorem powers_right_down_twice :
    PowersRight appendOrder (construct true 0 (some smallSdram)) downTwice := by
  refine (powers_right_iff true rfl (some smallSdram) downTwice).mpr ?_
  refine ⟨⟨by decide, fun deep => absurd deep (by decide)⟩, fun s next => ?_⟩
  obtain rfl := Option.some.inj next
  have room : smallSdram.dsize ≤ smallSdram.size := by decide
  exact ⟨⟨by decide, fun _ => ⟨smallSdram, rfl, room⟩⟩, fun _ _ => trivial⟩

/-- Self-refresh is not recorded, and without an SDRAM deep power-down uses a null pointer. -/
theorem powers_wrong :
    (¬PowersRight appendOrder (construct true 0 (some smallSdram)) [.write 3 0x00020000] ∧
      ¬PowersRight appendOrder (construct true 0 none) [.write 3 0x00050000] ∧
      ¬PowersRight appendOrder (construct true 1 none) [.write 3 0x00000000]) ∧
    ¬∀ (o : Arrangement (BitVec 32) (BitVec 8)) (mobile : Bool) (pmode : BitVec 8)
      (sdram : Option Sdram) (events : List PowerEvent),
      PowersRight o (construct mobile pmode sdram) events := by
  have self : ¬PowersRight appendOrder (construct true 0 (some smallSdram))
      [.write 3 0x00020000] := by
    rintro ⟨t, reached, -, accounts⟩
    have mode := (accounts [.write 3 0x00020000] [] t rfl reached).mode
    obtain rfl := Option.some.inj reached
    exact absurd (mode rfl) (by decide)
  refine ⟨⟨self, ?_, ?_⟩, fun claim => self (claim _ _ _ _ _)⟩
  · rintro ⟨t, reached, -⟩
    cases reached
  · rintro ⟨t, reached, -, accounts⟩
    have times := (accounts [.write 3 0x00000000] [] t rfl reached).times
    obtain rfl := Option.some.inj reached
    exact absurd (congrFun times .powerDown) (by decide)

end PowerControl

end Socrocket.Memory
