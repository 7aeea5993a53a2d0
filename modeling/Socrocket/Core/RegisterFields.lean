/- Socrocket/Core/RegisterFields
   digest: Registers with bit fields, the mask their elaboration derives and what an access leaves. -/

import Socrocket.Base.Run
import Socrocket.Core.SrRegister

set_option autoImplicit false
set_option relaxedAutoImplicit false

namespace Socrocket.Core.RegisterFields

open Socrocket.Base.Run

variable {w : ℕ} {α : Type} [DecidableEq α]

/-! ## Fields and their mask -/

/-- A named range of bits. The assertion of `gen_mask` is kept as the two bounds. -/
structure Field (w : ℕ) where
  highPos : ℕ
  lowPos : ℕ
  ordered : lowPos ≤ highPos
  inside : highPos < w

/-- The bits a field names. -/
def Field.Covers (f : Field w) (i : ℕ) : Prop := f.lowPos ≤ i ∧ i ≤ f.highPos

instance (f : Field w) (i : ℕ) : Decidable (f.Covers i) := inferInstanceAs (Decidable (_ ∧ _))

/-- The loop of `gen_mask`: shift a one in from below, `width` times. -/
def genMask : ℕ → BitVec w → BitVec w
  | 0, fmask => fmask
  | width + 1, fmask => genMask width (fmask <<< 1 ||| 1)

def Field.getMask (f : Field w) : BitVec w := genMask (f.highPos - f.lowPos + 1) 0 <<< f.lowPos

private theorem getLsbD_shift_one (fmask : BitVec w) (i : ℕ) :
    (fmask <<< 1 ||| 1).getLsbD i =
      (decide (i < w) && (decide (i = 0) || fmask.getLsbD (i - 1))) := by
  have one : (1 : BitVec w).getLsbD i = (decide (i < w) && decide (i = 0)) := by
    rw [BitVec.ofNat_eq_ofNat, BitVec.getLsbD_one]
    cases i with
    | zero => simp
    | succ i => simp
  rw [BitVec.getLsbD_or, one, BitVec.getLsbD_shiftLeft]
  cases i with
  | zero => simp
  | succ i => simp

private theorem getLsbD_genMask (width : ℕ) (fmask : BitVec w) (i : ℕ) :
    (genMask width fmask).getLsbD i =
      (decide (i < w) && (decide (i < width) || fmask.getLsbD (i - width))) := by
  induction width generalizing fmask with
  | zero =>
    by_cases inside : i < w
    · simp [genMask, inside]
    · simp [genMask, BitVec.getLsbD_of_ge fmask i (by omega)]
  | succ width ih =>
    rw [genMask, ih, getLsbD_shift_one]
    rcases Nat.lt_trichotomy i width with lt | eq | gt
    · simp [lt, Nat.lt_succ_of_lt lt]
    · simp [eq]
      omega
    · have above : ¬ i < width + 1 := by omega
      have reach : i - width - 1 = i - (width + 1) := by omega
      have nonzero : i - width ≠ 0 := by omega
      by_cases inside : i < w
      · have : i - width < w := by omega
        simp [above, nonzero, inside, this, reach, Nat.not_lt_of_lt gt]
      · simp [inside]

theorem getLsbD_getMask (f : Field w) (i : ℕ) : f.getMask.getLsbD i = decide (f.Covers i) := by
  have ordered := f.ordered
  have inside := f.inside
  have covers : f.Covers i ↔ (i < w ∧ ¬ i < f.lowPos) ∧ i - f.lowPos < w ∧
      i - f.lowPos < f.highPos - f.lowPos + 1 := by
    rw [Field.Covers]
    omega
  rw [Field.getMask, BitVec.getLsbD_shiftLeft, getLsbD_genMask]
  simp only [covers, Bool.decide_and, decide_not, BitVec.ofNat_eq_ofNat, BitVec.getLsbD_zero,
    Bool.or_false]

/-! ## Creation and elaboration of a register -/

/-- A register as `create_register` and `create_field` declare it. -/
structure Declared (w : ℕ) where
  resetVal : BitVec w
  writeMask : BitVec w
  fields : List (Field w)

def createRegister (initVal writeMask : BitVec w) : Declared w := ⟨initVal, writeMask, []⟩

/-- Attach a field. A range outside the register fails the assertion of `gen_mask`. -/
def Declared.createField (d : Declared w) (start stop : ℕ) : Option (Declared w) :=
  if h : stop ≤ start ∧ start < w then
    some { d with fields := d.fields ++ [⟨start, stop, h.1, h.2⟩] }
  else none

/-- A register in simulation: `mask` is derived from the fields, `curVal` is what it holds. -/
structure Register (w : ℕ) where
  declared : Declared w
  mask : BitVec w
  curVal : BitVec w

/-- Insert before the first field that lies lower. An overlap with that one fails an assertion. -/
def insertField (f : Field w) : List (Field w) → Option (List (Field w))
  | [] => some [f]
  | g :: gs =>
    if f.highPos > g.highPos then
      if f.lowPos > g.highPos then some (f :: g :: gs) else none
    else (insertField f gs).map (g :: ·)

/-- The loop that sorts the fields by their position, highest first. -/
def sortFields : List (Field w) → List (Field w) → Option (List (Field w))
  | [], sorted => some sorted
  | f :: fs, sorted => (insertField f sorted).bind fun sorted' => sortFields fs sorted'

/-- The bits of all fields together, or every bit of a register without fields. -/
def maskOf (fields : List (Field w)) : BitVec w :=
  if fields.length > 0 then fields.foldl (fun mask f => mask ||| f.getMask) 0 else BitVec.allOnes w

/-- Mask the value so only bits allocated to fields are set. -/
def Register.write (r : Register w) (v : BitVec w) : Register w := { r with curVal := v &&& r.mask }

/-- Elaboration: sort the fields, derive the mask, write the reset value. -/
def Declared.checkAndInit (d : Declared w) : Option (Register w) :=
  (sortFields d.fields []).map fun sorted =>
    (Register.mk d (maskOf sorted) 0).write d.resetVal

theorem insertField_perm {f : Field w} {gs gs' : List (Field w)} (h : insertField f gs = some gs') :
    gs'.Perm (f :: gs) := by
  induction gs generalizing gs' with
  | nil =>
    cases h
    exact List.Perm.refl _
  | cons g gs ih =>
    rw [insertField] at h
    split at h
    · split at h
      · cases h
        exact List.Perm.refl _
      · cases h
    · obtain ⟨rest, inserted, rfl⟩ := Option.map_eq_some_iff.mp h
      exact ((ih inserted).cons g).trans (List.Perm.swap f g gs)

theorem sortFields_perm {fs sorted result : List (Field w)} (h : sortFields fs sorted = some result) :
    result.Perm (fs ++ sorted) := by
  induction fs generalizing sorted with
  | nil =>
    cases h
    exact List.Perm.refl _
  | cons f fs ih =>
    obtain ⟨sorted', inserted, rest⟩ := Option.bind_eq_some_iff.mp h
    have placed : (fs ++ sorted').Perm (fs ++ f :: sorted) :=
      (insertField_perm inserted).append_left fs
    exact (ih rest).trans (placed.trans List.perm_middle)

private theorem getLsbD_foldMask (fields : List (Field w)) (mask : BitVec w) (i : ℕ) :
    (fields.foldl (fun mask f => mask ||| f.getMask) mask).getLsbD i =
      (mask.getLsbD i || decide (∃ f ∈ fields, f.Covers i)) := by
  induction fields generalizing mask with
  | nil => simp
  | cons f fs ih =>
    rw [List.foldl_cons, ih, BitVec.getLsbD_or, getLsbD_getMask, Bool.or_assoc]
    congr 1
    simp

/-- A bit that writes can set: every bit without fields, else the bits the fields name. -/
def Named (fields : List (Field w)) (i : ℕ) : Prop := fields = [] ∨ ∃ f ∈ fields, f.Covers i

instance (fields : List (Field w)) (i : ℕ) : Decidable (Named fields i) :=
  inferInstanceAs (Decidable (_ ∨ _))

/-- The derived mask has the bits the declared fields name. -/
theorem getLsbD_mask {d : Declared w} {r : Register w} (h : d.checkAndInit = some r) {i : ℕ}
    (hi : i < w) : r.mask.getLsbD i = decide (Named d.fields i) := by
  obtain ⟨sorted, sort, rfl⟩ := Option.map_eq_some_iff.mp h
  have same : ∀ f, f ∈ sorted ↔ f ∈ d.fields := by
    intro f
    rw [(sortFields_perm sort).mem_iff, List.append_nil]
  change (maskOf sorted).getLsbD i = _
  rw [maskOf]
  cases sorted with
  | nil =>
    have none : d.fields = [] := by
      rw [List.eq_nil_iff_forall_not_mem]
      intro f mem
      exact List.not_mem_nil ((same f).mpr mem)
    simp [Named, none, hi]
  | cons g gs =>
    have nonempty : d.fields ≠ [] := List.ne_nil_of_mem ((same g).mp (List.mem_cons_self ..))
    rw [if_pos (show (g :: gs).length > 0 from Nat.succ_pos _), getLsbD_foldMask]
    simp only [Named, nonempty, same, false_or]
    simp

/-! ## Accesses to a register bank -/

/-- A bus write between its two callbacks. -/
def Register.busWrite (r : Register w) (i : BitVec w) : Register w :=
  r.write (i &&& r.declared.writeMask)

/-- Write one bit. The shifts are done on a 32 bit `int`. -/
def Register.bit (r : Register w) (pos : ℕ) (value : Bool) : Register w :=
  r.write ((r.curVal &&& (~~~(1#32 <<< pos)).signExtend w) |||
    ((BitVec.ofBool value).setWidth 32 <<< pos).signExtend w)

@[simp] theorem Register.write_mask (r : Register w) (v : BitVec w) : (r.write v).mask = r.mask := rfl

@[simp] theorem Register.write_curVal (r : Register w) (v : BitVec w) :
    (r.write v).curVal = v &&& r.mask := rfl

/-- Write a value to the bits of a field. -/
def Register.maskWrite (r : Register w) (f : Field w) (v : BitVec w) : Register w :=
  r.write (v <<< f.lowPos &&& f.getMask ||| r.curVal &&& ~~~f.getMask)

/-- The registers by their address. -/
abbrev Bank (α : Type) (w : ℕ) := α → Option (Register w)

/-- What callbacks access stands in the sequence before and after the write they belong to. -/
inductive Access (α : Type) (w : ℕ) where
  | busRead (offset : α)
  | busWrite (offset : α) (val : BitVec w)
  | assign (offset : α) (val : BitVec w)
  | bit (offset : α) (pos : ℕ) (value : Bool)
  | fieldWrite (offset : α) (f : Field w) (v : BitVec w)
  | reset (offset : α)

def Access.offset : Access α w → α
  | .busRead offset | .busWrite offset _ | .assign offset _ | .bit offset _ _
  | .fieldWrite offset _ _ | .reset offset => offset

/-- What an access does to the register at its address. -/
def Access.apply (r : Register w) : Access α w → Register w
  | .busRead _ => r
  | .busWrite _ val => r.busWrite val
  | .assign _ val => r.write val
  | .bit _ pos value => r.bit pos value
  | .fieldWrite _ f v => r.maskWrite f v
  | .reset _ => r.write r.declared.resetVal

/-- The bus passes over an address without a register, `r[offset]` throws there. -/
def Access.missing : Access α w → Bool
  | .busRead _ | .busWrite _ _ => true
  | _ => false

def step (b : Bank α w) (x : Access α w) : Option (Bank α w) :=
  match b x.offset with
  | some r => some (Function.update b x.offset (some (x.apply r)))
  | none => if x.missing then some b else none

/-- The bank after elaboration. -/
def elaborate (declared : α → Option (Declared w)) : Bank α w :=
  fun offset => (declared offset).bind Declared.checkAndInit

/-- The parts of a register that elaboration settles. -/
def Register.shape (r : Register w) : Declared w × BitVec w := (r.declared, r.mask)

omit [DecidableEq α] in
private theorem shape_apply (r : Register w) (x : Access α w) : (x.apply r).shape = r.shape := by
  cases x <;> rfl

/-- An access leaves the shape of every register and the value of every other one. -/
theorem step_spec {b b' : Bank α w} {x : Access α w} (h : step b x = some b') (a : α) :
    (b' a).map Register.shape = (b a).map Register.shape ∧ (a ≠ x.offset → b' a = b a) ∧
      b' x.offset = (b x.offset).map x.apply := by
  rw [step] at h
  cases here : b x.offset with
  | none =>
    rw [here] at h
    dsimp only at h
    split at h
    · cases h
      exact ⟨rfl, fun _ => rfl, by rw [here, Option.map_none]⟩
    · cases h
  | some r =>
    rw [here] at h
    cases h
    refine ⟨?_, fun apart => Function.update_of_ne apart .., by simp⟩
    by_cases same : a = x.offset
    · subst a
      rw [Function.update_self, here, Option.map_some, Option.map_some, shape_apply]
    · rw [Function.update_of_ne same]

theorem run_shape {b b' : Bank α w} {xs : List (Access α w)} (h : run step b xs = some b') (a : α) :
    (b' a).map Register.shape = (b a).map Register.shape := by
  apply run_always (P := fun c => (c a).map Register.shape = (b a).map Register.shape) _ rfl h
  intro c x c' before next
  exact ((step_spec next a).1).trans before

/-! ## What an access leaves -/

/-- The access is accepted and the register at `a` holds `value` after it. -/
def Leaves (b : Bank α w) (x : Access α w) (a : α) (value : BitVec w) : Prop :=
  ∃ b' r, step b x = some b' ∧ b' a = some r ∧ r.curVal = value

private theorem leaves_iff {b : Bank α w} {x : Access α w} {r : Register w} {value : BitVec w}
    (h : b x.offset = some r) : Leaves b x x.offset value ↔ (x.apply r).curVal = value := by
  have taken : step b x = some (Function.update b x.offset (some (x.apply r))) := by
    rw [step, h]
  constructor
  · rintro ⟨b', r', next, here, holds⟩
    have settled := (step_spec next x.offset).2.2
    rw [here, h, Option.map_some, Option.some.injEq] at settled
    rwa [← settled]
  · intro holds
    exact ⟨_, _, taken, Function.update_self .., holds⟩

private theorem and_eq_self_iff (v mask : BitVec w) :
    v &&& mask = v ↔ ∀ i < w, v.getLsbD i = true → mask.getLsbD i = true := by
  constructor
  · intro same i _ set
    rw [← same, BitVec.getLsbD_and, Bool.and_eq_true] at set
    exact set.2
  · intro inside
    apply BitVec.eq_of_getLsbD_eq
    intro i hi
    rw [BitVec.getLsbD_and]
    cases set : v.getLsbD i with
    | false => rfl
    | true => rw [inside i hi set, Bool.and_true]

/-- After any accesses, a bus write leaves the written bits that are in the write mask and named by
a field, an assignment those that are named. They leave the whole value when all of it is named. -/
theorem access_leaves_named_bits (declared : α → Option (Declared w)) {xs : List (Access α w)}
    {b : Bank α w} (reached : run step (elaborate declared) xs = some b) {a : α} {d : Declared w}
    {r : Register w} (created : declared a = some d) (settled : d.checkAndInit = some r)
    (v : BitVec w) :
    Leaves b (.busWrite a v) a (v &&& d.writeMask &&& r.mask) ∧
      Leaves b (.assign a v) a (v &&& r.mask) ∧
      (∀ i < w, r.mask.getLsbD i = true ↔ Named d.fields i) ∧
      (Leaves b (.busWrite a v) a (v &&& d.writeMask) ↔
        ∀ i < w, (v &&& d.writeMask).getLsbD i = true → Named d.fields i) ∧
      (Leaves b (.assign a v) a v ↔ ∀ i < w, v.getLsbD i = true → Named d.fields i) := by
  have start : elaborate declared a = some r := by rw [elaborate, created, Option.bind_some, settled]
  have kept := run_shape reached a
  rw [start, Option.map_some] at kept
  obtain ⟨now, here, shape⟩ := Option.map_eq_some_iff.mp kept
  have declaredNow : now.declared = d := by
    obtain ⟨sorted, -, rfl⟩ := Option.map_eq_some_iff.mp settled
    exact congrArg Prod.fst shape
  have maskNow : now.mask = r.mask := congrArg Prod.snd shape
  have bits : ∀ i < w, r.mask.getLsbD i = true ↔ Named d.fields i := by
    intro i hi
    rw [getLsbD_mask settled hi, decide_eq_true_iff]
  have busWrite : ∀ value, Leaves b (.busWrite a v) a value ↔ v &&& d.writeMask &&& r.mask = value := by
    intro value
    rw [← declaredNow, ← maskNow]
    exact leaves_iff (x := Access.busWrite a v) here
  have assign : ∀ value, Leaves b (.assign a v) a value ↔ v &&& r.mask = value := by
    intro value
    rw [← maskNow]
    exact leaves_iff (x := Access.assign a v) here
  refine ⟨(busWrite _).mpr rfl, (assign _).mpr rfl, bits, ?_, ?_⟩
  · rw [busWrite, and_eq_self_iff]
    exact forall₂_congr fun i hi => by rw [bits i hi]
  · rw [assign, and_eq_self_iff]
    exact forall₂_congr fun i hi => by rw [bits i hi]

/-- Without fields a write stores its whole value, so only the write mask of the bus is left. -/
theorem write_of_no_fields {d : Declared 32} {r : Register 32} (h : d.checkAndInit = some r)
    (unnamed : d.fields = []) (v : BitVec 32) (pos : ℕ) (value : Bool) :
    (r.busWrite v).curVal = SrRegister.busWrite r.declared.writeMask v ∧
      (r.bit pos value).curVal = SrRegister.bitSet r.curVal pos value := by
  have every : ∀ i < 32, r.mask.getLsbD i = true := by
    intro i hi
    rw [getLsbD_mask h hi, decide_eq_true_iff]
    exact Or.inl unnamed
  have whole : ∀ u : BitVec 32, u &&& r.mask = u := by
    intro u
    exact (and_eq_self_iff u _).mpr fun i hi _ => every i hi
  constructor
  · exact whole _
  · rw [Register.bit, Register.write, BitVec.signExtend_eq, BitVec.signExtend_eq]
    exact whole _

/-! ## The registers of the memory controller -/

def mcfg1WriteMask : BitVec 32 := 0x1FE808FF
def mcfg1Default : BitVec 32 := 0x180003FF
def mcfg2WriteMask : BitVec 32 := 0xFFD07EFF
def mcfg2Default : BitVec 32 := 0xFF601C3F
def mcfg3WriteMask : BitVec 32 := 0x07FFF000
def mcfg3Default : BitVec 32 := 0x07FFF000
def mcfg4WriteMask : BitVec 32 := 0xE0F7007F
def mcfg4Default : BitVec 32 := 0x00F00000

/-- `Mctrl::init_registers` -/
def initRegisters (offset : BitVec 32) : Option (Declared 32) :=
  if offset = 0x00 then
    some (createRegister mcfg1Default (mcfg1WriteMask ||| 1 <<< 9 ||| 1 <<< 8))
  else if offset = 0x04 then
    (createRegister mcfg2Default (mcfg2WriteMask ||| 1 <<< 5 ||| 1 <<< 4)).createField 12 9
      |>.bind (·.createField 13 13)
      |>.bind (·.createField 14 14)
      |>.bind (·.createField 20 19)
      |>.bind (·.createField 25 23)
      |>.bind (·.createField 26 26)
      |>.bind (·.createField 29 27)
  else if offset = 0x08 then
    some (createRegister mcfg3Default mcfg3WriteMask)
  else if offset = 0x0C then
    (createRegister mcfg4Default mcfg4WriteMask).createField 6 0
      |>.bind (·.createField 18 16)
  else none

/-- The registers of the controller after elaboration. -/
def mcfg1 : Register 32 := (elaborate initRegisters 0x00).get (by decide +kernel)
def mcfg2 : Register 32 := (elaborate initRegisters 0x04).get (by decide +kernel)
def mcfg4 : Register 32 := (elaborate initRegisters 0x0C).get (by decide +kernel)

theorem mcfg1_mask : mcfg1.mask = BitVec.allOnes 32 := by decide +kernel

theorem mcfg2_mask : mcfg2.mask = 0x3F987E00 := by decide +kernel

theorem access_leaves_named_bits_mcfg2 : ∃ b d r,
    run step (elaborate initRegisters) [.assign 0x04 0x1F100000, .bit 0x04 26 false] = some b ∧
      initRegisters 0x04 = some d ∧ d.checkAndInit = some r ∧
      Leaves b (.busWrite 0x04 0xFFFFFFFF) 0x04 (0xFFFFFFFF &&& d.writeMask &&& r.mask) := by
  have ran : (run step (elaborate initRegisters)
      [.assign 0x04 0x1F100000, .bit 0x04 26 false]).isSome = true := by decide +kernel
  have created : ((initRegisters 0x04).bind Declared.checkAndInit).isSome = true := by
    decide +kernel
  obtain ⟨b, reached⟩ := Option.isSome_iff_exists.mp ran
  obtain ⟨r, named⟩ := Option.isSome_iff_exists.mp created
  obtain ⟨d, declared, settled⟩ := Option.bind_eq_some_iff.mp named
  exact ⟨b, d, r, reached, declared, settled,
    (access_leaves_named_bits initRegisters reached declared settled 0xFFFFFFFF).1⟩

/-- MCFG2 holds 0x3F907E00 after a bus write of all ones, bits of its write mask are lost. -/
theorem mcfg2_loses_bits_of_write_mask :
    ¬ Leaves (elaborate initRegisters) (.busWrite 0x04 0xFFFFFFFF) 0x04
      (0xFFFFFFFF &&& (mcfg2WriteMask ||| 1 <<< 5 ||| 1 <<< 4)) := by
  rintro ⟨b', r, next, here, holds⟩
  have value : ((step (elaborate initRegisters) (.busWrite 0x04 0xFFFFFFFF)).bind fun b =>
      (b 0x04).map Register.curVal) = some 0x3F907E00 := by decide +kernel
  rw [next, Option.bind_some, here, Option.map_some, holds] at value
  exact absurd value (by decide +kernel)

end Socrocket.Core.RegisterFields
