/- Socrocket/Base/ByteMemory
   digest: Byte memories over machine words, buffers, block reads, block writes and write logs. -/

import Mathlib.Data.BitVec
import Mathlib.Logic.Function.Basic
import Mathlib.Tactic.Ring

set_option autoImplicit false
set_option relaxedAutoImplicit false

namespace Socrocket.Base.ByteMemory

variable {w : ℕ}

/-- A byte addressed memory whose addresses wrap at `2 ^ w`. -/
abbrev Memory (w : ℕ) := BitVec w → BitVec 8

/-- A byte buffer. Only the prefix whose length travels with it is meaningful. -/
abbrev Buffer := ℕ → BitVec 8

/-- Distance from `base` up to `a`, modulo the size of the address space. -/
def distance (base a : BitVec w) : ℕ := (a - base).toNat

/-- The wrapping byte range `[base, base + len)`. -/
def InRange (base : BitVec w) (len : ℕ) (a : BitVec w) : Prop := distance base a < len

instance (base : BitVec w) (len : ℕ) (a : BitVec w) : Decidable (InRange base len a) :=
  inferInstanceAs (Decidable (_ < _))

/-- Copy `len` bytes of `src` to position `pos` of `dst`. -/
def copyTo (dst : Buffer) (pos : ℕ) (src : Buffer) (len : ℕ) : Buffer :=
  fun i => if pos ≤ i ∧ i < pos + len then src (i - pos) else dst i

/-- Replace the first `len` bytes of `dst` by those of `src`. -/
def memcpy (dst src : Buffer) (len : ℕ) : Buffer :=
  fun i => if i < len then src i else dst i

/-- The buffer seen from position `pos` on. -/
def skip (src : Buffer) (pos : ℕ) : Buffer := fun i => src (pos + i)

/-- The bytes from `base` on. -/
def bytesAt (mem : Memory w) (base : BitVec w) : Buffer :=
  fun i => mem (base + BitVec.ofNat w i)

/-- Block write of `len` bytes at `base`. -/
def writeBytes (mem : Memory w) (base : BitVec w) (data : Buffer) (len : ℕ) : Memory w :=
  fun a => if InRange base len a then data (distance base a) else mem a

@[simp] theorem distance_self (a : BitVec w) : distance a a = 0 := by simp [distance]

theorem distance_of_le {base a : BitVec w} (h : base.toNat ≤ a.toNat) :
    distance base a = a.toNat - base.toNat := by
  have hb := base.isLt
  have ha := a.isLt
  rw [distance, BitVec.toNat_sub]
  have : 2 ^ w - base.toNat + a.toNat = 2 ^ w + (a.toNat - base.toNat) := by omega
  rw [this, Nat.add_mod_left, Nat.mod_eq_of_lt (by omega)]

theorem distance_add (base : BitVec w) {i : ℕ} (h : i < 2 ^ w) :
    distance base (base + BitVec.ofNat w i) = i := by
  have hsub : base + BitVec.ofNat w i - base = BitVec.ofNat w i := by
    rw [BitVec.add_comm, BitVec.add_sub_cancel]
  rw [distance, hsub, BitVec.toNat_ofNat, Nat.mod_eq_of_lt h]

theorem add_distance (base a : BitVec w) : base + BitVec.ofNat w (distance base a) = a := by
  rw [distance, BitVec.ofNat_toNat, BitVec.setWidth_eq, BitVec.add_comm, BitVec.sub_add_cancel]

theorem inRange_iff_of_no_wrap {base a : BitVec w} {len : ℕ}
    (hwrap : base.toNat + len ≤ 2 ^ w) :
    InRange base len a ↔ base.toNat ≤ a.toNat ∧ a.toNat < base.toNat + len := by
  have hb := base.isLt
  have ha := a.isLt
  rw [InRange]
  constructor
  · intro h
    by_cases hle : base.toNat ≤ a.toNat
    · rw [distance_of_le hle] at h
      omega
    · rw [distance, BitVec.toNat_sub, Nat.mod_eq_of_lt (by omega)] at h
      omega
  · rintro ⟨hle, hlt⟩
    rw [distance_of_le hle]
    omega

theorem writeBytes_of_inRange {mem : Memory w} {base a : BitVec w} {data : Buffer} {len : ℕ}
    (h : InRange base len a) : writeBytes mem base data len a = data (distance base a) :=
  if_pos h

theorem writeBytes_of_not_inRange {mem : Memory w} {base a : BitVec w} {data : Buffer} {len : ℕ}
    (h : ¬ InRange base len a) : writeBytes mem base data len a = mem a :=
  if_neg h

theorem writeBytes_congr {mem mem' : Memory w} {base a : BitVec w} {data : Buffer} {len : ℕ}
    (h : mem a = mem' a) :
    writeBytes mem base data len a = writeBytes mem' base data len a := by
  unfold writeBytes
  split
  · rfl
  · exact h

@[simp] theorem memcpy_of_lt {dst src : Buffer} {len i : ℕ} (h : i < len) :
    memcpy dst src len i = src i := if_pos h

theorem bytesAt_distance (mem : Memory w) (base a : BitVec w) :
    bytesAt mem base (distance base a) = mem a := by
  rw [bytesAt, add_distance]

theorem distance_shift (base a : BitVec w) {pos : ℕ} (h : pos < 2 ^ w) :
    distance (base + BitVec.ofNat w pos) a =
      if pos ≤ distance base a then distance base a - pos else distance base a + 2 ^ w - pos := by
  have moved : a - (base + BitVec.ofNat w pos) = a - base - BitVec.ofNat w pos := by
    rw [BitVec.sub_eq_add_neg, BitVec.neg_add, BitVec.sub_eq_add_neg, BitVec.sub_eq_add_neg,
      BitVec.sub_eq_add_neg, BitVec.add_assoc]
  have below : (a - base).toNat < 2 ^ w := (a - base).isLt
  rw [distance, moved, BitVec.toNat_sub, BitVec.toNat_ofNat, Nat.mod_eq_of_lt h, ← distance]
  change distance base a < 2 ^ w at below
  split_ifs with behind
  · have whole : 2 ^ w - pos + distance base a = 2 ^ w + (distance base a - pos) := by omega
    rw [whole, Nat.add_mod_left, Nat.mod_eq_of_lt (by omega)]
  · rw [Nat.mod_eq_of_lt (by omega)]
    omega

/-- Fetching a block, replacing some of its bytes and writing it back writes these bytes. -/
theorem writeBytes_copyTo (mem : Memory w) (base : BitVec w) (rest data : Buffer) {pos len size : ℕ}
    (fits : pos + len ≤ size) (small : size < 2 ^ w) :
    writeBytes mem base (copyTo (memcpy rest (bytesAt mem base) size) pos data len) size =
      writeBytes mem (base + BitVec.ofNat w pos) data len := by
  funext a
  have shifted := distance_shift base a (by omega : pos < 2 ^ w)
  have far : distance base a < 2 ^ w := (a - base).isLt
  by_cases target : pos ≤ distance base a ∧ distance base a < pos + len
  · rw [if_pos target.1] at shifted
    have outer : InRange base size a := by
      rw [InRange]
      omega
    have inner : InRange (base + BitVec.ofNat w pos) len a := by
      rw [InRange]
      omega
    rw [writeBytes_of_inRange outer, writeBytes_of_inRange inner, copyTo, if_pos target, shifted]
  · have inner : ¬ InRange (base + BitVec.ofNat w pos) len a := by
      rw [InRange, shifted]
      split_ifs <;> omega
    rw [writeBytes_of_not_inRange inner]
    by_cases outer : InRange base size a
    · rw [writeBytes_of_inRange outer, copyTo, if_neg target, memcpy_of_lt outer,
        bytesAt_distance]
    · rw [writeBytes_of_not_inRange outer]

/-- One block write on its way to memory. -/
structure BlockWrite (w : ℕ) where
  base : BitVec w
  data : Buffer
  len : ℕ

/-- Perform one block write. -/
def BlockWrite.apply (b : BlockWrite w) (mem : Memory w) : Memory w :=
  writeBytes mem b.base b.data b.len

/-- Perform a log of block writes, oldest first. -/
def applyWrites (mem : Memory w) (log : List (BlockWrite w)) : Memory w :=
  log.foldl (fun m b => b.apply m) mem

@[simp] theorem applyWrites_nil (mem : Memory w) : applyWrites mem [] = mem := rfl

@[simp] theorem applyWrites_cons (mem : Memory w) (b : BlockWrite w) (log : List (BlockWrite w)) :
    applyWrites mem (b :: log) = applyWrites (b.apply mem) log := rfl

theorem applyWrites_append (mem : Memory w) (log log' : List (BlockWrite w)) :
    applyWrites mem (log ++ log') = applyWrites (applyWrites mem log) log' :=
  List.foldl_append

/-- The overlay of a log at one address depends on the memory below at that address only. -/
theorem applyWrites_congr {mem mem' : Memory w} (log : List (BlockWrite w)) {a : BitVec w}
    (h : mem a = mem' a) : applyWrites mem log a = applyWrites mem' log a := by
  induction log generalizing mem mem' with
  | nil => exact h
  | cons b log ih => exact ih (writeBytes_congr h)

end Socrocket.Base.ByteMemory
