/- Socrocket/Irqmp/Extended
   digest: The acknowledge of the cascade line and the extended interrupts behind it. -/

import Socrocket.Irqmp.Broadcast

set_option autoImplicit false
set_option relaxedAutoImplicit false

namespace Socrocket.Irqmp

open Socrocket.Core.SrRegister
open Socrocket.Base.Run

variable {g : Generics}

/-- The cascade line is requested from a processor, or a more urgent active line is. -/
def CascadeRequested (s : Registers g.ncpu) (cpu : Fin g.ncpu) : Prop :=
  (((launchIrq g s).irqReq cpu).line = BitVec.ofNat 32 g.eirq ∧
    ((launchIrq g s).irqReq cpu).raised = true) ∨ CascadeOutranked s cpu

/-- What the acknowledge of the cascade has to leave behind: one extended line that was pending is
identified and taken, the others stay, and they are requested again. -/
structure Identified (s t : Registers g.ncpu) (cpu : Fin g.ncpu) (k : ℕ) : Prop where
  extended : 16 ≤ k ∧ k < 32
  served : PendingUnmasked s cpu k
  extirId : t.extirId cpu = BitVec.ofNat 32 k
  taken : bitGet t.pending k = false
  others : ∀ j, 16 ≤ j → j < 32 → j ≠ k → bitGet t.pending j = bitGet s.pending j
  requested : ExtendedPending t cpu → CascadeRequested t cpu

private theorem ofNat_extended_ne_zero {k : ℕ} (extended : 16 ≤ k ∧ k < 32) :
    BitVec.ofNat 32 k ≠ 0 := by
  intro zero
  have value := congrArg BitVec.toNat zero
  rw [BitVec.toNat_ofNat, Nat.mod_eq_of_lt (by omega)] at value
  have none : k = 0 := value
  omega

theorem acknowledgedIrq_extirId (s : Registers g.ncpu) (irq : Fin 32) (cpu : Fin g.ncpu) :
    (acknowledgedIrq g s irq cpu).extirId cpu = 0 := Function.update_self ..

theorem acknowledgedIrq_pending {s : Registers g.ncpu} (none : NoneIdentified s) {irq : Fin 32}
    (cpu : Fin g.ncpu) {n : ℕ} (ne : n ≠ irq.val) :
    bitGet (acknowledgedIrq g s irq cpu).pending n = bitGet s.pending n := by
  change bitGet (bitSet (dropIdentified g s cpu).pending irq false) n = _
  rw [dropIdentified_of_none none, bitGet_bitSet_ne ne]

/-- No acknowledge, of the cascade or of another line, ever identifies an extended line. -/
theorem cascade_never_identifies (s : Registers g.ncpu) (cpu : Fin g.ncpu) (irq : Fin 32) :
    ¬ ∃ k, Identified s (acknowledgedIrq g s irq cpu) cpu k := by
  rintro ⟨k, identified⟩
  have empty := acknowledgedIrq_extirId s irq cpu
  rw [identified.extirId] at empty
  exact ofNat_extended_ne_zero identified.extended empty

/-- The extended line 16 raised and launched: after the acknowledge of the cascade the identification
register reads zero and line 16 is still pending. -/
theorem cascade_not_identified :
    ¬ ∀ s : Registers oneCpu.ncpu, run (irqStep oneCpu) (initRegisters oneCpu)
        [.incommingIrq (0x10000, true), .launchIrq] = some s →
      ExtendedPending s (firstCpu oneCpu) →
      ∃ k, Identified s (acknowledgedIrq oneCpu s 2 (firstCpu oneCpu)) (firstCpu oneCpu) k := by
  intro claim
  obtain ⟨k, identified⟩ := claim _ rfl ⟨16, by decide, by decide, .inl (by decide), by decide⟩
  have extended : k = 16 ∨ k ≠ 16 := eq_or_ne k 16
  rcases extended with rfl | ne
  · exact absurd identified.taken (by decide)
  · have same := identified.extirId
    exact ofNat_extended_ne_zero identified.extended (same.symm.trans (by decide))

/-- With nothing identified, an extended line that was pending makes the cascade active again after
its acknowledge: it is served for ever. -/
theorem cascade_active_again {s : Registers g.ncpu} (none : NoneIdentified s) {irq : Fin 32}
    {cpu : Fin g.ncpu} (cascade : irq.val = g.eirq) (on : g.eirq ≠ 0)
    (extended : ExtendedPending s cpu) : g.eirq ∈ Active (acknowledgedIrq g s irq cpu) cpu := by
  have small := g.eirq_lt
  obtain ⟨k, ge, lt, source, mask⟩ := extended
  have ne : k ≠ irq.val := by omega
  refine ⟨⟨by omega, small⟩, .inr (.inr ⟨rfl, k, ge, lt, ?_, ?_⟩)⟩
  · rcases source with pending | force
    · left
      rw [acknowledgedIrq_pending none cpu ne]
      exact pending
    · right
      change bitGet (bitSet (dropIdentified g s cpu).force irq false) k = true
      rw [dropIdentified_of_none none, bitGet_bitSet_ne ne]
      exact force
  · change bitGet ((dropIdentified g s cpu).procMask cpu) k = true
    rw [dropIdentified_of_none none]
    exact mask

end Socrocket.Irqmp
