/- Socrocket/Irqmp/RequestLines
   digest: What each operation of the controller does to the request lines and to what is left of one line. -/

import Socrocket.Irqmp.Delivery

set_option autoImplicit false
set_option relaxedAutoImplicit false

namespace Socrocket.Irqmp

open Socrocket.Core.SrRegister

variable {g : Generics}

/-! ## Request lines -/

/-- The request lines are as they were, or low. -/
def Lowers (s t : Registers g.ncpu) : Prop :=
  ∀ cpu, t.irqReq cpu = s.irqReq cpu ∨ (t.irqReq cpu).raised = false

namespace Lowers

variable {s t u : Registers g.ncpu}

theorem of_eq (same : t.irqReq = s.irqReq) : Lowers s t := fun cpu => .inl (congrFun same cpu)

theorem trans (first : Lowers s t) (second : Lowers t u) : Lowers s u := by
  intro cpu
  obtain same | low := second cpu
  · rw [same]
    exact first cpu
  · exact .inr low

theorem lowerAll (s : Registers g.ncpu) (line : BitVec 32) :
    Lowers s (lowerAll g s line) := fun _ => .inr rfl

theorem lowerLines (s : Registers g.ncpu) (lines : BitVec 32) : Lowers s (lowerLines g s lines) := by
  unfold Irqmp.lowerLines
  induction List.range 15 with
  | nil => exact of_eq rfl
  | cons i is ih =>
    rw [List.foldr_cons]
    split
    · exact ih.trans (lowerAll _ _)
    · exact ih

theorem dropIdentified (s : Registers g.ncpu) (cpu : Fin g.ncpu) :
    Lowers s (dropIdentified g s cpu) := by
  unfold Irqmp.dropIdentified
  split <;> exact of_eq rfl

theorem foldl {body : Registers g.ncpu → Fin g.ncpu → Registers g.ncpu}
    (each : ∀ s cpu, Lowers s (body s cpu))
    (cpus : List (Fin g.ncpu)) (s : Registers g.ncpu) : Lowers s (cpus.foldl body s) := by
  induction cpus generalizing s with
  | nil => exact of_eq rfl
  | cons cpu cpus ih => exact (each s cpu).trans (ih _)

theorem incommingIrq (s : Registers g.ncpu) (irq : BitVec 32 × Bool) :
    Lowers s (incommingIrq g s irq) := by
  have line (s : Registers g.ncpu) (line : ℕ) : (incommingLine g s line).irqReq = s.irqReq := by
    unfold incommingLine
    dsimp only
    split_ifs <;> rfl
  have lines (lines : List ℕ) (s : Registers g.ncpu) : (lines.foldl (fun s line =>
      if bitGet irq.1 line then incommingLine g s line else s) s).irqReq = s.irqReq := by
    induction lines generalizing s with
    | nil => rfl
    | cons n ns ih =>
      rw [List.foldl_cons, ih]
      split
      · exact line s n
      · rfl
  unfold Irqmp.incommingIrq
  split
  · exact of_eq (lines _ s)
  · exact of_eq rfl

theorem clearWrite (s : Registers g.ncpu) : Lowers s (clearWrite g s) := by
  have identified (cpus : List (Fin g.ncpu)) : Lowers s (cpus.foldl (fun s cpu =>
      if g.eirq ≠ 0 ∧ s.extirId cpu ≠ 0 then
        { Irqmp.dropIdentified g s cpu with extirId := Function.update s.extirId cpu 0 }
      else s) s) := by
    refine foldl (fun s cpu => ?_) cpus s
    split
    · exact dropIdentified s cpu
    · exact of_eq rfl
  unfold Irqmp.clearWrite
  dsimp only
  split
  · exact ((identified _).trans (lowerAll _ _)).trans (lowerLines _ _)
  · exact (identified _).trans (lowerLines _ _)

theorem forceWrite (s : Registers g.ncpu) : Lowers s (forceWrite g s) := by
  refine foldl (fun s cpu => ?_) _ s
  have merged (s : Registers g.ncpu) (shadow force : Fin g.ncpu → BitVec 32) :
      Lowers s (Irqmp.dropIdentified g { s with forcereg := shadow, procForce := force } cpu) :=
    dropIdentified _ cpu
  exact (lowerLines s _).trans (merged _ _ _)

end Lowers

theorem lowers_step (s : Registers g.ncpu) {op : Op g.ncpu} (other : op ≠ .launchIrq) :
    Lowers s (step g s op) := by
  cases op with
  | reset => exact .of_eq rfl
  | incommingIrq irq => exact .incommingIrq s irq
  | launchIrq => exact absurd rfl other
  | acknowledgedIrq irq cpu => exact fun _ => .inr rfl
  | writeLevel v => exact .of_eq rfl
  | writePending v => exact .of_eq rfl
  | writeForce v => exact .of_eq rfl
  | writeClear v => exact Lowers.clearWrite { s with clear := busWrite IR_CLEAR_IC v }
  | writeBroadcast v => exact .of_eq rfl
  | writeProcMask cpu v => exact .of_eq rfl
  | writeProcForce cpu v =>
    exact Lowers.forceWrite { s with
      procForce := Function.update s.procForce cpu
        (busWrite (PROC_IR_FORCE_IFC ||| PROC_IR_FORCE_IF) v) }
  | writeExtirId cpu v => exact .of_eq rfl

/-- A raised request line names a line from 1 to 15. -/
def Named (s : Registers g.ncpu) : Prop :=
  ∀ cpu, (s.irqReq cpu).raised = true → ∃ n, 0 < n ∧ n < 16 ∧ (s.irqReq cpu).line = BitVec.ofNat 32 n

theorem named_step {s : Registers g.ncpu} (named : Named s) (op : Op g.ncpu) : Named (step g s op) := by
  intro cpu raised
  by_cases launch : op = .launchIrq
  · subst launch
    obtain ⟨n, selected, line, -⟩ | ⟨-, -, low⟩ := requests_launchIrq s cpu
    · exact ⟨n, selected.mem.1.1, selected.mem.1.2, line⟩
    · exact absurd (raised.symm.trans low) (by decide)
  · obtain same | low := lowers_step s launch cpu
    · rw [same] at raised ⊢
      exact named cpu raised
    · exact absurd (raised.symm.trans low) (by decide)

/-! ## What is left of a line -/

/-- The line is neither forced nor broadcast. -/
structure Unforced (n : ℕ) (s : Registers g.ncpu) : Prop where
  force : bitGet s.force n = false
  broadcast : bitGet s.broadcast (n + 1) = false
  procForce : ∀ cpu, bitGet (s.procForce cpu) n = false
  forcereg : ∀ cpu, bitGet (s.forcereg cpu) n = false

theorem clear_update {n : ℕ} {f : Fin g.ncpu → BitVec 32} (before : ∀ c, bitGet (f c) n = false)
    (cpu : Fin g.ncpu)
    {v : BitVec 32} (clear : bitGet v n = false) (c : Fin g.ncpu) :
    bitGet (Function.update f cpu v c) n = false := by
  by_cases here : c = cpu
  · rw [here, Function.update_self]
    exact clear
  · rw [Function.update_of_ne here]
    exact before c

theorem Unforced.incommingIrq {n : ℕ} {s : Registers g.ncpu} (h : Unforced n s) (irq : BitVec 32)
    (lt : n < 32) :
    Unforced n (incommingIrq g s (irq, true)) := by
  have line (s : Registers g.ncpu) (line : ℕ) : (incommingLine g s line).force = s.force := by
    unfold incommingLine
    dsimp only
    split_ifs <;> rfl
  have lines (lines : List ℕ) (s : Registers g.ncpu) : (lines.foldl (fun s line =>
      if bitGet irq line then incommingLine g s line else s) s).force = s.force := by
    induction lines generalizing s with
    | nil => rfl
    | cons n ns ih =>
      rw [List.foldl_cons, ih]
      split
      · exact line s n
      · rfl
  have raised := raised_incommingIrq s irq
  have silent : ¬ (bitGet irq n = true ∧ n < 16 ∧ bitGet s.broadcast (n + 1) = true) := by
    rw [h.broadcast]
    exact fun hit => Bool.false_ne_true hit.2.2
  refine ⟨?_, raised.broadcast ▸ h.broadcast, fun cpu => ?_, fun cpu => ?_⟩
  · exact (congrArg (bitGet · n) (lines (List.range 32) s)).trans h.force
  · rw [← Bool.not_eq_true, raised.procForce cpu n lt, h.procForce cpu]
    exact fun set => set.elim Bool.false_ne_true silent
  · rw [← Bool.not_eq_true, raised.forcereg cpu n lt, h.forcereg cpu]
    exact fun set => set.elim Bool.false_ne_true silent

/-- The line has not become pending, nor forced or broadcast. -/
structure Quieter (n : ℕ) (s t : Registers g.ncpu) : Prop where
  pending : bitGet t.pending n = true → bitGet s.pending n = true
  unforced : Unforced n s → Unforced n t

namespace Quieter

variable {n : ℕ} {s t u : Registers g.ncpu}

theorem refl (s : Registers g.ncpu) : Quieter n s s := ⟨id, id⟩

theorem trans (first : Quieter n s t) (second : Quieter n t u) : Quieter n s u :=
  ⟨first.pending ∘ second.pending, second.unforced ∘ first.unforced⟩

theorem of_eq (force : t.force = s.force) (broadcast : t.broadcast = s.broadcast)
    (procForce : t.procForce = s.procForce)
    (forcereg : t.forcereg = s.forcereg)
    (pending : bitGet t.pending n = true → bitGet s.pending n = true) :
    Quieter n s t where
  pending := pending
  unforced h := ⟨force ▸ h.force, broadcast ▸ h.broadcast, procForce ▸ h.procForce,
    forcereg ▸ h.forcereg⟩

theorem lowerLines (s : Registers g.ncpu) (lines : BitVec 32) : Quieter n s (lowerLines g s lines) := by
  obtain ⟨req, lowered⟩ := lowerLines_eq s lines
  rw [lowered]
  exact of_eq rfl rfl rfl rfl id

theorem dropIdentified (s : Registers g.ncpu) (cpu : Fin g.ncpu) :
    Quieter n s (dropIdentified g s cpu) := by
  unfold Irqmp.dropIdentified
  split
  · refine of_eq rfl rfl rfl rfl fun set => ?_
    rw [bitGet_and, Bool.and_eq_true] at set
    exact set.1
  · exact refl s

theorem foldl {body : Registers g.ncpu → Fin g.ncpu → Registers g.ncpu}
    (each : ∀ s cpu, Quieter n s (body s cpu))
    (cpus : List (Fin g.ncpu)) (s : Registers g.ncpu) : Quieter n s (cpus.foldl body s) := by
  induction cpus generalizing s with
  | nil => exact refl s
  | cons cpu cpus ih => exact (each s cpu).trans (ih _)

theorem clearWrite (s : Registers g.ncpu) : Quieter n s (clearWrite g s) := by
  have identified (cpus : List (Fin g.ncpu)) : Quieter n s (cpus.foldl (fun s cpu =>
      if g.eirq ≠ 0 ∧ s.extirId cpu ≠ 0 then
        { Irqmp.dropIdentified g s cpu with extirId := Function.update s.extirId cpu 0 }
      else s) s) := by
    refine foldl (fun s cpu => ?_) cpus s
    split
    · exact (dropIdentified s cpu).trans (of_eq rfl rfl rfl rfl id)
    · exact refl s
  have lowered (s : Registers g.ncpu) (line : BitVec 32) : Quieter n s (lowerAll g s line) :=
    of_eq rfl rfl rfl rfl id
  have cleared (s : Registers g.ncpu) : Quieter n s { s with
      pending := s.pending &&& ~~~s.clear, force := s.force &&& ~~~s.clear, clear := 0 } := by
    refine ⟨fun set => ?_, fun h => { h with force := ?_ }⟩
    · rw [bitGet_and, Bool.and_eq_true] at set
      exact set.1
    · rw [bitGet_and, h.force, Bool.false_and]
  unfold Irqmp.clearWrite
  dsimp only
  split
  · exact (((identified _).trans (lowered _ _)).trans (lowerLines _ _)).trans (cleared _)
  · exact ((identified _).trans (lowerLines _ _)).trans (cleared _)

theorem forceCpu (s : Registers g.ncpu) (cpu : Fin g.ncpu) : Quieter n s (forceCpu g s cpu) := by
  have merged (s : Registers g.ncpu) (reg : BitVec 32) (same : reg = s.procForce cpu) : Quieter n s { s with
      forcereg := Function.update s.forcereg cpu (mergeForce (s.forcereg cpu) reg)
      procForce := Function.update s.procForce cpu (mergeForce (s.forcereg cpu) reg) } := by
    refine ⟨id, fun h => ?_⟩
    have none : bitGet (mergeForce (s.forcereg cpu) reg) n = false := by
      rw [mergeForce, bitGet_and, bitGet_or, h.forcereg cpu, same, h.procForce cpu]
      rfl
    exact { h with procForce := clear_update h.procForce cpu none, forcereg := clear_update h.forcereg cpu none }
  obtain ⟨req, lowered⟩ := lowerLines_eq s (s.procForce cpu >>> 16)
  have first : Quieter n s (Irqmp.lowerLines g s (s.procForce cpu >>> 16)) := lowerLines s _
  unfold Irqmp.forceCpu
  dsimp only
  refine (first.trans (merged _ (s.procForce cpu) ?_)).trans (dropIdentified _ cpu)
  rw [lowered]

theorem incommingIrq (s : Registers g.ncpu) {irq : BitVec 32} (lt : n < 32)
    (other : bitGet irq n = false) :
    Quieter n s (incommingIrq g s (irq, true)) := by
  refine ⟨fun set => (((raised_incommingIrq s irq).pending n lt).mp set).resolve_right fun hit => ?_,
    fun h => h.incommingIrq irq lt⟩
  exact absurd (hit.1.symm.trans other) (by decide)

theorem acknowledgedIrq (s : Registers g.ncpu) (irq : Fin 32) (cpu : Fin g.ncpu) :
    Quieter n s (acknowledgedIrq g s irq cpu) := by
  have dropped : Quieter n s (Irqmp.dropIdentified g s cpu) := dropIdentified s cpu
  have keeps (r : BitVec 32) (clear : bitGet r n = false) : bitGet (bitSet r irq false) n = false := by
    rw [bitGet_bitSet, clear, ite_self]
  refine dropped.trans ⟨fun set => ?_, fun h =>
    ⟨keeps _ h.force, h.broadcast, clear_update h.procForce cpu ?_,
    clear_update h.forcereg cpu ?_⟩⟩
  · by_contra clear
    have still : bitGet (Irqmp.acknowledgedIrq g s irq cpu).pending n = false :=
      keeps _ (Bool.eq_false_iff.mpr clear)
    exact absurd (set.symm.trans still) (by decide)
  · exact keeps _ (h.procForce cpu)
  · rw [bitGet_and, h.forcereg cpu, Bool.false_and]

end Quieter

/-- The operations that make a line pending. -/
def Raises (n : ℕ) {ncpu : ℕ} : Op ncpu → Prop
  | .incommingIrq irq => irq.2 = true ∧ bitGet irq.1 n = true
  | .writePending v => bitGet v n = true
  | _ => False

/-- The operations that force a line or broadcast it. -/
def Forces (n : ℕ) {ncpu : ℕ} : Op ncpu → Prop
  | .writeForce v => bitGet v n = true
  | .writeBroadcast v => bitGet v (n + 1) = true
  | .writeProcForce _ v => bitGet v n = true
  | _ => False

instance (n ncpu : ℕ) : DecidablePred (@Raises n ncpu) := fun op => by
  cases op <;> unfold Raises <;> infer_instance

/-- An operation that neither raises a line nor forces it. The cascade line is raised by the launch
passes as well. -/
theorem quieter_step (s : Registers g.ncpu) {op : Op g.ncpu} {n : ℕ} (lt : n < 32)
    (cascade : n ≠ g.eirq)
    (unraised : ¬ Raises n op) (unforced : ¬ Forces n op) : Quieter n s (step g s op) := by
  have masked {v mask : BitVec 32} (clear : ¬ bitGet v n = true) :
      bitGet (busWrite mask v) n = false := by
    rw [busWrite, bitGet_and, Bool.eq_false_iff.mpr clear, Bool.false_and]
  cases op with
  | reset =>
    have zero (k : ℕ) : bitGet (0 : BitVec 32) k = false := BitVec.getLsbD_zero
    exact ⟨fun set => absurd (set.symm.trans (zero n)) (by decide),
      fun h => ⟨h.force, zero _, fun _ => zero n, fun _ => zero n⟩⟩
  | incommingIrq irq =>
    obtain ⟨vector, rising⟩ := irq
    cases rising with
    | false => exact .refl s
    | true => exact .incommingIrq s lt (Bool.eq_false_iff.mpr fun set => unraised ⟨rfl, set⟩)
  | launchIrq =>
    obtain ⟨same, -⟩ := launchIrq_registers s
    exact .of_eq same.force same.broadcast same.procForce same.forcereg (same.pending n cascade ▸ id)
  | acknowledgedIrq irq cpu => exact .acknowledgedIrq s irq cpu
  | writeLevel v => exact .of_eq rfl rfl rfl rfl id
  | writePending v =>
    exact ⟨fun set => absurd (set.symm.trans (masked unraised)) (by decide), fun h => { h with }⟩
  | writeForce v => exact ⟨id, fun h => { h with force := masked unforced }⟩
  | writeClear v =>
    have written : Quieter n s { s with clear := busWrite IR_CLEAR_IC v } := .of_eq rfl rfl rfl rfl id
    exact written.trans (.clearWrite _)
  | writeBroadcast v =>
    refine ⟨id, fun h => { h with broadcast := ?_ }⟩
    show bitGet (busWrite BROADCAST_BM v) (n + 1) = false
    rw [busWrite, bitGet_and, Bool.eq_false_iff.mpr unforced, Bool.false_and]
  | writeProcMask cpu v => exact .of_eq rfl rfl rfl rfl id
  | writeProcForce cpu v =>
    have written : Quieter n s { s with
        procForce := Function.update s.procForce cpu
          (busWrite (PROC_IR_FORCE_IFC ||| PROC_IR_FORCE_IF) v) } :=
      ⟨id, fun h => { h with procForce := clear_update h.procForce cpu (masked unforced) }⟩
    exact written.trans (.foldl (fun s cpu => .forceCpu s cpu) _ _)
  | writeExtirId cpu v => exact .of_eq rfl rfl rfl rfl id

theorem unforced_step {s : Registers g.ncpu} {op : Op g.ncpu} {n : ℕ} (lt : n < 32)
    (cascade : n ≠ g.eirq)
    (direct : ¬ Forces n op) (h : Unforced n s) : Unforced n (step g s op) := by
  by_cases raises : Raises n op
  · cases op with
    | incommingIrq irq =>
      obtain ⟨vector, rising⟩ := irq
      obtain rfl : rising = true := raises.1
      exact h.incommingIrq vector lt
    | writePending v => exact { h with }
    | _ => exact raises.elim
  · exact (quieter_step s lt cascade raises direct).unforced h

/-- A launch pass raises the request of a line only where the line is pending. -/
theorem pending_of_launch {s : Registers g.ncpu} {n : ℕ} (cascade : n ≠ g.eirq)
    (unforced : Unforced n s)
    {cpu : Fin g.ncpu} (raised : ((launchIrq g s).irqReq cpu).raised = true)
    (line : ((launchIrq g s).irqReq cpu).line = BitVec.ofNat 32 n) (lt : n < 16) :
    bitGet s.pending n = true := by
  obtain ⟨m, selected, line', -⟩ | ⟨-, -, low⟩ := requests_launchIrq s cpu
  · have same : m = n := by
      have number := congrArg BitVec.toNat (line'.symm.trans line)
      have bound := selected.mem.1.2
      rw [BitVec.toNat_ofNat, BitVec.toNat_ofNat] at number
      omega
    subst same
    obtain pending | forced | ⟨extended, -⟩ := selected.mem.2
    · obtain seen | forced := pending.1
      · -- the processor above rewrites the cascade line only
        have kept : bitGet (seenPending s cpu) m = bitGet s.pending m := by
          unfold seenPending
          split
          · exact bitGet_bitSet_ne cascade
          · rfl
        exact kept ▸ seen
      · exact absurd (forced.symm.trans unforced.force) (by decide)
    · exact absurd (forced.symm.trans (unforced.procForce cpu)) (by decide)
    · exact absurd extended cascade
  · exact absurd (raised.symm.trans low) (by decide)

end Socrocket.Irqmp
