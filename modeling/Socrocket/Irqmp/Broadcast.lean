/- Socrocket/Irqmp/Broadcast
   digest: Broadcast lines stay forced for each processor until that processor serves them. -/

import Socrocket.Irqmp.Delivery

set_option autoImplicit false
set_option relaxedAutoImplicit false

namespace Socrocket.Irqmp

open Socrocket.Core.SrRegister
open Socrocket.Base.Run

variable {g : Generics}

section Shadow

/-- The clear half of a force register and of its shadow never keeps a bit. -/
def ClearHalfEmpty (s : Registers g.ncpu) : Prop :=
  ∀ cpu i, 16 ≤ i → bitGet (s.procForce cpu) i = false ∧ bitGet (s.forcereg cpu) i = false

/-- A line is forced for a processor in its register and in the shadow of it. -/
structure Forced (s : Registers g.ncpu) (cpu : Fin g.ncpu) (n : ℕ) : Prop where
  procForce : bitGet (s.procForce cpu) n = true
  forcereg : bitGet (s.forcereg cpu) n = true

theorem bitGet_forceMask (i : ℕ) :
    bitGet PROC_IR_FORCE_IF i = (decide (0 < i) && decide (i < 16)) := by
  by_cases lt : i < 32
  · have each : ∀ k : Fin 32, bitGet PROC_IR_FORCE_IF k.val =
        (decide (0 < k.val) && decide (k.val < 16)) := by decide
    exact each ⟨i, lt⟩
  · have outside : bitGet PROC_IR_FORCE_IF i = false := BitVec.getLsbD_of_ge _ i (by omega)
    have high : ¬ i < 16 := by omega
    simp [outside, high]

theorem bitGet_writableForce {n : ℕ} (pos : 0 < n) (lt : n < 16) :
    bitGet (PROC_IR_FORCE_IFC ||| PROC_IR_FORCE_IF) (n + 16) = true := by
  have each : ∀ k : Fin 16, 0 < k.val →
      bitGet (PROC_IR_FORCE_IFC ||| PROC_IR_FORCE_IF) (k.val + 16) = true := by decide
  exact each ⟨n, lt⟩ pos

theorem bitGet_mergeForce (shadow reg : BitVec 32) (i : ℕ) :
    bitGet (mergeForce shadow reg) i =
      ((bitGet shadow i || bitGet reg i) && !(bitGet shadow (i + 16) || bitGet reg (i + 16)) &&
        (decide (0 < i) && decide (i < 16))) := by
  have shifted (r : BitVec 32) : bitGet (r >>> 16) i = bitGet r (i + 16) := by
    unfold bitGet
    rw [BitVec.getLsbD_ushiftRight, Nat.add_comm]
  unfold mergeForce
  rw [bitGet_and, bitGet_and, bitGet_forceMask, bitGet_or]
  by_cases lt : i < 32
  · rw [bitGet_not _ lt, shifted, bitGet_or, Bool.and_assoc]
  · have high : ¬ i < 16 := by omega
    simp [high]

private theorem bitGet_and_low (r m : BitVec 32) {i : ℕ} (high : 16 ≤ i) :
    bitGet (r &&& (m &&& 0xFFFE)) i = false := by
  have mask : bitGet (0xFFFE : BitVec 32) i = false := by
    have whole := bitGet_forceMask i
    rw [decide_eq_false (show ¬ i < 16 by omega), Bool.and_false] at whole
    exact whole
  rw [bitGet_and, bitGet_and, mask, Bool.and_false, Bool.and_false]

theorem dropIdentified_force (s : Registers g.ncpu) (cpu : Fin g.ncpu) :
    (dropIdentified g s cpu).procForce = s.procForce ∧
      (dropIdentified g s cpu).forcereg = s.forcereg := by
  unfold dropIdentified
  split_ifs <;> exact ⟨rfl, rfl⟩

theorem clearWrite_force (s : Registers g.ncpu) :
    (clearWrite g s).procForce = s.procForce ∧ (clearWrite g s).forcereg = s.forcereg := by
  have dropped (cpus : List (Fin g.ncpu)) (s : Registers g.ncpu) :
      ((cpus.foldl (fun s cpu =>
        if g.eirq ≠ 0 ∧ s.extirId cpu ≠ 0 then
          { dropIdentified g s cpu with extirId := Function.update s.extirId cpu 0 }
        else s) s).procForce = s.procForce) ∧
      ((cpus.foldl (fun s cpu =>
        if g.eirq ≠ 0 ∧ s.extirId cpu ≠ 0 then
          { dropIdentified g s cpu with extirId := Function.update s.extirId cpu 0 }
        else s) s).forcereg = s.forcereg) := by
    induction cpus generalizing s with
    | nil => exact ⟨rfl, rfl⟩
    | cons cpu cpus ih =>
      rw [List.foldl_cons]
      split_ifs
      · obtain ⟨procForce, forcereg⟩ := dropIdentified_force s cpu
        exact ⟨(ih _).1.trans procForce, (ih _).2.trans forcereg⟩
      · exact ih s
  have lowered (s : Registers g.ncpu) (lines : BitVec 32) :
      (lowerLines g s lines).procForce = s.procForce ∧
        (lowerLines g s lines).forcereg = s.forcereg := by
    obtain ⟨req, eq⟩ := lowerLines_eq s lines
    exact ⟨by rw [eq], by rw [eq]⟩
  obtain ⟨procForce, forcereg⟩ := dropped (List.finRange g.ncpu) s
  unfold clearWrite
  dsimp only
  split_ifs
  · exact ⟨(lowered _ _).1.trans procForce, (lowered _ _).2.trans forcereg⟩
  · exact ⟨(lowered _ _).1.trans procForce, (lowered _ _).2.trans forcereg⟩

/-- What a step does to the force register of a processor and to its shadow: nothing, a reset, the
raise of some lines, an acknowledge by that processor, or a merge. -/
inductive ForceStep (s t : Registers g.ncpu) (cpu : Fin g.ncpu) : Op g.ncpu → Prop where
  | kept {op : Op g.ncpu} (procForce : t.procForce cpu = s.procForce cpu)
      (forcereg : t.forcereg cpu = s.forcereg cpu) : ForceStep s t cpu op
  | reset (procForce : t.procForce cpu = 0) (forcereg : t.forcereg cpu = 0) :
      ForceStep s t cpu .reset
  | raised {irq : BitVec 32} (raised : Raised s t fun n => bitGet irq n = true) :
      ForceStep s t cpu (.incommingIrq (irq, true))
  | acknowledged {irq : Fin 32} (procForce : t.procForce cpu = bitSet (s.procForce cpu) irq false)
      (forcereg : t.forcereg cpu = s.forcereg cpu &&& (~~~(1#32 <<< irq.val) &&& 0xFFFE)) :
      ForceStep s t cpu (.acknowledgedIrq irq cpu)
  | merged {c : Fin g.ncpu} {v reg : BitVec 32}
      (written : cpu = c → reg = busWrite (PROC_IR_FORCE_IFC ||| PROC_IR_FORCE_IF) v)
      (others : cpu ≠ c → reg = s.procForce cpu)
      (procForce : t.procForce cpu = mergeForce (s.forcereg cpu) reg)
      (forcereg : t.forcereg cpu = mergeForce (s.forcereg cpu) reg) :
      ForceStep s t cpu (.writeProcForce c v)

theorem force_step (s : Registers g.ncpu) (op : Op g.ncpu) (cpu : Fin g.ncpu) :
    ForceStep s (step g s op) cpu op := by
  cases op with
  | reset => exact .reset rfl rfl
  | incommingIrq irq =>
    obtain ⟨vector, rising⟩ := irq
    cases rising with
    | false => exact .kept rfl rfl
    | true => exact .raised (raised_incommingIrq s vector)
  | launchIrq =>
    have same := (launchIrq_registers s).1
    exact .kept (congrFun same.procForce cpu) (congrFun same.forcereg cpu)
  | acknowledgedIrq irq c =>
    obtain ⟨procForce, forcereg⟩ := dropIdentified_force s c
    by_cases eq : cpu = c
    · subst c
      refine .acknowledged ?_ ?_
      · refine (Function.update_self ..).trans ?_
        rw [procForce]
      · refine (Function.update_self ..).trans ?_
        rw [forcereg]
    · refine .kept ?_ ?_
      · exact (Function.update_of_ne eq ..).trans (congrFun procForce cpu)
      · exact (Function.update_of_ne eq ..).trans (congrFun forcereg cpu)
  | writeLevel v => exact .kept rfl rfl
  | writePending v => exact .kept rfl rfl
  | writeForce v => exact .kept rfl rfl
  | writeClear v =>
    obtain ⟨procForce, forcereg⟩ := clearWrite_force { s with clear := busWrite IR_CLEAR_IC v }
    exact .kept (congrFun procForce cpu) (congrFun forcereg cpu)
  | writeBroadcast v => exact .kept rfl rfl
  | writeProcMask c v => exact .kept rfl rfl
  | writeProcForce c v =>
    generalize written : busWrite (PROC_IR_FORCE_IFC ||| PROC_IR_FORCE_IF) v = reg
    have all := merged_forceWrite { s with procForce := Function.update s.procForce c reg }
    refine @ForceStep.merged _ _ _ _ c v (Function.update s.procForce c reg cpu) ?_ ?_ ?_ ?_
    · rintro rfl
      rw [Function.update_self, written]
    · intro ne
      rw [Function.update_of_ne ne]
    · rw [step, written]
      exact (all.procForce cpu).1 trivial
    · rw [step, written]
      exact (all.forcereg cpu).1 trivial
  | writeExtirId c v => exact .kept rfl rfl

theorem clearHalfEmpty_init : ClearHalfEmpty (initRegisters g) := fun cpu i _ => by
  have zero : bitGet 0 i = false := BitVec.getLsbD_zero
  exact ⟨zero, zero⟩

theorem clearHalfEmpty_step (s : Registers g.ncpu) (op : Op g.ncpu) (empty : ClearHalfEmpty s) :
    ClearHalfEmpty (step g s op) := by
  intro cpu i high
  obtain ⟨procForce, forcereg⟩ := empty cpu i high
  cases force_step s op cpu with
  | kept procForce' forcereg' => exact ⟨procForce' ▸ procForce, forcereg' ▸ forcereg⟩
  | reset procForce' forcereg' =>
    rw [procForce', forcereg']
    exact ⟨BitVec.getLsbD_zero, BitVec.getLsbD_zero⟩
  | raised raised =>
    by_cases lt : i < 32
    · have low : ¬ i < 16 := by omega
      constructor
      · refine Bool.eq_false_iff.mpr fun set => ?_
        rcases (raised.procForce cpu i lt).mp set with old | new
        · exact absurd old (by simp [procForce])
        · exact low new.2.1
      · refine Bool.eq_false_iff.mpr fun set => ?_
        rcases (raised.forcereg cpu i lt).mp set with old | new
        · exact absurd old (by simp [forcereg])
        · exact low new.2.1
    · exact ⟨BitVec.getLsbD_of_ge _ i (by omega), BitVec.getLsbD_of_ge _ i (by omega)⟩
  | acknowledged procForce' forcereg' =>
    rw [procForce', forcereg']
    refine ⟨?_, bitGet_and_low _ _ high⟩
    rw [bitGet_bitSet]
    split_ifs
    · rfl
    · exact procForce
  | merged _ _ procForce' forcereg' =>
    have low : ¬ i < 16 := by omega
    rw [procForce', forcereg', bitGet_mergeForce]
    simp [low]

end Shadow

section Protocol

/-- The steps that take a broadcast line from a processor: a reset, its own acknowledge, and its bit
in the clear half of its force register. -/
def ReleasesForce {ncpu : ℕ} (cpu : Fin ncpu) (n : ℕ) : Op ncpu → Prop
  | .reset => True
  | .acknowledgedIrq irq c => c = cpu ∧ irq.val = n
  | .writeProcForce c v => c = cpu ∧ bitGet v (n + 16) = true
  | _ => False

/-- A line raised by this step has the broadcast bit above it set exactly when it is broadcast. -/
def BroadcastKept (n : ℕ) (s : Registers g.ncpu) : Op g.ncpu → Prop
  | .incommingIrq irq => irq.2 = true → bitGet irq.1 n = true →
      bitGet s.broadcast (n + 1) = bitGet s.broadcast n
  | _ => True

theorem forced_step {n : ℕ} (pos : 0 < n) (lt : n < 16) {cpu : Fin g.ncpu} (s : Registers g.ncpu)
    (op : Op g.ncpu) (empty : ClearHalfEmpty s) (forced : Forced s cpu n)
    (held : ¬ ReleasesForce cpu n op) : Forced (step g s op) cpu n := by
  obtain ⟨procForce, forcereg⟩ := forced
  cases force_step s op cpu with
  | kept procForce' forcereg' => exact ⟨procForce' ▸ procForce, forcereg' ▸ forcereg⟩
  | reset => exact absurd trivial held
  | raised raised =>
    have inside : n < 32 := by omega
    exact ⟨(raised.procForce cpu n inside).mpr (.inl procForce),
      (raised.forcereg cpu n inside).mpr (.inl forcereg)⟩
  | @acknowledged irq procForce' forcereg' =>
    have ne : n ≠ irq.val := fun eq => held ⟨rfl, eq.symm⟩
    constructor
    · rw [procForce', bitGet_bitSet_ne ne]
      exact procForce
    · have mask : bitGet (0xFFFE : BitVec 32) n = true := by
        have whole := bitGet_forceMask n
        rw [decide_eq_true pos, decide_eq_true lt] at whole
        exact whole
      rw [forcereg', ← BitVec.and_assoc, bitGet_and, bitGet_and_not_shift, forcereg, mask]
      simp [ne]
  | @merged c v reg written others procForce' forcereg' =>
    have released : bitGet reg (n + 16) = false := by
      by_cases eq : cpu = c
      · have clear : bitGet v (n + 16) = false := by
          refine Bool.eq_false_iff.mpr fun set => held ⟨eq.symm, set⟩
        rw [written eq, busWrite, bitGet_and, clear, Bool.false_and]
      · rw [others eq]
        exact (empty cpu (n + 16) (by omega)).1
    have stays : bitGet (mergeForce (s.forcereg cpu) reg) n = true := by
      rw [bitGet_mergeForce, forcereg, released, (empty cpu (n + 16) (by omega)).2]
      simp [pos, lt]
    exact ⟨procForce' ▸ stays, forcereg' ▸ stays⟩

private theorem clearHalfEmpty_run {s t : Registers g.ncpu} {ops : List (Op g.ncpu)}
    (empty : ClearHalfEmpty s) (reached : run (irqStep g) s ops = some t) : ClearHalfEmpty t := by
  refine run_preserves (fun s op t empty _ next => ?_) empty
    (along_of_forall s fun _ _ => trivial : Along (irqStep g) (fun _ _ => True) s ops) reached
  rw [irqStep, Option.some.injEq] at next
  exact next ▸ clearHalfEmpty_step s op empty

/-- A raised line goes where its broadcast bit says, when the bit above agrees with it: into every
force register, where it stays for each processor until that one serves it, or into the pending
register, where the first acknowledge clears it for all. -/
theorem broadcast_protocol {n : ℕ} (pos : 0 < n) (lt : n < 16) {before after : List (Op g.ncpu)}
    {irq : BitVec 32} {s u t : Registers g.ncpu}
    (reached : run (irqStep g) (initRegisters g) before = some s) (hit : bitGet irq n = true)
    (kept : BroadcastKept n s (.incommingIrq (irq, true)))
    (raise : irqStep g s (.incommingIrq (irq, true)) = some u)
    (later : run (irqStep g) u after = some t) :
    (bitGet s.broadcast n = true →
      (∀ cpu, bitGet (u.procForce cpu) n = true) ∧ bitGet u.pending n = bitGet s.pending n ∧
      ∀ cpu, (∀ op ∈ after, ¬ ReleasesForce cpu n op) → bitGet (t.procForce cpu) n = true) ∧
    (bitGet s.broadcast n = false →
      bitGet u.pending n = true ∧
      (∀ cpu, bitGet (u.procForce cpu) n = bitGet (s.procForce cpu) n) ∧
      ∀ irq : Fin 32, irq.val = n → ∀ cpu,
        bitGet (step g t (.acknowledgedIrq irq cpu)).pending n = false) := by
  have inside : n < 32 := by omega
  rw [irqStep, Option.some.injEq] at raise
  subst raise
  have raised := raised_incommingIrq s irq
  have above := kept rfl hit
  constructor
  · intro cast
    rw [cast] at above
    have forced (cpu : Fin g.ncpu) : Forced (incommingIrq g s (irq, true)) cpu n :=
      ⟨(raised.procForce cpu n inside).mpr (.inr ⟨hit, lt, above⟩),
        (raised.forcereg cpu n inside).mpr (.inr ⟨hit, lt, above⟩)⟩
    have empty : ClearHalfEmpty (step g s (.incommingIrq (irq, true))) :=
      clearHalfEmpty_step s _ (clearHalfEmpty_run clearHalfEmpty_init reached)
    refine ⟨fun cpu => (forced cpu).procForce, ?_, fun cpu held => ?_⟩
    · refine Bool.eq_iff_iff.mpr ((raised.pending n inside).trans ?_)
      simp [above]
    · have final := run_preserves (P := fun s => ClearHalfEmpty s ∧ Forced s cpu n)
        (fun s op t inv ok next => by
          rw [irqStep, Option.some.injEq] at next
          subst next
          exact ⟨clearHalfEmpty_step s op inv.1, forced_step pos lt s op inv.1 inv.2 ok⟩)
        ⟨empty, forced cpu⟩ (along_of_forall _ held) later
      exact final.2.procForce
  · intro direct
    rw [direct] at above
    refine ⟨(raised.pending n inside).mpr (.inr ⟨hit, above⟩), fun cpu => ?_, fun line eq cpu => ?_⟩
    · refine Bool.eq_iff_iff.mpr ((raised.procForce cpu n inside).trans ?_)
      simp [above]
    · change bitGet (bitSet (dropIdentified g t cpu).pending line false) n = false
      rw [bitGet_bitSet, if_pos ⟨eq.symm, inside⟩]

/-- Lines 3 and 4 set to broadcast and line 3 raised: it stays forced for processor 1 while
processor 0 acknowledges it. -/
theorem broadcast_protocol_two :
    ∃ s u t : Registers sharedCascade.ncpu,
      run (irqStep sharedCascade) (initRegisters sharedCascade) [.writeBroadcast 0x18] = some s ∧
      irqStep sharedCascade s (.incommingIrq (0x8, true)) = some u ∧
      run (irqStep sharedCascade) u [.acknowledgedIrq 3 (firstCpu sharedCascade)] = some t ∧
      bitGet (t.procForce ⟨1, by decide⟩) 3 = true := by
  refine ⟨_, _, _, rfl, rfl, rfl, ?_⟩
  have protocol := @broadcast_protocol sharedCascade 3 (by decide) (by decide) [.writeBroadcast 0x18]
    [.acknowledgedIrq 3 (firstCpu sharedCascade)] 0x8 _ _ _ rfl (by decide)
    (fun _ _ => by decide) rfl rfl
  refine (protocol.1 (by decide)).2.2 _ fun op member => ?_
  rw [List.mem_singleton] at member
  subst member
  rintro ⟨eq, -⟩
  exact absurd eq (by decide)

/-- Line 3 set to broadcast and raised goes to the pending register: the bit of line 4 is tested. -/
theorem broadcast_missed :
    ¬ ∀ s u : Registers sharedCascade.ncpu,
      run (irqStep sharedCascade) (initRegisters sharedCascade) [.writeBroadcast 0x8] = some s →
      irqStep sharedCascade s (.incommingIrq (0x8, true)) = some u →
      bitGet s.broadcast 3 = true →
      (∀ cpu, bitGet (u.procForce cpu) 3 = true) ∧ bitGet u.pending 3 = bitGet s.pending 3 := by
  intro claim
  have kept := claim _ _ rfl rfl (by decide)
  exact absurd (kept.1 (firstCpu sharedCascade)) (by decide)

end Protocol

end Socrocket.Irqmp
