/- Socrocket/Irqmp/Launch
   digest: What one launch pass requests of each processor, and when it is the most urgent line. -/

import Socrocket.Base.Priority
import Socrocket.Irqmp.Controller

set_option autoImplicit false
set_option relaxedAutoImplicit false

namespace Socrocket.Irqmp

open Socrocket.Core.SrRegister
open Socrocket.Base.Priority

variable {g : Generics}

/-- A line of level 1. -/
def LevelOne (level : BitVec 32) (n : ℕ) : Prop := bitGet level n = true

/-- A line is pending for all processors and unmasked for one. -/
def PendingUnmasked (s : Registers g.ncpu) (cpu : Fin g.ncpu) (n : ℕ) : Prop :=
  (bitGet s.pending n = true ∨ bitGet s.force n = true) ∧ bitGet (s.procMask cpu) n = true

/-- An extended line is pending and unmasked for a processor. -/
def ExtendedPending (s : Registers g.ncpu) (cpu : Fin g.ncpu) : Prop :=
  ∃ k, 16 ≤ k ∧ k < 32 ∧ PendingUnmasked s cpu k

/-- The lines a processor has to be told about: pending and unmasked, forced, or the cascade of a
pending extended line. -/
def Active (s : Registers g.ncpu) (cpu : Fin g.ncpu) : Set ℕ :=
  {n | (0 < n ∧ n < 16) ∧ (PendingUnmasked s cpu n ∨ bitGet (s.procForce cpu) n = true ∨
    (n = g.eirq ∧ ExtendedPending s cpu))}

/-- A request names the selected active line, or there is none and nothing is requested. -/
def Requests (level : BitVec 32) (active : Set ℕ) (req : IrqReq) : Prop :=
  (∃ n, IsSelected (LevelOne level) active n ∧ req.line = BitVec.ofNat 32 n ∧ req.raised = true) ∨
    (active = ∅ ∧ req.line = 0 ∧ req.raised = false)

private theorem bitGet_regular {n : ℕ} (h : n < 32) :
    bitGet 0x0000FFFE n = (decide (0 < n) && decide (n < 16)) := by
  have each : ∀ i : Fin 32, bitGet 0x0000FFFE i.val =
      (decide (0 < i.val) && decide (i.val < 16)) := by decide
  exact each ⟨n, h⟩

private theorem bitGet_extended {n : ℕ} (h : n < 32) :
    bitGet 0xFFFF0000 n = decide (16 ≤ n) := by
  have each : ∀ i : Fin 32, bitGet 0xFFFF0000 i.val = decide (16 ≤ i.val) := by decide
  exact each ⟨n, h⟩

theorem highestFrom_spec (masked : BitVec 32) (high : ℕ) :
    (highestFrom masked high = 0 ∧ ∀ n, 0 < n → n ≤ high → bitGet masked n = false) ∨
      IsGreatest {n | (0 < n ∧ n ≤ high) ∧ bitGet masked n = true} (highestFrom masked high) := by
  induction high with
  | zero => exact .inl ⟨rfl, fun n pos le => by omega⟩
  | succ high ih =>
    rw [highestFrom]
    by_cases set : bitGet masked (high + 1) = true
    · rw [if_pos set]
      exact .inr ⟨⟨⟨by omega, Nat.le_refl _⟩, set⟩, fun n hn => hn.1.2⟩
    · rw [if_neg set]
      rcases ih with ⟨zero, clear⟩ | ⟨mem, upper⟩
      · refine .inl ⟨zero, fun n pos le => ?_⟩
        by_cases top : n = high + 1
        · simpa [top] using set
        · exact clear n pos (by omega)
      · refine .inr ⟨⟨⟨mem.1.1, Nat.le_succ_of_le mem.1.2⟩, mem.2⟩, ?_⟩
        rintro n ⟨⟨pos, le⟩, hn⟩
        have lower : n ≠ high + 1 := fun eq => set (eq ▸ hn)
        exact upper ⟨⟨pos, by omega⟩, hn⟩

/-- The regular lines set in a vector. -/
def Lines (all : BitVec 32) : Set ℕ := {n | (0 < n ∧ n < 16) ∧ bitGet all n = true}

/-- The search selects the most urgent regular line, and zero when there is none. -/
theorem selectLine_spec (all level : BitVec 32) :
    (selectLine all level = 0 ∧ Lines all = ∅) ∨
      IsSelected (LevelOne level) (Lines all) (selectLine all level) := by
  have upper := highestFrom_spec ((all &&& level) &&& IR_PENDING_IP) 15
  have lower := highestFrom_spec ((all &&& ~~~level) &&& IR_PENDING_IP) 15
  have upper_bit {n : ℕ} (pos : 0 < n) (lt : n < 16) :
      bitGet ((all &&& level) &&& IR_PENDING_IP) n = (bitGet all n && bitGet level n) := by
    rw [bitGet_and, bitGet_and, IR_PENDING_IP, bitGet_regular (by omega)]
    simp [pos, lt]
  have lower_bit {n : ℕ} (pos : 0 < n) (lt : n < 16) :
      bitGet ((all &&& ~~~level) &&& IR_PENDING_IP) n = (bitGet all n && !bitGet level n) := by
    rw [bitGet_and, bitGet_and, IR_PENDING_IP, bitGet_regular (by omega), bitGet_not _ (by omega)]
    simp [pos, lt]
  unfold selectLine
  dsimp only
  rcases upper with ⟨zero, clear⟩ | ⟨mem, top⟩
  · have calm : ∀ n ∈ Lines all, ¬ LevelOne level n := by
      rintro n ⟨⟨pos, lt⟩, set⟩ urgent
      have := clear n pos (by omega)
      rw [upper_bit pos lt, set, show bitGet level n = true from urgent] at this
      exact absurd this (by decide)
    have low_bit {n : ℕ} (member : n ∈ Lines all) :
        bitGet ((all &&& ~~~level) &&& IR_PENDING_IP) n = true := by
      rw [lower_bit member.1.1 member.1.2, member.2]
      simpa [LevelOne] using calm n member
    rw [if_pos zero]
    rcases lower with ⟨zero', clear'⟩ | ⟨mem, top⟩
    · refine .inl ⟨zero', Set.eq_empty_of_forall_notMem fun n member => ?_⟩
      have off := clear' n member.1.1 (by have := member.1.2; omega)
      rw [low_bit member] at off
      exact absurd off (by decide)
    · refine .inr (.inr ⟨calm, ⟨⟨mem.1.1, by have := mem.1.2; omega⟩, ?_⟩, ?_⟩)
      · have set := mem.2
        rw [lower_bit mem.1.1 (by have := mem.1.2; omega), Bool.and_eq_true] at set
        exact set.1
      · intro n member
        exact top ⟨⟨member.1.1, by have := member.1.2; omega⟩, low_bit member⟩
  · have pos := mem.1.1
    have lt : highestFrom ((all &&& level) &&& IR_PENDING_IP) 15 < 16 := by
      have := mem.1.2
      omega
    have set := mem.2
    rw [upper_bit pos lt, Bool.and_eq_true] at set
    rw [if_neg (by omega)]
    refine .inr (.inl ⟨⟨⟨⟨pos, lt⟩, set.1⟩, set.2⟩, ?_⟩)
    rintro n ⟨⟨⟨npos, nlt⟩, nset⟩, urgent⟩
    refine top ⟨⟨npos, by omega⟩, ?_⟩
    rw [upper_bit npos nlt, nset]
    exact urgent

theorem requests_sendRequest (s : Registers g.ncpu) (cpu : Fin g.ncpu) (all : BitVec 32) :
    Requests s.level (Lines all) ((sendRequest g s cpu all).irqReq cpu) := by
  have masked_line {n : ℕ} (lt : n < 16) :
      (0xF : BitVec 32) &&& BitVec.ofNat 32 n = BitVec.ofNat 32 n := by
    have each : ∀ h : Fin 16, (0xF : BitVec 32) &&& BitVec.ofNat 32 h.val = BitVec.ofNat 32 h.val := by
      decide
    exact each ⟨n, lt⟩
  unfold sendRequest
  by_cases pos : selectLine all s.level ≠ 0
  · rw [dif_pos pos]
    have selected := (selectLine_spec all s.level).resolve_left fun h => pos h.1
    have sent : (if requestLine all s.level pos ≠ s.irqReq cpu then
        { s with
          irqReq := Function.update s.irqReq cpu (requestLine all s.level pos)
          cpuCounter := Function.update s.cpuCounter cpu (s.cpuCounter cpu + 1) }
        else s).irqReq cpu = requestLine all s.level pos := by
      split_ifs with changed
      · exact Function.update_self ..
      · exact (not_not.mp changed).symm
    dsimp only
    rw [sent]
    exact .inl ⟨_, selected, masked_line (selectLine_lt all s.level), rfl⟩
  · rw [dif_neg pos]
    have none_active : Lines all = ∅ := by
      rcases selectLine_spec all s.level with ⟨-, empty⟩ | selected
      · exact empty
      · have := selected.mem.1.1
        omega
    refine .inr ⟨none_active, ?_⟩
    split_ifs with line
    · dsimp only
      rw [Function.update_self]
      exact ⟨rfl, rfl⟩
    · have zero : (s.irqReq cpu).line = 0 := not_not.mp line
      exact ⟨zero, (s.irqReq cpu).idle zero⟩

theorem eirqEn_iff (s : Registers g.ncpu) (cpu : Fin g.ncpu) :
    eirqEn g s cpu = true ↔ g.eirq ≠ 0 ∧ ExtendedPending s cpu := by
  unfold eirqEn
  rw [Bool.and_eq_true, decide_eq_true_eq, bne_iff_ne, ne_zero_iff]
  refine and_congr_right fun _ => ⟨?_, ?_⟩
  · rintro ⟨k, lt, set⟩
    rw [bitGet_and, bitGet_or, bitGet_and, IR_PENDING_EIP, bitGet_extended lt, IR_FORCE_IF,
      bitGet_regular lt, Bool.and_eq_true, decide_eq_true_eq] at set
    have regular : ¬ k < 16 := by have := set.2; omega
    refine ⟨k, set.2, lt, ?_⟩
    have unmasked_bit := set.1
    simp only [regular, decide_false, Bool.and_false, Bool.or_false, unmasked, bitGet_and, bitGet_or,
      Bool.and_eq_true, Bool.or_eq_true] at unmasked_bit
    exact unmasked_bit
  · rintro ⟨k, ge, lt, pend⟩
    refine ⟨k, lt, ?_⟩
    have set : bitGet (unmasked g s cpu) k = true := by
      simpa only [unmasked, bitGet_and, bitGet_or, Bool.and_eq_true, Bool.or_eq_true, PendingUnmasked]
        using pend
    rw [bitGet_and, bitGet_or, set, IR_PENDING_EIP, bitGet_extended lt]
    simpa using ge

theorem lines_relevant (s : Registers g.ncpu) (cpu : Fin g.ncpu) :
    Lines (relevant g s cpu) = Active s cpu := by
  ext n
  refine and_congr_right fun range => ?_
  obtain ⟨pos, lt⟩ := range
  have cascade : bitGet ((BitVec.ofBool (eirqEn g s cpu)).setWidth 32 <<< g.eirq) n =
      (decide (n = g.eirq) && eirqEn g s cpu) := by
    have bit := bitGet_bitSet 0 g.eirq (eirqEn g s cpu) n
    have clear : bitGet (0 &&& ~~~(1#32 <<< g.eirq)) n = false := by simp [bitGet]
    rw [bitSet, bitGet_or, clear, Bool.false_or] at bit
    rw [bit]
    by_cases eq : n = g.eirq
    · simp [eq, show g.eirq < 32 by have := g.eirq_lt; omega]
    · simp [eq, bitGet]
  rw [relevant, bitGet_or, bitGet_or, cascade, bitGet_and, IR_FORCE_IF, bitGet_regular (by omega)]
  simp only [unmasked, bitGet_and, bitGet_or, pos, lt, decide_true, Bool.and_true, Bool.or_eq_true,
    Bool.and_eq_true, decide_eq_true_eq, eirqEn_iff, PendingUnmasked]
  constructor
  · rintro ((pend | ⟨eq, -, ext⟩) | forced)
    · exact .inl pend
    · exact .inr (.inr ⟨eq, ext⟩)
    · exact .inr (.inl forced)
  · rintro (pend | forced | ⟨eq, ext⟩)
    · exact .inl (.inl pend)
    · exact .inr forced
    · exact .inl (.inr ⟨eq, by omega, ext⟩)

/-- The pending register the launch loop reads for a processor: the processor above it has rewritten
the cascade bit. -/
def seenPending (s : Registers g.ncpu) (cpu : Fin g.ncpu) : BitVec 32 :=
  if h : g.eirq ≠ 0 ∧ cpu.val + 1 < g.ncpu then
    bitSet s.pending g.eirq (eirqEn g s ⟨cpu.val + 1, h.2⟩)
  else s.pending

/-- What a launch loop over some processors leaves of the registers it reads. -/
structure SameInputs (s t : Registers g.ncpu) : Prop where
  level : t.level = s.level
  force : t.force = s.force
  procMask : t.procMask = s.procMask
  procForce : t.procForce = s.procForce
  broadcast : t.broadcast = s.broadcast
  extirId : t.extirId = s.extirId
  forcereg : t.forcereg = s.forcereg
  pending : ∀ n, n ≠ g.eirq → bitGet t.pending n = bitGet s.pending n

theorem SameInputs.extendedPending_iff {s t : Registers g.ncpu} (same : SameInputs s t)
    (cpu : Fin g.ncpu) : ExtendedPending t cpu ↔ ExtendedPending s cpu := by
  unfold ExtendedPending PendingUnmasked
  refine exists_congr fun k => and_congr_right fun ge => ?_
  have apart : k ≠ g.eirq := by
    have := g.eirq_lt
    omega
  rw [same.force, same.procMask, same.pending k apart]

theorem SameInputs.eirqEn_eq {s t : Registers g.ncpu} (same : SameInputs s t) (cpu : Fin g.ncpu) :
    eirqEn g t cpu = eirqEn g s cpu := by
  rw [Bool.eq_iff_iff, eirqEn_iff, eirqEn_iff, same.extendedPending_iff]

private theorem sendRequest_eq (s : Registers g.ncpu) (cpu : Fin g.ncpu) (all : BitVec 32) :
    ∃ req count, sendRequest g s cpu all = { s with irqReq := req, cpuCounter := count } := by
  unfold sendRequest
  dsimp only
  split_ifs
  · exact ⟨_, _, rfl⟩
  · exact ⟨_, _, rfl⟩
  · exact ⟨_, _, rfl⟩
  · exact ⟨_, _, rfl⟩

theorem launchCpu_registers (s : Registers g.ncpu) (cpu : Fin g.ncpu) :
    SameInputs s (launchCpu g cpu s) ∧ (launchCpu g cpu s).pending =
      if g.eirq ≠ 0 then bitSet s.pending g.eirq (eirqEn g s cpu) else s.pending := by
  unfold launchCpu
  dsimp only
  obtain ⟨req, count, sent⟩ := sendRequest_eq
    (if g.eirq ≠ 0 then { s with pending := bitSet s.pending g.eirq (eirqEn g s cpu) } else s) cpu
    (relevant g s cpu)
  rw [sent]
  by_cases cascade : g.eirq ≠ 0
  · simp only [if_pos cascade]
    refine ⟨⟨rfl, rfl, rfl, rfl, rfl, rfl, rfl, fun n apart => ?_⟩, trivial⟩
    exact bitGet_bitSet_ne apart
  · simp only [if_neg cascade]
    exact ⟨⟨rfl, rfl, rfl, rfl, rfl, rfl, rfl, fun n _ => rfl⟩, trivial⟩

private theorem bitSet_bitSet (r : BitVec 32) (pos : ℕ) (v w : Bool) :
    bitSet (bitSet r pos v) pos w = bitSet r pos w := by
  apply BitVec.eq_of_getLsbD_eq
  intro i hi
  have outer := bitGet_bitSet (bitSet r pos v) pos w i
  have inner := bitGet_bitSet r pos v i
  have direct := bitGet_bitSet r pos w i
  unfold bitGet at outer inner direct
  rw [outer, inner, direct]
  split_ifs <;> rfl

/-- After the loop ran over a list of processors, the cascade bit is that of the last one it ran. -/
theorem launch_fold (s : Registers g.ncpu) (cpus : List (Fin g.ncpu)) :
    SameInputs s (cpus.foldr (launchCpu g) s) ∧ (cpus.foldr (launchCpu g) s).pending =
      match cpus with
      | [] => s.pending
      | cpu :: _ => if g.eirq ≠ 0 then bitSet s.pending g.eirq (eirqEn g s cpu) else s.pending := by
  induction cpus with
  | nil => exact ⟨⟨rfl, rfl, rfl, rfl, rfl, rfl, rfl, fun _ _ => rfl⟩, rfl⟩
  | cons cpu cpus ih =>
    rw [List.foldr_cons]
    generalize rest : cpus.foldr (launchCpu g) s = t at ih
    obtain ⟨same, pending⟩ := ih
    obtain ⟨step, here⟩ := launchCpu_registers t cpu
    refine ⟨⟨step.level.trans same.level, step.force.trans same.force,
      step.procMask.trans same.procMask, step.procForce.trans same.procForce,
      step.broadcast.trans same.broadcast, step.extirId.trans same.extirId,
      step.forcereg.trans same.forcereg, fun n apart =>
        (step.pending n apart).trans (same.pending n apart)⟩, ?_⟩
    rw [here, same.eirqEn_eq]
    dsimp only
    by_cases cascade : g.eirq ≠ 0
    · rw [if_pos cascade, if_pos cascade, pending]
      cases cpus with
      | nil => rfl
      | cons first others => simp only [if_pos cascade, bitSet_bitSet]
    · rw [if_neg cascade, if_neg cascade, pending]
      cases cpus with
      | nil => rfl
      | cons first others => simp only [if_neg cascade]

private theorem irqReq_sendRequest_ne (s : Registers g.ncpu) {cpu c : Fin g.ncpu} (ne : c ≠ cpu)
    (all : BitVec 32) : (sendRequest g s cpu all).irqReq c = s.irqReq c := by
  unfold sendRequest
  dsimp only
  split_ifs
  · exact Function.update_of_ne ne ..
  · rfl
  · exact Function.update_of_ne ne ..
  · rfl

private theorem irqReq_launch_ne (s : Registers g.ncpu) {c : Fin g.ncpu} (cpus : List (Fin g.ncpu))
    (absent : c ∉ cpus) : (cpus.foldr (launchCpu g) s).irqReq c = s.irqReq c := by
  induction cpus with
  | nil => rfl
  | cons cpu cpus ih =>
    rw [List.mem_cons, not_or] at absent
    rw [List.foldr_cons, launchCpu, irqReq_sendRequest_ne _ absent.1]
    split_ifs <;> exact ih absent.2

/-- The state the loop body of a processor starts from. -/
def beforeCpu (s : Registers g.ncpu) (cpu : Fin g.ncpu) : Registers g.ncpu :=
  ((List.finRange g.ncpu).drop (cpu.val + 1)).foldr (launchCpu g) s

theorem irqReq_launchIrq (s : Registers g.ncpu) (cpu : Fin g.ncpu) :
    (launchIrq g s).irqReq cpu = (launchCpu g cpu (beforeCpu s cpu)).irqReq cpu := by
  have len : cpu.val < (List.finRange g.ncpu).length := by
    rw [List.length_finRange]
    exact cpu.isLt
  have split : List.finRange g.ncpu = (List.finRange g.ncpu).take cpu.val ++
      cpu :: (List.finRange g.ncpu).drop (cpu.val + 1) := by
    conv_lhs => rw [← List.take_append_drop cpu.val (List.finRange g.ncpu)]
    rw [List.drop_eq_getElem_cons len, List.getElem_finRange]
    rfl
  have absent : cpu ∉ (List.finRange g.ncpu).take cpu.val := by
    have nodup := List.nodup_finRange g.ncpu
    rw [split, List.nodup_append] at nodup
    intro member
    exact nodup.2.2 cpu member cpu (List.mem_cons_self ..) rfl
  rw [launchIrq, split, List.foldr_append, irqReq_launch_ne _ _ absent, List.foldr_cons, beforeCpu]

theorem beforeCpu_inputs (s : Registers g.ncpu) (cpu : Fin g.ncpu) :
    SameInputs s (beforeCpu s cpu) ∧ (beforeCpu s cpu).pending = seenPending s cpu := by
  obtain ⟨same, pending⟩ := launch_fold s ((List.finRange g.ncpu).drop (cpu.val + 1))
  refine ⟨same, ?_⟩
  rw [beforeCpu, pending, seenPending]
  by_cases above : cpu.val + 1 < g.ncpu
  · have len : cpu.val + 1 < (List.finRange g.ncpu).length := by rwa [List.length_finRange]
    rw [List.drop_eq_getElem_cons len, List.getElem_finRange]
    by_cases cascade : g.eirq ≠ 0
    · rw [dif_pos ⟨cascade, above⟩]
      simp only [if_pos cascade]
      rfl
    · rw [dif_neg fun h => cascade h.1]
      simp only [if_neg cascade]
  · have all : (List.finRange g.ncpu).drop (cpu.val + 1) = [] := by
      rw [List.drop_eq_nil_iff, List.length_finRange]
      omega
    rw [all, dif_neg fun h => above h.2]

/-- What a processor is told in one pass: the selected one of the lines active with the pending
register the loop reads for it. -/
theorem requests_launchIrq (s : Registers g.ncpu) (cpu : Fin g.ncpu) :
    Requests s.level (Active { s with pending := seenPending s cpu } cpu)
      ((launchIrq g s).irqReq cpu) := by
  obtain ⟨same, pending⟩ := beforeCpu_inputs s cpu
  have active : Active (beforeCpu s cpu) cpu = Active { s with pending := seenPending s cpu } cpu := by
    unfold Active ExtendedPending PendingUnmasked
    rw [same.force, same.procMask, same.procForce, pending]
  rw [irqReq_launchIrq, launchCpu, ← active, ← same.level, ← lines_relevant]
  by_cases cascade : g.eirq ≠ 0
  · rw [if_pos cascade]
    generalize bitSet (beforeCpu s cpu).pending g.eirq (eirqEn g (beforeCpu s cpu) cpu) = written
    exact requests_sendRequest { beforeCpu s cpu with pending := written } cpu
      (relevant g (beforeCpu s cpu) cpu)
  · rw [if_neg cascade]
    exact requests_sendRequest (beforeCpu s cpu) cpu (relevant g (beforeCpu s cpu) cpu)

private theorem ofNat_inj {n m : ℕ} (hn : n < 16) (hm : m < 16)
    (eq : BitVec.ofNat 32 n = BitVec.ofNat 32 m) : n = m := by
  have := congrArg BitVec.toNat eq
  rw [BitVec.toNat_ofNat, BitVec.toNat_ofNat] at this
  omega

private theorem requests_iff_of_agree {level : BitVec 32} {s t : Set ℕ} {e : ℕ} {req : IrqReq}
    (hs : ∀ n ∈ s, n < 16) (ht : ∀ n ∈ t, n < 16) (agree : ∀ n, n ≠ e → (n ∈ s ↔ n ∈ t))
    (right : Requests level t req) :
    Requests level s req ↔
      ((e ∈ s ↔ e ∈ t) ∨ ∃ n ∈ s, n ≠ e ∧ Outranks (LevelOne level) n e) := by
  rw [← selected_iff_of_agree agree]
  constructor
  · intro claimed
    rcases right with ⟨n, selected, line, raised⟩ | ⟨empty, line, raised⟩
    · rcases claimed with ⟨m, chosen, line', -⟩ | ⟨-, -, raised'⟩
      · have eq : m = n := ofNat_inj (hs m chosen.mem) (ht n selected.mem) (line'.symm.trans line)
        subst m
        intro a
        exact ⟨fun h => (h.unique chosen) ▸ selected, fun h => (h.unique selected) ▸ chosen⟩
      · rw [raised] at raised'
        exact absurd raised' (by decide)
    · rcases claimed with ⟨m, -, -, raised'⟩ | ⟨empty', -, -⟩
      · rw [raised] at raised'
        exact absurd raised' (by decide)
      · rw [empty, empty']
        exact fun a => Iff.rfl
  · intro same
    rcases right with ⟨n, selected, line, raised⟩ | ⟨empty, line, raised⟩
    · exact .inl ⟨n, (same n).mpr selected, line, raised⟩
    · refine .inr ⟨?_, line, raised⟩
      have both := (selected_iff_of_agree agree).mp same
      rcases both with both | ⟨n, member, apart, -⟩
      · apply Set.eq_empty_of_forall_notMem
        intro n member
        by_cases eq : n = e
        · exact absurd (both.mp (eq ▸ member)) (empty ▸ Set.notMem_empty e)
        · exact absurd ((agree n eq).mp member) (empty ▸ Set.notMem_empty n)
      · exact absurd ((agree n apart).mp member) (empty ▸ Set.notMem_empty n)

/-- The shared pending bit of the cascade does not matter to a processor: there is no cascade, it is
masked, or the line is active anyway. -/
def CascadeDecided (s : Registers g.ncpu) (cpu : Fin g.ncpu) : Prop :=
  g.eirq = 0 ∨ bitGet (s.procMask cpu) g.eirq = false ∨ bitGet s.force g.eirq = true ∨
    bitGet (s.procForce cpu) g.eirq = true ∨ ExtendedPending s cpu

/-- The processor served before, if any, has an extended line pending exactly when the cascade line
itself is pending. -/
def CascadeAgrees (s : Registers g.ncpu) (cpu : Fin g.ncpu) : Prop :=
  ∀ above : Fin g.ncpu, above.val = cpu.val + 1 →
    (ExtendedPending s above ↔ bitGet s.pending g.eirq = true)

/-- Another active line is more urgent than the cascade. -/
def CascadeOutranked (s : Registers g.ncpu) (cpu : Fin g.ncpu) : Prop :=
  ∃ n ∈ Active s cpu, n ≠ g.eirq ∧ Outranks (LevelOne s.level) n g.eirq

private theorem bitGet_seenPending (s : Registers g.ncpu) (cpu : Fin g.ncpu) (n : ℕ) :
    bitGet (seenPending s cpu) n = true ↔
      if n = g.eirq ∧ g.eirq ≠ 0 ∧ cpu.val + 1 < g.ncpu then
        ∃ above : Fin g.ncpu, above.val = cpu.val + 1 ∧ ExtendedPending s above
      else bitGet s.pending n = true := by
  have small : g.eirq < 32 := by
    have := g.eirq_lt
    omega
  unfold seenPending
  by_cases shared : g.eirq ≠ 0 ∧ cpu.val + 1 < g.ncpu
  · rw [dif_pos shared, bitGet_bitSet]
    by_cases eq : n = g.eirq
    · rw [if_pos ⟨eq, eq ▸ small⟩, if_pos ⟨eq, shared⟩, eirqEn_iff]
      constructor
      · rintro ⟨-, ext⟩
        exact ⟨_, rfl, ext⟩
      · rintro ⟨above, val, ext⟩
        have same : above = ⟨cpu.val + 1, shared.2⟩ := Fin.ext val
        exact ⟨shared.1, same ▸ ext⟩
    · rw [if_neg fun h => eq h.1, if_neg fun h => eq h.1]
  · rw [dif_neg shared, if_neg fun h => shared h.2]

private theorem extendedPending_seenPending (s : Registers g.ncpu) (cpu : Fin g.ncpu) :
    ExtendedPending { s with pending := seenPending s cpu } cpu ↔ ExtendedPending s cpu := by
  unfold ExtendedPending PendingUnmasked
  refine exists_congr fun k => and_congr_right fun ge => ?_
  have apart : k ≠ g.eirq := by
    have := g.eirq_lt
    omega
  dsimp only
  rw [bitGet_seenPending, if_neg fun h => apart h.1]

private theorem active_seenPending_iff (s : Registers g.ncpu) (cpu : Fin g.ncpu) {n : ℕ}
    (ne : n ≠ g.eirq) :
    n ∈ Active s cpu ↔ n ∈ Active { s with pending := seenPending s cpu } cpu := by
  unfold Active PendingUnmasked
  rw [Set.mem_ofPred_eq, Set.mem_ofPred_eq, extendedPending_seenPending]
  dsimp only
  rw [bitGet_seenPending, if_neg fun h => ne h.1]

private theorem cascade_mem_iff (s : Registers g.ncpu) (cpu : Fin g.ncpu) :
    (g.eirq ∈ Active s cpu ↔ g.eirq ∈ Active { s with pending := seenPending s cpu } cpu) ↔
      CascadeDecided s cpu ∨ CascadeAgrees s cpu := by
  have member (t : Registers g.ncpu) (procMask : t.procMask = s.procMask) (force : t.force = s.force)
      (procForce : t.procForce = s.procForce) (ext : ExtendedPending t cpu ↔ ExtendedPending s cpu) :
      g.eirq ∈ Active t cpu ↔ g.eirq ≠ 0 ∧
        ((bitGet t.pending g.eirq = true ∨ bitGet s.force g.eirq = true) ∧
          bitGet (s.procMask cpu) g.eirq = true ∨ bitGet (s.procForce cpu) g.eirq = true ∨
          ExtendedPending s cpu) := by
    have := g.eirq_lt
    unfold Active PendingUnmasked
    rw [Set.mem_ofPred_eq, ext, procMask, force, procForce]
    constructor
    · rintro ⟨⟨pos, -⟩, pend | forced | ⟨-, extended⟩⟩
      · exact ⟨by omega, .inl pend⟩
      · exact ⟨by omega, .inr (.inl forced)⟩
      · exact ⟨by omega, .inr (.inr extended)⟩
    · rintro ⟨cascade, pend | forced | extended⟩
      · exact ⟨by omega, .inl pend⟩
      · exact ⟨by omega, .inr (.inl forced)⟩
      · exact ⟨by omega, .inr (.inr ⟨rfl, extended⟩)⟩
  rw [member s rfl rfl rfl Iff.rfl, member { s with pending := seenPending s cpu } rfl rfl rfl
    (extendedPending_seenPending s cpu)]
  dsimp only
  by_cases decided : CascadeDecided s cpu
  · refine ⟨fun _ => .inl decided, fun _ => ?_⟩
    rcases decided with zero | masked | forced | own | extended
    · simp [zero]
    · simp [masked]
    · simp [forced]
    · simp [own]
    · simp [extended]
  · have open_bit := decided
    unfold CascadeDecided at open_bit
    push Not at open_bit
    obtain ⟨cascade, unmasked, forced, own, extended⟩ := open_bit
    have mask : bitGet (s.procMask cpu) g.eirq = true := by simpa using unmasked
    simp only [cascade, mask, forced, own, extended, ne_eq, not_false_eq_true, true_and, and_true,
      or_false, false_or, Bool.false_eq_true, decided, bitGet_seenPending, CascadeAgrees]
    by_cases above : cpu.val + 1 < g.ncpu
    · rw [if_pos above]
      constructor
      · intro same c val
        refine ⟨fun ext => same.mpr ⟨c, val, ext⟩, fun pend => ?_⟩
        obtain ⟨c', val', ext⟩ := same.mp pend
        have eq : c' = c := Fin.ext (val'.trans val.symm)
        exact eq ▸ ext
      · intro agrees
        refine ⟨fun pend => ⟨⟨cpu.val + 1, above⟩, rfl, (agrees _ rfl).mpr pend⟩, ?_⟩
        rintro ⟨c, val, ext⟩
        exact (agrees c val).mp ext
    · rw [if_neg above]
      refine ⟨fun _ c val => absurd (val ▸ c.isLt) above, fun _ => Iff.rfl⟩

/-- Interrupt prioritisation of one launch pass: a processor is requested the most urgent of its
active lines exactly when the cascade bit the processor above it leaves behind makes no
difference. -/
theorem launch_requests_iff (s : Registers g.ncpu) (cpu : Fin g.ncpu) :
    Requests s.level (Active s cpu) ((launchIrq g s).irqReq cpu) ↔
      CascadeDecided s cpu ∨ CascadeAgrees s cpu ∨ CascadeOutranked s cpu := by
  rw [requests_iff_of_agree (fun n hn => hn.1.2) (fun n hn => hn.1.2)
    (fun n ne => active_seenPending_iff s cpu ne) (requests_launchIrq s cpu), cascade_mem_iff,
    or_assoc]
  rfl

/-- Two processors, extended lines cascaded on line 1, and line 1 pending. -/
def sharedCascade : Generics := ⟨2, 1, by omega, by omega⟩

/-- The pass over processor 1 clears the pending line 1 before processor 0 is served. -/
theorem launch_requests_fails :
    ¬ ∀ (s : Registers sharedCascade.ncpu) (cpu : Fin sharedCascade.ncpu),
      Requests s.level (Active s cpu) ((launchIrq sharedCascade s).irqReq cpu) := by
  intro claim
  have requested := claim { initRegisters sharedCascade with pending := 0x2 } ⟨0, by decide⟩
  have active : 1 ∈ Active { initRegisters sharedCascade with pending := 0x2 } ⟨0, by decide⟩ :=
    ⟨by decide, .inl ⟨.inl (by decide), by decide⟩⟩
  have lowered : ((launchIrq sharedCascade { initRegisters sharedCascade with pending := 0x2 }).irqReq
      ⟨0, by decide⟩).raised = false := by decide
  rcases requested with ⟨n, -, -, raised⟩ | ⟨empty, -, -⟩
  · rw [lowered] at raised
    exact absurd raised (by decide)
  · rw [empty] at active
    exact active

end Socrocket.Irqmp
