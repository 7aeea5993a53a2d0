/- Socrocket/Irqmp/Operations
   digest: What each operation of the interrupt controller does to the bits of its registers. -/

import Socrocket.Irqmp.Launch

set_option autoImplicit false
set_option relaxedAutoImplicit false

namespace Socrocket.Irqmp

open Socrocket.Core.SrRegister

variable {g : Generics}

/-- No processor has identified an extended interrupt. -/
def NoneIdentified (s : Registers g.ncpu) : Prop := ∀ cpu, s.extirId cpu = 0

section Raise

/-- What raising some lines of a vector leaves behind. -/
structure Raised (s t : Registers g.ncpu) (hit : ℕ → Prop) : Prop where
  broadcast : t.broadcast = s.broadcast
  extirId : t.extirId = s.extirId
  pending : ∀ n < 32, bitGet t.pending n = true ↔
    bitGet s.pending n = true ∨ (hit n ∧ bitGet s.broadcast (n + 1) = false)
  procForce : ∀ cpu, ∀ n < 32, bitGet (t.procForce cpu) n = true ↔
    bitGet (s.procForce cpu) n = true ∨ (hit n ∧ n < 16 ∧ bitGet s.broadcast (n + 1) = true)
  forcereg : ∀ cpu, ∀ n < 32, bitGet (t.forcereg cpu) n = true ↔
    bitGet (s.forcereg cpu) n = true ∨ (hit n ∧ n < 16 ∧ bitGet s.broadcast (n + 1) = true)

private theorem bitGet_or_one (r : BitVec 32) {line n : ℕ} (lt : n < 32) :
    bitGet (r ||| 1#32 <<< line) n = true ↔ bitGet r n = true ∨ n = line := by
  rw [bitGet_or, Bool.or_eq_true]
  have shifted : bitGet (1#32 <<< line) n = (decide (n = line) && decide (n < 32)) :=
    getLsbD_one_shiftLeft line n
  simp [shifted, lt]

private theorem bitGet_bitSet_true (r : BitVec 32) {line n : ℕ} (lt : n < 32) :
    bitGet (bitSet r line true) n = true ↔ bitGet r n = true ∨ n = line := by
  rw [bitGet_bitSet]
  by_cases eq : n = line
  · simp [eq, eq ▸ lt]
  · simp [eq]

theorem raised_incommingLine (s : Registers g.ncpu) (line : ℕ) :
    Raised s (incommingLine g s line) (· = line) := by
  by_cases cast : bitGet s.broadcast (line + 1) = true
  · by_cases regular : line < 16
    · have result : incommingLine g s line = { s with
          irqCounter := Function.update s.irqCounter line (s.irqCounter line + 1)
          procForce := fun cpu => bitSet (s.procForce cpu) line true
          forcereg := fun cpu => s.forcereg cpu ||| 1#32 <<< line } := by
        simp [incommingLine, cast, regular]
      rw [result]
      refine ⟨rfl, rfl, fun n lt => ?_, fun cpu n lt => ?_, fun cpu n lt => ?_⟩
      · constructor
        · exact .inl
        · rintro (old | ⟨rfl, off⟩)
          · exact old
          · rw [cast] at off
            exact absurd off (by decide)
      · rw [bitGet_bitSet_true _ lt]
        refine or_congr_right ⟨fun eq => ⟨eq, by omega, eq ▸ cast⟩, fun h => h.1⟩
      · rw [bitGet_or_one _ lt]
        refine or_congr_right ⟨fun eq => ⟨eq, by omega, eq ▸ cast⟩, fun h => h.1⟩
    · have result : incommingLine g s line = { s with
          irqCounter := Function.update s.irqCounter line (s.irqCounter line + 1) } := by
        simp [incommingLine, cast, regular]
      rw [result]
      refine ⟨rfl, rfl, fun n lt => ?_, fun cpu n lt => ?_, fun cpu n lt => ?_⟩
      · constructor
        · exact .inl
        · rintro (old | ⟨rfl, off⟩)
          · exact old
          · rw [cast] at off
            exact absurd off (by decide)
      · exact ⟨.inl, fun h => h.resolve_right fun k => regular (k.1 ▸ k.2.1)⟩
      · exact ⟨.inl, fun h => h.resolve_right fun k => regular (k.1 ▸ k.2.1)⟩
  · have off : bitGet s.broadcast (line + 1) = false := by simpa using cast
    have result : incommingLine g s line = { s with
        irqCounter := Function.update s.irqCounter line (s.irqCounter line + 1)
        pending := bitSet s.pending line true } := by
      simp [incommingLine, off]
    rw [result]
    refine ⟨rfl, rfl, fun n lt => ?_, fun cpu n lt => ?_, fun cpu n lt => ?_⟩
    · rw [bitGet_bitSet_true _ lt]
      refine or_congr_right ⟨fun eq => ⟨eq, eq ▸ off⟩, fun h => h.1⟩
    · exact ⟨.inl, fun h => h.resolve_right fun k => cast (k.1 ▸ k.2.2)⟩
    · exact ⟨.inl, fun h => h.resolve_right fun k => cast (k.1 ▸ k.2.2)⟩

theorem Raised.trans {s t u : Registers g.ncpu} {hit hit' : ℕ → Prop} (first : Raised s t hit)
    (second : Raised t u hit') : Raised s u fun n => hit n ∨ hit' n where
  broadcast := second.broadcast.trans first.broadcast
  extirId := second.extirId.trans first.extirId
  pending n lt := by
    rw [second.pending n lt, first.pending n lt, first.broadcast]
    tauto
  procForce cpu n lt := by
    rw [second.procForce cpu n lt, first.procForce cpu n lt, first.broadcast]
    tauto
  forcereg cpu n lt := by
    rw [second.forcereg cpu n lt, first.forcereg cpu n lt, first.broadcast]
    tauto

theorem Raised.congr {s t : Registers g.ncpu} {hit hit' : ℕ → Prop} (raised : Raised s t hit)
    (same : ∀ n < 32, hit n ↔ hit' n) : Raised s t hit' where
  broadcast := raised.broadcast
  extirId := raised.extirId
  pending n lt := by rw [raised.pending n lt, same n lt]
  procForce cpu n lt := by rw [raised.procForce cpu n lt, same n lt]
  forcereg cpu n lt := by rw [raised.forcereg cpu n lt, same n lt]

theorem Raised.refl (s : Registers g.ncpu) : Raised s s fun _ => False where
  broadcast := rfl
  extirId := rfl
  pending n _ := by simp
  procForce cpu n _ := by simp
  forcereg cpu n _ := by simp

private theorem raised_lines (irq : BitVec 32) (lines : List ℕ) (s : Registers g.ncpu) :
    Raised s (lines.foldl (fun s line => if bitGet irq line then incommingLine g s line else s) s)
      fun n => n ∈ lines ∧ bitGet irq n = true := by
  induction lines generalizing s with
  | nil => exact (Raised.refl s).congr fun n _ => by simp
  | cons line lines ih =>
    rw [List.foldl_cons]
    by_cases set : bitGet irq line = true
    · rw [if_pos set]
      refine ((raised_incommingLine s line).trans (ih _)).congr fun n _ => ?_
      rw [List.mem_cons]
      constructor
      · rintro (rfl | ⟨member, bit⟩)
        · exact ⟨.inl rfl, set⟩
        · exact ⟨.inr member, bit⟩
      · rintro ⟨eq | member, bit⟩
        · exact .inl eq
        · exact .inr ⟨member, bit⟩
    · rw [if_neg set]
      refine (ih s).congr fun n _ => ?_
      rw [List.mem_cons]
      constructor
      · exact fun h => ⟨.inr h.1, h.2⟩
      · rintro ⟨rfl | member, bit⟩
        · exact absurd bit set
        · exact ⟨member, bit⟩

theorem raised_incommingIrq (s : Registers g.ncpu) (irq : BitVec 32) :
    Raised s (incommingIrq g s (irq, true)) fun n => bitGet irq n = true :=
  (raised_lines irq (List.range 32) s).congr fun n lt => by simp [lt]

end Raise

section Withdraw

theorem lowerLines_eq (s : Registers g.ncpu) (lines : BitVec 32) :
    ∃ req, lowerLines g s lines = { s with irqReq := req } := by
  unfold lowerLines
  induction List.range 15 with
  | nil => exact ⟨s.irqReq, rfl⟩
  | cons i is ih =>
    obtain ⟨req, rest⟩ := ih
    rw [List.foldr_cons, rest]
    split_ifs
    · exact ⟨_, rfl⟩
    · exact ⟨req, rfl⟩

theorem dropIdentified_of_none {s : Registers g.ncpu} (none : NoneIdentified s) (cpu : Fin g.ncpu) :
    dropIdentified g s cpu = s := by
  unfold dropIdentified
  exact if_neg fun h => h.2 (none cpu)

theorem clearWrite_of_none {s : Registers g.ncpu} (none : NoneIdentified s) :
    ∃ req, clearWrite g s = { s with
      irqReq := req
      pending := s.pending &&& ~~~s.clear
      force := s.force &&& ~~~s.clear
      clear := 0 } := by
  have untouched (cpus : List (Fin g.ncpu)) : cpus.foldl (fun s cpu =>
      if g.eirq ≠ 0 ∧ s.extirId cpu ≠ 0 then
        { dropIdentified g s cpu with extirId := Function.update s.extirId cpu 0 }
      else s) s = s := by
    induction cpus with
    | nil => rfl
    | cons cpu cpus ih => rw [List.foldl_cons, if_neg fun h => h.2 (none cpu), ih]
  unfold clearWrite
  dsimp only
  rw [untouched]
  split_ifs
  · obtain ⟨req, lowered⟩ := lowerLines_eq (lowerAll g s (BitVec.ofNat 32 g.eirq)) s.clear
    exact ⟨req, by rw [show (lowerAll g s (BitVec.ofNat 32 g.eirq)).clear =
      s.clear from rfl, lowered]; rfl⟩
  · obtain ⟨req, lowered⟩ := lowerLines_eq s s.clear
    exact ⟨req, by rw [lowered]⟩

end Withdraw

section Force

/-- The shadow after a merge of a force register. -/
def mergeForce (shadow reg : BitVec 32) : BitVec 32 :=
  (shadow ||| reg) &&& (~~~((shadow ||| reg) >>> 16) &&& PROC_IR_FORCE_IF)

/-- The registers a force register write leaves alone, and what it does to each processor. -/
structure Merged (s t : Registers g.ncpu) (served : Fin g.ncpu → Prop) : Prop where
  broadcast : t.broadcast = s.broadcast
  extirId : t.extirId = s.extirId
  pending : NoneIdentified s → t.pending = s.pending
  procForce : ∀ cpu, (served cpu → t.procForce cpu = mergeForce (s.forcereg cpu) (s.procForce cpu)) ∧
    (¬ served cpu → t.procForce cpu = s.procForce cpu)
  forcereg : ∀ cpu, (served cpu → t.forcereg cpu = mergeForce (s.forcereg cpu) (s.procForce cpu)) ∧
    (¬ served cpu → t.forcereg cpu = s.forcereg cpu)

theorem merged_forceCpu (s : Registers g.ncpu) (cpu : Fin g.ncpu) :
    Merged s (forceCpu g s cpu) (· = cpu) := by
  obtain ⟨req, lowered⟩ := lowerLines_eq s (s.procForce cpu >>> 16)
  have fields (t : Registers g.ncpu) : (dropIdentified g t cpu).broadcast = t.broadcast ∧
      (dropIdentified g t cpu).extirId = t.extirId ∧ (dropIdentified g t cpu).procForce = t.procForce ∧
      (dropIdentified g t cpu).forcereg = t.forcereg := by
    unfold dropIdentified
    split_ifs <;> exact ⟨rfl, rfl, rfl, rfl⟩
  unfold forceCpu
  dsimp only
  rw [lowered]
  dsimp only
  obtain ⟨broadcast, extirId, procForce, forcereg⟩ := fields { s with
    irqReq := req
    forcereg := Function.update s.forcereg cpu (mergeForce (s.forcereg cpu) (s.procForce cpu))
    procForce := Function.update s.procForce cpu (mergeForce (s.forcereg cpu) (s.procForce cpu)) }
  refine ⟨broadcast, extirId, fun none => ?_, fun c => ?_, fun c => ?_⟩
  · have dropped := dropIdentified_of_none (s := { s with
      irqReq := req
      forcereg := Function.update s.forcereg cpu (mergeForce (s.forcereg cpu) (s.procForce cpu))
      procForce := Function.update s.procForce cpu (mergeForce (s.forcereg cpu) (s.procForce cpu)) })
      none cpu
    exact (congrArg Registers.pending dropped).trans rfl
  · refine ⟨fun eq => ?_, fun ne => ?_⟩
    · subst c
      exact (congrFun procForce cpu).trans (Function.update_self ..)
    · exact (congrFun procForce c).trans (Function.update_of_ne ne ..)
  · refine ⟨fun eq => ?_, fun ne => ?_⟩
    · subst c
      exact (congrFun forcereg cpu).trans (Function.update_self ..)
    · exact (congrFun forcereg c).trans (Function.update_of_ne ne ..)

private theorem merged_cpus (cpus : List (Fin g.ncpu)) (distinct : cpus.Nodup) (s : Registers g.ncpu) :
    Merged s (cpus.foldl (forceCpu g) s) (· ∈ cpus) := by
  induction cpus generalizing s with
  | nil =>
    exact ⟨rfl, rfl, fun _ => rfl, fun cpu => ⟨fun h => absurd h List.not_mem_nil, fun _ => rfl⟩,
      fun cpu => ⟨fun h => absurd h List.not_mem_nil, fun _ => rfl⟩⟩
  | cons cpu cpus ih =>
    obtain ⟨absent, rest⟩ := List.nodup_cons.mp distinct
    have first := merged_forceCpu s cpu
    have later := ih rest (forceCpu g s cpu)
    rw [List.foldl_cons]
    refine ⟨later.broadcast.trans first.broadcast, later.extirId.trans first.extirId,
      fun none => ?_, fun c => ⟨fun member => ?_, fun missing => ?_⟩,
      fun c => ⟨fun member => ?_, fun missing => ?_⟩⟩
    · have none' : NoneIdentified (forceCpu g s cpu) := fun c => by
        rw [first.extirId]
        exact none c
      exact (later.pending none').trans (first.pending none)
    · rcases List.mem_cons.mp member with rfl | tail
      · rw [(later.procForce c).2 absent, (first.procForce c).1 rfl]
      · have ne : c ≠ cpu := fun eq => absent (eq ▸ tail)
        rw [(later.procForce c).1 tail, (first.procForce c).2 ne, (first.forcereg c).2 ne]
    · rw [List.mem_cons, not_or] at missing
      rw [(later.procForce c).2 missing.2, (first.procForce c).2 missing.1]
    · rcases List.mem_cons.mp member with rfl | tail
      · rw [(later.forcereg c).2 absent, (first.forcereg c).1 rfl]
      · have ne : c ≠ cpu := fun eq => absent (eq ▸ tail)
        rw [(later.forcereg c).1 tail, (first.procForce c).2 ne, (first.forcereg c).2 ne]
    · rw [List.mem_cons, not_or] at missing
      rw [(later.forcereg c).2 missing.2, (first.forcereg c).2 missing.1]

theorem merged_forceWrite (s : Registers g.ncpu) : Merged s (forceWrite g s) fun _ => True := by
  have all := merged_cpus (List.finRange g.ncpu) (List.nodup_finRange _) s
  have listed (cpu : Fin g.ncpu) : cpu ∈ List.finRange g.ncpu := List.mem_finRange cpu
  exact ⟨all.broadcast, all.extirId, all.pending,
    fun cpu => ⟨fun _ => (all.procForce cpu).1 (listed cpu), fun no => absurd trivial no⟩,
    fun cpu => ⟨fun _ => (all.forcereg cpu).1 (listed cpu), fun no => absurd trivial no⟩⟩

end Force

end Socrocket.Irqmp
