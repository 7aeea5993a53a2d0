/- Socrocket/Core/FieldIndependence
   digest: Which overlaps of fields the sorting at elaboration notices, and when fields are
   independent. -/

import Socrocket.Core.RegisterFields

set_option autoImplicit false
set_option relaxedAutoImplicit false

namespace Socrocket.Core.RegisterFields

variable {w : ℕ}

/-! ## Reading a field -/

def Field.bitWidth (f : Field w) : ℕ := f.highPos - f.lowPos + 1

/-- Read the bits of a field. -/
def Register.maskRead (r : Register w) (f : Field w) : BitVec w :=
  (r.curVal &&& f.getMask) >>> f.lowPos

theorem getLsbD_maskRead (r : Register w) (f : Field w) (i : ℕ) :
    (r.maskRead f).getLsbD i =
      (decide (f.Covers (f.lowPos + i)) && r.curVal.getLsbD (f.lowPos + i)) := by
  rw [Register.maskRead, BitVec.getLsbD_ushiftRight, BitVec.getLsbD_and, getLsbD_getMask,
    Bool.and_comm]

theorem getLsbD_maskWrite (r : Register w) (f : Field w) (v : BitVec w) (k : ℕ) :
    (r.maskWrite f v).curVal.getLsbD k =
      ((if f.Covers k then v.getLsbD (k - f.lowPos) else r.curVal.getLsbD k) &&
        r.mask.getLsbD k) := by
  rw [Register.maskWrite, Register.write, BitVec.getLsbD_and, BitVec.getLsbD_or,
    BitVec.getLsbD_and, BitVec.getLsbD_and, BitVec.getLsbD_not, BitVec.getLsbD_shiftLeft,
    getLsbD_getMask]
  congr 1
  have inside := f.inside
  by_cases covers : f.Covers k
  · have bounds := covers
    rw [Field.Covers] at bounds
    have above : ¬ k < f.lowPos := by omega
    have below : k < w := by omega
    simp [covers, above, below]
  · by_cases below : k < w
    · simp [covers, below]
    · simp [covers, BitVec.getLsbD_of_ge r.curVal k (by omega)]

/-! ## Overlaps and the sorting -/

/-- No bit belongs to both fields. -/
def Field.Apart (f g : Field w) : Prop := ∀ i, ¬ (f.Covers i ∧ g.Covers i)

/-- The range of `f` holds the top bit of `g` below its own. -/
def Field.ReachesOver (f g : Field w) : Prop := g.highPos < f.highPos ∧ f.lowPos ≤ g.highPos

theorem Field.Apart.symm {f g : Field w} (apart : f.Apart g) : g.Apart f := by
  intro i both
  exact apart i both.symm

theorem Field.Apart.above {f g : Field w} (apart : f.Apart g) (order : g.highPos ≤ f.highPos) :
    g.highPos < f.lowPos := by
  by_contra reaches
  have top : f.Covers g.highPos := ⟨by omega, order⟩
  exact apart g.highPos ⟨top, g.ordered, le_rfl⟩

theorem Field.Apart.not_reachesOver {f g : Field w} (apart : f.Apart g) : ¬ f.ReachesOver g := by
  rintro ⟨higher, reaches⟩
  have := apart.above higher.le
  omega

/-- Highest field first. -/
def Descending (fs : List (Field w)) : Prop := fs.Pairwise fun f g => g.highPos ≤ f.highPos

/-- Only the first lower field is compared, the fields behind it lie lower still. -/
private theorem insertField_isSome_iff {f : Field w} {gs : List (Field w)} (order : Descending gs) :
    (insertField f gs).isSome = true ↔ ∀ g ∈ gs, ¬ f.ReachesOver g := by
  induction gs with
  | nil => simp [insertField]
  | cons g gs ih =>
    obtain ⟨lower, order⟩ := List.pairwise_cons.mp order
    rw [insertField, List.forall_mem_cons]
    by_cases higher : f.highPos > g.highPos
    · rw [if_pos higher]
      by_cases above : f.lowPos > g.highPos
      · rw [if_pos above]
        refine iff_of_true rfl ⟨fun reaches => ?_, fun k mem reaches => ?_⟩
        · have := reaches.2
          omega
        · have := reaches.2
          have := lower k mem
          omega
      · rw [if_neg above]
        refine iff_of_false Bool.false_ne_true fun none => none.1 ⟨higher, ?_⟩
        omega
    · rw [if_neg higher, Option.isSome_map, ih order]
      refine (and_iff_right ?_).symm
      exact fun reaches => higher reaches.1

private theorem insertField_descending {f : Field w} {gs gs' : List (Field w)}
    (h : insertField f gs = some gs') (order : Descending gs) : Descending gs' := by
  induction gs generalizing gs' with
  | nil =>
    cases h
    exact List.pairwise_singleton ..
  | cons g gs ih =>
    obtain ⟨lower, rest⟩ := List.pairwise_cons.mp order
    rw [insertField] at h
    split at h
    case isTrue higher =>
      split at h
      · cases h
        refine List.pairwise_cons.mpr ⟨?_, order⟩
        intro k mem
        rcases List.mem_cons.mp mem with rfl | mem
        · exact higher.le
        · exact (lower k mem).trans higher.le
      · cases h
    case isFalse notHigher =>
      obtain ⟨behind, inserted, rfl⟩ := Option.map_eq_some_iff.mp h
      refine List.pairwise_cons.mpr ⟨?_, ih inserted rest⟩
      intro k mem
      rcases List.mem_cons.mp ((insertField_perm inserted).mem_iff.mp mem) with rfl | mem
      · omega
      · exact lower k mem

private theorem sortFields_descending {fs sorted result : List (Field w)}
    (h : sortFields fs sorted = some result) (order : Descending sorted) : Descending result := by
  induction fs generalizing sorted with
  | nil =>
    cases h
    exact order
  | cons f fs ih =>
    obtain ⟨sorted', inserted, rest⟩ := Option.bind_eq_some_iff.mp h
    exact ih rest (insertField_descending inserted order)

private theorem sortFields_isSome_iff {fs sorted : List (Field w)} (order : Descending sorted) :
    (sortFields fs sorted).isSome = true ↔
      fs.Pairwise (fun g f => ¬ f.ReachesOver g) ∧ ∀ f ∈ fs, ∀ g ∈ sorted, ¬ f.ReachesOver g := by
  induction fs generalizing sorted with
  | nil => simp [sortFields]
  | cons f fs ih =>
    have here := insertField_isSome_iff (f := f) order
    rw [sortFields, List.pairwise_cons, List.forall_mem_cons, ← here]
    cases inserted : insertField f sorted with
    | none => simp
    | some sorted' =>
      have members : ∀ g, g ∈ sorted' ↔ g = f ∨ g ∈ sorted := by
        intro g
        rw [(insertField_perm inserted).mem_iff, List.mem_cons]
      rw [Option.bind_some, ih (insertField_descending inserted order)]
      simp only [members, forall_eq_or_imp, Option.isSome_some, true_and, forall_and]
      tauto

theorem checkAndInit_isSome_iff (d : Declared w) :
    d.checkAndInit.isSome = true ↔ d.fields.Pairwise fun g f => ¬ f.ReachesOver g := by
  rw [Declared.checkAndInit, Option.isSome_map, sortFields_isSome_iff List.Pairwise.nil]
  simp

/-! ## Independence -/

/-- A written field reads the low bits of the value, the other fields what they read before, and no
bit beside the fields is set. -/
structure Independent (fs : List (Field w)) (r : Register w) : Prop where
  written : ∀ f ∈ fs, ∀ v,
    ((r.maskWrite f v).maskRead f).toNat = v.toNat % 2 ^ f.bitWidth
  others : ∀ (i j : ℕ) (hi : i < fs.length) (hj : j < fs.length), i ≠ j → ∀ v,
    (r.maskWrite fs[i] v).maskRead fs[j] = r.maskRead fs[j]
  beside : ∀ f ∈ fs, ∀ v k, (∀ g ∈ fs, ¬ g.Covers k) → r.curVal.getLsbD k = false →
    (r.maskWrite f v).curVal.getLsbD k = false

/-- Elaboration accepts the fields when no two share a bit, puts them in order from the top, and
leaves a register of any value with independent fields. -/
structure FieldsIndependent (d : Declared w) : Prop where
  accepts : d.checkAndInit.isSome = true ↔ d.fields.Pairwise Field.Apart
  orders : ∀ sorted, sortFields d.fields [] = some sorted →
    sorted.Perm d.fields ∧ sorted.Pairwise fun f g => g.highPos < f.lowPos
  independent : ∀ settled, d.checkAndInit = some settled → ∀ r : Register w,
    r.shape = settled.shape → Independent d.fields r

private theorem toNat_maskRead_maskWrite {r : Register w} {f : Field w}
    (kept : ∀ k, f.Covers k → r.mask.getLsbD k = true) (v : BitVec w) :
    ((r.maskWrite f v).maskRead f).toNat = v.toNat % 2 ^ f.bitWidth := by
  refine Nat.eq_of_testBit_eq fun i => ?_
  have covers : f.Covers (f.lowPos + i) ↔ i < f.bitWidth := by
    have ordered := f.ordered
    rw [Field.Covers, Field.bitWidth]
    omega
  rw [Nat.testBit_mod_two_pow, ← BitVec.getLsbD, ← BitVec.getLsbD, getLsbD_maskRead,
    getLsbD_maskWrite]
  by_cases within : f.Covers (f.lowPos + i)
  · rw [if_pos within, kept _ within, Bool.and_true, Nat.add_sub_cancel_left]
    simp only [covers]
  · have outside : ¬ i < f.bitWidth := fun h => within (covers.mpr h)
    simp [within, outside]

private theorem maskRead_maskWrite_of_apart {r : Register w} {f g : Field w}
    (kept : ∀ k, g.Covers k → r.mask.getLsbD k = true) (apart : f.Apart g) (v : BitVec w) :
    (r.maskWrite f v).maskRead g = r.maskRead g := by
  refine BitVec.eq_of_getLsbD_eq fun i _ => ?_
  rw [getLsbD_maskRead, getLsbD_maskRead, getLsbD_maskWrite]
  by_cases within : g.Covers (g.lowPos + i)
  · have other : ¬ f.Covers (g.lowPos + i) := fun h => apart _ ⟨h, within⟩
    rw [if_neg other, kept _ within, Bool.and_true]
  · simp [within]

private theorem independent_of_apart {d : Declared w} {settled r : Register w}
    (accepted : d.checkAndInit = some settled) (shape : r.shape = settled.shape)
    (apart : d.fields.Pairwise Field.Apart) : Independent d.fields r := by
  have sameMask : r.mask = settled.mask := congrArg Prod.snd shape
  have kept : ∀ f ∈ d.fields, ∀ k, f.Covers k → r.mask.getLsbD k = true := by
    intro f mem k covers
    have inside : k < w := covers.2.trans_lt f.inside
    rw [sameMask, getLsbD_mask accepted inside, decide_eq_true_iff]
    exact Or.inr ⟨f, mem, covers⟩
  have ordered := List.pairwise_iff_getElem.mp apart
  constructor
  case written =>
    intro f mem v
    exact toNat_maskRead_maskWrite (kept f mem) v
  case others =>
    intro i j hi hj differ v
    have keptOther := kept d.fields[j] (List.getElem_mem hj)
    rcases Nat.lt_or_gt_of_ne differ with before | after
    · exact maskRead_maskWrite_of_apart keptOther (ordered i j hi hj before) v
    · exact maskRead_maskWrite_of_apart keptOther (ordered j i hj hi after).symm v
  case beside =>
    intro f mem v k outside clear
    rw [getLsbD_maskWrite, if_neg (outside f mem), clear, Bool.false_and]

/-- Field registers are as they should be exactly when no two fields share a bit or one of the
overlaps is noticed, that of a field over the top of one attached before it. -/
theorem fields_independent_iff (d : Declared w) :
    FieldsIndependent d ↔ d.fields.Pairwise Field.Apart ∨
      ∃ g f, [g, f].Sublist d.fields ∧ f.ReachesOver g := by
  constructor
  · intro meets
    by_cases apart : d.fields.Pairwise Field.Apart
    · exact Or.inl apart
    · right
      by_contra unnoticed
      apply apart
      rw [← meets.accepts, checkAndInit_isSome_iff, List.pairwise_iff_forall_sublist]
      intro g f attached reaches
      exact unnoticed ⟨g, f, attached, reaches⟩
  · rintro (apart | ⟨g, f, attached, reaches⟩)
    · have accepted : d.checkAndInit.isSome = true := by
        rw [checkAndInit_isSome_iff]
        exact apart.imp fun h => h.symm.not_reachesOver
      refine ⟨iff_of_true accepted apart, ?_, ?_⟩
      · intro sorted sort
        have descending := sortFields_descending sort List.Pairwise.nil
        have perm := sortFields_perm sort
        rw [List.append_nil] at perm
        refine ⟨perm, ?_⟩
        have apartSorted := (perm.pairwise_iff fun h => h.symm).mpr apart
        exact (apartSorted.and descending).imp fun h => h.1.above h.2
      · intro settled taken r shape
        exact independent_of_apart taken shape apart
    · have overlap : ¬ d.fields.Pairwise Field.Apart := by
        intro apart
        exact (List.pairwise_iff_forall_sublist.mp apart attached).symm.not_reachesOver reaches
      have refused : ¬ d.checkAndInit.isSome = true := by
        rw [checkAndInit_isSome_iff]
        intro clear
        exact List.pairwise_iff_forall_sublist.mp clear attached reaches
      have none : d.checkAndInit = none := Option.not_isSome_iff_eq_none.mp refused
      refine ⟨iff_of_false refused overlap, ?_, ?_⟩
      · intro sorted sort
        rw [Declared.checkAndInit, sort] at none
        cases none
      · intro settled taken
        rw [none] at taken
        cases taken

/-- A field inside one attached before it is accepted, and a write of it changes the other. -/
theorem nested_field_accepted : ∃ d r, ∃ outer inner : Field 32,
    ((createRegister 0 0xFFFFFFFF).createField 7 0).bind (·.createField 3 0) = some d ∧
      d.fields = [outer, inner] ∧ d.checkAndInit = some r ∧ ¬ outer.Apart inner ∧
      (r.maskRead outer).toNat = 0 ∧ ((r.maskWrite inner 5).maskRead outer).toNat = 5 ∧
      ¬ FieldsIndependent d := by
  let outer : Field 32 := ⟨7, 0, by decide, by decide⟩
  let inner : Field 32 := ⟨3, 0, by decide, by decide⟩
  let d : Declared 32 := ⟨0, 0xFFFFFFFF, [outer, inner]⟩
  have accepted : d.checkAndInit = some ((Register.mk d (maskOf [outer, inner]) 0).write 0) := by
    rfl
  have shared : ¬ outer.Apart inner := by
    intro apart
    exact apart 0 ⟨by decide, by decide⟩
  refine ⟨d, _, outer, inner, rfl, rfl, accepted, shared, by decide +kernel, by decide +kernel, ?_⟩
  intro meets
  have apart := meets.accepts.mp (by rw [accepted, Option.isSome_some])
  exact shared (List.rel_of_pairwise_cons apart (List.mem_singleton.mpr rfl))

end Socrocket.Core.RegisterFields
