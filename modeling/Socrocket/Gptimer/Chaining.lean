/- Socrocket/Gptimer/Chaining
   digest: The functions that follow the chain of counters end inside it, and the cycle time along it. -/

import Mathlib.Algebra.BigOperators.Intervals
import Socrocket.Gptimer.Faults
import Socrocket.Gptimer.Period

set_option autoImplicit false
set_option relaxedAutoImplicit false

namespace Socrocket.Gptimer

open Socrocket.Base.Fallible
open Socrocket.Core.SrRegister

/-- The functions that follow the chain. -/
inductive Follower where
  | cycletime
  | nextzero
  | valueRead
  | calculate

/-- How a function ends. -/
def outcome (p : GPTimer) (nr : ℕ) : Follower → Except Fault Unit
  | .cycletime => (cycletime p nr).map fun _ => ()
  | .nextzero => (nextzero p nr).map fun _ => ()
  | .valueRead => (valueRead p nr).map fun _ => ()
  | .calculate => (calculate p nr).map fun _ => ()

/-- A counter is chained through the ones before it down to counter `first`, which is not chained. -/
structure ChainedTo (p : GPTimer) (first nr : ℕ) : Prop where
  le : first ≤ nr
  unchained : p.ctrlBit first ctrlCH = false
  chained : ∀ i, first < i → i ≤ nr → p.ctrlBit i ctrlCH = true

/-- Every function ends with no more nested calls than there are counters, it indexes counters and
registers that exist, and the cycle time is the product of the periods along the chain, however many
more calls are allowed. -/
structure ChainsRight (p : GPTimer) : Prop where
  ends : ∀ nr < p.ntimers, ∀ f, outcome p nr f ≠ .error .callDepth
  exist : ∀ nr < p.ntimers, ∀ f,
    outcome p nr f ≠ .error .noCounter ∧ outcome p nr f ≠ .error .noRegister
  cycle : ∀ nr < p.ntimers, ∀ first, ChainedTo p first nr → ∀ calls > nr, cycletimeWithin p calls nr =
    .ok ((p.screload.toNat + 1) * ∏ i ∈ Finset.Ico first nr, ((p.counter i).reload.toNat + 1))

variable {p q : GPTimer} {nr : ℕ}

theorem cycletimeWithin_of_chainedTo {first calls : ℕ} (chain : ChainedTo p first nr)
    (present : nr < p.ntimers) (enough : nr < calls) : cycletimeWithin p calls nr =
    .ok ((p.screload.toNat + 1) * ∏ i ∈ Finset.Ico first nr, ((p.counter i).reload.toNat + 1)) := by
  obtain ⟨le, unchained, chained⟩ := chain
  induction nr, le using Nat.le_induction generalizing calls with
  | base =>
    obtain ⟨calls, rfl⟩ := Nat.exists_eq_succ_of_ne_zero (Nat.ne_zero_of_lt enough)
    rw [Finset.Ico_self, Finset.prod_empty, Nat.mul_one, cycletimeWithin, if_neg (by simp [unchained])]
    rfl
  | succ nr le ih =>
    obtain ⟨calls, rfl⟩ := Nat.exists_eq_succ_of_ne_zero (Nat.ne_zero_of_lt enough)
    have before := ih (Nat.lt_of_succ_lt present) (Nat.lt_of_succ_lt_succ enough)
      fun i behind upTo => chained i behind (Nat.le_succ_of_le upTo)
    rw [cycletimeWithin, if_pos (chained (nr + 1) (Nat.lt_succ_of_le le) le_rfl)]
    dsimp only
    rw [if_neg (Nat.succ_ne_zero nr), Nat.add_one_sub_one, element_eq (Nat.lt_of_succ_lt present),
      ok_bind,
      before, ok_bind, register_eq (Nat.lt_of_succ_lt present), ok_bind, Finset.prod_Ico_succ_top le,
      ← Nat.mul_assoc]
    rfl

theorem not_openChain (ends : p.ctrlBit 0 ctrlCH = false) : ¬ OpenChain p nr := by
  intro linked
  rw [linked 0 (Nat.zero_le nr)] at ends
  cases ends

theorem outcome_of_closed (ends : p.ctrlBit 0 ctrlCH = false) (present : nr < p.ntimers)
    (few : p.ntimers < 2 ^ 32) {f : Follower} {e : Fault} (failed : outcome p nr f = .error e) :
    e = .divisionByZero := by
  have read : ∀ {u : GPTimer}, SameControl p u → valueRead u nr = .error e → e = .divisionByZero := by
    intro u same failed
    obtain ⟨-, ⟨linked, -⟩ | ⟨-, -, rfl⟩⟩ := (valueRead_error_iff (same.ntimers.symm ▸ present)
      (same.ntimers.symm ▸ few)).mp failed
    · exact absurd ((same.openChain nr).mp linked) (not_openChain ends)
    · rfl
  have cycle : ∀ {u : GPTimer}, SameControl p u → cycletime u nr = .error e → e = .divisionByZero := by
    intro u same failed
    have linked := ((cycletime_error_iff (same.ntimers.symm ▸ present)).mp failed).1
    exact absurd ((same.openChain nr).mp linked) (not_openChain ends)
  have zero : ∀ {u : GPTimer}, SameControl p u → nextzero u nr = .error e → e = .divisionByZero := by
    intro u same failed
    have faults := (nextzero_error_iff (same.ntimers.symm ▸ present) (same.ntimers.symm ▸ few)).mp
      failed
    split at faults
    · obtain ⟨linked, -⟩ | ⟨-, -, -, rfl⟩ := faults
      · exact absurd ((same.openChain _).mp linked) (not_openChain ends)
      · rfl
    · exact faults.2
  have self : SameControl p p := SameControl.readFrame.refl p
  cases f with
  | cycletime => exact cycle self (map_eq_error.mp failed)
  | nextzero => exact zero self (map_eq_error.mp failed)
  | valueRead => exact read self (map_eq_error.mp failed)
  | calculate =>
    have cleared : SameControl p (p.modify nr fun c => { c with eWait := none }) :=
      .modify p nr _ (fun _ => rfl) fun _ => rfl
    obtain failed | ⟨u, before, -, failed⟩ := calculate_error_iff.mp (map_eq_error.mp failed)
    · exact read cleared failed
    · have same := cleared.trans (SameControl.readFrame.valueRead before)
      obtain failed | ⟨v, wait, hit, failed⟩ := failed
      · exact zero same failed
      · exact cycle (same.trans (SameControl.readFrame.nextzero hit)) failed

/-- In a unit with counters, all the functions that follow the chain end, index what exists and compute
the cycle time of the chain exactly when counter 0 is not chained. -/
theorem chains_right_iff (some_counter : 0 < p.ntimers) (few : p.ntimers < 2 ^ 32) :
    ChainsRight p ↔ p.ctrlBit 0 ctrlCH = false := by
  constructor
  · intro right
    by_contra chained
    have linked : OpenChain p 0 := by
      intro i le
      rw [Nat.le_zero.mp le]
      exact Bool.eq_true_of_not_eq_false chained
    have behind : cycletime p 0 = .error .noCounter :=
      (cycletime_error_iff some_counter).mpr ⟨linked, rfl⟩
    exact (right.exist 0 some_counter .cycletime).1 (map_eq_error.mpr behind)
  · intro ends
    have closed : ∀ nr < p.ntimers, ∀ f, ∀ e ≠ Fault.divisionByZero, outcome p nr f ≠ .error e :=
      fun nr present f e other failed =>
        other (outcome_of_closed ends present few failed)
    exact ⟨fun nr present f => closed nr present f _ nofun,
      fun nr present f => ⟨closed nr present f _ nofun, closed nr present f _ nofun⟩,
      fun nr present first chain calls enough => cycletimeWithin_of_chainedTo chain present enough⟩

/-- Three counters, of which the last two are chained to the one before. -/
def threeChained : GPTimer := { oneCounter with
  ntimers := 3
  counter := fun nr => { oneCounter.counter nr with ctrl := if nr = 0 then 0 else 0x20 } }

theorem chains_right_three : ChainsRight threeChained :=
  (chains_right_iff (by decide) (by decide)).mpr rfl

/-- Once the chain bit of counter 0 is written, its cycle time indexes behind the last counter. -/
theorem chain_of_first_counter :
    ¬ ∀ p q v, 0 < p.ntimers ∧ p.ntimers < 8 → step p (.busWrite (.ctrl 0) v) = some q →
      ChainsRight q := by
  intro claim
  have right := claim oneCounter _ 0x20 (by decide) rfl
  exact (right.exist 0 (by decide) .cycletime).1 rfl

end Socrocket.Gptimer
