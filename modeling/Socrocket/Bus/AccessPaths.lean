/- Socrocket/Bus/AccessPaths
   digest: What the blocking, the phased and the debug path of the AHB controller answer. -/

import Socrocket.Base.Run
import Socrocket.Bus.Blocking
import Socrocket.Bus.PhaseRouting

set_option autoImplicit false
set_option relaxedAutoImplicit false

namespace Socrocket.Bus.AHBCtrl

open Socrocket.Base.ByteMemory
open Socrocket.Base.Run

/-- What becomes of a transaction at the controller. -/
inductive Outcome where
  | completed (data : Buffer) (response : Response)
  | forwarded (slave : ℕ)
  | unanswered

variable (g : Generics) (pnp : Pnp)

/-- The outcome of `b_transport` on a free bus. The slaves record who was called. -/
def blockingOutcome (d : Decoder) (t : Transaction) : Option Outcome :=
  (bTransport g pnp (fun i (_ : Option ℕ) t => (some i, t)) (Blocking.init d) none 0 t).map fun r =>
    match r.2, r.1.inside ++ r.1.returned with
    | some i, _ => .forwarded i
    | none, call :: _ => .completed call.trans.data call.trans.response
    | none, [] => .unanswered

/-- The outcome of a granted transaction in `arbitrate`. Registers of the configuration area are
copied to the data buffer for reads and writes alike. -/
def arbitrateOutcome (t : Transaction) (slaveId : ℕ) : Outcome :=
  if slaveId = 16 then .completed (pnpRead g pnp t).data (pnpRead g pnp t).response
  else .forwarded slaveId

/-- The outcome of `AcceptThread` and `arbitrate`. -/
def phasedOutcome (d : Decoder) (t : Transaction) : Option Outcome :=
  (target g d t.address).map fun (slaveId, _) =>
    if 0 ≤ slaveId then arbitrateOutcome g pnp t slaveId.toNat else .unanswered

/-- The outcome of `transport_dbg`. -/
def debugOutcome (d : Decoder) (t : Transaction) : Option Outcome :=
  (transportDbg g pnp (fun i (_ : Option ℕ) t => (some i, t, 0)) d none t).map fun r =>
    match r.2.1 with
    | some i => .forwarded i
    | none => .completed r.2.2.1.data r.2.2.1.response

/-- The common outcome: registers for a read of the configuration area, an error for a write to it
and for an address without slave, else the slave. -/
def expectedOutcome (d : Decoder) (t : Transaction) : Option Outcome :=
  if isPnp g t.address then
    if t.isWrite then some (.completed t.data .commandError)
    else some (.completed (memcpy t.data (pnpByte g pnp t.address) t.dataLength.toNat) .ok)
  else
    (getIndex d t.address).map fun (index, _) =>
      if 0 ≤ index then .forwarded index.toNat else .completed t.data .addressError

/-- A read of the configuration area, or an address that a slave other than 16 answers. -/
def HandledAlike (d : Decoder) (t : Transaction) : Prop :=
  if isPnp g t.address then t.isWrite = false
  else ∀ found ∈ getIndex d t.address, 0 ≤ found.1 ∧ found.1 ≠ 16

instance (d : Decoder) (t : Transaction) : Decidable (HandledAlike g d t) :=
  inferInstanceAs (Decidable (ite _ _ _))

variable {g pnp}

theorem blockingOutcome_eq (d : Decoder) (t : Transaction) :
    blockingOutcome g pnp d t = expectedOutcome g pnp d t := by
  have free : ¬ ((Blocking.init d).busy = true ∨
      ((Blocking.init d).isLock = true ∧ 0 ≠ (Blocking.init d).lockMaster)) := by
    simp [Blocking.init]
  rw [blockingOutcome, bTransport, if_neg free, expectedOutcome]
  by_cases area : isPnp g t.address
  · rw [if_pos area, if_pos area]
    by_cases write : t.isWrite
    · rw [if_pos write, if_pos write]
      rfl
    · rw [if_neg write, if_neg write]
      rfl
  · rw [if_neg area, if_neg area, Option.map_map]
    refine congrArg (Option.map · _) (funext fun found => ?_)
    obtain ⟨index, decoder⟩ := found
    dsimp only [Function.comp]
    by_cases natural : 0 ≤ index
    · rw [if_pos natural, if_pos natural]
    · rw [if_neg natural, if_neg natural]
      rfl

theorem debugOutcome_eq (d : Decoder) (t : Transaction) :
    debugOutcome g pnp d t = expectedOutcome g pnp d t := by
  rw [debugOutcome, transportDbg, expectedOutcome]
  by_cases area : isPnp g t.address
  · rw [if_pos area, if_pos area]
    by_cases write : t.isWrite
    · rw [if_pos write, if_pos write]
      rfl
    · rw [if_neg write, if_neg write]
      rfl
  · rw [if_neg area, if_neg area, Option.map_map]
    refine congrArg (Option.map · _) (funext fun found => ?_)
    obtain ⟨index, decoder⟩ := found
    dsimp only [Function.comp]
    by_cases natural : 0 ≤ index
    · rw [if_pos natural, if_pos natural]
    · rw [if_neg natural, if_neg natural]

theorem phasedOutcome_iff (d : Decoder) (t : Transaction) :
    phasedOutcome g pnp d t = expectedOutcome g pnp d t ↔ HandledAlike g d t := by
  rw [phasedOutcome, target, expectedOutcome, HandledAlike]
  by_cases area : isPnp g t.address
  · rw [if_pos area, if_pos area, if_pos area]
    by_cases write : t.isWrite
    · rw [if_pos write, write]
      apply iff_of_false
      · intro same
        have response := (Outcome.completed.inj (Option.some.inj same)).2
        cases response
      · intro reading
        cases reading
    · rw [if_neg write]
      exact iff_of_true rfl (Bool.eq_false_iff.mpr write)
  · rw [if_neg area, if_neg area, if_neg area]
    cases decoded : getIndex d t.address with
    | none =>
      refine iff_of_true rfl fun found member => ?_
      cases member
    | some found =>
      obtain ⟨index, decoder⟩ := found
      simp only [Option.map_some, Option.some.injEq, Option.mem_some_iff, forall_eq']
      by_cases natural : 0 ≤ index
      · rw [if_pos natural, if_pos natural, arbitrateOutcome]
        by_cases reserved : index = 16
        · rw [if_pos (by omega)]
          refine iff_of_false (fun same => ?_) fun other => other.2 reserved
          cases same
        · rw [if_neg (by omega)]
          exact iff_of_true rfl ⟨natural, reserved⟩
      · rw [if_neg natural, if_neg natural]
        refine iff_of_false (fun same => ?_) fun other => natural other.1
        cases same

section Unanswered

variable {s s' : Phases} {t : ℕ}

/-- A transaction is in no queue and no record that anything is sent from. -/
structure Dropped (s : Phases) (t : ℕ) : Prop where
  issued : t < s.issued
  accept : t ∉ s.acceptPEQ
  records : ∀ m, (s.requestMap m).trans ≠ some t
  requested : t ∉ s.requested
  served : t ∉ s.served
  request : t ∉ s.requestPEQ
  response : t ∉ s.responsePEQ
  endReqs : t ∉ s.endReqs.map Prod.fst
  beginResps : t ∉ s.beginResps.map Prod.fst

private theorem not_mem_append_single {l : List ℕ} {u : ℕ} (absent : t ∉ l) (other : t ≠ u) :
    t ∉ l ++ [u] := by
  rw [List.mem_append, List.mem_singleton]
  exact fun either => either.elim absent other

private theorem dropped_grant {m : Fin 16} {u : ℕ} (dropped : Dropped s t)
    (trans : (s.requestMap m).trans = some u) : Dropped (grant s m u) t := by
  have other : t ≠ u := fun same => dropped.records m (same ▸ trans)
  have records (k : Fin 16) : ((schedule s m u).requestMap k).trans ≠ some t := by
    dsimp only [schedule]
    by_cases own : k = m
    · rw [own, Function.update_self]
      exact dropped.records m
    · rw [Function.update_of_ne own]
      exact dropped.records k
  rw [grant]
  split
  · exact { dropped with
      records := records
      request := not_mem_append_single dropped.request other
      response := not_mem_append_single dropped.response other }
  · exact { dropped with
      records := records
      requested := not_mem_append_single dropped.requested other
      served := not_mem_append_single dropped.served other }

private theorem dropped_step {i : PhaseStep} (dropped : Dropped s t)
    (next : phaseStep g s i = some s') : Dropped s' t := by
  cases i with
  | beginReq p =>
    rw [phaseStep, nbTransportFw, Option.ite_none_right_eq_some, Option.some.injEq] at next
    obtain ⟨-, rfl⟩ := next
    exact { dropped with
      issued := Nat.lt_succ_of_lt dropped.issued
      accept := not_mem_append_single dropped.accept (Nat.ne_of_lt dropped.issued) }
  | accept u =>
    rw [phaseStep, acceptThread, Option.ite_none_right_eq_some] at next
    obtain ⟨member, rest⟩ := next
    obtain ⟨⟨slaveId, decoder⟩, -, eq⟩ := Option.map_eq_some_iff.mp rest
    have other : t ≠ u := fun same => dropped.accept (same ▸ member)
    have accept : t ∉ s.acceptPEQ.erase u := fun still =>
      dropped.accept (List.mem_of_mem_erase still)
    dsimp only at eq
    split at eq
    · subst eq
      refine { dropped with accept := accept, records := fun m => ?_ }
      dsimp only [enter]
      by_cases own : m = (s.payload u).masterId
      · rw [own, Function.update_self]
        exact fun same => other (Option.some.inj same).symm
      · rw [Function.update_of_ne own]
        exact dropped.records m
    · subst eq
      exact { dropped with accept := accept }
  | arbitrate =>
    rw [phaseStep, arbitrate] at next
    split at next
    · cases chosen : select g s with
      | mk selected robin =>
        rw [chosen] at next
        cases selected with
        | none =>
          obtain rfl := Option.some.inj next
          exact { dropped with issued := dropped.issued }
        | some m =>
          obtain ⟨u, trans, rfl⟩ := Option.map_eq_some_iff.mp next
          exact dropped_grant (s := { s with robin := robin })
            { dropped with issued := dropped.issued } trans
    · exact Option.some.inj next ▸ dropped
  | slaveEndReq u =>
    rw [phaseStep, slaveEndReq, Option.ite_none_right_eq_some, Option.some.injEq] at next
    obtain ⟨member, rfl⟩ := next
    have other : t ≠ u := fun same => dropped.requested (same ▸ member)
    exact { dropped with
      requested := fun still => dropped.requested (List.mem_of_mem_erase still)
      request := not_mem_append_single dropped.request other }
  | slaveBeginResp u =>
    rw [phaseStep, slaveBeginResp, Option.ite_none_right_eq_some, Option.some.injEq] at next
    obtain ⟨member, rfl⟩ := next
    have other : t ≠ u := fun same => dropped.served (same ▸ member)
    exact { dropped with
      served := fun still => dropped.served (List.mem_of_mem_erase still)
      response := not_mem_append_single dropped.response other }
  | endReq u =>
    rw [phaseStep, requestThread, Option.ite_none_right_eq_some, Option.some.injEq] at next
    obtain ⟨member, rfl⟩ := next
    have other : t ≠ u := fun same => dropped.request (same ▸ member)
    refine { dropped with
      request := fun still => dropped.request (List.mem_of_mem_erase still)
      endReqs := ?_ }
    rw [List.map_append]
    exact not_mem_append_single dropped.endReqs other
  | beginResp u =>
    rw [phaseStep, responseThread, Option.ite_none_right_eq_some, Option.some.injEq] at next
    obtain ⟨member, rfl⟩ := next
    have other : t ≠ u := fun same => dropped.response (same ▸ member)
    refine { dropped with
      response := fun still => dropped.response (List.mem_of_mem_erase still)
      beginResps := ?_ }
    rw [List.map_append]
    exact not_mem_append_single dropped.beginResps other
  | masterEndResp u =>
    rw [phaseStep, masterEndResp, Option.ite_none_right_eq_some, Option.some.injEq] at next
    obtain ⟨-, rfl⟩ := next
    exact { dropped with issued := dropped.issued }
  | endResp u =>
    rw [phaseStep, endResponseThread, Option.ite_none_right_eq_some] at next
    have eq := next.2
    dsimp only at eq
    split at eq
    · obtain rfl := Option.some.inj eq
      exact { dropped with issued := dropped.issued }
    · obtain rfl := Option.some.inj eq
      exact { dropped with issued := dropped.issued }

/-- A request whose address no slave decodes is never answered, whatever happens on the bus. -/
theorem dropped_unanswered {d d' : Decoder} {index : ℤ} {p : Payload} {steps : List PhaseStep}
    (missed : target g d p.address = some (index, d')) (negative : index < 0)
    (reached : run (phaseStep g) (Phases.init d) (.beginReq p :: .accept 0 :: steps) = some s) :
    0 ∉ s.endReqs.map Prod.fst ∧ 0 ∉ s.beginResps.map Prod.fst := by
  rw [run_cons, Option.bind_eq_some_iff] at reached
  obtain ⟨s₁, first, rest⟩ := reached
  rw [run_cons, Option.bind_eq_some_iff] at rest
  obtain ⟨s₂, second, rest⟩ := rest
  have free : (Phases.init d).awaiting p.masterId = none := rfl
  rw [phaseStep, nbTransportFw, if_pos free, Option.some.injEq] at first
  subst first
  rw [phaseStep, acceptThread, Option.ite_none_right_eq_some] at second
  obtain ⟨-, second⟩ := second
  dsimp only [Phases.init] at second
  rw [Function.update_self, missed, Option.map_some, Option.some.injEq,
    if_neg (Int.not_le.mpr negative)] at second
  have start : Dropped s₂ 0 := by
    subst second
    constructor <;> simp [Connection.zero]
  have dropped := run_always (P := fun s => Dropped s 0)
    (fun _ _ _ dropped next => dropped_step (g := g) dropped next) start rest
  exact ⟨dropped.endReqs, dropped.beginResps⟩

end Unanswered

/-- The three paths give the common outcome exactly for the transactions they handle alike. -/
theorem access_paths_iff (g : Generics) (pnp : Pnp) (d : Decoder) (t : Transaction) :
    (blockingOutcome g pnp d t = expectedOutcome g pnp d t ∧
      phasedOutcome g pnp d t = expectedOutcome g pnp d t ∧
      debugOutcome g pnp d t = expectedOutcome g pnp d t) ↔ HandledAlike g d t := by
  rw [phasedOutcome_iff]
  constructor
  · intro same
    exact same.2.1
  · intro alike
    exact ⟨blockingOutcome_eq d t, alike, debugOutcome_eq d t⟩

/-- The configuration area at its usual place. -/
def pnpBus : Generics := ⟨true, 0xfff, 0xfff, 0xff0, 0xff0, false, 2⟩

/-- A write to the configuration area. -/
def pnpWrite : Transaction := ⟨true, 0xfffff000, fun _ => 0xff, 4, false, .incomplete⟩

/-- A write to the configuration area fails in LT mode and reads it in AT mode. -/
theorem access_paths_fail :
    ¬ ∀ (g : Generics) (pnp : Pnp) (d : Decoder) (t : Transaction),
      blockingOutcome g pnp d t = expectedOutcome g pnp d t ∧
        phasedOutcome g pnp d t = expectedOutcome g pnp d t ∧
        debugOutcome g pnp d t = expectedOutcome g pnp d t := by
  intro claim
  have same := (claim pnpBus ⟨0, fun _ => none, fun _ => none⟩ Decoder.init pnpWrite).2.1
  have phased : phasedOutcome pnpBus ⟨0, fun _ => none, fun _ => none⟩ Decoder.init pnpWrite =
      some (.completed _ .ok) := rfl
  have expected : expectedOutcome pnpBus ⟨0, fun _ => none, fun _ => none⟩ Decoder.init pnpWrite =
      some (.completed _ .commandError) := rfl
  rw [phased, expected] at same
  exact absurd (Outcome.completed.inj (Option.some.inj same)).2 nofun

end Socrocket.Bus.AHBCtrl
