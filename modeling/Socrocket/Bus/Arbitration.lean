/- Socrocket/Bus/Arbitration
   digest: Locked transfers are exclusive, and round-robin arbitration is fair. -/

import Socrocket.Base.Exclusive
import Socrocket.Base.Run
import Socrocket.Bus.Blocking
import Socrocket.Bus.PhaseRouting

set_option autoImplicit false
set_option relaxedAutoImplicit false

namespace Socrocket.Bus.AHBCtrl

open Socrocket.Base
open Socrocket.Base.Run
open Socrocket.Base.Exclusive

section Transport

variable (g : Generics) (pnp : Pnp) {μ : Type} (slave : ℕ → μ → Transaction → μ × Transaction)

/-- A master's call passes the loop of `b_transport`, or a call inside ends. -/
inductive TransportStep where
  | enter (id : ℕ) (t : Transaction)
  | leave (k : ℕ)

/-- Perform one step of the bus and its slaves. -/
def transportStep (s : Blocking × μ) : TransportStep → Option (Blocking × μ)
  | .enter id t => bTransport g pnp slave s.1 s.2 id t
  | .leave k => (bTransportEnd s.1 k).map fun r => (r.1, s.2)

/-- At most one call is inside, `busy` tells whether there is one, and locks exclude others. -/
structure Owned (s : Blocking) : Prop where
  occupied : s.inside.length = if s.busy then 1 else 0
  owner : ∀ a ∈ s.granted.getLast?, s.isLock = a.2 ∧ s.lockMaster = a.1
  chain : s.granted.IsChain Follows

variable {g pnp slave} {s s' : Blocking × μ}

private theorem owned_init (decoder : Decoder) : Owned (Blocking.init decoder) :=
  ⟨rfl, nofun, List.isChain_nil⟩

private theorem Owned.granted {s : Blocking} (owned : Owned s) {id : ℕ} (lock : Bool)
    (free : ¬ (s.busy = true ∨ (s.isLock = true ∧ id ≠ s.lockMaster))) :
    (s.granted ++ [(id, lock)]).IsChain Follows := by
  refine chain_append owned.chain fun a last held => ?_
  obtain ⟨lock', master⟩ := owned.owner a last
  rw [← master]
  by_contra other
  exact free (.inr ⟨lock'.trans held, other⟩)

private theorem owned_enter {id : ℕ} {t : Transaction} (owned : Owned s.1)
    (next : bTransport g pnp slave s.1 s.2 id t = some s') : Owned s'.1 := by
  rw [bTransport] at next
  by_cases free : s.1.busy = true ∨ (s.1.isLock = true ∧ id ≠ s.1.lockMaster)
  · rw [if_pos free] at next
    exact absurd next nofun
  · rw [if_neg free] at next
    have idle : s.1.busy = false := Bool.eq_false_iff.mpr fun busy => free (.inl busy)
    have empty : s.1.inside = [] := by
      have occupied := owned.occupied
      rw [idle] at occupied
      exact List.length_eq_zero_iff.mp occupied
    have chain (lock : Bool) := owned.granted lock free
    dsimp only at next
    by_cases area : isPnp g t.address
    · rw [if_pos area] at next
      by_cases write : t.isWrite
      · rw [if_pos write, Option.some.injEq] at next
        subst next
        exact ⟨by simp [empty], by simp, chain t.lock⟩
      · rw [if_neg write, Option.some.injEq] at next
        subst next
        exact ⟨by simp [empty], by simp, chain t.lock⟩
    · rw [if_neg area] at next
      obtain ⟨⟨index, decoder⟩, -, eq⟩ := Option.map_eq_some_iff.mp next
      dsimp only at eq
      split at eq
      · subst eq
        exact ⟨by simp [empty], by simp, chain t.lock⟩
      · subst eq
        exact ⟨by simp [empty], by simp, chain t.lock⟩

private theorem owned_leave {k : ℕ} (owned : Owned s.1)
    (next : (bTransportEnd s.1 k).map (fun r => (r.1, s.2)) = some s') : Owned s'.1 := by
  obtain ⟨r, ended, rfl⟩ := Option.map_eq_some_iff.mp next
  obtain ⟨call, here, rfl⟩ := Option.map_eq_some_iff.mp ended
  refine ⟨?_, owned.owner, owned.chain⟩
  have occupied := owned.occupied
  obtain ⟨inside, -⟩ := List.getElem?_eq_some_iff.mp here
  dsimp only
  rw [List.length_eraseIdx_of_lt inside]
  split at occupied <;> simp <;> omega

private theorem owned_step {i : TransportStep} (owned : Owned s.1)
    (next : transportStep g pnp slave s i = some s') : Owned s'.1 := by
  cases i with
  | enter id t => exact owned_enter owned next
  | leave k => exact owned_leave owned next

end Transport

section Phases

variable (g : Generics)

/-- The master that a step of the controller grants the bus, and whether with a lock. -/
def grants (s : Phases) : PhaseStep → List (Grant (Fin 16))
  | .arbitrate =>
    if s.addressBusOwner = none ∧ s.dataBusState ≠ .waitstates then
      match (select g s).1 with
      | some m => ((s.requestMap m).trans.map fun t => (m, (s.payload t).lock)).toList
      | none => []
    else []
  | _ => []

/-- The requests granted and not ended yet. -/
def addressPhase (s : Phases) : List ℕ := s.requested ++ s.requestPEQ

variable {g} {s s' : Phases}

/-- One cycle of the arbiter changes nothing but the pointer, or grants a pending master. -/
theorem arbitrate_cases (next : arbitrate g s = some s') :
    (∃ robin, s' = { s with robin := robin } ∧ grants g s .arbitrate = [] ∧
      (s.addressBusOwner = none ∧ s.dataBusState ≠ .waitstates → (select g s) = (none, robin)) ∧
      (¬ (s.addressBusOwner = none ∧ s.dataBusState ≠ .waitstates) → robin = s.robin)) ∨
    ∃ m t robin, select g s = (some m, robin) ∧ (s.requestMap m).trans = some t ∧
      s.addressBusOwner = none ∧ grants g s .arbitrate = [(m, (s.payload t).lock)] ∧
      s' = grant { s with robin := robin } m t := by
  rw [arbitrate] at next
  rw [grants]
  by_cases free : s.addressBusOwner = none ∧ s.dataBusState ≠ .waitstates
  · rw [if_pos free] at next ⊢
    cases chosen : select g s with
    | mk selected robin =>
      rw [chosen] at next
      cases selected with
      | none =>
        exact .inl ⟨robin, (Option.some.inj next).symm, rfl, fun _ => rfl, fun busy => absurd free busy⟩
      | some m =>
        obtain ⟨t, trans, granted⟩ := Option.map_eq_some_iff.mp next
        exact .inr ⟨m, t, robin, rfl, trans, free.1, by dsimp only; rw [trans]; rfl, granted.symm⟩
  · rw [if_neg free] at next ⊢
    exact .inl ⟨s.robin, (Option.some.inj next).symm, rfl, fun yes => absurd yes free, fun _ => rfl⟩

theorem select_locked {m : Fin 16} {robin : ℕ} (chosen : select g s = (some m, robin))
    (locked : s.isLock = true) : m = s.lockMaster := by
  rw [select, if_pos locked, Prod.mk.injEq] at chosen
  have master := chosen.1
  by_cases waiting : isPending s s.lockMaster = true
  · rw [if_pos waiting] at master
    exact (Option.some.inj master).symm
  · rw [if_neg waiting] at master
    cases master

/-- At most one request is in its address phase, and locks exclude other masters. -/
structure Arbitrated (s : Phases) (past : List (Grant (Fin 16))) : Prop where
  occupied : (addressPhase s).length = if s.addressBusOwner.isSome then 1 else 0
  owner : ∀ a ∈ past.getLast?, s.isLock = a.2 ∧ s.lockMaster = a.1
  chain : past.IsChain Follows

private theorem arbitrated_arbitrate {past : List (Grant (Fin 16))} (inv : Arbitrated s past)
    (next : arbitrate g s = some s') : Arbitrated s' (past ++ grants g s .arbitrate) := by
  rcases arbitrate_cases next with ⟨robin, rfl, none, -, -⟩ | ⟨m, t, robin, chosen, -, free, some, rfl⟩
  · rw [none, List.append_nil]
    exact ⟨inv.occupied, inv.owner, inv.chain⟩
  · have chain : (past ++ grants g s .arbitrate).IsChain Follows := by
      rw [some]
      refine chain_append inv.chain fun a last held => ?_
      obtain ⟨lock, master⟩ := inv.owner a last
      exact (select_locked chosen (lock.trans held)).trans master
    have empty : (addressPhase s).length = 0 := by rw [inv.occupied, free]; rfl
    rw [addressPhase, List.length_append] at empty
    rw [some] at chain ⊢
    refine ⟨?_, ?_, chain⟩
    · rw [grant, addressPhase]
      split <;> simp [schedule] <;> omega
    · intro a last
      obtain rfl : (m, (s.payload t).lock) = a := by simpa using last
      rw [grant]
      split <;> exact ⟨rfl, rfl⟩

private theorem length_move {l k : List ℕ} {t : ℕ} (member : t ∈ l) :
    (l.erase t ++ (k ++ [t])).length = (l ++ k).length := by
  have pos := List.length_pos_of_mem member
  rw [List.length_append, List.length_append, List.length_append, List.length_erase_of_mem member,
    List.length_singleton]
  omega

private theorem arbitrated_step {i : PhaseStep} {past : List (Grant (Fin 16))}
    (inv : Arbitrated s past) (next : phaseStep g s i = some s') :
    Arbitrated s' (past ++ grants g s i) := by
  have silent (none : grants g s i = []) (kept : Arbitrated s' past) :
      Arbitrated s' (past ++ grants g s i) := by
    rw [none, List.append_nil]
    exact kept
  cases i with
  | arbitrate => exact arbitrated_arbitrate inv next
  | beginReq p =>
    rw [phaseStep, nbTransportFw, Option.ite_none_right_eq_some, Option.some.injEq] at next
    obtain ⟨-, rfl⟩ := next
    exact silent rfl ⟨inv.occupied, inv.owner, inv.chain⟩
  | accept t =>
    rw [phaseStep, acceptThread, Option.ite_none_right_eq_some] at next
    obtain ⟨⟨slaveId, decoder⟩, -, eq⟩ := Option.map_eq_some_iff.mp next.2
    dsimp only at eq
    split at eq
    · subst eq
      exact silent rfl ⟨inv.occupied, inv.owner, inv.chain⟩
    · subst eq
      exact silent rfl ⟨inv.occupied, inv.owner, inv.chain⟩
  | slaveEndReq t =>
    rw [phaseStep, slaveEndReq, Option.ite_none_right_eq_some, Option.some.injEq] at next
    obtain ⟨member, rfl⟩ := next
    exact silent rfl ⟨(length_move member).trans inv.occupied, inv.owner, inv.chain⟩
  | slaveBeginResp t =>
    rw [phaseStep, slaveBeginResp, Option.ite_none_right_eq_some, Option.some.injEq] at next
    obtain ⟨-, rfl⟩ := next
    exact silent rfl ⟨inv.occupied, inv.owner, inv.chain⟩
  | endReq t =>
    rw [phaseStep, requestThread, Option.ite_none_right_eq_some, Option.some.injEq] at next
    obtain ⟨member, rfl⟩ := next
    refine silent rfl ⟨?_, inv.owner, inv.chain⟩
    have occupied := inv.occupied
    have pos := List.length_pos_of_mem member
    rw [addressPhase, List.length_append] at occupied ⊢
    dsimp only
    rw [List.length_erase_of_mem member]
    change _ = 0
    split at occupied <;> omega
  | beginResp t =>
    rw [phaseStep, responseThread, Option.ite_none_right_eq_some, Option.some.injEq] at next
    obtain ⟨-, rfl⟩ := next
    exact silent rfl ⟨inv.occupied, inv.owner, inv.chain⟩
  | masterEndResp t =>
    rw [phaseStep, masterEndResp, Option.ite_none_right_eq_some, Option.some.injEq] at next
    obtain ⟨-, rfl⟩ := next
    exact silent rfl ⟨inv.occupied, inv.owner, inv.chain⟩
  | endResp t =>
    rw [phaseStep, endResponseThread, Option.ite_none_right_eq_some] at next
    have eq := next.2
    dsimp only at eq
    split at eq
    · obtain rfl := Option.some.inj eq
      exact silent rfl ⟨inv.occupied, inv.owner, inv.chain⟩
    · obtain rfl := Option.some.inj eq
      exact silent rfl ⟨inv.occupied, inv.owner, inv.chain⟩

end Phases

/-- In every run of the blocking transport and in every run of the phase threads at most one
transfer is in its address phase, and a locked transfer of a master excludes the transfers of other
masters until that master is granted one without lock. The bus is busy in LT mode only while a call
is inside. -/
theorem locked_transfers_exclusive (g : Generics) (pnp : Pnp) {μ : Type}
    (slave : ℕ → μ → Transaction → μ × Transaction) (decoder : Decoder) :
    (∀ (slaves : μ) (steps : List TransportStep) (s : Blocking × μ),
      run (transportStep g pnp slave) (Blocking.init decoder, slaves) steps = some s →
      s.1.inside.length ≤ 1 ∧ (s.1.busy = true ↔ s.1.inside ≠ []) ∧ LockExclusive s.1.granted) ∧
    (∀ (steps : List PhaseStep) (s : Phases),
      run (phaseStep g) (Phases.init decoder) steps = some s →
      (addressPhase s).length ≤ 1 ∧
        LockExclusive (outputs (phaseStep g) (grants g) (Phases.init decoder) steps)) := by
  constructor
  · intro slaves steps s reached
    have owned : Owned s.1 := run_always (P := fun s => Owned s.1)
      (fun _ _ _ owned next => owned_step owned next) (owned_init decoder) reached
    have occupied := owned.occupied
    refine ⟨by split at occupied <;> omega, ?_, lockExclusive_of_chain owned.chain⟩
    rw [← List.length_pos_iff, occupied]
    split <;> simp_all
  · intro steps s reached
    have start : Arbitrated (Phases.init decoder) [] := ⟨rfl, nofun, List.isChain_nil⟩
    have inv := outputs_always
      (fun _ _ _ _ inv next => arbitrated_step (g := g) inv next) start reached
    have occupied := inv.occupied
    exact ⟨by split at occupied <;> omega, lockExclusive_of_chain inv.chain⟩

/-- A read of one word by a master that locks the bus or not. -/
def lockRead (lock : Bool) : Transaction := ⟨false, 0x40000000, fun _ => 0, 4, lock, .incomplete⟩

/-- A locked and an unlocked read of master 0, then a read of master 1. -/
def lockedSteps : List TransportStep :=
  [.enter 0 (lockRead true), .leave 0, .enter 0 (lockRead false), .leave 0, .enter 1 (lockRead false)]

/-- No device has plug and play information. -/
def noDevices : Pnp := ⟨0, fun _ => none, fun _ => none⟩

theorem locked_transfers_exclusive_reads :
    (∃ s, run (transportStep plainBus noDevices fun _ μ t => (μ, t))
        (Blocking.init (Decoder.build twoBars), ()) lockedSteps = some s ∧
      s.1.inside.length ≤ 1 ∧ (s.1.busy = true ↔ s.1.inside ≠ []) ∧ LockExclusive s.1.granted) ∧
    (∃ s, run (phaseStep plainBus) (Phases.init (Decoder.build twoBars)) sharedRun = some s ∧
      (addressPhase s).length ≤ 1 ∧ LockExclusive (outputs (phaseStep plainBus) (grants plainBus)
        (Phases.init (Decoder.build twoBars)) sharedRun)) := by
  have exclusive := locked_transfers_exclusive plainBus noDevices (fun _ (μ : Unit) t => (μ, t))
    (Decoder.build twoBars)
  constructor
  · obtain ⟨s, reached⟩ := Option.isSome_iff_exists.mp (by decide +kernel :
      (run (transportStep plainBus noDevices fun _ (μ : Unit) t => (μ, t))
        (Blocking.init (Decoder.build twoBars), ()) lockedSteps).isSome)
    exact ⟨s, reached, exclusive.1 () lockedSteps s reached⟩
  · obtain ⟨s, reached⟩ := Option.isSome_iff_exists.mp (by decide +kernel :
      (run (phaseStep plainBus) (Phases.init (Decoder.build twoBars)) sharedRun).isSome)
    exact ⟨s, reached, exclusive.2 sharedRun s reached⟩

section Fairness

variable {g : Generics} {s s' : Phases}

/-- The masters the round-robin search visits before it comes to a master. -/
def turns (n robin m : ℕ) : ℕ := if robin < m then m - robin - 1 else m + n - robin - 1

/-- The master `i` places behind the pointer. -/
private def visited (n robin i : ℕ) : ℕ := (robin + i + 1) % n

private theorem visited_turns {n robin m : ℕ} (bound : m < n) (pointer : robin < n) :
    turns n robin m < n ∧ visited n robin (turns n robin m) = m := by
  rw [visited, turns]
  split
  · rw [Nat.mod_eq_of_lt (by omega)]
    omega
  · rw [show robin + (m + n - robin - 1) + 1 = m + n by omega, Nat.add_mod_right,
      Nat.mod_eq_of_lt bound]
    omega

private theorem turns_visited {n robin m i : ℕ} (bound : m < n)
    (before : i < turns n robin m) :
    turns n (visited n robin i) m + i + 1 = turns n robin m := by
  rw [visited]
  rw [turns] at before ⊢
  rw [turns]
  split at before
  · rename_i above
    rw [if_pos above, Nat.mod_eq_of_lt (by omega), if_pos (by omega)]
    omega
  · rename_i below
    rw [if_neg below]
    by_cases wraps : robin + i + 1 < n
    · rw [Nat.mod_eq_of_lt wraps, if_neg (by omega)]
      omega
    · rw [Nat.mod_eq_sub_mod (by omega), Nat.mod_eq_of_lt (by omega), if_pos (by omega)]
      omega

private theorem robinSearch_spec (s : Phases) (fuel : ℕ) {robin : ℕ}
    (pointer : robin < g.numOfMasterBindings) :
    (∃ i < fuel, robinSearch g s fuel robin =
        (some (Fin.ofNat 16 (visited g.numOfMasterBindings robin i)),
          visited g.numOfMasterBindings robin i) ∧
      ∀ j < i, isPending s (Fin.ofNat 16 (visited g.numOfMasterBindings robin j)) = false) ∨
    (robinSearch g s fuel robin = (none, (robin + fuel) % g.numOfMasterBindings) ∧
      ∀ j < fuel, isPending s (Fin.ofNat 16 (visited g.numOfMasterBindings robin j)) = false) := by
  induction fuel generalizing robin with
  | zero => exact .inr ⟨by rw [robinSearch, Nat.add_zero, Nat.mod_eq_of_lt pointer], nofun⟩
  | succ fuel ih =>
    have wraps : (robin + 1) % g.numOfMasterBindings < g.numOfMasterBindings :=
      Nat.mod_lt _ (by omega)
    have later (i : ℕ) : visited g.numOfMasterBindings ((robin + 1) % g.numOfMasterBindings) i =
        visited g.numOfMasterBindings robin (i + 1) := by
      rw [visited, visited, Nat.add_assoc, Nat.mod_add_mod]
      congr 1
      omega
    rw [robinSearch]
    by_cases first : isPending s (Fin.ofNat 16 ((robin + 1) % g.numOfMasterBindings)) = true
    · rw [if_pos first]
      exact .inl ⟨0, by omega, rfl, nofun⟩
    · rw [if_neg first]
      have skipped (j : ℕ) (rest : ∀ k, j = k + 1 →
          isPending s (Fin.ofNat 16 (visited g.numOfMasterBindings robin (k + 1))) = false) :
          isPending s (Fin.ofNat 16 (visited g.numOfMasterBindings robin j)) = false := by
        cases j with
        | zero => exact Bool.eq_false_iff.mpr first
        | succ k => exact rest k rfl
      rcases ih wraps with ⟨i, inside, found, before⟩ | ⟨found, before⟩
      · refine .inl ⟨i + 1, by omega, by rw [found, later], fun j below => skipped j fun k eq => ?_⟩
        rw [← later]
        exact before k (by omega)
      · refine .inr ⟨?_, fun j below => skipped j fun k eq => ?_⟩
        · rw [found, Nat.mod_add_mod]
          congr 2
          omega
        · rw [← later]
          exact before k (by omega)

/-- A master was granted the bus, or it is still pending and its turn comes after at most `limit`
grants in all. -/
structure Queued (g : Generics) (m : Fin 16) (limit : ℕ) (s : Phases) (past : List (Grant (Fin 16))) :
    Prop where
  pointer : s.robin < g.numOfMasterBindings
  turn : (∃ a ∈ past, a.1 = m) ∨
    (isPending s m = true ∧ past.length + turns g.numOfMasterBindings s.robin m ≤ limit)

private theorem select_unlocked (robin : g.rrobin = true) (unlocked : s.isLock = false) :
    select g s = robinSearch g s g.numOfMasterBindings s.robin := by
  rw [select, if_neg (by simp [unlocked]), if_pos robin]

theorem grant_others {k m : Fin 16} {t : ℕ} (other : m ≠ k) :
    (grant s k t).requestMap m = s.requestMap m := by
  rw [grant]
  split <;> exact Function.update_of_ne other ..

private theorem queued_arbitrate {m : Fin 16} {limit : ℕ} {past : List (Grant (Fin 16))}
    (robin : g.rrobin = true) (bound : m.val < g.numOfMasterBindings)
    (inv : Queued g m limit s past) (unlocked : s.isLock = false)
    (next : arbitrate g s = some s') : Queued g m limit s' (past ++ grants g s .arbitrate) := by
  have chosen := select_unlocked (g := g) robin unlocked
  obtain ⟨inside, reaches⟩ := visited_turns bound inv.pointer
  have mine : Fin.ofNat 16 (visited g.numOfMasterBindings s.robin
      (turns g.numOfMasterBindings s.robin m)) = m := by
    rw [reaches]
    exact Fin.ext (Nat.mod_eq_of_lt m.isLt)
  have search := robinSearch_spec s g.numOfMasterBindings inv.pointer
  rw [← chosen] at search
  rcases arbitrate_cases next with ⟨pointer, rfl, none, free, busy⟩ | ⟨k, t, pointer, found, -, -,
    some, rfl⟩
  · rw [none, List.append_nil]
    by_cases idle : s.addressBusOwner = .none ∧ s.dataBusState ≠ .waitstates
    · have missed := free idle
      rw [missed] at search
      rcases search with ⟨i, -, eq, -⟩ | ⟨eq, nobody⟩
      · have first := congrArg Prod.fst eq
        cases first
      · have back : pointer < g.numOfMasterBindings := by
          rw [(Prod.mk.inj eq).2]
          exact Nat.mod_lt _ (by omega)
        refine ⟨back, inv.turn.imp_right fun waiting => ?_⟩
        have absent := nobody _ inside
        rw [mine, waiting.1] at absent
        cases absent
    · have kept := busy idle
      exact ⟨kept ▸ inv.pointer, kept ▸ inv.turn⟩
  · rw [some]
    rw [found] at search
    rcases search with ⟨i, -, eq, before⟩ | ⟨eq, -⟩
    · obtain ⟨winner, moved⟩ := Prod.mk.inj eq
      have pointer_eq : (grant { s with robin := pointer } k t).robin = pointer := by
        rw [grant]
        split <;> rfl
      refine ⟨?_, ?_⟩
      · rw [pointer_eq, moved]
        exact Nat.mod_lt _ (by omega)
      · rcases inv.turn with ⟨a, earlier, own⟩ | ⟨pending, bounded⟩
        · exact .inl ⟨a, List.mem_append_left _ earlier, own⟩
        · by_cases same : k = m
          · exact .inl ⟨_, List.mem_append_right _ (List.mem_singleton_self _), same⟩
          · have sooner : i < turns g.numOfMasterBindings s.robin m := by
              by_contra later
              by_cases last : i = turns g.numOfMasterBindings s.robin m
              · rw [last, mine] at winner
                exact same (Option.some.inj winner)
              · have skipped := before _ (by omega : turns g.numOfMasterBindings s.robin m < i)
                rw [mine, pending] at skipped
                cases skipped
            have closer := turns_visited bound sooner
            refine .inr ⟨?_, ?_⟩
            · rw [isPending, grant_others (Ne.symm same)]
              exact pending
            · rw [pointer_eq, moved, List.length_append, List.length_singleton]
              omega
    · have first := congrArg Prod.fst eq
      cases first

private theorem pending_step {i : PhaseStep} (other : i ≠ .arbitrate)
    (next : phaseStep g s i = some s') :
    s'.robin = s.robin ∧ ∀ m, isPending s m = true → isPending s' m = true := by
  cases i with
  | arbitrate => exact absurd rfl other
  | beginReq p =>
    rw [phaseStep, nbTransportFw, Option.ite_none_right_eq_some, Option.some.injEq] at next
    obtain ⟨-, rfl⟩ := next
    exact ⟨rfl, fun _ pending => pending⟩
  | accept t =>
    rw [phaseStep, acceptThread, Option.ite_none_right_eq_some] at next
    obtain ⟨⟨slaveId, decoder⟩, -, eq⟩ := Option.map_eq_some_iff.mp next.2
    dsimp only at eq
    split at eq
    · subst eq
      refine ⟨rfl, fun m pending => ?_⟩
      rw [isPending, decide_eq_true_iff] at pending ⊢
      dsimp only [enter]
      by_cases own : m = (s.payload t).masterId
      · rw [own, Function.update_self]
      · rw [Function.update_of_ne own]
        exact pending
    · subst eq
      exact ⟨rfl, fun _ pending => pending⟩
  | slaveEndReq t =>
    rw [phaseStep, slaveEndReq, Option.ite_none_right_eq_some, Option.some.injEq] at next
    obtain ⟨-, rfl⟩ := next
    exact ⟨rfl, fun _ pending => pending⟩
  | slaveBeginResp t =>
    rw [phaseStep, slaveBeginResp, Option.ite_none_right_eq_some, Option.some.injEq] at next
    obtain ⟨-, rfl⟩ := next
    exact ⟨rfl, fun _ pending => pending⟩
  | endReq t =>
    rw [phaseStep, requestThread, Option.ite_none_right_eq_some, Option.some.injEq] at next
    obtain ⟨-, rfl⟩ := next
    exact ⟨rfl, fun _ pending => pending⟩
  | beginResp t =>
    rw [phaseStep, responseThread, Option.ite_none_right_eq_some, Option.some.injEq] at next
    obtain ⟨-, rfl⟩ := next
    exact ⟨rfl, fun _ pending => pending⟩
  | masterEndResp t =>
    rw [phaseStep, masterEndResp, Option.ite_none_right_eq_some, Option.some.injEq] at next
    obtain ⟨-, rfl⟩ := next
    exact ⟨rfl, fun _ pending => pending⟩
  | endResp t =>
    rw [phaseStep, endResponseThread, Option.ite_none_right_eq_some] at next
    have eq := next.2
    dsimp only at eq
    split at eq
    · obtain rfl := Option.some.inj eq
      exact ⟨rfl, fun _ pending => pending⟩
    · obtain rfl := Option.some.inj eq
      exact ⟨rfl, fun _ pending => pending⟩

private theorem queued_step {m : Fin 16} {limit : ℕ} {past : List (Grant (Fin 16))} {i : PhaseStep}
    (robin : g.rrobin = true) (bound : m.val < g.numOfMasterBindings)
    (inv : Queued g m limit s past) (unlocked : s.isLock = false)
    (next : phaseStep g s i = some s') : Queued g m limit s' (past ++ grants g s i) := by
  by_cases cycle : i = .arbitrate
  · subst cycle
    exact queued_arbitrate robin bound inv unlocked next
  · have silent : grants g s i = [] := by
      cases i with
      | arbitrate => exact absurd rfl cycle
      | _ => rfl
    obtain ⟨pointer, kept⟩ := pending_step cycle next
    rw [silent, List.append_nil]
    refine ⟨pointer ▸ inv.pointer, inv.turn.imp_right fun waiting => ?_⟩
    exact ⟨kept m waiting.1, pointer ▸ waiting.2⟩

private theorem select_pointer (pointer : s.robin < g.numOfMasterBindings) :
    (select g s).2 < g.numOfMasterBindings := by
  rw [select]
  split
  · exact pointer
  · split
    · rcases robinSearch_spec s g.numOfMasterBindings pointer with
        ⟨i, -, eq, -⟩ | ⟨eq, -⟩
      · rw [eq]
        exact Nat.mod_lt _ (by omega)
      · rw [eq]
        exact Nat.mod_lt _ (by omega)
    · exact pointer

private theorem pointer_run {steps : List PhaseStep} {decoder : Decoder}
    (some : 0 < g.numOfMasterBindings)
    (reached : run (phaseStep g) (Phases.init decoder) steps = .some s) :
    s.robin < g.numOfMasterBindings := by
  refine run_always (P := fun s => s.robin < g.numOfMasterBindings)
    (fun s i s' pointer next => ?_) some reached
  by_cases cycle : i = .arbitrate
  · subst cycle
    have below := select_pointer pointer
    rcases arbitrate_cases next with
      ⟨robin, rfl, -, free, busy⟩ | ⟨k, t, robin, found, -, -, -, rfl⟩
    · by_cases idle : s.addressBusOwner = none ∧ s.dataBusState ≠ .waitstates
      · rw [free idle] at below
        exact below
      · rw [busy idle]
        exact pointer
    · rw [found] at below
      rw [grant]
      split <;> exact below
  · rw [(pending_step cycle next).1]
    exact pointer

/-- Round-robin arbitration without locks grants at most `n - 1` other masters before a pending
master, which stays pending until then, and granting a master keeps the records of the others. -/
theorem round_robin_fair (g : Generics) (robin : g.rrobin = true) (decoder : Decoder) :
    (∀ (before after : List PhaseStep) (s t : Phases) (m : Fin 16), m.val < g.numOfMasterBindings →
      run (phaseStep g) (Phases.init decoder) before = some s → isPending s m = true →
      Along (phaseStep g) (fun s _ => s.isLock = false) s after →
      run (phaseStep g) s after = some t →
      (∀ a ∈ outputs (phaseStep g) (grants g) s after, a.1 ≠ m) →
      (outputs (phaseStep g) (grants g) s after).length ≤ g.numOfMasterBindings - 1 ∧
        isPending t m = true) ∧
    (∀ (s t : Phases), phaseStep g s .arbitrate = some t → ∀ a ∈ grants g s .arbitrate, ∀ m ≠ a.1,
      t.requestMap m = s.requestMap m) := by
  constructor
  · intro before after s t m bound reached pending unlocked continued others
    have pointer := pointer_run (by omega) reached
    have start : Queued g m (turns g.numOfMasterBindings s.robin m) s [] :=
      ⟨pointer, .inr ⟨pending, by simp⟩⟩
    have inv := run_outputs (fun s i t past inv unlocked next =>
      queued_step (g := g) robin bound inv unlocked next) start unlocked continued
    rw [List.nil_append] at inv
    have inside := (visited_turns bound pointer).1
    rcases inv.turn with ⟨a, granted, own⟩ | ⟨still, count⟩
    · exact absurd own (others a granted)
    · have total : (outputs (phaseStep g) (grants g) s after).length + _ ≤ _ := count
      exact ⟨by omega, still⟩
  · intro s t next a granted m other
    rcases arbitrate_cases next with ⟨_, -, none, -, -⟩ | ⟨k, u, robin, -, -, -, some, rfl⟩
    · rw [none] at granted
      exact absurd granted List.not_mem_nil
    · rw [some, List.mem_singleton] at granted
      rw [granted] at other
      exact grant_others other

end Fairness

/-- Three masters under round-robin arbitration. -/
def robinBus : Generics := { plainBus with rrobin := true, numOfMasterBindings := 3 }

/-- A read of one word by a master. -/
def readBy (m : Fin 16) : Payload := { wordRead 0x40000000 with masterId := m }

/-- The masters 0, 1 and 2 request the bus. -/
def threeRequests : List PhaseStep :=
  [.beginReq (readBy (masterOf 0)), .accept 0, .beginReq (readBy (masterOf 1)), .accept 1,
    .beginReq (readBy (masterOf 2)), .accept 2]

/-- Masters 1 and 2 are granted before master 0. -/
def twoGrants : List PhaseStep :=
  [.arbitrate, .slaveEndReq 1, .endReq 1, .slaveBeginResp 1, .beginResp 1, .arbitrate]

theorem round_robin_fair_three :
    ∃ s t, run (phaseStep robinBus) (Phases.init (Decoder.build twoBars)) threeRequests = some s ∧
      run (phaseStep robinBus) s twoGrants = some t ∧
      outputs (phaseStep robinBus) (grants robinBus) s twoGrants = [(1, false), (2, false)] ∧
      (outputs (phaseStep robinBus) (grants robinBus) s twoGrants).length ≤ 2 ∧
      isPending t 0 = true := by
  have evaluated : (run (phaseStep robinBus) (Phases.init (Decoder.build twoBars)) threeRequests).bind
      (fun s => (run (phaseStep robinBus) s twoGrants).map fun _ =>
        (isPending s 0, outputs (phaseStep robinBus) (grants robinBus) s twoGrants,
          decide (Along (phaseStep robinBus) (fun s _ => s.isLock = false) s twoGrants))) =
      some (true, [(1, false), (2, false)], true) := by decide +kernel
  obtain ⟨s, reached, rest⟩ := Option.bind_eq_some_iff.mp evaluated
  obtain ⟨t, continued, facts⟩ := Option.map_eq_some_iff.mp rest
  obtain ⟨pending, granted, unlocked⟩ : isPending s 0 = true ∧
      outputs (phaseStep robinBus) (grants robinBus) s twoGrants = [(1, false), (2, false)] ∧
      decide (Along (phaseStep robinBus) (fun s _ => s.isLock = false) s twoGrants) = true := by
    simpa only [Prod.mk.injEq] using facts
  have others : ∀ a ∈ outputs (phaseStep robinBus) (grants robinBus) s twoGrants, a.1 ≠ 0 := by
    rw [granted]
    decide
  have fair := (round_robin_fair robinBus rfl (Decoder.build twoBars)).1 threeRequests twoGrants s t 0
    (by decide) reached pending (of_decide_eq_true unlocked) continued others
  exact ⟨s, t, reached, continued, granted, fair⟩

end Socrocket.Bus.AHBCtrl
