/- Socrocket/Bus/PhaseRouting
   digest: Phases reach their parties while the overlapping transactions of a master share a slave. -/

import Socrocket.Base.Run
import Socrocket.Bus.Phases

set_option autoImplicit false
set_option relaxedAutoImplicit false

namespace Socrocket.Bus.AHBCtrl

open Socrocket.Base
open Socrocket.Base.Run

variable (g : Generics) (s : Phases)

/-- The address of a transaction belongs to a slave or to the configuration area. -/
def Mapped (t : ℕ) : Prop :=
  ∃ found ∈ target g s.decoder (s.payload t).address, 0 ≤ found.1 ∧
    (isPnp g (s.payload t).address ∨ found.1 < 16)

/-- Every unfinished transaction of the same master goes to the slave of this one. -/
def SameSlave (t : ℕ) : Prop :=
  ∀ found ∈ target g s.decoder (s.payload t).address, ∀ u < s.issued,
    (s.payload u).masterId = (s.payload t).masterId → u ∉ s.released →
    ∀ j ∈ s.slaveOf u, (j : ℤ) = found.1

/-- A condition on the transactions that are accepted. -/
def OnAccept (ok : ℕ → Prop) : PhaseStep → Prop
  | .accept t => ok t
  | _ => True

instance (t : ℕ) : Decidable (Mapped g s t) :=
  inferInstanceAs (Decidable (∃ found ∈ target g s.decoder (s.payload t).address, 0 ≤ found.1 ∧ _))

instance (t : ℕ) : Decidable (SameSlave g s t) :=
  inferInstanceAs (Decidable (∀ found ∈ target g s.decoder (s.payload t).address,
    ∀ u < s.issued, _ → _ → ∀ j ∈ s.slaveOf u, (j : ℤ) = found.1))

instance (ok : ℕ → Prop) [∀ t, Decidable (ok t)] : ∀ i, Decidable (OnAccept ok i)
  | .accept t => inferInstanceAs (Decidable (ok t))
  | .beginReq _ | .arbitrate | .slaveEndReq _ | .slaveBeginResp _ | .endReq _ | .beginResp _
  | .masterEndResp _ | .endResp _ => isTrue trivial

/-- Nothing is on its way. -/
def Quiet : Prop :=
  s.acceptPEQ = [] ∧ (∀ m, ¬ isPending s m) ∧ s.requestPEQ = [] ∧ s.responsePEQ = [] ∧
    s.endResponsePEQ = [] ∧ s.requested = [] ∧ s.served = [] ∧ s.responding = []

/-- The phases delivered so far reached the parties of their transactions. -/
structure Routed : Prop where
  endReqs : ∀ t m, (t, m) ∈ s.endReqs → m = (s.payload t).masterId
  beginResps : ∀ t m, (t, m) ∈ s.beginResps → m = (s.payload t).masterId
  beginReqs : ∀ t i j, (t, i) ∈ s.beginReqs → (t, j) ∈ s.beginReqs → i = j
  endResps : ∀ t i, (t, i) ∈ s.endResps → (t, i) ∈ s.beginReqs
  ended : ∀ t, (s.endResps.map Prod.fst).count t =
    if isPnp g (s.payload t).address then 0 else s.released.count t
  released : ∀ t, s.released.count t ≤ 1
  finished : Quiet s → ∀ t < s.issued, s.released.count t = 1 ∧
    (s.endReqs.map Prod.fst).count t = 1 ∧ (s.beginResps.map Prod.fst).count t = 1

/-- A transaction waits for arbitration in the request record of its master. -/
def Waits (t : ℕ) : Prop :=
  (s.requestMap (s.payload t).masterId).state = .pending ∧
    (s.requestMap (s.payload t).masterId).trans = some t

instance (t : ℕ) : Decidable (Waits s t) := inferInstanceAs (Decidable (_ ∧ _))

/-- The places of a transaction before arbitration. -/
def waitTokens (t : ℕ) : ℕ := s.acceptPEQ.count t + if Waits s t then 1 else 0

/-- Where the request of a transaction is, from BEGIN_REQ to END_REQ. -/
def requestTokens (t : ℕ) : ℕ :=
  waitTokens s t + s.requested.count t + s.requestPEQ.count t +
    (s.endReqs.map Prod.fst).count t

/-- Where the response of a transaction is, from BEGIN_REQ to BEGIN_RESP. -/
def responseTokens (t : ℕ) : ℕ :=
  waitTokens s t + s.served.count t + s.responsePEQ.count t +
    (s.beginResps.map Prod.fst).count t

/-- One place for every issued transaction. -/
def issuedTokens (t : ℕ) : ℕ := if t < s.issued then 1 else 0

/-- Every issued transaction is in one place of each half, and the records name its parties. -/
structure Tracked : Prop where
  request : ∀ t, requestTokens s t = issuedTokens s t
  response : ∀ t, responseTokens s t = issuedTokens s t
  begun : ∀ t, (s.beginResps.map Prod.fst).count t =
    s.responding.count t + s.endResponsePEQ.count t + s.released.count t
  decoded : ∀ t, (s.slaveOf t).isSome ↔ t < s.issued ∧ t ∉ s.acceptPEQ
  pnp : ∀ t i, s.slaveOf t = some i → (i = 16 ↔ isPnp g (s.payload t).address)
  requestMap : ∀ t i, s.slaveOf t = some i →
    (s.requestMap (s.payload t).masterId).masterId = (s.payload t).masterId
  responseMap : ∀ t i, s.slaveOf t = some i →
    (s.responseMap (s.payload t).masterId).masterId = (s.payload t).masterId
  waiting : ∀ m, isPending s m → ∃ t, (s.requestMap m).trans = some t ∧
    (s.payload t).masterId = m ∧ s.slaveOf t = some (s.requestMap m).slaveId
  awaiting : ∀ t < s.issued, t ∉ s.endReqs.map Prod.fst →
    s.awaiting (s.payload t).masterId = some t
  outstanding : ∀ t i, s.slaveOf t = some i → t ∉ s.released →
    (s.responseMap (s.payload t).masterId).slaveId = i
  beginReqs : ∀ t i, (t, i) ∈ s.beginReqs ↔ s.slaveOf t = some i ∧ i ≠ 16 ∧ ¬ Waits s t
  endReqs : ∀ t m, (t, m) ∈ s.endReqs → t < s.issued ∧ m = (s.payload t).masterId
  beginResps : ∀ t m, (t, m) ∈ s.beginResps → t < s.issued ∧ m = (s.payload t).masterId
  endResps : ∀ t i, (t, i) ∈ s.endResps → s.slaveOf t = some i ∧ i ≠ 16
  ended : ∀ t, (s.endResps.map Prod.fst).count t =
    if isPnp g (s.payload t).address then 0 else s.released.count t

variable {g s} {s' : Phases}

private theorem count_move {l k : List ℕ} {t : ℕ} (member : t ∈ l) (u : ℕ) :
    (l.erase t).count u + (k ++ [t]).count u = l.count u + k.count u := by
  have some : u = t → 0 < l.count u := fun eq => eq ▸ List.count_pos_iff.mpr member
  rw [List.count_erase, List.count_append, List.count_singleton]
  simp only [beq_iff_eq, eq_comm (a := t)]
  split
  · rename_i eq
    have := some eq
    omega
  · omega

private theorem tracked_init (decoder : Decoder) : Tracked g (Phases.init decoder) := by
  constructor
  case ended => exact fun t => (ite_self 0).symm
  all_goals simp [Phases.init, requestTokens, responseTokens, waitTokens, issuedTokens, Waits,
    isPending, Connection.zero]

private theorem issuedTokens_le (t : ℕ) : issuedTokens s t ≤ 1 := by
  rw [issuedTokens]
  split <;> omega

private theorem issuedTokens_pos {t : ℕ} : 0 < issuedTokens s t ↔ t < s.issued := by
  rw [issuedTokens]
  split <;> simp_all

private theorem Tracked.issued {t i : ℕ} (tracked : Tracked g s) (slave : s.slaveOf t = some i) :
    t < s.issued :=
  ((tracked.decoded t).mp (by simp [slave])).1

private theorem Tracked.accepted {t : ℕ} (tracked : Tracked g s) (issued : t < s.issued)
    (passed : s.acceptPEQ.count t = 0) : ∃ i, s.slaveOf t = some i :=
  Option.isSome_iff_exists.mp
    ((tracked.decoded t).mpr ⟨issued, List.count_eq_zero.mp passed⟩)

private theorem tracked_slaveEndReq {t : ℕ} (tracked : Tracked g s)
    (next : slaveEndReq s t = some s') : Tracked g s' := by
  rw [slaveEndReq, Option.ite_none_right_eq_some, Option.some.injEq] at next
  obtain ⟨member, rfl⟩ := next
  refine { tracked with request := fun u => ?_ }
  have move := count_move (k := s.requestPEQ) member u
  have before : waitTokens s u + _ + _ + _ = issuedTokens s u := tracked.request u
  change waitTokens s u + _ + _ + _ = issuedTokens s u
  dsimp only
  omega

private theorem tracked_slaveBeginResp {t : ℕ} (tracked : Tracked g s)
    (next : slaveBeginResp s t = some s') : Tracked g s' := by
  rw [slaveBeginResp, Option.ite_none_right_eq_some, Option.some.injEq] at next
  obtain ⟨member, rfl⟩ := next
  refine { tracked with response := fun u => ?_ }
  have move := count_move (k := s.responsePEQ) member u
  have before : waitTokens s u + _ + _ + _ = issuedTokens s u := tracked.response u
  change waitTokens s u + _ + _ + _ = issuedTokens s u
  dsimp only
  omega

private theorem tracked_masterEndResp {t : ℕ} (tracked : Tracked g s)
    (next : masterEndResp s t = some s') : Tracked g s' := by
  rw [masterEndResp, Option.ite_none_right_eq_some, Option.some.injEq] at next
  obtain ⟨member, rfl⟩ := next
  refine { tracked with begun := fun u => ?_ }
  have move := count_move (k := s.endResponsePEQ) member u
  have before := tracked.begun u
  dsimp only
  omega

private theorem tracked_responseThread {t : ℕ} (tracked : Tracked g s)
    (next : responseThread s t = some s') : Tracked g s' := by
  rw [responseThread, Option.ite_none_right_eq_some, Option.some.injEq] at next
  obtain ⟨member, rfl⟩ := next
  have here := List.count_pos_iff.mpr member
  have total : waitTokens s t + _ + _ + _ = issuedTokens s t := tracked.response t
  have single := issuedTokens_le (s := s) t
  have issued : t < s.issued := issuedTokens_pos.mp (by omega)
  obtain ⟨i, slave⟩ := tracked.accepted issued (by rw [waitTokens] at total; omega)
  refine { tracked with
    response := fun u => ?_
    begun := fun u => ?_
    beginResps := fun u m sent => ?_ }
  · have move := count_move (k := s.beginResps.map Prod.fst) member u
    have before : waitTokens s u + _ + _ + _ = issuedTokens s u := tracked.response u
    change waitTokens s u + _ + _ + _ = issuedTokens s u
    rw [List.map_append]
    dsimp only [List.map]
    omega
  · have before := tracked.begun u
    rw [List.map_append]
    dsimp only [List.map]
    rw [List.count_append, List.count_append]
    omega
  · cases List.mem_append.mp sent with
    | inl earlier => exact tracked.beginResps u m earlier
    | inr now =>
      obtain ⟨rfl, rfl⟩ := Prod.mk.inj (List.mem_singleton.mp now)
      exact ⟨issued, tracked.responseMap u i slave⟩

private theorem tracked_requestThread {t : ℕ} (tracked : Tracked g s)
    (next : requestThread s t = some s') : Tracked g s' := by
  rw [requestThread, Option.ite_none_right_eq_some, Option.some.injEq] at next
  obtain ⟨member, rfl⟩ := next
  have here := List.count_pos_iff.mpr member
  have total : waitTokens s t + _ + _ + _ = issuedTokens s t := tracked.request t
  have single := issuedTokens_le (s := s) t
  have issued : t < s.issued := issuedTokens_pos.mp (by omega)
  obtain ⟨i, slave⟩ := tracked.accepted issued (by rw [waitTokens] at total; omega)
  have requesting : t ∉ s.endReqs.map Prod.fst := List.count_eq_zero.mp (by omega)
  have record := tracked.requestMap t i slave
  refine { tracked with
    request := fun u => ?_
    awaiting := fun u known unended => ?_
    endReqs := fun u m sent => ?_ }
  · have move := count_move (k := s.endReqs.map Prod.fst) member u
    have before : waitTokens s u + _ + _ + _ = issuedTokens s u := tracked.request u
    change waitTokens s u + _ + _ + _ = issuedTokens s u
    rw [List.map_append]
    dsimp only [List.map]
    omega
  · dsimp only at unended ⊢
    rw [List.map_append, List.mem_append, not_or] at unended
    have before := tracked.awaiting u known unended.1
    rw [record, Function.update_of_ne, before]
    intro same
    rw [same, tracked.awaiting t issued requesting, Option.some.injEq] at before
    exact unended.2 (by simp [before])
  · cases List.mem_append.mp sent with
    | inl earlier => exact tracked.endReqs u m earlier
    | inr now =>
      obtain ⟨rfl, rfl⟩ := Prod.mk.inj (List.mem_singleton.mp now)
      exact ⟨issued, record⟩

private theorem tracked_endResponseThread {t : ℕ} (tracked : Tracked g s)
    (next : endResponseThread s t = some s') : Tracked g s' := by
  rw [endResponseThread] at next
  by_cases member : t ∈ s.endResponsePEQ
  · have here := List.count_pos_iff.mpr member
    have total : waitTokens s t + _ + _ + _ = issuedTokens s t := tracked.response t
    have begun := tracked.begun t
    have single := issuedTokens_le (s := s) t
    have issued : t < s.issued := issuedTokens_pos.mp (by omega)
    obtain ⟨i, slave⟩ := tracked.accepted issued (by rw [waitTokens] at total; omega)
    have unreleased : t ∉ s.released := List.count_eq_zero.mp (by omega)
    have record := tracked.outstanding t i slave unreleased
    have pnp := tracked.pnp t i slave
    have counts (u : ℕ) : (s.beginResps.map Prod.fst).count u = s.responding.count u +
        (s.endResponsePEQ.erase t).count u + (s.released ++ [t]).count u := by
      have move := count_move (k := s.released) member u
      have before := tracked.begun u
      omega
    have outstanding (u j : ℕ) (known : s.slaveOf u = some j) (still : u ∉ s.released ++ [t]) :
        (s.responseMap (s.payload u).masterId).slaveId = j :=
      tracked.outstanding u j known fun earlier => still (List.mem_append_left _ earlier)
    rw [if_pos member] at next
    dsimp only at next
    rw [record] at next
    by_cases configuration : i = 16
    · rw [if_pos configuration, Option.some.injEq] at next
      subst next
      refine { tracked with
        begun := counts
        outstanding := outstanding
        ended := fun u => ?_ }
      have before := tracked.ended u
      dsimp only
      rw [before, List.count_append, List.count_singleton]
      by_cases same : t = u
      · subst same
        rw [if_pos (pnp.mp configuration), if_pos (pnp.mp configuration)]
      · simp [same]
    · rw [if_neg configuration, Option.some.injEq] at next
      subst next
      refine { tracked with
        begun := counts
        outstanding := outstanding
        endResps := fun u j sent => ?_
        ended := fun u => ?_ }
      · cases List.mem_append.mp sent with
        | inl earlier => exact tracked.endResps u j earlier
        | inr now =>
          obtain ⟨rfl, rfl⟩ := Prod.mk.inj (List.mem_singleton.mp now)
          exact ⟨slave, configuration⟩
      · have before := tracked.ended u
        dsimp only
        rw [List.map_append, List.count_append, before, List.count_append]
        by_cases same : t = u
        · subst same
          rw [if_neg (pnp.not.mp configuration), if_neg (pnp.not.mp configuration)]
          rfl
        · simp [same]
  · rw [if_neg member] at next
    exact absurd next nofun

private theorem Tracked.pending {m : Fin 16} {t : ℕ} (tracked : Tracked g s)
    (pending : (s.requestMap m).state = .pending) (trans : (s.requestMap m).trans = some t) :
    (s.payload t).masterId = m ∧ s.slaveOf t = some (s.requestMap m).slaveId := by
  obtain ⟨u, trans', master, slave⟩ := tracked.waiting m (decide_eq_true pending)
  obtain rfl : t = u := Option.some.inj (trans.symm.trans trans')
  exact ⟨master, slave⟩

private theorem Tracked.unissued (tracked : Tracked g s) : s.slaveOf s.issued = none := by
  by_contra known
  obtain ⟨i, slave⟩ := Option.ne_none_iff_exists'.mp known
  exact absurd (tracked.issued slave) (Nat.lt_irrefl _)

private theorem waits_nbTransportFw {p : Payload} (tracked : Tracked g s)
    (next : nbTransportFw s p = some s') (u : ℕ) : Waits s' u ↔ Waits s u := by
  rw [nbTransportFw, Option.ite_none_right_eq_some, Option.some.injEq] at next
  obtain ⟨-, rfl⟩ := next
  by_cases new : u = s.issued
  · subst new
    have never (m : Fin 16) (pending : (s.requestMap m).state = .pending)
        (trans : (s.requestMap m).trans = some s.issued) : False := by
      have slave := (tracked.pending pending trans).2
      rw [tracked.unissued] at slave
      exact absurd slave nofun
    exact ⟨fun waits => (never _ waits.1 waits.2).elim, fun waits => (never _ waits.1 waits.2).elim⟩
  · rw [Waits, Waits]
    dsimp only
    rw [Function.update_of_ne new]

private theorem tokens_nbTransportFw {p : Payload} (tracked : Tracked g s)
    (next : nbTransportFw s p = some s') (u : ℕ) :
    ∃ n, waitTokens s' u = waitTokens s u + n ∧ issuedTokens s' u = issuedTokens s u + n := by
  have waits := waits_nbTransportFw tracked next u
  rw [nbTransportFw, Option.ite_none_right_eq_some, Option.some.injEq] at next
  obtain ⟨-, rfl⟩ := next
  refine ⟨if u = s.issued then 1 else 0, ?_, ?_⟩
  · simp only [waitTokens, waits, List.count_append, List.count_singleton, beq_iff_eq, eq_comm (a := u)]
    omega
  · simp only [issuedTokens]
    split_ifs <;> omega

private theorem tracked_nbTransportFw {p : Payload} (tracked : Tracked g s)
    (next : nbTransportFw s p = some s') : Tracked g s' := by
  have waits := waits_nbTransportFw tracked next
  have tokens := tokens_nbTransportFw tracked next
  rw [nbTransportFw, Option.ite_none_right_eq_some, Option.some.injEq] at next
  obtain ⟨free, rfl⟩ := next
  have kept {u : ℕ} (issued : u < s.issued) : Function.update s.payload s.issued p u = s.payload u :=
    Function.update_of_ne (Nat.ne_of_lt issued) ..
  refine { tracked with
    request := fun u => ?_
    response := fun u => ?_
    decoded := fun u => ?_
    pnp := fun u i slave => ?_
    requestMap := fun u i slave => ?_
    responseMap := fun u i slave => ?_
    waiting := fun m pending => ?_
    awaiting := fun u known unended => ?_
    outstanding := fun u i slave unreleased => ?_
    beginReqs := fun u i => ?_
    endReqs := fun u m sent => ?_
    beginResps := fun u m sent => ?_
    ended := fun u => ?_ }
  · obtain ⟨n, wait, issue⟩ := tokens u
    have before : waitTokens s u + _ + _ + _ = issuedTokens s u := tracked.request u
    rw [requestTokens, wait, issue]
    dsimp only
    omega
  · obtain ⟨n, wait, issue⟩ := tokens u
    have before : waitTokens s u + _ + _ + _ = issuedTokens s u := tracked.response u
    rw [responseTokens, wait, issue]
    dsimp only
    omega
  · dsimp only
    rw [tracked.decoded, List.mem_append, List.mem_singleton, not_or]
    constructor
    · rintro ⟨issued, absent⟩
      exact ⟨by omega, absent, by omega⟩
    · rintro ⟨issued, absent, old⟩
      exact ⟨by omega, absent⟩
  · dsimp only
    rw [kept (tracked.issued slave)]
    exact tracked.pnp u i slave
  · dsimp only
    rw [kept (tracked.issued slave)]
    exact tracked.requestMap u i slave
  · dsimp only
    rw [kept (tracked.issued slave)]
    exact tracked.responseMap u i slave
  · obtain ⟨t, trans, master, slave⟩ := tracked.waiting m pending
    refine ⟨t, trans, ?_, slave⟩
    dsimp only
    rw [kept (tracked.issued slave), master]
  · dsimp only at known ⊢
    by_cases new : u = s.issued
    · rw [new, Function.update_self, Function.update_self]
    · have issued : u < s.issued := by omega
      have before := tracked.awaiting u issued unended
      rw [kept issued, Function.update_of_ne _, before]
      intro same
      rw [same, free] at before
      exact absurd before nofun
  · dsimp only
    rw [kept (tracked.issued slave)]
    exact tracked.outstanding u i slave unreleased
  · rw [waits u]
    exact tracked.beginReqs u i
  · obtain ⟨issued, master⟩ := tracked.endReqs u m sent
    refine ⟨Nat.lt_succ_of_lt issued, ?_⟩
    dsimp only
    rw [kept issued, master]
  · obtain ⟨issued, master⟩ := tracked.beginResps u m sent
    refine ⟨Nat.lt_succ_of_lt issued, ?_⟩
    dsimp only
    rw [kept issued, master]
  · have before := tracked.ended u
    have total : waitTokens s u + _ + _ + _ = issuedTokens s u := tracked.response u
    have begun := tracked.begun u
    dsimp only
    by_cases new : u = s.issued
    · have none : issuedTokens s u = 0 := if_neg (by omega)
      have unreleased : s.released.count u = 0 := by omega
      rw [unreleased, ite_self] at before ⊢
      exact before
    · simp only [Function.update_of_ne new]
      exact before

private theorem acceptThread_eq {t : ℕ} (mapped : Mapped g s t)
    (next : acceptThread g s t = some s') :
    ∃ (i : ℕ) (d : Decoder), t ∈ s.acceptPEQ ∧
      target g s.decoder (s.payload t).address = some ((i : ℤ), d) ∧
      (i = 16 ↔ isPnp g (s.payload t).address) ∧
      s' = enter { s with acceptPEQ := s.acceptPEQ.erase t, decoder := d } t i := by
  obtain ⟨⟨i, d⟩, found, natural, area⟩ := mapped
  dsimp only at natural area
  rw [Option.mem_def] at found
  rw [acceptThread] at next
  by_cases member : t ∈ s.acceptPEQ
  · rw [if_pos member] at next
    dsimp only at next
    rw [found, Option.map_some, Option.some.injEq, if_pos natural] at next
    refine ⟨i.toNat, d, member, ?_, ?_, next.symm⟩
    · rw [found, Int.toNat_of_nonneg natural]
    · cases pnp : isPnp g (s.payload t).address with
      | true =>
        rw [target, if_pos pnp, Option.some.injEq, Prod.mk.injEq] at found
        simp [← found.1]
      | false =>
        have slave : i < 16 := area.resolve_left (by simp [pnp])
        simp only [Bool.false_eq_true, iff_false]
        omega
  · rw [if_neg member] at next
    exact absurd next nofun

private theorem Tracked.idle {t : ℕ} (tracked : Tracked g s) (member : t ∈ s.acceptPEQ) :
    (s.requestMap (s.payload t).masterId).state ≠ .pending := by
  intro pending
  obtain ⟨u, trans, master, slave⟩ := tracked.waiting _ (decide_eq_true pending)
  have here := List.count_pos_iff.mpr member
  have total : waitTokens s t + _ + _ + _ = issuedTokens s t := tracked.request t
  have total' : waitTokens s u + _ + _ + _ = issuedTokens s u := tracked.request u
  have single := issuedTokens_le (s := s) t
  have single' := issuedTokens_le (s := s) u
  have waits : Waits s u := by
    rw [Waits, master]
    exact ⟨pending, trans⟩
  have queued : 0 < waitTokens s t := by
    rw [waitTokens]
    omega
  have waiting : 0 < waitTokens s u := by
    rw [waitTokens, if_pos waits]
    omega
  have mine := tracked.awaiting t (issuedTokens_pos.mp (by omega))
    (List.count_eq_zero.mp (by omega))
  have other := tracked.awaiting u (tracked.issued slave) (List.count_eq_zero.mp (by omega))
  rw [master, mine, Option.some.injEq] at other
  have passed := ((tracked.decoded u).mp (by simp [slave])).2
  exact passed (other ▸ member)

private theorem waits_acceptThread {t : ℕ} (tracked : Tracked g s)
    (mapped : Mapped g s t) (next : acceptThread g s t = some s') (u : ℕ) :
    Waits s' u ↔ Waits s u ∨ u = t := by
  obtain ⟨i, d, member, -, -, rfl⟩ := acceptThread_eq mapped next
  have idle := tracked.idle member
  rw [Waits, Waits]
  dsimp only [enter]
  by_cases master : (s.payload u).masterId = (s.payload t).masterId
  · rw [master, Function.update_self]
    constructor
    · intro waits
      exact .inr (Option.some.inj waits.2).symm
    · intro waits
      cases waits with
      | inl before => exact absurd before.1 idle
      | inr same => exact ⟨rfl, congrArg some same.symm⟩
  · rw [Function.update_of_ne master]
    constructor
    · intro before
      exact .inl before
    · intro waits
      cases waits with
      | inl before => exact before
      | inr same => exact absurd (same ▸ rfl) master

private theorem Tracked.queued {t : ℕ} (tracked : Tracked g s) (member : t ∈ s.acceptPEQ) :
    t < s.issued ∧ s.slaveOf t = none ∧ t ∉ s.acceptPEQ.erase t := by
  have here := List.count_pos_iff.mpr member
  have total : waitTokens s t + _ + _ + _ = issuedTokens s t := tracked.request t
  have single := issuedTokens_le (s := s) t
  rw [waitTokens] at total
  refine ⟨issuedTokens_pos.mp (by omega), ?_, ?_⟩
  · by_contra known
    exact ((tracked.decoded t).mp (Option.isSome_iff_ne_none.mpr known)).2 member
  · rw [← List.count_eq_zero, List.count_erase_self]
    omega

private theorem tokens_acceptThread {t : ℕ} (tracked : Tracked g s)
    (mapped : Mapped g s t) (next : acceptThread g s t = some s') (u : ℕ) :
    waitTokens s' u = waitTokens s u := by
  have waits := waits_acceptThread tracked mapped next u
  obtain ⟨i, d, member, -, -, rfl⟩ := acceptThread_eq mapped next
  have here := List.count_pos_iff.mpr member
  have unwaiting : ¬ Waits s t := fun waiting => tracked.idle member waiting.1
  rw [waitTokens, waitTokens]
  simp only [waits]
  change (s.acceptPEQ.erase t).count u + _ = _
  by_cases new : u = t
  · rw [new, if_pos (.inr rfl), if_neg unwaiting, List.count_erase_self]
    omega
  · rw [List.count_erase_of_ne new]
    simp [new]

private theorem record_enter {α : Type} {record : Fin 16 → α} {new : α} {P : α → Prop}
    {t i u j : ℕ} (slave : Function.update s.slaveOf t (some i) u = some j)
    (entered : (s.payload u).masterId = (s.payload t).masterId →
      u = t ∧ j = i ∨ s.slaveOf u = some j → P new)
    (before : s.slaveOf u = some j → P (record (s.payload u).masterId)) :
    P (Function.update record (s.payload t).masterId new (s.payload u).masterId) := by
  by_cases master : (s.payload u).masterId = (s.payload t).masterId
  · rw [master, Function.update_self]
    apply entered master
    by_cases same : u = t
    · rw [same, Function.update_self, Option.some.injEq] at slave
      exact .inl ⟨same, slave.symm⟩
    · rw [Function.update_of_ne same] at slave
      exact .inr slave
  · rw [Function.update_of_ne master]
    have other : u ≠ t := fun same => master (congrArg (fun v => (s.payload v).masterId) same)
    rw [Function.update_of_ne other] at slave
    exact before slave

private theorem tracked_acceptThread {t : ℕ} (tracked : Tracked g s)
    (mapped : Mapped g s t) (same : SameSlave g s t)
    (next : acceptThread g s t = some s') : Tracked g s' := by
  have waits := waits_acceptThread tracked mapped next
  have tokens := tokens_acceptThread tracked mapped next
  obtain ⟨i, d, member, found, pnp, rfl⟩ := acceptThread_eq mapped next
  obtain ⟨issued, unknown, absent⟩ := tracked.queued member
  refine { tracked with
    request := fun u => ?_
    response := fun u => ?_
    decoded := fun u => ?_
    pnp := fun u j slave => ?_
    requestMap := fun u j slave => ?_
    responseMap := fun u j slave => ?_
    waiting := fun m pending => ?_
    outstanding := fun u j slave unreleased => ?_
    beginReqs := fun u j => ?_
    endResps := fun u j sent => ?_ }
  · rw [requestTokens, tokens]
    exact tracked.request u
  · rw [responseTokens, tokens]
    exact tracked.response u
  · dsimp only [enter]
    by_cases new : u = t
    · rw [new, Function.update_self]
      exact iff_of_true rfl ⟨issued, absent⟩
    · rw [Function.update_of_ne new, List.mem_erase_of_ne new]
      exact tracked.decoded u
  · dsimp only [enter] at slave ⊢
    by_cases new : u = t
    · rw [new, Function.update_self, Option.some.injEq] at slave
      rw [new, ← slave]
      exact pnp
    · rw [Function.update_of_ne new] at slave
      exact tracked.pnp u j slave
  · dsimp only [enter] at slave ⊢
    apply record_enter (P := fun r : Connection => r.masterId = (s.payload u).masterId) slave
    · intro master _
      exact master.symm
    · exact tracked.requestMap u j
  · dsimp only [enter] at slave ⊢
    apply record_enter (P := fun r : Connection => r.masterId = (s.payload u).masterId) slave
    · intro master _
      exact master.symm
    · exact tracked.responseMap u j
  · dsimp only [enter] at pending ⊢
    by_cases master : m = (s.payload t).masterId
    · rw [master, Function.update_self]
      exact ⟨t, rfl, rfl, Function.update_self ..⟩
    · rw [isPending, decide_eq_true_iff] at pending
      dsimp only at pending
      rw [Function.update_of_ne master] at pending ⊢
      obtain ⟨u, trans, owner, slave⟩ := tracked.waiting m (decide_eq_true pending)
      refine ⟨u, trans, owner, ?_⟩
      rw [Function.update_of_ne, slave]
      intro new
      exact master (new ▸ owner).symm
  · dsimp only [enter] at slave ⊢
    apply record_enter (P := fun r : Connection => r.slaveId = j) slave
    · rintro master (⟨-, now⟩ | before)
      · exact now.symm
      · have equal := same _ found u (tracked.issued before) master unreleased j before
        exact (Int.ofNat_inj.mp equal).symm
    · intro before
      exact tracked.outstanding u j before unreleased
  · rw [waits u]
    dsimp only [enter]
    rw [tracked.beginReqs u j]
    by_cases new : u = t
    · rw [new, unknown]
      exact iff_of_false (fun sent => absurd sent.1 nofun) fun sent => sent.2.2 (.inr rfl)
    · rw [Function.update_of_ne new]
      simp [new]
  · obtain ⟨slave, area⟩ := tracked.endResps u j sent
    refine ⟨?_, area⟩
    dsimp only [enter]
    rw [Function.update_of_ne, slave]
    intro new
    rw [new, unknown] at slave
    exact absurd slave nofun

private theorem robinSearch_pending {n robin : ℕ} {m : Fin 16}
    (selected : (robinSearch g s n robin).1 = some m) : isPending s m := by
  induction n generalizing robin with
  | zero => exact absurd selected nofun
  | succ n ih =>
    rw [robinSearch] at selected
    split at selected
    · rename_i pending
      exact Option.some.inj selected ▸ pending
    · exact ih selected

private theorem select_pending {m : Fin 16} (selected : (select g s).1 = some m) :
    isPending s m := by
  rw [select] at selected
  split_ifs at selected with locked pending robin
  · exact Option.some.inj selected ▸ pending
  · exact robinSearch_pending selected
  · exact List.find?_some selected

private theorem waits_schedule {m : Fin 16} {t : ℕ} (tracked : Tracked g s)
    (pending : isPending s m) (trans : (s.requestMap m).trans = some t) (u : ℕ) :
    Waits (schedule s m t) u ↔ Waits s u ∧ u ≠ t := by
  have owner := (tracked.pending (of_decide_eq_true pending) trans).1
  rw [Waits, Waits]
  dsimp only [schedule]
  by_cases master : (s.payload u).masterId = m
  · rw [master, Function.update_self]
    refine iff_of_false (fun waits => absurd waits.1 nofun) fun waits => waits.2 ?_
    exact Option.some.inj (waits.1.2.symm.trans trans)
  · rw [Function.update_of_ne master]
    refine ⟨fun waits => ⟨waits, fun same => master (same ▸ owner)⟩, fun waits => waits.1⟩

private theorem tokens_schedule {m : Fin 16} {t : ℕ} (tracked : Tracked g s)
    (pending : isPending s m) (trans : (s.requestMap m).trans = some t) (u : ℕ) :
    waitTokens s u = waitTokens (schedule s m t) u + [t].count u := by
  have owner := (tracked.pending (of_decide_eq_true pending) trans).1
  have waiting : Waits s t := by
    rw [Waits, owner]
    exact ⟨of_decide_eq_true pending, trans⟩
  simp only [waitTokens, waits_schedule tracked pending trans, List.count_singleton, beq_iff_eq]
  by_cases same : u = t
  · simp [same, waiting, schedule]
  · simp [same, Ne.symm same, schedule]

private theorem tracked_grant {m : Fin 16} {t : ℕ} (tracked : Tracked g s)
    (pending : isPending s m) (trans : (s.requestMap m).trans = some t) :
    Tracked g (grant s m t) := by
  obtain ⟨owner, slave⟩ := tracked.pending (of_decide_eq_true pending) trans
  have waits := waits_schedule tracked pending trans
  have tokens := tokens_schedule tracked pending trans
  have requestMap (u i : ℕ) (known : s.slaveOf u = some i) :
      ((schedule s m t).requestMap (s.payload u).masterId).masterId = (s.payload u).masterId := by
    have before := tracked.requestMap u i known
    dsimp only [schedule]
    by_cases master : (s.payload u).masterId = m
    · rw [master] at before ⊢
      rw [Function.update_self, before]
    · rw [Function.update_of_ne master, before]
  have waiting (k : Fin 16) (still : isPending (schedule s m t) k) :
      ∃ u, ((schedule s m t).requestMap k).trans = some u ∧ (s.payload u).masterId = k ∧
        s.slaveOf u = some ((schedule s m t).requestMap k).slaveId := by
    rw [isPending, decide_eq_true_iff] at still
    dsimp only [schedule] at still ⊢
    by_cases master : k = m
    · rw [master, Function.update_self] at still
      exact absurd still nofun
    · rw [Function.update_of_ne master] at still ⊢
      exact tracked.waiting k (decide_eq_true still)
  rw [grant]
  by_cases configuration : (s.requestMap m).slaveId = 16
  · rw [if_pos configuration]
    refine { tracked with
      request := fun u => ?_
      response := fun u => ?_
      requestMap := requestMap
      waiting := waiting
      beginReqs := fun u i => ?_ }
    · have before : waitTokens s u + _ + _ + _ = issuedTokens s u := tracked.request u
      rw [tokens u] at before
      change waitTokens (schedule s m t) u + _ + (s.requestPEQ ++ [t]).count u + _ = issuedTokens s u
      rw [List.count_append]
      dsimp only [schedule] at before ⊢
      omega
    · have before : waitTokens s u + _ + _ + _ = issuedTokens s u := tracked.response u
      rw [tokens u] at before
      change waitTokens (schedule s m t) u + _ + (s.responsePEQ ++ [t]).count u + _ = issuedTokens s u
      rw [List.count_append]
      dsimp only [schedule] at before ⊢
      omega
    · change (u, i) ∈ s.beginReqs ↔ s.slaveOf u = some i ∧ i ≠ 16 ∧ ¬ Waits (schedule s m t) u
      rw [tracked.beginReqs u i, waits u]
      by_cases same : u = t
      · rw [same, slave, configuration, Option.some.injEq]
        exact iff_of_false (fun sent => sent.2.1 sent.1.symm) fun sent => sent.2.1 sent.1.symm
      · simp [same]
  · rw [if_neg configuration]
    refine { tracked with
      request := fun u => ?_
      response := fun u => ?_
      requestMap := requestMap
      waiting := waiting
      beginReqs := fun u i => ?_ }
    · have before : waitTokens s u + _ + _ + _ = issuedTokens s u := tracked.request u
      rw [tokens u] at before
      change waitTokens (schedule s m t) u + (s.requested ++ [t]).count u + _ + _ = issuedTokens s u
      rw [List.count_append]
      dsimp only [schedule] at before ⊢
      omega
    · have before : waitTokens s u + _ + _ + _ = issuedTokens s u := tracked.response u
      rw [tokens u] at before
      change waitTokens (schedule s m t) u + (s.served ++ [t]).count u + _ + _ = issuedTokens s u
      rw [List.count_append]
      dsimp only [schedule] at before ⊢
      omega
    · change (u, i) ∈ s.beginReqs ++ [(t, (s.requestMap m).slaveId)] ↔
        s.slaveOf u = some i ∧ i ≠ 16 ∧ ¬ Waits (schedule s m t) u
      rw [List.mem_append, tracked.beginReqs u i, waits u, List.mem_singleton, Prod.mk.injEq]
      by_cases same : u = t
      · rw [same, slave, Option.some.injEq]
        constructor
        · rintro (⟨eq, area, -⟩ | ⟨-, eq⟩)
          · exact ⟨eq, area, fun waits => waits.2 rfl⟩
          · exact ⟨eq.symm, eq ▸ configuration, fun waits => waits.2 rfl⟩
        · rintro ⟨eq, -, -⟩
          exact .inr ⟨rfl, eq.symm⟩
      · simp [same]

private theorem tracked_arbitrate (tracked : Tracked g s) (next : arbitrate g s = some s') :
    Tracked g s' := by
  have turned (robin : ℕ) : Tracked g { s with robin := robin } :=
    { tracked with request := tracked.request }
  rw [arbitrate] at next
  split at next
  · cases chosen : select g s with
    | mk selected robin =>
      rw [chosen] at next
      cases selected with
      | none => exact Option.some.inj next ▸ turned robin
      | some m =>
        obtain ⟨t, trans, rfl⟩ := Option.map_eq_some_iff.mp next
        have pending : isPending s m := select_pending (g := g) (by rw [chosen])
        exact tracked_grant (turned robin) pending trans
  · exact Option.some.inj next ▸ tracked

private theorem tracked_step {i : PhaseStep} (tracked : Tracked g s)
    (admitted : OnAccept (fun t => Mapped g s t ∧ SameSlave g s t) i)
    (next : phaseStep g s i = some s') :
    Tracked g s' := by
  cases i with
  | beginReq p => exact tracked_nbTransportFw tracked next
  | accept t => exact tracked_acceptThread tracked admitted.1 admitted.2 next
  | arbitrate => exact tracked_arbitrate tracked next
  | slaveEndReq t => exact tracked_slaveEndReq tracked next
  | slaveBeginResp t => exact tracked_slaveBeginResp tracked next
  | endReq t => exact tracked_requestThread tracked next
  | beginResp t => exact tracked_responseThread tracked next
  | masterEndResp t => exact tracked_masterEndResp tracked next
  | endResp t => exact tracked_endResponseThread tracked next

private theorem Tracked.routed (tracked : Tracked g s) : Routed g s where
  endReqs t m sent := (tracked.endReqs t m sent).2
  beginResps t m sent := (tracked.beginResps t m sent).2
  beginReqs t i j one other := by
    have first := ((tracked.beginReqs t i).mp one).1
    have second := ((tracked.beginReqs t j).mp other).1
    exact Option.some.inj (first.symm.trans second)
  endResps t i sent := by
    obtain ⟨slave, area⟩ := tracked.endResps t i sent
    refine (tracked.beginReqs t i).mpr ⟨slave, area, fun waits => ?_⟩
    have once : 0 < (s.endResps.map Prod.fst).count t :=
      List.count_pos_iff.mpr (List.mem_map.mpr ⟨_, sent, rfl⟩)
    have ended := tracked.ended t
    rw [if_neg ((tracked.pnp t i slave).not.mp area)] at ended
    have total : waitTokens s t + _ + _ + _ = issuedTokens s t := tracked.response t
    rw [waitTokens, if_pos waits] at total
    have begun := tracked.begun t
    have single := issuedTokens_le (s := s) t
    omega
  ended := tracked.ended
  released t := by
    have total : waitTokens s t + _ + _ + _ = issuedTokens s t := tracked.response t
    have begun := tracked.begun t
    have single := issuedTokens_le (s := s) t
    omega
  finished quiet t issued := by
    obtain ⟨accept, idle, request, response, endResponse, requested, served, responding⟩ := quiet
    have total : waitTokens s t + _ + _ + _ = issuedTokens s t := tracked.request t
    have total' : waitTokens s t + _ + _ + _ = issuedTokens s t := tracked.response t
    have begun := tracked.begun t
    have none : waitTokens s t = 0 := by
      rw [waitTokens, accept, if_neg fun waits => idle _ (decide_eq_true waits.1)]
      rfl
    have one : issuedTokens s t = 1 := if_pos issued
    rw [none, one, requested, request, List.count_nil] at total
    rw [none, one, served, response, List.count_nil] at total'
    rw [responding, endResponse, List.count_nil] at begun
    omega

/-- After every run in which each accepted address is mapped and the unfinished transactions of the
master go to the same slave, the phases reached the parties of their transactions. -/
theorem phases_routed (g : Generics) (decoder : Decoder) (steps : List PhaseStep) (s : Phases)
    (admitted : Along (phaseStep g)
      (fun s => OnAccept fun t => Mapped g s t ∧ SameSlave g s t) (Phases.init decoder) steps)
    (reached : run (phaseStep g) (Phases.init decoder) steps = some s) : Routed g s :=
  (run_preserves (fun _ _ _ tracked admitted next => tracked_step tracked admitted next)
    (tracked_init decoder) admitted reached).routed

/-- A bus without configuration area and with fixed priorities. -/
def plainBus : Generics := ⟨false, 0, 0, 0, 0, false, 2⟩

/-- A read of one word by master 0. -/
def wordRead (address : BitVec 32) : Payload := ⟨masterOf 0, address, 4, false, false⟩

/-- Two overlapping reads of one slave. -/
def sharedRun : List PhaseStep :=
  [.beginReq (wordRead 0x40000000), .accept 0, .arbitrate, .slaveEndReq 0, .endReq 0,
    .beginReq (wordRead 0x40000004), .accept 1, .slaveBeginResp 0, .beginResp 0, .masterEndResp 0,
    .endResp 0]

/-- Two overlapping reads of one slave are routed. -/
theorem phases_routed_shared :
    ∃ s, run (phaseStep plainBus) (Phases.init (Decoder.build twoBars)) sharedRun = some s ∧
      Routed plainBus s := by
  obtain ⟨s, reached⟩ := Option.isSome_iff_exists.mp (by decide +kernel :
    (run (phaseStep plainBus) (Phases.init (Decoder.build twoBars)) sharedRun).isSome)
  exact ⟨s, reached, phases_routed plainBus (Decoder.build twoBars) sharedRun s
    (by decide +kernel) reached⟩

/-- Two overlapping reads of two slaves. -/
def splitRun : List PhaseStep :=
  [.beginReq (wordRead 0x40000000), .accept 0, .arbitrate, .slaveEndReq 0, .endReq 0,
    .beginReq (wordRead 0), .accept 1, .slaveBeginResp 0, .beginResp 0, .masterEndResp 0,
    .endResp 0]

/-- The slave of the second read is sent the end of the first response. -/
theorem phases_routed_fails :
    ¬ ∀ (g : Generics) (decoder : Decoder) (steps : List PhaseStep) (s : Phases),
      Along (phaseStep g) (fun s => OnAccept (Mapped g s)) (Phases.init decoder) steps →
      run (phaseStep g) (Phases.init decoder) steps = some s → Routed g s := by
  intro claim
  obtain ⟨s, reached, ends, begins⟩ : ∃ s,
      run (phaseStep plainBus) (Phases.init (Decoder.build twoBars)) splitRun = some s ∧
        s.endResps = [(0, 0)] ∧ s.beginReqs = [(0, 1)] := by
    have final : (run (phaseStep plainBus) (Phases.init (Decoder.build twoBars)) splitRun).map
        (fun s => (s.endResps, s.beginReqs)) = some ([(0, 0)], [(0, 1)]) := by decide +kernel
    obtain ⟨s, reached, histories⟩ := Option.map_eq_some_iff.mp final
    exact ⟨s, reached, Prod.mk.inj histories⟩
  have routed := claim plainBus (Decoder.build twoBars) splitRun s (by decide +kernel) reached
  have sent := routed.endResps 0 0 (by simp [ends])
  rw [begins] at sent
  exact absurd sent (by decide)

end Socrocket.Bus.AHBCtrl
