/- Socrocket/MmuCache/SnoopNames
   digest: Masters behind either model of the bus controller: a broadcast names the socket binding of
   its writer, and the caches compare that name with their bus index. -/

import Socrocket.Base.Run
import Socrocket.MmuCache.MmuCacheBase
import Socrocket.MmuCache.WriteThrough

set_option autoImplicit false
set_option relaxedAutoImplicit false

namespace Socrocket.MmuCache

open Socrocket.Base.Run
open Socrocket.Bus
open Socrocket.Bus.AHBCtrl

/-- Constructor arguments of a bus master that decide what it snoops. A master without a data cache
has `dcen` off. -/
structure BusMaster where
  hindex : ℕ
  dcen : Bool
  dsnoop : Bool
  cfg : Config

/-- The masters of a bus in the order of their binding. Their bus indices are distinct and below 16. -/
structure Binding where
  n : ℕ
  master : Fin n → BusMaster
  atMost : n ≤ 16
  below : ∀ i, (master i).hindex < 16
  distinct : ∀ i j, (master i).hindex = (master j).hindex → i = j

/-- The data cache of a master under its control register, with the history of the writes it
invalidated. -/
structure SnoopingCache where
  ccr : BitVec 32
  dcache : VectorCache
  invalidated : List Snoop

/-- Call `snoop_invalidate` of the data cache. -/
def SnoopingCache.invalidate (cfg : Config) (c : SnoopingCache) (snoop : Snoop) :
    Option SnoopingCache :=
  (VectorCache.snoopInvalidate cfg c.ccr c.dcache snoop).map fun dcache =>
    { c with
      dcache := dcache
      invalidated := c.invalidated ++ [snoop] }

/-- A controller ignores the snoops that carry its own bus index. -/
def BusMaster.snoopingCallBack (m : BusMaster) (c : SnoopingCache) (masterId : ℕ) (snoop : Snoop) :
    Option SnoopingCache :=
  if masterId ≠ m.hindex then
    if m.dcen ∧ m.dsnoop then c.invalidate m.cfg snoop else some c
  else some c

/-- The bus controller in LT or in AT mode. -/
inductive BusModel where
  | blocking (bus : Blocking)
  | phases (bus : Phases)

/-- A bus with its slaves and the caches of its masters. `sender` tells which binding requested a
transaction in AT mode. -/
structure SnoopSystem (n : ℕ) (μ : Type) where
  bus : BusModel
  slaves : μ
  caches : Fin n → SnoopingCache
  sender : ℕ → ℕ

/-- What happens on the bus: a processor changes its own cache; in LT mode a master calls
`b_transport` and its call returns; in AT mode a master sends BEGIN_REQ and the other phases follow. -/
inductive SnoopStep (n : ℕ) where
  | processor (i : Fin n) (ccr : BitVec 32) (dcache : VectorCache)
  | transport (i : Fin n) (t : Transaction)
  | finish (k : ℕ)
  | request (i : Fin n) (p : Payload)
  | phase (e : PhaseStep)

namespace Binding

variable (b : Binding) (g : Generics) (pnp : Pnp) {μ : Type}
  (slave : ℕ → μ → Transaction → μ × Transaction)

/-- Write to the snoop signal: every connected controller is called. -/
def snoopWrite (caches : Fin b.n → SnoopingCache) (masterId : ℕ) (snoop : Snoop) :
    Option (Fin b.n → SnoopingCache) :=
  collect fun i => (b.master i).snoopingCallBack (caches i) masterId snoop

/-- Write the snoops of a list one after the other. -/
def snoopWrites (caches : Fin b.n → SnoopingCache) : List Snooped → Option (Fin b.n → SnoopingCache)
  | [] => some caches
  | w :: ws => (b.snoopWrite caches w.masterId.val ⟨w.address, w.length⟩).bind fun caches =>
      snoopWrites caches ws

/-- Perform one step. The multi socket passes the number of the binding on as the master. -/
def step (s : SnoopSystem b.n μ) : SnoopStep b.n → Option (SnoopSystem b.n μ)
  | .processor i ccr dcache =>
    some { s with
      caches := Function.update s.caches i { s.caches i with
        ccr := ccr
        dcache := dcache } }
  | .transport i t =>
    match s.bus with
    | .blocking bus => (bTransport g pnp slave bus s.slaves i t).map fun (bus, slaves) =>
        { s with
          bus := .blocking bus
          slaves := slaves }
    | .phases _ => none
  | .finish k =>
    match s.bus with
    | .blocking bus => (bTransportEnd bus k).bind fun (bus, snoop) =>
        (match snoop with
          | some (id, address, length) => b.snoopWrite s.caches id ⟨address, length⟩
          | none => some s.caches).map fun caches =>
            { s with
              bus := .blocking bus
              caches := caches }
    | .phases _ => none
  | .request i p =>
    match s.bus with
    | .blocking _ => none
    | .phases bus => (nbTransportFw bus { p with masterId := masterOf i }).map fun bus' =>
        { s with
          bus := .phases bus'
          sender := Function.update s.sender bus.issued i }
  | .phase e =>
    match s.bus, e with
    | .blocking _, _ => none
    | .phases _, .beginReq _ => none
    | .phases bus, e => (phaseStep g bus e).bind fun bus' =>
        (b.snoopWrites s.caches (bus'.snoop.drop bus.snoop.length)).map fun caches =>
          { s with
            bus := .phases bus'
            caches := caches }

/-- The write that a step broadcasts: the binding of the master it is from, and its range. -/
def broadcast {n : ℕ} (s : SnoopSystem n μ) : SnoopStep n → Option (ℕ × Snoop)
  | .finish k =>
    match s.bus with
    | .blocking bus => bus.inside[k]?.bind fun call =>
        if call.served ∧ call.trans.isWrite then
          some (call.id, ⟨call.trans.address, call.trans.dataLength⟩)
        else none
    | .phases _ => none
  | .phase (.endReq t) =>
    match s.bus with
    | .blocking _ => none
    | .phases bus =>
      if t ∈ bus.requestPEQ ∧ (bus.payload t).isWrite then
        some (s.sender t, ⟨(bus.payload t).address, (bus.payload t).dataLength⟩)
      else none
  | _ => none

/-- Before the first access. The caches may hold anything. -/
def Started {n : ℕ} (s : SnoopSystem n μ) : Prop :=
  (∃ decoder, s.bus = .blocking (Blocking.init decoder)) ∨
    (∃ decoder, s.bus = .phases (Phases.init decoder)) ∧ s.sender = fun _ => 0

/-- A write of the master at a binding is invalidated by every other master that snoops, and by no
one else. -/
def HeardByOthers (writer : ℕ) (snoop : Snoop) (before after : Fin b.n → SnoopingCache) : Prop :=
  ∀ q, if q.val ≠ writer ∧ (b.master q).dcen ∧ (b.master q).dsnoop then
      (before q).invalidate (b.master q).cfg snoop = some (after q)
    else after q = before q

/-- Of the masters that snoop, the one at the binding and no other has its number as bus index. -/
def NamesAgree (writer : ℕ) : Prop :=
  ∀ q, (b.master q).dcen ∧ (b.master q).dsnoop → ((b.master q).hindex = writer ↔ q.val = writer)

/-- What the step broadcasts is heard by the other masters. -/
def BroadcastHeard (s : SnoopSystem b.n μ) (e : SnoopStep b.n) : Prop :=
  ∀ s' w, b.step g pnp slave s e = some s' → broadcast s e = some w →
    b.HeardByOthers w.1 w.2 s.caches s'.caches

/-- The writer of what the step broadcasts is bound at its bus index. -/
def WriterNamed (s : SnoopSystem b.n μ) (e : SnoopStep b.n) : Prop :=
  ∀ w, broadcast s e = some w → b.NamesAgree w.1

variable {b}

theorem invalidate_ne {cfg : Config} {c c' : SnoopingCache} {snoop : Snoop}
    (called : c.invalidate cfg snoop = some c') : c' ≠ c := by
  obtain ⟨dcache, -, rfl⟩ := Option.map_eq_some_iff.mp called
  intro same
  have grown := congrArg (fun c : SnoopingCache => c.invalidated.length) same
  simp at grown

/-- With both switches on, the callback is the one of the controller. -/
theorem snoopingCallBack_enabled {m : BusMaster} (on : m.dcen ∧ m.dsnoop) {base : MmuCacheBase}
    {c : SnoopingCache} (same : c.dcache = base.dcache) (masterId : ℕ) (snoop : Snoop) :
    (m.snoopingCallBack c masterId snoop).map SnoopingCache.dcache =
      (base.snoopingCallBack m.cfg c.ccr m.hindex masterId snoop).map MmuCacheBase.dcache := by
  unfold BusMaster.snoopingCallBack MmuCacheBase.snoopingCallBack SnoopingCache.invalidate
  rw [if_pos on, same]
  by_cases other : masterId ≠ m.hindex
  · rw [if_pos other, if_pos other, Option.map_map, Option.map_map]
    rfl
  · rw [if_neg other, if_neg other]
    exact congrArg some same

theorem snoopWrite_eq_some {caches caches' : Fin b.n → SnoopingCache} {masterId : ℕ} {snoop : Snoop} :
    b.snoopWrite caches masterId snoop = some caches' ↔
      ∀ q, (b.master q).snoopingCallBack (caches q) masterId snoop = some (caches' q) := by
  unfold snoopWrite collect
  constructor
  · intro done q
    by_cases all : ∀ i, ((b.master i).snoopingCallBack (caches i) masterId snoop).isSome
    · rw [dif_pos all, Option.some.injEq] at done
      rw [← done, Option.some_get]
    · rw [dif_neg all] at done
      cases done
  · intro each
    have all : ∀ i, ((b.master i).snoopingCallBack (caches i) masterId snoop).isSome := by
      intro i
      rw [each i]
      rfl
    rw [dif_pos all, Option.some.injEq]
    funext q
    exact Option.some.inj ((Option.some_get (all q)).trans (each q))

/-- The callbacks of one broadcast are right exactly when the names agree. -/
theorem heard_iff {caches caches' : Fin b.n → SnoopingCache} {writer : ℕ} {snoop : Snoop}
    (written : b.snoopWrite caches writer snoop = some caches') :
    b.HeardByOthers writer snoop caches caches' ↔ b.NamesAgree writer := by
  rw [snoopWrite_eq_some] at written
  refine forall_congr' fun q => ?_
  have called := written q
  unfold BusMaster.snoopingCallBack at called
  by_cases on : (b.master q).dcen ∧ (b.master q).dsnoop
  · rw [if_pos on] at called
    simp only [on, and_self, and_true, forall_const]
    by_cases named : writer ≠ (b.master q).hindex
    · rw [if_pos named] at called
      by_cases own : q.val = writer
      · rw [if_neg (not_not.mpr own)]
        exact ⟨fun kept => absurd kept (invalidate_ne called),
          fun agree => absurd (agree.mpr own).symm named⟩
      · rw [if_pos own]
        exact ⟨fun _ => ⟨fun same => absurd same.symm named, fun same => absurd same own⟩,
          fun _ => called⟩
    · rw [if_neg named, Option.some.injEq] at called
      rw [not_not] at named
      by_cases own : q.val = writer
      · rw [if_neg (not_not.mpr own)]
        exact ⟨fun _ => ⟨fun _ => own, fun _ => named.symm⟩, fun _ => called.symm⟩
      · rw [if_pos own]
        refine ⟨fun invalidated => absurd called.symm (invalidate_ne invalidated), fun agree => ?_⟩
        exact absurd (agree.mp named.symm) own
  · have off : ¬ (q.val ≠ writer ∧ (b.master q).dcen ∧ (b.master q).dsnoop) := fun all => on all.2
    rw [if_neg on, ite_self, Option.some.injEq] at called
    rw [if_neg off]
    exact ⟨fun _ all => absurd all on, fun _ => called.symm⟩

theorem payload_phaseStep {bus bus' : Phases} {e : PhaseStep} (other : ∀ p, e ≠ .beginReq p)
    (next : phaseStep g bus e = some bus') : bus'.payload = bus.payload := by
  cases e with
  | beginReq p => exact absurd rfl (other p)
  | accept t =>
    simp only [phaseStep, acceptThread, Option.ite_none_right_eq_some, Option.map_eq_some_iff] at next
    obtain ⟨-, ⟨found, decoder⟩, -, rfl⟩ := next
    dsimp only
    split_ifs <;> rfl
  | arbitrate =>
    unfold phaseStep arbitrate at next
    by_cases free : bus.addressBusOwner = none ∧ bus.dataBusState ≠ .waitstates
    · rw [if_pos free] at next
      dsimp only at next
      cases selected : (select g bus).1 with
      | none =>
        rw [selected] at next
        rw [← Option.some.inj next]
      | some m =>
        rw [selected, Option.map_eq_some_iff] at next
        obtain ⟨t, -, rfl⟩ := next
        unfold grant
        dsimp only
        split_ifs <;> rfl
    · rw [if_neg free] at next
      rw [← Option.some.inj next]
  | slaveEndReq t =>
    simp only [phaseStep, slaveEndReq, Option.ite_none_right_eq_some, Option.some.injEq] at next
    rw [← next.2]
  | slaveBeginResp t =>
    simp only [phaseStep, slaveBeginResp, Option.ite_none_right_eq_some, Option.some.injEq] at next
    rw [← next.2]
  | endReq t =>
    simp only [phaseStep, requestThread, Option.ite_none_right_eq_some, Option.some.injEq] at next
    rw [← next.2]
  | beginResp t =>
    simp only [phaseStep, responseThread, Option.ite_none_right_eq_some, Option.some.injEq] at next
    rw [← next.2]
  | masterEndResp t =>
    simp only [phaseStep, masterEndResp, Option.ite_none_right_eq_some, Option.some.injEq] at next
    rw [← next.2]
  | endResp t =>
    simp only [phaseStep, endResponseThread, Option.ite_none_right_eq_some] at next
    obtain ⟨-, ended⟩ := next
    split_ifs at ended <;> rw [← Option.some.inj ended]

/-- In AT mode the extension of every transaction names the binding that requested it. -/
def SendersNamed {n : ℕ} (s : SnoopSystem n μ) : Prop :=
  ∀ bus, s.bus = .phases bus → ∀ t, (bus.payload t).masterId.val = s.sender t

theorem sendersNamed_started {n : ℕ} {s : SnoopSystem n μ} (started : Started s) : SendersNamed s := by
  intro bus mode t
  rcases started with ⟨decoder, blocking⟩ | ⟨⟨decoder, phases⟩, zero⟩
  · rw [blocking] at mode
    cases mode
  · rw [phases] at mode
    cases mode
    rw [zero]
    rfl

theorem sendersNamed_step {s s' : SnoopSystem b.n μ} {e : SnoopStep b.n} (named : SendersNamed s)
    (next : b.step g pnp slave s e = some s') : SendersNamed s' := by
  intro bus' mode' t
  cases e with
  | processor i ccr dcache =>
    rw [step, Option.some.injEq] at next
    subst next
    exact named bus' mode' t
  | transport i u =>
    cases mode : s.bus with
    | phases bus => simp [step, mode] at next
    | blocking bus =>
      simp only [step, mode, Option.map_eq_some_iff] at next
      obtain ⟨granted, -, rfl⟩ := next
      cases mode'
  | finish k =>
    cases mode : s.bus with
    | phases bus => simp [step, mode] at next
    | blocking bus =>
      simp only [step, mode, Option.bind_eq_some_iff, Option.map_eq_some_iff] at next
      obtain ⟨ended, -, caches, -, rfl⟩ := next
      cases mode'
  | request i p =>
    cases mode : s.bus with
    | blocking bus => simp [step, mode] at next
    | phases bus =>
      simp only [step, mode, Option.map_eq_some_iff] at next
      obtain ⟨bus'', requested, rfl⟩ := next
      cases mode'
      simp only [nbTransportFw, Option.ite_none_right_eq_some, Option.some.injEq] at requested
      obtain ⟨-, rfl⟩ := requested
      by_cases here : t = bus.issued
      · subst t
        have small : i.val < 16 := lt_of_lt_of_le i.isLt b.atMost
        simp only [Function.update_self]
        exact Nat.mod_eq_of_lt small
      · simp only [Function.update_of_ne here]
        exact named bus mode t
  | phase e =>
    cases mode : s.bus with
    | blocking bus => simp [step, mode] at next
    | phases bus =>
      have other : ∀ p, e ≠ .beginReq p := by
        rintro p rfl
        simp [step, mode] at next
      have taken : (phaseStep g bus e).bind (fun bus'' =>
          (b.snoopWrites s.caches (bus''.snoop.drop bus.snoop.length)).map fun caches =>
            { s with
              bus := .phases bus''
              caches := caches }) = some s' := by
        cases e with
        | beginReq p => exact absurd rfl (other p)
        | _ => simpa only [step, mode] using next
      simp only [Option.bind_eq_some_iff, Option.map_eq_some_iff] at taken
      obtain ⟨bus'', phased, caches, -, rfl⟩ := taken
      cases mode'
      rw [payload_phaseStep g other phased]
      exact named bus mode t

theorem broadcastHeard_iff {s s' : SnoopSystem b.n μ} {e : SnoopStep b.n} (named : SendersNamed s)
    (next : b.step g pnp slave s e = some s') :
    b.BroadcastHeard g pnp slave s e ↔ b.WriterNamed s e := by
  have each (called : ∀ w, broadcast s e = some w →
      b.snoopWrite s.caches w.1 w.2 = some s'.caches) :
      b.BroadcastHeard g pnp slave s e ↔ b.WriterNamed s e := by
    unfold BroadcastHeard WriterNamed
    constructor
    · intro heard w sent
      exact (heard_iff (called w sent)).mp (heard s' w next sent)
    · intro agree t w next' sent
      rw [next, Option.some.injEq] at next'
      subst next'
      exact (heard_iff (called w sent)).mpr (agree w sent)
  apply each
  intro w sent
  cases e with
  | processor i ccr dcache => cases sent
  | transport i t => cases sent
  | request i p => cases sent
  | finish k =>
    cases mode : s.bus with
    | phases bus => simp [step, mode] at next
    | blocking bus =>
      simp only [broadcast, mode, Option.bind_eq_some_iff, Option.ite_none_right_eq_some,
        Option.some.injEq] at sent
      obtain ⟨call, found, write, rfl⟩ := sent
      simp only [step, mode, bTransportEnd, found, Option.map_some, Option.bind_some, if_pos write,
        Option.map_eq_some_iff] at next
      obtain ⟨caches, written, rfl⟩ := next
      exact written
  | phase e =>
    cases mode : s.bus with
    | blocking bus => simp [step, mode] at next
    | phases bus =>
      cases e with
      | endReq t =>
        simp only [broadcast, mode, Option.ite_none_right_eq_some, Option.some.injEq] at sent
        obtain ⟨⟨queued, write⟩, rfl⟩ := sent
        simp only [step, mode, phaseStep, requestThread, if_pos queued, write, if_true,
          Option.bind_some, Option.map_eq_some_iff, List.drop_left, snoopWrites] at next
        obtain ⟨caches, written, rfl⟩ := next
        obtain ⟨caches', first, last⟩ := Option.bind_eq_some_iff.mp written
        rw [Option.some.injEq] at last
        subst last
        rw [named bus mode t] at first
        exact first
      | _ => cases sent

/-- In every run of either bus model, every broadcast write is invalidated by the other snooping
masters and by no one else exactly when every writer is bound at its bus index. -/
theorem broadcasts_heard_iff (b : Binding) {s t : SnoopSystem b.n μ} (started : Started s)
    {steps : List (SnoopStep b.n)} (reached : run (b.step g pnp slave) s steps = some t) :
    Along (b.step g pnp slave) (b.BroadcastHeard g pnp slave) s steps ↔
      Along (b.step g pnp slave) b.WriterNamed s steps :=
  along_iff_along (P := SendersNamed)
    (fun _ _ _ named next => broadcastHeard_iff g pnp slave named next)
    (fun _ _ _ named next => sendersNamed_step g pnp slave named next)
    (sendersNamed_started started) reached

/-- Two controllers with snooping data caches, and the bus index of the one bound first. -/
abbrev twoControllers (first : Fin 2) : Binding where
  n := 2
  master i := ⟨if i.val = 0 then first.val else 1 - first.val, true, true, smallDataCache⟩
  atMost := by decide
  below := by
    intro i
    dsimp only
    split_ifs <;> omega
  distinct := by
    intro i j
    dsimp only
    split_ifs <;> omega

/-- The steps of a bus with one memory that takes every address. -/
def memoryStep (b : Binding) :
    SnoopSystem b.n (Base.ByteMemory.Memory 32) → SnoopStep b.n →
      Option (SnoopSystem b.n (Base.ByteMemory.Memory 32)) :=
  b.step ⟨false, 0, 0, 0, 0, false, 2⟩ ⟨1, fun _ => none, fun _ => none⟩ memorySlave

/-- A loosely timed bus before the first access, with empty caches. -/
def freshSystem (n : ℕ) : SnoopSystem n (Base.ByteMemory.Memory 32) where
  bus := .blocking (Blocking.init (Decoder.build [⟨0, 0, 0, 0⟩]))
  slaves _ := 0
  caches _ := ⟨0xc, resetCache, []⟩
  sender _ := 0

/-- The master that was bound first writes a word. -/
def wordWritten (b : Binding) (first : Fin b.n) : List (SnoopStep b.n) :=
  [.transport first ⟨true, 0x40000000, fun _ => 0x5a, 4, false, .incomplete⟩, .finish 0]

theorem broadcasts_heard_in_order :
    ∃ t, run (memoryStep (twoControllers 0)) (freshSystem 2)
      (wordWritten (twoControllers 0) (0 : Fin 2)) =
        some t ∧
      (Along (memoryStep (twoControllers 0)) ((twoControllers 0).BroadcastHeard
          ⟨false, 0, 0, 0, 0, false, 2⟩ ⟨1, fun _ => none, fun _ => none⟩ memorySlave) (freshSystem 2)
          (wordWritten (twoControllers 0) (0 : Fin 2)) ↔
        Along (memoryStep (twoControllers 0)) (twoControllers 0).WriterNamed (freshSystem 2)
          (wordWritten (twoControllers 0) (0 : Fin 2))) := by
  have exists_run : (run (memoryStep (twoControllers 0)) (freshSystem 2)
      (wordWritten (twoControllers 0) (0 : Fin 2))).isSome := by
    decide +kernel
  obtain ⟨t, reached⟩ := Option.isSome_iff_exists.mp exists_run
  exact ⟨t, reached, broadcasts_heard_iff _ _ _ (twoControllers 0) (.inl ⟨_, rfl⟩) reached⟩

/-- The controller with bus index 1 is bound first: its write is invalidated in its own cache and
stays valid in the cache of the other controller, whose bus index is 0. -/
theorem swapped_controllers_miss_writes :
    ¬ ∀ t, run (memoryStep (twoControllers 1)) (freshSystem 2)
        (wordWritten (twoControllers 1) (0 : Fin 2)) = some t →
      Along (memoryStep (twoControllers 1)) ((twoControllers 1).BroadcastHeard
        ⟨false, 0, 0, 0, 0, false, 2⟩ ⟨1, fun _ => none, fun _ => none⟩ memorySlave) (freshSystem 2)
        (wordWritten (twoControllers 1) (0 : Fin 2)) := by
  intro claimed
  have evaluated : (memoryStep (twoControllers 1) (freshSystem 2)
      (.transport (0 : Fin 2) ⟨true, 0x40000000, fun _ => 0x5a, 4, false, .incomplete⟩)).bind (fun u =>
        (memoryStep (twoControllers 1) u (.finish 0)).map fun t =>
          ((broadcast u (.finish 0)).map Prod.fst, (t.caches (0 : Fin 2)).invalidated.length,
            (t.caches (1 : Fin 2)).invalidated.length)) = some (some 0, 1, 0) := by
    decide +kernel
  obtain ⟨u, first, rest⟩ := Option.bind_eq_some_iff.mp evaluated
  obtain ⟨t, second, facts⟩ := Option.map_eq_some_iff.mp rest
  simp only [Prod.mk.injEq] at facts
  obtain ⟨sent, -, missed⟩ := facts
  obtain ⟨⟨writer, snoop⟩, sent, rfl⟩ := Option.map_eq_some_iff.mp sent
  have reached : run (memoryStep (twoControllers 1)) (freshSystem 2)
      (wordWritten (twoControllers 1) (0 : Fin 2)) = some t := by
    unfold wordWritten
    rw [run_cons, first, Option.bind_some, run_cons, second]
    rfl
  have heard := ((claimed t reached).2 u first).1 t _ second sent (1 : Fin 2)
  rw [if_pos ⟨Nat.one_ne_zero, rfl, rfl⟩] at heard
  obtain ⟨dcache, -, invalidated⟩ := Option.map_eq_some_iff.mp heard
  rw [← invalidated] at missed
  simp at missed

end Binding

end Socrocket.MmuCache
